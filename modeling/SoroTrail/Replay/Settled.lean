import SoroTrail.Replay.Run

/-!
# Completed replays

After a replay that has completed every row of the range holds the decoding of its own
raw XDR, and another run finds nothing to change.  It needs that the id of a row that
is decoded belongs to that row alone, since batches are read and rewritten by id, and
that rounding its numbers to binary64 hides no difference.
-/

set_option autoImplicit false

namespace SoroTrail.Replay

open Lib Store Replayer List Option Bool Json

variable {r : Replayer} {s s' : State} {e e' : Event} {rows : List Event}

/-! ## Rows -/

/-- The decoding a row is to hold: of its raw XDR, if it is in the range and has any that decodes. -/
def Replayer.replays (r : Replayer) (e : Event) : Option (String × String) :=
  if r.inRange e && hasRawXDR e then
    match r.decode e with
    | .ok decoded => some decoded
    | .error _ => none
  else none

def Settled (r : Replayer) (e : Event) : Prop :=
  ∀ topics value, r.replays e = some (topics, value) →
    parse e.topics = parse topics ∧ parse e.value = parse value

def Replayer.rewritten (r : Replayer) (e : Event) (topics value : String) : Event :=
  { e with topics := r.jsonb.store topics, value := r.jsonb.store value }

def Revised (r : Replayer) (e e' : Event) : Prop :=
  e' = e ∨ ∃ topics value, r.replays e = some (topics, value) ∧ e' = r.rewritten e topics value

theorem replays_rewritten (e : Event) (topics value : String) :
    r.replays (r.rewritten e topics value) = r.replays e := rfl

theorem settled_rewritten {topics value : String} (h : r.replays e = some (topics, value)) :
    Settled r (r.rewritten e topics value) := by
  intro topics' value' h'
  rw [replays_rewritten, h] at h'
  cases h'
  exact ⟨r.jsonb.parse_store topics, r.jsonb.parse_store value⟩

theorem Revised.replays (h : Revised r e e') : r.replays e' = r.replays e := by
  rcases h with rfl | ⟨topics, value, _, rfl⟩
  · rfl
  · exact replays_rewritten e topics value

theorem Revised.key (h : Revised r e e') : eventKey .postgres e' = eventKey .postgres e := by
  rcases h with rfl | ⟨topics, value, _, rfl⟩ <;> rfl

theorem Revised.rewrite {topics value : String} (h : Revised r e e')
    (hreplays : r.replays e' = some (topics, value)) :
    Revised r e (r.rewritten e' topics value) := by
  rcases h with rfl | ⟨topics', value', _, rfl⟩
  · exact .inr ⟨topics, value, hreplays, rfl⟩
  · exact .inr ⟨topics, value, hreplays, rfl⟩

/-! ## What a table must be like -/

/-- The comparison on binary64 numbers does not take the documents for equal when they are not. -/
structure Exact (new old : String) : Prop where
  finite : (unmarshal new).isSome = true
  apart : unmarshal new = unmarshal old → parse new = parse old

/-- Every row that is decoded has an id of its own, and numbers that rounding keeps apart. -/
structure Replayable (r : Replayer) (rows : List Event) : Prop where
  ids : ∀ x ∈ rows, ∀ y ∈ rows, (r.replays x).isSome = true → y.id = x.id → y = x
  named : ∀ x ∈ rows, (r.replays x).isSome = true → x.id ≠ ""
  exact : ∀ x ∈ rows, ∀ topics value, r.replays x = some (topics, value) →
    Exact topics x.topics ∧ Exact value x.value

variable {new old : String}

theorem Exact.self (h : Exact new old) (old' : String)
    (hparse : parse old' = parse new) : Exact new old' :=
  ⟨h.finite, fun _ => hparse.symm⟩

theorem Replayable.revised {t t' : Table Event (eventKey .postgres)} (h : Replayable r t.rows)
    (hrows : List.Forall₂ (Revised r) t.rows t'.rows) : Replayable r t'.rows := by
  have hfrom : ∀ {x}, x ∈ t'.rows → ∃ x₀ ∈ t.rows, Revised r x₀ x := by
    intro x hx
    obtain ⟨i, hi, rfl⟩ := getElem_of_mem hx
    exact ⟨_, getElem_mem (hrows.length_eq ▸ hi), hrows.get (hrows.length_eq ▸ hi) hi⟩
  refine ⟨fun x hx y hy hsome hid => ?_, fun x hx hsome => ?_, fun x hx topics value hreplays => ?_⟩
  · obtain ⟨x₀, hx₀, hxr⟩ := hfrom hx
    obtain ⟨y₀, hy₀, hyr⟩ := hfrom hy
    have hids : y₀.id = x₀.id := by
      rw [← (eventKey_inj hxr.key).2, ← (eventKey_inj hyr.key).2, hid]
    have hsame := h.ids x₀ hx₀ y₀ hy₀ (hxr.replays ▸ hsome) hids
    exact Table.eq_of_key hy hx (by rw [hyr.key, hxr.key, hsame])
  · obtain ⟨x₀, hx₀, hxr⟩ := hfrom hx
    rw [(eventKey_inj hxr.key).2]
    exact h.named x₀ hx₀ (hxr.replays ▸ hsome)
  · obtain ⟨x₀, hx₀, hxr⟩ := hfrom hx
    have hexact := h.exact x₀ hx₀ topics value (hxr.replays ▸ hreplays)
    rcases hxr with rfl | ⟨topics', value', hold, rfl⟩
    · exact hexact
    · rw [replays_rewritten, hold] at hreplays
      cases hreplays
      exact ⟨hexact.1.self _ (r.jsonb.parse_store topics), hexact.2.self _ (r.jsonb.parse_store value)⟩

theorem parse_empty : parse "" = none := by decide

theorem jsonEqual_iff (hfinite : (unmarshal new).isSome = true) :
    jsonEqual new old = true ↔ unmarshal new = unmarshal old := by
  have hempty : unmarshal "" = none := by simp [unmarshal, parse_empty]
  obtain ⟨x, hx⟩ := isSome_iff_exists.mp hfinite
  have hnew : new ≠ "" := by
    rintro rfl
    cases hx
  by_cases hold : old = ""
  · subst hold
    simp [jsonEqual, hempty, hx, hnew]
  · rw [jsonEqual, if_neg (by simp [hnew, hold]), hx]
    cases hy : unmarshal old with
    | none => simp
    | some y => simp

theorem Exact.jsonEqual_iff (h : Exact new old) :
    jsonEqual new old = true ↔ parse old = parse new := by
  rw [Replay.jsonEqual_iff h.finite]
  exact ⟨fun heq => (h.apart heq).symm, fun hparse => unmarshal_congr hparse.symm⟩

/-! ## Batches -/

def Replayer.rewriteOf (r : Replayer) (e : Event) : Option EventDecoding :=
  if hasRawXDR e then
    match r.decode e with
    | .error _ => none
    | .ok (topics, value) =>
      if jsonEqual topics e.topics && jsonEqual value e.value then none else some ⟨e.id, topics, value⟩
  else none

theorem decodeRow_eq (acc : List EventDecoding × Summary) (e : Event) :
    (r.decodeRow acc e).1 = acc.1 ++ (r.rewriteOf e).toList ∧
      (r.decodeRow acc e).2.changed = acc.2.changed + (r.rewriteOf e).toList.length ∧
      (r.decodeRow acc e).2.completed = acc.2.completed := by
  cases hraw : hasRawXDR e with
  | false => simp [decodeRow, rewriteOf, hraw]
  | true =>
    cases hdecode : r.decode e with
    | error err => simp [decodeRow, rewriteOf, hraw, hdecode]
    | ok decoded =>
      obtain ⟨topics, value⟩ := decoded
      cases hequal : jsonEqual topics e.topics && jsonEqual value e.value with
      | true => simp [decodeRow, rewriteOf, hraw, hdecode, hequal]
      | false => simp [decodeRow, rewriteOf, hraw, hdecode, hequal]

theorem foldl_decodeRow (events : List Event) (acc : List EventDecoding × Summary) :
    (events.foldl r.decodeRow acc).1 = acc.1 ++ events.filterMap r.rewriteOf ∧
      (events.foldl r.decodeRow acc).2.changed =
        acc.2.changed + (events.filterMap r.rewriteOf).length ∧
      (events.foldl r.decodeRow acc).2.completed = acc.2.completed := by
  induction events generalizing acc with
  | nil => simp
  | cons e events ih =>
    obtain ⟨hrewrites, hchanged, hcompleted⟩ := decodeRow_eq acc e
    obtain ⟨ihrewrites, ihchanged, ihcompleted⟩ := ih (r.decodeRow acc e)
    have hcons : (e :: events).filterMap r.rewriteOf =
        (r.rewriteOf e).toList ++ events.filterMap r.rewriteOf := by
      cases hone : r.rewriteOf e <;> simp [hone]
    rw [foldl_cons, hcons]
    refine ⟨?_, ?_, ihcompleted.trans hcompleted⟩
    · rw [ihrewrites, hrewrites, append_assoc]
    · rw [ihchanged, hchanged, length_append, Nat.add_assoc]

theorem decodeBatch_rewrites (events : List Event) (sum : Summary) :
    (r.decodeBatch events sum).1 = events.filterMap r.rewriteOf :=
  (foldl_decodeRow events ([], sum)).1

theorem rewriteOf_eq_none_iff (hrange : r.inRange e = true)
    (hexact : ∀ topics value, r.replays e = some (topics, value) →
      Exact topics e.topics ∧ Exact value e.value) : r.rewriteOf e = none ↔ Settled r e := by
  cases hraw : hasRawXDR e with
  | false => simp [rewriteOf, Settled, replays, hraw]
  | true =>
    cases hdecode : r.decode e with
    | error err => simp [rewriteOf, Settled, replays, hraw, hdecode]
    | ok decoded =>
      obtain ⟨topics, value⟩ := decoded
      have hreplays : r.replays e = some (topics, value) := by
        simp [replays, hrange, hraw, hdecode]
      obtain ⟨htopics, hvalue⟩ := hexact topics value hreplays
      have hsettled : Settled r e ↔
          parse e.topics = parse topics ∧ parse e.value = parse value := by
        constructor
        · intro h
          exact h topics value hreplays
        · intro h topics' value' h'
          rw [hreplays] at h'
          cases h'
          exact h
      rw [hsettled, ← htopics.jsonEqual_iff, ← hvalue.jsonEqual_iff]
      simp [rewriteOf, hraw, hdecode]

theorem replays_of_rewriteOf {d : EventDecoding} (hrange : r.inRange e = true)
    (h : r.rewriteOf e = some d) : d.id = e.id ∧ r.replays e = some (d.topics, d.value) := by
  cases hraw : hasRawXDR e with
  | false => simp [rewriteOf, hraw] at h
  | true =>
    cases hdecode : r.decode e with
    | error err => simp [rewriteOf, hraw, hdecode] at h
    | ok decoded =>
      simp only [rewriteOf, hraw, hdecode, if_true] at h
      split at h
      · cases h
      · cases h
        exact ⟨rfl, by simp [replays, hrange, hraw, hdecode]⟩

/-! ## Commits -/

theorem rewriteRow_cases (data : List EventDecoding) (pick : Event → Nat) (e : Event) :
    (r.rewriteRow data pick e = e ∧ ∀ d ∈ data, d.id ≠ e.id) ∨
      ∃ d ∈ data, d.id = e.id ∧ r.rewriteRow data pick e = r.rewritten e d.topics d.value := by
  simp only [rewriteRow]
  cases hget : (data.filter fun d => decide (d.id = e.id))[
      pick e % (data.filter fun d => decide (d.id = e.id)).length]? with
  | some d =>
    have hd := mem_filter.mp (mem_of_getElem? hget)
    exact .inr ⟨d, hd.1, by simpa using hd.2, rfl⟩
  | none =>
    refine .inl ⟨rfl, fun d hd hid => ?_⟩
    have hpos : 0 < (data.filter fun d => decide (d.id = e.id)).length :=
      length_pos_of_mem (mem_filter.mpr ⟨hd, by simpa using hid⟩)
    have hlt := Nat.mod_lt (pick e) hpos
    rw [List.getElem?_eq_none_iff] at hget
    omega

theorem rewriteRow_nil (pick : Event → Nat) (e : Event) : r.rewriteRow [] pick e = e := by
  simp [rewriteRow]

def SettledTo (r : Replayer) (rows : List Event) (cursor : String) : Prop :=
  ∀ x ∈ rows, ¬ cursor < x.id → Settled r x

/-- A batch that is to be committed: each rewrite is the decoding of a row, and what is not settled
up to the cursor is among them. -/
structure Rewrites (r : Replayer) (rows : List Event) (cursor : String) (rewrites : List EventDecoding) :
    Prop where
  own : ∀ d ∈ rewrites, ∃ x ∈ rows, d.id = x.id ∧ r.replays x = some (d.topics, d.value)
  all : ∀ x ∈ rows, ¬ cursor < x.id → Settled r x ∨ ∃ d ∈ rewrites, d.id = x.id

variable {cursor : String} {rewrites : List EventDecoding}

theorem Rewrites.row {x : Event} (h : Rewrites r rows cursor rewrites) (hrows : Replayable r rows)
    (hx : x ∈ rows) (pick : Event → Nat) :
    (r.rewriteRow rewrites pick x = x ∧ ∀ d ∈ rewrites, d.id ≠ x.id) ∨
      ∃ topics value, r.replays x = some (topics, value) ∧
        r.rewriteRow rewrites pick x = r.rewritten x topics value := by
  rcases rewriteRow_cases rewrites pick x with hkept | ⟨d, hd, hid, hrow⟩
  · exact .inl hkept
  · obtain ⟨y, hy, hyid, hyreplays⟩ := h.own d hd
    have hsame := hrows.ids y hy x hx (by rw [hyreplays]; rfl) (hid.symm.trans hyid)
    subst hsame
    exact .inr ⟨d.topics, d.value, hyreplays, hrow⟩

theorem Rewrites.settledTo (h : Rewrites r rows cursor rewrites) (hrows : Replayable r rows)
    (pick : Event → Nat) : SettledTo r (rows.map (r.rewriteRow rewrites pick)) cursor := by
  intro y hy hle
  obtain ⟨x, hx, rfl⟩ := mem_map.mp hy
  rcases h.row hrows hx pick with ⟨hkept, hnone⟩ | ⟨topics, value, hreplays, hrow⟩
  · rw [hkept] at hle ⊢
    rcases h.all x hx hle with hsettled | ⟨d, hd, hid⟩
    · exact hsettled
    · exact absurd hid (hnone d hd)
  · rw [hrow]
    exact settled_rewritten hreplays

theorem forall₂_map_right {α β : Type} {R : α → β → Prop} {f : β → β} {xs : List α} {ys : List β}
    (h : List.Forall₂ R xs ys) (hf : ∀ x, ∀ y ∈ ys, R x y → R x (f y)) :
    List.Forall₂ R xs (ys.map f) := by
  induction h with
  | nil => exact .nil
  | cons hxy _ ih =>
    exact .cons (hf _ _ (.head _) hxy) (ih fun x y hy => hf x y (.tail _ hy))

theorem Rewrites.revised {old : List Event} (h : Rewrites r rows cursor rewrites)
    (hrows : Replayable r rows) (hrevised : List.Forall₂ (Revised r) old rows)
    (pick : Event → Nat) :
    List.Forall₂ (Revised r) old (rows.map (r.rewriteRow rewrites pick)) := by
  refine forall₂_map_right hrevised fun x y hy hxy => ?_
  rcases h.row hrows hy pick with ⟨hkept, _⟩ | ⟨topics, value, hreplays, hrow⟩
  · rw [hkept]
    exact hxy
  · rw [hrow]
    exact hxy.rewrite hreplays

theorem rewrites_nil (h : SettledTo r rows cursor) : Rewrites r rows cursor [] :=
  ⟨fun _ hd => absurd hd not_mem_nil, fun x hx hle => .inl (h x hx hle)⟩

/-! ## The next batch -/

section Batch

variable {cursor : String} {all : List Event}

theorem mem_all_iff (hadmits : r.admits rows cursor all = true) (x : Event) :
    x ∈ all ↔ x ∈ rows ∧ r.inRange x = true ∧ cursor < x.id := by
  simp only [admits, and_eq_true, decide_eq_true_eq] at hadmits
  rw [hadmits.1.mem_iff]
  simp

theorem inRange_of_replays (h : (r.replays e).isSome = true) : r.inRange e = true := by
  cases hrange : r.inRange e with
  | true => rfl
  | false => simp [replays, hrange] at h

theorem settled_of_all_nil (hadmits : r.admits rows cursor [] = true) (h : SettledTo r rows cursor) :
    ∀ x ∈ rows, Settled r x := by
  intro x hx
  by_cases hafter : cursor < x.id
  · intro topics value hreplays
    have hrange := inRange_of_replays (by rw [hreplays]; rfl)
    exact absurd ((mem_all_iff hadmits x).mpr ⟨hx, hrange, hafter⟩) not_mem_nil
  · exact h x hx hafter

/-- The rewrites of a batch that ends with `last`. -/
theorem rewrites_batch {n : Nat} {last : Event} (hrows : Replayable r rows)
    (hadmits : r.admits rows cursor all = true) (hlast : (all.take n).getLast? = some last)
    (h : SettledTo r rows cursor) :
    Rewrites r rows last.id ((all.take n).filterMap r.rewriteOf) := by
  have hall := mem_all_iff hadmits
  have hlastMem : last ∈ all.take n := mem_of_getLast? hlast
  have hsorted : (all.take n ++ all.drop n).Pairwise fun x y => x.id ≤ y.id := by
    simp only [admits, and_eq_true, decide_eq_true_eq] at hadmits
    rw [take_append_drop]
    exact hadmits.2
  refine ⟨fun d hd => ?_, fun x hx hle => ?_⟩
  · obtain ⟨x, hx, hone⟩ := mem_filterMap.mp hd
    obtain ⟨hxrows, hrange, _⟩ := (hall x).mp (mem_of_mem_take hx)
    exact ⟨x, hxrows, replays_of_rewriteOf hrange hone⟩
  · by_cases hafter : cursor < x.id
    · cases hreplays : r.replays x with
      | none =>
        refine .inl fun topics value hsome => ?_
        rw [hreplays] at hsome
        cases hsome
      | some decoded =>
        have hrange := inRange_of_replays (by rw [hreplays]; rfl)
        have hmem : x ∈ all.take n := by
          have hxall := (hall x).mpr ⟨hx, hrange, hafter⟩
          rw [← take_append_drop n all, mem_append] at hxall
          rcases hxall with hxall | hxall
          · exact hxall
          · -- a row behind the cut has a later id, unless it is the last one itself
            have hge := (pairwise_append.mp hsorted).2.2 last hlastMem x hxall
            have hid : last.id = x.id := le_antisymm hge (not_lt.mp hle)
            have hlastRows := ((hall last).mp (mem_of_mem_take hlastMem)).1
            rw [← hrows.ids x hx last hlastRows (by rw [hreplays]; rfl) hid]
            exact hlastMem
        cases hone : r.rewriteOf x with
        | none => exact .inl ((rewriteOf_eq_none_iff hrange (hrows.exact x hx)).mp hone)
        | some d =>
          exact .inr ⟨d, mem_filterMap.mpr ⟨x, hmem, hone⟩, (replays_of_rewriteOf hrange hone).1⟩
    · exact .inl (h x hx hafter)

end Batch

/-! ## Runs -/

def PhaseOk (r : Replayer) (rows : List Event) : Phase → Prop
  | .idle => True
  | .fetching a cursor sum => sum.completed = false ∧ (a.dryRun = false → SettledTo r rows cursor)
  | .committing _ rewrites cursor sum => sum.completed = false ∧ Rewrites r rows cursor rewrites
  | .sealing _ _ _ => ∀ x ∈ rows, Settled r x

/-- `t` is the table the first run found. -/
structure Inv (r : Replayer) (t : Table Event (eventKey .postgres)) (s : State) : Prop where
  rows : List.Forall₂ (Revised r) t.rows s.rows
  saved : ∀ st ∈ s.saved, r.resumes st = true → SettledTo r s.rows st.lastEventID
  phase : PhaseOk r s.rows s.phase
  report : ∀ rep ∈ s.report, rep.ok = true → rep.sum.completed = true → rep.args.dryRun = false →
    (∀ x ∈ s.rows, Settled r x) ∧ ∀ st ∈ s.saved, st.completed = true
  quiet : s.phase ≠ .idle → s.report = none

variable {t : Table Event (eventKey .postgres)} {a : Args} {sum : Summary}

theorem empty_lt {x : String} (h : x ≠ "") : "" < x := by
  rw [String.lt_iff_toList_lt]
  cases hx : x.toList with
  | nil => exact absurd (by simpa using hx) h
  | cons c cs => exact nil_lt_cons c cs

theorem settledTo_start (h : Replayable r rows) : SettledTo r rows "" := by
  intro x hx hle topics value hreplays
  exact absurd (empty_lt (h.named x hx (by rw [hreplays]; rfl))) hle

theorem batch_pos (a : Args) : 0 < a.batch := by
  rw [Args.batch]
  split
  · decide
  · omega

theorem inv_init (t : Table Event (eventKey .postgres)) {saved : Option ReplayState}
    (hsaved : ∀ st ∈ saved, r.resumes st = false) : Inv r t (.init t saved) where
  rows := forall₂_same.mpr fun _ _ => .inl rfl
  saved := fun st hst hresumes => absurd hresumes (by rw [hsaved st hst]; decide)
  phase := trivial
  report := by simp [State.init]
  quiet := fun _ => rfl

theorem Inv.finish {ok : Bool} (h : Inv r t s) (hsum : ok = true → sum.completed = false) :
    Inv r t (s.finish a sum ok) := by
  refine ⟨h.rows, h.saved, trivial, fun rep hrep hok hcompleted _ => ?_, absurd rfl⟩
  cases hrep
  rw [hsum hok] at hcompleted
  cases hcompleted

theorem Inv.goto {phase : Phase} (h : Inv r t s) (hreport : s.report = none)
    (hphase : PhaseOk r s.rows phase) : Inv r t (s.goto phase) :=
  ⟨h.rows, h.saved, hphase, h.report, fun _ => hreport⟩

theorem Inv.forget (h : Inv r t s) : Inv r t { s with report := none } :=
  ⟨h.rows, h.saved, h.phase, by simp, fun _ => rfl⟩

theorem start_keeps {outcome : Outcome} (hrows : Replayable r s.rows) (h : Inv r t s)
    (hreport : s.report = none) : Inv r t (r.start s a outcome) := by
  have hstarted : Inv r t { s with saved := some r.startReplayState } := by
    refine ⟨h.rows, fun st hst _ => ?_, h.phase, by simp [hreport], fun _ => hreport⟩
    cases hst
    exact settledTo_start hrows
  rw [start]
  split
  · exact hstarted.finish fun hok => by cases hok
  · exact hstarted.goto hreport ⟨rfl, fun _ => settledTo_start hrows⟩

theorem begin_keeps {outcome : Outcome} (hrows : Replayable r s.rows) (h : Inv r t s) :
    Inv r t (r.begin s a outcome) := by
  have hforget := h.forget
  rw [begin]
  split
  · exact hforget.finish fun hok => by cases hok
  · split
    · exact hforget.goto rfl ⟨rfl, fun _ => settledTo_start hrows⟩
    · split
      · exact start_keeps hrows hforget rfl
      · rename_i st hst
        split
        · rename_i hresumes
          simp only [and_eq_true] at hresumes
          exact hforget.goto rfl ⟨rfl, fun _ => h.saved st hst hresumes.2⟩
        · exact start_keeps hrows hforget rfl

theorem commit_keeps (sum : Summary) (done : Bool) (pick : Event → Nat)
    (hrows : Replayable r s.rows) (h : Inv r t s) (hrewrites : Rewrites r s.rows cursor rewrites) :
    Inv r t { r.commit s rewrites pick cursor sum done with phase := .idle, report := none } ∧
      SettledTo r (r.commit s rewrites pick cursor sum done).rows cursor := by
  have hsettled := hrewrites.settledTo hrows pick
  refine ⟨⟨hrewrites.revised hrows h.rows pick, fun st hst _ => ?_, trivial, by simp, fun _ => rfl⟩,
    hsettled⟩
  obtain ⟨old, _, rfl⟩ := map_eq_some_iff.mp hst
  exact hsettled

theorem batch_keeps {all : List Event} (hrows : Replayable r s.rows) (h : Inv r t s)
    (hphase : PhaseOk r s.rows (.fetching a cursor sum)) (hreport : s.report = none)
    (hadmits : r.admits s.rows cursor all = true) :
    Inv r t (r.batch s a cursor sum (all.take a.batch)) := by
  have hcompleted := (foldl_decodeRow (r := r) (all.take a.batch) ([], sum)).2.2
  rw [batch]
  cases hlast : (all.take a.batch).getLast? with
  | none =>
    have hnil : all = [] := by
      rw [List.getLast?_eq_none_iff, take_eq_nil_iff] at hlast
      exact hlast.resolve_left (Nat.ne_of_gt (batch_pos a))
    subst hnil
    dsimp only
    split
    · rename_i hdry
      refine ⟨h.rows, h.saved, trivial, fun rep hrep _ _ hwet => ?_, absurd rfl⟩
      cases hrep
      rw [hdry] at hwet
      cases hwet
    · rename_i hwet
      exact h.goto hreport (settled_of_all_nil hadmits (hphase.2 (by simpa using hwet)))
  | some last =>
    dsimp only
    split
    · rename_i hdry
      refine h.goto hreport ⟨hcompleted.trans hphase.1, fun hwet => ?_⟩
      rw [hdry] at hwet
      cases hwet
    · rename_i hwet
      refine h.goto hreport ⟨hcompleted.trans hphase.1, ?_⟩
      rw [decodeBatch_rewrites]
      exact rewrites_batch hrows hadmits hlast (hphase.2 (by simpa using hwet))

theorem step_keeps {m : Move} (ht : Replayable r t.rows) (h : Inv r t s)
    (hstep : r.step s m = some s') : Inv r t s' := by
  have hrows : Replayable r s.rows := ht.revised h.rows
  have hok := h.phase
  cases step_effect hstep with try rw [hphase] at hok
  | begin => exact begin_keeps hrows h
  | fetch hphase hadmits => exact batch_keeps hrows h (hphase ▸ hok) (h.quiet (by simp [hphase])) hadmits
  | @stop _ a sum ok _ hends =>
    refine h.finish fun hsum => ?_
    cases hphase : s.phase <;> rw [hphase] at hends hok
    · exact hends.elim
    · exact hends.2 ▸ hok.1
    · exact hends.2 ▸ hok.1
    · exact absurd hsum (by simp [hends.2.2])
  | @commit pick a rewrites cursor sum hphase =>
    obtain ⟨hinv, hsettled⟩ := commit_keeps sum false pick hrows h hok.2
    have hreport := h.quiet (by simp [hphase])
    exact ⟨hinv.rows, hinv.saved, ⟨hok.1, fun _ => hsettled⟩,
      by simp [State.goto, commit, hreport], fun _ => hreport⟩
  | @commitLost pick a rewrites cursor sum hphase =>
    obtain ⟨hinv, _⟩ := commit_keeps sum false pick hrows h hok.2
    exact ⟨hinv.rows, hinv.saved, trivial, by simp [State.finish], absurd rfl⟩
  | @marker pick outcome a cursor sum ok hphase =>
    obtain ⟨hinv, _⟩ := commit_keeps sum true pick hrows h (rewrites_nil fun x hx _ => hok x hx)
    refine ⟨hinv.rows, hinv.saved, trivial, fun _ _ _ _ _ => ⟨fun y hy => ?_, fun st hst => ?_⟩,
      absurd rfl⟩
    · obtain ⟨x, hx, rfl⟩ := mem_map.mp hy
      exact hok x hx
    · obtain ⟨old, _, rfl⟩ := map_eq_some_iff.mp hst
      simp [ReplayState.advance]
  | crash => exact ⟨h.rows, h.saved, trivial, by simp, fun _ => rfl⟩

theorem run_inv {saved : Option ReplayState} {ms : List Move} (ht : Replayable r t.rows)
    (hsaved : ∀ st ∈ saved, r.resumes st = false)
    (hrun : Steps.run r.step (.init t saved) ms = some s) : Inv r t s :=
  Steps.run_keeps (fun _ _ _ h hstep => step_keeps ht h hstep) (inv_init t hsaved) hrun

/-! ## Runs that find nothing to change -/

def NoChange : Phase → Prop
  | .idle => True
  | .fetching _ _ sum | .sealing _ _ sum => sum.changed = 0
  | .committing _ rewrites _ sum => rewrites = [] ∧ sum.changed = 0

structure Unchanged (r : Replayer) (s : State) : Prop where
  rows : Replayable r s.rows
  settled : ∀ x ∈ s.rows, Settled r x
  phase : NoChange s.phase
  report : ∀ rep ∈ s.report, rep.sum.changed = 0

theorem Unchanged.goto {phase : Phase} (h : Unchanged r s) (hphase : NoChange phase) :
    Unchanged r (s.goto phase) :=
  ⟨h.rows, h.settled, hphase, h.report⟩

theorem Unchanged.finish {ok : Bool} (h : Unchanged r s) (hsum : sum.changed = 0) :
    Unchanged r (s.finish a sum ok) := by
  refine ⟨h.rows, h.settled, trivial, fun rep hrep => ?_⟩
  cases hrep
  exact hsum

theorem Unchanged.commit {done : Bool} (pick : Event → Nat) (h : Unchanged r s) :
    Unchanged r (r.commit s [] pick cursor sum done) := by
  have hrows : (r.commit s [] pick cursor sum done).rows = s.rows := by
    have hid : r.rewriteRow [] pick = id := funext fun e => rewriteRow_nil pick e
    show s.rows.map (r.rewriteRow [] pick) = s.rows
    rw [hid, List.map_id]
  exact ⟨hrows ▸ h.rows, hrows ▸ h.settled, h.phase, h.report⟩

theorem unchanged_batch {all : List Event} (h : Unchanged r s) (hsum : sum.changed = 0)
    (hadmits : r.admits s.rows cursor all = true) :
    Unchanged r (r.batch s a cursor sum (all.take a.batch)) := by
  have hnone : (all.take a.batch).filterMap r.rewriteOf = [] := by
    refine filterMap_eq_nil_iff.mpr fun x hx => ?_
    obtain ⟨hmem, hrange, _⟩ := (mem_all_iff hadmits x).mp (mem_of_mem_take hx)
    exact (rewriteOf_eq_none_iff hrange (h.rows.exact x hmem)).mpr (h.settled x hmem)
  have hchanged : (r.decodeBatch (all.take a.batch) sum).2.changed = 0 := by
    rw [decodeBatch, (foldl_decodeRow _ _).2.1, hnone, hsum]
    rfl
  rw [batch]
  split
  · split
    · exact h.finish hsum
    · exact h.goto hsum
  · dsimp only
    split
    · exact h.goto hchanged
    · exact h.goto ⟨by rw [decodeBatch_rewrites, hnone], hchanged⟩

theorem unchanged_step {m : Move} (hm : ∀ a outcome, m ≠ .begin a outcome) (h : Unchanged r s)
    (hstep : r.step s m = some s') : Unchanged r s' := by
  have hnone := h.phase
  cases step_effect hstep with
  | begin => exact absurd rfl (hm _ _)
  | fetch hphase hadmits => exact unchanged_batch h (by rwa [hphase] at hnone) hadmits
  | stop _ hends =>
    refine h.finish ?_
    cases hphase : s.phase <;> rw [hphase] at hends hnone
    · exact hends.elim
    · exact hends.2 ▸ hnone
    · exact hends.2 ▸ hnone.2
    · exact hends.2.1 ▸ hnone
  | commit hphase =>
    rw [hphase] at hnone
    obtain ⟨rfl, hsum⟩ := hnone
    exact (h.commit _).goto hsum
  | commitLost hphase =>
    rw [hphase] at hnone
    obtain ⟨rfl, hsum⟩ := hnone
    exact (h.commit _).finish hsum
  | marker ok hphase =>
    rw [hphase] at hnone
    exact (h.commit _).finish hnone
  | crash => exact ⟨h.rows, h.settled, trivial, by simp⟩

theorem unchanged_start {outcome : Outcome} (h : Unchanged r s) : Unchanged r (r.start s a outcome) := by
  have hstarted : Unchanged r { s with saved := some r.startReplayState } :=
    ⟨h.rows, h.settled, h.phase, h.report⟩
  rw [start]
  split
  · exact hstarted.finish rfl
  · exact hstarted.goto rfl

theorem unchanged_begin (a : Args) (outcome : Outcome) (hrows : Replayable r s.rows)
    (hsettled : ∀ x ∈ s.rows, Settled r x) (hsaved : ∀ st ∈ s.saved, st.completed = true)
    (hidle : s.phase = .idle) : Unchanged r (r.begin s a outcome) := by
  have hforget : Unchanged r { s with report := none } :=
    ⟨hrows, hsettled, by rw [hidle]; trivial, by simp⟩
  rw [begin]
  split
  · exact hforget.finish rfl
  · split
    · exact hforget.goto rfl
    · split
      · exact unchanged_start hforget
      · rename_i st hst
        have hdone : r.resumes st = false := by simp [resumes, hsaved st hst]
        simp only [hdone, Bool.and_false, Bool.false_eq_true, if_false]
        exact unchanged_start hforget

/-! ## Completed replays -/

def Replayed (r : Replayer) (e e' : Event) : Prop :=
  match r.replays e with
  | none => e' = e
  | some (topics, value) =>
    e' = { e with topics := e'.topics, value := e'.value } ∧
      parse e'.topics = parse topics ∧ parse e'.value = parse value

theorem Revised.replayed (h : Revised r e e') (hsettled : Settled r e') : Replayed r e e' := by
  cases hreplays : r.replays e with
  | none =>
    simp only [Replayed, hreplays]
    rcases h with rfl | ⟨topics, value, hsome, _⟩
    · rfl
    · rw [hreplays] at hsome
      cases hsome
  | some decoded =>
    obtain ⟨topics, value⟩ := decoded
    have hparse := hsettled topics value (h.replays.trans hreplays)
    simp only [Replayed, hreplays]
    refine ⟨?_, hparse⟩
    rcases h with rfl | ⟨_, _, _, rfl⟩ <;> rfl

theorem forall₂_replayed {old : List Event} (h : List.Forall₂ (Revised r) old rows)
    (hsettled : ∀ x ∈ rows, Settled r x) : List.Forall₂ (Replayed r) old rows := by
  induction h with
  | nil => exact .nil
  | cons hxy _ ih =>
    exact .cons (hxy.replayed (hsettled _ (.head _)))
      (ih fun x hx => hsettled x (.tail _ hx))

/-- After any sequence of runs over the range of which the last one has completed, every row that
decodes holds its own decoding, every other row is as it was, and a further run changes nothing. -/
theorem completed_replay_settles (r : Replayer) (t : Table Event (eventKey .postgres))
    (ht : Replayable r t.rows) (saved : Option ReplayState) (hsaved : ∀ st ∈ saved, r.resumes st = false)
    (ms : List Move) (s : State) (hrun : Steps.run r.step (.init t saved) ms = some s) (rep : Report)
    (hreport : s.report = some rep) (hok : rep.ok = true) (hcompleted : rep.sum.completed = true)
    (hwet : rep.args.dryRun = false) :
    List.Forall₂ (Replayed r) t.rows s.rows ∧
      ∀ (a : Args) (outcome : Outcome) (ms' : List Move) (s' : State) (rep' : Report),
        (∀ m ∈ ms', ∀ a outcome, m ≠ .begin a outcome) →
        Steps.run r.step s (.begin a outcome :: ms') = some s' → s'.report = some rep' →
          rep'.sum.changed = 0 := by
  have hinv := run_inv ht hsaved hrun
  obtain ⟨hsettled, hdone⟩ := hinv.report rep hreport hok hcompleted hwet
  refine ⟨forall₂_replayed hinv.rows hsettled, fun a outcome ms' s' rep' hms' hrun' hreport' => ?_⟩
  have hidle : s.phase = .idle := by
    by_contra hbusy
    rw [hinv.quiet hbusy] at hreport
    cases hreport
  have hbegin := unchanged_begin a outcome (ht.revised hinv.rows) hsettled hdone hidle
  have hstep : r.step s (.begin a outcome) = some (r.begin s a outcome) := by
    simp [step, hidle]
  simp only [Steps.run, hstep] at hrun'
  have hunchanged : Unchanged r s' := by
    refine Steps.Along.invariant
      (fun _ _ _ hm h hstep => unchanged_step hm h hstep) ?_ hbegin hrun'
    exact Steps.Along.of_invariant (fun _ _ _ _ _ _ => trivial)
      (fun _ _ hm _ => hm) hms' trivial
  exact hunchanged.report rep' hreport'

/-! ## Tables of one and two rows -/

def demoReplayer : Replayer where
  ing := Ingest.new Ingest.Codec.verbatim false Ingest.Options.zero
  jsonb := ⟨id, fun _ => rfl⟩
  fromLedger := 1
  toLedger := 9

def u64 (digits : String) : String := "\x7b\"u64\":" ++ digits ++ "\x7d"

def storedRow (network raw value : String) : Event where
  id := "5-1"
  contractID := "C"
  ledger := 5
  type := "contract"
  txHash := "aa"
  txIndex := 0
  opIndex := 0
  inSuccessfulCall := true
  topics := "[]"
  value := value
  createdAt := Time.zero
  network := network
  rawTopicXDR := []
  rawValueXDR := raw

def oneBatch (rows : List Event) : List Move :=
  [.begin ⟨10, false, false⟩ .done, .fetch rows, .commit (fun _ => 0) .done, .fetch [],
    .commit (fun _ => 0) .done]

def smallTable : Table Event (eventKey .postgres) :=
  ⟨[storedRow "testnet" (u64 "7") (u64 "6")], by decide⟩

/-- The stored document is the decoded one rounded to binary64. -/
def roundedTable : Table Event (eventKey .postgres) :=
  ⟨[storedRow "testnet" (u64 "9007199254740993") (u64 "9007199254740992")], by decide⟩

def sharedTable : Table Event (eventKey .postgres) :=
  ⟨[storedRow "testnet" (u64 "1") (u64 "0"), storedRow "public" (u64 "2") (u64 "0")], by decide⟩

theorem replayable_small : Replayable demoReplayer smallTable.rows := by
  refine ⟨fun x hx y hy _ _ => ?_, fun x hx _ => ?_, fun x hx topics value h => ?_⟩
  · rw [mem_singleton.mp hx, mem_singleton.mp hy]
  · rw [mem_singleton.mp hx]
    decide
  · rw [mem_singleton.mp hx] at h
    cases h
    rw [mem_singleton.mp hx]
    exact ⟨⟨by decide, fun _ => rfl⟩, ⟨by decide +kernel, fun hsame => absurd hsame (by decide +kernel)⟩⟩

def State.outcome (s : State) : List String × Option Report := (s.rows.map Event.value, s.report)

def completedReport (changed : Nat) (processed : Nat) : Option Report :=
  some ⟨⟨10, false, false⟩, ⟨processed, changed, 0, 0, true, false⟩, true⟩

/-- The one row is rewritten, and no later run reports a change. -/
theorem completed_replay_settles_small :
    ∃ s, Steps.run demoReplayer.step (.init smallTable none) (oneBatch smallTable.rows) = some s ∧
      s.outcome = ([u64 "7"], completedReport 1 1) ∧
      List.Forall₂ (Replayed demoReplayer) smallTable.rows s.rows ∧
      ∀ (a : Args) (outcome : Outcome) (ms' : List Move) (s' : State) (rep' : Report),
        (∀ m ∈ ms', ∀ a outcome, m ≠ .begin a outcome) →
        Steps.run demoReplayer.step s (.begin a outcome :: ms') = some s' → s'.report = some rep' →
          rep'.sum.changed = 0 := by
  obtain ⟨s, hrun, hout⟩ := map_eq_some_iff.mp (by decide +kernel :
    (Steps.run demoReplayer.step (.init smallTable none) (oneBatch smallTable.rows)).map State.outcome =
      some ([u64 "7"], completedReport 1 1))
  exact ⟨s, hrun, hout, completed_replay_settles demoReplayer smallTable replayable_small none (by simp)
    (oneBatch smallTable.rows) s hrun _ (congrArg Prod.snd hout) rfl rfl rfl⟩

/-- A 64-bit integer that differs from the stored one by less than the rounding is not rewritten;
of two networks with one id both rows get the decoding of the first, and the next run has a change
to report again. -/
theorem completed_replay_leaves_wrong_decodings :
    (Steps.run demoReplayer.step (.init roundedTable none) (oneBatch roundedTable.rows)).map State.outcome =
        some ([u64 "9007199254740992"], completedReport 0 1) ∧
      roundedTable.rows.map Event.rawValueXDR = [u64 "9007199254740993"] ∧
      (Steps.run demoReplayer.step (.init sharedTable none) (oneBatch sharedTable.rows)).map State.outcome =
        some ([u64 "1", u64 "1"], completedReport 2 2) ∧
      sharedTable.rows.map Event.rawValueXDR = [u64 "1", u64 "2"] ∧
      (Steps.run demoReplayer.step (.init sharedTable none) (oneBatch sharedTable.rows ++
          oneBatch [storedRow "testnet" (u64 "1") (u64 "1"), storedRow "public" (u64 "2") (u64 "1")])).map
        State.outcome = some ([u64 "2", u64 "2"], completedReport 1 2) := by
  decide +kernel

end SoroTrail.Replay
