import SoroTrail.Backfill.Complete

/-!
# The rows of a backfill without failures

Whatever its workers do, a run without failures that completes on an empty table
writes the rows that stand in their places, and no others.  The place of a row is
where its transaction stands on its page, so two runs over the same range agree when
their pages cut no ledger differently.
-/

set_option autoImplicit false

namespace SoroTrail.Backfill

open Lib Store List Steps

variable {b b' : Backfiller} {s s' : State}

/-! ## Runs without failures -/

def Move.clean : Move → Bool
  | .main ok => ok
  | .worker _ choice => decide (choice = .ok)
  | .begin _ | .stop => false

/-- A sub-range that is still to be started has no recorded progress. -/
def Untried (b : Backfiller) : Run → Prop
  | .starting => 0 < b.opts.fromLedger
  | .splitting ranges => ∀ r ∈ ranges, r.lastLedger < r.fromLedger
  | .working ranges workers _ => ∀ (i : Nat) w r, workers[i]? = some w → ranges[i]? = some r →
      w = .waiting ∨ w = .pending → r.lastLedger < r.fromLedger
  | .idle | .serial .. | .closing .. | .completing => True

theorem untried_serialStep (b : Backfiller) (s : State) (start through : Int) (phase : Serial) :
    Untried b (serialStep b s start through phase).run := by
  have hnext : ∀ (s : State) (start through : Int) (next : Option String),
      Untried b (continueSerial s start through next).run := by
    intro s start through next
    cases next <;> trivial
  cases phase with
  | fetching cursor =>
    simp only [serialStep, serialPage]
    split
    · trivial
    · split
      · split <;> trivial
      · split
        · trivial
        · exact hnext _ _ _ _
  | upserting events lastLedger next => trivial
  | saving lastLedger next => exact hnext _ _ _ _

theorem workerStep_started {ranges : List BackfillRange} {r r' : BackfillRange} {i failures : Nat}
    {w w' : Worker} (h : workerStep b s ranges r i w .ok = some (w', r', failures, s')) :
    ¬ (w' = .waiting ∨ w' = .pending) := by
  have hafter : ∀ start page out,
      ¬ (afterPage b start page out = .waiting ∨ afterPage b start page out = .pending) := by
    intro start page out
    rw [afterPage]
    split <;> simp
  cases w <;> simp only [workerStep, Option.some.injEq, Prod.mk.injEq, reduceCtorEq] at h
  all_goals obtain ⟨rfl, -, -, -⟩ := h
  case pending => split <;> simp
  case fetching =>
    split
    · simp
    · split <;> simp
  case advancing =>
    split
    · simp
    · exact hafter _ _ _
  case persisting => exact hafter _ _ _
  all_goals simp

theorem untried_step {m : Move} (hle : b.opts.fromLedger ≤ b.opts.toLedger) (hclean : m.clean = true)
    (h : Untried b s.run) (hstep : step b s m = some s') : Untried b s'.run := by
  cases step_effect b hstep with try rw [hphase] at h
  | begin => cases hclean
  | started hphase =>
    simp only [started]
    split
    · intro r hr
      have hfresh := mem_splitLedgerRanges h hle hr
      have hlower := hfresh.lower
      have hlast := hfresh.last
      have hfrom : 0 < b.opts.fromLedger := h
      omega
    · trivial
  | split hphase =>
    intro i w r _ hr _
    exact h r (mem_of_getElem? hr)
  | serial => exact untried_serialStep b s _ _ _
  | takeUp hphase hw =>
    intro j w₁ r₁ hw₁ hr₁ hkind
    rcases getElem?_set_cases hw₁ with ⟨rfl, rfl⟩ | ⟨-, hw₁⟩
    · exact h j .waiting r₁ hw hr₁ (.inl rfl)
    · exact h j w₁ r₁ hw₁ hr₁ hkind
  | worker hphase hw hr hnext =>
    rw [of_decide_eq_true hclean] at hnext
    intro j w₁ r₁ hw₁ hr₁ hkind
    rcases getElem?_set_cases hw₁ with ⟨rfl, rfl⟩ | ⟨hne, hw₁⟩
    · exact absurd hkind (workerStep_started hnext)
    · rw [List.getElem?_set_ne (Ne.symm hne)] at hr₁
      exact h j w₁ r₁ hw₁ hr₁ hkind
  | _ => trivial

theorem unsplit_of_untried {m : Move} (hclean : m.clean = true) (h : Untried b s.run) : Unsplit b s m := by
  cases m with
  | begin ok => cases hclean
  | main ok => trivial
  | stop => cases hclean
  | worker i choice =>
    simp only [Unsplit]
    split
    · rename_i ranges workers failedRanges hphase
      rw [hphase] at h
      intro hw r hr hfrom _
      have := h i .pending r hw hr (.inr rfl)
      omega
    · trivial

/-- A first run without failures never meets a ledger that is committed in part. -/
theorem clean_unsplit (hle : b.opts.fromLedger ≤ b.opts.toLedger) (t : Table Event (eventKey .postgres))
    {ms : List Move} (hclean : ∀ m ∈ ms, m.clean = true) :
    Along (step b) (Unsplit b) (.init t) (.begin true :: ms) := by
  refine ⟨by simp [Unsplit, State.init], fun s hs => ?_⟩
  refine Along.of_invariant
    (fun s m s' hm h hstep => untried_step hle hm h hstep)
    (fun s m hm h => unsplit_of_untried hm h) hclean ?_
  cases hs
  simp only [begin]
  split
  · trivial
  · show 0 < b.opts.fromLedger
    omega

/-! ## Ids -/

/-- The hashes of Horizon's transactions: 64 digits each, and no two alike. -/
structure Hashed (h : History) : Prop where
  length : ∀ tx ∈ h.txs, tx.hash.toList.length = 64
  nodup : (h.txs.map Transaction.hash).Nodup

theorem formatEventID_hash {h h' : String} {l l' o o' e e' : Int}
    (hlen : h.toList.length = h'.toList.length)
    (heq : Horizon.formatEventID h l o e = Horizon.formatEventID h' l' o' e') : h = h' := by
  have hlist := congrArg String.toList heq
  simp only [Horizon.formatEventID, String.toList_append, append_assoc] at hlist
  exact String.toList_inj.mp (append_inj hlist hlen).1

theorem extracted_id {tx : Transaction} {i : Int} {e : Event} (he : e ∈ b.extracted tx i) :
    ∃ opIndex eventIndex, e.id = Horizon.formatEventID tx.hash tx.ledger opIndex eventIndex := by
  have hbuilt : ∃ createdAt ev opIndex eventIndex, Horizon.buildEvent b.codec b.xdr b.opts.contractID
      (tx.hint i) createdAt ev opIndex eventIndex = some e := by
    simp only [Backfiller.extracted, Horizon.extractContractEvents] at he
    by_cases hempty : (tx.hint i).resultMetaXDR = ""
    · simp [hempty] at he
    · simp only [if_neg hempty] at he
      cases hmeta : Horizon.decodeMeta b.xdr (tx.hint i).resultMetaXDR with
      | error err => simp [hmeta] at he
      | ok m =>
        simp only [hmeta] at he
        split at he
        · cases he
        · obtain ⟨⟨ev, opIndex, eventIndex⟩, _, hev⟩ := mem_filterMap.mp he
          exact ⟨_, ev, opIndex, eventIndex, hev⟩
  obtain ⟨createdAt, ev, opIndex, eventIndex, hev⟩ := hbuilt
  refine ⟨opIndex, eventIndex, ?_⟩
  simp only [Horizon.buildEvent] at hev
  split at hev
  · cases hev
  · split at hev
    · cases hev
    · split at hev
      · cases hev
      · cases hev
        rfl

theorem position_of_key (hhash : Hashed b.history) {i j : Nat} {tx tx' : Transaction} {a c : Int}
    {e e' : Event} (hi : b.history.txs[i]? = some tx) (hj : b.history.txs[j]? = some tx')
    (he : e ∈ b.extracted tx a) (he' : e' ∈ b.extracted tx' c)
    (hkey : eventKey .postgres (liveRow .postgres e) = eventKey .postgres (liveRow .postgres e')) :
    i = j := by
  obtain ⟨opIndex, eventIndex, hid⟩ := extracted_id he
  obtain ⟨opIndex', eventIndex', hid'⟩ := extracted_id he'
  have hids : e.id = e'.id := (eventKey_inj hkey).2
  rw [hid, hid'] at hids
  have hlen := (hhash.length tx (mem_of_getElem? hi)).trans
    (hhash.length tx' (mem_of_getElem? hj)).symm
  have hsame := formatEventID_hash hlen hids
  have hmap : (b.history.txs.map Transaction.hash)[i]? = (b.history.txs.map Transaction.hash)[j]? := by
    simp [hi, hj, hsame]
  exact (List.getElem?_inj (by simpa using (List.getElem?_eq_some_iff.mp hi).1) hhash.nodup).mp hmap

/-! ## The rows -/

theorem Placed.unique {r r' : Event} (hhash : Hashed b.history) (h : Placed b r) (h' : Placed b r')
    (hkey : eventKey .postgres r = eventKey .postgres r') : r = r' := by
  obtain ⟨i, tx, e, hi, _, _, he, rfl⟩ := h
  obtain ⟨j, tx', e', hj, _, _, he', rfl⟩ := h'
  have hij := position_of_key hhash hi hj (mem_of_find?_eq_some he) (mem_of_find?_eq_some he') hkey
  subst hij
  rw [hi] at hj
  cases hj
  have hsame : sameKey (liveRow .postgres e) = sameKey (liveRow .postgres e') := by
    funext y
    rw [sameKey, sameKey, hkey]
  rw [hsame, he'] at he
  cases he
  rfl

/-- The rows of a run without failures that completes. -/
theorem mem_rows_iff (hfits : b.Fits) (hle : b.opts.fromLedger ≤ b.opts.toLedger)
    (hhash : Hashed b.history) {ms : List Move} (hclean : ∀ m ∈ ms, m.clean = true)
    (hrun : run (step b) (.init (Table.empty _)) (.begin true :: ms) = some s)
    (hreport : s.report = some ⟨true, 0⟩) (r : Event) : r ∈ s.rows ↔ Placed b r := by
  have hinv := run_inv hfits hle (clean_unsplit hle _ hclean) hrun
  have hsound : ∀ x ∈ s.rows, Placed b x := by
    intro x hx
    rcases hinv.sound x hx with hx | hx
    · exact absurd hx not_mem_nil
    · exact hx
  refine ⟨hsound r, fun hplaced => ?_⟩
  obtain ⟨i, tx, e, hi, hlow, hhigh, he, rfl⟩ := hplaced
  have hmem := mem_of_find?_eq_some he
  rw [extracted_txIndex] at hmem
  obtain ⟨e₀, he₀, rfl⟩ := mem_map.mp hmem
  obtain ⟨x, hx, hkey⟩ := hinv.report _ hreport rfl tx (mem_of_getElem? hi) hlow hhigh e₀ he₀
  have hsame := (hsound x hx).unique hhash ⟨i, tx, _, hi, hlow, hhigh, he, rfl⟩ hkey
  exact hsame ▸ hx

/-! ## Two configurations -/

structure SameTask (b b' : Backfiller) : Prop where
  history : b'.history = b.history
  codec : b'.codec = b.codec
  xdr : b'.xdr = b.xdr
  contractID : b'.opts.contractID = b.opts.contractID
  fromLedger : b'.opts.fromLedger = b.opts.fromLedger
  toLedger : b'.opts.toLedger = b.opts.toLedger

theorem SameTask.extracted (h : SameTask b b') (tx : Transaction) (i : Int) :
    b'.extracted tx i = b.extracted tx i := by
  rw [Backfiller.extracted, Backfiller.extracted, h.codec, h.xdr, h.contractID]

/-- Every transaction of the range with events has the same counter on the pages of both. -/
def SamePlaces (b b' : Backfiller) : Prop :=
  ∀ (i : Nat) tx, b.history.txs[i]? = some tx → b.opts.fromLedger ≤ tx.ledger →
    tx.ledger ≤ b.opts.toLedger → b.extracted tx 0 ≠ [] → b'.txIndexAt i tx = b.txIndexAt i tx

theorem Placed.of_samePlaces {r : Event} (hsame : SameTask b b') (hplaces : SamePlaces b b')
    (h : Placed b r) : Placed b' r := by
  obtain ⟨i, tx, e, hi, hlow, hhigh, he, rfl⟩ := h
  have hne : b.extracted tx 0 ≠ [] := by
    intro hnil
    rw [extracted_txIndex, hnil] at he
    cases he
  refine ⟨i, tx, e, hsame.history ▸ hi, hsame.fromLedger ▸ hlow, hsame.toLedger ▸ hhigh, ?_, rfl⟩
  rw [hplaces i tx hi hlow hhigh hne, hsame.extracted]
  exact he

theorem placed_head {i : Nat} {tx : Transaction} {e : Event} {rest : List Event}
    (hi : b.history.txs[i]? = some tx) (hlow : b.opts.fromLedger ≤ tx.ledger)
    (hhigh : tx.ledger ≤ b.opts.toLedger) (he : b.extracted tx 0 = e :: rest) :
    Placed b (liveRow .postgres { e with txIndex := b.txIndexAt i tx }) := by
  refine ⟨i, tx, _, hi, hlow, hhigh, ?_, rfl⟩
  rw [extracted_txIndex, he, map_cons, List.find?_cons_of_pos (by simp [sameKey])]

theorem samePlaces_of_rows (hsame : SameTask b b') (hhash : Hashed b.history)
    (hrows : ∀ r, Placed b r → Placed b' r) : SamePlaces b b' := by
  intro i tx hi hlow hhigh hne
  obtain ⟨e, rest, he⟩ := exists_cons_of_ne_nil hne
  have hplaced := hrows _ (placed_head hi hlow hhigh he)
  have hplaced' : Placed b' (liveRow .postgres { e with txIndex := b'.txIndexAt i tx }) :=
    placed_head (hsame.history ▸ hi) (hsame.fromLedger ▸ hlow) (hsame.toLedger ▸ hhigh)
      ((hsame.extracted tx 0).trans he)
  have hrow := hplaced'.unique (hsame.history ▸ hhash) hplaced rfl
  exact congrArg Event.txIndex hrow

def transferPool : Backfiller :=
  { transferBackfiller 2 Nat.two_pos with
    opts := ⟨Horizon.zeroHash.hexString, 5, 6, 2, 2, 0, 0, Nat.two_pos, Nat.two_pos⟩ }

def inTurns : List Move :=
  [.main true, .main true] ++ (List.replicate 11 [.worker 0 .ok, .worker 1 .ok]).flatten ++
    List.replicate 3 (.main true)

def inOrder (pages : Nat) : List Move := List.replicate pages (.main true)

theorem hashed_transfers : Hashed transferHistory where
  length := by simp [transferHistory, transferTransaction]
  nodup := by decide

end SoroTrail.Backfill
