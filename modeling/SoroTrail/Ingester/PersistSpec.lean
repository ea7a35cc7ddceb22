import SoroTrail.Lib.Service
import SoroTrail.Ingester.Persist

/-!
# What persisting a page does

Persisting is specified against the weakest store: all that is remembered is the
set of event ids that some committed write has stored, and the set may grow at any
moment.  When a page has been persisted, each of its events is skipped or its id
is in the set.  Any machine whose tables only gain events follows this store.
-/

set_option autoImplicit false

namespace SoroTrail.Ingest

open Lib Rpc Store Prog List Fallible

def Act.storedIDs : Act → Set String
  | .upsertEvents evs => { id | ∃ ev ∈ evs, ev.id = id }
  | .deadLetterEvent d => { id | d.eventID = id }
  | _ => ∅

def Committed : (o : Act) → Ans o → Prop
  | .upsertEvents _, (.ok _ : Except Err Nat) => True
  | .deadLetterEvent _, (.ok _ : Except Err Unit) => True
  | _, _ => False

def idLog : Sys Act Ans (Set String) where
  step o s a s' := s ⊆ s' ∧ (Committed o a → o.storedIDs ⊆ s')
  drift s s' := s ⊆ s'

/-- The requests made while a page is persisted; rows come from the page. -/
def PageWrite (ing : Ingester) (page : List Rpc.Event) : Act → Prop
  | .upsertEvents evs => ∀ ev ∈ evs, ∃ re ∈ page, toStoreEvent ing re = .ok ev
  | .deadLetterEvent _ => True
  | .upsertAddressRefs _ => True
  | .now => True
  | .sleepCtx _ => True
  | _ => False

section Spec

variable {ing : Ingester} {page : List Rpc.Event}

abbrev PersistsFrom (ing : Ingester) (page : List Rpc.Event) {α : Type} (Q : α → Set String → Prop)
    (p : P α) (s : Set String) : Prop :=
  idLog.Safe (fun o _ => PageWrite ing page o) Q p s

/-- From any store, the program only persists the page, and its result meets `Q`. -/
def Persists (ing : Ingester) (page : List Rpc.Event) {α : Type} (Q : α → Set String → Prop)
    (p : P α) : Prop :=
  ∀ s, idLog.Safe (fun o _ => PageWrite ing page o) Q p s

theorem idLog_drifts {s s' : Set String} (h : idLog.Drifts s s') : s ⊆ s' := by
  induction h with
  | refl => exact subset_rfl
  | tail _ hstep ih => exact ih.trans hstep

variable {α : Type} {Q : α → Set String → Prop} {s : Set String}

theorem persists_ret {a : α}
    (hQ : ∀ s', s ⊆ s' → Q a s') :
    PersistsFrom ing page Q (.ret a : P α) s :=
  fun s' hs' => hQ s' (idLog_drifts hs')

/-- One request: what follows may use that the set has grown and holds what was committed. -/
theorem persists_act {o : Act} {k : Ans o → P α} (ho : PageWrite ing page o)
    (hk : ∀ a s', s ⊆ s' → (Committed o a → o.storedIDs ⊆ s') →
      PersistsFrom ing page Q (k a) s') :
    PersistsFrom ing page Q (.act o k) s := by
  intro u hu
  refine ⟨ho, fun a s' hstep => ?_⟩
  exact hk a s' ((idLog_drifts hu).trans hstep.1) hstep.2

theorem idLog_grows (p : P α) (s : Set String) :
    idLog.Safe (fun _ _ => True) (fun _ s' => s ⊆ s') p s := by
  have hfrom : ∀ u, s ⊆ u → idLog.Safe (fun _ _ => True) (fun _ s' => s ⊆ s') p u := by
    induction p with
    | ret a => exact fun u hu s' hs' => hu.trans (idLog_drifts hs')
    | act o k ih =>
      intro u hu s' hs'
      exact ⟨trivial, fun a v hv => ih a v ((hu.trans (idLog_drifts hs')).trans hv.1)⟩
  exact hfrom s subset_rfl

theorem Persists.frame {p : P α}
    (h : Persists ing page Q p) (s : Set String) :
    PersistsFrom ing page (fun a s' => Q a s' ∧ s ⊆ s') p s :=
  ((h s).and (idLog_grows p s)).mono (fun _ _ hj => hj.1) (fun _ _ hq => hq)

theorem Persists.after {Q Q' : α → Set String → Prop} {p : M α}
    (h : Persists ing page (fun r s => OnOk (fun a => Q a s) r) p)
    (hQ : ∀ a s', Q a s' → s ⊆ s' → Q' a s') :
    PersistsFrom ing page (fun r s => OnOk (fun a => Q' a s) r) p s := by
  refine (h.frame s).post ?_
  rintro (e | a) s' ⟨hr, hgrown⟩
  · trivial
  · exact hQ a s' hr hgrown

theorem Persists.andThen {β : Type} {Q' : β → Set String → Prop}
    {p : M α} {f : α → M β} (hp : Persists ing page (fun r s => OnOk (fun a => Q a s) r) p)
    (hf : ∀ a s, Q a s → PersistsFrom ing page (fun r s => OnOk (fun b => Q' b s) r) (f a) s) :
    Persists ing page (fun r s => OnOk (fun b => Q' b s) r) (p >>= f : M β) :=
  fun s => Sys.Safe.andThen_ok (hp s) hf

theorem Persists.uses {p : P α}
    (h : Persists ing page Q p) : p.Uses (PageWrite ing page) fun _ _ => True := by
  have hfrom : ∀ s, PersistsFrom ing page Q p s →
      p.Uses (PageWrite ing page) fun _ _ => True := by
    clear h
    induction p with
    | ret a => exact fun _ _ => trivial
    | act o k ih =>
      intro s hs
      obtain ⟨hj, hk⟩ := hs s .refl
      exact ⟨hj, fun a _ => ih a Set.univ (hk a Set.univ ⟨Set.subset_univ _,
        fun _ => Set.subset_univ _⟩)⟩
  exact hfrom ∅ (h ∅)

def RowsOfPage (ing : Ingester) (page : List Rpc.Event) (evs : List Store.Event) : Prop :=
  ∀ ev ∈ evs, ∃ re ∈ page, toStoreEvent ing re = .ok ev

def AllStored (evs : List Store.Event) (s : Set String) : Prop :=
  ∀ ev ∈ evs, ev.id ∈ s

theorem AllStored.mono {evs : List Store.Event} {s s' : Set String} (h : AllStored evs s)
    (hs : s ⊆ s') : AllStored evs s' :=
  fun ev hev => hs (h ev hev)

/-- Unless there is an error, the rows are stored. -/
abbrev Stores (evs : List Store.Event) {α : Type} (r : Except Err α) (s : Set String) : Prop :=
  OnOk (fun _ => AllStored evs s) r

theorem RowsOfPage.subset {evs evs' : List Store.Event} (h : RowsOfPage ing page evs)
    (hsub : ∀ ev ∈ evs', ev ∈ evs) : RowsOfPage ing page evs' :=
  fun ev hev => h ev (hsub ev hev)

/-! ## Writing rows -/

theorem isolateEvents_persists (evs : List Store.Event) (hevs : RowsOfPage ing page evs)
    (inserted : Nat) :
    Persists ing page (Stores evs) (isolateEvents evs inserted) := by
  induction evs generalizing inserted with
  | nil => exact fun _ _ _ => forall_mem_nil _
  | cons ev rest ih =>
    intro s
    have hrest := ih (hevs.subset fun x hx => .tail _ hx)
    -- once the first row is stored, the others follow
    have hfinish : ∀ (n : Nat) (s : Set String), ev.id ∈ s →
        PersistsFrom ing page (Stores (ev :: rest)) (isolateEvents rest n) s :=
      fun n s hev => (hrest n).after fun _ _ hr hgrown => forall_mem_cons.mpr ⟨hgrown hev, hr⟩
    have hone : RowsOfPage ing page [ev] :=
      hevs.subset fun x hx => mem_singleton.mp hx ▸ (.head _)
    unfold isolateEvents
    rw [attempt_bind]
    refine persists_act hone ?_
    intro r s' _ hstored
    cases r with
    | ok n => exact hfinish _ s' (hstored trivial ⟨ev, .head _, rfl⟩)
    | error err =>
      dsimp only [Prog.bind]
      split
      · refine persists_act (by trivial) ?_
        intro r s'' _ hdead
        cases r with
        | ok _ => exact hfinish _ s'' (hdead trivial rfl)
        | error e => exact persists_ret fun _ _ => trivial
      · exact persists_ret fun _ _ => trivial

theorem upsertChunkWithIsolation_persists {chunk : List Store.Event}
    (hchunk : RowsOfPage ing page chunk) :
    Persists ing page (Stores chunk) (upsertChunkWithIsolation ing chunk) := by
  intro s
  unfold upsertChunkWithIsolation
  rw [attempt_bind]
  refine persists_act hchunk ?_
  intro r s' _ hstored
  cases r with
  | ok n =>
    refine persists_ret ?_
    intro s'' hs'' ev hev
    exact hs'' (hstored trivial ⟨ev, hev, rfl⟩)
  | error err =>
    dsimp only [Prog.bind]
    split
    · exact isolateEvents_persists chunk hchunk 0 s'
    · exact persists_ret fun _ _ => trivial

theorem writeChunks_persists (n : Nat) (bc : BatchController) (evs : List Store.Event)
    (hevs : RowsOfPage ing page evs) (inserted : Nat) :
    Persists ing page (Stores evs) (writeChunks ing n bc evs inserted) := by
  induction n generalizing bc evs inserted with
  | zero => exact fun s => persists_ret fun _ _ => trivial
  | succ n ih =>
    intro s
    unfold writeChunks
    split
    · rename_i hnil
      subst hnil
      exact fun _ _ => forall_mem_nil _
    · have hrest : RowsOfPage ing page (evs.drop bc.cur) :=
        hevs.subset fun x hx => mem_of_mem_drop hx
      have hchunk : RowsOfPage ing page (evs.take bc.cur) :=
        hevs.subset fun x hx => mem_of_mem_take hx
      -- the chunk is stored; the rest of the loop stores the rest
      have hloop : ∀ (bc' : BatchController) (k : Nat) (s : Set String),
          AllStored (evs.take bc.cur) s →
          PersistsFrom ing page (Stores evs) (writeChunks ing n bc' (evs.drop bc.cur) k) s := by
        intro bc' k s hs
        refine (ih bc' _ hrest k).after fun _ s' hr hgrown => ?_
        have hall := forall_mem_append.mpr ⟨hs.mono hgrown, hr⟩
        rwa [take_append_drop] at hall
      refine persists_act (by trivial) ?_
      intro started s' _ _
      refine Sys.Safe.attempt_bind ?_
      refine (upsertChunkWithIsolation_persists hchunk s').post ?_
      intro written s'' hwritten
      rw [liftM_bind]
      refine persists_act (by trivial) ?_
      intro ended s3 hs3 _
      cases written with
      | error err => exact persists_ret fun _ _ => trivial
      | ok got =>
        have hstored : AllStored (evs.take bc.cur) s3 := AllStored.mono hwritten hs3
        dsimp only [Prog.bind]
        split
        · rw [liftM_bind]
          refine persists_act (by trivial) ?_
          intro slept s4 hs4 _
          dsimp only [Prog.bind]
          split
          · exact hloop _ _ s4 (hstored.mono hs4)
          · exact persists_ret fun _ _ => trivial
        · exact hloop _ _ s3 hstored

section Live

variable (hdry : ing.opts.dryRun = false)
include hdry

theorem persistEventBatch_persists {evs : List Store.Event} (hevs : RowsOfPage ing page evs) :
    Persists ing page (Stores evs) (persistEventBatch ing evs) := by
  have hwrite : Persists ing page (Stores evs) (writeEventsPersist ing evs) := by
    unfold writeEventsPersist
    split
    · rename_i hempty
      obtain rfl : evs = [] := hempty.resolve_right (by simp [hdry])
      exact fun _ _ _ => forall_mem_nil _
    · split
      · exact upsertChunkWithIsolation_persists hevs
      · exact writeChunks_persists _ _ evs hevs 0
  unfold persistEventBatch
  rw [if_neg (by rw [hdry]; exact Bool.false_ne_true)]
  refine Persists.andThen hwrite ?_
  intro _ s hs
  -- indexing the addresses stores no event and cannot fail the batch
  have hindex : Persists ing page (fun _ _ => True) (indexEventAddresses ing evs) := by
    intro s
    unfold indexEventAddresses
    split
    · exact persists_ret fun _ _ => trivial
    · dsimp only
      split
      · exact persists_ret fun _ _ => trivial
      · exact persists_act (by trivial) fun _ _ _ _ => persists_ret fun _ _ => trivial
  refine Sys.Safe.attempt_bind ((hindex.frame s).post ?_)
  rintro r s' ⟨_, hgrown⟩
  exact persists_ret fun s'' hs'' => (hs.mono hgrown).mono hs''

theorem persistBatches_persists (batches : List (List Store.Event))
    (hbatches : ∀ batch ∈ batches, RowsOfPage ing page batch) :
    Persists ing page (fun r s => OnOk (fun _ => ∀ batch ∈ batches, AllStored batch s) r)
      (persistBatches ing batches) := by
  induction batches with
  | nil => exact fun _ _ _ => forall_mem_nil _
  | cons batch rest ih =>
    refine Persists.andThen
      (persistEventBatch_persists hdry (hbatches batch (.head _))) ?_
    intro _ s hs
    have hrest := ih fun x hx => hbatches x (.tail _ hx)
    exact hrest.after fun _ _ hr hgrown => forall_mem_cons.mpr ⟨hs.mono hgrown, hr⟩

/-! ## A whole page -/

/-- Every event of the page is skipped, has a row to be written, or is stored already. -/
def PageCovered (ing : Ingester) (events : List Rpc.Event) (evs : List Store.Event)
    (s : Set String) : Prop :=
  ∀ re ∈ events, isSkipped ing re.contractID = true ∨ (∃ ev ∈ evs, ev.id = re.id) ∨ re.id ∈ s

theorem decodePage_persists (events : List Rpc.Event) (hevents : ∀ re ∈ events, re ∈ page) :
    Persists ing page
      (fun r s => OnOk
        (fun evs => RowsOfPage ing page evs ∧ PageCovered ing events evs s) r)
      (decodePage ing events) := by
  induction events with
  | nil =>
    exact fun _ => persists_ret fun _ _ => ⟨forall_mem_nil _, forall_mem_nil _⟩
  | cons re rest ih =>
    intro s
    have hrest := ih fun x hx => hevents x (.tail _ hx)
    -- the head is settled by what the set already holds or by being skipped
    have hsettled : ∀ u : Set String, (isSkipped ing re.contractID = true ∨ re.id ∈ u) →
        PersistsFrom ing page (fun r s => OnOk (fun evs => RowsOfPage ing page evs ∧
            PageCovered ing (re :: rest) evs s) r) (decodePage ing rest) u :=
      fun u hu => hrest.after fun _ _ hr hgrown => ⟨hr.1, forall_mem_cons.mpr
        ⟨hu.imp_right fun hin => .inr (hgrown hin), hr.2⟩⟩
    unfold decodePage
    split
    · rename_i hskip
      exact hsettled s (.inl hskip)
    · cases hdecoded : toStoreEvent ing re with
      | ok ev =>
        refine Sys.Safe.andThen_ok (hrest s) ?_
        rintro evs s' ⟨hrows, hcovered⟩
        refine persists_ret fun s'' hs'' => ⟨forall_mem_cons.mpr
          ⟨⟨re, hevents re (.head _), hdecoded⟩, hrows⟩, forall_mem_cons.mpr
          ⟨.inr (.inl ⟨ev, .head _, (toStoreEvent_ok ing hdecoded).1⟩), fun x hx => ?_⟩⟩
        rcases hcovered x hx with hskip | ⟨y, hy, hid⟩ | hin
        · exact .inl hskip
        · exact .inr (.inl ⟨y, .tail _ hy, hid⟩)
        · exact .inr (.inr (hs'' hin))
      | error err =>
        dsimp only
        rw [if_neg (by rw [hdry]; exact Bool.false_ne_true)]
        split
        · refine persists_act (by trivial) ?_
          intro r s' _ hdead
          cases r with
          | ok _ => exact hsettled s' (.inr (hdead trivial rfl))
          | error e => exact persists_ret fun _ _ => trivial
        · exact persists_ret fun _ _ => trivial

/-- After a page has been persisted, each of its events is skipped or stored. -/
theorem persistRows_persists (page : List Rpc.Event) :
    Persists ing page
      (fun r s => OnOk
        (fun _ => ∀ re ∈ page, isSkipped ing re.contractID = true ∨ re.id ∈ s) r)
      (persistRows ing page) := by
  refine Persists.andThen (decodePage_persists hdry page fun _ h => h) ?_
  rintro decoded s ⟨hrows, hcovered⟩
  have hpos := ing.writeBatchSize_pos
  have hbatches : ∀ batch ∈ chunks ing.opts.writeBatchSize (removeDuplicateEvents decoded),
      RowsOfPage ing page batch := by
    intro batch hbatch ev hev
    have hmem : ev ∈ removeDuplicateEvents decoded := by
      rw [← chunks_flatten hpos (removeDuplicateEvents decoded)]
      exact mem_flatten.mpr ⟨batch, hbatch, hev⟩
    exact hrows ev (mem_dedupByID hmem).1
  refine Sys.Safe.andThen ((((persistBatches_persists hdry _ hbatches).frame s)).post ?_)
  rintro r s' ⟨hr, hgrown⟩
  cases r with
  | error e => exact persists_ret fun _ _ => trivial
  | ok _ =>
    refine persists_ret ?_
    intro s'' hs'' re hre
    rcases hcovered re hre with hskip | ⟨ev, hev, hid⟩ | hin
    · exact .inl hskip
    · obtain ⟨x, hx, hxid⟩ := exists_dedupByID hev not_mem_nil
      have hflat : x ∈ (chunks ing.opts.writeBatchSize (removeDuplicateEvents decoded)).flatten := by
        rw [chunks_flatten hpos]
        exact hx
      obtain ⟨batch, hbatch, hxb⟩ := mem_flatten.mp hflat
      have hstored := hr batch hbatch x hxb
      rw [hxid, hid] at hstored
      exact .inr (hs'' hstored)
    · exact .inr (hs'' (hgrown hin))

end Live

/-! ## The rows of a page -/

def decodedRow (ing : Ingester) (re : Rpc.Event) : Option Store.Event :=
  if isSkipped ing re.contractID then none else (toStoreEvent ing re).toOption

theorem decodedRow_some {re : Rpc.Event} {ev : Store.Event} (h : decodedRow ing re = some ev) :
    isSkipped ing re.contractID = false ∧ toStoreEvent ing re = .ok ev := by
  unfold decodedRow at h
  split at h
  · cases h
  · rename_i hskip
    cases hrow : toStoreEvent ing re with
    | error err =>
      rw [hrow] at h
      cases h
    | ok row =>
      rw [hrow] at h
      cases h
      exact ⟨Bool.eq_false_iff.mpr hskip, rfl⟩

theorem decodePage_rows (events : List Rpc.Event) :
    Yields (fun _ => True) (fun _ _ => True)
      (OnOk fun rows => rows = events.filterMap (decodedRow ing)) (decodePage ing events) := by
  induction events with
  | nil => rfl
  | cons re rest ih =>
    have hnone : decodedRow ing re = none →
        Yields (fun _ => True) (fun _ _ => True)
          (OnOk fun rows => rows = (re :: rest).filterMap (decodedRow ing))
          (decodePage ing rest) := by
      intro h
      rw [filterMap_cons_none h]
      exact ih
    unfold decodePage
    split
    · rename_i hskip
      exact hnone (if_pos hskip)
    · rename_i hskip
      cases hrow : toStoreEvent ing re with
      | ok ev =>
        have hsome : decodedRow ing re = some ev := by simp [decodedRow, hskip, hrow, Except.toOption]
        refine Yields.andThen ih ?_
        intro evs hevs
        rw [filterMap_cons_some hsome]
        exact congrArg (ev :: ·) hevs
      | error err =>
        have hdrop := hnone (by simp [decodedRow, hrow, Except.toOption])
        dsimp only
        split
        · exact hdrop
        · split
          · refine ⟨trivial, fun r _ => ?_⟩
            cases r with
            | ok _ => exact hdrop
            | error derr => trivial
          · trivial

theorem persistRows_rows (events : List Rpc.Event) :
    Yields (fun _ => True) (fun _ _ => True)
      (OnOk fun rows => rows = removeDuplicateEvents (events.filterMap (decodedRow ing)))
      (persistRows ing events) := by
  refine Yields.andThen (decodePage_rows events) ?_
  rintro decoded rfl
  have hbatches : Yields (fun _ => True) (fun _ _ => True) (OnOk fun _ => True)
      (persistBatches ing (chunks ing.opts.writeBatchSize
        (removeDuplicateEvents (events.filterMap (decodedRow ing))))) :=
    (uses_any _).post fun r _ => by cases r <;> trivial
  exact Yields.andThen hbatches fun _ _ => rfl

end Spec

end SoroTrail.Ingest
