import SoroTrail.Store.Pagination

/-!
# The cursor codecs

All cursors but the bare event id travel in the same envelope.  Whatever a codec
writes for a backend, its reader gives back to that backend and to callers that
take any backend, and refuses to every other backend.  A bare event id of either
scheme is always taken for itself.
-/

set_option autoImplicit false

namespace SoroTrail.Store

open Lib Rpc List Decimal

variable (lib : CursorLib)

/-! ## Bare ids -/

/-- Twenty digits, a dash and ten digits. -/
def RpcID (id : String) : Prop :=
  ∃ toid index : List Char, toid.length = 20 ∧ index.length = 10 ∧
    (∀ c ∈ toid ++ index, IsDigit c) ∧ id = String.ofList (toid ++ '-' :: index)

def BackfillID (id : String) : Prop :=
  ∃ (txHash : String) (ledger opIndex eventIndex : Int), txHash.toList.length = 64 ∧
    (∀ c ∈ txHash.toList, c ∈ hexDigits) ∧ id = Horizon.formatEventID txHash ledger opIndex eventIndex

theorem hexID_of_scheme {id : String} (h : RpcID id ∨ BackfillID id) : HexID id := by
  have hdigit : ∀ c, IsDigit c → c ∈ hexDigits := fun c hc =>
    (by decide : lowerHex ⊆ hexDigits) (isDigit_lowerHex hc)
  rcases h with ⟨toid, index, hlen, _, hdigits, rfl⟩ | ⟨txHash, ledger, op, event, hlen, hhex, rfl⟩
  · rw [HexID, String.toList_ofList]
    exact rpcID_over hdigit hlen hdigits
  · exact formatEventID_over hdigit hlen hhex ledger op event

/-- No id of either scheme is taken for an envelope or for a composite cursor. -/
theorem bareID_decodes {id : String} (h : RpcID id ∨ BackfillID id) (expected : String) :
    decodeEventIDCursorForBackend lib expected id = .ok id :=
  (hexID_of_scheme h).decodeEventID lib expected

theorem bareID_decodes_toid :
    decodeEventIDCursorForBackend QueryLib.verbatim.toCursorLib "sq" "00000000030064771072-0000000001" =
      .ok "00000000030064771072-0000000001" :=
  bareID_decodes _ (.inl ⟨"00000000030064771072".toList, "0000000001".toList, rfl, rfl,
    forall_iff_forall_mem.mp (by decide), rfl⟩) "sq"

/-! ## Codecs -/

def encodeVersionedEventCursor (backend orderBy : String) (e : Event) : String :=
  if orderBy = orderByLedger ∨ orderBy = orderByCreatedAt then encodeCursorForBackend lib backend orderBy e
  else String.ofList (wrapCursorEnvelope lib cursorVersionCurrent backend (bytesOf e.id))

def encodeCursorV1 (backend orderBy : String) (e : Event) : String :=
  String.ofList (wrapCursorEnvelope lib cursorVersionV1 backend (bytesOf
    (if orderBy = orderByLedger then String.ofList (decimal e.ledger) ++ "|" ++ e.id
      else if orderBy = orderByCreatedAt then String.ofList e.createdAt.rfc3339Nano ++ "|" ++ e.id
      else e.id)))

def errInvalidContractsCursor : Err := .other "invalid contracts cursor"

def encodeContractsCursorForBackend (backend _sortAs sortValue contractID : String) : String :=
  encodeCompositeCursorForBackend lib backend sortValue contractID

def decodeContractsCursorForBackend (expectedBackend cursor : String) :
    Except Err (List UInt8 × List UInt8) :=
  match decodeCompositeCursorForBackend lib expectedBackend cursor with
  | .error err => .error (.pair errInvalidContractsCursor (.suffix err ": contracts cursor"))
  | .ok parts => .ok parts

def encodeRowID (backend : String) (id : Int) : String :=
  String.ofList (wrapCursorEnvelope lib cursorVersionCurrent backend
    (bytesOf (String.ofList (decimal id))))

/-- The positive number in an envelope; `failed` is what becomes of an envelope's error. -/
def decodeRowID (failed : Err → Err) (refused : Err) (expectedBackend cursor : String) : Except Err Int :=
  match unwrapCursorEnvelope lib cursor.toList expectedBackend with
  | .error err => .error (failed err)
  | .ok raw =>
    match readInt64 raw with
    | some id => if id ≤ 0 then .error refused else .ok id
    | none => .error refused

def encodeSpecOverrideHistoryCursorForBackend : String → Int → String := encodeRowID lib

def decodeSpecOverrideHistoryCursorForBackend : String → String → Except Err Int :=
  decodeRowID lib (fun err => .pair errInvalidCursor (.wrap "spec override history cursor" err))
    (tamperedCursor "spec override history cursor is not a version id")

def encodeDeadLetterCursorForBackend : String → Int → String := encodeRowID lib

def decodeDeadLetterCursorForBackend : String → String → Except Err Int :=
  decodeRowID lib (fun err => .pair errInvalidContractsCursor (.suffix err ": dead letter cursor"))
    (.pair errInvalidContractsCursor (tamperedCursor "dead letter cursor is not a positive id"))

/-! ## Round trips -/

/-- The reader of a cursor gives the value to the backend and to any, and refuses it to the other
backends. -/
def BoundTo {α : Type} (b : String) (decode : String → Except Err α) (value : α) : Prop :=
  (∀ expected, expected = b ∨ expected = cursorBackendAny → decode expected = .ok value) ∧
    ∀ expected ∈ cursorBackends, expected ≠ b →
      ∃ err, decode expected = .error err ∧ err.is errCrossBackendCursor = true

variable {b version : String} {α : Type} {payload : List UInt8} {value : α}

def cursorVersions : List String := [cursorVersionV1, cursorVersionCurrent]

theorem current_mem_cursorVersions : cursorVersionCurrent ∈ cursorVersions := by decide

theorem checkCursorBackend_bound (hb : b ∈ cursorBackends) :
    BoundTo b (checkCursorBackend b) () := by
  have hnorm : ∀ b ∈ cursorBackends, normalizeCursorBackend b = b ∧ b ≠ "" ∧ b ≠ cursorBackendAny := by
    decide
  constructor
  · rintro expected (rfl | rfl)
    · simp [checkCursorBackend, (hnorm expected hb).1]
    · simp [checkCursorBackend, show normalizeCursorBackend cursorBackendAny = cursorBackendAny by decide]
  · intro expected hexpected hne
    obtain ⟨heq, hempty, hany⟩ := hnorm expected hexpected
    have hb := hnorm b hb
    rw [checkCursorBackend, heq, if_neg (by simp [hempty, hany, hb.2.2]), if_pos hne.symm]
    exact ⟨_, rfl, rfl⟩

section Readers

variable (hv : version ∈ cursorVersions) (hb : b ∈ cursorBackends)

include hv hb

/-- A reader of envelopes is bound to the backend when it takes the payload and keeps the cause of
a refusal. -/
theorem boundTo_of_unwrap (hne : payload ≠ []) {decode : String → Except Err α}
    (htakes : ∀ expected, unwrapCursorEnvelope lib (wrapCursorEnvelope lib version b payload) expected =
      .ok payload → decode expected = .ok value)
    (hrefuses : ∀ expected err, unwrapCursorEnvelope lib (wrapCursorEnvelope lib version b payload)
      expected = .error err → err.is errCrossBackendCursor = true →
        ∃ err, decode expected = .error err ∧ err.is errCrossBackendCursor = true) :
    BoundTo b decode value := by
  obtain ⟨htaken, hrefused⟩ := checkCursorBackend_bound hb
  constructor
  · intro expected hexpected
    apply htakes
    rw [unwrap_wrapCursorEnvelope lib hv hb hne, htaken expected hexpected]
    rfl
  · intro expected hexpected hother
    obtain ⟨err, herr, hcross⟩ := hrefused expected hexpected hother
    refine hrefuses expected err ?_ hcross
    rw [unwrap_wrapCursorEnvelope lib hv hb hne, herr]
    rfl

theorem composite_bound {sv id : String} (hsv : sv ≠ "") (hid : id ≠ "" ∧ '|' ∉ id.toList) :
    BoundTo b (fun expected => decodeCompositeCursorForBackend lib expected
      (String.ofList (wrapCursorEnvelope lib version b (bytesOf (sv ++ "|" ++ id)))))
      (bytesOf sv, bytesOf id) := by
  have hne : bytesOf (sv ++ "|" ++ id) ≠ [] := by
    rw [bytesOf_composite]
    simp
  refine boundTo_of_unwrap lib hv hb hne (fun expected h => ?_) (fun expected err h hcross => ?_)
  · simp [decodeCompositeCursorForBackend, h, splitLast_composite sv hid.2, bytesOf_ne_nil hsv,
      bytesOf_ne_nil hid.1]
  · exact ⟨err, by simp [decodeCompositeCursorForBackend, h], hcross⟩

theorem eventID_bound {id : String} (hid : id ≠ "" ∧ '|' ∉ id.toList) :
    BoundTo b (fun expected => decodeEventIDCursorForBackend lib expected
      (String.ofList (wrapCursorEnvelope lib version b (bytesOf id)))) id := by
  have hdot : '.' ∈ wrapCursorEnvelope lib version b (bytesOf id) := by simp [wrapCursorEnvelope]
  have hempty : String.ofList (wrapCursorEnvelope lib version b (bytesOf id)) ≠ "" := by
    intro heq
    rw [← String.toList_ofList (l := wrapCursorEnvelope lib version b (bytesOf id)), heq] at hdot
    cases hdot
  refine boundTo_of_unwrap lib hv hb (bytesOf_ne_nil hid.1) (fun expected h => ?_)
    (fun expected err h hcross => ?_)
  · simp [decodeEventIDCursorForBackend, hempty, hdot, h, separator_notMem_bytesOf hid.2, textOf_bytesOf,
      hid.1]
  · exact ⟨err, by simp [decodeEventIDCursorForBackend, hempty, hdot, h], hcross⟩

end Readers

theorem rowID_bound (hb : b ∈ cursorBackends) {row : Int} (hrow : 0 < row ∧ row < 2 ^ 63)
    {failed : Err → Err} (refused : Err)
    (hfailed : ∀ err, err.is errCrossBackendCursor = true → (failed err).is errCrossBackendCursor = true) :
    BoundTo b (fun expected => decodeRowID lib failed refused expected (encodeRowID lib b row)) row := by
  obtain ⟨hpos, hhigh⟩ := hrow
  have hlow : -2 ^ 63 ≤ row := by omega
  refine boundTo_of_unwrap lib current_mem_cursorVersions hb (bytesOf_ne_nil (decimal_ne_empty hlow hhigh))
    (fun expected h => ?_) (fun expected err h hcross => ?_)
  · simp [decodeRowID, encodeRowID, h, readInt64_decimal hlow hhigh, hpos]
  · exact ⟨failed err, by simp [decodeRowID, encodeRowID, h], hfailed err hcross⟩

/-- The text a cursor carries beside the id. -/
def sortText (orderBy : String) (e : Event) : String :=
  if orderBy = orderByLedger then String.ofList (decimal e.ledger)
  else String.ofList e.createdAt.rfc3339Nano

/-- Every codec gives back what was encoded to the backend that wrote it, and refuses it to the
other backends. -/
theorem codecs_bound (hb : b ∈ cursorBackends) {e : Event} (hledger : -2 ^ 63 ≤ e.ledger ∧ e.ledger < 2 ^ 63)
    (hid : e.id ≠ "" ∧ '|' ∉ e.id.toList) {contractID sortValue : String} (sortAs : String)
    (hcontract : contractID ≠ "" ∧ '|' ∉ contractID.toList) (hsort : sortValue ≠ "") {row : Int}
    (hrow : 0 < row ∧ row < 2 ^ 63) :
    (∀ orderBy ∈ [orderByLedger, orderByCreatedAt],
      ∀ cursor ∈ [encodeCursorForBackend lib b orderBy e, encodeVersionedEventCursor lib b orderBy e,
        encodeCursorV1 lib b orderBy e],
      BoundTo b (fun expected => decodeCompositeCursorForBackend lib expected cursor)
        (bytesOf (sortText orderBy e), bytesOf e.id)) ∧
    (∀ orderBy ∉ [orderByLedger, orderByCreatedAt],
      ∀ cursor ∈ [encodeVersionedEventCursor lib b orderBy e, encodeCursorV1 lib b orderBy e],
      BoundTo b (fun expected => decodeEventIDCursorForBackend lib expected cursor) e.id) ∧
    BoundTo b (fun expected => decodeContractsCursorForBackend lib expected
      (encodeContractsCursorForBackend lib b sortAs sortValue contractID))
      (bytesOf sortValue, bytesOf contractID) ∧
    BoundTo b (fun expected => decodeSpecOverrideHistoryCursorForBackend lib expected
      (encodeSpecOverrideHistoryCursorForBackend lib b row)) row ∧
    BoundTo b (fun expected => decodeDeadLetterCursorForBackend lib expected
      (encodeDeadLetterCursorForBackend lib b row)) row := by
  have hkeep : ∀ err text, err.is errCrossBackendCursor = true →
      (Err.pair errInvalidContractsCursor (.suffix err text)).is errCrossBackendCursor = true :=
    fun err text h => by simp [Err.is, h]
  refine ⟨?_, ?_, ?_, ?_, ?_⟩
  · intro orderBy horder cursor hcursor
    have htext : sortText orderBy e ≠ "" := by
      rw [sortText]
      split
      · exact decimal_ne_empty hledger.1 hledger.2
      · exact rfc3339Nano_ne_empty e.createdAt
    have hcursor : ∃ version ∈ cursorVersions, cursor = String.ofList (wrapCursorEnvelope lib version b
        (bytesOf (sortText orderBy e ++ "|" ++ e.id))) := by
      have hversioned : encodeVersionedEventCursor lib b orderBy e =
          encodeCursorForBackend lib b orderBy e :=
        if_pos (by simpa using horder)
      have hne : orderByCreatedAt ≠ orderByLedger := by decide
      simp only [hversioned, mem_cons, not_mem_nil, or_false, or_self_left] at horder hcursor
      rcases hcursor with rfl | rfl
      · refine ⟨cursorVersionCurrent, current_mem_cursorVersions, ?_⟩
        rcases horder with rfl | rfl <;>
          simp [encodeCursorForBackend, encodeCompositeCursorForBackend, sortText, hne]
      · refine ⟨cursorVersionV1, by decide, ?_⟩
        rcases horder with rfl | rfl <;> simp [encodeCursorV1, sortText, hne]
    obtain ⟨version, hv, rfl⟩ := hcursor
    exact composite_bound lib hv hb htext hid
  · intro orderBy horder cursor hcursor
    simp only [mem_cons, not_mem_nil, or_false, not_or] at horder hcursor
    rcases hcursor with rfl | rfl
    · rw [encodeVersionedEventCursor, if_neg (not_or.mpr horder)]
      exact eventID_bound lib current_mem_cursorVersions hb hid
    · rw [encodeCursorV1, if_neg horder.1, if_neg horder.2]
      exact eventID_bound lib (by decide) hb hid
  · obtain ⟨htakes, hrefuses⟩ := composite_bound lib current_mem_cursorVersions hb hsort hcontract
    refine ⟨fun expected h => ?_, fun expected h hne => ?_⟩
    · have htaken := htakes expected h
      simp only [decodeContractsCursorForBackend, encodeContractsCursorForBackend,
        encodeCompositeCursorForBackend, htaken]
    · obtain ⟨err, herr, hcross⟩ := hrefuses expected h hne
      simp only [decodeContractsCursorForBackend, encodeContractsCursorForBackend,
        encodeCompositeCursorForBackend, herr]
      exact ⟨_, rfl, hkeep err _ hcross⟩
  · exact rowID_bound lib hb hrow _ fun err h => by simp [Err.is, h]
  · exact rowID_bound lib hb hrow _ fun err h => hkeep err _ h

theorem codecs_bound_sqlite :
    decodeDeadLetterCursorForBackend QueryLib.verbatim.toCursorLib "sq"
      (encodeDeadLetterCursorForBackend QueryLib.verbatim.toCursorLib "sq" 7) = .ok 7 :=
  (codecs_bound _ (by decide) (e := Event.stored "7-1" 7) (by decide) (by decide) ""
    (show "C1" ≠ "" ∧ _ by decide) (show "7" ≠ "" by decide) (by decide)).2.2.2.2.1 "sq" (.inl rfl)

end SoroTrail.Store
