import SoroTrail.Lib.Radix
import SoroTrail.Store.Types

/-!
# Pagination cursors

A cursor for the id order is the event id itself.  A cursor for the other orders
is an envelope `v2.<backend>.<payload>.<mac>` around the sort value and the id.
What a store encodes for a row, the same store decodes to the row's sort value
and id, for the two id schemes rows come with.
-/

set_option autoImplicit false

namespace SoroTrail.Store

open Lib Rpc List Option Decimal Text Radix

/-! ## Libraries -/

def base64URLAlphabet : List Char :=
  "ABCDEFGHIJKLMNOPQRSTUVWXYZabcdefghijklmnopqrstuvwxyz0123456789-_".toList

def rawURLEncode (bytes : List UInt8) : List Char :=
  encode 6 base64URLAlphabet bytes

/-- `base64.RawURLEncoding.DecodeString`: line ends are skipped, a single letter after the last
group of four is refused, bits left over are ignored. -/
def rawURLDecode (text : List Char) : Option (List UInt8) :=
  let letters := text.filter fun c => decide (c ≠ '\r' ∧ c ≠ '\n')
  if letters.length % 4 = 1 then none else decode 6 base64URLAlphabet letters

def bytesOf (s : String) : List UInt8 := s.toUTF8.data.toList

/-- The text of a byte slice; `none` when it is not valid UTF-8. -/
def textOf (bytes : List UInt8) : Option String := String.fromUTF8? ⟨bytes.toArray⟩

/-- The keyed checksum, and `time.Parse` on texts that are not in UTC. -/
structure CursorLib where
  hmacSHA256 : List Char → List UInt8
  length_hmacSHA256 : ∀ message, (hmacSHA256 message).length = 32
  parseElsewhere : List Char → Option Time

def isDigits (s : List Char) : Bool :=
  decide (s ≠ []) && s.all fun c => decide (IsDigit c)

/-- `time.Parse(time.RFC3339Nano, s)`; the layout begins with the four digits of the year and a
dash. -/
def parseRFC3339Nano (lib : CursorLib) (s : List Char) : Option Time :=
  if isDigits (s.take 4) = true ∧ s[4]? = some '-' then
    (Time.parseUTC s).orElse fun _ => lib.parseElsewhere s
  else none

/-- `strconv.ParseInt(s, 10, 64)` of the bytes of a text. -/
def readInt64 (text : List UInt8) : Option Int :=
  (textOf text).bind fun s => parseInt64 s.toList

/-- `time.Parse(time.RFC3339Nano, s)` of the bytes of a text. -/
def readTime (lib : CursorLib) (text : List UInt8) : Option Time :=
  (textOf text).bind fun s => parseRFC3339Nano lib s.toList

/-! ## Envelopes -/

def cursorVersionV1 : String := "v1"

def cursorVersionCurrent : String := "v2"

def cursorBackendPostgres : String := "pg"

def cursorBackendSQLite : String := "sq"

def cursorBackendClickHouse : String := "ch"

def cursorBackendAny : String := "an"

def errInvalidCursor : Err := .other "invalid cursor"

def errStaleCursor : Err := .other "stale cursor"

def errCrossBackendCursor : Err := .other "cursor from incompatible storage backend"

def errTamperedCursor : Err := .other "tampered cursor"

/-- `fmt.Errorf("%w: %w: text", ErrInvalidCursor, sentinel)`. -/
def invalidCursor (sentinel : Err) (text : String) : Err :=
  .pair errInvalidCursor (.suffix sentinel (": " ++ text))

def staleCursor (text : String) : Err := invalidCursor errStaleCursor text

def tamperedCursor (text : String) : Err := invalidCursor errTamperedCursor text

def normalizeCursorBackend (backend : String) : String :=
  let name := toLower (String.ofList (trimSpace backend.toList))
  if name ∈ ["pg", "postgres", "postgresql"] then cursorBackendPostgres
  else if name ∈ ["sq", "sqlite", "sqlite3"] then cursorBackendSQLite
  else if name ∈ ["ch", "clickhouse"] then cursorBackendClickHouse
  else if name ∈ ["", "an", "any"] then cursorBackendAny
  else ""

variable (lib : CursorLib)

def cursorMAC (version backend : String) (encodedPayload : List Char) : List Char :=
  rawURLEncode
    ((lib.hmacSHA256 (version.toList ++ '.' :: (backend.toList ++ '.' :: encodedPayload))).take 3)

def validCursorMAC (version rawBackend normBackend : String) (encodedPayload gotMAC : List Char) :
    Bool :=
  if gotMAC = [] then false
  else if gotMAC = cursorMAC lib version normBackend encodedPayload then true
  else decide (rawBackend ≠ normBackend ∧ gotMAC = cursorMAC lib version rawBackend encodedPayload)

def wrapCursorEnvelope (version backend : String) (payload : List UInt8) : List Char :=
  let normBackend :=
    if normalizeCursorBackend backend = "" then cursorBackendAny else normalizeCursorBackend backend
  let version := if version = "" then cursorVersionCurrent else version
  let enc := rawURLEncode payload
  let sig := cursorMAC lib version normBackend enc
  version.toList ++ '.' :: (normBackend.toList ++ '.' :: (enc ++ '.' :: sig))

def isVersion : List Char → Bool
  | 'v' :: digits => isDigits digits
  | _ => false

def hasCursorEnvelopePrefix (cursor : List Char) : Bool :=
  match cut '.' cursor with
  | some (version, _) => isVersion version
  | none => false

def checkCursorBackend (envBackend expectedBackend : String) : Except Err Unit :=
  let normExpected := normalizeCursorBackend expectedBackend
  if normExpected = "" ∨ normExpected = cursorBackendAny ∨ envBackend = cursorBackendAny then .ok ()
  else if envBackend ≠ normExpected then
    .error (invalidCursor (.pair errStaleCursor errCrossBackendCursor)
      ("cursor backend \"" ++ envBackend ++ "\" cannot be replayed on \"" ++ normExpected ++ "\""))
  else .ok ()

/-- The payload of an envelope whose backend and checksum have been accepted. -/
def envelopePayload (encoded : List Char) : Except Err (List UInt8) :=
  match rawURLDecode encoded with
  | some (b :: raw) => .ok (b :: raw)
  | _ => .error (tamperedCursor "not valid base64url")

/-- The payload of a cursor.  The version and backend the source also returns are not used by
the callers modelled here. -/
def unwrapCursorEnvelope (cursor : List Char) (expectedBackend : String) : Except Err (List UInt8) :=
  if cursor = [] then .error (tamperedCursor "empty cursor")
  else if '.' ∈ cursor then
    let parts := split '.' cursor
    let ver := parts.headD []
    if isVersion ver = false then
      .error (tamperedCursor "malformed cursor envelope prefix")
    else if ver ≠ cursorVersionCurrent.toList ∧ ver ≠ cursorVersionV1.toList then
      .error (staleCursor ("unsupported cursor version \"" ++ String.ofList ver ++ "\""))
    else
      match parts with
      | [_, backend, encoded, mac] =>
        let normBackend := normalizeCursorBackend (String.ofList backend)
        if normBackend = "" then
          .error (tamperedCursor ("unknown cursor backend \"" ++ String.ofList backend ++ "\""))
        else if validCursorMAC lib (String.ofList ver) (String.ofList backend) normBackend encoded mac =
            false then
          .error (tamperedCursor "cursor integrity check failed")
        else
          match checkCursorBackend normBackend expectedBackend with
          | .error err => .error err
          | .ok () => envelopePayload encoded
      | [_, backend, encoded] =>
        if ver ≠ cursorVersionV1.toList then
          .error (tamperedCursor ("malformed " ++ String.ofList ver ++ " cursor envelope"))
        else
          let normBackend := normalizeCursorBackend (String.ofList backend)
          if normBackend = "" then
            .error (tamperedCursor ("unknown cursor backend \"" ++ String.ofList backend ++ "\""))
          else
            match checkCursorBackend normBackend expectedBackend with
            | .error err => .error err
            | .ok () => envelopePayload encoded
      | [_, encoded] =>
        if ver ≠ cursorVersionV1.toList then
          .error (tamperedCursor ("malformed " ++ String.ofList ver ++ " cursor envelope"))
        else envelopePayload encoded
      | _ => .error (tamperedCursor ("malformed " ++ String.ofList ver ++ " cursor envelope"))
  else
    match rawURLDecode cursor with
    | some raw => .ok raw
    | none => .error (tamperedCursor "not valid base64url")

/-! ## Event cursors -/

def orderByID : String := "id"

def orderByLedger : String := "ledger"

def orderByCreatedAt : String := "created_at"

def encodeCompositeCursorForBackend (backend sortValue id : String) : String :=
  String.ofList (wrapCursorEnvelope lib cursorVersionCurrent backend (bytesOf (sortValue ++ "|" ++ id)))

def encodeCursorForBackend (backend orderBy : String) (e : Event) : String :=
  if orderBy = orderByLedger then
    encodeCompositeCursorForBackend lib backend (String.ofList (decimal e.ledger)) e.id
  else if orderBy = orderByCreatedAt then
    encodeCompositeCursorForBackend lib backend (String.ofList e.createdAt.rfc3339Nano) e.id
  else e.id

def separator : UInt8 := 124

/-- The bare cursor is the payload of a cursor for another order. -/
def isLegacyComposite (cursor : List Char) : Option String :=
  match rawURLDecode cursor with
  | none => none
  | some raw =>
    match splitLast separator raw with
    | none => none
    | some (sv, id) =>
      if sv = [] ∨ id = [] then none
      else if (readInt64 sv).isSome then some "ledger"
      else if (readTime lib sv).isSome then some "created_at"
      else none

def decodeEventIDCursorForBackend (expectedBackend cursor : String) : Except Err String :=
  if cursor = "" then .error (tamperedCursor "empty cursor")
  else if hasCursorEnvelopePrefix cursor.toList ∨ '.' ∈ cursor.toList then
    match unwrapCursorEnvelope lib cursor.toList expectedBackend with
    | .error err => .error err
    | .ok raw =>
      if separator ∈ raw then
        .error (staleCursor "composite cursor cannot be replayed with order_by=id")
      else
        match textOf raw with
        | some id => if id = "" then .error (tamperedCursor "invalid event id in cursor") else .ok id
        | none => .error (tamperedCursor "invalid event id in cursor")
  else
    match isLegacyComposite lib cursor.toList with
    | some order => .error (staleCursor (order ++ " cursor cannot be replayed with order_by=id"))
    | none => .ok cursor

/-- The bytes of the sort value and of the id of a composite cursor. -/
def decodeCompositeCursorForBackend (expectedBackend cursor : String) :
    Except Err (List UInt8 × List UInt8) :=
  match unwrapCursorEnvelope lib cursor.toList expectedBackend with
  | .error err => .error err
  | .ok raw =>
    match splitLast separator raw with
    | none => .error (tamperedCursor "missing separator")
    | some (sortValue, id) =>
      if sortValue = [] ∨ id = [] then .error (tamperedCursor "empty component")
      else .ok (sortValue, id)

def cursorLedger (cursor : String) : Option Int :=
  match cut '-' cursor.toList with
  | none => none
  | some (before, after) =>
    if before = [] ∨ after = [] then none
    else if !(isDigits before && isDigits after) then none
    else
      match parseInt64 before with
      | none => none
      | some toid => if toid < 2 ^ 32 then none else some (toid / 2 ^ 32)

example : cursorLedger "00000000030064771072-0000000001" = some 7 := by decide

example : cursorLedger "ab-00000000000000000007-00000-00001" = none := by decide

/-! ## Round trips -/

theorem readable_base64URL : Readable 6 base64URLAlphabet := by
  have h : ∀ d < 64, base64URLAlphabet.idxOf? (letter base64URLAlphabet d) = some d := by decide
  exact h

variable {c : Char} {id : String}

theorem notMem_rawURLEncode (hc : c ∉ base64URLAlphabet) (bytes : List UInt8) :
    c ∉ rawURLEncode bytes :=
  fun hmem => hc (mem_alphabet_of_mem_encode (by decide) (by decide) hmem)

theorem rawURLDecode_rawURLEncode (bytes : List UInt8) :
    rawURLDecode (rawURLEncode bytes) = some bytes := by
  have hletters : (rawURLEncode bytes).filter (fun c => decide (c ≠ '\r' ∧ c ≠ '\n')) =
      rawURLEncode bytes := by
    rw [filter_eq_self]
    intro c hc
    have hr : c ≠ '\r' := fun heq => notMem_rawURLEncode (by decide) bytes (heq ▸ hc)
    have hn : c ≠ '\n' := fun heq => notMem_rawURLEncode (by decide) bytes (heq ▸ hc)
    simp [hr, hn]
  have hlength : (rawURLEncode bytes).length % 4 ≠ 1 := by
    obtain ⟨k, hk, hlen⟩ := length_encode_mul (w := 6) (by decide) base64URLAlphabet bytes
    rw [rawURLEncode]
    omega
  rw [rawURLDecode, hletters, if_neg hlength]
  exact decode_encode (by decide) (by decide) readable_base64URL bytes

theorem textOf_bytesOf (s : String) : textOf (bytesOf s) = some s := by
  have hbytes : (⟨(bytesOf s).toArray⟩ : ByteArray) = s.toUTF8 := by simp [bytesOf]
  rw [textOf, hbytes, String.fromUTF8?, dif_pos (show s.toUTF8.IsValidUTF8 from s.isValidUTF8)]
  rfl

theorem bytesOf_append (s t : String) : bytesOf (s ++ t) = bytesOf s ++ bytesOf t := by
  simp [bytesOf]

theorem bytesOf_ne_nil {s : String} (h : s ≠ "") : bytesOf s ≠ [] := by
  intro hnil
  have htext := textOf_bytesOf s
  rw [hnil] at htext
  exact h (Option.some.inj htext).symm

def cursorTag : Backend → String
  | .postgres => cursorBackendPostgres
  | .sqlite => cursorBackendSQLite

def cursorBackends : List String := [cursorBackendPostgres, cursorBackendSQLite, cursorBackendClickHouse]

/-- What is wrapped under a version and a backend is unwrapped by every reader that takes the
backend. -/
theorem unwrap_wrapCursorEnvelope {version backend : String} {payload : List UInt8}
    (hv : version ∈ [cursorVersionV1, cursorVersionCurrent]) (hb : backend ∈ cursorBackends)
    (h : payload ≠ []) (expected : String) :
    unwrapCursorEnvelope lib (wrapCursorEnvelope lib version backend payload) expected =
      (checkCursorBackend backend expected).map fun _ => payload := by
  have hnorm : normalizeCursorBackend backend = backend :=
    (by decide : ∀ b ∈ cursorBackends, normalizeCursorBackend b = b) _ hb
  have htag : backend ≠ "" := (by decide : ∀ b ∈ cursorBackends, b ≠ "") _ hb
  have hdot : '.' ∉ backend.toList := (by decide : ∀ b ∈ cursorBackends, '.' ∉ b.toList) _ hb
  obtain ⟨hempty, hversion, hisver, hknown⟩ := (by decide : ∀ v ∈ [cursorVersionV1, cursorVersionCurrent],
    v ≠ "" ∧ '.' ∉ v.toList ∧ isVersion v.toList = true ∧
      ¬ (v.toList ≠ cursorVersionCurrent.toList ∧ v.toList ≠ cursorVersionV1.toList)) _ hv
  generalize hmac : cursorMAC lib version backend (rawURLEncode payload) = mac
  have hwrap : wrapCursorEnvelope lib version backend payload =
      version.toList ++ '.' :: (backend.toList ++ '.' :: (rawURLEncode payload ++ '.' :: mac)) := by
    rw [wrapCursorEnvelope, hnorm, if_neg htag, if_neg hempty, hmac]
  have hmacDot : '.' ∉ mac := by
    rw [← hmac]
    exact notMem_rawURLEncode (by decide) _
  have hmacNe : mac ≠ [] := by
    intro hnil
    have hdecode := rawURLDecode_rawURLEncode ((lib.hmacSHA256 (version.toList ++ '.' ::
      (backend.toList ++ '.' :: rawURLEncode payload))).take 3)
    rw [← cursorMAC, hmac, hnil] at hdecode
    have hlen := congrArg List.length (Option.some.inj hdecode)
    rw [length_take, lib.length_hmacSHA256] at hlen
    exact absurd hlen (by decide)
  have hparts : split '.' (wrapCursorEnvelope lib version backend payload) =
      [version.toList, backend.toList, rawURLEncode payload, mac] := by
    rw [hwrap, split_append hversion, split_append hdot,
      split_append (notMem_rawURLEncode (by decide) payload), split_of_notMem hmacDot]
  have hvalid : validCursorMAC lib version backend backend (rawURLEncode payload) mac = true := by
    rw [validCursorMAC, if_neg hmacNe, hmac, if_pos rfl]
  have hpayload : envelopePayload (rawURLEncode payload) = .ok payload := by
    rw [envelopePayload, rawURLDecode_rawURLEncode]
    cases payload with
    | nil => exact absurd rfl h
    | cons byte payload => rfl
  have hmem : '.' ∈ wrapCursorEnvelope lib version backend payload := by
    rw [hwrap]
    simp
  rw [unwrapCursorEnvelope, if_neg (ne_nil_of_mem hmem), if_pos hmem, hparts]
  simp only [headD_cons, hisver, String.ofList_toList, hnorm, htag, hvalid, hpayload, if_neg hknown,
    Bool.true_eq_false, if_false]
  cases checkCursorBackend backend expected <;> rfl

theorem bytesOf_eq_flatMap (s : String) : bytesOf s = s.toList.flatMap String.utf8EncodeChar := by
  have hs : s.toUTF8 = s.toList.utf8Encode := by
    rw [String.utf8Encode_toList]
    rfl
  rw [bytesOf, hs, List.utf8Encode]
  simp

theorem utf8EncodeChar_of_lt (h : c.toNat < 128) : String.utf8EncodeChar c = [c.val.toUInt8] := by
  apply String.utf8EncodeChar_eq_singleton
  rw [Char.utf8Size_eq_one_iff]
  exact Nat.le_of_lt_succ h

/-- Every byte of a longer encoding has its top bit set. -/
theorem separator_notMem_utf8EncodeChar (h : ¬ c.val.toNat < 128) :
    separator ∉ String.utf8EncodeChar c := by
  have hne : ∀ n m, 128 ≤ n + m → n + m < 256 → separator ≠ UInt8.ofNat (n + m) := by
    intro n m hlow hhigh heq
    have hval := congrArg UInt8.toNat heq
    rw [UInt8.toNat_ofNat', Nat.mod_eq_of_lt hhigh] at hval
    exact absurd (hval ▸ hlow) (by decide)
  rw [String.utf8EncodeChar, if_neg (by omega)]
  split_ifs <;> simp only [mem_cons, not_mem_nil, or_false, not_or]
  all_goals
    and_intros <;> exact hne _ _ (by omega) (by omega)

theorem separator_notMem_bytesOf (h : '|' ∉ id.toList) : separator ∉ bytesOf id := by
  rw [bytesOf_eq_flatMap]
  intro hmem
  obtain ⟨c, hc, hbyte⟩ := mem_flatMap.mp hmem
  by_cases hsmall : c.val.toNat < 128
  · rw [utf8EncodeChar_of_lt hsmall, mem_singleton] at hbyte
    have hval := congrArg UInt8.toNat hbyte
    rw [UInt32.toNat_toUInt8, Nat.mod_eq_of_lt (Nat.lt_trans hsmall (by decide))] at hval
    exact h (Char.toNat_inj.mp (show '|'.toNat = c.toNat from hval) ▸ hc)
  · exact separator_notMem_utf8EncodeChar hsmall hbyte

/-! ## Ids -/

def lowerHex : List Char := "0123456789abcdef".toList

def hexDigits : List Char := "0123456789abcdefABCDEF".toList

/-- Hexadecimal digits and dashes, at least two of them, the first one a digit. -/
def HexID (id : String) : Prop :=
  (∃ c d rest, id.toList = c :: d :: rest ∧ c ∈ hexDigits) ∧ ∀ x ∈ id.toList, x ∈ '-' :: hexDigits

/-- Ids of both schemes are of this form: the digits are lower case. -/
def PlainID (id : String) : Prop :=
  (∃ c d rest, id.toList = c :: d :: rest ∧ c ∈ lowerHex) ∧ ∀ x ∈ id.toList, x ∈ '-' :: lowerHex

theorem PlainID.hex (h : PlainID id) : HexID id := by
  have hsub : lowerHex ⊆ hexDigits := by decide
  obtain ⟨⟨c, d, rest, heq, hc⟩, hall⟩ := h
  exact ⟨⟨c, d, rest, heq, hsub hc⟩, fun x hx => cons_subset_cons _ hsub (hall x hx)⟩

theorem HexID.ne_empty (h : HexID id) : id ≠ "" := by
  obtain ⟨⟨c, d, rest, heq, _⟩, _⟩ := h
  intro hempty
  rw [hempty] at heq
  cases heq

theorem PlainID.ne_empty (h : PlainID id) : id ≠ "" := h.hex.ne_empty

theorem HexID.notMem (h : HexID id) (hc : c ∉ '-' :: hexDigits) : c ∉ id.toList :=
  fun hmem => hc (h.2 c hmem)

/-- Neither an integer nor a time begins with such a byte. -/
theorem unreadable_of_first_byte {bytes : List UInt8} {byte : UInt8}
    (hbyte : byte.toNat < 43 ∨ 57 < byte.toNat) :
    readInt64 (byte :: bytes) = none ∧ readTime lib (byte :: bytes) = none := by
  cases h : textOf (byte :: bytes) with
  | none => simp [readInt64, readTime, h]
  | some s =>
    have hbytes : bytesOf s = byte :: bytes := by
      rw [textOf, String.fromUTF8?] at h
      split at h
      · cases h
        rfl
      · cases h
    rw [readInt64, readTime, h, bind_some, bind_some]
    rw [bytesOf_eq_flatMap] at hbytes
    cases hs : s.toList with
    | nil => simp [hs] at hbytes
    | cons c cs =>
      have hnear : ∀ x : Char, 43 ≤ x.toNat ∧ x.toNat ≤ 57 → c ≠ x := by
        intro x hx hcx
        rw [hs, flatMap_cons, hcx, utf8EncodeChar_of_lt (by omega)] at hbytes
        have hfirst : x.val.toUInt8 = byte := (List.cons.inj hbytes).1
        have hval := congrArg UInt8.toNat hfirst
        rw [UInt32.toNat_toUInt8] at hval
        have hx' : 43 ≤ x.val.toNat ∧ x.val.toNat ≤ 57 := hx
        omega
      have hdigit : ¬ IsDigit c := by
        intro hd
        have hrange : 48 ≤ c.toNat ∧ c.toNat ≤ 57 := hd
        exact hnear c (by omega) rfl
      have hread : digit c = none := if_neg hdigit
      have hpositive : parseInt64.positive (c :: cs) = none := by
        simp [parseInt64.positive, parseUint, readDigits, hread]
      refine ⟨?_, by simp [parseRFC3339Nano, isDigits, hdigit]⟩
      rw [parseInt64]
      · exact hpositive
      · intro rest heq
        exact hnear '-' (by decide) (List.cons.inj heq).1
      · intro rest heq
        exact hnear '+' (by decide) (List.cons.inj heq).1

/-- The bytes a bare id stands for, read as a base64 text, are no composite payload. -/
theorem HexID.unreadable {raw sv after : List UInt8} (h : HexID id)
    (hraw : rawURLDecode id.toList = some raw) (hlast : splitLast separator raw = some (sv, after))
    (hne : sv ≠ []) : readInt64 sv = none ∧ readTime lib sv = none := by
  obtain ⟨⟨c, d, rest, heq, hc⟩, hall⟩ := h
  have hletters : id.toList.filter (fun x => decide (x ≠ '\r' ∧ x ≠ '\n')) = id.toList := by
    have hline : (('-' :: hexDigits).all fun x => decide (x ≠ '\r' ∧ x ≠ '\n')) = true := by decide
    rw [filter_eq_self]
    exact fun x hx => all_eq_true.mp hline x (hall x hx)
  -- the first letter is a hexadecimal digit, which puts the first byte outside the signs and digits
  have hindex : (hexDigits.all fun x =>
      (base64URLAlphabet.idxOf? x).any fun i => decide (i < 2 ^ 6 ∧ (i < 10 ∨ 26 ≤ i))) = true := by
    decide
  obtain ⟨i, hi, hrange⟩ := any_eq_true _ _ |>.mp (all_eq_true.mp hindex c hc)
  obtain ⟨hlt, hfar⟩ := of_decide_eq_true hrange
  rw [rawURLDecode, hletters] at hraw
  have hdecode : decode 6 base64URLAlphabet (c :: d :: rest) = some raw := by
    split at hraw
    · cases hraw
    · rwa [heq] at hraw
  obtain ⟨byte, tail, rfl, hbyte⟩ := decode_head hi hlt hdecode
  rw [splitLast] at hlast
  split at hlast
  · obtain ⟨rfl, rfl⟩ := Prod.mk.inj (Option.some.inj hlast)
    exact unreadable_of_first_byte lib (by omega)
  · split at hlast
    · obtain ⟨rfl, rfl⟩ := Prod.mk.inj (Option.some.inj hlast)
      exact absurd rfl hne
    · cases hlast

theorem HexID.isLegacyComposite (h : HexID id) : isLegacyComposite lib id.toList = none := by
  rw [Store.isLegacyComposite]
  cases hraw : rawURLDecode id.toList with
  | none => rfl
  | some raw =>
    cases hlast : splitLast separator raw with
    | none => simp [hlast]
    | some parts =>
      simp only [hlast]
      split
      · rfl
      · rename_i hne
        obtain ⟨hint, htime⟩ := h.unreadable lib hraw hlast fun hnil => hne (.inl hnil)
        simp [hint, htime]

theorem cut_of_notMem {cs : List Char} (h : c ∉ cs) : cut c cs = none := by
  induction cs with
  | nil => rfl
  | cons x cs ih =>
    have hx : x ≠ c := fun heq => h (heq ▸ (.head _))
    rw [cut, if_neg hx, ih fun hmem => h (.tail _ hmem)]

theorem HexID.decodeEventID (h : HexID id) (backend : String) :
    decodeEventIDCursorForBackend lib backend id = .ok id := by
  have hdot : '.' ∉ id.toList := h.notMem (by decide)
  have henvelope : ¬ (hasCursorEnvelopePrefix id.toList = true ∨ '.' ∈ id.toList) := by
    simp [hasCursorEnvelopePrefix, cut_of_notMem hdot, hdot]
  rw [decodeEventIDCursorForBackend, if_neg h.ne_empty, if_neg henvelope, h.isLegacyComposite]

theorem encodeComposite_ne_empty (b : Backend) (sortValue id : String) :
    encodeCompositeCursorForBackend lib (cursorTag b) sortValue id ≠ "" := by
  intro hempty
  have htext := congrArg String.toList hempty
  rw [encodeCompositeCursorForBackend, String.toList_ofList] at htext
  cases b <;> cases htext

theorem bytesOf_composite (sortValue id : String) :
    bytesOf (sortValue ++ "|" ++ id) = bytesOf sortValue ++ separator :: bytesOf id := by
  have hbar : bytesOf "|" = [separator] := by decide
  rw [bytesOf_append, bytesOf_append, hbar, append_assoc, singleton_append]

theorem splitLast_composite (sortValue : String) (hid : '|' ∉ id.toList) :
    splitLast separator (bytesOf (sortValue ++ "|" ++ id)) = some (bytesOf sortValue, bytesOf id) := by
  rw [bytesOf_composite, splitLast_append _ (separator_notMem_bytesOf hid)]

theorem decodeComposite_encodeComposite (b : Backend) {sortValue : String}
    (hsort : sortValue ≠ "") (hid : PlainID id) :
    decodeCompositeCursorForBackend lib (cursorTag b)
      (encodeCompositeCursorForBackend lib (cursorTag b) sortValue id) =
        .ok (bytesOf sortValue, bytesOf id) := by
  have hne : bytesOf (sortValue ++ "|" ++ id) ≠ [] := by
    rw [bytesOf_composite]
    simp
  have hparts : ¬ (bytesOf sortValue = [] ∨ bytesOf id = []) := by
    rintro (hnil | hnil)
    · exact bytesOf_ne_nil hsort hnil
    · exact bytesOf_ne_nil hid.ne_empty hnil
  have hcheck : checkCursorBackend (cursorTag b) (cursorTag b) = .ok () := by cases b <;> rfl
  rw [decodeCompositeCursorForBackend, encodeCompositeCursorForBackend, String.toList_ofList,
    unwrap_wrapCursorEnvelope lib (by decide) (by cases b <;> decide) hne, hcheck]
  simp only [Except.map, splitLast_composite sortValue (hid.hex.notMem (by decide)), if_neg hparts]

end SoroTrail.Store
