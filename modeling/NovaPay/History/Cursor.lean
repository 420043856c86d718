import NovaPay.Library.Base64Url
import NovaPay.Library.Calendar
import NovaPay.Library.Double
import NovaPay.Library.Hexadecimal
import NovaPay.Library.JsonReader
import NovaPay.Texts

/-!
# History cursors

`encodeHistoryCursor` and `decodeHistoryCursor`. A cursor is the last row of a page, written as JSON in
base64 and signed; what the service has written it reads back.
-/

namespace NovaPay.History

open Base64Url Calendar Hexadecimal JsonText

/-! ### Uuids -/

/-- `^[0-9a-f]{8}-[0-9a-f]{4}-[1-5][0-9a-f]{3}-[89ab][0-9a-f]{3}-[0-9a-f]{12}$`, in either letter case. -/
def uuidClasses : List (Char → Bool) :=
  List.replicate 8 isDigit ++ oneOf "-" :: (List.replicate 4 isDigit ++ oneOf "-" ::
    (oneOf "12345" :: (List.replicate 3 isDigit ++ oneOf "-" ::
      (oneOf "89abAB" :: (List.replicate 3 isDigit ++ oneOf "-" :: List.replicate 12 isDigit)))))

def isUuid (s : String) : Bool := ofClasses uuidClasses s.toList

/-- The ids that `uuid()` draws: 128 bits, of them four for the version, which is 4, and two for the
variant. -/
def Drawn (id : Uuid) : Prop := id < 16 ^ 32 ∧ id / 16 ^ 19 % 16 = 4 ∧ id / 16 ^ 15 % 16 / 4 = 2

theorem mem_uuidClasses {p : Char → Bool} (h : p ∈ uuidClasses) :
    p = isDigit ∨ p = oneOf "-" ∨ p = oneOf "12345" ∨ p = oneOf "89abAB" := by
  simp only [uuidClasses, List.mem_append, List.mem_cons, List.mem_replicate] at h
  tauto

theorem upper_uuidClasses : ∀ p ∈ uuidClasses, ∀ c, p c = true → p c.toUpper = true := by
  intro p hp c hc
  obtain rfl | rfl | rfl | rfl := mem_uuidClasses hp
  all_goals exact oneOf_toUpper (List.all_iff_forall_prop.mp (by decide)) c hc

/-- The texts that JSON writes as they are. -/
def Plain (cs : List Char) : Prop := ∀ c ∈ cs, c ≠ '"' ∧ c ≠ '\\' ∧ 32 ≤ c.toNat

theorem plain_of_isUuid {s : String} (h : isUuid s = true) : Plain s.toList := by
  have hall : ∀ t : String, (∀ c ∈ t.toList, c ≠ '"' ∧ c ≠ '\\' ∧ 32 ≤ c.toNat) → ∀ c, oneOf t c = true →
      c ≠ '"' ∧ c ≠ '\\' ∧ 32 ≤ c.toNat := by
    intro t ht c hc
    exact ht c (of_decide_eq_true hc)
  intro c hc
  obtain ⟨p, hp, hclass⟩ := exists_class_of_mem h c hc
  obtain rfl | rfl | rfl | rfl := mem_uuidClasses hp
  all_goals exact hall _ (List.all_iff_forall_prop.mp (by decide)) c hclass

theorem length_of_isUuid {s : String} (h : isUuid s = true) : s.toList.length = 36 := length_of_ofClasses h

theorem ofClasses_uuidText {id : Uuid} (h : Drawn id) : ofClasses uuidClasses (uuidText id).toList = true := by
  obtain ⟨hlt, hversion, hvariant⟩ := h
  have hfour : ∀ {m : ℕ} {p : Char → Bool}, p (m / 16 ^ 3 % 16).digitChar = true →
      ofClasses (p :: List.replicate 3 isDigit) (digits 4 m) = true := by
    intro m p hp
    rw [digits_add 1 3, digits, digits, List.nil_append, List.singleton_append, ofClasses, hp, ofClasses_digits]
    rfl
  have hdash : ∀ {ps : List (Char → Bool)} {cs : List Char}, ofClasses ps cs = true →
      ofClasses (oneOf "-" :: ps) ('-' :: cs) = true := by
    intro ps cs hcs
    rw [ofClasses, hcs]
    rfl
  rw [uuidText_eq hlt, uuidClasses]
  refine ofClasses_append (ofClasses_digits 8 _) (hdash (ofClasses_append (ofClasses_digits 4 _) (hdash ?_)))
  refine ofClasses_append (hfour ?_) (hdash (ofClasses_append (hfour ?_) (hdash (ofClasses_digits 12 _))))
  · rw [Nat.div_div_eq_div_mul, ← Nat.pow_add, hversion]
    decide
  · rw [Nat.div_div_eq_div_mul, ← Nat.pow_add]
    have hbits : id / 16 ^ 15 % 16 < 16 := Nat.mod_lt _ (by decide)
    have hclass : ∀ d < 16, d / 4 = 2 → oneOf "89abAB" d.digitChar = true := by decide
    exact hclass _ hbits hvariant

/-- An id that was drawn is a uuid in every spelling. -/
theorem isUuid_spelled {u : UuidText} (h : Drawn u.value) : isUuid (spelled u) = true := by
  rw [isUuid, spelled, String.toList_ofList]
  exact ofClasses_spell upper_uuidClasses (ofClasses_uuidText h) u.upper

theorem isUuid_uuidText {id : Uuid} (h : Drawn id) : isUuid (uuidText id) = true := ofClasses_uuidText h

/-! ### Writing and reading -/

/-- `createHmac('sha256', historyCursorKey())`, whose digests have 32 bytes. -/
structure CursorKey where
  hmac : List UInt8 → List UInt8
  length_hmac : ∀ payload, (hmac payload).length = 32

/-- `HistoryCursorValue` -/
structure HistoryCursorValue where
  occurredAt : ℤ
  id : String
deriving DecidableEq, Repr

def invalidCursor : HttpError := ⟨400, "INVALID_CURSOR", "The history cursor is invalid."⟩

def sign (key : CursorKey) (payload : List Char) : List Char :=
  encode (key.hmac (utf8 (String.ofList payload)))

/-- `HistoryCursorPayload` -/
def cursorPayload (walletId : String) (value : HistoryCursorValue) : Value Double :=
  .object [("v", .number Double.one), ("w", .string walletId),
    ("t", .string (String.ofList (toISOString value.occurredAt))), ("id", .string value.id)]

/-- The payload in base64. -/
def encodedPayload (walletId : String) (value : HistoryCursorValue) : List Char :=
  encode (utf8 (String.ofList (stringify Double.jsonFormat (cursorPayload walletId value))))

def encodeHistoryCursor (key : CursorKey) (walletId : String) (value : HistoryCursorValue) : String :=
  let payload := encodedPayload walletId value
  String.ofList (payload ++ '.' :: sign key payload)

/-- The two parts of a text that `CURSOR_PATTERN`, `^[A-Za-z0-9_-]+\.[A-Za-z0-9_-]{43}$`, matches. -/
def cursorParts (cursor : List Char) : Option (List Char × List Char) :=
  let payload := cursor.takeWhile (· ≠ '.')
  let signature := (cursor.dropWhile (· ≠ '.')).tail
  if payload ≠ [] ∧ payload.all (fun c => decide (c ∈ alphabet)) = true ∧ signature.length = 43 ∧
      signature.all (fun c => decide (c ∈ alphabet)) = true then
    some (payload, signature)
  else none

def member? (name : String) : Value Double → Option (Value Double)
  | .object members => (members.find? fun m => m.1 = name).map Prod.snd
  | _ => none

/-- The cursor that a payload is of. -/
def readPayload (walletId : String) (payload : Value Double) : Option HistoryCursorValue :=
  match member? "v" payload, member? "w" payload, member? "t" payload, member? "id" payload with
  | some (.number v), some (.string w), some (.string t), some (.string id) => do
    guard (v = Double.one ∧ w = walletId ∧ isUuid w ∧ isUuid id)
    let occurredAt ← ofISOString? t.toList
    guard (occurredAt.natAbs ≤ 8640000000000000)
    return ⟨occurredAt, id⟩
  | _, _, _, _ => none

def readCursor (key : CursorKey) (walletId : String) (cursor : List Char) : Option HistoryCursorValue := do
  guard (cursor.length ≤ 1024)
  let (encodedPayload, encodedSignature) ← cursorParts cursor
  let expected := decode (sign key encodedPayload)
  let received := decode encodedSignature
  guard (encode received = encodedSignature ∧ expected = received)
  let decoded := decode encodedPayload
  guard (encode decoded = encodedPayload)
  let payload ← parse Double.ofJson? (ofUtf8 decoded)
  readPayload walletId payload

def decodeHistoryCursor (key : CursorKey) (walletId : String) (cursor : String) :
    Except HttpError HistoryCursorValue :=
  match readCursor key walletId cursor.toList with
  | some value => .ok value
  | none => .error invalidCursor

variable {key : CursorKey} {walletId : String} {value : HistoryCursorValue}

theorem parse_cursorPayload : parse Double.ofJson? (stringify Double.jsonFormat (cursorPayload walletId value)) =
    some (cursorPayload walletId value) := by
  refine parse_stringify _ ?_ ?_
  · rw [cursorPayload, everyObject_object]
    refine ⟨by simp [unique], fun m hm => ?_⟩
    simp only [List.mem_cons, List.not_mem_nil, or_false] at hm
    obtain rfl | rfl | rfl | rfl := hm
    all_goals rfl
  · rw [cursorPayload, everyNumber_object]
    intro m hm
    simp only [List.mem_cons, List.not_mem_nil, or_false] at hm
    obtain rfl | rfl | rfl | rfl := hm
    · exact Double.ofJson?_one
    all_goals trivial

theorem readPayload_cursorPayload (hw : isUuid walletId = true) (hid : isUuid value.id = true)
    (ht : value.occurredAt.natAbs ≤ 8640000000000000) :
    readPayload walletId (cursorPayload walletId value) = some value := by
  have htime : ofISOString? (toISOString value.occurredAt) = some value.occurredAt :=
    ofISOString?_eq_some_iff.mpr rfl
  simp [readPayload, cursorPayload, member?, hw, hid, htime, ht, guard]

theorem plain_toISOString (ms : ℤ) : Plain (toISOString ms) := by
  have hdigit : ∀ c : Char, c.isDigit = true → c ≠ '"' ∧ c ≠ '\\' ∧ 32 ≤ c.toNat := by
    intro c hc
    have hbounds := Char.isDigit_iff_toNat.mp hc
    have hzero : '0'.toNat = 48 := rfl
    refine ⟨?_, ?_, by omega⟩
    all_goals
      rintro rfl
      exact absurd hc (by decide)
  intro c hc
  have hchar := toISOString_chars ms c hc
  rw [isDateChar, Bool.or_eq_true, decide_eq_true_eq] at hchar
  obtain hchar | hchar := hchar
  · exact hdigit c hchar
  · have hall : ∀ d ∈ ['-', '+', 'T', ':', '.', 'Z'], d ≠ '"' ∧ d ≠ '\\' ∧ 32 ≤ d.toNat :=
      List.all_iff_forall_prop.mp (by decide)
    exact hall c hchar

theorem length_sign (payload : List Char) : (sign key payload).length = 43 := by
  rw [sign, length_encode, key.length_hmac]

/-- The service's own cursors are short enough for it. -/
theorem length_encodeHistoryCursor_le (key : CursorKey) (hw : isUuid walletId = true) (hid : isUuid value.id = true)
    (ht : value.occurredAt.natAbs ≤ 8640000000000000) :
    (encodeHistoryCursor key walletId value).toList.length ≤ 1024 := by
  have hpayload : (stringify Double.jsonFormat (cursorPayload walletId value)).length ≤ 160 := by
    have htime := length_toISOString_le ht
    have hwallet := length_of_isUuid hw
    have hrow := length_of_isUuid hid
    have hone : (Double.jsonFormat.text Double.one).length = 1 := by decide +kernel
    simp only [cursorPayload, stringify, membersText, quote, String.toList_ofList,
      escape_eq_self (plain_of_isUuid hw), escape_eq_self (plain_of_isUuid hid),
      escape_eq_self (plain_toISOString value.occurredAt), List.length_append, List.length_cons,
      List.length_nil, hone]
    have hv : (escape "v".toList).length = 1 := rfl
    have hw : (escape "w".toList).length = 1 := rfl
    have ht : (escape "t".toList).length = 1 := rfl
    have hid : (escape "id".toList).length = 2 := rfl
    omega
  have hbytes := length_utf8_ofList_le (stringify Double.jsonFormat (cursorPayload walletId value))
  rw [encodeHistoryCursor, String.toList_ofList, List.length_append, List.length_cons, length_sign,
    encodedPayload, length_encode]
  omega

theorem ofUtf8_encodedPayload : ofUtf8 (decode (encodedPayload walletId value)) =
    stringify Double.jsonFormat (cursorPayload walletId value) := by
  rw [encodedPayload, decode_encode, ofUtf8_utf8, String.toList_ofList]

theorem encodedPayload_ne_nil : encodedPayload walletId value ≠ [] := by
  intro h
  have htext := @ofUtf8_encodedPayload walletId value
  -- no bytes are the empty text, which is no JSON
  have hempty : ofUtf8 (decode []) = [] := ofUtf8_utf8 ""
  rw [h, hempty, cursorPayload, stringify] at htext
  cases htext

theorem encodeHistoryCursor_ne_empty : encodeHistoryCursor key walletId value ≠ "" := by
  intro h
  exact absurd (congrArg String.toList h) (by simp [encodeHistoryCursor])

theorem cursorParts_append {p s : List Char} (hp : p ≠ []) (hpayload : ∀ c ∈ p, c ∈ alphabet)
    (hlength : s.length = 43) (hsignature : ∀ c ∈ s, c ∈ alphabet) :
    cursorParts (p ++ '.' :: s) = some (p, s) := by
  have hdot : ∀ c ∈ p, decide (c ≠ '.') = true := by
    intro c hc
    rw [decide_eq_true_eq]
    rintro rfl
    exact absurd (hpayload _ hc) (by decide)
  rw [cursorParts, List.takeWhile_append_of_pos hdot, List.dropWhile_append_of_pos hdot,
    List.takeWhile_cons_of_neg (by decide), List.dropWhile_cons_of_neg (by decide), List.append_nil,
    List.tail_cons, if_pos ⟨hp, List.all_iff_forall_prop.mpr hpayload, hlength,
      List.all_iff_forall_prop.mpr hsignature⟩]

theorem cursorParts_encodeHistoryCursor : cursorParts (encodeHistoryCursor key walletId value).toList =
    some (encodedPayload walletId value, sign key (encodedPayload walletId value)) := by
  rw [encodeHistoryCursor, String.toList_ofList]
  exact cursorParts_append encodedPayload_ne_nil (encode_chars _) (length_sign _) (encode_chars _)

/-- A cursor of the service is read back for the wallet it was written for. -/
theorem decodeHistoryCursor_encodeHistoryCursor (hw : isUuid walletId = true) (hid : isUuid value.id = true)
    (ht : value.occurredAt.natAbs ≤ 8640000000000000) :
    decodeHistoryCursor key walletId (encodeHistoryCursor key walletId value) = .ok value := by
  have hlength := length_encodeHistoryCursor_le key hw hid ht
  have hsign : ∀ payload, encode (decode (sign key payload)) = sign key payload := by
    intro payload
    rw [sign, decode_encode]
  have hcanonical : encode (decode (encodedPayload walletId value)) = encodedPayload walletId value := by
    rw [encodedPayload, decode_encode]
  have hread : readCursor key walletId (encodeHistoryCursor key walletId value).toList = some value := by
    simp only [readCursor, guard, hlength, if_true, cursorParts_encodeHistoryCursor, hsign, hcanonical,
      and_self, ofUtf8_encodedPayload, parse_cursorPayload,
      readPayload_cursorPayload hw hid ht, Option.bind_eq_bind, Option.bind_some, Option.pure_def]
  rw [decodeHistoryCursor, hread]

/-! ### What is accepted -/

theorem readPayload_eq_some {payload : Value Double} (h : readPayload walletId payload = some value) :
    member? "v" payload = some (.number Double.one) ∧ member? "w" payload = some (.string walletId) ∧
      member? "t" payload = some (.string (String.ofList (toISOString value.occurredAt))) ∧
      member? "id" payload = some (.string value.id) ∧ isUuid walletId = true ∧ isUuid value.id = true ∧
      value.occurredAt.natAbs ≤ 8640000000000000 := by
  unfold readPayload at h
  split at h
  · next v w t id hv hw ht hid =>
    simp only [guard, Option.bind_eq_bind, Option.bind_eq_some_iff, Option.pure_def] at h
    obtain ⟨_, hfirst, ms, hms, _, hsecond, hvalue⟩ := h
    split at hfirst
    · next hall =>
      split at hsecond
      · next hbound =>
        obtain rfl := Option.some.inj hvalue
        obtain ⟨rfl, rfl, hwallet, hrow⟩ := hall
        have htime := congrArg String.ofList (ofISOString?_eq_some_iff.mp hms)
        rw [String.ofList_toList] at htime
        refine ⟨hv, hw, ?_, hid, hwallet, hrow, hbound⟩
        rw [ht, htime]
      · cases hsecond
    · cases hfirst
  · cases h

theorem cursorParts_eq_some {cursor p s : List Char} (h : cursorParts cursor = some (p, s)) :
    cursor = p ++ '.' :: s ∧ s.length = 43 := by
  dsimp only [cursorParts] at h
  split at h
  · next hall =>
    obtain ⟨rfl, rfl⟩ := Prod.mk.inj (Option.some.inj h)
    refine ⟨?_, hall.2.2.1⟩
    have hdrop : cursor.dropWhile (· ≠ '.') ≠ [] := by
      intro hnil
      have hlength := hall.2.2.1
      rw [hnil] at hlength
      cases hlength
    obtain ⟨c, r, hc⟩ := List.exists_cons_of_ne_nil hdrop
    have hdot : c = '.' := by
      have hhead : decide (c ≠ '.') = false := by
        simpa only [hc, List.head_cons] using List.head_dropWhile_not (fun c => decide (c ≠ '.')) hdrop
      simpa using hhead
    conv_lhs => rw [← List.takeWhile_append_dropWhile (p := fun c => decide (c ≠ '.')) (l := cursor)]
    rw [hc, hdot, List.tail_cons]
  · cases h

/-- An accepted cursor is a payload in canonical base64 and its signature. -/
theorem readCursor_eq_some {cursor : List Char} (h : readCursor key walletId cursor = some value) :
    ∃ p payload, cursorParts cursor = some (p, sign key p) ∧ cursor.length ≤ 1024 ∧ encode (decode p) = p ∧
      parse Double.ofJson? (ofUtf8 (decode p)) = some payload ∧ readPayload walletId payload = some value := by
  simp only [readCursor, guard, Option.bind_eq_bind, Option.bind_eq_some_iff] at h
  obtain ⟨_, hlength, ⟨p, s⟩, hparts, _, hsignature, _, hcanonical, payload, hparse, hread⟩ := h
  split at hlength
  · next hle =>
    split at hsignature
    · next hsame =>
      split at hcanonical
      · next hencoded =>
        obtain ⟨hreencoded, hequal⟩ : encode (decode s) = s ∧ decode (sign key p) = decode s := hsame
        have hs : s = sign key p := by
          rw [← hreencoded, ← hequal, sign, decode_encode]
        rw [hs] at hparts
        exact ⟨p, payload, hparts, hle, hencoded, hparse, hread⟩
      · cases hcanonical
    · cases hsignature
  · cases hlength

theorem decodeHistoryCursor_eq_ok {cursor : String} :
    decodeHistoryCursor key walletId cursor = .ok value ↔ readCursor key walletId cursor.toList = some value := by
  unfold decodeHistoryCursor
  split
  · next hread => rw [hread, Except.ok.injEq, Option.some.injEq]
  · next hread => simp [hread]

/-- Two accepted cursors, of any wallets, with the same bytes in their payloads are one cursor. -/
theorem cursor_eq_of_payload {c₁ c₂ w₁ w₂ : String} {v₁ v₂ : HistoryCursorValue} {p₁ s₁ p₂ s₂ : List Char}
    (h₁ : decodeHistoryCursor key w₁ c₁ = .ok v₁) (h₂ : decodeHistoryCursor key w₂ c₂ = .ok v₂)
    (hparts₁ : cursorParts c₁.toList = some (p₁, s₁)) (hparts₂ : cursorParts c₂.toList = some (p₂, s₂))
    (hsame : decode p₁ = decode p₂) : c₁ = c₂ := by
  obtain ⟨p, _, hp, -, hcanonical, -⟩ := readCursor_eq_some (decodeHistoryCursor_eq_ok.mp h₁)
  obtain ⟨q, _, hq, -, hcanonical', -⟩ := readCursor_eq_some (decodeHistoryCursor_eq_ok.mp h₂)
  obtain ⟨rfl, rfl⟩ := Prod.mk.inj (Option.some.inj (hparts₁.symm.trans hp))
  obtain ⟨rfl, rfl⟩ := Prod.mk.inj (Option.some.inj (hparts₂.symm.trans hq))
  have hpayload : p₁ = p₂ := by rw [← hcanonical, ← hcanonical', hsame]
  refine String.ext ?_
  rw [(cursorParts_eq_some hp).1, (cursorParts_eq_some hq).1, hpayload]

/-- A cursor is accepted for one wallet at most. -/
theorem wallet_eq_of_cursor {cursor w₁ w₂ : String} {v₁ v₂ : HistoryCursorValue}
    (h₁ : decodeHistoryCursor key w₁ cursor = .ok v₁) (h₂ : decodeHistoryCursor key w₂ cursor = .ok v₂) :
    w₁ = w₂ := by
  obtain ⟨p, payload, hp, -, -, hparse, hread⟩ := readCursor_eq_some (decodeHistoryCursor_eq_ok.mp h₁)
  obtain ⟨q, payload', hq, -, -, hparse', hread'⟩ := readCursor_eq_some (decodeHistoryCursor_eq_ok.mp h₂)
  obtain ⟨rfl, -⟩ := Prod.mk.inj (Option.some.inj (hp.symm.trans hq))
  obtain rfl := Option.some.inj (hparse.symm.trans hparse')
  have hw := (readPayload_eq_some hread).2.1.symm.trans (readPayload_eq_some hread').2.1
  exact Value.string.inj (Option.some.inj hw)

/-- What the history route can write: uuids and the time of a valid `Date`. -/
def Producible (walletId : String) (value : HistoryCursorValue) : Prop :=
  isUuid walletId = true ∧ isUuid value.id = true ∧ value.occurredAt.natAbs ≤ 8640000000000000

/-- The signatures among the presented strings are those that were issued. -/
def Unforged (key : CursorKey) (issued : Set (String × HistoryCursorValue)) (presented : Set String) : Prop :=
  ∀ cursor ∈ presented, ∀ p, cursor.toList = p ++ '.' :: sign key p →
    ∃ x ∈ issued, p = encodedPayload x.1 x.2

/-- Without forgery a client is answered for the cursors that were issued for the wallet, and for no others. -/
theorem decodeHistoryCursor_iff_issued {issued : Set (String × HistoryCursorValue)} {presented : Set String}
    {cursor : String} (hissued : ∀ x ∈ issued, Producible x.1 x.2) (hunforged : Unforged key issued presented)
    (hcursor : cursor ∈ presented) : decodeHistoryCursor key walletId cursor = .ok value ↔
      (walletId, value) ∈ issued ∧ cursor = encodeHistoryCursor key walletId value := by
  constructor
  · intro h
    obtain ⟨p, payload, hp, -, -, hparse, hread⟩ := readCursor_eq_some (decodeHistoryCursor_eq_ok.mp h)
    have htext := (cursorParts_eq_some hp).1
    obtain ⟨⟨w, v⟩, hx, rfl⟩ := hunforged cursor hcursor p htext
    have hcursorOf : cursor = encodeHistoryCursor key w v := by
      refine String.ext ?_
      rw [htext, encodeHistoryCursor, String.toList_ofList]
    obtain ⟨hw, hid, ht⟩ := hissued _ hx
    have hown : decodeHistoryCursor key w cursor = .ok v :=
      hcursorOf ▸ decodeHistoryCursor_encodeHistoryCursor hw hid ht
    obtain rfl := wallet_eq_of_cursor h hown
    obtain rfl := Except.ok.inj (h.symm.trans hown)
    exact ⟨hx, hcursorOf⟩
  · rintro ⟨hx, rfl⟩
    obtain ⟨hw, hid, ht⟩ := hissued _ hx
    exact decodeHistoryCursor_encodeHistoryCursor hw hid ht

/-- Cursors are read back and cannot be malleated. -/
theorem decodeHistoryCursor_canonical (key : CursorKey) (walletId : String) :
    (∀ value, Producible walletId value →
      decodeHistoryCursor key walletId (encodeHistoryCursor key walletId value) = .ok value) ∧
    (∀ cursor value, decodeHistoryCursor key walletId cursor = .ok value → Producible walletId value ∧
      ∃ p payload, cursor.toList = p ++ '.' :: sign key p ∧ cursor.length ≤ 1024 ∧ encode (decode p) = p ∧
        parse Double.ofJson? (ofUtf8 (decode p)) = some payload ∧
        member? "v" payload = some (.number Double.one) ∧ member? "w" payload = some (.string walletId) ∧
        member? "t" payload = some (.string (String.ofList (toISOString value.occurredAt))) ∧
        member? "id" payload = some (.string value.id)) ∧
    (∀ cursor cursor' value walletId' value' p s p' s', decodeHistoryCursor key walletId cursor = .ok value →
      decodeHistoryCursor key walletId' cursor' = .ok value' → cursorParts cursor.toList = some (p, s) →
      cursorParts cursor'.toList = some (p', s') → decode p = decode p' → cursor = cursor') ∧
    (∀ cursor value walletId' value', decodeHistoryCursor key walletId cursor = .ok value →
      decodeHistoryCursor key walletId' cursor = .ok value' → walletId = walletId') ∧
    ∀ (issued : Set (String × HistoryCursorValue)) (presented : Set String),
      (∀ x ∈ issued, Producible x.1 x.2) → Unforged key issued presented → ∀ cursor ∈ presented, ∀ value,
        decodeHistoryCursor key walletId cursor = .ok value ↔
          (walletId, value) ∈ issued ∧ cursor = encodeHistoryCursor key walletId value := by
  refine ⟨fun value h => ?_, fun cursor value h => ?_, ?_, ?_, ?_⟩
  · exact decodeHistoryCursor_encodeHistoryCursor h.1 h.2.1 h.2.2
  · obtain ⟨p, payload, hp, hlength, hcanonical, hparse, hread⟩ :=
      readCursor_eq_some (decodeHistoryCursor_eq_ok.mp h)
    obtain ⟨hv, hw, ht, hid, hwallet, hrow, hbound⟩ := readPayload_eq_some hread
    exact ⟨⟨hwallet, hrow, hbound⟩, p, payload, (cursorParts_eq_some hp).1, hlength, hcanonical, hparse, hv, hw,
      ht, hid⟩
  · intro _ _ _ _ _ _ _ _ _ h h' hparts hparts' hsame
    exact cursor_eq_of_payload h h' hparts hparts' hsame
  · intro _ _ _ _ h h'
    exact wallet_eq_of_cursor h h'
  · intro _ _ hissued hunforged _ hcursor _
    exact decodeHistoryCursor_iff_issued hissued hunforged hcursor

/-- The digest that the bytes 0 to 31 as the key give for the payload below. -/
def sampleDigest : List UInt8 :=
  [124, 253, 201, 101, 45, 77, 213, 176, 24, 110, 149, 47, 2, 83, 159, 80, 196, 253, 7, 14, 66, 163, 148,
    234, 23, 12, 62, 113, 199, 143, 97, 164]

def sampleKey : CursorKey := ⟨fun _ => sampleDigest, fun _ => rfl⟩

def sampleValue : HistoryCursorValue := ⟨1788084000000, "10000000-0000-4000-8000-000000000002"⟩

def sampleWallet : String := "20000000-0000-4000-8000-000000000001"

def otherWallet : String := "20000000-0000-4000-8000-000000000002"

/-- The payload with another signature than the digest's. -/
def resigned (signature : List Char) : String :=
  String.ofList (encodedPayload sampleWallet sampleValue ++ '.' :: signature)

/-- The signature with an unused bit set in the last character. -/
def respelledSignature : List Char := (encode sampleDigest).dropLast ++ ['R']

theorem sign_sample (p : List Char) : sign sampleKey p = encode sampleDigest := rfl

theorem sample_unforged : Unforged sampleKey {(sampleWallet, sampleValue)}
    {encodeHistoryCursor sampleKey sampleWallet sampleValue, resigned (List.replicate 43 'A')} := by
  rintro cursor (rfl | rfl) p hp
  · rw [encodeHistoryCursor, String.toList_ofList] at hp
    exact ⟨_, rfl, (List.append_inj_left' hp rfl).symm⟩
  · rw [resigned, String.toList_ofList, sign_sample] at hp
    exact absurd (List.append_inj_right' hp (by decide +kernel)) (by decide +kernel)

/-- The theorem for a cursor of the service: it is read back, and refused with its signature in another
spelling, for another wallet and with another signature. -/
theorem decodeHistoryCursor_canonical_sample :
    decodeHistoryCursor sampleKey sampleWallet (encodeHistoryCursor sampleKey sampleWallet sampleValue) =
      .ok sampleValue ∧
    (∃ p payload, (encodeHistoryCursor sampleKey sampleWallet sampleValue).toList = p ++ '.' :: sign sampleKey p ∧
      parse Double.ofJson? (ofUtf8 (decode p)) = some payload ∧
      member? "w" payload = some (.string sampleWallet)) ∧
    (¬ ∃ value, decodeHistoryCursor sampleKey sampleWallet (resigned respelledSignature) = .ok value) ∧
    (¬ ∃ value, decodeHistoryCursor sampleKey otherWallet
      (encodeHistoryCursor sampleKey sampleWallet sampleValue) = .ok value) ∧
    ¬ ∃ value, decodeHistoryCursor sampleKey sampleWallet (resigned (List.replicate 43 'A')) = .ok value := by
  have hproducible : Producible sampleWallet sampleValue :=
    ⟨by decide +kernel, by decide +kernel, by decide⟩
  obtain ⟨hreads, hshape, hspelling, hwallet, hissued⟩ := decodeHistoryCursor_canonical sampleKey sampleWallet
  have hread := hreads sampleValue hproducible
  refine ⟨hread, ?_, ?_, ?_, ?_⟩
  · obtain ⟨-, p, payload, hp, -, -, hparse, -, hw, -⟩ := hshape _ _ hread
    exact ⟨p, payload, hp, hparse, hw⟩
  · rintro ⟨value, hvalue⟩
    have hparts : cursorParts (resigned respelledSignature).toList =
        some (encodedPayload sampleWallet sampleValue, respelledSignature) := by
      have hchars : (respelledSignature.all fun c => decide (c ∈ alphabet)) = true := by decide +kernel
      rw [resigned, String.toList_ofList]
      exact cursorParts_append encodedPayload_ne_nil (encode_chars _) (by decide +kernel)
        (List.all_iff_forall_prop.mp hchars)
    have hsame := hspelling _ _ _ _ _ _ _ _ _ hread hvalue cursorParts_encodeHistoryCursor hparts rfl
    rw [← hsame, cursorParts_encodeHistoryCursor] at hparts
    exact absurd (Prod.mk.inj (Option.some.inj hparts)).2 (by decide +kernel)
  · rintro ⟨value, hvalue⟩
    exact absurd (hwallet _ _ _ _ hread hvalue) (by decide)
  · rintro ⟨value, hvalue⟩
    have hown := (hissued _ _ (by rintro _ rfl; exact hproducible) sample_unforged _ (.inr rfl) value).mp hvalue
    obtain rfl := congrArg Prod.snd hown.1
    have htext := congrArg String.toList hown.2
    rw [resigned, encodeHistoryCursor, String.toList_ofList, String.toList_ofList] at htext
    exact absurd (List.append_cancel_left htext) (by decide +kernel)

/-- The text that the service writes with that key. -/
example : encodeHistoryCursor sampleKey sampleWallet sampleValue =
    "eyJ2IjoxLCJ3IjoiMjAwMDAwMDAtMDAwMC00MDAwLTgwMDAtMDAwMDAwMDAwMDAxIiwidCI6IjIwMjYtMDgtMzBUMTA6MDA6MDAuMDAwWiIsImlkIjoiMTAwMDAwMDAtMDAwMC00MDAwLTgwMDAtMDAwMDAwMDAwMDAyIn0.fP3JZS1N1bAYbpUvAlOfUMT9Bw5Co5TqFww-ccePYaQ" := by
  decide +kernel

end NovaPay.History
