import Mathlib.Data.String.Basic
import NovaPay.Ledger.Posting
import NovaPay.Texts

/-!
# The hash of a posting command

What `normalizeCommand` keeps of a command as it arrives. The entries are copied with `...entry`, so the
members of each stand in the hashed text in the order in which the request listed them.
-/

namespace NovaPay.Ledger

open DecimalArithmetic JsonText Relational

inductive EntryMember
  | walletId
  | direction
  | amount
  | currency
deriving DecidableEq, Repr

/-- The order in which a request lists the members of an entry, all of which it has. -/
structure MemberOrder where
  members : List EntryMember
  complete : members.Perm [.walletId, .direction, .amount, .currency]
deriving DecidableEq

/-- The order of `PostingEntryDto`. -/
def MemberOrder.declared : MemberOrder := ⟨[.walletId, .direction, .amount, .currency], .refl _⟩

theorem MemberOrder.eq_of_members {a b : MemberOrder} (h : a.members = b.members) : a = b := by
  cases a
  cases b
  cases h
  rfl

structure ArrivedEntry where
  entry : PostingEntry
  order : MemberOrder
deriving DecidableEq

/-- A command with the orders of its entries' members. -/
structure ArrivedPosting where
  command : PostingCommand
  arrived : List ArrivedEntry
  entries_eq : command.entries = arrived.map ArrivedEntry.entry

/-- The texts of ASCII. -/
def Ascii (s : String) : Prop := ∀ c ∈ s.toList, c.toNat < 128

/-- `localeCompare`, a preorder on all texts that tells those of ASCII apart. -/
structure Collation where
  le : String → String → Bool
  total : ∀ a b, le a b = true ∨ le b a = true
  trans : ∀ {a b c}, le a b = true → le b c = true → le a c = true
  antisymm : ∀ {a b}, Ascii a → Ascii b → le a b = true → le b a = true → a = b

/-- The text that entries are sorted by. -/
def sortKey (entry : PostingEntry) : String :=
  spelled entry.walletId ++ ":" ++ directionText entry.direction ++ ":" ++ currencyText entry.currency ++ ":" ++
    decimalText entry.amount

/-- `hashValue` and `localeCompare` of the service. -/
def serviceConfig (sha256 : String → Digest) (collation : Collation) (enableTestFunding : Bool) : Config where
  sha256 := hashValue sha256
  localeCompare := fun left right => collation.le (sortKey left) (sortKey right)
  enableTestFunding := enableTestFunding

def memberJson (entry : PostingEntry) : EntryMember → String × Json
  | .walletId => ("walletId", .uuid entry.walletId)
  | .direction => ("direction", .text (directionText entry.direction))
  | .amount => ("amount", .decimal entry.amount)
  | .currency => ("currency", .currency entry.currency)

def ArrivedEntry.json (e : ArrivedEntry) : Json := .object (e.order.members.map (memberJson e.entry))

/-- `{ ...entry, amount: money(entry.amount) }` -/
def ArrivedEntry.normalized (e : ArrivedEntry) : ArrivedEntry :=
  { e with entry := { e.entry with amount := money e.entry.amount } }

def sortedEntries (config : Config) (p : ArrivedPosting) : List ArrivedEntry :=
  (p.arrived.map ArrivedEntry.normalized).insertionSort fun left right =>
    config.localeCompare left.entry right.entry = true

/-- `normalizeCommand` of a command as it arrives. -/
def normalizeArrived (config : Config) (p : ArrivedPosting) : Json :=
  .object [
    ("externalReference", .uuid p.command.externalReference),
    ("postingType", .text (PostingType.text p.command.postingType)),
    ("sourceCurrency", .currency p.command.sourceCurrency),
    ("targetCurrency", .currency p.command.targetCurrency),
    ("sourceAmount", .decimal (money p.command.sourceAmount)),
    ("targetAmount", .decimal (money p.command.targetAmount)),
    ("lockedFxRate", (p.command.lockedFxRate.map fun r => Json.decimal (rate r)).getD .null),
    ("fxQuoteId", (p.command.fxQuoteId.map Json.uuid).getD .null),
    ("entries", .array ((sortedEntries config p).map ArrivedEntry.json))]

def arrivedHash (config : Config) (p : ArrivedPosting) : Digest := config.sha256 (normalizeArrived config p)

variable {config : Config} {p p' : ArrivedPosting} {e e' : ArrivedEntry}

theorem mem_sortedEntries : e ∈ sortedEntries config p ↔ ∃ a ∈ p.arrived, a.normalized = e := by
  rw [sortedEntries, List.mem_insertionSort, List.mem_map]

theorem sortedEntries_map_entry (config : Config) (p : ArrivedPosting) :
    (sortedEntries config p).map ArrivedEntry.entry =
      (p.command.entries.map fun entry => { entry with amount := money entry.amount }).insertionSort
        fun left right => config.localeCompare left right = true := by
  rw [sortedEntries, List.map_insertionSort _ (fun left right => config.localeCompare left right = true) _ _
    fun _ _ _ _ => Iff.rfl, p.entries_eq, List.map_map, List.map_map]
  rfl

/-- For entries that list their members as `PostingEntryDto` does, this is `normalizeCommand`. -/
theorem normalizeArrived_of_declared (h : ∀ e ∈ p.arrived, e.order = .declared) :
    normalizeArrived config p = normalizeCommand config p.command := by
  have hjson : (sortedEntries config p).map ArrivedEntry.json =
      ((sortedEntries config p).map ArrivedEntry.entry).map entryJson := by
    rw [List.map_map]
    refine List.map_congr_left fun e he => ?_
    obtain ⟨a, ha, rfl⟩ := mem_sortedEntries.mp he
    have horder : a.normalized.order = .declared := h a ha
    rw [ArrivedEntry.json, horder]
    rfl
  rw [normalizeArrived, hjson, sortedEntries_map_entry, normalizeCommand]

/-! ### Entries -/

/-- What an entry instructs: the wallet as it is spelled, the direction, the currency and the amount. -/
abbrev EntryKey := String × EntryDirection × Currency × ℚ

def entryKey (entry : PostingEntry) : EntryKey :=
  (spelled entry.walletId, entry.direction, entry.currency, entry.amount.value)

def ValidEntry (entry : PostingEntry) : Prop := entry.walletId.value < 16 ^ 32 ∧ isMoney entry.amount = true

theorem money_value {t : Text} (h : isMoney t = true) : (money t).value = t.value := by
  simp only [isMoney, Bool.and_eq_true, decide_eq_true_eq] at h
  have hgrid := value_mul_pow_of_places h.1.2
  have hten : (10 : ℚ) ^ 8 ≠ 0 := by positivity
  rw [money, toFixed, Text.value, roundHalfUp_of_int hgrid, ← hgrid]
  exact mul_div_cancel_right₀ _ hten

theorem entryKey_normalized (h : isMoney e.entry.amount = true) :
    entryKey e.normalized.entry = entryKey e.entry := by
  simp only [entryKey, ArrivedEntry.normalized, money_value h]

theorem directionText_injective : Function.Injective directionText := by
  intro a b h
  cases a <;> cases b <;> first | rfl | simp [directionText] at h

/-- The members of an entry with their texts, which its key determines. -/
def memberText (k : EntryKey) : EntryMember → String × String
  | .walletId => ("walletId", k.1)
  | .direction => ("direction", directionText k.2.1)
  | .amount => ("amount", decimalText (toFixed 8 k.2.2.2))
  | .currency => ("currency", currencyText k.2.2.1)

theorem memberText_name_injective (k : EntryKey) : Function.Injective fun m => (memberText k m).1 := by
  intro a b h
  cases a <;> cases b <;> first | rfl | simp [memberText] at h

theorem json_value (e : ArrivedEntry) : e.normalized.json.value = .object
    (e.order.members.map fun m => ((memberText (entryKey e.entry) m).1,
      .string (memberText (entryKey e.entry) m).2)) := by
  have hmembers : ∀ ms : List EntryMember, Json.members (ms.map (memberJson e.normalized.entry)) =
      ms.map fun m => ((memberText (entryKey e.entry) m).1, .string (memberText (entryKey e.entry) m).2) := by
    intro ms
    induction ms with
    | nil => rfl
    | cons m ms ih =>
      rw [List.map_cons, List.map_cons, ← ih]
      cases m <;> rfl
  rw [ArrivedEntry.json, Json.value, hmembers]
  rfl

/-- The text of an entry shows its key and the order of its members. -/
theorem json_value_eq_iff (h : isMoney e.entry.amount = true) (h' : isMoney e'.entry.amount = true) :
    e.normalized.json.value = e'.normalized.json.value ↔
      e.order = e'.order ∧ entryKey e.entry = entryKey e'.entry := by
  rw [json_value, json_value, Value.object.injEq]
  constructor
  · intro heq
    have hnames := congrArg (List.map Prod.fst) heq
    rw [List.map_map, List.map_map] at hnames
    have horder : e.order.members = e'.order.members := by
      have hnames' : e.order.members.map (fun m => (memberText (entryKey e.entry) m).1) =
          e'.order.members.map fun m => (memberText (entryKey e.entry) m).1 := by
        refine hnames.trans (List.map_congr_left fun m _ => ?_)
        cases m <;> rfl
      exact List.map_injective_iff.mpr (memberText_name_injective _) hnames'
    have hmember : ∀ m, (memberText (entryKey e.entry) m).2 = (memberText (entryKey e'.entry) m).2 := by
      intro m
      have hm : m ∈ e.order.members := e.order.complete.mem_iff.mpr (by cases m <;> decide)
      rw [← horder] at heq
      exact Value.string.inj (Prod.mk.inj (List.map_inj_left.mp heq m hm)).2
    refine ⟨?_, ?_⟩
    · exact MemberOrder.eq_of_members horder
    · have hamount := (decimalText_money_eq_iff h h').mp (hmember .amount)
      exact Prod.ext (hmember .walletId) (Prod.ext (directionText_injective (hmember .direction))
        (Prod.ext (currencyText_injective (hmember .currency)) hamount))
  · rintro ⟨horder, hkey⟩
    rw [horder, hkey]

/-! ### The order of entries -/

/-- `sortKey` of a normalized entry. -/
def keyText (k : EntryKey) : String :=
  k.1 ++ ":" ++ directionText k.2.1 ++ ":" ++ currencyText k.2.2.1 ++ ":" ++ decimalText (toFixed 8 k.2.2.2)

theorem sortKey_normalized (e : ArrivedEntry) : sortKey e.normalized.entry = keyText (entryKey e.entry) := rfl

theorem length_spell (mask : ℕ) (cs : List Char) : (Hexadecimal.spell mask cs).length = cs.length := by
  induction cs generalizing mask with
  | nil => rfl
  | cons c cs ih => rw [Hexadecimal.spell, List.length_cons, List.length_cons, ih]

theorem length_spelled {u : UuidText} (h : u.value < 16 ^ 32) : (spelled u).toList.length = 36 := by
  rw [spelled, String.toList_ofList, length_spell, uuidText_eq h]
  simp only [List.length_append, List.length_cons, Hexadecimal.length_digits]

theorem keyText_inj {a b : PostingEntry} (ha : ValidEntry a) (hb : ValidEntry b)
    (h : keyText (entryKey a) = keyText (entryKey b)) : entryKey a = entryKey b := by
  have hchars := congrArg String.toList h
  simp only [keyText, entryKey, String.toList_append, List.append_assoc] at hchars
  obtain ⟨hwallet, hrest⟩ := List.append_inj hchars ((length_spelled ha.1).trans (length_spelled hb.1).symm)
  have hdirection : a.direction = b.direction := by
    cases hda : a.direction <;> cases hdb : b.direction
    all_goals first | rfl | simp [hda, hdb, directionText] at hrest
  rw [hdirection] at hrest
  have hrest' := List.append_cancel_left (List.append_cancel_left (List.append_cancel_left hrest))
  obtain ⟨hcurrency, hamount⟩ := List.append_inj hrest' (by simp [currencyText])
  have hvalue := (decimalText_money_eq_iff ha.2 hb.2).mp (String.ext (List.append_cancel_left hamount))
  exact Prod.ext (String.ext hwallet) (Prod.ext hdirection
    (Prod.ext (currencyText_injective (String.ext hcurrency)) hvalue))

theorem ascii_append {s t : String} (hs : Ascii s) (ht : Ascii t) : Ascii (s ++ t) := by
  intro c hc
  rw [String.toList_append, List.mem_append] at hc
  exact hc.elim (hs c) (ht c)

theorem ascii_spelled {u : UuidText} (h : u.value < 16 ^ 32) : Ascii (spelled u) := by
  have hall : ∀ c ∈ "0123456789abcdefABCDEF-".toList, c.toNat < 128 ∧ c.toUpper.toNat < 128 :=
    List.all_iff_forall_prop.mp (by decide)
  have hspell : ∀ (cs : List Char) (mask : ℕ), (∀ c ∈ cs, c.toNat < 128 ∧ c.toUpper.toNat < 128) →
      ∀ c ∈ Hexadecimal.spell mask cs, c.toNat < 128 := by
    intro cs
    induction cs with
    | nil => simp [Hexadecimal.spell]
    | cons d cs ih =>
      intro mask hcs c hc
      obtain ⟨hd, hupper⟩ := hcs d List.mem_cons_self
      rw [Hexadecimal.spell, List.mem_cons] at hc
      obtain rfl | hc := hc
      · split
        · exact hupper
        · exact hd
      · exact ih _ (fun e he => hcs e (List.mem_cons_of_mem _ he)) c hc
  intro c hc
  rw [spelled, String.toList_ofList] at hc
  exact hspell _ _ (fun d hd => hall d (of_decide_eq_true (uuidText_chars h d hd))) c hc

theorem ascii_decimalText (t : Text) : Ascii (decimalText t) := by
  have hdigits : ∀ c ∈ (Nat.toDigits 10 t.units.natAbs).leftpad (t.places + 1) '0', c.toNat < 128 := by
    intro c hc
    rw [List.leftpad, List.mem_append] at hc
    obtain hc | hc := hc
    · rw [List.eq_of_mem_replicate hc]
      decide
    · have hdigit : c.isDigit = true := Nat.isDigit_of_mem_toDigits (by decide) (by decide) hc
      have hbounds := Char.isDigit_iff_toNat.mp hdigit
      have hnine : '9'.toNat = 57 := rfl
      omega
  intro c hc
  rw [decimalText, String.toList_ofList, List.mem_append, List.mem_append] at hc
  obtain (hc | hc) | hc := hc
  · split at hc
    · rw [List.mem_singleton.mp hc]
      decide
    · cases hc
  · exact hdigits c (List.mem_of_mem_take hc)
  · split at hc
    · cases hc
    · obtain rfl | hc := List.mem_cons.mp hc
      · decide
      · exact hdigits c (List.mem_of_mem_drop hc)

theorem ascii_keyText {entry : PostingEntry} (h : ValidEntry entry) : Ascii (keyText (entryKey entry)) := by
  have hcolon : Ascii ":" := List.all_iff_forall_prop.mp (by decide)
  have hdirection : Ascii (directionText entry.direction) := by
    cases entry.direction
    · exact List.all_iff_forall_prop.mp (by decide)
    · exact List.all_iff_forall_prop.mp (by decide)
  have hcurrency : Ascii (currencyText entry.currency) := by
    have hletter : ∀ a : Fin 26, (Char.ofNat (65 + a)).toNat < 128 := by decide
    intro c hc
    simp only [currencyText, String.toList_ofList, List.mem_cons, List.not_mem_nil, or_false] at hc
    obtain rfl | rfl | rfl := hc <;> exact hletter _
  exact ascii_append (ascii_append (ascii_append (ascii_append (ascii_append (ascii_append
    (ascii_spelled h.1) hcolon) hdirection) hcolon) hcurrency) hcolon) (ascii_decimalText _)

variable {sha256 : String → Digest} {collation : Collation} {enable : Bool}

theorem sortKey_of_mem (h : ∀ e ∈ p.arrived, ValidEntry e.entry) (he : e ∈ sortedEntries config p) :
    sortKey e.entry = keyText (entryKey e.entry) ∧ ∃ a, ValidEntry a ∧ entryKey e.entry = entryKey a := by
  obtain ⟨a, ha, rfl⟩ := mem_sortedEntries.mp he
  have hkey := entryKey_normalized (h a ha).2
  exact ⟨by rw [sortKey_normalized, hkey], a.entry, h a ha, hkey⟩

/-- Entries are sorted by their keys. -/
theorem keys_pairwise (h : ∀ e ∈ p.arrived, ValidEntry e.entry) :
    ((sortedEntries (serviceConfig sha256 collation enable) p).map fun e => entryKey e.entry).Pairwise
      fun a b => collation.le (keyText a) (keyText b) = true := by
  have htotal : Std.Total fun a b : ArrivedEntry => collation.le (sortKey a.entry) (sortKey b.entry) = true :=
    ⟨fun a b => collation.total _ _⟩
  have htrans : IsTrans ArrivedEntry fun a b => collation.le (sortKey a.entry) (sortKey b.entry) = true :=
    ⟨fun a b c => collation.trans⟩
  have hsorted : (sortedEntries (serviceConfig sha256 collation enable) p).Pairwise
      fun a b => collation.le (sortKey a.entry) (sortKey b.entry) = true := List.pairwise_insertionSort _ _
  refine List.pairwise_map.mpr (hsorted.imp_of_mem fun {a b} ha hb hab => ?_)
  rwa [(sortKey_of_mem h ha).1, (sortKey_of_mem h hb).1] at hab

theorem keys_perm (h : ∀ e ∈ p.arrived, ValidEntry e.entry) :
    ((sortedEntries config p).map fun e => entryKey e.entry).Perm (p.arrived.map fun e => entryKey e.entry) := by
  have hperm := (List.perm_insertionSort (fun left right : ArrivedEntry =>
    config.localeCompare left.entry right.entry = true) (p.arrived.map ArrivedEntry.normalized)).map
      fun e => entryKey e.entry
  rw [List.map_map] at hperm
  refine hperm.trans (.of_eq (List.map_congr_left fun e he => ?_))
  exact entryKey_normalized (h e he).2

/-- The sorted keys are one list for every order of the entries. -/
theorem keys_eq_iff (h : ∀ e ∈ p.arrived, ValidEntry e.entry) (h' : ∀ e ∈ p'.arrived, ValidEntry e.entry) :
    (sortedEntries (serviceConfig sha256 collation enable) p).map (fun e => entryKey e.entry) =
        (sortedEntries (serviceConfig sha256 collation enable) p').map (fun e => entryKey e.entry) ↔
      (p.arrived.map fun e => entryKey e.entry).Perm (p'.arrived.map fun e => entryKey e.entry) := by
  constructor
  · intro heq
    exact (keys_perm h).symm.trans (heq ▸ keys_perm h')
  · intro hperm
    refine ((keys_perm h).trans (hperm.trans (keys_perm h').symm)).eq_of_pairwise ?_ (keys_pairwise h)
      (keys_pairwise h')
    intro k k' hk hk' hle hge
    obtain ⟨e, he, rfl⟩ := List.mem_map.mp hk
    obtain ⟨e', he', rfl⟩ := List.mem_map.mp hk'
    obtain ⟨-, a, ha, hkey⟩ := sortKey_of_mem h he
    obtain ⟨-, a', ha', hkey'⟩ := sortKey_of_mem h' he'
    rw [hkey, hkey'] at hle hge ⊢
    exact keyText_inj ha ha' (collation.antisymm (ascii_keyText ha) (ascii_keyText ha') hle hge)

/-! ### The hash -/

/-- A command that the DTO accepts. -/
def ArrivedPosting.Valid (p : ArrivedPosting) : Prop :=
  validPosting p.command = true ∧ ∀ e ∈ p.arrived, e.entry.walletId.value < 16 ^ 32

/-- The two commands ask for the same posting: the same reference, type, currencies and quote, equal amounts and
rates, and the same entries in some order. -/
structure SameCommand (p p' : ArrivedPosting) : Prop where
  externalReference : spelled p.command.externalReference = spelled p'.command.externalReference
  postingType : p.command.postingType = p'.command.postingType
  sourceCurrency : p.command.sourceCurrency = p'.command.sourceCurrency
  targetCurrency : p.command.targetCurrency = p'.command.targetCurrency
  sourceAmount : p.command.sourceAmount.value = p'.command.sourceAmount.value
  targetAmount : p.command.targetAmount.value = p'.command.targetAmount.value
  lockedFxRate : p.command.lockedFxRate.map Text.value = p'.command.lockedFxRate.map Text.value
  fxQuoteId : p.command.fxQuoteId.map spelled = p'.command.fxQuoteId.map spelled
  entries : (p.arrived.map fun e => entryKey e.entry).Perm (p'.arrived.map fun e => entryKey e.entry)

/-- The orders of the members of the entries, as the entries are sorted. -/
def memberOrders (config : Config) (p : ArrivedPosting) : List MemberOrder :=
  (sortedEntries config p).map ArrivedEntry.order

theorem ArrivedPosting.Valid.entries (h : p.Valid) : ∀ e ∈ p.arrived, ValidEntry e.entry := by
  intro e he
  have hall := h.1
  simp only [validPosting, Bool.and_eq_true, List.all_eq_true, p.entries_eq] at hall
  exact ⟨h.2 e he, hall.2 _ (List.mem_map_of_mem he)⟩

theorem json_value_eq_iff_of_mem (h : p.Valid) (h' : p'.Valid) (he : e ∈ sortedEntries config p)
    (he' : e' ∈ sortedEntries config p') : e.json.value = e'.json.value ↔
      (e.order, entryKey e.entry) = (e'.order, entryKey e'.entry) := by
  obtain ⟨a, ha, rfl⟩ := mem_sortedEntries.mp he
  obtain ⟨a', ha', rfl⟩ := mem_sortedEntries.mp he'
  have hvalid := (h.entries a ha).2
  have hvalid' := (h'.entries a' ha').2
  rw [json_value_eq_iff hvalid hvalid', entryKey_normalized hvalid, entryKey_normalized hvalid']
  constructor
  · rintro ⟨horder, hkey⟩
    exact Prod.ext horder hkey
  · intro heq
    exact Prod.mk.inj heq

/-- The entries of two commands have one text exactly when keys and orders agree. -/
theorem entries_value_eq_iff (h : p.Valid) (h' : p'.Valid) :
    ((sortedEntries (serviceConfig sha256 collation enable) p).map fun e => e.json.value) =
        ((sortedEntries (serviceConfig sha256 collation enable) p').map fun e => e.json.value) ↔
      memberOrders (serviceConfig sha256 collation enable) p =
          memberOrders (serviceConfig sha256 collation enable) p' ∧
        (p.arrived.map fun e => entryKey e.entry).Perm (p'.arrived.map fun e => entryKey e.entry) := by
  rw [map_eq_map_iff_of_iff fun e he e' he' => json_value_eq_iff_of_mem h h' he he',
    ← keys_eq_iff h.entries h'.entries]
  constructor
  · intro heq
    have horders := congrArg (List.map Prod.fst) heq
    have hkeys := congrArg (List.map Prod.snd) heq
    rw [List.map_map, List.map_map] at horders hkeys
    exact ⟨horders, hkeys⟩
  · rintro ⟨horders, hkeys⟩
    have hzip : ∀ es : List ArrivedEntry, es.map (fun e => (e.order, entryKey e.entry)) =
        (es.map ArrivedEntry.order).zip (es.map fun e => entryKey e.entry) := fun _ => List.zip_map'.symm
    rw [hzip, hzip]
    exact congrArg₂ List.zip horders hkeys

theorem postingText_injective : Function.Injective PostingType.text := by
  intro a b h
  cases a <;> cases b <;> first | rfl | simp [PostingType.text] at h

/-- The hash keeps what the command asks for and the orders of the members of its entries. -/
theorem arrivedHash_eq_iff (hsha256 : Function.Injective sha256) (h : p.Valid) (h' : p'.Valid) :
    arrivedHash (serviceConfig sha256 collation enable) p =
        arrivedHash (serviceConfig sha256 collation enable) p' ↔
      SameCommand p p' ∧ memberOrders (serviceConfig sha256 collation enable) p =
        memberOrders (serviceConfig sha256 collation enable) p' := by
  have hvalid := h.1
  have hvalid' := h'.1
  simp only [validPosting, Bool.and_eq_true] at hvalid hvalid'
  obtain ⟨⟨⟨⟨⟨⟨-, hsource⟩, htarget⟩, hrate⟩, -⟩, -⟩, -⟩ := hvalid
  obtain ⟨⟨⟨⟨⟨⟨-, hsource'⟩, htarget'⟩, hrate'⟩, -⟩, -⟩, -⟩ := hvalid'
  have hrates : (((p.command.lockedFxRate.map fun r => Json.decimal (rate r)).getD .null).value =
      ((p'.command.lockedFxRate.map fun r => Json.decimal (rate r)).getD .null).value) ↔
      p.command.lockedFxRate.map Text.value = p'.command.lockedFxRate.map Text.value := by
    cases hr : p.command.lockedFxRate with
    | none => cases p'.command.lockedFxRate <;> simp [Json.value]
    | some r =>
      cases hr' : p'.command.lockedFxRate with
      | none => simp [Json.value]
      | some r' =>
        rw [hr] at hrate
        rw [hr'] at hrate'
        simpa [Json.value, rate] using decimalText_rate_eq_iff hrate hrate'
  have hquotes : (((p.command.fxQuoteId.map Json.uuid).getD .null).value =
      ((p'.command.fxQuoteId.map Json.uuid).getD .null).value) ↔
      p.command.fxQuoteId.map spelled = p'.command.fxQuoteId.map spelled := by
    cases p.command.fxQuoteId <;> cases p'.command.fxQuoteId <;> simp [Json.value]
  have hsources := decimalText_money_eq_iff hsource hsource'
  have htargets := decimalText_money_eq_iff htarget htarget'
  change hashValue sha256 _ = hashValue sha256 _ ↔ _
  rw [hashValue_eq_iff hsha256]
  simp only [normalizeArrived, Json.value, Json.members, Json.elements_eq, Value.object.injEq, List.cons.injEq,
    Prod.mk.injEq, Value.string.injEq, Value.array.injEq, true_and, and_true, hrates, hquotes, List.map_map,
    Function.comp_def, entries_value_eq_iff h h', postingText_injective.eq_iff, currencyText_injective.eq_iff,
    money, hsources, htargets]
  constructor
  · rintro ⟨href, htype, hsc, htc, hsa, hta, hr, hq, horders, hentries⟩
    exact ⟨⟨href, htype, hsc, htc, hsa, hta, hr, hq, hentries⟩, horders⟩
  · rintro ⟨hsame, horders⟩
    exact ⟨hsame.externalReference, hsame.postingType, hsame.sourceCurrency, hsame.targetCurrency,
      hsame.sourceAmount, hsame.targetAmount, hsame.lockedFxRate, hsame.fxQuoteId, horders, hsame.entries⟩

/-- Commands of different kinds have texts of different shapes. -/
theorem hashes_distinct (hsha256 : Function.Injective sha256) (p : ArrivedPosting) (fund : FundWallet)
    (originalId : Uuid) (reverse : ReversePosting) :
    arrivedHash (serviceConfig sha256 collation enable) p ≠ fundHash (serviceConfig sha256 collation enable) fund ∧
      arrivedHash (serviceConfig sha256 collation enable) p ≠
        reverseHash (serviceConfig sha256 collation enable) originalId reverse ∧
      fundHash (serviceConfig sha256 collation enable) fund ≠
        reverseHash (serviceConfig sha256 collation enable) originalId reverse := by
  have hne : ∀ {a b : Json}, a.value ≠ b.value →
      (serviceConfig sha256 collation enable).sha256 a ≠ (serviceConfig sha256 collation enable).sha256 b :=
    fun hvalue heq => hvalue ((hashValue_eq_iff hsha256).mp heq)
  refine ⟨hne ?_, hne ?_, hne ?_⟩
  all_goals simp [normalizeArrived, Json.value, Json.members]

/-- Kinds of commands never share a hash, and neither do postings that differ. The same posting has one hash
exactly when the members of its entries, as they are sorted, arrive in the same orders. -/
theorem postHash_canonical (sha256 : String → Digest) (hsha256 : Function.Injective sha256)
    (collation : Collation) (enable : Bool) (p p' : ArrivedPosting) (h : p.Valid) (h' : p'.Valid) :
    (∀ fund originalId reverse,
      arrivedHash (serviceConfig sha256 collation enable) p ≠ fundHash (serviceConfig sha256 collation enable) fund ∧
      arrivedHash (serviceConfig sha256 collation enable) p ≠
        reverseHash (serviceConfig sha256 collation enable) originalId reverse ∧
      fundHash (serviceConfig sha256 collation enable) fund ≠
        reverseHash (serviceConfig sha256 collation enable) originalId reverse) ∧
    (arrivedHash (serviceConfig sha256 collation enable) p =
      arrivedHash (serviceConfig sha256 collation enable) p' → SameCommand p p') ∧
    ((arrivedHash (serviceConfig sha256 collation enable) p =
        arrivedHash (serviceConfig sha256 collation enable) p' ↔ SameCommand p p') ↔
      (SameCommand p p' → memberOrders (serviceConfig sha256 collation enable) p =
        memberOrders (serviceConfig sha256 collation enable) p')) := by
  rw [arrivedHash_eq_iff hsha256 h h']
  refine ⟨hashes_distinct hsha256 p, And.left, fun hiff hsame => (hiff.mpr hsame).2, fun horders => ?_⟩
  exact ⟨And.left, fun hsame => ⟨hsame, horders hsame⟩⟩

/-- The order of code points. -/
def Collation.codePoints : Collation where
  le := fun a b => decide (a ≤ b)
  total := fun a b => by simpa using le_total a b
  trans := fun hab hbc => by simpa using le_trans (of_decide_eq_true hab) (of_decide_eq_true hbc)
  antisymm := fun _ _ hab hba => le_antisymm (of_decide_eq_true hab) (of_decide_eq_true hba)

def sampleEntry (walletId : Uuid) (direction : EntryDirection) (amount : Text) : PostingEntry :=
  ⟨.ofUuid walletId, direction, amount, (20, 18, 3)⟩

/-- A transfer of ten dollars between two wallets. -/
def sampleArrived (requestId : Uuid) (amount : Text) (arrived : List ArrivedEntry) : ArrivedPosting where
  command := {
    externalReference := .ofUuid 0x7000000000004000800000000000000c
    requestId := .ofUuid requestId
    postingType := .transfer
    sourceCurrency := (20, 18, 3)
    targetCurrency := (20, 18, 3)
    sourceAmount := amount
    targetAmount := amount
    fxQuoteId := none
    lockedFxRate := none
    entries := arrived.map ArrivedEntry.entry }
  arrived := arrived
  entries_eq := rfl

def sampleDebit (amount : Text) (order : MemberOrder) : ArrivedEntry :=
  ⟨sampleEntry 0xa0000000000040008000000000000001 .debit amount, order⟩

def sampleCredit (amount : Text) : ArrivedEntry :=
  ⟨sampleEntry 0xa0000000000040008000000000000002 .credit amount, .declared⟩

/-- The debit and the credit in either order, the amount in either spelling. -/
def samplePosting : ArrivedPosting :=
  sampleArrived 1 ⟨1000, 2⟩ [sampleDebit ⟨1000, 2⟩ .declared, sampleCredit ⟨1000, 2⟩]

def sampleRespelled : ArrivedPosting :=
  sampleArrived 2 ⟨100, 1⟩ [sampleCredit ⟨100, 1⟩, sampleDebit ⟨100, 1⟩ .declared]

/-- The posting again, with the direction of its debit listed before the wallet. -/
def sampleReordered : ArrivedPosting :=
  sampleArrived 1 ⟨1000, 2⟩
    [sampleDebit ⟨1000, 2⟩ ⟨[.direction, .walletId, .amount, .currency], .swap _ _ _⟩, sampleCredit ⟨1000, 2⟩]

theorem samplePosting_valid : samplePosting.Valid ∧ sampleRespelled.Valid ∧ sampleReordered.Valid := by
  unfold ArrivedPosting.Valid
  decide +kernel

theorem sampleRespelled_same : SameCommand samplePosting sampleRespelled where
  externalReference := rfl
  postingType := rfl
  sourceCurrency := rfl
  targetCurrency := rfl
  sourceAmount := by norm_num [samplePosting, sampleRespelled, sampleArrived, Text.value]
  targetAmount := by norm_num [samplePosting, sampleRespelled, sampleArrived, Text.value]
  lockedFxRate := rfl
  fxQuoteId := rfl
  entries := by
    have hamount : (⟨1000, 2⟩ : Text).value = (⟨100, 1⟩ : Text).value := by norm_num [Text.value]
    simp only [samplePosting, sampleRespelled, sampleArrived, sampleDebit, sampleCredit, sampleEntry, entryKey,
      List.map_cons, List.map_nil, hamount]
    exact .swap _ _ _

/-- The canonical text of the posting and its digest. -/
def sampleDigest : List (String × Digest) := [
  ("\x7b\"externalReference\":\"70000000-0000-4000-8000-00000000000c\",\"postingType\":\"TRANSFER\",\"sourceCu" ++
    "rrency\":\"USD\",\"targetCurrency\":\"USD\",\"sourceAmount\":\"10.00000000\",\"targetAmount\":\"10.0000000" ++
    "0\",\"lockedFxRate\":null,\"fxQuoteId\":null,\"entries\":[\x7b\"walletId\":\"a0000000-0000-4000-8000-00000" ++
    "0000001\",\"direction\":\"DEBIT\",\"amount\":\"10.00000000\",\"currency\":\"USD\"\x7d,\x7b\"walletId\":\"a" ++
    "0000000-0000-4000-8000-000000000002\",\"direction\":\"CREDIT\",\"amount\":\"10.00000000\",\"currency\":\"U" ++
    "SD\"\x7d]\x7d",
    0xb23a62279547c43df926e4dfc989881826c7a714858e3f8bd6a8aa8bf52c9359)]

theorem postHash_canonical_samplePosting :
    arrivedHash (serviceConfig (digestWith sampleDigest) .codePoints false) samplePosting =
      arrivedHash (serviceConfig (digestWith sampleDigest) .codePoints false) sampleRespelled := by
  obtain ⟨-, -, hiff⟩ := postHash_canonical (digestWith sampleDigest)
    (digestWith_injective (by decide +kernel) (by decide +kernel)) .codePoints false samplePosting sampleRespelled
    samplePosting_valid.1 samplePosting_valid.2.1
  refine (hiff.mpr fun _ => ?_).mpr sampleRespelled_same
  decide +kernel

example : arrivedHash (serviceConfig (digestWith sampleDigest) .codePoints false) samplePosting =
    0xb23a62279547c43df926e4dfc989881826c7a714858e3f8bd6a8aa8bf52c9359 := by decide +kernel

/-- Another order of the members of one entry makes another hash of the same posting. -/
theorem postHash_member_order : ¬ ∀ sha256 : String → Digest, Function.Injective sha256 →
    ∀ (collation : Collation) (enable : Bool) (p p' : ArrivedPosting), p.Valid → p'.Valid →
      (arrivedHash (serviceConfig sha256 collation enable) p =
        arrivedHash (serviceConfig sha256 collation enable) p' ↔ SameCommand p p') := by
  intro hclaim
  have hsha256 : Function.Injective (digestWith []) := digestWith_injective (by simp) (by simp)
  have hiff := hclaim (digestWith []) hsha256 .codePoints false samplePosting sampleReordered
    samplePosting_valid.1 samplePosting_valid.2.2
  have hsame : SameCommand samplePosting sampleReordered :=
    ⟨rfl, rfl, rfl, rfl, rfl, rfl, rfl, rfl, .refl _⟩
  have horders := ((arrivedHash_eq_iff hsha256 samplePosting_valid.1 samplePosting_valid.2.2).mp
    (hiff.mpr hsame)).2
  have hdiffer : memberOrders (serviceConfig (digestWith []) .codePoints false) samplePosting ≠
      memberOrders (serviceConfig (digestWith []) .codePoints false) sampleReordered := by
    decide +kernel
  exact hdiffer horders

end NovaPay.Ledger
