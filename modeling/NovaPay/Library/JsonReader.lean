import NovaPay.Library.Hexadecimal
import NovaPay.Library.JsonOrder

/-!
# Reading JSON

`JSON.parse` over a type of numbers, which reads the texts of its numbers itself. What `JSON.stringify`
writes is read back; a member that an object lists twice has its last value.
-/

namespace JsonText

variable {ν : Type}

/-! ### Strings -/

def isSpace (c : Char) : Bool := c = ' ' || c = '\t' || c = '\n' || c = '\r'

def skip (cs : List Char) : List Char := cs.dropWhile isSpace

/-- A code unit by its four digits. -/
def unitOf? : List Char → Option (ℕ × List Char)
  | a :: b :: c :: d :: r =>
    if [a, b, c, d].all Hexadecimal.isDigit then some (Hexadecimal.value [a, b, c, d], r) else none
  | _ => none

def isHighUnit (n : ℕ) : Bool := decide (0xD800 ≤ n) && decide (n < 0xDC00)

def isLowUnit (n : ℕ) : Bool := decide (0xDC00 ≤ n) && decide (n < 0xE000)

/-- The low unit that an escape goes on with. -/
def lowUnit? : List Char → Option (ℕ × List Char)
  | '\\' :: 'u' :: r => (unitOf? r).filter fun p => isLowUnit p.1
  | _ => none

/-- The character of an escape by its first code unit; no character has a unit without a partner, and
U+FFFD stands for it. -/
def ofUnit (n : ℕ) (r : List Char) : Char × List Char :=
  if isHighUnit n then
    match lowUnit? r with
    | some (m, r) => (Char.ofNat (0x10000 + (n - 0xD800) * 0x400 + (m - 0xDC00)), r)
    | none => ('\uFFFD', r)
  else if isLowUnit n then ('\uFFFD', r)
  else (Char.ofNat n, r)

/-- What stands after the backslash of an escape. -/
def readEscape : List Char → Option (Char × List Char)
  | '"' :: r => some ('"', r)
  | '\\' :: r => some ('\\', r)
  | '/' :: r => some ('/', r)
  | 'b' :: r => some (Char.ofNat 8, r)
  | 't' :: r => some (Char.ofNat 9, r)
  | 'n' :: r => some (Char.ofNat 10, r)
  | 'f' :: r => some (Char.ofNat 12, r)
  | 'r' :: r => some (Char.ofNat 13, r)
  | 'u' :: r => do
    let (n, r) ← unitOf? r
    return ofUnit n r
  | _ => none

/-- A string after its first quote. -/
def readString : ℕ → List Char → Option (List Char × List Char)
  | 0, _ => none
  | _ + 1, [] => none
  | n + 1, c :: r =>
    if c = '"' then some ([], r)
    else if c = '\\' then do
      let (d, r) ← readEscape r
      let (ds, r) ← readString n r
      return (d :: ds, r)
    else if c.toNat < 32 then none
    else do
      let (ds, r) ← readString n r
      return (c :: ds, r)

/-- One character of a string is read back from its escape. -/
theorem readString_escapeChar (c : Char) (n : ℕ) (r : List Char) :
    readString (n + 1) (escapeChar c ++ r) = (readString n r).map fun p => (c :: p.1, p.2) := by
  have hbind : ∀ d : Char, (readString n r).bind (fun p => some (d :: p.1, p.2)) =
      (readString n r).map fun p => (d :: p.1, p.2) := fun d => by
    cases readString n r <;> rfl
  unfold escapeChar
  split
  · next hc =>
    rw [hc]
    exact hbind '"'
  split
  · next hc =>
    rw [hc]
    exact hbind '\\'
  split
  · next hc =>
    obtain ⟨k, hk⟩ : ∃ k, c.toNat = k := ⟨_, rfl⟩
    rw [← Char.ofNat_toNat c, hk] at hc ⊢
    rw [show (Char.ofNat k).toNat = k by rw [← hk, Char.ofNat_toNat]] at hc ⊢
    interval_cases k <;> exact hbind _
  · next hquote hslash hcontrol =>
    rw [List.singleton_append, readString, if_neg hquote, if_neg hslash, if_neg hcontrol]
    exact hbind c

theorem readString_escape (cs r : List Char) : ∀ n, cs.length < n →
    readString n (escape cs ++ '"' :: r) = some (cs, r) := by
  induction cs with
  | nil =>
    intro n hn
    obtain ⟨m, rfl⟩ := Nat.exists_eq_succ_of_ne_zero (by omega : n ≠ 0)
    rfl
  | cons c cs ih =>
    intro n hn
    rw [List.length_cons] at hn
    obtain ⟨m, rfl⟩ := Nat.exists_eq_succ_of_ne_zero (by omega : n ≠ 0)
    rw [escape, List.append_assoc, readString_escapeChar, ih m (by omega)]
    rfl

/-! ### Values -/

/-- The characters of a number, which a reader takes as far as they go. -/
def isTokenChar (c : Char) : Bool := isNumberChar c || c = 'E'

/-- The members of an object as they are listed after one more; a name that is there keeps its place. -/
def setMember (ms : List (String × Value ν)) (m : String × Value ν) : List (String × Value ν) :=
  if m.1 ∈ ms.map Prod.fst then ms.map fun q => if q.1 = m.1 then m else q else ms ++ [m]

def ofMembers (ms : List (String × Value ν)) : Value ν := .object (ms.foldl setMember [])

section Read

variable (read : List Char → Option ν)

mutual

def readValue : ℕ → List Char → Option (Value ν × List Char)
  | 0, _ => none
  | n + 1, cs =>
    match cs with
    | 'n' :: 'u' :: 'l' :: 'l' :: r => some (.null, r)
    | 't' :: 'r' :: 'u' :: 'e' :: r => some (.bool true, r)
    | 'f' :: 'a' :: 'l' :: 's' :: 'e' :: r => some (.bool false, r)
    | '"' :: r => (readString (r.length + 1) r).map fun p => (.string (String.ofList p.1), p.2)
    | '[' :: r =>
      if (skip r).head? = some ']' then some (.array [], (skip r).tail)
      else (readElements n r).map fun p => (.array p.1, p.2)
    | '{' :: r =>
      if (skip r).head? = some '}' then some (.object [], (skip r).tail)
      else (readMembers n r).map fun p => (ofMembers p.1, p.2)
    | cs => (read (cs.takeWhile isTokenChar)).map fun x => (.number x, cs.dropWhile isTokenChar)

/-- The elements of an array from one of them to its end. -/
def readElements : ℕ → List Char → Option (List (Value ν) × List Char)
  | 0, _ => none
  | n + 1, cs => do
    let (v, r) ← readValue n (skip cs)
    match skip r with
    | ',' :: r => do
      let (vs, r) ← readElements n r
      return (v :: vs, r)
    | ']' :: r => return ([v], r)
    | _ => none

/-- The members of an object from one of them to its end. -/
def readMembers : ℕ → List Char → Option (List (String × Value ν) × List Char)
  | 0, _ => none
  | n + 1, cs =>
    match skip cs with
    | '"' :: r => do
      let (k, r) ← readString (r.length + 1) r
      match skip r with
      | ':' :: r => do
        let (v, r) ← readValue n (skip r)
        match skip r with
        | ',' :: r => do
          let (ms, r) ← readMembers n r
          return ((String.ofList k, v) :: ms, r)
        | '}' :: r => return ([(String.ofList k, v)], r)
        | _ => none
      | _ => none
    | _ => none

end

/-- `JSON.parse` -/
def parse (cs : List Char) : Option (Value ν) :=
  match readValue read (cs.length + 1) (skip cs) with
  | some (v, r) => if (skip r).isEmpty then some v else none
  | none => none

/-! ### Reading what was written -/

variable {read} {F : NumberFormat ν} {v : Value ν} {r : List Char}

/-- What follows does not go on with a number. -/
def Ends (r : List Char) : Prop := ∀ c ∈ r.head?, isTokenChar c = false

theorem ends_cons {c : Char} (h : isTokenChar c = false) (r : List Char) : Ends (c :: r) := by
  intro d hd
  rwa [← Option.some.inj hd]

theorem ends_elementsText (vs : List (Value ν)) (r : List Char) : Ends (elementsText F vs ++ r) := by
  cases vs with
  | nil => exact ends_cons (by decide) r
  | cons v vs =>
    rw [elementsText, List.cons_append]
    exact ends_cons (by decide) _

theorem ends_membersText (ms : List (String × Value ν)) (r : List Char) :
    Ends (membersText F ms ++ r) := by
  match ms with
  | [] => exact ends_cons (by decide) r
  | (k, v) :: ms =>
    rw [membersText, List.cons_append]
    exact ends_cons (by decide) _

theorem skip_cons {c : Char} (h : isSpace c = false) (r : List Char) : skip (c :: r) = c :: r :=
  List.dropWhile_cons_of_neg (by simp [h])

/-- A value starts with a character that is neither a space nor a bracket that closes an array. -/
theorem stringify_cons (F : NumberFormat ν) (v : Value ν) :
    ∃ c cs, stringify F v = c :: cs ∧ isSpace c = false ∧ c ≠ ']' := by
  match v with
  | .null => exact ⟨_, _, by rw [stringify], by decide, by decide⟩
  | .bool true => exact ⟨_, _, by rw [stringify], by decide, by decide⟩
  | .bool false => exact ⟨_, _, by rw [stringify], by decide, by decide⟩
  | .string s => exact ⟨_, _, by rw [stringify, quote], by decide, by decide⟩
  | .array [] => exact ⟨_, _, by rw [stringify], by decide, by decide⟩
  | .array (v :: vs) => exact ⟨_, _, by rw [stringify], by decide, by decide⟩
  | .object [] => exact ⟨_, _, by rw [stringify], by decide, by decide⟩
  | .object ((k, v) :: ms) => exact ⟨_, _, by rw [stringify], by decide, by decide⟩
  | .number n =>
    rw [stringify]
    cases htext : F.text n with
    | nil => exact absurd htext (F.ne_nil n)
    | cons c cs =>
      have hc : isNumberChar c = true := F.chars n c (by rw [htext]; exact List.mem_cons_self)
      refine ⟨c, cs, rfl, ?_, ?_⟩
      · rw [Bool.eq_false_iff]
        intro hspace
        simp only [isSpace, Bool.or_eq_true, decide_eq_true_eq] at hspace
        rcases hspace with ((rfl | rfl) | rfl) | rfl <;> exact absurd hc (by decide)
      · rintro rfl
        exact absurd hc (by decide)

theorem skip_stringify (v : Value ν) (r : List Char) :
    skip (stringify F v ++ r) = stringify F v ++ r := by
  obtain ⟨c, cs, hc, hspace, -⟩ := stringify_cons F v
  rw [hc]
  exact skip_cons hspace _

theorem length_stringify_pos (F : NumberFormat ν) (v : Value ν) : 0 < (stringify F v).length := by
  obtain ⟨c, cs, hc, -⟩ := stringify_cons F v
  rw [hc]
  exact Nat.succ_pos _

/-- With enough fuel the value is read from its text, whatever follows. -/
def ReadsBack (read : List Char → Option ν) (F : NumberFormat ν) (v : Value ν) : Prop :=
  ∀ n r, Ends r → (stringify F v).length ≤ n → readValue read n (stringify F v ++ r) = some (v, r)

theorem readElements_text {vs : List (Value ν)} : ∀ {v : Value ν}, ReadsBack read F v →
    (∀ w ∈ vs, ReadsBack read F w) → ∀ n r,
    (stringify F v).length + (elementsText F vs).length ≤ n →
    readElements read n (stringify F v ++ (elementsText F vs ++ r)) = some (v :: vs, r) := by
  induction vs with
  | nil =>
    intro v hv _ n r hn
    rw [elementsText, List.length_singleton] at hn
    obtain ⟨m, rfl⟩ := Nat.exists_eq_succ_of_ne_zero (by omega : n ≠ 0)
    have hread := hv m (elementsText F [] ++ r) (ends_elementsText [] r) (by omega)
    rw [readElements, skip_stringify, hread]
    rfl
  | cons w ws ih =>
    intro v hv hvs n r hn
    have hpos := length_stringify_pos F v
    rw [elementsText, List.length_cons, List.length_append] at hn
    obtain ⟨m, rfl⟩ := Nat.exists_eq_succ_of_ne_zero (by omega : n ≠ 0)
    have hread := hv m (elementsText F (w :: ws) ++ r) (ends_elementsText _ r) (by omega)
    have hrest := ih (hvs w List.mem_cons_self) (fun x hx => hvs x (List.mem_cons_of_mem _ hx)) m r
      (by omega)
    rw [readElements, skip_stringify, hread, elementsText, List.cons_append, List.append_assoc]
    change (readElements read m (stringify F w ++ (elementsText F ws ++ r))).bind _ = _
    rw [hrest]
    rfl

theorem readString_quote (k : String) (r : List Char) :
    readString ((escape k.toList ++ '"' :: r).length + 1) (escape k.toList ++ '"' :: r) =
      some (k.toList, r) := by
  have hescape : ∀ cs : List Char, cs.length ≤ (escape cs).length := by
    intro cs
    induction cs with
    | nil => exact Nat.le_refl _
    | cons c cs ih =>
      have hchar : 0 < (escapeChar c).length := by
        unfold escapeChar
        repeat' split
        all_goals simp
      rw [escape, List.length_append, List.length_cons]
      omega
  have hle := hescape k.toList
  refine readString_escape _ _ _ ?_
  rw [List.length_append]
  omega

theorem quote_append (k : String) (r : List Char) : quote k ++ r = '"' :: (escape k.toList ++ '"' :: r) := by
  rw [quote, List.cons_append, List.append_assoc, List.singleton_append]

theorem readMembers_text {ms : List (String × Value ν)} : ∀ {k : String} {v : Value ν},
    ReadsBack read F v → (∀ m ∈ ms, ReadsBack read F m.2) → ∀ n r,
    (stringify F v).length + (membersText F ms).length ≤ n →
    readMembers read n (quote k ++ ':' :: (stringify F v ++ (membersText F ms ++ r))) =
      some ((k, v) :: ms, r) := by
  have hcolon : isSpace ':' = false := by decide
  induction ms with
  | nil =>
    intro k v hv _ n r hn
    rw [membersText, List.length_singleton] at hn
    obtain ⟨m, rfl⟩ := Nat.exists_eq_succ_of_ne_zero (by omega : n ≠ 0)
    have hread := hv m (membersText F [] ++ r) (ends_membersText [] r) (by omega)
    rw [quote_append, readMembers, skip_cons (by decide)]
    simp only [readString_quote, Option.bind_eq_bind, Option.bind_some, skip_cons hcolon, skip_stringify,
      hread, String.ofList_toList]
    rfl
  | cons q ms ih =>
    intro k v hv hms n r hn
    have hpos := length_stringify_pos F v
    rw [membersText, List.length_cons, List.length_append, List.length_cons, List.length_append] at hn
    obtain ⟨m, rfl⟩ := Nat.exists_eq_succ_of_ne_zero (by omega : n ≠ 0)
    have hread := hv m (membersText F (q :: ms) ++ r) (ends_membersText _ r) (by omega)
    have hrest := ih (k := q.1) (hms q List.mem_cons_self) (fun x hx => hms x (List.mem_cons_of_mem _ hx)) m r
      (by omega)
    have htext : membersText F (q :: ms) ++ r =
        ',' :: (quote q.1 ++ ':' :: (stringify F q.2 ++ (membersText F ms ++ r))) := by
      rw [membersText]
      simp only [List.cons_append, List.append_assoc]
    rw [htext] at hread ⊢
    rw [quote_append, readMembers, skip_cons (by decide)]
    simp only [readString_quote, Option.bind_eq_bind, Option.bind_some, skip_cons hcolon, skip_stringify,
      hread, String.ofList_toList, skip_cons (show isSpace ',' = false by decide), hrest]
    rfl

theorem foldl_setMember {ms : List (String × Value ν)} : ∀ {done : List (String × Value ν)},
    ((done ++ ms).map Prod.fst).Nodup → ms.foldl setMember done = done ++ ms := by
  induction ms with
  | nil => simp
  | cons m ms ih =>
    intro done hnodup
    have hnew : m.1 ∉ done.map Prod.fst := by
      intro hmem
      rw [List.map_append, List.map_cons] at hnodup
      exact (List.nodup_append.mp hnodup).2.2 _ hmem _ List.mem_cons_self rfl
    rw [List.foldl_cons, setMember, if_neg hnew, ih (by rwa [List.append_assoc]), List.append_assoc]
    rfl

theorem ofMembers_of_unique {ms : List (String × Value ν)} (h : unique (ms.map Prod.fst) = true) :
    ofMembers ms = .object ms := by
  rw [ofMembers, foldl_setMember (by simpa using unique_iff.mp h)]
  rfl

/-- The reader reads the number from its text. -/
def Legible (read : List Char → Option ν) (F : NumberFormat ν) (n : ν) : Prop := read (F.text n) = some n

mutual

/-- The numbers of a value pass a test. -/
def EveryNumber (P : ν → Prop) : Value ν → Prop
  | .number n => P n
  | .array vs => EveryNumberOf P vs
  | .object ms => EveryNumberIn P ms
  | .null => True
  | .bool _ => True
  | .string _ => True

def EveryNumberOf (P : ν → Prop) : List (Value ν) → Prop
  | [] => True
  | v :: vs => EveryNumber P v ∧ EveryNumberOf P vs

def EveryNumberIn (P : ν → Prop) : List (String × Value ν) → Prop
  | [] => True
  | (_, v) :: ms => EveryNumber P v ∧ EveryNumberIn P ms

end

theorem everyNumber_array {P : ν → Prop} {vs : List (Value ν)} :
    EveryNumber P (.array vs) ↔ ∀ v ∈ vs, EveryNumber P v := by
  rw [EveryNumber]
  induction vs with
  | nil => simp [EveryNumberOf]
  | cons v vs ih => simp [EveryNumberOf, ih]

theorem everyNumber_object {P : ν → Prop} {ms : List (String × Value ν)} :
    EveryNumber P (.object ms) ↔ ∀ m ∈ ms, EveryNumber P m.2 := by
  rw [EveryNumber]
  induction ms with
  | nil => simp [EveryNumberIn]
  | cons m ms ih => simp [EveryNumberIn, ih]

theorem readValue_number {c : Char} {cs : List Char} (h : isNumberChar c = true) (n : ℕ) :
    readValue read (n + 1) (c :: cs) = (read ((c :: cs).takeWhile isTokenChar)).map fun x =>
      (.number x, (c :: cs).dropWhile isTokenChar) := by
  have hne : ∀ d, isNumberChar d = false → c ≠ d := by
    rintro d hd rfl
    rw [hd] at h
    cases h
  rw [readValue]
  all_goals
    intro r heq
    exact hne _ (by decide) (List.cons.inj heq).1

theorem takeWhile_token {a r : List Char} (ha : ∀ c ∈ a, isNumberChar c = true) (hr : Ends r) :
    (a ++ r).takeWhile isTokenChar = a ∧ (a ++ r).dropWhile isTokenChar = r := by
  have htoken : ∀ c ∈ a, isTokenChar c = true := fun c hc => by simp [isTokenChar, ha c hc]
  rw [List.takeWhile_append_of_pos htoken, List.dropWhile_append_of_pos htoken]
  cases r with
  | nil => simp
  | cons c r => simp [hr c rfl]

theorem readsBack (v : Value ν) (hunique : everyObject unique v = true)
    (hnumbers : EveryNumber (Legible read F) v) : ReadsBack read F v := by
  induction v with
  | null =>
    intro n r _ hn
    rw [stringify] at hn ⊢
    obtain ⟨m, rfl⟩ := Nat.exists_eq_succ_of_ne_zero (Nat.ne_of_gt (Nat.lt_of_lt_of_le (by decide) hn))
    rfl
  | bool b =>
    intro n r _ hn
    have hpos := length_stringify_pos F (.bool b)
    obtain ⟨m, rfl⟩ := Nat.exists_eq_succ_of_ne_zero (by omega : n ≠ 0)
    cases b <;> rw [stringify] <;> rfl
  | number x =>
    intro n r hr hn
    have hpos := length_stringify_pos F (.number x)
    obtain ⟨m, rfl⟩ := Nat.exists_eq_succ_of_ne_zero (by omega : n ≠ 0)
    obtain ⟨htake, hdrop⟩ := takeWhile_token (F.chars x) hr
    have hlegible : read (F.text x) = some x := by rwa [EveryNumber] at hnumbers
    rw [stringify]
    cases htext : F.text x with
    | nil => exact absurd htext (F.ne_nil x)
    | cons c cs =>
      have hc : isNumberChar c = true := F.chars x c (by rw [htext]; exact List.mem_cons_self)
      rw [List.cons_append, readValue_number hc, ← List.cons_append, ← htext, htake, hdrop, hlegible]
      rfl
  | string s =>
    intro n r _ hn
    have hpos := length_stringify_pos F (.string s)
    obtain ⟨m, rfl⟩ := Nat.exists_eq_succ_of_ne_zero (by omega : n ≠ 0)
    rw [stringify, quote_append, readValue]
    simp only [readString_quote, Option.map_some, String.ofList_toList]
  | array vs ih =>
    intro n r _ hn
    have hpos := length_stringify_pos F (.array vs)
    obtain ⟨m, rfl⟩ := Nat.exists_eq_succ_of_ne_zero (by omega : n ≠ 0)
    rw [everyNumber_array] at hnumbers
    rw [everyObject_array] at hunique
    have hback : ∀ v ∈ vs, ReadsBack read F v := fun v hv => ih v hv (hunique v hv) (hnumbers v hv)
    cases vs with
    | nil =>
      rw [stringify]
      rfl
    | cons v vs =>
      rw [stringify, List.length_cons, List.length_append] at hn
      obtain ⟨c, cs, hc, -, hbracket⟩ := stringify_cons F v
      have hopen : (skip (stringify F v ++ (elementsText F vs ++ r))).head? ≠ some ']' := by
        rw [skip_stringify, hc]
        exact fun heq => hbracket (Option.some.inj heq)
      have hread := readElements_text (hback v List.mem_cons_self)
        (fun w hw => hback w (List.mem_cons_of_mem _ hw)) m r (by omega)
      rw [stringify, List.cons_append, List.append_assoc, readValue]
      simp only [if_neg hopen, hread, Option.map_some]
  | object ms ih =>
    intro n r _ hn
    have hpos := length_stringify_pos F (.object ms)
    obtain ⟨m, rfl⟩ := Nat.exists_eq_succ_of_ne_zero (by omega : n ≠ 0)
    rw [everyNumber_object] at hnumbers
    rw [everyObject_object] at hunique
    have hback : ∀ q ∈ ms, ReadsBack read F q.2 := fun q hq => ih q hq (hunique.2 q hq) (hnumbers q hq)
    match ms with
    | [] =>
      rw [stringify]
      rfl
    | (k, v) :: ms =>
      rw [stringify, List.length_cons, List.length_append, List.length_cons, List.length_append] at hn
      have hread := readMembers_text (k := k) (v := v) (hback (k, v) List.mem_cons_self)
        (fun w hw => hback w (List.mem_cons_of_mem _ hw)) m r (by omega)
      have hopen : (skip (quote k ++ ':' :: (stringify F v ++ (membersText F ms ++ r)))).head? ≠ some '}' := by
        rw [quote_append, skip_cons (by decide)]
        exact fun heq => absurd (Option.some.inj heq) (by decide)
      rw [stringify]
      simp only [List.cons_append, List.append_assoc]
      rw [readValue]
      simp only [if_neg hopen, hread, Option.map_some, ofMembers_of_unique hunique.1]

/-- What `JSON.stringify` writes, `JSON.parse` reads. -/
theorem parse_stringify (v : Value ν) (hunique : everyObject unique v = true)
    (hnumbers : EveryNumber (Legible read F) v) : parse read (stringify F v) = some v := by
  have hread := readsBack v hunique hnumbers ((stringify F v).length + 1) [] (fun c hc => by cases hc)
    (Nat.le_succ _)
  rw [List.append_nil] at hread
  have hskip := skip_stringify (F := F) v []
  rw [List.append_nil] at hskip
  rw [parse, hskip, hread]
  rfl

end Read

end JsonText
