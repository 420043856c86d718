import NovaPay.Ci.Versions

/-!
# How the precedence of versions is followed

`compareSemver` compares two versions by their precedence if reading the numbers as doubles leaves them in
their order and does not make one of two identifiers that are spelled differently. It does so exactly then.
-/

namespace NovaPay.Ci

open SemVer

def identifier (cs : List Char) : Identifier ℕ :=
  if isDigits cs then .numeric (value cs) else .alphanumeric cs

/-- The version that the groups are written for. -/
def Groups.version (g : Groups) : Version ℕ :=
  ⟨value g.major, value g.minor, value g.patch, g.identifiers.map identifier⟩

/-- A text that `parseSemver` accepts. -/
structure VersionText where
  text : String
  groups : Groups
  accepted : execSemver text = some groups

namespace VersionText

def version (a : VersionText) : Version ℕ := a.groups.version

/-- The version with its numbers as the language reads them. -/
def rounded (a : VersionText) : Version (WithTop Double) := a.version.map Double.ofNat

theorem parseSemver_text (a : VersionText) : parseSemver a.text = .ok a.groups.semver := by
  rw [parseSemver, a.accepted]

end VersionText

/-- The answer for a comparison. -/
def sign : Ordering → ℤ
  | .lt => -1
  | .eq => 0
  | .gt => 1

/-- The first identifiers that are spelled differently are numbers that are read as one. -/
def tied : List (List Char) → List (List Char) → Bool
  | av :: as, bv :: bs =>
    if av = bv then tied as bs else isDigits av && isDigits bv && decide (number av = number bv)
  | _, _ => false

theorem sign_swap (o : Ordering) : sign o.swap = -sign o := by
  cases o <;> rfl

/-- What the code answers for two numbers or texts that differ. -/
theorem greater_eq {α : Type*} [LinearOrder α] {a b : α} (h : a ≠ b) :
    (if b < a then 1 else -1 : ℤ) = sign (order a b) := by
  by_cases hlt : b < a
  · rw [if_pos hlt, order_gt_iff.mpr hlt]
    rfl
  · rw [if_neg hlt, order_lt_iff.mpr (lt_of_le_of_ne (not_lt.mp hlt) h)]
    rfl

/-- Where two differ, what follows them does not count. -/
theorem greater_eq_then {α : Type*} [LinearOrder α] {a b : α} (h : a ≠ b) (o : Ordering) :
    (if b < a then 1 else -1 : ℤ) = sign ((order a b).then o) := by
  rw [greater_eq h]
  cases hcase : order a b with
  | eq => exact absurd (order_eq_iff.mp hcase) h
  | lt => rfl
  | gt => rfl

/-- The rank of an identifier, its number as the language reads it. -/
def identifierRank (cs : List Char) : WithTop Double ⊕ₗ List Char :=
  ((identifier cs).map Double.ofNat).rank

theorem compareIdentifier_eq {av bv : List Char} (hne : av ≠ bv)
    (hapart : (isDigits av && isDigits bv && decide (number av = number bv)) = false) :
    order (identifierRank av) (identifierRank bv) ≠ .eq ∧
      compareIdentifier av bv = sign (order (identifierRank av) (identifierRank bv)) := by
  unfold compareIdentifier identifierRank identifier
  by_cases ha : isDigits av = true
  · by_cases hb : isDigits bv = true
    · have hnumbers : number av ≠ number bv := by
        simpa [ha, hb] using hapart
      rw [if_pos ha, if_pos hb]
      change order (Identifier.numeric (number av)).rank (Identifier.numeric (number bv)).rank ≠ .eq ∧
        _ = sign (order (Identifier.numeric (number av)).rank (Identifier.numeric (number bv)).rank)
      rw [order_numeric]
      refine ⟨fun heq => hnumbers (order_eq_iff.mp heq), ?_⟩
      rw [← greater_eq hnumbers]
      simp [ha, hb]
    · rw [if_pos ha, if_neg hb]
      change order (Identifier.numeric (number av)).rank (Identifier.alphanumeric bv).rank ≠ .eq ∧
        _ = sign (order (Identifier.numeric (number av)).rank (Identifier.alphanumeric bv).rank)
      rw [order_numeric_alphanumeric]
      simp [ha, hb, sign]
  · by_cases hb : isDigits bv = true
    · rw [if_neg ha, if_pos hb]
      change order (Identifier.alphanumeric av).rank (Identifier.numeric (number bv)).rank ≠ .eq ∧
        _ = sign (order (Identifier.alphanumeric av).rank (Identifier.numeric (number bv)).rank)
      rw [order_alphanumeric_numeric]
      simp [ha, hb, sign]
    · rw [if_neg ha, if_neg hb]
      change order (Identifier.alphanumeric av : Identifier (WithTop Double)).rank
          (Identifier.alphanumeric bv).rank ≠ .eq ∧
        _ = sign (order (Identifier.alphanumeric av : Identifier (WithTop Double)).rank
          (Identifier.alphanumeric bv).rank)
      rw [order_alphanumeric]
      refine ⟨fun heq => hne (order_eq_iff.mp heq), ?_⟩
      rw [← greater_eq hne]
      simp [ha, hb]

/-- A tie is answered as if the first were less, whichever is first. -/
theorem compareIdentifiers_eq (as bs : List (List Char)) : compareIdentifiers as bs =
    if tied as bs then -1 else sign (order (as.map identifierRank) (bs.map identifierRank)) := by
  induction as generalizing bs with
  | nil =>
    cases bs with
    | nil => rfl
    | cons bv bs =>
      rw [compareIdentifiers, tied, List.map_nil, List.map_cons, order_nil_cons]
      · rfl
      · intro _ _ _ _ h
        cases h
  | cons av as ih =>
    cases bs with
    | nil =>
      rw [compareIdentifiers, tied, List.map_nil, List.map_cons, order_cons_nil]
      · rfl
      · intro _ _ _ _ _ h
        cases h
    | cons bv bs =>
      rw [compareIdentifiers, tied, List.map_cons, List.map_cons, order_cons]
      by_cases hsame : av = bv
      · rw [if_pos hsame, if_pos hsame, hsame, order_self]
        exact ih bs
      · rw [if_neg hsame, if_neg hsame]
        by_cases hapart : (isDigits av && isDigits bv && decide (number av = number bv)) = true
        · simp only [Bool.and_eq_true, decide_eq_true_eq] at hapart
          obtain ⟨⟨ha, hb⟩, hnumber⟩ := hapart
          simp [compareIdentifier, ha, hb, hnumber]
        · obtain ⟨hne, heq⟩ := compareIdentifier_eq hsame (Bool.eq_false_iff.mpr hapart)
          rw [if_neg hapart, heq]
          cases hcase : order (identifierRank av) (identifierRank bv) with
          | eq => exact absurd hcase hne
          | lt => rfl
          | gt => rfl

/-! ### What the comparison follows -/

namespace VersionText

variable (a b c : VersionText)

/-- The numbers of two versions are read as the same. -/
def SameNumbers : Prop :=
  number a.groups.major = number b.groups.major ∧ number a.groups.minor = number b.groups.minor ∧
    number a.groups.patch = number b.groups.patch

/-- Reading the numbers as doubles leaves two versions in their order, and no two identifiers that decide are
numbers that are spelled differently and read as one. -/
structure ReadApart : Prop where
  precedence : precedence a.rounded b.rounded = precedence a.version b.version
  untied : a.SameNumbers b → tied a.groups.identifiers b.groups.identifiers = false

/-- What is expected of the comparison of two versions. -/
structure Follows : Prop where
  precedence : compareSemver a.text b.text = .ok (sign (precedence a.version b.version))
  antisymmetric : ∃ x, compareSemver a.text b.text = .ok x ∧ compareSemver b.text a.text = .ok (-x)
  zero : compareSemver a.text b.text = .ok 0 ↔ a.version.rank = b.version.rank
  change : ∀ service, validateVersionChange service (some b.text) a.text false = .ok () ↔
    b.version.rank < a.version.rank

/-- The comparison puts the first version at or above the second. -/
def AtLeast : Prop := ∃ x, compareSemver a.text b.text = .ok x ∧ 0 ≤ x

end VersionText

theorem order_identifierRanks (is js : List (List Char)) :
    order (Version.prereleaseRank ((is.map identifier).map (Identifier.map Double.ofNat)))
      (Version.prereleaseRank ((js.map identifier).map (Identifier.map Double.ofNat))) =
      if is = [] then if js = [] then .eq else .gt
      else if js = [] then .lt else order (is.map identifierRank) (js.map identifierRank) := by
  have hranks : ∀ is : List (List Char),
      ((is.map identifier).map (Identifier.map Double.ofNat)).map Identifier.rank = is.map identifierRank := by
    intro is
    rw [List.map_map, List.map_map]
    rfl
  cases is with
  | nil =>
    cases js with
    | nil => exact order_self _
    | cons bv bs => exact order_gt_iff.mpr (WithTop.coe_lt_top _)
  | cons av as =>
    cases js with
    | nil => exact order_lt_iff.mpr (WithTop.coe_lt_top _)
    | cons bv bs =>
      rw [if_neg (List.cons_ne_nil _ _), if_neg (List.cons_ne_nil _ _), ← hranks, ← hranks]
      exact order_prereleaseRank (List.cons_ne_nil _ _) (List.cons_ne_nil _ _)

theorem comparePrerelease_eq (is js : List (List Char)) : comparePrerelease is js =
    if tied is js then -1 else
      sign (order (Version.prereleaseRank ((is.map identifier).map (Identifier.map Double.ofNat)))
        (Version.prereleaseRank ((js.map identifier).map (Identifier.map Double.ofNat)))) := by
  rw [order_identifierRanks]
  cases is with
  | nil =>
    cases js with
    | nil => rfl
    | cons bv bs => rfl
  | cons av as =>
    cases js with
    | nil => rfl
    | cons bv bs =>
      rw [comparePrerelease, if_neg (by simp), compareIdentifiers_eq, if_neg (List.cons_ne_nil _ _),
        if_neg (List.cons_ne_nil _ _)]

variable {a b : VersionText}

/-- The identifiers decide a tie, and are reached only if the numbers are read as the same. -/
def VersionText.Ties (a b : VersionText) : Prop :=
  a.SameNumbers b ∧ tied a.groups.identifiers b.groups.identifiers = true

/-- The comparison is that of the versions as they are read, but for ties. -/
theorem compareParsed_eq (a b : VersionText) :
    (¬a.Ties b → compareParsed a.groups.semver b.groups.semver = sign (precedence a.rounded b.rounded)) ∧
    (a.Ties b → compareParsed a.groups.semver b.groups.semver = -1) := by
  have hprecedence : precedence a.rounded b.rounded =
      (order (number a.groups.major) (number b.groups.major)).then
        ((order (number a.groups.minor) (number b.groups.minor)).then
          ((order (number a.groups.patch) (number b.groups.patch)).then
            (order (Version.prereleaseRank a.rounded.prerelease)
              (Version.prereleaseRank b.rounded.prerelease)))) := precedence_eq _ _
  have hcompare : compareParsed a.groups.semver b.groups.semver =
      if number a.groups.major ≠ number b.groups.major then
        if number b.groups.major < number a.groups.major then 1 else -1
      else if number a.groups.minor ≠ number b.groups.minor then
        if number b.groups.minor < number a.groups.minor then 1 else -1
      else if number a.groups.patch ≠ number b.groups.patch then
        if number b.groups.patch < number a.groups.patch then 1 else -1
      else comparePrerelease a.groups.identifiers b.groups.identifiers := rfl
  rw [hprecedence, hcompare]
  by_cases hmajor : number a.groups.major = number b.groups.major
  · rw [if_neg (not_not.mpr hmajor), hmajor, order_self]
    by_cases hminor : number a.groups.minor = number b.groups.minor
    · rw [if_neg (not_not.mpr hminor), hminor, order_self]
      by_cases hpatch : number a.groups.patch = number b.groups.patch
      · rw [if_neg (not_not.mpr hpatch), hpatch, order_self, comparePrerelease_eq]
        have hsame : a.SameNumbers b := ⟨hmajor, hminor, hpatch⟩
        constructor
        · intro huntied
          rw [if_neg fun htied => huntied ⟨hsame, htied⟩]
          rfl
        · intro hties
          rw [if_pos hties.2]
      · rw [if_pos hpatch]
        exact ⟨fun _ => greater_eq_then hpatch _, fun hties => absurd hties.1.2.2 hpatch⟩
    · rw [if_pos hminor]
      exact ⟨fun _ => greater_eq_then hminor _, fun hties => absurd hties.1.2.1 hminor⟩
  · rw [if_pos hmajor]
    exact ⟨fun _ => greater_eq_then hmajor _, fun hties => absurd hties.1.1 hmajor⟩

theorem compareSemver_eq (a b : VersionText) :
    compareSemver a.text b.text = .ok (compareParsed a.groups.semver b.groups.semver) := by
  rw [compareSemver, a.parseSemver_text, b.parseSemver_text]
  rfl

theorem tied_comm (as bs : List (List Char)) : tied as bs = tied bs as := by
  induction as generalizing bs with
  | nil => cases bs <;> rfl
  | cons av as ih =>
    cases bs with
    | nil => rfl
    | cons bv bs =>
      rw [tied, tied]
      by_cases hsame : av = bv
      · rw [if_pos hsame, if_pos hsame.symm, ih]
      · rw [if_neg hsame, if_neg (Ne.symm hsame), Bool.and_comm (isDigits av)]
        congr 1
        exact decide_eq_decide.mpr eq_comm

theorem VersionText.Ties.symm (h : a.Ties b) : b.Ties a :=
  ⟨⟨h.1.1.symm, h.1.2.1.symm, h.1.2.2.symm⟩, by rw [tied_comm]; exact h.2⟩

theorem text_ne_empty (a : VersionText) : a.text ≠ "" := by
  intro hempty
  have hnone : execSemver "" = none := by decide
  have haccepted := a.accepted
  rw [hempty, hnone] at haccepted
  cases haccepted

/-- A change of an existing service's version is let through if it is compared as greater. -/
theorem validateVersionChange_iff (service : String) (a b : VersionText) :
    validateVersionChange service (some b.text) a.text false = .ok () ↔
      0 < compareParsed a.groups.semver b.groups.semver := by
  have hbase : (some b.text).filter (fun version => decide (version ≠ "")) = some b.text := by
    simp [text_ne_empty]
  rw [validateVersionChange, a.parseSemver_text, hbase]
  change (parseSemver b.text >>= fun _ => _) = _ ↔ _
  rw [b.parseSemver_text]
  change (compareSemver a.text b.text >>= fun _ => _) = _ ↔ _
  rw [compareSemver_eq]
  change (if compareParsed a.groups.semver b.groups.semver ≤ 0 then Except.error _ else Except.ok ()) = _ ↔ _
  by_cases hle : compareParsed a.groups.semver b.groups.semver ≤ 0
  · rw [if_pos hle]
    constructor
    · intro h
      cases h
    · intro hpos
      exact absurd hle (not_le.mpr hpos)
  · rw [if_neg hle]
    exact ⟨fun _ => not_le.mp hle, fun _ => rfl⟩

theorem sign_eq_zero_iff {o : Ordering} : sign o = 0 ↔ o = .eq := by
  cases o <;> simp [sign]

theorem sign_pos_iff {o : Ordering} : 0 < sign o ↔ o = .gt := by
  cases o <;> simp [sign]

theorem sign_injective : Function.Injective sign := by
  intro o p h
  cases o <;> cases p <;> first | rfl | cases h

/-- Two versions are compared as they should be exactly if they are read apart. -/
theorem follows_iff (a b : VersionText) : a.Follows b ↔ a.ReadApart b := by
  have hties : a.ReadApart b ↔ precedence a.rounded b.rounded = precedence a.version b.version ∧ ¬a.Ties b := by
    constructor
    · intro h
      refine ⟨h.precedence, fun hties => ?_⟩
      have huntied := h.untied hties.1
      rw [hties.2] at huntied
      cases huntied
    · rintro ⟨hprecedence, huntied⟩
      exact ⟨hprecedence, fun hsame => Bool.eq_false_iff.mpr fun htied => huntied ⟨hsame, htied⟩⟩
  rw [hties]
  constructor
  · intro h
    have huntied : ¬a.Ties b := by
      intro hties
      obtain ⟨x, hx, hy⟩ := h.antisymmetric
      rw [compareSemver_eq, (compareParsed_eq a b).2 hties] at hx
      rw [compareSemver_eq, (compareParsed_eq b a).2 hties.symm] at hy
      obtain rfl := Except.ok.inj hx
      cases Except.ok.inj hy
    refine ⟨?_, huntied⟩
    have hprecedence := h.precedence
    rw [compareSemver_eq, (compareParsed_eq a b).1 huntied] at hprecedence
    exact sign_injective (Except.ok.inj hprecedence)
  · rintro ⟨hprecedence, huntied⟩
    have hcompare : compareParsed a.groups.semver b.groups.semver = sign (precedence a.version b.version) := by
      rw [(compareParsed_eq a b).1 huntied, hprecedence]
    have hback : compareParsed b.groups.semver a.groups.semver = -sign (precedence a.version b.version) := by
      rw [(compareParsed_eq b a).1 fun h => huntied h.symm, ← sign_swap, ← hprecedence]
      exact congrArg sign (order_swap _ _).symm
    refine ⟨?_, ⟨sign (precedence a.version b.version), ?_, ?_⟩, ?_, fun service => ?_⟩
    · rw [compareSemver_eq, hcompare]
    · rw [compareSemver_eq, hcompare]
    · rw [compareSemver_eq, hback]
    · rw [compareSemver_eq, hcompare, Except.ok.injEq, sign_eq_zero_iff]
      exact order_eq_iff
    · rw [validateVersionChange_iff, hcompare, sign_pos_iff]
      exact order_gt_iff

/-- What is expected of the comparison of all versions of a set. -/
structure OrdersVersions (S : Set VersionText) : Prop where
  follows : ∀ a ∈ S, ∀ b ∈ S, a.Follows b
  total : ∀ a ∈ S, ∀ b ∈ S, a.AtLeast b ∨ b.AtLeast a
  transitive : ∀ a ∈ S, ∀ b ∈ S, ∀ c ∈ S, a.AtLeast b → b.AtLeast c → a.AtLeast c

theorem sign_nonneg_iff {o : Ordering} : 0 ≤ sign o ↔ o ≠ .lt := by
  cases o <;> simp [sign]

theorem VersionText.Follows.atLeast_iff (h : a.Follows b) :
    a.AtLeast b ↔ b.version.rank ≤ a.version.rank := by
  have hsign : a.AtLeast b ↔ 0 ≤ sign (SemVer.precedence a.version b.version) := by
    constructor
    · rintro ⟨x, hx, hpos⟩
      rw [h.precedence] at hx
      rwa [Except.ok.inj hx]
    · exact fun hpos => ⟨_, h.precedence, hpos⟩
  rw [hsign, sign_nonneg_iff, Ne, SemVer.precedence, order_lt_iff, not_lt]

/-- The comparison is a total preorder that follows the precedence of versions on exactly those sets of
accepted texts of which any two are read apart. -/
theorem ordersVersions_iff (S : Set VersionText) :
    OrdersVersions S ↔ ∀ a ∈ S, ∀ b ∈ S, a.ReadApart b := by
  constructor
  · intro h a ha b hb
    exact (follows_iff a b).mp (h.follows a ha b hb)
  · intro hapart
    have hfollows : ∀ a ∈ S, ∀ b ∈ S, a.Follows b := fun a ha b hb =>
      (follows_iff a b).mpr (hapart a ha b hb)
    refine ⟨hfollows, fun a ha b hb => ?_, fun a ha b hb c hc hab hbc => ?_⟩
    · rw [(hfollows a ha b hb).atLeast_iff, (hfollows b hb a ha).atLeast_iff]
      exact le_total _ _
    · rw [(hfollows a ha b hb).atLeast_iff] at hab
      rw [(hfollows b hb c hc).atLeast_iff] at hbc
      rw [(hfollows a ha c hc).atLeast_iff]
      exact hbc.trans hab

/-- `1.0.0-rc.1` -/
def firstCandidate : VersionText :=
  ⟨"1.0.0-rc.1", ⟨['1'], ['0'], ['0'], some ['r', 'c', '.', '1']⟩, by decide⟩

/-- `1.0.0-rc.01` -/
def paddedCandidate : VersionText :=
  ⟨"1.0.0-rc.01", ⟨['1'], ['0'], ['0'], some ['r', 'c', '.', '0', '1']⟩, by decide⟩

/-- Each of the two is compared as less than the other. -/
theorem candidates_compared :
    compareSemver firstCandidate.text paddedCandidate.text = .ok (-1) ∧
      compareSemver paddedCandidate.text firstCandidate.text = .ok (-1) ∧ ¬OrdersVersions Set.univ := by
  have hties : firstCandidate.Ties paddedCandidate := ⟨⟨rfl, rfl, rfl⟩, by decide +kernel⟩
  have hless : compareSemver firstCandidate.text paddedCandidate.text = .ok (-1) := by
    rw [compareSemver_eq, (compareParsed_eq _ _).2 hties]
  have hback : compareSemver paddedCandidate.text firstCandidate.text = .ok (-1) := by
    rw [compareSemver_eq, (compareParsed_eq _ _).2 hties.symm]
  refine ⟨hless, hback, fun h => ?_⟩
  obtain ⟨x, hx, hy⟩ := (h.follows firstCandidate trivial paddedCandidate trivial).antisymmetric
  rw [hless] at hx
  rw [hback] at hy
  obtain rfl := Except.ok.inj hx
  cases Except.ok.inj hy

/-! ### Versions that are read exactly -/

/-- A version whose numbers are at most `2 ^ 53` and whose numeric identifiers are written as numbers are. -/
structure VersionText.Exact (a : VersionText) : Prop where
  major : value a.groups.major ≤ 2 ^ 53
  minor : value a.groups.minor ≤ 2 ^ 53
  patch : value a.groups.patch ≤ 2 ^ 53
  identifiers : ∀ cs ∈ a.groups.identifiers, isDigits cs = true →
    value cs ≤ 2 ^ 53 ∧ Nat.toDigits 10 (value cs) = cs

theorem order_ofNat {m n : ℕ} (hm : m ≤ 2 ^ 53) (hn : n ≤ 2 ^ 53) :
    order (Double.ofNat m) (Double.ofNat n) = order m n :=
  order_of_monotone Double.ofNat_mono fun h => Double.ofNat_injOn hm hn h

theorem order_identifier {av bv : List Char} (ha : isDigits av = true → value av ≤ 2 ^ 53)
    (hb : isDigits bv = true → value bv ≤ 2 ^ 53) :
    order (identifierRank av) (identifierRank bv) = order (identifier av).rank (identifier bv).rank := by
  unfold identifierRank identifier
  by_cases hav : isDigits av = true
  · by_cases hbv : isDigits bv = true
    · rw [if_pos hav, if_pos hbv, order_numeric, ← order_ofNat (ha hav) (hb hbv)]
      exact order_numeric _ _
    · rw [if_pos hav, if_neg hbv, order_numeric_alphanumeric]
      exact order_numeric_alphanumeric _ _
  · by_cases hbv : isDigits bv = true
    · rw [if_neg hav, if_pos hbv, order_alphanumeric_numeric]
      exact order_alphanumeric_numeric _ _
    · rw [if_neg hav, if_neg hbv, order_alphanumeric]
      exact order_alphanumeric _ _

theorem order_identifiers {as bs : List (List Char)}
    (ha : ∀ cs ∈ as, isDigits cs = true → value cs ≤ 2 ^ 53)
    (hb : ∀ cs ∈ bs, isDigits cs = true → value cs ≤ 2 ^ 53) :
    order (as.map identifierRank) (bs.map identifierRank) =
      order ((as.map identifier).map Identifier.rank) ((bs.map identifier).map Identifier.rank) := by
  induction as generalizing bs with
  | nil =>
    cases bs with
    | nil => rfl
    | cons bv bs =>
      simp only [List.map_nil, List.map_cons, order_nil_cons]
  | cons av as ih =>
    cases bs with
    | nil => simp only [List.map_nil, List.map_cons, order_cons_nil]
    | cons bv bs =>
      rw [List.forall_mem_cons] at ha hb
      simp only [List.map_cons, order_cons]
      rw [order_identifier ha.1 hb.1, ih ha.2 hb.2]

theorem tied_of_exact {as bs : List (List Char)}
    (ha : ∀ cs ∈ as, isDigits cs = true → value cs ≤ 2 ^ 53 ∧ Nat.toDigits 10 (value cs) = cs)
    (hb : ∀ cs ∈ bs, isDigits cs = true → value cs ≤ 2 ^ 53 ∧ Nat.toDigits 10 (value cs) = cs) :
    tied as bs = false := by
  induction as generalizing bs with
  | nil => cases bs <;> rfl
  | cons av as ih =>
    cases bs with
    | nil => rfl
    | cons bv bs =>
      rw [List.forall_mem_cons] at ha hb
      rw [tied]
      by_cases hsame : av = bv
      · rw [if_pos hsame]
        exact ih ha.2 hb.2
      · rw [if_neg hsame]
        apply Bool.eq_false_iff.mpr
        intro htied
        simp only [Bool.and_eq_true, decide_eq_true_eq] at htied
        obtain ⟨⟨hav, hbv⟩, hnumber⟩ := htied
        obtain ⟨havle, havtext⟩ := ha.1 hav
        obtain ⟨hbvle, hbvtext⟩ := hb.1 hbv
        have hvalue : value av = value bv := Double.ofNat_injOn havle hbvle hnumber
        exact hsame (by rw [← havtext, ← hbvtext, hvalue])

/-- So any two such versions are compared as they should be. -/
theorem VersionText.Exact.readApart (ha : a.Exact) (hb : b.Exact) : a.ReadApart b := by
  refine ⟨?_, fun _ => tied_of_exact ha.identifiers hb.identifiers⟩
  have hidentifiers := order_identifiers (fun cs hcs hdigits => (ha.identifiers cs hcs hdigits).1)
    fun cs hcs hdigits => (hb.identifiers cs hcs hdigits).1
  have hprerelease : order (Version.prereleaseRank a.rounded.prerelease)
      (Version.prereleaseRank b.rounded.prerelease) =
      order (Version.prereleaseRank a.version.prerelease) (Version.prereleaseRank b.version.prerelease) := by
    change order (Version.prereleaseRank ((a.groups.identifiers.map identifier).map _))
      (Version.prereleaseRank ((b.groups.identifiers.map identifier).map _)) =
      order (Version.prereleaseRank (a.groups.identifiers.map identifier))
        (Version.prereleaseRank (b.groups.identifiers.map identifier))
    rw [order_identifierRanks]
    generalize a.groups.identifiers = is at *
    generalize b.groups.identifiers = js at *
    cases is with
    | nil =>
      cases js with
      | nil => exact (order_self _).symm
      | cons bv bs => exact (order_gt_iff.mpr (WithTop.coe_lt_top _)).symm
    | cons av as =>
      cases js with
      | nil => exact (order_lt_iff.mpr (WithTop.coe_lt_top _)).symm
      | cons bv bs =>
        rw [if_neg (List.cons_ne_nil _ _), if_neg (List.cons_ne_nil _ _), hidentifiers]
        exact (order_prereleaseRank (List.cons_ne_nil _ _) (List.cons_ne_nil _ _)).symm
  have hmajor : order a.rounded.major b.rounded.major = order a.version.major b.version.major :=
    order_ofNat ha.major hb.major
  have hminor : order a.rounded.minor b.rounded.minor = order a.version.minor b.version.minor :=
    order_ofNat ha.minor hb.minor
  have hpatch : order a.rounded.patch b.rounded.patch = order a.version.patch b.version.patch :=
    order_ofNat ha.patch hb.patch
  rw [precedence_eq, precedence_eq, hprerelease, hmajor, hminor, hpatch]

end NovaPay.Ci
