import NovaPay.Library.Double
import NovaPay.Library.SemVer

/-!
# The versions of services

How the change detection reads and compares versions, and which change of a version it lets through. It
compares numbers as the language does, by the nearest double.
-/

namespace NovaPay.Ci

open SemVer

/-! ### Reading a version -/

/-- `0|[1-9]\d*` -/
def isNumber (cs : List Char) : Bool :=
  cs.all Char.isDigit && decide (cs ≠ []) && (decide (cs = ['0']) || decide (cs.head? ≠ some '0'))

/-- `[0-9A-Za-z-]+` -/
def isIdentifier (cs : List Char) : Bool :=
  decide (cs ≠ []) && cs.all fun c => c.isAlphanum || decide (c = '-')

/-- `[0-9A-Za-z-]+(?:\.[0-9A-Za-z-]+)*` -/
def isIdentifiers (cs : List Char) : Bool := (cs.splitOn '.').all isIdentifier

/-- A text up to the first of a character, and what follows it. -/
def cut (c : Char) (cs : List Char) : List Char × Option (List Char) :=
  match cs.dropWhile fun d => decide (d ≠ c) with
  | [] => (cs, none)
  | _ :: rest => (cs.takeWhile fun d => decide (d ≠ c), some rest)

/-- The groups of `SEMVER`. -/
structure Groups where
  major : List Char
  minor : List Char
  patch : List Char
  prerelease : Option (List Char)
deriving DecidableEq, Repr

/-- `SEMVER.exec`. A number has no hyphen and no plus sign and an identifier has no plus sign, so the first
of them ends what stands before it. -/
def execSemver (version : String) : Option Groups :=
  let (main, build) := cut '+' version.toList
  let (core, prerelease) := cut '-' main
  match core.splitOn '.' with
  | [major, minor, patch] =>
    if isNumber major && isNumber minor && isNumber patch && prerelease.all isIdentifiers &&
        build.all isIdentifiers then
      some ⟨major, minor, patch, prerelease⟩
    else none
  | _ => none

/-- `match[4]?.split('.') ?? []` -/
def Groups.identifiers (g : Groups) : List (List Char) := (g.prerelease.map (List.splitOn '.')).getD []

/-- What `parseSemver` returns. -/
structure Semver where
  major : WithTop Double
  minor : WithTop Double
  patch : WithTop Double
  prerelease : List (List Char)

/-- The number that digits are written for. -/
def value (digits : List Char) : ℕ := Nat.ofDigitChars 10 digits 0

/-- `Number(digits)` -/
def number (digits : List Char) : WithTop Double := Double.ofNat (value digits)

def Groups.semver (g : Groups) : Semver := ⟨number g.major, number g.minor, number g.patch, g.identifiers⟩

def invalidVersion (version : String) : String := "Invalid semantic version: " ++ version

def parseSemver (version : String) : Except String Semver :=
  match execSemver version with
  | some g => .ok g.semver
  | none => .error (invalidVersion version)

/-! ### Comparing versions -/

/-- `/^\d+$/` -/
def isDigits (cs : List Char) : Bool := decide (cs ≠ []) && cs.all Char.isDigit

/-- Two identifiers that are spelled differently. Those that are not numbers are of ASCII, where the order
of characters is that of code units. -/
def compareIdentifier (av bv : List Char) : ℤ :=
  let an := isDigits av
  let bn := isDigits bv
  if an && bn then if number bv < number av then 1 else -1
  else if an ≠ bn then if an then -1 else 1
  else if bv < av then 1 else -1

/-- The loop over the identifiers. -/
def compareIdentifiers : List (List Char) → List (List Char) → ℤ
  | [], [] => 0
  | [], _ :: _ => -1
  | _ :: _, [] => 1
  | av :: as, bv :: bs => if av = bv then compareIdentifiers as bs else compareIdentifier av bv

def comparePrerelease (as bs : List (List Char)) : ℤ :=
  if as.length = 0 ∨ bs.length = 0 then
    if as.length = bs.length then 0 else if as.length = 0 then 1 else -1
  else compareIdentifiers as bs

/-- `compareSemver` after its two versions are parsed. -/
def compareParsed (a b : Semver) : ℤ :=
  if a.major ≠ b.major then if b.major < a.major then 1 else -1
  else if a.minor ≠ b.minor then if b.minor < a.minor then 1 else -1
  else if a.patch ≠ b.patch then if b.patch < a.patch then 1 else -1
  else comparePrerelease a.prerelease b.prerelease

def compareSemver (left right : String) : Except String ℤ := do
  let a ← parseSemver left
  let b ← parseSemver right
  return compareParsed a b

def validateVersionChange (service : String) (baseVersion : Option String) (currentVersion : String)
    (isNew : Bool) : Except String Unit := do
  let _ ← parseSemver currentVersion
  if isNew then
    if currentVersion ≠ "0.1.0" then throw (service ++ " is new and must start at version 0.1.0")
    else return ()
  else
    match baseVersion.filter fun version => decide (version ≠ "") with
    | none => throw ("Cannot read the base version for " ++ service)
    | some baseVersion =>
      let _ ← parseSemver baseVersion
      if (← compareSemver currentVersion baseVersion) ≤ 0 then
        throw (service ++ " must increase its version above " ++ baseVersion ++ "; current version is " ++
          currentVersion)

/-! ### What is accepted -/

/-- The text of a version, with the build after its groups. -/
def Groups.text (g : Groups) (build : Option (List Char)) : List Char :=
  (g.major ++ '.' :: (g.minor ++ '.' :: g.patch)) ++
    (g.prerelease.elim [] ('-' :: ·) ++ build.elim [] ('+' :: ·))

/-- The parts of a version as the pattern has them. -/
structure Groups.Valid (g : Groups) (build : Option (List Char)) : Prop where
  major : isNumber g.major = true
  minor : isNumber g.minor = true
  patch : isNumber g.patch = true
  prerelease : g.prerelease.all isIdentifiers = true
  build : build.all isIdentifiers = true

theorem cut_eq_iff {c : Char} {cs a : List Char} {r : Option (List Char)} :
    cut c cs = (a, r) ↔ c ∉ a ∧ cs = a ++ r.elim [] (c :: ·) := by
  have htake : ∀ {a r : List Char}, c ∉ a → (a ++ r).takeWhile (fun d => decide (d ≠ c)) =
      a ++ r.takeWhile fun d => decide (d ≠ c) := fun ha =>
    List.takeWhile_append_of_pos fun d hd => decide_eq_true fun heq => ha (heq ▸ hd)
  have hdrop : ∀ {a r : List Char}, c ∉ a → (a ++ r).dropWhile (fun d => decide (d ≠ c)) =
      r.dropWhile fun d => decide (d ≠ c) := fun ha =>
    List.dropWhile_append_of_pos fun d hd => decide_eq_true fun heq => ha (heq ▸ hd)
  constructor
  · intro h
    have hsplit := List.takeWhile_append_dropWhile (p := fun d => decide (d ≠ c)) (l := cs)
    have hnot : c ∉ cs.takeWhile fun d => decide (d ≠ c) := by
      intro hc
      have hall := List.all_eq_true.mp (List.all_takeWhile (p := fun d => decide (d ≠ c)) (l := cs)) c hc
      exact absurd rfl (of_decide_eq_true hall)
    rw [cut] at h
    split at h
    · next hnil =>
      obtain ⟨rfl, rfl⟩ := Prod.mk.inj h
      rw [hnil, List.append_nil] at hsplit
      rw [hsplit] at hnot
      exact ⟨hnot, (List.append_nil _).symm⟩
    · next d rest hrest =>
      obtain ⟨rfl, rfl⟩ := Prod.mk.inj h
      have hd : d = c := by
        have hhead := List.head?_dropWhile_not (fun d => decide (d ≠ c)) cs
        rw [hrest] at hhead
        simpa using hhead
      rw [hrest, hd] at hsplit
      exact ⟨hnot, hsplit.symm⟩
  · rintro ⟨ha, rfl⟩
    cases r with
    | none =>
      rw [cut, Option.elim_none, hdrop ha]
      exact congrArg (fun l => (l, none)) (List.append_nil a)
    | some rest =>
      rw [cut, Option.elim_some, hdrop ha, List.dropWhile_cons_of_neg (by simp), htake ha,
        List.takeWhile_cons_of_neg (by simp), List.append_nil]

theorem isNumber_digits {cs : List Char} (h : isNumber cs = true) : ∀ c ∈ cs, c.isDigit = true := by
  simp only [isNumber, Bool.and_eq_true, List.all_eq_true] at h
  exact h.1.1

theorem not_mem_of_isNumber {cs : List Char} {c : Char} (h : isNumber cs = true)
    (hc : c.isDigit = false) : c ∉ cs := by
  intro hmem
  rw [isNumber_digits h c hmem] at hc
  cases hc

theorem mem_intercalate {c x : Char} {parts : List (List Char)} (h : c ∈ [x].intercalate parts) :
    c = x ∨ ∃ part ∈ parts, c ∈ part := by
  induction parts with
  | nil => cases h
  | cons part parts ih =>
    cases parts with
    | nil =>
      rw [List.intercalate_singleton] at h
      exact .inr ⟨part, List.mem_cons_self, h⟩
    | cons next parts =>
      rw [List.intercalate_cons_cons, List.mem_append, List.mem_append, List.mem_singleton] at h
      obtain (h | h) | h := h
      · exact .inr ⟨part, List.mem_cons_self, h⟩
      · exact .inl h
      · obtain h | ⟨q, hq, hc⟩ := ih h
        · exact .inl h
        · exact .inr ⟨q, List.mem_cons_of_mem _ hq, hc⟩

/-- Every character of some identifiers is a point or one of an identifier. -/
theorem not_mem_of_isIdentifiers {cs : List Char} (h : isIdentifiers cs = true) : '+' ∉ cs := by
  intro hmem
  have hsplit : ['.'].intercalate (cs.splitOn '.') = cs := List.intercalate_splitOn '.'
  rw [← hsplit] at hmem
  obtain hpoint | ⟨part, hpart, hplus⟩ := mem_intercalate hmem
  · cases hpoint
  · rw [isIdentifiers, List.all_eq_true] at h
    have hidentifier := h part hpart
    simp only [isIdentifier, Bool.and_eq_true, List.all_eq_true] at hidentifier
    exact absurd (hidentifier.2 '+' hplus) (by decide)

theorem splitOn_core_iff {cs a b c : List Char} :
    cs.splitOn '.' = [a, b, c] ∧ isNumber a = true ∧ isNumber b = true ∧ isNumber c = true ↔
      cs = a ++ '.' :: (b ++ '.' :: c) ∧ isNumber a = true ∧ isNumber b = true ∧ isNumber c = true := by
  refine and_congr_left fun ⟨ha, hb, hc⟩ => ?_
  have hjoin : ['.'].intercalate [a, b, c] = a ++ '.' :: (b ++ '.' :: c) := by simp
  constructor
  · intro h
    have hsplit : ['.'].intercalate (cs.splitOn '.') = cs := List.intercalate_splitOn '.'
    rw [← hsplit, h, hjoin]
  · rintro rfl
    rw [← hjoin, List.splitOn_intercalate]
    · intro part hpart
      simp only [List.mem_cons, List.not_mem_nil, or_false] at hpart
      obtain rfl | rfl | rfl := hpart
      · exact not_mem_of_isNumber ha (by decide)
      · exact not_mem_of_isNumber hb (by decide)
      · exact not_mem_of_isNumber hc (by decide)
    · exact List.cons_ne_nil _ _

/-- The texts that `SEMVER` matches, with their groups. -/
theorem execSemver_eq_some_iff {version : String} {g : Groups} :
    execSemver version = some g ↔ ∃ build, g.Valid build ∧ version.toList = g.text build := by
  obtain ⟨main, build, hmain⟩ : ∃ main build, cut '+' version.toList = (main, build) := ⟨_, _, rfl⟩
  obtain ⟨core, prerelease, hcore⟩ : ∃ core prerelease, cut '-' main = (core, prerelease) := ⟨_, _, rfl⟩
  obtain ⟨hplus, htext⟩ := cut_eq_iff.mp hmain
  obtain ⟨hhyphen, hmaintext⟩ := cut_eq_iff.mp hcore
  have hexec : execSemver version = some g ↔ g.prerelease = prerelease ∧ g.Valid build ∧
      core.splitOn '.' = [g.major, g.minor, g.patch] := by
    rw [execSemver, hmain]
    dsimp only
    rw [hcore]
    dsimp only
    split
    · next major minor patch hsplit =>
      rw [hsplit]
      constructor
      · intro h
        split at h
        · next hvalid =>
          obtain rfl := Option.some.inj h
          simp only [Bool.and_eq_true] at hvalid
          obtain ⟨⟨⟨⟨hmajor, hminor⟩, hpatch⟩, hprerelease⟩, hbuild⟩ := hvalid
          exact ⟨rfl, ⟨hmajor, hminor, hpatch, hprerelease, hbuild⟩, rfl⟩
        · cases h
      · rintro ⟨rfl, hvalid, hparts⟩
        simp only [List.cons.injEq, and_true] at hparts
        obtain ⟨rfl, rfl, rfl⟩ := hparts
        rw [if_pos]
        simp only [Bool.and_eq_true]
        exact ⟨⟨⟨⟨hvalid.major, hvalid.minor⟩, hvalid.patch⟩, hvalid.prerelease⟩, hvalid.build⟩
    · next hnot =>
      constructor
      · intro h
        cases h
      · rintro ⟨-, -, hparts⟩
        exact absurd hparts (hnot _ _ _)
  rw [hexec]
  constructor
  · rintro ⟨rfl, hvalid, hsplit⟩
    refine ⟨build, hvalid, ?_⟩
    have hjoin := (splitOn_core_iff.mp ⟨hsplit, hvalid.major, hvalid.minor, hvalid.patch⟩).1
    rw [htext, hmaintext, hjoin, Groups.text, List.append_assoc]
  · rintro ⟨build', hvalid, hgtext⟩
    -- the two cuts find the parts that the text was made of
    have hnumbers : ∀ c : Char, c.isDigit = false → c ≠ '.' →
        c ∉ g.major ++ '.' :: (g.minor ++ '.' :: g.patch) := by
      intro c hc hpoint
      simp only [List.mem_append, List.mem_cons, not_or]
      exact ⟨not_mem_of_isNumber hvalid.major hc, hpoint, not_mem_of_isNumber hvalid.minor hc, hpoint,
        not_mem_of_isNumber hvalid.patch hc⟩
    have hcut : cut '+' version.toList =
        (g.major ++ '.' :: (g.minor ++ '.' :: g.patch) ++ g.prerelease.elim [] ('-' :: ·), build') := by
      refine cut_eq_iff.mpr ⟨?_, hgtext.trans (List.append_assoc _ _ _).symm⟩
      rw [List.mem_append, not_or]
      refine ⟨hnumbers '+' (by decide) (by decide), ?_⟩
      have hprerelease := hvalid.prerelease
      cases hcase : g.prerelease with
      | none => exact List.not_mem_nil
      | some identifiers =>
        rw [hcase] at hprerelease
        rw [Option.elim_some, List.mem_cons, not_or]
        exact ⟨by decide, not_mem_of_isIdentifiers hprerelease⟩
    rw [hmain] at hcut
    obtain ⟨rfl, rfl⟩ := Prod.mk.inj hcut
    have hcut' : cut '-' _ = (_, g.prerelease) := cut_eq_iff.mpr ⟨hnumbers '-' (by decide) (by decide), rfl⟩
    rw [hcore] at hcut'
    obtain ⟨rfl, rfl⟩ := Prod.mk.inj hcut'
    exact ⟨rfl, hvalid, (splitOn_core_iff.mpr ⟨rfl, hvalid.major, hvalid.minor, hvalid.patch⟩).1⟩

end NovaPay.Ci
