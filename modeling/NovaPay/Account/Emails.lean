import NovaPay.Account.Updates

/-!
# Lookups by email

An update normalises what it is given twice before it is stored, and a lookup once. The two agree, and a
repeated update writes nothing, as long as a normalised email normalises to itself.
-/

namespace NovaPay.Account

open Relational TransitionSystem

variable {config : Config} {db : Database} {externalRef : ExternalRef} {user : User} {w : World}
  {u : IdentityUpdate}

/-! ### Lookups and repeats -/

/-- A lookup finds the user, and an update with the same values writes nothing. -/
structure Kept (config : Config) (w : World) (externalRef : ExternalRef) (input : UpdateUserIdentity) :
    Prop where
  found : ∃ user, w.db.findUser externalRef = some user ∧
    lookup config w.db input.email = .ok ⟨user.id, user.externalRef, user.status⟩
  unchanged : ∀ u : IdentityUpdate, u.input = input → (update config w externalRef u).1.db = w.db

theorem lookup_of_holds (hmem : user ∈ db.users.rows) (hat : '@' ∈ u.input.email.toList)
    (huni : config.Unicode) (hholds : Holds config user (u.normalized config)) :
    lookup config db u.input.email = .ok ⟨user.id, user.externalRef, user.status⟩ := by
  have hdigest : user.emailLookupHmac = some (emailDigest config u.input.email) := by
    rw [hholds.digest, lookupDigest, IdentityUpdate.normalized, normalized_email config hat,
      filter_nonempty (ne_empty_of_at (at_normalizeEmail huni hat))]
    rfl
  rw [lookup]
  cases hfind : findBy (fun u : User => u.emailLookupHmac) (some (emailDigest config u.input.email))
      db.users.rows with
  | none => exact absurd hdigest (findBy_eq_none_iff.mp hfind user hmem)
  | some found =>
    obtain ⟨hfound, hkey⟩ := findBy_some hfind
    rw [eq_of_uniqueWhere (hmac_indexed db) hfound hmem hkey hdigest]

/-- What is stored in the form that it is asked for in is kept. -/
theorem kept_of_stored (huni : config.Unicode) (hat : '@' ∈ u.input.email.toList)
    (hfind : w.db.findUser externalRef = some user) (hholds : Holds config user (u.normalized config)) :
    Kept config w externalRef u.input := by
  refine ⟨⟨user, hfind, lookup_of_holds (findBy_some hfind).1 hat huni hholds⟩, fun v hv => ?_⟩
  have hnormalized : v.normalized config = u.normalized config := by
    rw [IdentityUpdate.normalized, hv, IdentityUpdate.normalized]
  rw [← hnormalized] at hholds
  rw [update_of_stored (ensureUser_of_find hfind hholds.written) (storeIdentity_same hholds) hholds]
  split <;> rfl

/-- Where an update would store its identity in another form than it is asked for in, it writes each time
it is called. -/
theorem not_kept_of_changing (hlaw : config.crypto.Lawful) (hfind : w.db.findUser externalRef = some user)
    (hholds : Holds config user (normalizeIdentity config (u.normalized config)))
    (hchanges : normalizeIdentity config (u.normalized config) ≠ u.normalized config) :
    ¬ Kept config w externalRef u.input := by
  intro hkept
  have hmem := (findBy_some hfind).1
  have hfree : Unclaimed config w.db user (normalizeIdentity config (u.normalized config)) := by
    intro row hrow hid digest hdigest hclaimed
    have huser := hholds.digest.trans hdigest
    exact hid (congrArg User.id (eq_of_uniqueWhere (hmac_indexed w.db) hrow hmem hclaimed huser))
  -- the same update once more, a moment after the row was written
  let again : IdentityUpdate := { u with stored := { u.stored with now := user.updatedAt + 1 } }
  obtain ⟨db', hwritten, hstore⟩ :=
    storeIdentity_unclaimed again.stored hlaw hmem hholds hchanges hfree
  have hsame := hkept.unchanged again rfl
  rw [update_of_stored (u := again) (ensureUser_of_find hfind hholds.written) hstore
    (User.given_holds hlaw)] at hsame
  have hdb : db' = w.db := by
    rw [← hsame]
    split <;> rfl
  have hgiven := hwritten.findUser hfind
  rw [hdb, hfind] at hgiven
  have htime : user.updatedAt = user.updatedAt + 1 := congrArg User.updatedAt (Option.some.inj hgiven)
  exact absurd htime.symm (Nat.succ_ne_self user.updatedAt)

/-- After an update in any state, the user is found by the email as it was given, and the same update writes
nothing, exactly when the user had this identity before or the email, normalised, normalises to itself. -/
theorem stored_identity_kept_iff {validator : Validator} (hlaw : config.crypto.Lawful)
    (huni : config.Unicode) (hdoc : validator.Documented) (hr : (identities config).Reachable w)
    (haccepted : u.input.accepted validator = true) (hstores : Stores (update config w externalRef u).2) :
    Kept config (update config w externalRef u).1 externalRef u.input ↔
      storedIdentity config w.db externalRef = some (u.normalized config) ∨
        normalizeEmail config (normalizeEmail config u.input.email) = normalizeEmail config u.input.email := by
  have hat := UpdateUserIdentity.at_email hdoc haccepted
  have hform := normalizeIdentity_idem_iff huni hat
  obtain ⟨-, user, identity, hfind, hholds, hcase⟩ :=
    update_leaves hlaw (identified_of_reachable hlaw hr) hat hstores
  obtain ⟨hstored, rfl, -⟩ | ⟨hdiffers, rfl, -⟩ := hcase
  · exact ⟨fun _ => .inl hstored, fun _ => kept_of_stored huni hat hfind hholds⟩
  · rw [or_iff_right hdiffers, ← hform]
    constructor
    · intro hkept
      by_contra hchanges
      exact not_kept_of_changing hlaw hfind hholds hchanges hkept
    · intro hkeeps
      have hsame : normalizeIdentity config (u.normalized config) = u.normalized config := hkeeps
      rw [hsame] at hholds
      exact kept_of_stored huni hat hfind hholds

theorem plainConfig_unicode : plainConfig.Unicode := ⟨fun _ _ _ => rfl, fun _ h => h, fun _ h => h⟩

/-- The theorem for the first update of a user. -/
theorem stored_identity_kept_annsUpdate :
    Kept plainConfig (update plainConfig .empty client annsUpdate).1 client annsIdentity := by
  have hok : ∃ response, (update plainConfig .empty client annsUpdate).2 = .ok response :=
    ⟨⟨1, "client-a", ⟨some "Ann Example", some "ann@example.com", none, none, none⟩⟩, by decide +kernel⟩
  exact (stored_identity_kept_iff plainCrypto_lawful plainConfig_unicode plainValidator_documented .init
    (by decide +kernel) (.inl hok)).mpr (.inr rfl)

/-- The composition of one letter, the small j with a caron; the capital one has no form of its own. -/
def compose : List Char → List Char
  | c :: d :: cs => if c = 'j' ∧ d = '\u030C' then 'ǰ' :: compose cs else c :: compose (d :: cs)
  | cs => cs

/-- The normal form and the lower case of texts with these letters. -/
def composingConfig : Config where
  crypto := plainCrypto
  keyConfiguration := plainConfig.keyConfiguration
  nfkc := fun s => String.ofList (compose s.toList)
  toLowerCase := fun s => String.ofList (s.toList.map Char.toLower)

theorem head_compose (d : Char) (cs : List Char) :
    (compose (d :: cs)).head? = some 'ǰ' ∨ (compose (d :: cs)).head? = some d := by
  cases cs with
  | nil => exact .inr rfl
  | cons e cs =>
    rw [compose]
    split
    · exact .inl rfl
    · exact .inr rfl

theorem compose_short {cs : List Char} (h : ∀ c d rest, cs = c :: d :: rest → False) : compose cs = cs := by
  match cs, h with
  | [], _ => rfl
  | [_], _ => rfl
  | c :: d :: rest, h => exact (h c d rest rfl).elim

theorem compose_composed (cs : List Char) : ¬ ['j', '\u030C'] <:+: compose cs := by
  induction cs using compose.induct with
  | case1 c d cs hj ih =>
    rw [compose, if_pos hj, List.infix_cons_iff]
    rintro (hbegins | hinfix)
    · exact absurd (List.cons_prefix_cons.mp hbegins).1 (by decide)
    · exact ih hinfix
  | case2 c d cs hne ih =>
    rw [compose, if_neg hne, List.infix_cons_iff]
    rintro (hbegins | hinfix)
    · obtain ⟨hc, rest, hrest⟩ := List.cons_prefix_cons.mp hbegins
      have hhead : (compose (d :: cs)).head? = some '\u030C' := by
        rw [← hrest]
        rfl
      rcases head_compose d cs with h | h
      · exact absurd (hhead.symm.trans h) (by decide)
      · exact hne ⟨hc.symm, (Option.some.inj (hhead.symm.trans h)).symm⟩
    · exact ih hinfix
  | case3 cs hshort =>
    rw [compose_short hshort]
    rintro ⟨before, after, hcs⟩
    -- two letters or more are not short
    cases before with
    | nil => exact hshort _ _ _ hcs.symm
    | cons c before =>
      obtain ⟨d, rest, hrest⟩ : ∃ d rest, before ++ ['j', '\u030C'] ++ after = d :: rest :=
        List.exists_cons_of_ne_nil (by simp)
      exact hshort c d rest (hcs.symm.trans (congrArg (c :: ·) hrest))

theorem compose_of_composed {cs : List Char} (h : ¬ ['j', '\u030C'] <:+: cs) : compose cs = cs := by
  induction cs using compose.induct with
  | case1 c d cs hj ih =>
    obtain ⟨rfl, rfl⟩ := hj
    exact absurd (List.prefix_append ['j', '\u030C'] cs).isInfix h
  | case2 c d cs hne ih => rw [compose, if_neg hne, ih fun hinfix => h (List.infix_cons hinfix)]
  | case3 cs hshort => exact compose_short hshort

theorem at_compose {cs : List Char} (h : '@' ∈ cs) : '@' ∈ compose cs := by
  induction cs using compose.induct with
  | case1 c d cs hj ih =>
    obtain ⟨rfl, rfl⟩ := hj
    have hrest : '@' ∈ cs := by simpa using h
    rw [compose, if_pos ⟨rfl, rfl⟩]
    exact List.mem_cons_of_mem _ (ih hrest)
  | case2 c d cs hne ih =>
    rw [compose, if_neg hne]
    rcases List.mem_cons.mp h with hc | hrest
    · exact List.mem_cons.mpr (.inl hc)
    · exact List.mem_cons_of_mem _ (ih hrest)
  | case3 cs hshort =>
    rw [compose_short hshort]
    exact h

theorem composingConfig_unicode : composingConfig.Unicode := by
  refine ⟨fun s t hinfix => ?_, fun s h => ?_, fun s h => ?_⟩
  · have hcomposed : ¬ ['j', '\u030C'] <:+: t.toList := fun hj =>
      compose_composed s.toList (hj.trans (by simpa [composingConfig] using hinfix))
    change String.ofList (compose t.toList) = t
    rw [compose_of_composed hcomposed, String.ofList_toList]
  · change '@' ∈ (String.ofList (compose s.toList)).toList
    rw [String.toList_ofList]
    exact at_compose h
  · change '@' ∈ (String.ofList (s.toList.map Char.toLower)).toList
    rw [String.toList_ofList]
    exact List.mem_map.mpr ⟨'@', h, by decide⟩

def capitalUpdate : IdentityUpdate :=
  ⟨⟨"J Example", "J\u030C@example.com", none, none, none⟩, drawn 1, drawn 2⟩

/-- The user is not found by the email that they gave. -/
theorem composed_email_lost : ¬ ∀ (config : Config) (validator : Validator) (w : World)
    (externalRef : ExternalRef) (u : IdentityUpdate), config.crypto.Lawful → config.Unicode →
    validator.Documented → (identities config).Reachable w → u.input.accepted validator = true →
    Stores (update config w externalRef u).2 →
    Kept config (update config w externalRef u).1 externalRef u.input := by
  intro hall
  have hok : ∃ response, (update composingConfig .empty client capitalUpdate).2 = .ok response :=
    ⟨⟨1, "client-a", ⟨some "J Example", some "ǰ@example.com", none, none, none⟩⟩, by decide +kernel⟩
  have hkept := hall composingConfig plainValidator .empty client capitalUpdate plainCrypto_lawful
    composingConfig_unicode plainValidator_documented .init (by decide +kernel) (.inl hok)
  obtain ⟨user, -, hfound⟩ := hkept.found
  have hlost : lookup composingConfig (update composingConfig .empty client capitalUpdate).1.db
      "J\u030C@example.com" = .error identityNotFound := by decide +kernel
  have hboth := hlost.symm.trans hfound
  cases hboth

end NovaPay.Account
