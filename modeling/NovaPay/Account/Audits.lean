import NovaPay.Account.Updates

/-!
# The audit of identities

Updates of one user one after another. The id of an event comes from the identity alone and its time from
the row, so Admin takes an identity that the user has had before for another event under the same id.
-/

namespace NovaPay.Account

open Relational TransitionSystem

variable {config : Config} {validator : Validator} {db db' : Database} {externalRef : ExternalRef}
  {user : User} {identity : IdentityPayload} {w : World} {u : IdentityUpdate} {us : List IdentityUpdate}

/-- What the database and Admin promise while an update runs: Admin answers, a new user's id is drawn that
no other user has, and no one else has the email. -/
structure Available (config : Config) (validator : Validator) (externalRef : ExternalRef) (w : World)
    (u : IdentityUpdate) : Prop where
  accepted : u.input.accepted validator = true
  delivered : u.stored.delivery = .answered
  unused : ∀ row ∈ w.db.users.rows, row.id = u.ensured.id → row.externalRef = externalRef
  unclaimed : ∀ row ∈ w.db.users.rows,
    row.emailLookupHmac = lookupDigest config (normalizeIdentity config (u.normalized config)) →
      row.emailLookupHmac = none ∨ row.externalRef = externalRef

/-- The updates of a user one after another. -/
def updateAll (config : Config) (externalRef : ExternalRef) (w : World) (us : List IdentityUpdate) :
    World × List (Except HttpError UserIdentityResponse) :=
  System.serial (fun w u => update config w externalRef u) w us

/-- The event of an update that changed the stored identity. -/
def change (config : Config) (externalRef : ExternalRef) (w : World) (u : IdentityUpdate) :
    List AuditEvent :=
  let w' := (update config w externalRef u).1
  if storedIdentity config w'.db externalRef = storedIdentity config w.db externalRef then []
  else (w'.db.findUser externalRef).toList.map fun user =>
    identityUpdated config.crypto user.id externalRef (canonicalIdentity (u.normalized config)) user.updatedAt

def changes (config : Config) (externalRef : ExternalRef) : World → List IdentityUpdate → List AuditEvent
  | _, [] => []
  | w, u :: us => change config externalRef w u ++ changes config externalRef (update config w externalRef u).1 us

/-- Every update succeeds, and Admin has one more event for each that changed the identity. -/
def Audited (config : Config) (externalRef : ExternalRef) (w : World) (us : List IdentityUpdate) : Prop :=
  (∀ answer ∈ (updateAll config externalRef w us).2, ∃ response, answer = .ok response) ∧
    (updateAll config externalRef w us).1.events = w.events ++ changes config externalRef w us

/-- The event that is sent for a user whose row has a time. -/
def sent (config : Config) (externalRef : ExternalRef) (u : IdentityUpdate) (userId : Uuid) (time : Date) :
    AuditEvent :=
  identityUpdated config.crypto userId externalRef (canonicalIdentity (u.normalized config)) time

/-- Where the identity is another one than the stored one, also normalised again, Admin has nothing under
the id of its event; elsewhere it has the event with the time of the row under this id. -/
def auditable (config : Config) (externalRef : ExternalRef) (w : World) (u : IdentityUpdate) : Bool :=
  match w.db.findUser externalRef with
  | none => (findBy AuditEvent.eventId (sent config externalRef u u.ensured.id u.stored.now).eventId w.events).isNone
  | some user =>
    let stored := storedIdentity config w.db externalRef
    let time := if stored = some (u.normalized config) then user.updatedAt else u.stored.now
    let prior := findBy AuditEvent.eventId (sent config externalRef u user.id time).eventId w.events
    if stored = some (u.normalized config) ∨
        stored = some (normalizeIdentity config (u.normalized config)) then
      decide (prior = some (sent config externalRef u user.id time))
    else prior.isNone

/-! ### One update -/

/-- A new user is created when nothing of theirs is taken. -/
theorem ensureUser_unused (choice : Choice) (hlaw : config.crypto.Lawful)
    (hfind : db.findUser externalRef = none) (hunused : ∀ row ∈ db.users.rows, row.id ≠ choice.id) :
    ∃ users : Table usersSchema, users.rows = db.users.rows ++ [newUser config choice externalRef] ∧
      ensureUser config choice db externalRef =
        ({ db with users }, .ok (newUser config choice externalRef)) := by
  have hchecks : ∀ r ∈ [newUser config choice externalRef], usersSchema.check r = true := by
    intro r hr
    rw [List.mem_singleton.mp hr]
    exact newUser_check hlaw externalRef
  have hdigest : (newUser config choice externalRef).emailLookupHmac = none := rfl
  have hindexed : usersSchema.indexed (db.users.rows ++ [newUser config choice externalRef]) = true := by
    refine Bool.and_eq_true_iff.mpr ⟨Bool.and_eq_true_iff.mpr ⟨?_, ?_⟩, ?_⟩
    · exact uniqueBy_append_new (users_indexed db).1 hunused
    · exact uniqueBy_append_new (users_indexed db).2 (findBy_eq_none_iff.mp hfind)
    · refine uniqueWhere_append_new (hmac_indexed db) fun row _ digest hnew => ?_
      rw [hdigest] at hnew
      cases hnew
  obtain ⟨users, hinsert⟩ := Table.insertMany_of_indexed hchecks hindexed
  refine ⟨users, Table.insertMany_ok hinsert, ?_⟩
  rw [ensureUser, hfind]
  simp only [hinsert]

/-- The statements of an update that nothing stands in the way of. -/
structure Written (config : Config) (externalRef : ExternalRef) (w : World) (u : IdentityUpdate)
    (db : Database) (updated : User) (identity : IdentityPayload) : Prop where
  answer : update config w externalRef u =
    match append u.stored.delivery w.events (sent config externalRef u updated.id updated.updatedAt) with
    | (events, .error error) => ({ w with db, events }, .error error)
    | (events, .ok ()) => ({ w with db, events }, .ok (toIdentityResponse updated identity))
  find : db.findUser externalRef = some updated
  holds : Holds config updated identity
  cases : (storedIdentity config w.db externalRef = some (u.normalized config) ∧
      w.db.findUser externalRef = some updated ∧ identity = u.normalized config) ∨
    (storedIdentity config w.db externalRef ≠ some (u.normalized config) ∧
      identity = normalizeIdentity config (u.normalized config) ∧ updated.updatedAt = u.stored.now ∧
      updated.id = (w.db.findUser externalRef).elim u.ensured.id User.id)

theorem written_of_rewritten (hlaw : config.crypto.Lawful)
    (hensure : ensureUser config u.ensured w.db externalRef = (db, .ok user))
    (hfind : db.findUser externalRef = some user) (hholds : Holds config user identity)
    (hne : identity ≠ u.normalized config)
    (hfree : Unclaimed config db user (normalizeIdentity config (u.normalized config)))
    (hdiffers : storedIdentity config w.db externalRef ≠ some (u.normalized config))
    (hid : user.id = (w.db.findUser externalRef).elim u.ensured.id User.id) :
    ∃ db' updated identity', Written config externalRef w u db' updated identity' := by
  obtain ⟨db', hwritten, hstore⟩ :=
    storeIdentity_unclaimed u.stored hlaw (findBy_some hfind).1 hholds hne hfree
  have hanswer := update_of_stored hensure hstore (User.given_holds hlaw)
  exact ⟨db', user.given config u.stored (u.normalized config), _, hanswer, hwritten.findUser hfind,
    User.given_holds hlaw, .inr ⟨hdiffers, rfl, rfl, hid⟩⟩

theorem written_of_available (hlaw : config.crypto.Lawful) (hdoc : validator.Documented)
    (hi : Identified config w.db) (h : Available config validator externalRef w u) :
    ∃ db updated identity, Written config externalRef w u db updated identity := by
  have hat := UpdateUserIdentity.at_email hdoc h.accepted
  have hclaimed : ∀ row ∈ w.db.users.rows, ∀ digest,
      lookupDigest config (normalizeIdentity config (u.normalized config)) = some digest →
        row.emailLookupHmac = some digest → row.externalRef = externalRef := by
    intro row hrow digest hdigest hhmac
    rcases h.unclaimed row hrow (hhmac.trans hdigest.symm) with hnone | href
    · rw [hnone] at hhmac
      cases hhmac
    · exact href
  cases hfind : w.db.findUser externalRef with
  | some user =>
    obtain ⟨identity, hholds, hstored⟩ := hi.find hfind
    have hensure : ensureUser config u.ensured w.db externalRef = (w.db, .ok user) :=
      ensureUser_of_find hfind hholds.written
    by_cases hsame : identity = u.normalized config
    · subst hsame
      exact ⟨w.db, user, _, update_of_stored hensure (storeIdentity_same hholds) hholds, hfind, hholds,
        .inl ⟨hstored, hfind, rfl⟩⟩
    · have hdiffers : storedIdentity config w.db externalRef ≠ some (u.normalized config) := by
        rw [hstored]
        exact fun heq => hsame (Option.some.inj heq)
      refine written_of_rewritten hlaw hensure hfind hholds hsame ?_ hdiffers (by rw [hfind]; rfl)
      intro row hrow hid digest hdigest hhmac
      have href := hclaimed row hrow digest hdigest hhmac
      obtain ⟨hmem, huser⟩ := findBy_some hfind
      exact hid (congrArg User.id (eq_of_uniqueBy (users_indexed w.db).2 hrow hmem (href.trans huser.symm)))
  | none =>
    have hnoRef := findBy_eq_none_iff.mp hfind
    have hunused : ∀ row ∈ w.db.users.rows, row.id ≠ u.ensured.id :=
      fun row hrow hid => hnoRef row hrow (h.unused row hrow hid)
    obtain ⟨users, hrows, hensure⟩ := ensureUser_unused u.ensured hlaw hfind hunused
    have hmem : newUser config u.ensured externalRef ∈ users.rows := by
      rw [hrows]
      exact List.mem_append_right _ (List.mem_singleton_self _)
    have hdiffers : storedIdentity config w.db externalRef ≠ some (u.normalized config) := by
      rw [storedIdentity, hfind]
      intro heq
      cases heq
    refine written_of_rewritten hlaw hensure (find_of_mem hmem rfl) (newUser_holds hlaw)
      (normalized_ne_none hat) ?_ hdiffers (by rw [hfind]; rfl)
    intro row hrow hid digest hdigest hhmac
    change row ∈ users.rows at hrow
    rw [hrows] at hrow
    obtain hrow | hrow := List.mem_append.mp hrow
    · exact hnoRef row hrow (hclaimed row hrow digest hdigest hhmac)
    · exact hid (congrArg User.id (List.mem_singleton.mp hrow))

theorem append_answered (events : List AuditEvent) (event : AuditEvent) :
    append .answered events event = match findBy AuditEvent.eventId event.eventId events with
      | none => (events ++ [event], .ok ())
      | some prior => if prior = event then (events, .ok ()) else (events, .error auditUnavailable) := by
  unfold append record
  cases findBy AuditEvent.eventId event.eventId events with
  | none => rfl
  | some prior =>
    by_cases hprior : prior = event
    · simp [hprior]
    · simp [hprior]

theorem Written.db_eq (h : Written config externalRef w u db user identity) :
    (update config w externalRef u).1.db = db := by
  rw [h.answer]
  split <;> rfl

theorem Written.change_eq (h : Written config externalRef w u db user identity) :
    change config externalRef w u = if storedIdentity config w.db externalRef = some identity then []
      else [sent config externalRef u user.id user.updatedAt] := by
  rw [change]
  simp only [h.db_eq, storedIdentity_of_find h.find h.holds, h.find, Option.toList_some, List.map_singleton,
    eq_comm (a := some identity)]
  rfl

/-- What Admin must have under the id of the event. -/
theorem Written.audited_iff (h : Written config externalRef w u db user identity)
    (hdelivered : u.stored.delivery = .answered) :
    (∃ response, (update config w externalRef u).2 = .ok response) ∧
        (update config w externalRef u).1.events = w.events ++ change config externalRef w u ↔
      if storedIdentity config w.db externalRef = some identity then
        findBy AuditEvent.eventId (sent config externalRef u user.id user.updatedAt).eventId w.events =
          some (sent config externalRef u user.id user.updatedAt)
      else findBy AuditEvent.eventId (sent config externalRef u user.id user.updatedAt).eventId w.events = none := by
  have hanswer := h.answer
  rw [hdelivered, append_answered] at hanswer
  rw [h.change_eq, hanswer]
  cases hprior : findBy AuditEvent.eventId (sent config externalRef u user.id user.updatedAt).eventId
      w.events with
  | none => by_cases hsame : storedIdentity config w.db externalRef = some identity <;> simp [hsame]
  | some prior =>
    by_cases hevent : prior = sent config externalRef u user.id user.updatedAt
    · by_cases hsame : storedIdentity config w.db externalRef = some identity <;> simp [hevent, hsame]
    · simp [hevent]

/-- Where the user is found afterwards, with the identity. -/
theorem Written.after (h : Written config externalRef w u db user identity) :
    (update config w externalRef u).1.db.findUser externalRef = some user ∧
      storedIdentity config (update config w externalRef u).1.db externalRef = some identity := by
  rw [h.db_eq]
  exact ⟨h.find, storedIdentity_of_find h.find h.holds⟩

theorem Written.auditable_iff (h : Written config externalRef w u db user identity) :
    auditable config externalRef w u = true ↔
      if storedIdentity config w.db externalRef = some identity then
        findBy AuditEvent.eventId (sent config externalRef u user.id user.updatedAt).eventId w.events =
          some (sent config externalRef u user.id user.updatedAt)
      else findBy AuditEvent.eventId (sent config externalRef u user.id user.updatedAt).eventId w.events = none := by
  obtain ⟨hstored, hfind, rfl⟩ | ⟨hdiffers, rfl, htime, hid⟩ := h.cases
  · rw [auditable, hfind]
    simp [hstored]
  · rw [htime, hid, auditable]
    cases hfind : w.db.findUser externalRef with
    | none =>
      have hnone : storedIdentity config w.db externalRef = none := by rw [storedIdentity, hfind]; rfl
      simp [hnone]
    | some found => simp [hdiffers]

/-! ### All runs -/

theorem updateAll_cons : updateAll config externalRef w (u :: us) =
    ((updateAll config externalRef (update config w externalRef u).1 us).1,
      (update config w externalRef u).2 :: (updateAll config externalRef (update config w externalRef u).1 us).2) :=
  rfl

theorem audited_cons (h : (∃ response, (update config w externalRef u).2 = .ok response) ∧
    (update config w externalRef u).1.events = w.events ++ change config externalRef w u) :
    Audited config externalRef w (u :: us) ↔ Audited config externalRef (update config w externalRef u).1 us := by
  rw [Audited, Audited, updateAll_cons, changes, h.2, List.forall_mem_cons, List.append_assoc]
  exact and_congr_left fun _ => and_iff_right h.1

/-- While the database and Admin are there, all updates of a user so far have succeeded with one event for
each change, after each of them, exactly when each meets the condition in the state that it finds. -/
theorem updates_audited_iff (hlaw : config.crypto.Lawful) (hdoc : validator.Documented)
    (hr : (identities config).Reachable w)
    (havailable : System.Each (fun w u => update config w externalRef u)
      (Available config validator externalRef) w us) :
    (∀ us', us' <+: us → Audited config externalRef w us') ↔
      System.Each (fun w u => update config w externalRef u)
        (fun w u => auditable config externalRef w u = true) w us := by
  induction us generalizing w with
  | nil =>
    refine ⟨fun _ => trivial, fun _ us' hbegins => ?_⟩
    rw [List.prefix_nil.mp hbegins]
    exact ⟨fun _ h => absurd h List.not_mem_nil, (List.append_nil _).symm⟩
  | cons u us ih =>
    obtain ⟨hav, hrest⟩ := havailable
    obtain ⟨db, user, identity, hwritten⟩ :=
      written_of_available hlaw hdoc (identified_of_reachable hlaw hr) hav
    have hstep := (hwritten.audited_iff hav.delivered).trans hwritten.auditable_iff.symm
    have hnext : (identities config).Reachable (update config w externalRef u).1 :=
      hr.next (a := .update externalRef u) rfl
    constructor
    · intro hall
      have hone : Audited config externalRef w [u] := hall [u] (List.prefix_append [u] us)
      have hfirst : (∃ response, (update config w externalRef u).2 = .ok response) ∧
          (update config w externalRef u).1.events = w.events ++ change config externalRef w u := by
        refine ⟨hone.1 _ List.mem_cons_self, ?_⟩
        have hevents := hone.2
        rw [updateAll_cons, changes, changes, List.append_nil] at hevents
        exact hevents
      refine ⟨hstep.mp hfirst, (ih hnext hrest).mp fun us' hbegins => (audited_cons hfirst).mp ?_⟩
      exact hall (u :: us') (List.cons_prefix_cons.mpr ⟨rfl, hbegins⟩)
    · rintro ⟨hauditable, heach⟩ us' hbegins
      have hfirst := hstep.mpr hauditable
      cases us' with
      | nil => exact ⟨fun _ h => absurd h List.not_mem_nil, (List.append_nil _).symm⟩
      | cons v us' =>
        obtain ⟨rfl, htail⟩ := List.cons_prefix_cons.mp hbegins
        exact (audited_cons hfirst).mpr ((ih hnext hrest).mpr heach us' htail)

/-! ### Former identities -/

/-- Admin refuses the event of an identity that the user returns to. -/
theorem not_auditable_of_return {v u' : IdentityUpdate} (hlaw : config.crypto.Lawful)
    (hdoc : validator.Documented) (hr : (identities config).Reachable w)
    (havailable : System.Each (fun w u => update config w externalRef u)
      (Available config validator externalRef) w [u, v, u'])
    (hreturn : u'.normalized config = u.normalized config) (hother : v.normalized config ≠ u.normalized config)
    (hnew : storedIdentity config w.db externalRef ≠ some (u.normalized config))
    (hu : normalizeIdentity config (u.normalized config) = u.normalized config)
    (hv : normalizeIdentity config (v.normalized config) = v.normalized config) :
    ¬ System.Each (fun w u => update config w externalRef u)
      (fun w u => auditable config externalRef w u = true) w [u, v, u'] := by
  rintro ⟨hfirst, hsecond, hthird, -⟩
  obtain ⟨hav, hav', hav'', -⟩ := havailable
  have hr' : (identities config).Reachable (update config w externalRef u).1 :=
    hr.next (a := .update externalRef u) rfl
  have hr'' := hr'.next (a := .update externalRef v) rfl
  obtain ⟨db, user, identity, hwritten⟩ :=
    written_of_available hlaw hdoc (identified_of_reachable hlaw hr) hav
  obtain ⟨db', user', identity', hwritten'⟩ :=
    written_of_available hlaw hdoc (identified_of_reachable hlaw hr') hav'
  obtain ⟨db'', user'', identity'', hwritten''⟩ :=
    written_of_available hlaw hdoc (identified_of_reachable hlaw hr'') hav''
  obtain ⟨hfind', hstored'⟩ := hwritten.after
  obtain ⟨hfind'', hstored''⟩ := hwritten'.after
  -- the first update is recorded under the id of its identity
  obtain ⟨hsame, -⟩ | ⟨-, hidentity, -⟩ := hwritten.cases
  · exact hnew hsame
  rw [hidentity, hu] at hstored'
  have hnewIdentity : storedIdentity config w.db externalRef ≠ some identity := by
    rw [hidentity, hu]
    exact hnew
  have hevents := ((hwritten.audited_iff hav.delivered).mpr (hwritten.auditable_iff.mp hfirst)).2
  rw [hwritten.change_eq, if_neg hnewIdentity] at hevents
  -- the second keeps the user and what is recorded
  obtain ⟨hsame, -⟩ | ⟨-, hidentity', -, hid'⟩ := hwritten'.cases
  · exact hother (Option.some.inj (hsame.symm.trans hstored'))
  rw [hidentity', hv] at hstored''
  rw [hfind', Option.elim_some] at hid'
  have hevents' := ((hwritten'.audited_iff hav'.delivered).mpr (hwritten'.auditable_iff.mp hsecond)).2
  -- so the third finds an event under its id
  obtain ⟨hsame, -⟩ | ⟨-, hidentity'', -, hid''⟩ := hwritten''.cases
  · exact hother (Option.some.inj (hstored''.symm.trans hsame) |>.trans hreturn)
  rw [hfind'', Option.elim_some] at hid''
  have hnone := hwritten''.auditable_iff.mp hthird
  rw [hstored'', hidentity'', hreturn, hu, if_neg fun h => hother (Option.some.inj h)] at hnone
  have hmem : sent config externalRef u user.id user.updatedAt ∈
      (update config (update config w externalRef u).1 externalRef v).1.events := by
    rw [hevents', hevents]
    simp
  refine findBy_eq_none_iff.mp hnone _ hmem ?_
  rw [sent, sent, hreturn, hid'', hid']
  rfl

/-- No one else is there. -/
def Alone (externalRef : ExternalRef) (w : World) : Prop :=
  ∀ row ∈ w.db.users.rows, row.externalRef = externalRef

theorem Alone.available (h : Alone externalRef w) (haccepted : u.input.accepted validator = true)
    (hdelivered : u.stored.delivery = .answered) : Available config validator externalRef w u where
  accepted := haccepted
  delivered := hdelivered
  unused := fun row hrow _ => h row hrow
  unclaimed := fun row hrow _ => .inr (h row hrow)

theorem Alone.each (hlaw : config.crypto.Lawful) (hr : (identities config).Reachable w)
    (h : Alone externalRef w) (hall : ∀ u ∈ us, u.input.accepted validator = true ∧ u.stored.delivery = .answered) :
    System.Each (fun w u => update config w externalRef u) (Available config validator externalRef) w us := by
  induction us generalizing w with
  | nil => trivial
  | cons u us ih =>
    obtain ⟨⟨haccepted, hdelivered⟩, hrest⟩ := List.forall_mem_cons.mp hall
    refine ⟨h.available haccepted hdelivered, ih (hr.next (a := .update externalRef u) rfl) ?_ hrest⟩
    exact update_rows hlaw (identified_of_reachable hlaw hr) h (fun _ => rfl) fun _ _ _ hrow => hrow

/-- What is stored and recorded of a user comes from these updates. -/
structure RecordedFrom (config : Config) (externalRef : ExternalRef) (userId : Uuid)
    (past : List IdentityUpdate) (w : World) : Prop where
  stored : ∀ identity, storedIdentity config w.db externalRef = some identity →
    ∃ p ∈ past, normalizeIdentity config (p.normalized config) = identity
  events : ∀ event ∈ w.events, ∃ p ∈ past, ∃ time, event = sent config externalRef p userId time

theorem sent_eventId (userId : Uuid) (time : Date) : (sent config externalRef u userId time).eventId =
    setByte 7 (fun b => b % 64 + 0x80) (setByte 9 (fun b => b % 16 + 0x50)
      (config.crypto.sha256 ("identity.updated\x00".toList ++ (uuidText userId).toList ++ "\x00".toList ++
        JsonText.stringify Double.jsonFormat (u.normalized config).toJson) / 2 ^ 128)) := by
  rw [sent, identityUpdated, deterministicUuid, canonicalIdentity]
  simp only [String.toList_append, String.toList_ofList]

/-- Another identity than that of an earlier update, under another event id. -/
def Differs (config : Config) (externalRef : ExternalRef) (userId : Uuid) (p u : IdentityUpdate) : Prop :=
  normalizeIdentity config (p.normalized config) ≠ u.normalized config ∧
    normalizeIdentity config (p.normalized config) ≠ normalizeIdentity config (u.normalized config) ∧
    (sent config externalRef p userId 0).eventId ≠ (sent config externalRef u userId 0).eventId

/-- An update to an identity that the user has not had meets the condition. -/
theorem RecordedFrom.next {userId : Uuid} {past : List IdentityUpdate}
    (h : RecordedFrom config externalRef userId past w) (hlaw : config.crypto.Lawful)
    (hdoc : validator.Documented) (hr : (identities config).Reachable w)
    (hav : Available config validator externalRef w u)
    (huser : (w.db.findUser externalRef).elim u.ensured.id User.id = userId)
    (hdiffers : ∀ p ∈ past, Differs config externalRef userId p u) :
    auditable config externalRef w u = true ∧
      RecordedFrom config externalRef userId (u :: past) (update config w externalRef u).1 ∧
      ∃ user, (update config w externalRef u).1.db.findUser externalRef = some user ∧ user.id = userId := by
  obtain ⟨db, user, identity, hwritten⟩ :=
    written_of_available hlaw hdoc (identified_of_reachable hlaw hr) hav
  obtain ⟨hfind, hstored⟩ := hwritten.after
  obtain ⟨hsame, -⟩ | ⟨-, hidentity, -, hid⟩ := hwritten.cases
  · obtain ⟨p, hp, heq⟩ := h.stored _ hsame
    exact absurd heq (hdiffers p hp).1
  have hother : storedIdentity config w.db externalRef ≠ some identity := by
    intro hsame
    obtain ⟨p, hp, heq⟩ := h.stored _ hsame
    exact (hdiffers p hp).2.1 (heq.trans hidentity)
  rw [huser] at hid
  -- the id of an event does not depend on the time of the row
  have hnone : findBy AuditEvent.eventId (sent config externalRef u user.id user.updatedAt).eventId w.events =
      none := by
    rw [findBy_eq_none_iff]
    intro event hevent heq
    obtain ⟨p, hp, time, rfl⟩ := h.events event hevent
    rw [hid] at heq
    exact (hdiffers p hp).2.2 heq
  have hauditable : auditable config externalRef w u = true := by
    rw [hwritten.auditable_iff, if_neg hother]
    exact hnone
  have hevents := ((hwritten.audited_iff hav.delivered).mpr (hwritten.auditable_iff.mp hauditable)).2
  rw [hwritten.change_eq, if_neg hother, hid] at hevents
  refine ⟨hauditable, ⟨?_, ?_⟩, user, hfind, hid⟩
  · intro identity' hidentity'
    rw [hstored] at hidentity'
    exact ⟨u, List.mem_cons_self, hidentity.symm.trans (Option.some.inj hidentity')⟩
  · intro event hevent
    rw [hevents] at hevent
    obtain hbefore | hnow := List.mem_append.mp hevent
    · obtain ⟨p, hp, time, heq⟩ := h.events event hbefore
      exact ⟨p, List.mem_cons_of_mem _ hp, time, heq⟩
    · exact ⟨u, List.mem_cons_self, _, List.mem_singleton.mp hnow⟩

/-- Updates to identities that differ all meet the condition. -/
theorem RecordedFrom.each {userId : Uuid} {past : List IdentityUpdate}
    (h : RecordedFrom config externalRef userId past w) (hlaw : config.crypto.Lawful)
    (hdoc : validator.Documented) (hr : (identities config).Reachable w)
    (havailable : System.Each (fun w u => update config w externalRef u)
      (Available config validator externalRef) w us)
    (huser : ∀ u ∈ us.head?, (w.db.findUser externalRef).elim u.ensured.id User.id = userId)
    (hpast : ∀ p ∈ past, ∀ u ∈ us, Differs config externalRef userId p u)
    (hdiffer : us.Pairwise (Differs config externalRef userId)) :
    System.Each (fun w u => update config w externalRef u)
      (fun w u => auditable config externalRef w u = true) w us := by
  induction us generalizing w past with
  | nil => trivial
  | cons u us ih =>
    obtain ⟨hav, hrest⟩ := havailable
    obtain ⟨hu, hus⟩ := List.pairwise_cons.mp hdiffer
    obtain ⟨hauditable, hnext, user, hfind, hid⟩ := h.next hlaw hdoc hr hav
      (huser u rfl) fun p hp => hpast p hp u List.mem_cons_self
    refine ⟨hauditable, ih hnext (hr.next (a := .update externalRef u) rfl) hrest ?_ ?_ hus⟩
    · intro v _
      rw [hfind]
      exact hid
    · intro p hp v hv
      obtain rfl | hp := List.mem_cons.mp hp
      · exact hu v hv
      · exact hpast p hp v (List.mem_cons_of_mem _ hv)

/-- The user gives three identities, one after another. -/
def threeIdentities : List IdentityUpdate :=
  [⟨⟨"Ann Example", "ann@example.com", none, none, none⟩, drawn 1, drawn 2⟩,
    ⟨⟨"Ann Other", "ann@example.com", none, none, none⟩, drawn 3, drawn 4⟩,
    ⟨⟨"Ann Other", "ann@other.example", some "+49 30 1234567", some " ", none⟩, drawn 5, drawn 6⟩]

/-- The theorem for these updates: each is accepted, and leaves its event. -/
theorem updates_audited_threeIdentities : Audited plainConfig client .empty threeIdentities := by
  have halone : Alone client .empty := fun _ hrow => absurd hrow List.not_mem_nil
  have havailable : System.Each (fun w u => update plainConfig w client u)
      (Available plainConfig plainValidator client) .empty threeIdentities :=
    halone.each plainCrypto_lawful .init (by decide +kernel)
  have hstart : RecordedFrom plainConfig client 1 [] .empty :=
    ⟨fun _ hstored => (nomatch hstored), fun _ hevent => absurd hevent List.not_mem_nil⟩
  have hdiffer : threeIdentities.Pairwise (Differs plainConfig client 1) := by
    unfold Differs
    simp only [sent_eventId]
    decide +kernel
  have hfirst : ∀ u ∈ threeIdentities.head?,
      (World.empty.db.findUser client).elim u.ensured.id User.id = 1 := by
    intro u hu
    cases hu
    rfl
  have heach := hstart.each plainCrypto_lawful plainValidator_documented .init havailable hfirst
    (fun _ hp => absurd hp List.not_mem_nil) hdiffer
  exact (updates_audited_iff plainCrypto_lawful plainValidator_documented .init havailable).mpr heach
    threeIdentities List.prefix_rfl

/-- The user gives another identity and then the first one again. -/
def backAgain : List IdentityUpdate :=
  [⟨⟨"Ann Example", "ann@example.com", none, none, none⟩, drawn 1, drawn 2⟩,
    ⟨⟨"Ann Other", "ann@example.com", none, none, none⟩, drawn 3, drawn 4⟩,
    ⟨⟨"Ann Example", "ann@example.com", none, none, none⟩, drawn 5, drawn 6⟩]

/-- The last of these updates fails, and leaves no event. -/
theorem former_identity_refused : ¬ ∀ (config : Config) (validator : Validator) (w : World)
    (externalRef : ExternalRef) (us : List IdentityUpdate), config.crypto.Lawful → validator.Documented →
    (identities config).Reachable w → System.Each (fun w u => update config w externalRef u)
      (Available config validator externalRef) w us → Audited config externalRef w us := by
  intro hall
  have halone : Alone client .empty := fun _ hrow => absurd hrow List.not_mem_nil
  have hasked : ∀ u ∈ backAgain, u.input.accepted plainValidator = true ∧ u.stored.delivery = .answered := by
    decide +kernel
  have havailable : System.Each (fun w u => update plainConfig w client u)
      (Available plainConfig plainValidator client) .empty backAgain :=
    halone.each plainCrypto_lawful .init hasked
  have hprefixes : ∀ us', us' <+: backAgain → Audited plainConfig client .empty us' := by
    intro us' hbegins
    refine hall plainConfig plainValidator .empty client us' plainCrypto_lawful plainValidator_documented .init ?_
    exact halone.each plainCrypto_lawful .init fun u hu => hasked u (hbegins.subset hu)
  have heach :=
    (updates_audited_iff plainCrypto_lawful plainValidator_documented .init havailable).mp hprefixes
  exact not_auditable_of_return plainCrypto_lawful plainValidator_documented .init havailable rfl
    (by decide +kernel) (by decide +kernel) (by decide +kernel) (by decide +kernel) heach

end NovaPay.Account
