import NovaPay.Account.Clients
import NovaPay.Audit.Retries
import NovaPay.Audit.Sanitizer
import NovaPay.Ledger.Balances

/-!
# What Admin and the Ledger do for Account

Account's model keeps the events that Admin has of it and the accounts of its wallets. Here both change as
the services change them for the requests that Account's clients send, while they serve no other.
-/

namespace NovaPay.Account

open JsonText Relational

/-! ### The Ledger -/

section Provision

variable {config : Ledger.Config} {choice : Ledger.Choice} {db : Ledger.Database} {walletId : UuidText}
  {currency : Currency} {account : Ledger.LedgerAccount} {accounts : LedgerAccounts} {error : HttpError}

/-- The statements of one call to the Ledger with none of another between them. -/
def runLedger (config : Ledger.Config) (choice : Ledger.Choice) :
    ℕ → Ledger.Database → Ledger.Next → Ledger.Database × Ledger.Next
  | n + 1, db, .goto pc =>
    runLedger config choice n (Ledger.advance config choice db pc).1 (Ledger.advance config choice db pc).2
  | _, db, next => (db, next)

def serveProvision (config : Ledger.Config) (choice : Ledger.Choice) (db : Ledger.Database)
    (walletId : UuidText) (currency : Currency) : Ledger.Database × Ledger.Next :=
  runLedger config choice 3 db ((Ledger.Request.provision walletId currency).entry config)

/-- An account that can be inserted gets its balance. -/
theorem createAccount_of_insert (hsound : Ledger.Sound db)
    (haccounts : db.accounts.insertMany [account] = .ok accounts) :
    ∃ db', Ledger.createAccount db account = .ok db' ∧ db'.accounts = accounts := by
  have hunique := Ledger.Database.account_ids ⟨accounts, db.balances, db.transactions⟩
  rw [show (Ledger.Database.mk accounts db.balances db.transactions).accounts.rows = _ from
    Table.insertMany_ok haccounts] at hunique
  -- A balance under the new id would have an account under it.
  have hfresh : ∀ b ∈ db.balances.rows, b.ledgerAccountId ≠ account.id := by
    intro b hb hid
    obtain ⟨a, ha⟩ := hsound.owned b hb
    obtain ⟨hmem, haid⟩ := Ledger.Database.findAccount_eq_some_iff.mp ha
    exact fresh_of_uniqueBy_append hunique a hmem (haid.trans hid)
  obtain ⟨balances, hbalances⟩ : ∃ balances, db.balances.insertMany
      [⟨account.id, account.currency, DecimalArithmetic.Numeric.zero, 0⟩] = .ok balances :=
    Table.insertMany_of_indexed (fun _ _ => rfl) (uniqueBy_append_new db.balances.indexed hfresh)
  refine ⟨⟨accounts, balances, db.transactions⟩, ?_, rfl⟩
  rw [Ledger.createAccount, haccounts]
  change (db.balances.insertMany _).bind _ = _
  rw [hbalances]
  rfl

theorem serveProvision_found {existing : Ledger.LedgerAccount} (h : db.findWallet walletId.value = some existing) :
    serveProvision config choice db walletId currency = (db, .answer (if existing.currency = currency then
      Ledger.toBalance existing (db.findBalance existing.id) else .error Ledger.accountMismatch)) := by
  by_cases hcurrency : existing.currency = currency <;>
    simp [serveProvision, Ledger.Request.entry, runLedger, Ledger.advance, Ledger.runProvisionFind, h, hcurrency]

theorem serveProvision_created {db' : Ledger.Database} (h : db.findWallet walletId.value = none)
    (hcreate : Ledger.createAccount db (newAccount choice.id walletId.value currency) = .ok db') :
    serveProvision config choice db walletId currency =
      (db', .answer (Ledger.toBalance (newAccount choice.id walletId.value currency)
        (db'.findBalance choice.id))) := by
  change Ledger.createAccount db (Ledger.customerAccount choice.id walletId.value currency) = .ok db' at hcreate
  simp only [serveProvision, Ledger.Request.entry, runLedger, Ledger.advance, Ledger.runProvisionFind, h,
    Ledger.runProvisionCreate, hcreate]
  rfl

/-- On a conflict the wallet is looked up once more. -/
theorem serveProvision_failed {failure : DbError} (h : db.findWallet walletId.value = none)
    (hcreate : Ledger.createAccount db (newAccount choice.id walletId.value currency) = .error failure) :
    serveProvision config choice db walletId currency = (db, .answer (.error internalServerError)) := by
  change Ledger.createAccount db (Ledger.customerAccount choice.id walletId.value currency) = .error failure
    at hcreate
  simp only [serveProvision, Ledger.Request.entry, runLedger, Ledger.advance, Ledger.runProvisionFind, h,
    Ledger.runProvisionCreate, hcreate]
  cases failure with
  | uniqueViolation => simp only [runLedger, Ledger.advance, Ledger.runProvisionRefind, h]
  | rejected => rfl

/-- The account that the model answers is the one that the Ledger answers, and stored as it stores it. -/
theorem provisionAccount_served (hsound : Ledger.Sound db)
    (h : provisionAccount db.accounts choice.id walletId.value currency = .ok (accounts, account)) :
    ∃ db' b, serveProvision config choice db walletId currency =
      (db', .answer (Ledger.toBalance account (some b))) ∧ db'.accounts = accounts := by
  rw [provisionAccount] at h
  cases hfind : findBy Ledger.LedgerAccount.walletId (some walletId.value) db.accounts.rows with
  | some existing =>
    simp only [hfind] at h
    split at h
    · next hcurrency =>
      obtain ⟨b, hb⟩ := hsound.balance existing (findBy_some hfind).1
      cases h
      refine ⟨db, b, ?_, rfl⟩
      rw [serveProvision_found hfind, if_pos hcurrency, hb]
    · cases h
  | none =>
    simp only [hfind] at h
    split at h
    · next accounts' hinsert =>
      cases h
      obtain ⟨db', hcreate, haccounts⟩ := createAccount_of_insert hsound hinsert
      refine ⟨db', ⟨choice.id, currency, DecimalArithmetic.Numeric.zero, 0⟩, ?_, haccounts⟩
      have hbalance : db'.findBalance choice.id = some _ := (Ledger.createAccount_ok hcreate).findBalance
      rw [serveProvision_created hfind hcreate, hbalance]
      rfl
    · cases h

/-- What the model refuses the Ledger refuses, and changes nothing. -/
theorem provisionAccount_refused
    (h : provisionAccount db.accounts choice.id walletId.value currency = .error error) :
    error = ledgerAccountMismatch ∧ serveProvision config choice db walletId currency =
        (db, .answer (.error Ledger.accountMismatch)) ∨
      error = ledgerUnavailable ∧ serveProvision config choice db walletId currency =
        (db, .answer (.error internalServerError)) := by
  rw [provisionAccount] at h
  cases hfind : findBy Ledger.LedgerAccount.walletId (some walletId.value) db.accounts.rows with
  | some existing =>
    simp only [hfind] at h
    split at h
    · cases h
    · next hcurrency =>
      cases h
      exact .inl ⟨rfl, by rw [serveProvision_found hfind, if_neg hcurrency]⟩
  | none =>
    simp only [hfind] at h
    split at h
    · cases h
    · next failure hinsert =>
      cases h
      have hcreate : Ledger.createAccount db (newAccount choice.id walletId.value currency) =
          .error failure := by
        rw [Ledger.createAccount, hinsert]
        rfl
      exact .inr ⟨rfl, serveProvision_failed hfind hcreate⟩

end Provision

/-! ### Admin -/

section Append

variable {config : Audit.Config} {db : Audit.Database} {events : List AuditEvent} {event prior : AuditEvent}
  {normalized : Audit.NormalizedAuditEvent} {r : Audit.AuditRecord}

theorem everyObject_single (name value : String) :
    everyObject unique (.object [(name, (.string value : Value Double))]) = true := by
  rw [everyObject_object]
  exact ⟨rfl, fun m hm => List.mem_singleton.mp hm ▸ rfl⟩

/-- The body of the request. -/
def AuditEvent.dto (event : AuditEvent) : Audit.AppendAuditEventDto where
  eventId := event.eventId
  streamKey := event.streamKey
  action := event.action
  entityType := event.entityType
  entityId := event.entityId
  actorId := some event.actorId
  occurredAt := some event.occurredAt
  metadata := some ⟨[(event.metadata.1, .string event.metadata.2)], everyObject_single _ _⟩

/-- What Admin makes of the body. -/
structure AuditEvent.Fields (event : AuditEvent) (normalized : Audit.NormalizedAuditEvent) : Prop where
  eventId : normalized.eventId = event.eventId
  streamKey : normalized.streamKey = event.streamKey
  action : normalized.action = event.action
  entityType : normalized.entityType = event.entityType
  entityId : normalized.entityId = event.entityId
  actorId : normalized.actorId = some event.actorId
  occurredAt : normalized.occurredAt = event.occurredAt
  metadata : normalized.metadata.val = [(event.metadata.1, .string event.metadata.2)]

theorem AuditEvent.fields (h : Audit.normalizeEvent event.dto = .ok normalized) : event.Fields normalized := by
  unfold Audit.normalizeEvent at h
  obtain ⟨metadata, hmetadata, h⟩ := bind_eq_ok h
  cases h
  refine ⟨rfl, rfl, rfl, rfl, rfl, rfl, rfl, ?_⟩
  have hobject := Audit.sanitizeMetadata_eq hmetadata
  rw [sortDeep_object] at hobject
  exact Value.object.inj hobject

/-- One text under a name that the sanitizer lets through is recorded. -/
theorem AuditEvent.normalizes (hkey : Audit.isSafeKey event.metadata.1 = true)
    (hdenied : Audit.isDeniedKey event.metadata.1 = false) (hlength : (utf16 event.metadata.2).length ≤ 256)
    (hnul : withoutNul (.object [(event.metadata.1, (.string event.metadata.2 : Value Double))]) = true) :
    ∃ normalized, Audit.normalizeEvent event.dto = .ok normalized ∧ normalized.metadata.write?.isSome := by
  have hleaf : Audit.Bounded 1 (.string event.metadata.2) := by
    refine (Audit.bounded_leaf fun n w hw => ?_).mpr ⟨by omega, hlength⟩
    cases hw
    exact ⟨rfl, rfl⟩
  have hbounded : Audit.Bounded 0 (.object [(event.metadata.1, .string event.metadata.2)]) := by
    rw [Audit.bounded_object]
    refine ⟨by omega, ⟨by simp, fun m hm => ?_⟩, fun m hm => ?_⟩
    · obtain rfl := List.mem_singleton.mp hm
      exact ⟨hkey, hdenied⟩
    · obtain rfl := List.mem_singleton.mp hm
      exact hleaf
  obtain ⟨metadata, hmetadata⟩ := Audit.sanitizeMetadata_ok_iff.mpr
    (show Audit.Bounded 0 (.object (event.dto.metadata.getD Audit.Metadata.empty).val) from hbounded)
  obtain ⟨normalized, hnormal, -⟩ := Audit.normalizeEvent_ok (rfl : event.dto.occurredAt = some _) hmetadata
  refine ⟨normalized, hnormal, ?_⟩
  rw [← (AuditEvent.fields hnormal).metadata] at hnul
  rw [Audit.SafeMetadata.write?, Jsonb.write?, if_pos hnul]
  rfl

/-- Both events of Account are such. -/
theorem identityUpdated_normalizes (crypto : Crypto) (userId : Uuid) (actorId canonicalPayload : String)
    (occurredAt : Date) : ∃ normalized,
      Audit.normalizeEvent (identityUpdated crypto userId actorId canonicalPayload occurredAt).dto = .ok normalized ∧
        normalized.metadata.write?.isSome :=
  AuditEvent.normalizes (show Audit.isSafeKey "schemaVersion" = true by decide +kernel)
    (show Audit.isDeniedKey "schemaVersion" = false by decide +kernel)
    (show (utf16 "v1").length ≤ 256 by decide +kernel)
    (show withoutNul (.object [("schemaVersion", (.string "v1" : Value Double))]) = true by decide +kernel)

theorem letter_plain : ∀ letter : Fin 26,
    (codeUnits (Char.ofNat (65 + letter))).length = 1 ∧ '\x00' ≠ Char.ofNat (65 + letter) := by
  decide

theorem walletActivated_normalizes (crypto : Crypto) (walletId : Uuid) (actorId : String) (currency : Currency)
    (occurredAt : Date) : ∃ normalized,
      Audit.normalizeEvent (walletActivated crypto walletId actorId currency occurredAt).dto = .ok normalized ∧
        normalized.metadata.write?.isSome :=
  AuditEvent.normalizes (show Audit.isSafeKey "currency" = true by decide +kernel)
    (show Audit.isDeniedKey "currency" = false by decide +kernel)
    (by
      change (utf16 (currencyText currency)).length ≤ 256
      simp [utf16, currencyText, letter_plain])
    (by
      change withoutNul (.object [("currency", (.string (currencyText currency) : Value Double))]) = true
      have hname : (!"currency".toList.contains '\x00') = true := by decide +kernel
      rw [withoutNul, membersWithoutNul, hname, withoutNul, membersWithoutNul, currencyText,
        String.toList_ofList]
      simp [letter_plain])

/-- Admin has the records of these events. -/
structure Recorded (config : Audit.Config) (db : Audit.Database) (events : List AuditEvent) : Prop where
  tables : db.Ok config
  record : ∀ e ∈ events, ∃ r head normalized, db.findEvent e.eventId = some r ∧
    Audit.normalizeEvent e.dto = .ok normalized ∧ Audit.newRecord config normalized head = some r

/-- Text alone comes back from the column in its order. -/
theorem AuditEvent.Fields.keepsOrder (h : event.Fields normalized) : normalized.metadata.KeepsOrder := by
  rw [Audit.SafeMetadata.KeepsOrder, h.metadata, Audit.keepsOrder_object]
  exact fun m hm => List.mem_singleton.mp hm ▸ rfl

theorem Recorded.append_new (hsha : Function.Injective config.sha256) (h : Recorded config db events)
    (hnew : db.findEvent event.eventId = none) (hbody : event.dto.accepted = true)
    (hnormal : Audit.normalizeEvent event.dto = .ok normalized) (hwrite : normalized.metadata.write?.isSome) :
    ∃ db' response, Audit.serve config db (.append event.dto) = some (db', .record response) ∧
      Recorded config db' (events ++ [event]) := by
  have hfields := AuditEvent.fields hnormal
  obtain ⟨metadata, hmetadata⟩ := Option.isSome_iff_exists.mp hwrite
  obtain ⟨r, hr⟩ : ∃ r, Audit.newRecord config normalized (db.stream normalized.streamKey) = some r := by
    rw [Audit.newRecord, hmetadata]
    exact ⟨_, rfl⟩
  have hid : r.eventId = event.eventId := (Audit.columns_of_newRecord hr).eventId.trans hfields.eventId
  have hfresh : ∀ q ∈ db.records, q.eventId ≠ r.eventId := by
    intro q hq heq
    exact of_decide_eq_false (eq_false_of_ne_true (List.find?_eq_none.mp hnew q hq)) (heq.trans hid)
  have hconflicts : db.records.any (Audit.conflicts r) = false := by
    refine List.any_eq_false.mpr fun q hq => ?_
    rw [Audit.conflicts_newRecord hsha h.tables hr hq, decide_eq_true_eq]
    exact fun heq => hfresh q hq heq.symm
  have hkey : Varchar.fitsColumn 160 normalized.streamKey = true := by
    rw [hfields.streamKey]
    simp only [Audit.AppendAuditEventDto.accepted, Bool.and_eq_true] at hbody
    exact Audit.fitsColumn_of_isIdentifier hbody.1.1.1.1
  have hserve := Audit.serve_append_new hnormal (hfields.eventId ▸ hnew) hkey hr
    (Audit.fits_of_accepted hbody hnormal hr) hconflicts
  rw [Audit.resolveExisting, if_pos ((Audit.matchesEvent_newRecord_iff hr).mpr hfields.keepsOrder)] at hserve
  refine ⟨_, _, hserve, Audit.ok_commitCreated (a := ⟨normalized, false⟩) h.tables hr hfresh, ?_⟩
  intro e he
  obtain he | he := List.mem_append.mp he
  · obtain ⟨q, head, other, hfound, hrest⟩ := h.record e he
    refine ⟨q, head, other, ?_, hrest⟩
    change (db.records ++ [r]).find? _ = some q
    rw [List.find?_append, show db.records.find? _ = some q from hfound]
    rfl
  · obtain rfl := List.mem_singleton.mp he
    refine ⟨r, _, normalized, ?_, hnormal, hr⟩
    rw [← hid]
    exact Audit.findEvent_commitCreated (hid ▸ hnew)

/-- The record of another event under the same id does not match. -/
theorem not_matchesEvent {other : Audit.NormalizedAuditEvent} {head : Audit.AuditStream}
    (hprior : prior.Fields other) (hevent : event.Fields normalized)
    (hr : Audit.newRecord config other head = some r) (hid : prior.eventId = event.eventId)
    (hne : prior ≠ event) : Audit.matchesEvent r ⟨normalized, false⟩ = false := by
  have hcolumns := Audit.columns_of_newRecord hr
  rw [Bool.eq_false_iff]
  intro hmatch
  simp only [Audit.matchesEvent, Bool.and_eq_true, decide_eq_true_eq, Bool.false_or,
    Audit.canonicalMetadata_eq_iff, normalized.metadata.sortObject_eq] at hmatch
  obtain ⟨⟨⟨⟨⟨⟨hstream, haction⟩, htype⟩, hentity⟩, hactor⟩, hdate⟩, hmetadata⟩ := hmatch
  -- All that is compared is all that an event has, so the two would be one.
  have hsame := Audit.SafeMetadata.eq_of_sortObject_read hcolumns.metadata hmetadata
  have hmembers := hprior.metadata.symm.trans ((congrArg Subtype.val hsame).trans hevent.metadata)
  simp only [List.cons.injEq, Prod.mk.injEq, Value.string.injEq, and_true] at hmembers
  rw [hcolumns.streamKey, hprior.streamKey, hevent.streamKey] at hstream
  rw [hcolumns.action, hprior.action, hevent.action] at haction
  rw [hcolumns.entityType, hprior.entityType, hevent.entityType] at htype
  rw [hcolumns.entityId, hprior.entityId, hevent.entityId] at hentity
  rw [hcolumns.actorId, hprior.actorId, hevent.actorId] at hactor
  rw [hcolumns.date, hprior.occurredAt, hevent.occurredAt] at hdate
  refine hne ?_
  cases prior
  cases event
  simp_all [Prod.ext_iff]

/-- What the model keeps Admin keeps: it records a new event, and answers again for one that it has. -/
theorem record_served {events' : List AuditEvent} (hsha : Function.Injective config.sha256)
    (h : Recorded config db events)
    (hnew : findBy AuditEvent.eventId event.eventId events = none → db.findEvent event.eventId = none)
    (hbody : event.dto.accepted = true) (hnormal : Audit.normalizeEvent event.dto = .ok normalized)
    (hwrite : normalized.metadata.write?.isSome) (hrecord : record events event = .ok events') :
    ∃ db' response, Audit.serve config db (.append event.dto) = some (db', .record response) ∧
      Recorded config db' events' := by
  unfold record at hrecord
  cases hfind : findBy AuditEvent.eventId event.eventId events with
  | none =>
    rw [hfind] at hrecord
    obtain rfl := Except.ok.inj hrecord
    exact h.append_new hsha (hnew hfind) hbody hnormal hwrite
  | some prior =>
    obtain ⟨hmem, -⟩ := findBy_some hfind
    simp only [hfind] at hrecord
    split at hrecord
    · next hsame =>
      subst hsame
      obtain rfl := Except.ok.inj hrecord
      have hfields := AuditEvent.fields hnormal
      obtain ⟨r, head, other, hfound, hother, hr⟩ := h.record prior hmem
      obtain rfl := Except.ok.inj (hother.symm.trans hnormal)
      have hserve : Audit.serve config db (.append prior.dto) = _ :=
        Audit.serve_append_recorded hnormal (hfields.eventId ▸ hfound)
      rw [Audit.resolveExisting,
        if_pos ((Audit.matchesEvent_newRecord_iff hr).mpr hfields.keepsOrder)] at hserve
      exact ⟨db, _, hserve, h⟩
    · cases hrecord

/-- What the model refuses Admin refuses, and keeps what it has. -/
theorem record_refused {error : HttpError} (h : Recorded config db events)
    (hnormal : Audit.normalizeEvent event.dto = .ok normalized) (hrecord : record events event = .error error) :
    Audit.serve config db (.append event.dto) = some (db, .error Audit.auditEventIdReused) := by
  have hfields := AuditEvent.fields hnormal
  unfold record at hrecord
  cases hfind : findBy AuditEvent.eventId event.eventId events with
  | none =>
    rw [hfind] at hrecord
    cases hrecord
  | some prior =>
    obtain ⟨hmem, hid⟩ := findBy_some hfind
    simp only [hfind] at hrecord
    split at hrecord
    · cases hrecord
    · next hdiffers =>
      obtain ⟨r, head, other, hfound, hother, hr⟩ := h.record prior hmem
      rw [hid, ← hfields.eventId] at hfound
      have hserve : Audit.serve config db (.append event.dto) = _ := Audit.serve_append_recorded hnormal hfound
      rwa [Audit.resolveExisting, not_matchesEvent (AuditEvent.fields hother) hfields hr hid hdiffers] at hserve

end Append

end NovaPay.Account
