import NovaPay.Account.Activation

/-!
# Retries of a creation

Calls of `create` with one key and one command, and calls of `reconcile`, that interleave and fail at any
step. The event of the activation carries the `updatedAt` of the row, and every retry sends it again: the
retries succeed as long as the row keeps the time that Admin has recorded.
-/

namespace NovaPay.Account

open Relational TransitionSystem

variable {config : Config} {choice : Choice} {c : Create} {w w' : World} {pc : Pc}

/-- The events of the activation of a wallet. -/
def activations (events : List AuditEvent) (walletId : Uuid) : List AuditEvent :=
  events.filter fun e => decide (e.action = "wallet.activated") && decide (e.entityId = uuidText walletId)

def Request.create? : Request → Option Create
  | .create c => some c
  | .reconcile _ => none

theorem newUser_check (hlaw : config.crypto.Lawful) (externalRef : ExternalRef) :
    usersSchema.check (newUser config choice externalRef) = true :=
  Bool.and_eq_true_iff.mpr ⟨encrypt_check hlaw _ _ _, isExternalRef_fits externalRef.property⟩

theorem isIdempotencyKey_fits {key : IdempotencyKey} (h : isIdempotencyKey key = true) :
    Varchar.fitsColumn 128 key = true := by
  simp only [isIdempotencyKey, Bool.and_eq_true, decide_eq_true_eq, List.all_eq_true] at h
  obtain ⟨⟨-, hlength⟩, hchars⟩ := h
  have hnul : '\x00' ∉ key.toList := fun hmem => absurd (hchars _ hmem).1 (by decide)
  simp only [Varchar.fitsColumn, Bool.and_eq_true, decide_eq_true_eq, Bool.not_eq_true']
  exact ⟨hlength, by simpa using hnul⟩

/-- Rows that are all the same and have different keys are one row. -/
theorem eq_singleton {α κ : Type} {rows : List α} {key : α → κ} {a : α}
    (hnodup : (rows.map key).Nodup) (h : ∀ b ∈ rows, b = a) (ha : a ∈ rows) : rows = [a] := by
  have hrows := List.eq_replicate_of_mem h
  have hnodup' := List.Nodup.of_map _ hnodup
  have hpos := List.length_pos_of_mem ha
  rw [hrows, List.nodup_replicate] at hnodup'
  have hone : rows.length = 1 := by omega
  rw [hrows, hone]
  rfl

/-- The texts of an identity are not empty. -/
theorem encrypt_ciphertext (hlaw : config.crypto.Lawful) (nonces : Nonces) (userId : Uuid)
    (input : IdentityPayload) : (encrypt config nonces userId input).identityCiphertext.length ≠ 0 := by
  have hlength : (encrypt config nonces userId input).identityCiphertext.length =
      (bytes (canonicalIdentity (normalizeIdentity config input))).length := hlaw.length_ciphertext ..
  have hbytes : ∀ t : String, (bytes t).length = t.utf8ByteSize := fun t => rfl
  rw [hlength, hbytes, ne_eq, String.utf8ByteSize_eq_zero_iff, canonicalIdentity, ← String.toList_inj,
    String.toList_ofList]
  exact List.cons_ne_nil _ _

/-! ### The world of one key -/

/-- What stands in a world in which one creation is all that was ever asked for. With the unique indexes
there is at most one row of each kind. -/
structure Single (config : Config) (c : Create) (w : World) : Prop where
  user : ∀ u ∈ w.db.users.rows, u.externalRef = c.externalRef ∧ u.identityCiphertext.length ≠ 0
  owner : ∀ wallet ∈ w.db.wallets.rows, ∃ u ∈ w.db.users.rows, wallet.userId = u.id
  currency : ∀ wallet ∈ w.db.wallets.rows, wallet.currency = c.command.currency
  record : ∀ wallet ∈ w.db.wallets.rows,
    ⟨wallet.userId, c.idempotencyKey, hashCommand config.crypto c.command, wallet.id⟩ ∈ w.db.records.rows
  recorded : ∀ r ∈ w.db.records.rows, ∃ wallet ∈ w.db.wallets.rows, r.walletId = wallet.id
  status : ∀ wallet ∈ w.db.wallets.rows, wallet.status = .pending ∨ (wallet.status = .active ∧
    ∃ account ∈ w.accounts.rows, wallet.ledgerAccountId = some account.id)
  account : ∀ account ∈ w.accounts.rows, ∃ wallet ∈ w.db.wallets.rows,
    account.walletId = some wallet.id ∧ account.currency = wallet.currency
  event : ∀ event ∈ w.events, ∃ wallet ∈ w.db.wallets.rows, wallet.status = .active ∧
    event = walletActivated config.crypto wallet.id c.externalRef wallet.currency wallet.updatedAt
  events : uniqueBy AuditEvent.eventId w.events = true

section Single

variable {u u' : User} {wallet wallet' : Wallet} {account account' : Ledger.LedgerAccount}

theorem users_indexed (db : Database) : uniqueBy User.id db.users.rows = true ∧
    uniqueBy User.externalRef db.users.rows = true := by
  have h := db.users.indexed
  simp only [usersSchema, usersIndexed, Bool.and_eq_true] at h
  exact h.1

theorem wallets_indexed (db : Database) : uniqueBy Wallet.id db.wallets.rows = true ∧
    uniqueBy (fun w : Wallet => (w.userId, w.currency)) db.wallets.rows = true := by
  have h := db.wallets.indexed
  simp only [walletsSchema, walletsIndexed, Bool.and_eq_true] at h
  exact h.1

theorem records_indexed (db : Database) :
    uniqueBy (fun r : WalletIdempotencyRecord => (r.userId, r.key)) db.records.rows = true := by
  have h := db.records.indexed
  simp only [recordsSchema, recordsIndexed, Bool.and_eq_true] at h
  exact h.2

theorem accounts_indexed (accounts : LedgerAccounts) :
    uniqueWhere Ledger.LedgerAccount.walletId accounts.rows = true := by
  have h := accounts.indexed
  simp only [Ledger.accountsSchema, Ledger.accountsIndexed, Bool.and_eq_true] at h
  exact h.1.2

theorem Single.user_unique (h : Single config c w) (hu : u ∈ w.db.users.rows)
    (hu' : u' ∈ w.db.users.rows) : u = u' :=
  eq_of_uniqueBy (users_indexed w.db).2 hu hu' ((h.user u hu).1.trans (h.user u' hu').1.symm)

theorem Single.wallet_unique (h : Single config c w) (hw : wallet ∈ w.db.wallets.rows)
    (hw' : wallet' ∈ w.db.wallets.rows) : wallet = wallet' := by
  obtain ⟨u, hu, howner⟩ := h.owner wallet hw
  obtain ⟨u', hu', howner'⟩ := h.owner wallet' hw'
  refine eq_of_uniqueBy (wallets_indexed w.db).2 hw hw' ?_
  rw [howner, howner', h.user_unique hu hu', h.currency wallet hw, h.currency wallet' hw']

theorem Single.account_unique (h : Single config c w) (ha : account ∈ w.accounts.rows)
    (ha' : account' ∈ w.accounts.rows) : account = account' := by
  obtain ⟨wallet, hw, hid, -⟩ := h.account account ha
  obtain ⟨wallet', hw', hid', -⟩ := h.account account' ha'
  rw [h.wallet_unique hw' hw] at hid'
  exact eq_of_uniqueWhere (accounts_indexed w.accounts) ha ha' hid hid'

theorem Single.event_unique (h : Single config c w) {event event' : AuditEvent} (he : event ∈ w.events)
    (he' : event' ∈ w.events) : event = event' := by
  obtain ⟨wallet, hw, -, rfl⟩ := h.event event he
  obtain ⟨wallet', hw', -, rfl⟩ := h.event event' he'
  rw [h.wallet_unique hw hw']

theorem Single.events_eq (h : Single config c w) {event : AuditEvent} (he : event ∈ w.events) :
    w.events = [event] :=
  eq_singleton (uniqueBy_iff.mp h.events) (fun _ he' => h.event_unique he' he) he

theorem Single.wallets_eq (h : Single config c w) (hw : wallet ∈ w.db.wallets.rows) :
    w.db.wallets.rows = [wallet] :=
  eq_singleton (uniqueBy_iff.mp (wallets_indexed w.db).1) (fun _ hw' => h.wallet_unique hw' hw) hw

/-- Every event is one of the activation of the wallet. -/
theorem Single.activations_eq (h : Single config c w) (hw : wallet ∈ w.db.wallets.rows) :
    activations w.events wallet.id = w.events := by
  refine List.filter_eq_self.mpr fun event he => ?_
  obtain ⟨wallet', hw', -, rfl⟩ := h.event event he
  rw [h.wallet_unique hw hw']
  simp [walletActivated]

theorem Single.find_user (h : Single config c w) (hu : u ∈ w.db.users.rows) :
    w.db.findUser c.externalRef = some u := by
  rw [← (h.user u hu).1]
  exact findBy_of_mem (users_indexed w.db).2 hu

theorem Single.find_wallet (hw : wallet ∈ w.db.wallets.rows) : w.db.findWallet wallet.id = some wallet :=
  findBy_of_mem (wallets_indexed w.db).1 hw

theorem Single.find_record (h : Single config c w) (hw : wallet ∈ w.db.wallets.rows) :
    w.db.findRecord wallet.userId c.idempotencyKey =
      some (⟨wallet.userId, c.idempotencyKey, hashCommand config.crypto c.command, wallet.id⟩, wallet) := by
  have hfind := findBy_of_mem (records_indexed w.db) (h.record wallet hw)
  rw [Database.findRecord, hfind, Option.bind_some, Single.find_wallet hw, Option.map_some]

end Single

/-! ### What a call has read -/

/-- What every step keeps. -/
structure Later (w w' : World) : Prop where
  user : ∀ u ∈ w.db.users.rows, ∃ u' ∈ w'.db.users.rows, u'.id = u.id
  wallet : ∀ row ∈ w.db.wallets.rows, ∃ row' ∈ w'.db.wallets.rows, row'.id = row.id ∧
    row'.currency = row.currency ∧ (row.status = .active → row'.status = .active)
  accounts : w.accounts.rows ⊆ w'.accounts.rows
  events : w.events ⊆ w'.events

theorem Later.refl (w : World) : Later w w :=
  ⟨fun u hu => ⟨u, hu, rfl⟩, fun row hr => ⟨row, hr, rfl, rfl, id⟩, fun _ => id, fun _ => id⟩

/-- A wallet as a call has read it. -/
def ReadOf (w : World) (wallet : Wallet) : Prop :=
  ∃ row ∈ w.db.wallets.rows, row.id = wallet.id ∧ row.currency = wallet.currency ∧
    (wallet.status = .active → row.status = .active)

def UserOf (w : World) (user : User) : Prop := ∃ u ∈ w.db.users.rows, u.id = user.id

/-- What a call knows at the statement it waits at. -/
def Follows (w : World) (request : Request) : Pc → Prop
  | .findUser c | .createUser c | .findUserAgain c => request.create? = some c
  | .refreshUser _ _ => False
  | .findRecord c user | .findCurrency c user | .insertWallet c user | .findWinner c user =>
    request.create? = some c ∧ UserOf w user
  | .findWallet _ => request.create? = none
  | .provision c? wallet => request.create? = c? ∧ ReadOf w wallet
  | .activate c? wallet account =>
    request.create? = c? ∧ ReadOf w wallet ∧ Provisioned w.accounts wallet.id account.ledgerAccountId
  | .recordActivation c active _ => request.create? = some c ∧ ReadOf w active ∧ active.status = .active

/-- What an answer says. -/
def Answers (w : World) (request : Request) : Outcome → Prop
  | .wallet r => (∃ row ∈ w.db.wallets.rows, row.id = r.id) ∧
    (request.create?.isSome = true → w.events ≠ [])
  | .error _ => True

def Next.Follows (w : World) (request : Request) : Next → Prop
  | .goto pc => Account.Follows w request pc
  | .answer outcome => Answers w request outcome

theorem ReadOf.later {wallet : Wallet} (h : ReadOf w wallet) (hl : Later w w') : ReadOf w' wallet := by
  obtain ⟨row, hr, hid, hcurrency, hactive⟩ := h
  obtain ⟨row', hr', hid', hcurrency', hactive'⟩ := hl.wallet row hr
  exact ⟨row', hr', hid'.trans hid, hcurrency'.trans hcurrency, fun ha => hactive' (hactive ha)⟩

theorem UserOf.later {user : User} (h : UserOf w user) (hl : Later w w') : UserOf w' user := by
  obtain ⟨u, hu, hid⟩ := h
  obtain ⟨u', hu', hid'⟩ := hl.user u hu
  exact ⟨u', hu', hid'.trans hid⟩

theorem Follows.later {request : Request} (h : Follows w request pc) (hl : Later w w') :
    Follows w' request pc := by
  cases pc with
  | findRecord c user | findCurrency c user | insertWallet c user | findWinner c user =>
    exact ⟨h.1, h.2.later hl⟩
  | provision c? wallet => exact ⟨h.1, h.2.later hl⟩
  | activate c? wallet account => exact ⟨h.1, h.2.1.later hl, h.2.2.mono hl.accounts⟩
  | recordActivation c active account => exact ⟨h.1, h.2.1.later hl, h.2.2⟩
  | _ => exact h

theorem Answers.later {request : Request} {outcome : Outcome} (h : Answers w request outcome)
    (hl : Later w w') : Answers w' request outcome := by
  cases outcome with
  | error error => trivial
  | wallet r =>
    obtain ⟨⟨row, hr, hid⟩, hevents⟩ := h
    obtain ⟨row', hr', hid', -⟩ := hl.wallet row hr
    refine ⟨⟨row', hr', hid'.trans hid⟩, fun hc => ?_⟩
    obtain ⟨event, he⟩ := List.exists_mem_of_ne_nil _ (hevents hc)
    exact List.ne_nil_of_mem (hl.events he)

/-! ### Steps -/

/-- A step that may move the time of the row does so before the event of its activation is there, and the
event that is there first has the time of the row. -/
def Timely (w : World) (choice : Choice) : Pc → Prop
  | .activate _ wallet _ => ∀ e ∈ activations w.events wallet.id, e.occurredAt = choice.now
  | .recordActivation _ active _ => choice.delivery ≠ .unavailable →
    activations w.events active.id = [] →
      ∀ row ∈ w.db.wallets.rows, row.id = active.id → row.updatedAt = active.updatedAt
  | _ => True

section Steps

variable {request : Request} {user : User} {wallet : Wallet}

theorem resume_follows (hc : request.create? = some c) (h : ReadOf w wallet)
    (record : WalletIdempotencyRecord) : (resume config c record wallet).Follows w request := by
  unfold resume
  split
  · trivial
  · exact ⟨hc, h⟩

theorem ReadOf.of_mem (h : wallet ∈ w.db.wallets.rows) : ReadOf w wallet := ⟨wallet, h, rfl, rfl, id⟩

theorem findRecord_mem {db : Database} {userId : Uuid} {key : IdempotencyKey}
    {record : WalletIdempotencyRecord} (h : db.findRecord userId key = some (record, wallet)) :
    wallet ∈ db.wallets.rows := by
  obtain ⟨r, -, h⟩ := Option.bind_eq_some_iff.mp h
  obtain ⟨read, hread, h⟩ := Option.map_eq_some_iff.mp h
  cases h
  exact (findBy_some hread).1

theorem findRecord_follows (hc : request.create? = some c) (hu : UserOf w user) :
    (runFindRecord config w.db c user).Follows w request := by
  unfold runFindRecord
  split
  · next h => exact resume_follows hc (.of_mem (findRecord_mem h)) _
  · exact ⟨hc, hu⟩

theorem findWinner_follows (hc : request.create? = some c) :
    (runFindWinner config w.db c user).Follows w request := by
  unfold runFindWinner
  split
  · next h => exact resume_follows hc (.of_mem (findRecord_mem h)) _
  · trivial

theorem insertUser (h : Single config c w) {users : Table usersSchema} (hlaw : config.crypto.Lawful)
    (hrows : users.rows = w.db.users.rows ++ [newUser config choice c.externalRef]) :
    Single config c { w with db := { w.db with users } } ∧ Later w { w with db := { w.db with users } } := by
  have hmem : ∀ u ∈ w.db.users.rows, u ∈ users.rows := fun u hu => by
    rw [hrows]
    exact List.mem_append_left _ hu
  refine ⟨{ h with user := fun u hu => ?_, owner := fun wallet hw => ?_ }, { Later.refl w with
    user := fun u hu => ⟨u, hmem u hu, rfl⟩ }⟩
  · change u ∈ users.rows at hu
    rw [hrows] at hu
    obtain hu | hu := List.mem_append.mp hu
    · exact h.user u hu
    · rw [List.mem_singleton.mp hu]
      exact ⟨rfl, encrypt_ciphertext hlaw _ _ _⟩
  · obtain ⟨u, hu, hid⟩ := h.owner wallet hw
    exact ⟨u, hmem u hu, hid⟩

theorem insertWallet_single (h : Single config c w) {db : Database} (hu : UserOf w user)
    (hinsert : insertWallet config choice w.db c user = .ok db) :
    Single config c { w with db } ∧ Later w { w with db } ∧ newWallet choice c user ∈ db.wallets.rows := by
  obtain ⟨husers, hwallets, hrecords⟩ := insertWallet_ok hinsert
  have hmem : ∀ wallet ∈ w.db.wallets.rows, wallet ∈ db.wallets.rows := fun wallet hw => by
    rw [hwallets]
    exact List.mem_append_left _ hw
  have hnew : newWallet choice c user ∈ db.wallets.rows := by
    rw [hwallets]
    exact List.mem_append_right _ (List.mem_singleton_self _)
  have hcases : ∀ wallet ∈ db.wallets.rows, wallet ∈ w.db.wallets.rows ∨ wallet = newWallet choice c user :=
    fun wallet hw => by
      rw [hwallets] at hw
      exact (List.mem_append.mp hw).imp_right List.mem_singleton.mp
  refine ⟨⟨?_, ?_, ?_, ?_, ?_, ?_, ?_, ?_, h.events⟩, ?_, hnew⟩
  · change ∀ u ∈ db.users.rows, _
    rw [husers]
    exact h.user
  · intro wallet hw
    change ∃ u ∈ db.users.rows, _
    rw [husers]
    obtain hold | rfl := hcases wallet hw
    · exact h.owner wallet hold
    · obtain ⟨u, hu, hid⟩ := hu
      exact ⟨u, hu, hid.symm⟩
  · intro wallet hw
    obtain hold | rfl := hcases wallet hw
    · exact h.currency wallet hold
    · rfl
  · intro wallet hw
    change _ ∈ db.records.rows
    rw [hrecords]
    obtain hold | rfl := hcases wallet hw
    · exact List.mem_append_left _ (h.record wallet hold)
    · exact List.mem_append_right _ (List.mem_singleton_self _)
  · intro r hr
    change r ∈ db.records.rows at hr
    rw [hrecords] at hr
    obtain hr | hr := List.mem_append.mp hr
    · obtain ⟨wallet, hw, hid⟩ := h.recorded r hr
      exact ⟨wallet, hmem wallet hw, hid⟩
    · rw [List.mem_singleton.mp hr]
      exact ⟨_, hnew, rfl⟩
  · intro wallet hw
    obtain hold | rfl := hcases wallet hw
    · exact h.status wallet hold
    · exact .inl rfl
  · intro account ha
    obtain ⟨wallet, hw, hwallet⟩ := h.account account ha
    exact ⟨wallet, hmem wallet hw, hwallet⟩
  · intro event he
    obtain ⟨wallet, hw, hwallet⟩ := h.event event he
    exact ⟨wallet, hmem wallet hw, hwallet⟩
  · refine ⟨fun u hu => ⟨u, ?_, rfl⟩, fun row hr => ⟨row, hmem row hr, rfl, rfl, id⟩, fun _ => id, fun _ => id⟩
    change u ∈ db.users.rows
    rwa [husers]

theorem provision_rows (delivery : Delivery) (accounts : LedgerAccounts) (accountId walletId : Uuid)
    (currency : Currency) :
    (provision delivery accounts accountId walletId currency).1.rows = accounts.rows ∨
      (provision delivery accounts accountId walletId currency).1.rows =
        accounts.rows ++ [newAccount accountId walletId currency] := by
  have hok : ∀ accounts' account,
      provisionAccount accounts accountId walletId currency = .ok (accounts', account) →
      accounts'.rows = accounts.rows ∨
        accounts'.rows = accounts.rows ++ [newAccount accountId walletId currency] := by
    intro accounts' account h
    unfold provisionAccount at h
    split at h
    · split at h <;> cases h
      exact .inl rfl
    · split at h
      · next hinsert =>
        cases h
        exact .inr (Table.insertMany_ok hinsert)
      · cases h
  unfold provision
  split
  · next h => exact hok _ _ h
  · exact .inl rfl
  · next h => exact hok _ _ h
  · exact .inl rfl

theorem provision_single (h : Single config c w) (hread : ReadOf w wallet) (accounts : LedgerAccounts)
    (hrows : accounts.rows = w.accounts.rows ∨
      ∃ id, accounts.rows = w.accounts.rows ++ [newAccount id wallet.id wallet.currency]) :
    Single config c { w with accounts } ∧ Later w { w with accounts } := by
  have hsub : w.accounts.rows ⊆ accounts.rows := by
    obtain heq | ⟨id, heq⟩ := hrows
    · rw [heq]
      exact fun a ha => ha
    · rw [heq]
      exact List.subset_append_left ..
  refine ⟨{ h with status := fun wallet hw => ?_, account := fun account ha => ?_ }, { Later.refl w with
    accounts := hsub }⟩
  · refine (h.status wallet hw).imp_right ?_
    rintro ⟨hactive, account, ha, hid⟩
    exact ⟨hactive, account, hsub ha, hid⟩
  · change account ∈ accounts.rows at ha
    obtain heq | ⟨id, heq⟩ := hrows
    · rw [heq] at ha
      exact h.account account ha
    · rw [heq] at ha
      obtain ha | ha := List.mem_append.mp ha
      · exact h.account account ha
      · obtain ⟨row, hr, hid, hcurrency, -⟩ := hread
        rw [List.mem_singleton.mp ha]
        exact ⟨row, hr, congrArg some hid.symm, hcurrency.symm⟩

/-- An activation leaves the time of the row, or comes before the event. -/
theorem activate_single (h : Single config c w) {wallets : Table walletsSchema} {accountId : Uuid}
    (hread : ReadOf w wallet) (hp : Provisioned w.accounts wallet.id accountId)
    (htime : ∀ e ∈ activations w.events wallet.id, e.occurredAt = choice.now)
    (hrows : wallets.rows = updateWhere (fun row => decide (row.id = wallet.id))
      (fun row => row.activated accountId choice.now) w.db.wallets.rows) :
    Single config c { w with db := { w.db with wallets } } ∧
      Later w { w with db := { w.db with wallets } } := by
  obtain ⟨row₀, hr₀, hid₀, hcurrency₀, -⟩ := hread
  have hid : ∀ row ∈ w.db.wallets.rows, row.id = wallet.id := fun row hr => by
    rw [h.wallet_unique hr hr₀, hid₀]
  have hmap : wallets.rows = w.db.wallets.rows.map fun row => row.activated accountId choice.now := by
    rw [hrows]
    exact updateWhere_of_all fun row hr => decide_eq_true (hid row hr)
  have hnew : ∀ row ∈ wallets.rows, ∃ old ∈ w.db.wallets.rows, row = old.activated accountId choice.now := by
    intro row hr
    rw [hmap] at hr
    obtain ⟨old, hold, rfl⟩ := List.mem_map.mp hr
    exact ⟨old, hold, rfl⟩
  have hmem : ∀ row ∈ w.db.wallets.rows, row.activated accountId choice.now ∈ wallets.rows := fun row hr => by
    rw [hmap]
    exact List.mem_map_of_mem hr
  refine ⟨⟨h.user, ?_, ?_, ?_, ?_, ?_, ?_, ?_, h.events⟩, { Later.refl w with
    wallet := fun row hr => ⟨_, hmem row hr, rfl, rfl, fun _ => rfl⟩ }⟩
  · intro row hr
    obtain ⟨old, hold, rfl⟩ := hnew row hr
    exact h.owner old hold
  · intro row hr
    obtain ⟨old, hold, rfl⟩ := hnew row hr
    exact h.currency old hold
  · intro row hr
    obtain ⟨old, hold, rfl⟩ := hnew row hr
    exact h.record old hold
  · intro r hr
    obtain ⟨old, hold, hwallet⟩ := h.recorded r hr
    exact ⟨_, hmem old hold, hwallet⟩
  · intro row hr
    obtain ⟨old, hold, rfl⟩ := hnew row hr
    obtain ⟨account, ha, -, haccount⟩ := hp
    exact .inr ⟨rfl, account, ha, congrArg some haccount.symm⟩
  · intro account ha
    obtain ⟨old, hold, hwallet⟩ := h.account account ha
    exact ⟨_, hmem old hold, hwallet⟩
  · intro event he
    obtain ⟨old, hold, -, hevent⟩ := h.event event he
    refine ⟨_, hmem old hold, rfl, ?_⟩
    have hnow : event.occurredAt = choice.now := by
      refine htime event ?_
      rwa [← hid old hold, h.activations_eq hold]
    rw [hevent] at hnow ⊢
    exact congrArg (walletActivated config.crypto old.id c.externalRef old.currency) hnow

theorem record_single (h : Single config c w) {active : Wallet} {events : List AuditEvent}
    (hread : ReadOf w active) (hactive : active.status = .active)
    (htime : activations w.events active.id = [] →
      ∀ row ∈ w.db.wallets.rows, row.id = active.id → row.updatedAt = active.updatedAt)
    (hrecord : record w.events (walletActivated config.crypto active.id c.externalRef active.currency
      active.updatedAt) = .ok events) :
    Single config c { w with events } ∧ Later w { w with events } ∧ events ≠ [] := by
  obtain ⟨row, hr, hid, hcurrency, hstatus⟩ := hread
  unfold record at hrecord
  split at hrecord
  · next hnone =>
    cases hrecord
    have hempty : w.events = [] := by
      refine List.eq_nil_iff_forall_not_mem.mpr fun event he => ?_
      obtain ⟨wallet, hw, -, rfl⟩ := h.event event he
      refine findBy_eq_none_iff.mp hnone _ he ?_
      rw [h.wallet_unique hw hr, ← hid]
      rfl
    have hupdated := htime (by rw [hempty]; rfl) row hr hid
    have hevent : walletActivated config.crypto active.id c.externalRef active.currency active.updatedAt =
        walletActivated config.crypto row.id c.externalRef row.currency row.updatedAt := by
      rw [hid, hcurrency, hupdated]
    refine ⟨{ h with event := fun event he => ?_, events := ?_ }, { Later.refl w with
      events := List.subset_append_left .. }, by simp⟩
    · obtain he | he := List.mem_append.mp he
      · exact h.event event he
      · exact ⟨row, hr, hstatus hactive, (List.mem_singleton.mp he).trans hevent⟩
    · rw [hempty]
      rfl
  · next prior hprior =>
    split at hrecord
    · cases hrecord
      exact ⟨h, .refl w, List.ne_nil_of_mem (findBy_some hprior).1⟩
    · cases hrecord

/-- A request that Admin receives and accepts, or one that leaves it as it is and fails. -/
theorem append_cases (delivery : Delivery) (events : List AuditEvent) (event : AuditEvent) :
    (delivery ≠ .unavailable ∧ record events event = .ok (append delivery events event).1) ∨
      append delivery events event = (events, .error auditUnavailable) := by
  unfold append
  split
  · next h => exact .inl ⟨Delivery.noConfusion, h⟩
  · next h => exact .inl ⟨Delivery.noConfusion, h⟩
  · exact .inr rfl

/-- What a step does to the world and to the call that takes it. -/
structure StepsSingly (config : Config) (c : Create) (request : Request) (w : World) (next : World × Next) :
    Prop where
  single : Single config c next.1
  later : Later w next.1
  follows : next.2.Follows next.1 request

theorem findUser_single (h : Single config c w) {c' : Create} (hf : Follows w request (.findUser c')) :
    StepsSingly config c request w (advance config choice w (.findUser c')) := by
  refine ⟨h, .refl w, ?_⟩
  change (runFindUser w.db c').Follows w request
  unfold runFindUser
  split
  · next existing hfind =>
    have hmem := (findBy_some hfind).1
    rw [if_neg (h.user existing hmem).2]
    exact ⟨hf, existing, hmem, rfl⟩
  · exact hf

theorem createUser_single (hlaw : config.crypto.Lawful) (h : Single config c w)
    (hf : Follows w request (.createUser c)) :
    StepsSingly config c request w (advance config choice w (.createUser c)) := by
  simp only [advance, runCreateUser]
  split
  · next users hinsert =>
    have hrows := Table.insertMany_ok hinsert
    obtain ⟨hsingle, hlater⟩ := insertUser h hlaw hrows
    refine ⟨hsingle, hlater, hf, newUser config choice c.externalRef, ?_, rfl⟩
    change _ ∈ users.rows
    rw [hrows]
    exact List.mem_append_right _ (List.mem_singleton_self _)
  · exact ⟨h, .refl w, hf⟩
  · exact ⟨h, .refl w, trivial⟩

theorem findUserAgain_single (h : Single config c w) {c' : Create}
    (hf : Follows w request (.findUserAgain c')) :
    StepsSingly config c request w (advance config choice w (.findUserAgain c')) := by
  refine ⟨h, .refl w, ?_⟩
  change (runFindUserAgain w.db c').Follows w request
  unfold runFindUserAgain
  split
  · next user hfind => exact ⟨hf, user, (findBy_some hfind).1, rfl⟩
  · trivial

theorem findCurrency_single (h : Single config c w) {c' : Create}
    (hf : Follows w request (.findCurrency c' user)) :
    StepsSingly config c request w (advance config choice w (.findCurrency c' user)) := by
  refine ⟨h, .refl w, ?_⟩
  change (runFindCurrency w.db c' user).Follows w request
  unfold runFindCurrency
  split
  · trivial
  · exact hf

theorem runInsertWallet_single (h : Single config c w) (hf : Follows w request (.insertWallet c user)) :
    StepsSingly config c request w (advance config choice w (.insertWallet c user)) := by
  simp only [advance, runInsertWallet]
  split
  · next db hinsert =>
    obtain ⟨hsingle, hlater, hmem⟩ := insertWallet_single h hf.2 hinsert
    exact ⟨hsingle, hlater, hf.1, .of_mem hmem⟩
  · exact ⟨h, .refl w, hf⟩
  · exact ⟨h, .refl w, trivial⟩

theorem findWallet_single (h : Single config c w) {walletId : Uuid}
    (hf : Follows w request (.findWallet walletId)) :
    StepsSingly config c request w (advance config choice w (.findWallet walletId)) := by
  refine ⟨h, .refl w, ?_⟩
  change (runFindWallet w.db walletId).Follows w request
  unfold runFindWallet
  split
  · next wallet hfind => exact ⟨hf, .of_mem (findBy_some hfind).1⟩
  · trivial

theorem runProvision_single (h : Single config c w) {c? : Option Create}
    (hf : Follows w request (.provision c? wallet)) :
    StepsSingly config c request w (advance config choice w (.provision c? wallet)) := by
  obtain ⟨hc?, hread⟩ := hf
  have hrows : (runProvision choice w.accounts c? wallet).1.rows = w.accounts.rows ∨
      ∃ id, (runProvision choice w.accounts c? wallet).1.rows =
        w.accounts.rows ++ [newAccount id wallet.id wallet.currency] := by
    rw [runProvision_accounts]
    exact (provision_rows ..).imp_right fun heq => ⟨_, heq⟩
  obtain ⟨hsingle, hlater⟩ := provision_single h hread _ hrows
  refine ⟨hsingle, hlater, ?_⟩
  change (runProvision choice w.accounts c? wallet).2.Follows
    { w with accounts := (runProvision choice w.accounts c? wallet).1 } request
  rw [runProvision_accounts] at hlater ⊢
  unfold runProvision
  split
  · next hprovision =>
    have hok := provision_ok (congrArg Prod.snd hprovision)
    have hp : Provisioned (provision choice.delivery w.accounts choice.accountId wallet.id
        wallet.currency).1 wallet.id _ := ⟨_, hok.1, hok.2, rfl⟩
    change Follows _ request (provisioned c? wallet _)
    unfold provisioned
    split
    · split
      · next hactive => exact ⟨hc?, hread.later hlater, hactive.1⟩
      · exact ⟨hc?, hread.later hlater, hp⟩
    · exact ⟨hc?, hread.later hlater, hp⟩
  · trivial

theorem runActivate_single (h : Single config c w) {c? : Option Create} {account : ProvisionedAccount}
    (hf : Follows w request (.activate c? wallet account)) (htime : Timely w choice (.activate c? wallet account)) :
    StepsSingly config c request w (advance config choice w (.activate c? wallet account)) := by
  obtain ⟨hc?, hread, hp⟩ := hf
  simp only [advance, runActivate]
  split
  · next wallets n hupdate =>
    have hrows := (Table.updateMany_ok hupdate).1
    obtain ⟨hsingle, hlater⟩ := activate_single h hread hp htime hrows
    split
    · next active hfind =>
      have hmem : active ∈ wallets.rows := (findBy_some hfind).1
      refine ⟨hsingle, hlater, ?_⟩
      split
      · refine ⟨hc?, .of_mem hmem, ?_⟩
        rw [hrows] at hmem
        obtain ⟨-, hfalse⟩ | ⟨row, -, -, rfl⟩ := mem_updateWhere.mp hmem
        · exact absurd (findBy_some hfind).2 (of_decide_eq_false hfalse)
        · rfl
      · refine ⟨⟨active, hmem, rfl⟩, fun hcreate => ?_⟩
        rw [hc?] at hcreate
        cases hcreate
    · exact ⟨h, .refl w, trivial⟩
  · exact ⟨h, .refl w, trivial⟩

/-- The event of the activation, sent until Admin has it. -/
theorem recordActivation_single (h : Single config c w) {active : Wallet} {account : ProvisionedAccount}
    (hf : Follows w request (.recordActivation c active account))
    (htime : Timely w choice (.recordActivation c active account)) :
    StepsSingly config c request w (advance config choice w (.recordActivation c active account)) := by
  obtain ⟨-, hread, hactive⟩ := hf
  have hnext : ∀ r : List AuditEvent × Except HttpError Unit,
      append choice.delivery w.events (walletActivated config.crypto active.id c.externalRef
        active.currency active.updatedAt) = r →
      Single config c { w with events := r.1 } ∧ Later w { w with events := r.1 } ∧
        (r.2 = .ok () → r.1 ≠ []) := by
    rintro r rfl
    obtain ⟨hdelivery, hrecord⟩ | heq := append_cases choice.delivery w.events
      (walletActivated config.crypto active.id c.externalRef active.currency active.updatedAt)
    · obtain ⟨hsingle, hlater, hne⟩ := record_single h hread hactive (htime hdelivery) hrecord
      exact ⟨hsingle, hlater, fun _ => hne⟩
    · rw [heq]
      exact ⟨h, .refl w, fun hok => by cases hok⟩
  simp only [advance, runRecordActivation]
  split
  · next events happend =>
    obtain ⟨hsingle, hlater, hne⟩ := hnext _ happend
    obtain ⟨row, hr, hid, -⟩ := hread
    exact ⟨hsingle, hlater, ⟨row, hr, hid⟩, fun _ => hne rfl⟩
  · next events error happend =>
    obtain ⟨hsingle, hlater, -⟩ := hnext _ happend
    exact ⟨hsingle, hlater, trivial⟩

theorem advance_single (hlaw : config.crypto.Lawful) (h : Single config c w)
    (hc : ∀ c', request.create? = some c' → c' = c) (hf : Follows w request pc)
    (htime : Timely w choice pc) : StepsSingly config c request w (advance config choice w pc) := by
  cases pc with
  | findUser c' => exact findUser_single h hf
  | refreshUser c' existing => exact hf.elim
  | createUser c' =>
    obtain rfl := hc c' hf
    exact createUser_single hlaw h hf
  | findUserAgain c' => exact findUserAgain_single h hf
  | findRecord c' user => exact ⟨h, .refl w, findRecord_follows hf.1 hf.2⟩
  | findCurrency c' user => exact findCurrency_single h hf
  | insertWallet c' user =>
    obtain rfl := hc c' hf.1
    exact runInsertWallet_single h hf
  | findWinner c' user => exact ⟨h, .refl w, findWinner_follows hf.1⟩
  | findWallet walletId => exact findWallet_single h hf
  | provision c? wallet => exact runProvision_single h hf
  | activate c? wallet account => exact runActivate_single h hf htime
  | recordActivation c' active account =>
    obtain rfl := hc c' hf.1
    exact recordActivation_single h hf htime

end Steps

end NovaPay.Account
