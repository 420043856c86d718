import NovaPay.Account.Wallets

/-!
# Activations

The update of an activation sets the status of a wallet without a condition. As long as the row is pending
or active whenever a call writes it, the calls only ever make a pending wallet active, with the account
that the Ledger has for it.
-/

namespace NovaPay.Account

open Relational TransitionSystem

variable {config : Config} {choice : Choice} {w : World} {pc : Pc} {wallet row : Wallet}

/-! ### What a step writes -/

/-- The account stands in the Ledger as the one of the wallet. -/
def Provisioned (accounts : LedgerAccounts) (walletId ledgerAccountId : Uuid) : Prop :=
  ∃ account ∈ accounts.rows, account.walletId = some walletId ∧ account.id = ledgerAccountId

theorem provisionAccount_ok {accounts accounts' : LedgerAccounts} {accountId walletId : Uuid}
    {currency : Currency} {account : Ledger.LedgerAccount}
    (h : provisionAccount accounts accountId walletId currency = .ok (accounts', account)) :
    accounts.rows ⊆ accounts'.rows ∧ account ∈ accounts'.rows ∧ account.walletId = some walletId := by
  unfold provisionAccount at h
  split at h
  · next existing hfind =>
    split at h
    · cases h
      exact ⟨fun a ha => ha, (findBy_some hfind).1, (findBy_some hfind).2⟩
    · cases h
  · split at h
    · next hinsert =>
      cases h
      rw [Table.insertMany_ok hinsert]
      exact ⟨List.subset_append_left .., List.mem_append_right _ (List.mem_singleton_self _), rfl⟩
    · cases h

theorem provision_accounts {delivery : Delivery} {accounts : LedgerAccounts} {accountId walletId : Uuid}
    {currency : Currency} :
    accounts.rows ⊆ (provision delivery accounts accountId walletId currency).1.rows := by
  unfold provision
  split
  · next h => exact (provisionAccount_ok h).1
  · exact fun a ha => ha
  · next h => exact (provisionAccount_ok h).1
  · exact fun a ha => ha

theorem provision_ok {delivery : Delivery} {accounts : LedgerAccounts} {accountId walletId : Uuid}
    {currency : Currency} {account : Ledger.LedgerAccount}
    (h : (provision delivery accounts accountId walletId currency).2 = .ok account) :
    account ∈ (provision delivery accounts accountId walletId currency).1.rows ∧
      account.walletId = some walletId := by
  unfold provision at h ⊢
  split at h <;> cases h
  next hok => exact (provisionAccount_ok hok).2

theorem runProvision_accounts {accounts : LedgerAccounts} {c? : Option Create} :
    (runProvision choice accounts c? wallet).1 =
      (provision choice.delivery accounts choice.accountId wallet.id wallet.currency).1 := by
  unfold runProvision
  split <;> simp [*]

/-- The accounts of the Ledger stay. -/
theorem advance_accounts (config : Config) (choice : Choice) (w : World) (pc : Pc) :
    w.accounts.rows ⊆ (advance config choice w pc).1.accounts.rows := by
  cases pc with
  | provision c? wallet =>
    change w.accounts.rows ⊆ (runProvision choice w.accounts c? wallet).1.rows
    rw [runProvision_accounts]
    exact provision_accounts
  | _ => exact fun a ha => ha

theorem provisioned_activate {c? c?' : Option Create} {read : Wallet}
    {account account' : ProvisionedAccount}
    (h : provisioned c? read account = .activate c?' wallet account') :
    wallet = read ∧ account' = account := by
  unfold provisioned at h
  split at h
  · split at h
    · cases h
    · cases h
      exact ⟨rfl, rfl⟩
  · cases h
    exact ⟨rfl, rfl⟩

/-- An update of an activation is reached with the account that the Ledger has for the wallet. -/
theorem advance_provisioned {c? : Option Create} {account : ProvisionedAccount}
    (h : (advance config choice w pc).2 = .goto (.activate c? wallet account)) :
    Provisioned (advance config choice w pc).1.accounts wallet.id account.ledgerAccountId := by
  cases pc with
  | provision c? read =>
    change (runProvision choice w.accounts c? read).2 = _ at h
    change Provisioned (runProvision choice w.accounts c? read).1 _ _
    rw [runProvision_accounts]
    unfold runProvision at h
    split at h
    · next hprovision =>
      have hok := congrArg Prod.snd hprovision
      obtain ⟨rfl, rfl⟩ := provisioned_activate (Next.goto.inj h)
      exact ⟨_, (provision_ok hok).1, (provision_ok hok).2, rfl⟩
    · cases h
  | findUser c =>
    simp only [advance, runFindUser] at h
    split at h
    · split at h <;> cases h
    · cases h
  | refreshUser c existing =>
    simp only [advance, runRefreshUser] at h
    split at h
    · split at h <;> cases h
    · cases h
  | createUser c =>
    simp only [advance, runCreateUser] at h
    split at h <;> cases h
  | findUserAgain c =>
    simp only [advance, runFindUserAgain] at h
    split at h <;> cases h
  | findRecord c user =>
    simp only [advance, runFindRecord, resume] at h
    split at h
    · split at h <;> cases h
    · cases h
  | findCurrency c user =>
    simp only [advance, runFindCurrency] at h
    split at h <;> cases h
  | insertWallet c user =>
    simp only [advance, runInsertWallet] at h
    split at h <;> cases h
  | findWinner c user =>
    simp only [advance, runFindWinner, resume] at h
    split at h
    · split at h <;> cases h
    · cases h
  | findWallet walletId =>
    simp only [advance, runFindWallet] at h
    split at h <;> cases h
  | activate c? read account =>
    simp only [advance, runActivate] at h
    split at h
    · split at h
      · split at h <;> cases h
      · cases h
    · cases h
  | recordActivation c active account =>
    simp only [advance, runRecordActivation] at h
    split at h <;> cases h

/-- What a step does to the rows of the wallets. -/
inductive WalletsChange (choice : Choice) (db db' : Database) (pc : Pc) : Prop
  | same (h : db'.wallets = db.wallets)
  | inserted (c : Create) (user : User) (hpc : pc = .insertWallet c user)
      (h : db'.wallets.rows = db.wallets.rows ++ [newWallet choice c user])
  | activated (c? : Option Create) (wallet : Wallet) (account : ProvisionedAccount)
      (hpc : pc = .activate c? wallet account)
      (h : db'.wallets.rows = updateWhere (fun row => decide (row.id = wallet.id))
        (fun row => row.activated account.ledgerAccountId choice.now) db.wallets.rows)

theorem insertWallet_ok {db db' : Database} {c : Create} {user : User}
    (h : insertWallet config choice db c user = .ok db') :
    db'.users = db.users ∧ db'.wallets.rows = db.wallets.rows ++ [newWallet choice c user] ∧
      db'.records.rows = db.records.rows ++ [newRecord config choice c user] := by
  obtain ⟨wallets, hwallets, h⟩ := bind_eq_ok h
  obtain ⟨records, hrecords, h⟩ := bind_eq_ok h
  cases h
  exact ⟨rfl, Table.insertMany_ok hwallets, Table.insertMany_ok hrecords⟩

theorem advance_wallets (config : Config) (choice : Choice) (w : World) (pc : Pc) :
    WalletsChange choice w.db (advance config choice w pc).1.db pc := by
  cases pc with
  | refreshUser c existing =>
    refine .same ?_
    change (runRefreshUser config choice w.db c existing).1.wallets = _
    unfold runRefreshUser
    split
    · split <;> rfl
    · rfl
  | createUser c =>
    refine .same ?_
    change (runCreateUser config choice w.db c).1.wallets = _
    unfold runCreateUser
    split <;> rfl
  | insertWallet c user =>
    change WalletsChange choice w.db (runInsertWallet config choice w.db c user).1 _
    unfold runInsertWallet
    split
    · next h => exact .inserted c user rfl (insertWallet_ok h).2.1
    · exact .same rfl
    · exact .same rfl
  | activate c? wallet account =>
    change WalletsChange choice w.db (runActivate choice w.db c? wallet account).1 _
    unfold runActivate
    split
    · next h =>
      split
      · exact .activated c? wallet account rfl (Table.updateMany_ok h).1
      · exact .same rfl
    · exact .same rfl
  | _ => exact .same rfl

/-! ### The status of a wallet -/

/-- What the calls may do to a row, where `Provisioned` is read in the accounts at the end. -/
structure StatusKept (accounts : LedgerAccounts) (wallet row : Wallet) : Prop where
  id : row.id = wallet.id
  account : row.ledgerAccountId = wallet.ledgerAccountId ∨
    ∃ accountId, row.ledgerAccountId = some accountId ∧ Provisioned accounts wallet.id accountId
  status : row.status = wallet.status ∨ (wallet.status = .pending ∧ row.status = .active ∧
    ∃ accountId, row.ledgerAccountId = some accountId ∧ Provisioned accounts wallet.id accountId)

theorem StatusKept.refl (accounts : LedgerAccounts) (wallet : Wallet) : StatusKept accounts wallet wallet :=
  ⟨rfl, .inl rfl, .inl rfl⟩

theorem Provisioned.mono {accounts accounts' : LedgerAccounts} {walletId ledgerAccountId : Uuid}
    (h : Provisioned accounts walletId ledgerAccountId) (hsub : accounts.rows ⊆ accounts'.rows) :
    Provisioned accounts' walletId ledgerAccountId := by
  obtain ⟨account, ha, hwallet, hid⟩ := h
  exact ⟨account, hsub ha, hwallet, hid⟩

theorem StatusKept.trans {accounts accounts' : LedgerAccounts} {wallet row row' : Wallet}
    (h : StatusKept accounts wallet row) (k : StatusKept accounts' row row')
    (hsub : accounts.rows ⊆ accounts'.rows) : StatusKept accounts' wallet row' := by
  have hlater : ∀ {accountId}, row.ledgerAccountId = some accountId →
      Provisioned accounts wallet.id accountId →
      ∃ accountId, row'.ledgerAccountId = some accountId ∧ Provisioned accounts' wallet.id accountId := by
    intro accountId hrow hp
    obtain hsame | hnew := k.account
    · exact ⟨accountId, hsame.trans hrow, hp.mono hsub⟩
    · rwa [h.id] at hnew
  refine ⟨k.id.trans h.id, ?_, ?_⟩
  · obtain hsame | ⟨accountId, hrow, hp⟩ := h.account
    · rw [← hsame, ← h.id]
      exact k.account
    · exact .inr (hlater hrow hp)
  · obtain hsame | ⟨hpending, hactive, accountId, hrow, hp⟩ := h.status
    · rw [← hsame, ← h.id]
      exact k.status
    · obtain hsame' | ⟨hpending', -, -⟩ := k.status
      · exact .inr ⟨hpending, hsame'.trans hactive, hlater hrow hp⟩
      · rw [hactive] at hpending'
        cases hpending'

def WalletsKept (w w' : World) : Prop :=
  w.accounts.rows ⊆ w'.accounts.rows ∧
    ∀ wallet ∈ w.db.wallets.rows, ∃ row ∈ w'.db.wallets.rows, StatusKept w'.accounts wallet row

/-- The row that a call is about to activate is pending or active. -/
def ActivatesOpen (db : Database) : Pc → Prop
  | .activate _ wallet _ => ∀ row ∈ db.wallets.rows, row.id = wallet.id →
    row.status = .pending ∨ row.status = .active
  | _ => True

theorem advance_kept (hopen : ActivatesOpen w.db pc)
    (hprovisioned : ∀ c? wallet account, pc = .activate c? wallet account →
      Provisioned w.accounts wallet.id account.ledgerAccountId) :
    WalletsKept w (advance config choice w pc).1 := by
  refine ⟨advance_accounts .., fun wallet hw => ?_⟩
  obtain h | ⟨c, user, -, h⟩ | ⟨c?, read, account, rfl, h⟩ :=
    advance_wallets config choice w pc
  · rw [h]
    exact ⟨wallet, hw, .refl _ _⟩
  · rw [h]
    exact ⟨wallet, List.mem_append_left _ hw, .refl _ _⟩
  · rw [h]
    refine exists_updateWhere (StatusKept.refl _) (fun row hr hid => ?_) wallet hw
    have hid : row.id = read.id := of_decide_eq_true hid
    have hp := (hprovisioned c? read account rfl).mono (advance_accounts config choice w
      (.activate c? read account))
    rw [← hid] at hp
    refine ⟨rfl, .inr ⟨_, rfl, hp⟩, ?_⟩
    obtain hpending | hactive := hopen row hr hid
    · exact .inr ⟨hpending, rfl, _, rfl, hp⟩
    · exact .inl hactive.symm

variable {ι : Type} [DecidableEq ι] {s s' : State ι} {a : Action ι}

/-- Every call that is about to activate a wallet has the account of the Ledger for it. -/
def HoldsAccounts (s : State ι) : Prop :=
  ∀ i request c? wallet account, s.calls i = some ⟨request, .running (.activate c? wallet account)⟩ →
    Provisioned s.world.accounts wallet.id account.ledgerAccountId

theorem HoldsAccounts.setCall {i : ι} {call : Call} (h : HoldsAccounts s)
    (hcall : ∀ c? wallet account, call.progress = .running (.activate c? wallet account) →
      Provisioned s.world.accounts wallet.id account.ledgerAccountId) :
    HoldsAccounts (s.setCall i call) := by
  intro j request c? wallet account hj
  by_cases hij : j = i
  · rw [hij, State.setCall_self] at hj
    cases hj
    exact hcall _ _ _ rfl
  · rw [State.setCall_of_ne hij] at hj
    exact h j _ _ _ _ hj

theorem holdsAccounts_step (h : HoldsAccounts s) (hs : step config s a = some s') :
    HoldsAccounts s' := by
  cases a with
  | start i request =>
    obtain ⟨-, rfl⟩ := step_start hs
    refine h.setCall fun c? wallet account hpc => ?_
    cases request with
    | create c =>
      simp only [Request.entry] at hpc
      split at hpc <;> cases hpc
    | reconcile walletId => cases hpc
  | run i choice =>
    obtain ⟨request, pc, hcall, rfl⟩ := step_run hs
    refine HoldsAccounts.setCall ?_ fun c? wallet account hpc => ?_
    · intro j request' c? wallet account hj
      exact (h j _ _ _ _ hj).mono (advance_accounts ..)
    · refine @advance_provisioned _ _ _ _ _ c? _ ?_
      cases hnext : (advance config choice s.world pc).2 with
      | goto pc' =>
        rw [hnext] at hpc
        cases hpc
        rfl
      | answer outcome =>
        rw [hnext] at hpc
        cases hpc
  | stop i =>
    obtain ⟨request, pc, hcall, rfl⟩ := step_stop hs
    refine h.setCall fun c? wallet account hpc => ?_
    cases hpc
  | setStatus walletId status now =>
    obtain ⟨wallets, -, rfl⟩ := step_setStatus hs
    exact h

theorem holdsAccounts_of_reachable (h : (system ι config).Reachable s) : HoldsAccounts s := by
  refine System.Reachable.invariant (P := HoldsAccounts) ?_ (fun s a s' _ => holdsAccounts_step) h
  intro i request c? wallet account hcall
  cases hcall

/-- A step of the calls, which writes the status of pending and active wallets only. -/
def WritesOpen (s : State ι) : Action ι → Prop
  | .run i _ => ∀ request pc, s.calls i = some ⟨request, .running pc⟩ → ActivatesOpen s.world.db pc
  | .setStatus _ _ _ => False
  | _ => True

theorem walletsKept_step (hr : (system ι config).Reachable s) (hopen : WritesOpen s a)
    (hs : step config s a = some s') : WalletsKept s.world s'.world := by
  have hsame : WalletsKept s.world s.world := ⟨fun a ha => ha, fun wallet hw => ⟨wallet, hw, .refl _ _⟩⟩
  cases a with
  | start i request =>
    obtain ⟨-, rfl⟩ := step_start hs
    exact hsame
  | run i choice =>
    obtain ⟨request, pc, hcall, rfl⟩ := step_run hs
    refine advance_kept (hopen request pc hcall) fun c? wallet account hpc => ?_
    subst hpc
    exact holdsAccounts_of_reachable hr i _ _ _ _ hcall
  | stop i =>
    obtain ⟨request, pc, hcall, rfl⟩ := step_stop hs
    exact hsame
  | setStatus walletId status now => exact hopen.elim

/-- In a run of calls that write the status of pending and active wallets only, a wallet keeps its status
or becomes active from pending, and then with the account that the Ledger has for it. -/
theorem only_pending_activated (hr : (system ι config).Reachable s)
    (h : (system ι config).StepsBy WritesOpen s s') (hw : wallet ∈ s.world.db.wallets.rows) :
    ∃ row ∈ s'.world.db.wallets.rows, row.id = wallet.id ∧ (row.status = wallet.status ∨
      (wallet.status = .pending ∧ row.status = .active ∧ ∃ account ∈ s'.world.accounts.rows,
        account.walletId = some wallet.id ∧ row.ledgerAccountId = some account.id)) := by
  suffices hkept : (system ι config).Reachable s' ∧ WalletsKept s.world s'.world by
    obtain ⟨row, hrow, hk⟩ := hkept.2.2 wallet hw
    refine ⟨row, hrow, hk.id, hk.status.imp_right ?_⟩
    rintro ⟨hpending, hactive, accountId, hid, account, ha, hwallet, rfl⟩
    exact ⟨hpending, hactive, account, ha, hwallet, hid⟩
  clear hw
  induction h with
  | refl => exact ⟨hr, fun a ha => ha, fun wallet hw => ⟨wallet, hw, .refl _ _⟩⟩
  | tail _ hlast ih =>
    obtain ⟨a, hopen, ha⟩ := hlast
    obtain ⟨hreach, hsub, hrows⟩ := ih
    have hstep := walletsKept_step hreach hopen ha
    refine ⟨hreach.next ha, fun a ha => hstep.1 (hsub ha), fun wallet hw => ?_⟩
    obtain ⟨row, hrow, hk⟩ := hrows wallet hw
    obtain ⟨row', hrow', hk'⟩ := hstep.2 row hrow
    exact ⟨row', hrow', hk.trans hk' hstep.1⟩

/-! ### Runs -/

def activatesOpen (db : Database) : Pc → Bool
  | .activate _ wallet _ => db.wallets.rows.all fun row => decide (row.id ≠ wallet.id) ||
    decide (row.status = .pending) || decide (row.status = .active)
  | _ => true

def writesOpen (s : State ι) : Action ι → Bool
  | .run i _ =>
    match s.calls i with
    | some ⟨_, .running pc⟩ => activatesOpen s.world.db pc
    | _ => true
  | .setStatus _ _ _ => false
  | _ => true

theorem activatesOpen_sound {db : Database} (h : activatesOpen db pc = true) : ActivatesOpen db pc := by
  cases pc with
  | activate c? wallet account =>
    intro row hr hid
    simp only [activatesOpen, List.all_eq_true, Bool.or_eq_true, decide_eq_true_eq] at h
    obtain (hne | hpending) | hactive := h row hr
    · exact absurd hid hne
    · exact .inl hpending
    · exact .inr hactive
  | _ => trivial

omit [DecidableEq ι] in
theorem writesOpen_sound (h : writesOpen s a = true) : WritesOpen s a := by
  cases a with
  | run i choice =>
    intro request pc hcall
    simp only [writesOpen, hcall] at h
    exact activatesOpen_sound h
  | setStatus walletId status now => cases h
  | _ => trivial

/-- The text that the id of an identity's event is made from. -/
def identityText (legalName email phone : String) : List Char :=
  "identity.updated\x00".toList ++ (uuidText 1).toList ++ "\x00\x7b\"legalName\":".toList ++ JsonText.quote legalName ++
    ",\"email\":".toList ++ JsonText.quote email ++ ",\"phone\":".toList ++ phone.toList ++
    ",\"postalAddress\":null,\"governmentId\":null\x7d".toList

/-- SHA-256 of what is hashed in the runs below and in those of the later modules. -/
def knownDigests : List (List Char × Digest) := [
  ("\x7b\"currency\":\"USD\",\"label\":\"Everyday\"\x7d".toList,
    0x44e13d6c68d759e37e15bac7f5f738098140f2437b1ab1589b274d73c97a23cf),
  ("wallet.activated\x00".toList ++ (uuidText 5).toList,
    0xa07f24e006ddfb9101ce72c8fd156b04accea780473b3cbbdab33767cdcff14c),
  (identityText "Ann Example" "ann@example.com" "null",
    0x152881f7fff742f3c8f484aedac8194b7f26b97dacdf7b65f204d1cab2c90485),
  (identityText "Ann Other" "ann@example.com" "null",
    0x8849f297c50781ab77df8ec08a8501df27c3e6ff5dc42e79566ee8faf70e655b),
  (identityText "Ann Other" "ann@other.example" "\"+49 30 1234567\"",
    0x2df5489c5c4a6792f74fd2ce9835ef8b98edbc20275bb82007464068aa26b050),
  (identityText "J Example" "j\u030C@example.com" "null",
    0x1dc38198b0600e3c41a1d50d7ad1923bb3626c3af91c5c139b49f9056b209717)]

/-- HMAC-SHA-256 of their emails under the key of `plainConfig`. -/
def knownMacs : List (String × Digest) := [
  ("ann@example.com", 0xb498d5c00cc6332ef849eaaa1d5cbe3e234fad03cf8318f9f467226d9c445a84),
  ("ann@other.example", 0x715230054964c85f297edff00d789311c2b6c6abdf7f97aef442fb35170a9ad9),
  ("j\u030C@example.com", 0xcc2c0c712faf2a79acf3847099da06da71c188190102c149cfd3b5f3fbdaf7d4),
  ("ǰ@example.com", 0x6c811756083807d2da814629bf2f4efd687dbcfacac6a367fc1f0c5f49e04dbe)]

/-- A cipher that leaves the text as it is. -/
def plainCrypto : Crypto where
  sha256 := digestOf knownDigests
  hmacSha256 := macWith (knownMacs.map fun mac => ((List.replicate 32 2, bytes mac.1), mac.2))
  encryptAesGcm := fun _ _ plaintext _ => (plaintext, List.replicate 16 0)
  decryptAesGcm := fun _ _ ciphertext _ _ => some ciphertext

theorem plainCrypto_lawful : plainCrypto.Lawful := ⟨fun _ _ _ _ => rfl, fun _ _ _ _ => rfl, fun _ _ _ _ => rfl,
  fun _ _ => length_digestBytes _⟩

theorem fitsColumn_v1 : Varchar.fitsColumn 40 "v1" = true := by decide

def plainConfig : Config where
  crypto := plainCrypto
  keyConfiguration := ⟨"v1", fun _ => some (List.replicate 32 1), List.replicate 32 2, rfl, fitsColumn_v1⟩
  nfkc := id
  toLowerCase := id

/-- A choice of everything that a step may draw, by its time. -/
def drawn (now : Date) : Choice where
  id := now
  now := now
  nonces := ⟨⟨List.replicate 32 0, rfl⟩, ⟨List.replicate 12 0, rfl⟩, ⟨List.replicate 12 0, rfl⟩⟩
  delivery := .answered
  accountId := now
  available := ⟨0, 8⟩
  version := 0

/-- Steps of a call from a time on. -/
def steps (i now count : ℕ) : List (Action ℕ) := (List.range' now count).map fun t => .run i (drawn t)

def openWallet : Create := ⟨⟨"client-a", by decide⟩, "wallet-1", ⟨(20, 18, 3), some "Everyday"⟩⟩

/-- The wallet is created. -/
def createdRun : List (Action ℕ) := .start 0 (.create openWallet) :: steps 0 1 5

/-- The wallet is activated, the call is replayed, and the wallet is reconciled. -/
def activatedRun : List (Action ℕ) :=
  steps 0 6 3 ++ .start 1 (.create openWallet) :: steps 1 20 4 ++ .start 2 (.reconcile 5) :: steps 2 30 3

/-- The theorem for `activatedRun` after `createdRun`. -/
theorem only_pending_activated_activatedRun : ∃ s s', (system ℕ plainConfig).run
      (system ℕ plainConfig).init createdRun = some s ∧
    (system ℕ plainConfig).run s activatedRun = some s' ∧
    ∃ wallet ∈ s.world.db.wallets.rows, wallet.status = .pending ∧
      ∃ row ∈ s'.world.db.wallets.rows, row.id = wallet.id ∧ (row.status = wallet.status ∨
        (wallet.status = .pending ∧ row.status = .active ∧ ∃ account ∈ s'.world.accounts.rows,
          account.walletId = some wallet.id ∧ row.ledgerAccountId = some account.id)) := by
  have hrun : (((system ℕ plainConfig).run (system ℕ plainConfig).init createdRun).bind fun s =>
      ((system ℕ plainConfig).runWhere writesOpen s activatedRun).map fun _ =>
        s.world.db.wallets.rows.map Wallet.status) = some [.pending] := by decide +kernel
  obtain ⟨s, hs, hrun⟩ := Option.bind_eq_some_iff.mp hrun
  obtain ⟨s', hs', hrows⟩ := Option.map_eq_some_iff.mp hrun
  obtain ⟨wallet, hw, hstatus⟩ := List.mem_map.mp (hrows ▸ List.mem_cons_self)
  refine ⟨s, s', hs, System.run_of_runWhere hs', wallet, hw, hstatus, ?_⟩
  exact only_pending_activated (System.reachable_of_run hs)
    (System.stepsBy_of_runWhere (fun _ _ => writesOpen_sound) hs') hw

/-- A step of the calls. -/
def Action.ofCall : Action ι → Bool
  | .setStatus _ _ _ => false
  | _ => true

/-- A frozen wallet is active again after it was reconciled. -/
theorem frozen_wallet_reactivated : ¬ ∀ (s s' : State ℕ) (wallet : Wallet),
    (system ℕ plainConfig).Reachable s →
    (system ℕ plainConfig).StepsBy (fun _ a => a.ofCall = true) s s' →
    wallet ∈ s.world.db.wallets.rows →
    ∃ row ∈ s'.world.db.wallets.rows, row.id = wallet.id ∧ (row.status = wallet.status ∨
      (wallet.status = .pending ∧ row.status = .active ∧ ∃ account ∈ s'.world.accounts.rows,
        account.walletId = some wallet.id ∧ row.ledgerAccountId = some account.id)) := by
  intro hall
  have hrun : (((system ℕ plainConfig).run (system ℕ plainConfig).init
      (createdRun ++ steps 0 6 3 ++ [.setStatus 5 .frozen 10])).bind fun s =>
      ((system ℕ plainConfig).runWhere (fun _ a => a.ofCall) s
        (.start 1 (.reconcile 5) :: steps 1 20 3)).map fun s' =>
          (s.world.db.wallets.rows.map Wallet.status, s'.world.db.wallets.rows.map Wallet.status)) =
      some ([.frozen], [.active]) := by decide +kernel
  obtain ⟨s, hs, hrun⟩ := Option.bind_eq_some_iff.mp hrun
  obtain ⟨s', hs', heq⟩ := Option.map_eq_some_iff.mp hrun
  obtain ⟨hbefore, hafter⟩ := Prod.mk.inj heq
  obtain ⟨wallet, hw, hstatus⟩ := List.mem_map.mp (hbefore ▸ List.mem_cons_self)
  obtain ⟨row, hr, -, hkept⟩ := hall s s' wallet (System.reachable_of_run hs)
    (System.stepsBy_of_runWhere (fun _ _ h => h) hs') hw
  have hmem := List.mem_map_of_mem (f := Wallet.status) hr
  rw [hafter, List.mem_singleton] at hmem
  obtain hsame | ⟨hpending, -⟩ := hkept
  · rw [hmem, hstatus] at hsame
    cases hsame
  · rw [hstatus] at hpending
    cases hpending

end NovaPay.Account
