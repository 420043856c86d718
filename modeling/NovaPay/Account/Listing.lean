import NovaPay.Account.Retries
import NovaPay.Ledger.Lookups
import NovaPay.Library.Keyset

/-!
# The wallets of a user

`WalletService.list` reads the wallets of a user and asks the Ledger for the balances of the provisioned
ones in one request. The Ledger takes at most a hundred ids at a time, and a user may have a wallet for
every text of three letters.
-/

namespace NovaPay.Account

open DecimalArithmetic Relational TransitionSystem

/-- The balance of a `WalletResponseDto`. -/
structure ListedBalance where
  available : Text
  currency : Currency
  version : ℕ
deriving DecidableEq, Repr

/-- `WalletResponseDto` with a balance that may be null. -/
structure ListedWallet where
  id : Uuid
  currency : Currency
  label : Option String
  status : WalletStatus
  ledgerAccountId : Option Uuid
  balance : Option ListedBalance
deriving DecidableEq, Repr

variable {db : Database} {ledger : Ledger.Database} {userId : Uuid} {wallet : Wallet}
  {wallets : List Wallet}

/-- `orderBy: [{ createdAt: 'asc' }, { id: 'asc' }]` -/
def creation (wallet : Wallet) : ℕ ×ₗ ℕ := toLex (wallet.createdAt, wallet.id)

/-- The wallets that `list` reads. -/
def walletsOf (db : Database) (userId : Uuid) : List Wallet :=
  Keyset.rest creation none (db.wallets.rows.filter fun w => decide (w.userId = userId))

/-- The ids of the wallets that have an account. -/
def activeIds (wallets : List Wallet) : List Uuid :=
  (wallets.filter fun w => w.ledgerAccountId.isSome).map Wallet.id

/-- `LedgerClient.getBalances`: a refusal other than 409 is passed on as 503. -/
def getBalances (ledger : Ledger.Database) (walletIds : List Uuid) :
    Except HttpError (List Ledger.LedgerBalance) :=
  if walletIds = [] then .ok []
  else
    match Ledger.queryBalances ledger (walletIds.map UuidText.ofUuid) with
    | .ok balances => .ok balances
    | .error error => if error.status = 409 then .error error else .error ledgerUnavailable

def listedBalance (balance : Ledger.LedgerBalance) : ListedBalance :=
  ⟨balance.available, balance.currency, balance.version⟩

def listedWallet (wallet : Wallet) (balance : Option Ledger.LedgerBalance) : ListedWallet where
  id := wallet.id
  currency := wallet.currency
  label := wallet.label
  status := wallet.status
  ledgerAccountId := wallet.ledgerAccountId
  balance := balance.map listedBalance

/-- The entry of the map of balances under a wallet's id. -/
def balanceOf (balances : List Ledger.LedgerBalance) (walletId : Uuid) : Option Ledger.LedgerBalance :=
  balances.find? fun b => decide (b.walletId = walletId)

/-- `WalletService.list` for the user that `ensureUser` returns; the Ledger is available. -/
def list (db : Database) (ledger : Ledger.Database) (userId : Uuid) :
    Except HttpError (List ListedWallet) := do
  let wallets := walletsOf db userId
  let balances ← getBalances ledger (activeIds wallets)
  return wallets.map fun w => listedWallet w (balanceOf balances w.id)

/-- Every provisioned wallet has its account in the Ledger, and every account its balance. -/
structure Linked (db : Database) (ledger : Ledger.Database) : Prop where
  account : ∀ wallet ∈ db.wallets.rows, ∀ accountId, wallet.ledgerAccountId = some accountId →
    ∃ a ∈ ledger.accounts.rows, a.walletId = some wallet.id ∧ a.id = accountId
  balance : ∀ a ∈ ledger.accounts.rows, ∃ b, ledger.findBalance a.id = some b

/-- The entry of a wallet: the balance of its account, or null where it has none. -/
structure Entry (ledger : Ledger.Database) (wallet : Wallet) (entry : ListedWallet) : Prop where
  columns : entry = { listedWallet wallet none with balance := entry.balance }
  provisioned : ∀ accountId, wallet.ledgerAccountId = some accountId → ∃ a ∈ ledger.accounts.rows,
    ∃ b, a.walletId = some wallet.id ∧ a.id = accountId ∧ ledger.findBalance a.id = some b ∧
      entry.balance = some ⟨toFixed 8 b.availableBalance.value, a.currency, b.version⟩
  unprovisioned : wallet.ledgerAccountId = none → entry.balance = none

/-- The answer of `list`: an entry for each wallet of the user, in the order of their creation. -/
def ListsWallets (db : Database) (ledger : Ledger.Database) (userId : Uuid) : Prop :=
  ∃ wallets entries, wallets.Perm (db.wallets.rows.filter fun w => decide (w.userId = userId)) ∧
    wallets.Pairwise (fun v w => creation v ≤ creation w) ∧ list db ledger userId = .ok entries ∧
    List.Forall₂ (Entry ledger) wallets entries

theorem walletsOf_perm :
    (walletsOf db userId).Perm (db.wallets.rows.filter fun w => decide (w.userId = userId)) :=
  Keyset.rest_none_perm

theorem mem_walletsOf (h : wallet ∈ walletsOf db userId) : wallet ∈ db.wallets.rows :=
  (List.mem_filter.mp (walletsOf_perm.mem_iff.mp h)).1

theorem mem_activeIds {id : Uuid} : id ∈ activeIds wallets ↔
    ∃ w ∈ wallets, (∃ accountId, w.ledgerAccountId = some accountId) ∧ w.id = id := by
  simp only [activeIds, List.mem_map, List.mem_filter, Option.isSome_iff_exists, and_assoc]

theorem activeIds_nodup : (activeIds (walletsOf db userId)).Nodup := by
  have hrows : ((db.wallets.rows.filter fun w => decide (w.userId = userId)).map Wallet.id).Nodup :=
    (uniqueBy_iff.mp (wallets_indexed db).1).sublist (List.Sublist.map Wallet.id List.filter_sublist)
  have hread := (walletsOf_perm.map Wallet.id).nodup_iff.mpr hrows
  exact hread.sublist (List.Sublist.map Wallet.id List.filter_sublist)

/-- The accounts of the wallets of a user are counted and found. -/
theorem Linked.counted (h : Linked db ledger) :
    Ledger.Counted ledger ((activeIds (walletsOf db userId)).map UuidText.ofUuid) := by
  refine ⟨?_, fun id hid => ?_⟩
  · rw [List.map_map]
    have hvalue : UuidText.value ∘ UuidText.ofUuid = id := rfl
    rw [hvalue, List.map_id]
    exact activeIds_nodup
  · obtain ⟨walletId, hactive, rfl⟩ := List.mem_map.mp hid
    obtain ⟨w, hw, ⟨accountId, haccount⟩, rfl⟩ := mem_activeIds.mp hactive
    obtain ⟨a, ha, hwallet, -⟩ := h.account w (mem_walletsOf hw) accountId haccount
    exact ⟨a, ha, hwallet⟩

/-- A hundred balances at most come back, one for each id. -/
theorem getBalances_of_le (h : Linked db ledger) (hle : (activeIds (walletsOf db userId)).length ≤ 100) :
    ∃ balances, getBalances ledger (activeIds (walletsOf db userId)) = .ok balances ∧
      List.Forall₂ (fun id b => Ledger.IsBalance ledger (.ofUuid id) b)
        (activeIds (walletsOf db userId)) balances := by
  by_cases hnil : activeIds (walletsOf db userId) = []
  · rw [hnil]
    exact ⟨[], rfl, .nil⟩
  · have hvalid : Ledger.validQuery ((activeIds (walletsOf db userId)).map UuidText.ofUuid) = true := by
      have hpos := List.length_pos_iff.mpr hnil
      simp only [Ledger.validQuery, List.length_map, Bool.and_eq_true, decide_eq_true_eq]
      omega
    have hlower : ∀ id ∈ (activeIds (walletsOf db userId)).map UuidText.ofUuid, id.upper = 0 := by
      intro id hid
      obtain ⟨walletId, -, rfl⟩ := List.mem_map.mp hid
      rfl
    obtain ⟨bs, hok, hbs⟩ := Ledger.balances_of_lower h.balance h.counted hlower
    refine ⟨bs, ?_, List.forall₂_map_left_iff.mp hbs⟩
    simp only [getBalances, if_neg hnil, Ledger.queryBalances, hvalid, if_true, hok]

/-- More than a hundred ids are refused before the Ledger looks at them. -/
theorem getBalances_of_lt {walletIds : List Uuid} (hlt : 100 < walletIds.length) :
    getBalances ledger walletIds = .error ledgerUnavailable := by
  have hnil : walletIds ≠ [] := List.length_pos_iff.mp (by omega)
  have hinvalid : Ledger.validQuery (walletIds.map UuidText.ofUuid) = false := by
    rw [Ledger.validQuery, List.length_map, decide_eq_false (by omega : ¬ walletIds.length ≤ 100),
      Bool.and_false]
  simp [getBalances, hnil, Ledger.queryBalances, hinvalid, Ledger.validationError]

/-- The map of balances has the balance of each id that it was made for, and of no other. -/
theorem balanceOf_of_mem {ids : List Uuid} {balances : List Ledger.LedgerBalance}
    (h : List.Forall₂ (fun id b => Ledger.IsBalance ledger (.ofUuid id) b) ids balances) {id : Uuid}
    (hid : id ∈ ids) : ∃ b, balanceOf balances id = some b ∧ Ledger.IsBalance ledger (.ofUuid id) b := by
  induction h with
  | nil => cases hid
  | @cons id' b ids balances hb _ ih =>
    have hwallet : b.walletId = id' := by
      obtain ⟨a, -, row, -, -, hrow⟩ := hb
      rw [hrow]
      rfl
    by_cases heq : id' = id
    · subst heq
      exact ⟨b, by simp [balanceOf, hwallet], hb⟩
    · obtain ⟨b', hfind, hb'⟩ := ih ((List.mem_cons.mp hid).resolve_left (Ne.symm heq))
      refine ⟨b', ?_, hb'⟩
      rw [balanceOf, List.find?_cons_of_neg (by simp [hwallet, heq])]
      exact hfind

theorem balanceOf_of_not_mem {ids : List Uuid} {balances : List Ledger.LedgerBalance}
    (h : List.Forall₂ (fun id b => Ledger.IsBalance ledger (.ofUuid id) b) ids balances) {id : Uuid}
    (hid : id ∉ ids) : balanceOf balances id = none := by
  rw [balanceOf, List.find?_eq_none]
  intro b hb heq
  obtain ⟨id', hid', a, -, row, -, -, rfl⟩ := exists_of_forall₂ h b hb
  have hsame : id' = id := of_decide_eq_true heq
  exact hid (hsame ▸ hid')

theorem entry_of_balance (h : Linked db ledger) {balances : List Ledger.LedgerBalance}
    (hb : List.Forall₂ (fun id b => Ledger.IsBalance ledger (.ofUuid id) b)
      (activeIds (walletsOf db userId)) balances) (hw : wallet ∈ walletsOf db userId) :
    Entry ledger wallet (listedWallet wallet (balanceOf balances wallet.id)) := by
  refine ⟨rfl, fun accountId haccount => ?_, fun hnone => ?_⟩
  · obtain ⟨b, hfind, a, ha, row, hwallet, hrow, rfl⟩ :=
      balanceOf_of_mem hb (mem_activeIds.mpr ⟨wallet, hw, ⟨accountId, haccount⟩, rfl⟩)
    obtain ⟨a', ha', hwallet', hid'⟩ := h.account wallet (mem_walletsOf hw) accountId haccount
    obtain rfl := eq_of_uniqueWhere ledger.wallet_ids ha ha' hwallet hwallet'
    refine ⟨a, ha, row, hwallet, hid', hrow, ?_⟩
    rw [listedWallet, hfind]
    rfl
  · have hid : wallet.id ∉ activeIds (walletsOf db userId) := by
      intro hmem
      obtain ⟨w, hw', ⟨accountId, haccount⟩, hid⟩ := mem_activeIds.mp hmem
      obtain rfl := eq_of_uniqueBy (wallets_indexed db).1 (mem_walletsOf hw') (mem_walletsOf hw) hid
      rw [hnone] at haccount
      cases haccount
    rw [listedWallet, balanceOf_of_not_mem hb hid]
    rfl

/-- The list is answered exactly as long as at most a hundred wallets of the user are provisioned. -/
theorem listsWallets_iff (h : Linked db ledger) : ListsWallets db ledger userId ↔
    (activeIds (db.wallets.rows.filter fun w => decide (w.userId = userId))).length ≤ 100 := by
  have hlength : (activeIds (db.wallets.rows.filter fun w => decide (w.userId = userId))).length =
      (activeIds (walletsOf db userId)).length := by
    have hperm : (walletsOf db userId).Perm (db.wallets.rows.filter fun w => decide (w.userId = userId)) :=
      walletsOf_perm
    exact ((hperm.filter _).map Wallet.id).length_eq.symm
  rw [hlength]
  constructor
  · rintro ⟨wallets, entries, -, -, hok, -⟩
    by_contra hlt
    rw [list, getBalances_of_lt (by omega)] at hok
    cases hok
  · intro hle
    obtain ⟨balances, hok, hb⟩ := getBalances_of_le h hle
    refine ⟨walletsOf db userId,
      (walletsOf db userId).map fun w => listedWallet w (balanceOf balances w.id),
      walletsOf_perm, Keyset.sorted_rest, ?_, ?_⟩
    · rw [list, hok]
      rfl
    · rw [List.forall₂_map_right_iff, List.forall₂_same]
      exact fun w hw => entry_of_balance h hb hw

/-! ### The accounts of the wallets -/

section Reachable

variable {ι κ : Type} [DecidableEq ι] [DecidableEq κ] {config : Config} {s s' : State ι} {a : Action ι}

/-- Every wallet with an account has the one that the Ledger has for it. -/
def HasAccounts (w : World) : Prop :=
  ∀ wallet ∈ w.db.wallets.rows, ∀ accountId, wallet.ledgerAccountId = some accountId →
    Provisioned w.accounts wallet.id accountId

theorem advance_hasAccounts {w : World} {choice : Choice} {pc : Pc} (h : HasAccounts w)
    (hprovisioned : ∀ c? wallet account, pc = .activate c? wallet account →
      Provisioned w.accounts wallet.id account.ledgerAccountId) :
    HasAccounts (advance config choice w pc).1 := by
  have hgrows := advance_accounts config choice w pc
  intro wallet hw accountId haccount
  obtain hsame | ⟨c, user, -, hrows⟩ | ⟨c?, read, account, rfl, hrows⟩ :=
    advance_wallets config choice w pc
  · rw [hsame] at hw
    exact (h wallet hw accountId haccount).mono hgrows
  · rw [hrows, List.mem_append, List.mem_singleton] at hw
    rcases hw with hw | rfl
    · exact (h wallet hw accountId haccount).mono hgrows
    · cases haccount
  · rw [hrows, mem_updateWhere] at hw
    rcases hw with ⟨hw, -⟩ | ⟨row, -, hid, rfl⟩
    · exact (h wallet hw accountId haccount).mono hgrows
    · cases haccount
      have hid : row.id = read.id := of_decide_eq_true hid
      change Provisioned _ row.id _
      rw [hid]
      exact (hprovisioned c? read account rfl).mono hgrows

theorem hasAccounts_step (hr : (system ι config).Reachable s) (h : HasAccounts s.world)
    (hs : step config s a = some s') : HasAccounts s'.world := by
  cases a with
  | start i request =>
    obtain ⟨-, rfl⟩ := step_start hs
    exact h
  | run i choice =>
    obtain ⟨request, pc, hcall, rfl⟩ := step_run hs
    refine advance_hasAccounts h fun c? wallet account hpc => ?_
    subst hpc
    exact holdsAccounts_of_reachable hr i _ _ _ _ hcall
  | stop i =>
    obtain ⟨request, pc, hcall, rfl⟩ := step_stop hs
    exact h
  | setStatus walletId status now =>
    obtain ⟨wallets, hrows, rfl⟩ := step_setStatus hs
    intro wallet hw accountId haccount
    change wallet ∈ wallets.rows at hw
    rw [hrows, mem_updateWhere] at hw
    rcases hw with ⟨hw, -⟩ | ⟨row, hr, -, rfl⟩
    · exact h wallet hw accountId haccount
    · exact h row hr accountId haccount

/-- The wallets of every run are linked to a Ledger that has the accounts it provisioned. -/
theorem linked_of_reachable {ledgerConfig : Ledger.Config} {t : Ledger.State κ}
    (hr : (system ι config).Reachable s) (ht : (Ledger.system κ ledgerConfig).Reachable t)
    (hsub : s.world.accounts.rows ⊆ t.db.accounts.rows) : Linked s.world.db t.db := by
  have haccounts : HasAccounts s.world :=
    System.Reachable.invariant (P := fun s => HasAccounts s.world) (fun _ h => by cases h)
      (fun _ _ _ hr h hs => hasAccounts_step hr h hs) hr
  refine ⟨fun wallet hw accountId haccount => ?_, (Ledger.sound_of_reachable ht).balance⟩
  obtain ⟨account, ha, hwallet, hid⟩ := haccounts wallet hw accountId haccount
  exact ⟨account, hsub ha, hwallet, hid⟩

/-- In every state of Account and of the Ledger that has its accounts, and wherever the provisioned
wallets have their accounts, the wallets of a user are listed as long as at most a hundred of them are
provisioned. -/
theorem wallets_listed {ledgerConfig : Ledger.Config} :
    (∀ (s : State ι) (t : Ledger.State κ), (system ι config).Reachable s →
      (Ledger.system κ ledgerConfig).Reachable t → s.world.accounts.rows ⊆ t.db.accounts.rows →
      Linked s.world.db t.db) ∧
    ∀ db ledger userId, Linked db ledger → (ListsWallets db ledger userId ↔
      (activeIds (db.wallets.rows.filter fun w => decide (w.userId = userId))).length ≤ 100) :=
  ⟨fun _ _ hr ht hsub => linked_of_reachable hr ht hsub, fun _ _ _ h => listsWallets_iff h⟩

end Reachable

/-! ### A hundred and one wallets -/

/-- The texts of three letters in order. -/
def letters (k : ℕ) : Currency := (Fin.ofNat 26 (k / 676), Fin.ofNat 26 (k / 26), Fin.ofNat 26 k)

def walletAt (k : ℕ) : Wallet := ⟨k, 0, letters k, none, .active, some k, k, k⟩

def ann : User := ⟨⟨[], [], [], [], [], [], "v1", none⟩, 0, "ann", .active, 0⟩

/-- Three wallets, the last of which has no account yet. -/
def threeWallets : Database where
  users := ⟨[ann], by decide +kernel, by decide +kernel⟩
  wallets := ⟨[walletAt 0, walletAt 1, { walletAt 2 with status := .pending, ledgerAccountId := none }],
    by decide +kernel, by decide +kernel⟩
  records := Database.empty.records

def manyWallets : Database where
  users := ⟨[ann], by decide +kernel, by decide +kernel⟩
  wallets := ⟨(List.range 101).map walletAt, by decide +kernel, by decide +kernel⟩
  records := Database.empty.records

/-- The accounts of the wallets. -/
def manyAccounts : Ledger.Database where
  accounts := ⟨(List.range 101).map fun k => Ledger.customerAccount k k (letters k),
    by decide +kernel, by decide +kernel⟩
  balances := ⟨(List.range 101).map fun k => ⟨k, letters k, Numeric.zero, 0⟩,
    by decide +kernel, by decide +kernel⟩
  transactions := Ledger.Database.empty.transactions

theorem linked_manyAccounts (h : ∀ w ∈ db.wallets.rows, w.ledgerAccountId.isSome = true →
    ∃ k < 101, w = walletAt k) : Linked db manyAccounts := by
  constructor
  · intro wallet hw accountId haccount
    obtain ⟨k, hk, rfl⟩ := h wallet hw (by rw [haccount]; rfl)
    obtain rfl : k = accountId := Option.some.inj haccount
    exact ⟨_, List.mem_map_of_mem (List.mem_range.mpr hk), rfl, rfl⟩
  · intro a ha
    obtain ⟨k, hk, rfl⟩ := List.mem_map.mp ha
    exact ⟨_, Ledger.Database.findBalance_eq_some_iff.mpr ⟨List.mem_map_of_mem hk, rfl⟩⟩

theorem wallets_listed_threeWallets : ListsWallets threeWallets manyAccounts 0 ∧
    Linked threeWallets manyAccounts := by
  have hlinked : Linked threeWallets manyAccounts := by
    refine linked_manyAccounts fun w hw haccount => ?_
    simp only [threeWallets, List.mem_cons, List.not_mem_nil, or_false] at hw
    rcases hw with rfl | rfl | rfl
    · exact ⟨0, by decide, rfl⟩
    · exact ⟨1, by decide, rfl⟩
    · cases haccount
  obtain ⟨-, hlisted⟩ := @wallets_listed ℕ ℕ _ _ plainConfig Ledger.fundingConfig
  exact ⟨(hlisted threeWallets manyAccounts 0 hlinked).mpr (by decide +kernel), hlinked⟩

theorem linked_manyWallets : Linked manyWallets manyAccounts := by
  refine linked_manyAccounts fun w hw _ => ?_
  obtain ⟨k, hk, rfl⟩ := List.mem_map.mp hw
  exact ⟨k, List.mem_range.mp hk, rfl⟩

/-- The Ledger refuses the request for the balances of a hundred and one wallets, and none is listed. -/
theorem manyWallets_unlisted : ¬ ∀ db ledger userId, Linked db ledger → ListsWallets db ledger userId := by
  intro hall
  have hlisted := hall manyWallets manyAccounts 0 linked_manyWallets
  have hcount : ¬ (activeIds (manyWallets.wallets.rows.filter fun w => decide (w.userId = 0))).length ≤
      100 := by decide +kernel
  exact hcount ((listsWallets_iff linked_manyWallets).mp hlisted)

end NovaPay.Account
