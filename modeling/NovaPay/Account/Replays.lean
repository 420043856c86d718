import NovaPay.Account.Retries

/-!
# Repeated creations

A call of `create` that is answered at every step succeeds in every world that the earlier calls can leave,
unless the row has moved on from the time that Admin has recorded.
-/

namespace NovaPay.Account

open Relational TransitionSystem

variable {config : Config} {choice : Choice} {c : Create} {w w' : World} {pc : Pc}

/-! ### A call that runs alone -/

section Alone

variable {ι : Type} [DecidableEq ι] {i : ι} {choices : ℕ → Choice} {k : ℕ} {wallet : Wallet} {user : User}

/-- The call answers with the wallet when it takes its next steps with the choices from a place on. -/
def Wins (config : Config) (c : Create) (i : ι) (choices : ℕ → Choice) (w : World) (pc : Pc) (k : ℕ) :
    Prop :=
  ∃ n, ∀ s : State ι, s.world = w → s.calls i = some ⟨.create c, .running pc⟩ →
    ∃ s' r, (system ι config).run s ((List.range' k n).map fun k => .run i (choices k)) = some s' ∧
      s'.calls i = some ⟨.create c, .answered (.wallet r)⟩

theorem step_of_run {s : State ι} {request : Request} (h : s.calls i = some ⟨request, .running pc⟩) :
    (system ι config).step s (.run i choice) =
      some ({ s with world := (advance config choice s.world pc).1 }.setCall i
        ⟨request, (advance config choice s.world pc).2.progress⟩) := by
  change step config s (.run i choice) = _
  simp only [step, h]

theorem Wins.goto {pc' : Pc} (h : advance config (choices k) w pc = (w', .goto pc'))
    (hwins : Wins config c i choices w' pc' (k + 1)) : Wins config c i choices w pc k := by
  obtain ⟨n, hn⟩ := hwins
  refine ⟨n + 1, fun s hw hs => ?_⟩
  rw [List.range'_succ, List.map_cons, System.run_cons (step_of_run hs)]
  refine hn _ ?_ ?_
  · rw [State.setCall_world, hw, h]
  · rw [State.setCall_self, hw, h]
    rfl

theorem Wins.answer {r : WalletResponse} (h : advance config (choices k) w pc = (w', .answer (.wallet r))) :
    Wins config c i choices w pc k := by
  refine ⟨1, fun s hw hs => ⟨_, r, (System.run_cons (step_of_run hs) []).trans rfl, ?_⟩⟩
  rw [State.setCall_self, hw, h]
  rfl

theorem recordActivation_wins (h : Single config c w) (hw : wallet ∈ w.db.wallets.rows)
    (hanswered : ∀ k, (choices k).delivery = .answered) (account : ProvisionedAccount) :
    Wins config c i choices w (.recordActivation c wallet account) k := by
  have hrecord : ∃ events, record w.events (walletActivated config.crypto wallet.id c.externalRef
      wallet.currency wallet.updatedAt) = .ok events := by
    cases hevents : w.events with
    | nil => exact ⟨_, rfl⟩
    | cons event rest =>
      have he : event ∈ w.events := by simp [hevents]
      obtain ⟨row, hr, -, hevent⟩ := h.event event he
      rw [h.wallet_unique hr hw] at hevent
      refine ⟨w.events, ?_⟩
      rw [← hevents, ← hevent, record, findBy_of_mem h.events he]
      exact if_pos rfl
  obtain ⟨events, hrecord⟩ := hrecord
  have hadvance : advance config (choices k) w (.recordActivation c wallet account) =
      ({ w with events }, .answer (.wallet (toWallet wallet account))) := by
    simp only [advance, runRecordActivation, hanswered k, append, hrecord]
  exact Wins.answer hadvance

/-- A wallet that is not active yet has no event. -/
theorem activate_wins (h : Single config c w) (hw : wallet ∈ w.db.wallets.rows)
    (hpending : wallet.status = .pending) (hanswered : ∀ k, (choices k).delivery = .answered)
    {account : ProvisionedAccount} (hp : Provisioned w.accounts wallet.id account.ledgerAccountId) :
    Wins config c i choices w (.activate (some c) wallet account) k := by
  have hupdated : updateWhere (fun row => decide (row.id = wallet.id))
      (fun row => row.activated account.ledgerAccountId (choices k).now) w.db.wallets.rows =
        [wallet.activated account.ledgerAccountId (choices k).now] := by
    rw [h.wallets_eq hw]
    simp [updateWhere]
  obtain ⟨wallets, hupdate, hrows⟩ := Table.updateMany_of_check (T := w.db.wallets)
    (p := fun row => decide (row.id = wallet.id))
    (f := fun row => row.activated account.ledgerAccountId (choices k).now)
    (fun row hr _ => ⟨rfl, w.db.wallets.checked row hr⟩) (by rw [hupdated]; simp [walletsSchema,
      walletsIndexed, uniqueBy, uniqueWhere, Wallet.activated])
  have hnone : activations w.events wallet.id = [] := by
    rw [h.activations_eq hw]
    refine List.eq_nil_iff_forall_not_mem.mpr fun event he => ?_
    obtain ⟨row, hr, hactive, -⟩ := h.event event he
    rw [h.wallet_unique hr hw, hpending] at hactive
    cases hactive
  obtain ⟨hsingle, -⟩ := activate_single h (.of_mem hw) hp (by rw [hnone]; simp) hrows
  rw [hupdated] at hrows
  have hmem : wallet.activated account.ledgerAccountId (choices k).now ∈ wallets.rows := by
    rw [hrows]
    exact List.mem_singleton_self _
  refine Wins.goto ?_ (recordActivation_wins hsingle hmem hanswered account)
  have hfind : findBy Wallet.id wallet.id wallets.rows =
      some (wallet.activated account.ledgerAccountId (choices k).now) := by
    rw [hrows]
    simp [findBy, Wallet.activated]
  simp only [advance, runActivate, hupdate, hfind]

theorem provision_wins (h : Single config c w) (hw : wallet ∈ w.db.wallets.rows)
    (hanswered : ∀ k, (choices k).delivery = .answered) :
    Wins config c i choices w (.provision (some c) wallet) k := by
  obtain ⟨accounts, account, hok⟩ : ∃ accounts account, provisionAccount w.accounts (choices k).accountId
      wallet.id wallet.currency = .ok (accounts, account) := by
    unfold provisionAccount
    split
    · next existing hfind =>
      obtain ⟨row, hr, -, hcurrency⟩ := h.account existing (findBy_some hfind).1
      rw [hcurrency, h.wallet_unique hr hw, if_pos rfl]
      exact ⟨_, _, rfl⟩
    · next hnone =>
      have hempty : w.accounts.rows = [] := by
        refine List.eq_nil_iff_forall_not_mem.mpr fun account ha => ?_
        obtain ⟨row, hr, hid, -⟩ := h.account account ha
        rw [h.wallet_unique hr hw] at hid
        exact findBy_eq_none_iff.mp hnone account ha hid
      have hindexed : Ledger.accountsSchema.indexed (w.accounts.rows ++
          [newAccount (choices k).accountId wallet.id wallet.currency]) = true := by
        rw [hempty]
        simp [Ledger.accountsSchema, Ledger.accountsIndexed, uniqueBy, uniqueWhere, newAccount,
          Ledger.LedgerAccount.internalKey]
      obtain ⟨accounts, hinsert⟩ := Table.insertMany_of_indexed
        (fun a ha => by rw [List.mem_singleton.mp ha]; rfl) hindexed
      rw [hinsert]
      exact ⟨_, _, rfl⟩
  obtain ⟨-, ha, haccount⟩ := provisionAccount_ok hok
  have hprovision : provision (choices k).delivery w.accounts (choices k).accountId wallet.id
      wallet.currency = (accounts, .ok account) := by
    simp only [provision, hanswered k, hok]
  have hrows := provision_rows (choices k).delivery w.accounts (choices k).accountId wallet.id wallet.currency
  rw [hprovision] at hrows
  obtain ⟨hsingle, -⟩ := provision_single h (.of_mem hw) accounts (hrows.imp_right fun heq => ⟨_, heq⟩)
  have hp : Provisioned accounts wallet.id account.id := ⟨account, ha, haccount, rfl⟩
  have hadvance : advance config (choices k) w (.provision (some c) wallet) = ({ w with accounts },
      .goto (provisioned (some c) wallet (provisionedAccount (choices k) account wallet.id))) := by
    simp only [advance, runProvision, hprovision]
  refine Wins.goto hadvance ?_
  obtain hpending | ⟨hactive, account', ha', hid⟩ := hsingle.status wallet hw
  · rw [provisioned, if_neg (by rw [hpending]; simp)]
    exact activate_wins hsingle hw hpending hanswered hp
  · rw [hsingle.account_unique ha' ha] at hid
    rw [provisioned, if_pos ⟨hactive, hid⟩]
    exact recordActivation_wins hsingle hw hanswered _

theorem insertWallet_wins (h : Single config c w) (hempty : w.db.wallets.rows = [])
    (hu : user ∈ w.db.users.rows) (hkey : isIdempotencyKey c.idempotencyKey = true)
    (hlabel : c.command.trimmed.all (Varchar.fitsColumn 80) = true)
    (hanswered : ∀ k, (choices k).delivery = .answered) :
    Wins config c i choices w (.insertWallet c user) k := by
  have hrecords : w.db.records.rows = [] := by
    refine List.eq_nil_iff_forall_not_mem.mpr fun r hr => ?_
    obtain ⟨wallet, hw, -⟩ := h.recorded r hr
    rw [hempty] at hw
    cases hw
  have hindexed : walletsSchema.indexed (w.db.wallets.rows ++ [newWallet (choices k) c user]) = true := by
    rw [hempty]
    simp [walletsSchema, walletsIndexed, uniqueBy, uniqueWhere, newWallet]
  obtain ⟨wallets, hwallets⟩ := Table.insertMany_of_indexed
    (fun a ha => by rw [List.mem_singleton.mp ha]; exact hlabel) hindexed
  have hindexed' : recordsSchema.indexed (w.db.records.rows ++ [newRecord config (choices k) c user]) =
      true := by
    rw [hrecords]
    simp [recordsSchema, recordsIndexed, uniqueBy]
  obtain ⟨records, hrecord⟩ := Table.insertMany_of_indexed
    (fun a ha => by rw [List.mem_singleton.mp ha]; exact isIdempotencyKey_fits hkey) hindexed'
  have hinsert : insertWallet config (choices k) w.db c user = .ok { w.db with wallets, records } := by
    rw [insertWallet, hwallets, ok_bind, hrecord, ok_bind]
    rfl
  obtain ⟨hsingle, -, hmem⟩ := insertWallet_single h ⟨user, hu, rfl⟩ hinsert
  refine Wins.goto ?_ (provision_wins hsingle hmem hanswered)
  simp only [advance, runInsertWallet, hinsert]

theorem findRecord_wins (h : Single config c w) (hu : user ∈ w.db.users.rows)
    (hkey : isIdempotencyKey c.idempotencyKey = true)
    (hlabel : c.command.trimmed.all (Varchar.fitsColumn 80) = true)
    (hanswered : ∀ k, (choices k).delivery = .answered) :
    Wins config c i choices w (.findRecord c user) k := by
  cases hwallets : w.db.wallets.rows with
  | nil =>
    have hrecords : w.db.records.rows = [] := by
      refine List.eq_nil_iff_forall_not_mem.mpr fun r hr => ?_
      obtain ⟨wallet, hw, -⟩ := h.recorded r hr
      rw [hwallets] at hw
      cases hw
    have hrecord : w.db.findRecord user.id c.idempotencyKey = none := by
      rw [Database.findRecord, hrecords]
      rfl
    have hcurrency : w.db.findCurrency user.id c.command.currency = none := by
      rw [Database.findCurrency, hwallets]
      rfl
    have hfirst : advance config (choices k) w (.findRecord c user) = (w, .goto (.findCurrency c user)) := by
      simp only [advance, runFindRecord, hrecord]
    have hsecond : advance config (choices (k + 1)) w (.findCurrency c user) =
        (w, .goto (.insertWallet c user)) := by
      simp only [advance, runFindCurrency, hcurrency]
    exact .goto hfirst (.goto hsecond (insertWallet_wins h hwallets hu hkey hlabel hanswered))
  | cons wallet rest =>
    have hw : wallet ∈ w.db.wallets.rows := by simp [hwallets]
    obtain ⟨u, hu', howner⟩ := h.owner wallet hw
    have hrecord := h.find_record hw
    rw [howner, h.user_unique hu' hu] at hrecord
    refine Wins.goto ?_ (provision_wins h hw hanswered)
    simp only [advance, runFindRecord, hrecord, resume, ne_eq, not_true_eq_false, if_false]

theorem findUser_wins (hlaw : config.crypto.Lawful) (h : Single config c w)
    (hkey : isIdempotencyKey c.idempotencyKey = true)
    (hlabel : c.command.trimmed.all (Varchar.fitsColumn 80) = true)
    (hanswered : ∀ k, (choices k).delivery = .answered) :
    Wins config c i choices w (.findUser c) k := by
  cases husers : w.db.users.rows with
  | nil =>
    have hfind : w.db.findUser c.externalRef = none := by
      rw [Database.findUser, husers]
      rfl
    have hindexed : usersSchema.indexed (w.db.users.rows ++ [newUser config (choices (k + 1)) c.externalRef]) =
        true := by
      rw [husers]
      simp [usersSchema, usersIndexed, uniqueBy, uniqueWhere, newUser, encrypt, normalizeIdentity,
        IdentityPayload.none]
    obtain ⟨users, hinsert⟩ := Table.insertMany_of_indexed (fun a ha => by
      rw [List.mem_singleton.mp ha]
      exact newUser_check hlaw _) hindexed
    have hrows := Table.insertMany_ok hinsert
    obtain ⟨hsingle, -⟩ := insertUser h hlaw hrows
    have hmem : newUser config (choices (k + 1)) c.externalRef ∈ users.rows := by
      rw [hrows]
      exact List.mem_append_right _ (List.mem_singleton_self _)
    have hfirst : advance config (choices k) w (.findUser c) = (w, .goto (.createUser c)) := by
      simp only [advance, runFindUser, hfind]
    refine Wins.goto hfirst (Wins.goto ?_ (findRecord_wins hsingle hmem hkey hlabel hanswered))
    simp only [advance, runCreateUser, hinsert]
  | cons user rest =>
    have hu : user ∈ w.db.users.rows := by simp [husers]
    refine Wins.goto ?_ (findRecord_wins h hu hkey hlabel hanswered)
    simp only [advance, runFindUser, h.find_user hu, if_neg (h.user user hu).2]

end Alone

/-! ### Runs -/

section Runs

variable {ι : Type} [DecidableEq ι] {s s' : State ι} {a : Action ι}

/-- Steps of the calls with one key and one command, and of `reconcile`. -/
def OfKey (c : Create) : Action ι → Prop
  | .start _ request => request = .create c ∨ ∃ walletId, request = .reconcile walletId
  | .setStatus _ _ _ => False
  | _ => True

def TimelyStep (s : State ι) : Action ι → Prop
  | .run i choice => ∀ request pc, s.calls i = some ⟨request, .running pc⟩ → Timely s.world choice pc
  | _ => True

/-- What every call knows. -/
structure Consistent (config : Config) (c : Create) (s : State ι) : Prop where
  single : Single config c s.world
  request : ∀ i call, s.calls i = some call → ∀ c', call.request.create? = some c' → c' = c
  running : ∀ i request pc, s.calls i = some ⟨request, .running pc⟩ → Follows s.world request pc
  answered : ∀ i request outcome, s.calls i = some ⟨request, .answered outcome⟩ →
    Answers s.world request outcome

def Progress.Follows (w : World) (request : Request) : Progress → Prop
  | .running pc => Account.Follows w request pc
  | .answered outcome => Answers w request outcome
  | .stopped => True

theorem Consistent.setCall (h : Consistent config c s) {world : World} {i : ι} {call : Call}
    (hsingle : Single config c world) (hlater : Later s.world world)
    (hrequest : ∀ c', call.request.create? = some c' → c' = c)
    (hcall : call.progress.Follows world call.request) :
    Consistent config c ({ s with world }.setCall i call) := by
  refine ⟨hsingle, fun j => ?_, fun j => ?_, fun j => ?_⟩
  · by_cases hij : j = i
    · rintro call' hj
      rw [hij, State.setCall_self] at hj
      cases hj
      exact hrequest
    · rw [State.setCall_of_ne hij]
      exact h.request j
  · by_cases hij : j = i
    · rintro request pc hj
      rw [hij, State.setCall_self] at hj
      cases hj
      exact hcall
    · rw [State.setCall_of_ne hij]
      exact fun request pc hj => (h.running j request pc hj).later hlater
  · by_cases hij : j = i
    · rintro request outcome hj
      rw [hij, State.setCall_self] at hj
      cases hj
      exact hcall
    · rw [State.setCall_of_ne hij]
      exact fun request outcome hj => (h.answered j request outcome hj).later hlater

theorem consistent_step (hlaw : config.crypto.Lawful) (h : Consistent config c s) (hkey : OfKey c a)
    (htime : TimelyStep s a) (hs : step config s a = some s') : Consistent config c s' := by
  cases a with
  | start i request =>
    obtain ⟨-, rfl⟩ := step_start hs
    refine h.setCall h.single (.refl _) (fun c' hc => ?_) ?_
    · obtain rfl | ⟨walletId, rfl⟩ := hkey <;> cases hc
      rfl
    · cases request with
      | create c' =>
        simp only [Request.entry]
        split
        · exact rfl
        · trivial
      | reconcile walletId => exact rfl
  | run i choice =>
    obtain ⟨request, pc, hcall, rfl⟩ := step_run hs
    have hrequest := h.request i _ hcall
    obtain ⟨hsingle, hlater, hnext⟩ := advance_single hlaw h.single hrequest
      (h.running i request pc hcall) (htime request pc hcall)
    refine h.setCall hsingle hlater hrequest ?_
    cases hadvance : (advance config choice s.world pc).2 with
    | goto pc' =>
      rw [hadvance] at hnext
      exact hnext
    | answer outcome =>
      rw [hadvance] at hnext
      exact hnext
  | stop i =>
    obtain ⟨request, pc, hcall, rfl⟩ := step_stop hs
    exact h.setCall h.single (.refl _) (fun c' hc => h.request i _ hcall c' hc) trivial
  | setStatus walletId status now => exact hkey.elim

theorem consistent_of_reachable (hlaw : config.crypto.Lawful)
    (h : (system ι config).ReachableBy (fun s a => OfKey c a ∧ TimelyStep s a) s) :
    Consistent config c s := by
  refine System.ReachableBy.invariant (P := Consistent config c) ?_
    (fun s a s' _ hp ha hs => consistent_step hlaw hp ha.1 ha.2 hs) h
  refine ⟨⟨?_, ?_, ?_, ?_, ?_, ?_, ?_, ?_, rfl⟩, ?_, ?_, ?_⟩
  iterate 8
    intro row hrow
    cases hrow
  iterate 3
    intro i
    intros
    contradiction

/-- What a client may rely on who repeats its creation: every success names one wallet, whose activation
Admin has recorded once, and another call succeeds when it is answered. -/
structure ActivatedOnce (config : Config) (c : Create) (s : State ι) : Prop where
  same : ∀ i j request request' r r', s.calls i = some ⟨request, .answered (.wallet r)⟩ →
    s.calls j = some ⟨request', .answered (.wallet r')⟩ → r.id = r'.id
  atMost : ∀ walletId, (activations s.world.events walletId).length ≤ 1
  once : ∀ i r, s.calls i = some ⟨.create c, .answered (.wallet r)⟩ →
    (activations s.world.events r.id).length = 1
  further : ∀ i, s.calls i = none → ∀ choices : ℕ → Choice, (∀ k, (choices k).delivery = .answered) →
    ∃ n s' r, (system ι config).run s
      (.start i (.create c) :: (List.range n).map fun k => .run i (choices k)) = some s' ∧
      s'.calls i = some ⟨.create c, .answered (.wallet r)⟩

theorem run_answered {i : ι} {request : Request} {outcome : Outcome}
    (h : s.calls i = some ⟨request, .answered outcome⟩) (as : List (Action ι)) :
    (system ι config).run s (.run i choice :: as) = none := by
  have hstep : (system ι config).step s (.run i choice) = none := by
    change step config s (.run i choice) = none
    simp only [step, h]
  rw [System.run, hstep, Option.bind_none]

theorem answer_unique {i : ι} {choices : ℕ → Choice} {n m : ℕ} {s₁ s₂ : State ι} {as : List (Action ι)}
    {request request' : Request} {outcome outcome' : Outcome}
    (h₁ : (system ι config).run s (as ++ (List.range n).map fun k => .run i (choices k)) = some s₁)
    (h₂ : (system ι config).run s (as ++ (List.range m).map fun k => .run i (choices k)) = some s₂)
    (hcall₁ : s₁.calls i = some ⟨request, .answered outcome⟩)
    (hcall₂ : s₂.calls i = some ⟨request', .answered outcome'⟩) (hle : n ≤ m) : outcome = outcome' := by
  obtain ⟨d, rfl⟩ := Nat.exists_eq_add_of_le hle
  rw [List.range_add, List.map_append, ← List.append_assoc, System.run_append h₁] at h₂
  cases d with
  | zero =>
    obtain rfl : s₁ = s₂ := by simpa [System.run] using h₂
    rw [hcall₁] at hcall₂
    cases hcall₂
    rfl
  | succ d =>
    rw [List.range_succ_eq_map, List.map_cons, List.map_cons, run_answered hcall₁] at h₂
    cases h₂

end Runs

def timely (w : World) (choice : Choice) : Pc → Bool
  | .activate _ wallet _ => (activations w.events wallet.id).all fun e => decide (e.occurredAt = choice.now)
  | .recordActivation _ active _ => decide (choice.delivery = .unavailable) ||
    !(activations w.events active.id).isEmpty ||
      w.db.wallets.rows.all fun row => decide (row.id ≠ active.id) ||
        decide (row.updatedAt = active.updatedAt)
  | _ => true

def timelyStep (s : State ℕ) : Action ℕ → Bool
  | .run i choice =>
    match s.calls i with
    | some ⟨_, .running pc⟩ => timely s.world choice pc
    | _ => true
  | _ => true

def ofKey (c : Create) : Action ℕ → Bool
  | .start _ (.create c') => decide (c' = c)
  | .setStatus _ _ _ => false
  | _ => true

theorem timely_sound (h : timely w choice pc = true) : Timely w choice pc := by
  cases pc with
  | activate c? wallet account => simpa [timely, Timely] using h
  | recordActivation c active account =>
    intro hdelivery hnone row hr hid
    simp only [timely, hnone, List.isEmpty_nil, Bool.not_true, Bool.or_false, Bool.or_eq_true,
      decide_eq_true_eq, List.all_eq_true] at h
    exact ((h.resolve_left hdelivery) row hr).resolve_left (not_not.mpr hid)
  | _ => trivial

theorem timelyStep_sound {s : State ℕ} {a : Action ℕ} (h : timelyStep s a = true) : TimelyStep s a := by
  cases a with
  | run i choice =>
    intro request pc hcall
    simp only [timelyStep, hcall] at h
    exact timely_sound h
  | _ => trivial

theorem ofKey_sound {a : Action ℕ} (h : ofKey c a = true) : OfKey c a := by
  cases a with
  | start i request =>
    cases request with
    | create c' => exact .inl (congrArg Request.create (of_decide_eq_true h))
    | reconcile walletId => exact .inr ⟨walletId, rfl⟩
  | setStatus walletId status now => cases h
  | _ => trivial

/-- The first call stops before it sends the event, the wallet is reconciled, and the call is repeated. -/
def repeatedRun : List (Action ℕ) :=
  createdRun ++ steps 0 6 2 ++ [.stop 0] ++ .start 1 (.reconcile 5) :: steps 1 20 3 ++
    .start 2 (.create openWallet) :: steps 2 30 4

/-- A wallet that is reconciled after its creation. -/
def movedRun : List (Action ℕ) :=
  createdRun ++ steps 0 6 3 ++ .start 1 (.reconcile 5) :: steps 1 20 3

end NovaPay.Account
