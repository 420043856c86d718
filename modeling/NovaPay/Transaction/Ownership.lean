import NovaPay.Transaction.Provenance
import NovaPay.Transaction.Lockstep

/-!
# Sender rows and the owners of wallets

A claim writes the history of the sender's wallet before the Account says whose wallet it is. Where the
statements that write sender rows work on wallets of the requester, the outgoing history of a wallet is
its owner's.
-/

namespace NovaPay.Transaction

open DecimalArithmetic Relational TransitionSystem

/-- The principal that owns a wallet. -/
abbrev Owners := Uuid → Option Principal

/-- No other principal owns the wallet. -/
def Owned (owner : Owners) (walletId : Uuid) (clientId : Principal) : Prop :=
  ∀ p ∈ owner walletId, clientId = p

def Command.senderWalletId : Command → Uuid
  | .domestic command => command.senderWalletId.value
  | .international command => command.senderWalletId.value

/-- The statements that add a sender row name a wallet of the requester: the claim of a domestic
transfer and the preparation of an international one. -/
def Pc.OwnSender (owner : Owners) : Pc → Prop
  | .claimInsert ⟨clientId, _, .domestic command⟩ => Owned owner command.senderWalletId.value clientId
  | .prepare t _ => Owned owner t.senderWalletId t.clientId
  | _ => True

def OwnSender (owner : Owners) (s : State) : Action → Prop
  | .run e _ => ∀ origin pc, s.executions e = some ⟨origin, some pc⟩ → pc.OwnSender owner
  | _ => True

/-- What a statement does to the tables: one transfer is claimed for its request, or the transfer the
execution works for moves. -/
inductive Effect (db : Database) (pc : Pc) (db' : Database) : Prop
  | same : db' = db → Effect db pc db'
  | created {request : CreateRequest} {t : Transfer} {r : IdempotencyRecord} :
      pc = .claimInsert request → Created db db' t r → t.clientId = request.clientId →
      r.clientId = request.clientId → t.senderWalletId = request.command.senderWalletId →
      (expectedRows t ≠ [] → ∃ command, request.command = .domestic command) → Effect db pc db'
  | moved {t t' : Transfer} {r r' : IdempotencyRecord} : pc.transferId? = some t.id →
      Moved db db' t r t' r' → (t'.targetAmount = t.targetAmount ∨
        ∃ u quote, pc = .prepare u quote ∧ SameTransfer u t) → Effect db pc db'

variable {config : Config} {now : Time} {c : Choice} {db db' : Database} {t u : Transfer} {pc : Pc}
  {origin : Origin} {owner : Owners}

theorem runClaimInsert_effect (hl : Lockstep db) {request : CreateRequest} :
    Effect db (.claimInsert request) (runClaimInsert config c db request).1 := by
  unfold runClaimInsert
  split
  · next hinsert =>
    unfold insertClaim at hinsert
    split at hinsert
    · next command heq =>
      obtain ⟨amount, -, rfl, hc⟩ := claim_ok hl hinsert
      exact .created rfl hc rfl rfl (by rw [heq]; rfl) fun _ => ⟨command, heq⟩
    · next command heq =>
      obtain ⟨amount, -, rfl, hc⟩ := claimInternational_ok hl hinsert
      exact .created rfl hc rfl rfl (by rw [heq]; rfl) fun hrows => absurd rfl hrows
  · exact .same rfl
  · exact .same rfl

theorem runTransition_effect (hl : Lockstep db) {id : Uuid} :
    Effect db (.transition id) (runTransition c db id).1 := by
  unfold runTransition
  split
  · next htr =>
    rcases transition_ok hl htr with ⟨rfl, -⟩ | ⟨t, r, rfl, hm⟩
    · exact .same rfl
    · exact .moved rfl hm (.inl rfl)
  · exact .same rfl

theorem runClaimRetry_effect (hl : Lockstep db) {staleBefore : Option ℤ} :
    Effect db (.claimRetry t staleBefore) (runClaimRetry c db t staleBefore).1 := by
  have heffect : ∀ db' claimed, claimProcessingRetry db t staleBefore c.date = .ok (db', claimed) →
      Effect db (.claimRetry t staleBefore) db' := by
    intro db' claimed hr
    rcases claimProcessingRetry_ok hl hr with ⟨-, rfl⟩ | ⟨-, v, r, hid, -, hm⟩
    · exact .same rfl
    · exact .moved (congrArg some hid.symm) hm (.inl rfl)
  unfold runClaimRetry
  split
  · next hr => exact heffect _ _ hr
  · next hr => exact heffect _ _ hr
  · exact .same rfl

theorem runPrepare_effect (hl : Lockstep db) {quote : QuoteResponse}
    (hsame : ∀ v, db.findTransfer t.id = some v → SameTransfer t v) :
    Effect db (.prepare t quote) (runPrepare c db t quote).1 := by
  have heffect : ∀ db' prepared, prepareInternational db t quote c.ids.senderRowId
      c.ids.recipientRowId c.date = .ok (db', prepared) → Effect db (.prepare t quote) db' := by
    intro db' prepared hr
    rcases prepareInternational_ok hl hsame hr with ⟨-, rfl⟩ | ⟨-, v, r, _, _, hid, -, -, -, hm⟩
    · exact .same rfl
    · have hst := hsame v (hid ▸ hm.found)
      exact .moved (congrArg some hid.symm) hm (.inr ⟨t, quote, rfl, hst⟩)
  unfold runPrepare
  split
  · next hr => exact heffect _ _ hr
  · next hr => exact heffect _ _ hr
  · exact .same rfl

theorem runComplete_effect (hl : Lockstep db) {id : Uuid} {ledgerTransactionId : Option Uuid} :
    Effect db (.complete id ledgerTransactionId) (runComplete c db id ledgerTransactionId).1 := by
  unfold runComplete
  split
  · next hr =>
    rcases complete_ok hl hr with ⟨-, rfl, -, -⟩ | ⟨-, t, r, x, -, rfl, rfl, hm⟩
    · exact .same rfl
    · exact .moved rfl hm (.inl rfl)
  · exact .same rfl

theorem runFail_effect (hl : Lockstep db) {id : Uuid} {error : HttpError} :
    Effect db (.fail id error) (runFail c db id error).1 := by
  unfold runFail
  split
  · next hr =>
    rcases fail_ok hl hr with ⟨-, rfl, -, -⟩ | ⟨-, t, r, rfl, rfl, hm⟩
    · exact .same rfl
    · exact .moved rfl hm (.inl rfl)
  · exact .same rfl

theorem advance_effect (hl : Lockstep db) (hpc : PcOk config db origin pc) :
    Effect db pc (advance config now c db pc).1 := by
  cases pc with
  | claimInsert request => exact runClaimInsert_effect hl
  | transition id => exact runTransition_effect hl
  | claimRetry t staleBefore => exact runClaimRetry_effect hl
  | prepare t quote =>
    obtain ⟨u, hu, hprog⟩ := hpc.snapshot t rfl
    exact runPrepare_effect hl fun v hv => Option.some.inj (hu.symm.trans hv) ▸ hprog.same
  | complete id ledgerTransactionId => exact runComplete_effect hl
  | fail id error => exact runFail_effect hl
  | _ => exact .same rfl

/-- The records are their transfers' clients', and so are the wallets with sender rows. -/
structure OwnersAgree (owner : Owners) (db : Database) : Prop where
  client : ∀ id t r, db.findTransfer id = some t → db.recordOf id = some r → r.clientId = t.clientId
  sender : ∀ id t, db.findTransfer id = some t → expectedRows t ≠ [] →
    Owned owner t.senderWalletId t.clientId

theorem expectedRows_eq_nil_iff :
    expectedRows t = [] ↔ t.type = .international ∧ t.targetAmount = none := by
  unfold expectedRows
  split
  · next h => simp [h]
  · next h => simp [h]

theorem Effect.ownersAgree (he : Effect db pc db') (hown : pc.OwnSender owner)
    (h : OwnersAgree owner db) : OwnersAgree owner db' := by
  cases he with
  | same heq =>
    rw [heq]
    exact h
  | @created request t r hpc hc hclient hrecord hsender hdomestic =>
    refine ⟨fun id u q hu hq => ?_, fun id u hu hrows => ?_⟩
    · rw [hc.replaces.transfer] at hu
      rw [hc.replaces.record] at hq
      split at hu
      · next hid =>
        rw [if_pos hid] at hq
        cases hu
        cases hq
        exact hrecord.trans hclient.symm
      · next hid =>
        rw [if_neg hid] at hq
        exact h.client id u q hu hq
    · rw [hc.replaces.transfer] at hu
      split at hu
      · cases hu
        obtain ⟨command, hcommand⟩ := hdomestic hrows
        obtain ⟨clientId, key, _⟩ := request
        subst hpc hcommand
        rw [hsender, hclient]
        exact hown
      · exact h.sender id u hu hrows
  | @moved t t' r r' hid hm hamount =>
    have hsame := hm.move.same
    refine ⟨fun id u q hu hq => ?_, fun id u hu hrows => ?_⟩
    · rw [hm.replaces.transfer] at hu
      rw [hm.replaces.record] at hq
      split at hu
      · next heq =>
        rw [if_pos heq] at hq
        cases hu
        cases hq
        rw [← hm.move.same_record.clientId, ← hsame.clientId]
        exact h.client t.id t r hm.found hm.recorded
      · next hne =>
        rw [if_neg hne] at hq
        exact h.client id u q hu hq
    · rw [hm.replaces.transfer] at hu
      split at hu
      · cases hu
        rw [← hsame.senderWalletId, ← hsame.clientId]
        rcases hamount with hamount | ⟨u, quote, rfl, hu⟩
        · refine h.sender t.id t hm.found fun hnil => hrows ?_
          rw [expectedRows_eq_nil_iff] at hnil ⊢
          exact ⟨hsame.type.symm.trans hnil.1, hamount.trans hnil.2⟩
        · rw [← hu.senderWalletId, ← hu.clientId]
          exact hown
      · exact h.sender id u hu hrows

/-- The outgoing rows of a wallet. -/
def senderRows (walletId : Uuid) (rows : List ProjectedRow) : List ProjectedRow :=
  rows.filter fun row => decide (row.walletId = walletId) && decide (row.role = .sender)

/-- A transfer of another client has no row among the outgoing ones of a wallet. -/
theorem senderRows_of_other {walletId : Uuid} {p : Principal} (hp : p ∈ owner walletId)
    (hne : t.clientId ≠ p) (hown : expectedRows t ≠ [] → Owned owner t.senderWalletId t.clientId) :
    senderRows walletId (expectedRows t) = [] := by
  refine List.filter_eq_nil_iff.mpr fun row hrow hmatch => ?_
  have howned := hown (List.ne_nil_of_mem hrow)
  simp only [Bool.and_eq_true, decide_eq_true_eq] at hmatch
  unfold expectedRows at hrow
  split at hrow
  · cases hrow
  simp only [List.mem_cons, List.not_mem_nil, or_false] at hrow
  rcases hrow with rfl | rfl
  · have hwallet : t.senderWalletId = walletId := hmatch.1
    rw [← hwallet] at hp
    exact hne (howned p hp)
  · cases hmatch.2

/-- The request of an execution is another principal's, or it reconciles a transfer of one. -/
def Origin.OtherThan (db : Database) (p : Principal) : Origin → Prop
  | .create request => request.clientId ≠ p
  | .reconcile transferId _ => ∀ t, db.findTransfer transferId = some t → t.clientId ≠ p

/-- A statement that works for another principal leaves the outgoing rows of a wallet as they are. -/
theorem Effect.senderRows (he : Effect db pc db') (hl : Lockstep db)
    (hpc : PcOk config db origin pc) (h : OwnersAgree owner db) (h' : OwnersAgree owner db')
    {walletId : Uuid} {p : Principal} (hp : p ∈ owner walletId) (hother : origin.OtherThan db p) (i : Uuid) :
    Transaction.senderRows walletId (db'.historyOf i) = Transaction.senderRows walletId (db.historyOf i) := by
  cases he with
  | same heq => rw [heq]
  | @created request t r hclaim hc hclient =>
    rw [hc.replaces.history]
    split
    · next hid =>
      have horigin : origin = .create request := by
        have hchecked := hpc.checked
        rw [hclaim] at hchecked
        exact hchecked
      rw [horigin] at hother
      have hrows : db.historyOf t.id = [] := (hl.absent t.id hc.absent).2
      rw [hid, hrows, senderRows_of_other hp (hclient ▸ hother)
        (h'.sender t.id t (hc.replaces.findTransfer))]
      rfl
    · rfl
  | @moved t t' r r' hid hm =>
    rw [hm.replaces.history]
    split
    · next heq =>
      have hsame := hm.move.same
      have hclient : t.clientId ≠ p := by
        have hserves := hpc.serves t.id hid
        cases origin with
        | create request =>
          obtain ⟨q, hq, hqclient, -⟩ := hserves
          rw [← h.client t.id t q hm.found hq, hqclient]
          exact hother
        | reconcile transferId force =>
          obtain rfl : t.id = transferId := hserves
          exact hother t hm.found
      obtain ⟨-, q, -, hat⟩ := hl.agree t.id t hm.found
      rw [heq, ← hsame.id, hat.rows_eq, senderRows_of_other hp hclient (h.sender t.id t hm.found),
        senderRows_of_other hp (hsame.clientId ▸ hclient)
          (h'.sender t'.id t' hm.replaces.findTransfer)]
    · rfl

theorem ownersAgree_empty : OwnersAgree owner Database.empty :=
  ⟨fun _ _ _ h => by simp [Database.findTransfer, Database.empty, findBy] at h,
    fun _ _ h => by simp [Database.findTransfer, Database.empty, findBy] at h⟩

section Runs

variable {s s' : State} {a : Action}

theorem effect_of_step (hi : Invariant config s) (h : step config s a = some s') :
    s'.db = s.db ∨ ∃ e choice origin pc, a = .run e choice ∧ s.executions e = some ⟨origin, some pc⟩ ∧
      PcOk config s.db origin pc ∧ Effect s.db pc s'.db := by
  rcases step_cases h with ⟨_, -, rfl⟩ | ⟨_, _, _, -, -, rfl, -⟩ |
    ⟨e, choice, origin, pc, rfl, he, -, rfl⟩ | ⟨_, _, _, -, -, rfl⟩
  · exact .inl rfl
  · exact .inl rfl
  · have hpc := hi.running e origin pc he
    exact .inr ⟨e, choice, origin, pc, rfl, he, hpc, advance_effect hi.lockstep hpc⟩
  · exact .inl rfl

theorem OwnersAgree.step (hi : Invariant config s) (ho : OwnersAgree owner s.db)
    (hown : OwnSender owner s a) (h : step config s a = some s') : OwnersAgree owner s'.db := by
  rcases effect_of_step hi h with heq | ⟨e, choice, origin, pc, rfl, he, -, heffect⟩
  · rwa [heq]
  · exact heffect.ownersAgree (hown origin pc he) ho

theorem ownersAgree_of_reachableBy (h : (system config).ReachableBy (OwnSender owner) s) :
    OwnersAgree owner s.db :=
  System.ReachableBy.invariant (P := fun s => OwnersAgree owner s.db) ownersAgree_empty
    (fun _ _ _ hr ho hown hs => OwnersAgree.step (invariant_of_reachable hr.reachable) ho hown hs) h

/-- Where every sender row is written for a wallet of its requester, each outgoing row of a wallet is of a
transfer its owner requested, and a step that works for another principal neither adds nor changes
one. -/
theorem sender_rows_of_owner (h : (system config).ReachableBy (OwnSender owner) s) :
    (∀ row ∈ s.db.history.rows, row.role = .sender → ∃ t ∈ s.db.transfers.rows,
      t.id = row.transferId ∧ t.senderWalletId = row.walletId ∧
        ∀ p ∈ owner row.walletId, t.clientId = p) ∧
    ∀ e choice origin pc s' walletId p, s.executions e = some ⟨origin, some pc⟩ →
      OwnSender owner s (.run e choice) → step config s (.run e choice) = some s' →
      p ∈ owner walletId → origin.OtherThan s.db p → ∀ i,
        senderRows walletId (s'.db.historyOf i) = senderRows walletId (s.db.historyOf i) := by
  have hi := invariant_of_reachable h.reachable
  have ho := ownersAgree_of_reachableBy h
  refine ⟨fun row hrow hrole => ?_, fun e choice origin pc s' walletId p he hown hs hp hother i => ?_⟩
  · obtain ⟨t, ht, hid⟩ := hi.lockstep.transfer_of_history hrow
    have hfind : s.db.findTransfer t.id = some t := Database.findTransfer_eq_some_iff.mpr ⟨ht, rfl⟩
    obtain ⟨-, r, -, hat⟩ := hi.lockstep.agree t.id t hfind
    have hmem : row.toProjectedRow ∈ expectedRows t := by
      rw [← hat.rows_eq]
      exact List.mem_map_of_mem (List.mem_filter.mpr ⟨hrow, by simp [hid]⟩)
    have hwallet : t.senderWalletId = row.walletId := by
      unfold expectedRows at hmem
      split at hmem
      · cases hmem
      simp only [List.mem_cons, List.not_mem_nil, or_false] at hmem
      rcases hmem with heq | heq
      · exact (congrArg ProjectedRow.walletId heq).symm
      · have hrecipient : row.role = .recipient := congrArg ProjectedRow.role heq
        rw [hrole] at hrecipient
        cases hrecipient
    have howned := ho.sender t.id t hfind (List.ne_nil_of_mem hmem)
    exact ⟨t, ht, hid, hwallet, fun p hp => howned p (hwallet ▸ hp)⟩
  · have ho' := ho.step hi hown hs
    rcases effect_of_step hi hs with heq | ⟨e', choice', origin', pc', heq, he', hpc, heffect⟩
    · rw [heq]
    · cases heq
      rw [he] at he'
      cases he'
      exact heffect.senderRows hi.lockstep hpc ho ho' hp hother i

end Runs

instance decidableOwnSender (owner : Owners) : (pc : Pc) → Decidable (pc.OwnSender owner)
  | .claimInsert ⟨clientId, _, .domestic command⟩ =>
    inferInstanceAs (Decidable (∀ p ∈ owner command.senderWalletId.value, clientId = p))
  | .prepare t _ => inferInstanceAs (Decidable (∀ p ∈ owner t.senderWalletId, t.clientId = p))
  | .claimInsert ⟨_, _, .international _⟩ | .claimLookup _ | .claimRecover _ | .claimQuoteLookup _
  | .databaseNow _ _ | .transition _ | .reconcileRead _ _ | .reconcileReload _ | .byReference _ _
  | .claimRetry _ _ | .consume _ _ | .processRead _ | .validate _ | .post _ _ _ _ | .complete _ _
  | .fail _ _ | .reread _ => .isTrue trivial

def ownSender (owner : Owners) (s : State) : Action → Bool
  | .run e _ =>
    match s.executions e with
    | some ⟨_, some pc⟩ => decide (pc.OwnSender owner)
    | _ => true
  | _ => true

theorem ownSender_sound {s : State} {a : Action} (h : ownSender owner s a = true) :
    OwnSender owner s a := by
  cases a with
  | run e choice =>
    intro origin pc he
    simpa [ownSender, he] using h
  | _ => trivial

/-- The wallets of `domesticRequest`. -/
def walletOwners : Owners := fun walletId =>
  if walletId = senderWallet then some "client-a"
  else if walletId = recipientWallet then some "client-b" else none

/-- The theorem at the end of `domesticRun`. -/
theorem sender_rows_of_owner_domesticRun : ∃ s, (system domesticConfig).run .initial domesticRun = some s ∧
    s.db.history.rows.map (fun row => (row.role, row.status)) =
      [(.sender, .completed), (.recipient, .completed)] ∧
    ∀ row ∈ s.db.history.rows, row.role = .sender → ∃ t ∈ s.db.transfers.rows,
      t.id = row.transferId ∧ t.senderWalletId = row.walletId ∧
        ∀ p ∈ walletOwners row.walletId, t.clientId = p := by
  have hrun : ((system domesticConfig).runWhere (ownSender walletOwners) .initial domesticRun).map
      (fun s => s.db.history.rows.map fun row => (row.role, row.status)) =
      some [(.sender, .completed), (.recipient, .completed)] := by decide +kernel
  obtain ⟨s, hs, hrows⟩ := Option.map_eq_some_iff.mp hrun
  have hreach : (system domesticConfig).ReachableBy (OwnSender walletOwners) s :=
    System.ReachableBy.runWhere (fun _ _ => ownSender_sound) .init hs
  exact ⟨s, System.run_of_runWhere hs, hrows, (sender_rows_of_owner hreach).1⟩

/-- A request of a stranger for twenty-five dollars from the wallet of `domesticRequest`. -/
def strangerRun : List Action := [
  .request 0 (.create { domesticRequest with clientId := "mallory" }),
  .run 0 {},
  .run 0 { ids := ⟨7, 8, 9⟩ },
  .run 0 { date := 1 },
  .run 0 {},
  .run 0 {
    account := .ok (walletOf senderWallet "client-a" 1, walletOf recipientWallet "client-b" 2) },
  .run 0 { date := 2 }]

/-- The transfer of a stranger fails, and stays among the outgoing rows of the wallet. -/
theorem stranger_adds_sender_row : ¬ ∀ s, (system domesticConfig).Reachable s →
    ∀ row ∈ s.db.history.rows, row.role = .sender → ∃ t ∈ s.db.transfers.rows,
      t.id = row.transferId ∧ ∀ p ∈ walletOwners row.walletId, t.clientId = p := by
  intro hall
  have hrun : ((system domesticConfig).run .initial strangerRun).map
      (fun s => (s.db.transfers.rows.map fun t => (t.clientId, t.status, t.failureCode),
        s.db.history.rows.map fun row => (row.role, row.walletId))) =
      some ([("mallory", .failed, some "WALLET_ACCESS_DENIED")],
        [(.sender, senderWallet), (.recipient, recipientWallet)]) := by decide +kernel
  obtain ⟨s, hs, heq⟩ := Option.map_eq_some_iff.mp hrun
  obtain ⟨htransfers, hhistory⟩ := Prod.mk.inj heq
  obtain ⟨row, hrow, heq⟩ := List.mem_map.mp (hhistory ▸ List.mem_cons_self)
  obtain ⟨hrole, hwallet⟩ := Prod.mk.inj heq
  obtain ⟨t, ht, -, howner⟩ := hall s (System.reachable_of_run hs) row hrow hrole
  have hclient : t.clientId = "client-a" := howner "client-a" (by rw [hwallet]; decide)
  have hmem := List.mem_map_of_mem (f := fun t => (t.clientId, t.status, t.failureCode)) ht
  rw [htransfers, List.mem_singleton, hclient] at hmem
  have hname : "client-a" = "mallory" := congrArg Prod.fst hmem
  exact absurd hname (by decide)

end NovaPay.Transaction
