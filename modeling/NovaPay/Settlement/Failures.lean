import NovaPay.Settlement.Postings

/-!
# Failed transfers and postings

Transaction fails a transfer on one answer, while other attempts for it may be under way. Where none
is, nothing is posted for a failed transfer; where one is, its posting can still be committed.
-/

namespace NovaPay.Settlement

open DecimalArithmetic Relational TransitionSystem

variable {config : Config} {s s' : State} {a : Action} {transferIds : Set Uuid} {id : Uuid}

/-- A call of the Ledger that has ended without a posting. -/
def Dead (call : Option Ledger.Call) : Prop :=
  ∃ request, call = some ⟨request, .stopped⟩ ∨
    ∃ error, call = some ⟨request, .answered (.error error)⟩

/-- No attempt for a transfer is under way: none waits for its wallets, and all postings sent for it
have ended without effect. -/
structure Quiet (s : State) (id : Uuid) : Prop where
  validating : ∀ e origin t, s.transaction.executions e = some ⟨origin, some (.validate t)⟩ →
    t.id ≠ id
  posting : ∀ e t sender recipient posting,
    (e, .post t sender recipient posting) ∈ s.transaction.calls → t.id = id →
    Dead (s.ledger.calls (.inl e))

/-- An open transfer is failed only where no attempt for it is under way. -/
def FailsQuietly (s : State) : Action → Prop
  | .transaction (.run e _) => ∀ origin id error t,
      s.transaction.executions e = some ⟨origin, some (.fail id error)⟩ →
      s.transaction.db.findTransfer id = some t → t.status.open = true → Quiet s id
  | _ => True

def FailedQuiet (s : State) : Prop :=
  ∀ id t, s.transaction.db.findTransfer id = some t → t.status = .failed → Quiet s id

theorem failedQuiet_initial : FailedQuiet .initial := by
  simp [FailedQuiet, State.initial, Transaction.State.initial, Transaction.Database.empty,
    Transaction.Database.findTransfer, findBy]

theorem Dead.step {ledger ledger' : Ledger.State Caller} {i : Caller} {action : Ledger.Action Caller}
    (h : Dead (ledger.calls i)) (hs : Ledger.step config.ledger ledger action = some ledger') :
    Dead (ledger'.calls i) := by
  obtain ⟨request, hc | ⟨error, hc⟩⟩ := h
  · exact ⟨request, .inl (Ledger.ended_of_step hs (by simp) hc)⟩
  · exact ⟨request, .inr ⟨error, Ledger.ended_of_step hs (by simp) hc⟩⟩

/-- A step of Transaction starts no attempt for a transfer that it fails or that has failed. -/
theorem Quiet.transaction (hi : Invariant config s) (hq : Quiet s id)
    {action : Transaction.Action} {t : Transaction.State}
    (ht : Transaction.step config.transaction s.transaction action = some t)
    (hread : ∀ e choice origin pc u, action = .run e choice →
      s.transaction.executions e = some ⟨origin, some pc⟩ → pc = .processRead id →
      s.transaction.db.findTransfer id = some u → u.status ≠ .processing) :
    Quiet { s with transaction := t } id := by
  refine ⟨fun e origin u he hid => ?_, fun e u sender recipient posting hmem hid => ?_⟩
  · rcases Transaction.executions_of_step ht he with hold | hentry | ⟨choice, pc, rfl, hbefore, hgoto⟩
    · exact hq.validating e origin u hold hid
    · rcases Transaction.entry_eq_ok hentry with ⟨_, heq⟩ | ⟨_, _, heq⟩ <;> cases heq
    · have hf : ((Transaction.advance config.transaction s.transaction.now choice s.transaction.db
          pc).2).Follows choice s.transaction.db pc := Transaction.advance_follows
      rw [hgoto] at hf
      obtain ⟨hpc, hfind, hprocessing⟩ := hf
      rw [hid] at hpc hfind
      exact hread e choice origin pc u rfl hbefore hpc hfind hprocessing
  · rcases Transaction.calls_of_step ht hmem with hold | ⟨origin, pc, he, hcall⟩
    · exact hq.posting e u sender recipient posting hold hid
    · cases pc with
      | post u' sender' recipient' posting' =>
        cases hcall
        rcases Transaction.executions_of_step ht he with
          hold | hentry | ⟨choice, pc, rfl, hbefore, hgoto⟩
        · exact hq.posting e u sender recipient posting (hi.calls.made e origin _ _ hold rfl) hid
        · rcases Transaction.entry_eq_ok hentry with ⟨_, heq⟩ | ⟨_, _, heq⟩ <;> cases heq
        · have hf : ((Transaction.advance config.transaction s.transaction.now choice
              s.transaction.db pc).2).Follows choice s.transaction.db pc :=
            Transaction.advance_follows
          rw [hgoto] at hf
          obtain rfl : pc = .validate u := hf
          exact absurd hid (hq.validating e origin u hbefore)
      | _ => cases hcall

theorem FailedQuiet.step (hi : Invariant config s) (hf : FailedQuiet s) (hok : FailsQuietly s a)
    (h : step config s a = some s') : FailedQuiet s' := by
  obtain ⟨-, ⟨action, t, rfl, ht, rfl⟩ | ⟨action, fx, rfl, hfx, rfl⟩ |
    ⟨action, ledger, rfl, hledger, rfl⟩⟩ := step_cases h
  · intro id u hu hs
    have hfailed : ∀ v, s.transaction.db.findTransfer id = some v → v.status = .failed →
        Quiet { s with transaction := t } id := by
      intro v hv hvs
      refine (hf id v hv hvs).transaction hi ht fun _ _ _ _ w _ _ _ hw => ?_
      obtain rfl := Option.some.inj (hv.symm.trans hw)
      simp [hvs]
    rcases Transaction.rows_of_step hi.transaction ht hu with hold |
      ⟨e, choice, origin, pc, rfl, he, hw⟩
    · exact hfailed u hold hs
    have hid : u.id = id := (Transaction.Database.findTransfer_eq_some_iff.mp hu).2
    subst hid
    cases hw with
    | created _ hclaims => simp [hclaims.pending] at hs
    | started hv => cases hs
    | @retried v hv => exact hfailed v hv hs
    | prepared _ hv => cases hs
    | completed _ hv => cases hs
    | @failed v error hpc hv ho =>
      subst hpc
      refine (hok origin v.id error v he hv ho).transaction hi ht
        fun e' choice' origin' pc' w heq he' hpc' hw => ?_
      cases heq
      rw [he] at he'
      cases he'
      cases hpc'
  · intro id u hu hs
    exact ⟨(hf id u hu hs).validating, (hf id u hu hs).posting⟩
  · intro id u hu hs
    exact ⟨(hf id u hu hs).validating, fun e t sender recipient posting hmem hid =>
      ((hf id u hu hs).posting e t sender recipient posting hmem hid).step hledger⟩

/-- Where transfers are failed only while no attempt for them is under way, nothing is ever posted
for a failed transfer. -/
theorem failed_transfers_unposted
    (h : (system config).ReachableBy (fun s a => KeepsApart transferIds s a ∧ FailsQuietly s a) s) :
    ∀ t ∈ s.transaction.db.transfers.rows, t.status = .failed →
      ∀ tx ∈ s.ledger.db.transactions.rows, tx.externalReference ≠ t.id := by
  have hi := invariant_of_reachable h.reachable
  have hp : Apart transferIds s ∧ FailedQuiet s := by
    refine System.ReachableBy.invariant (P := fun s => Apart transferIds s ∧ FailedQuiet s)
      ⟨apart_initial, failedQuiet_initial⟩ ?_ h
    intro s a s' hr hp hok hs
    have hi := invariant_of_reachable hr.reachable
    exact ⟨hp.1.step hi hok.1 hs, hp.2.step hi hok.2 hs⟩
  intro t hmem hs tx htx href
  have ht := Transaction.Database.findTransfer_eq_some_iff.mpr ⟨hmem, rfl⟩
  obtain ⟨e, u, sender, recipient, posting, hsent, hid, hcall, -⟩ :=
    posted_of_transfer hi hp.1 htx (href ▸ ht)
  obtain ⟨request, hc | ⟨error, hc⟩⟩ :=
    (hp.2 t.id t ht hs).posting e u sender recipient posting hsent (hid.trans href)
  · rw [hcall] at hc
    cases hc
  · rw [hcall] at hc
    cases hc

/-- `FailsQuietly` on the requests made: whoever waits for wallets has asked for them. -/
def failsQuietly (s : State) : Action → Bool
  | .transaction (.run e _) =>
    match s.transaction.executions e with
    | some ⟨_, some (.fail id _)⟩ => s.transaction.calls.all fun
      | (i, .validation _ _) =>
        match s.transaction.executions i with
        | some ⟨_, some (.validate t)⟩ => decide (t.id ≠ id)
        | _ => true
      | (i, .post t _ _ _) => decide (t.id ≠ id) ||
        match s.ledger.calls (.inl i) with
        | some ⟨_, .stopped⟩ | some ⟨_, .answered (.error _)⟩ => true
        | _ => false
      | _ => true
    | _ => true
  | _ => true

theorem failsQuietly_ok (hi : Invariant config s) (h : failsQuietly s a = true) :
    FailsQuietly s a := by
  cases a with
  | transaction action =>
    cases action with
    | run e choice =>
      intro origin id error t he _ _
      simp only [failsQuietly, he, List.all_eq_true] at h
      refine ⟨fun i origin' u hu hid => ?_, fun i u sender recipient posting hmem hid => ?_⟩
      · have hcheck := h _ (hi.calls.made i origin' _ _ hu rfl)
        simp [hu, hid] at hcheck
      · have hcheck := h _ hmem
        simp only [hid, ne_eq, not_true_eq_false, decide_false, Bool.false_or] at hcheck
        split at hcheck
        · next hc => exact ⟨_, .inl hc⟩
        · next hc => exact ⟨_, .inr ⟨_, hc⟩⟩
        · cases hcheck
    | _ => trivial
  | _ => trivial

open Transaction (senderWallet recipientWallet usd)

/-- A domestic transfer of a sender without funds, whose posting the Ledger rejects. -/
def rejectedRun : List Action :=
  provisionRun 0 senderWallet 1 usd ++ provisionRun 1 recipientWallet 2 usd ++ requestedRun ++
  committedRun ++ [
  .transaction (.run 0 { posting := .error (.http Ledger.insufficientFunds) }),
  .transaction (.run 0 { date := 2 })]

/-- The theorem at the end of `rejectedRun`. -/
theorem failed_transfers_unposted_rejectedRun : ∃ s t,
    (system settlementConfig).runWhere (fun s a => keepsSeven s a && failsQuietly s a) .initial
      rejectedRun = some s ∧
    s.ledger.calls (.inl 0) =
      some ⟨.post domesticPosting false, .answered (.error Ledger.insufficientFunds)⟩ ∧
    t ∈ s.transaction.db.transfers.rows ∧ t.status = .failed ∧
    ∀ tx ∈ s.ledger.db.transactions.rows, tx.externalReference ≠ t.id := by
  have hrun : ((system settlementConfig).runWhere (fun s a => keepsSeven s a && failsQuietly s a)
      .initial rejectedRun).map (fun s => (s.ledger.calls (.inl 0),
        s.transaction.db.transfers.rows.map Transaction.Transfer.status)) =
      some (some ⟨.post domesticPosting false, .answered (.error Ledger.insufficientFunds)⟩,
        [.failed]) := by
    decide +kernel
  obtain ⟨s, hs, heq⟩ := Option.map_eq_some_iff.mp hrun
  obtain ⟨hcall, hrows⟩ := Prod.mk.inj heq
  obtain ⟨t, ht, hstatus⟩ := List.mem_map.mp (hrows ▸ List.mem_singleton.mpr rfl)
  have hreachable : (system settlementConfig).ReachableBy
      (fun s a => KeepsApart {7} s a ∧ FailsQuietly s a) s := by
    refine System.ReachableBy.runWhere_of_reachable (fun s a hr h => ?_) .init hs
    rw [Bool.and_eq_true] at h
    exact ⟨keepsApart_seven s a h.1, failsQuietly_ok (invariant_of_reachable hr) h.2⟩
  exact ⟨s, t, hs, hcall, ht, hstatus, failed_transfers_unposted hreachable t ht hstatus⟩

/-- While the posting of `sentRun` is on its way, its answer is given up and a forced reconcile
finds nothing posted and the Account service unavailable. -/
def overtakenRun : List Action := [
  .transaction (.run 0 { posting := .error .unavailable }),
  .transaction (.request 1 (.reconcile 7 true)),
  .transaction (.run 1 {}),
  .transaction (.run 1 { found := .error (.http Ledger.postingNotFound) }),
  .transaction (.run 1 { date := 2 }),
  .transaction (.run 1 {}),
  .transaction (.run 1 { account := .error .unavailable }),
  .transaction (.run 1 { date := 3 })]

/-- The failed transfer of `overtakenRun` is posted when the first attempt reaches the Ledger. -/
theorem failed_transfer_posted : ∃ s, (system settlementConfig).ReachableBy (KeepsApart {7}) s ∧
    ∃ t ∈ s.transaction.db.transfers.rows, t.status = .failed ∧
      ∃ tx ∈ s.ledger.db.transactions.rows, tx.externalReference = t.id := by
  have hrun : ((system settlementConfig).runWhere keepsSeven .initial
      (sentRun ++ overtakenRun ++ committedRun)).map (fun s =>
        s.transaction.db.transfers.rows.any fun t => decide (t.status = .failed) &&
          s.ledger.db.transactions.rows.any fun tx => decide (tx.externalReference = t.id)) =
      some true := by decide +kernel
  obtain ⟨s, hs, hstate⟩ := Option.map_eq_some_iff.mp hrun
  simp only [List.any_eq_true, Bool.and_eq_true, decide_eq_true_eq] at hstate
  exact ⟨s, System.ReachableBy.runWhere keepsApart_seven .init hs, hstate⟩

end NovaPay.Settlement
