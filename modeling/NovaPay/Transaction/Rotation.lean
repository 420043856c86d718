import Mathlib.Data.List.Sort
import NovaPay.Transaction.Leads
import NovaPay.Transaction.Ownership
import NovaPay.Transaction.Recovery

/-!
# One pass over the stale transfers

`runOnce` reconciles the first fifty rows of `findStale`, which are the ones that were written longest ago.
A row that a reconcile writes goes to the end of that order or leaves it; a row that it only reads stays
where it is.
-/

namespace NovaPay.Transaction

open DecimalArithmetic Relational TransitionSystem

/-- The status and the type that `findStale` asks for. -/
def Transfer.selected (t : Transfer) : Bool :=
  decide (t.status = .processing) || (decide (t.status = .pending) && decide (t.type = .international))

def staleRows (config : Config) (db : Database) (date : Date) : List Transfer :=
  db.transfers.rows.filter fun t => decide ((t.updatedAt : ℤ) ≤ date - config.staleProcessingMs) && t.selected

theorem findStale_eq (config : Config) (db : Database) (date : Date) :
    findStale config db date = (staleRows config db date).map Transfer.id := rfl

/-- `orderBy: [{ updatedAt: 'asc' }, { id: 'asc' }]` -/
def orderedBefore (t u : Transfer) : Prop :=
  t.updatedAt < u.updatedAt ∨ t.updatedAt = u.updatedAt ∧ t.id ≤ u.id

instance : DecidableRel orderedBefore := fun _ _ => inferInstanceAs (Decidable (_ ∨ _))

/-- `findStale` with its order and limit. -/
def findStaleIds (config : Config) (db : Database) (date : Date) (limit : ℕ) : List Uuid :=
  (((staleRows config db date).insertionSort orderedBefore).take limit).map Transfer.id

/-- An execution that runs alone, for a number of statements. -/
def settle (config : Config) (now : Time) : ℕ → (ℕ → Choice) → Database → Next → Database × Option Outcome
  | _, _, db, .answer outcome => (db, some outcome)
  | 0, _, db, .goto _ => (db, none)
  | fuel + 1, cs, db, .goto pc =>
    settle config now fuel (fun i => cs (i + 1)) (advance config now (cs 0) db pc).1
      (advance config now (cs 0) db pc).2

/-- `reconcile(id, true)`, which takes eight statements at most. -/
def reconcileAlone (config : Config) (now : Time) (cs : ℕ → Choice) (db : Database) (id : Uuid) :
    Database × Option Outcome :=
  settle config now 8 cs db (.goto (.reconcileRead id true))

/-- What a pass takes from outside: the clock when `findStale` reads it, and for the statements of each
reconcile the answers of the other services, fresh ids and the clock, which does not go back. -/
structure Pass where
  date : Date
  choices : ℕ → ℕ → Choice
  clock : ∀ i n, date ≤ (choices i n).date

/-- The loop of `runOnce`; an exception is logged and the next transfer follows. -/
def reconcileAll (config : Config) (now : Time) : (ℕ → ℕ → Choice) → Database → List Uuid → Database
  | _, db, [] => db
  | choices, db, id :: ids =>
    reconcileAll config now (fun i => choices (i + 1)) (reconcileAlone config now (choices 0) db id).1 ids

structure PassResult where
  db : Database
  inspected : ℕ

def runOnce (config : Config) (now : Time) (pass : Pass) (db : Database) : PassResult :=
  let ids := findStaleIds config db pass.date 50
  ⟨reconcileAll config now pass.choices db ids, ids.length⟩

/-- The preparation that FX's answer asks for passes the constraints of the tables. -/
structure Accepts (db : Database) (quote : QuoteResponse) (ids : ClaimIds) : Prop where
  targetAmount : ∃ a : Money, Numeric.ofRat? quote.targetAmount.value = some a ∧ 0 < a.value
  lockedFxRate : ∃ r : Rate, Numeric.ofRat? quote.rate.value = some r ∧ 0 < r.value
  rowIds : FreshRowIds db ids

/-- The columns of a failure hold its code and message: neither has a NUL, and past 80 and 300
characters there are only blanks, which are dropped. -/
def Fits (error : HttpError) : Prop :=
  ('\x00' ∉ error.code.toList ∧ ∀ c ∈ error.code.toList.drop 80, c = ' ') ∧
    '\x00' ∉ error.message.toList ∧ ∀ c ∈ error.message.toList.drop 300, c = ' '

/-- FX answers with terms that the row can hold, or refuses the quote for good. -/
def QuoteDecides (db : Database) (ids : ClaimIds) : Reply QuoteResponse → Prop
  | .ok (some quote) => Accepts db quote ids
  | .error (.http error) => undecided error.status = false ∧ Fits error
  | _ => False

/-- The Ledger finds a posting that no transfer was completed with, or finds none. -/
def PostingDecides (db : Database) : Reply LedgerPosting → Prop
  | .ok (some posting) => ∀ u ∈ db.transfers.rows, u.ledgerTransactionId ≠ some posting.id
  | .error (.http error) => error.status = 404
  | _ => False

/-- The first answer that the reconcile of a transfer waits for decides something. -/
def Decides (db : Database) (t : Transfer) (cs : ℕ → Choice) : Prop :=
  (t.status = .pending → QuoteDecides db (cs 3).ids (cs 2).quote) ∧
    (t.status = .processing → PostingDecides db (cs 1).found)

/-- The transfer is not selected any more, or it was written later. -/
def Rotated (t : Transfer) (db : Database) : Prop :=
  ∃ t', db.findTransfer t.id = some t' ∧ (t'.selected = false ∨ t.updatedAt < t'.updatedAt)

variable {config : Config} {now : Time} {db db' : Database} {t u : Transfer} {cs : ℕ → Choice} {pc : Pc}
  {next : Next} {c : Choice} {origin : Origin}

/-! ### What one statement writes -/

theorem Transfer.selected_iff : t.selected = true ↔
    t.status = .processing ∨ t.status = .pending ∧ t.type = .international := by
  simp [Transfer.selected]

/-- A row is written at the clock reading of the statement. -/
theorem Written.updatedAt_eq (h : Written c db pc u) (hpc : ∀ request, pc ≠ .claimInsert request) :
    u.updatedAt = c.date := by
  cases h with
  | created heq => exact absurd heq (hpc _)
  | _ => rfl

/-- A reconcile writes no row of another transfer. -/
theorem advance_other (hl : Lockstep db) {id id' : Uuid}
    (hpc : PcOk config db (.reconcile id true) pc) (hne : id' ≠ id) :
    (advance config now c db pc).1.findTransfer id' = db.findTransfer id' := by
  have heffect : Effect db pc (advance config now c db pc).1 := advance_effect hl hpc
  cases heffect with
  | same heq => rw [heq]
  | created heq =>
    subst heq
    cases hpc.checked
  | @moved t t' r r' hid hm =>
    have hserves : t.id = id := hpc.serves t.id hid
    have hsame : t'.id = t.id := hm.move.same.id.symm
    rw [hm.replaces.transfer, if_neg (by rw [hsame, hserves]; exact hne)]

/-- What a row has, it has after a statement if every write at that time has it. -/
theorem row_advance {K : Transfer → Prop} {id id' : Uuid} (hrow : ∃ t', db.findTransfer id' = some t' ∧ K t')
    (hl : Lockstep db) (hpc : PcOk config db (.reconcile id true) pc) (hdate : ∀ u, u.updatedAt = c.date → K u) :
    ∃ t', (advance config now c db pc).1.findTransfer id' = some t' ∧ K t' := by
  obtain ⟨t', ht', hk⟩ := hrow
  have hok : StatementOk config db (.reconcile id true) (advance config now c db pc) := advance_ok hl hpc
  obtain ⟨u, hu, -⟩ : ∃ u, (advance config now c db pc).1.findTransfer id' = some u ∧ Progress t' u := by
    obtain heq | hchange := hok.1
    · exact ⟨t', by rw [heq, ht'], .refl t'⟩
    · exact (hchange.evolves hl).transfer id' t' ht'
  refine ⟨u, hu, ?_⟩
  have hwritten : RowsWritten c db pc (advance config now c db pc).1 := advance_written hl hpc
  obtain hold | hw := hwritten id' u hu
  · obtain rfl := Option.some.inj (ht'.symm.trans hold)
    exact hk
  · refine hdate u (hw.updatedAt_eq fun request heq => ?_)
    subst heq
    cases hpc.checked

theorem Rotated.advance {id : Uuid} (hr : Rotated t db) (hl : Lockstep db)
    (hpc : PcOk config db (.reconcile id true) pc) (hdate : t.updatedAt < c.date) :
    Rotated t (advance config now c db pc).1 :=
  row_advance hr hl hpc fun _ hu => .inr (hu ▸ hdate)

/-! ### What one reconcile writes -/

/-- What every statement of a reconcile keeps, a reconcile keeps. -/
theorem settle_keeps {Q : Choice → Prop} {P : Database → Prop} {id : Uuid}
    (hstep : ∀ c db pc, Q c → Lockstep db → PcOk config db (.reconcile id true) pc → P db →
      P (advance config now c db pc).1)
    (fuel : ℕ) (hQ : ∀ n, Q (cs n)) (hl : Lockstep db) (hnext : NextOk config db (.reconcile id true) next)
    (hp : P db) : Lockstep (settle config now fuel cs db next).1 ∧ P (settle config now fuel cs db next).1 := by
  induction fuel generalizing cs db next with
  | zero => cases next <;> exact ⟨hl, hp⟩
  | succ fuel ih =>
    cases next with
    | answer outcome => exact ⟨hl, hp⟩
    | goto pc =>
      have hok : StatementOk config db (.reconcile id true) (advance config now (cs 0) db pc) :=
        advance_ok hl hnext
      refine ih (fun n => hQ (n + 1)) ?_ hok.2 (hstep _ db pc (hQ 0) hl hnext hp)
      obtain heq | hchange := hok.1
      · rw [heq]
        exact hl
      · exact hchange.lockstep hl

/-- The statements from one on, itself included. -/
def Pc.distance : Pc → ℕ
  | .claimLookup _ => 12
  | .claimInsert _ => 11
  | .claimRecover _ => 10
  | .databaseNow _ _ => 9
  | .reconcileRead _ _ => 8
  | .reconcileReload _ | .byReference _ _ => 7
  | .consume _ _ | .claimRetry _ _ | .transition _ => 6
  | .prepare _ _ => 5
  | .processRead _ => 4
  | .validate _ => 3
  | .post _ _ _ _ => 2
  | .claimQuoteLookup _ | .complete _ _ | .fail _ _ | .reread _ => 1

theorem Leads.distance {pc' : Pc} (h : Leads db db' pc pc') : pc'.distance < pc.distance := by
  cases h <;> simp [Pc.distance]

theorem settle_answers {id : Uuid} (fuel : ℕ) (hl : Lockstep db)
    (hnext : NextOk config db (.reconcile id true) next) (hfuel : ∀ pc, next = .goto pc → pc.distance ≤ fuel) :
    (settle config now fuel cs db next).2.isSome = true := by
  induction fuel generalizing cs db next with
  | zero =>
    cases next with
    | answer outcome => rfl
    | goto pc =>
      have hpos : 0 < pc.distance := by cases pc <;> simp [Pc.distance]
      have hle := hfuel pc rfl
      omega
  | succ fuel ih =>
    cases next with
    | answer outcome => rfl
    | goto pc =>
      have hok : StatementOk config db (.reconcile id true) (advance config now (cs 0) db pc) :=
        advance_ok hl hnext
      have hleads : (advance config now (cs 0) db pc).2.Leads db (advance config now (cs 0) db pc).1 pc :=
        advance_leads hl hnext
      refine ih ?_ hok.2 fun pc' heq => ?_
      · obtain heq | hchange := hok.1
        · rw [heq]
          exact hl
        · exact hchange.lockstep hl
      · rw [heq] at hleads
        have hlt := Leads.distance hleads
        have hle := hfuel pc rfl
        omega

theorem reconcile_entry_ok (id : Uuid) :
    NextOk config db (.reconcile id true) (.goto (.reconcileRead id true)) :=
  entry_ok (show (Origin.reconcile id true).entry = .ok (.reconcileRead id true) from rfl)

/-- Eight statements are enough: a forced reconcile always answers. -/
theorem reconcileAlone_answers (hl : Lockstep db) (id : Uuid) :
    (reconcileAlone config now cs db id).2.isSome = true :=
  settle_answers 8 hl (reconcile_entry_ok id) fun pc heq => by
    cases heq
    exact le_refl 8

theorem reconcileAlone_lockstep (hl : Lockstep db) (id : Uuid) :
    Lockstep (reconcileAlone config now cs db id).1 :=
  (settle_keeps (Q := fun _ => True) (P := fun _ => True) (fun _ _ _ _ _ _ _ => trivial) 8 (fun _ => trivial) hl
    (reconcile_entry_ok id) trivial).1

/-- A reconcile leaves the rows of the other transfers as they are. -/
theorem reconcileAlone_other (hl : Lockstep db) {id id' : Uuid} (hne : id' ≠ id) :
    (reconcileAlone config now cs db id).1.findTransfer id' = db.findTransfer id' :=
  (settle_keeps (Q := fun _ => True) (P := fun db' => db'.findTransfer id' = db.findTransfer id')
    (fun _ _ _ _ hl' hpc hp => (advance_other hl' hpc hne).trans hp) 8 (fun _ => trivial) hl
    (reconcile_entry_ok id) rfl).2

theorem settle_rotated {fuel : ℕ} {id : Uuid} (hr : Rotated t db) (hl : Lockstep db)
    (hnext : NextOk config db (.reconcile id true) next) (hclock : ∀ n, t.updatedAt < (cs n).date) :
    Rotated t (settle config now fuel cs db next).1 :=
  (settle_keeps (Q := fun c => t.updatedAt < c.date) (P := Rotated t)
    (fun _ _ _ hdate hl' hpc hp => hp.advance hl' hpc hdate) fuel hclock hl hnext hr).2

/-- A selected row that is not written has not rotated. -/
theorem not_rotated (ht : db.findTransfer t.id = some t) (hsel : t.selected = true) : ¬ Rotated t db := by
  rintro ⟨t', ht', hlater⟩
  obtain rfl := Option.some.inj (ht.symm.trans ht')
  obtain hnot | hlt := hlater
  · rw [hsel] at hnot
    cases hnot
  · exact absurd hlt (lt_irrefl _)

theorem rotated_of_moved {t' : Transfer} {r r' : IdempotencyRecord} (h : Moved db db' t r t' r')
    (hlater : t'.selected = false ∨ t.updatedAt < t'.updatedAt) : Rotated t db' :=
  ⟨t', by
    have hfind := h.replaces.findTransfer
    rwa [h.move.same.id.symm] at hfind, hlater⟩

theorem moved_eq {t' v : Transfer} {r r' : IdempotencyRecord} (h : Moved db db' v r t' r')
    (ht : db.findTransfer t.id = some t) (hid : v.id = t.id) : v = t := by
  have hfound := h.found
  rw [hid, ht] at hfound
  exact (Option.some.inj hfound).symm

/-- A completion is stored exactly if it names a posting that no other transfer has. -/
theorem runComplete_rotates_iff (hl : Lockstep db) (ht : db.findTransfer t.id = some t)
    (hp : t.status = .processing) {x : Option Uuid} : Rotated t (runComplete c db t.id x).1 ↔
      ∃ y, x = some y ∧ ∀ u ∈ db.transfers.rows, u.ledgerTransactionId ≠ some y := by
  have hsel : t.selected = true := Transfer.selected_iff.mpr (.inl hp)
  constructor
  · intro hr
    unfold runComplete at hr
    split at hr
    · next db' v transitioned hok =>
      obtain ⟨-, rfl, -, -⟩ | ⟨-, v, r, y, rfl, hid, rfl, hm⟩ := complete_ok hl hok
      · exact absurd hr (not_rotated ht hsel)
      · obtain rfl := moved_eq hm ht hid
        refine ⟨y, rfl, fun u hu heq => ?_⟩
        -- the completed row and another one would share the posting
        have hnew : db'.findTransfer v.id = some (v.complete (some y) c.startedAt c.date) :=
          hm.replaces.findTransfer
        have hne : u.id ≠ v.id := by
          intro hsame
          obtain rfl := Database.transfer_eq hu (Database.findTransfer_eq_some_iff.mp ht).1 hsame
          have hcheck : u.check = true := db.transfers.checked u hu
          simp [Transfer.check, Transfer.terminalStateCheck, hp, heq] at hcheck
        have hold : db'.findTransfer u.id = some u := by
          rw [hm.replaces.transfer]
          exact (if_neg hne).trans (Database.findTransfer_eq_some_iff.mpr ⟨hu, rfl⟩)
        have hsame := eq_of_uniqueWhere (ledger_ids db') (Database.findTransfer_eq_some_iff.mp hnew).1
          (Database.findTransfer_eq_some_iff.mp hold).1 (k := y) rfl heq
        exact hne (congrArg Transfer.id hsame).symm
    · exact absurd hr (not_rotated ht hsel)
  · rintro ⟨y, rfl, hfresh⟩
    obtain ⟨db', v, hok⟩ : ∃ db' v, complete db t.id (some y) c.startedAt c.date = .ok (db', v, true) :=
      complete_enabled hl ht hp hfresh
    obtain ⟨-, v, r, y, -, hid, rfl, hm⟩ := (complete_ok hl hok).resolve_left fun h => Bool.noConfusion h.1
    obtain rfl := moved_eq hm ht hid
    unfold runComplete
    rw [hok]
    exact rotated_of_moved hm (.inl rfl)

/-- A failure is stored exactly if its code and message fit. -/
theorem runFail_rotates_iff (hl : Lockstep db) (ht : db.findTransfer t.id = some t) (hsel : t.selected = true)
    {error : HttpError} (hstatus : 100 ≤ error.status ∧ error.status ≤ 599) :
    Rotated t (runFail c db t.id error).1 ↔ Fits error := by
  have hopen : t.status.open = true := by
    obtain hp | ⟨hp, -⟩ := Transfer.selected_iff.mp hsel <;> simp [hp, TransferStatus.open]
  constructor
  · intro hr
    unfold runFail at hr
    split at hr
    · next db' v transitioned hok =>
      obtain ⟨-, rfl, -, -⟩ | ⟨-, v, r, hid, rfl, hm⟩ := fail_ok hl hok
      · exact absurd hr (not_rotated ht hsel)
      · have hmem := (Database.findTransfer_eq_some_iff.mp hm.replaces.findTransfer).1
        have hcheck : (v.fail error c.date).check = true := db'.transfers.checked _ hmem
        simp only [Transfer.check, Bool.and_eq_true] at hcheck
        have hfits := hcheck.2
        simp only [Transfer.failureFits, Transfer.fail, Option.all_some, Bool.and_eq_true] at hfits
        exact ⟨Varchar.fitsColumn_assign_iff.mp hfits.1, Varchar.fitsColumn_assign_iff.mp hfits.2⟩
    · exact absurd hr (not_rotated ht hsel)
  · intro hfits
    obtain ⟨db', v, hok⟩ : ∃ db' v, fail db t.id error c.date = .ok (db', v, true) :=
      fail_enabled ht hopen
        ⟨Varchar.fitsColumn_assign_iff.mpr hfits.1, Varchar.fitsColumn_assign_iff.mpr hfits.2, hstatus⟩
    obtain ⟨-, v, r, hid, rfl, hm⟩ := (fail_ok hl hok).resolve_left fun h => Bool.noConfusion h.1
    obtain rfl := moved_eq hm ht hid
    unfold runFail
    rw [hok]
    exact rotated_of_moved hm (.inl rfl)

/-- The retry of a row that was just read is claimed. -/
theorem runClaimRetry_rotates (hl : Lockstep db) (ht : db.findTransfer t.id = some t)
    (hp : t.status = .processing) (hdate : t.updatedAt < c.date) : Rotated t (runClaimRetry c db t none).1 := by
  obtain ⟨db', hok⟩ : ∃ db', claimProcessingRetry db t none c.date = .ok (db', true) :=
    claimProcessingRetry_enabled ht hp
  obtain ⟨-, v, r, hid, -, hm⟩ := (claimProcessingRetry_ok hl hok).resolve_left fun h => Bool.noConfusion h.1
  obtain rfl := moved_eq hm ht hid
  unfold runClaimRetry
  rw [hok]
  exact rotated_of_moved hm (.inr hdate)

theorem accepts_of_prepared (hl : Lockstep db) (ht : db.findTransfer t.id = some t)
    (hi : t.type = .international) {quote : QuoteResponse} {ids : ClaimIds} {date : Date}
    (h : prepareInternational db t quote ids.senderRowId ids.recipientRowId date = .ok (db', true)) :
    Accepts db quote ids := by
  have hsame : ∀ v, db.findTransfer t.id = some v → SameTransfer t v := fun v hv => by
    rw [Option.some.inj (ht.symm.trans hv)]
    exact .refl v
  obtain ⟨-, v, r, a, x, hid, -, ha, hx, hm⟩ :=
    (prepareInternational_ok hl hsame h).resolve_left fun h => Bool.noConfusion h.1
  obtain rfl := moved_eq hm ht hid
  have hcheck : (v.prepare a x date).check = true :=
    db'.transfers.checked _ (Database.findTransfer_eq_some_iff.mp hm.replaces.findTransfer).1
  simp only [Transfer.check, Bool.and_eq_true] at hcheck
  obtain ⟨⟨⟨⟨⟨-, hamount⟩, htype⟩, -⟩, -⟩, -⟩ := hcheck
  simp only [Transfer.prepare, Option.all_some, decide_eq_true_eq] at hamount
  have hrate : 0 < x.value := by
    simp only [Transfer.typeCheck, Transfer.prepare, hi, Bool.or_eq_true, Bool.and_eq_true,
      Option.all_some, Option.isNone_some, decide_eq_true_eq] at htype
    simp only [reduceCtorEq, false_or, Bool.false_eq_true, false_and] at htype
    exact htype.2.2
  refine ⟨⟨a, ha, hamount⟩, ⟨x, hx, hrate⟩, ?_⟩
  unfold prepareInternational at h
  rw [ha, hx] at h
  obtain ⟨⟨T, n⟩, -, h⟩ := bind_eq_ok h
  dsimp only at h
  split at h
  · obtain ⟨H, hH, -⟩ := bind_eq_ok h
    have hrows := Table.insertMany_ok hH
    have hindexed : historyIndexed H.rows = true := H.indexed
    simp only [historyIndexed, Bool.and_eq_true, uniqueBy_iff] at hindexed
    have hnodup := hindexed.1
    rw [hrows, List.map_append, List.nodup_append] at hnodup
    obtain ⟨-, hnew, hold⟩ := hnodup
    simp only [preparedHistory, List.map_cons, List.map_nil] at hnew hold
    refine ⟨by simpa using hnew, fun row hrow => ?_, fun row hrow => ?_⟩
    · exact hold row.id (List.mem_map_of_mem hrow) ids.senderRowId (by simp)
    · exact hold row.id (List.mem_map_of_mem hrow) ids.recipientRowId (by simp)
  · cases h

theorem settle_reread {fuel : ℕ} {id : Uuid} :
    (settle config now (fuel + 1) cs db (.goto (.reread id))).1 = db := by
  have hanswer : ∃ outcome, (advance config now (cs 0) db (.reread id)) = (db, .answer outcome) := by
    change ∃ outcome, (db, withTransfer db id fun t => .answer (resultForTransfer t)) = (db, .answer outcome)
    unfold withTransfer
    split <;> exact ⟨_, rfl⟩
  obtain ⟨outcome, heq⟩ := hanswer
  rw [settle, heq, settle]

/-- The terms of a quote rotate a pending transfer exactly if the tables accept them. -/
theorem settle_prepare_iff {fuel : ℕ} (hl : Lockstep db) (ht : db.findTransfer t.id = some t)
    (hi : t.type = .international) (hp : t.status = .pending) (hclock : ∀ n, t.updatedAt < (cs n).date)
    {quote : QuoteResponse} (hnext : NextOk config db (.reconcile t.id true) (.goto (.prepare t quote))) :
    Rotated t (settle config now (fuel + 2) cs db (.goto (.prepare t quote))).1 ↔
      Accepts db quote (cs 0).ids := by
  have hsel : t.selected = true := Transfer.selected_iff.mpr (.inr ⟨hp, hi⟩)
  have hok : StatementOk config db (.reconcile t.id true) (advance config now (cs 0) db (.prepare t quote)) :=
    advance_ok hl hnext
  have hsame : ∀ v, db.findTransfer t.id = some v → SameTransfer t v := fun v hv => by
    rw [Option.some.inj (ht.symm.trans hv)]
    exact .refl v
  rw [settle]
  change StatementOk config db (.reconcile t.id true) (runPrepare (cs 0) db t quote) at hok
  change Rotated t (settle config now (fuel + 1) _ (runPrepare (cs 0) db t quote).1
    (runPrepare (cs 0) db t quote).2).1 ↔ _
  unfold runPrepare at hok ⊢
  cases hprepare : prepareInternational db t quote (cs 0).ids.senderRowId (cs 0).ids.recipientRowId (cs 0).date with
  | ok result =>
    obtain ⟨db', prepared⟩ := result
    rw [hprepare] at hok
    cases prepared with
    | true =>
      obtain ⟨-, v, r, a, x, hid, -, -, -, hm⟩ :=
        (prepareInternational_ok hl hsame hprepare).resolve_left fun h => Bool.noConfusion h.1
      obtain rfl := moved_eq hm ht hid
      refine iff_of_true ?_ (accepts_of_prepared hl ht hi hprepare)
      exact settle_rotated (rotated_of_moved hm (.inr (hclock 0))) (hm.change.lockstep hl) hok.2
        fun n => hclock (n + 1)
    | false =>
      obtain ⟨-, rfl⟩ := (prepareInternational_ok hl hsame hprepare).resolve_right fun h => Bool.noConfusion h.1
      refine iff_of_false ?_ fun haccepts => ?_
      · rw [settle_reread]
        exact not_rotated ht hsel
      · obtain ⟨⟨a, ha, hpos⟩, ⟨x, hx, hrate⟩, hids⟩ := haccepts
        obtain ⟨db'', henabled⟩ : ∃ db'', prepareInternational db' t quote (cs 0).ids.senderRowId
            (cs 0).ids.recipientRowId (cs 0).date = .ok (db'', true) :=
          prepareInternational_enabled hl ht hi hp ha hpos hx hrate hids
        rw [hprepare] at henabled
        cases henabled
  | error error =>
    refine iff_of_false ?_ fun haccepts => ?_
    · exact not_rotated ht hsel
    · obtain ⟨⟨a, ha, hpos⟩, ⟨x, hx, hrate⟩, hids⟩ := haccepts
      obtain ⟨db', henabled⟩ : ∃ db', prepareInternational db t quote (cs 0).ids.senderRowId
          (cs 0).ids.recipientRowId (cs 0).date = .ok (db', true) :=
        prepareInternational_enabled hl ht hi hp ha hpos hx hrate hids
      rw [hprepare] at henabled
      cases henabled

/-- A forced reconcile of a processing transfer asks the Ledger for its posting. -/
theorem reconcile_processing (ht : db.findTransfer t.id = some t) (hp : t.status = .processing) :
    reconcileAlone config now cs db t.id = settle config now 6 (fun i => cs (i + 2)) db
      (afterByReference config (cs 1) t true (cs 1).found) := by
  have hread : advance config now (cs 0) db (.reconcileRead t.id true) = (db, .goto (.byReference t true)) := by
    simp [advance, withTransfer, ht, reconcileFrom, hp]
  rw [reconcileAlone, settle, hread, settle]
  rfl

/-- A forced reconcile of a pending international transfer consumes its quote. -/
theorem reconcile_pending (ht : db.findTransfer t.id = some t) (hi : t.type = .international)
    (hp : t.status = .pending) : ∃ quoteId, NextOk config db (.reconcile t.id true) (.goto (.consume t quoteId)) ∧
      reconcileAlone config now cs db t.id = settle config now 5 (fun i => cs (i + 3)) db (runConsume (cs 2) t) := by
  have hcheck : t.check = true := db.transfers.checked t (Database.findTransfer_eq_some_iff.mp ht).1
  obtain ⟨quoteId, hq⟩ : ∃ quoteId, t.fxQuoteId = some quoteId := by
    simp only [Transfer.check, Transfer.typeCheck, hi, Bool.and_eq_true, Bool.or_eq_true] at hcheck
    obtain ⟨⟨⟨⟨-, htype⟩, -⟩, -⟩, -⟩ := hcheck
    obtain htype | htype := htype
    · simp at htype
    · exact Option.isSome_iff_exists.mp htype.1.2
  have hread : advance config now (cs 0) db (.reconcileRead t.id true) = (db, .goto (.reconcileReload t.id)) := by
    simp [advance, withTransfer, ht, reconcileFrom, hi, hp]
  have hreload : advance config now (cs 1) db (.reconcileReload t.id) = (db, .goto (.consume t quoteId)) := by
    simp [advance, runReconcileReload, ht, enterPrepareInternational, hi, hp, hq]
  refine ⟨quoteId, goto_transfer_ok rfl ⟨t, ht, .refl t⟩ rfl rfl ⟨hp, hi, hq⟩ (by simp), ?_⟩
  rw [reconcileAlone, settle, hread, settle, hreload, settle]
  rfl

theorem processing_rotates_iff (hl : Lockstep db) (ht : db.findTransfer t.id = some t)
    (hp : t.status = .processing) (hclock : ∀ n, t.updatedAt < (cs n).date) :
    Rotated t (reconcileAlone config now cs db t.id).1 ↔ PostingDecides db (cs 1).found := by
  have hsel : t.selected = true := Transfer.selected_iff.mpr (.inl hp)
  rw [reconcile_processing ht hp]
  cases hfound : (cs 1).found with
  | ok posting =>
    have hcomplete : (settle config now 6 (fun i => cs (i + 2)) db
        (.goto (.complete t.id (posting.map LedgerPosting.id)))).1 =
          (runComplete (cs 2) db t.id (posting.map LedgerPosting.id)).1 := by
      rw [settle]
      change (settle config now 5 _ (runComplete (cs 2) db t.id _).1 (runComplete (cs 2) db t.id _).2).1 = _
      unfold runComplete
      split <;> rfl
    change Rotated t (settle config now 6 _ db (.goto (.complete t.id (posting.map LedgerPosting.id)))).1 ↔ _
    rw [hcomplete, runComplete_rotates_iff hl ht hp]
    cases posting with
    | none => exact iff_of_false (by simp) id
    | some posting =>
      refine ⟨fun h => ?_, fun h => ⟨posting.id, rfl, h⟩⟩
      obtain ⟨y, heq, hfresh⟩ := h
      cases heq
      exact hfresh
  | error error =>
    cases error with
    | unavailable => exact iff_of_false (not_rotated ht hsel) id
    | http error =>
      change Rotated t (settle config now 6 _ db (afterByReference config (cs 1) t true (.error (.http error)))).1 ↔
        error.status = 404
      by_cases hstatus : error.status = 404
      · refine iff_of_true ?_ hstatus
        have hretry : afterByReference config (cs 1) t true (.error (.http error)) = .goto (.claimRetry t none) := by
          simp [afterByReference, hstatus]
        have hnext : NextOk config db (.reconcile t.id true) (.goto (.claimRetry t none)) :=
          goto_transfer_ok rfl ⟨t, ht, .refl t⟩ rfl rfl hp (by simp)
        have hok : StatementOk config db (.reconcile t.id true) (advance config now (cs 2) db (.claimRetry t none)) :=
          advance_ok hl hnext
        rw [hretry, settle]
        refine settle_rotated (runClaimRetry_rotates hl ht hp (hclock 2)) ?_ hok.2 fun n => hclock (n + 3)
        obtain heq | hchange := hok.1
        · exact (congrArg Lockstep heq).mpr hl
        · exact hchange.lockstep hl
      · refine iff_of_false ?_ hstatus
        have hanswer : afterByReference config (cs 1) t true (.error (.http error)) =
            .answer (.error internalServerError) := by
          simp [afterByReference, hstatus]
        rw [hanswer]
        exact not_rotated ht hsel

theorem pending_rotates_iff (hl : Lockstep db) (ht : db.findTransfer t.id = some t)
    (hi : t.type = .international) (hp : t.status = .pending) (hclock : ∀ n, t.updatedAt < (cs n).date) :
    Rotated t (reconcileAlone config now cs db t.id).1 ↔ QuoteDecides db (cs 3).ids (cs 2).quote := by
  have hsel : t.selected = true := Transfer.selected_iff.mpr (.inr ⟨hp, hi⟩)
  obtain ⟨quoteId, hconsume, heq⟩ : ∃ quoteId,
      NextOk config db (.reconcile t.id true) (.goto (.consume t quoteId)) ∧ reconcileAlone config now cs db t.id =
        settle config now 5 (fun i => cs (i + 3)) db (runConsume (cs 2) t) := reconcile_pending ht hi hp
  have hconsumed : StatementOk config db (.reconcile t.id true) (advance config now (cs 2) db (.consume t quoteId)) :=
    advance_ok hl hconsume
  rw [heq]
  have hok : NextOk config db (.reconcile t.id true) (runConsume (cs 2) t) := hconsumed.2
  unfold runConsume at hok ⊢
  cases hquote : (cs 2).quote with
  | ok quote =>
    cases quote with
    | none => exact iff_of_false (not_rotated ht hsel) id
    | some quote =>
      rw [hquote] at hok
      exact settle_prepare_iff hl ht hi hp (fun n => hclock (n + 3)) hok
  | error error =>
    cases error with
    | unavailable => exact iff_of_false (not_rotated ht hsel) id
    | http error =>
      change Rotated t (settle config now 5 _ db (handleFxFailure t (.http error))).1 ↔
        undecided error.status = false ∧ Fits error
      cases hundecided : undecided error.status with
      | true =>
        have hanswer : handleFxFailure t (.http error) = .answer (processingResult t) := by
          simp [handleFxFailure, hundecided]
        rw [hanswer]
        exact iff_of_false (not_rotated ht hsel) fun h => Bool.noConfusion h.1
      | false =>
        obtain ⟨error', hfits, hstatus, hgoto⟩ : ∃ error' : HttpError, (Fits error' ↔ Fits error) ∧
            (100 ≤ error'.status ∧ error'.status ≤ 599) ∧
            handleFxFailure t (.http error) = .goto (.fail t.id error') := by
          refine ⟨{ error with status := if error.status = 404 then 404 else 409 }, Iff.rfl, ?_, ?_⟩
          · dsimp only
            split <;> exact ⟨by norm_num, by norm_num⟩
          · simp [handleFxFailure, hundecided]
        have hfail : (settle config now 5 (fun i => cs (i + 3)) db (.goto (.fail t.id error'))).1 =
            (runFail (cs 3) db t.id error').1 := by
          rw [settle]
          change (settle config now 4 _ (runFail (cs 3) db t.id error').1 (runFail (cs 3) db t.id error').2).1 = _
          unfold runFail
          split <;> rfl
        rw [hgoto, hfail, runFail_rotates_iff hl ht hsel hstatus, hfits]
        exact (and_iff_right rfl).symm

/-- A selected transfer rotates exactly if the first answer that its reconcile waits for decides
something. -/
theorem reconcile_rotates_iff (hl : Lockstep db) (ht : db.findTransfer t.id = some t)
    (hsel : t.selected = true) (hclock : ∀ n, t.updatedAt < (cs n).date) :
    Rotated t (reconcileAlone config now cs db t.id).1 ↔ Decides db t cs := by
  obtain hp | ⟨hp, hi⟩ := Transfer.selected_iff.mp hsel
  · rw [processing_rotates_iff hl ht hp hclock]
    have hnot : t.status ≠ .pending := by simp [hp]
    exact ⟨fun h => ⟨fun hp' => absurd hp' hnot, fun _ => h⟩, fun h => h.2 hp⟩
  · rw [pending_rotates_iff hl ht hi hp hclock]
    have hnot : t.status ≠ .processing := by simp [hp]
    exact ⟨fun h => ⟨fun _ => h, fun hp' => absurd hp' hnot⟩, fun h => h.1 hp⟩

/-! ### The pass -/

theorem reconcileAll_append (choices : ℕ → ℕ → Choice) (db : Database) (pre post : List Uuid) :
    reconcileAll config now choices db (pre ++ post) =
      reconcileAll config now (fun i => choices (i + pre.length)) (reconcileAll config now choices db pre) post := by
  induction pre generalizing choices db with
  | nil => rfl
  | cons id pre ih =>
    rw [List.cons_append, reconcileAll, ih, reconcileAll]
    rfl

theorem reconcileAll_lockstep (choices : ℕ → ℕ → Choice) (hl : Lockstep db) (ids : List Uuid) :
    Lockstep (reconcileAll config now choices db ids) := by
  induction ids generalizing choices db with
  | nil => exact hl
  | cons id ids ih => exact ih _ (reconcileAlone_lockstep hl id)

theorem reconcileAll_other (choices : ℕ → ℕ → Choice) (hl : Lockstep db) {ids : List Uuid} {id : Uuid}
    (h : id ∉ ids) : (reconcileAll config now choices db ids).findTransfer id = db.findTransfer id := by
  induction ids generalizing choices db with
  | nil => rfl
  | cons i ids ih =>
    rw [List.mem_cons, not_or] at h
    rw [reconcileAll, ih _ (reconcileAlone_lockstep hl i) h.2, reconcileAlone_other hl h.1]

theorem mem_findStaleIds {date : Date} {limit : ℕ} {id : Uuid} (h : id ∈ findStaleIds config db date limit) :
    ∃ t ∈ staleRows config db date, t.id = id := by
  obtain ⟨t, ht, hid⟩ := List.mem_map.mp h
  exact ⟨t, (List.mem_insertionSort _).mp (List.mem_of_mem_take ht), hid⟩

theorem findStaleIds_nodup {date : Date} {limit : ℕ} : (findStaleIds config db date limit).Nodup := by
  have hids : (db.transfers.rows.map Transfer.id).Nodup := uniqueBy_iff.mp db.transfer_ids
  have hrows : ((staleRows config db date).map Transfer.id).Nodup :=
    hids.sublist (List.filter_sublist.map Transfer.id)
  have hsorted : (((staleRows config db date).insertionSort orderedBefore).map Transfer.id).Nodup :=
    (((List.perm_insertionSort orderedBefore (staleRows config db date)).map Transfer.id).nodup_iff).mpr hrows
  exact hsorted.sublist ((List.take_sublist _ _).map Transfer.id)

theorem mem_staleRows {date : Date} (h : t ∈ staleRows config db date) : db.findTransfer t.id = some t ∧
    t.selected = true ∧ (t.updatedAt : ℤ) ≤ date - config.staleProcessingMs := by
  obtain ⟨hmem, hstale⟩ := List.mem_filter.mp h
  rw [Bool.and_eq_true, decide_eq_true_eq] at hstale
  exact ⟨Database.findTransfer_eq_some_iff.mpr ⟨hmem, rfl⟩, hstale.2, hstale.1⟩

/-- After its own reconcile a transfer is not touched any more by the pass. -/
theorem runOnce_row (hl : Lockstep db) (pass : Pass) {pre post : List Uuid} {id : Uuid}
    (hids : findStaleIds config db pass.date 50 = pre ++ id :: post) :
    (runOnce config now pass db).db.findTransfer id =
      (reconcileAlone config now (pass.choices pre.length) (reconcileAll config now pass.choices db pre) id).1.findTransfer
        id := by
  have hnodup : (pre ++ id :: post).Nodup := hids ▸ findStaleIds_nodup
  have hpost : id ∉ post := (List.nodup_cons.mp (List.nodup_append.mp hnodup).2.1).1
  change (reconcileAll config now pass.choices db (findStaleIds config db pass.date 50)).findTransfer id = _
  rw [hids, reconcileAll_append, reconcileAll, Nat.zero_add]
  exact reconcileAll_other _ (reconcileAlone_lockstep (reconcileAll_lockstep _ hl pre) id) hpost

theorem row_before_reconcile (hl : Lockstep db) (pass : Pass) {pre post : List Uuid} {id : Uuid}
    (hids : findStaleIds config db pass.date 50 = pre ++ id :: post) :
    (reconcileAll config now pass.choices db pre).findTransfer id = db.findTransfer id := by
  have hnodup : (pre ++ id :: post).Nodup := hids ▸ findStaleIds_nodup
  have hpre : id ∉ pre := fun hmem => (List.nodup_append.mp hnodup).2.2 id hmem id List.mem_cons_self rfl
  exact reconcileAll_other _ hl hpre

/-- The transfer at a place of the pass, with the tables as they are when its turn comes, rotates exactly
if its reconcile is answered. -/
theorem runOnce_rotates_iff (hl : Lockstep db) (hstale : 0 < config.staleProcessingMs) (pass : Pass)
    {pre post : List Uuid} (hids : findStaleIds config db pass.date 50 = pre ++ t.id :: post)
    (ht : db.findTransfer t.id = some t) : Rotated t (runOnce config now pass db).db ↔
      Decides (reconcileAll config now pass.choices db pre) t (pass.choices pre.length) := by
  obtain ⟨u, hu, hid⟩ := mem_findStaleIds (hids ▸ List.mem_append_right pre List.mem_cons_self)
  obtain ⟨hfind, hsel, hold⟩ := mem_staleRows hu
  obtain rfl : t = u := by
    rw [hid, ht] at hfind
    exact Option.some.inj hfind
  have hclock : ∀ n, t.updatedAt < (pass.choices pre.length n).date := fun n => by
    have hle : (pass.date : ℤ) ≤ (pass.choices pre.length n).date := Int.ofNat_le.mpr (pass.clock _ _)
    exact Int.ofNat_lt.mp (by omega)
  have hturn : (reconcileAll config now pass.choices db pre).findTransfer t.id = some t :=
    (row_before_reconcile hl pass hids).trans ht
  rw [← reconcile_rotates_iff (reconcileAll_lockstep _ hl pre) hturn hsel hclock]
  unfold Rotated
  rw [runOnce_row hl pass hids]

/-- A row that the pass writes is as late as the pass. -/
theorem runOnce_updatedAt (hl : Lockstep db) (pass : Pass) {pre post : List Uuid}
    (hids : findStaleIds config db pass.date 50 = pre ++ t.id :: post) (ht : db.findTransfer t.id = some t) :
    ∃ t', (runOnce config now pass db).db.findTransfer t.id = some t' ∧ (t' = t ∨ pass.date ≤ t'.updatedAt) := by
  have hturn : (reconcileAll config now pass.choices db pre).findTransfer t.id = some t :=
    (row_before_reconcile hl pass hids).trans ht
  rw [runOnce_row hl pass hids]
  exact (settle_keeps (Q := fun c => pass.date ≤ c.date)
    (P := fun db' => ∃ t', db'.findTransfer t.id = some t' ∧ (t' = t ∨ pass.date ≤ t'.updatedAt))
    (fun c db' pc hdate hl' hpc hp => row_advance hp hl' hpc fun u hu => .inr (hu ▸ hdate)) 8
    (pass.clock pre.length) (reconcileAll_lockstep _ hl pre) (reconcile_entry_ok t.id) ⟨t, hturn, .inl rfl⟩).2

/-- Each transfer that a pass inspects leaves the selection or is written later, exactly if the first answer
that its reconcile waits for decides something. Where all of them do, every stale transfer that was not
inspected is as it was and comes before the ones that were. -/
theorem stale_transfers_rotate {s : State} (hr : (system config).Reachable s)
    (hstale : 0 < config.staleProcessingMs) (pass : Pass) :
    (∀ pre id post, findStaleIds config s.db pass.date 50 = pre ++ id :: post →
      ∃ t, s.db.findTransfer id = some t ∧ (Rotated t (runOnce config s.now pass s.db).db ↔
        Decides (reconcileAll config s.now pass.choices s.db pre) t (pass.choices pre.length))) ∧
    ((∀ pre id post t, findStaleIds config s.db pass.date 50 = pre ++ id :: post → s.db.findTransfer id = some t →
        Decides (reconcileAll config s.now pass.choices s.db pre) t (pass.choices pre.length)) →
      ∀ u ∈ staleRows config s.db pass.date, u.id ∉ findStaleIds config s.db pass.date 50 →
        (runOnce config s.now pass s.db).db.findTransfer u.id = some u ∧
          ∀ id ∈ findStaleIds config s.db pass.date 50, ∀ t',
            (runOnce config s.now pass s.db).db.findTransfer id = some t' → t'.selected = true → orderedBefore u t') := by
  have hl := (invariant_of_reachable hr).lockstep
  have hrow : ∀ id ∈ findStaleIds config s.db pass.date 50, ∃ t, s.db.findTransfer id = some t ∧ t.id = id := by
    intro id hmem
    obtain ⟨t, ht, rfl⟩ := mem_findStaleIds hmem
    exact ⟨t, (mem_staleRows ht).1, rfl⟩
  refine ⟨fun pre id post hids => ?_, fun hdecides u hu hnot => ⟨?_, fun id hmem t' ht' hsel => ?_⟩⟩
  · obtain ⟨t, ht, rfl⟩ := hrow id (hids ▸ List.mem_append_right pre List.mem_cons_self)
    exact ⟨t, ht, runOnce_rotates_iff hl hstale pass hids ht⟩
  · exact (reconcileAll_other _ hl hnot).trans (mem_staleRows hu).1
  · obtain ⟨t, ht, rfl⟩ := hrow id hmem
    obtain ⟨pre, post, hids⟩ := List.append_of_mem hmem
    obtain ⟨v, hv, hlater⟩ := (runOnce_rotates_iff hl hstale pass hids ht).mpr (hdecides pre t.id post t hids ht)
    obtain ⟨w, hw, hwritten⟩ : ∃ w, (runOnce config s.now pass s.db).db.findTransfer t.id = some w ∧
      (w = t ∨ pass.date ≤ w.updatedAt) := runOnce_updatedAt hl pass hids ht
    obtain rfl := Option.some.inj (hv.symm.trans ht')
    obtain rfl := Option.some.inj (hw.symm.trans ht')
    have hold := (mem_staleRows hu).2.2
    obtain rfl | hdate := hwritten
    · obtain hgone | hlt := hlater
      · rw [hsel] at hgone
        cases hgone
      · exact absurd hlt (lt_irrefl _)
    · have hle : (pass.date : ℤ) ≤ w.updatedAt := Int.ofNat_le.mpr hdate
      exact .inl (Int.ofNat_lt.mp (by omega))

/-- A pass at a given time, in which the other services always answer the same. -/
def steadyPass (date : Date) (c : Choice) : Pass where
  date := date
  choices := fun _ _ => { c with date := date }
  clock := fun _ _ => le_refl date

/-- The theorem after `startedRun`: the Ledger has no posting, so the retry of the transfer is claimed. -/
theorem stale_transfers_rotate_startedRun : ∃ s t, (system domesticConfig).run .initial startedRun = some s ∧
    s.db.findTransfer 7 = some t ∧
    Rotated t (runOnce domesticConfig s.now (steadyPass 40000 recoveryChoice) s.db).db := by
  have hstarted : ((system domesticConfig).run .initial startedRun).map (fun s =>
      decide (findStaleIds domesticConfig s.db 40000 50 = [7]) && (s.db.findTransfer 7).any fun t =>
        decide (t.status = .processing)) = some true := by decide +kernel
  obtain ⟨s, hs, hstate⟩ := Option.map_eq_some_iff.mp hstarted
  simp only [Bool.and_eq_true, Option.any_eq_true, decide_eq_true_eq] at hstate
  obtain ⟨hids, t, ht, hp⟩ := hstate
  obtain ⟨hrotates, -⟩ := stale_transfers_rotate (System.reachable_of_run hs) (by decide)
    (steadyPass 40000 recoveryChoice)
  obtain ⟨u, hu, hiff⟩ := hrotates [] 7 [] hids
  obtain rfl := Option.some.inj (hu.symm.trans ht)
  have hnot : u.status ≠ .pending := by simp [hp]
  exact ⟨s, u, hs, ht, hiff.mpr ⟨fun hpending => absurd hpending hnot, fun _ => rfl⟩⟩

/-- Ten dollars for a wallet in another currency. -/
def quotedRequest : CreateRequest where
  clientId := "client-a"
  key := "order-2"
  command := .international
    { senderWalletId := .ofUuid senderWallet
      recipientWalletId := .ofUuid recipientWallet
      sourceAmount := ⟨⟨3500, 2⟩, by decide⟩
      sourceCurrency := usd
      targetCurrency := (4, 20, 17)
      quoteId := .ofUuid 5 }

/-- A request whose process stops before FX answers. -/
def quotedRun : List Action := [
  .request 0 (.create quotedRequest),
  .run 0 {},
  .run 0 { ids := ⟨7, 8, 9⟩ },
  .stop 0]

/-- While FX is down, a pass leaves the transfer of `quotedRun` at the head of the selection, written when it
was. -/
theorem unanswered_transfer_stays : ¬ ∀ (config : Config) (s : State), (system config).Reachable s →
    0 < config.staleProcessingMs → ∀ pass : Pass, ∀ id ∈ findStaleIds config s.db pass.date 50, ∀ t,
      s.db.findTransfer id = some t → Rotated t (runOnce config s.now pass s.db).db := by
  intro hclaim
  have hquoted : ((system domesticConfig).run .initial quotedRun).map (fun s =>
      decide (findStaleIds domesticConfig s.db 40000 50 = [7]) && (s.db.findTransfer 7).any fun t =>
        t.selected && decide ((runOnce domesticConfig s.now (steadyPass 40000 {}) s.db).db.findTransfer t.id = some t)) =
      some true := by decide +kernel
  obtain ⟨s, hs, hstate⟩ := Option.map_eq_some_iff.mp hquoted
  simp only [Bool.and_eq_true, Option.any_eq_true, decide_eq_true_eq] at hstate
  obtain ⟨hids, t, ht, hsel, hsame⟩ := hstate
  have hrotated := hclaim domesticConfig s (System.reachable_of_run hs) (by decide) (steadyPass 40000 {}) 7
    (by rw [show (steadyPass 40000 {}).date = 40000 from rfl, hids]; exact List.mem_singleton.mpr rfl) t ht
  exact not_rotated hsame hsel hrotated

end NovaPay.Transaction
