import NovaPay.Audit.Verification

/-!
# Calls that run alone

A call that finds no other transaction open never waits, and is answered after a few statements.
-/

namespace NovaPay.Audit

open TransitionSystem Varchar

/-- How many statements a call has left at most. -/
def Pc.left : Pc → ℕ
  | .findPrior _ => 7
  | .insertStream _ => 6
  | .lockHead _ _ => 5
  | .findExisting _ _ => 4
  | .create _ _ => 3
  | .updateStream _ _ => 2
  | .commitCreated _ _ => 1
  | .commitExisting _ _ _ => 1
  | .findWinner _ => 1
  | .verifyStream _ => 2
  | .verifyRecords _ _ => 1

def Next.left : Next → ℕ
  | .goto pc => pc.left
  | .answer _ => 0

/-- The statements of a call while no other transaction is open. -/
def runAlone (config : Config) : ℕ → Database → Next → Option (Database × Outcome)
  | _, db, .answer outcome => some (db, outcome)
  | 0, _, .goto _ => none
  | n + 1, db, .goto pc =>
    (advance config db (fun _ => false) (fun _ => false) pc).bind fun (db, next) =>
      runAlone config n db next

/-- A request from its entry to its answer. -/
def serve (config : Config) (db : Database) (request : Request) : Option (Database × Outcome) :=
  runAlone config 7 db request.entry

section Advance

variable {config : Config} {db : Database}

theorem left_of_advanced {held : String → Bool} {contested : AuditRecord → Bool} {pc : Pc} {db' : Database}
    {next : Next} (h : Advanced config db held contested pc db' next) : next.left < pc.left := by
  cases h with
  | resolved | failed => cases pc <;> exact Nat.succ_pos _
  | _ => simp [Next.left, Pc.left]

/-- A statement that finds no other transaction open does not wait. -/
theorem exists_advance (pc : Pc) :
    ∃ db' next, advance config db (fun _ => false) (fun _ => false) pc = some (db', next) := by
  have hpair : ∀ {o : Option Next}, o.isSome →
      ∃ db' next, (o.map fun next => (db, next)) = some (db', next) := by
    intro o ho
    obtain ⟨next, rfl⟩ := Option.isSome_iff_exists.mp ho
    exact ⟨db, next, rfl⟩
  cases pc with
  | insertStream a =>
    refine hpair ?_
    unfold runInsertStream
    split
    · rfl
    · split <;> rfl
  | lockHead a inserted =>
    refine hpair ?_
    cases inserted <;> rfl
  | create a head =>
    refine hpair ?_
    unfold runCreate
    split
    · rfl
    · split
      · rfl
      · split <;> rfl
  | _ => exact ⟨_, _, rfl⟩

theorem exists_runAlone {n : ℕ} {next : Next} (h : next.left ≤ n) :
    ∃ db' outcome, runAlone config n db next = some (db', outcome) := by
  induction n generalizing db next with
  | zero =>
    cases next with
    | goto pc => cases pc <;> cases h
    | answer outcome => exact ⟨db, outcome, rfl⟩
  | succ n ih =>
    cases next with
    | goto pc =>
      obtain ⟨db', next, hadvance⟩ := @exists_advance config db pc
      have hleft := left_of_advanced (advanced hadvance)
      obtain ⟨db'', outcome, hrun⟩ := @ih db' next (Nat.le_of_lt_succ (hleft.trans_le h))
      refine ⟨db'', outcome, ?_⟩
      rw [runAlone, hadvance, Option.bind_some]
      exact hrun
    | answer outcome => exact ⟨db, outcome, rfl⟩

/-- Every request is answered. -/
theorem exists_serve (request : Request) : ∃ db' outcome, serve config db request = some (db', outcome) := by
  refine exists_runAlone ?_
  have happend : ∀ input retry, (appendEntry input retry).left ≤ 7 := by
    intro input retry
    unfold appendEntry
    split
    · exact Nat.le_refl 7
    · exact Nat.zero_le 7
  cases request with
  | append input => exact happend input false
  | appendOperatorAction input => exact happend input true
  | verify streamKey => exact (by decide : 2 ≤ 7)

end Advance

/-! ### Requests -/

section Serve

variable {config : Config} {db : Database} {streamKey : String} {input : AppendAuditEventDto}
  {event : NormalizedAuditEvent} {r : AuditRecord}

theorem serve_verify {stream : AuditStream} (hstream : db.streams streamKey = some stream) :
    serve config db (.verify streamKey) = some (db,
      .verification (verifyRecords config streamKey stream (db.recordsOf streamKey))) := by
  simp [serve, Request.entry, runAlone, advance, runVerifyStream, hstream]

/-- An event that is recorded is compared with its record. -/
theorem serve_append_recorded (hevent : normalizeEvent input = .ok event)
    (hfound : db.findEvent event.eventId = some r) :
    serve config db (.append input) = some (db, resolveExisting r ⟨event, false⟩) := by
  simp [serve, Request.entry, appendEntry, hevent, runAlone, advance, runFindPrior, hfound]

/-- An event that is not is recorded after the last of its stream. -/
theorem serve_append_new (hevent : normalizeEvent input = .ok event)
    (hfound : db.findEvent event.eventId = none) (hkey : fitsColumn 160 event.streamKey = true)
    (hr : newRecord config event (db.stream event.streamKey) = some r) (hfits : r.fits = true)
    (hconflicts : db.records.any (conflicts r) = false) :
    serve config db (.append input) = some (commitCreated db r, resolveExisting r ⟨event, false⟩) := by
  rw [serve, Request.entry, appendEntry, hevent]
  change runAlone config 7 db (.goto (.findPrior ⟨event, false⟩)) = _
  -- Both ways to the row of the stream lock it as the transaction will extend it.
  have hlocked : ∀ n, runAlone config (n + 4) db
      (.goto (.findExisting ⟨event, false⟩ (some (db.stream event.streamKey)))) =
        some (commitCreated db r, resolveExisting r ⟨event, false⟩) := by
    intro n
    simp [runAlone, advance, runFindExisting, hfound, runCreate, hr, hfits, hconflicts]
  have hstream : ∀ n, runAlone config (n + 6) db (.goto (.insertStream ⟨event, false⟩)) =
      some (commitCreated db r, resolveExisting r ⟨event, false⟩) := by
    intro n
    cases hrow : db.streams event.streamKey with
    | none =>
      have hgenesis : db.stream event.streamKey = .genesis := by rw [Database.stream, hrow]; rfl
      rw [← hlocked n, hgenesis]
      simp [runAlone, advance, runInsertStream, hkey, hrow, runLockHead]
    | some stream =>
      have hknown : db.stream event.streamKey = stream := by rw [Database.stream, hrow]; rfl
      rw [← hlocked n, hknown]
      simp [runAlone, advance, runInsertStream, hkey, hrow, runLockHead]
  rw [← hstream 0]
  simp [runAlone, advance, runFindPrior, hfound]

end Serve

/-! ### In a run -/

section System

variable {ι : Type} [DecidableEq ι] {config : Config} {s : State ι} {i : ι} {request : Request}

/-- No transaction but that of one call is open. -/
def State.Alone (s : State ι) (i : ι) : Prop :=
  ∀ j call, j ≠ i → s.calls j = some call → call.progress.held? = none ∧ call.progress.pending? = none

theorem State.Alone.others (h : s.Alone i) {progress : Progress} (hmem : progress ∈ s.others i) :
    progress.held? = none ∧ progress.pending? = none := by
  obtain ⟨j, hj, hcall⟩ := List.mem_filterMap.mp hmem
  obtain ⟨call, hsome, rfl⟩ := Option.map_eq_some_iff.mp hcall
  exact h j call (of_decide_eq_true (List.mem_filter.mp hj).2) hsome

theorem State.Alone.held (h : s.Alone i) : s.held i = fun _ => false := by
  funext streamKey
  refine List.any_eq_false.mpr fun progress hmem => ?_
  simp [(h.others hmem).1]

theorem State.Alone.contested (h : s.Alone i) : s.contested i = fun _ => false := by
  funext r
  refine List.any_eq_false.mpr fun progress hmem => ?_
  simp [(h.others hmem).2]

theorem State.Alone.setCall (h : s.Alone i) (db : Database) (call : Call) :
    ({ s with db := db }.setCall i call).Alone i :=
  fun j c hj hc => h j c hj ((State.setCall_calls_of_ne hj).symm.trans hc)

theorem State.setCall_of_calls {call : Call} (h : s.calls i = some call) : s.setCall i call = s := by
  rw [State.setCall, ← h, Function.update_eq_self]

/-- A call that runs alone needs no steps but its own. -/
theorem steps_of_runAlone {n : ℕ} {next : Next} {db' : Database} {outcome : Outcome} (halone : s.Alone i)
    (hcall : s.calls i = some ⟨request, next.progress⟩)
    (hrun : runAlone config n s.db next = some (db', outcome)) :
    (system ι config).StepsBy (fun _ action => action = .run i) s
      ({ s with db := db' }.setCall i ⟨request, .answered outcome⟩) := by
  induction n generalizing s next with
  | zero =>
    cases next with
    | goto pc => cases hrun
    | answer outcome =>
      cases hrun
      have hend : s.setCall i ⟨request, .answered outcome⟩ = s := State.setCall_of_calls hcall
      change (system ι config).StepsBy _ s (s.setCall i ⟨request, .answered outcome⟩)
      rw [hend]
  | succ n ih =>
    cases next with
    | goto pc =>
      obtain ⟨⟨db, next⟩, hadvance, hrest⟩ := Option.bind_eq_some_iff.mp hrun
      have hstep : (system ι config).step s (.run i) =
          some ({ s with db := db }.setCall i ⟨request, next.progress⟩) := by
        change Audit.step config s (.run i) = _
        rw [Audit.step, hcall]
        change (advance config s.db (s.held i) (s.contested i) pc).map _ = _
        rw [halone.held, halone.contested, hadvance]
        rfl
      have hsteps := ih (halone.setCall db ⟨request, next.progress⟩) State.setCall_calls_self hrest
      have hend : ({ { s with db := db }.setCall i ⟨request, next.progress⟩ with db := db' }).setCall i
          ⟨request, .answered outcome⟩ = { s with db := db' }.setCall i ⟨request, .answered outcome⟩ := by
        simp only [State.setCall, Function.update_idem]
      rw [hend] at hsteps
      exact .head ⟨.run i, rfl, hstep⟩ hsteps
    | answer outcome =>
      cases hrun
      have hend : s.setCall i ⟨request, .answered outcome⟩ = s := State.setCall_of_calls hcall
      change (system ι config).StepsBy _ s (s.setCall i ⟨request, .answered outcome⟩)
      rw [hend]

/-- A request that is made while no transaction is open is served. -/
theorem steps_of_serve {db' : Database} {outcome : Outcome} (halone : s.Alone i) (hfree : s.calls i = none)
    (hserve : serve config s.db request = some (db', outcome)) :
    (system ι config).Steps s
      ({ s with db := db', started := i :: s.started }.setCall i ⟨request, .answered outcome⟩) := by
  have hstart : (system ι config).step s (.start i request) = some
      ({ s with started := i :: s.started }.setCall i ⟨request, request.entry.progress⟩) := by
    change Audit.step config s (.start i request) = _
    rw [Audit.step, hfree]
  refine .head ⟨_, hstart⟩ ?_
  have halone' : ({ s with started := i :: s.started }.setCall i
      ⟨request, request.entry.progress⟩).Alone i :=
    fun j c hj hc => halone j c hj ((State.setCall_calls_of_ne hj).symm.trans hc)
  have hsteps := System.StepsBy.steps (steps_of_runAlone halone' State.setCall_calls_self hserve)
  simpa only [State.setCall, Function.update_idem] using hsteps

end System

end NovaPay.Audit
