import NovaPay.Audit.Controller

/-!
# Verifications that are returned

The result of a verification is returned once its event is recorded, or found recorded. It is, if no other
event has its id and the key of the stream fits the column of entities.
-/

namespace NovaPay.Audit

open TransitionSystem Varchar

section Step

variable {ι : Type} [DecidableEq ι] {config : Config} {s s' : State ι} {i : ι}

theorem run_cases (h : step config s (.run i) = some s') : ∃ request pc db' next,
    s.calls i = some ⟨request, .running pc⟩ ∧
      advance config s.db (s.held i) (s.contested i) pc = some (db', next) ∧
      s' = { s with db := db' }.setCall i ⟨request, next.progress⟩ := by
  rw [step] at h
  split at h
  · next request pc hcall =>
    obtain ⟨⟨db', next⟩, hadvance, rfl⟩ := Option.map_eq_some_iff.mp h
    exact ⟨request, pc, db', next, hcall, hadvance, rfl⟩
  · cases h

theorem start_cases {request : Request} (h : step config s (.start i request) = some s') :
    s.calls i = none ∧
      s' = { s with started := i :: s.started }.setCall i ⟨request, request.entry.progress⟩ := by
  rw [step] at h
  split at h
  · next hnone => exact ⟨hnone, (Option.some.inj h).symm⟩
  · cases h

theorem stop_cases (h : step config s (.stop i) = some s') : ∃ request pc,
    s.calls i = some ⟨request, .running pc⟩ ∧ s' = s.setCall i ⟨request, .stopped⟩ := by
  rw [step] at h
  split at h
  · next request pc hcall => exact ⟨request, pc, hcall, (Option.some.inj h).symm⟩
  · cases h

/-- The call that a step is of. -/
def Action.target : Action ι → ι
  | .start i _ | .run i | .stop i => i

theorem calls_of_step {action : Action ι} {j : ι} (h : step config s action = some s')
    (hj : j ≠ action.target) : s'.calls j = s.calls j := by
  cases action with
  | start i request =>
    obtain ⟨-, rfl⟩ := start_cases h
    exact State.setCall_calls_of_ne hj
  | run i =>
    obtain ⟨request, pc, db', next, -, -, rfl⟩ := run_cases h
    exact State.setCall_calls_of_ne hj
  | stop i =>
    obtain ⟨request, pc, -, rfl⟩ := stop_cases h
    exact State.setCall_calls_of_ne hj

theorem grows_of_step {action : Action ι} (h : step config s action = some s') : Grows s.db s'.db := by
  cases action with
  | start i request =>
    obtain ⟨-, rfl⟩ := start_cases h
    exact Grows.refl s.db
  | run i =>
    obtain ⟨request, pc, db', next, -, hadvance, rfl⟩ := run_cases h
    exact grows_of_advanced (advanced hadvance)
  | stop i =>
    obtain ⟨request, pc, -, rfl⟩ := stop_cases h
    exact Grows.refl s.db

end Step

/-! ### The two calls -/

section Advance

variable {config : Config} {db db' : Database} {held : String → Bool} {contested : AuditRecord → Bool}
  {pc : Pc} {next : Next} {a : Append} {streamKey : String}

/-- Where a call of `verify` of an existing stream is. -/
inductive Found (streamKey : String) : Progress → Prop
  | started : Found streamKey (.running (.verifyStream streamKey))
  | read (stream : AuditStream) : Found streamKey (.running (.verifyRecords streamKey stream))
  | answered (v : AuditVerification) : Found streamKey (.answered (.verification v))
  | stopped : Found streamKey .stopped

theorem found_of_advance (h : advance config db held contested pc = some (db', next))
    (hstream : (db.streams streamKey).isSome) (hpc : Found streamKey (.running pc)) :
    Found streamKey next.progress := by
  cases hpc with
  | started =>
    obtain ⟨stream, hrow⟩ := Option.isSome_iff_exists.mp hstream
    cases h
    rw [runVerifyStream, hrow]
    exact .read stream
  | read stream =>
    cases h
    exact .answered _

/-- A call that appends is not answered with an error. -/
def Recorded (db : Database) : Progress → Prop
  | .running (.findWinner a) => ∃ r ∈ db.records, r.eventId = a.input.eventId
  | .answered outcome => outcome.error? = none
  | _ => True

theorem Recorded.mono {progress : Progress} (hgrows : Grows db db') (h : Recorded db progress) :
    Recorded db' progress := by
  cases progress with
  | running pc =>
    cases pc with
    | findWinner a =>
      obtain ⟨r, hr, hid⟩ := h
      exact ⟨r, hgrows.records hr, hid⟩
    | _ => trivial
  | answered outcome => exact h
  | stopped => trivial

theorem resolveExisting_error? {r : AuditRecord} (h : matchesEvent r a = true) :
    (resolveExisting r a).error? = none := by
  rw [resolveExisting, if_pos h]
  rfl

/-- What is appended can be written, and fits its columns. -/
structure Writable (config : Config) (a : Append) : Prop where
  keeps : a.input.metadata.KeepsOrder
  written : a.input.metadata.write?.isSome
  stream : fitsColumn 160 a.input.streamKey = true
  fits : ∀ head r, newRecord config a.input head = some r → r.fits = true

/-- If every record of its event matches it, an event is recorded or found recorded. -/
theorem recorded_of_advance (hsha : Function.Injective config.sha256)
    (h : advance config db held contested pc = some (db', next)) (hdb : db.Ok config) (hpc : pc.Ok config db)
    (ha : pc.append? = some a) (hwritable : Writable config a)
    (hsame : ∀ r ∈ db.records, r.eventId = a.input.eventId → matchesEvent r a = true)
    (hrecorded : Recorded db (.running pc)) : Recorded db' next.progress := by
  cases pc with
  | findPrior b =>
    cases ha
    cases h
    unfold runFindPrior
    split
    · next r hr => exact resolveExisting_error? (hsame r (findEvent_some hr).1 (findEvent_some hr).2)
    · trivial
  | insertStream b =>
    cases ha
    obtain ⟨n, hn, hpair⟩ := Option.map_eq_some_iff.mp h
    cases hpair
    unfold runInsertStream at hn
    rw [hwritable.stream, Bool.not_true, if_neg (by decide)] at hn
    split at hn
    · cases hn
      trivial
    · split at hn
      · cases hn
      · cases hn
        trivial
  | lockHead b inserted =>
    obtain ⟨n, hn, hpair⟩ := Option.map_eq_some_iff.mp h
    cases hpair
    unfold runLockHead at hn
    split at hn
    · cases hn
      trivial
    · split at hn
      · cases hn
      · cases hn
        trivial
  | findExisting b head =>
    have hhead : head = some (db.stream b.input.streamKey) := hpc
    cases h
    unfold runFindExisting
    split
    · trivial
    · rw [hhead]
      trivial
  | create b head =>
    cases ha
    have hhead : head = db.stream a.input.streamKey := hpc
    obtain ⟨n, hn, hpair⟩ := Option.map_eq_some_iff.mp h
    cases hpair
    obtain ⟨metadata, hmetadata⟩ := Option.isSome_iff_exists.mp hwritable.written
    obtain ⟨r, hr⟩ : ∃ r, newRecord config a.input head = some r := ⟨_, by rw [newRecord, hmetadata]; rfl⟩
    unfold runCreate at hn
    rw [hr] at hn
    simp only [hwritable.fits head r hr, Bool.not_true] at hn
    rw [if_neg (by decide)] at hn
    split at hn
    · next hany =>
      -- The place of the record is free, so it is the event that another call has recorded.
      cases hn
      obtain ⟨q, hq, hconflict⟩ := List.any_eq_true.mp hany
      rw [hhead] at hr
      rw [conflicts_newRecord hsha hdb hr hq] at hconflict
      exact ⟨q, hq, (of_decide_eq_true hconflict).symm.trans (columns_of_newRecord hr).eventId⟩
    · split at hn
      · cases hn
      · cases hn
        trivial
  | updateStream b created =>
    cases h
    trivial
  | commitCreated b created =>
    cases ha
    cases h
    exact resolveExisting_error? ((matchesEvent_newRecord_iff hpc).mpr hwritable.keeps)
  | commitExisting b head existing =>
    cases ha
    cases h
    exact resolveExisting_error? (hsame existing hpc.2.1 hpc.2.2)
  | findWinner b =>
    cases ha
    cases h
    obtain ⟨q, hq, hid⟩ := hrecorded
    unfold runFindWinner
    split
    · next r hr => exact resolveExisting_error? (hsame r (findEvent_some hr).1 (findEvent_some hr).2)
    · next hnone => exact absurd (decide_eq_true hid) (List.find?_eq_none.mp hnone q hq)
  | verifyStream streamKey => cases ha
  | verifyRecords streamKey stream => cases ha

end Advance

/-! ### The controller -/

variable {ι : Type} [DecidableEq ι] {config : Config} {s s' : AdminState ι} {i : ι} {request : VerifyRequest}

/-- All that a step of the requests does. -/
inductive AdminStepped (config : Config) (s : AdminState ι) : AdminAction ι → AdminState ι → Prop
  | refused {j : ι} {request : VerifyRequest} : s.requests j = none →
      isIdempotencyKey request.idempotencyKey = false →
      AdminStepped config s (.request j request)
        { s with requests := Function.update s.requests j (some request) }
  | requested {j : ι} {request : VerifyRequest} {audit : State (CallId ι)} : s.requests j = none →
      step config s.audit (.start (.verify j) (.verify request.streamKey)) = some audit →
      AdminStepped config s (.request j request) ⟨audit, Function.update s.requests j (some request)⟩
  | recorded {j : ι} {now : ℤ} {request : VerifyRequest} {r : Request} {v : AuditVerification}
      {audit : State (CallId ι)} : s.requests j = some request →
      s.audit.calls (.verify j) = some ⟨r, .answered (.verification v)⟩ →
      step config s.audit (.start (.operatorAction j)
        (.appendOperatorAction (operatorAction config request v now))) = some audit →
      AdminStepped config s (.record j now) ⟨audit, s.requests⟩
  | started {j : ι} {r : Request} {audit : State (CallId ι)} :
      step config s.audit (.start (.other j) r) = some audit →
      AdminStepped config s (.start j r) ⟨audit, s.requests⟩
  | ran {id : CallId ι} {audit : State (CallId ι)} : step config s.audit (.run id) = some audit →
      AdminStepped config s (.run id) ⟨audit, s.requests⟩
  | stopped {id : CallId ι} {audit : State (CallId ι)} : step config s.audit (.stop id) = some audit →
      AdminStepped config s (.stop id) ⟨audit, s.requests⟩

theorem adminStepped {action : AdminAction ι} (h : adminStep config s action = some s') :
    AdminStepped config s action s' := by
  cases action with
  | request j request =>
    rw [adminStep] at h
    split at h
    · cases h
    · next hnone =>
      simp only at h
      split at h
      · next hkey =>
        cases h
        exact .refused hnone (by simpa using hkey)
      · obtain ⟨audit, haudit, rfl⟩ := Option.map_eq_some_iff.mp h
        exact .requested hnone haudit
  | record j now =>
    rw [adminStep] at h
    split at h
    · next request r v hrequest hcall =>
      obtain ⟨audit, haudit, rfl⟩ := Option.map_eq_some_iff.mp h
      exact .recorded hrequest hcall haudit
    · cases h
  | start j r =>
    obtain ⟨audit, haudit, rfl⟩ := Option.map_eq_some_iff.mp h
    exact .started haudit
  | run id =>
    obtain ⟨audit, haudit, rfl⟩ := Option.map_eq_some_iff.mp h
    exact .ran haudit
  | stop id =>
    obtain ⟨audit, haudit, rfl⟩ := Option.map_eq_some_iff.mp h
    exact .stopped haudit

/-- The audit service runs as it does alone. -/
theorem audit_reachable (h : (adminSystem ι config).Reachable s) :
    (system (CallId ι) config).Reachable s.audit := by
  refine System.Reachable.invariant (P := fun s => (system (CallId ι) config).Reachable s.audit) .init ?_ h
  intro s action s' _ hs hstep
  have hnext : ∀ {a audit}, step config s.audit a = some audit →
      (system (CallId ι) config).Reachable audit := fun haudit => .step hs trivial haudit
  cases adminStepped hstep with
  | refused => exact hs
  | requested _ haudit => exact hnext haudit
  | recorded _ _ haudit => exact hnext haudit
  | started haudit => exact hnext haudit
  | ran haudit => exact hnext haudit
  | stopped haudit => exact hnext haudit

/-- The records of the event of a request's operator action match it when the action runs, and the key of
the stream fits the column of entities. -/
def Repeatable (i : ι) (s : AdminState ι) : AdminAction ι → Prop
  | .run (.operatorAction j) => j = i → ∀ r a pc,
      s.audit.calls (.operatorAction i) = some ⟨r, .running pc⟩ → r.append? = some a →
      (∀ record ∈ s.audit.db.records, record.eventId = a.input.eventId → matchesEvent record a = true) ∧
        a.input.entityId.length ≤ 128
  | _ => True

/-- The two calls of a request whose stream exists. -/
structure Served (config : Config) (s : AdminState ι) (i : ι) (request : VerifyRequest) : Prop where
  verify : ∃ progress, s.audit.calls (.verify i) = some ⟨.verify request.streamKey, progress⟩ ∧
    Found request.streamKey progress
  action : ∀ call, s.audit.calls (.operatorAction i) = some call → ∃ v now,
    s.audit.calls (.verify i) = some ⟨.verify request.streamKey, .answered (.verification v)⟩ ∧
      call.request = .appendOperatorAction (operatorAction config request v now) ∧
      Recorded s.audit.db call.progress

/-- What holds of a request from before it is made. -/
structure Requested (config : Config) (s : AdminState ι) (i : ι) (request : VerifyRequest) : Prop where
  stream : (s.audit.db.streams request.streamKey).isSome
  served : s.requests i = some request → Served config s i request

omit [DecidableEq ι] in
theorem Served.frame (h : Served config s i request)
    (hverify : s'.audit.calls (.verify i) = s.audit.calls (.verify i))
    (haction : s'.audit.calls (.operatorAction i) = s.audit.calls (.operatorAction i))
    (hgrows : Grows s.audit.db s'.audit.db) : Served config s' i request := by
  refine ⟨hverify ▸ h.verify, fun call hcall => ?_⟩
  rw [haction] at hcall
  obtain ⟨v, now, hv, hrequest, hrecorded⟩ := h.action call hcall
  exact ⟨v, now, hverify ▸ hv, hrequest, hrecorded.mono hgrows⟩

theorem requests_update {requests : ι → Option VerifyRequest} {j : ι} {request' o : Option VerifyRequest}
    (h : Function.update requests j request' i = o) : i = j ∧ request' = o ∨ i ≠ j ∧ requests i = o := by
  by_cases hj : i = j
  · subst hj
    rw [Function.update_self] at h
    exact .inl ⟨rfl, h⟩
  · rw [Function.update_of_ne hj] at h
    exact .inr ⟨hj, h⟩

/-- The calls of a request that was not made are not there. -/
theorem not_called_of_reachable (h : (adminSystem ι config).Reachable s) : s.requests i = none →
    s.audit.calls (.verify i) = none ∧ s.audit.calls (.operatorAction i) = none := by
  refine System.Reachable.invariant (P := fun s => s.requests i = none →
    s.audit.calls (.verify i) = none ∧ s.audit.calls (.operatorAction i) = none) (fun _ => ⟨rfl, rfl⟩) ?_ h
  intro s action s' _ ih hstep
  -- A step leaves the two calls if it is of another.
  have hframe : ∀ {a audit}, step config s.audit a = some audit → s.requests i = none →
      .verify i ≠ a.target → .operatorAction i ≠ a.target →
      audit.calls (.verify i) = none ∧ audit.calls (.operatorAction i) = none := by
    intro a audit haudit hnone hverify haction
    rw [calls_of_step haudit hverify, calls_of_step haudit haction]
    exact ih hnone
  have hother : ∀ {id call}, s.requests i = none → s.audit.calls id = some call →
      .verify i ≠ id ∧ .operatorAction i ≠ id := by
    intro id call hnone hcall
    obtain ⟨hverify, haction⟩ := ih hnone
    constructor
    · rintro rfl
      rw [hverify] at hcall
      cases hcall
    · rintro rfl
      rw [haction] at hcall
      cases hcall
  cases adminStepped hstep with
  | refused =>
    intro hnone
    obtain ⟨-, hsome⟩ | ⟨-, hnone⟩ := requests_update hnone
    · cases hsome
    · exact ih hnone
  | requested _ haudit =>
    intro hnone
    obtain ⟨-, hsome⟩ | ⟨hj, hnone⟩ := requests_update hnone
    · cases hsome
    · exact hframe haudit hnone (by simp [Action.target, hj]) (by simp [Action.target])
  | @recorded j _ _ _ _ _ hrequest _ haudit =>
    intro hnone
    have hj : i ≠ j := by
      rintro rfl
      rw [hrequest] at hnone
      cases hnone
    exact hframe haudit hnone (by simp [Action.target]) (by simp [Action.target, hj])
  | started haudit =>
    exact fun hnone => hframe haudit hnone (by simp [Action.target]) (by simp [Action.target])
  | ran haudit =>
    intro hnone
    obtain ⟨_, _, _, _, hcall, -, -⟩ := run_cases haudit
    exact hframe haudit hnone (hother hnone hcall).1 (hother hnone hcall).2
  | stopped haudit =>
    intro hnone
    obtain ⟨_, _, hcall, -⟩ := stop_cases haudit
    exact hframe haudit hnone (hother hnone hcall).1 (hother hnone hcall).2

/-- What the event of a request is appended as. -/
theorem append?_operatorAction (config : Config) (v : AuditVerification) (now : ℤ)
    (hoperator : isOperatorId request.operatorId = true) (hkey : isIdentifier 160 request.streamKey = true) :
    ∃ a, (Request.appendOperatorAction (operatorAction config request v now)).append? = some a ∧
      (a.input.entityId.length ≤ 128 → Writable config a) := by
  obtain ⟨event, hevent, hkeeps, hwrite⟩ := normalizeEvent_operatorAction config request v now
  refine ⟨⟨event, true⟩, by rw [Request.append?, hevent]; rfl, fun hlength => ?_⟩
  obtain ⟨hstream, -, -, hentity, -⟩ := normalizeEvent_fields hevent
  rw [show event.entityId = request.streamKey from hentity] at hlength
  have haccepted := @operatorAction_accepted config request v now hoperator hkey hlength
  refine ⟨hkeeps, hwrite, ?_, fun head r hr => fits_of_accepted haccepted hevent hr⟩
  rw [show event.streamKey = "admin:operator-actions" from hstream]
  decide

section Step

variable (hr : Requested config s i request)
include hr

/-- A step of another call leaves the two calls of a request. -/
theorem Requested.frame {a : Action (CallId ι)} {audit : State (CallId ι)}
    (haudit : step config s.audit a = some audit) (hverify : .verify i ≠ a.target)
    (haction : .operatorAction i ≠ a.target) : Requested config ⟨audit, s.requests⟩ i request :=
  ⟨(grows_of_step haudit).streams _ hr.stream, fun hsome => (hr.served hsome).frame
    (calls_of_step haudit hverify) (calls_of_step haudit haction) (grows_of_step haudit)⟩

/-- `verify` is called. -/
theorem Requested.of_requested (hreach : (adminSystem ι config).Reachable s) {j : ι}
    {request' : VerifyRequest} {audit : State (CallId ι)} (hnone : s.requests j = none)
    (haudit : step config s.audit (.start (.verify j) (.verify request'.streamKey)) = some audit) :
    Requested config ⟨audit, Function.update s.requests j (some request')⟩ i request := by
  refine ⟨(grows_of_step haudit).streams _ hr.stream, fun hnow => ?_⟩
  obtain ⟨rfl, hsome⟩ | ⟨hj, hnow⟩ := requests_update hnow
  · obtain rfl := Option.some.inj hsome
    have haction : audit.calls (.operatorAction i) = none :=
      (calls_of_step haudit (by simp [Action.target])).trans (not_called_of_reachable hreach hnone).2
    obtain ⟨-, rfl⟩ := start_cases haudit
    refine ⟨⟨_, State.setCall_calls_self, .started⟩, fun call hcall => ?_⟩
    rw [haction] at hcall
    cases hcall
  · exact ((hr.frame haudit (by simp [Action.target, hj]) (by simp [Action.target])).served hnow).frame
      rfl rfl (Grows.refl _)

/-- `appendOperatorAction` is called with the result. -/
theorem Requested.of_recorded {now : ℤ} {request' : VerifyRequest} {r : Request} {v : AuditVerification}
    {audit : State (CallId ι)} (hrequest : s.requests i = some request')
    (hcall : s.audit.calls (.verify i) = some ⟨r, .answered (.verification v)⟩)
    (haudit : step config s.audit (.start (.operatorAction i)
      (.appendOperatorAction (operatorAction config request' v now))) = some audit) :
    Requested config ⟨audit, s.requests⟩ i request := by
  have hverify : audit.calls (.verify i) = s.audit.calls (.verify i) :=
    calls_of_step haudit (by simp [Action.target])
  refine ⟨(grows_of_step haudit).streams _ hr.stream, fun hnow => ?_⟩
  obtain rfl := Option.some.inj (hrequest.symm.trans hnow)
  obtain ⟨progress, hprogress, hfound⟩ := (hr.served hnow).verify
  obtain ⟨rfl, rfl⟩ := Call.mk.inj (Option.some.inj (hcall.symm.trans hprogress))
  obtain ⟨-, rfl⟩ := start_cases haudit
  refine ⟨⟨_, hverify.trans hprogress, hfound⟩, fun call hcall' => ?_⟩
  obtain rfl := Option.some.inj (State.setCall_calls_self.symm.trans hcall')
  refine ⟨v, now, hverify.trans hprogress, rfl, ?_⟩
  obtain ⟨event, hevent, -, -⟩ := normalizeEvent_operatorAction config request' v now
  rw [Request.entry, appendEntry, hevent]
  trivial

/-- `verify` gets to another place. An event is only recorded once it was answered. -/
theorem Requested.of_verify {r : Request} {pc : Pc} {progress : Progress} {db : Database}
    (hgrows : Grows s.audit.db db) (hcall : s.audit.calls (.verify i) = some ⟨r, .running pc⟩)
    (hnext : Found request.streamKey (.running pc) → Found request.streamKey progress) :
    Requested config ⟨{ s.audit with db := db }.setCall (.verify i) ⟨r, progress⟩, s.requests⟩ i request := by
  refine ⟨hgrows.streams _ hr.stream, fun hsome => ?_⟩
  obtain ⟨before, hbefore, hfound⟩ := (hr.served hsome).verify
  obtain ⟨rfl, rfl⟩ := Call.mk.inj (Option.some.inj (hcall.symm.trans hbefore))
  refine ⟨⟨_, State.setCall_calls_self, hnext hfound⟩, fun call hcall' => ?_⟩
  rw [State.setCall_calls_of_ne (by simp)] at hcall'
  obtain ⟨v, now, hanswered, -, -⟩ := (hr.served hsome).action call hcall'
  rw [hcall] at hanswered
  cases hanswered

/-- `appendOperatorAction` gets to another place. -/
theorem Requested.of_action {r : Request} {pc : Pc} {progress : Progress} {db : Database}
    (hgrows : Grows s.audit.db db) (hcall : s.audit.calls (.operatorAction i) = some ⟨r, .running pc⟩)
    (hnext : ∀ v now, r = .appendOperatorAction (operatorAction config request v now) →
      Recorded s.audit.db (.running pc) → Recorded db progress) :
    Requested config ⟨{ s.audit with db := db }.setCall (.operatorAction i) ⟨r, progress⟩, s.requests⟩ i
      request := by
  refine ⟨hgrows.streams _ hr.stream, fun hsome => ?_⟩
  obtain ⟨v, now, hanswered, hrequest, hrecorded⟩ := (hr.served hsome).action _ hcall
  obtain ⟨before, hbefore, hfound⟩ := (hr.served hsome).verify
  refine ⟨⟨before, ?_, hfound⟩, fun call hcall' => ⟨v, now, ?_, ?_⟩⟩
  · exact (State.setCall_calls_of_ne (by simp)).trans hbefore
  · exact (State.setCall_calls_of_ne (by simp)).trans hanswered
  · obtain rfl := Option.some.inj (State.setCall_calls_self.symm.trans hcall')
    exact ⟨hrequest, hnext v now hrequest hrecorded⟩

theorem requested_of_step (hsha : Function.Injective config.sha256)
    (hreach : (adminSystem ι config).Reachable s) (hoperator : isOperatorId request.operatorId = true)
    (hidempotency : isIdempotencyKey request.idempotencyKey = true)
    (hkey : isIdentifier 160 request.streamKey = true) {action : AdminAction ι}
    (hok : Repeatable i s action) (h : adminStep config s action = some s') :
    Requested config s' i request := by
  have hinv := invariant_of_reachable (audit_reachable hreach)
  cases adminStepped h with
  | refused hnone hrefused =>
    refine ⟨hr.stream, fun hnow => ?_⟩
    obtain ⟨-, hsome⟩ | ⟨-, hnow⟩ := requests_update hnow
    · obtain rfl := Option.some.inj hsome
      rw [hidempotency] at hrefused
      cases hrefused
    · exact (hr.served hnow).frame rfl rfl (Grows.refl _)
  | requested hnone haudit => exact hr.of_requested hreach hnone haudit
  | @recorded j now request' r v audit hrequest hcall haudit =>
    by_cases hj : i = j
    · subst hj
      exact hr.of_recorded hrequest hcall haudit
    · exact hr.frame haudit (by simp [Action.target]) (by simp [Action.target, hj])
  | started haudit => exact hr.frame haudit (by simp [Action.target]) (by simp [Action.target])
  | @ran id audit haudit =>
    obtain ⟨r, pc, db', next, hcall, hadvance, rfl⟩ := run_cases haudit
    have hgrows := grows_of_advanced (advanced hadvance)
    by_cases hverify : id = .verify i
    · subst hverify
      exact hr.of_verify hgrows hcall (found_of_advance hadvance hr.stream)
    by_cases haction : id = .operatorAction i
    · subst haction
      refine hr.of_action hgrows hcall fun v now hrequest hrecorded => ?_
      subst hrequest
      obtain ⟨a, ha, hwritable⟩ := append?_operatorAction config v now hoperator hkey
      obtain ⟨hsame, hlength⟩ := hok rfl _ a pc hcall ha
      have hknown := hinv.calls _ _ hcall
      exact recorded_of_advance hsha hadvance hinv.tables hknown.2 (hknown.1.trans ha) (hwritable hlength)
        hsame hrecorded
    · exact hr.frame haudit (Ne.symm hverify) (Ne.symm haction)
  | @stopped id audit haudit =>
    obtain ⟨r, pc, hcall, rfl⟩ := stop_cases haudit
    by_cases hverify : id = .verify i
    · subst hverify
      exact hr.of_verify (Grows.refl _) hcall fun _ => .stopped
    by_cases haction : id = .operatorAction i
    · subst haction
      exact hr.of_action (Grows.refl _) hcall fun _ _ _ _ => trivial
    · exact hr.frame haudit (Ne.symm hverify) (Ne.symm haction)

end Step

/-! ### Requests that run alone -/

section Alone

/-- The statements of a call are steps among the requests. -/
theorem steps_of_own {id : CallId ι} {audit : State (CallId ι)}
    (h : (system (CallId ι) config).StepsBy (fun _ action => action = .run id) s.audit audit) :
    (adminSystem ι config).Steps s ⟨audit, s.requests⟩ := by
  induction h with
  | refl => exact .refl
  | @tail before after _ hlast ih =>
    obtain ⟨action, rfl, hstep⟩ := hlast
    have hadmin : (adminSystem ι config).step ⟨before, s.requests⟩ (.run id) = some ⟨after, s.requests⟩ := by
      change (step config before (.run id)).map _ = _
      rw [show step config before (.run id) = some after from hstep]
      rfl
    exact ih.tail ⟨.run id, hadmin⟩

omit [DecidableEq ι] in
/-- A request is answered when its event was. -/
theorem answer?_of_action {r r' : Request} {v : AuditVerification} {outcome : Outcome}
    (hrequest : s.requests i = some request)
    (hidempotency : isIdempotencyKey request.idempotencyKey = true)
    (hverify : s.audit.calls (.verify i) = some ⟨r, .answered (.verification v)⟩)
    (haction : s.audit.calls (.operatorAction i) = some ⟨r', .answered outcome⟩) :
    s.answer? i = some (outcome.error?.elim (.ok v) .error) := by
  simp only [AdminState.answer?, hrequest, hidempotency, hverify, haction, Bool.not_true]
  rfl

/-- The event is appended, well or not. -/
theorem answered_of_action {r r' : Request} {v : AuditVerification} {next : Next}
    (hrequest : s.requests i = some request)
    (hidempotency : isIdempotencyKey request.idempotencyKey = true)
    (halone : s.audit.Alone (.operatorAction i))
    (hverify : s.audit.calls (.verify i) = some ⟨r, .answered (.verification v)⟩)
    (haction : s.audit.calls (.operatorAction i) = some ⟨r', next.progress⟩) (hleft : next.left ≤ 7) :
    ∃ s', (adminSystem ι config).Steps s s' ∧ (s'.answer? i).isSome := by
  obtain ⟨db', outcome, hrun⟩ := @exists_runAlone config s.audit.db 7 next hleft
  have hsteps := steps_of_own (steps_of_runAlone halone haction hrun)
  let audit := { s.audit with db := db' }.setCall (.operatorAction i) ⟨r', .answered outcome⟩
  have hverify' : audit.calls (.verify i) = some ⟨r, .answered (.verification v)⟩ :=
    (State.setCall_calls_of_ne (by simp)).trans hverify
  have hanswer := answer?_of_action (s := ⟨audit, s.requests⟩) hrequest hidempotency hverify'
    State.setCall_calls_self
  exact ⟨_, hsteps, by rw [hanswer]; rfl⟩

/-- The result is there, and its event is sent. -/
theorem answered_of_verified {r : Request} {v : AuditVerification} (hrequest : s.requests i = some request)
    (hidempotency : isIdempotencyKey request.idempotencyKey = true)
    (halone : s.audit.Alone (.operatorAction i))
    (hverify : s.audit.calls (.verify i) = some ⟨r, .answered (.verification v)⟩)
    (haction : s.audit.calls (.operatorAction i) = none) :
    ∃ s', (adminSystem ι config).Steps s s' ∧ (s'.answer? i).isSome := by
  let sent := Request.appendOperatorAction (operatorAction config request v 0)
  let audit := { s.audit with started := .operatorAction i :: s.audit.started }.setCall (.operatorAction i)
    ⟨sent, sent.entry.progress⟩
  have hstart : step config s.audit (.start (.operatorAction i) sent) = some audit := by
    rw [step, haction]
  have hstep : (adminSystem ι config).step s (.record i 0) = some ⟨audit, s.requests⟩ := by
    change adminStep config s (.record i 0) = _
    rw [adminStep, hrequest, hverify]
    change (step config s.audit (.start (.operatorAction i) sent)).map _ = _
    rw [hstart]
    rfl
  have halone' : audit.Alone (.operatorAction i) :=
    fun j c hj hc => halone j c hj ((State.setCall_calls_of_ne hj).symm.trans hc)
  have hverify' : audit.calls (.verify i) = some ⟨r, .answered (.verification v)⟩ :=
    (State.setCall_calls_of_ne (by simp)).trans hverify
  have hleft : sent.entry.left ≤ 7 := by
    obtain ⟨event, hevent, -, -⟩ := normalizeEvent_operatorAction config request v 0
    change (appendEntry _ true).left ≤ 7
    rw [appendEntry, hevent]
    exact Nat.le_refl 7
  obtain ⟨s', hsteps, hanswer⟩ := answered_of_action (s := ⟨audit, s.requests⟩) hrequest hidempotency halone'
    hverify' State.setCall_calls_self hleft
  exact ⟨s', .head ⟨_, hstep⟩ hsteps, hanswer⟩

/-- A request that is neither stopped nor kept waiting is answered. -/
theorem Served.answered (hserved : Served config s i request)
    (hstream : (s.audit.db.streams request.streamKey).isSome) (hrequest : s.requests i = some request)
    (hidempotency : isIdempotencyKey request.idempotencyKey = true)
    (halone : s.audit.Alone (.operatorAction i))
    (hverify : ∀ r, s.audit.calls (.verify i) ≠ some ⟨r, .stopped⟩)
    (haction : ∀ r, s.audit.calls (.operatorAction i) ≠ some ⟨r, .stopped⟩) :
    ∃ s', (adminSystem ι config).Steps s s' ∧ (s'.answer? i).isSome := by
  -- While `verify` runs there is no event yet.
  have hrunning : ∀ {r next v}, s.audit.calls (.verify i) = some ⟨r, Next.progress (.goto next)⟩ →
      runAlone config 7 s.audit.db (.goto next) = some (s.audit.db, .verification v) →
      ∃ s', (adminSystem ι config).Steps s s' ∧ (s'.answer? i).isSome := by
    intro r next v hcall hrun
    have hnone : s.audit.calls (.operatorAction i) = none := by
      refine Option.eq_none_iff_forall_ne_some.mpr fun call hsome => ?_
      obtain ⟨w, now, hanswered, -, -⟩ := hserved.action call hsome
      rw [hcall] at hanswered
      cases hanswered
    have halone' : s.audit.Alone (.verify i) := by
      intro j c hj hc
      by_cases hj' : j = .operatorAction i
      · rw [hj', hnone] at hc
        cases hc
      · exact halone j c hj' hc
    have hsteps := steps_of_own (steps_of_runAlone halone' hcall hrun)
    let audit := s.audit.setCall (.verify i) ⟨r, .answered (.verification v)⟩
    have halone'' : audit.Alone (.operatorAction i) := by
      intro j c hj hc
      by_cases hj' : j = .verify i
      · subst hj'
        obtain rfl := Option.some.inj (State.setCall_calls_self.symm.trans hc)
        exact ⟨rfl, rfl⟩
      · exact halone j c hj ((State.setCall_calls_of_ne hj').symm.trans hc)
    have hrest : ∃ s', (adminSystem ι config).Steps ⟨audit, s.requests⟩ s' ∧ (s'.answer? i).isSome :=
      answered_of_verified hrequest hidempotency halone'' State.setCall_calls_self
        ((State.setCall_calls_of_ne (by simp)).trans hnone)
    obtain ⟨s', hrest, hanswer⟩ := hrest
    exact ⟨s', hsteps.trans hrest, hanswer⟩
  obtain ⟨progress, hprogress, hfound⟩ := hserved.verify
  cases hfound with
  | started =>
    obtain ⟨stream, hrow⟩ := Option.isSome_iff_exists.mp hstream
    exact hrunning hprogress (serve_verify hrow)
  | read stream => exact hrunning hprogress rfl
  | answered v =>
    cases hcall : s.audit.calls (.operatorAction i) with
    | none => exact answered_of_verified hrequest hidempotency halone hprogress hcall
    | some call =>
      obtain ⟨r, progress⟩ := call
      cases progress with
      | running pc =>
        have hleft : (Next.goto pc).left ≤ 7 := by cases pc <;> simp [Next.left, Pc.left]
        exact answered_of_action hrequest hidempotency halone hprogress hcall hleft
      | answered outcome =>
        exact ⟨s, .refl, by rw [answer?_of_action hrequest hidempotency hprogress hcall]; rfl⟩
      | stopped => exact absurd hcall (haction r)
  | stopped => exact absurd hprogress (hverify _)

end Alone

/-! ### The answer -/

omit [DecidableEq ι] in
theorem Served.answer (hserved : Served config s i request) (hrequest : s.requests i = some request)
    (hidempotency : isIdempotencyKey request.idempotencyKey = true) {answer : Except HttpError AuditVerification}
    (hanswer : s.answer? i = some answer) : ∃ v,
      s.audit.calls (.verify i) = some ⟨.verify request.streamKey, .answered (.verification v)⟩ ∧
        answer = .ok v := by
  simp only [AdminState.answer?, hrequest, hidempotency, Bool.not_true] at hanswer
  obtain ⟨progress, hprogress, hfound⟩ := hserved.verify
  rw [hprogress] at hanswer
  cases hfound with
  | answered v =>
    cases hcall : s.audit.calls (.operatorAction i) with
    | none =>
      rw [hcall] at hanswer
      cases hanswer
    | some call =>
      obtain ⟨-, -, -, -, hrecorded⟩ := hserved.action call hcall
      obtain ⟨r, progress⟩ := call
      cases progress with
      | answered outcome =>
        rw [hcall] at hanswer
        simp only [show outcome.error? = none from hrecorded] at hanswer
        exact ⟨v, hprogress, (Option.some.inj hanswer).symm⟩
      | _ =>
        rw [hcall] at hanswer
        cases hanswer
  | _ => cases hanswer

theorem verification_returned (hsha : Function.Injective config.sha256) {s₀ : AdminState ι}
    (h₀ : (adminSystem ι config).Reachable s₀)
    (hstream : (s₀.audit.db.streams request.streamKey).isSome) (hnew : s₀.requests i = none)
    (hrun : (adminSystem ι config).StepsBy (Repeatable i) s₀ s) (hrequest : s.requests i = some request)
    (hoperator : isOperatorId request.operatorId = true)
    (hidempotency : isIdempotencyKey request.idempotencyKey = true)
    (hkey : isIdentifier 160 request.streamKey = true) :
    (∀ answer, s.answer? i = some answer → ∃ v,
      s.audit.calls (.verify i) = some ⟨.verify request.streamKey, .answered (.verification v)⟩ ∧
        answer = .ok v) ∧
    (s.audit.Alone (.operatorAction i) → (∀ r, s.audit.calls (.verify i) ≠ some ⟨r, .stopped⟩) →
      (∀ r, s.audit.calls (.operatorAction i) ≠ some ⟨r, .stopped⟩) →
      ∃ s', (adminSystem ι config).Steps s s' ∧ (s'.answer? i).isSome) := by
  have hrequested : (adminSystem ι config).Reachable s ∧ Requested config s i request := by
    clear hrequest
    induction hrun with
    | refl => exact ⟨h₀, hstream, fun hsome => by rw [hnew] at hsome; cases hsome⟩
    | tail _ hlast ih =>
      obtain ⟨action, hok, hstep⟩ := hlast
      exact ⟨ih.1.next hstep, requested_of_step ih.2 hsha ih.1 hoperator hidempotency hkey hok hstep⟩
  have hserved := hrequested.2.served hrequest
  exact ⟨fun answer hanswer => hserved.answer hrequest hidempotency hanswer,
    hserved.answered hrequested.2.stream hrequest hidempotency⟩

/-! ### The same request again -/

def verifyRequest : VerifyRequest := ⟨"ops-1", "key-1", "transfer:1"⟩

/-- What is hashed of the event of the first verification. -/
def verifiedInput : AuditHashInput where
  streamKey := "admin:operator-actions"
  sequence := 1
  previousHash := 0
  action := "audit.verified"
  entityType := "audit-stream"
  entityId := "transfer:1"
  actorId := some "ops-1"
  occurredAt := 1788084002000
  metadata := [("recordsChecked", countValue 1), ("valid", .bool true)]

/-- SHA-256 on what the runs hash. -/
def operatorConfig : Config :=
  tableConfig [
    (createdInput.text, createdHash),
    (completedInput.text, 0x49dbf81c5d4a5128aa7631dc1ff3ae59ad8c95ef638634e977b3c8008a721660),
    ("audit.verify\x00ops-1\x00key-1".toList,
      0x4203b90ac436d684ad989202ca76e7c20c9512f860aa172e5f12ddb412eb9942),
    (verifiedInput.text, 0xada17c4fc4bbb7ed28aba08943c9e28ba56d61e9061a98becbd0ea7b5374a3e8)]

theorem operatorConfig_injective : Function.Injective operatorConfig.sha256 :=
  tableConfig_injective (by decide +kernel) (by decide +kernel)

/-- An event is appended, and its stream is verified. -/
def verifiedRun : List (AdminAction ℕ) :=
  .start 0 (.append createdEvent) :: List.replicate 7 (.run (.other 0)) ++
    .request 0 verifyRequest :: List.replicate 2 (.run (.verify 0)) ++
    .record 0 1788084002000 :: List.replicate 7 (.run (.operatorAction 0))

/-- The request is sent again, and finds its event. -/
def retriedRun : List (AdminAction ℕ) :=
  .request 1 verifyRequest :: List.replicate 2 (.run (.verify 1)) ++
    [.record 1 1788084003000, .run (.operatorAction 1)]

/-- The first request is answered with its verification, the second refused. -/
def refusesRetry (s : AdminState ℕ) : Bool :=
  match s.answer? 0, s.answer? 1 with
  | some (.ok v), some (.error e) =>
    decide (v = ⟨"transfer:1", true, 1, none⟩) && decide (e = auditEventIdReused)
  | _, _ => false

theorem answers_of_refusesRetry {s : AdminState ℕ} (h : refusesRetry s = true) :
    s.answer? 0 = some (.ok ⟨"transfer:1", true, 1, none⟩) ∧
      s.answer? 1 = some (.error auditEventIdReused) := by
  unfold refusesRetry at h
  split at h
  · next v e hv he =>
    simp only [Bool.and_eq_true, decide_eq_true_eq] at h
    obtain ⟨rfl, rfl⟩ := h
    exact ⟨hv, he⟩
  · cases h

/-- The stream has grown between the two. -/
theorem verification_refused : ∃ s : AdminState ℕ, (adminSystem ℕ operatorConfig).Reachable s ∧
    Function.Injective operatorConfig.sha256 ∧ isOperatorId verifyRequest.operatorId = true ∧
    isIdempotencyKey verifyRequest.idempotencyKey = true ∧ isIdentifier 160 verifyRequest.streamKey = true ∧
    s.requests 0 = some verifyRequest ∧ s.answer? 0 = some (.ok ⟨"transfer:1", true, 1, none⟩) ∧
    s.requests 1 = some verifyRequest ∧ s.answer? 1 = some (.error auditEventIdReused) := by
  have hrun : ((adminSystem ℕ operatorConfig).run (adminSystem ℕ operatorConfig).init (verifiedRun ++
      .start 1 (.append completedEvent) :: List.replicate 7 (.run (.other 1)) ++ retriedRun)).any (fun s =>
        decide (s.requests 0 = some verifyRequest) && decide (s.requests 1 = some verifyRequest) &&
          refusesRetry s) = true := by
    decide +kernel
  obtain ⟨s, hs, htest⟩ := (Option.any_eq_true _ _).mp hrun
  simp only [Bool.and_eq_true, decide_eq_true_eq] at htest
  obtain ⟨⟨hfirst, hsecond⟩, hanswers⟩ := htest
  obtain ⟨hv, he⟩ := answers_of_refusesRetry hanswers
  exact ⟨s, System.reachable_of_run hs, operatorConfig_injective, by decide, by decide, by decide, hfirst,
    hv, hsecond, he⟩

/-- `Repeatable` can be tested. -/
def repeatable (i : ℕ) (s : AdminState ℕ) : AdminAction ℕ → Bool
  | .run (.operatorAction _) =>
    match s.audit.calls (.operatorAction i) with
    | some ⟨r, .running _⟩ => r.append?.all fun a =>
      s.audit.db.records.all (fun record =>
        !decide (record.eventId = a.input.eventId) || matchesEvent record a) &&
      decide (a.input.entityId.length ≤ 128)
    | _ => true
  | _ => true

theorem repeatable_of_test {i : ℕ} {s : AdminState ℕ} {action : AdminAction ℕ}
    (h : repeatable i s action = true) : Repeatable i s action := by
  cases action with
  | run id =>
    cases id with
    | operatorAction j =>
      rintro - r a pc hcall ha
      simp only [repeatable, hcall, ha, Option.all_some, Bool.and_eq_true, List.all_eq_true,
        Bool.or_eq_true, Bool.not_eq_true', decide_eq_false_iff_not, decide_eq_true_eq] at h
      exact ⟨fun record hrecord hid => (h.1 record hrecord).resolve_left (not_not.mpr hid), h.2⟩
    | _ => trivial
  | _ => trivial

/-- The theorem where nothing was appended to the stream between the two. -/
theorem verification_returned_retriedRun : ∃ s : AdminState ℕ, ∃ answer v,
    s.answer? 1 = some answer ∧ answer = .ok v := by
  have hfirst : ((adminSystem ℕ operatorConfig).run (adminSystem ℕ operatorConfig).init verifiedRun).any
      (fun s => (s.audit.db.streams "transfer:1").isSome && (s.requests 1).isNone &&
        ((adminSystem ℕ operatorConfig).runWhere (repeatable 1) s retriedRun).any fun s =>
          decide (s.requests 1 = some verifyRequest) && (s.answer? 1).isSome) = true := by
    decide +kernel
  obtain ⟨s₀, hs₀, htest⟩ := (Option.any_eq_true _ _).mp hfirst
  simp only [Bool.and_eq_true] at htest
  obtain ⟨⟨hstream, hnew⟩, hrest⟩ := htest
  obtain ⟨s, hs, hanswered⟩ := (Option.any_eq_true _ _).mp hrest
  simp only [Bool.and_eq_true, decide_eq_true_eq] at hanswered
  obtain ⟨answer, hanswer⟩ := Option.isSome_iff_exists.mp hanswered.2
  obtain ⟨v, -, hv⟩ := (verification_returned operatorConfig_injective (System.reachable_of_run hs₀) hstream
    (Option.isNone_iff_eq_none.mp hnew) (System.stepsBy_of_runWhere (fun _ _ => repeatable_of_test) hs)
    hanswered.1 (by decide) (by decide) (by decide)).1 answer hanswer
  exact ⟨s, answer, v, hanswer, hv⟩

end NovaPay.Audit
