import NovaPay.Transaction.Leads
import NovaPay.Transaction.Lockstep

/-!
# Attempts at the Ledger and the claims they start from

`process` is entered after the update that takes a domestic transfer out of PENDING, after the one that
prepares an international transfer, and after the one that claims a retry. Each of these moves the
version of the transfer by one.
-/

namespace NovaPay.Transaction

open DecimalArithmetic Relational TransitionSystem

/-- What a statement shows of the attempts at a transfer: the row that `reconcile` reads first, the
update before `process` with the version it found, that update where it changed no row, and the first
read of `process` where it goes on. -/
inductive Event
  | read (transferId : Uuid) (version : ℕ)
  | claimed (transferId : Uuid) (version : ℕ)
  | lost (transferId : Uuid)
  | began (transferId : Uuid)
deriving DecidableEq, Repr

/-- The update claimed its transfer if the version is one higher after it. -/
def claimEvent (db db' : Database) (id : Uuid) : Event :=
  match db.findTransfer id, db'.findTransfer id with
  | some t, some t' => if t'.version = t.version + 1 then .claimed id t.version else .lost id
  | _, _ => .lost id

/-- `process` goes on after its first read. -/
def beginEvents (id : Uuid) : Option Pc → List Event
  | some (.validate _) => [.began id]
  | _ => []

/-- What the statement shows, given the statement after it. -/
def Pc.shows (db db' : Database) (next : Option Pc) : Pc → List Event
  | .reconcileRead id _ => (db.findTransfer id).toList.map fun t => .read id t.version
  | .transition id => [claimEvent db db' id]
  | .prepare t _ | .claimRetry t _ => [claimEvent db db' t.id]
  | .processRead id => beginEvents id next
  | _ => []

/-- What a step shows, with the execution that shows it. -/
def shows (s : State) (a : Action) (s' : State) : List (ExecId × Event) :=
  match a with
  | .run e _ =>
    match s.executions e with
    | some ⟨_, some pc⟩ =>
      (pc.shows s.db s'.db ((s'.executions e).bind Execution.pc)).map fun event => (e, event)
    | _ => []
  | _ => []

/-- The transfer that the update before `process` works on. -/
def Pc.claims? : Pc → Option Uuid
  | .transition id => some id
  | .prepare t _ | .claimRetry t _ => some t.id
  | _ => none

/-- The version that `reconcile` saw and goes on with; a PENDING row has version 0. -/
def Pc.version? : Pc → Option (Uuid × ℕ)
  | .reconcileReload id => some (id, 0)
  | .byReference t _ | .claimRetry t _ | .consume t _ | .prepare t _ => some (t.id, t.version)
  | _ => none

variable {config : Config} {db db' : Database} {now : Time} {c : Choice} {pc pc' : Pc} {origin : Origin}
  {t u : Transfer}

/-- Where an execution is after what it showed. -/
def Event.Before (pc : Pc) : Event → Prop
  | .read id version => pc.stage = 0 → pc.version? = some (id, version)
  | .claimed _ _ => 1 ≤ pc.stage
  | .lost _ => 4 ≤ pc.stage
  | .began _ => 2 ≤ pc.stage

def Event.isClaimed : Event → Bool
  | .claimed _ _ => true
  | _ => false

def Event.isBegan : Event → Bool
  | .began _ => true
  | _ => false

def UpstreamCall.isPost : UpstreamCall → Bool
  | .post _ _ _ _ => true
  | _ => false

/-- The executions behind the entries of a log that pass a test. -/
def executionsOf {ε : Type} (p : ε → Bool) (log : List (ExecId × ε)) : List ExecId :=
  (log.filter fun entry => p entry.2).map Prod.fst

theorem mem_executionsOf {ε : Type} {p : ε → Bool} {log : List (ExecId × ε)} {e : ExecId} :
    e ∈ executionsOf p log ↔ ∃ x, (e, x) ∈ log ∧ p x = true := by
  simp [executionsOf]

/-- An execution with no such entry may make one. -/
theorem executionsOf_nodup {ε : Type} {p : ε → Bool} {log : List (ExecId × ε)} {e : ExecId} {new : List ε}
    (hlog : (executionsOf p log).Nodup) (hlength : new.length ≤ 1)
    (hfresh : ∀ x ∈ new, p x = true → e ∉ executionsOf p log) :
    (executionsOf p (new.map (fun x => (e, x)) ++ log)).Nodup := by
  match new with
  | [] => exact hlog
  | [x] =>
    rw [List.map_singleton, List.singleton_append, executionsOf, List.filter_cons]
    split
    · next hx => exact List.nodup_cons.mpr ⟨hfresh x (List.mem_singleton.mpr rfl) hx, hlog⟩
    · exact hlog

theorem eq_of_executionsOf_nodup {ε : Type} {p : ε → Bool} {log : List (ExecId × ε)} {e : ExecId} {x y : ε}
    (h : (executionsOf p log).Nodup) (hx : (e, x) ∈ log) (hpx : p x = true) (hy : (e, y) ∈ log)
    (hpy : p y = true) : x = y :=
  congrArg Prod.snd (List.inj_on_of_nodup_map h (List.mem_filter.mpr ⟨hx, hpx⟩)
    (List.mem_filter.mpr ⟨hy, hpy⟩) rfl)

section Runs

variable {s s' : State} {e : ExecId} {a : Action}

/-- The execution was requested and, where it still waits, waits at such a statement. -/
def State.Past (s : State) (e : ExecId) (P : Pc → Prop) : Prop :=
  ∃ execution, s.executions e = some execution ∧ ∀ pc, execution.pc = some pc → P pc

theorem State.Past.step {P : Pc → Prop} (hp : s.Past e P) (hi : Invariant config s)
    (hleads : ∀ pc pc', P pc → Leads s.db s'.db pc pc' → P pc') (h : step config s a = some s') : s'.Past e P := by
  obtain ⟨⟨origin, pc⟩, he, hpc⟩ := hp
  have hnext : ∃ pc', s'.executions e = some ⟨origin, pc'⟩ := by
    rcases step_cases h with ⟨_, -, rfl⟩ | ⟨i, origin', next, -, hfree, rfl, -⟩ |
      ⟨i, choice, origin', pc', -, hi', -, rfl⟩ | ⟨i, origin', pc', -, hi', rfl⟩
    · exact ⟨pc, he⟩
    all_goals
      by_cases hie : e = i
      · subst hie
        first
        | rw [hfree] at he
          cases he
        | rw [hi'] at he
          cases he
          exact ⟨_, State.proceed_executions_self⟩
        | rw [hi'] at he
          cases he
          exact ⟨_, State.stop_executions_self⟩
      · first
        | exact ⟨pc, (State.proceed_executions_of_ne hie).trans he⟩
        | exact ⟨pc, (State.stop_executions_of_ne hie).trans he⟩
  obtain ⟨pc', he'⟩ := hnext
  refine ⟨⟨origin, pc'⟩, he', fun after heq => ?_⟩
  cases heq
  obtain ⟨hold, -⟩ | ⟨hnone, -⟩ | ⟨choice, before, -, hbefore, hl⟩ := leads_of_step hi h he'
  · rw [he] at hold
    cases hold
    exact hpc after rfl
  · rw [he] at hnone
    cases hnone
  · rw [he] at hbefore
    cases hbefore
    exact hleads before after (hpc before rfl) hl

theorem Leads.stage (h : Leads db db' pc pc') : pc.stage = 0 ∨ pc.stage < pc'.stage := by
  cases h <;> simp [Pc.stage]

theorem Leads.version (h : Leads db db' pc pc')
    (hrows : ∀ id t, db.findTransfer id = some t → t.status = .pending → t.version = 0) {x : Uuid × ℕ}
    (hx : pc.version? = some x) (hstage : pc'.stage = 0) : pc'.version? = some x := by
  cases h with
  | reloaded hfind hs =>
    rw [← hx]
    exact congrArg some (Prod.ext rfl (hrows _ _ hfind hs))
  | stale | quoted => exact hx
  | _ => simp [Pc.stage, Pc.version?] at hstage hx

/-- What was shown stays behind. -/
theorem Event.Before.leads {event : Event} (hb : event.Before pc) (h : Leads db db' pc pc')
    (hrows : ∀ id t, db.findTransfer id = some t → t.status = .pending → t.version = 0) :
    event.Before pc' := by
  have hstage := h.stage
  cases event with
  | read id version => exact fun hzero => h.version hrows (hb (by omega)) hzero
  | claimed id version =>
    have hle : 1 ≤ pc.stage := hb
    change 1 ≤ pc'.stage
    omega
  | lost id =>
    have hle : 4 ≤ pc.stage := hb
    change 4 ≤ pc'.stage
    omega
  | began id =>
    have hle : 2 ≤ pc.stage := hb
    change 2 ≤ pc'.stage
    omega

theorem claimEvent_of_version {t' : Transfer} {id : Uuid} (ht : db.findTransfer id = some t)
    (ht' : db'.findTransfer id = some t') (hversion : t'.version = t.version + 1) :
    claimEvent db db' id = .claimed id t.version := by
  simp [claimEvent, ht, ht', hversion]

theorem claimEvent_self {id : Uuid} : claimEvent db db id = .lost id := by
  unfold claimEvent
  split
  · next t t' ht ht' =>
    obtain rfl := Option.some.inj (ht.symm.trans ht')
    rw [if_neg (by omega)]
  · rfl

theorem claimEvent_cases (db db' : Database) (id : Uuid) : claimEvent db db' id = .lost id ∨
    ∃ t t', db.findTransfer id = some t ∧ db'.findTransfer id = some t' ∧ t'.version = t.version + 1 ∧
      claimEvent db db' id = .claimed id t.version := by
  unfold claimEvent
  split
  · next t t' ht ht' =>
    split
    · next hversion => exact .inr ⟨t, t', ht, ht', hversion, rfl⟩
    · exact .inl rfl
  · exact .inl rfl

theorem shows_of_claims {next : Option Pc} {id : Uuid} (h : pc.claims? = some id) :
    pc.shows db db' next = [claimEvent db db' id] := by
  cases pc <;> cases h <;> rfl

theorem shows_length (next : Option Pc) : (pc.shows db db' next).length ≤ 1 := by
  cases pc with
  | reconcileRead id force =>
    rw [Pc.shows, List.length_map]
    cases db.findTransfer id <;> simp
  | processRead id =>
    change (beginEvents id next).length ≤ 1
    unfold beginEvents
    split <;> simp
  | _ => first | exact le_refl 1 | exact Nat.zero_le 1

/-- The statements that show something. -/
theorem mem_shows {next : Option Pc} {event : Event} (h : event ∈ pc.shows db db' next) :
    (∃ id force t, pc = .reconcileRead id force ∧ db.findTransfer id = some t ∧ event = .read id t.version) ∨
      (∃ id, pc.claims? = some id ∧ event = claimEvent db db' id) ∨
      ∃ id t, pc = .processRead id ∧ next = some (.validate t) ∧ event = .began id := by
  cases pc with
  | reconcileRead id force =>
    simp only [Pc.shows, List.mem_map, Option.mem_toList] at h
    obtain ⟨t, ht, rfl⟩ := h
    exact .inl ⟨id, force, t, rfl, ht, rfl⟩
  | transition id | prepare t quote | claimRetry t staleBefore =>
    exact .inr (.inl ⟨_, rfl, List.mem_singleton.mp h⟩)
  | processRead id =>
    change event ∈ beginEvents id next at h
    unfold beginEvents at h
    split at h
    · exact .inr (.inr ⟨id, _, rfl, rfl, List.mem_singleton.mp h⟩)
    · cases h
  | _ => cases h

/-- A step that runs a statement of an execution. -/
structure Ran (s s' : State) (e : ExecId) (origin : Origin) (pc : Pc) (next : Option Pc) : Prop where
  before : s.executions e = some ⟨origin, some pc⟩
  after : s'.executions e = some ⟨origin, next⟩
  leads : ∀ pc', next = some pc' → Leads s.db s'.db pc pc'
  answered : next = none → pc.claims?.isSome = true → s'.db = s.db

theorem shows_of_run {choice : Choice} {next : Option Pc} (he : s.executions e = some ⟨origin, some pc⟩)
    (he' : s'.executions e = some ⟨origin, next⟩) :
    shows s (.run e choice) s' = (pc.shows s.db s'.db next).map fun event => (e, event) := by
  simp [shows, he, he']

/-- An update that ends its execution changed nothing. -/
theorem advance_answered {outcome : Outcome} (h : (advance config now c db pc).2 = .answer outcome)
    (hclaims : pc.claims?.isSome = true) : (advance config now c db pc).1 = db := by
  cases pc with
  | transition id =>
    change (runTransition c db id).2 = _ at h
    change (runTransition c db id).1 = db
    unfold runTransition at h ⊢
    split at h
    · cases h
    · rfl
  | claimRetry t staleBefore =>
    change (runClaimRetry c db t staleBefore).2 = _ at h
    change (runClaimRetry c db t staleBefore).1 = db
    unfold runClaimRetry at h ⊢
    split at h
    · cases h
    · cases h
    · rfl
  | prepare t quote =>
    change (runPrepare c db t quote).2 = _ at h
    change (runPrepare c db t quote).1 = db
    unfold runPrepare at h ⊢
    split at h
    · cases h
    · cases h
    · rfl
  | _ => cases hclaims

theorem shows_of_step (hi : Invariant config s) (h : step config s a = some s') : shows s a s' = [] ∨
    ∃ e origin pc next, Ran s s' e origin pc next ∧
      shows s a s' = (pc.shows s.db s'.db next).map fun event => (e, event) := by
  rcases step_cases h with ⟨_, rfl, rfl⟩ | ⟨_, _, _, rfl, -⟩ | ⟨i, choice, origin, pc, rfl, hi', -, rfl⟩ |
    ⟨_, _, _, rfl, -⟩
  · exact .inl rfl
  · exact .inl rfl
  · have hleads : ((advance config s.now choice s.db pc).2).Leads s.db
        (advance config s.now choice s.db pc).1 pc := advance_leads hi.lockstep (hi.running i origin pc hi')
    refine .inr ⟨i, origin, pc, _, ⟨hi', State.proceed_executions_self, fun pc' hpc' => ?_, fun hnone hc => ?_⟩,
      shows_of_run hi' State.proceed_executions_self⟩
    · cases hgoto : (advance config s.now choice s.db pc).2 with
      | goto next =>
        rw [hgoto] at hpc' hleads
        cases hpc'
        exact hleads
      | answer outcome =>
        rw [hgoto] at hpc'
        cases hpc'
    · cases hgoto : (advance config s.now choice s.db pc).2 with
      | goto next =>
        rw [hgoto] at hnone
        cases hnone
      | answer outcome => exact advance_answered hgoto hc
  · exact .inl rfl

/-- An update that leads to `process` claimed its transfer. -/
theorem claimed_of_leads {id : Uuid} (h : Leads db db' pc (.processRead id)) (hchecked : pc.Checked origin)
    (hpending : ∀ i, pc = .transition i → ∃ t, db.findTransfer i = some t ∧ t.status = .pending) :
    pc.claims? = some id ∧ ∃ t, db.findTransfer id = some t ∧ claimEvent db db' id = .claimed id t.version ∧
      ∀ x, pc.version? = some x → (∀ u, pc.transfer? = some u → u.status = .pending → u.version = 0) →
        (t.status = .pending → t.version = 0) → x = (id, t.version) := by
  cases h with
  | started hstart =>
    obtain ⟨t, ht, hs⟩ := hpending _ rfl
    obtain ⟨t', ht', hversion⟩ := hstart t ht hs
    exact ⟨rfl, t, ht, claimEvent_of_version ht ht' hversion, fun x hx => by cases hx⟩
  | retried hfind hsame hfind' hversion =>
    refine ⟨rfl, _, hfind, claimEvent_of_version hfind hfind' hversion, fun x hx _ _ => ?_⟩
    cases hx
    rw [hsame]
  | prepared hfind hs hfind' hversion =>
    refine ⟨rfl, _, hfind, claimEvent_of_version hfind hfind' hversion, fun x hx hsnap hrow => ?_⟩
    cases hx
    rw [hrow hs, hsnap _ rfl hchecked.1]

/-- An update that does not lead to `process` leaves the tables as they are. -/
theorem Ran.lost (h : Ran s s' e origin pc pc'?) (hclaims : pc.claims?.isSome = true)
    (hnot : ∀ id, pc'? ≠ some (.processRead id)) : s'.db = s.db := by
  match pc'? with
  | none => exact h.answered rfl hclaims
  | some pc' =>
    have hleads := h.leads pc' rfl
    cases hleads with
    | outrun heq | unprepared heq => exact heq
    | started => exact absurd rfl (hnot _)
    | retried => exact absurd rfl (hnot _)
    | prepared => exact absurd rfl (hnot _)
    | _ => cases hclaims

/-- The update before `process` claims the transfer and leads there, or it is lost and leads away. -/
theorem Ran.claim {next : Option Pc} {id : Uuid} (hr : Ran s s' e origin pc next) (hi : Invariant config s)
    (hu : Unstarted s) (hclaims : pc.claims? = some id) :
    (∃ t, next = some (.processRead id) ∧ s.db.findTransfer id = some t ∧
        claimEvent s.db s'.db id = .claimed id t.version ∧
        ∀ x, pc.version? = some x → x = (id, t.version)) ∨
      (claimEvent s.db s'.db id = .lost id ∧ ∀ pc', next = some pc' → 4 ≤ pc'.stage) := by
  by_cases hnext : ∃ i, next = some (.processRead i)
  · obtain ⟨i, rfl⟩ := hnext
    have hpending : ∀ i, pc = .transition i → ∃ t, s.db.findTransfer i = some t ∧ t.status = .pending := by
      rintro i rfl
      obtain ⟨t, ht, hs, -⟩ := hu.pending e origin i hr.before
      exact ⟨t, ht, hs⟩
    obtain ⟨hclaims', t, ht, hevent, hversion⟩ := claimed_of_leads (hr.leads _ rfl)
      (hi.running e origin pc hr.before).checked hpending
    obtain rfl : id = i := Option.some.inj (hclaims.symm.trans hclaims')
    exact .inl ⟨t, rfl, ht, hevent, fun x hx => hversion x hx
      (fun u => hu.snapshots e origin pc u hr.before) (hu.rows id t ht)⟩
  · have hsame := hr.lost (by rw [hclaims]; rfl) fun i hi' => hnext ⟨i, hi'⟩
    refine .inr ⟨by rw [hsame, claimEvent_self], fun pc' hpc' => ?_⟩
    have hleads := hr.leads pc' hpc'
    cases hleads with
    | outrun | unprepared => exact le_refl 4
    | started | retried | prepared => exact absurd ⟨_, hpc'⟩ hnext
    | _ => cases hclaims

theorem stage_of_claims {id : Uuid} (h : pc.claims? = some id) : pc.stage = 0 := by
  cases pc <;> first | rfl | cases h

/-- What a step shows is behind it. -/
theorem Ran.behind {next : Option Pc} {event : Event} (hr : Ran s s' e origin pc next) (hi : Invariant config s)
    (hu : Unstarted s) (hevent : event ∈ pc.shows s.db s'.db next) (pc' : Pc) (hpc' : next = some pc') :
    event.Before pc' := by
  obtain ⟨id, force, t, rfl, ht, rfl⟩ | ⟨id, hclaims, rfl⟩ | ⟨id, t, rfl, hnext, rfl⟩ := mem_shows hevent
  · intro hstage
    have hleads := hr.leads pc' hpc'
    cases hleads with
    | reload hfind hs =>
      obtain rfl := Option.some.inj (ht.symm.trans hfind)
      exact congrArg (fun v => some (id, v)) (hu.rows id t ht hs).symm
    | asked hfind =>
      obtain rfl := Option.some.inj (ht.symm.trans hfind)
      rfl
  · obtain ⟨t, rfl, -, hclaimed, -⟩ | ⟨hlost, hstage⟩ := hr.claim hi hu hclaims
    · cases hpc'
      rw [hclaimed]
      exact le_refl 1
    · rw [hlost]
      exact hstage pc' hpc'
  · cases hnext.symm.trans hpc'
    exact le_refl 2

/-- What a run has shown: a claim took a version that is gone, an execution claims, begins and posts at
most once and in this order, and claims what it read. -/
structure Attempted (s : State) (log : List (ExecId × Event)) : Prop where
  unstarted : Unstarted s
  behind : ∀ e event, (e, event) ∈ log → s.Past e fun pc => event.Before pc
  claims : ∀ e id v, (e, .claimed id v) ∈ log → ∃ t, s.db.findTransfer id = some t ∧ v < t.version
  distinct : ∀ e e' id v, (e, .claimed id v) ∈ log → (e', .claimed id v) ∈ log → e = e'
  agree : ∀ e id v id' v', (e, .read id v) ∈ log → (e, .claimed id' v') ∈ log → (id, v) = (id', v')
  lost : ∀ e id id' v, (e, .lost id) ∈ log → (e, .claimed id' v) ∉ log
  starting : ∀ e origin id, s.executions e = some ⟨origin, some (.processRead id)⟩ →
    ∃ v, (e, .claimed id v) ∈ log
  begins : ∀ e id, (e, .began id) ∈ log → ∃ v, (e, .claimed id v) ∈ log
  validating : ∀ e origin t, s.executions e = some ⟨origin, some (.validate t)⟩ → (e, .began t.id) ∈ log
  posts : ∀ e t sender recipient posting, (e, .post t sender recipient posting) ∈ s.calls →
    (e, .began t.id) ∈ log ∧ s.Past e fun pc => 3 ≤ pc.stage
  claimers : (executionsOf Event.isClaimed log).Nodup
  beginners : (executionsOf Event.isBegan log).Nodup
  posters : (executionsOf UpstreamCall.isPost s.calls).Nodup

theorem attempted_initial : Attempted .initial [] where
  unstarted := unstarted_initial
  behind := by simp
  claims := by simp
  distinct := by simp
  agree := by simp
  lost := by simp
  starting := by simp [State.initial]
  begins := by simp
  validating := by simp [State.initial]
  posts := by simp [State.initial]
  claimers := .nil
  beginners := .nil
  posters := .nil

theorem new_event {event : Event} (hi : Invariant config s) (h : step config s a = some s')
    (hmem : (e, event) ∈ shows s a s') :
    ∃ origin pc next, Ran s s' e origin pc next ∧ event ∈ pc.shows s.db s'.db next := by
  obtain hnone | ⟨i, origin, pc, next, hr, hshows⟩ := shows_of_step hi h
  · rw [hnone] at hmem
    cases hmem
  · rw [hshows] at hmem
    obtain ⟨event', hevent, heq⟩ := List.mem_map.mp hmem
    cases heq
    exact ⟨origin, pc, next, hr, hevent⟩

/-- A step shows one thing at most. -/
theorem shows_unique {x y : ExecId × Event} (hi : Invariant config s) (h : step config s a = some s')
    (hx : x ∈ shows s a s') (hy : y ∈ shows s a s') : x = y := by
  obtain hnone | ⟨i, origin, pc, next, -, hshows⟩ := shows_of_step hi h
  · rw [hnone] at hx
    cases hx
  · have hlength : (shows s a s').length ≤ 1 := by
      rw [hshows, List.length_map]
      exact shows_length next
    generalize shows s a s' = shown at hx hy hlength
    match shown with
    | [] => cases hx
    | [z] => exact (List.mem_singleton.mp hx).trans (List.mem_singleton.mp hy).symm

theorem new_claim {id : Uuid} {v : ℕ} (hi : Invariant config s) (h : step config s a = some s')
    (hmem : (e, .claimed id v) ∈ shows s a s') :
    ∃ origin pc next t t', Ran s s' e origin pc next ∧ pc.claims? = some id ∧
      s.db.findTransfer id = some t ∧ s'.db.findTransfer id = some t' ∧ t.version = v ∧ t'.version = v + 1 := by
  obtain ⟨origin, pc, next, hr, hevent⟩ := new_event hi h hmem
  obtain ⟨_, _, _, -, -, heq⟩ | ⟨i, hclaims, heq⟩ | ⟨_, _, -, -, heq⟩ := mem_shows hevent
  · cases heq
  · obtain hlost | ⟨t, t', ht, ht', hversion, hclaimed⟩ := claimEvent_cases s.db s'.db i
    · rw [hlost] at heq
      cases heq
    · rw [hclaimed] at heq
      cases heq
      exact ⟨origin, pc, next, t, t', hr, hclaims, ht, ht', rfl, hversion⟩
  · cases heq

theorem new_read {id : Uuid} {v : ℕ} (hi : Invariant config s) (h : step config s a = some s')
    (hmem : (e, .read id v) ∈ shows s a s') : ∃ origin pc next, Ran s s' e origin pc next ∧ pc.stage = 0 := by
  obtain ⟨origin, pc, next, hr, hevent⟩ := new_event hi h hmem
  obtain ⟨_, _, _, rfl, -, -⟩ | ⟨i, hclaims, -⟩ | ⟨_, _, -, -, heq⟩ := mem_shows hevent
  · exact ⟨origin, _, next, hr, rfl⟩
  · exact ⟨origin, pc, next, hr, stage_of_claims hclaims⟩
  · cases heq

theorem new_lost {id : Uuid} (hi : Invariant config s) (h : step config s a = some s')
    (hmem : (e, .lost id) ∈ shows s a s') : ∃ origin pc next, Ran s s' e origin pc next ∧ pc.stage = 0 := by
  obtain ⟨origin, pc, next, hr, hevent⟩ := new_event hi h hmem
  obtain ⟨_, _, _, -, -, heq⟩ | ⟨i, hclaims, -⟩ | ⟨_, _, -, -, heq⟩ := mem_shows hevent
  · cases heq
  · exact ⟨origin, pc, next, hr, stage_of_claims hclaims⟩
  · cases heq

theorem new_began {id : Uuid} (hi : Invariant config s) (h : step config s a = some s')
    (hmem : (e, .began id) ∈ shows s a s') : ∃ origin next, Ran s s' e origin (.processRead id) next := by
  obtain ⟨origin, pc, next, hr, hevent⟩ := new_event hi h hmem
  obtain ⟨_, _, _, -, -, heq⟩ | ⟨i, -, heq⟩ | ⟨i, t, rfl, -, heq⟩ := mem_shows hevent
  · cases heq
  · obtain hlost | ⟨t, t', -, -, -, hclaimed⟩ := claimEvent_cases s.db s'.db i
    · rw [hlost] at heq
      cases heq
    · rw [hclaimed] at heq
      cases heq
  · cases heq
    exact ⟨origin, next, hr⟩

namespace Attempted

variable {log : List (ExecId × Event)}

theorem before {event : Event} {next : Option Pc} (ha : Attempted s log) (hr : Ran s s' e origin pc next)
    (hold : (e, event) ∈ log) : event.Before pc := by
  obtain ⟨execution, he, hpast⟩ := ha.behind e event hold
  obtain rfl := Option.some.inj (he.symm.trans hr.before)
  exact hpast pc rfl

theorem claims_step (ha : Attempted s log) (hi : Invariant config s) (h : step config s a = some s')
    (e : ExecId) (id : Uuid) (v : ℕ) (hmem : (e, .claimed id v) ∈ shows s a s' ++ log) :
    ∃ t, s'.db.findTransfer id = some t ∧ v < t.version := by
  obtain hnew | hold := List.mem_append.mp hmem
  · obtain ⟨-, -, -, -, t', -, -, -, ht', -, hversion⟩ := new_claim hi h hnew
    exact ⟨t', ht', by omega⟩
  · obtain ⟨t, ht, hlt⟩ := ha.claims e id v hold
    obtain ⟨t', ht', hle⟩ := version_of_step hi h ht
    exact ⟨t', ht', by omega⟩

theorem distinct_step (ha : Attempted s log) (hi : Invariant config s) (h : step config s a = some s')
    (e e' : ExecId) (id : Uuid) (v : ℕ) (hmem : (e, .claimed id v) ∈ shows s a s' ++ log)
    (hmem' : (e', .claimed id v) ∈ shows s a s' ++ log) : e = e' := by
  -- a version that was claimed before is gone
  have hgone : ∀ i j, (i, Event.claimed id v) ∈ shows s a s' → (j, Event.claimed id v) ∉ log := by
    intro i j hnew hold
    obtain ⟨-, -, -, t, -, -, -, ht, -, hversion, -⟩ := new_claim hi h hnew
    obtain ⟨u, hu, hlt⟩ := ha.claims j id v hold
    obtain rfl := Option.some.inj (ht.symm.trans hu)
    omega
  obtain hnew | hold := List.mem_append.mp hmem
  · obtain hnew' | hold' := List.mem_append.mp hmem'
    · exact congrArg Prod.fst (shows_unique hi h hnew hnew')
    · exact absurd hold' (hgone e e' hnew)
  · obtain hnew' | hold' := List.mem_append.mp hmem'
    · exact absurd hold (hgone e' e hnew')
    · exact ha.distinct e e' id v hold hold'

theorem agree_step (ha : Attempted s log) (hi : Invariant config s) (h : step config s a = some s')
    (e : ExecId) (id : Uuid) (v : ℕ) (id' : Uuid) (v' : ℕ) (hread : (e, .read id v) ∈ shows s a s' ++ log)
    (hclaimed : (e, .claimed id' v') ∈ shows s a s' ++ log) : (id, v) = (id', v') := by
  obtain hnew | hold := List.mem_append.mp hread
  · obtain hnew' | hold' := List.mem_append.mp hclaimed
    · cases shows_unique hi h hnew hnew'
    · obtain ⟨_, _, _, hr, hstage⟩ := new_read hi h hnew
      have hle : 1 ≤ _ := ha.before hr hold'
      omega
  · obtain hnew' | hold' := List.mem_append.mp hclaimed
    · obtain ⟨origin, pc, next, t, t', hr, hclaims, ht, ht', rfl, hversion⟩ := new_claim hi h hnew'
      obtain ⟨u, -, hu, -, hsame⟩ | ⟨hlost, -⟩ := hr.claim hi ha.unstarted hclaims
      · obtain rfl := Option.some.inj (ht.symm.trans hu)
        exact hsame (id, v) (ha.before hr hold (stage_of_claims hclaims))
      · rw [claimEvent_of_version ht ht' hversion] at hlost
        cases hlost
    · exact ha.agree e id v id' v' hold hold'

theorem lost_step (ha : Attempted s log) (hi : Invariant config s) (h : step config s a = some s')
    (e : ExecId) (id id' : Uuid) (v : ℕ) (hlost : (e, .lost id) ∈ shows s a s' ++ log) :
    (e, .claimed id' v) ∉ shows s a s' ++ log := by
  intro hclaimed
  obtain hnew | hold := List.mem_append.mp hlost
  · obtain hnew' | hold' := List.mem_append.mp hclaimed
    · cases shows_unique hi h hnew hnew'
    · obtain ⟨_, _, _, hr, hstage⟩ := new_lost hi h hnew
      have hle : 1 ≤ _ := ha.before hr hold'
      omega
  · obtain hnew' | hold' := List.mem_append.mp hclaimed
    · obtain ⟨_, _, _, -, -, hr, hclaims, -⟩ := new_claim hi h hnew'
      have hle : 4 ≤ _ := ha.before hr hold
      have hstage := stage_of_claims hclaims
      omega
    · exact ha.lost e id id' v hold hold'

theorem starting_step (ha : Attempted s log) (hi : Invariant config s) (h : step config s a = some s')
    (e : ExecId) (origin : Origin) (id : Uuid)
    (he : s'.executions e = some ⟨origin, some (.processRead id)⟩) :
    ∃ v, (e, .claimed id v) ∈ shows s a s' ++ log := by
  obtain ⟨hold, -⟩ | ⟨-, hstage, -⟩ | ⟨choice, pc, rfl, hbefore, hleads⟩ := leads_of_step hi h he
  · obtain ⟨v, hv⟩ := ha.starting e origin id hold
    exact ⟨v, List.mem_append_right _ hv⟩
  · cases hstage
  · have hpending : ∀ i, pc = .transition i → ∃ t, s.db.findTransfer i = some t ∧ t.status = .pending := by
      rintro i rfl
      obtain ⟨t, ht, hs, -⟩ := ha.unstarted.pending e origin i hbefore
      exact ⟨t, ht, hs⟩
    obtain ⟨hclaims, t, -, hclaimed, -⟩ := claimed_of_leads hleads
      (hi.running e origin pc hbefore).checked hpending
    refine ⟨t.version, List.mem_append_left _ ?_⟩
    rw [shows_of_run hbefore he, shows_of_claims hclaims, hclaimed]
    exact List.mem_singleton.mpr rfl

theorem begins_step (ha : Attempted s log) (hi : Invariant config s) (h : step config s a = some s')
    (e : ExecId) (id : Uuid) (hmem : (e, .began id) ∈ shows s a s' ++ log) :
    ∃ v, (e, .claimed id v) ∈ shows s a s' ++ log := by
  obtain hnew | hold := List.mem_append.mp hmem
  · obtain ⟨origin, next, hr⟩ := new_began hi h hnew
    obtain ⟨v, hv⟩ := ha.starting e origin id hr.before
    exact ⟨v, List.mem_append_right _ hv⟩
  · obtain ⟨v, hv⟩ := ha.begins e id hold
    exact ⟨v, List.mem_append_right _ hv⟩

theorem validating_step (ha : Attempted s log) (hi : Invariant config s) (h : step config s a = some s')
    (e : ExecId) (origin : Origin) (t : Transfer) (he : s'.executions e = some ⟨origin, some (.validate t)⟩) :
    (e, .began t.id) ∈ shows s a s' ++ log := by
  obtain ⟨hold, -⟩ | ⟨-, hstage, -⟩ | ⟨choice, pc, rfl, hbefore, hleads⟩ := leads_of_step hi h he
  · exact List.mem_append_right _ (ha.validating e origin t hold)
  · cases hstage
  · refine List.mem_append_left _ ?_
    cases hleads with
    | began =>
      rw [shows_of_run hbefore he]
      exact List.mem_singleton.mpr rfl

theorem posts_step (ha : Attempted s log) (hi : Invariant config s) (hc : CallsOk s)
    (h : step config s a = some s') (e : ExecId) (t : Transfer) (sender recipient : WalletValidation)
    (posting : PostingCommand) (hmem : (e, .post t sender recipient posting) ∈ s'.calls) :
    (e, .began t.id) ∈ shows s a s' ++ log ∧ s'.Past e fun pc => 3 ≤ pc.stage := by
  have hlater : ∀ pc pc' : Pc, 3 ≤ pc.stage → Leads s.db s'.db pc pc' → 3 ≤ pc'.stage := by
    intro pc pc' hle hleads
    have hstage := hleads.stage
    omega
  have hkept : (e, UpstreamCall.post t sender recipient posting) ∈ s.calls →
      (e, .began t.id) ∈ shows s a s' ++ log ∧ s'.Past e fun pc => 3 ≤ pc.stage := by
    intro hold
    obtain ⟨hbegan, hpast⟩ := ha.posts e t sender recipient posting hold
    exact ⟨List.mem_append_right _ hbegan, hpast.step hi hlater h⟩
  obtain hold | ⟨origin, pc, he, hcall⟩ := calls_of_step h hmem
  · exact hkept hold
  cases pc with
  | post t' sender' recipient' posting' =>
    cases hcall
    obtain ⟨hold, -⟩ | ⟨-, hstage, -⟩ | ⟨choice, pc, rfl, hbefore, hleads⟩ := leads_of_step hi h he
    · exact hkept (hc.made e origin _ _ hold rfl)
    · cases hstage
    · cases hleads with
      | validated =>
        refine ⟨List.mem_append_right _ (ha.validating e origin t hbefore), _, he, fun pc hpc => ?_⟩
        cases hpc
        exact le_refl 3
  | _ => cases hcall

theorem posters_step (ha : Attempted s log) (hi : Invariant config s) (h : step config s a = some s') :
    (executionsOf UpstreamCall.isPost s'.calls).Nodup := by
  have hlength : ∀ call : Option UpstreamCall, call.toList.length ≤ 1 := fun call => by cases call <;> simp
  rcases step_cases h with ⟨_, -, rfl⟩ | ⟨i, origin, next, -, hfree, rfl, hnext⟩ |
    ⟨i, choice, origin, pc, rfl, he, -, rfl⟩ | ⟨_, _, _, -, -, rfl⟩
  · exact ha.posters
  · refine executionsOf_nodup ha.posters (hlength _) fun call hcall hpost => ?_
    obtain ⟨pc, hpc, hcall⟩ := Option.bind_eq_some_iff.mp (Option.mem_toList.mp hcall)
    obtain ⟨pc', hentry, rfl⟩ | ⟨error, -, rfl⟩ := hnext
    · cases hpc
      obtain ⟨_, rfl⟩ | ⟨_, _, rfl⟩ := entry_eq_ok hentry <;> cases hcall
    · cases hpc
  · refine executionsOf_nodup ha.posters (hlength _) fun call hcall hpost hmem => ?_
    obtain ⟨pc', hpc', hcall⟩ := Option.bind_eq_some_iff.mp (Option.mem_toList.mp hcall)
    have hleads : ((advance config s.now choice s.db pc).2).Leads s.db
        (advance config s.now choice s.db pc).1 pc := advance_leads hi.lockstep (hi.running i origin pc he)
    cases hgoto : (advance config s.now choice s.db pc).2 with
    | answer outcome =>
      rw [hgoto] at hpc'
      cases hpc'
    | goto pc'' =>
      rw [hgoto] at hpc' hleads
      cases hpc'
      cases pc' with
      | post t sender recipient posting =>
        obtain ⟨call', hold, hpost'⟩ := mem_executionsOf.mp hmem
        cases call' with
        | post t' sender' recipient' posting' =>
          obtain ⟨-, execution, he', hpast⟩ := ha.posts i t' sender' recipient' posting' hold
          obtain rfl := Option.some.inj (he'.symm.trans he)
          have hle := hpast pc rfl
          have hvalidated : Leads s.db (advance config s.now choice s.db pc).1 pc
            (.post t sender recipient posting) := hleads
          cases hvalidated with
          | validated => simp [Pc.stage] at hle
        | _ => cases hpost'
      | validate t | byReference t force | consume t quoteId =>
        cases hcall
        cases hpost
      | _ => cases hcall
  · exact ha.posters

theorem step (ha : Attempted s log) (hi : Invariant config s) (hc : CallsOk s)
    (h : step config s a = some s') : Attempted s' (shows s a s' ++ log) where
  unstarted := ha.unstarted.step hi h
  behind := by
    intro e event hmem
    obtain hnew | hold := List.mem_append.mp hmem
    · obtain ⟨origin, pc, next, hr, hevent⟩ := new_event hi h hnew
      exact ⟨_, hr.after, hr.behind hi ha.unstarted hevent⟩
    · exact (ha.behind e event hold).step hi (fun pc pc' hb hl => hb.leads hl ha.unstarted.rows) h
  claims := ha.claims_step hi h
  distinct := ha.distinct_step hi h
  agree := ha.agree_step hi h
  lost := ha.lost_step hi h
  starting := ha.starting_step hi h
  begins := ha.begins_step hi h
  validating := ha.validating_step hi h
  posts := ha.posts_step hi hc h
  claimers := by
    obtain hnone | ⟨e, origin, pc, next, hr, hshows⟩ := shows_of_step hi h
    · rw [hnone]
      exact ha.claimers
    · rw [hshows]
      refine executionsOf_nodup ha.claimers (shows_length next) fun event hevent hclaimed hmem => ?_
      obtain ⟨event', hold, hclaimed'⟩ := mem_executionsOf.mp hmem
      cases event with
      | claimed id v =>
        cases event' with
        | claimed id' v' =>
          have hle : 1 ≤ pc.stage := ha.before hr hold
          obtain ⟨_, _, _, -, -, heq⟩ | ⟨i, hclaims, -⟩ | ⟨_, _, -, -, heq⟩ := mem_shows hevent
          · cases heq
          · have hstage := stage_of_claims hclaims
            omega
          · cases heq
        | _ => cases hclaimed'
      | _ => cases hclaimed
  posters := ha.posters_step hi h
  beginners := by
    obtain hnone | ⟨e, origin, pc, next, hr, hshows⟩ := shows_of_step hi h
    · rw [hnone]
      exact ha.beginners
    · have hshown : ∀ event ∈ pc.shows s.db s'.db next, (e, event) ∈ shows s a s' := fun event hevent => by
        rw [hshows]
        exact List.mem_map_of_mem hevent
      rw [hshows]
      refine executionsOf_nodup ha.beginners (shows_length next) fun event hevent hbegan hmem => ?_
      obtain ⟨event', hold, hbegan'⟩ := mem_executionsOf.mp hmem
      cases event with
      | began id =>
        cases event' with
        | began id' =>
          obtain ⟨origin', next', hr'⟩ := new_began hi h (hshown _ hevent)
          have hle : 2 ≤ (Pc.processRead id).stage := ha.before hr' hold
          simp [Pc.stage] at hle
        | _ => cases hbegan'
      | _ => cases hbegan

end Attempted

/-- The system with what its steps show. -/
def observed (config : Config) : System (State × List (ExecId × Event)) Action := (system config).observe shows

theorem attempted_of_reachable {p : State × List (ExecId × Event)} (h : (observed config).Reachable p) :
    Attempted p.1 p.2 :=
  (System.Reachable.observed (P := Attempted) attempted_initial
    (fun _ _ _ _ hr ha hs => ha.step (invariant_of_reachable hr) (callsOk_of_reachable hr) hs) h).2

/-- The executions that sent a posting to the Ledger after a first read of the transfer at a version. -/
def attemptsFrom (s : State) (log : List (ExecId × Event)) (id : Uuid) (version : ℕ) : List ExecId :=
  ((s.calls.filter fun call => call.2.isPost).map Prod.fst).filter fun e => decide ((e, .read id version) ∈ log)

/-- Each execution of `process` past its first read was started by an update of its own that moved the
transfer from a version to the next, and no two by the same version. Of the `reconcile` calls that read
one row, one at most posts to the Ledger, and one whose update changed nothing does not. -/
theorem process_claimed (p : State × List (ExecId × Event)) (h : (observed config).Reachable p) :
    (∀ e id, (e, .began id) ∈ p.2 → ∃! v, (e, .claimed id v) ∈ p.2) ∧
      (executionsOf Event.isBegan p.2).Nodup ∧ (executionsOf Event.isClaimed p.2).Nodup ∧
      (∀ e e' id v, (e, .claimed id v) ∈ p.2 → (e', .claimed id v) ∈ p.2 → e = e') ∧
      (∀ e t sender recipient posting, (e, .post t sender recipient posting) ∈ p.1.calls →
        (e, .began t.id) ∈ p.2) ∧
      (∀ id version, (attemptsFrom p.1 p.2 id version).length ≤ 1) ∧
      ∀ e id, (e, .lost id) ∈ p.2 → e ∉ executionsOf UpstreamCall.isPost p.1.calls := by
  have ha := attempted_of_reachable h
  -- an execution that posts began after a claim of its own
  have hclaimed : ∀ e, e ∈ executionsOf UpstreamCall.isPost p.1.calls → ∃ id v, (e, .claimed id v) ∈ p.2 := by
    intro e hmem
    obtain ⟨call, hcall, hpost⟩ := mem_executionsOf.mp hmem
    cases call with
    | post t sender recipient posting =>
      obtain ⟨v, hv⟩ := ha.begins e t.id (ha.posts e t sender recipient posting hcall).1
      exact ⟨t.id, v, hv⟩
    | _ => cases hpost
  refine ⟨fun e id hbegan => ?_, ha.beginners, ha.claimers, ha.distinct, fun e t sender recipient posting hpost =>
    (ha.posts e t sender recipient posting hpost).1, fun id version => ?_, fun e id hlost hmem => ?_⟩
  · obtain ⟨v, hv⟩ := ha.begins e id hbegan
    refine ⟨v, hv, fun v' hv' => ?_⟩
    cases eq_of_executionsOf_nodup ha.claimers hv rfl hv' rfl
    rfl
  · have hnodup : (attemptsFrom p.1 p.2 id version).Nodup := ha.posters.filter _
    have hsame : ∀ e ∈ attemptsFrom p.1 p.2 id version, (e, .claimed id version) ∈ p.2 := by
      intro e hmem
      obtain ⟨hpost, hread⟩ := List.mem_filter.mp hmem
      obtain ⟨id', v', hv⟩ := hclaimed e hpost
      cases ha.agree e id version id' v' (of_decide_eq_true hread) hv
      exact hv
    generalize attemptsFrom p.1 p.2 id version = es at hnodup hsame
    match es with
    | [] => exact Nat.zero_le 1
    | [e] => exact le_refl 1
    | e :: e' :: es =>
      have heq : e = e' := ha.distinct e e' id version (hsame e (by simp)) (hsame e' (by simp))
      simp [heq] at hnodup
  · obtain ⟨id', v, hv⟩ := hclaimed e hmem
    exact ha.lost e id id' v hlost hv

end Runs

/-- The Ledger has no posting of a transfer. -/
def noPosting : Reply LedgerPosting :=
  .error (.http ⟨404, "POSTING_NOT_FOUND", "Ledger posting not found."⟩)

/-- A transfer is left in PROCESSING, and two forced reconciliations read it before either claims it. -/
def retryRun : List Action := [
  .request 0 (.create domesticRequest),
  .run 0 {},
  .run 0 { ids := ⟨7, 8, 9⟩ },
  .run 0 { date := 1 },
  .stop 0,
  .request 1 (.reconcile 7 true),
  .request 2 (.reconcile 7 true),
  .run 1 {},
  .run 2 {},
  .run 1 { found := noPosting },
  .run 2 { found := noPosting },
  .run 1 { date := 2 },
  .run 2 { date := 3 },
  .run 1 {},
  .run 1 {
    account := .ok (walletOf senderWallet "client-a" 1, walletOf recipientWallet "client-b" 2) },
  .run 2 {}]

theorem process_claimed_retryRun : ∃ p, (observed domesticConfig).run (observed domesticConfig).init retryRun =
      some p ∧ (1, .read 7 1) ∈ p.2 ∧ (2, .read 7 1) ∈ p.2 ∧
    (attemptsFrom p.1 p.2 7 1).length ≤ 1 ∧ 2 ∉ executionsOf UpstreamCall.isPost p.1.calls := by
  have hrun : ((observed domesticConfig).run (observed domesticConfig).init retryRun).map Prod.snd =
      some [(1, .began 7), (2, .lost 7), (1, .claimed 7 1), (2, .read 7 1), (1, .read 7 1), (0, .claimed 7 0)] := by
    decide +kernel
  obtain ⟨p, hp, hlog⟩ := Option.map_eq_some_iff.mp hrun
  obtain ⟨-, -, -, -, -, hattempts, hlost⟩ := process_claimed p (System.reachable_of_run hp)
  rw [hlog] at hlost
  exact ⟨p, hp, by simp [hlog], by simp [hlog], hattempts 7 1, hlost 2 7 (by simp)⟩

end NovaPay.Transaction
