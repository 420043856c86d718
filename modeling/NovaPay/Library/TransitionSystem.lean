import Mathlib.Logic.Relation
import Mathlib.Data.Option.Basic

/-!
# Transition systems with labelled steps

A system is an initial state and a partial step function; a label fixes every choice of the
step, so a run is a list of labels. `Reachable` and `ReachableBy` carry the induction rules for
invariants, `Simulation` the transport of reachability along a projection.
-/

namespace TransitionSystem

structure System (σ α : Type*) where
  init : σ
  step : σ → α → Option σ

namespace System

variable {σ α τ β : Type*}

/-- The states reached by runs whose steps all meet `ok` in the state they are taken in. -/
inductive ReachableBy (M : System σ α) (ok : σ → α → Prop) : σ → Prop
  | init : ReachableBy M ok M.init
  | step {s s' : σ} {a : α} :
      ReachableBy M ok s → ok s a → M.step s a = some s' → ReachableBy M ok s'

/-- The states reached by any run. -/
abbrev Reachable (M : System σ α) : σ → Prop := M.ReachableBy fun _ _ => True

/-- `s'` is reached from `s` by some steps. -/
abbrev Steps (M : System σ α) : σ → σ → Prop :=
  Relation.ReflTransGen fun s s' => ∃ a, M.step s a = some s'

/-- `s'` is reached from `s` by some steps that all meet `ok` in the state they are taken in. -/
abbrev StepsBy (M : System σ α) (ok : σ → α → Prop) : σ → σ → Prop :=
  Relation.ReflTransGen fun s s' => ∃ a, ok s a ∧ M.step s a = some s'

/-- The end of the run that takes the labels of a list in order. -/
def run (M : System σ α) : σ → List α → Option σ
  | s, [] => some s
  | s, a :: as => (M.step s a).bind fun s' => M.run s' as

/-- The end of a run whose steps all pass the test `p` in the state they are taken in. -/
def runWhere (M : System σ α) (p : σ → α → Bool) : σ → List α → Option σ
  | s, [] => some s
  | s, a :: as => if p s a then (M.step s a).bind fun s' => M.runWhere p s' as else none

variable {M : System σ α} {N : System τ β} {ok : σ → α → Prop}

theorem ReachableBy.reachable {s : σ} (h : M.ReachableBy ok s) : M.Reachable s := by
  induction h with
  | init => exact .init
  | step _ _ hs ih => exact .step ih trivial hs

/-- A predicate of the initial state that every allowed step keeps holds in every state
reached. -/
theorem ReachableBy.invariant {P : σ → Prop} (hinit : P M.init)
    (hstep : ∀ s a s', M.ReachableBy ok s → P s → ok s a → M.step s a = some s' → P s')
    {s : σ} (h : M.ReachableBy ok s) : P s := by
  induction h with
  | init => exact hinit
  | step hr ha hs ih => exact hstep _ _ _ hr ih ha hs

theorem Reachable.invariant {P : σ → Prop} (hinit : P M.init)
    (hstep : ∀ s a s', M.Reachable s → P s → M.step s a = some s' → P s')
    {s : σ} (h : M.Reachable s) : P s :=
  ReachableBy.invariant hinit (fun s a s' hr hp _ hs => hstep s a s' hr hp hs) h

theorem Reachable.next {s s' : σ} {a : α} (h : M.Reachable s) (hs : M.step s a = some s') :
    M.Reachable s' := .step h trivial hs

theorem Reachable.steps {s s' : σ} (h : M.Reachable s) (hs : M.Steps s s') :
    M.Reachable s' := by
  induction hs with
  | refl => exact h
  | tail _ hstep ih =>
    obtain ⟨a, ha⟩ := hstep
    exact ih.next ha

theorem Steps.single {s s' : σ} {a : α} (hs : M.step s a = some s') : M.Steps s s' :=
  Relation.ReflTransGen.single ⟨a, hs⟩

theorem StepsBy.steps {s s' : σ} (h : M.StepsBy ok s s') : M.Steps s s' := by
  induction h with
  | refl => exact .refl
  | tail _ hlast ih =>
    obtain ⟨a, -, hs⟩ := hlast
    exact ih.tail ⟨a, hs⟩

/-- A relation that is reflexive, transitive and contains the steps taken from reachable
states relates the two ends of every run that starts in a reachable state. -/
theorem Steps.lift {R : σ → σ → Prop} (hrefl : ∀ s, R s s)
    (htrans : ∀ s t u, R s t → R t u → R s u)
    (hstep : ∀ s a s', M.Reachable s → M.step s a = some s' → R s s')
    {s s' : σ} (h : M.Reachable s) (hs : M.Steps s s') : R s s' := by
  induction hs with
  | refl => exact hrefl s
  | tail hsteps hlast ih =>
    obtain ⟨a, ha⟩ := hlast
    exact htrans _ _ _ ih (hstep _ _ _ (h.steps hsteps) ha)

/-- A predicate kept by every step from a reachable state is kept by a run. -/
theorem Steps.preserves {P : σ → Prop}
    (hstep : ∀ s a s', M.Reachable s → P s → M.step s a = some s' → P s')
    {s s' : σ} (h : M.Reachable s) (hp : P s) (hs : M.Steps s s') : P s' := by
  induction hs with
  | refl => exact hp
  | tail hsteps hlast ih =>
    obtain ⟨a, ha⟩ := hlast
    exact hstep _ _ _ (h.steps hsteps) ih ha

theorem steps_of_run {s s' : σ} {as : List α} (h : M.run s as = some s') : M.Steps s s' := by
  induction as generalizing s with
  | nil =>
    obtain rfl : s = s' := by simpa [run] using h
    exact Relation.ReflTransGen.refl
  | cons a as ih =>
    obtain ⟨t, ht, h⟩ := Option.bind_eq_some_iff.mp h
    exact Relation.ReflTransGen.head ⟨a, ht⟩ (ih h)

theorem run_cons {s s' : σ} {a : α} (h : M.step s a = some s') (as : List α) :
    M.run s (a :: as) = M.run s' as := by rw [run, h, Option.bind_some]

theorem run_append_eq_bind (s : σ) (as bs : List α) :
    M.run s (as ++ bs) = (M.run s as).bind fun s' => M.run s' bs := by
  induction as generalizing s with
  | nil => rfl
  | cons a as ih => simp only [List.cons_append, run, Option.bind_assoc, ih]

theorem run_append {s s' : σ} {as : List α} (h : M.run s as = some s') (bs : List α) :
    M.run s (as ++ bs) = M.run s' bs := by
  rw [run_append_eq_bind, h, Option.bind_some]

theorem reachable_of_run {s : σ} {as : List α} (h : M.run M.init as = some s) :
    M.Reachable s :=
  Reachable.steps .init (steps_of_run h)

theorem ReachableBy.runWhere_of_reachable {p : σ → α → Bool}
    (hp : ∀ s a, M.Reachable s → p s a = true → ok s a) {s s' : σ} {as : List α}
    (hr : M.ReachableBy ok s) (h : M.runWhere p s as = some s') : M.ReachableBy ok s' := by
  induction as generalizing s with
  | nil =>
    obtain rfl : s = s' := by simpa [System.runWhere] using h
    exact hr
  | cons a as ih =>
    rw [System.runWhere] at h
    split at h
    · next hpa =>
      obtain ⟨t, ht, h⟩ := Option.bind_eq_some_iff.mp h
      exact ih (.step hr (hp s a hr.reachable hpa) ht) h
    · cases h

theorem ReachableBy.runWhere {p : σ → α → Bool} (hp : ∀ s a, p s a = true → ok s a) {s s' : σ}
    {as : List α} (hr : M.ReachableBy ok s) (h : M.runWhere p s as = some s') :
    M.ReachableBy ok s' := hr.runWhere_of_reachable (fun s a _ => hp s a) h

theorem stepsBy_of_runWhere {p : σ → α → Bool} (hp : ∀ s a, p s a = true → ok s a) {s s' : σ}
    {as : List α} (h : M.runWhere p s as = some s') : M.StepsBy ok s s' := by
  induction as generalizing s with
  | nil =>
    obtain rfl : s = s' := by simpa [System.runWhere] using h
    exact .refl
  | cons a as ih =>
    rw [System.runWhere] at h
    split at h
    · next hpa =>
      obtain ⟨t, ht, h⟩ := Option.bind_eq_some_iff.mp h
      exact .head ⟨a, hp s a hpa, ht⟩ (ih h)
    · cases h

theorem run_of_runWhere {p : σ → α → Bool} {s s' : σ} {as : List α}
    (h : M.runWhere p s as = some s') : M.run s as = some s' := by
  induction as generalizing s with
  | nil => exact h
  | cons a as ih =>
    rw [System.runWhere] at h
    split at h
    · obtain ⟨t, ht, h⟩ := Option.bind_eq_some_iff.mp h
      rw [run, ht, Option.bind_some]
      exact ih h
    · cases h

section Observe

variable {ε : Type*} {shows : σ → α → σ → List ε}

/-- The system that also keeps what its steps show, the latest first. -/
def observe (M : System σ α) (shows : σ → α → σ → List ε) : System (σ × List ε) α where
  init := (M.init, [])
  step := fun p a => (M.step p.1 a).map fun s' => (s', shows p.1 a s' ++ p.2)

variable (ok) in
/-- An invariant of a state and of what the run up to it showed. -/
theorem ReachableBy.observed {P : σ → List ε → Prop} (hinit : P M.init [])
    (hstep : ∀ s shown a s', M.ReachableBy ok s → P s shown → ok s a → M.step s a = some s' →
      P s' (shows s a s' ++ shown))
    {p : σ × List ε} (h : (M.observe shows).ReachableBy (fun p => ok p.1) p) :
    M.ReachableBy ok p.1 ∧ P p.1 p.2 := by
  refine ReachableBy.invariant (P := fun p => M.ReachableBy ok p.1 ∧ P p.1 p.2) ⟨.init, hinit⟩ ?_ h
  rintro ⟨s, shown⟩ a p' - ⟨hr, hp⟩ ha hs
  obtain ⟨s', hs', rfl⟩ := Option.map_eq_some_iff.mp hs
  exact ⟨.step hr ha hs', hstep s shown a s' hr hp ha hs'⟩

theorem Reachable.observed {P : σ → List ε → Prop} (hinit : P M.init [])
    (hstep : ∀ s shown a s', M.Reachable s → P s shown → M.step s a = some s' →
      P s' (shows s a s' ++ shown))
    {p : σ × List ε} (h : (M.observe shows).Reachable p) : M.Reachable p.1 ∧ P p.1 p.2 :=
  ReachableBy.observed (fun _ _ => True) hinit
    (fun s shown a s' hr hp _ hs => hstep s shown a s' hr hp hs) h

end Observe

section Serial

variable {δ τ ρ ε : Type*} {serve : δ → τ → δ × ρ} {shows : σ → α → σ → List ε}

/-- Transactions one after another: what they leave, and their answers in order. -/
def serial (serve : δ → τ → δ × ρ) (d : δ) : List τ → δ × List ρ
  | [] => (d, [])
  | t :: ts => ((serial serve (serve d t).1 ts).1, (serve d t).2 :: (serial serve (serve d t).1 ts).2)

theorem serial_concat (d : δ) (ts : List τ) (t : τ) : serial serve d (ts ++ [t]) =
    ((serve (serial serve d ts).1 t).1, (serial serve d ts).2 ++ [(serve (serial serve d ts).1 t).2]) := by
  induction ts generalizing d with
  | nil => rfl
  | cons u ts ih => simp only [List.cons_append, serial, ih]

/-- Every transaction meets a condition in the state that it finds. -/
def Each (serve : δ → τ → δ × ρ) (P : δ → τ → Prop) : δ → List τ → Prop
  | _, [] => True
  | d, t :: ts => P d t ∧ Each serve P (serve d t).1 ts

variable (ok) in
/-- If every step either shows nothing and leaves the data, or is the whole of the transaction it
shows, then a run has the answers and the data of its transactions one after another. -/
theorem ReachableBy.serial (data : σ → δ) {transaction : ε → τ} {answer : ε → ρ}
    (hstep : ∀ s a s', M.ReachableBy ok s → ok s a → M.step s a = some s' →
      (shows s a s' = [] ∧ data s' = data s) ∨
        ∃ e, shows s a s' = [e] ∧ serve (data s) (transaction e) = (data s', answer e))
    {p : σ × List ε} (h : (M.observe shows).ReachableBy (fun p => ok p.1) p) :
    System.serial serve (data M.init) (p.2.reverse.map transaction) =
      (data p.1, p.2.reverse.map answer) := by
  refine (ReachableBy.observed ok (P := fun s shown => System.serial serve (data M.init)
    (shown.reverse.map transaction) = (data s, shown.reverse.map answer)) rfl ?_ h).2
  intro s shown a s' hr hp ha hs
  rcases hstep s a s' hr ha hs with ⟨hnone, hdata⟩ | ⟨e, hone, hserve⟩
  · rw [hnone, hdata]
    exact hp
  · rw [hone, List.singleton_append, List.reverse_cons, List.map_append, List.map_append,
      List.map_singleton, List.map_singleton, serial_concat, hp, hserve]

end Serial

section Inevitable

variable {turn : σ → α → Prop} {P : σ → Prop} {s : σ}

/-- However the labels are chosen among those that `turn` allows, a state that meets `P` is reached,
and until then every such label is a step. -/
inductive Inevitable (M : System σ α) (turn : σ → α → Prop) (P : σ → Prop) : σ → Prop
  | now {s : σ} : P s → Inevitable M turn P s
  | later {s : σ} (next : α → σ) : (∀ a, turn s a → M.step s a = some (next a)) →
      (∀ a, turn s a → Inevitable M turn P (next a)) → Inevitable M turn P s

theorem run_range_succ {as : Nat → α} {s' : σ} (h : M.step s (as 0) = some s') (n : Nat) :
    M.run s ((List.range (n + 1)).map as) = M.run s' ((List.range n).map fun k => as (k + 1)) := by
  rw [List.range_succ_eq_map, List.map_cons, run_cons h, List.map_map]
  rfl

/-- A sequence of allowed labels reaches `P`. -/
theorem Inevitable.exists_run (h : M.Inevitable turn P s) (as : Nat → α)
    (hturn : ∀ n s', M.run s ((List.range n).map as) = some s' → turn s' (as n)) :
    ∃ n s', M.run s ((List.range n).map as) = some s' ∧ P s' := by
  induction h generalizing as with
  | now hp => exact ⟨0, _, rfl, hp⟩
  | @later s next hstep _ ih =>
    have hfirst : turn s (as 0) := hturn 0 s rfl
    have hnext := hstep (as 0) hfirst
    obtain ⟨n, s', hrun, hp⟩ := ih (as 0) hfirst (fun k => as (k + 1)) fun n s' hrun =>
      hturn (n + 1) s' ((run_range_succ hnext n).trans hrun)
    exact ⟨n + 1, s', (run_range_succ hnext n).trans hrun, hp⟩

end Inevitable

/-- `f` maps every step of `M` from a reachable state to a run of `N`. -/
structure Simulation (M : System σ α) (N : System τ β) (f : σ → τ) : Prop where
  init : f M.init = N.init
  step : ∀ s a s', M.Reachable s → M.step s a = some s' → N.Steps (f s) (f s')

theorem Simulation.reachable {f : σ → τ} (sim : Simulation M N f) {s : σ}
    (h : M.Reachable s) : N.Reachable (f s) := by
  induction h with
  | init => rw [sim.init]; exact .init
  | step hr _ hs ih => exact Reachable.steps ih (sim.step _ _ _ hr hs)

end System

end TransitionSystem
