import NovaPay.Audit.Alone

/-!
# Verifications among appends

`verify` reads the row of a stream and its records in two statements. It is answered with a valid stream
if no append to the stream commits between the two.
-/

namespace NovaPay.Audit

open HashChain TransitionSystem

variable {ι : Type} [DecidableEq ι] {config : Config} {s s' : State ι} {i : ι} {streamKey : String}

/-- A commit to the stream does not come between the two reads of a call that verifies it, and the column
keeps the order of the metadata that it records. -/
def Undisturbed (streamKey : String) (i : ι) (s : State ι) : Action ι → Prop
  | .run j => ∀ request a created, s.calls j = some ⟨request, .running (.commitCreated a created)⟩ →
      a.input.streamKey = streamKey → a.input.metadata.KeepsOrder ∧
        ∀ stream, s.calls i ≠ some ⟨.verify streamKey, .running (.verifyRecords streamKey stream)⟩
  | _ => True

/-- Where a call that verifies an existing stream is. -/
inductive Verifies (db : Database) (streamKey : String) : Progress → Prop
  | started : Verifies db streamKey (.running (.verifyStream streamKey))
  | read {stream : AuditStream} : db.streams streamKey = some stream →
      Verifies db streamKey (.running (.verifyRecords streamKey stream))
  | valid (n : ℕ) : Verifies db streamKey (.answered (.verification ⟨streamKey, true, n, none⟩))
  | stopped : Verifies db streamKey .stopped

/-- The records of the stream have the hashes of what is read of them. -/
def StreamRehashes (config : Config) (db : Database) (streamKey : String) : Prop :=
  ∀ r ∈ db.records, r.streamKey = streamKey → Rehashes config r

structure Verifier (config : Config) (s : State ι) (i : ι) (streamKey : String) : Prop where
  stream : (s.db.streams streamKey).isSome
  rehashes : StreamRehashes config s.db streamKey
  call : ∀ progress, s.calls i = some ⟨.verify streamKey, progress⟩ → Verifies s.db streamKey progress

section Advance

variable {db db' : Database} {held : String → Bool} {contested : AuditRecord → Bool} {pc : Pc} {next : Next}

/-- Only a commit adds a record. -/
theorem records_or_commit (h : Advanced config db held contested pc db' next) :
    db'.records = db.records ∨ ∃ a r, pc = .commitCreated a r ∧ db' = commitCreated db r := by
  cases h with
  | @committed a r => exact .inr ⟨a, r, rfl, rfl⟩
  | @committedExisting a head r => cases head <;> exact .inl rfl
  | _ => exact .inl rfl

/-- A commit leaves the rows of the streams that it is not for. -/
theorem streams_of_other {stream : AuditStream} (h : Advanced config db held contested pc db' next)
    (hpc : pc.Ok config db) (hstream : db.streams streamKey = some stream)
    (hother : ∀ a created, pc = .commitCreated a created → a.input.streamKey ≠ streamKey) :
    db'.streams streamKey = some stream := by
  cases h with
  | @committed a r =>
    have hne : streamKey ≠ r.streamKey := by
      rw [(columns_of_newRecord hpc).streamKey]
      exact (hother a r rfl).symm
    exact (Function.update_of_ne hne _ _).trans hstream
  | @committedExisting a head r =>
    obtain ⟨rfl, -, -⟩ := hpc
    change Function.update db.streams a.input.streamKey _ streamKey = some stream
    by_cases hkey : streamKey = a.input.streamKey
    · rw [hkey, Function.update_self, Database.stream, ← hkey, hstream]
      rfl
    · rw [Function.update_of_ne hkey, hstream]
  | _ => exact hstream

/-- A stream in which every record rehashes is found valid. -/
theorem verifyRecords_of_rehashes {stream : AuditStream} (hdb : db.Ok config)
    (hrehashes : StreamRehashes config db streamKey) (hstream : db.streams streamKey = some stream) :
    verifyRecords config streamKey stream (db.recordsOf streamKey) =
      ⟨streamKey, true, (db.recordsOf streamKey).length, none⟩ := by
  have hrow : db.stream streamKey = stream := by rw [Database.stream, hstream]; rfl
  have hchain := chain_recordsOf hdb streamKey
  rw [hrow] at hchain
  exact verifyRecords_valid hchain fun r hr => hrehashes r (mem_recordsOf.mp hr).1 (mem_recordsOf.mp hr).2

/-- The statements of `verify` leave the rows, and end with a valid stream. -/
theorem verifies_of_advance (h : advance config db held contested pc = some (db', next)) (hdb : db.Ok config)
    (hrehashes : StreamRehashes config db streamKey) (hstream : (db.streams streamKey).isSome)
    (hpc : Verifies db streamKey (.running pc)) : db' = db ∧ Verifies db streamKey next.progress := by
  cases hpc with
  | started =>
    obtain ⟨stream, hrow⟩ := Option.isSome_iff_exists.mp hstream
    cases h
    rw [runVerifyStream, hrow]
    exact ⟨rfl, .read hrow⟩
  | read hrow =>
    cases h
    rw [verifyRecords_of_rehashes hdb hrehashes hrow]
    exact ⟨rfl, .valid _⟩

end Advance

/-- What is committed to the stream rehashes. -/
theorem rehashes_of_step (hinv : Invariant config s) (hrehashes : StreamRehashes config s.db streamKey)
    {action : Action ι} (hok : Undisturbed streamKey i s action) (h : step config s action = some s') :
    StreamRehashes config s'.db streamKey := by
  cases action with
  | run j =>
    rw [Audit.step] at h
    split at h
    · next request pc hcall =>
      obtain ⟨⟨db', next⟩, hadvance, rfl⟩ := Option.map_eq_some_iff.mp h
      obtain hsame | ⟨a, r, rfl, rfl⟩ := records_or_commit (advanced hadvance)
      · intro q hq
        exact hrehashes q (hsame ▸ hq)
      · intro q hq hkey
        obtain hq | hq := List.mem_append.mp hq
        · exact hrehashes q hq hkey
        · obtain rfl := List.mem_singleton.mp hq
          have hnew : newRecord config a.input (s.db.stream a.input.streamKey) = some q :=
            (hinv.calls j _ hcall).2
          have hstream := (columns_of_newRecord hnew).streamKey.symm.trans hkey
          exact rehashes_newRecord hnew (hok request a q hcall hstream).1
    · cases h
  | start j request =>
    rw [Audit.step] at h
    split at h
    · obtain rfl := Option.some.inj h
      exact hrehashes
    · cases h
  | stop j =>
    rw [Audit.step] at h
    split at h
    · obtain rfl := Option.some.inj h
      exact hrehashes
    · cases h

/-- What a call that verifies knows is kept. -/
theorem verifier_of_step (hv : Verifier config s i streamKey) (hinv : Invariant config s) {action : Action ι}
    (hok : Undisturbed streamKey i s action) (h : step config s action = some s') :
    Verifier config s' i streamKey := by
  have hrehashes := rehashes_of_step hinv hv.rehashes hok h
  cases action with
  | start j request =>
    rw [Audit.step] at h
    split at h
    · obtain rfl := Option.some.inj h
      refine ⟨hv.stream, hrehashes, fun progress hcall => ?_⟩
      by_cases hi : i = j
      · subst hi
        cases Option.some.inj (State.setCall_calls_self.symm.trans hcall)
        exact .started
      · exact hv.call progress ((State.setCall_calls_of_ne hi).symm.trans hcall)
    · cases h
  | run j =>
    rw [Audit.step] at h
    split at h
    · next request pc hpc =>
      obtain ⟨⟨db', next⟩, hadvance, rfl⟩ := Option.map_eq_some_iff.mp h
      have hadvanced := advanced hadvance
      refine ⟨(grows_of_advanced hadvanced).streams _ hv.stream, hrehashes, fun progress hcall => ?_⟩
      by_cases hi : i = j
      · subst hi
        obtain ⟨rfl, rfl⟩ := Call.mk.inj (Option.some.inj (State.setCall_calls_self.symm.trans hcall))
        obtain ⟨rfl, hnext⟩ :=
          verifies_of_advance hadvance hinv.tables hv.rehashes hv.stream (hv.call _ hpc)
        exact hnext
      · have hbefore := (State.setCall_calls_of_ne hi).symm.trans hcall
        cases hv.call progress hbefore with
        | started => exact .started
        | read hrow =>
          refine .read (streams_of_other hadvanced (hinv.calls j _ hpc).2 hrow fun a created hcommit => ?_)
          subst hcommit
          exact fun hkey => (hok request a created hpc hkey).2 _ hbefore
        | valid n => exact .valid n
        | stopped => exact .stopped
    · cases h
  | stop j =>
    rw [Audit.step] at h
    split at h
    · obtain rfl := Option.some.inj h
      refine ⟨hv.stream, hrehashes, fun progress hcall => ?_⟩
      by_cases hi : i = j
      · subst hi
        cases Option.some.inj (State.setCall_calls_self.symm.trans hcall)
        exact .stopped
      · exact hv.call progress ((State.setCall_calls_of_ne hi).symm.trans hcall)
    · cases h

/-- The statements of `verify` do not wait. -/
theorem Verifier.answered (hv : Verifier config s i streamKey) (hinv : Invariant config s) {pc : Pc}
    (hcall : s.calls i = some ⟨.verify streamKey, .running pc⟩) :
    ∃ as s' n, (system ι config).run s as = some s' ∧ (∀ a ∈ as, a = .run i) ∧
      s'.calls i = some ⟨.verify streamKey, .answered (.verification ⟨streamKey, true, n, none⟩)⟩ := by
  obtain ⟨stream, hrow⟩ := Option.isSome_iff_exists.mp hv.stream
  have hlast : ∀ t : State ι, t.db = s.db →
      t.calls i = some ⟨.verify streamKey, .running (.verifyRecords streamKey stream)⟩ →
      (system ι config).step t (.run i) = some (t.setCall i ⟨.verify streamKey,
        .answered (.verification ⟨streamKey, true, (s.db.recordsOf streamKey).length, none⟩)⟩) := by
    intro t hdb ht
    change step config t (.run i) = _
    rw [Audit.step, ht, ← verifyRecords_of_rehashes hinv.tables hv.rehashes hrow, ← hdb]
    rfl
  cases hv.call _ hcall with
  | started =>
    let t := s.setCall i ⟨.verify streamKey, .running (.verifyRecords streamKey stream)⟩
    have hfirst : (system ι config).step s (.run i) = some t := by
      change step config s (.run i) = _
      rw [Audit.step, hcall]
      simp only [advance, runVerifyStream, hrow]
      rfl
    have hrun := (System.run_cons hfirst [.run i]).trans
      (System.run_cons (hlast t rfl State.setCall_calls_self) [])
    exact ⟨_, _, _, hrun, by simp, State.setCall_calls_self⟩
  | read hread =>
    obtain rfl := Option.some.inj (hrow.symm.trans hread)
    have hrun := System.run_cons (hlast s rfl hcall) []
    exact ⟨_, _, _, hrun, by simp, State.setCall_calls_self⟩

theorem rehashes_of_reachableBy (h : (system ι config).ReachableBy (Undisturbed streamKey i) s) :
    StreamRehashes config s.db streamKey :=
  h.invariant (P := fun s => StreamRehashes config s.db streamKey) (fun _ hr => absurd hr List.not_mem_nil)
    fun _ _ _ hr hp hok hs => rehashes_of_step (invariant_of_reachable hr.reachable) hp hok hs

theorem verify_valid_of_undisturbed {s₀ : State ι}
    (h₀ : (system ι config).ReachableBy (Undisturbed streamKey i) s₀)
    (hstream : (s₀.db.streams streamKey).isSome) (hnew : s₀.calls i = none)
    (hrun : (system ι config).StepsBy (Undisturbed streamKey i) s₀ s) :
    (∀ outcome, s.calls i = some ⟨.verify streamKey, .answered outcome⟩ →
      ∃ n, outcome = .verification ⟨streamKey, true, n, none⟩) ∧
    ∀ pc, s.calls i = some ⟨.verify streamKey, .running pc⟩ →
      ∃ as s' n, (system ι config).run s as = some s' ∧ (∀ a ∈ as, a = .run i) ∧
        s'.calls i = some ⟨.verify streamKey, .answered (.verification ⟨streamKey, true, n, none⟩)⟩ := by
  have hverifier : (system ι config).ReachableBy (Undisturbed streamKey i) s ∧
      Verifier config s i streamKey := by
    induction hrun with
    | refl =>
      exact ⟨h₀, hstream, rehashes_of_reachableBy h₀, fun progress hcall => by rw [hnew] at hcall; cases hcall⟩
    | tail _ hlast ih =>
      obtain ⟨action, hok, hstep⟩ := hlast
      exact ⟨ih.1.step hok hstep, verifier_of_step ih.2 (invariant_of_reachable ih.1.reachable) hok hstep⟩
  obtain ⟨hreach, hv⟩ := hverifier
  have hinv := invariant_of_reachable hreach.reachable
  refine ⟨fun outcome hcall => ?_, fun pc hcall => hv.answered hinv hcall⟩
  cases hv.call _ hcall with
  | valid n => exact ⟨n, rfl⟩

/-! ### An append between the two reads -/

/-- What a verification was answered with. -/
def Call.verification? : Call → Option AuditVerification
  | ⟨.verify _, .answered (.verification v)⟩ => some v
  | _ => none

/-- The first event of a transfer is appended, its stream is verified, and the second event is appended. -/
def startedRun : List (Action ℕ) :=
  .start 0 (.append createdEvent) :: List.replicate 7 (.run 0) ++
    [.start 1 (.verify "transfer:1"), .start 2 (.append completedEvent)]

/-- The second append commits between the reads of the verification. -/
theorem verification_raced : ∃ s : State ℕ, (system ℕ transferConfig).Reachable s ∧
    (s.calls 1).bind Call.verification? = some ⟨"transfer:1", false, 2, some 3⟩ := by
  have hrun : ((system ℕ transferConfig).run .initial
      (startedRun ++ .run 1 :: List.replicate 7 (.run 2) ++ [.run 1])).map
        (fun s => (s.calls 1).bind Call.verification?) =
          some (some ⟨"transfer:1", false, 2, some 3⟩) := by
    decide +kernel
  obtain ⟨s, hs, hanswer⟩ := Option.map_eq_some_iff.mp hrun
  exact ⟨s, System.reachable_of_run hs, hanswer⟩

/-- `Undisturbed`, whatever stream is committed to. -/
def undisturbed (i : ℕ) (s : State ℕ) : Action ℕ → Bool
  | .run j =>
    match s.calls j with
    | some ⟨_, .running (.commitCreated a _)⟩ => keepsOrder false (.object a.input.metadata.val) &&
        match s.calls i with
        | some ⟨_, .running (.verifyRecords _ _)⟩ => false
        | _ => true
    | _ => true
  | _ => true

theorem undisturbed_of_test {i : ℕ} {s : State ℕ} {action : Action ℕ} (h : undisturbed i s action = true) :
    Undisturbed streamKey i s action := by
  cases action with
  | run j =>
    intro request a created hcall _
    rw [undisturbed, hcall] at h
    obtain ⟨hkeeps, hreads⟩ := Bool.and_eq_true_iff.mp h
    refine ⟨hkeeps, fun stream hverify => ?_⟩
    rw [hverify] at hreads
    cases hreads
  | _ => trivial

/-- Whether the verification of the stream has been answered. -/
def answersVerify (s : State ℕ) : Bool :=
  match s.calls 1 with
  | some ⟨.verify "transfer:1", .answered _⟩ => true
  | _ => false

theorem answered_of_answersVerify {s : State ℕ} (h : answersVerify s = true) :
    ∃ outcome, s.calls 1 = some ⟨.verify "transfer:1", .answered outcome⟩ := by
  unfold answersVerify at h
  split at h
  · next outcome hcall => exact ⟨outcome, hcall⟩
  · cases h

/-- The theorem where the second append commits after the reads. -/
theorem verify_valid_of_undisturbed_startedRun : ∃ s : State ℕ, ∃ outcome n,
    s.calls 1 = some ⟨.verify "transfer:1", .answered outcome⟩ ∧
      outcome = .verification ⟨"transfer:1", true, n, none⟩ := by
  have hfirst : ((system ℕ transferConfig).runWhere (undisturbed 1) .initial (startedRun.take 8)).any
      (fun s => (s.db.streams "transfer:1").isSome && (s.calls 1).isNone &&
        ((system ℕ transferConfig).runWhere (undisturbed 1) s
          (startedRun.drop 8 ++ List.replicate 6 (.run 2) ++ [.run 1, .run 1, .run 2])).any
            answersVerify) = true := by
    decide +kernel
  obtain ⟨s₀, hs₀, hrest⟩ := (Option.any_eq_true _ _).mp hfirst
  simp only [Bool.and_eq_true] at hrest
  obtain ⟨⟨hstream, hnew⟩, hrest⟩ := hrest
  obtain ⟨s, hs, hcall⟩ := (Option.any_eq_true _ _).mp hrest
  obtain ⟨outcome, hanswer⟩ := answered_of_answersVerify hcall
  have hreach := System.ReachableBy.init.runWhere
    (fun _ _ => @undisturbed_of_test "transfer:1" _ _ _) hs₀
  have hsteps := System.stepsBy_of_runWhere
    (fun _ _ => @undisturbed_of_test "transfer:1" _ _ _) hs
  obtain ⟨n, hn⟩ := (verify_valid_of_undisturbed hreach hstream (Option.isNone_iff_eq_none.mp hnew)
    hsteps).1 outcome hanswer
  exact ⟨s, outcome, n, hanswer, hn⟩

end NovaPay.Audit
