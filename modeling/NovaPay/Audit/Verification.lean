import NovaPay.Audit.Chains

/-!
# What `verify` finds

`verify` reports a stream as valid exactly if its records are chained up to its row and have the hashes of
what is read of them. A record that the service wrote has that hash exactly if the column kept the order of
its metadata.
-/

namespace NovaPay.Audit

open HashChain TransitionSystem

variable {config : Config} {r : AuditRecord} {rs : List AuditRecord} {streamKey : String}
  {stream : AuditStream} {h h' : Head Digest}

/-- The record has the hash of what is read of it. -/
def Rehashes (config : Config) (r : AuditRecord) : Prop :=
  computeAuditHash config (r.hashInput r.previousHash) = r.currentHash

/-! ### The loop -/

/-- The loop goes through a chain of rehashed records. -/
theorem verifyLoop_chain (hchain : Chain links h rs h') (hhash : ∀ r ∈ rs, Rehashes config r) (checked : ℕ) :
    verifyLoop config ⟨h.sequence + 1, h.hash, checked, none⟩ rs =
      ⟨h'.sequence + 1, h'.hash, checked + rs.length, none⟩ := by
  induction hchain generalizing checked with
  | nil => rfl
  | @cons h h' r rs hr _ ih =>
    have hsequence : r.sequence = h.sequence + 1 := hr.sequence
    have hprevious : r.previousHash = h.hash := hr.previous
    have hrehash : computeAuditHash config (r.hashInput h.hash) = r.currentHash := by
      rw [← hprevious]
      exact hhash r List.mem_cons_self
    have hrest := ih (fun q hq => hhash q (List.mem_cons_of_mem _ hq)) (checked + 1)
    rw [verifyLoop, if_neg (by simp [hsequence, hprevious]), if_neg (not_not.mpr hrehash), List.length_cons,
      Nat.add_comm rs.length 1, ← Nat.add_assoc, ← hrest]
    rw [← hsequence]
    rfl

/-- And it finds everything else. -/
theorem chain_of_verifyLoop {checked : ℕ}
    (hnone : (verifyLoop config ⟨h.sequence + 1, h.hash, checked, none⟩ rs).firstInvalidSequence = none) :
    ∃ h', Chain links h rs h' ∧ ∀ r ∈ rs, Rehashes config r := by
  induction rs generalizing h checked with
  | nil => exact ⟨h, .nil h, fun r hr => absurd hr List.not_mem_nil⟩
  | cons r rs ih =>
    rw [verifyLoop] at hnone
    split at hnone
    · cases hnone
    · next hplace =>
      rw [not_or, not_not, not_not] at hplace
      obtain ⟨hsequence, hprevious⟩ := hplace
      split at hnone
      · cases hnone
      · next hrehash =>
        rw [not_not] at hrehash
        simp only at hsequence hprevious hrehash hnone
        have hnext : (links.head r).sequence + 1 = h.sequence + 1 + 1 := by rw [← hsequence]; rfl
        rw [← hnext] at hnone
        obtain ⟨h', hchain, hhash⟩ := ih (h := links.head r) hnone
        refine ⟨h', .cons ⟨hsequence, hprevious⟩ hchain, fun q hq => ?_⟩
        obtain rfl | hq := List.mem_cons.mp hq
        · rw [Rehashes, hprevious]
          exact hrehash
        · exact hhash q hq

/-- After the loop the row is compared with where the chain ends. -/
theorem verifyRecords_chain (hchain : Chain links ⟨0, 0⟩ rs h') (hhash : ∀ r ∈ rs, Rehashes config r) :
    verifyRecords config streamKey stream rs =
      if stream.head = h' then ⟨streamKey, true, rs.length, none⟩
      else ⟨streamKey, false, rs.length, some (h'.sequence + 1)⟩ := by
  have hloop := verifyLoop_chain hchain hhash 0
  rw [Nat.zero_add, Nat.zero_add] at hloop
  have hend : stream.head = h' ↔
      ¬(stream.lastSequence ≠ h'.sequence + 1 - 1 ∨ stream.lastHash ≠ h'.hash) := by
    rw [not_or, not_not, not_not, Nat.add_sub_cancel]
    cases h'
    exact Head.mk.injEq .. ▸ Iff.rfl
  simp only [verifyRecords, hloop, true_and]
  by_cases hhead : stream.head = h'
  · rw [if_pos hhead, if_neg (hend.mp hhead)]
    rfl
  · rw [if_neg hhead, if_pos (by_contra fun hrow => hhead (hend.mpr hrow))]
    rfl

theorem verifyRecords_valid (hchain : Chain links ⟨0, 0⟩ rs stream.head)
    (hhash : ∀ r ∈ rs, Rehashes config r) :
    verifyRecords config streamKey stream rs = ⟨streamKey, true, rs.length, none⟩ := by
  rw [verifyRecords_chain hchain hhash, if_pos rfl]

theorem verifyRecords_valid_iff : (verifyRecords config streamKey stream rs).valid = true ↔
    Chain links ⟨0, 0⟩ rs stream.head ∧ ∀ r ∈ rs, Rehashes config r := by
  constructor
  · intro hvalid
    have hnone : (verifyLoop config ⟨1, 0, 0, none⟩ rs).firstInvalidSequence = none := by
      have hresult := Option.isNone_iff_eq_none.mp hvalid
      split at hresult
      · cases hresult
      · exact hresult
    obtain ⟨h', hchain, hhash⟩ := chain_of_verifyLoop (h := ⟨0, 0⟩) hnone
    rw [verifyRecords_chain hchain hhash] at hvalid
    split at hvalid
    · next hend =>
      rw [hend]
      exact ⟨hchain, hhash⟩
    · cases hvalid
  · rintro ⟨hchain, hhash⟩
    rw [verifyRecords_valid hchain hhash]

/-! ### Records that the service wrote -/

variable {event : NormalizedAuditEvent} {head : AuditStream}

/-- What is read of a new record, as it is hashed. -/
theorem sorted_newRecord (hr : newRecord config event head = some r) :
    (r.hashInput r.previousHash).sorted = (event.hashInput r.sequence r.previousHash).sorted ↔
      event.metadata.KeepsOrder := by
  have hcolumns := columns_of_newRecord hr
  have hmetadata := SafeMetadata.sortObject_read_iff hcolumns.metadata
  simp only [AuditHashInput.sorted, AuditRecord.hashInput, NormalizedAuditEvent.hashInput,
    AuditHashInput.mk.injEq, SafeMetadata.sortObject_eq, hcolumns.streamKey, hcolumns.action,
    hcolumns.entityType, hcolumns.entityId, hcolumns.actorId, hcolumns.date, true_and]
  exact hmetadata

theorem AuditHashInput.text_eq_of_sorted {a b : AuditHashInput} (h : a.sorted = b.sorted) :
    a.text = b.text := by
  simp only [AuditHashInput.sorted, AuditHashInput.mk.injEq] at h
  obtain ⟨hstream, hsequence, hprevious, haction, htype, hid, hactor, htime, hmetadata⟩ := h
  have hcanonical : a.canonical = b.canonical := by
    unfold AuditHashInput.canonical
    rw [hstream, hsequence, haction, htype, hid, hactor, htime, hmetadata]
  unfold AuditHashInput.text
  rw [hprevious, hcanonical]

theorem rehashes_newRecord (hr : newRecord config event head = some r) (hkeeps : event.metadata.KeepsOrder) :
    Rehashes config r := by
  have htext := AuditHashInput.text_eq_of_sorted ((sorted_newRecord hr).mpr hkeeps)
  rw [Rehashes, computeAuditHash, htext]
  exact (columns_of_newRecord hr).currentHash.symm

theorem rehashes_iff_keepsOrder (hsha : Function.Injective config.sha256)
    (hr : newRecord config event head = some r) : Rehashes config r ↔ event.metadata.KeepsOrder := by
  refine ⟨fun hrehash => ?_, rehashes_newRecord hr⟩
  rw [Rehashes, (columns_of_newRecord hr).currentHash] at hrehash
  exact (sorted_newRecord hr).mp (AuditHashInput.sorted_eq_of_text (hsha hrehash))

end NovaPay.Audit
