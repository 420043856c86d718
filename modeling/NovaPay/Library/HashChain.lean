import Mathlib.Data.List.Forall2
import Mathlib.Data.List.Induction

/-!
# Hash chains

Records that are numbered one after the other and name the digest of the one before. The number and the
digest of the last record fix all of them, as far as the digests see them.
-/

namespace HashChain

variable {ρ δ : Type*}

/-- How records are numbered and linked. -/
structure Links (ρ δ : Type*) where
  sequence : ρ → ℕ
  previous : ρ → δ
  current : ρ → δ

/-- Where a chain ends. -/
structure Head (δ : Type*) where
  sequence : ℕ
  hash : δ
deriving DecidableEq, Repr

def Links.head (L : Links ρ δ) (r : ρ) : Head δ := ⟨L.sequence r, L.current r⟩

/-- The record is the next one after a head. -/
structure Continues (L : Links ρ δ) (h : Head δ) (r : ρ) : Prop where
  sequence : L.sequence r = h.sequence + 1
  previous : L.previous r = h.hash

/-- The records lead from one head to another. -/
inductive Chain (L : Links ρ δ) : Head δ → List ρ → Head δ → Prop
  | nil (h : Head δ) : Chain L h [] h
  | cons {h h' : Head δ} {r : ρ} {rs : List ρ} :
      Continues L h r → Chain L (L.head r) rs h' → Chain L h (r :: rs) h'

namespace Chain

variable {L : Links ρ δ} {h h' m : Head δ} {r : ρ} {rs ts : List ρ}

theorem append (hc : Chain L h rs m) (hd : Chain L m ts h') : Chain L h (rs ++ ts) h' := by
  induction hc with
  | nil => exact hd
  | cons hr _ ih => exact .cons hr (ih hd)

theorem snoc (hc : Chain L h rs m) (hr : Continues L m r) : Chain L h (rs ++ [r]) (L.head r) :=
  hc.append (.cons hr (.nil _))

/-- The last record of a chain. -/
theorem of_snoc (hc : Chain L h (rs ++ [r]) h') :
    ∃ m, Chain L h rs m ∧ Continues L m r ∧ h' = L.head r := by
  induction rs generalizing h with
  | nil =>
    cases hc with
    | cons hr htail =>
      cases htail
      exact ⟨h, .nil h, hr, rfl⟩
  | cons q qs ih =>
    cases hc with
    | cons hq htail =>
      obtain ⟨m, hm, hr, rfl⟩ := ih htail
      exact ⟨m, .cons hq hm, hr, rfl⟩

theorem sequence_end (hc : Chain L h rs h') : h'.sequence = h.sequence + rs.length := by
  induction hc with
  | nil => rfl
  | cons hr _ ih =>
    have hnext := hr.sequence
    rw [ih, List.length_cons]
    simp only [Links.head]
    omega

theorem sequences (hc : Chain L h rs h') :
    rs.map L.sequence = List.range' (h.sequence + 1) rs.length := by
  induction hc with
  | nil => rfl
  | @cons h h' r rs hr _ ih =>
    rw [List.map_cons, ih, hr.sequence, List.length_cons, List.range'_succ]
    rw [Links.head, hr.sequence]

/-- Every record names the digest before it. -/
theorem links (hc : Chain L h rs h') :
    rs.map L.previous ++ [h'.hash] = h.hash :: rs.map L.current := by
  induction hc with
  | nil => rfl
  | cons hr _ ih => rw [List.map_cons, List.cons_append, ih, hr.previous, List.map_cons]; rfl

/-- The records are listed in their order. -/
theorem pairwise (hc : Chain L h rs h') : rs.Pairwise fun r q => L.sequence r < L.sequence q := by
  have hsorted : (rs.map L.sequence).Pairwise (· < ·) := by
    rw [hc.sequences]
    exact List.pairwise_lt_range'
  exact List.pairwise_map.mp hsorted

/-- Between the same heads, whatever a digest determines together with the digest before it relates the
records of two chains one by one. -/
theorem forall₂ {R : ρ → ρ → Prop} (hc : Chain L h rs h') (hd : Chain L h ts h')
    (hR : ∀ r ∈ rs, ∀ q ∈ ts, L.current r = L.current q → L.previous r = L.previous q ∧ R r q) :
    List.Forall₂ R rs ts := by
  -- The induction goes from the last record, whose digest the head fixes, to the first.
  induction rs using List.reverseRecOn generalizing ts h' with
  | nil =>
    cases hc
    have hlen := hd.sequence_end
    cases ts with
    | nil => exact .nil
    | cons q qs =>
      rw [List.length_cons] at hlen
      omega
  | append_singleton rs r ih =>
    obtain ⟨m, hm, hr, hend⟩ := hc.of_snoc
    cases ts using List.reverseRecOn with
    | nil =>
      cases hd
      have hlen := hc.sequence_end
      rw [List.length_append, List.length_singleton] at hlen
      omega
    | append_singleton ts q =>
      obtain ⟨m', hm', hq, hend'⟩ := hd.of_snoc
      obtain ⟨hsequence, hcurrent⟩ := Head.mk.inj (hend.symm.trans hend')
      obtain ⟨hprevious, hlast⟩ := hR r (by simp) q (by simp) hcurrent
      have hmm : m = m' := by
        have hs : m.sequence = m'.sequence := by
          have h₁ := hr.sequence
          have h₂ := hq.sequence
          omega
        have hh : m.hash = m'.hash := by rw [← hr.previous, hprevious, hq.previous]
        cases m
        cases m'
        simp only [Head.mk.injEq]
        exact ⟨hs, hh⟩
      subst hmm
      have hinit := ih hm hm' fun r hr q hq =>
        hR r (List.mem_append_left _ hr) q (List.mem_append_left _ hq)
      exact List.rel_append hinit (.cons hlast .nil)

/-- Records that take the places of others, with their digests, are chained as those were. -/
theorem of_forall₂ (hc : Chain L h rs h') (hsame : List.Forall₂ (fun r q => L.sequence q = L.sequence r ∧
    L.previous q = L.previous r ∧ L.current q = L.current r) rs ts) : Chain L h ts h' := by
  induction hc generalizing ts with
  | nil =>
    cases hsame
    exact .nil _
  | @cons h h' r rs hr _ ih =>
    cases hsame with
    | @cons _ q _ qs hq hqs =>
      obtain ⟨hsequence, hprevious, hcurrent⟩ := hq
      have hhead : L.head q = L.head r := by rw [Links.head, hsequence, hcurrent, Links.head]
      have htail := ih hqs
      rw [← hhead] at htail
      exact .cons ⟨hsequence.trans hr.sequence, hprevious.trans hr.previous⟩ htail

end Chain

end HashChain
