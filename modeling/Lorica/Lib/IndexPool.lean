import Mathlib.Tactic

/-!
The abstract index pool: a partial map from indices to values together with
the indices that were given back (`free`, last in first out) and those that
were handed out and not yet bound (`issued`). The fields that are proofs say
that these three kinds partition the indices below the high-water mark, so a
pool that breaks the partition cannot be built and every operation below
comes with its own proof that it keeps it.
-/

namespace Machine

structure IndexPool (V : Type*) where
  high : Nat
  free : List Nat
  issued : List Nat
  bound : Nat → Option V
  nodup : (free ++ issued).Nodup
  vacant : ∀ i ∈ free ++ issued, i < high ∧ bound i = none
  accounted : ∀ i, i < high → i ∈ free ∨ i ∈ issued ∨ (bound i).isSome
  bound_lt : ∀ i, (bound i).isSome → i < high

namespace IndexPool

variable {V : Type*}

def empty : IndexPool V where
  high := 0
  free := []
  issued := []
  bound := fun _ => none
  nodup := by simp
  vacant := by simp
  accounted := by simp
  bound_lt := by simp

/-- A bound index is neither free nor issued. -/
theorem not_mem_of_bound (p : IndexPool V) {i : Nat}
    (h : (p.bound i).isSome) : i ∉ p.free ++ p.issued := by
  intro hmem
  rw [(p.vacant i hmem).2] at h
  cases h

theorem issued_lt (p : IndexPool V) {i : Nat} (h : i ∈ p.issued) :
    i < p.high :=
  (p.vacant i (List.mem_append_right _ h)).1

theorem issued_vacant (p : IndexPool V) {i : Nat} (h : i ∈ p.issued) :
    p.bound i = none :=
  (p.vacant i (List.mem_append_right _ h)).2

/-- Hand out a fresh index: the high-water mark moves up by one. -/
def issueFresh (p : IndexPool V) : IndexPool V where
  high := p.high + 1
  free := p.free
  issued := p.high :: p.issued
  bound := p.bound
  nodup := by
    have hnew : p.high ∉ p.free ++ p.issued := by
      intro hmem
      have := (p.vacant _ hmem).1
      omega
    exact (List.perm_middle.nodup_iff).mpr (List.nodup_cons.mpr ⟨hnew, p.nodup⟩)
  vacant := by
    intro i hi
    rcases List.mem_cons.mp (List.perm_middle.mem_iff.mp hi) with rfl | hold
    · refine ⟨by omega, ?_⟩
      by_contra hne
      have := p.bound_lt _ (Option.isSome_iff_ne_none.mpr hne)
      omega
    · obtain ⟨hlt, hnone⟩ := p.vacant i hold
      exact ⟨by omega, hnone⟩
  accounted := by
    intro i hi
    by_cases hnew : i = p.high
    · exact Or.inr (Or.inl (by simp [hnew]))
    · rcases p.accounted i (by omega) with h | h | h
      · exact Or.inl h
      · exact Or.inr (Or.inl (List.mem_cons_of_mem _ h))
      · exact Or.inr (Or.inr h)
  bound_lt := by
    intro i hi
    have := p.bound_lt i hi
    omega

/-- Hand out the index that was given back last. -/
def reissue (p : IndexPool V) (index : Nat) (rest : List Nat)
    (h : p.free = index :: rest) : IndexPool V where
  high := p.high
  free := rest
  issued := index :: p.issued
  bound := p.bound
  nodup := by
    have hperm : (rest ++ index :: p.issued).Perm (p.free ++ p.issued) := by
      rw [h]
      exact List.perm_middle
    exact hperm.nodup_iff.mpr p.nodup
  vacant := by
    intro i hi
    apply p.vacant
    rw [h]
    exact List.perm_middle.mem_iff.mp hi
  accounted := by
    intro i hi
    rcases p.accounted i hi with hfree | hissued | hbound
    · rw [h] at hfree
      rcases List.mem_cons.mp hfree with rfl | hrest
      · exact Or.inr (Or.inl List.mem_cons_self)
      · exact Or.inl hrest
    · exact Or.inr (Or.inl (List.mem_cons_of_mem _ hissued))
    · exact Or.inr (Or.inr hbound)
  bound_lt := p.bound_lt

/-- Bind an index that was issued and not yet bound. -/
def bind (p : IndexPool V) (index : Nat) (value : V)
    (h : index ∈ p.issued) : IndexPool V where
  high := p.high
  free := p.free
  issued := p.issued.erase index
  bound := Function.update p.bound index (some value)
  nodup := p.nodup.sublist ((List.Sublist.refl _).append List.erase_sublist)
  vacant := by
    intro i hi
    have hold : i ∈ p.free ++ p.issued := by
      rcases List.mem_append.mp hi with hf | hs
      · exact List.mem_append_left _ hf
      · exact List.mem_append_right _ (List.mem_of_mem_erase hs)
    have hne : i ≠ index := by
      rintro rfl
      obtain ⟨_, hissued, hdisjoint⟩ := List.nodup_append.mp p.nodup
      rcases List.mem_append.mp hi with hf | hs
      · exact hdisjoint i hf i h rfl
      · exact (hissued.mem_erase_iff.mp hs).1 rfl
    rw [Function.update_of_ne hne]
    exact p.vacant i hold
  accounted := by
    intro i hi
    by_cases heq : i = index
    · subst heq
      exact Or.inr (Or.inr (by simp))
    · rw [Function.update_of_ne heq]
      rcases p.accounted i hi with hf | hs | hb
      · exact Or.inl hf
      · exact Or.inr (Or.inl ((List.mem_erase_of_ne heq).mpr hs))
      · exact Or.inr (Or.inr hb)
  bound_lt := by
    intro i hi
    by_cases heq : i = index
    · rw [heq]
      exact p.issued_lt h
    · rw [Function.update_of_ne heq] at hi
      exact p.bound_lt i hi

/-- Replace the value at a bound index. -/
def rebind (p : IndexPool V) (index : Nat) (value : V)
    (h : (p.bound index).isSome) : IndexPool V where
  high := p.high
  free := p.free
  issued := p.issued
  bound := Function.update p.bound index (some value)
  nodup := p.nodup
  vacant := by
    intro i hi
    have hne : i ≠ index := by
      rintro rfl
      exact p.not_mem_of_bound h hi
    rw [Function.update_of_ne hne]
    exact p.vacant i hi
  accounted := by
    intro i hi
    by_cases heq : i = index
    · subst heq
      exact Or.inr (Or.inr (by simp))
    · rw [Function.update_of_ne heq]
      exact p.accounted i hi
  bound_lt := by
    intro i hi
    by_cases heq : i = index
    · rw [heq]
      exact p.bound_lt index h
    · rw [Function.update_of_ne heq] at hi
      exact p.bound_lt i hi

/-- Give a bound index back: it becomes the top of the free stack. -/
def release (p : IndexPool V) (index : Nat)
    (h : (p.bound index).isSome) : IndexPool V where
  high := p.high
  free := index :: p.free
  issued := p.issued
  bound := Function.update p.bound index none
  nodup := List.nodup_cons.mpr ⟨p.not_mem_of_bound h, p.nodup⟩
  vacant := by
    intro i hi
    rcases List.mem_cons.mp hi with rfl | hold
    · exact ⟨p.bound_lt i h, by simp⟩
    · have hne : i ≠ index := by
        rintro rfl
        exact p.not_mem_of_bound h hold
      rw [Function.update_of_ne hne]
      exact p.vacant i hold
  accounted := by
    intro i hi
    by_cases heq : i = index
    · exact Or.inl (by simp [heq])
    · rw [Function.update_of_ne heq]
      rcases p.accounted i hi with hf | hrest
      · exact Or.inl (List.mem_cons_of_mem _ hf)
      · exact Or.inr hrest
  bound_lt := by
    intro i hi
    by_cases heq : i = index
    · subst heq
      simp at hi
    · rw [Function.update_of_ne heq] at hi
      exact p.bound_lt i hi

/-- How many indices are out: issued and not yet bound, or bound. -/
def outstanding (p : IndexPool V) : Nat :=
  p.issued.length + (List.range p.high).countP fun i => (p.bound i).isSome

/-- Counting the bound indices further up finds no more of them. -/
theorem countP_bound (p : IndexPool V) {n : Nat} (hn : p.high ≤ n) :
    ((List.range n).countP fun i => (p.bound i).isSome) =
      (List.range p.high).countP fun i => (p.bound i).isSome := by
  obtain ⟨extra, rfl⟩ := Nat.exists_eq_add_of_le hn
  have habove : (((List.range extra).map (p.high + ·)).countP fun i =>
      (p.bound i).isSome) = 0 := by
    rw [List.countP_eq_zero]
    intro i hi hbound
    obtain ⟨offset, -, rfl⟩ := List.mem_map.mp hi
    have := p.bound_lt _ hbound
    omega
  rw [List.range_add, List.countP_append, habove, Nat.add_zero]

/-- Below the mark an index is free or out. -/
theorem high_eq (p : IndexPool V) : p.high = p.free.length + p.outstanding := by
  have hperm : (List.range p.high).Perm
      (p.free ++ p.issued ++ (List.range p.high).filter fun i => (p.bound i).isSome) := by
    have hbound : ((List.range p.high).filter fun i => (p.bound i).isSome).Nodup :=
      List.nodup_range.filter _
    have hapart : (p.free ++ p.issued).Disjoint
        ((List.range p.high).filter fun i => (p.bound i).isSome) := by
      intro i hi hfull
      exact p.not_mem_of_bound (List.mem_filter.mp hfull).2 hi
    refine (List.perm_ext_iff_of_nodup List.nodup_range
      (List.nodup_append'.mpr ⟨p.nodup, hbound, hapart⟩)).mpr ?_
    intro i
    simp only [List.mem_range, List.mem_append, List.mem_filter]
    constructor
    · intro hi
      rcases p.accounted i hi with hfree | hissued | hfull
      · exact .inl (.inl hfree)
      · exact .inl (.inr hissued)
      · exact .inr ⟨hi, hfull⟩
    · rintro (hvacant | ⟨hi, -⟩)
      · exact (p.vacant i (List.mem_append.mpr hvacant)).1
      · exact hi
  have hlength := hperm.length_eq
  rw [List.length_range, List.length_append, List.length_append] at hlength
  rw [outstanding, List.countP_eq_length_filter]
  omega

end IndexPool

end Machine
