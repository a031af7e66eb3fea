import Lorica.RMVByMapped

/-!
Runs of the table operations as one transition system, and the refinement of
the paged array to the abstract index pool. As long as one more page still
fits below `2^32`, each step of the code is a step of the pool, whose
well-formedness is built into its type; the partition of the indices and the
success of every `bind` are read off from there.
-/

namespace Lorica

open Machine

/-- The table and the indices handed out by `next_index` that no `bind` has
used yet: they live in the frames of `add_native_unchecked` calls. -/
structure AllocState (V : Type) where
  table : RMVByMapped V
  issued : List UInt32

inductive TableOp (V : Type) where
  | nextIndex
  | bind (index : UInt32) (value : V)
  | rebind (index : UInt32) (value : V)
  | find (index : UInt32)
  | unbind (index : UInt32)
  | reap (page offset : Nat)

namespace AllocState

variable {V : Type}

/-- `bind` is called on an index just issued, `rebind` on a bound one, the
collector reaps an occupied slot of an existing page; `find` and `unbind`
take any index. A fault leaves the step undefined. -/
def step (s : AllocState V) : TableOp V → Option (AllocState V)
  | .nextIndex => some ⟨s.table.nextIndex.2, s.table.nextIndex.1 :: s.issued⟩
  | .bind index value =>
      if index ∈ s.issued then
        match s.table.bind index value with
        | .ok (_, t) => some ⟨t, s.issued.erase index⟩
        | .error _ => none
      else none
  | .rebind index value =>
      if (s.table.slot index.toNat).isSome then
        match s.table.rebind index value with
        | .ok (_, _, t) => some ⟨t, s.issued⟩
        | .error _ => none
      else none
  | .find index =>
      match s.table.find index with
      | .ok _ => some s
      | .error _ => none
  | .unbind index =>
      match s.table.unbind index with
      | .ok (_, t) => some ⟨t, s.issued⟩
      | .error _ => none
  | .reap page offset =>
      if offset < s.table.pageSize.toNat ∧ page < s.table.pages.length ∧
          (s.table.slot (page * s.table.pageSize.toNat + offset)).isSome then
        some ⟨s.table.reap page offset, s.issued⟩
      else none

end AllocState

def allocSystem (V : Type) (pageSize : UInt32) :
    System (AllocState V) (TableOp V) where
  init s := s = ⟨RMVByMapped.new pageSize, []⟩
  step := AllocState.step

/-- One more page still has 32-bit indices. -/
def RMVByMapped.InRange {V : Type} (t : RMVByMapped V) : Prop :=
  (t.numPages.toNat + 1) * t.pageSize.toNat < 2 ^ 32

instance {V : Type} (t : RMVByMapped V) : Decidable t.InRange :=
  inferInstanceAs (Decidable (_ < _))

namespace AllocState

variable {V : Type}

/-- The indices below `high_index_` fall into three kinds: on the free stack,
issued and not yet bound, bound. -/
structure Partitioned (s : AllocState V) : Prop where
  free_nodup : s.table.freeStack.Nodup
  issued_nodup : s.issued.Nodup
  free_not_issued : ∀ i ∈ s.table.freeStack, i ∉ s.issued
  free_empty : ∀ i ∈ s.table.freeStack, s.table.slot i.toNat = none
  issued_empty : ∀ i ∈ s.issued, s.table.slot i.toNat = none
  below_high : ∀ i : Nat, i < s.table.highIndex.toNat ↔
    i ∈ s.table.freeStack.map UInt32.toNat ∨
      i ∈ s.issued.map UInt32.toNat ∨ (s.table.slot i).isSome

/-- The code's state stands for an abstract pool. -/
structure Represents (s : AllocState V) (p : IndexPool V) : Prop where
  high : p.high = s.table.highIndex.toNat
  free : p.free = s.table.freeStack.map UInt32.toNat
  issued : p.issued = s.issued.map UInt32.toNat
  bound : p.bound = s.table.slot
  pages : s.table.pages.length = s.table.numPages.toNat
  size_pos : 0 < s.table.pageSize.toNat
  high_le : s.table.highIndex.toNat ≤
    s.table.numPages.toNat * s.table.pageSize.toNat
  fits : s.table.numPages.toNat * s.table.pageSize.toNat < 2 ^ 32

section Represented

variable {s : AllocState V} {p : IndexPool V} (h : s.Represents p)

include h

theorem Represents.cover : s.table.PagesCover :=
  le_of_eq h.pages.symm

theorem Represents.limit : s.table.limit.toNat =
    s.table.numPages.toNat * s.table.pageSize.toNat := by
  rw [RMVByMapped.limit, UInt32.toNat_mul, Nat.mod_eq_of_lt h.fits]

/-- Every index below the high-water mark passes the bounds tests. -/
theorem Represents.lt_limit {index : UInt32} (hindex : index.toNat < p.high) :
    index < s.table.limit := by
  apply UInt32.lt_iff_toNat_lt.mpr
  rw [h.limit]
  have := h.high
  have := h.high_le
  omega

theorem Represents.mem_issued {index : UInt32} (hindex : index ∈ s.issued) :
    index.toNat ∈ p.issued := by
  rw [h.issued]
  exact List.mem_map_of_mem hindex

theorem Represents.partitioned : s.Partitioned := by
  have hnodup := List.nodup_append.mp p.nodup
  rw [h.free, h.issued] at hnodup
  obtain ⟨hfree, hissued, hdisjoint⟩ := hnodup
  have hempty : ∀ i ∈ p.free ++ p.issued, s.table.slot i = none := by
    intro i hi
    rw [← h.bound]
    exact (p.vacant i hi).2
  rw [h.free, h.issued] at hempty
  refine ⟨hfree.of_map _, hissued.of_map _, ?_, ?_, ?_, ?_⟩
  · intro i hf hs
    exact hdisjoint _ (List.mem_map_of_mem hf) _ (List.mem_map_of_mem hs) rfl
  · intro i hi
    exact hempty _ (List.mem_append_left _ (List.mem_map_of_mem hi))
  · intro i hi
    exact hempty _ (List.mem_append_right _ (List.mem_map_of_mem hi))
  · intro i
    rw [← h.free, ← h.issued, ← h.bound, ← h.high]
    constructor
    · exact p.accounted i
    · rintro (hf | hs | hb)
      · exact (p.vacant i (List.mem_append_left _ hf)).1
      · exact p.issued_lt hs
      · exact p.bound_lt i hb

theorem Represents.bind_succeeds {index : UInt32} (hindex : index ∈ s.issued)
    (value : V) :
    s.table.bind index value = .ok (true, s.table.storeAt index (some value)) := by
  have hmem := h.mem_issued hindex
  rw [h.cover.bind_eq, if_pos]
  refine ⟨h.lt_limit (p.issued_lt hmem), ?_⟩
  rw [← h.bound]
  exact p.issued_vacant hmem

end Represented

theorem represents_new (pageSize : UInt32) (hsize : 1 ≤ pageSize.toNat) :
    Represents (⟨RMVByMapped.new pageSize, []⟩ : AllocState V) .empty where
  high := by simp [RMVByMapped.new, IndexPool.empty]
  free := by simp [RMVByMapped.new, IndexPool.empty]
  issued := by simp [IndexPool.empty]
  bound := by
    funext i
    simp only [IndexPool.empty, RMVByMapped.new, RMVByMapped.slot]
    cases hq : i / pageSize.toNat <;> simp
  pages := by simp [RMVByMapped.new]
  size_pos := by
    change 0 < pageSize.toNat
    omega
  high_le := by simp [RMVByMapped.new]
  fits := by simpa [RMVByMapped.new] using pageSize.toNat_lt

section Steps

variable {s s' : AllocState V} {p : IndexPool V}

/-- `next_index` on a non-empty stack takes its top; no page is added. -/
theorem Represents.pop (h : s.Represents p) {index : UInt32} {rest : List UInt32}
    (hfree : s.table.freeStack = index :: rest) :
    ∃ p', Represents ⟨s.table.nextIndex.2, s.table.nextIndex.1 :: s.issued⟩ p' := by
  have hp : p.free = index.toNat :: rest.map UInt32.toNat := by
    rw [h.free, hfree, List.map_cons]
  have hlt : index.toNat < p.high := (p.vacant _ (by simp [hp])).1
  have hlimit : ¬ s.table.limit ≤ index := UInt32.not_le.mpr (h.lt_limit hlt)
  have hnext : s.table.nextIndex = (index, { s.table with freeStack := rest }) := by
    unfold RMVByMapped.nextIndex
    rw [hfree]
    exact if_neg hlimit
  rw [hnext]
  exact ⟨p.reissue _ _ hp, h.high, rfl, by simp [IndexPool.reissue, h.issued],
    h.bound, h.pages, h.size_pos, h.high_le, h.fits⟩

/-- The mark stays below 2^32 where the page it may need fits. -/
theorem Represents.highIndex_lt (h : s.Represents p)
    (hrange : s.table.limit ≤ s.table.highIndex → s.table.InRange) :
    s.table.highIndex.toNat + 1 < 2 ^ 32 := by
  have hhigh := h.high_le
  have hfits := h.fits
  by_cases hlimit : s.table.limit ≤ s.table.highIndex
  · have hpage := hrange hlimit
    have hsize := h.size_pos
    unfold RMVByMapped.InRange at hpage
    rw [Nat.add_mul, Nat.one_mul] at hpage
    omega
  · have hbelow := UInt32.lt_iff_toNat_lt.mp (UInt32.not_le.mp hlimit)
    rw [h.limit] at hbelow
    omega

/-- `next_index` on an empty stack takes the high-water mark, and adds a page
exactly when the mark has reached the end of the last one. -/
theorem Represents.fresh (h : s.Represents p)
    (hrange : s.table.limit ≤ s.table.highIndex → s.table.InRange)
    (hfree : s.table.freeStack = []) :
    ∃ p', Represents ⟨s.table.nextIndex.2, s.table.nextIndex.1 :: s.issued⟩ p' := by
  have hsize := h.size_pos
  have hhigh := h.high_le
  have hmark : (s.table.highIndex + 1).toNat = s.table.highIndex.toNat + 1 := by
    have hbelow := h.highIndex_lt hrange
    rw [UInt32.toNat_add]
    exact Nat.mod_eq_of_lt (by simp; omega)
  have hslot : s.table.nextIndex.2.slot = s.table.slot := s.table.nextIndex_slot
  have hempty : p.free = ([] : List UInt32).map UInt32.toNat := by
    rw [h.free, hfree]
  refine ⟨p.issueFresh, ?_⟩
  by_cases hlimit : s.table.limit ≤ s.table.highIndex
  · have hpage := hrange hlimit
    unfold RMVByMapped.InRange at hpage
    rw [Nat.add_mul, Nat.one_mul] at hpage
    have hcount : (s.table.numPages + 1).toNat = s.table.numPages.toNat + 1 := by
      have hle : s.table.numPages.toNat ≤
          s.table.numPages.toNat * s.table.pageSize.toNat :=
        Nat.le_mul_of_pos_right _ hsize
      rw [UInt32.toNat_add]
      exact Nat.mod_eq_of_lt (by simp; omega)
    have hnext : s.table.nextIndex = (s.table.highIndex,
        { s.table with
          highIndex := s.table.highIndex + 1
          freeStack := []
          numPages := s.table.numPages + 1
          pages := s.table.pages ++ [fun _ => none] }) := by
      unfold RMVByMapped.nextIndex
      rw [hfree]
      exact if_pos hlimit
    rw [hnext] at hslot ⊢
    refine ⟨?_, hempty, ?_, h.bound.trans hslot.symm, ?_, hsize, ?_, ?_⟩
    · simp only [IndexPool.issueFresh, hmark, h.high]
    · simp only [IndexPool.issueFresh, List.map_cons, h.high, h.issued]
    · simp only [List.length_append, List.length_singleton, hcount, h.pages]
    · simp only [hmark, hcount, Nat.add_mul, Nat.one_mul]
      omega
    · simp only [hcount, Nat.add_mul, Nat.one_mul]
      exact hpage
  · have hbelow : s.table.highIndex.toNat <
        s.table.numPages.toNat * s.table.pageSize.toNat := by
      rw [← h.limit]
      exact UInt32.lt_iff_toNat_lt.mp (UInt32.not_le.mp hlimit)
    have hnext : s.table.nextIndex = (s.table.highIndex,
        { s.table with highIndex := s.table.highIndex + 1, freeStack := [] }) := by
      unfold RMVByMapped.nextIndex
      rw [hfree]
      exact if_neg hlimit
    rw [hnext] at hslot ⊢
    refine ⟨?_, hempty, ?_, h.bound.trans hslot.symm, h.pages, hsize, ?_, h.fits⟩
    · simp only [IndexPool.issueFresh, hmark, h.high]
    · simp only [IndexPool.issueFresh, List.map_cons, h.high, h.issued]
    · simp only [hmark]
      omega

theorem Represents.bind (h : s.Represents p) {index : UInt32}
    (hindex : index ∈ s.issued) (value : V) :
    ∃ p', Represents
      ⟨s.table.storeAt index (some value), s.issued.erase index⟩ p' := by
  have hmem := h.mem_issued hindex
  have hslot := RMVByMapped.storeAt_slot h.cover
    (h.lt_limit (p.issued_lt hmem)) (some value)
  refine ⟨p.bind index.toNat value hmem, h.high, h.free, ?_, ?_, ?_,
    h.size_pos, h.high_le, h.fits⟩
  · simp only [IndexPool.bind, h.issued]
    exact (List.map_erase (fun _ _ => UInt32.toNat_inj.mp) _).symm
  · rw [hslot, ← h.bound]
    rfl
  · rw [RMVByMapped.storeAt, RMVByMapped.store_pages_length]
    exact h.pages

theorem Represents.rebind (h : s.Represents p) {index : UInt32}
    (hindex : (s.table.slot index.toNat).isSome) (value : V) :
    ∃ p', Represents ⟨s.table.storeAt index (some value), s.issued⟩ p' := by
  rw [← h.bound] at hindex
  have hslot := RMVByMapped.storeAt_slot h.cover
    (h.lt_limit (p.bound_lt _ hindex)) (some value)
  refine ⟨p.rebind index.toNat value hindex, h.high, h.free, h.issued, ?_, ?_,
    h.size_pos, h.high_le, h.fits⟩
  · rw [hslot, ← h.bound]
    rfl
  · rw [RMVByMapped.storeAt, RMVByMapped.store_pages_length]
    exact h.pages

theorem Represents.unbind (h : s.Represents p) {index : UInt32}
    (hindex : (s.table.slot index.toNat).isSome) :
    ∃ p', Represents ⟨{ s.table.storeAt index none with
      freeStack := index :: s.table.freeStack }, s.issued⟩ p' := by
  rw [← h.bound] at hindex
  have hslot := RMVByMapped.storeAt_slot h.cover
    (h.lt_limit (p.bound_lt _ hindex)) none
  refine ⟨p.release index.toNat hindex, h.high, ?_, h.issued, ?_, ?_,
    h.size_pos, h.high_le, h.fits⟩
  · simp only [IndexPool.release, List.map_cons, h.free]
  · change _ = (s.table.storeAt index none).slot
    rw [hslot, ← h.bound]
    rfl
  · change (s.table.storeAt index none).pages.length = _
    rw [RMVByMapped.storeAt, RMVByMapped.store_pages_length]
    exact h.pages

/-- The running page offset plus the offset in the page is the index the slot
was bound under. -/
theorem Represents.reap (h : s.Represents p) {page offset : Nat}
    (hoffset : offset < s.table.pageSize.toNat)
    (hpage : page < s.table.pages.length)
    (hbound : (s.table.slot (page * s.table.pageSize.toNat + offset)).isSome) :
    ∃ p', Represents ⟨s.table.reap page offset, s.issued⟩ p' := by
  rw [← h.bound] at hbound
  have hhigh := p.bound_lt _ hbound
  have hslot : (s.table.store page offset none).slot =
      Function.update s.table.slot
        (page * s.table.pageSize.toNat + offset) none := by
    funext i
    rw [RMVByMapped.slot_store _ _ _ _ _ hpage]
    simp only [RMVByMapped.div_mod_unique hoffset, Function.update_apply]
  refine ⟨p.release _ hbound, h.high, ?_, h.issued, ?_, ?_,
    h.size_pos, h.high_le, h.fits⟩
  · simp only [IndexPool.release, RMVByMapped.reap, List.map_cons, h.free]
    rw [UInt32.toNat_ofNat_of_lt']
    have := h.high
    have := h.high_le
    have := h.fits
    simp only [UInt32.size]
    omega
  · change _ = (s.table.store page offset none).slot
    rw [hslot, ← h.bound]
    rfl
  · change (s.table.store page offset none).pages.length = _
    rw [RMVByMapped.store_pages_length]
    exact h.pages

/-- One step of the code is one step of the pool, if the page that
`next_index` may add fits. -/
theorem Represents.step (h : s.Represents p) (op : TableOp V)
    (hrange : op = .nextIndex → s.table.limit ≤ s.table.peekIndex → s.table.InRange)
    (hstep : s.step op = some s') :
    ∃ p', s'.Represents p' := by
  cases op with
  | nextIndex =>
      obtain rfl := Option.some.inj hstep
      cases hfree : s.table.freeStack with
      | nil =>
          have hpeek := s.table.peekIndex_nil hfree
          exact h.fresh (hpeek ▸ hrange rfl) hfree
      | cons index rest => exact h.pop hfree
  | bind index value =>
      simp only [AllocState.step, Option.ite_none_right_eq_some] at hstep
      obtain ⟨hindex, hstep⟩ := hstep
      rw [h.bind_succeeds hindex] at hstep
      obtain rfl := Option.some.inj hstep
      exact h.bind hindex value
  | rebind index value =>
      simp only [AllocState.step, Option.ite_none_right_eq_some] at hstep
      obtain ⟨hindex, hstep⟩ := hstep
      have hlt : index < s.table.limit := by
        apply h.lt_limit (p.bound_lt _ _)
        rwa [h.bound]
      rw [h.cover.rebind_eq, if_pos hlt] at hstep
      obtain rfl := Option.some.inj hstep
      exact h.rebind hindex value
  | find index =>
      simp only [AllocState.step, h.cover.find_eq, Option.some.injEq] at hstep
      exact ⟨p, hstep ▸ h⟩
  | unbind index =>
      simp only [AllocState.step, h.cover.unbind_eq, Option.some.injEq] at hstep
      split at hstep
      · next hfound =>
          obtain rfl := hstep
          exact h.unbind hfound.2
      · exact ⟨p, hstep ▸ h⟩
  | reap page offset =>
      simp only [AllocState.step, Option.ite_none_right_eq_some,
        Option.some.injEq] at hstep
      obtain ⟨⟨hoffset, hpage, hbound⟩, rfl⟩ := hstep
      exact h.reap hoffset hpage hbound

end Steps

end AllocState

open AllocState in
/-- Every state of a run within range stands for a well-formed pool. -/
theorem reach_represents {V : Type} {pageSize : UInt32}
    (hsize : 1 ≤ pageSize.toNat) {s : AllocState V}
    (h : (allocSystem V pageSize).Reach (fun s _ => s.table.InRange) s) :
    ∃ p, s.Represents p := by
  refine System.Reach.invariant (I := fun s => ∃ p, s.Represents p) ?_ ?_ h
  · rintro s rfl
    exact ⟨_, represents_new pageSize hsize⟩
  · rintro s op s' ⟨p, hp⟩ hrange hstep
    exact hp.step op (fun _ _ => hrange) hstep

/-- The allocator invariant: in every run within range the page list has
`num_pages_` pages, the indices below `high_index_` are partitioned, every
lookup stays on the page list, and an issued index lies in an allocated page
with an empty slot, so that the `bind` whose result `add_native_unchecked`
ignores always succeeds. -/
theorem allocator_invariant {V : Type} {pageSize : UInt32}
    (hsize : 1 ≤ pageSize.toNat) {s : AllocState V}
    (h : (allocSystem V pageSize).Reach (fun s _ => s.table.InRange) s) :
    s.table.pages.length = s.table.numPages.toNat ∧
    s.Partitioned ∧
    (∀ index, ∃ content, s.table.locate index = .ok content) ∧
    (∀ index ∈ s.issued,
      index.toNat / s.table.pageSize.toNat < s.table.pages.length ∧
      s.table.slot index.toNat = none ∧
      ∀ value, ∃ t, s.table.bind index value = .ok (true, t)) := by
  obtain ⟨p, hp⟩ := reach_represents hsize h
  refine ⟨hp.pages, hp.partitioned, fun index => ⟨_, hp.cover.locate_eq index⟩, ?_⟩
  intro index hindex
  refine ⟨?_, hp.partitioned.issued_empty index hindex, ?_⟩
  · rw [← UInt32.toNat_div]
    exact hp.cover.locate_page
      (hp.lt_limit (p.issued_lt (hp.mem_issued hindex)))
  · exact fun value => ⟨_, hp.bind_succeeds hindex value⟩

/-- Pages of one slot: the second index needs a second page, and the first
one is issued again after its `unbind`. -/
theorem allocator_invariant_reissue :
    ∃ s : AllocState Nat, s.issued = [0, 1] ∧ s.table.pages.length = 2 ∧
      s.Partitioned := by
  have hruns : ((allocSystem Nat 1).replay (fun s _ => s.table.InRange)
      ⟨RMVByMapped.new 1, []⟩
      [.nextIndex, .bind 0 7, .nextIndex, .unbind 0, .nextIndex]).isSome := by
    decide
  obtain ⟨s, hs⟩ := Option.isSome_iff_exists.mp hruns
  have hissued : s.issued = [0, 1] :=
    System.replay_read (fun s => s.issued) hs (by decide)
  have hnum : s.table.numPages.toNat = 2 :=
    System.replay_read (fun s => s.table.numPages.toNat) hs (by decide)
  obtain ⟨hpages, hpartition, -, -⟩ := allocator_invariant (by decide)
    (System.Reach.of_replay (.start rfl) _ hs)
  exact ⟨s, hissued, hpages.trans hnum, hpartition⟩

end Lorica
