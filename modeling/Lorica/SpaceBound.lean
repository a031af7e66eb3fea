import Lorica.IndexCapacity

/-!
How far the table grows. `high_index_` moves only when the free stack is empty,
that is when every index below it is out, and a page is added only when the mark
has come to the end of the last one. So the size a run leaves behind is the
greatest number of indices that were out at once, however many were handed out
and given back in the course of it.
-/

namespace Lorica

open Machine

namespace RMVByMapped

variable {V : Type}

/-- No more pages than the mark needs, and one at the least. -/
def Tight (t : RMVByMapped V) : Prop :=
  t.pages.length = 1 ∨ (t.pages.length - 1) * t.pageSize.toNat < t.highIndex.toNat

theorem Tight.pages_eq {t : RMVByMapped V} (h : t.Tight) (hsize : 0 < t.pageSize.toNat)
    (hhigh : t.highIndex.toNat ≤ t.pages.length * t.pageSize.toNat) :
    t.pages.length =
      max 1 ((t.highIndex.toNat + t.pageSize.toNat - 1) / t.pageSize.toNat) := by
  rcases h with hone | hneeded
  · have hlt : (t.highIndex.toNat + t.pageSize.toNat - 1) / t.pageSize.toNat < 2 := by
      apply Nat.div_lt_of_lt_mul
      rw [hone] at hhigh
      omega
    omega
  · obtain ⟨before, hbefore⟩ : ∃ n, t.pages.length = n + 1 := by
      apply Nat.exists_eq_succ_of_ne_zero
      intro hnone
      rw [hnone, Nat.zero_mul] at hhigh
      omega
    rw [hbefore, Nat.add_sub_cancel] at hneeded
    rw [hbefore, Nat.add_mul, Nat.one_mul] at hhigh
    have hdiv : (t.highIndex.toNat + t.pageSize.toNat - 1) / t.pageSize.toNat =
        before + 1 := by
      apply Nat.div_eq_of_lt_le
      · rw [Nat.add_mul, Nat.one_mul]
        omega
      · rw [Nat.add_mul, Nat.add_mul, Nat.one_mul]
        omega
    rw [hdiv, hbefore]
    omega

end RMVByMapped

namespace AllocState

variable {V : Type}

/-- How many indices are out: issued and not yet bound, or bound. -/
def outstanding (s : AllocState V) : Nat :=
  s.issued.length +
    (List.range (s.table.pages.length * s.table.pageSize.toNat)).countP fun i =>
      (s.table.slot i).isSome

section Steps

variable {s s' : AllocState V} {p : IndexPool V} {op : TableOp V}

theorem Represents.high_le_slots (h : s.Represents p) :
    p.high ≤ s.table.pages.length * s.table.pageSize.toNat := by
  rw [h.high, h.pages]
  exact h.high_le

theorem Represents.outstanding_eq (h : s.Represents p) : s.outstanding = p.outstanding := by
  have hlength : p.issued.length = s.issued.length := by rw [h.issued, List.length_map]
  rw [outstanding, ← h.bound, p.countP_bound h.high_le_slots, IndexPool.outstanding, hlength]

/-- Below the mark an index is on the free stack or out. -/
theorem Represents.highIndex_eq (h : s.Represents p) :
    s.table.highIndex.toNat = s.table.freeStack.length + s.outstanding := by
  have hfree : p.free.length = s.table.freeStack.length := by rw [h.free, List.length_map]
  rw [← h.high, p.high_eq, hfree, h.outstanding_eq]

theorem Represents.outstanding_nextIndex (h : s.Represents p) :
    outstanding ⟨s.table.nextIndex.2, s.table.nextIndex.1 :: s.issued⟩ =
      s.outstanding + 1 := by
  have hgrown := Nat.mul_le_mul_right s.table.pageSize.toNat s.table.nextIndex_pages_length
  simp only [outstanding, RMVByMapped.nextIndex_slot, RMVByMapped.nextIndex_pageSize,
    List.length_cons, ← h.bound]
  rw [p.countP_bound (h.high_le_slots.trans hgrown), p.countP_bound h.high_le_slots]
  omega

/-- Only `next_index` moves the mark or adds a page. -/
theorem Represents.step_keeps (h : s.Represents p) (hop : op ≠ .nextIndex)
    (hstep : s.step op = some s') :
    s'.table.highIndex = s.table.highIndex ∧ s.table.SamePages s'.table := by
  cases op with
  | nextIndex => exact absurd rfl hop
  | bind index value =>
      simp only [AllocState.step, Option.ite_none_right_eq_some] at hstep
      obtain ⟨hindex, hstep⟩ := hstep
      rw [h.bind_succeeds hindex] at hstep
      obtain rfl := Option.some.inj hstep
      exact ⟨rfl, RMVByMapped.storeAt_samePages index (some value)⟩
  | rebind index value =>
      simp only [AllocState.step, Option.ite_none_right_eq_some] at hstep
      obtain ⟨hindex, hstep⟩ := hstep
      have hlt : index < s.table.limit := by
        apply h.lt_limit (p.bound_lt _ _)
        rwa [h.bound]
      rw [h.cover.rebind_eq, if_pos hlt] at hstep
      obtain rfl := Option.some.inj hstep
      exact ⟨rfl, RMVByMapped.storeAt_samePages index (some value)⟩
  | find index =>
      simp only [AllocState.step, h.cover.find_eq, Option.some.injEq] at hstep
      obtain rfl := hstep
      exact ⟨rfl, rfl, rfl⟩
  | unbind index =>
      simp only [AllocState.step, h.cover.unbind_eq, Option.some.injEq] at hstep
      obtain rfl := hstep
      split
      · exact ⟨rfl, rfl, (RMVByMapped.storeAt_samePages (t := s.table) index none).2⟩
      · exact ⟨rfl, rfl, rfl⟩
  | reap page offset =>
      simp only [AllocState.step, Option.ite_none_right_eq_some, Option.some.injEq] at hstep
      obtain ⟨-, rfl⟩ := hstep
      exact ⟨rfl, rfl, RMVByMapped.store_pages_length ..⟩

/-- `next_index` moves the mark to what is out then, if nothing was free. -/
theorem Represents.nextIndex_raises (h : s.Represents p) (htight : s.table.Tight)
    (hroom : s.outstanding + 1 + s.table.pageSize.toNat ≤ 2 ^ 32) :
    (∃ p', Represents ⟨s.table.nextIndex.2, s.table.nextIndex.1 :: s.issued⟩ p') ∧
      s.table.nextIndex.2.Tight ∧
      s.table.nextIndex.2.highIndex.toNat =
        max s.table.highIndex.toNat (s.outstanding + 1) := by
  have hmark := h.highIndex_eq
  have hlimit := h.limit
  unfold RMVByMapped.Tight at htight ⊢
  rw [RMVByMapped.nextIndex_highIndex, RMVByMapped.nextIndex_pages,
    RMVByMapped.nextIndex_pageSize]
  cases hfree : s.table.freeStack with
  | nil =>
      rw [hfree, List.length_nil, Nat.zero_add] at hmark
      have hpeek := s.table.peekIndex_nil hfree
      have hrange : s.table.limit ≤ s.table.highIndex → s.table.InRange := by
        intro hfull
        rw [UInt32.le_iff_toNat_le, hlimit] at hfull
        unfold RMVByMapped.InRange
        rw [Nat.add_mul, Nat.one_mul]
        omega
      have hraised : (s.table.highIndex + 1).toNat = s.outstanding + 1 := by
        have hbelow := h.highIndex_lt hrange
        rw [UInt32.toNat_add, UInt32.toNat_one]
        omega
      rw [if_pos rfl, hpeek, hraised]
      refine ⟨h.fresh hrange hfree, ?_, by omega⟩
      split
      · next hfull =>
          right
          rw [UInt32.le_iff_toNat_le, hlimit, ← h.pages] at hfull
          rw [List.length_append, List.length_singleton, Nat.add_sub_cancel]
          omega
      · omega
  | cons index rest =>
      have hbelow : ¬ s.table.limit ≤ s.table.peekIndex := by
        have hmem : index.toNat ∈ p.free ++ p.issued := by simp [h.free, hfree]
        rw [s.table.peekIndex_cons hfree]
        exact UInt32.not_le.mpr (h.lt_limit (p.vacant _ hmem).1)
      rw [hfree, List.length_cons] at hmark
      rw [if_neg (List.cons_ne_nil _ _), if_neg hbelow]
      exact ⟨h.pop hfree, htight, by omega⟩

/-- Each step moves the mark to what is out after it, if that is more. -/
theorem Represents.step_raises (h : s.Represents p) (htight : s.table.Tight)
    (hstep : s.step op = some s')
    (hroom : s'.outstanding + s.table.pageSize.toNat ≤ 2 ^ 32) :
    (∃ p', s'.Represents p') ∧ s'.table.Tight ∧ s'.table.pageSize = s.table.pageSize ∧
      s'.table.highIndex.toNat = max s.table.highIndex.toNat s'.outstanding := by
  by_cases hop : op = .nextIndex
  · subst hop
    obtain rfl := Option.some.inj hstep
    rw [h.outstanding_nextIndex] at hroom ⊢
    obtain ⟨hnext, htightened, hraised⟩ := h.nextIndex_raises htight hroom
    exact ⟨hnext, htightened, s.table.nextIndex_pageSize, hraised⟩
  · obtain ⟨hhigh, hsize, hpages⟩ := h.step_keeps hop hstep
    obtain ⟨p', hnext⟩ := h.step op (fun h => absurd h hop) hstep
    have hmark := hnext.highIndex_eq
    refine ⟨⟨p', hnext⟩, ?_, hsize, ?_⟩
    · unfold RMVByMapped.Tight
      rwa [hpages, hsize, hhigh]
    · rw [hhigh] at hmark ⊢
      omega

end Steps

/-- The indices are recycled for good. After a run of any length `high_index_` is
the greatest number of indices that were out at once in it, every index below
is on the free stack, issued or bound, and there are as many pages as that
number needs.
So nothing wraps around as long as that number and one page fit in 32 bits. -/
theorem space_is_peak {V : Type} {pageSize : UInt32} (hsize : 1 ≤ pageSize.toNat)
    {ops : List (TableOp V)} {s : AllocState V}
    (h : (allocSystem V pageSize).replay (fun _ _ => True) ⟨RMVByMapped.new pageSize, []⟩ ops =
      some s)
    (hroom : (allocSystem V pageSize).peak outstanding ⟨RMVByMapped.new pageSize, []⟩ ops +
      pageSize.toNat ≤ 2 ^ 32) :
    s.table.highIndex.toNat =
        (allocSystem V pageSize).peak outstanding ⟨RMVByMapped.new pageSize, []⟩ ops ∧
      s.Partitioned ∧
      s.table.freeStack.length + s.outstanding =
        (allocSystem V pageSize).peak outstanding ⟨RMVByMapped.new pageSize, []⟩ ops ∧
      s.table.pages.length = max 1
        (((allocSystem V pageSize).peak outstanding ⟨RMVByMapped.new pageSize, []⟩ ops +
          pageSize.toNat - 1) / pageSize.toNat) := by
  have hstart := represents_new (V := V) pageSize hsize
  have hzero : outstanding (⟨RMVByMapped.new pageSize, []⟩ : AllocState V) ≤ 0 := by
    have hmark := hstart.highIndex_eq
    change 0 = _ at hmark
    omega
  have hlt := pageSize.toNat_lt
  have hstep : ∀ (s : AllocState V) (op : TableOp V) (s' : AllocState V),
      (s.table.pageSize = pageSize ∧ s.table.Tight ∧ ∃ p, s.Represents p) →
      (allocSystem V pageSize).step s op = some s' →
      s'.outstanding ≤ 2 ^ 32 - pageSize.toNat →
      (s'.table.pageSize = pageSize ∧ s'.table.Tight ∧ ∃ p, s'.Represents p) ∧
        s'.table.highIndex.toNat = max s.table.highIndex.toNat s'.outstanding := by
    rintro s op s' ⟨hkept, htight, p, hp⟩ hstep hbound
    obtain ⟨hnext, htightened, hsame, hraised⟩ :=
      hp.step_raises htight hstep (by rw [hkept]; omega)
    exact ⟨⟨hsame.trans hkept, htightened, hnext⟩, hraised⟩
  obtain ⟨⟨hkept, htight, p, hp⟩, hmark⟩ :=
    System.mark_eq_peak (fun s => s.table.highIndex.toNat) outstanding hstep
      ⟨rfl, .inl rfl, _, hstart⟩ hzero h (by omega)
  have hpeak := hmark.trans (max_eq_right (Nat.zero_le _))
  have hpages := htight.pages_eq hp.size_pos (by rw [hp.pages]; exact hp.high_le)
  rw [hkept, hpeak] at hpages
  exact ⟨hpeak, hp.partitioned, hp.highIndex_eq.symm.trans hpeak, hpages⟩

/-- Three indices are handed out, never more than two at once. -/
theorem space_is_peak_reused :
    ∃ s : AllocState Nat, s.table.highIndex.toNat = 2 ∧ s.Partitioned ∧
      s.table.pages.length = 2 := by
  obtain ⟨s, hs⟩ := Option.isSome_iff_exists.mp (show
    ((allocSystem Nat 1).replay (fun _ _ => True) ⟨RMVByMapped.new 1, []⟩
      [.nextIndex, .bind 0 7, .nextIndex, .unbind 0, .nextIndex]).isSome by decide)
  have hpeak : (allocSystem Nat 1).peak outstanding ⟨RMVByMapped.new 1, []⟩
      [.nextIndex, .bind 0 7, .nextIndex, .unbind 0, .nextIndex] = 2 := by decide
  obtain ⟨hhigh, hpartitioned, -, hpages⟩ :=
    space_is_peak (by decide) hs (by rw [hpeak]; decide)
  rw [hpeak] at hhigh hpages
  exact ⟨s, hhigh, hpartitioned, hpages⟩

end AllocState

end Lorica
