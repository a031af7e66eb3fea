import Mathlib.Tactic

/-!
A lock for any number of readers or one writer, and who has it. A thread that
cannot have the lock waits: it takes no step.
-/

namespace Machine

structure RwLock where
  readers : Nat
  writer : Bool
deriving DecidableEq, Repr

namespace RwLock

def acquire (lock : RwLock) (exclusive : Bool) : Option RwLock :=
  if exclusive then
    if lock.writer = false ∧ lock.readers = 0 then some { lock with writer := true } else none
  else
    if lock.writer = false then some { lock with readers := lock.readers + 1 } else none

def release (lock : RwLock) (exclusive : Bool) : RwLock :=
  if exclusive then { lock with writer := false }
  else { lock with readers := lock.readers - 1 }

variable {ι : Type*}

/-- The lock counts those who have it, each in its mode, and a writer has it alone. -/
structure HeldBy (lock : RwLock) (holders : ι → Option Bool) : Prop where
  readers : ∃ F : Finset ι, (∀ i, i ∈ F ↔ holders i = some false) ∧ F.card = lock.readers
  writer : lock.writer = true ↔ ∃ i, holders i = some true
  alone : ∀ i j, holders i = some true → holders j ≠ none → i = j

namespace HeldBy

variable {lock lock' : RwLock} {holders : ι → Option Bool} {i : ι}

/-- Nobody writes. -/
theorem of_readers {F : Finset ι} (hwriter : lock.writer = false)
    (hnone : ∀ j, holders j ≠ some true) (hmem : ∀ j, j ∈ F ↔ holders j = some false)
    (hcard : F.card = lock.readers) : lock.HeldBy holders where
  readers := ⟨F, hmem, hcard⟩
  writer := by
    refine iff_of_false (by simp [hwriter]) ?_
    rintro ⟨j, hj⟩
    exact hnone j hj
  alone j k hj := absurd hj (hnone j)

theorem unheld : HeldBy ⟨0, false⟩ fun _ : ι => none :=
  of_readers (F := ∅) rfl (by simp) (by simp) rfl

theorem no_writer (h : lock.HeldBy holders) (hwriter : lock.writer = false) (j : ι) :
    holders j ≠ some true := by
  intro hj
  rw [h.writer.mpr ⟨j, hj⟩] at hwriter
  cases hwriter

theorem free (h : lock.HeldBy holders) (hwriter : lock.writer = false)
    (hreaders : lock.readers = 0) (j : ι) : holders j = none := by
  obtain ⟨F, hmem, hcard⟩ := h.readers
  have hempty : F = ∅ := Finset.card_eq_zero.mp (hcard.trans hreaders)
  cases hj : holders j with
  | none => rfl
  | some exclusive =>
      cases exclusive with
      | false => simpa [hempty] using (hmem j).mpr hj
      | true => exact absurd hj (h.no_writer hwriter j)

/-- A lock that nobody has is there to be had. -/
theorem acquire_of_none (h : lock.HeldBy holders) (hnone : ∀ j, holders j = none)
    (exclusive : Bool) : ∃ lock', lock.acquire exclusive = some lock' := by
  have hwriter : lock.writer = false := by
    apply Bool.eq_false_of_not_eq_true
    intro hwriting
    obtain ⟨j, hj⟩ := h.writer.mp hwriting
    rw [hnone j] at hj
    cases hj
  obtain ⟨F, hmem, hcard⟩ := h.readers
  have hempty : F = ∅ := Finset.eq_empty_of_forall_notMem fun j hj => by
    rw [hmem j, hnone j] at hj
    cases hj
  have hreaders : lock.readers = 0 := by rw [← hcard, hempty, Finset.card_empty]
  cases exclusive with
  | true => simp [acquire, hwriter, hreaders]
  | false => simp [acquire, hwriter]

variable [DecidableEq ι]

theorem update_ne_writer (hnone : ∀ j, holders j ≠ some true) {mode : Option Bool}
    (hmode : mode ≠ some true) (j : ι) : Function.update holders i mode j ≠ some true := by
  by_cases hj : j = i
  · rwa [hj, Function.update_self]
  · rw [Function.update_of_ne hj]
    exact hnone j

theorem acquire_read (h : lock.HeldBy holders) (hi : holders i = none)
    (hacquire : lock.acquire false = some lock') :
    lock'.HeldBy (Function.update holders i (some false)) := by
  obtain ⟨hwriter, hlock⟩ := Option.ite_none_right_eq_some.mp hacquire
  obtain rfl := Option.some.inj hlock
  obtain ⟨F, hmem, hcard⟩ := h.readers
  have hnew : i ∉ F := by simp [hmem, hi]
  refine of_readers (F := insert i F) hwriter
    (update_ne_writer (h.no_writer hwriter) (by simp)) (fun j => ?_) ?_
  · by_cases hj : j = i <;> simp [hj, hmem]
  · rw [Finset.card_insert_of_notMem hnew, hcard]

theorem acquire_write (h : lock.HeldBy holders) (i : ι)
    (hacquire : lock.acquire true = some lock') :
    lock'.HeldBy (Function.update holders i (some true)) := by
  obtain ⟨⟨hwriter, hreaders⟩, hlock⟩ := Option.ite_none_right_eq_some.mp hacquire
  obtain rfl := Option.some.inj hlock
  have hfree := h.free hwriter hreaders
  have honly : ∀ j, Function.update holders i (some true) j ≠ none → j = i := by
    intro j hj
    by_contra hne
    rw [Function.update_of_ne hne] at hj
    exact hj (hfree j)
  refine ⟨⟨∅, fun j => ?_, hreaders.symm⟩, iff_of_true rfl ⟨i, Function.update_self ..⟩,
    fun j k hj hk => ?_⟩
  · by_cases hj : j = i <;> simp [hj, hfree]
  · rw [honly j (by simp [hj]), honly k hk]

theorem release_read (h : lock.HeldBy holders) (hi : holders i = some false) :
    (lock.release false).HeldBy (Function.update holders i none) := by
  have hnone : ∀ j, holders j ≠ some true := by
    intro j hj
    obtain rfl := h.alone j i hj (by simp [hi])
    rw [hi] at hj
    cases hj
  have hwriter : lock.writer = false := by
    refine Bool.eq_false_iff.mpr fun htrue => ?_
    obtain ⟨j, hj⟩ := h.writer.mp htrue
    exact hnone j hj
  obtain ⟨F, hmem, hcard⟩ := h.readers
  refine of_readers (F := F.erase i) hwriter (update_ne_writer hnone (by simp)) (fun j => ?_) ?_
  · by_cases hj : j = i <;> simp [hj, hmem]
  · rw [Finset.card_erase_of_mem ((hmem i).mpr hi), hcard]
    rfl

theorem release_write (h : lock.HeldBy holders) (hi : holders i = some true) :
    (lock.release true).HeldBy (Function.update holders i none) := by
  have hfree : ∀ j, Function.update holders i none j = none := by
    intro j
    by_cases hj : j = i
    · rw [hj, Function.update_self]
    · rw [Function.update_of_ne hj]
      by_contra hheld
      exact hj (h.alone i j hi hheld).symm
  obtain ⟨F, hmem, hcard⟩ := h.readers
  have hempty : ∀ j, j ∉ F := by
    intro j hj
    have hread := (hmem j).mp hj
    obtain rfl := h.alone i j hi (by simp [hread])
    rw [hi] at hread
    cases hread
  exact of_readers (F := F) rfl (by simp [hfree]) (by simp [hfree, hempty]) hcard

/-- Whoever has the lock gives it back in his mode. -/
theorem release (h : lock.HeldBy holders) {exclusive : Bool} (hi : holders i = some exclusive) :
    (lock.release exclusive).HeldBy (Function.update holders i none) := by
  cases exclusive with
  | false => exact h.release_read hi
  | true => exact h.release_write hi

theorem acquire (h : lock.HeldBy holders) {exclusive : Bool} (hi : holders i = none)
    (hacquire : lock.acquire exclusive = some lock') :
    lock'.HeldBy (Function.update holders i (some exclusive)) := by
  cases exclusive with
  | false => exact h.acquire_read hi hacquire
  | true => exact h.acquire_write i hacquire

end HeldBy

end RwLock

end Machine
