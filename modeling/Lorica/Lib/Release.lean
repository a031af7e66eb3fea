import Lorica.Lib.Action

/-!
Objects that count the references to them and delete themselves with the last
one. References that are given back one after another meet no object that has
been deleted, as long as each object was counted at least as often as it comes
in the list; what is left of it is what it was counted for besides.
-/

namespace Machine

/-- The objects that are there, each with its count. -/
abbrev CountedObjects (A X : Type) := A → Option (X × Int)

namespace CountedObjects

variable {A X : Type}

/-- What `k` references given back leave of an object. -/
def less (k : Nat) : Option (X × Int) → Option (X × Int)
  | none => none
  | some (x, n) => if k ≠ 0 ∧ n = k then none else some (x, n - k)

variable [DecidableEq A]

/-- To give back a reference to a deleted object is a fault. -/
def release (a : A) (objects : CountedObjects A X) : Except Fault (CountedObjects A X) :=
  match objects a with
  | none => .error .danglingPointer
  | some (x, n) =>
      .ok (Function.update objects a (if n - 1 = 0 then none else some (x, n - 1)))

def releaseAll : List A → CountedObjects A X → Except Fault (CountedObjects A X)
  | [], objects => .ok objects
  | a :: rest, objects => release a objects >>= releaseAll rest

theorem releaseAll_append (first second : List A) (objects : CountedObjects A X) :
    releaseAll (first ++ second) objects =
      releaseAll first objects >>= releaseAll second := by
  induction first generalizing objects with
  | nil => rfl
  | cons a rest ih =>
      rw [List.cons_append]
      unfold releaseAll
      cases release a objects with
      | error cause => rfl
      | ok objects => exact ih objects

theorem release_some {a : A} {objects : CountedObjects A X} {x : X} {n : Int}
    (h : objects a = some (x, n)) :
    release a objects =
      .ok (Function.update objects a (if n - 1 = 0 then none else some (x, n - 1))) := by
  unfold release
  rw [h]

/-- The induction is on the references that are still to be given back. -/
theorem releaseAll_ok {as : List A} {objects : CountedObjects A X}
    (h : ∀ a ∈ as, ∃ x n, objects a = some (x, n) ∧ (as.count a : Int) ≤ n) :
    ∃ objects', releaseAll as objects = .ok objects' ∧
      ∀ a, objects' a = less (as.count a) (objects a) := by
  induction as generalizing objects with
  | nil =>
      refine ⟨objects, rfl, fun a => ?_⟩
      cases hobject : objects a with
      | none => rfl
      | some entry => simp [less]
  | cons a rest ih =>
      obtain ⟨x, n, hobject, hcount⟩ := h a (List.mem_cons_self ..)
      rw [List.count_cons_self] at hcount
      have hrest : ∀ b ∈ rest, ∃ y m,
          Function.update objects a (if n - 1 = 0 then none else some (x, n - 1)) b =
            some (y, m) ∧ (rest.count b : Int) ≤ m := by
        intro b hb
        rcases eq_or_ne b a with rfl | hne
        · have hpos : 0 < rest.count b := List.count_pos_iff.mpr hb
          refine ⟨x, n - 1, ?_, by omega⟩
          rw [Function.update_self, if_neg (by omega)]
        · obtain ⟨y, m, hy, hm⟩ := h b (List.mem_cons_of_mem _ hb)
          rw [List.count_cons_of_ne hne.symm] at hm
          exact ⟨y, m, by rw [Function.update_of_ne hne, hy], hm⟩
      obtain ⟨objects', hrun, hleft⟩ := ih hrest
      refine ⟨objects', ?_, fun b => ?_⟩
      · unfold releaseAll
        rw [release_some hobject]
        exact hrun
      · rw [hleft]
        rcases eq_or_ne b a with rfl | hne
        · rw [Function.update_self, List.count_cons_self, hobject]
          by_cases hlast : n - 1 = 0
          · rw [if_pos hlast]
            simp only [less]
            rw [if_pos ⟨by omega, by omega⟩]
          · rw [if_neg hlast]
            simp only [less]
            by_cases hall : n = rest.count b + 1
            · rw [if_pos ⟨by omega, by omega⟩, if_pos ⟨by omega, by push_cast; omega⟩]
            · rw [if_neg (by omega), if_neg (by push_cast; omega)]
              simp only [Option.some.injEq, Prod.mk.injEq, true_and]
              push_cast
              omega
        · rw [Function.update_of_ne hne, List.count_cons_of_ne hne.symm]

end CountedObjects

end Machine
