import Mathlib.Tactic

/-!
Histories of resources that are taken and given back. A history is exclusive
when nothing is taken twice without having been given back in between; what
happened last to a resource says whether it may be taken.
-/

namespace Machine

inductive LeaseEvent (ι : Type*) where
  | taken (i : ι)
  | freed (i : ι)
deriving DecidableEq, Repr

namespace LeaseEvent

variable {ι : Type*}

/-- The resource an event is about. -/
def resource : LeaseEvent ι → ι
  | taken i => i
  | freed i => i

end LeaseEvent

namespace Lease

variable {ι : Type*}

/-- Histories are newest first. -/
def Exclusive (h : List (LeaseEvent ι)) : Prop :=
  ∀ i later between earlier,
    h = later ++ .taken i :: (between ++ .taken i :: earlier) → .freed i ∈ between

theorem exclusive_nil : Exclusive ([] : List (LeaseEvent ι)) := by
  intro i later between earlier heq
  simp at heq

theorem Exclusive.free {h : List (LeaseEvent ι)} (h' : Exclusive h) (j : ι) : Exclusive (.freed j :: h) := by
  intro i later between earlier heq
  cases later with
  | nil => simp at heq
  | cons e later =>
      rw [List.cons_append, List.cons.injEq] at heq
      exact h' i later between earlier heq.2

variable [DecidableEq ι]

/-- What happened last to a resource. -/
def last (i : ι) : List (LeaseEvent ι) → Option (LeaseEvent ι)
  | [] => none
  | e :: h => if e.resource = i then some e else last i h

variable {h : List (LeaseEvent ι)} {i j : ι}

theorem last_cons_self (e : LeaseEvent ι) : last e.resource (e :: h) = some e :=
  if_pos rfl

theorem last_cons_ne {e : LeaseEvent ι} (hne : e.resource ≠ i) :
    last i (e :: h) = last i h :=
  if_neg hne

/-- A resource taken and not given back since was taken last. -/
theorem last_of_not_freed {between earlier : List (LeaseEvent ι)}
    (hnot : .freed i ∉ between) : last i (between ++ .taken i :: earlier) = some (.taken i) := by
  induction between with
  | nil => exact last_cons_self (.taken i)
  | cons e between ih =>
      rw [List.mem_cons, not_or] at hnot
      rw [List.cons_append]
      by_cases he : e.resource = i
      · cases e with
        | taken j =>
            obtain rfl : j = i := he
            exact last_cons_self (.taken j)
        | freed j =>
            obtain rfl : j = i := he
            exact absurd rfl hnot.1
      · rw [last_cons_ne he]
        exact ih hnot.2

/-- What was not taken last may be taken. -/
theorem Exclusive.take (h' : Exclusive h) (hlast : last j h ≠ some (.taken j)) :
    Exclusive (.taken j :: h) := by
  intro i later between earlier heq
  cases later with
  | nil =>
      rw [List.nil_append, List.cons.injEq, LeaseEvent.taken.injEq] at heq
      obtain ⟨rfl, rfl⟩ := heq
      by_contra hnot
      exact hlast (last_of_not_freed hnot)
  | cons e later =>
      rw [List.cons_append, List.cons.injEq] at heq
      exact h' i later between earlier heq.2

end Lease

end Machine
