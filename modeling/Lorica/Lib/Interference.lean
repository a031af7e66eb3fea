import Mathlib.Tactic

/-!
Threads over one memory, each of which takes a step of its own at a time. A walk
is the part of a thread that only reads: it goes from place to place until it
comes back with a result. Where the other threads change nothing that has been
read, a walk whose end can be told from one memory ends so in every later one.
-/

namespace Machine

/-- What a step of a walk leads to. -/
inductive Next (C R : Type*) where
  | go (c : C)
  | back (r : R)
  | crash
deriving DecidableEq, Repr

section Walks

variable {C R : Type*}

def Leads (next : C → Next C R) (c c' : C) : Prop := next c = .go c'

/-- In so many steps the walk comes back with the result. -/
inductive Ends (next : C → Next C R) (r : R) : C → Nat → Prop where
  | back {c : C} (h : next c = .back r) : Ends next r c 1
  | go {c c' : C} {k : Nat} (h : next c = .go c') (hends : Ends next r c' k) :
      Ends next r c (k + 1)

/-- The second memory leaves every step that can be taken in the first as it is,
up to this result. -/
structure Stays (next next' : C → Next C R) (r : R) : Prop where
  go : ∀ c c', next c = .go c' → next' c = .go c'
  back : ∀ c, next c = .back r → next' c = .back r

variable {next next' : C → Next C R} {r : R} {c c' : C} {k : Nat}

theorem Ends.mono (hstays : Stays next next' r) (h : Ends next r c k) :
    Ends next' r c k := by
  induction h with
  | back h => exact .back (hstays.back _ h)
  | go h _ ih => exact .go (hstays.go _ _ h) ih

theorem Ends.of_go (h : Ends next r c k) (hgo : next c = .go c') :
    ∃ j, k = j + 1 ∧ Ends next r c' j := by
  cases h with
  | back hback =>
      rw [hgo] at hback
      cases hback
  | go h hends =>
      rw [hgo] at h
      cases h
      exact ⟨_, rfl, hends⟩

theorem Ends.of_back {r' : R} (h : Ends next r c k) (hback : next c = .back r') :
    r' = r := by
  cases h with
  | back h =>
      rw [hback] at h
      cases h
      rfl
  | go hgo _ =>
      rw [hback] at hgo
      cases hgo

theorem Ends.not_crash (h : Ends next r c k) : next c ≠ .crash := by
  intro hcrash
  cases h with
  | back h | go h _ =>
      rw [hcrash] at h
      cases h

/-- The end of a walk is the end of every walk that comes by. -/
theorem Ends.of_leads (hleads : Relation.ReflTransGen (Leads next) c c')
    (h : Ends next r c' k) : ∃ j, Ends next r c j := by
  induction hleads using Relation.ReflTransGen.head_induction_on with
  | refl => exact ⟨k, h⟩
  | head hstep _ ih =>
      obtain ⟨j, hj⟩ := ih
      exact ⟨j + 1, .go hstep hj⟩

end Walks

section Threads

variable {ι M C : Type*} [DecidableEq ι] {le : M → M → Prop} {P : M → C → Prop}

/-- What a thread knows is not undone by what the others do to the memory. -/
def Stable (le : M → M → Prop) (P : M → C → Prop) : Prop :=
  ∀ m m' c, le m m' → P m c → P m' c

/-- One thread takes a step: it has to see to itself only. -/
theorem Stable.update (hstable : Stable le P) {m m' : M} {threads : ι → C}
    (hle : le m m') (hall : ∀ i, P m (threads i)) {i : ι} {c : C} (hc : P m' c) :
    ∀ j, P m' (Function.update threads i c j) :=
  (Function.forall_update_iff threads _).mpr
    ⟨hc, fun j _ => hstable m m' (threads j) hle (hall j)⟩

end Threads

end Machine
