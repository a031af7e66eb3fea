import Mathlib.Tactic

/-!
Labelled transition systems and their runs. The step function is executable
and a label carries every choice the environment makes, so a concrete run can
be replayed. A guard restricts which steps a run may take: a statement about
every run whose steps all meet a condition is a statement about `Reach` under
that guard.
-/

namespace Machine

structure System (S L : Type*) where
  init : S → Prop
  step : S → L → Option S

namespace System

variable {S L : Type*}

/-- States reached by a run whose every step meets the guard. -/
inductive Reach (sys : System S L) (guard : S → L → Prop) : S → Prop where
  | start {s : S} (h : sys.init s) : Reach sys guard s
  | next {s s' : S} {label : L} (h : Reach sys guard s)
      (hguard : guard s label) (hstep : sys.step s label = some s') :
      Reach sys guard s'

/-- States reached by any run at all. -/
def Reachable (sys : System S L) : S → Prop :=
  sys.Reach (fun _ _ => True)

/-- Replay of a list of labels; `none` when one of them is not enabled or
misses the guard. -/
def replay (sys : System S L) (guard : S → L → Prop)
    [∀ s label, Decidable (guard s label)] : S → List L → Option S
  | s, [] => some s
  | s, label :: rest =>
      if guard s label then
        (sys.step s label).bind fun s' => replay sys guard s' rest
      else none

variable {sys : System S L} {guard : S → L → Prop}

/-- The invariant rule: what holds at the start and is kept by every guarded
step holds in every state of every guarded run. -/
theorem Reach.invariant {I : S → Prop} (hinit : ∀ s, sys.init s → I s)
    (hstep : ∀ s label s', I s → guard s label →
      sys.step s label = some s' → I s')
    {s : S} (h : sys.Reach guard s) : I s := by
  induction h with
  | start h => exact hinit _ h
  | next _ hguard hs ih => exact hstep _ _ _ ih hguard hs

theorem Reach.mono {guard' : S → L → Prop} {s : S} (h : sys.Reach guard s)
    (hguard : ∀ s label, guard s label → guard' s label) :
    sys.Reach guard' s := by
  induction h with
  | start h => exact .start h
  | next _ hg hs ih => exact .next ih (hguard _ _ hg) hs

/-- The runs that go on from a state. -/
def restart (sys : System S L) (s : S) : System S L :=
  { sys with init := (· = s) }

/-- What a run from a reached state reaches is reached. -/
theorem Reach.trans {s s' : S} (h : sys.Reach guard s)
    (h' : (sys.restart s).Reach guard s') : sys.Reach guard s' := by
  induction h' with
  | start hstart => exact hstart ▸ h
  | next _ hguard hstep ih => exact .next ih hguard hstep

section Replay

variable [∀ s label, Decidable (guard s label)]

/-- Replaying from a reached state ends in a reached state. -/
theorem Reach.of_replay {s s' : S} (hs : sys.Reach guard s) (labels : List L)
    (h : sys.replay guard s labels = some s') : sys.Reach guard s' := by
  induction labels generalizing s with
  | nil =>
      simp only [replay, Option.some.injEq] at h
      exact h ▸ hs
  | cons label rest ih =>
      obtain ⟨hguard, h⟩ := Option.ite_none_right_eq_some.mp h
      obtain ⟨middle, hstep, hrest⟩ := Option.bind_eq_some_iff.mp h
      exact ih (.next hs hguard hstep) hrest

/-- What a replay ends with can be read off by evaluation. -/
theorem replay_read {α : Type*} {s s' : S} {labels : List L} (f : S → α) {a : α}
    (h : sys.replay guard s labels = some s')
    (hread : (sys.replay guard s labels).map f = some a) : f s' = a := by
  rw [h] at hread
  exact Option.some.inj hread

/-- What every step relates is related by a whole replay. -/
theorem replay_relates {I : S → Prop} {R : S → S → Prop} [Std.Refl R] [IsTrans S R]
    (hkeep : ∀ s label s', I s → guard s label → sys.step s label = some s' → I s')
    (hstep : ∀ s label s', I s → guard s label → sys.step s label = some s' → R s s')
    {s s' : S} {labels : List L} (hs : I s) (h : sys.replay guard s labels = some s') :
    I s' ∧ R s s' := by
  induction labels generalizing s with
  | nil =>
      simp only [replay, Option.some.injEq] at h
      exact h ▸ ⟨hs, refl_of R s⟩
  | cons label rest ih =>
      obtain ⟨hguard, h⟩ := Option.ite_none_right_eq_some.mp h
      obtain ⟨middle, hone, hrest⟩ := Option.bind_eq_some_iff.mp h
      obtain ⟨hend, hrelated⟩ := ih (hkeep s label middle hs hguard hone) hrest
      exact ⟨hend, trans_of R (hstep s label middle hs hguard hone) hrelated⟩

/-- The rank rule: steps of one kind that lower a rank, among steps that do not
raise it, are no more than the rank. -/
theorem countP_le_rank {I : S → Prop} (own : L → Bool) (rank : S → Nat)
    (hkeep : ∀ s label s', I s → guard s label → sys.step s label = some s' → I s')
    (hown : ∀ s label s', I s → guard s label → own label = true →
      sys.step s label = some s' → rank s' < rank s)
    (haside : ∀ s label s', I s → guard s label → own label = false →
      sys.step s label = some s' → rank s' ≤ rank s)
    {s s' : S} {labels : List L} (hs : I s) (h : sys.replay guard s labels = some s') :
    labels.countP own + rank s' ≤ rank s := by
  induction labels generalizing s with
  | nil =>
      simp only [replay, Option.some.injEq] at h
      rw [h, List.countP_nil, Nat.zero_add]
  | cons label rest ih =>
      obtain ⟨hguard, h⟩ := Option.ite_none_right_eq_some.mp h
      obtain ⟨middle, hstep, hrest⟩ := Option.bind_eq_some_iff.mp h
      have htail := ih (hkeep s label middle hs hguard hstep) hrest
      cases hlabel : own label with
      | true =>
          have hless := hown s label middle hs hguard hlabel hstep
          rw [List.countP_cons_of_pos hlabel]
          omega
      | false =>
          have hle := haside s label middle hs hguard hlabel hstep
          rw [List.countP_cons_of_neg (by simp [hlabel])]
          omega

/-- The greatest value of a measure in the states of a run. -/
def peak (sys : System S L) (measure : S → Nat) : S → List L → Nat
  | s, [] => measure s
  | s, label :: rest =>
      max (measure s) (((sys.step s label).map fun s' => peak sys measure s' rest).getD 0)

theorem measure_le_peak (measure : S → Nat) (s : S) (labels : List L) :
    measure s ≤ sys.peak measure s labels := by
  cases labels with
  | nil => exact le_rfl
  | cons label rest => exact le_max_left _ _

/-- A mark that every step raises to the measure, and no further, ends at the
peak. The step rule may use that the measure stays within a bound. -/
theorem mark_eq_peak {I : S → Prop} (mark measure : S → Nat) {bound : Nat}
    (hstep : ∀ s label s', I s → sys.step s label = some s' → measure s' ≤ bound →
      I s' ∧ mark s' = max (mark s) (measure s'))
    {s s' : S} {labels : List L} (hs : I s) (hmark : measure s ≤ mark s)
    (h : sys.replay guard s labels = some s')
    (hbound : sys.peak measure s labels ≤ bound) :
    I s' ∧ mark s' = max (mark s) (sys.peak measure s labels) := by
  induction labels generalizing s with
  | nil =>
      simp only [replay, Option.some.injEq] at h
      obtain rfl := h
      exact ⟨hs, (max_eq_left hmark).symm⟩
  | cons label rest ih =>
      obtain ⟨-, h⟩ := Option.ite_none_right_eq_some.mp h
      obtain ⟨middle, hone, hrest⟩ := Option.bind_eq_some_iff.mp h
      have hpeak : sys.peak measure s (label :: rest) =
          max (measure s) (sys.peak measure middle rest) := by
        rw [peak, hone]
        rfl
      rw [hpeak] at hbound ⊢
      have htail := (le_max_right _ _).trans hbound
      have hfirst : measure middle ≤ sys.peak measure middle rest :=
        measure_le_peak measure middle rest
      obtain ⟨hmiddle, hraised⟩ := hstep s label middle hs hone (hfirst.trans htail)
      obtain ⟨hend, hlast⟩ := ih hmiddle (hraised ▸ le_max_right _ _) hrest htail
      refine ⟨hend, ?_⟩
      rw [hlast, hraised]
      omega

end Replay

end System

end Machine
