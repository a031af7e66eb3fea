import Lorica.Lib.Action

/-!
Traversals and their plans. A program that walks a structure and asks an
oracle about what it meets is compared with the list of its visits: the plan
is computed from the structure alone, and the oracle's answers, an exception
or a fault in the plan decide how the program ends.
-/

namespace Machine

/-- One step of a plan: a question to the oracle, an item that is passed by
without one, or the end of the walk. -/
inductive Step (ρ ε : Type) where
  | visit (item : ρ)
  | overlook (item : ρ)
  | stop (exception : ε)
  | crash (cause : Fault)

namespace Action

variable {σ τ ε ρ α β : Type}

/-- Ask the oracle about each item in turn; what is passed by counts as a no. -/
def sweep (look : ρ → Action σ ε Bool) : List (Step ρ ε) → Action σ ε (List Bool)
  | [] => pure []
  | .visit item :: rest => do
      let answer ← look item
      let answers ← sweep look rest
      pure (answer :: answers)
  | .overlook _ :: rest => do
      let answers ← sweep look rest
      pure (false :: answers)
  | .stop e :: _ => raise e
  | .crash cause :: _ => fail cause

/-- `x` ends as the plan does, with the oracle in the same state, and after a
return `Q` holds of the answers, the value and the state. -/
def Follows (look : ρ → Action σ ε Bool) (view : τ → σ) (P : τ → Prop)
    (x : Action τ ε α) (plan : List (Step ρ ε)) (Q : List Bool → α → τ → Prop) : Prop :=
  ∀ s, P s →
    match (sweep look plan).run (view s) with
    | (.ok answers, m) => ∃ a s', x.run s = (.ok a, s') ∧ view s' = m ∧ Q answers a s'
    | (.raised e, m) => ∃ s', x.run s = (.raised e, s') ∧ view s' = m
    | (.fault cause, m) => ∃ s', x.run s = (.fault cause, s') ∧ view s' = m

variable {look : ρ → Action σ ε Bool} {view : τ → σ} {P P' : τ → Prop}
  {x : Action τ ε α} {plan plan' : List (Step ρ ε)} {Q Q' : List Bool → α → τ → Prop}

theorem run_sweep_append (plan plan' : List (Step ρ ε)) (s : σ) :
    (sweep look (plan ++ plan')).run s =
      (sweep look plan >>= fun answers =>
        sweep look plan' >>= fun answers' => pure (answers ++ answers')).run s := by
  induction plan generalizing s with
  | nil =>
      simp only [List.nil_append, sweep]
      rw [run_bind_ok (run_pure _ _), run_bind]
      cases (sweep look plan').run s with
      | mk outcome m => cases outcome <;> rfl
  | cons step rest ih =>
      cases step with
      | visit item =>
          simp only [List.cons_append, sweep, run_bind]
          cases hlook : (look item).run s with
          | mk outcome m =>
              cases outcome with
              | ok answer =>
                  simp only [ih m, run_bind]
                  cases (sweep look rest).run m with
                  | mk outcome m =>
                      cases outcome with
                      | ok answers =>
                          simp only [run_pure]
                          cases (sweep look plan').run m with
                          | mk outcome m => cases outcome <;> rfl
                      | raised e => rfl
                      | fault cause => rfl
              | raised e => rfl
              | fault cause => rfl
      | overlook item =>
          simp only [List.cons_append, sweep, run_bind, ih s]
          cases (sweep look rest).run s with
          | mk outcome m =>
              cases outcome with
              | ok answers =>
                  simp only [run_pure]
                  cases (sweep look plan').run m with
                  | mk outcome m => cases outcome <;> rfl
              | raised e => rfl
              | fault cause => rfl
      | stop e => rfl
      | crash cause => rfl

/-- Items passed by are answered with no, whatever the oracle. -/
theorem run_sweep_overlook (items : List ρ) (s : σ) :
    (sweep look (items.map Step.overlook)).run s =
      (.ok (items.map fun _ => false), s) := by
  induction items with
  | nil => rfl
  | cons item rest ih =>
      simp only [List.map_cons, sweep]
      rw [run_bind_ok ih]
      rfl

/-- A walk meets a fault that is in its plan or one of the oracle's. -/
theorem sweep_no_fault {cause : Fault} (hplan : .crash cause ∉ plan)
    (hlook : ∀ item s, ((look item).run s).1 ≠ .fault cause) (s : σ) :
    ((sweep look plan).run s).1 ≠ .fault cause := by
  induction plan generalizing s with
  | nil => exact fun h => by cases h
  | cons step rest ih =>
      rw [List.mem_cons, not_or] at hplan
      have hreturn : ∀ (b : Bool) s, ((sweep look rest >>= fun answers =>
          Pure.pure (b :: answers)).run s).1 ≠ .fault cause := fun b s =>
        run_bind_no_fault (ih hplan.2 s) fun _ _ _ h => by cases h
      cases step with
      | visit item =>
          exact run_bind_no_fault (hlook item s) fun answer s' _ => hreturn answer s'
      | overlook item => exact hreturn false s
      | stop e => exact fun h => by cases h
      | crash cause' =>
          intro h
          exact hplan.1 (by cases h; rfl)

namespace Follows

theorem pure {a : α} (h : ∀ s, P s → Q [] a s) :
    Follows look view P (Pure.pure a) [] Q :=
  fun s hs => ⟨a, s, rfl, rfl, h s hs⟩

theorem modify {f : τ → τ} {Q : List Bool → Unit → τ → Prop}
    (hview : ∀ s, view (f s) = view s) (h : ∀ s, P s → Q [] () (f s)) :
    Follows look view P (Action.modify f) [] Q :=
  fun s hs => ⟨(), f s, rfl, hview s, h s hs⟩

theorem raise {e : ε} : Follows look view P (Action.raise e) (.stop e :: plan) Q :=
  fun s _ => ⟨s, rfl, rfl⟩

theorem fail {cause : Fault} :
    Follows look view P (Action.fail cause) (.crash cause :: plan) Q :=
  fun s _ => ⟨s, rfl, rfl⟩

/-- A return that passes items by. -/
theorem overlook {a : α} (items : List ρ)
    (h : ∀ s, P s → Q (items.map fun _ => false) a s) :
    Follows look view P (Pure.pure a) (items.map Step.overlook) Q := by
  intro s hs
  rw [run_sweep_overlook]
  exact ⟨a, s, rfl, rfl, h s hs⟩

/-- What follows a plan meets a fault that is in the plan or one of the
oracle's. -/
theorem no_fault {cause : Fault} (h : Follows look view P x plan Q)
    (hplan : .crash cause ∉ plan)
    (hlook : ∀ item s, ((look item).run s).1 ≠ .fault cause) {s : τ} (hs : P s) :
    (x.run s).1 ≠ .fault cause := by
  have hrun := h s hs
  have hsweep := sweep_no_fault hplan hlook (view s)
  cases hend : (sweep look plan).run (view s) with
  | mk outcome m =>
      rw [hend] at hrun hsweep
      cases outcome with
      | ok answers =>
          obtain ⟨a, s', hx, -⟩ := hrun
          simp [hx]
      | raised e =>
          obtain ⟨s', hx, -⟩ := hrun
          simp [hx]
      | fault cause' =>
          obtain ⟨s', hx, -⟩ := hrun
          rw [hx]
          exact fun h => hsweep (by cases h; rfl)

theorem weaken (h : Follows look view P' x plan Q') (hP : ∀ s, P s → P' s)
    (hQ : ∀ answers a s, Q' answers a s → Q answers a s) :
    Follows look view P x plan Q := by
  intro s hs
  have hrun := h s (hP s hs)
  split at hrun
  · obtain ⟨a, s', hx, hm, hq⟩ := hrun
    exact ⟨a, s', hx, hm, hQ _ _ _ hq⟩
  · exact hrun
  · exact hrun

/-- A precondition that does not speak of the state is a hypothesis. -/
theorem assuming {A : Prop} (h : A → Follows look view (fun _ => True) x plan Q) :
    Follows look view (fun _ => A) x plan Q :=
  fun s hA => h hA s trivial

theorem assumingAnd {A : Prop} (h : A → Follows look view P x plan Q) :
    Follows look view (fun s => A ∧ P s) x plan Q :=
  fun s hs => h hs.1 s hs.2

/-- A precondition that leaves something open. -/
theorem opening {κ : Type*} {P : κ → τ → Prop}
    (h : ∀ y, Follows look view (P y) x plan Q) :
    Follows look view (fun s => ∃ y, P y s) x plan Q :=
  fun s ⟨y, hs⟩ => h y s hs

/-- One program after the other follows one plan after the other. -/
theorem bind {f : α → Action τ ε β} {R : List Bool → β → τ → Prop}
    (hx : Follows look view P x plan Q)
    (hf : ∀ answers a, Follows look view (Q answers a) (f a) plan'
      fun answers' b s => R (answers ++ answers') b s) :
    Follows look view P (x >>= f) (plan ++ plan') R := by
  intro s hs
  have hfirst := hx s hs
  rw [run_sweep_append, run_bind (sweep look plan)]
  cases hplan : (sweep look plan).run (view s) with
  | mk outcome m =>
      rw [hplan] at hfirst
      cases outcome with
      | ok answers =>
          obtain ⟨a, s', hrun, rfl, hq⟩ := hfirst
          have hsecond := hf answers a s' hq
          rw [run_bind_ok hrun]
          dsimp only
          rw [run_bind]
          cases hplan' : (sweep look plan').run (view s') with
          | mk outcome' m' =>
              rw [hplan'] at hsecond
              cases outcome' with
              | ok answers' => exact hsecond
              | raised e => exact hsecond
              | fault cause => exact hsecond
      | raised e =>
          obtain ⟨s', hrun, hm⟩ := hfirst
          exact ⟨s', run_bind_raised hrun f, hm⟩
      | fault cause =>
          obtain ⟨s', hrun, hm⟩ := hfirst
          exact ⟨s', run_bind_fault hrun f, hm⟩

/-- A first command that asks nothing. -/
theorem silent {f : α → Action τ ε β} {R : List Bool → β → τ → Prop}
    (hx : Follows look view P x [] Q)
    (hf : ∀ a, Follows look view (Q [] a) (f a) plan' R) :
    Follows look view P (x >>= f) plan' R := by
  intro s hs
  obtain ⟨a, s', hrun, hm, hq⟩ := hx s hs
  have hrest := hf a s' hq
  rw [run_bind_ok hrun, ← show view s' = view s from hm]
  exact hrest

/-- A first command that changes a part of the state the oracle does not see. -/
theorem modifyThen {M : τ → Prop} {g : τ → τ} (hview : ∀ s, view (g s) = view s)
    (hg : ∀ s, P s → M (g s)) (hx : Follows look view M x plan Q) :
    Follows look view P (Action.modify g >>= fun _ => x) plan Q := by
  intro s hs
  have hrest := hx (g s) (hg s hs)
  rw [hview] at hrest
  exact hrest

/-- A first command that crashes. -/
theorem crash {f : α → Action τ ε β} {R : List Bool → β → τ → Prop} {cause : Fault}
    (hx : Follows look view P x [.crash cause] fun _ _ _ => False) :
    Follows look view P (x >>= f) (.crash cause :: plan') R :=
  hx.bind fun _ _ _ h => h.elim

theorem raiseThen {f : α → Action τ ε β} {R : List Bool → β → τ → Prop} {e : ε} :
    Follows look view P (Action.raise e >>= f) (.stop e :: plan) R :=
  fun s _ => ⟨s, rfl, rfl⟩

theorem valueThen {f : α → Action τ ε β} {R : List Bool → β → τ → Prop} {a : α}
    (h : Follows look view P (f a) plan R) :
    Follows look view P (Action.ofExcept (.ok a) >>= f) plan R :=
  fun s hs => h s hs

theorem faultThen {f : α → Action τ ε β} {R : List Bool → β → τ → Prop} {cause : Fault} :
    Follows look view P (Action.ofExcept (.error cause) >>= f) (.crash cause :: plan) R :=
  fun s _ => ⟨s, rfl, rfl⟩

/-- A return of something computed from the value. -/
theorem andReturn {g : α → β} {R : List Bool → β → τ → Prop}
    (hx : Follows look view P x plan Q)
    (h : ∀ answers a s, Q answers a s → R answers (g a) s) :
    Follows look view P (x >>= fun a => Pure.pure (g a)) plan R := by
  intro s hs
  have hrun := hx s hs
  split at hrun
  · obtain ⟨a, s', hx, hm, hq⟩ := hrun
    exact ⟨g a, s', run_bind_ok hx _, hm, h _ _ _ hq⟩
  · obtain ⟨s', hx, hm⟩ := hrun
    exact ⟨s', run_bind_raised hx _, hm⟩
  · obtain ⟨s', hx, hm⟩ := hrun
    exact ⟨s', run_bind_fault hx _, hm⟩

/-- A last command that changes a part of the state the oracle does not see. -/
theorem andModify {g : α → τ → τ} {R : List Bool → Unit → τ → Prop}
    (hx : Follows look view P x plan Q) (hview : ∀ a s, view (g a s) = view s)
    (h : ∀ answers a s, Q answers a s → R answers () (g a s)) :
    Follows look view P (x >>= fun a => Action.modify (g a)) plan R := by
  intro s hs
  have hrun := hx s hs
  split at hrun
  · obtain ⟨a, s', hx, hm, hq⟩ := hrun
    exact ⟨(), g a s', run_bind_ok hx _, (hview a s').trans hm, h _ _ _ hq⟩
  · obtain ⟨s', hx, hm⟩ := hrun
    exact ⟨s', run_bind_raised hx _, hm⟩
  · obtain ⟨s', hx, hm⟩ := hrun
    exact ⟨s', run_bind_fault hx _, hm⟩

/-- A read of the state. -/
theorem get {f : τ → Action τ ε α}
    (h : ∀ s, P s → Follows look view (fun s' => s' = s) (f s) plan Q) :
    Follows look view P (Action.get >>= f) plan Q :=
  fun s hs => h s hs s rfl

/-- A program on the oracle's state, run inside a larger one. -/
theorem zoom {put : τ → σ → τ} {x : Action σ ε α} {Q : List Bool → α → Prop}
    (h : Follows look id (fun _ => True) x plan fun answers a _ => Q answers a)
    (hput : ∀ s m, view (put s m) = m) :
    Follows look view P (Action.zoom view put x) plan
      fun answers a s' => Q answers a ∧ ∃ s m, P s ∧ s' = put s m := by
  intro s hs
  have hrun := h (view s) trivial
  simp only [run_zoom]
  simp only [id] at hrun
  split at hrun
  · obtain ⟨a, m, hx, rfl, hq⟩ := hrun
    rw [hx]
    exact ⟨a, _, rfl, hput s m, hq, s, m, hs, rfl⟩
  · obtain ⟨m, hx, rfl⟩ := hrun
    rw [hx]
    exact ⟨_, rfl, hput s m⟩
  · obtain ⟨m, hx, rfl⟩ := hrun
    rw [hx]
    exact ⟨_, rfl, hput s m⟩

end Follows

end Action

end Machine
