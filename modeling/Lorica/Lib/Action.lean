import Mathlib.Tactic

/-!
Imperative programs as state transformers with three ways to end: a value,
an exception of the host language, or a fault. A fault stands for undefined
behaviour (a null or dangling pointer, a read past a buffer, a failed
assertion, an exhausted stack). A handler catches exceptions and never a
fault, and the effects made before a raise stay in the state.
-/

namespace Machine

inductive Fault where
  | nullDereference
  | danglingPointer
  | outOfBounds
  | assertionFailed
  | stackExhausted
deriving DecidableEq, Repr

inductive Outcome (ε α : Type) where
  | ok (value : α)
  | raised (exception : ε)
  | fault (cause : Fault)
deriving DecidableEq, Repr

/-- What comes to an end has come through its first part. -/
theorem ok_of_bind {ε α β : Type} {x : Except ε α} {f : α → Except ε β} {b : β}
    (h : x >>= f = .ok b) : ∃ a, x = .ok a ∧ f a = .ok b := by
  cases x with
  | error e => cases h
  | ok a => exact ⟨a, rfl, h⟩

theorem ok_of_map {ε α β : Type} {x : Except ε α} {f : α → β} {b : β}
    (h : x.map f = .ok b) : ∃ a, x = .ok a ∧ f a = b := by
  cases x with
  | error e => cases h
  | ok a => exact ⟨a, rfl, Except.ok.inj h⟩

structure Action (σ ε α : Type) where
  run : σ → Outcome ε α × σ

namespace Action

variable {σ ε α β : Type}

/-- Sequencing stops at the first raise or fault and keeps the state reached
there. -/
def andThen (x : Action σ ε α) (f : α → Action σ ε β) : Action σ ε β :=
  ⟨fun s =>
    match x.run s with
    | (.ok a, s') => (f a).run s'
    | (.raised e, s') => (.raised e, s')
    | (.fault cause, s') => (.fault cause, s')⟩

instance : Monad (Action σ ε) where
  pure a := ⟨fun s => (.ok a, s)⟩
  bind := andThen

theorem ext_run {x y : Action σ ε α} (h : ∀ s, x.run s = y.run s) : x = y :=
  congrArg Action.mk (funext h)

instance : LawfulMonad (Action σ ε) := by
  refine LawfulMonad.mk' _ ?_ ?_ ?_
  · intro α x
    refine ext_run fun s => ?_
    change (x.andThen pure).run s = x.run s
    unfold andThen
    rcases hx : x.run s with ⟨_ | _ | _, s'⟩
    · simp only [hx]
      rfl
    · simp only [hx]
    · simp only [hx]
  · exact fun a f => rfl
  · intro α β γ x f g
    refine ext_run fun s => ?_
    change ((x.andThen f).andThen g).run s = (x.andThen fun a => (f a).andThen g).run s
    unfold andThen
    rcases hx : x.run s with ⟨_ | _ | _, s'⟩ <;> simp only [hx]

def raise (e : ε) : Action σ ε α := ⟨fun s => (.raised e, s)⟩

def fail (cause : Fault) : Action σ ε α := ⟨fun s => (.fault cause, s)⟩

def get : Action σ ε σ := ⟨fun s => (.ok s, s)⟩

def modify (f : σ → σ) : Action σ ε Unit := ⟨fun s => (.ok (), f s)⟩

/-- A value, or the fault that computing it ran into. -/
def ofExcept (x : Except Fault α) : Action σ ε α :=
  match x with
  | .ok a => pure a
  | .error cause => fail cause

/-- `try { x } catch (e) { handler e }`: the handler starts in the state the
raise left behind. -/
def tryCatch (x : Action σ ε α) (handler : ε → Action σ ε α) : Action σ ε α :=
  ⟨fun s =>
    match x.run s with
    | (.ok a, s') => (.ok a, s')
    | (.raised e, s') => (handler e).run s'
    | (.fault cause, s') => (.fault cause, s')⟩

/-- `x` in the scope of a variable with a destructor, which runs after a
return and after a raise. -/
def inScope (x : Action σ ε α) (destructor : Action σ ε Unit) : Action σ ε α :=
  ⟨fun s =>
    match x.run s with
    | (.ok a, s') => (destructor.andThen fun _ => ⟨fun s => (.ok a, s)⟩).run s'
    | (.raised e, s') => (destructor.andThen fun _ => ⟨fun s => (.raised e, s)⟩).run s'
    | (.fault cause, s') => (.fault cause, s')⟩

/-- Run an action on a part of the state. -/
def zoom {τ : Type} (part : σ → τ) (put : σ → τ → σ) (x : Action τ ε α) :
    Action σ ε α :=
  ⟨fun s => ((x.run (part s)).1, put s (x.run (part s)).2)⟩

@[simp] theorem run_pure (a : α) (s : σ) :
    (pure a : Action σ ε α).run s = (.ok a, s) := rfl

@[simp] theorem run_raise (e : ε) (s : σ) :
    (raise e : Action σ ε α).run s = (.raised e, s) := rfl

@[simp] theorem run_fail (cause : Fault) (s : σ) :
    (fail cause : Action σ ε α).run s = (.fault cause, s) := rfl

@[simp] theorem run_get (s : σ) : (get : Action σ ε σ).run s = (.ok s, s) := rfl

@[simp] theorem run_modify (f : σ → σ) (s : σ) :
    (modify f : Action σ ε Unit).run s = (.ok (), f s) := rfl

@[simp] theorem run_ofExcept_ok (a : α) (s : σ) :
    (ofExcept (.ok a) : Action σ ε α).run s = (.ok a, s) := rfl

@[simp] theorem run_ofExcept_error (cause : Fault) (s : σ) :
    (ofExcept (.error cause) : Action σ ε α).run s = (.fault cause, s) := rfl

@[simp] theorem run_zoom {τ : Type} (part : σ → τ) (put : σ → τ → σ)
    (x : Action τ ε α) (s : σ) :
    (zoom part put x).run s =
      ((x.run (part s)).1, put s (x.run (part s)).2) := rfl

theorem run_bind (x : Action σ ε α) (f : α → Action σ ε β) (s : σ) :
    (x >>= f).run s =
      match x.run s with
      | (.ok a, s') => (f a).run s'
      | (.raised e, s') => (.raised e, s')
      | (.fault cause, s') => (.fault cause, s') := rfl

/-- The step rule for symbolic execution: a first command that returns hands
its value and its state to the rest. -/
theorem run_bind_ok {x : Action σ ε α} {s s' : σ} {a : α}
    (h : x.run s = (.ok a, s')) (f : α → Action σ ε β) :
    (x >>= f).run s = (f a).run s' := by
  rw [run_bind, h]

theorem run_bind_raised {x : Action σ ε α} {s s' : σ} {e : ε}
    (h : x.run s = (.raised e, s')) (f : α → Action σ ε β) :
    (x >>= f).run s = (.raised e, s') := by
  rw [run_bind, h]

theorem run_bind_fault {x : Action σ ε α} {s s' : σ} {cause : Fault}
    (h : x.run s = (.fault cause, s')) (f : α → Action σ ε β) :
    (x >>= f).run s = (.fault cause, s') := by
  rw [run_bind, h]

/-- Commands in sequence meet no fault that none of them meets. -/
theorem run_bind_no_fault {x : Action σ ε α} {f : α → Action σ ε β} {s : σ} {cause : Fault}
    (hx : (x.run s).1 ≠ .fault cause)
    (hf : ∀ a s', x.run s = (.ok a, s') → ((f a).run s').1 ≠ .fault cause) :
    ((x >>= f).run s).1 ≠ .fault cause := by
  rw [run_bind]
  cases hrun : x.run s with
  | mk outcome s' =>
      rw [hrun] at hx
      cases outcome with
      | ok a => exact hf a s' hrun
      | raised e => exact fun h => by cases h
      | fault cause' => exact fun h => hx (by cases h; rfl)

theorem run_tryCatch (x : Action σ ε α) (handler : ε → Action σ ε α) (s : σ) :
    (tryCatch x handler).run s =
      match x.run s with
      | (.ok a, s') => (.ok a, s')
      | (.raised e, s') => (handler e).run s'
      | (.fault cause, s') => (.fault cause, s') := rfl

section Triples

/-- Partial correctness: from a state with `P` a return ends in `Q` and a
raise in `E`. A fault ends the program and is not spoken of. -/
def Triple (P : σ → Prop) (x : Action σ ε α) (Q : α → σ → Prop)
    (E : σ → Prop) : Prop :=
  ∀ s, P s →
    match x.run s with
    | (.ok a, s') => Q a s'
    | (.raised _, s') => E s'
    | (.fault _, _) => True

variable {P P' E E' : σ → Prop} {Q Q' : α → σ → Prop} {R : β → σ → Prop}

theorem Triple.pure {a : α} (h : ∀ s, P s → Q a s) :
    Triple P (pure a : Action σ ε α) Q E := h

theorem Triple.raise {e : ε} (h : ∀ s, P s → E s) :
    Triple P (raise e : Action σ ε α) Q E := h

theorem Triple.fail {cause : Fault} :
    Triple P (fail cause : Action σ ε α) Q E := fun _ _ => trivial

theorem Triple.modify {f : σ → σ} {Q : Unit → σ → Prop}
    (h : ∀ s, P s → Q () (f s)) :
    Triple P (modify f : Action σ ε Unit) Q E := h

/-- The state read is the state the rest starts in. -/
theorem Triple.get {f : σ → Action σ ε β}
    (h : ∀ s, P s → Triple (fun s' => s' = s) (f s) R E) :
    Triple P (get >>= f) R E := fun s hs => h s hs s rfl

theorem Triple.bind {x : Action σ ε α} {f : α → Action σ ε β}
    (hx : Triple P x Q E) (hf : ∀ a, Triple (Q a) (f a) R E) :
    Triple P (x >>= f) R E := by
  intro s hs
  have hfirst := hx s hs
  rw [run_bind]
  split at hfirst
  · next a s' _ => exact hf a s' hfirst
  · exact hfirst
  · trivial

theorem Triple.weaken {x : Action σ ε α} (h : Triple P' x Q' E')
    (hP : ∀ s, P s → P' s) (hQ : ∀ a s, Q' a s → Q a s)
    (hE : ∀ s, E' s → E s) : Triple P x Q E := by
  intro s hs
  have hrun := h s (hP s hs)
  split at hrun
  · next a s' heq => exact hQ a s' hrun
  · next e s' heq => exact hE s' hrun
  · trivial

/-- The destructor restores what holds outside the scope. -/
theorem Triple.inScope {M : α → σ → Prop} {F : σ → Prop} {x : Action σ ε α}
    {destructor : Action σ ε Unit} (hx : Triple P x M F)
    (hok : ∀ a, Triple (M a) destructor (fun _ => Q a) E)
    (hraised : Triple F destructor (fun _ => E) E) :
    Triple P (inScope x destructor) Q E := by
  intro s hs
  have hbody := hx s hs
  unfold Action.inScope
  split at hbody
  · next a s' hrun =>
      have hdone : Triple (M a) (destructor >>= fun _ => Pure.pure a) Q E :=
        (hok a).bind fun _ => Triple.pure fun _ h => h
      simp only [hrun]
      exact hdone s' hbody
  · next e s' hrun =>
      have hdone : Triple F (destructor >>= fun _ => Action.raise e) Q E :=
        hraised.bind fun _ => Triple.raise fun _ h => h
      simp only [hrun]
      exact hdone s' hbody
  · next cause s' hrun =>
      simp only [hrun]

end Triples

section Keeping

/-- A property that a command keeps, whether it returns or raises. -/
def Keeps (I : σ → Prop) (x : Action σ ε α) : Prop :=
  Triple I x (fun _ => I) I

variable {I : σ → Prop}

theorem Keeps.pure (a : α) : Keeps I (pure a : Action σ ε α) := fun _ h => h

theorem Keeps.raise (e : ε) : Keeps I (raise e : Action σ ε α) := fun _ h => h

theorem Keeps.fail (cause : Fault) : Keeps I (fail cause : Action σ ε α) :=
  fun _ _ => trivial

theorem Keeps.get : Keeps I (get : Action σ ε σ) := fun _ h => h

theorem Keeps.modify {f : σ → σ} (h : ∀ s, I s → I (f s)) :
    Keeps I (modify f : Action σ ε Unit) := h

theorem Keeps.ofExcept (x : Except Fault α) : Keeps I (ofExcept x : Action σ ε α) := by
  cases x with
  | ok a => exact Keeps.pure a
  | error cause => exact Keeps.fail cause

theorem Keeps.bind {x : Action σ ε α} {f : α → Action σ ε β} (hx : Keeps I x)
    (hf : ∀ a, Keeps I (f a)) : Keeps I (x >>= f) :=
  Triple.bind hx hf

/-- A command on a part of the state, which the property does not look at. -/
theorem Keeps.zoom {τ : Type} {part : σ → τ} {put : σ → τ → σ} (x : Action τ ε α)
    (h : ∀ s t, I s → I (put s t)) : Keeps I (zoom part put x) := by
  intro s hs
  rw [run_zoom]
  cases (x.run (part s)).1 with
  | ok a => exact h s _ hs
  | raised e => exact h s _ hs
  | fault cause => trivial

/-- A command on a part of the state, and a property of that part. -/
theorem Keeps.onPart {τ : Type} {part : σ → τ} {put : σ → τ → σ} {J : τ → Prop}
    {x : Action τ ε α} (hx : Keeps J x) (hput : ∀ s t, part (put s t) = t) :
    Keeps (fun s => J (part s)) (Action.zoom part put x) := by
  intro s hs
  have hpost := hx (part s) hs
  rw [run_zoom]
  cases hrun : x.run (part s) with
  | mk outcome t =>
      rw [hrun] at hpost
      cases outcome with
      | ok a => exact (congrArg J (hput s t)).mpr hpost
      | raised e => exact (congrArg J (hput s t)).mpr hpost
      | fault cause => trivial

theorem Keeps.and {J : σ → Prop} {x : Action σ ε α} (hI : Keeps I x) (hJ : Keeps J x) :
    Keeps (fun s => I s ∧ J s) x := by
  rintro s ⟨hi, hj⟩
  have hleft := hI s hi
  have hright := hJ s hj
  cases hrun : x.run s with
  | mk outcome s' =>
      rw [hrun] at hleft hright
      cases outcome with
      | ok a => exact ⟨hleft, hright⟩
      | raised e => exact ⟨hleft, hright⟩
      | fault cause => trivial

/-- The state a command ends in, unless it faults. -/
theorem Keeps.run {x : Action σ ε α} (hx : Keeps I x) {s s' : σ} {outcome : Outcome ε α}
    (hs : I s) (hrun : x.run s = (outcome, s')) (hend : ∀ cause, outcome ≠ .fault cause) :
    I s' := by
  have hpost := hx s hs
  rw [hrun] at hpost
  cases outcome with
  | ok a => exact hpost
  | raised e => exact hpost
  | fault cause => exact absurd rfl (hend cause)

end Keeping

/-- A scope whose body returns and whose destructor does. -/
theorem run_inScope_ok {x : Action σ ε α} {destructor : Action σ ε Unit} {s s' s'' : σ} {a : α}
    (hx : x.run s = (.ok a, s')) (hdestructor : destructor.run s' = (.ok (), s'')) :
    (inScope x destructor).run s = (.ok a, s'') := by
  unfold inScope
  simp only [hx]
  change (destructor >>= fun _ => _).run s' = _
  rw [run_bind_ok hdestructor]

section Zooming

variable {τ : Type} {part : σ → τ} {put : σ → τ → σ}

/-- What is put and read again is the part; putting twice is putting once. -/
structure Lens (part : σ → τ) (put : σ → τ → σ) : Prop where
  read_put : ∀ s t, part (put s t) = t
  put_read : ∀ s, put s (part s) = s
  put_put : ∀ s t t', put (put s t) t' = put s t'

theorem zoom_pure (h : Lens part put) (a : α) :
    zoom part put (pure a : Action τ ε α) = pure a := by
  apply congrArg mk
  funext s
  rw [run_pure]
  exact congrArg (Prod.mk _) (h.put_read s)

theorem zoom_bind (h : Lens part put) (x : Action τ ε α) (f : α → Action τ ε β) :
    zoom part put (x >>= f) = zoom part put x >>= fun a => zoom part put (f a) := by
  apply congrArg mk
  funext s
  rw [run_bind, run_zoom]
  cases x.run (part s) with
  | mk outcome t =>
      cases outcome with
      | ok a => simp only [run_zoom, h.read_put, h.put_put]
      | raised e => rfl
      | fault cause => rfl

theorem zoom_inScope (h : Lens part put) (x : Action τ ε α) (destructor : Action τ ε Unit) :
    zoom part put (inScope x destructor) =
      inScope (zoom part put x) (zoom part put destructor) := by
  apply congrArg mk
  funext s
  unfold inScope
  simp only [run_zoom]
  cases x.run (part s) with
  | mk outcome t =>
      cases outcome with
      | fault cause => rfl
      | ok a =>
          simp only [andThen, run_zoom, h.read_put]
          cases destructor.run t with
          | mk ended t' => cases ended <;> simp only [h.put_put]
      | raised e =>
          simp only [andThen, run_zoom, h.read_put]
          cases destructor.run t with
          | mk ended t' => cases ended <;> simp only [h.put_put]

end Zooming

end Action

end Machine
