import Lorica.Lib.Action

/-!
Commands that move the state along a preorder: whether a command returns or
raises, the state it ends in lies above the one it started in. What is stable
under the order and held before a command holds after it, so that a rule for
a command only has to say what is new.
-/

namespace Machine

namespace Action

variable {σ ε α β : Type} {le : σ → σ → Prop}

/-- From `P` the command goes up along `le`, and a value comes with `Q`. A
fault ends the program and is not spoken of. -/
def Evolves (le : σ → σ → Prop) (P : σ → Prop) (x : Action σ ε α)
    (Q : α → σ → Prop) : Prop :=
  ∀ s, P s →
    match x.run s with
    | (.ok a, s') => le s s' ∧ Q a s'
    | (.raised _, s') => le s s'
    | (.fault _, _) => True

/-- What no step up makes false. -/
def Stable (le : σ → σ → Prop) (P : σ → Prop) : Prop :=
  ∀ s s', le s s' → P s → P s'

namespace Evolves

variable {P P' F : σ → Prop} {Q Q' : α → σ → Prop} {R : β → σ → Prop}

theorem pure [Std.Refl le] {a : α} (h : ∀ s, P s → Q a s) :
    Evolves le P (pure a : Action σ ε α) Q := fun s hs => ⟨refl_of le s, h s hs⟩

theorem raise [Std.Refl le] {e : ε} : Evolves le P (raise e : Action σ ε α) Q :=
  fun s _ => refl_of le s

theorem raiseThen [Std.Refl le] {e : ε} {f : α → Action σ ε β} :
    Evolves le P (Action.raise e >>= f) R := fun s _ => refl_of le s

theorem fail {cause : Fault} : Evolves le P (fail cause : Action σ ε α) Q :=
  fun _ _ => trivial

theorem modify {f : σ → σ} {Q : Unit → σ → Prop}
    (h : ∀ s, P s → le s (f s) ∧ Q () (f s)) :
    Evolves le P (modify f : Action σ ε Unit) Q := h

theorem ofExcept [Std.Refl le] {x : Except Fault α}
    (h : ∀ a, x = .ok a → ∀ s, P s → Q a s) :
    Evolves le P (ofExcept x : Action σ ε α) Q := by
  cases x with
  | error cause => exact fail
  | ok a => exact pure (h a rfl)

/-- The state read is the state the rest starts in. -/
theorem get {f : σ → Action σ ε β}
    (h : ∀ s, P s → Evolves le (· = s) (f s) R) : Evolves le P (get >>= f) R :=
  fun s hs => h s hs s rfl

theorem bind [IsTrans σ le] {x : Action σ ε α} {f : α → Action σ ε β}
    (hx : Evolves le P x Q) (hf : ∀ a, Evolves le (Q a) (f a) R) :
    Evolves le P (x >>= f) R := by
  intro s hs
  have hfirst := hx s hs
  rw [run_bind]
  cases hrun : x.run s with
  | mk outcome s' =>
      rw [hrun] at hfirst
      cases outcome with
      | ok a =>
          obtain ⟨hle, hQ⟩ := hfirst
          have hrest := hf a s' hQ
          dsimp only
          cases hrun' : (f a).run s' with
          | mk outcome' s'' =>
              rw [hrun'] at hrest
              cases outcome' with
              | ok b => exact ⟨trans_of le hle hrest.1, hrest.2⟩
              | raised e => exact trans_of le hle hrest
              | fault cause => trivial
      | raised e => exact hfirst
      | fault cause => trivial

theorem weaken {x : Action σ ε α} (h : Evolves le P' x Q') (hP : ∀ s, P s → P' s)
    (hQ : ∀ a s, Q' a s → Q a s) : Evolves le P x Q := by
  intro s hs
  have hrun := h s (hP s hs)
  cases hx : x.run s with
  | mk outcome s' =>
      rw [hx] at hrun
      cases outcome with
      | ok a => exact ⟨hrun.1, hQ a s' hrun.2⟩
      | raised e => exact hrun
      | fault cause => trivial

theorem ok {x : Action σ ε α} (h : Evolves le P x Q) {s s' : σ} {a : α} (hs : P s)
    (hrun : x.run s = (.ok a, s')) : le s s' ∧ Q a s' := by
  have hx := h s hs
  rw [hrun] at hx
  exact hx

theorem raised {x : Action σ ε α} (h : Evolves le P x Q) {s s' : σ} {e : ε} (hs : P s)
    (hrun : x.run s = (.raised e, s')) : le s s' := by
  have hx := h s hs
  rw [hrun] at hx
  exact hx

theorem starting {x : Action σ ε α} (h : Evolves le P' x Q) (hP : ∀ s, P s → P' s) :
    Evolves le P x Q :=
  h.weaken hP fun _ _ hQ => hQ

/-- The frame rule: what is stable comes through. -/
theorem frame {x : Action σ ε α} (hF : Stable le F) (h : Evolves le P x Q) :
    Evolves le (fun s => P s ∧ F s) x fun a s => Q a s ∧ F s := by
  rintro s ⟨hs, hf⟩
  have hrun := h s hs
  cases hx : x.run s with
  | mk outcome s' =>
      rw [hx] at hrun
      cases outcome with
      | ok a => exact ⟨hrun.1, hrun.2, hF s s' hrun.1 hf⟩
      | raised e => exact hrun
      | fault cause => trivial

/-- The frame rule for what already held. -/
theorem keeping {x : Action σ ε α} (hP : Stable le P) (h : Evolves le P x Q) :
    Evolves le P x fun a s => Q a s ∧ P s :=
  (h.frame hP).starting fun _ hs => ⟨hs, hs⟩

/-- A fact about values alone need not wait for the command. -/
theorem assuming {A : Prop} {x : Action σ ε α} (h : A → Evolves le P x Q) :
    Evolves le (fun s => A ∧ P s) x Q :=
  fun s hs => h hs.1 s hs.2

/-- Raising, returning and the commands in between all go up. -/
theorem keeps {x : Action σ ε α} (h : Evolves le P x Q) {I : σ → Prop} (hI : Stable le I) :
    Triple (fun s => P s ∧ I s) x (fun a s => Q a s ∧ I s) I := by
  rintro s ⟨hs, hi⟩
  have hrun := h s hs
  cases hx : x.run s with
  | mk outcome s' =>
      rw [hx] at hrun
      cases outcome with
      | ok a => exact ⟨hrun.2, hI s s' hrun.1 hi⟩
      | raised e => exact hI s s' hrun hi
      | fault cause => trivial

/-- What holds of a value may be used in what comes after it. -/
theorem opening {γ : Sort*} {P : γ → σ → Prop} {x : Action σ ε α}
    (h : ∀ c, Evolves le (P c) x Q) : Evolves le (fun s => ∃ c, P c s) x Q :=
  fun s hs => hs.elim fun c hc => h c s hc

/-- The handler starts wherever the raise has left the state. -/
theorem tryCatch [IsTrans σ le] {x : Action σ ε α} {handler : ε → Action σ ε α}
    (hF : Stable le F) (hx : Evolves le P x Q) (hP : ∀ s, P s → F s)
    (hhandler : ∀ e, Evolves le F (handler e) Q) :
    Evolves le P (tryCatch x handler) Q := by
  intro s hs
  have hrun := hx s hs
  rw [run_tryCatch]
  cases hx' : x.run s with
  | mk outcome s' =>
      rw [hx'] at hrun
      cases outcome with
      | ok a => exact hrun
      | fault cause => trivial
      | raised e =>
          have hcaught := hhandler e s' (hF s s' hrun (hP s hs))
          dsimp only
          cases hh : (handler e).run s' with
          | mk outcome' s'' =>
              rw [hh] at hcaught
              cases outcome' with
              | ok a => exact ⟨trans_of le hrun hcaught.1, hcaught.2⟩
              | raised e => exact trans_of le hrun hcaught
              | fault cause => trivial

/-- A command on a part of the state. -/
theorem zoom {τ : Type} {part : τ → σ} {put : τ → σ → τ} {le' : τ → τ → Prop}
    {P' : τ → Prop} {Q' : α → τ → Prop} {x : Action σ ε α} (h : Evolves le P x Q)
    (hP : ∀ t, P' t → P (part t))
    (hle : ∀ t s, P' t → le (part t) s → le' t (put t s))
    (hQ : ∀ t a s, P' t → le (part t) s → Q a s → Q' a (put t s)) :
    Evolves le' P' (zoom part put x) Q' := by
  intro t ht
  have hrun := h (part t) (hP t ht)
  rw [run_zoom]
  cases hx : x.run (part t) with
  | mk outcome s' =>
      rw [hx] at hrun
      cases outcome with
      | ok a => exact ⟨hle t s' ht hrun.1, hQ t a s' ht hrun.1 hrun.2⟩
      | raised e => exact hle t s' ht hrun
      | fault cause => trivial

end Evolves

end Action

end Machine
