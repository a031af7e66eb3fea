import Lorica.Lib.Action

/-!
Two programs for one purpose, of which the second is the plain one. The first
tracks it: from related states it ends the same way in related states,
wherever the plain one ends without a fault. What the plain one would have
faulted over is left to the first.
-/

namespace Machine

namespace Action

variable {σ τ ε α β γ δ : Type}

/-- From states related by `P` a return of `y` is one of `x`, related by `Q`, and
a raise of `y` is the same raise of `x`, in states related by `E`. -/
def Tracks (P : σ → τ → Prop) (x : Action σ ε α) (y : Action τ ε β)
    (Q : α → β → σ → τ → Prop) (E : σ → τ → Prop) : Prop :=
  ∀ s t, P s t →
    match y.run t with
    | (.ok b, t') => ∃ a s', x.run s = (.ok a, s') ∧ Q a b s' t'
    | (.raised e, t') => ∃ s', x.run s = (.raised e, s') ∧ E s' t'
    | (.fault _, _) => True

namespace Tracks

variable {P P' E : σ → τ → Prop} {Q Q' : α → β → σ → τ → Prop}
variable {R : γ → δ → σ → τ → Prop}

theorem pure {a : α} {b : β} (h : ∀ s t, P s t → Q a b s t) :
    Tracks P (pure a : Action σ ε α) (pure b : Action τ ε β) Q E :=
  fun s t hst => ⟨a, s, rfl, h s t hst⟩

theorem raise {e : ε} (h : ∀ s t, P s t → E s t) :
    Tracks P (raise e : Action σ ε α) (raise e : Action τ ε β) Q E :=
  fun s t hst => ⟨s, rfl, h s t hst⟩

/-- The plain program is at fault. -/
theorem fail {x : Action σ ε α} {cause : Fault} :
    Tracks P x (fail cause : Action τ ε β) Q E := fun _ _ _ => trivial

theorem modify {f : σ → σ} {g : τ → τ} {Q : Unit → Unit → σ → τ → Prop}
    (h : ∀ s t, P s t → Q () () (f s) (g t)) :
    Tracks P (modify f : Action σ ε Unit) (modify g : Action τ ε Unit) Q E :=
  fun s t hst => ⟨(), f s, rfl, h s t hst⟩

/-- The states read are the states the rest starts in. -/
theorem get {f : σ → Action σ ε α} {g : τ → Action τ ε β}
    (h : ∀ s t, P s t → Tracks (fun s' t' => s' = s ∧ t' = t) (f s) (g t) Q E) :
    Tracks P (get >>= f) (get >>= g) Q E :=
  fun s t hst => h s t hst s t ⟨rfl, rfl⟩

theorem bind {x : Action σ ε α} {y : Action τ ε β} {f : α → Action σ ε γ}
    {g : β → Action τ ε δ} (hxy : Tracks P x y Q E)
    (hrest : ∀ a b, Tracks (Q a b) (f a) (g b) R E) :
    Tracks P (x >>= f) (y >>= g) R E := by
  intro s t hst
  have hfirst := hxy s t hst
  rw [run_bind]
  cases hy : y.run t with
  | mk outcome t' =>
      rw [hy] at hfirst
      cases outcome with
      | ok b =>
          obtain ⟨a, s', hx, hq⟩ := hfirst
          have hsecond := hrest a b s' t' hq
          rw [run_bind_ok hx]
          exact hsecond
      | raised e =>
          obtain ⟨s', hx, he⟩ := hfirst
          exact ⟨s', run_bind_raised hx f, he⟩
      | fault cause => trivial

/-- Values that both programs compute before they go on. -/
theorem ofExcept {x : Except Fault α} {y : Except Fault β}
    (h : ∀ b, y = .ok b → ∃ a, x = .ok a ∧ ∀ s t, P s t → Q a b s t) :
    Tracks P (ofExcept x : Action σ ε α) (ofExcept y : Action τ ε β) Q E := by
  cases y with
  | error cause => exact fail
  | ok b =>
      obtain ⟨a, rfl, hq⟩ := h b rfl
      exact pure hq

theorem weaken {x : Action σ ε α} {y : Action τ ε β} (h : Tracks P' x y Q' E)
    (hP : ∀ s t, P s t → P' s t) (hQ : ∀ a b s t, Q' a b s t → Q a b s t) :
    Tracks P x y Q E := by
  intro s t hst
  have hrun := h s t (hP s t hst)
  cases hy : y.run t with
  | mk outcome t' =>
      rw [hy] at hrun
      cases outcome with
      | ok b =>
          obtain ⟨a, s', hx, hq⟩ := hrun
          exact ⟨a, s', hx, hQ a b s' t' hq⟩
      | raised e => exact hrun
      | fault cause => trivial

/-- The same command on a part that related states have in common. -/
theorem zoom {ρ : Type} {part : σ → ρ} {part' : τ → ρ} {put : σ → ρ → σ} {put' : τ → ρ → τ}
    (x : Action ρ ε α) (hpart : ∀ s t, P s t → part s = part' t)
    (hput : ∀ s t r, P s t → P (put s r) (put' t r)) (hE : ∀ s t, P s t → E s t) :
    Tracks P (zoom part put x) (zoom part' put' x) (fun a b s t => a = b ∧ P s t) E := by
  intro s t hst
  rw [run_zoom, run_zoom, hpart s t hst]
  cases hx : x.run (part' t) with
  | mk outcome r =>
      cases outcome with
      | ok a => exact ⟨a, put s r, rfl, rfl, hput s t r hst⟩
      | raised e => exact ⟨put s r, rfl, hE _ _ (hput s t r hst)⟩
      | fault cause => trivial

end Tracks

end Action

end Machine
