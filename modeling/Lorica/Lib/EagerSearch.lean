import Mathlib.Order.WellFoundedSet
import Mathlib.Tactic

/-!
Depth-first search for a target without a record of the nodes it has seen,
which stops at the first target. It answers correctly when it answers, and it
answers exactly when the nodes it cannot avoid entering do not lead back to
themselves.
-/

namespace Machine

namespace EagerSearch

variable {α ε : Type}

/-! ## The first success in a list -/

section AnyM

variable {f g : α → Except ε Bool} {l : List α}

theorem anyM_cons_ok {a : α} {b : Bool} :
    (a :: l).anyM f = .ok b ↔
      f a = .ok true ∧ b = true ∨ f a = .ok false ∧ l.anyM f = .ok b := by
  rw [List.anyM_cons]
  cases ha : f a with
  | error e => simp [bind, Except.bind]
  | ok found => cases found <;> simp [bind, Except.bind, pure, Except.pure, eq_comm]

theorem anyM_false : l.anyM f = .ok false ↔ ∀ a ∈ l, f a = .ok false := by
  induction l with
  | nil => simp [pure, Except.pure]
  | cons a l ih =>
      rw [anyM_cons_ok, List.forall_mem_cons, ih]
      simp

theorem anyM_true :
    l.anyM f = .ok true ↔
      ∃ before a after, l = before ++ a :: after ∧ f a = .ok true ∧
        ∀ x ∈ before, f x = .ok false := by
  induction l with
  | nil => simp [pure, Except.pure]
  | cons first l ih =>
      rw [anyM_cons_ok, ih]
      constructor
      · rintro (⟨htrue, -⟩ | ⟨hfalse, before, a, after, rfl, ha, hbefore⟩)
        · exact ⟨[], first, l, rfl, htrue, by simp⟩
        · refine ⟨first :: before, a, after, rfl, ha, ?_⟩
          rw [List.forall_mem_cons]
          exact ⟨hfalse, hbefore⟩
      · rintro ⟨before, a, after, heq, ha, hbefore⟩
        cases before with
        | nil =>
            obtain ⟨rfl, rfl⟩ := List.cons.inj heq
            exact .inl ⟨ha, rfl⟩
        | cons x before =>
            obtain ⟨rfl, rfl⟩ := List.cons.inj heq
            rw [List.forall_mem_cons] at hbefore
            exact .inr ⟨hbefore.1, before, a, after, rfl, ha, hbefore.2⟩

theorem anyM_mono (h : ∀ a ∈ l, ∀ b, f a = .ok b → g a = .ok b) {b : Bool}
    (hf : l.anyM f = .ok b) : l.anyM g = .ok b := by
  cases b with
  | false =>
      rw [anyM_false] at hf ⊢
      exact fun a ha => h a ha false (hf a ha)
  | true =>
      obtain ⟨before, a, after, rfl, ha, hbefore⟩ := anyM_true.mp hf
      refine anyM_true.mpr ⟨before, a, after, rfl, h a (by simp) true ha, ?_⟩
      exact fun x hx => h x (List.mem_append_left _ hx) false (hbefore x hx)

theorem anyM_singleton (a : α) : [a].anyM f = f a := by
  rw [List.anyM_cons]
  cases ha : f a with
  | error e => rfl
  | ok found => cases found <;> rfl

end AnyM

section Search

variable (target : α → Bool) (edges : α → List α) (exhausted : ε)

/-- The search, with the number of nested calls there is room for. -/
def search : Nat → α → Except ε Bool
  | 0, _ => .error exhausted
  | depth + 1, a => if target a then .ok true else (edges a).anyM (search depth)

def Edge (a b : α) : Prop := b ∈ edges a

/-- A target can be reached from the node. -/
def Leads (a : α) : Prop :=
  ∃ b, Relation.ReflTransGen (Edge edges) a b ∧ target b = true

/-- The search of the one node comes to the other: no target is found before. -/
def Enters (a c : α) : Prop :=
  target a = false ∧ ∃ before after, edges a = before ++ c :: after ∧
    ∀ x ∈ before, ¬ Leads target edges x

variable {target edges exhausted} {depth : Nat} {a : α} {b : Bool}

theorem search_succ_ok :
    search target edges exhausted (depth + 1) a = .ok b ↔
      target a = true ∧ b = true ∨
      target a = false ∧ (edges a).anyM (search target edges exhausted depth) = .ok b := by
  rw [search]
  cases target a <;> simp [eq_comm]

theorem Leads.of_edge {c : α} (hedge : c ∈ edges a) (h : Leads target edges c) :
    Leads target edges a := by
  obtain ⟨goal, hpath, hgoal⟩ := h
  exact ⟨goal, .head hedge hpath, hgoal⟩

theorem leads_iff_edges (h : target a = false) :
    Leads target edges a ↔ ∃ c ∈ edges a, Leads target edges c := by
  constructor
  · rintro ⟨goal, hpath, hgoal⟩
    rcases hpath.cases_head with rfl | ⟨c, hedge, hrest⟩
    · exact absurd hgoal (by simp [h])
    · exact ⟨c, hedge, goal, hrest, hgoal⟩
  · rintro ⟨c, hedge, hc⟩
    exact hc.of_edge hedge

theorem anyM_error {e : ε} {f : α → Except ε Bool} {l : List α}
    (h : l.anyM f = .error e) : ∃ a ∈ l, f a = .error e := by
  induction l with
  | nil => cases h
  | cons first l ih =>
      rw [List.anyM_cons] at h
      cases hfirst : f first with
      | error e' =>
          rw [hfirst] at h
          exact ⟨first, List.mem_cons_self .., by cases h; exact hfirst⟩
      | ok found =>
          rw [hfirst] at h
          cases found with
          | true => cases h
          | false =>
              obtain ⟨a, ha, hf⟩ := ih h
              exact ⟨a, List.mem_cons_of_mem _ ha, hf⟩

/-- The only error is that there is no room. -/
theorem search_error {e : ε} (h : search target edges exhausted depth a = .error e) :
    e = exhausted := by
  induction depth generalizing a with
  | zero => exact (Except.error.inj h).symm
  | succ depth ih =>
      rw [search] at h
      split at h
      · cases h
      · obtain ⟨c, -, hc⟩ := anyM_error h
        exact ih hc

/-- What is answered is correct. -/
theorem search_correct (h : search target edges exhausted depth a = .ok b) :
    b = true ↔ Leads target edges a := by
  induction depth generalizing a b with
  | zero => cases h
  | succ depth ih =>
      rcases search_succ_ok.mp h with ⟨htarget, rfl⟩ | ⟨hno, hany⟩
      · exact iff_of_true rfl ⟨a, .refl, htarget⟩
      · rw [leads_iff_edges hno]
        cases b with
        | false =>
            refine iff_of_false (by simp) ?_
            rintro ⟨c, hc, hleads⟩
            exact absurd ((ih (anyM_false.mp hany c hc)).mpr hleads) (by simp)
        | true =>
            obtain ⟨before, c, after, heq, hc, -⟩ := anyM_true.mp hany
            exact iff_of_true rfl ⟨c, by simp [heq], (ih hc).mp rfl⟩

/-- More room does not change an answer. -/
theorem search_mono {depth' : Nat} (hle : depth ≤ depth')
    (h : search target edges exhausted depth a = .ok b) :
    search target edges exhausted depth' a = .ok b := by
  induction depth generalizing a b depth' with
  | zero => cases h
  | succ depth ih =>
      obtain ⟨room, rfl⟩ : ∃ room, depth' = room + 1 := ⟨depth' - 1, by omega⟩
      rw [search_succ_ok] at h ⊢
      refine h.imp_right (And.imp_right fun hany => ?_)
      exact anyM_mono (fun c _ b' hc => ih (by omega) hc) hany

/-- The node is searched to an end. -/
def Returns (target : α → Bool) (edges : α → List α) (exhausted : ε) (a : α) : Prop :=
  ∃ depth b, search target edges exhausted depth a = .ok b

theorem Returns.answer (h : Returns target edges exhausted a) :
    ∃ depth b, (b = true ↔ Leads target edges a) ∧
      ∀ depth' ≥ depth, search target edges exhausted depth' a = .ok b := by
  obtain ⟨depth, b, hsearch⟩ := h
  exact ⟨depth, b, search_correct hsearch, fun depth' hle => search_mono hle hsearch⟩

/-! ## When there is an answer -/

/-- A search that ends has searched every node it entered to an end. -/
theorem enters_returns {c : α} (hc : Enters target edges a c)
    (h : search target edges exhausted (depth + 1) a = .ok b) :
    ∃ b', search target edges exhausted depth c = .ok b' := by
  obtain ⟨hno, before, after, heq, hbefore⟩ := hc
  rcases search_succ_ok.mp h with ⟨htarget, -⟩ | ⟨-, hany⟩
  · exact absurd htarget (by simp [hno])
  · cases b with
    | false => exact ⟨false, anyM_false.mp hany c (by simp [heq])⟩
    | true =>
        obtain ⟨pre, x, post, heq', hx, hpre⟩ := anyM_true.mp hany
        -- the node found is not among those passed over
        rcases List.append_eq_append_iff.mp (heq.symm.trans heq') with
          ⟨mid, rfl, hmid⟩ | ⟨mid, rfl, hmid⟩
        · cases mid with
          | nil =>
              obtain ⟨rfl, -⟩ := List.cons.inj hmid
              exact ⟨true, hx⟩
          | cons first mid =>
              obtain ⟨rfl, -⟩ := List.cons.inj hmid
              exact ⟨false, hpre c (by simp)⟩
        · cases mid with
          | nil =>
              obtain ⟨rfl, -⟩ := List.cons.inj hmid
              exact ⟨true, hx⟩
          | cons first mid =>
              obtain ⟨rfl, -⟩ := List.cons.inj hmid
              exact absurd ((search_correct hx).mp rfl) (hbefore x (by simp))

/-- The children that are entered decide. -/
theorem returns_of_enters
    (h : ∀ c, Enters target edges a c → Returns target edges exhausted c) :
    Returns target edges exhausted a := by
  by_cases htarget : target a = true
  · exact ⟨1, true, search_succ_ok.mpr (.inl ⟨htarget, rfl⟩)⟩
  have hno : target a = false := Bool.not_eq_true _ ▸ htarget
  -- the children in the order of the loop, those before having led nowhere
  have hrest : ∀ before rest, edges a = before ++ rest →
      (∀ x ∈ before, ¬ Leads target edges x) →
      ∃ depth b, rest.anyM (search target edges exhausted depth) = .ok b := by
    intro before rest
    induction rest generalizing before with
    | nil => exact fun _ _ => ⟨0, false, rfl⟩
    | cons c rest ih =>
        intro heq hbefore
        obtain ⟨depth, b, hb, hc⟩ := (h c ⟨hno, before, rest, heq, hbefore⟩).answer
        cases b with
        | true => exact ⟨depth, true, anyM_cons_ok.mpr (.inl ⟨hc depth le_rfl, rfl⟩)⟩
        | false =>
            have hnot : ¬ Leads target edges c := fun hleads => by simpa using hb.mpr hleads
            obtain ⟨depth', b, hany⟩ := ih (before ++ [c]) (by simp [heq]) (by
              intro x hx
              rcases List.mem_append.mp hx with hx | hx
              · exact hbefore x hx
              · exact List.mem_singleton.mp hx ▸ hnot)
            refine ⟨max depth depth', b, anyM_cons_ok.mpr (.inr ⟨?_, ?_⟩)⟩
            · exact hc _ (le_max_left ..)
            · refine anyM_mono (fun x _ b' hx => ?_) hany
              exact search_mono (le_max_right ..) hx
  obtain ⟨depth, b, hany⟩ := hrest [] (edges a) rfl (by simp)
  exact ⟨depth + 1, b, search_succ_ok.mpr (.inr ⟨hno, hany⟩)⟩

theorem returns_iff_acc :
    Returns target edges exhausted a ↔ Acc (Function.swap (Enters target edges)) a := by
  constructor
  · rintro ⟨depth, b, h⟩
    induction depth generalizing a b with
    | zero => cases h
    | succ depth ih =>
        refine .intro a fun c hc => ?_
        obtain ⟨b', hc'⟩ := enters_returns hc h
        exact ih b' hc'
  · intro h
    induction h with
    | intro a _ ih => exact returns_of_enters ih

end Search

theorem not_rel_self_of_acc {r : α → α → Prop} {a : α} (h : Acc r a) : ¬ r a a := by
  induction h with
  | intro a _ ih => exact fun hself => ih a hself hself

/-- Where finitely many nodes can be come by, every descent ends unless a node
leads back to itself. -/
theorem acc_iff_acyclic {r : α → α → Prop} {a : α}
    (hfinite : {b | Relation.ReflTransGen r a b}.Finite) :
    Acc (Function.swap r) a ↔
      ∀ b, Relation.ReflTransGen r a b → ¬ Relation.TransGen r b b := by
  constructor
  · intro h b hb hcycle
    have hacc : Acc (Relation.TransGen (Function.swap r)) b := by
      rcases Relation.reflTransGen_iff_eq_or_transGen.mp hb with rfl | hpath
      · exact h.transGen
      · exact h.transGen.inv (Relation.transGen_swap.mpr hpath)
    exact not_rel_self_of_acc hacc (Relation.transGen_swap.mpr hcycle)
  · intro hacyclic
    have hset : {b | Relation.ReflTransGen (Function.swap r) b a} =
        {b | Relation.ReflTransGen r a b} := Set.ext fun _ => Relation.reflTransGen_swap
    have hon : Acc (Function.swap r) a ↔
        {b | Relation.ReflTransGen (Function.swap r) b a}.WellFoundedOn (Function.swap r) :=
      Set.WellFoundedOn.acc_iff_wellFoundedOn.out 0 1
    rw [hon, hset]
    have : Finite {b | Relation.ReflTransGen r a b} := hfinite
    let below (x y : {b | Relation.ReflTransGen r a b}) : Prop :=
      Relation.TransGen r y.1 x.1
    have : IsTrans _ below := ⟨fun _ _ _ hxy hyz => hyz.trans hxy⟩
    have : Std.Irrefl below := ⟨fun x => hacyclic x.1 x.2⟩
    have hbelow : WellFounded below := Finite.wellFounded_of_trans_of_irrefl below
    have hstep : Subrelation (Subrel (Function.swap r) (Relation.ReflTransGen r a)) below :=
      fun hxy => .single hxy
    exact hstep.wf hbelow

end EagerSearch

end Machine
