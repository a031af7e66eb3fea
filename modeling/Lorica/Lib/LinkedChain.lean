import Lorica.Lib.Action

/-!
Singly linked lists in a store of cells: the cells a pointer leads to, the
recursive append that walks to the last of them and the recursive unlinking of a
cell behind the first. A cell is of any type with a link that can be read and
replaced.
-/

namespace Machine

namespace Chain

variable {ν : Type}

/-- The addresses on the way from a pointer, in order. -/
def Linked (next : ν → Option Nat) (cells : Nat → Option ν) : Option Nat → List Nat → Prop
  | p, [] => p = none
  | p, a :: rest => p = some a ∧ ∃ n, cells a = some n ∧ Linked next cells (next n) rest

/-- Link `p` behind the last cell. The recursion is given a number of turns: it
needs more than there are cells only where the links run in a circle. -/
def append (next : ν → Option Nat) (setNext : ν → Option Nat → ν) (cells : Nat → Option ν) :
    Nat → Nat → Nat → Except Fault (Nat → Option ν)
  | 0, _, _ => .error .stackExhausted
  | turns + 1, a, p =>
      match cells a with
      | none => .error .danglingPointer
      | some n =>
          match next n with
          | none => .ok (Function.update cells a (some (setNext n (some p))))
          | some b => append next setNext cells turns b p

/-- Lead the link in front of `p` past `p`; nothing happens where no link leads
to `p`. -/
def unlink (next : ν → Option Nat) (setNext : ν → Option Nat → ν) (cells : Nat → Option ν) :
    Nat → Nat → Nat → Except Fault (Nat → Option ν)
  | 0, _, _ => .error .stackExhausted
  | turns + 1, a, p =>
      match cells a with
      | none => .error .danglingPointer
      | some n =>
          if next n = some p then
            match cells p with
            | none => .error .danglingPointer
            | some m => .ok (Function.update cells a (some (setNext n (next m))))
          else
            match next n with
            | none => .ok cells
            | some b => unlink next setNext cells turns b p

variable {next : ν → Option Nat} {setNext : ν → Option Nat → ν} {cells cells' : Nat → Option ν}

/-- A pointer leads to one list of cells only. -/
theorem Linked.unique {p : Option Nat} {l l' : List Nat} (h : Linked next cells p l)
    (h' : Linked next cells p l') : l = l' := by
  induction l generalizing p l' with
  | nil =>
      cases l' with
      | nil => rfl
      | cons b rest => exact absurd (h.symm.trans h'.1) (by simp)
  | cons a rest ih =>
      obtain ⟨rfl, n, hn, hrest⟩ := h
      cases l' with
      | nil => exact absurd h' (by simp [Linked])
      | cons b rest' =>
          obtain ⟨hb, m, hm, hrest'⟩ := h'
          cases hb
          rw [hn] at hm
          cases hm
          rw [ih hrest hrest']

/-- Only the links of the cells on the way matter. -/
theorem Linked.congr {p : Option Nat} {l : List Nat} (h : Linked next cells p l)
    (hsame : ∀ a ∈ l, ∀ n, cells a = some n → ∃ n', cells' a = some n' ∧ next n' = next n) :
    Linked next cells' p l := by
  induction l generalizing p with
  | nil => exact h
  | cons a rest ih =>
      obtain ⟨rfl, n, hn, hrest⟩ := h
      obtain ⟨n', hn', hnext⟩ := hsame a List.mem_cons_self n hn
      refine ⟨rfl, n', hn', ?_⟩
      rw [hnext]
      exact ih hrest fun b hb => hsame b (List.mem_cons_of_mem _ hb)

theorem Linked.live {p : Option Nat} {l : List Nat} (h : Linked next cells p l) {a : Nat}
    (ha : a ∈ l) : ∃ n, cells a = some n := by
  induction l generalizing p with
  | nil => exact absurd ha List.not_mem_nil
  | cons b rest ih =>
      obtain ⟨-, n, hn, hrest⟩ := h
      rcases List.mem_cons.mp ha with rfl | ha
      · exact ⟨n, hn⟩
      · exact ih hrest ha

/-- Distinct cells below a bound are no more than the bound. -/
theorem length_le_of_below {l : List Nat} {bound : Nat} (hnodup : l.Nodup)
    (hbelow : ∀ a ∈ l, a < bound) : l.length ≤ bound := by
  have hsubset : l ⊆ List.range bound := fun a ha => List.mem_range.mpr (hbelow a ha)
  simpa using (hnodup.subperm hsubset).length_le

/-- The new cell comes last, and no other cell changes but in its link. -/
theorem append_linked (hset : ∀ n q, next (setNext n q) = q) {a p turns : Nat} {m : ν}
    {rest : List Nat} (h : Linked next cells (some a) (a :: rest)) (hnodup : (a :: rest).Nodup)
    (hturns : (a :: rest).length ≤ turns) (hp : p ∉ a :: rest) (hm : cells p = some m)
    (hlast : next m = none) :
    ∃ cells', append next setNext cells turns a p = .ok cells' ∧
      Linked next cells' (some a) (a :: rest ++ [p]) ∧
      (∀ b ∉ a :: rest, cells' b = cells b) ∧
      ∀ b n, cells b = some n → ∃ q, cells' b = some n ∨ cells' b = some (setNext n q) := by
  obtain ⟨turns, rfl⟩ : ∃ k, turns = k + 1 :=
    ⟨turns - 1, by rw [List.length_cons] at hturns; omega⟩
  obtain ⟨-, n, hn, hrest⟩ := h
  induction rest generalizing a n turns with
  | nil =>
      have hpa : p ≠ a := List.ne_of_not_mem_cons hp
      have hnone : next n = none := hrest
      refine ⟨Function.update cells a (some (setNext n (some p))), ?_, ?_, ?_, ?_⟩
      · simp only [append, hn, hnone]
      · refine ⟨rfl, _, Function.update_self .., ?_⟩
        rw [hset]
        exact ⟨rfl, m, (Function.update_of_ne hpa ..).trans hm, hlast⟩
      · intro b hb
        exact Function.update_of_ne (List.ne_of_not_mem_cons hb) ..
      · intro b n' hn'
        rcases eq_or_ne b a with rfl | hne
        · rw [hn] at hn'
          cases hn'
          exact ⟨some p, .inr (Function.update_self ..)⟩
        · exact ⟨none, .inl ((Function.update_of_ne hne ..).trans hn')⟩
  | cons b rest ih =>
      obtain ⟨hb, n₂, hn₂, hrest₂⟩ := hrest
      obtain ⟨turns, rfl⟩ : ∃ k, turns = k + 1 :=
        ⟨turns - 1, by rw [List.length_cons, List.length_cons] at hturns; omega⟩
      obtain ⟨cells', hrun, hlinked, hframe, hlinks⟩ :=
        ih (List.nodup_cons.mp hnodup).2 (fun h => hp (List.mem_cons_of_mem _ h)) turns
          (by rw [List.length_cons] at hturns; omega) n₂ hn₂ hrest₂
      refine ⟨cells', ?_, ?_, ?_, hlinks⟩
      · rw [append]
        simp only [hn, hb]
        exact hrun
      · refine ⟨rfl, n, (hframe a (List.nodup_cons.mp hnodup).1).trans hn, ?_⟩
        rw [hb]
        exact hlinked
      · exact fun c hc => hframe c fun h => hc (List.mem_cons_of_mem _ h)

theorem unlink_absent {a p turns : Nat} {rest : List Nat}
    (h : Linked next cells (some a) (a :: rest)) (hturns : (a :: rest).length ≤ turns)
    (hp : p ∉ rest) : unlink next setNext cells turns a p = .ok cells := by
  obtain ⟨turns, rfl⟩ : ∃ k, turns = k + 1 :=
    ⟨turns - 1, by rw [List.length_cons] at hturns; omega⟩
  obtain ⟨-, n, hn, hrest⟩ := h
  induction rest generalizing a n turns with
  | nil =>
      have hnone : next n = none := hrest
      simp [unlink, hn, hnone]
  | cons b rest ih =>
      obtain ⟨hb, n₂, hn₂, hrest₂⟩ := hrest
      obtain ⟨turns, rfl⟩ : ∃ k, turns = k + 1 :=
        ⟨turns - 1, by rw [List.length_cons, List.length_cons] at hturns; omega⟩
      have hne : b ≠ p := (List.ne_of_not_mem_cons hp).symm
      rw [unlink]
      simp only [hn, hb, Option.some.injEq, hne, if_false]
      exact ih (List.not_mem_of_not_mem_cons hp) turns
        (by rw [List.length_cons] at hturns; omega) n₂ hn₂ hrest₂

/-- The cell is gone from the list, and only a link was replaced, which is not
the one of the cell. -/
theorem unlink_linked (hset : ∀ n q, next (setNext n q) = q) {a p turns : Nat}
    {rest : List Nat} (h : Linked next cells (some a) (a :: rest)) (hnodup : (a :: rest).Nodup)
    (hturns : (a :: rest).length ≤ turns) (hp : p ∈ rest) :
    ∃ cells', unlink next setNext cells turns a p = .ok cells' ∧
      Linked next cells' (some a) (a :: rest.erase p) ∧
      (∀ b ∉ a :: rest.erase p, cells' b = cells b) ∧
      ∀ b n, cells b = some n → ∃ q, cells' b = some n ∨ cells' b = some (setNext n q) := by
  obtain ⟨turns, rfl⟩ : ∃ k, turns = k + 1 :=
    ⟨turns - 1, by rw [List.length_cons] at hturns; omega⟩
  obtain ⟨-, n, hn, hrest⟩ := h
  induction rest generalizing a n turns with
  | nil => exact absurd hp List.not_mem_nil
  | cons b rest ih =>
      obtain ⟨hb, m, hm, hrest₂⟩ := hrest
      have haNotMem := (List.nodup_cons.mp hnodup).1
      rcases eq_or_ne b p with rfl | hne
      · refine ⟨Function.update cells a (some (setNext n (next m))), ?_, ?_, ?_, ?_⟩
        · simp only [unlink, hn, hb, if_true, hm]
        · rw [List.erase_cons_head]
          refine ⟨rfl, _, Function.update_self .., ?_⟩
          rw [hset]
          refine hrest₂.congr fun c hc n' hn' => ⟨n', ?_, rfl⟩
          have hca : c ≠ a := fun heq => haNotMem (heq ▸ List.mem_cons_of_mem _ hc)
          exact (Function.update_of_ne hca ..).trans hn'
        · intro c hc
          exact Function.update_of_ne (List.ne_of_not_mem_cons hc) ..
        · intro c n' hn'
          rcases eq_or_ne c a with rfl | hca
          · rw [hn] at hn'
            cases hn'
            exact ⟨_, .inr (Function.update_self ..)⟩
          · exact ⟨none, .inl ((Function.update_of_ne hca ..).trans hn')⟩
      · obtain ⟨turns, rfl⟩ : ∃ k, turns = k + 1 :=
          ⟨turns - 1, by rw [List.length_cons, List.length_cons] at hturns; omega⟩
        have hp' : p ∈ rest := (List.mem_cons.mp hp).resolve_left hne.symm
        obtain ⟨cells', hrun, hlinked, hframe, hlinks⟩ := ih (List.nodup_cons.mp hnodup).2 hp'
          turns (by rw [List.length_cons] at hturns; omega) m hm hrest₂
        have herase : (b :: rest).erase p = b :: rest.erase p :=
          List.erase_cons_tail (by simpa using hne)
        have haFrame : a ∉ b :: rest.erase p := by
          rw [← herase]
          exact fun hmem => haNotMem (List.mem_of_mem_erase hmem)
        refine ⟨cells', ?_, ?_, ?_, hlinks⟩
        · rw [unlink]
          simp only [hn, hb, Option.some.injEq, hne, if_false]
          exact hrun
        · rw [herase]
          refine ⟨rfl, n, (hframe a haFrame).trans hn, ?_⟩
          rw [hb]
          exact hlinked
        · rw [herase]
          exact fun c hc => hframe c fun hmem => hc (List.mem_cons_of_mem _ hmem)

end Chain

end Machine
