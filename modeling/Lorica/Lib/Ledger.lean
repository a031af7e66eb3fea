import Mathlib.Tactic

/-!
Accounting for reference-counted values. A ledger says where the pointers to
the values are (at most one pointer to a slot, any number with holders) and
what count each living value shows. It balances when every count is the
number of pointers, so that a value with a pointer to it is alive. Each rule
is one thing a program does with a counted pointer.
-/

namespace Machine

structure Ledger (ι : Type*) where
  slots : ι → Option Nat
  held : List Nat
  counts : Nat → Option Int

namespace Ledger

variable {ι : Type*}

/-- Some slot points to the value. -/
def Bound (l : Ledger ι) (a : Nat) : Prop :=
  ∃ i, l.slots i = some a

open Classical in
/-- The pointers to a value: one if a slot has it, and those held. -/
noncomputable def owners (l : Ledger ι) (a : Nat) : Int :=
  (if l.Bound a then 1 else 0) + l.held.count a

structure Balanced (l : Ledger ι) : Prop where
  injective : ∀ i j a, l.slots i = some a → l.slots j = some a → i = j
  counted : ∀ a n, l.counts a = some n → n = l.owners a ∧ 1 ≤ n
  dead : ∀ a, l.counts a = none → ¬ l.Bound a ∧ a ∉ l.held

variable {l : Ledger ι} {a : Nat} {n : Int} {i : ι}

theorem owners_bound (h : l.Bound a) : l.owners a = 1 + l.held.count a := by
  unfold owners
  rw [if_pos h]

theorem owners_unbound (h : ¬ l.Bound a) : l.owners a = l.held.count a := by
  unfold owners
  rw [if_neg h, zero_add]

theorem Balanced.congr {l' : Ledger ι} (h : l.Balanced)
    (hslots : l'.slots = l.slots) (hheld : l'.held = l.held)
    (hcounts : l'.counts = l.counts) : l'.Balanced := by
  obtain ⟨slots, held, counts⟩ := l'
  dsimp only at hslots hheld hcounts
  subst hslots hheld hcounts
  exact h

/-- Only the holders change. -/
theorem owners_held (l : Ledger ι) (held : List Nat) (counts : Nat → Option Int)
    (a : Nat) :
    owners ⟨l.slots, held, counts⟩ a =
      l.owners a + held.count a - l.held.count a := by
  by_cases hb : l.Bound a
  · have hb' : Bound ⟨l.slots, held, counts⟩ a := hb
    rw [owners_bound hb, owners_bound hb']
    ring
  · have hb' : ¬ Bound ⟨l.slots, held, counts⟩ a := hb
    rw [owners_unbound hb, owners_unbound hb']
    ring

theorem Balanced.bound_count (h : l.Balanced) (hb : l.Bound a) :
    ∃ n, l.counts a = some n := by
  cases hn : l.counts a with
  | none => exact absurd hb (h.dead a hn).1
  | some n => exact ⟨n, rfl⟩

/-- A step that concerns one value: the other counts, slots and holders stay,
and its own count is right again afterwards. -/
theorem Balanced.of_focus {l' : Ledger ι} (h : l.Balanced)
    (hinjective : ∀ i j b, l'.slots i = some b → l'.slots j = some b → i = j)
    (hbound : ∀ b, b ≠ a → (l'.Bound b ↔ l.Bound b))
    (hheld : ∀ b, b ≠ a → l'.held.count b = l.held.count b)
    (hcounts : ∀ b, b ≠ a → l'.counts b = l.counts b)
    (hcounted : ∀ n, l'.counts a = some n → n = l'.owners a ∧ 1 ≤ n)
    (hdead : l'.counts a = none → ¬ l'.Bound a ∧ a ∉ l'.held) :
    l'.Balanced := by
  refine ⟨hinjective, ?_, ?_⟩
  · intro b n hn
    rcases eq_or_ne b a with rfl | hne
    · exact hcounted n hn
    · rw [hcounts b hne] at hn
      have howners : l'.owners b = l.owners b := by
        by_cases hb : l.Bound b
        · rw [owners_bound hb, owners_bound ((hbound b hne).mpr hb), hheld b hne]
        · rw [owners_unbound hb, owners_unbound (mt (hbound b hne).mp hb),
            hheld b hne]
      rw [howners]
      exact h.counted b n hn
  · intro b hn
    rcases eq_or_ne b a with rfl | hne
    · exact hdead hn
    · rw [hcounts b hne] at hn
      obtain ⟨hunbound, hunheld⟩ := h.dead b hn
      refine ⟨mt (hbound b hne).mp hunbound, ?_⟩
      rw [← List.count_pos_iff, hheld b hne, List.count_pos_iff]
      exact hunheld

/-- A new value with one holder. -/
theorem Balanced.make (h : l.Balanced) (hfree : l.counts a = none) :
    Balanced ⟨l.slots, a :: l.held, Function.update l.counts a (some 1)⟩ := by
  obtain ⟨hunbound, hunheld⟩ := h.dead a hfree
  apply h.of_focus (a := a)
  · exact h.injective
  · exact fun b _ => Iff.rfl
  · exact fun b hne => List.count_cons_of_ne hne.symm
  · exact fun b hne => Function.update_of_ne hne _ _
  · intro n hn
    simp only [Function.update_self, Option.some.injEq] at hn
    rw [owners_held, owners_unbound hunbound, ← hn, List.count_cons_self,
      List.count_eq_zero.mpr hunheld]
    exact ⟨rfl, le_refl _⟩
  · intro hn
    simp at hn

/-- Another holder. -/
theorem Balanced.take (h : l.Balanced) (hn : l.counts a = some n) :
    Balanced ⟨l.slots, a :: l.held, Function.update l.counts a (some (n + 1))⟩ := by
  obtain ⟨hcount, hpos⟩ := h.counted a n hn
  apply h.of_focus (a := a)
  · exact h.injective
  · exact fun b _ => Iff.rfl
  · exact fun b hne => List.count_cons_of_ne hne.symm
  · exact fun b hne => Function.update_of_ne hne _ _
  · intro k hk
    simp only [Function.update_self, Option.some.injEq] at hk
    rw [owners_held, List.count_cons_self, ← hcount]
    push_cast
    omega
  · intro hk
    simp at hk

/-- A holder lets go; the last one deletes the value. -/
theorem Balanced.drop (h : l.Balanced) (ha : a ∈ l.held)
    (hn : l.counts a = some n) :
    Balanced ⟨l.slots, l.held.erase a,
      Function.update l.counts a (if 1 < n then some (n - 1) else none)⟩ := by
  obtain ⟨hcount, hpos⟩ := h.counted a n hn
  have hcons : (l.held.erase a).count a = l.held.count a - 1 :=
    List.count_erase_self
  have hheld : 0 < l.held.count a := List.count_pos_iff.mpr ha
  apply h.of_focus (a := a)
  · exact h.injective
  · exact fun b _ => Iff.rfl
  · exact fun b hne => List.count_erase_of_ne hne
  · exact fun b hne => Function.update_of_ne hne _ _
  · intro k hk
    simp only [Function.update_self] at hk
    obtain ⟨hlt, hk⟩ := Option.ite_none_right_eq_some.mp hk
    obtain rfl := Option.some.inj hk
    rw [owners_held, hcons, ← hcount]
    omega
  · intro hk
    simp only [Function.update_self] at hk
    have hone : ¬ 1 < n := by
      intro hlt
      rw [if_pos hlt] at hk
      cases hk
    by_cases hb : l.Bound a
    · rw [owners_bound hb] at hcount
      omega
    · rw [owners_unbound hb] at hcount
      refine ⟨hb, ?_⟩
      rw [← List.count_pos_iff, hcons]
      omega

/-- In which order the holders are listed does not matter. -/
theorem Balanced.perm (h : l.Balanced) {held : List Nat} (hperm : l.held.Perm held) :
    Balanced ⟨l.slots, held, l.counts⟩ := by
  refine ⟨h.injective, ?_, ?_⟩
  · intro a n hn
    rw [owners_held, hperm.count_eq a, add_sub_cancel_right]
    exact h.counted a n hn
  · intro a hn
    rw [← hperm.mem_iff]
    exact h.dead a hn

/-- A value with a count of one and a holder has no other holder and no slot. -/
theorem Balanced.sole {mine rest : List Nat} {slots : ι → Option Nat}
    {counts : Nat → Option Int} (h : Balanced ⟨slots, mine ++ rest, counts⟩)
    (ha : a ∈ rest) (hn : counts a = some 1) :
    a ∉ mine ∧ ¬ Bound ⟨slots, mine ++ rest, counts⟩ a := by
  obtain ⟨hcount, -⟩ := h.counted a 1 hn
  have hrest : 0 < rest.count a := List.count_pos_iff.mpr ha
  by_cases hb : Bound ⟨slots, mine ++ rest, counts⟩ a
  · rw [owners_bound hb, List.count_append] at hcount
    omega
  · rw [owners_unbound hb, List.count_append] at hcount
    refine ⟨?_, hb⟩
    rw [← List.count_pos_iff]
    omega

/-- A value that only one party points to, once, is in no slot. -/
theorem Balanced.unplaced (h : l.Balanced) (ha : a ∈ l.held) (hn : l.counts a = some 1) :
    ¬ l.Bound a := by
  intro hb
  have hcount := (h.counted a 1 hn).1
  have hheld : 0 < l.held.count a := List.count_pos_iff.mpr ha
  rw [owners_bound hb] at hcount
  omega

/-- The number of slots that point to a value, when no two do. -/
theorem Balanced.slots_count (h : l.Balanced) (a : Nat) :
    l.owners a = ({i | l.slots i = some a} : Set ι).ncard + l.held.count a := by
  have hsub : ({i | l.slots i = some a} : Set ι).Subsingleton :=
    fun i hi j hj => h.injective i j a hi hj
  by_cases hb : l.Bound a
  · obtain ⟨i, hi⟩ := hb
    rw [owners_bound ⟨i, hi⟩, hsub.eq_singleton_of_mem hi, Set.ncard_singleton]
    rfl
  · have hempty : ({i | l.slots i = some a} : Set ι) = ∅ :=
      Set.eq_empty_of_forall_notMem fun i hi => hb ⟨i, hi⟩
    rw [owners_unbound hb, hempty, Set.ncard_empty]
    simp

/-- One of several parties changes what it has, and the others keep theirs. -/
theorem parties_split {α : Type*} (owned : α → List Nat) {parties : List α} {k : Nat} {x : α}
    (hk : parties[k]? = some x) :
    ∃ rest, (parties.flatMap owned).Perm (owned x ++ rest) ∧
      ∀ y, ((parties.set k y).flatMap owned).Perm (owned y ++ rest) ∧
        ∀ z ∈ parties.set k y, z = y ∨ z ∈ parties ∧ ∀ b ∈ owned z, b ∈ rest := by
  obtain ⟨hlt, hx⟩ := List.getElem?_eq_some_iff.mp hk
  have hsplit : ∀ y, parties.set k y = parties.take k ++ y :: parties.drop (k + 1) :=
    fun y => List.set_eq_take_append_cons_drop.trans (if_pos hlt)
  have hsame : parties = parties.take k ++ x :: parties.drop (k + 1) := by
    rw [← hsplit, ← hx, List.set_getElem_self]
  have hperm : ∀ y, ((parties.take k ++ y :: parties.drop (k + 1)).flatMap owned).Perm
      (owned y ++ (parties.take k ++ parties.drop (k + 1)).flatMap owned) := by
    intro y
    simp only [List.flatMap_append, List.flatMap_cons]
    exact List.perm_append_comm_assoc _ _ _
  refine ⟨(parties.take k ++ parties.drop (k + 1)).flatMap owned, ?_, ?_⟩
  · have h := hperm x
    rwa [← hsame] at h
  · intro y
    rw [hsplit]
    refine ⟨hperm y, ?_⟩
    intro z hz
    rcases List.mem_append.mp hz with htake | hcons
    · refine .inr ⟨List.mem_of_mem_take htake, ?_⟩
      exact fun b hb => List.mem_flatMap.mpr ⟨z, List.mem_append_left _ htake, hb⟩
    · rcases List.mem_cons.mp hcons with rfl | hdrop
      · exact .inl rfl
      · refine .inr ⟨List.mem_of_mem_drop hdrop, ?_⟩
        exact fun b hb => List.mem_flatMap.mpr ⟨z, List.mem_append_right _ hdrop, hb⟩

section Slots

variable [DecidableEq ι]

theorem bound_update_other {b : Nat} {content : Option Nat}
    (hold : l.slots i ≠ some b) (hnew : content ≠ some b) :
    Bound ⟨Function.update l.slots i content, l.held, l.counts⟩ b ↔ l.Bound b := by
  constructor
  · rintro ⟨j, hj⟩
    rcases eq_or_ne j i with rfl | hne
    · exact absurd ((Function.update_self _ _ _).symm.trans hj) hnew
    · exact ⟨j, (Function.update_of_ne hne _ _).symm.trans hj⟩
  · rintro ⟨j, hj⟩
    refine ⟨j, (Function.update_of_ne ?_ _ _).trans hj⟩
    rintro rfl
    exact hold hj

/-- A living value goes into an empty slot with a count of its own. -/
theorem Balanced.place (h : l.Balanced) (hempty : l.slots i = none)
    (hunbound : ¬ l.Bound a) (hn : l.counts a = some n) :
    Balanced ⟨Function.update l.slots i (some a), l.held,
      Function.update l.counts a (some (n + 1))⟩ := by
  obtain ⟨hcount, hpos⟩ := h.counted a n hn
  rw [owners_unbound hunbound] at hcount
  have hplaced : Bound ⟨Function.update l.slots i (some a), l.held,
      Function.update l.counts a (some (n + 1))⟩ a := ⟨i, Function.update_self _ _ _⟩
  apply h.of_focus (a := a)
  · intro j k b hj hk
    by_cases hji : j = i <;> by_cases hki : k = i
    · exact hji.trans hki.symm
    · simp only [hji, hki, Function.update_self, ne_eq, not_false_eq_true,
        Function.update_of_ne] at hj hk
      exact absurd ⟨k, hk.trans hj.symm⟩ hunbound
    · simp only [hji, hki, Function.update_self, ne_eq, not_false_eq_true,
        Function.update_of_ne] at hj hk
      exact absurd ⟨j, hj.trans hk.symm⟩ hunbound
    · simp only [hji, hki, ne_eq, not_false_eq_true,
        Function.update_of_ne] at hj hk
      exact h.injective j k b hj hk
  · intro b hne
    exact bound_update_other (by simp [hempty]) (by simpa using hne.symm)
  · exact fun b _ => rfl
  · exact fun b hne => Function.update_of_ne hne _ _
  · intro k hk
    simp only [Function.update_self, Option.some.injEq] at hk
    rw [owners_bound hplaced]
    dsimp only
    omega
  · intro hk
    simp at hk

theorem injective_clear (h : l.Balanced) (j k : ι) (b : Nat)
    (hj : Function.update l.slots i none j = some b)
    (hk : Function.update l.slots i none k = some b) : j = k := by
  rcases eq_or_ne j i with rfl | hji
  · simp at hj
  · rcases eq_or_ne k i with rfl | hki
    · simp at hk
    · rw [Function.update_of_ne hji] at hj
      rw [Function.update_of_ne hki] at hk
      exact h.injective j k b hj hk

theorem unbound_clear (h : l.Balanced) (hfull : l.slots i = some a) :
    ¬ Bound ⟨Function.update l.slots i none, l.held, l.counts⟩ a := by
  rintro ⟨j, hj⟩
  rcases eq_or_ne j i with rfl | hne
  · simp at hj
  · dsimp only at hj
    rw [Function.update_of_ne hne] at hj
    exact hne (h.injective j i a hj hfull)

/-- The pointer of a slot passes to a holder. -/
theorem Balanced.lift (h : l.Balanced) (hfull : l.slots i = some a) :
    Balanced ⟨Function.update l.slots i none, a :: l.held, l.counts⟩ := by
  have hbound : l.Bound a := ⟨i, hfull⟩
  have hunbound : ¬ Bound ⟨Function.update l.slots i none, a :: l.held,
      l.counts⟩ a := unbound_clear h hfull
  apply h.of_focus (a := a)
  · exact injective_clear h
  · intro b hne
    exact bound_update_other (by simpa [hfull] using hne.symm) nofun
  · exact fun b hne => List.count_cons_of_ne hne.symm
  · exact fun b _ => rfl
  · intro k hk
    obtain ⟨hcount, hpos⟩ := h.counted a k hk
    rw [owners_bound hbound] at hcount
    have hcons : (a :: l.held).count a = l.held.count a + 1 :=
      List.count_cons_self
    rw [owners_unbound hunbound]
    dsimp only
    rw [hcons]
    push_cast
    omega
  · intro hk
    exact absurd hbound (h.dead a hk).1

/-- The pointer of a slot is given up; the last one deletes the value. -/
theorem Balanced.clear (h : l.Balanced) (hfull : l.slots i = some a)
    (hn : l.counts a = some n) :
    Balanced ⟨Function.update l.slots i none, l.held,
      Function.update l.counts a (if 1 < n then some (n - 1) else none)⟩ := by
  have hlifted := h.lift hfull
  have hdropped := hlifted.drop List.mem_cons_self hn
  rw [List.erase_cons_head] at hdropped
  exact hdropped

end Slots

end Ledger

end Machine
