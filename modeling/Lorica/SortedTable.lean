import Mathlib.Data.String.Basic
import Lorica.TableRefinement
import Lorica.Lib.SearchTree

/-!
"OperationTable is a collection Operation objects, sorted by opname". ISO C
fixes the sign of what `strcmp` answers and nothing else; `find_or_add` goes
right on 1 alone.
-/

namespace Lorica

open Machine

namespace Strcmp

/-- ISO C: the sign tells which string is greater. -/
def Conforms (cmp : Strcmp) : Prop :=
  ∀ a b, (cmp.compare a b < 0 ↔ a < b) ∧ (0 < cmp.compare a b ↔ b < a)

/-- The names were added in an order that parts them: one that comes after a
smaller one, and for which `strcmp` answers more than 1, comes after a third
that lies between the two. -/
def Parts (cmp : Strcmp) (names : List String) : Prop :=
  ∀ pre a rest, names = pre ++ a :: rest → ∀ b ∈ rest, 1 < cmp.compare b a →
    ∃ m ∈ pre, a < m ∧ m ≤ b

theorem Conforms.turn_right {cmp : Strcmp} (h : cmp.Conforms) (a b : String)
    (hturn : cmp.turn a b = .right) : b < a := by
  unfold turn at hturn
  split at hturn
  · exact absurd hturn (by decide)
  · split at hturn
    · next hone => exact (h a b).2.mp (by omega)
    · exact absurd hturn (by decide)

/-- A greater name goes left exactly when `strcmp` answers more than 1. -/
theorem Conforms.astray_iff {cmp : Strcmp} (h : cmp.Conforms) (a b : String) :
    cmp.turn b a = .left ∧ a < b ↔ 1 < cmp.compare b a := by
  rw [← (h b a).2]
  unfold turn
  split
  · simp_all
  · split
    · simp_all
    · simp only [true_and]
      omega

theorem Conforms.parts_iff {cmp : Strcmp} (h : cmp.Conforms) (names : List String) :
    cmp.Parts names ↔ SteeredTree.Parted cmp.turn names := by
  simp only [Parts, SteeredTree.Parted, ← h.astray_iff, and_imp]

theorem sign_conforms : sign.Conforms := by
  intro a b
  unfold sign
  dsimp only
  rcases lt_trichotomy a b with h | rfl | h
  · simp [h, h.ne, h.not_gt]
  · simp
  · simp [h, h.ne', h.not_gt]

/-! The comparison of C libraries that subtract the first bytes that differ. -/

def byteDifference : List Char → List Char → Int
  | [], [] => 0
  | [], d :: _ => -d.toNat
  | c :: _, [] => c.toNat
  | c :: s, d :: t => if c = d then byteDifference s t else (c.toNat : Int) - d.toNat

/-- A string of C ends at the first zero, so the sign is asked for equal ones
only. -/
def difference : Strcmp where
  compare a b :=
    if byteDifference a.toList b.toList = 0 then sign.compare a b
    else byteDifference a.toList b.toList
  eq_zero a b := by
    split
    · exact sign.eq_zero a b
    · next h =>
        refine ⟨fun hzero => absurd hzero h, ?_⟩
        rintro rfl
        have hself : ∀ s, byteDifference s s = 0 := by
          intro s
          induction s with
          | nil => rfl
          | cons c s ih => simp [byteDifference, ih]
        exact hself a.toList

theorem byteDifference_sign (s t : List Char) :
    (byteDifference s t < 0 → s < t) ∧ (0 < byteDifference s t → t < s) := by
  induction s generalizing t with
  | nil =>
      cases t with
      | nil => simp [byteDifference]
      | cons d t =>
          simp only [byteDifference]
          exact ⟨fun _ => List.nil_lt_cons d t, fun h => absurd h (by omega)⟩
  | cons c s ih =>
      cases t with
      | nil =>
          simp only [byteDifference]
          exact ⟨fun h => absurd h (by omega), fun _ => List.nil_lt_cons c s⟩
      | cons d t =>
          simp only [byteDifference]
          split
          · next h =>
              subst h
              simpa only [List.cons_lt_cons_self] using ih t
          · constructor
            · intro h
              have hlt : c.toNat < d.toNat := by omega
              exact List.Lex.rel hlt
            · intro h
              have hlt : d.toNat < c.toNat := by omega
              exact List.Lex.rel hlt

theorem difference_conforms : difference.Conforms := by
  have hsign : ∀ a b, (difference.compare a b < 0 → a < b) ∧
      (0 < difference.compare a b → b < a) := by
    intro a b
    unfold difference
    dsimp only
    split
    · exact ⟨(sign_conforms a b).1.mp, (sign_conforms a b).2.mp⟩
    · exact byteDifference_sign a.toList b.toList
  intro a b
  refine ⟨⟨(hsign a b).1, fun h => ?_⟩, ⟨(hsign a b).2, fun h => ?_⟩⟩
  · have hne := (difference.eq_zero a b).not.mpr h.ne
    have hnot : ¬ 0 < difference.compare a b := fun hpos => h.not_gt ((hsign a b).2 hpos)
    omega
  · have hne := (difference.eq_zero a b).not.mpr h.ne'
    have hnot : ¬ difference.compare a b < 0 := fun hneg => h.not_gt ((hsign a b).1 hneg)
    omega

end Strcmp

namespace TableHistory

variable {T : Type} {cmp : Strcmp} {s s' : TableHistory T}

/-- The names `find_or_add` was called with, in order. -/
def names (s : TableHistory T) : List String := s.nodes.map Prod.snd

/-- `add_set` moves no node. -/
theorem step_shape {call : TableCall} (hstep : s.step cmp call = some s')
    (h : s.table.head.shape = SteeredTree.grow cmp.turn s.names) :
    s'.table.head.shape = SteeredTree.grow cmp.turn s'.names := by
  cases call with
  | findOrAdd opname =>
      obtain rfl := Option.some.inj hstep
      have hnames : SteeredTree.grow cmp.turn (s.names ++ [opname]) =
          (SteeredTree.grow cmp.turn s.names).ensure cmp.turn opname () := by
        rw [SteeredTree.grow, List.foldl_append]
        rfl
      simp only [names, List.map_append, List.map_cons, List.map_nil] at hnames ⊢
      rw [hnames]
      exact (SteeredTree.shape_ensure ..).trans (congrArg _ h)
  | addSet i repId a =>
      obtain ⟨node, -, rfl⟩ := Option.map_eq_some_iff.mp hstep
      exact (SteeredTree.shape_modifyAt ..).trans h

theorem shape_of_reach (h : (system T cmp).Reachable s) :
    s.table.head.shape = SteeredTree.grow cmp.turn s.names := by
  apply System.Reach.invariant _ _ h
  · rintro s rfl
    rfl
  · intro s call s' hs _ hstep
    exact step_shape hstep hs

/-- After any sequence of calls the tree is a search tree exactly when the names
were added in an order that parts them. -/
theorem sorted_iff_parts (T : Type) (hcmp : cmp.Conforms) {s : TableHistory T}
    (h : (system T cmp).Reachable s) : s.table.head.Sorted ↔ cmp.Parts s.names := by
  rw [← SteeredTree.sorted_shape, shape_of_reach h, hcmp.parts_iff]
  exact SteeredTree.sorted_grow_iff cmp.turn_here hcmp.turn_right _

theorem sorted_iff_parts_create :
    ∃ s : TableHistory Nat, s.table.head = (OperationTable.create .difference ⟨0, 1, 2⟩).head ∧
      (s.table.head.Sorted ↔ Strcmp.difference.Parts s.names) := by
  obtain ⟨s, hreach, hhead⟩ := create_reached .difference ⟨0, 1, 2⟩
  exact ⟨s, hhead, sorted_iff_parts Nat Strcmp.difference_conforms hreach⟩

/-- The two names of every table: for "_non_existent" and "_is_a" the difference
is 5, so the greater name is put on the left. -/
theorem not_sorted_create :
    Strcmp.difference.Conforms ∧
    ∃ s : TableHistory Nat, (system Nat .difference).Reachable s ∧
      s.table.head = (OperationTable.create .difference ⟨0, 1, 2⟩).head ∧
      ¬ s.table.head.Sorted := by
  obtain ⟨s, hreach, hhead⟩ := create_reached .difference (⟨0, 1, 2⟩ : OperationTable.Primitives Nat)
  refine ⟨Strcmp.difference_conforms, s, hreach, hhead, ?_⟩
  have htree : (OperationTable.create .difference (⟨0, 1, 2⟩ : OperationTable.Primitives Nat)).head =
      .node "_is_a" [("IDL:org.omg/CORBA/Object:1.0", 0)]
        (.node "_non_existent" [("IDL:org.omg/CORBA/Object:1.0", 1)] .leaf .leaf) .leaf := by
    decide
  rw [hhead, htree]
  rintro ⟨hleft, -⟩
  have hlt := hleft "_non_existent" (List.mem_cons_self ..)
  have hcompare := (Strcmp.difference_conforms "_non_existent" "_is_a").1.mpr hlt
  exact absurd hcompare (by decide)

end TableHistory

end Lorica
