import Lorica.TypeCode
import Lorica.Lib.EagerSearch

/-!
`has_objref` on graphs of type codes. Recursive types lead back to themselves,
and the function keeps no record of where it has been: it ends when no cycle is
entered before a reference is found. Value types and value boxes it does not
look into.
-/

namespace Lorica

open Machine

namespace TypeNode

/-- The type codes a node leads to: members, elements and what an alias is
for. -/
def children : TypeNode → List Nat
  | tkStruct members => members
  | tkExcept _ members => members
  | tkUnion members => members
  | tkSequence content => [content]
  | tkArray content => [content]
  | tkAlias content => [content]
  | tkValue members => members
  | tkValueBox content => [content]
  | _ => []

/-- The type codes `has_objref` goes on to. -/
def searched : TypeNode → List Nat
  | tkStruct members => members
  | tkExcept _ members => members
  | tkUnion members => members
  | tkSequence content => [content]
  | tkArray content => [content]
  | _ => []

def isReference : TypeNode → Bool
  | tkObjref => true
  | tkAny => true
  | _ => false

/-- A value type or a value box. -/
def isValue : TypeNode → Bool
  | tkValue _ => true
  | tkValueBox _ => true
  | _ => false

theorem searched_eq_children {node : TypeNode} (halias : ∀ content, node ≠ .tkAlias content)
    (hvalue : node.isValue = false) : node.searched = node.children := by
  cases node with
  | tkAlias content => exact absurd rfl (halias content)
  | tkValue | tkValueBox => cases hvalue
  | _ => rfl

theorem searched_subset (node : TypeNode) : node.searched ⊆ node.children := by
  cases node with
  | tkStruct | tkExcept | tkUnion | tkSequence | tkArray => exact List.Subset.refl _
  | _ => exact List.nil_subset _

end TypeNode

namespace TypeGraph

variable (g : TypeGraph)

/-! ## Graphs of type codes -/

def Step (tc tc' : Nat) : Prop := tc' ∈ (g.node tc).children

/-- A reference or an any is reachable. -/
def Reaches (tc : Nat) : Prop :=
  ∃ tc', Relation.ReflTransGen g.Step tc tc' ∧ (g.node tc').isReference = true

def searchTarget (tc : Nat) : Bool := (g.kind tc).isReference

def searchEdges (tc : Nat) : List Nat := (g.kind tc).searched

/-- A reference or an any is reachable and not in a value type or a value box. -/
def ReachesPlainly (tc : Nat) : Prop := EagerSearch.Leads g.searchTarget g.searchEdges tc

/-- `has_objref` of the one type code asks for the other: nothing was found
before. -/
def Enters (tc tc' : Nat) : Prop :=
  EagerSearch.Enters g.searchTarget g.searchEdges tc tc'

/-- `has_objref` returns, given room enough, and what it says is so. -/
def FindsReferences (tc : Nat) : Prop :=
  ∃ b, (b = true ↔ g.Reaches tc) ∧
    ∃ depth, ∀ depth' ≥ depth, g.hasObjref depth' tc = .ok b

section

variable {g} {tc tc' : Nat}

theorem hasObjref_eq_search (depth tc : Nat) :
    g.hasObjref depth tc =
      EagerSearch.search g.searchTarget g.searchEdges .stackExhausted depth tc := by
  induction depth generalizing tc with
  | zero => rfl
  | succ depth ih =>
      have hfun : g.hasObjref depth =
          EagerSearch.search g.searchTarget g.searchEdges .stackExhausted depth :=
        funext ih
      rw [hasObjref, EagerSearch.search, hfun]
      unfold searchTarget searchEdges
      cases g.kind tc with
      | tkSequence content => exact (EagerSearch.anyM_singleton content).symm
      | tkArray content => exact (EagerSearch.anyM_singleton content).symm
      | _ => rfl

/-! ## Aliases -/

theorem step_unaliasWithin (n tc : Nat) :
    Relation.ReflTransGen g.Step tc (g.unaliasWithin n tc) := by
  induction n generalizing tc with
  | zero => exact .refl
  | succ n ih =>
      cases hnode : g.node tc with
      | tkAlias content =>
          simp only [unaliasWithin, hnode]
          have hstep : g.Step tc content := by simp [Step, hnode, TypeNode.children]
          exact .head hstep (ih content)
      | _ => simp only [unaliasWithin, hnode, Relation.ReflTransGen.refl]

theorem step_unalias (tc : Nat) : Relation.ReflTransGen g.Step tc (g.unalias tc) :=
  step_unaliasWithin _ tc

theorem steps_of_mem_searchEdges (h : tc' ∈ g.searchEdges tc) :
    Relation.ReflTransGen g.Step tc tc' :=
  .tail (step_unalias tc) (TypeNode.searched_subset _ h)

theorem ReachesPlainly.reaches (h : g.ReachesPlainly tc) : g.Reaches tc := by
  obtain ⟨goal, hpath, hgoal⟩ := h
  have hsteps : Relation.ReflTransGen g.Step tc goal := by
    clear hgoal
    induction hpath with
    | refl => exact .refl
    | tail _ hedge ih => exact ih.trans (steps_of_mem_searchEdges hedge)
  exact ⟨g.unalias goal, hsteps.trans (step_unalias goal), hgoal⟩

/-- `has_objref` sees through an alias. -/
theorem ReachesPlainly.of_alias {content : Nat} (hnode : g.node tc = .tkAlias content)
    (h : g.ReachesPlainly content) : g.ReachesPlainly tc := by
  have hkind := g.kind_alias hnode
  obtain ⟨goal, hpath, hgoal⟩ := h
  rcases hpath.cases_head with rfl | ⟨next, hedge, hrest⟩
  · refine ⟨tc, .refl, ?_⟩
    unfold searchTarget at hgoal ⊢
    rwa [hkind]
  · have hsame : g.searchEdges tc = g.searchEdges content := congrArg TypeNode.searched hkind
    refine ⟨goal, .head ?_ hrest, hgoal⟩
    change next ∈ g.searchEdges tc
    rwa [hsame]

/-- Nothing is missed where there are no value types and value boxes. The
induction is on the way to the reference. -/
theorem Reaches.plainly
    (hplain : ∀ tc', Relation.ReflTransGen g.Step tc tc' → (g.node tc').isValue = false)
    (h : g.Reaches tc) : g.ReachesPlainly tc := by
  obtain ⟨goal, hsteps, hgoal⟩ := h
  induction hsteps using Relation.ReflTransGen.head_induction_on with
  | refl =>
      refine ⟨goal, .refl, ?_⟩
      unfold searchTarget
      rw [g.kind_of_ne_alias fun content hnode => by rw [hnode] at hgoal; cases hgoal]
      exact hgoal
  | @head tc next hstep _ ih =>
      have hnext := ih fun tc' h => hplain tc' (.head hstep h)
      by_cases halias : ∃ content, g.node tc = .tkAlias content
      · obtain ⟨content, hnode⟩ := halias
        unfold Step at hstep
        rw [hnode] at hstep
        obtain rfl := List.mem_singleton.mp hstep
        exact .of_alias hnode hnext
      · rw [not_exists] at halias
        obtain ⟨target, hpath, htarget⟩ := hnext
        refine ⟨target, .head ?_ hpath, htarget⟩
        change next ∈ (g.kind tc).searched
        rw [g.kind_of_ne_alias halias,
          TypeNode.searched_eq_children halias (hplain tc .refl)]
        exact hstep

theorem steps_of_enters (h : Relation.ReflTransGen g.Enters tc tc') :
    Relation.ReflTransGen g.Step tc tc' := by
  induction h with
  | refl => exact .refl
  | tail _ henters ih =>
      obtain ⟨-, before, after, heq, -⟩ := henters
      exact ih.trans (steps_of_mem_searchEdges (by simp [heq]))

/-! ## The search -/

theorem hasObjref_correct {depth : Nat} {b : Bool} (h : g.hasObjref depth tc = .ok b) :
    b = true ↔ g.ReachesPlainly tc := by
  rw [hasObjref_eq_search] at h
  exact EagerSearch.search_correct h

theorem hasObjref_mono {depth depth' : Nat} {b : Bool} (hle : depth ≤ depth')
    (h : g.hasObjref depth tc = .ok b) : g.hasObjref depth' tc = .ok b := by
  rw [hasObjref_eq_search] at h ⊢
  exact EagerSearch.search_mono hle h

theorem hasObjref_error {depth : Nat} {cause : Fault}
    (h : g.hasObjref depth tc = .error cause) : cause = .stackExhausted := by
  rw [hasObjref_eq_search] at h
  exact EagerSearch.search_error h

/-- In a finite graph `has_objref` is right about a type code exactly when
nothing it has to enter leads back to itself, and no reference is hidden in a
value. -/
theorem findsReferences_iff_acyclic
    (hfinite : {tc' | Relation.ReflTransGen g.Step tc tc'}.Finite) :
    g.FindsReferences tc ↔
      (∀ tc', Relation.ReflTransGen g.Enters tc tc' →
        ¬ Relation.TransGen g.Enters tc' tc') ∧
      (g.Reaches tc → g.ReachesPlainly tc) := by
  have hentered : {tc' | Relation.ReflTransGen g.Enters tc tc'}.Finite :=
    hfinite.subset fun _ h => steps_of_enters h
  rw [← EagerSearch.acc_iff_acyclic hentered]
  constructor
  · rintro ⟨b, hb, depth, hdepth⟩
    have hsearch := hdepth depth le_rfl
    constructor
    · apply EagerSearch.returns_iff_acc.mp
      exact ⟨depth, b, (hasObjref_eq_search depth tc).symm.trans hsearch⟩
    · exact fun hreaches => (hasObjref_correct hsearch).mp (hb.mpr hreaches)
  · rintro ⟨hacc, hplain⟩
    have hreturns : EagerSearch.Returns g.searchTarget g.searchEdges
        Fault.stackExhausted tc := EagerSearch.returns_iff_acc.mpr hacc
    obtain ⟨depth, b, hb, hdepth⟩ := hreturns.answer
    refine ⟨b, hb.trans ⟨ReachesPlainly.reaches, hplain⟩, depth, fun depth' hle => ?_⟩
    rw [hasObjref_eq_search]
    exact hdepth depth' hle

end

/-! `struct Node { long value; sequence<Node> children; }` -/

def nodeTypes : TypeGraph where
  node tc :=
    match tc with
    | 0 => .tkStruct [2, 1]
    | 1 => .tkSequence 0
    | _ => .tkBasic
  aliases _ := 0
  alias_lt tc content h := by
    split at h <;> simp at h

theorem nodeTypes_steps {tc : Nat} (h : Relation.ReflTransGen nodeTypes.Step 0 tc) :
    tc ∈ ({0, 1, 2} : Set Nat) := by
  induction h with
  | refl => simp
  | tail _ hstep ih =>
      rcases ih with rfl | rfl | rfl
      · rcases List.mem_cons.mp hstep with rfl | hstep
        · simp
        · obtain rfl := List.mem_singleton.mp hstep
          simp
      · obtain rfl := List.mem_singleton.mp hstep
        simp
      · exact absurd hstep (List.not_mem_nil)

theorem nodeTypes_finite : {tc | Relation.ReflTransGen nodeTypes.Step 0 tc}.Finite :=
  (Set.toFinite {0, 1, 2}).subset fun _ h => nodeTypes_steps h

theorem findsReferences_nodeTypes :
    nodeTypes.FindsReferences 0 ↔
      (∀ tc, Relation.ReflTransGen nodeTypes.Enters 0 tc →
        ¬ Relation.TransGen nodeTypes.Enters tc tc) ∧
      (nodeTypes.Reaches 0 → nodeTypes.ReachesPlainly 0) :=
  findsReferences_iff_acyclic nodeTypes_finite

/-- However large the stack is, it is exhausted. -/
theorem nodeTypes_exhausted (depth : Nat) :
    nodeTypes.hasObjref depth 0 = .error .stackExhausted ∧
      nodeTypes.hasObjref depth 1 = .error .stackExhausted := by
  induction depth with
  | zero => exact ⟨rfl, rfl⟩
  | succ depth ih =>
      refine ⟨?_, ih.1⟩
      change [2, 1].anyM (nodeTypes.hasObjref depth) = _
      cases depth with
      | zero => rfl
      | succ depth =>
          have hvalue : nodeTypes.hasObjref (depth + 1) 2 = .ok false := rfl
          rw [List.anyM_cons, hvalue]
          change [1].anyM (nodeTypes.hasObjref (depth + 1)) = _
          rw [EagerSearch.anyM_singleton]
          exact ih.2

theorem not_findsReferences_nodeTypes :
    {tc | Relation.ReflTransGen nodeTypes.Step 0 tc}.Finite ∧
      ¬ nodeTypes.FindsReferences 0 := by
  refine ⟨nodeTypes_finite, ?_⟩
  rintro ⟨b, -, depth, hdepth⟩
  have hanswer := hdepth depth le_rfl
  rw [(nodeTypes_exhausted depth).1] at hanswer
  cases hanswer

end TypeGraph

end Lorica
