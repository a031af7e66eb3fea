import Lorica.OperationTable

/-!
What the tree of operations is for: a map from an operation and a repository
id to the argument list that was added first. The tree is driven through the
pointers that `find_or_add` returns; the map is the list of what was added.
-/

namespace Lorica

open Machine

inductive TableCall where
  | findOrAdd (opname : String)
  /-- `op_ptr->add_set (new OpArgs (repId, a))`, with the pointer that the
  `node`-th call of `find_or_add` returned -/
  | addSet (node : Nat) (repId : String) (a : Nat)

/-- The table, the pointers that were returned with the names they were
returned for, and what was added under a name and an id. -/
structure TableHistory (T : Type) where
  table : OperationTable T
  nodes : List (List Turn × String)
  added : List ((String × String) × Nat)

namespace OperationTable

variable {T : Type}

/-- `find_or_add` with the pointer it returns. -/
def findOrAddNode (cmp : Strcmp) (opname : String) (t : OperationTable T) :
    List Turn × OperationTable T :=
  ((t.findOrAdd cmp opname).head.path cmp.turn opname, t.findOrAdd cmp opname)

/-- `add_set` of the operation a pointer is to. -/
def addSetAt (node : List Turn) (repId : String) (a : Nat) (t : OperationTable T) :
    OperationTable T :=
  { t.addRef a with head := t.head.modifyAt node (· ++ [(repId, a)]) }

end OperationTable

namespace TableHistory

variable {T : Type}

def step (cmp : Strcmp) (s : TableHistory T) : TableCall → Option (TableHistory T)
  | .findOrAdd opname =>
      let (node, table) := s.table.findOrAddNode cmp opname
      some { s with table := table, nodes := s.nodes ++ [(node, opname)] }
  | .addSet i repId a =>
      s.nodes[i]?.map fun (node, opname) =>
        { s with
          table := s.table.addSetAt node repId a
          added := s.added ++ [((opname, repId), a)] }

/-- Any sequence of calls on a table that starts without a node. -/
def system (T : Type) (cmp : Strcmp) : System (TableHistory T) TableCall where
  init s := s = ⟨.empty, [], []⟩
  step := step cmp

/-- The chain of an operation is what was added under its name, in order. -/
def Chained (cmp : Strcmp) (s : TableHistory T) : Prop :=
  ∀ opname, s.table.chain cmp opname =
    (s.added.filter fun e => e.1.1 = opname).map fun e => (e.1.2, e.2)

/-- A pointer leads to the operation it was returned for. -/
def Pointed (cmp : Strcmp) (s : TableHistory T) : Prop :=
  ∀ n ∈ s.nodes, (s.table.head.find? cmp.turn n.2).isSome ∧
    n.1 = s.table.head.path cmp.turn n.2

structure Refines (cmp : Strcmp) (s : TableHistory T) : Prop where
  steered : s.table.head.Steered cmp.turn
  pointed : s.Pointed cmp
  chained : s.Chained cmp

section Steps

variable {cmp : Strcmp} {s s' : TableHistory T}

theorem refines_initial : (⟨.empty, [], []⟩ : TableHistory T).Refines cmp where
  steered := trivial
  pointed _ hn := absurd hn List.not_mem_nil
  chained _ := rfl

theorem Refines.findOrAdd (h : s.Refines cmp) (opname : String) :
    Refines cmp { s with
      table := (s.table.findOrAddNode cmp opname).2
      nodes := s.nodes ++ [((s.table.findOrAddNode cmp opname).1, opname)] } where
  steered := h.steered.ensure cmp.turn_here opname []
  pointed := by
    intro n hn
    rcases List.mem_append.mp hn with hn | hn
    · obtain ⟨hsome, hpath⟩ := h.pointed n hn
      refine ⟨?_, hpath.trans (SteeredTree.path_ensure [] hsome).symm⟩
      by_cases hname : n.2 = opname
      · rw [hname]
        exact Option.isSome_iff_exists.mpr ⟨_, SteeredTree.find?_ensure_self cmp.turn_here _ _ _⟩
      · exact (SteeredTree.find?_ensure_ne cmp.turn_here hname [] s.table.head).symm ▸ hsome
    · obtain rfl := List.mem_singleton.mp hn
      exact ⟨Option.isSome_iff_exists.mpr
        ⟨_, SteeredTree.find?_ensure_self cmp.turn_here _ _ _⟩, rfl⟩
  chained := by
    intro name
    rw [← h.chained name]
    simp only [OperationTable.findOrAddNode, OperationTable.findOrAdd, OperationTable.chain]
    by_cases hname : name = opname
    · rw [hname, SteeredTree.find?_ensure_self cmp.turn_here, Option.getD_some]
    · rw [SteeredTree.find?_ensure_ne cmp.turn_here hname]

theorem Refines.addSet (h : s.Refines cmp) {node : List Turn} {opname : String}
    (hn : (node, opname) ∈ s.nodes) (repId : String) (a : Nat) :
    Refines cmp { s with
      table := s.table.addSetAt node repId a
      added := s.added ++ [((opname, repId), a)] } := by
  obtain ⟨hsome, hpath⟩ := h.pointed _ hn
  have hhead : (s.table.addSetAt node repId a).head =
      s.table.head.modify cmp.turn opname (· ++ [(repId, a)]) := by
    rw [← SteeredTree.modifyAt_path]
    exact congrArg (s.table.head.modifyAt · _) hpath
  refine ⟨?_, ?_, ?_⟩
  · dsimp only
    rw [hhead]
    exact h.steered.modify opname _
  · intro n hn'
    obtain ⟨hsome', hpath'⟩ := h.pointed n hn'
    dsimp only
    rw [hhead, SteeredTree.path_modify]
    refine ⟨?_, hpath'⟩
    by_cases hname : n.2 = opname
    · rw [hname, SteeredTree.find?_modify_self, Option.isSome_map]
      exact hsome
    · rw [SteeredTree.find?_modify_ne cmp.turn_here hname]
      exact hsome'
  · intro name
    simp only [OperationTable.chain, hhead, List.filter_append, List.map_append]
    by_cases hname : name = opname
    · subst hname
      obtain ⟨chain, hchain⟩ := Option.isSome_iff_exists.mp hsome
      have hold := h.chained name
      rw [OperationTable.chain, hchain, Option.getD_some] at hold
      rw [SteeredTree.find?_modify_self, hchain, Option.map_some, Option.getD_some, hold]
      simp
    · rw [SteeredTree.find?_modify_ne cmp.turn_here hname]
      simpa [OperationTable.chain, Ne.symm hname] using h.chained name

theorem Refines.step (h : s.Refines cmp) {call : TableCall}
    (hstep : s.step cmp call = some s') : s'.Refines cmp := by
  cases call with
  | findOrAdd opname =>
      obtain rfl := Option.some.inj hstep
      exact h.findOrAdd opname
  | addSet i repId a =>
      obtain ⟨⟨node, opname⟩, hnode, rfl⟩ := Option.map_eq_some_iff.mp hstep
      exact h.addSet (List.mem_of_getElem? hnode) repId a

theorem refines_of_reach (h : (system T cmp).Reachable s) : s.Refines cmp := by
  refine h.invariant ?_ fun s call s' hs _ hstep => hs.step hstep
  rintro s rfl
  exact refines_initial

/-- A lookup among everything added, and among what was added under one name. -/
theorem lookup_filter_name (added : List ((String × String) × Nat)) (opname repId : String) :
    ((added.filter fun e => e.1.1 = opname).map fun e => (e.1.2, e.2)).lookup repId =
      added.lookup (opname, repId) := by
  induction added with
  | nil => rfl
  | cons e rest ih =>
      obtain ⟨⟨name, id⟩, a⟩ := e
      by_cases hname : name = opname
      · subst hname
        by_cases hid : repId = id
        · subst hid
          simp
        · have hkey : ((name, repId) == (name, id)) = false := by simp [hid]
          have hid' : (repId == id) = false := by simp [hid]
          simp [List.lookup_cons, hkey, hid', ih]
      · have hkey : ((opname, repId) == (name, id)) = false := by simp [Ne.symm hname]
        simp [List.lookup_cons, hkey, hname, ih]

theorem Refines.find_eq (h : s.Refines cmp) (opname repId : String) :
    (s.table.find cmp opname repId).1 = s.added.lookup (opname, repId) := by
  rw [OperationTable.find_eq, h.chained opname, lookup_filter_name]

/-- The pointer that was just returned is to the node of its name. -/
theorem addSetAt_new (opname repId : String) (a : Nat) (t : OperationTable T) :
    ((t.findOrAddNode cmp opname).2.addSetAt (t.findOrAddNode cmp opname).1 repId a).head =
      ((t.findOrAdd cmp opname).addSet cmp opname repId a).head :=
  SteeredTree.modifyAt_path _ _ _

end Steps

/-- The constructor makes such calls: the tree of a new table is reached. -/
theorem create_reached (cmp : Strcmp) (prims : OperationTable.Primitives T) :
    ∃ s : TableHistory T, (system T cmp).Reachable s ∧
      s.table.head = (OperationTable.create cmp prims).head := by
  let id := "IDL:org.omg/CORBA/Object:1.0"
  let first := (OperationTable.empty : OperationTable T).findOrAddNode cmp "_is_a"
  let second := (first.2.addSetAt first.1 id 0).findOrAddNode cmp "_non_existent"
  have hfirst : (system T cmp).Reachable ⟨first.2, [(first.1, "_is_a")], []⟩ :=
    @System.Reach.next _ _ _ _ _ _ (.findOrAdd "_is_a") (.start rfl) trivial rfl
  have hisA := @System.Reach.next _ _ _ _ _ _ (.addSet 0 id 0) hfirst trivial rfl
  have hsecond := @System.Reach.next _ _ _ _ _ _ (.findOrAdd "_non_existent") hisA trivial rfl
  have hnonExistent := @System.Reach.next _ _ _ _ _ _ (.addSet 1 id 1) hsecond trivial rfl
  refine ⟨_, hnonExistent, ?_⟩
  have hhead : (first.2.addSetAt first.1 id 0).head =
      ((OperationTable.addIsA cmp prims id .empty).2).head := addSetAt_new _ _ _ _
  change (second.2.addSetAt second.1 id 1).head = _
  rw [addSetAt_new]
  change ((first.2.addSetAt first.1 id 0).head.ensure cmp.turn "_non_existent" []).modify
    cmp.turn "_non_existent" (· ++ [(id, 1)]) = _
  rw [hhead]
  rfl

/-- For every comparison that is zero exactly on equal names, after every
sequence of calls: `find` answers with the argument list that was added first
under the operation and the id, no two nodes have one name, and no further
call hides an entry. -/
theorem find_first_added (T : Type) (cmp : Strcmp) {s : TableHistory T}
    (h : (system T cmp).Reachable s) :
    (∀ opname repId,
      (s.table.find cmp opname repId).1 = s.added.lookup (opname, repId)) ∧
    s.table.head.keys.Nodup ∧
    ∀ call s', s.step cmp call = some s' → ∀ opname repId a,
      (s.table.find cmp opname repId).1 = some a →
      (s'.table.find cmp opname repId).1 = some a := by
  have hrefines := refines_of_reach h
  refine ⟨hrefines.find_eq, hrefines.steered.nodup cmp.turn_here, ?_⟩
  intro call s' hstep opname repId a hfound
  rw [hrefines.find_eq] at hfound
  rw [(hrefines.step hstep).find_eq]
  cases call with
  | findOrAdd name =>
      obtain rfl := Option.some.inj hstep
      exact hfound
  | addSet i id b =>
      obtain ⟨node, -, rfl⟩ := Option.map_eq_some_iff.mp hstep
      rw [List.lookup_append, hfound, Option.some_or]

/-- Two argument lists under one name and id. -/
def addedTwice : List TableCall :=
  [.findOrAdd "op", .addSet 0 "I" 7, .findOrAdd "other", .findOrAdd "op", .addSet 2 "I" 9]

theorem find_first_added_twice :
    ∃ s : TableHistory Nat, s.added = [(("op", "I"), 7), (("op", "I"), 9)] ∧
      (s.table.find .sign "op" "I").1 = some 7 := by
  obtain ⟨s, hs⟩ := Option.isSome_iff_exists.mp (show
    ((system Nat .sign).replay (fun _ _ => True) ⟨.empty, [], []⟩ addedTwice).isSome by decide)
  have hadded : s.added = [(("op", "I"), 7), (("op", "I"), 9)] :=
    System.replay_read TableHistory.added hs (by decide)
  refine ⟨s, hadded, ?_⟩
  rw [(find_first_added Nat .sign (System.Reach.of_replay (.start rfl) _ hs)).1, hadded]
  decide

end TableHistory

end Lorica
