import Lorica.Lib.SteeredTree
import Lorica.Lib.Runs

/-!
`OperationTable.cpp` without `add_interface`: the description of an
operation's arguments, and the search tree from operation names to the
interfaces that have an operation of that name. Argument lists are counted
and shared between interfaces; an address is never reused here, as no list in
the table is ever deleted.
-/

namespace Lorica

open Machine

/-- `CORBA::Flags`; a result and an exception are initialized with 0. -/
inductive Flags where
  | unset
  | argIn
  | argOut
  | argInout
deriving DecidableEq, Repr

/-- `must_proxy_` is -1 while it is unknown whether the type has an object
reference in it. -/
structure Arg (T : Type) where
  tc : Option T
  mode : Flags
  mustProxy : Int
deriving DecidableEq, Repr

namespace Arg

variable {T : Type}

/-- `Arg::Arg ()` -/
def nil : Arg T := ⟨none, .unset, -1⟩

/-- `Arg::init` -/
def init (tc : Option T) (mode : Flags) : Arg T := ⟨tc, mode, -1⟩

end Arg

/-- An argument list without its reference count. -/
structure ArgList (T : Type) where
  mustProxyIn : Int
  mustProxyOut : Int
  result : Arg T
  args : List (Arg T)
  exceptions : List (Arg T)
  isOneway : Bool
deriving DecidableEq, Repr

namespace ArgList

variable {T : Type}

/-- `ArgList::ArgList (argc, excepc, oneway)` followed by `set_arg` and
`set_excep` for every position, and by `result` unless there is none. -/
def create (args : List (T × Flags)) (exceptions : List T) (oneway : Bool)
    (result : Option T) : ArgList T where
  mustProxyIn := -1
  mustProxyOut := -1
  result := match result with
    | none => .nil
    | some tc => .init (some tc) .unset
  args := args.map fun a => .init (some a.1) a.2
  exceptions := exceptions.map fun tc => .init (some tc) .unset
  isOneway := oneway

/-- `must_proxy (mode)` -/
def mustProxy (l : ArgList T) (mode : Flags) : Int :=
  if mode = .argIn then l.mustProxyIn else l.mustProxyOut

end ArgList

/-- `strcmp`, of which the table only relies on zero meaning equal. -/
structure Strcmp where
  compare : String → String → Int
  eq_zero : ∀ a b, compare a b = 0 ↔ a = b

namespace Strcmp

/-- The table goes right on 1 and left on every other difference. -/
def turn (cmp : Strcmp) (a b : String) : Turn :=
  if cmp.compare a b = 0 then .here
  else if cmp.compare a b = 1 then .right
  else .left

theorem turn_here (cmp : Strcmp) (a b : String) :
    cmp.turn a b = .here ↔ a = b := by
  rw [← cmp.eq_zero]
  unfold turn
  split
  · next h => exact ⟨fun _ => h, fun _ => rfl⟩
  · next h =>
      have hne : (if cmp.compare a b = 1 then Turn.right else .left) ≠ .here := by
        split <;> decide
      exact ⟨fun hturn => absurd hturn hne, fun hzero => absurd hzero h⟩

/-- A `strcmp` that answers with the sign. -/
def sign : Strcmp where
  compare a b := if a = b then 0 else if a < b then -1 else 1
  eq_zero a b := by
    constructor
    · intro h
      by_contra hne
      rw [if_neg hne] at h
      split at h <;> omega
    · intro h
      rw [if_pos h]

end Strcmp

/-- `OpArgs`: an interface id and the address of an argument list. -/
abbrev OpArgs := String × Nat

/-- The head of the tree of `Operation`s, each with its chain of `OpArgs`, and
the argument lists with their counts. -/
structure OperationTable (T : Type) where
  head : SteeredTree String (List OpArgs)
  lists : Nat → Option (ArgList T × Int)
  fresh : Nat

namespace OperationTable

variable {T : Type}

section Operations

def empty : OperationTable T := ⟨.leaf, fun _ => none, 0⟩

/-- `new ArgList`: the count starts at 1. -/
def newList (l : ArgList T) (t : OperationTable T) : OperationTable T :=
  { t with
    lists := Function.update t.lists t.fresh (some (l, 1))
    fresh := t.fresh + 1 }

/-- `add_ref` -/
def addRef (a : Nat) (t : OperationTable T) : OperationTable T :=
  { t with lists := fun b =>
      if b = a then (t.lists b).map fun c => (c.1, c.2 + 1) else t.lists b }

/-- `remove_ref`: the list deletes itself when the count reaches 0. -/
def removeRef (a : Nat) (t : OperationTable T) : OperationTable T :=
  { t with lists := fun b =>
      if b = a then
        (t.lists b).bind fun c => if c.2 - 1 = 0 then none else some (c.1, c.2 - 1)
      else t.lists b }

/-- `result.addRef ()` when there is a result. -/
def addRefIf (wanted : Bool) (a : Nat) (t : OperationTable T) : OperationTable T :=
  if wanted then t.addRef a else t

variable (cmp : Strcmp)

/-- The chain of the operation of this name; empty when it has no node. -/
def chain (t : OperationTable T) (opname : String) : List OpArgs :=
  (t.head.find? cmp.turn opname).getD []

/-- `OperationTable::find` -/
def find (opname repId : String) (t : OperationTable T) :
    Option Nat × OperationTable T :=
  match t.head.find? cmp.turn opname with
  | none => (none, t)
  | some argSet =>
      match argSet.lookup repId with
      | none => (none, t)
      | some a => (some a, t.addRef a)

/-- `find_or_add`; the node it returns is spoken of by its name. -/
def findOrAdd (opname : String) (t : OperationTable T) : OperationTable T :=
  { t with head := t.head.ensure cmp.turn opname [] }

/-- `op->add_set (new OpArgs (repId, a))` -/
def addSet (opname repId : String) (a : Nat) (t : OperationTable T) :
    OperationTable T :=
  { t.addRef a with
    head := t.head.modify cmp.turn opname (· ++ [(repId, a)]) }

/-- The tail shared by attributes and operations in `add_interface`: the list
is kept for the caller if it is wanted, and noted for each of the ids. -/
def register (opname : String) (l : ArgList T) (ids : List String) (wanted : Bool)
    (t : OperationTable T) : OperationTable T :=
  let a := t.fresh
  let t := (t.findOrAdd cmp opname).newList l
  let t := t.addRefIf wanted a
  let t := ids.foldl (fun t repId => t.addSet cmp opname repId a) t
  t.removeRef a

/-- `add_is_a` and `add_non_existent`: the count of 1 the list starts with is
the caller's. -/
def addPseudo (opname repId : String) (l : ArgList T) (t : OperationTable T) :
    Nat × OperationTable T :=
  (t.fresh, (((t.findOrAdd cmp opname).newList l).addSet cmp opname repId t.fresh))

end Operations

/-- The type codes the table itself mentions. -/
structure Primitives (T : Type) where
  tcVoid : T
  tcBoolean : T
  tcString : T

namespace Primitives

variable (prims : Primitives T)

def isA : ArgList T :=
  .create [(prims.tcString, .argIn)] [] false (some prims.tcBoolean)

def nonExistent : ArgList T :=
  .create [] [] false (some prims.tcBoolean)

end Primitives

section Pseudo

variable (cmp : Strcmp) (prims : Primitives T)

def addIsA (repId : String) (t : OperationTable T) : Nat × OperationTable T :=
  t.addPseudo cmp "_is_a" repId prims.isA

def addNonExistent (repId : String) (t : OperationTable T) :
    Nat × OperationTable T :=
  t.addPseudo cmp "_non_existent" repId prims.nonExistent

/-- `OperationTable::OperationTable` -/
def create : OperationTable T :=
  let (al, t) := addIsA cmp prims "IDL:org.omg/CORBA/Object:1.0" empty
  let t := t.removeRef al
  let (al, t) := addNonExistent cmp prims "IDL:org.omg/CORBA/Object:1.0" t
  t.removeRef al

end Pseudo

section Chains

variable {cmp : Strcmp} {t : OperationTable T}

theorem find_eq (opname repId : String) :
    (t.find cmp opname repId).1 = (t.chain cmp opname).lookup repId := by
  unfold find chain
  cases t.head.find? cmp.turn opname with
  | none => rfl
  | some argSet =>
      cases h : argSet.lookup repId with
      | none => simp only [h, Option.getD_some]
      | some a => simp only [h, Option.getD_some]

theorem find?_foldl_modify {h : SteeredTree String (List OpArgs)}
    {opname : String} {chain : List OpArgs} {a : Nat}
    (hnode : h.find? cmp.turn opname = some chain) (ids : List String) :
    (ids.foldl (fun h repId => h.modify cmp.turn opname (· ++ [(repId, a)])) h).find?
        cmp.turn opname = some (chain ++ ids.map (·, a)) := by
  induction ids generalizing h chain with
  | nil => simpa using hnode
  | cons repId rest ih =>
      have hone : (h.modify cmp.turn opname (· ++ [(repId, a)])).find? cmp.turn opname =
          some (chain ++ [(repId, a)]) := by
        rw [SteeredTree.find?_modify_self, hnode, Option.map_some]
      rw [List.foldl_cons, ih hone, List.map_cons, List.append_assoc,
        List.singleton_append]

theorem find?_foldl_modify_ne {opname n : String} (hne : n ≠ opname)
    (h : SteeredTree String (List OpArgs)) (a : Nat) (ids : List String) :
    (ids.foldl (fun h repId => h.modify cmp.turn opname (· ++ [(repId, a)])) h).find?
        cmp.turn n = h.find? cmp.turn n := by
  induction ids generalizing h with
  | nil => rfl
  | cons repId rest ih =>
      rw [List.foldl_cons, ih, SteeredTree.find?_modify_ne cmp.turn_here hne]

theorem head_foldl_addSet (opname : String) (a : Nat) (ids : List String)
    (t : OperationTable T) :
    (ids.foldl (fun t repId => t.addSet cmp opname repId a) t).head =
      ids.foldl (fun h repId => h.modify cmp.turn opname (· ++ [(repId, a)])) t.head := by
  induction ids generalizing t with
  | nil => rfl
  | cons repId rest ih =>
      rw [List.foldl_cons, List.foldl_cons, ih]
      rfl

theorem fresh_foldl_addSet (opname : String) (a : Nat) (ids : List String)
    (t : OperationTable T) :
    (ids.foldl (fun t repId => t.addSet cmp opname repId a) t).fresh = t.fresh := by
  induction ids generalizing t with
  | nil => rfl
  | cons repId rest ih =>
      rw [List.foldl_cons, ih]
      rfl

theorem lists_foldl_addSet (opname : String) (a : Nat) (ids : List String)
    (t : OperationTable T) (b : Nat) :
    (ids.foldl (fun t repId => t.addSet cmp opname repId a) t).lists b =
      if b = a then (t.lists b).map (fun c => (c.1, c.2 + (ids.length : Int))) else t.lists b := by
  induction ids generalizing t with
  | nil => simp
  | cons repId rest ih =>
      rw [List.foldl_cons, ih]
      by_cases hb : b = a
      · simp only [addSet, addRef, hb, if_true, Option.map_map, List.length_cons]
        congr 1
        funext c
        simp only [Function.comp_apply, Prod.mk.injEq, true_and]
        push_cast
        ring
      · simp only [addSet, addRef, hb, if_false]

@[simp] theorem addRefIf_head (wanted : Bool) (a : Nat) :
    (t.addRefIf wanted a).head = t.head := by
  cases wanted <;> rfl

@[simp] theorem addRefIf_fresh (wanted : Bool) (a : Nat) :
    (t.addRefIf wanted a).fresh = t.fresh := by
  cases wanted <;> rfl

section Register

variable (opname : String) (l : ArgList T) (ids : List String) (wanted : Bool)

theorem register_fresh : (t.register cmp opname l ids wanted).fresh = t.fresh + 1 := by
  simp only [register, removeRef, fresh_foldl_addSet, addRefIf_fresh]
  rfl

theorem register_head : (t.register cmp opname l ids wanted).head =
    ids.foldl (fun h repId => h.modify cmp.turn opname (· ++ [(repId, t.fresh)]))
      (t.head.ensure cmp.turn opname []) := by
  simp only [register, removeRef, head_foldl_addSet, addRefIf_head]
  rfl

theorem register_chain_self : (t.register cmp opname l ids wanted).chain cmp opname =
    t.chain cmp opname ++ ids.map (·, t.fresh) := by
  have hnode := SteeredTree.find?_ensure_self cmp.turn_here opname [] t.head
  rw [chain, register_head, find?_foldl_modify hnode, Option.getD_some]
  rfl

theorem register_chain_ne {n : String} (hne : n ≠ opname) :
    (t.register cmp opname l ids wanted).chain cmp n = t.chain cmp n := by
  rw [chain, register_head, find?_foldl_modify_ne hne,
    SteeredTree.find?_ensure_ne cmp.turn_here hne]
  rfl

theorem register_lists_ne {b : Nat} (hb : b ≠ t.fresh) :
    (t.register cmp opname l ids wanted).lists b = t.lists b := by
  have hkept : ((t.findOrAdd cmp opname).newList l).lists b = t.lists b :=
    Function.update_of_ne hb _ _
  simp only [register, removeRef, lists_foldl_addSet, hb, if_false]
  cases wanted with
  | false => exact hkept
  | true => simpa only [addRefIf, addRef, hb, if_true, if_false] using hkept

/-- The new list is counted once for each id, and once more for the caller who
asked for it. -/
theorem register_lists_self (hids : ids ≠ []) :
    (t.register cmp opname l ids wanted).lists t.fresh =
      some (l, (ids.length : Int) + if wanted then 1 else 0) := by
  have hnew : ((t.findOrAdd cmp opname).newList l).lists t.fresh = some (l, 1) :=
    Function.update_self _ _ _
  have hlen : 0 < ids.length := List.length_pos_iff.mpr hids
  cases wanted with
  | false =>
      simp only [register, removeRef, lists_foldl_addSet, if_true, addRefIf, hnew,
        Option.map_some, Option.bind_some, Bool.false_eq_true, if_false]
      rw [if_neg (by omega)]
      simp only [Option.some.injEq, Prod.mk.injEq, true_and]
      ring
  | true =>
      simp only [register, removeRef, lists_foldl_addSet, if_true, addRefIf, addRef, hnew,
        Option.map_some, Option.bind_some]
      rw [if_neg (by omega)]
      simp only [Option.some.injEq, Prod.mk.injEq, true_and]
      ring

end Register

/-- `add_is_a` and `add_non_existent` with what the caller does next are a
registration under the one id. -/
theorem addPseudo_eq_register (opname repId : String) (l : ArgList T) (wanted : Bool) :
    (if wanted then (t.addPseudo cmp opname repId l).2
      else (t.addPseudo cmp opname repId l).2.removeRef t.fresh) =
      t.register cmp opname l [repId] wanted := by
  cases wanted with
  | false => rfl
  | true =>
      have hlists : ∀ b, (t.addPseudo cmp opname repId l).2.lists b =
          (t.register cmp opname l [repId] true).lists b := by
        intro b
        by_cases hb : b = t.fresh
        · rw [hb, register_lists_self opname l [repId] true (by simp)]
          simp [addPseudo, addSet, addRef, newList, findOrAdd]
        · rw [register_lists_ne opname l [repId] true hb]
          simp [addPseudo, addSet, addRef, newList, findOrAdd, hb]
      have heq := funext hlists
      simp only [if_true]
      exact congrArg (fun lists => { t.register cmp opname l [repId] true with
        lists := lists }) heq

end Chains

end OperationTable

end Lorica
