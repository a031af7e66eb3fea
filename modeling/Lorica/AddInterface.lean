import Lorica.OperationTable
import Lorica.Lib.Action

/-!
`OperationTable::add_interface`: the description of one interface and of its
direct bases is read from the interface repository and noted in the table.
-/

namespace Lorica

open Machine

/-! ## Interface repository -/

structure AttributeDef (T : Type) where
  name : String
  type : T
  readonly : Bool
deriving DecidableEq, Repr

inductive ParameterMode where
  | paramIn
  | paramOut
  | paramInout
deriving DecidableEq, Repr

structure OperationDef (T : Type) where
  name : String
  oneway : Bool
  result : T
  params : List (T × ParameterMode)
  exceptions : List T
deriving DecidableEq, Repr

/-- What `add_interface` asks an `InterfaceDef`: its id, its direct bases and
its own members. -/
structure Repository (ι T : Type) where
  id : ι → String
  baseInterfaces : ι → List ι
  attributes : ι → List (AttributeDef T)
  operations : ι → List (OperationDef T)

def ParameterMode.flags : ParameterMode → Flags
  | .paramIn => .argIn
  | .paramOut => .argOut
  | .paramInout => .argInout

/-! ## The loop -/

/-- The operation the caller is after, and whether its name is that of an
attribute's accessor. -/
structure Desired where
  op : Option String
  wantAttribute : Bool

namespace Desired

/-- `strncmp (desired_op + 2, "et_", 3) == 0`; in the string "_" this starts
past the terminator. -/
def wantsAttribute : Option String → Except Fault Bool
  | none => .ok false
  | some op =>
      match op.toList with
      | '_' :: [] => .error .outOfBounds
      | '_' :: _ :: rest => .ok (rest.take 3 == ['e', 't', '_'])
      | _ => .ok false

/-- The test made for each accessor of an attribute. -/
def accessor (d : Desired) (name : String) : Bool :=
  d.wantAttribute && d.op == some name

/-- The test made for each other operation. -/
def operation (d : Desired) (name : String) : Bool :=
  !d.wantAttribute && d.op == some name

end Desired

/-- The variable `result` and the table. -/
structure Progress (T : Type) where
  result : Option Nat
  table : OperationTable T

namespace Progress

variable {T : Type} (cmp : Strcmp)

def register (name : String) (l : ArgList T) (ids : List String) (wanted : Bool)
    (p : Progress T) : Progress T where
  result := if wanted then some p.table.fresh else p.result
  table := p.table.register cmp name l ids wanted

/-- `result = al` or `al->remove_ref ()`. -/
def keepIf (wanted : Bool) (p : Progress T) (al : Nat × OperationTable T) :
    Progress T :=
  if wanted then ⟨some al.1, al.2⟩ else ⟨p.result, al.2.removeRef al.1⟩

end Progress

namespace OperationTable

variable {ι T : Type}

section Loop

variable (cmp : Strcmp) (prims : Primitives T) (repo : Repository ι T) (d : Desired)

def getter (attr : AttributeDef T) : ArgList T :=
  .create [] [] false (some attr.type)

def setter (attr : AttributeDef T) : ArgList T :=
  .create [(attr.type, .argIn)] [] false (some prims.tcVoid)

/-- The result of a oneway is left alone. -/
def argList (op : OperationDef T) : ArgList T :=
  .create (op.params.map fun p => (p.1, p.2.flags)) op.exceptions op.oneway
    (if op.oneway then none else some op.result)

def addAttribute (ids : List String) (p : Progress T) (attr : AttributeDef T) :
    Progress T :=
  let p := p.register cmp ("_get_" ++ attr.name) (getter attr) ids
    (d.accessor ("_get_" ++ attr.name))
  if attr.readonly then p
  else p.register cmp ("_set_" ++ attr.name) (setter prims attr) ids
    (d.accessor ("_set_" ++ attr.name))

def addOperation (ids : List String) (p : Progress T) (op : OperationDef T) :
    Progress T :=
  p.register cmp op.name (argList op) ids (d.operation op.name)

/-- The operations every object has, noted in the first round only. -/
def addPseudos (repId : String) (p : Progress T) : Progress T :=
  let p := p.keepIf (d.operation "_is_a") (addIsA cmp prims repId p.table)
  p.keepIf (d.operation "_non_existent") (addNonExistent cmp prims repId p.table)

/-- One round of the loop: the members of `intDef` are noted under its own id
and under the ids of the rounds before. -/
def addLevel (intDef : ι) (derived : List String) (p : Progress T) : Progress T :=
  let repId := repo.id intDef
  let p := if derived = [] then addPseudos cmp prims d repId p else p
  let p := (repo.attributes intDef).foldl (addAttribute cmp prims d (repId :: derived)) p
  (repo.operations intDef).foldl (addOperation cmp d (repId :: derived)) p

/-- The loop over `i` up to and including the number of bases. The bases are
those of the first interface in every round. -/
def addLevels : ι → List String → List ι → Progress T → Progress T
  | intDef, derived, [], p => addLevel cmp prims repo d intDef derived p
  | intDef, derived, base :: bases, p =>
      addLevels base (derived ++ [repo.id intDef]) bases
        (addLevel cmp prims repo d intDef derived p)

end Loop

/-- `OperationTable::add_interface` -/
def addInterface (cmp : Strcmp) (prims : Primitives T) (repo : Repository ι T)
    (intDef : ι) (desired : Option String) (t : OperationTable T) :
    Except Fault (Option Nat × OperationTable T) := do
  let wantAttribute ← Desired.wantsAttribute desired
  let p := addLevels cmp prims repo ⟨desired, wantAttribute⟩ intDef []
    (repo.baseInterfaces intDef) ⟨none, t⟩
  pure (p.result, p.table)

/-! ## Signatures -/

/-- What a caller of an operation has to know about it. -/
structure Signature (T : Type) where
  result : Option T
  params : List (T × Flags)
  exceptions : List T
  oneway : Bool

/-- The signature each member of an interface gives rise to. -/
inductive Declares (prims : Primitives T) (repo : Repository ι T) (I : ι) :
    String → Signature T → Prop where
  | get {attr : AttributeDef T} (h : attr ∈ repo.attributes I) :
      Declares prims repo I ("_get_" ++ attr.name) ⟨some attr.type, [], [], false⟩
  | set {attr : AttributeDef T} (h : attr ∈ repo.attributes I)
      (hmode : attr.readonly = false) :
      Declares prims repo I ("_set_" ++ attr.name)
        ⟨some prims.tcVoid, [(attr.type, .argIn)], [], false⟩
  | operation {op : OperationDef T} (h : op ∈ repo.operations I) :
      Declares prims repo I op.name
        ⟨if op.oneway then none else some op.result,
          op.params.map fun p => (p.1, p.2.flags), op.exceptions, op.oneway⟩

/-- The operations every object has. -/
inductive Pseudo (prims : Primitives T) : String → Signature T → Prop where
  | isA : Pseudo prims "_is_a"
      ⟨some prims.tcBoolean, [(prims.tcString, .argIn)], [], false⟩
  | nonExistent : Pseudo prims "_non_existent" ⟨some prims.tcBoolean, [], [], false⟩

/-- `B` is a direct base of `A`. -/
def Base (repo : Repository ι T) (A B : ι) : Prop := B ∈ repo.baseInterfaces A

/-- What can be called on an object of interface `I`. -/
def Visible (prims : Primitives T) (repo : Repository ι T) (I : ι) (o : String)
    (sig : Signature T) : Prop :=
  Pseudo prims o sig ∨
    ∃ A, Relation.ReflTransGen (Base repo) I A ∧ Declares prims repo A o sig

/-- The rules of IDL for an interface and what it inherits. -/
structure WellFormed (repo : Repository ι T) : Prop where
  acyclic : ∀ A, ¬ Relation.TransGen (Base repo) A A
  bases : ∀ A, (repo.baseInterfaces A).Nodup
  attributes : ∀ A, ((repo.attributes A).map AttributeDef.name).Nodup
  operations : ∀ A, ((repo.operations A).map OperationDef.name).Nodup
  identifiers : ∀ A, ∀ op ∈ repo.operations A, op.name.toList.head? ≠ some '_'
  inheritedAttributes : ∀ I A B, Relation.ReflTransGen (Base repo) I A →
    Relation.ReflTransGen (Base repo) I B → ∀ a ∈ repo.attributes A,
    ∀ b ∈ repo.attributes B, a.name = b.name → A = B
  inheritedOperations : ∀ I A B, Relation.ReflTransGen (Base repo) I A →
    Relation.ReflTransGen (Base repo) I B → ∀ a ∈ repo.operations A,
    ∀ b ∈ repo.operations B, a.name = b.name → A = B

def Describes (l : ArgList T) (sig : Signature T) : Prop :=
  l.result.tc = sig.result ∧
  l.args.map (fun a => (a.tc, a.mode)) = sig.params.map (fun p => (some p.1, p.2)) ∧
  l.exceptions.map Arg.tc = sig.exceptions.map some ∧
  l.isOneway = sig.oneway

end OperationTable

end Lorica
