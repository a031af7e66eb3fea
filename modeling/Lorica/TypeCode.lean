import Lorica.Lib.Action
import Lorica.ReferenceMapValue

/-!
Type codes, the values they describe and `GenericEvaluator::has_objref`. A
type code is a pointer: recursive types lead back to themselves, so type
codes form a graph. An alias is never part of a cycle by itself.
-/

namespace Lorica

open Machine

/-- What the evaluator asks a type code: its kind and the type codes it leads
to. The last kind stands for the kinds without any: numbers, strings,
enumerations and the like. -/
inductive TypeNode where
  | tkNull
  | tkVoid
  | tkObjref
  | tkAny
  | tkStruct (members : List Nat)
  | tkExcept (id : String) (members : List Nat)
  | tkUnion (members : List Nat)
  | tkSequence (content : Nat)
  | tkArray (content : Nat)
  | tkAlias (content : Nat)
  | tkValue (members : List Nat)
  | tkValueBox (content : Nat)
  | tkAbstractInterface
  | tkLocalInterface
  | tkComponent
  | tkHome
  | tkBasic
deriving DecidableEq, Repr

structure TypeGraph where
  node : Nat → TypeNode
  aliases : Nat → Nat
  alias_lt : ∀ tc content, node tc = .tkAlias content → aliases content < aliases tc

namespace TypeGraph

variable (g : TypeGraph)

def unaliasWithin : Nat → Nat → Nat
  | 0, tc => tc
  | n + 1, tc =>
      match g.node tc with
      | .tkAlias content => unaliasWithin n content
      | _ => tc

/-- `while (tc->kind () == tk_alias) tc = tc->content_type ()` -/
def unalias (tc : Nat) : Nat := g.unaliasWithin (g.aliases tc) tc

/-- The loop ends at a type code that is no alias. -/
theorem unaliasWithin_ne_alias {n tc : Nat} (h : g.aliases tc ≤ n) (content : Nat) :
    g.node (g.unaliasWithin n tc) ≠ .tkAlias content := by
  induction n generalizing tc with
  | zero =>
      intro halias
      have hlt := g.alias_lt tc content halias
      omega
  | succ n ih =>
      cases hnode : g.node tc with
      | tkAlias content' =>
          simp only [unaliasWithin, hnode]
          have hlt := g.alias_lt tc content' hnode
          exact ih (by omega)
      | _ => simp only [unaliasWithin, hnode, ne_eq, reduceCtorEq, not_false_eq_true]

theorem unaliasWithin_of_ne_alias {tc : Nat}
    (h : ∀ content, g.node tc ≠ .tkAlias content) (n : Nat) : g.unaliasWithin n tc = tc := by
  cases n with
  | zero => rfl
  | succ n =>
      cases hnode : g.node tc with
      | tkAlias content => exact absurd hnode (h content)
      | _ => simp only [unaliasWithin, hnode]

theorem unaliasWithin_add (n k tc : Nat) :
    g.unaliasWithin (n + k) tc = g.unaliasWithin k (g.unaliasWithin n tc) := by
  induction n generalizing tc with
  | zero => rw [Nat.zero_add, unaliasWithin]
  | succ n ih =>
      rw [Nat.succ_add]
      cases hnode : g.node tc with
      | tkAlias content =>
          simp only [unaliasWithin, hnode]
          exact ih content
      | _ =>
          have hplain : ∀ content, g.node tc ≠ .tkAlias content := by simp [hnode]
          simp only [g.unaliasWithin_of_ne_alias hplain]

/-- The turns are enough: more of them change nothing. -/
theorem unaliasWithin_eq_unalias {n tc : Nat} (h : g.aliases tc ≤ n) :
    g.unaliasWithin n tc = g.unalias tc := by
  obtain ⟨k, rfl⟩ := Nat.exists_eq_add_of_le h
  rw [unaliasWithin_add]
  exact g.unaliasWithin_of_ne_alias (g.unaliasWithin_ne_alias (le_refl _)) k

theorem unalias_alias {tc content : Nat} (h : g.node tc = .tkAlias content) :
    g.unalias tc = g.unalias content := by
  have hlt := g.alias_lt tc content h
  rw [← g.unaliasWithin_eq_unalias (Nat.le_refl (g.aliases tc)),
    ← g.unaliasWithin_eq_unalias (Nat.le_sub_one_of_lt hlt),
    show g.aliases tc = (g.aliases tc - 1) + 1 by omega]
  simp only [unaliasWithin, h, Nat.add_sub_cancel]

/-- The node of a type code behind its aliases. -/
def kind (tc : Nat) : TypeNode := g.node (g.unalias tc)

theorem kind_alias {tc content : Nat} (h : g.node tc = .tkAlias content) :
    g.kind tc = g.kind content := by
  unfold kind
  rw [g.unalias_alias h]

theorem kind_of_ne_alias {tc : Nat} (h : ∀ content, g.node tc ≠ .tkAlias content) :
    g.kind tc = g.node tc := by
  unfold kind unalias
  rw [g.unaliasWithin_of_ne_alias h]

/-- `has_objref`, with the number of calls the stack has room for. A recursive
type without a reference in front of the recursion exhausts it. -/
def hasObjref : Nat → Nat → Except Fault Bool
  | 0, _ => .error .stackExhausted
  | depth + 1, tc =>
      match g.kind tc with
      | .tkObjref => .ok true
      | .tkStruct members => members.anyM (hasObjref depth)
      | .tkExcept _ members => members.anyM (hasObjref depth)
      | .tkUnion members => members.anyM (hasObjref depth)
      | .tkArray content => hasObjref depth content
      | .tkSequence content => hasObjref depth content
      | .tkAny => .ok true
      | _ => .ok false

end TypeGraph

/-- A value with references of type `ρ` in it. What is plain has none: a number,
a string and the like, in octets. A composite is a struct, an exception, a
sequence, an array or a value type; an object is what an object reference, an
abstract interface or a component holds. A union knows which member is active,
if any. -/
inductive Value (ρ : Type) where
  | plain (octets : List UInt8)
  | object (ref : Option ρ)
  | composite (components : List (Value ρ))
  | union (discriminator : Int) (active : Option (Nat × Value ρ))
  | any (tc : Nat) (content : Value ρ)

namespace Value

variable {ρ τ : Type}

/-- The non-nil references at any depth. -/
def refs : Value ρ → List ρ
  | .plain _ => []
  | .object ref => ref.toList
  | .composite components => refsList components
  | .union _ none => []
  | .union _ (some (_, v)) => v.refs
  | .any _ v => v.refs
where
  refsList : List (Value ρ) → List ρ
    | [] => []
    | v :: vs => v.refs ++ refsList vs

def map (f : ρ → τ) : Value ρ → Value τ
  | .plain octets => .plain octets
  | .object ref => .object (ref.map f)
  | .composite components => .composite (mapList components)
  | .union discriminator none => .union discriminator none
  | .union discriminator (some (i, v)) => .union discriminator (some (i, v.map f))
  | .any tc v => .any tc (v.map f)
where
  mapList : List (Value ρ) → List (Value τ)
    | [] => []
    | v :: vs => v.map f :: mapList vs

end Value

end Lorica
