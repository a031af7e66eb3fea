import Lorica.Lib.Action

/-!
Object references, the reference-counted `ReferenceMapValue` and the store
its instances live in. A pointer is a number and a deleted instance leaves a
hole, so that a use after `delete` is a fault. Addresses are handed out in
increasing order here; the reuse of an address by the allocator is modelled
in `Lorica.Collector`, where the code compares addresses.
-/

namespace Lorica

open Machine

/-- Exceptions of the C++ program: CORBA system and user exceptions by name,
and anything else. -/
inductive Exn where
  | system (name : String)
  | user (name : String)
  | other
deriving DecidableEq, Repr

/-- What the program looks at of a non-nil `CORBA::Object`: the type id of its
stub, its object key (`none` where `_key` gives null), whether its profile
carries a readable `TAG_SSL_SEC_TRANS` component and whether the security
policy was set on it. The endpoint stands for the rest of the profile. -/
structure ObjRef where
  typeId : String
  key : Option (List UInt8)
  endpoint : String
  sslTrans : Bool
  secured : Bool
deriving DecidableEq, Repr

structure ReferenceMapValue where
  origRef : ObjRef
  mappedRef : ObjRef
  iorTableName : String
  requireSecure : Bool
  agent : Option ObjRef
  refCount : Int
deriving DecidableEq, Repr

/-- The fields `reverse` puts into the new value. -/
def ReferenceMapValue.reverse (v : ReferenceMapValue) : ReferenceMapValue where
  origRef := v.mappedRef
  mappedRef := v.origRef
  iorTableName := ""
  requireSecure := v.requireSecure
  agent := none
  refCount := 1

structure Heap where
  cells : Nat → Option ReferenceMapValue
  fresh : Nat

namespace Heap

def empty : Heap where
  cells := fun _ => none
  fresh := 0

def write (h : Heap) (a : Nat) (v : Option ReferenceMapValue) : Heap :=
  { h with cells := Function.update h.cells a v }

/-- `new ReferenceMapValue` -/
def alloc (h : Heap) (v : ReferenceMapValue) : Nat × Heap :=
  (h.fresh, { (h.write h.fresh (some v)) with fresh := h.fresh + 1 })

def read (h : Heap) (a : Nat) : Except Fault ReferenceMapValue :=
  match h.cells a with
  | some v => .ok v
  | none => .error .danglingPointer

def incrRefcount (h : Heap) (a : Nat) : Except Fault Heap := do
  let v ← h.read a
  .ok (h.write a (some { v with refCount := v.refCount + 1 }))

/-- Deletes the value when the count reaches zero; the assertion guards
against a count below it. -/
def decrRefcount (h : Heap) (a : Nat) : Except Fault Heap := do
  let v ← h.read a
  if 0 < v.refCount - 1 then
    .ok (h.write a (some { v with refCount := v.refCount - 1 }))
  else if v.refCount - 1 = 0 then
    .ok (h.write a none)
  else
    .error .assertionFailed

@[simp] theorem write_cells_self (h : Heap) (a : Nat)
    (v : Option ReferenceMapValue) : (h.write a v).cells a = v := by
  simp [write]

theorem write_cells_of_ne (h : Heap) {a b : Nat} (hne : b ≠ a)
    (v : Option ReferenceMapValue) : (h.write a v).cells b = h.cells b := by
  simp [write, hne]

@[simp] theorem write_fresh (h : Heap) (a : Nat)
    (v : Option ReferenceMapValue) : (h.write a v).fresh = h.fresh := rfl

theorem read_eq {h : Heap} {a : Nat} {v : ReferenceMapValue}
    (hv : h.cells a = some v) : h.read a = .ok v := by
  simp [read, hv]

theorem incrRefcount_eq {h : Heap} {a : Nat} {v : ReferenceMapValue}
    (hv : h.cells a = some v) :
    h.incrRefcount a =
      .ok (h.write a (some { v with refCount := v.refCount + 1 })) := by
  simp only [incrRefcount, read_eq hv]
  rfl

theorem incrRefcount_dead {h : Heap} {a : Nat} (hv : h.cells a = none) :
    h.incrRefcount a = .error .danglingPointer := by
  unfold incrRefcount read
  rw [hv]
  rfl

theorem decrRefcount_eq_of_lt {h : Heap} {a : Nat} {v : ReferenceMapValue}
    (hv : h.cells a = some v) (hcount : 1 < v.refCount) :
    h.decrRefcount a =
      .ok (h.write a (some { v with refCount := v.refCount - 1 })) := by
  simp only [decrRefcount, read_eq hv]
  exact if_pos (by omega)

theorem decrRefcount_eq_of_one {h : Heap} {a : Nat} {v : ReferenceMapValue}
    (hv : h.cells a = some v) (hcount : v.refCount = 1) :
    h.decrRefcount a = .ok (h.write a none) := by
  simp only [decrRefcount, read_eq hv]
  refine (if_neg (by omega)).trans (if_pos (by omega))

/-- A count that can be given back belonged to a living value, which either
keeps the others or is deleted. -/
theorem decrRefcount_cases {h h' : Heap} {a : Nat}
    (hd : h.decrRefcount a = .ok h') :
    ∃ v, h.cells a = some v ∧
      ((1 < v.refCount ∧
          h' = h.write a (some { v with refCount := v.refCount - 1 })) ∨
        (v.refCount = 1 ∧ h' = h.write a none)) := by
  cases hv : h.cells a with
  | none =>
      simp only [decrRefcount, read, hv] at hd
      cases hd
  | some v =>
      refine ⟨v, rfl, ?_⟩
      by_cases hmany : 1 < v.refCount
      · rw [decrRefcount_eq_of_lt hv hmany] at hd
        exact Or.inl ⟨hmany, (Except.ok.inj hd).symm⟩
      · by_cases hone : v.refCount = 1
        · rw [decrRefcount_eq_of_one hv hone] at hd
          exact Or.inr ⟨hone, (Except.ok.inj hd).symm⟩
        · simp only [decrRefcount, read_eq hv] at hd
          have hneg : ¬ (0 < v.refCount - 1) := by omega
          have hzero : ¬ (v.refCount - 1 = 0) := by omega
          change (if 0 < v.refCount - 1 then _ else _) = _ at hd
          rw [if_neg hneg, if_neg hzero] at hd
          cases hd

/-- Taking a count and giving it back leaves the store as it was. -/
theorem decr_incr {h : Heap} {a : Nat} {v : ReferenceMapValue}
    (hv : h.cells a = some v) (hcount : 1 ≤ v.refCount) :
    (h.incrRefcount a >>= fun h' => h'.decrRefcount a) = .ok h := by
  rw [incrRefcount_eq hv]
  change (h.write a _).decrRefcount a = _
  rw [decrRefcount_eq_of_lt (write_cells_self h a _) (by dsimp only; omega)]
  simp only [write, Function.update_idem, add_sub_cancel_right]
  rw [← hv, Function.update_eq_self]

/-- The counts of the living values. -/
def counts (h : Heap) (a : Nat) : Option Int :=
  (h.cells a).map ReferenceMapValue.refCount

theorem counts_eq {h : Heap} {a : Nat} {v : ReferenceMapValue}
    (hv : h.cells a = some v) : h.counts a = some v.refCount := by
  simp [counts, hv]

theorem counts_write (h : Heap) (a : Nat) (content : Option ReferenceMapValue) :
    (h.write a content).counts =
      Function.update h.counts a (content.map ReferenceMapValue.refCount) := by
  funext b
  rcases eq_or_ne b a with rfl | hne
  · simp [counts]
  · rw [Function.update_of_ne hne, counts, write_cells_of_ne _ hne, counts]

/-- A count given back, as the counts show it. -/
theorem decrRefcount_counts {h values : Heap} {a : Nat}
    (hdecr : h.decrRefcount a = .ok values) :
    ∃ v content, h.cells a = some v ∧ values = h.write a content ∧
      content.map ReferenceMapValue.refCount =
        if 1 < v.refCount then some (v.refCount - 1) else none := by
  obtain ⟨v, hv, ⟨hmany, rfl⟩ | ⟨hone, rfl⟩⟩ := decrRefcount_cases hdecr
  · exact ⟨v, _, hv, rfl, by simp [hmany]⟩
  · exact ⟨v, _, hv, rfl, by simp [hone]⟩

end Heap

end Lorica
