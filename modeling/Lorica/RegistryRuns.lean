import Lorica.RegistryMoves

/-!
The operations of the registry as sequences of moves, the transition system
of whole runs, and what every run keeps: the counts add up, nothing dangles,
and the history is the history of the tables.
-/

namespace Lorica

open Machine

abbrev Moves (orb : Orb) (inst : Instance) :
    RegistryState → RegistryState → Prop :=
  Relation.ReflTransGen (Move orb inst)

namespace Registry

section Lookups

variable {reg : Registry} {m a : Nat} {t : RMVByMapped Nat} {index : UInt32}
  {v : ReferenceMapValue}

theorem run_derefTable (ht : reg.table m = some t) :
    (derefTable m).run reg = (.ok t, reg) := by
  unfold derefTable
  rw [Action.run_bind_ok (Action.run_get reg)]
  simp [ht]

theorem run_readValue (hv : reg.values.cells a = some v) :
    (readValue a).run reg = (.ok v, reg) := by
  unfold readValue
  rw [Action.run_bind_ok (Action.run_get reg), Heap.read_eq hv]
  rfl

theorem run_readValue_dangling (hv : reg.values.cells a = none) :
    (readValue a).run reg = (.fault .danglingPointer, reg) := by
  unfold readValue
  rw [Action.run_bind_ok (Action.run_get reg), Heap.read, hv]
  rfl

theorem run_incrRefcount (hv : reg.values.cells a = some v) :
    (incrRefcount a).run reg = (.ok (), reg.setValues (reg.values.write a
      (some { v with refCount := v.refCount + 1 }))) := by
  unfold incrRefcount
  rw [Action.run_bind_ok (Action.run_get reg), Heap.incrRefcount_eq hv]
  rfl

theorem run_decrRefcount {values : Heap}
    (hdecr : reg.values.decrRefcount a = .ok values) :
    (decrRefcount a).run reg = (.ok (), reg.setValues values) := by
  unfold decrRefcount
  rw [Action.run_bind_ok (Action.run_get reg), hdecr]
  rfl

/-- A count that is given back changes the values at most. -/
theorem decrRefcount_keeps {I : Registry → Prop}
    (hvalues : ∀ reg values, I reg → I (reg.setValues values)) (a : Nat) :
    Action.Keeps I (decrRefcount a) := by
  apply Action.Keeps.get.bind
  intro reg
  apply (Action.Keeps.ofExcept _).bind
  intro values
  exact .modify fun reg => hvalues reg values

theorem run_reap_empty {page offset : Nat} (ht : reg.table m = some t)
    (hslot : t.slot (page * t.pageSize.toNat + offset) = none) :
    (reap m page offset).run reg = (.ok (), reg) := by
  unfold reap
  rw [Action.run_bind_ok (run_derefTable ht), hslot]
  rfl

theorem run_reap {page offset : Nat} {values : Heap} (ht : reg.table m = some t)
    (hslot : t.slot (page * t.pageSize.toNat + offset) = some a)
    (hdecr : reg.values.decrRefcount a = .ok values) :
    (reap m page offset).run reg =
      (.ok (), ((reg.setValues values).setTable m (t.reap page offset)).log (.removed a)) := by
  unfold reap
  rw [Action.run_bind_ok (run_derefTable ht), hslot]
  dsimp only
  rw [Action.run_bind_ok (run_decrRefcount hdecr)]
  rfl

theorem run_new (reg : Registry) (v : ReferenceMapValue) :
    (new v).run reg =
      (.ok reg.values.fresh, reg.setValues (reg.values.alloc v).2) := rfl

/-- The slot an index leads to, past the bounds test. -/
def lookup (t : RMVByMapped Nat) (index : UInt32) : Option Nat :=
  if t.limit ≤ index then none else t.slot index.toNat

theorem lookup_eq_some :
    lookup t index = some a ↔ index < t.limit ∧ t.slot index.toNat = some a := by
  unfold lookup
  split
  · next h => simp [UInt32.not_lt.mpr h]
  · next h => simp [UInt32.not_le.mp h]

/-- An index that is looked up leads to a full slot. -/
theorem lookup_slot (ht : reg.table m = some t) (hlookup : lookup t index = some a) :
    reg.slotOf m index.toNat = some a := by
  rw [slotOf_eq ht]
  exact (lookup_eq_some.mp hlookup).2

theorem find_eq_lookup (hcover : t.PagesCover) :
    t.find index = .ok (lookup t index) :=
  hcover.find_eq index

theorem run_find_miss (ht : reg.table m = some t) (hcover : t.PagesCover)
    (hmiss : lookup t index = none) :
    (find m index).run reg = (.ok none, reg) := by
  unfold find
  rw [Action.run_bind_ok (run_derefTable ht), find_eq_lookup hcover, hmiss]
  rfl

theorem run_find_hit (ht : reg.table m = some t) (hcover : t.PagesCover)
    (hhit : lookup t index = some a) (hv : reg.values.cells a = some v) :
    (find m index).run reg = (.ok (some a), reg.setValues (reg.values.write a
      (some { v with refCount := v.refCount + 1 }))) := by
  unfold find
  rw [Action.run_bind_ok (run_derefTable ht), find_eq_lookup hcover, hhit]
  change (incrRefcount a >>= fun _ => _).run reg = _
  rw [Action.run_bind_ok (run_incrRefcount hv)]
  rfl

theorem run_unbind_miss (ht : reg.table m = some t) (hcover : t.PagesCover)
    (hmiss : lookup t index = none) :
    (unbind m index).run reg = (.ok none, reg) := by
  have hnone : ¬ (index < t.limit ∧ (t.slot index.toNat).isSome) := by
    rintro ⟨hindex, hsome⟩
    obtain ⟨a, ha⟩ := Option.isSome_iff_exists.mp hsome
    rw [lookup_eq_some.mpr ⟨hindex, ha⟩] at hmiss
    cases hmiss
  unfold unbind
  rw [Action.run_bind_ok (run_derefTable ht), hcover.unbind_eq, if_neg hnone]
  rfl

theorem run_unbind_hit (ht : reg.table m = some t) (hcover : t.PagesCover)
    (hhit : lookup t index = some a) :
    (unbind m index).run reg = (.ok (some a), (reg.setTable m { t.storeAt index none with
      freeStack := index :: t.freeStack }).log (.removed a)) := by
  obtain ⟨hindex, hslot⟩ := lookup_eq_some.mp hhit
  have hsome : index < t.limit ∧ (t.slot index.toNat).isSome := by
    rw [hslot]
    exact ⟨hindex, rfl⟩
  unfold unbind
  rw [Action.run_bind_ok (run_derefTable ht), hcover.unbind_eq, if_pos hsome, hslot]
  rfl

end Lookups

section Values

variable {reg : Registry} {a : Nat} {v : ReferenceMapValue}

@[simp] theorem setValues_self (reg : Registry) :
    reg.setValues reg.values = reg := rfl

@[simp] theorem setValues_setValues (reg : Registry) (x y : Heap) :
    (reg.setValues x).setValues y = reg.setValues y := rfl

/-- A lookup that copies what it needs and lets go leaves no trace. -/
theorem run_take_drop (hv : reg.values.cells a = some v)
    (hcount : 1 ≤ v.refCount) :
    (decrRefcount a).run (reg.setValues (reg.values.write a
      (some { v with refCount := v.refCount + 1 }))) = (.ok (), reg) := by
  have hback := Heap.decr_incr hv hcount
  rw [Heap.incrRefcount_eq hv] at hback
  change (decrRefcount a).run (reg.setValues _) = (.ok (), reg.setValues reg.values)
  exact run_decrRefcount hback

end Values

section NativeForMapped

variable {reg : Registry} {m a : Nat} {t : RMVByMapped Nat} {index : UInt32}
  {v : ReferenceMapValue} {oid : ObjectId}

theorem run_nativeForMappedI_short (hread : readIndex oid = none) :
    (nativeForMappedI m oid).run reg = (.fault .outOfBounds, reg) := by
  unfold nativeForMappedI
  rw [hread]
  rfl

theorem run_nativeForMappedI_miss (ht : reg.table m = some t)
    (hcover : t.PagesCover) (hread : readIndex oid = some index)
    (hmiss : lookup t index = none) :
    (nativeForMappedI m oid).run reg = (.ok (none, none), reg) := by
  unfold nativeForMappedI
  rw [hread]
  change (find m index >>= _).run reg = _
  rw [Action.run_bind_ok (run_find_miss ht hcover hmiss)]
  rfl

theorem run_nativeForMappedI_hit (ht : reg.table m = some t)
    (hcover : t.PagesCover) (hread : readIndex oid = some index)
    (hhit : lookup t index = some a) (hv : reg.values.cells a = some v)
    (hcount : 1 ≤ v.refCount) :
    (nativeForMappedI m oid).run reg = (.ok (some v.origRef, v.agent), reg) := by
  unfold nativeForMappedI
  rw [hread]
  change (find m index >>= _).run reg = _
  rw [Action.run_bind_ok (run_find_hit ht hcover hhit hv)]
  change (readValue a >>= _).run _ = _
  rw [Action.run_bind_ok (run_readValue (Heap.write_cells_self _ _ _)),
    Action.run_bind_ok (run_take_drop hv hcount)]
  rfl

end NativeForMapped

section AddNative

variable (orb : Orb) (inst : Instance) {reg : Registry} {m : Nat}
  {t : RMVByMapped Nat}

theorem run_getMappedObjectId (ht : reg.table m = some t) (outFacing : Bool) :
    (getMappedObjectId inst m outFacing).run reg =
      (.ok (inst.objectId outFacing t.peekIndex, t.peekIndex),
        reg.setTable m t.nextIndex.2) := by
  unfold getMappedObjectId
  rw [Action.run_bind_ok (run_derefTable ht), ← RMVByMapped.nextIndex_fst]
  cases t.nextIndex with
  | mk index t' => rfl

theorem run_createReferenceWithId {poa : Poa} {oid : ObjectId} {typeId : String}
    {ref : ObjRef} (h : orb.createReferenceWithId poa oid typeId = .ok ref)
    (reg : Registry) :
    (createReferenceWithId orb poa oid typeId).run reg = (.ok ref, reg) := by
  unfold createReferenceWithId
  rw [h]
  rfl

/-- The fields of the value a new mapping starts with. -/
def newValue (reg : Registry) (native mappedRef : ObjRef) (requireSecure : Bool)
    (refCount : Int) : ReferenceMapValue where
  origRef := reg.origRef native
  mappedRef := mappedRef
  iorTableName := ""
  requireSecure := requireSecure
  agent := none
  refCount := refCount

/-- `bind` of a living value: it lands in its slot with one more count, or the
table refuses it and nothing changes. -/
theorem run_bind {poa : Poa} (index : UInt32) (oid : ObjectId) (native : ObjRef) {a : Nat}
    {v : ReferenceMapValue} (ht : reg.table poa.mapper = some t) (hcover : t.PagesCover)
    (hv : reg.values.cells a = some v) :
    (bind poa index oid native a).run reg =
      (.ok (),
        if index < t.limit ∧ t.slot index.toNat = none then
          ((reg.setValues (reg.values.write a (some { v with refCount := v.refCount + 1 }))).setTable
            poa.mapper (t.storeAt index (some a))).log (.mapped poa oid native a)
        else reg) := by
  unfold bind
  rw [Action.run_bind_ok (run_derefTable ht), hcover.bind_eq]
  split
  · change (incrRefcount a >>= _).run reg = _
    rw [Action.run_bind_ok (run_incrRefcount hv)]
    rfl
  · rfl

/-- `bind` of a value just made. -/
theorem run_bind_new {poa : Poa} (index : UInt32) (oid : ObjectId)
    (native : ObjRef) (v : ReferenceMapValue)
    (ht : reg.table poa.mapper = some t) (hcover : t.PagesCover) :
    (bind poa index oid native reg.values.fresh).run
        (reg.setValues (reg.values.alloc v).2) =
      (.ok (),
        if index < t.limit ∧ t.slot index.toNat = none then
          ((reg.setValues (reg.values.alloc
            { v with refCount := v.refCount + 1 }).2).setTable poa.mapper
              (t.storeAt index (some reg.values.fresh))).log
            (.mapped poa oid native reg.values.fresh)
        else reg.setValues (reg.values.alloc v).2) := by
  have ht' : (reg.setValues (reg.values.alloc v).2).table poa.mapper = some t := ht
  have hcell : (reg.setValues (reg.values.alloc v).2).values.cells reg.values.fresh = some v :=
    Heap.write_cells_self _ _ _
  have hvalues : (reg.values.alloc v).2.write reg.values.fresh
      (some { v with refCount := v.refCount + 1 }) =
      (reg.values.alloc { v with refCount := v.refCount + 1 }).2 := by
    simp [Heap.alloc, Heap.write]
  rw [run_bind index oid native ht' hcover hcell]
  simp only [setValues_values, setValues_setValues, hvalues]

/-- `add_native_unchecked` of a mapper with a table: the index is taken
first, so a raise of the POA loses it. -/
theorem run_addNativeUnchecked (ht : reg.table m = some t)
    (hcover : t.PagesCover) (native : ObjRef) (typeId : String)
    (outFacing requireSecure : Bool) :
    (addNativeUnchecked orb inst m native typeId outFacing requireSecure).run reg =
      match orb.createReferenceWithId ⟨m, outFacing⟩
          (inst.objectId outFacing t.peekIndex) typeId with
      | .error e => (.raised e, reg.setTable m t.nextIndex.2)
      | .ok ref =>
          (.ok reg.values.fresh,
            if t.peekIndex < t.nextIndex.2.limit ∧
                t.nextIndex.2.slot t.peekIndex.toNat = none then
              (((reg.setTable m t.nextIndex.2).setValues (reg.values.alloc
                (reg.newValue native ref requireSecure 2)).2).setTable m
                  (t.nextIndex.2.storeAt t.peekIndex (some reg.values.fresh))).log
                (.mapped ⟨m, outFacing⟩ (inst.objectId outFacing t.peekIndex)
                  native reg.values.fresh)
            else
              (reg.setTable m t.nextIndex.2).setValues (reg.values.alloc
                (reg.newValue native ref requireSecure 1)).2) := by
  have ht' : (reg.setTable m t.nextIndex.2).table m = some t.nextIndex.2 := by
    rw [table_setTable ht, if_pos rfl]
  unfold addNativeUnchecked
  rw [Action.run_bind_ok (Action.run_get reg)]
  simp only [ht, Option.isSome_some, if_true]
  rw [Action.run_bind_ok (run_getMappedObjectId inst ht outFacing)]
  cases href : orb.createReferenceWithId ⟨m, outFacing⟩
      (inst.objectId outFacing t.peekIndex) typeId with
  | error e =>
      have hraise : (createReferenceWithId orb ⟨m, outFacing⟩
          (inst.objectId outFacing t.peekIndex) typeId).run
            (reg.setTable m t.nextIndex.2) =
          (.raised e, reg.setTable m t.nextIndex.2) := by
        unfold createReferenceWithId
        rw [href]
        rfl
      exact Action.run_bind_raised hraise _
  | ok ref =>
      rw [Action.run_bind_ok (run_createReferenceWithId orb href _),
        Action.run_bind_ok (run_new _ _)]
      have hbind := @run_bind_new (reg.setTable m t.nextIndex.2) t.nextIndex.2
        ⟨m, outFacing⟩ t.peekIndex (inst.objectId outFacing t.peekIndex) native
        (reg.newValue native ref requireSecure 1) ht' hcover.nextIndex
      exact Action.run_bind_ok hbind _

/-- Without a table the value belongs to the caller alone. -/
theorem run_addNativeUnchecked_uncached (ht : reg.table m = none)
    (native : ObjRef) (typeId : String) (outFacing requireSecure : Bool) :
    (addNativeUnchecked orb inst m native typeId outFacing requireSecure).run reg =
      match orb.createReferenceWithId ⟨m, outFacing⟩
          (orb.stringToObjectId (orb.objectToString native)) typeId with
      | .error e => (.raised e, reg)
      | .ok ref =>
          (.ok reg.values.fresh, reg.setValues (reg.values.alloc
            (reg.newValue native ref requireSecure 1)).2) := by
  unfold addNativeUnchecked
  rw [Action.run_bind_ok (Action.run_get reg)]
  simp only [ht, Option.isSome_none, Bool.false_eq_true, if_false]
  rw [Action.run_bind_ok (Action.run_pure _ reg)]
  unfold createReferenceWithId
  cases orb.createReferenceWithId ⟨m, outFacing⟩
      (orb.stringToObjectId (orb.objectToString native)) typeId with
  | error e => rfl
  | ok ref => rfl

/-- The reversed value is new and the one in the table is untouched. -/
theorem run_reverse {a : Nat} {v : ReferenceMapValue}
    (hv : reg.values.cells a = some v) (hcount : 1 ≤ v.refCount)
    (hfresh : a ≠ reg.values.fresh) :
    (do let v ← readValue a
        let reversed ← new v.reverse
        decrRefcount a
        pure (some reversed) : RegistryM (Option Nat)).run
      (reg.setValues (reg.values.write a
        (some { v with refCount := v.refCount + 1 }))) =
      (.ok (some reg.values.fresh),
        reg.setValues (reg.values.alloc v.reverse).2) := by
  rw [Action.run_bind_ok (run_readValue (Heap.write_cells_self _ _ _)),
    Action.run_bind_ok (run_new _ _)]
  have hcell : ((reg.values.write a
      (some { v with refCount := v.refCount + 1 })).alloc v.reverse).2.cells a =
      some { v with refCount := v.refCount + 1 } :=
    (Heap.write_cells_of_ne _ hfresh _).trans (Heap.write_cells_self _ _ _)
  have hdecr := Heap.decrRefcount_eq_of_lt hcell (by dsimp only; omega)
  rw [Action.run_bind_ok (run_decrRefcount hdecr)]
  have hback : (((reg.values.write a
      (some { v with refCount := v.refCount + 1 })).alloc v.reverse).2.write a
        (some v)) = (reg.values.alloc v.reverse).2 := by
    have hsame : Function.update (Function.update reg.values.cells
        reg.values.fresh (some v.reverse)) a (some v) =
        Function.update reg.values.cells reg.values.fresh (some v.reverse) := by
      rw [Function.update_comm hfresh.symm, ← hv, Function.update_eq_self]
    simp only [Heap.alloc, Heap.write]
    rw [Function.update_comm hfresh, Function.update_idem, hsame]
  simp only [add_sub_cancel_right, hback]
  rfl

end AddNative

section Dispatch

variable (orb : Orb) (inst : Instance) {reg : Registry} {m : Nat}
  {t : RMVByMapped Nat} {native : ObjRef} {typeId : String}
  {outFacing requireSecure : Bool} {index : UInt32}

theorem run_addNativeHere_already (ht : reg.table m = some t)
    (hstatus : inst.alreadyMapped native.key outFacing 0 =
      (.alreadyMapped, index)) :
    (addNativeHere orb inst m native typeId outFacing requireSecure).run reg =
      (find m index).run reg := by
  unfold addNativeHere
  rw [Action.run_bind_ok (Action.run_get reg)]
  simp only [ht, hstatus]

theorem run_addNativeHere_reverse_miss (ht : reg.table m = some t)
    (hcover : t.PagesCover)
    (hstatus : inst.alreadyMapped native.key outFacing 0 =
      (.reverseMapped, index))
    (hmiss : lookup t index = none) :
    (addNativeHere orb inst m native typeId outFacing requireSecure).run reg =
      (.fault .nullDereference, reg) := by
  unfold addNativeHere
  rw [Action.run_bind_ok (Action.run_get reg)]
  simp only [ht, hstatus]
  rw [Action.run_bind_ok (run_find_miss ht hcover hmiss)]
  rfl

theorem run_addNativeHere_reverse_hit {a : Nat} {v : ReferenceMapValue}
    (ht : reg.table m = some t) (hcover : t.PagesCover)
    (hstatus : inst.alreadyMapped native.key outFacing 0 =
      (.reverseMapped, index))
    (hhit : lookup t index = some a) (hv : reg.values.cells a = some v)
    (hcount : 1 ≤ v.refCount) (hfresh : a ≠ reg.values.fresh) :
    (addNativeHere orb inst m native typeId outFacing requireSecure).run reg =
      (.ok (some reg.values.fresh),
        reg.setValues (reg.values.alloc v.reverse).2) := by
  unfold addNativeHere
  rw [Action.run_bind_ok (Action.run_get reg)]
  simp only [ht, hstatus]
  rw [Action.run_bind_ok (run_find_hit ht hcover hhit hv)]
  exact run_reverse hv hcount hfresh

theorem run_addNativeHere_new (index : UInt32)
    (hstatus : reg.table m = none ∨
      inst.alreadyMapped native.key outFacing 0 = (.notMapped, index)) :
    (addNativeHere orb inst m native typeId outFacing requireSecure).run reg =
      (addNativeUnchecked orb inst m native typeId outFacing requireSecure >>=
        fun rmv => pure (some rmv)).run reg := by
  unfold addNativeHere
  rw [Action.run_bind_ok (Action.run_get reg)]
  cases ht : reg.table m with
  | none => simp only
  | some t =>
      rcases hstatus with hnone | hnot
      · rw [ht] at hnone
        cases hnone
      · simp only [hnot]

end Dispatch

/-- What an operation that hands out an owned pointer may do: moves, at the end
of which the caller owns what was returned. A fault ends the program. -/
def Advances (orb : Orb) (inst : Instance) (reg : Registry) (held : List Nat) :
    Outcome Exn (Option Nat) × Registry → Prop
  | (.ok r, reg') => Moves orb inst ⟨reg, held⟩ ⟨reg', r.toList ++ held⟩
  | (.raised _, reg') => Moves orb inst ⟨reg, held⟩ ⟨reg', held⟩
  | (.fault _, _) => True

section Advancing

variable (orb : Orb) (inst : Instance) {reg : Registry} {held : List Nat}

/-- How `add_native` of the mapper that handles the type goes: the key of the
reference leads to a slot of the table, or a mapping is made. -/
inductive NativeMapping (orb : Orb) (inst : Instance) (reg : Registry) (m : Nat)
    (native : ObjRef) (typeId : String) (outFacing requireSecure : Bool) :
    Outcome Exn (Option Nat) × Registry → Prop where
  | missed {t : RMVByMapped Nat} {index : UInt32} (ht : reg.table m = some t)
      (hstatus : inst.alreadyMapped native.key outFacing 0 = (.alreadyMapped, index))
      (hlookup : lookup t index = none) :
      NativeMapping orb inst reg m native typeId outFacing requireSecure (.ok none, reg)
  | found {t : RMVByMapped Nat} {index : UInt32} {a : Nat} {v : ReferenceMapValue}
      (ht : reg.table m = some t)
      (hstatus : inst.alreadyMapped native.key outFacing 0 = (.alreadyMapped, index))
      (hlookup : lookup t index = some a) (hv : reg.values.cells a = some v) :
      NativeMapping orb inst reg m native typeId outFacing requireSecure (.ok (some a),
        reg.setValues (reg.values.write a (some { v with refCount := v.refCount + 1 })))
  | dangling {t : RMVByMapped Nat} {index : UInt32} (ht : reg.table m = some t)
      (hstatus : inst.alreadyMapped native.key outFacing 0 = (.reverseMapped, index))
      (hlookup : lookup t index = none) :
      NativeMapping orb inst reg m native typeId outFacing requireSecure
        (.fault .nullDereference, reg)
  | reversed {t : RMVByMapped Nat} {index : UInt32} {a : Nat} {v : ReferenceMapValue}
      (ht : reg.table m = some t)
      (hstatus : inst.alreadyMapped native.key outFacing 0 = (.reverseMapped, index))
      (hlookup : lookup t index = some a) (hv : reg.values.cells a = some v) :
      NativeMapping orb inst reg m native typeId outFacing requireSecure
        (.ok (some reg.values.fresh), reg.setValues (reg.values.alloc v.reverse).2)
  | made (hnew : reg.table m = none ∨
        inst.alreadyMapped native.key outFacing 0 = (.notMapped, 0)) :
      NativeMapping orb inst reg m native typeId outFacing requireSecure
        ((addNativeUnchecked orb inst m native typeId outFacing requireSecure >>=
          fun rmv => pure (some rmv)).run reg)

theorem addNativeHere_mapping (hsafe : RegistryState.Safe ⟨reg, held⟩) (m : Nat)
    (native : ObjRef) (typeId : String) (outFacing requireSecure : Bool) :
    NativeMapping orb inst reg m native typeId outFacing requireSecure
      ((addNativeHere orb inst m native typeId outFacing requireSecure).run reg) := by
  cases ht : reg.table m with
  | none =>
      rw [run_addNativeHere_new orb inst 0 (.inl ht)]
      exact .made (.inl ht)
  | some t =>
      have hcover := hsafe.cover m t ht
      rcases inst.alreadyMapped_cases native.key outFacing 0 with
        ⟨index, hstatus⟩ | ⟨index, hstatus⟩ | hstatus
      · rw [run_addNativeHere_already orb inst ht hstatus]
        cases hlookup : lookup t index with
        | none =>
            rw [run_find_miss ht hcover hlookup]
            exact .missed ht hstatus hlookup
        | some a =>
            obtain ⟨v, hv⟩ := hsafe.bound_cell ⟨m, _, lookup_slot ht hlookup⟩
            rw [run_find_hit ht hcover hlookup hv]
            exact .found ht hstatus hlookup hv
      · cases hlookup : lookup t index with
        | none =>
            rw [run_addNativeHere_reverse_miss orb inst ht hcover hstatus hlookup]
            exact .dangling ht hstatus hlookup
        | some a =>
            obtain ⟨v, hv⟩ := hsafe.bound_cell ⟨m, _, lookup_slot ht hlookup⟩
            rw [run_addNativeHere_reverse_hit orb inst ht hcover hstatus hlookup hv
              (hsafe.counted a v hv).2 (RegistryState.lt_fresh hsafe.fresh hv).ne]
            exact .reversed ht hstatus hlookup hv
      · rw [run_addNativeHere_new orb inst 0 (.inr hstatus)]
        exact .made (.inr hstatus)

theorem addNativeUnchecked_advances (hsafe : RegistryState.Safe ⟨reg, held⟩)
    (m : Nat) (native : ObjRef) (outFacing requireSecure : Bool)
    (hforeign : reg.table m = none ∨ inst.ours native.key = false) :
    Advances orb inst reg held
      ((addNativeUnchecked orb inst m native native.typeId outFacing
        requireSecure >>= fun rmv => pure (some rmv)).run reg) := by
  cases ht : reg.table m with
  | none =>
      have hrun := run_addNativeUnchecked_uncached orb inst ht native
        native.typeId outFacing requireSecure
      cases href : orb.createReferenceWithId ⟨m, outFacing⟩
          (orb.stringToObjectId (orb.objectToString native)) native.typeId with
      | error e =>
          rw [href] at hrun
          rw [Action.run_bind_raised hrun]
          exact .refl
      | ok ref =>
          rw [href] at hrun
          rw [Action.run_bind_ok hrun]
          exact .single (.alloc _ rfl)
  | some t =>
      have hcover := hsafe.cover m t ht
      have hrun := run_addNativeUnchecked orb inst ht hcover native
        native.typeId outFacing requireSecure
      have hissue : Move orb inst ⟨reg, held⟩
          ⟨reg.setTable m t.nextIndex.2, held⟩ := .issue ht
      cases href : orb.createReferenceWithId ⟨m, outFacing⟩
          (inst.objectId outFacing t.peekIndex) native.typeId with
      | error e =>
          rw [href] at hrun
          rw [Action.run_bind_raised hrun]
          exact .single hissue
      | ok ref =>
          rw [href] at hrun
          rw [Action.run_bind_ok hrun]
          apply Relation.ReflTransGen.head hissue
          apply Relation.ReflTransGen.single
          split
          · next hbind =>
              have ht' : (reg.setTable m t.nextIndex.2).table m =
                  some t.nextIndex.2 := by
                rw [table_setTable ht, if_pos rfl]
              exact @Move.install orb inst _ held ⟨m, outFacing⟩ _ native _
                (reg.newValue native ref requireSecure 2) ht' hbind.1 hbind.2
                rfl rfl href (hforeign.resolve_left (by simp [ht]))
          · exact .alloc _ rfl

theorem addNativeHere_advances (hsafe : RegistryState.Safe ⟨reg, held⟩)
    (m : Nat) (native : ObjRef) (outFacing requireSecure : Bool) :
    Advances orb inst reg held
      ((addNativeHere orb inst m native native.typeId outFacing
        requireSecure).run reg) := by
  have hmapping := addNativeHere_mapping orb inst hsafe m native native.typeId outFacing
    requireSecure
  generalize (addNativeHere orb inst m native native.typeId outFacing requireSecure).run reg =
    result at hmapping
  cases hmapping with
  | missed _ _ _ => exact .refl
  | found ht _ hlookup hv => exact .single (.take (lookup_slot ht hlookup) hv)
  | dangling _ _ _ => trivial
  | reversed _ _ _ _ => exact .single (.alloc _ rfl)
  | made hnew =>
      apply addNativeUnchecked_advances orb inst hsafe
      exact hnew.imp_right (inst.ours_eq_false_iff _ _ _).mpr

/-- The chain hands the call to one mapper at most. -/
theorem addNative_advances (hsafe : RegistryState.Safe ⟨reg, held⟩)
    (native : ObjRef) (outFacing requireSecure : Bool)
    (chain : List ProxyMapper) (m : Nat) :
    Advances orb inst reg held
      ((addNative orb inst native native.typeId outFacing requireSecure
        chain m).run reg) := by
  induction chain generalizing m with
  | nil => exact .refl
  | cons mapper next ih =>
      unfold addNative
      split
      · exact addNativeHere_advances orb inst hsafe m native outFacing
          requireSecure
      · exact ih (m + 1)

theorem mapReference_advances (hsafe : RegistryState.Safe ⟨reg, held⟩)
    (native : ObjRef) (outFacing requireSecure : Bool) :
    Advances orb inst reg held
      ((mapReference orb inst native outFacing requireSecure).run reg) :=
  addNative_advances orb inst hsafe native outFacing requireSecure _ 0

theorem unbind_advances (hsafe : RegistryState.Safe ⟨reg, held⟩) {m : Nat}
    {t : RMVByMapped Nat} (ht : reg.table m = some t) (index : UInt32) :
    Advances orb inst reg held ((unbind m index).run reg) := by
  have hcover := hsafe.cover m t ht
  cases hlookup : lookup t index with
  | none =>
      rw [run_unbind_miss ht hcover hlookup]
      exact .refl
  | some a =>
      obtain ⟨hindex, hslot⟩ := lookup_eq_some.mp hlookup
      rw [run_unbind_hit ht hcover hlookup]
      exact .single (.unbind ht hindex hslot)

theorem removeMappedHere_advances (hsafe : RegistryState.Safe ⟨reg, held⟩)
    (m : Nat) (mapped : ObjRef) (outFacing : Bool) :
    Advances orb inst reg held
      ((removeMappedHere orb m mapped outFacing).run reg) := by
  unfold removeMappedHere
  rw [Action.run_bind_ok (Action.run_get reg)]
  cases ht : reg.table m with
  | none => exact .refl
  | some t =>
      dsimp only
      unfold referenceToId
      cases orb.referenceToId ⟨m, outFacing⟩ mapped with
      | error e => exact .refl
      | ok oid =>
          rw [Action.run_bind_ok (Action.run_pure oid reg)]
          cases readIndex oid with
          | none => trivial
          | some index => exact unbind_advances orb inst hsafe ht index

theorem removeReference_advances (hsafe : RegistryState.Safe ⟨reg, held⟩)
    (mapped : ObjRef) (outFacing : Bool) :
    Advances orb inst reg held
      ((removeReference orb mapped outFacing).run reg) := by
  have hchain : ∀ (chain : List ProxyMapper) (m : Nat),
      Advances orb inst reg held
        ((removeMapped orb mapped mapped.typeId outFacing chain m).run reg) := by
    intro chain
    induction chain with
    | nil => exact fun _ => .refl
    | cons mapper next ih =>
        intro m
        unfold removeMapped
        split
        · exact removeMappedHere_advances orb inst hsafe m mapped outFacing
        · exact ih (m + 1)
  exact hchain reg.mappers 0

end Advancing

end Registry

/-- What can happen in a run: the calls of clients and evaluators, the
removals of the collector, a caller letting go of a value, and a change of
the interface repository. -/
inductive RegistryOp where
  | mapReference (native : ObjRef) (outFacing requireSecure : Bool)
  | removeReference (mapped : ObjRef) (outFacing : Bool)
  | reap (m page offset : Nat)
  | release (a : Nat)
  | evaluators (answers : Nat → String → Bool)

namespace RegistryState

/-- After an operation that returns a pointer the caller owns it. -/
def afterCall (s : RegistryState) :
    Outcome Exn (Option Nat) × Registry → Option RegistryState
  | (.ok r, reg) => some ⟨reg, r.toList ++ s.held⟩
  | (.raised _, reg) => some ⟨reg, s.held⟩
  | (.fault _, _) => none

def step (orb : Orb) (inst : Instance) (s : RegistryState) :
    RegistryOp → Option RegistryState
  | .mapReference native outFacing requireSecure =>
      s.afterCall ((Registry.mapReference orb inst native outFacing
        requireSecure).run s.reg)
  | .removeReference mapped outFacing =>
      s.afterCall ((Registry.removeReference orb mapped outFacing).run s.reg)
  | .reap m page offset =>
      match s.reg.table m with
      | none => none
      | some t =>
          if offset < t.pageSize.toNat ∧ page < t.pages.length then
            match (Registry.reap m page offset).run s.reg with
            | (.ok _, reg) => some ⟨reg, s.held⟩
            | _ => none
          else none
  | .release a =>
      if a ∈ s.held then
        match (Registry.decrRefcount a).run s.reg with
        | (.ok _, reg) => some ⟨reg, s.held.erase a⟩
        | _ => none
      else none
  | .evaluators answers => some ⟨s.reg.withEvaluators answers, s.held⟩

/-- The registry after `init_mappers`: a chain of new mappers. -/
def initial (cacheProxyReferences hasSecurity : Bool)
    (answers : List (String → Bool)) : RegistryState where
  reg :=
    { mappers := answers.map (ProxyMapper.new cacheProxyReferences)
      hasSecurity := hasSecurity
      values := .empty
      history := [] }
  held := []

end RegistryState

def registrySystem (orb : Orb) (inst : Instance) (cacheProxyReferences : Bool) :
    System RegistryState RegistryOp where
  init s := ∃ hasSecurity answers,
    s = RegistryState.initial cacheProxyReferences hasSecurity answers
  step := RegistryState.step orb inst

namespace RegistryState

variable {orb : Orb} {inst : Instance}

theorem afterCall_moves {s s' : RegistryState}
    {result : Outcome Exn (Option Nat) × Registry}
    (hadv : Registry.Advances orb inst s.reg s.held result)
    (h : s.afterCall result = some s') : Moves orb inst s s' := by
  obtain ⟨outcome, reg⟩ := result
  cases outcome with
  | ok r =>
      obtain rfl := Option.some.inj h
      exact hadv
  | raised e =>
      obtain rfl := Option.some.inj h
      exact hadv
  | fault cause => cases h

/-- Giving back a count of a living value neither faults nor trips the
assertion. -/
theorem Safe.decr_ok {s : RegistryState} (h : s.Safe) {a : Nat}
    {v : ReferenceMapValue} (hv : s.reg.values.cells a = some v) :
    ∃ values, s.reg.values.decrRefcount a = .ok values := by
  rcases lt_or_eq_of_le (h.counted a v hv).2 with hlt | heq
  · exact ⟨_, Heap.decrRefcount_eq_of_lt hv hlt⟩
  · exact ⟨_, Heap.decrRefcount_eq_of_one hv heq.symm⟩

/-- The collector's removal at a slot of an existing page always comes back. -/
theorem reap_moves {reg : Registry} {held : List Nat} (hsafe : Safe ⟨reg, held⟩)
    {m page offset : Nat} {t : RMVByMapped Nat} (ht : reg.table m = some t)
    (hoffset : offset < t.pageSize.toNat) (hpage : page < t.pages.length) :
    ∃ reg', (Registry.reap m page offset).run reg = (.ok (), reg') ∧
      Moves orb inst ⟨reg, held⟩ ⟨reg', held⟩ := by
  cases hslot : t.slot (page * t.pageSize.toNat + offset) with
  | none => exact ⟨reg, Registry.run_reap_empty ht hslot, .refl⟩
  | some a =>
      have hbound : reg.Bound a := ⟨m, _, (Registry.slotOf_eq ht _).trans hslot⟩
      obtain ⟨v, hv⟩ := hsafe.bound_cell hbound
      obtain ⟨values, hdecr⟩ := hsafe.decr_ok hv
      exact ⟨_, Registry.run_reap ht hslot hdecr,
        .single (.reap ht hoffset hpage hslot hdecr)⟩

/-- Every step of a run is a sequence of moves. -/
theorem step_moves {s s' : RegistryState} (hsafe : s.Safe) {op : RegistryOp}
    (h : s.step orb inst op = some s') : Moves orb inst s s' := by
  cases op with
  | mapReference native outFacing requireSecure =>
      exact afterCall_moves (Registry.mapReference_advances orb inst hsafe native
        outFacing requireSecure) h
  | removeReference mapped outFacing =>
      exact afterCall_moves (Registry.removeReference_advances orb inst hsafe
        mapped outFacing) h
  | reap m page offset =>
      simp only [step] at h
      cases ht : s.reg.table m with
      | none =>
          rw [ht] at h
          cases h
      | some t =>
          rw [ht] at h
          obtain ⟨hrange, h⟩ := Option.ite_none_right_eq_some.mp h
          obtain ⟨reg', hrun, hmoves⟩ :=
            reap_moves hsafe ht hrange.1 hrange.2
          rw [hrun] at h
          obtain rfl := Option.some.inj h
          exact hmoves
  | release a =>
      simp only [step] at h
      obtain ⟨ha, h⟩ := Option.ite_none_right_eq_some.mp h
      obtain ⟨v, hv⟩ := hsafe.held_cell ha
      obtain ⟨values, hdecr⟩ := hsafe.decr_ok hv
      rw [Registry.run_decrRefcount hdecr] at h
      obtain rfl := Option.some.inj h
      exact .single (.drop ha hdecr)
  | evaluators answers =>
      obtain rfl := Option.some.inj h
      exact .single (.evaluators answers)

theorem initial_table (cache hasSecurity : Bool) (answers : List (String → Bool))
    (m : Nat) :
    (initial cache hasSecurity answers).reg.table m =
      if cache ∧ m < answers.length then some (RMVByMapped.new 1024) else none := by
  simp only [initial, Registry.table, List.getElem?_map]
  by_cases hm : m < answers.length
  · rw [List.getElem?_eq_getElem hm]
    cases cache <;> simp [ProxyMapper.new, hm]
  · rw [List.getElem?_eq_none (by omega)]
    simp [hm]

theorem initial_slotOf (cache hasSecurity : Bool)
    (answers : List (String → Bool)) (m i : Nat) :
    (initial cache hasSecurity answers).reg.slotOf m i = none := by
  unfold Registry.slotOf
  rw [initial_table]
  split
  · exact RMVByMapped.new_slot 1024 i
  · rfl

theorem initial_safe (cache hasSecurity : Bool) (answers : List (String → Bool)) :
    (initial cache hasSecurity answers).Safe := by
  have hslot := initial_slotOf cache hasSecurity answers
  refine ⟨?_, ⟨?_, ?_, ?_⟩, fun _ _ => rfl⟩
  · intro m t ht
    rw [initial_table] at ht
    split at ht
    · exact Option.some.inj ht ▸ RMVByMapped.PagesCover.new 1024
    · cases ht
  · intro p _ a ha
    exact absurd ((hslot p.1 p.2).symm.trans ha) nofun
  · intro a n hn
    cases hn
  · intro a _
    refine ⟨?_, List.not_mem_nil⟩
    rintro ⟨p, ha⟩
    exact absurd ((hslot p.1 p.2).symm.trans ha) nofun

/-- The invariant rule of the registry: what holds after `init_mappers` and is
kept by every move holds in every state of every run, which is safe too. -/
theorem move_invariant {cache : Bool} {guard : RegistryState → RegistryOp → Prop}
    {I : RegistryState → Prop}
    (hinit : ∀ hasSecurity answers, I (initial cache hasSecurity answers))
    (hmove : ∀ s s', s.Safe → I s → Move orb inst s s' → I s')
    {s : RegistryState} (h : (registrySystem orb inst cache).Reach guard s) :
    s.Safe ∧ I s := by
  apply h.invariant (I := fun s => s.Safe ∧ I s)
  · rintro s ⟨hasSecurity, answers, rfl⟩
    exact ⟨initial_safe cache hasSecurity answers, hinit hasSecurity answers⟩
  · rintro s op s' hs _ hstep
    have hmoves := step_moves hs.1 hstep
    clear hstep
    induction hmoves with
    | refl => exact hs
    | tail _ hlast ih => exact ⟨ih.1.move hlast, hmove _ _ ih.1 ih.2 hlast⟩

/-- Moves keep the counts right. -/
theorem Safe.moves {s s' : RegistryState} (hsafe : s.Safe) (hmoves : Moves orb inst s s') :
    s'.Safe := by
  induction hmoves with
  | refl => exact hsafe
  | tail _ hlast ih => exact ih.move hlast

/-- Moves keep the counts and the history right. -/
theorem Traced.moves {s s' : RegistryState} (hsafe : s.Safe) (h : Traced orb inst s)
    (hmoves : Moves orb inst s s') : s'.Safe ∧ Traced orb inst s' := by
  induction hmoves with
  | refl => exact ⟨hsafe, h⟩
  | tail _ hlast ih => exact ⟨ih.1.move hlast, ih.2.move ih.1 hlast⟩

/-- Every state of every run is safe and its history is that of its tables. -/
theorem sound_of_reach {cache : Bool} {guard : RegistryState → RegistryOp → Prop}
    {s : RegistryState} (h : (registrySystem orb inst cache).Reach guard s) :
    s.Safe ∧ Traced orb inst s := by
  apply move_invariant ?_ ?_ h
  · intro hasSecurity answers
    have hslot := initial_slotOf cache hasSecurity answers
    refine ⟨?_, ?_, ?_, ?_, ?_⟩
    · intro m i a ha
      rw [hslot] at ha
      cases ha
    · exact fun _ _ _ _ h => absurd h List.not_mem_nil
    · exact fun _ _ _ _ _ _ _ h => absurd h List.not_mem_nil
    · rintro _ _ _ _ (h | h) <;> exact absurd h List.not_mem_nil
    · exact fun _ _ _ _ h => absurd h List.not_mem_nil
  · intro s s' hsafe htraced hmove
    exact htraced.move hsafe hmove

/-- Every mapper of the chain has its table. -/
def Cached (s : RegistryState) : Prop :=
  ∀ m, m < s.reg.mappers.length → ∃ t, s.reg.table m = some t

theorem Cached.setTable {reg : Registry} {held : List Nat}
    (h : Cached ⟨reg, held⟩) {m : Nat} {t : RMVByMapped Nat}
    (ht : reg.table m = some t) (t' : RMVByMapped Nat) :
    Cached ⟨reg.setTable m t', held⟩ := by
  intro k hk
  rw [Registry.setTable_length] at hk
  rw [Registry.table_setTable ht]
  split
  · exact ⟨t', rfl⟩
  · exact h k hk

theorem Cached.move {s s' : RegistryState} (h : s.Cached)
    (hmove : Move orb inst s s') : s'.Cached := by
  cases hmove with
  | issue ht => exact h.setTable ht _
  | alloc v hv => exact h
  | @install reg held poa index native t v ht _ _ _ _ _ _ =>
      exact @setTable (reg.setValues (reg.values.alloc v).2) held h _ t ht _
  | @take reg held m i a v _ _ => exact h
  | @unbind reg held m a index t ht _ _ => exact @setTable reg held h _ t ht _
  | @reap reg held m page offset a t values ht _ _ _ _ =>
      exact @setTable (reg.setValues values) held h _ t ht _
  | drop _ _ => exact h
  | touch _ _ _ _ _ => exact h
  | evaluators answers =>
      intro k hk
      rw [Registry.withEvaluators_table]
      exact h k (by simpa [Registry.withEvaluators] using hk)

theorem Cached.moves {s s' : RegistryState} (h : s.Cached) (hmoves : Moves orb inst s s') :
    s'.Cached := by
  induction hmoves with
  | refl => exact h
  | tail _ hlast ih => exact ih.move hlast

theorem cached_of_reach {guard : RegistryState → RegistryOp → Prop}
    {s : RegistryState} (h : (registrySystem orb inst true).Reach guard s) :
    s.Cached := by
  refine (move_invariant (I := Cached) ?_ ?_ h).2
  · intro hasSecurity answers m hm
    have hlt : m < answers.length := by simpa [initial] using hm
    exact ⟨RMVByMapped.new 1024,
      (initial_table true hasSecurity answers m).trans (by simp [hlt])⟩
  · exact fun s s' _ hcached hmove => hcached.move hmove

end RegistryState

end Lorica
