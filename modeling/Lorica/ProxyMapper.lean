import Lorica.RMVByMapped
import Lorica.ReferenceMapValue
import Lorica.MappedObjectId

/-!
`ProxyMapper.cpp` and the mapping half of `MapperRegistry.cpp`: the chain of
mappers, each with its own table, and the operations that add, find and
remove mappings. Every operation is an action on the registry.

The ORB is code outside this repository and enters as the structure `Orb`.
A registry also carries a history of the mappings made and removed. No
operation reads it; it is there to say what happened in a run.
-/

namespace Lorica

open Machine

/-- One of the two POAs of the mapper at a position of the chain. -/
structure Poa where
  mapper : Nat
  outFacing : Bool
deriving DecidableEq, Repr

/-- The calls into TAO. -/
structure Orb where
  createReferenceWithId : Poa → ObjectId → String → Except Exn ObjRef
  referenceToId : Poa → ObjRef → Except Exn ObjectId
  objectToString : ObjRef → String
  stringToObjectId : String → ObjectId
  objectIdToString : ObjectId → Except Exn String
  stringToObject : String → Except Exn (Option ObjRef)

/-- What the code relies on of the POA: the key of a reference ends in the
object id it was made with, the type id is kept, and `reference_to_id` takes
back the ids of its own POA only. -/
structure Orb.Lawful (orb : Orb) : Prop where
  create_key : ∀ poa oid typeId ref,
    orb.createReferenceWithId poa oid typeId = .ok ref →
    ∃ before, ref.key = some (before ++ oid)
  create_type : ∀ poa oid typeId ref,
    orb.createReferenceWithId poa oid typeId = .ok ref → ref.typeId = typeId
  to_id_own : ∀ poa oid typeId ref,
    orb.createReferenceWithId poa oid typeId = .ok ref →
    orb.referenceToId poa ref = .ok oid
  to_id_other : ∀ poa poa' oid oid' typeId ref,
    orb.createReferenceWithId poa oid typeId = .ok ref →
    orb.referenceToId poa' ref = .ok oid' → poa' = poa
  to_id_key : ∀ poa oid ref, orb.referenceToId poa ref = .ok oid →
    ∃ before, ref.key = some (before ++ oid)

/-- A name of a POA that is no prefix of the name of another one. -/
def Poa.name (poa : Poa) : List UInt8 :=
  List.replicate poa.mapper 0 ++ [1, if poa.outFacing then 1 else 0]

/-- A plain ORB: a key is the name of the POA followed by the object id, and
the text of a reference is its endpoint. -/
def Orb.plain : Orb where
  createReferenceWithId poa oid typeId := .ok
    { typeId := typeId
      key := some (poa.name ++ oid)
      endpoint := "IOR:lorica"
      sslTrans := false
      secured := false }
  referenceToId poa ref :=
    match ref.key with
    | some key =>
        if poa.name <+: key then .ok (key.drop poa.name.length)
        else .error (.user "WrongAdapter")
    | none => .error (.user "WrongAdapter")
  objectToString ref := ref.endpoint
  stringToObjectId text := text.toList.map fun c => UInt8.ofNat c.toNat
  objectIdToString oid :=
    if 0 ∈ oid then .error (.system "BAD_PARAM")
    else .ok (String.ofList (oid.map fun octet => Char.ofNat octet.toNat))
  stringToObject text :=
    if text.toList.take 4 = "IOR:".toList then
      .ok (some ⟨"", none, text, false, false⟩)
    else .error (.system "INV_OBJREF")

theorem Poa.name_cancel {poa poa' : Poa} {x y : List UInt8}
    (h : poa.name ++ x = poa'.name ++ y) : poa = poa' := by
  obtain ⟨m, f⟩ := poa
  obtain ⟨m', f'⟩ := poa'
  simp only [name] at h
  induction m generalizing m' with
  | zero =>
      cases m' with
      | zero => cases f <;> cases f' <;> simp_all
      | succ k => simp [List.replicate_succ] at h
  | succ m ih =>
      cases m' with
      | zero => simp [List.replicate_succ] at h
      | succ k =>
          simp only [List.replicate_succ, List.cons_append, List.cons.injEq,
            true_and] at h
          cases ih k h
          rfl

/-- The laws can be met: the plain ORB keeps them. -/
theorem Orb.plain_lawful : Orb.plain.Lawful where
  create_key := by
    rintro poa oid typeId _ ⟨⟩
    exact ⟨poa.name, rfl⟩
  create_type := by
    rintro poa oid typeId _ ⟨⟩
    rfl
  to_id_own := by
    rintro poa oid typeId _ ⟨⟩
    simp [Orb.plain]
  to_id_other := by
    rintro poa poa' oid oid' typeId _ ⟨⟩ h
    simp only [Orb.plain] at h
    split at h
    · next hname =>
        obtain ⟨rest, hrest⟩ := hname
        exact Poa.name_cancel hrest
    · cases h
  to_id_key := by
    intro poa oid ref h
    simp only [Orb.plain] at h
    split at h
    · next key hkey =>
        split at h
        · next hname =>
            obtain ⟨rest, rfl⟩ := hname
            refine ⟨poa.name, ?_⟩
            rw [← Except.ok.inj h, List.drop_left]
            exact hkey
        · cases h
    · cases h

structure ProxyMapper where
  /-- `evaluator_for (typeId) != 0` -/
  evaluatorFor : String → Bool
  /-- null unless `CacheProxyReferences` is set -/
  mappedValues : Option (RMVByMapped Nat)

/-- The part of the constructor that depends on the configuration. -/
def ProxyMapper.new (cacheProxyReferences : Bool)
    (evaluatorFor : String → Bool) : ProxyMapper where
  evaluatorFor := evaluatorFor
  mappedValues :=
    if cacheProxyReferences then some (RMVByMapped.new 1024) else none

/-- A mapping made by `add_native_unchecked`, and its end by `unbind` or by
the collector. The address of the value identifies the call. -/
inductive MapEvent where
  | mapped (poa : Poa) (oid : ObjectId) (native : ObjRef) (value : Nat)
  | removed (value : Nat)
deriving DecidableEq, Repr

structure Registry where
  mappers : List ProxyMapper
  hasSecurity : Bool
  values : Heap
  history : List MapEvent

abbrev RegistryM (α : Type) := Action Registry Exn α

namespace Registry

/-- The table of the mapper at a position; null in the uncached mode. -/
def table (reg : Registry) (m : Nat) : Option (RMVByMapped Nat) :=
  reg.mappers[m]?.bind ProxyMapper.mappedValues

def setTable (reg : Registry) (m : Nat) (t : RMVByMapped Nat) : Registry :=
  { reg with mappers := reg.mappers.modify m fun mapper =>
      { mapper with mappedValues := some t } }

def setValues (reg : Registry) (values : Heap) : Registry :=
  { reg with values := values }

def log (reg : Registry) (event : MapEvent) : Registry :=
  { reg with history := event :: reg.history }

/-- `this->mapped_values_->` for the mapper at a position. -/
def derefTable (m : Nat) : RegistryM (RMVByMapped Nat) := do
  match (← Action.get).table m with
  | some t => pure t
  | none => Action.fail .nullDereference

def new (v : ReferenceMapValue) : RegistryM Nat := do
  let (a, values) := (← Action.get).values.alloc v
  Action.modify fun reg => reg.setValues values
  pure a

def readValue (a : Nat) : RegistryM ReferenceMapValue := do
  Action.ofExcept ((← Action.get).values.read a)

def incrRefcount (a : Nat) : RegistryM Unit := do
  let values ← Action.ofExcept ((← Action.get).values.incrRefcount a)
  Action.modify fun reg => reg.setValues values

def decrRefcount (a : Nat) : RegistryM Unit := do
  let values ← Action.ofExcept ((← Action.get).values.decrRefcount a)
  Action.modify fun reg => reg.setValues values

/-- `RMVByMapped::find`: the caller gets a count of its own. -/
def find (m : Nat) (index : UInt32) : RegistryM (Option Nat) := do
  let t ← derefTable m
  match ← Action.ofExcept (t.find index) with
  | none => pure none
  | some a => do
      incrRefcount a
      pure (some a)

/-- `RMVByMapped::unbind`: the count of the slot passes to the caller. -/
def unbind (m : Nat) (index : UInt32) : RegistryM (Option Nat) := do
  let t ← derefTable m
  match ← Action.ofExcept (t.unbind index) with
  | (none, _) => pure none
  | (some a, t) => do
      Action.modify fun reg => (reg.setTable m t).log (.removed a)
      pure (some a)

/-- `RMVByMapped::bind` as `add_native_unchecked` calls it, result ignored. -/
def bind (poa : Poa) (index : UInt32) (oid : ObjectId) (native : ObjRef)
    (a : Nat) : RegistryM Unit := do
  let t ← derefTable poa.mapper
  match ← Action.ofExcept (t.bind index a) with
  | (false, _) => pure ()
  | (true, t) => do
      incrRefcount a
      Action.modify fun reg =>
        (reg.setTable poa.mapper t).log (.mapped poa oid native a)

/-- The removal `svc` makes at one slot of the table of one mapper. -/
def reap (m page offset : Nat) : RegistryM Unit := do
  let t ← derefTable m
  match t.slot (page * t.pageSize.toNat + offset) with
  | none => pure ()
  | some a => do
      decrRefcount a
      Action.modify fun reg =>
        (reg.setTable m (t.reap page offset)).log (.removed a)

def supportsSecure (reg : Registry) (native : ObjRef) : Bool :=
  reg.hasSecurity && native.sslTrans

/-- The reference `add_native_unchecked` keeps as `orig_ref_`. -/
def origRef (reg : Registry) (native : ObjRef) : ObjRef :=
  if reg.supportsSecure native then { native with secured := true } else native

section

variable (orb : Orb) (inst : Instance)

/-- The index is taken from the table here and goes with the id. -/
def getMappedObjectId (m : Nat) (outFacing : Bool) :
    RegistryM (ObjectId × UInt32) := do
  let t ← derefTable m
  let (index, t) := t.nextIndex
  Action.modify fun reg => reg.setTable m t
  pure (inst.objectId outFacing index, index)

def createReferenceWithId (poa : Poa) (oid : ObjectId) (typeId : String) :
    RegistryM ObjRef :=
  match orb.createReferenceWithId poa oid typeId with
  | .ok ref => pure ref
  | .error e => Action.raise e

/-- The value is made after the reference and not before it: nobody sees it
until `bind`, and a raise in between deletes it with its `_var`. -/
def addNativeUnchecked (m : Nat) (native : ObjRef) (typeId : String)
    (outFacing requireSecure : Bool) : RegistryM Nat := do
  let reg ← Action.get
  let cached := (reg.table m).isSome
  let (oid, index) ←
    if cached then getMappedObjectId inst m outFacing
    else pure (orb.stringToObjectId (orb.objectToString native), 0)
  let poa : Poa := ⟨m, outFacing⟩
  let mappedRef ← createReferenceWithId orb poa oid typeId
  let rmv ← new
    { origRef := reg.origRef native
      mappedRef := mappedRef
      iorTableName := ""
      requireSecure := requireSecure
      agent := none
      refCount := 1 }
  if cached then
    bind poa index oid native rmv
  pure rmv

/-- `add_native` once this mapper has an evaluator for the type. -/
def addNativeHere (m : Nat) (native : ObjRef) (typeId : String)
    (outFacing requireSecure : Bool) : RegistryM (Option Nat) := do
  let reg ← Action.get
  let (status, index) : MappedStatus × UInt32 :=
    match reg.table m with
    | none => (.notMapped, 0)
    | some _ => inst.alreadyMapped native.key outFacing 0
  match status with
  | .alreadyMapped => find m index
  | .reverseMapped => do
      match ← find m index with
      -- the failed lookup was only reported; `rmv->reverse ()` follows
      | none => Action.fail .nullDereference
      | some a => do
          let v ← readValue a
          let reversed ← new v.reverse
          decrRefcount a
          pure (some reversed)
  | .notMapped => do
      let rmv ← addNativeUnchecked orb inst m native typeId outFacing requireSecure
      pure (some rmv)
  | .mapperError => pure none

/-- `add_native` along the chain from position `m` on. -/
def addNative (native : ObjRef) (typeId : String)
    (outFacing requireSecure : Bool) :
    List ProxyMapper → Nat → RegistryM (Option Nat)
  | [], _ => pure none
  | mapper :: next, m =>
      if mapper.evaluatorFor typeId then
        addNativeHere orb inst m native typeId outFacing requireSecure
      else
        addNative native typeId outFacing requireSecure next (m + 1)

def mapReference (native : ObjRef) (outFacing requireSecure : Bool) :
    RegistryM (Option Nat) := do
  let reg ← Action.get
  addNative orb inst native native.typeId outFacing requireSecure reg.mappers 0

def referenceToId (poa : Poa) (ref : ObjRef) : RegistryM ObjectId :=
  match orb.referenceToId poa ref with
  | .ok oid => pure oid
  | .error e => Action.raise e

/-- `remove_mapped` once this mapper has an evaluator for the type. -/
def removeMappedHere (m : Nat) (mapped : ObjRef) (outFacing : Bool) :
    RegistryM (Option Nat) := do
  let reg ← Action.get
  match reg.table m with
  | none => pure none
  | some _ => do
      let oid ← referenceToId orb ⟨m, outFacing⟩ mapped
      match readIndex oid with
      | none => Action.fail .outOfBounds
      | some index => unbind m index

def removeMapped (mapped : ObjRef) (typeId : String) (outFacing : Bool) :
    List ProxyMapper → Nat → RegistryM (Option Nat)
  | [], _ => pure none
  | mapper :: next, m =>
      if mapper.evaluatorFor typeId then removeMappedHere orb m mapped outFacing
      else removeMapped mapped typeId outFacing next (m + 1)

def removeReference (mapped : ObjRef) (outFacing : Bool) :
    RegistryM (Option Nat) := do
  let reg ← Action.get
  removeMapped orb mapped mapped.typeId outFacing reg.mappers 0

/-- `native_for_mapped_i`: the native and its agent, both nil on a miss. -/
def nativeForMappedI (m : Nat) (oid : ObjectId) :
    RegistryM (Option ObjRef × Option ObjRef) :=
  match readIndex oid with
  | none => Action.fail .outOfBounds
  | some index => do
      match ← find m index with
      | none => pure (none, none)
      | some a => do
          let v ← readValue a
          decrRefcount a
          pure (some v.origRef, v.agent)

/-- The body of the `try` block of `current_native`. -/
def currentNativeBody (m : Nat) (oid : ObjectId) :
    RegistryM (Option ObjRef × Option ObjRef) := do
  match (← Action.get).table m with
  | none =>
      match orb.objectIdToString oid >>= orb.stringToObject with
      | .ok nref => pure (nref, none)
      | .error e => Action.raise e
  | some _ => nativeForMappedI m oid

/-- `current_native` for a request that carries `oid`. The handler reports to
the agent it was handed, which the caller passes as an empty `_var`. -/
def currentNative (m : Nat) (oid : ObjectId) (agent : Option ObjRef) :
    RegistryM (Option ObjRef × Option ObjRef) :=
  Action.tryCatch (currentNativeBody orb m oid) fun
    | .other => Action.raise .other
    | _ =>
        match agent with
        | none => Action.fail .nullDereference
        | some _ => pure (none, agent)

end

end Registry

end Lorica
