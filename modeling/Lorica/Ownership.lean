import Lorica.Resolution

/-!
The operations of the registry thread by thread. Every critical section of
`RMVByMapped` and every change of a reference count is one step, and between
two steps any other thread may run. A thread carries the `_var`s and raw
pointers it owns where it stands, so that the pointers of a state can be
counted. The mappers have their tables here (`CacheProxyReferences`).
-/

namespace Lorica

open Machine

/-- What an operation hands back to its caller. -/
inductive ThreadResult where
  | value (r : Option Nat)
  | natives (native agent : Option ObjRef)
  | raised (e : Exn)
deriving DecidableEq, Repr

/-- The pointer the caller owns from then on. -/
def ThreadResult.owned : ThreadResult → List Nat
  | .value r => r.toList
  | _ => []

/-- The arguments of `add_native` of the mapper at a position. -/
structure Addition where
  mapper : Nat
  native : ObjRef
  outFacing : Bool
  requireSecure : Bool
deriving DecidableEq, Repr

def Addition.poa (call : Addition) : Poa := ⟨call.mapper, call.outFacing⟩

/-- Where a thread stands: what it does in its next step, with the pointers it
owns. -/
inductive Thread where
  /-- `add_native`, about to ask for an evaluator -/
  | adding (call : Addition)
  /-- `ALREADY_MAPPED`, about to look the index up -/
  | finding (m : Nat) (index : UInt32)
  /-- `REVERSE_MAPPED`, about to look the index up -/
  | findingReverse (m : Nat) (index : UInt32)
  /-- about to call `reverse` on the value found -/
  | reversing (a : Nat)
  /-- `add_native_unchecked`, about to make the value -/
  | creating (call : Addition)
  /-- about to set `orig_ref_` and take an index -/
  | numbering (a : Nat) (call : Addition)
  /-- about to make the mapped reference -/
  | referring (a : Nat) (index : UInt32) (oid : ObjectId) (call : Addition)
  /-- about to put the value into the table -/
  | binding (a : Nat) (index : UInt32) (oid : ObjectId) (call : Addition)
  /-- `remove_mapped`, about to ask for an evaluator -/
  | removing (m : Nat) (mapped : ObjRef) (outFacing : Bool)
  /-- about to take the value out of the table -/
  | unbinding (m : Nat) (index : UInt32)
  /-- `native_for_mapped_i`, about to look the index up -/
  | resolving (m : Nat) (oid : ObjectId)
  /-- about to copy the references of the value found -/
  | reading (a : Nat)
  /-- the destructor of a `_var` -/
  | dropping (a : Nat) (result : ThreadResult)
  /-- the collector, about to look at a slot -/
  | visiting (m page offset : Nat)
  /-- the collector, back from asking the object of the value it saw there -/
  | probing (m page offset a : Nat)
  | done (result : ThreadResult)
deriving DecidableEq, Repr

/-- The pointers that count: `_var`s and pointers on their way to a caller.
The one the collector compares with is not counted. -/
def Thread.owned : Thread → List Nat
  | .reversing a => [a]
  | .numbering a _ => [a]
  | .referring a _ _ _ => [a]
  | .binding a _ _ _ => [a]
  | .reading a => [a]
  | .dropping a result => a :: result.owned
  | .done result => result.owned
  | _ => []

/-- What a step may get from outside: the address that `new` returns, what
lies behind the end of a short object id, the exception
`_set_policy_overrides` raises, and the answer of `_non_existent`. -/
structure StepInput where
  address : Nat
  beyond : UInt32
  refused : Option Exn
  expired : Bool

/-- `new` at an address that is free. -/
def Heap.allocAt (h : Heap) (a : Nat) (v : ReferenceMapValue) : Heap :=
  { (h.write a (some v)) with fresh := max h.fresh (a + 1) }

/-- The constructor of `ReferenceMapValue`: the references are nil. -/
def ReferenceMapValue.blank : ReferenceMapValue where
  origRef := ⟨"", none, "", false, false⟩
  mappedRef := ⟨"", none, "", false, false⟩
  iorTableName := ""
  requireSecure := false
  agent := none
  refCount := 1

namespace Registry

def newAt (a : Nat) (v : ReferenceMapValue) : RegistryM Unit :=
  Action.modify fun reg => reg.setValues (reg.values.allocAt a v)

/-- Assignments to fields other than the count. -/
def updateValue (a : Nat) (f : ReferenceMapValue → ReferenceMapValue) : RegistryM Unit := do
  let v ← readValue a
  Action.modify fun reg =>
    reg.setValues (reg.values.write a (some { f v with refCount := v.refCount }))

end Registry

section

variable (orb : Orb) (inst : Instance) (around : StepInput)

/-- `mid->index`, or whatever lies there when the id is too short. -/
def StepInput.index (oid : ObjectId) : UInt32 :=
  (readIndex oid).getD around.beyond

/-- The next step of a thread. -/
def Thread.advance : Thread → RegistryM Thread
  | .adding call => do
      match (← Action.get).mappers[call.mapper]? with
      | none => pure (.done (.value none))
      | some mapper =>
          if mapper.evaluatorFor call.native.typeId then
            match inst.alreadyMapped call.native.key call.outFacing 0 with
            | (.alreadyMapped, index) => pure (.finding call.mapper index)
            | (.reverseMapped, index) => pure (.findingReverse call.mapper index)
            | (.notMapped, _) => pure (.creating call)
            | (.mapperError, _) => pure (.done (.value none))
          else pure (.adding { call with mapper := call.mapper + 1 })
  | .finding m index => do
      let r ← Registry.find m index
      pure (.done (.value r))
  | .findingReverse m index => do
      match ← Registry.find m index with
      | none => Action.fail .nullDereference
      | some a => pure (.reversing a)
  | .reversing a => do
      let v ← Registry.readValue a
      Registry.newAt around.address v.reverse
      pure (.dropping a (.value (some around.address)))
  | .creating call => do
      Registry.newAt around.address .blank
      pure (.numbering around.address call)
  | .numbering a call => do
      let reg ← Action.get
      -- only a native that supports security gets its policies overridden
      match (if reg.supportsSecure call.native then around.refused else none) with
      | some e => pure (.dropping a (.raised e))
      | none => do
          Registry.updateValue a fun v => { v with origRef := reg.origRef call.native }
          let (oid, index) ← Registry.getMappedObjectId inst call.mapper call.outFacing
          pure (.referring a index oid call)
  | .referring a index oid call =>
      match orb.createReferenceWithId call.poa oid call.native.typeId with
      | .error e => pure (.dropping a (.raised e))
      | .ok ref => do
          Registry.updateValue a fun v =>
            { v with mappedRef := ref, requireSecure := call.requireSecure }
          pure (.binding a index oid call)
  | .binding a index oid call => do
      Registry.bind call.poa index oid call.native a
      pure (.done (.value (some a)))
  | .removing m mapped outFacing => do
      match (← Action.get).mappers[m]? with
      | none => pure (.done (.value none))
      | some mapper =>
          if mapper.evaluatorFor mapped.typeId then
            match orb.referenceToId ⟨m, outFacing⟩ mapped with
            | .error e => pure (.done (.raised e))
            | .ok oid => pure (.unbinding m (around.index oid))
          else pure (.removing (m + 1) mapped outFacing)
  | .unbinding m index => do
      let r ← Registry.unbind m index
      pure (.done (.value r))
  | .resolving m oid => do
      match ← Registry.find m (around.index oid) with
      | none => pure (.done (.natives none none))
      | some a => pure (.reading a)
  | .reading a => do
      let v ← Registry.readValue a
      pure (.dropping a (.natives (some v.origRef) v.agent))
  | .dropping a result => do
      Registry.decrRefcount a
      pure (.done result)
  | .visiting m page offset => do
      let t ← Registry.derefTable m
      if offset < t.pageSize.toNat ∧ page < t.pages.length then
        match t.slot (page * t.pageSize.toNat + offset) with
        | some a => pure (.probing m page offset a)
        | none => pure (.done (.value none))
      else pure (.done (.value none))
  | .probing m page offset a => do
      let t ← Registry.derefTable m
      -- an unbind may have occurred while the lock was released
      if around.expired ∧ t.slot (page * t.pageSize.toNat + offset) = some a then
        Registry.reap m page offset
      pure (.done (.value none))
  | .done result => pure (.done result)

end

/-- The calls that start a thread. -/
inductive ThreadCall where
  | mapReference (native : ObjRef) (outFacing requireSecure : Bool)
  | removeReference (mapped : ObjRef) (outFacing : Bool)
  | nativeForMapped (m : Nat) (oid : ObjectId)
  | collect (m page offset : Nat)
deriving DecidableEq, Repr

def ThreadCall.entry : ThreadCall → Thread
  | .mapReference native outFacing requireSecure => .adding ⟨0, native, outFacing, requireSecure⟩
  | .removeReference mapped outFacing => .removing 0 mapped outFacing
  | .nativeForMapped m oid => .resolving m oid
  | .collect m page offset => .visiting m page offset

/-- The mapper whose member function is called exists. -/
def ThreadCall.Valid (reg : Registry) : ThreadCall → Prop
  | .nativeForMapped m _ => m < reg.mappers.length
  | .collect m _ _ => m < reg.mappers.length
  | _ => True

instance (reg : Registry) (call : ThreadCall) : Decidable (call.Valid reg) := by
  cases call <;> unfold ThreadCall.Valid <;> infer_instance

/-- A state of the whole process; a fault ends it. -/
structure Process where
  reg : Registry
  threads : List Thread
  fault : Option Fault

/-- What happens next. The last three are steps of a caller that owns the
pointer a thread came back with: it assigns fields of the value, initialises
its `_var` with a copy of a temporary one, or lets go. -/
inductive ThreadEvent where
  | call (call : ThreadCall)
  | advance (i : Nat) (around : StepInput)
  | evaluators (answers : Nat → String → Bool)
  | assign (i : Nat) (name : String) (requireSecure : Bool) (agent : Option ObjRef)
  | copy (i : Nat)
  | release (i : Nat)

namespace Process

def owned (s : Process) : List Nat := s.threads.flatMap Thread.owned

/-- A thread has made a step, or run into a fault. -/
def put (s : Process) (i : Nat) : Outcome Exn Thread × Registry → Option Process
  | (.ok t, reg) => some { s with reg := reg, threads := s.threads.set i t }
  | (.raised _, _) => none
  | (.fault cause, reg) => some { s with reg := reg, fault := some cause }

/-- The pointer a thread came back with. -/
def returned (s : Process) (i : Nat) : Option Nat :=
  match s.threads[i]? with
  | some (.done (.value r)) => r
  | _ => none

def step (orb : Orb) (inst : Instance) (s : Process) (event : ThreadEvent) : Option Process :=
  if s.fault ≠ none then none
  else
    match event with
    | .call call =>
        if call.Valid s.reg then some { s with threads := s.threads ++ [call.entry] } else none
    | .advance i around =>
        if s.reg.values.cells around.address = none then
          s.threads[i]?.bind fun t => s.put i ((t.advance orb inst around).run s.reg)
        else none
    | .evaluators answers => some { s with reg := s.reg.withEvaluators answers }
    | .assign i name requireSecure agent =>
        (s.returned i).bind fun a =>
          s.put i ((do
            Registry.updateValue a fun v =>
              { v with iorTableName := name, requireSecure := requireSecure, agent := agent }
            pure (.done (.value (some a))) : RegistryM Thread).run s.reg)
    | .copy i =>
        (s.returned i).bind fun a =>
          s.put i ((do
            Registry.incrRefcount a
            pure (.dropping a (.value (some a))) : RegistryM Thread).run s.reg)
    | .release i =>
        (s.returned i).bind fun a =>
          some { s with threads := s.threads.set i (.dropping a (.value none)) }

/-- After `init_mappers`, before the first call. -/
def initial (hasSecurity : Bool) (answers : List (String → Bool)) : Process where
  reg := (RegistryState.initial true hasSecurity answers).reg
  threads := []
  fault := none

end Process

def processSystem (orb : Orb) (inst : Instance) : System Process ThreadEvent where
  init s := ∃ hasSecurity answers, s = .initial hasSecurity answers
  step := Process.step orb inst

/-- No thread is about to look up a reversed id that is not in the table. -/
def Process.reverseFound (s : Process) : ThreadEvent → Bool
  | .advance i _ =>
      match s.threads[i]? with
      | some (.findingReverse m index) =>
          (s.reg.table m).any fun t => (Registry.lookup t index).isSome
      | _ => true
  | _ => true

namespace Registry

/-- No table goes away and none loses a page. -/
structure Grows (reg reg' : Registry) : Prop where
  mappers : reg'.mappers.length = reg.mappers.length
  tables : ∀ m t, reg.table m = some t → ∃ t', reg'.table m = some t' ∧
    t'.pageSize = t.pageSize ∧ t.pages.length ≤ t'.pages.length

theorem Grows.of_tables {reg reg' : Registry}
    (hmappers : reg'.mappers.length = reg.mappers.length)
    (h : ∀ m, reg'.table m = reg.table m) : reg.Grows reg' :=
  ⟨hmappers, fun m t ht => ⟨t, (h m).trans ht, rfl, le_refl _⟩⟩

theorem Grows.trans {reg reg' reg'' : Registry} (h : reg.Grows reg') (h' : reg'.Grows reg'') :
    reg.Grows reg'' := by
  refine ⟨h'.mappers.trans h.mappers, ?_⟩
  intro m t ht
  obtain ⟨t', ht', hsize, hpages⟩ := h.tables m t ht
  obtain ⟨t'', ht'', hsize', hpages'⟩ := h'.tables m t' ht'
  exact ⟨t'', ht'', hsize'.trans hsize, hpages.trans hpages'⟩

theorem Grows.setTable {reg : Registry} {m : Nat} {t t' : RMVByMapped Nat}
    (ht : reg.table m = some t) (hsize : t'.pageSize = t.pageSize)
    (hpages : t.pages.length ≤ t'.pages.length) : reg.Grows (reg.setTable m t') := by
  refine ⟨setTable_length t', ?_⟩
  intro k u hu
  rw [table_setTable ht]
  split
  · next hk =>
      subst hk
      obtain rfl := Option.some.inj (ht.symm.trans hu)
      exact ⟨t', rfl, hsize, hpages⟩
  · exact ⟨u, hu, rfl, le_refl _⟩

theorem Grows.setBoth {reg : Registry} {values : Heap} {m : Nat} {t t' : RMVByMapped Nat}
    (ht : reg.table m = some t) (hsize : t'.pageSize = t.pageSize)
    (hpages : t.pages.length ≤ t'.pages.length) :
    reg.Grows ((reg.setValues values).setTable m t') := by
  have hvalues : reg.Grows (reg.setValues values) := .of_tables rfl fun _ => rfl
  exact hvalues.trans (.setTable ht hsize hpages)

theorem Grows.log {reg reg' : Registry} (h : reg.Grows reg') (event : MapEvent) :
    reg.Grows (reg'.log event) :=
  ⟨h.mappers, h.tables⟩

end Registry

namespace RegistryState

section Parts

variable {reg : Registry} {held : List Nat} {a : Nat} {v : ReferenceMapValue}

theorem Safe.perm (h : Safe ⟨reg, held⟩) {held' : List Nat} (hperm : held.Perm held') :
    Safe ⟨reg, held'⟩ :=
  ⟨h.cover, h.balanced.perm hperm, h.fresh⟩

/-- A value made at a free address, with its one pointer. -/
theorem Safe.allocAt (h : Safe ⟨reg, held⟩) (hfree : reg.values.cells a = none)
    (hv : v.refCount = 1) :
    Safe ⟨reg.setValues (reg.values.allocAt a v), a :: held⟩ := by
  have hcounts : (ledger ⟨reg, held⟩).counts a = none := by
    simp [ledger, Heap.counts, hfree]
  refine ⟨h.cover, (h.balanced.make hcounts).congr rfl rfl ?_, ?_⟩
  · refine (Heap.counts_write reg.values a (some v)).trans ?_
    rw [Option.map_some, hv]
    rfl
  · intro b hb
    have hle : max reg.values.fresh (a + 1) ≤ b := hb
    have hne : b ≠ a := by omega
    exact (Heap.write_cells_of_ne _ hne _).trans (h.fresh b (le_of_max_le_left hle))

/-- A value in no slot is put into an empty one, with a count for it. -/
theorem Safe.place (h : Safe ⟨reg, held⟩) {m : Nat} {index : UInt32} {t : RMVByMapped Nat}
    {event : MapEvent} (ht : reg.table m = some t) (hindex : index < t.limit)
    (hslot : t.slot index.toNat = none) (hunbound : ¬ reg.Bound a)
    (hv : reg.values.cells a = some v) :
    Safe ⟨((reg.setValues (reg.values.write a (some { v with refCount := v.refCount + 1 }))).setTable
      m (t.storeAt index (some a))).log event, held⟩ := by
  have hcover := h.cover m t ht
  have hempty : reg.slotOf m index.toNat = none := by
    rw [Registry.slotOf_eq ht, hslot]
  have hfill : ∀ k i, ((reg.setValues (reg.values.write a
      (some { v with refCount := v.refCount + 1 }))).setTable m
        (t.storeAt index (some a))).slotOf k i =
          if k = m ∧ i = index.toNat then some a else reg.slotOf k i :=
    slotOf_storeAt ht hcover hindex rfl
  have hplaced := h.balanced.place (i := (m, index.toNat)) hempty
    (mt bound_ledger.mp hunbound) (Heap.counts_eq hv)
  exact ⟨cover_setTable h.cover ht (hcover.store _ _ _),
    hplaced.congr (slots_update hfill) rfl (Heap.counts_write _ _ _),
    fresh_write h.fresh (lt_fresh h.fresh hv)⟩

end Parts

end RegistryState

/-- What a step of one thread leaves behind, whatever the other threads own:
the counts add up, no table shrinks, and a value that another thread has for
itself stays its own. -/
structure Advanced (reg : Registry) (rest : List Nat) (reg' : Registry) (mine : List Nat) :
    Prop where
  safe : RegistryState.Safe ⟨reg', mine ++ rest⟩
  grows : reg.Grows reg'
  alone : ∀ b ∈ rest, reg.values.counts b = some 1 → reg'.values.counts b = some 1

namespace Advanced

variable {reg reg' reg'' : Registry} {mine mine' rest : List Nat}

theorem trans (h : Advanced reg rest reg' mine) (h' : Advanced reg' rest reg'' mine') :
    Advanced reg rest reg'' mine' :=
  ⟨h'.safe, h.grows.trans h'.grows, fun b hb hone => h'.alone b hb (h.alone b hb hone)⟩

theorem refl (hsafe : RegistryState.Safe ⟨reg, mine ++ rest⟩) : Advanced reg rest reg mine :=
  ⟨hsafe, .of_tables rfl fun _ => rfl, fun _ _ h => h⟩

/-- A step that changes the tables and leaves the values alone. -/
theorem of_same_values (hsafe : RegistryState.Safe ⟨reg', mine' ++ rest⟩)
    (hgrows : reg.Grows reg') (hvalues : reg'.values = reg.values) :
    Advanced reg rest reg' mine' := by
  refine ⟨hsafe, hgrows, ?_⟩
  rw [hvalues]
  exact fun _ _ h => h

/-- A step that writes one value: its own, one in the table, or a new one. -/
theorem of_write (mine : List Nat) (hbefore : RegistryState.Safe ⟨reg, mine ++ rest⟩) {a : Nat}
    {content : Option ReferenceMapValue}
    (hmine : a ∈ mine ∨ reg.Bound a ∨ reg.values.cells a = none)
    (hsafe : RegistryState.Safe ⟨reg', mine' ++ rest⟩) (hgrows : reg.Grows reg')
    (hcells : reg'.values.cells = Function.update reg.values.cells a content) :
    Advanced reg rest reg' mine' := by
  refine ⟨hsafe, hgrows, ?_⟩
  intro b hb hone
  have hne : b ≠ a := by
    rintro rfl
    obtain ⟨hother, hunbound⟩ := hbefore.balanced.sole hb hone
    rcases hmine with h | h | h
    · exact hother h
    · exact hunbound (RegistryState.bound_ledger.mpr h)
    · simp [Heap.counts, h] at hone
  rw [Heap.counts, hcells, Function.update_of_ne hne]
  exact hone

end Advanced

/-- What holds of the registry where a thread stands, beyond the counts: the
mapper it works for has a table, the page the collector looks at exists, and a
value not yet bound belongs to its thread alone. -/
def Thread.Fits (reg : Registry) : Thread → Prop
  | .finding m _ => ∃ t, reg.table m = some t
  | .findingReverse m _ => ∃ t, reg.table m = some t
  | .creating call => ∃ t, reg.table call.mapper = some t
  | .numbering a call =>
      (∃ t, reg.table call.mapper = some t) ∧ reg.values.counts a = some 1
  | .referring a _ _ call =>
      (∃ t, reg.table call.mapper = some t) ∧ reg.values.counts a = some 1
  | .binding a _ _ call =>
      (∃ t, reg.table call.mapper = some t) ∧ reg.values.counts a = some 1
  | .unbinding m _ => ∃ t, reg.table m = some t
  | .resolving m _ => ∃ t, reg.table m = some t
  | .visiting m _ _ => ∃ t, reg.table m = some t
  | .probing m page offset _ =>
      ∃ t, reg.table m = some t ∧ offset < t.pageSize.toNat ∧ page < t.pages.length
  | _ => True

theorem Registry.Grows.table {reg reg' : Registry} (h : reg.Grows reg') {m : Nat}
    (ht : ∃ t, reg.table m = some t) : ∃ t, reg'.table m = some t := by
  obtain ⟨t, ht⟩ := ht
  obtain ⟨t', ht', -⟩ := h.tables m t ht
  exact ⟨t', ht'⟩

/-- The others stand as firmly after a step of one thread. -/
theorem Thread.Fits.advanced {reg reg' : Registry} {rest mine : List Nat} {t : Thread}
    (h : t.Fits reg) (hadv : Advanced reg rest reg' mine) (howned : ∀ a ∈ t.owned, a ∈ rest) :
    t.Fits reg' := by
  cases t with
  | finding m _ => exact hadv.grows.table h
  | findingReverse m _ => exact hadv.grows.table h
  | creating call => exact hadv.grows.table h
  | numbering a call =>
      exact ⟨hadv.grows.table h.1, hadv.alone a (howned a List.mem_cons_self) h.2⟩
  | referring a _ _ call =>
      exact ⟨hadv.grows.table h.1, hadv.alone a (howned a List.mem_cons_self) h.2⟩
  | binding a _ _ call =>
      exact ⟨hadv.grows.table h.1, hadv.alone a (howned a List.mem_cons_self) h.2⟩
  | unbinding m _ => exact hadv.grows.table h
  | resolving m _ => exact hadv.grows.table h
  | visiting m _ _ => exact hadv.grows.table h
  | probing m page offset _ =>
      obtain ⟨u, hu, hoffset, hpage⟩ := h
      obtain ⟨u', hu', hsize, hpages⟩ := hadv.grows.tables m u hu
      exact ⟨u', hu', by rwa [hsize], by omega⟩
  | adding _ => trivial
  | reversing _ => trivial
  | removing _ _ _ => trivial
  | reading _ => trivial
  | dropping _ _ => trivial
  | done _ => trivial

/-- The step comes back, and leaves the books in order. -/
def Steps (reg : Registry) (rest : List Nat) (result : Outcome Exn Thread × Registry) : Prop :=
  ∃ t reg', result = (.ok t, reg') ∧ Advanced reg rest reg' t.owned ∧ t.Fits reg'

section Steps

variable (orb : Orb) (inst : Instance) (around : StepInput) {reg : Registry}
  {rest : List Nat}

theorem Steps.stay (mine : List Nat) {t : Thread} (hsafe : RegistryState.Safe ⟨reg, mine ++ rest⟩)
    (howned : t.owned = mine) (hfits : t.Fits reg) : Steps reg rest (.ok t, reg) :=
  ⟨t, reg, rfl, .refl (howned ▸ hsafe), hfits⟩

theorem adding_steps (call : Addition) (hsafe : RegistryState.Safe ⟨reg, rest⟩)
    (hcached : RegistryState.Cached ⟨reg, rest⟩) :
    Steps reg rest (((Thread.adding call).advance orb inst around).run reg) := by
  rw [Thread.advance]
  rw [Action.run_bind_ok (Action.run_get reg)]
  cases hmapper : reg.mappers[call.mapper]? with
  | none => exact .stay [] hsafe rfl trivial
  | some mapper =>
      have htable := hcached call.mapper (List.getElem?_eq_some_iff.mp hmapper).1
      dsimp only
      split
      · rcases inst.alreadyMapped_cases call.native.key call.outFacing 0 with
          ⟨index, hstatus⟩ | ⟨index, hstatus⟩ | hstatus
        · rw [hstatus]
          exact .stay [] hsafe rfl htable
        · rw [hstatus]
          exact .stay [] hsafe rfl htable
        · rw [hstatus]
          exact .stay [] hsafe rfl htable
      · exact .stay [] hsafe rfl trivial

theorem removing_steps (m : Nat) (mapped : ObjRef) (outFacing : Bool)
    (hsafe : RegistryState.Safe ⟨reg, rest⟩) (hcached : RegistryState.Cached ⟨reg, rest⟩) :
    Steps reg rest (((Thread.removing m mapped outFacing).advance orb inst around).run reg) := by
  rw [Thread.advance]
  rw [Action.run_bind_ok (Action.run_get reg)]
  cases hmapper : reg.mappers[m]? with
  | none => exact .stay [] hsafe rfl trivial
  | some mapper =>
      have htable := hcached m (List.getElem?_eq_some_iff.mp hmapper).1
      dsimp only
      split
      · cases orb.referenceToId ⟨m, outFacing⟩ mapped with
        | error e => exact .stay [] hsafe rfl trivial
        | ok oid => exact .stay [] hsafe rfl htable
      · exact .stay [] hsafe rfl trivial

/-- A `find` that hits: the pointer found is the thread's own from then on. -/
theorem find_advanced {m a : Nat} {t : RMVByMapped Nat} {index : UInt32}
    (hsafe : RegistryState.Safe ⟨reg, rest⟩) (ht : reg.table m = some t)
    (hlookup : Registry.lookup t index = some a) :
    ∃ reg', (Registry.find m index).run reg = (.ok (some a), reg') ∧
      Advanced reg rest reg' [a] := by
  obtain ⟨v, hv, -⟩ := Registry.lookup_cell hsafe ht hlookup
  refine ⟨_, Registry.run_find_hit ht (hsafe.cover m t ht) hlookup hv, ?_⟩
  have hbound : reg.Bound a :=
    ⟨m, index.toNat, Registry.lookup_slot ht hlookup⟩
  exact .of_write [] hsafe (.inr (.inl hbound)) (hsafe.take hv)
    (.of_tables rfl fun _ => rfl) rfl

/-- A step that begins with a `find`, hit or missed. -/
theorem find_steps {m : Nat} {index : UInt32} {next : Option Nat → RegistryM Thread}
    (hsafe : RegistryState.Safe ⟨reg, rest⟩) (hfits : ∃ t, reg.table m = some t)
    (hmiss : Steps reg rest ((next none).run reg))
    (hhit : ∀ a reg', Advanced reg rest reg' [a] → Steps reg rest ((next (some a)).run reg')) :
    Steps reg rest ((Registry.find m index >>= next).run reg) := by
  obtain ⟨t, ht⟩ := hfits
  cases hlookup : Registry.lookup t index with
  | none =>
      rw [Action.run_bind_ok (Registry.run_find_miss ht (hsafe.cover m t ht) hlookup)]
      exact hmiss
  | some a =>
      obtain ⟨reg', hrun, hadv⟩ := find_advanced hsafe ht hlookup
      rw [Action.run_bind_ok hrun]
      exact hhit a reg' hadv

theorem finding_steps (m : Nat) (index : UInt32) (hsafe : RegistryState.Safe ⟨reg, rest⟩)
    (hfits : ∃ t, reg.table m = some t) :
    Steps reg rest (((Thread.finding m index).advance orb inst around).run reg) :=
  find_steps hsafe hfits (.stay [] hsafe rfl trivial)
    fun _ reg' hadv => ⟨_, reg', rfl, hadv, trivial⟩

theorem findingReverse_steps (m : Nat) (index : UInt32) {t : RMVByMapped Nat}
    (hsafe : RegistryState.Safe ⟨reg, rest⟩) (ht : reg.table m = some t)
    (hfound : (Registry.lookup t index).isSome) :
    Steps reg rest (((Thread.findingReverse m index).advance orb inst around).run reg) := by
  obtain ⟨a, hlookup⟩ := Option.isSome_iff_exists.mp hfound
  obtain ⟨reg', hrun, hadv⟩ := find_advanced hsafe ht hlookup
  rw [Thread.advance]
  rw [Action.run_bind_ok hrun]
  exact ⟨_, reg', rfl, hadv, trivial⟩

theorem resolving_steps (m : Nat) (oid : ObjectId) (hsafe : RegistryState.Safe ⟨reg, rest⟩)
    (hfits : ∃ t, reg.table m = some t) :
    Steps reg rest (((Thread.resolving m oid).advance orb inst around).run reg) :=
  find_steps hsafe hfits (.stay [] hsafe rfl trivial)
    fun _ reg' hadv => ⟨_, reg', rfl, hadv, trivial⟩

/-- `reverse` makes a second value while the thread still has the first. -/
theorem reversing_steps (a : Nat) (hsafe : RegistryState.Safe ⟨reg, a :: rest⟩)
    (hfree : reg.values.cells around.address = none) :
    Steps reg rest (((Thread.reversing a).advance orb inst around).run reg) := by
  obtain ⟨v, hv⟩ := hsafe.held_cell List.mem_cons_self
  rw [Thread.advance]
  rw [Action.run_bind_ok (Registry.run_readValue hv)]
  refine ⟨_, _, rfl, ?_, trivial⟩
  refine .of_write [a] hsafe (.inr (.inr hfree)) ?_ (.of_tables rfl fun _ => rfl) rfl
  exact (hsafe.allocAt hfree rfl).perm (.swap a around.address rest)

theorem creating_steps (call : Addition) (hsafe : RegistryState.Safe ⟨reg, rest⟩)
    (hfits : ∃ t, reg.table call.mapper = some t)
    (hfree : reg.values.cells around.address = none) :
    Steps reg rest (((Thread.creating call).advance orb inst around).run reg) := by
  refine ⟨_, _, rfl, ?_, hfits, ?_⟩
  · exact .of_write [] hsafe (.inr (.inr hfree)) (hsafe.allocAt hfree rfl)
      (.of_tables rfl fun _ => rfl) rfl
  · exact Heap.counts_eq (Heap.write_cells_self _ _ _)

/-- Assignments to the other fields of a value the thread has. -/
theorem update_advanced {a : Nat} {v : ReferenceMapValue}
    (hsafe : RegistryState.Safe ⟨reg, a :: rest⟩) (hv : reg.values.cells a = some v)
    (f : ReferenceMapValue → ReferenceMapValue) :
    ∃ reg', (Registry.updateValue a f).run reg = (.ok (), reg') ∧
      Advanced reg rest reg' [a] ∧ reg'.values.counts a = reg.values.counts a ∧
      ∀ m, reg'.table m = reg.table m := by
  refine ⟨reg.setValues (reg.values.write a (some { f v with refCount := v.refCount })), ?_, ?_,
    ?_, fun _ => rfl⟩
  · unfold Registry.updateValue
    rw [Action.run_bind_ok (Registry.run_readValue hv)]
    rfl
  · exact .of_write [a] hsafe (.inl List.mem_cons_self) (hsafe.touch hv rfl)
      (.of_tables rfl fun _ => rfl) rfl
  · have hcell : (reg.values.write a (some { f v with refCount := v.refCount })).cells a =
        some { f v with refCount := v.refCount } := Heap.write_cells_self _ _ _
    rw [Heap.counts_eq hv, Registry.setValues_values, Heap.counts_eq hcell]

theorem next_index_advanced {m : Nat} {mine : List Nat} (outFacing : Bool)
    (hsafe : RegistryState.Safe ⟨reg, mine ++ rest⟩) (hfits : ∃ t, reg.table m = some t) :
    ∃ reg' oid index, (Registry.getMappedObjectId inst m outFacing).run reg =
        (.ok (oid, index), reg') ∧
      Advanced reg rest reg' mine ∧ reg'.values = reg.values := by
  obtain ⟨t, ht⟩ := hfits
  refine ⟨_, _, _, Registry.run_getMappedObjectId inst ht outFacing, ?_, rfl⟩
  exact .of_same_values (hsafe.issue ht)
    (.setTable ht t.nextIndex_pageSize t.nextIndex_pages_length) rfl

theorem numbering_steps (a : Nat) (call : Addition)
    (hsafe : RegistryState.Safe ⟨reg, a :: rest⟩)
    (hfits : (Thread.numbering a call).Fits reg) :
    Steps reg rest (((Thread.numbering a call).advance orb inst around).run reg) := by
  rw [Thread.advance]
  rw [Action.run_bind_ok (Action.run_get reg)]
  cases (if reg.supportsSecure call.native then around.refused else none) with
  | some e => exact .stay [a] hsafe rfl trivial
  | none =>
      obtain ⟨v, hv⟩ := hsafe.held_cell List.mem_cons_self
      obtain ⟨reg₁, hrun₁, hadv₁, hcount₁, htable₁⟩ := update_advanced hsafe hv
        fun v => { v with origRef := reg.origRef call.native }
      have hfits₁ : ∃ t, reg₁.table call.mapper = some t := by
        rw [htable₁]
        exact hfits.1
      obtain ⟨reg₂, oid, index, hrun₂, hadv₂, hvalues₂⟩ :=
        next_index_advanced inst call.outFacing hadv₁.safe hfits₁
      dsimp only
      rw [Action.run_bind_ok hrun₁, Action.run_bind_ok hrun₂]
      refine ⟨_, reg₂, rfl, hadv₁.trans hadv₂, hadv₂.grows.table hfits₁, ?_⟩
      rw [hvalues₂, hcount₁]
      exact hfits.2

theorem referring_steps (a : Nat) (index : UInt32) (oid : ObjectId) (call : Addition)
    (hsafe : RegistryState.Safe ⟨reg, a :: rest⟩)
    (hfits : (Thread.referring a index oid call).Fits reg) :
    Steps reg rest (((Thread.referring a index oid call).advance orb inst around).run reg) := by
  rw [Thread.advance]
  cases orb.createReferenceWithId call.poa oid call.native.typeId with
  | error e => exact .stay [a] hsafe rfl trivial
  | ok ref =>
      obtain ⟨v, hv⟩ := hsafe.held_cell List.mem_cons_self
      obtain ⟨reg₁, hrun₁, hadv₁, hcount₁, htable₁⟩ := update_advanced hsafe hv
        fun v => { v with mappedRef := ref, requireSecure := call.requireSecure }
      dsimp only
      rw [Action.run_bind_ok hrun₁]
      refine ⟨_, reg₁, rfl, hadv₁, ?_, ?_⟩
      · rw [htable₁]
        exact hfits.1
      · rw [hcount₁]
        exact hfits.2

theorem binding_steps (a : Nat) (index : UInt32) (oid : ObjectId) (call : Addition)
    (hsafe : RegistryState.Safe ⟨reg, a :: rest⟩)
    (hfits : (Thread.binding a index oid call).Fits reg) :
    Steps reg rest (((Thread.binding a index oid call).advance orb inst around).run reg) := by
  obtain ⟨⟨t, ht⟩, hcount⟩ := hfits
  obtain ⟨v, hv⟩ := hsafe.held_cell List.mem_cons_self
  have hunbound : ¬ reg.Bound a :=
    mt (RegistryState.bound_ledger (s := ⟨reg, a :: rest⟩)).mpr
      (hsafe.balanced.unplaced List.mem_cons_self hcount)
  rw [Thread.advance]
  have hrun := @Registry.run_bind reg t call.poa index oid call.native a v ht
    (hsafe.cover _ t ht) hv
  rw [Action.run_bind_ok hrun]
  refine ⟨_, _, rfl, ?_, trivial⟩
  split
  · next hempty =>
      refine .of_write [a] hsafe (.inl List.mem_cons_self)
        (hsafe.place ht hempty.1 hempty.2 hunbound hv) ?_ rfl
      refine .log (.setBoth ht ?_ ?_) _
      · rfl
      · exact (RMVByMapped.store_pages_length t _ _ _).ge
  · exact .refl hsafe

theorem unbinding_steps (m : Nat) (index : UInt32) (hsafe : RegistryState.Safe ⟨reg, rest⟩)
    (hfits : ∃ t, reg.table m = some t) :
    Steps reg rest (((Thread.unbinding m index).advance orb inst around).run reg) := by
  obtain ⟨t, ht⟩ := hfits
  have hcover := hsafe.cover m t ht
  rw [Thread.advance]
  cases hlookup : Registry.lookup t index with
  | none =>
      rw [Action.run_bind_ok (Registry.run_unbind_miss ht hcover hlookup)]
      exact .stay [] hsafe rfl trivial
  | some a =>
      obtain ⟨hindex, hslot⟩ := Registry.lookup_eq_some.mp hlookup
      rw [Action.run_bind_ok (Registry.run_unbind_hit ht hcover hlookup)]
      refine ⟨_, _, rfl, .of_same_values (hsafe.unbind ht hindex hslot) ?_ rfl, trivial⟩
      refine .log (.setTable ht ?_ ?_) _
      · rfl
      · exact (RMVByMapped.store_pages_length t _ _ _).ge

theorem reading_steps (a : Nat) (hsafe : RegistryState.Safe ⟨reg, a :: rest⟩) :
    Steps reg rest (((Thread.reading a).advance orb inst around).run reg) := by
  obtain ⟨v, hv⟩ := hsafe.held_cell List.mem_cons_self
  rw [Thread.advance]
  rw [Action.run_bind_ok (Registry.run_readValue hv)]
  exact .stay [a] hsafe rfl trivial

theorem dropping_steps (a : Nat) (result : ThreadResult)
    (hsafe : RegistryState.Safe ⟨reg, a :: (result.owned ++ rest)⟩) :
    Steps reg rest (((Thread.dropping a result).advance orb inst around).run reg) := by
  obtain ⟨v, hv⟩ := hsafe.held_cell List.mem_cons_self
  obtain ⟨values, hdecr⟩ := hsafe.decr_ok hv
  obtain ⟨v', content, -, rfl, -⟩ := Heap.decrRefcount_counts hdecr
  have hdropped := hsafe.drop List.mem_cons_self hdecr
  rw [List.erase_cons_head] at hdropped
  rw [Thread.advance]
  rw [Action.run_bind_ok (Registry.run_decrRefcount hdecr)]
  refine ⟨_, _, rfl, ?_, trivial⟩
  exact .of_write (a :: result.owned) hsafe (.inl List.mem_cons_self) hdropped
    (.of_tables rfl fun _ => rfl) rfl

theorem visiting_steps (m page offset : Nat) (hsafe : RegistryState.Safe ⟨reg, rest⟩)
    (hfits : ∃ t, reg.table m = some t) :
    Steps reg rest (((Thread.visiting m page offset).advance orb inst around).run reg) := by
  obtain ⟨t, ht⟩ := hfits
  rw [Thread.advance]
  rw [Action.run_bind_ok (Registry.run_derefTable ht)]
  split
  · next hrange =>
      cases t.slot (page * t.pageSize.toNat + offset) with
      | none => exact .stay [] hsafe rfl trivial
      | some a => exact .stay [] hsafe rfl ⟨t, ht, hrange⟩
  · exact .stay [] hsafe rfl trivial

theorem probing_steps (m page offset a : Nat) (hsafe : RegistryState.Safe ⟨reg, rest⟩)
    (hfits : (Thread.probing m page offset a).Fits reg) :
    Steps reg rest (((Thread.probing m page offset a).advance orb inst around).run reg) := by
  obtain ⟨t, ht, hoffset, hpage⟩ := hfits
  rw [Thread.advance]
  rw [Action.run_bind_ok (Registry.run_derefTable ht)]
  split
  · next hexpired =>
      have hbound : reg.Bound a := ⟨m, _, (Registry.slotOf_eq ht _).trans hexpired.2⟩
      obtain ⟨v, hv⟩ := hsafe.bound_cell hbound
      obtain ⟨values, hdecr⟩ := hsafe.decr_ok hv
      obtain ⟨v', content, -, rfl, -⟩ := Heap.decrRefcount_counts hdecr
      rw [Action.run_bind_ok (Registry.run_reap ht hexpired.2 hdecr)]
      refine ⟨_, _, rfl, ?_, trivial⟩
      refine .of_write [] hsafe (.inr (.inl hbound))
        (hsafe.reap ht hoffset hpage hexpired.2 hdecr) ?_ rfl
      refine .log (.setBoth ht ?_ ?_) _
      · rfl
      · exact (RMVByMapped.store_pages_length t _ _ _).ge
  · exact .stay [] hsafe rfl trivial

/-- The copy of a `_var`, with the destructor of the temporary still to run. -/
theorem copying_steps (a : Nat) (hsafe : RegistryState.Safe ⟨reg, a :: rest⟩) :
    Steps reg rest ((do
      Registry.incrRefcount a
      pure (.dropping a (.value (some a))) : RegistryM Thread).run reg) := by
  obtain ⟨v, hv⟩ := hsafe.held_cell List.mem_cons_self
  rw [Action.run_bind_ok (Registry.run_incrRefcount hv)]
  refine ⟨_, _, rfl, ?_, trivial⟩
  exact .of_write [a] hsafe (.inl List.mem_cons_self) (hsafe.take hv)
    (.of_tables rfl fun _ => rfl) rfl

theorem assigning_steps (a : Nat) (hsafe : RegistryState.Safe ⟨reg, a :: rest⟩)
    (f : ReferenceMapValue → ReferenceMapValue) :
    Steps reg rest ((do
      Registry.updateValue a f
      pure (.done (.value (some a))) : RegistryM Thread).run reg) := by
  obtain ⟨v, hv⟩ := hsafe.held_cell List.mem_cons_self
  obtain ⟨reg₁, hrun₁, hadv₁, -⟩ := update_advanced hsafe hv f
  rw [Action.run_bind_ok hrun₁]
  exact ⟨_, reg₁, rfl, hadv₁, trivial⟩

/-- A thread that stands firm makes its next step without a fault. -/
theorem Thread.advance_steps (t : Thread) (hsafe : RegistryState.Safe ⟨reg, t.owned ++ rest⟩)
    (hcached : RegistryState.Cached ⟨reg, rest⟩) (hfits : t.Fits reg)
    (hfree : reg.values.cells around.address = none)
    (hfound : ∀ m index, t = .findingReverse m index →
      ∃ u, reg.table m = some u ∧ (Registry.lookup u index).isSome) :
    Steps reg rest ((t.advance orb inst around).run reg) := by
  cases t with
  | adding call => exact adding_steps orb inst around call hsafe hcached
  | finding m index => exact finding_steps orb inst around m index hsafe hfits
  | findingReverse m index =>
      obtain ⟨u, hu, hlookup⟩ := hfound m index rfl
      exact findingReverse_steps orb inst around m index hsafe hu hlookup
  | reversing a => exact reversing_steps orb inst around a hsafe hfree
  | creating call => exact creating_steps orb inst around call hsafe hfits hfree
  | numbering a call => exact numbering_steps orb inst around a call hsafe hfits
  | referring a index oid call =>
      exact referring_steps orb inst around a index oid call hsafe hfits
  | binding a index oid call =>
      exact binding_steps orb inst around a index oid call hsafe hfits
  | removing m mapped outFacing =>
      exact removing_steps orb inst around m mapped outFacing hsafe hcached
  | unbinding m index => exact unbinding_steps orb inst around m index hsafe hfits
  | resolving m oid => exact resolving_steps orb inst around m oid hsafe hfits
  | reading a => exact reading_steps orb inst around a hsafe
  | dropping a result => exact dropping_steps orb inst around a result hsafe
  | visiting m page offset => exact visiting_steps orb inst around m page offset hsafe hfits
  | probing m page offset a => exact probing_steps orb inst around m page offset a hsafe hfits
  | done result => exact .stay result.owned hsafe rfl trivial

end Steps

namespace Process

/-- Every pointer is counted and every thread stands firm. -/
structure Sound (s : Process) : Prop where
  safe : RegistryState.Safe ⟨s.reg, s.owned⟩
  cached : RegistryState.Cached ⟨s.reg, s.owned⟩
  fits : ∀ t ∈ s.threads, t.Fits s.reg
  running : s.fault = none

variable {orb : Orb} {inst : Instance} {s s' : Process}

/-- The step of one thread, put back among the others. -/
theorem Sound.put (h : s.Sound) {i : Nat} {t : Thread} (hi : s.threads[i]? = some t)
    {result : Outcome Exn Thread × Registry}
    (hsteps : ∀ rest, RegistryState.Safe ⟨s.reg, t.owned ++ rest⟩ → Steps s.reg rest result)
    (hput : s.put i result = some s') : s'.Sound := by
  obtain ⟨rest, hbefore, hafter⟩ := Ledger.parties_split Thread.owned hi
  obtain ⟨t', reg', rfl, hadv, hfits⟩ := hsteps rest (h.safe.perm hbefore)
  obtain rfl := Option.some.inj hput
  obtain ⟨hperm, hothers⟩ := hafter t'
  refine ⟨hadv.safe.perm hperm.symm, ?_, ?_, h.running⟩
  · intro m hm
    apply hadv.grows.table
    apply h.cached m
    exact hadv.grows.mappers ▸ hm
  · intro u hu
    rcases hothers u hu with rfl | ⟨hu, howned⟩
    · exact hfits
    · exact (h.fits u hu).advanced hadv howned

theorem returned_eq {i a : Nat} (h : s.returned i = some a) :
    s.threads[i]? = some (.done (.value (some a))) := by
  unfold returned at h
  split at h
  · next r hi => rw [hi, h]
  · cases h

/-- A new thread owns nothing yet. -/
theorem Sound.spawn (h : s.Sound) {call : ThreadCall} (hvalid : call.Valid s.reg) :
    Sound { s with threads := s.threads ++ [call.entry] } := by
  have howned : owned { s with threads := s.threads ++ [call.entry] } = s.owned := by
    cases call <;> simp [owned, ThreadCall.entry, Thread.owned]
  refine ⟨?_, h.cached, ?_, h.running⟩
  · rw [howned]
    exact h.safe
  · intro t ht
    rcases List.mem_append.mp ht with hold | hnew
    · exact h.fits t hold
    · obtain rfl := List.mem_singleton.mp hnew
      cases call with
      | mapReference native outFacing requireSecure => trivial
      | removeReference mapped outFacing => trivial
      | nativeForMapped m oid => exact h.cached m hvalid
      | collect m page offset => exact h.cached m hvalid

theorem Sound.evaluators (h : s.Sound) (answers : Nat → String → Bool) :
    Sound { s with reg := s.reg.withEvaluators answers } := by
  have hgrows : s.reg.Grows (s.reg.withEvaluators answers) :=
    .of_tables (by simp [Registry.withEvaluators]) fun m => Registry.withEvaluators_table answers m
  have hadv : Advanced s.reg s.owned (s.reg.withEvaluators answers) [] :=
    .of_same_values (h.safe.evaluators answers) hgrows rfl
  refine ⟨hadv.safe, ?_, ?_, h.running⟩
  · intro m hm
    apply hgrows.table
    apply h.cached m
    exact hgrows.mappers ▸ hm
  · intro t ht
    exact (h.fits t ht).advanced hadv fun a ha => List.mem_flatMap.mpr ⟨t, ht, ha⟩

theorem initial_sound (hasSecurity : Bool) (answers : List (String → Bool)) :
    (initial hasSecurity answers).Sound := by
  have hreach : (registrySystem .plain ⟨0, 0⟩ true).Reachable
      (RegistryState.initial true hasSecurity answers) := .start ⟨_, _, rfl⟩
  refine ⟨RegistryState.initial_safe true hasSecurity answers, ?_, ?_, rfl⟩
  · exact RegistryState.cached_of_reach hreach
  · exact fun t ht => absurd ht List.not_mem_nil

/-- Every event keeps the books, as long as no reversed id is missing. -/
theorem Sound.step (h : s.Sound) {event : ThreadEvent} (hfound : s.reverseFound event)
    (hstep : s.step orb inst event = some s') : s'.Sound := by
  unfold Process.step at hstep
  rw [if_neg (by simp [h.running])] at hstep
  cases event with
  | call call =>
      obtain ⟨hvalid, heq⟩ := Option.ite_none_right_eq_some.mp hstep
      obtain rfl := Option.some.inj heq
      exact h.spawn hvalid
  | advance i around =>
      obtain ⟨hfree, hstep⟩ := Option.ite_none_right_eq_some.mp hstep
      obtain ⟨t, hi, hput⟩ := Option.bind_eq_some_iff.mp hstep
      refine h.put hi ?_ hput
      intro rest hsafe
      refine t.advance_steps orb inst around hsafe h.cached
        (h.fits t (List.mem_of_getElem? hi)) hfree ?_
      rintro m index rfl
      unfold reverseFound at hfound
      simp only [hi] at hfound
      cases hu : s.reg.table m with
      | none => simp [hu] at hfound
      | some u =>
          rw [hu] at hfound
          exact ⟨u, rfl, hfound⟩
  | evaluators answers =>
      obtain rfl := Option.some.inj hstep
      exact h.evaluators answers
  | assign i name requireSecure agent =>
      obtain ⟨a, ha, hput⟩ := Option.bind_eq_some_iff.mp hstep
      exact h.put (returned_eq ha) (fun rest hsafe => assigning_steps a hsafe _) hput
  | copy i =>
      obtain ⟨a, ha, hput⟩ := Option.bind_eq_some_iff.mp hstep
      exact h.put (returned_eq ha) (fun rest hsafe => copying_steps a hsafe) hput
  | release i =>
      obtain ⟨a, ha, heq⟩ := Option.bind_eq_some_iff.mp hstep
      have hput : s.put i (.ok (.dropping a (.value none)), s.reg) = some s' := heq
      refine h.put (returned_eq ha) ?_ hput
      intro rest hsafe
      exact .stay [a] hsafe rfl trivial

/-- Reference counts are conserved: every living value counts the slots that
hold it and the pointers the threads own, what somebody points to is alive,
what nobody points to is deleted, and no access has gone wrong. -/
structure Conserved (s : Process) : Prop where
  counted : ∀ a v, s.reg.values.cells a = some v →
    v.refCount = ({p | s.reg.slotOf p.1 p.2 = some a} : Set (Nat × Nat)).ncard +
      s.owned.count a
  alive : ∀ a, s.reg.Bound a ∨ a ∈ s.owned → ∃ v, s.reg.values.cells a = some v
  deleted : ∀ a, ¬ s.reg.Bound a → a ∉ s.owned → s.reg.values.cells a = none
  running : s.fault = none

theorem Sound.conserved (h : s.Sound) : s.Conserved := by
  refine ⟨?_, ?_, ?_, h.running⟩
  · intro a v hv
    rw [(h.safe.counted a v hv).1]
    exact h.safe.balanced.slots_count a
  · rintro a (hbound | howned)
    · exact h.safe.bound_cell hbound
    · exact h.safe.held_cell howned
  · intro a hunbound hunowned
    cases hv : s.reg.values.cells a with
    | none => rfl
    | some v =>
        obtain ⟨hcount, hpos⟩ := h.safe.counted a v hv
        rw [Ledger.owners_unbound (mt RegistryState.bound_ledger.mp hunbound)] at hcount
        have hnone : s.owned.count a = 0 := List.count_eq_zero.mpr hunowned
        change v.refCount = (s.owned.count a : Int) at hcount
        omega

/-- In every interleaving of the operations, with the cache on and no reversed
id missing from the table, the reference counts are conserved. -/
theorem conserved_of_reach (orb : Orb) (inst : Instance) (s : Process)
    (hreach : (processSystem orb inst).Reach (fun s event => s.reverseFound event) s) :
    s.Conserved := by
  apply Sound.conserved
  apply hreach.invariant
  · rintro s ⟨hasSecurity, answers, rfl⟩
    exact initial_sound hasSecurity answers
  · intro s event s' hsound hfound hstep
    exact hsound.step hfound hstep

/-- A lookup caught between `find` and its destructor, after a mapping whose
caller still has its pointer: three pointers to the value. -/
theorem conserved_during_lookup :
    ∃ s : Process, s.Conserved ∧ s.reg.values.counts 0 = some 3 ∧ s.owned = [0, 0] := by
  let next (i : Nat) : ThreadEvent := .advance i ⟨5, 0, none, false⟩
  let events : List ThreadEvent :=
    [.call (.mapReference sampleNative true false), next 0,
      .advance 0 ⟨0, 0, none, false⟩, next 0, next 0, next 0,
      .call (.nativeForMapped 0 (Instance.objectId ⟨7, 42⟩ true 0)), next 1]
  let run : Option Process := (processSystem Orb.plain ⟨7, 42⟩).replay
    (fun s event => s.reverseFound event) (initial false [fun _ => true]) events
  obtain ⟨s, hs⟩ := Option.isSome_iff_exists.mp (show run.isSome by decide)
  refine ⟨s, conserved_of_reach Orb.plain ⟨7, 42⟩ s ?_, ?_, ?_⟩
  · exact System.Reach.of_replay (.start ⟨_, _, rfl⟩) events hs
  · exact System.replay_read (a := some 3) (fun s => s.reg.values.counts 0) hs (by decide)
  · exact System.replay_read (a := [0, 0]) owned hs (by decide)

end Process

end Lorica
