import Lorica.RegistryRuns

/-!
What an object id from outside leads to. `current_native` follows octets 8
to 11 of the id of a request, and `add_native` follows the same octets of the
key of a reference that looks like one of ours. Both reach whatever value is
in that slot now, so each answer is stated here in terms of the occupant of
the slot, and then for every run.
-/

namespace Lorica

open Machine

namespace Registry

/-- The living value in the slot that octets 8 to 11 of an id lead to. -/
def occupant (reg : Registry) (m : Nat) (oid : ObjectId) :
    Option ReferenceMapValue :=
  (readIndex oid).bind fun index =>
    (reg.table m).bind fun t => (lookup t index).bind reg.values.cells

section Occupant

variable {reg : Registry} {held : List Nat} {m : Nat} {t : RMVByMapped Nat}
  {oid : ObjectId} {index : UInt32}

theorem occupant_eq (hread : readIndex oid = some index)
    (ht : reg.table m = some t) :
    reg.occupant m oid = (lookup t index).bind reg.values.cells := by
  simp [occupant, hread, ht]

/-- A slot that is found holds a living value. -/
theorem lookup_cell (hsafe : RegistryState.Safe ⟨reg, held⟩)
    (ht : reg.table m = some t) {a : Nat} (hlookup : lookup t index = some a) :
    ∃ v, reg.values.cells a = some v ∧ 1 ≤ v.refCount := by
  have hslot := lookup_slot ht hlookup
  obtain ⟨v, hv⟩ := hsafe.bound_cell ⟨m, index.toNat, hslot⟩
  exact ⟨v, hv, (hsafe.counted a v hv).2⟩

theorem occupant_isSome (hsafe : RegistryState.Safe ⟨reg, held⟩)
    (hread : readIndex oid = some index) (ht : reg.table m = some t) :
    (reg.occupant m oid).isSome ↔ (lookup t index).isSome := by
  rw [occupant_eq hread ht]
  cases hlookup : lookup t index with
  | none => simp
  | some a =>
      obtain ⟨v, hv, -⟩ := lookup_cell hsafe ht hlookup
      simp [hv]

/-- `current_native` of a mapper with a table: the native of the occupant, or
nil, unless the id is too short to hold an index. -/
theorem run_currentNative (orb : Orb) (hsafe : RegistryState.Safe ⟨reg, held⟩)
    (ht : reg.table m = some t) (oid : ObjectId) (agent : Option ObjRef) :
    (currentNative orb m oid agent).run reg =
      (if 12 ≤ oid.length then
        match reg.occupant m oid with
        | some v => .ok (some v.origRef, v.agent)
        | none => .ok (none, none)
      else .fault .outOfBounds, reg) := by
  have hcover := hsafe.cover m t ht
  have hbody : (currentNativeBody orb m oid).run reg =
      (nativeForMappedI m oid).run reg := by
    unfold currentNativeBody
    rw [Action.run_bind_ok (Action.run_get reg)]
    simp only [ht]
  unfold currentNative
  rw [Action.run_tryCatch, hbody]
  cases hread : readIndex oid with
  | none =>
      have hshort : ¬ 12 ≤ oid.length := by
        rw [← readIndex_isSome, hread]
        simp
      rw [run_nativeForMappedI_short hread, if_neg hshort]
  | some index =>
      have hlong : 12 ≤ oid.length := by
        rw [← readIndex_isSome, hread]
        rfl
      rw [if_pos hlong, occupant_eq hread ht]
      cases hlookup : lookup t index with
      | none => rw [run_nativeForMappedI_miss ht hcover hread hlookup]; rfl
      | some a =>
          obtain ⟨v, hv, hcount⟩ := lookup_cell hsafe ht hlookup
          rw [run_nativeForMappedI_hit ht hcover hread hlookup hv hcount]
          simp only [Option.bind_some, hv]

end Occupant

/-- The first mapper of the chain that evaluates the type. -/
def handler (reg : Registry) (typeId : String) : Option Nat :=
  reg.mappers.findIdx? fun mapper => mapper.evaluatorFor typeId

/-- A recursion along the chain that stops at the first mapper with an
evaluator for the type ends at that mapper. -/
theorem walk_eq {α : Type} {typeId : String} {missed : α} {body : Nat → α}
    (walk : List ProxyMapper → Nat → α) (hnil : ∀ m, walk [] m = missed)
    (hcons : ∀ mapper next m, walk (mapper :: next) m =
      if mapper.evaluatorFor typeId then body m else walk next (m + 1))
    (chain : List ProxyMapper) (m : Nat) :
    walk chain m =
      match chain.findIdx? fun mapper => mapper.evaluatorFor typeId with
      | none => missed
      | some k => body (m + k) := by
  induction chain generalizing m with
  | nil => exact hnil m
  | cons mapper next ih =>
      rw [hcons, List.findIdx?_cons]
      by_cases heval : mapper.evaluatorFor typeId
      · simp [heval]
      · rw [if_neg heval, ih (m + 1)]
        simp only [heval]
        cases next.findIdx? fun mapper => mapper.evaluatorFor typeId with
        | none => rfl
        | some k => simp [Nat.add_comm, Nat.add_left_comm]

theorem run_addNative (orb : Orb) (inst : Instance) (native : ObjRef)
    (typeId : String) (outFacing requireSecure : Bool)
    (chain : List ProxyMapper) (m : Nat) :
    addNative orb inst native typeId outFacing requireSecure chain m =
      match chain.findIdx? fun mapper => mapper.evaluatorFor typeId with
      | none => pure none
      | some k =>
          addNativeHere orb inst (m + k) native typeId outFacing requireSecure :=
  walk_eq (addNative orb inst native typeId outFacing requireSecure) (fun _ => rfl)
    (fun _ _ _ => rfl) chain m

/-- `map_reference` is `add_native` of the mapper that handles the type. -/
theorem run_mapReference (orb : Orb) (inst : Instance) (reg : Registry)
    (native : ObjRef) (outFacing requireSecure : Bool) :
    (mapReference orb inst native outFacing requireSecure).run reg =
      match reg.handler native.typeId with
      | none => (.ok none, reg)
      | some m =>
          (addNativeHere orb inst m native native.typeId outFacing
            requireSecure).run reg := by
  unfold mapReference handler
  rw [Action.run_bind_ok (Action.run_get reg), run_addNative]
  cases reg.mappers.findIdx? fun mapper => mapper.evaluatorFor native.typeId with
  | none => rfl
  | some m => simp

/-- `remove_reference` is `remove_mapped` of the mapper that handles the type. -/
theorem run_removeReference (orb : Orb) (reg : Registry) (mapped : ObjRef)
    (outFacing : Bool) :
    (removeReference orb mapped outFacing).run reg =
      match reg.handler mapped.typeId with
      | none => (.ok none, reg)
      | some m => (removeMappedHere orb m mapped outFacing).run reg := by
  unfold removeReference handler
  have hwalk := @walk_eq _ mapped.typeId (pure none)
    (fun m => removeMappedHere orb m mapped outFacing)
    (removeMapped orb mapped mapped.typeId outFacing) (fun _ => rfl) (fun _ _ _ => rfl)
    reg.mappers 0
  rw [Action.run_bind_ok (Action.run_get reg), hwalk]
  cases reg.mappers.findIdx? fun mapper => mapper.evaluatorFor mapped.typeId with
  | none => rfl
  | some m => simp

/-- How a removal goes: nothing is taken out, or the value in the slot that the
id of the reference leads to. -/
inductive Removal (orb : Orb) (reg : Registry) (mapped : ObjRef) (outFacing : Bool) :
    Outcome Exn (Option Nat) × Registry → Prop where
  | unhandled (hhandler : reg.handler mapped.typeId = none) :
      Removal orb reg mapped outFacing (.ok none, reg)
  | uncached {m : Nat} (hhandler : reg.handler mapped.typeId = some m)
      (ht : reg.table m = none) : Removal orb reg mapped outFacing (.ok none, reg)
  | raised {m : Nat} {e : Exn} (hhandler : reg.handler mapped.typeId = some m)
      (hid : orb.referenceToId ⟨m, outFacing⟩ mapped = .error e) :
      Removal orb reg mapped outFacing (.raised e, reg)
  | short {m : Nat} {oid : ObjectId} (hhandler : reg.handler mapped.typeId = some m)
      (hid : orb.referenceToId ⟨m, outFacing⟩ mapped = .ok oid)
      (hread : readIndex oid = none) :
      Removal orb reg mapped outFacing (.fault .outOfBounds, reg)
  | missed {m : Nat} {t : RMVByMapped Nat} {oid : ObjectId} {index : UInt32}
      (hhandler : reg.handler mapped.typeId = some m) (ht : reg.table m = some t)
      (hid : orb.referenceToId ⟨m, outFacing⟩ mapped = .ok oid)
      (hread : readIndex oid = some index) (hlookup : lookup t index = none) :
      Removal orb reg mapped outFacing (.ok none, reg)
  | took {m a : Nat} {t : RMVByMapped Nat} {oid : ObjectId} {index : UInt32}
      (hhandler : reg.handler mapped.typeId = some m) (ht : reg.table m = some t)
      (hid : orb.referenceToId ⟨m, outFacing⟩ mapped = .ok oid)
      (hread : readIndex oid = some index) (hlookup : lookup t index = some a) :
      Removal orb reg mapped outFacing (.ok (some a),
        (reg.setTable m { t.storeAt index none with
          freeStack := index :: t.freeStack }).log (.removed a))

theorem removeReference_removal (orb : Orb) {reg : Registry}
    (hcover : ∀ m t, reg.table m = some t → t.PagesCover) (mapped : ObjRef) (outFacing : Bool) :
    Removal orb reg mapped outFacing ((removeReference orb mapped outFacing).run reg) := by
  rw [run_removeReference]
  cases hhandler : reg.handler mapped.typeId with
  | none => exact .unhandled hhandler
  | some m =>
      dsimp only
      unfold removeMappedHere
      rw [Action.run_bind_ok (Action.run_get reg)]
      cases ht : reg.table m with
      | none => exact .uncached hhandler ht
      | some t =>
          dsimp only
          unfold referenceToId
          cases hid : orb.referenceToId ⟨m, outFacing⟩ mapped with
          | error e => exact .raised hhandler hid
          | ok oid =>
              rw [Action.run_bind_ok (Action.run_pure oid reg)]
              cases hread : readIndex oid with
              | none => exact .short hhandler hid hread
              | some index =>
                  dsimp only
                  cases hlookup : lookup t index with
                  | none =>
                      rw [run_unbind_miss ht (hcover m t ht) hlookup]
                      exact .missed hhandler ht hid hread hlookup
                  | some a =>
                      rw [run_unbind_hit ht (hcover m t ht) hlookup]
                      exact .took hhandler ht hid hread hlookup

theorem handler_lt {reg : Registry} {typeId : String} {m : Nat}
    (h : reg.handler typeId = some m) : m < reg.mappers.length :=
  (List.findIdx?_eq_some_iff_findIdx_eq.mp h).1

end Registry


namespace Registry

/-- What a request on a POA may expect of its id: the lookup is defined, a
native comes back only for an id issued on that POA for that native whose
mapping still stands, and never for an id whose mapping was removed. -/
structure RequestOk (orb : Orb) (reg : Registry) (poa : Poa) (oid : ObjectId) :
    Prop where
  defined : ∀ cause,
    ((currentNative orb poa.mapper oid none).run reg).1 ≠ .fault cause
  issued : ∀ n agent,
    ((currentNative orb poa.mapper oid none).run reg).1 = .ok (some n, agent) →
    ∃ native a, .mapped poa oid native a ∈ reg.history ∧
      .removed a ∉ reg.history ∧ n = reg.origRef native
  kept : ∀ n agent,
    ((currentNative orb poa.mapper oid none).run reg).1 = .ok (some n, agent) →
    ∀ native a, .mapped poa oid native a ∈ reg.history →
      .removed a ∉ reg.history

/-- The id was issued on this POA before, for a mapping since removed. -/
def Recycled (reg : Registry) (poa : Poa) (oid : ObjectId) : Prop :=
  ∃ native a, .mapped poa oid native a ∈ reg.history ∧
    .removed a ∈ reg.history

/-- The id is long enough to hold an index, and if the slot it leads to is
occupied, it is the very id of the occupant, of the facing of the POA, and it
has not been issued before. -/
def Genuine (reg : Registry) (poa : Poa) (oid : ObjectId) : Prop :=
  12 ≤ oid.length ∧ ∀ v, reg.occupant poa.mapper oid = some v →
    v.mappedRef.key.map keyTail = some oid ∧
    oid[5]? = some (inOut poa.outFacing) ∧ ¬ reg.Recycled poa oid

end Registry

section Requests

variable {orb : Orb} {inst : Instance} {s : RegistryState} {m : Nat}
  {oid : ObjectId} {v : ReferenceMapValue}

/-- The occupant of a slot was installed by one recorded mapping that still
stands, and its mapped reference ends in the id of that mapping. -/
theorem occupant_made (horb : orb.Lawful) (htraced : s.Traced orb inst)
    (hocc : s.reg.occupant m oid = some v) :
    ∃ outFacing index native a,
      readIndex oid = some index ∧
      s.reg.slotOf m index.toNat = some a ∧
      .mapped ⟨m, outFacing⟩ (inst.objectId outFacing index) native a ∈
        s.reg.history ∧
      .removed a ∉ s.reg.history ∧
      v.origRef = s.reg.origRef native ∧
      v.mappedRef.key.map keyTail = some (inst.objectId outFacing index) := by
  obtain ⟨index, hread, hocc⟩ := Option.bind_eq_some_iff.mp hocc
  obtain ⟨t, ht, hocc⟩ := Option.bind_eq_some_iff.mp hocc
  obtain ⟨a, hlookup, hv⟩ := Option.bind_eq_some_iff.mp hocc
  have hslot := Registry.lookup_slot ht hlookup
  obtain ⟨outFacing, index', native, v', hindex, hmapped, hkept, hv', horig,
    hcreate⟩ := htraced.made m index.toNat a hslot
  obtain rfl := UInt32.toNat_inj.mp hindex
  obtain rfl : v' = v := Option.some.inj (hv'.symm.trans hv)
  obtain ⟨before, hkey⟩ := horb.create_key _ _ _ _ hcreate
  refine ⟨outFacing, index, native, a, hread, hslot, hmapped, hkept, horig, ?_⟩
  rw [hkey, Option.map_some, keyTail_append before (inst.objectId_length _ _)]

/-- In every run with the cache on, a request is answered as it should be
exactly when its id is genuine: nothing but the index is looked at. -/
theorem requestOk_iff_genuine (orb : Orb) (horb : orb.Lawful) (inst : Instance)
    (s : RegistryState) (hreach : (registrySystem orb inst true).Reachable s)
    (poa : Poa) (hpoa : poa.mapper < s.reg.mappers.length) (oid : ObjectId) :
    s.reg.RequestOk orb poa oid ↔ s.reg.Genuine poa oid := by
  obtain ⟨hsafe, htraced⟩ := RegistryState.sound_of_reach hreach
  obtain ⟨t, ht⟩ := RegistryState.cached_of_reach hreach poa.mapper hpoa
  have hrun := Registry.run_currentNative orb hsafe ht oid none
  constructor
  · rintro ⟨hdefined, hissued, hkept⟩
    have hlong : 12 ≤ oid.length := by
      by_contra hshort
      rw [hrun, if_neg hshort] at hdefined
      exact hdefined .outOfBounds rfl
    refine ⟨hlong, ?_⟩
    intro v hocc
    have hanswer : ((Registry.currentNative orb poa.mapper oid none).run
        s.reg).1 = .ok (some v.origRef, v.agent) := by
      rw [hrun, if_pos hlong, hocc]
    obtain ⟨native, a, hmapped, hstands, -⟩ := hissued _ _ hanswer
    obtain ⟨index, rfl, hslot⟩ := htraced.live _ _ _ _ hmapped hstands
    obtain ⟨outFacing, index', native', a', hread, hslot', hmapped', -, -, hkey⟩ :=
      occupant_made horb htraced hocc
    obtain rfl : index = index' := by simpa using hread
    obtain rfl : a = a' := Option.some.inj (hslot.symm.trans hslot')
    obtain ⟨-, hsame, -⟩ := htraced.once _ _ _ _ _ _ _ hmapped' hmapped
    refine ⟨hkey.trans (congrArg some hsame), inst.getElem_objectId _ _, ?_⟩
    rintro ⟨native'', b, hearlier, hremoved⟩
    exact hkept _ _ hanswer native'' b hearlier hremoved
  · rintro ⟨hlong, hexact⟩
    rw [if_pos hlong] at hrun
    cases hocc : s.reg.occupant poa.mapper oid with
    | none =>
        rw [hocc] at hrun
        constructor <;> simp [hrun]
    | some v =>
        rw [hocc] at hrun
        obtain ⟨htail, hletter, hnew⟩ := hexact v hocc
        obtain ⟨outFacing, index, native, a, -, -, hmapped, hstands, horig,
          hkey⟩ := occupant_made horb htraced hocc
        obtain rfl : inst.objectId outFacing index = oid :=
          Option.some.inj (hkey.symm.trans htail)
        rw [inst.getElem_objectId] at hletter
        obtain rfl := inOut_injective (Option.some.inj hletter)
        constructor
        · simp [hrun]
        · intro n agent hanswer
          rw [hrun] at hanswer
          injection hanswer with hanswer
          injection hanswer with hn
          exact ⟨native, a, hmapped, hstands, (Option.some.inj hn).symm.trans horig⟩
        · intro n agent _ native' b hearlier hremoved
          exact hnew ⟨native', b, hearlier, hremoved⟩

/-- A registry with one mapper that evaluates every type, and a native of
some server, for concrete runs. -/
def sampleRun (ops : List RegistryOp) : Option RegistryState :=
  (registrySystem Orb.plain ⟨7, 42⟩ true).replay (fun _ _ => True)
    (RegistryState.initial true false [fun _ => true]) ops

def sampleNative : ObjRef :=
  ⟨"IDL:Test/Hello:1.0", some [1, 2, 3], "IOR:native", false, false⟩

theorem sampleRun_reachable {ops : List RegistryOp} {s : RegistryState}
    (h : sampleRun ops = some s) :
    (registrySystem Orb.plain ⟨7, 42⟩ true).Reachable s :=
  System.Reach.of_replay (.start ⟨_, _, rfl⟩) ops h

theorem sampleRun_read {α : Type} {ops : List RegistryOp} {s : RegistryState}
    (f : RegistryState → α) {a : α} (h : sampleRun ops = some s)
    (hread : (sampleRun ops).map f = some a) : f s = a :=
  System.replay_read f h hread

theorem requestOk_fresh_mapping :
    ∃ s, sampleRun [.mapReference sampleNative true false] = some s ∧
      s.reg.RequestOk Orb.plain ⟨0, true⟩ (Instance.objectId ⟨7, 42⟩ true 0) := by
  obtain ⟨s, hs⟩ := Option.isSome_iff_exists.mp (show
    (sampleRun [.mapReference sampleNative true false]).isSome by decide)
  have hcount : s.reg.mappers.length = 1 :=
    sampleRun_read (fun s => s.reg.mappers.length) hs (by decide)
  have hhistory : s.reg.history =
      [.mapped ⟨0, true⟩ (Instance.objectId ⟨7, 42⟩ true 0) sampleNative 0] :=
    sampleRun_read (fun s => s.reg.history) hs (by decide)
  have hocc : (s.reg.occupant 0 (Instance.objectId ⟨7, 42⟩ true 0)).map
      (fun v => v.mappedRef.key.map keyTail) =
        some (some (Instance.objectId ⟨7, 42⟩ true 0)) :=
    sampleRun_read (fun s =>
      (s.reg.occupant 0 (Instance.objectId ⟨7, 42⟩ true 0)).map
        fun v => v.mappedRef.key.map keyTail) hs (by decide)
  refine ⟨s, hs, (requestOk_iff_genuine Orb.plain Orb.plain_lawful _ s
    (sampleRun_reachable hs) ⟨0, true⟩ (by simp [hcount]) _).mpr ⟨by decide, ?_⟩⟩
  intro v hv
  rw [hv] at hocc
  refine ⟨Option.some.inj hocc, by decide, ?_⟩
  rintro ⟨native, a, -, hremoved⟩
  simp [hhistory] at hremoved

/-- The id of an in-facing mapping resolves on the out-facing POA too. -/
theorem request_not_ok_other_facing :
    ¬ ∀ (orb : Orb) (inst : Instance) (s : RegistryState) (poa : Poa)
      (oid : ObjectId), orb.Lawful →
      (registrySystem orb inst true).Reachable s →
      poa.mapper < s.reg.mappers.length → s.reg.RequestOk orb poa oid := by
  intro hall
  obtain ⟨s, hs⟩ := Option.isSome_iff_exists.mp (show
    (sampleRun [.mapReference sampleNative false false]).isSome by decide)
  have hcount : s.reg.mappers.length = 1 :=
    sampleRun_read (fun s => s.reg.mappers.length) hs (by decide)
  have hhistory : s.reg.history =
      [.mapped ⟨0, false⟩ (Instance.objectId ⟨7, 42⟩ false 0) sampleNative 0] :=
    sampleRun_read (fun s => s.reg.history) hs (by decide)
  have hanswer : ((Registry.currentNative Orb.plain 0
      (Instance.objectId ⟨7, 42⟩ false 0) none).run s.reg).1 =
        .ok (some sampleNative, none) :=
    sampleRun_read (fun s => ((Registry.currentNative Orb.plain 0
      (Instance.objectId ⟨7, 42⟩ false 0) none).run s.reg).1) hs (by decide)
  have hok := hall Orb.plain ⟨7, 42⟩ s ⟨0, true⟩
    (Instance.objectId ⟨7, 42⟩ false 0) Orb.plain_lawful
    (sampleRun_reachable hs) (by simp [hcount])
  obtain ⟨native, a, hmapped, -, -⟩ := hok.issued _ _ hanswer
  simp [hhistory] at hmapped

end Requests


namespace Registry

/-- `map_reference` comes back, with a living value or with null, and no table
has changed. -/
def MapsSafely (orb : Orb) (inst : Instance) (reg : Registry) (native : ObjRef)
    (outFacing requireSecure : Bool) : Prop :=
  ∃ r reg', (mapReference orb inst native outFacing requireSecure).run reg =
      (.ok r, reg') ∧
    (∀ m, reg'.table m = reg.table m) ∧
    ∀ a, r = some a → ∃ v, reg'.values.cells a = some v ∧ 1 ≤ v.refCount

/-- The id at the end of the key has the facing asked for, or the mapper that
handles the type still has a value for its index. -/
def Retraceable (reg : Registry) (native : ObjRef) (tail : ObjectId)
    (outFacing : Bool) : Prop :=
  ∀ m, reg.handler native.typeId = some m →
    tail[5]? = some (inOut outFacing) ∨ (reg.occupant m tail).isSome

end Registry

section Mapping

variable {inst : Instance} {native : ObjRef} {key : List UInt8}

/-- A key that ends in an id of this instance is told apart by the letter
alone, and the index comes from the key. -/
theorem alreadyMapped_owned (outFacing : Bool) (hkey : native.key = some key)
    (hlong : 16 ≤ key.length) (howns : inst.owns (keyTail key) = true) :
    ∃ index, readIndex (keyTail key) = some index ∧
      ∀ default, inst.alreadyMapped native.key outFacing default =
        (if (keyTail key)[5]? = some (inOut outFacing) then .alreadyMapped
          else .reverseMapped, index) := by
  have hread : (readIndex (keyTail key)).isSome := by
    rw [readIndex_isSome, keyTail_length hlong]
    decide
  obtain ⟨index, hindex⟩ := Option.isSome_iff_exists.mp hread
  refine ⟨index, hindex, ?_⟩
  intro default
  unfold Instance.alreadyMapped
  rw [hkey]
  simp only [Nat.not_lt.mpr hlong, if_false, howns, if_true, hindex,
    Option.getD_some]
  split <;> rfl

/-- In every run with the cache on, mapping a reference whose key ends in an
id of this instance is safe exactly when a reversed id can be looked up: the
result of the failed lookup is dereferenced. -/
theorem mapsSafely_iff_retraceable (orb : Orb) (inst : Instance)
    (s : RegistryState) (hreach : (registrySystem orb inst true).Reachable s)
    (native : ObjRef) (key : List UInt8) (hkey : native.key = some key)
    (hlong : 16 ≤ key.length) (howns : inst.owns (keyTail key) = true)
    (outFacing requireSecure : Bool) :
    s.reg.MapsSafely orb inst native outFacing requireSecure ↔
      s.reg.Retraceable native (keyTail key) outFacing := by
  have hsafe := (RegistryState.sound_of_reach hreach).1
  have hrun := Registry.run_mapReference orb inst s.reg native outFacing
    requireSecure
  cases hhandler : s.reg.handler native.typeId with
  | none =>
      rw [hhandler] at hrun
      refine iff_of_true ⟨none, s.reg, hrun, fun _ => rfl, fun a ha => ?_⟩ ?_
      · cases ha
      · intro m hm
        rw [hhandler] at hm
        cases hm
  | some m =>
      obtain ⟨t, ht⟩ := RegistryState.cached_of_reach hreach m
        (Registry.handler_lt hhandler)
      have hcover := hsafe.cover m t ht
      obtain ⟨index, hread, hstatus⟩ :=
        alreadyMapped_owned outFacing hkey hlong howns
      replace hstatus := hstatus 0
      have hoccupied := Registry.occupant_isSome hsafe hread ht
      rw [hhandler] at hrun
      by_cases hletter : (keyTail key)[5]? = some (inOut outFacing)
      · rw [if_pos hletter] at hstatus
        simp only at hrun
        rw [Registry.run_addNativeHere_already orb inst ht hstatus] at hrun
        refine iff_of_true ?_ (fun _ _ => Or.inl hletter)
        cases hlookup : Registry.lookup t index with
        | none =>
            rw [Registry.run_find_miss ht hcover hlookup] at hrun
            refine ⟨none, s.reg, hrun, fun _ => rfl, fun a ha => ?_⟩
            cases ha
        | some a =>
            obtain ⟨v, hv, hcount⟩ := Registry.lookup_cell hsafe ht hlookup
            rw [Registry.run_find_hit ht hcover hlookup hv] at hrun
            refine ⟨some a, _, hrun, fun _ => rfl, ?_⟩
            rintro _ ⟨⟩
            refine ⟨_, Heap.write_cells_self _ _ _, ?_⟩
            dsimp only
            omega
      · rw [if_neg hletter] at hstatus
        simp only at hrun
        cases hlookup : Registry.lookup t index with
        | none =>
            rw [Registry.run_addNativeHere_reverse_miss orb inst ht hcover hstatus
              hlookup] at hrun
            refine iff_of_false ?_ ?_
            · rintro ⟨r, reg', hok, -, -⟩
              rw [hrun] at hok
              cases hok
            · intro hretrace
              rcases hretrace m hhandler with h | h
              · exact hletter h
              · rw [hoccupied, hlookup] at h
                cases h
        | some a =>
            obtain ⟨v, hv, hcount⟩ := Registry.lookup_cell hsafe ht hlookup
            rw [Registry.run_addNativeHere_reverse_hit orb inst ht hcover hstatus
              hlookup hv hcount
              (RegistryState.lt_fresh hsafe.fresh hv).ne] at hrun
            refine iff_of_true ⟨_, _, hrun, fun _ => rfl, ?_⟩ ?_
            · rintro _ ⟨⟩
              exact ⟨v.reverse, Heap.write_cells_self _ _ _, le_refl _⟩
            · intro k hk
              obtain rfl := Option.some.inj (hhandler.symm.trans hk)
              refine Or.inr (hoccupied.mpr ?_)
              rw [hlookup]
              rfl

/-- The out-facing reference made for an index. -/
def sampleOutFacing (index : UInt32) : ObjRef :=
  ⟨"IDL:Test/Hello:1.0", some (Poa.name ⟨0, true⟩ ++ Instance.objectId ⟨7, 42⟩ true index),
    "IOR:lorica", false, false⟩

/-- Of two mappings the first is removed. It is still safe to map on the same
side, and the second one on either. -/
theorem mapsSafely_removed_and_live :
    ∃ s, sampleRun [.mapReference sampleNative true false,
        .mapReference sampleNative true false, .removeReference (sampleOutFacing 0) true] = some s ∧
      s.reg.MapsSafely Orb.plain ⟨7, 42⟩ (sampleOutFacing 0) true false ∧
      s.reg.MapsSafely Orb.plain ⟨7, 42⟩ (sampleOutFacing 1) true false ∧
      s.reg.MapsSafely Orb.plain ⟨7, 42⟩ (sampleOutFacing 1) false false := by
  obtain ⟨s, hs⟩ := Option.isSome_iff_exists.mp (show
    (sampleRun [.mapReference sampleNative true false, .mapReference sampleNative true false,
      .removeReference (sampleOutFacing 0) true]).isSome by decide)
  have hhandler : s.reg.handler "IDL:Test/Hello:1.0" = some 0 :=
    sampleRun_read (fun s => s.reg.handler "IDL:Test/Hello:1.0") hs (by decide)
  have hlive : (s.reg.occupant 0 (Instance.objectId ⟨7, 42⟩ true 1)).isSome :=
    sampleRun_read (fun s => (s.reg.occupant 0 (Instance.objectId ⟨7, 42⟩ true 1)).isSome) hs
      (by decide)
  have hsafe := fun index outFacing hlong howns => mapsSafely_iff_retraceable Orb.plain ⟨7, 42⟩ s
    (sampleRun_reachable hs) (sampleOutFacing index) _ rfl hlong howns outFacing false
  refine ⟨s, hs, (hsafe 0 true (by decide) (by decide)).mpr ?_,
    (hsafe 1 true (by decide) (by decide)).mpr ?_, (hsafe 1 false (by decide) (by decide)).mpr ?_⟩
  · exact fun _ _ => .inl (by decide)
  · exact fun _ _ => .inl (by decide)
  · intro m hm
    obtain rfl := Option.some.inj (hhandler.symm.trans hm)
    exact .inr hlive

/-- A reference handed out, then removed, then seen from the other side. -/
theorem mapping_unsafe_stale_reverse :
    ¬ ∀ (orb : Orb) (inst : Instance) (s : RegistryState) (native : ObjRef)
      (key : List UInt8) (outFacing requireSecure : Bool),
      (registrySystem orb inst true).Reachable s → native.key = some key →
      16 ≤ key.length → inst.owns (keyTail key) = true →
      s.reg.MapsSafely orb inst native outFacing requireSecure := by
  intro hall
  let mapped : ObjRef := sampleOutFacing 0
  let ops : List RegistryOp :=
    [.mapReference sampleNative true false, .removeReference mapped true]
  obtain ⟨s, hs⟩ := Option.isSome_iff_exists.mp (show
    (sampleRun ops).isSome by decide)
  have hfault : ((Registry.mapReference Orb.plain ⟨7, 42⟩ mapped false
      false).run s.reg).1 = .fault .nullDereference :=
    sampleRun_read (fun s => ((Registry.mapReference Orb.plain ⟨7, 42⟩ mapped
      false false).run s.reg).1) hs (by decide)
  obtain ⟨r, reg', hrun, -, -⟩ := hall Orb.plain ⟨7, 42⟩ s mapped _ false false
    (sampleRun_reachable hs) rfl (by decide) (by decide)
  rw [hrun] at hfault
  cases hfault

end Mapping

end Lorica
