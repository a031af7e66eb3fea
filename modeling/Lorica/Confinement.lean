import Lorica.EntryStays
import Lorica.FrameWalk
import Lorica.MappingRuns

/-!
What the outside gets to know. An inside reference leaves the gateway as a
reference to the gateway; the one way back to a native is the reversal of an
in-facing reference that is handed to the outside again. As long as no such
reference is stale, the native it stands for is one that the outside brought.
-/

namespace Lorica

open Machine

/-- The references that must not get out. None of them was made by the gateway,
and a reference that is reached over SSL is no other reference. -/
structure Secrets (inst : Instance) where
  Secret : ObjRef → Prop
  foreign : ∀ ref, Secret ref → inst.ours ref.key = false
  secured : ∀ ref, Secret { ref with secured := true } → Secret ref

/-- What a POA of the gateway has made is no secret. -/
theorem Secrets.not_created {orb : Orb} {inst : Instance} (horb : orb.Lawful)
    (secrets : Secrets inst) {poa : Poa} {index : UInt32} {typeId : String} {ref : ObjRef}
    (hcreate : orb.createReferenceWithId poa (inst.objectId poa.outFacing index) typeId = .ok ref) :
    ¬ secrets.Secret ref := by
  intro hsecret
  obtain ⟨before, hkey⟩ := horb.create_key _ _ _ _ hcreate
  have hours : inst.ours ref.key = true := by
    rw [hkey, Instance.ours_objectId]
    exact inst.owns_objectId poa.outFacing index
  rw [secrets.foreign ref hsecret] at hours
  cases hours

namespace Registry

/-- No in-facing mapping was made for a secret. -/
def Hides (Secret : ObjRef → Prop) (reg : Registry) : Prop :=
  ∀ m oid native a, .mapped ⟨m, false⟩ oid native a ∈ reg.history → ¬ Secret native

/-- If the reference is an in-facing one of the gateway, the mapping it was
made for still stands. -/
def ReverseSafe (inst : Instance) (reg : Registry) (ref : ObjRef) : Prop :=
  ∀ m index, reg.handler ref.typeId = some m →
    inst.alreadyMapped ref.key true 0 = (.reverseMapped, index) →
    ∃ native a, .mapped ⟨m, false⟩ (inst.objectId false index) native a ∈ reg.history ∧
      .removed a ∉ reg.history

/-- The registry is sound and hides the secrets. -/
structure Confines (orb : Orb) (inst : Instance) (Secret : ObjRef → Prop) (reg : Registry) :
    Prop where
  safe : RegistryState.Safe ⟨reg, []⟩
  traced : RegistryState.Traced orb inst ⟨reg, []⟩
  cached : RegistryState.Cached ⟨reg, []⟩
  hides : reg.Hides Secret

section Out

variable {orb : Orb} {inst : Instance} {secrets : Secrets inst} {reg reg₁ : Registry}
  {native : ObjRef} {requireSecure : Bool} {a : Nat} {v : ReferenceMapValue}

theorem origRef_not_secret (h : ¬ secrets.Secret native) :
    ¬ secrets.Secret (reg.origRef native) := by
  unfold origRef
  split
  · exact fun hsecret => h (secrets.secured native hsecret)
  · exact h

/-- The mapped reference of an entry. -/
theorem entry_not_secret (horb : orb.Lawful) (h : reg.Confines orb inst secrets.Secret)
    {m i : Nat} (hslot : reg.slotOf m i = some a) (hv : reg.values.cells a = some v) :
    ¬ secrets.Secret v.mappedRef := by
  obtain ⟨outFacing, index, native, w, -, -, -, hw, -, hcreate⟩ := h.traced.made m i a hslot
  obtain rfl := Option.some.inj (hw.symm.trans hv)
  exact secrets.not_created horb hcreate

/-- The native that a standing in-facing reference is reversed to. -/
theorem reversed_not_secret (h : reg.Confines orb inst secrets.Secret)
    (hreverse : reg.ReverseSafe inst native) {m : Nat} {t : RMVByMapped Nat} {index : UInt32}
    (hhandler : reg.handler native.typeId = some m) (ht : reg.table m = some t)
    (hstatus : inst.alreadyMapped native.key true 0 = (.reverseMapped, index))
    (hlookup : lookup t index = some a) (hv : reg.values.cells a = some v) :
    ¬ secrets.Secret v.origRef := by
  obtain ⟨native', b, hmapped, hstands⟩ := hreverse m index hhandler hstatus
  obtain ⟨index', hid, hslot⟩ := h.traced.live _ _ _ _ hmapped hstands
  obtain ⟨-, rfl⟩ := inst.objectId_injective hid
  have hslot' := lookup_slot ht hlookup
  obtain rfl : a = b := Option.some.inj (hslot'.symm.trans hslot)
  obtain ⟨outFacing, index', other, w, -, hmapped', -, hw, horig, -⟩ :=
    h.traced.made m index.toNat a hslot
  obtain ⟨-, -, rfl⟩ := h.traced.once _ _ _ _ _ _ _ hmapped hmapped'
  obtain rfl := Option.some.inj (hw.symm.trans hv)
  rw [horig]
  exact origRef_not_secret (h.hides _ _ _ _ hmapped)

/-- What `map_reference` hands out for the outside. -/
theorem mapReference_not_secret (horb : orb.Lawful) (h : reg.Confines orb inst secrets.Secret)
    (hreverse : reg.ReverseSafe inst native)
    (hmap : (mapReference orb inst native true requireSecure).run reg = (.ok (some a), reg₁))
    (hv : reg₁.values.cells a = some v) : ¬ secrets.Secret v.mappedRef := by
  cases hours : inst.ours native.key with
  | false =>
      have hmade := @mapReference_made orb inst ⟨reg, []⟩ native true requireSecure a reg₁ v h.safe
        h.cached hours hmap hv
      obtain ⟨-, m, index, hcreate, -⟩ := hmade
      exact secrets.not_created horb hcreate
  | true =>
      rw [run_mapReference] at hmap
      cases hhandler : reg.handler native.typeId with
      | none =>
          rw [hhandler] at hmap
          cases hmap
      | some m =>
          obtain ⟨t, ht⟩ := h.cached m (handler_lt hhandler)
          have hmapping := addNativeHere_mapping orb inst h.safe m native native.typeId true
            requireSecure
          simp only [hhandler] at hmap
          rw [hmap] at hmapping
          generalize hresult : ((Outcome.ok (some a) : Outcome Exn (Option Nat)), reg₁) = result
            at hmapping
          cases hmapping with
          | missed _ _ _ => cases hresult
          | dangling _ _ _ => cases hresult
          | found ht' hstatus hlookup hw =>
              cases hresult
              obtain rfl := Option.some.inj ((Heap.write_cells_self _ _ _).symm.trans hv)
              have hentry := entry_not_secret horb h (lookup_slot ht' hlookup) hw
              exact hentry
          | reversed ht' hstatus hlookup hw =>
              cases hresult
              obtain rfl := Option.some.inj ((Heap.write_cells_self _ _ _).symm.trans hv)
              exact reversed_not_secret h hreverse hhandler ht' hstatus hlookup hw
          | made hnew =>
              have hstatus := hnew.resolve_left (by simp [ht])
              rw [(inst.ours_eq_false_iff native.key true 0).mpr hstatus] at hours
              cases hours

end Out

/-! ## Between two registries -/

/-- One registry comes from the other by mapping references, none of them a
secret for the inside, and no entry gets a name. -/
structure Passes (orb : Orb) (inst : Instance) (Secret : ObjRef → Prop) (reg reg' : Registry) :
    Prop where
  maps : Maps orb inst [] reg reg'
  named : ∀ named, reg.NamedFrom named → reg'.NamedFrom named
  hides : reg.Hides Secret → reg'.Hides Secret

section Passing

variable {orb : Orb} {inst : Instance} {Secret : ObjRef → Prop} {reg reg' : Registry}
  {native : ObjRef} {outFacing : Bool}

instance passesRefl : Std.Refl (Passes orb inst Secret) where
  refl reg := ⟨refl_of (Maps orb inst []) reg, fun _ h => h, fun h => h⟩

instance passesTrans : IsTrans Registry (Passes orb inst Secret) where
  trans _ _ _ h h' := ⟨trans_of (Maps orb inst []) h.maps h'.maps,
    fun named hnamed => h'.named named (h.named named hnamed),
    fun hides => h'.hides (h.hides hides)⟩

theorem Maps.moves (hsafe : RegistryState.Safe ⟨reg, []⟩) (h : Maps orb inst [] reg reg') :
    Moves orb inst ⟨reg, []⟩ ⟨reg', []⟩ := by
  have hboth : RegistryState.Safe ⟨reg', []⟩ ∧ Moves orb inst ⟨reg, []⟩ ⟨reg', []⟩ := by
    apply h.run.invariant (I := fun s => s.Safe ∧ Moves orb inst ⟨reg, []⟩ s)
    · intro s hs
      rw [show s = ⟨reg, []⟩ from hs]
      exact ⟨hsafe, .refl⟩
    · rintro s op s' ⟨hs, hmoves⟩ _ hstep
      have hlast := RegistryState.step_moves hs hstep
      exact ⟨hs.moves hlast, hmoves.trans hlast⟩
  exact hboth.2

theorem stable_confines : Action.Stable (Passes orb inst Secret) (Confines orb inst Secret) := by
  intro reg reg' hpasses h
  have hmoves := hpasses.maps.moves h.safe
  obtain ⟨hsafe, htraced⟩ := h.traced.moves h.safe hmoves
  exact ⟨hsafe, htraced, h.cached.moves hmoves, hpasses.hides h.hides⟩

theorem stable_reverseSafe :
    Action.Stable (Passes orb inst Secret) fun reg => reg.ReverseSafe inst native := by
  intro reg reg' hpasses h m index hhandler hstatus
  rw [hpasses.maps.handler] at hhandler
  obtain ⟨native', a, hmapped, hstands⟩ := h m index hhandler hstatus
  exact ⟨native', a, hpasses.maps.grown.kept _ hmapped,
    fun hremoved => hstands (hpasses.maps.removed a hremoved)⟩

theorem keeps_mappedForNative (named : Nat → String) (native : ObjRef) (outFacing : Bool) :
    Action.Keeps (NamedFrom named) (mappedForNative orb inst native outFacing) := by
  apply (keeps_mapReference orb inst native outFacing false).bind
  intro r
  cases r with
  | none => exact .pure _
  | some a =>
      apply Action.Triple.inScope (M := fun _ => NamedFrom named)
      · exact (keeps_readValue a).bind fun v => .pure _
      · exact fun _ => keeps_decrRefcount a
      · exact keeps_decrRefcount a

/-- A reference is mapped for the outside, or it is no secret. -/
theorem mappedForNative_passes (h : reg.Confines orb inst Secret)
    (hin : outFacing = false → ¬ Secret native)
    {outcome : Outcome Exn (Option ObjRef)}
    (hrun : (mappedForNative orb inst native outFacing).run reg = (outcome, reg'))
    (hend : ∀ cause, outcome ≠ .fault cause) : Passes orb inst Secret reg reg' := by
  have hanswer := mappedForNative_answer orb inst h.safe native outFacing
  rw [hrun] at hanswer
  obtain ⟨hmaps, hleaves⟩ := hanswer.maps h.safe hend
  refine ⟨hmaps, fun named hnamed => ?_, fun hides m oid native' a hmapped => ?_⟩
  · exact (keeps_mappedForNative named native outFacing).run hnamed hrun hend
  · rcases hleaves.events _ hmapped with hold | ⟨m', oid', b, heq⟩
    · exact hides m oid native' a hold
    · obtain ⟨hpoa, -, rfl, -⟩ := MapEvent.mapped.inj heq
      exact hin (congrArg Poa.outFacing hpoa).symm

theorem mappedForNative_evolves (orb : Orb) (inst : Instance) (native : ObjRef) (outFacing : Bool)
    (hin : outFacing = false → ¬ Secret native) :
    Action.Evolves (Passes orb inst Secret) (Confines orb inst Secret)
      (mappedForNative orb inst native outFacing) fun _ _ => True := by
  intro reg h
  cases hrun : (mappedForNative orb inst native outFacing).run reg with
  | mk outcome reg' =>
      cases outcome with
      | ok answer => exact ⟨mappedForNative_passes h hin hrun nofun, trivial⟩
      | raised e => exact mappedForNative_passes h hin hrun nofun
      | fault cause => trivial

/-- What the outside is handed for a reference. -/
theorem mappedForNative_discloses (horb : orb.Lawful) (secrets : Secrets inst)
    (native : ObjRef) :
    Action.Evolves (Passes orb inst secrets.Secret)
      (fun reg => reg.Confines orb inst secrets.Secret ∧ reg.ReverseSafe inst native)
      (mappedForNative orb inst native true)
      fun answer _ => ∀ mapped, answer = some mapped → ¬ secrets.Secret mapped := by
  rintro reg ⟨h, hreverse⟩
  have hin : true = false → ¬ secrets.Secret native := fun hfalse => absurd hfalse (by simp)
  cases hrun : (mappedForNative orb inst native true).run reg with
  | mk outcome reg' =>
      cases outcome with
      | fault cause => trivial
      | raised e => exact mappedForNative_passes h hin hrun nofun
      | ok answer =>
          refine ⟨mappedForNative_passes h hin hrun nofun, ?_⟩
          rintro mapped rfl
          have hanswer := mappedForNative_answer orb inst h.safe native true
          rw [hrun] at hanswer
          cases hanswer with
          | handed hmap hv _ => exact mapReference_not_secret horb h hreverse hmap hv

end Passing

end Registry

/-! ## The operations of the mapper object -/

namespace MapperState

open ReferenceMapper

section Operations

variable {orb : Orb} {inst : Instance} {Secret : ObjRef → Prop}

/-- The secrets are hidden, whatever happens to the values. -/
abbrev HidesHere (Secret : ObjRef → Prop) (s : MapperState) : Prop := s.reg.Hides Secret

theorem decrRefcount_hides (a : Nat) :
    Action.Keeps (HidesHere Secret) (onRegistry (Registry.decrRefcount a)) := by
  have hkeeps := @Registry.decrRefcount_keeps (Registry.Hides Secret) (fun _ _ h => h) a
  exact hkeeps.onPart fun _ _ => rfl

/-- What is read is what the cell holds. -/
theorem readValue_reads {I : MapperState → Prop} (a : Nat) :
    Action.Triple I (onRegistry (Registry.readValue a))
      (fun v s => s.reg.values.cells a = some v ∧ I s) I := by
  intro s hs
  unfold onRegistry
  rw [Action.run_zoom]
  cases hv : s.reg.values.cells a with
  | none =>
      rw [Registry.run_readValue_dangling hv]
      trivial
  | some v =>
      rw [Registry.run_readValue hv]
      exact ⟨hv, hs⟩

theorem update_hides (a : Nat) (f : ReferenceMapValue → ReferenceMapValue) :
    Action.Keeps (HidesHere Secret) (onRegistry (Registry.update a f)) := by
  intro s hs
  unfold onRegistry Registry.update
  rw [Action.run_zoom, Action.run_bind]
  cases hread : (Registry.readValue a).run s.reg with
  | mk outcome reg =>
      have hkept := readValue_reads (I := HidesHere Secret) a s hs
      unfold onRegistry at hkept
      rw [Action.run_zoom, hread] at hkept
      cases outcome with
      | ok v => exact hkept.2
      | raised e => exact hkept
      | fault cause => trivial

theorem bindName_hides (a : Nat) (mapped : ObjRef) (name : String) :
    Action.Keeps (HidesHere Secret) (bindName orb a mapped name) := by
  apply Action.Keeps.get.bind
  intro s
  split
  · exact .pure _
  · split
    · exact .pure _
    · apply Action.Keeps.bind
      · apply Action.Keeps.modify
        exact fun _ h => h
      · exact fun _ => update_hides a _

/-- A registration hands the mapped reference back and maps nothing. -/
theorem registerServer_hides (requireSecure : Bool) (name : String) (agent : Option ObjRef)
    (a : Nat) (mapped : ObjRef) :
    Action.Triple (HidesHere Secret) (registerServer orb requireSecure name agent a mapped)
      (fun r s => r = some mapped ∧ HidesHere Secret s) (HidesHere Secret) := by
  apply Action.Triple.bind (bindName_hides a mapped name)
  intro _
  apply Action.Triple.bind (update_hides a _)
  intro _
  apply Action.Triple.bind (Q := fun _ => HidesHere Secret)
  · apply Action.Triple.modify
    exact fun _ h => h
  intro _
  apply Action.Triple.bind (openUnlessSecure_keeps (fun _ _ h => h) requireSecure mapped)
  intro _
  apply Action.Triple.bind (Q := fun _ => HidesHere Secret)
  · cases agent with
    | none => exact Action.Keeps.pure _
    | some agent => exact update_hides a _
  · exact fun _ => Action.Triple.pure fun _ h => ⟨rfl, h⟩

/-- No operation of a server but this one maps a reference, and what it returns
is no secret. -/
theorem asServerI_discloses (horb : orb.Lawful) (secrets : Secrets inst) (requireSecure : Bool)
    (orig : ObjRef) (name : String) (agent : Option ObjRef) :
    Action.Triple (fun s => s.reg.Confines orb inst secrets.Secret ∧ s.reg.ReverseSafe inst orig)
      (asServerI orb inst requireSecure orig name agent)
      (fun r s => (∀ mapped, r = some mapped → ¬ secrets.Secret mapped) ∧
        HidesHere secrets.Secret s) (HidesHere secrets.Secret) := by
  have hmap : Action.Triple
      (fun s : MapperState => s.reg.Confines orb inst secrets.Secret ∧
        s.reg.ReverseSafe inst orig)
      (onRegistry (Registry.mapReference orb inst orig true requireSecure))
      (fun r s => (∀ a v, r = some a → s.reg.values.cells a = some v →
        ¬ secrets.Secret v.mappedRef) ∧ HidesHere secrets.Secret s)
      (HidesHere secrets.Secret) := by
    rintro s ⟨hs, hreverse⟩
    have hhides : ∀ reg, ((Registry.mapReference orb inst orig true requireSecure).run s.reg).2 =
        reg → reg.Hides secrets.Secret := by
      rintro _ rfl m oid native a hmapped
      have hleaves := Registry.mapReference_leaves orb inst hs.safe orig true requireSecure
      rcases hleaves.events _ hmapped with hold | ⟨m', oid', b, heq⟩
      · exact hs.hides m oid native a hold
      · simp at heq
    unfold onRegistry
    rw [Action.run_zoom]
    cases hrun : (Registry.mapReference orb inst orig true requireSecure).run s.reg with
    | mk outcome reg =>
        rw [hrun] at hhides
        cases outcome with
        | fault cause => trivial
        | raised e => exact hhides reg rfl
        | ok r =>
            refine ⟨?_, hhides reg rfl⟩
            rintro a v rfl hv
            exact Registry.mapReference_not_secret horb hs hreverse hrun hv
  apply hmap.bind
  intro r
  cases r with
  | none => exact Action.Triple.pure fun _ h => ⟨nofun, h.2⟩
  | some a =>
      apply Action.Triple.inScope (M := fun r s =>
        (∀ mapped, r = some mapped → ¬ secrets.Secret mapped) ∧ HidesHere secrets.Secret s)
        (F := HidesHere secrets.Secret)
      · have hread := @readValue_reads (fun s : MapperState =>
          (∀ b v, some a = some b → s.reg.values.cells b = some v →
            ¬ secrets.Secret v.mappedRef) ∧ HidesHere secrets.Secret s) a
        refine (hread.weaken (fun _ h => h) (fun _ _ h => h) (fun _ h => h.2)).bind ?_
        rintro v s ⟨hv, hdiscloses, hs⟩
        have hregister := @registerServer_hides orb secrets.Secret requireSecure name agent a
          v.mappedRef
        refine hregister.weaken (fun _ h => h) ?_ (fun _ h => h) s hs
        rintro r s' ⟨rfl, hs'⟩
        refine ⟨?_, hs'⟩
        rintro mapped ⟨⟩
        exact hdiscloses a v rfl hv
      · rintro r s ⟨hr, hs⟩
        exact (decrRefcount_hides a).weaken (fun _ h => h) (fun _ _ h => ⟨hr, h⟩) (fun _ h => h)
          s hs
      · exact decrRefcount_hides a

theorem asClient_hides {orig : ObjRef} (h : ¬ Secret orig) :
    Action.Triple (fun s : MapperState => s.reg.Confines orb inst Secret)
      (asClient orb inst (some orig)) (fun _ => HidesHere Secret) (HidesHere Secret) := by
  rw [asClient_eq]
  intro s hs
  have hrun := Registry.mappedForNative_evolves orb inst orig false (fun _ => h) s.reg hs
  unfold onRegistry
  rw [Action.run_zoom]
  cases hx : (Registry.mappedForNative orb inst orig false).run s.reg with
  | mk outcome reg =>
      rw [hx] at hrun
      cases outcome with
      | ok answer => exact hrun.1.hides hs.hides
      | raised e => exact hrun.hides hs.hides
      | fault cause => trivial

theorem unbindName_hides (name : String) :
    Action.Keeps (HidesHere Secret) (unbindName name) := by
  apply Action.Keeps.get.bind
  intro s
  split
  · exact .fail _
  · split
    · apply Action.Keeps.modify
      exact fun _ h => h
    · exact .raise _

theorem removeReference_hides (mapped : ObjRef) (outFacing : Bool) :
    Action.Triple (fun s : MapperState => s.reg.Confines orb inst Secret)
      (onRegistry (Registry.removeReference orb mapped outFacing))
      (fun _ => HidesHere Secret) (HidesHere Secret) := by
  intro s hs
  have hremoval := Registry.removeReference_removal orb hs.safe.cover mapped outFacing
  unfold onRegistry
  rw [Action.run_zoom]
  generalize (Registry.removeReference orb mapped outFacing).run s.reg = result at hremoval
  cases hremoval with
  | unhandled _ => exact hs.hides
  | uncached _ _ => exact hs.hides
  | raised _ _ => exact hs.hides
  | short _ _ _ => trivial
  | missed _ _ _ _ _ => exact hs.hides
  | took _ _ _ _ _ =>
      intro m oid native a hmapped
      exact hs.hides m oid native a (by simpa [Registry.log, Registry.setTable] using hmapped)

theorem removeServer_hides (mapped : Option ObjRef) :
    Action.Triple (fun s : MapperState => s.reg.Confines orb inst Secret)
      (removeServer orb mapped) (fun _ => HidesHere Secret) (HidesHere Secret) := by
  cases mapped with
  | none => exact Action.Triple.pure fun _ h => h.hides
  | some mapped =>
      apply (removeReference_hides mapped true).bind
      intro r
      cases r with
      | none => exact Action.Keeps.pure _
      | some a =>
          refine Action.Triple.inScope (M := fun _ => HidesHere Secret) (F := HidesHere Secret) ?_
            (fun _ => decrRefcount_hides a) (decrRefcount_hides a)
          apply Action.Triple.bind (Q := fun _ => HidesHere Secret)
          · exact (readValue_reads a).weaken (fun _ h => h) (fun _ _ h => h.2) (fun _ h => h)
          · intro v
            split
            · exact Action.Keeps.pure _
            · exact unbindName_hides v.iorTableName

theorem removeClient_hides (mapped : Option ObjRef) :
    Action.Triple (fun s : MapperState => s.reg.Confines orb inst Secret)
      (removeClient orb mapped) (fun _ => HidesHere Secret) (HidesHere Secret) := by
  cases mapped with
  | none => exact Action.Triple.pure fun _ h => h.hides
  | some mapped =>
      apply (removeReference_hides mapped false).bind
      intro r
      cases r with
      | none => exact Action.Keeps.pure _
      | some a => exact decrRefcount_hides a

end Operations

/-- The state of the invariant, without the names. -/
theorem Orderly.confines {orb : Orb} {inst : Instance} {Secret : ObjRef → Prop} {s : MapperState}
    (h : s.Orderly orb inst []) (hides : s.reg.Hides Secret) :
    s.reg.Confines orb inst Secret :=
  ⟨h.safe, h.traced, h.cached, hides⟩

/-- Moves that give no entry a name. -/
theorem Orderly.passes {orb : Orb} {inst : Instance} {Secret : ObjRef → Prop} {s : MapperState}
    {reg' : Registry} (h : s.Orderly orb inst []) (hpasses : s.reg.Passes orb inst Secret reg') :
    Orderly orb inst [] { s with reg := reg' } := by
  have hmoves := hpasses.maps.moves h.safe
  exact h.moves hmoves fun name a ha => ha.before h.safe h.traced hmoves hpasses.named

end MapperState

/-! ## The gateway -/

open GenericEvaluator

/-- The mapper object, its registry, and the references the outside has been
given. -/
structure Gateway where
  mapper : MapperState
  learned : List ObjRef

/-- An operation of the mapper object, or a message that an evaluator handles.
The frame is what was prepared with the request; its registry is not used. -/
inductive GatewayOp (ι : Type) where
  | server (op : ServerOp)
  | message (ev : GenericEvaluator ι) (env : GenericEvaluator.Surroundings) (facing : Bool)
      (frame : Frame) (p : Passage)

namespace Gateway

def returned : Outcome Exn (Option ObjRef) → List ObjRef
  | .ok r => r.toList
  | .raised _ => []
  | .fault _ => []

section Definitions

variable {ι : Type} (orb : Orb) (inst : Instance)

/-- The references that a registration hands back to be given to the outside. -/
def published (s : MapperState) : ServerOp → List ObjRef
  | .asServer orig name agent =>
      returned ((ReferenceMapper.asServer orb inst orig name agent).run s).1
  | .asSecureServer orig name agent =>
      returned ((ReferenceMapper.asSecureServer orb inst orig name agent).run s).1
  | _ => []

/-- The frame as the evaluator finds it. -/
def frameAt (g : Gateway) (frame : Frame) : Frame := { frame with reg := g.mapper.reg }

/-- The references that go to the outside with a message. -/
def sent (g : Gateway) (ev : GenericEvaluator ι) (env : GenericEvaluator.Surroundings)
    (facing : Bool) (frame : Frame) (p : Passage) : List ObjRef :=
  if p.side facing then (ev.passed env facing p (g.frameAt frame)).map Reference.object else []

def step (g : Gateway) : GatewayOp ι → Option Gateway
  | .server op => (g.mapper.step orb inst op).map fun mapper =>
      { mapper := mapper, learned := published orb inst g.mapper op ++ g.learned }
  | .message ev env facing frame p => (ev.after env facing p (g.frameAt frame)).map fun reg =>
      { mapper := { g.mapper with reg := reg }
        learned := g.sent ev env facing frame p ++ g.learned }

/-- What the outside may bring is what it was given, or no secret. -/
def Known (secrets : Secrets inst) (g : Gateway) (ref : ObjRef) : Prop :=
  secrets.Secret ref → ref ∈ g.learned

/-- The steps that give no secret away. What is mapped for the outside is no
stale in-facing reference; what is mapped for the inside comes from the
outside; and a message is mapped for the side it goes to. -/
def Discreet (secrets : Secrets inst) (g : Gateway) : GatewayOp ι → Prop
  | .server (.asServer (some orig) _ _) => g.mapper.reg.ReverseSafe inst orig
  | .server (.asSecureServer (some orig) _ _) => g.mapper.reg.ReverseSafe inst orig
  | .server (.asClient (some orig)) => g.Known inst secrets orig
  | .server (.asClientWithCorbaloc corbaloc id) =>
      ∀ orig, orb.stringToObject corbaloc = .ok (some orig) →
        g.Known inst secrets { orig with typeId := id }
  | .server _ => True
  | .message ev _ facing frame p => ev.orb = orb ∧ ev.inst = inst ∧
      ev.RightlyFaced facing p (g.frameAt frame) ∧
      ∀ ref, p.Brings ref →
        if p.mapsFor facing then g.mapper.reg.ReverseSafe inst ref else g.Known inst secrets ref

end Definitions

/-- The invariant of discreet runs. -/
structure Discloses (orb : Orb) (inst : Instance) (secrets : Secrets inst) (g : Gateway) :
    Prop where
  orderly : g.mapper.Orderly orb inst []
  hides : g.mapper.reg.Hides secrets.Secret
  learned : ∀ ref ∈ g.learned, ¬ secrets.Secret ref

end Gateway

def gatewaySystem (ι : Type) (orb : Orb) (inst : Instance) (cacheProxyReferences : Bool) :
    System Gateway (GatewayOp ι) where
  init g := (mapperSystem orb inst cacheProxyReferences).init g.mapper ∧ g.learned = []
  step := Gateway.step orb inst

namespace Gateway

section Runs

variable {ι : Type} {orb : Orb} {inst : Instance} {secrets : Secrets inst} {g g' : Gateway}

theorem Discloses.confines (h : g.Discloses orb inst secrets) :
    g.mapper.reg.Confines orb inst secrets.Secret :=
  h.orderly.confines h.hides

/-- A secret that the outside knows of is a contradiction. -/
theorem Discloses.not_secret (h : g.Discloses orb inst secrets) {ref : ObjRef}
    (hknown : g.Known inst secrets ref) : ¬ secrets.Secret ref :=
  fun hsecret => h.learned ref (hknown hsecret) hsecret

/-! ### Messages -/

/-- A message that is mapped for the right side crosses. -/
theorem crossing_of_rightlyFaced {ev : GenericEvaluator ι}
    {env : GenericEvaluator.Surroundings} {facing : Bool} {p : Passage} {s : Frame} (h : ev.RightlyFaced facing p s) :
    Crossing (p.side facing) (ev.passed env facing p s) := by
  cases p with
  | request operation decoded => exact (facingConsistent_request operation decoded s).mpr h
  | reply operation event =>
      cases event with
      | response result outArgs =>
          exact (facingConsistent_response operation result outArgs s).mpr h
      | excep body status => exact (facingConsistent_excep operation body status s).mpr h
      | locationForward fwd status =>
          exact facingConsistent_locationForward operation fwd status s

/-- Mapped for the outside, the reference is no secret. -/
def Shown (secrets : Secrets inst) (r : Reference) : Prop :=
  ∀ mapped, r = .mapped true mapped → ¬ secrets.Secret mapped

/-- The registry confines, and what the message brings for the outside can be
reversed. -/
structure Carrying (orb : Orb) (inst : Instance) (secrets : Secrets inst) (facing : Bool)
    (p : Passage) (reg : Registry) : Prop where
  confines : reg.Confines orb inst secrets.Secret
  reverse : p.mapsFor facing = true → ∀ ref, p.Brings ref → reg.ReverseSafe inst ref

theorem stable_carrying (facing : Bool) (p : Passage) :
    Action.Stable (Registry.Passes orb inst secrets.Secret)
      (Carrying orb inst secrets facing p) := by
  intro reg reg' hpasses h
  exact ⟨Registry.stable_confines _ _ hpasses h.confines, fun hout ref href =>
    Registry.stable_reverseSafe _ _ hpasses (h.reverse hout ref href)⟩

/-- What a discreet message brings comes to nothing that shows a secret. -/
theorem clears_of_discreet (horb : orb.Lawful) {ev : GenericEvaluator ι} (hev : ev.orb = orb)
    (hinst : ev.inst = inst) {facing : Bool} {p : Passage}
    (hin : p.mapsFor facing = false → ∀ ref, p.Brings ref → ¬ secrets.Secret ref)
    {ref : ObjRef} (href : p.Brings ref) :
    Clears ev (p.mapsFor facing) (Registry.Passes orb inst secrets.Secret)
      (Carrying orb inst secrets facing p) (Shown secrets) (.incoming ref) := by
  subst hev hinst
  refine ⟨fun _ _ _ heq => absurd heq (by simp), ?_⟩
  cases hf : p.mapsFor facing with
  | true =>
      refine (Registry.mappedForNative_discloses horb secrets ref).weaken
        (fun reg hreg => ⟨hreg.confines, hreg.reverse hf ref href⟩) ?_
      rintro answer reg hanswer mapped hmapped _ ⟨⟩
      exact hanswer mapped hmapped
  | false =>
      refine (Registry.mappedForNative_evolves ev.orb ev.inst ref false
        fun _ => hin hf ref href).weaken (fun reg hreg => hreg.confines) ?_
      intro answer reg _ mapped _ mapped' heq
      cases heq

theorem Discloses.message (horb : orb.Lawful) (h : g.Discloses orb inst secrets)
    {ev : GenericEvaluator ι} {env : GenericEvaluator.Surroundings} {facing : Bool}
    {frame : Frame} {p : Passage}
    (hguard : g.Discreet orb inst secrets (.message ev env facing frame p))
    (hstep : g.step orb inst (.message ev env facing frame p) = some g') :
    g'.Discloses orb inst secrets := by
  obtain ⟨hev, hinst, hfaced, hbrings⟩ := hguard
  obtain ⟨reg', hafter, rfl⟩ := Option.map_eq_some_iff.mp hstep
  have hin : p.mapsFor facing = false → ∀ ref, p.Brings ref → ¬ secrets.Secret ref := by
    intro hf ref href
    have hknown := hbrings ref href
    rw [hf] at hknown
    exact h.not_secret hknown
  have hcarrying : Carrying orb inst secrets facing p (g.frameAt frame).reg := by
    refine ⟨h.confines, fun hf ref href => ?_⟩
    have hreverse := hbrings ref href
    rw [hf] at hreverse
    exact hreverse
  have hclears := fun ref (href : p.Brings ref) =>
    @clears_of_discreet ι orb inst secrets horb ev hev hinst facing p hin ref href
  have hpasses := after_le (stable_carrying facing p) hcarrying hclears hafter
  refine ⟨h.orderly.passes hpasses, hpasses.hides h.hides, ?_⟩
  intro ref href
  rcases List.mem_append.mp href with hsent | hold
  · unfold sent at hsent
    split at hsent
    · next hside =>
        obtain ⟨r, hr, rfl⟩ := List.mem_map.mp hsent
        have hcross := @crossing_of_rightlyFaced _ _ env _ _ _ hfaced r hr
        rw [hside] at hcross
        have hshown : Shown secrets r :=
          passed_good (stable_carrying facing p) hcarrying hclears r hr
        cases r with
        | incoming ref => cases hcross
        | mapped f mapped =>
            obtain rfl := eq_of_beq hcross
            exact hshown mapped rfl
    · exact absurd hsent List.not_mem_nil
  · exact h.learned ref hold

/-! ### Operations -/

theorem returned_not_secret {s : MapperState} {x : MapperM (Option ObjRef)}
    {P : MapperState → Prop}
    (hx : Action.Triple P x (fun r s => (∀ mapped, r = some mapped → ¬ secrets.Secret mapped) ∧
      MapperState.HidesHere secrets.Secret s) (MapperState.HidesHere secrets.Secret))
    (hs : P s) : ∀ ref ∈ returned (x.run s).1, ¬ secrets.Secret ref := by
  have hrun := hx s hs
  cases hx' : x.run s with
  | mk outcome s' =>
      rw [hx'] at hrun
      cases outcome with
      | ok r => exact fun ref href => hrun.1 ref (Option.mem_toList.mp href)
      | raised e => exact fun ref href => absurd href List.not_mem_nil
      | fault cause => exact fun ref href => absurd href List.not_mem_nil

/-- A registration, with the state it starts in. -/
theorem asSecureServer_discloses (horb : orb.Lawful) (orig : Option ObjRef) (name : String)
    (agent : Option ObjRef) :
    Action.Triple (fun s => s.reg.Confines orb inst secrets.Secret ∧
        ∀ native, orig = some native → s.reg.ReverseSafe inst native)
      (ReferenceMapper.asSecureServer orb inst orig name agent)
      (fun r s => (∀ mapped, r = some mapped → ¬ secrets.Secret mapped) ∧
        MapperState.HidesHere secrets.Secret s) (MapperState.HidesHere secrets.Secret) := by
  apply Action.Triple.get
  rintro s ⟨hs, hreverse⟩
  split
  · cases orig with
    | none =>
        apply Action.Triple.pure
        rintro _ rfl
        exact ⟨nofun, hs.hides⟩
    | some native =>
        rintro start rfl
        exact MapperState.asServerI_discloses horb secrets true native name agent start
          ⟨hs, hreverse native rfl⟩
  · exact Action.Triple.raise fun _ h => h ▸ hs.hides

theorem asServer_discloses (horb : orb.Lawful) (orig : Option ObjRef) (name : String)
    (agent : Option ObjRef) :
    Action.Triple (fun s => s.reg.Confines orb inst secrets.Secret ∧
        ∀ native, orig = some native → s.reg.ReverseSafe inst native)
      (ReferenceMapper.asServer orb inst orig name agent)
      (fun r s => (∀ mapped, r = some mapped → ¬ secrets.Secret mapped) ∧
        MapperState.HidesHere secrets.Secret s) (MapperState.HidesHere secrets.Secret) := by
  cases orig with
  | none => exact Action.Triple.pure fun _ h => ⟨nofun, h.1.hides⟩
  | some native =>
      exact (MapperState.asServerI_discloses horb secrets false native name agent).weaken
        (fun _ h => ⟨h.1, h.2 native rfl⟩) (fun _ _ h => h) (fun _ h => h)

/-- What a discreet operation publishes, and that it hides what was hidden. -/
theorem Discloses.publishes (horb : orb.Lawful) (h : g.Discloses orb inst secrets)
    {op : ServerOp} {mapper : MapperState}
    (hguard : g.Discreet orb inst secrets (.server op : GatewayOp ι))
    (hstep : g.mapper.step orb inst op = some mapper) :
    mapper.reg.Hides secrets.Secret ∧
      ∀ ref ∈ published orb inst g.mapper op, ¬ secrets.Secret ref := by
  have hnone : ∀ ref ∈ ([] : List ObjRef), ¬ secrets.Secret ref :=
    fun ref href => absurd href List.not_mem_nil
  cases op with
  | asServer orig name agent =>
      have hserver := @asServer_discloses orb inst secrets horb orig name agent
      have hstart : g.mapper.reg.Confines orb inst secrets.Secret ∧
          ∀ native, orig = some native → g.mapper.reg.ReverseSafe inst native := by
        refine ⟨h.confines, ?_⟩
        rintro native rfl
        exact hguard
      exact ⟨MapperState.after_triple hserver (fun _ _ hs => hs.2) hstart hstep,
        returned_not_secret hserver hstart⟩
  | asSecureServer orig name agent =>
      have hserver := @asSecureServer_discloses orb inst secrets horb orig name agent
      have hstart : g.mapper.reg.Confines orb inst secrets.Secret ∧
          ∀ native, orig = some native → g.mapper.reg.ReverseSafe inst native := by
        refine ⟨h.confines, ?_⟩
        rintro native rfl
        exact hguard
      exact ⟨MapperState.after_triple hserver (fun _ _ hs => hs.2) hstart hstep,
        returned_not_secret hserver hstart⟩
  | removeServer mapped =>
      exact ⟨MapperState.after_triple (MapperState.removeServer_hides mapped)
        (fun _ _ hs => hs) h.confines hstep, hnone⟩
  | asClient orig =>
      refine ⟨?_, hnone⟩
      cases orig with
      | none =>
          obtain rfl := Option.some.inj hstep
          exact h.hides
      | some orig =>
          exact MapperState.after_triple (MapperState.asClient_hides (h.not_secret hguard))
            (fun _ _ hs => hs) h.confines hstep
  | asClientWithCorbaloc corbaloc id =>
      refine ⟨?_, hnone⟩
      simp only [MapperState.step, ReferenceMapper.asClientWithCorbaloc] at hstep
      cases hcorbaloc : orb.stringToObject corbaloc with
      | error e =>
          rw [hcorbaloc] at hstep
          obtain rfl := Option.some.inj hstep
          exact h.hides
      | ok found =>
          rw [hcorbaloc] at hstep
          cases found with
          | none =>
              obtain rfl := Option.some.inj hstep
              exact h.hides
          | some orig =>
              exact MapperState.after_triple
                (MapperState.asClient_hides (h.not_secret (hguard orig hcorbaloc)))
                (fun _ _ hs => hs) h.confines hstep
  | removeClient mapped =>
      exact ⟨MapperState.after_triple (MapperState.removeClient_hides mapped)
        (fun _ _ hs => hs) h.confines hstep, hnone⟩
  | reap m page offset =>
      refine ⟨?_, hnone⟩
      obtain ⟨t, ht, hoffset, hpage, hstep⟩ := MapperState.step_reap hstep
      have hlogged : ∀ (reg : Registry) (a : Nat),
          reg.history = .removed a :: g.mapper.reg.history → reg.Hides secrets.Secret := by
        intro reg a hhistory m oid native b hmapped
        rw [hhistory] at hmapped
        exact h.hides m oid native b (by simpa using hmapped)
      cases hslot : t.slot (page * t.pageSize.toNat + offset) with
      | none =>
          unfold ReferenceMapper.onRegistry at hstep
          rw [Action.run_zoom, Registry.run_reap_empty ht hslot] at hstep
          obtain rfl := Option.some.inj hstep
          exact h.hides
      | some a =>
          have hbound : g.mapper.reg.Bound a := ⟨m, _, (Registry.slotOf_eq ht _).trans hslot⟩
          obtain ⟨v, hv⟩ := h.orderly.safe.bound_cell hbound
          obtain ⟨values, hdecr⟩ := h.orderly.safe.decr_ok hv
          unfold ReferenceMapper.onRegistry at hstep
          rw [Action.run_zoom, Registry.run_reap ht hslot hdecr] at hstep
          obtain rfl := Option.some.inj hstep
          exact hlogged _ a rfl
  | evaluators answers =>
      obtain rfl := Option.some.inj hstep
      exact ⟨h.hides, hnone⟩

theorem Discloses.step (horb : orb.Lawful) (h : g.Discloses orb inst secrets)
    {op : GatewayOp ι} (hguard : g.Discreet orb inst secrets op)
    (hstep : g.step orb inst op = some g') : g'.Discloses orb inst secrets := by
  cases op with
  | message ev env facing frame p => exact h.message horb hguard hstep
  | server op =>
      obtain ⟨mapper, hmapper, rfl⟩ := Option.map_eq_some_iff.mp hstep
      obtain ⟨hides, hpublished⟩ := h.publishes horb hguard hmapper
      refine ⟨h.orderly.step hmapper, hides, fun ref href => ?_⟩
      rcases List.mem_append.mp href with hnew | hold
      · exact hpublished ref hnew
      · exact h.learned ref hold

/-- In every run of the gateway, whatever is registered, mapped, removed, reaped
and sent in it, the outside is given no inside reference. The steps are
discreet: what goes to the outside holds no stale in-facing reference, and what
comes from it holds only what it could know. -/
theorem learned_not_secret (orb : Orb) (horb : orb.Lawful) (inst : Instance)
    (secrets : Secrets inst) (g : Gateway)
    (hreach : (gatewaySystem ι orb inst true).Reach (Discreet orb inst secrets) g) :
    ∀ ref ∈ g.learned, ¬ secrets.Secret ref := by
  have hdiscloses : g.Discloses orb inst secrets := by
    apply hreach.invariant
    · rintro g ⟨⟨hasSecurity, answers, hasTable, hasDecision, hmapper⟩, hlearned⟩
      have horderly := @MapperState.initial_orderly orb inst hasSecurity answers hasTable
        hasDecision
      refine ⟨hmapper ▸ horderly, ?_, ?_⟩
      · rw [hmapper]
        exact fun _ _ _ _ hmapped => absurd hmapped List.not_mem_nil
      · rw [hlearned]
        exact fun _ href => absurd href List.not_mem_nil
    · exact fun g op g' h hguard hstep => h.step horb hguard hstep
  exact hdiscloses.learned

/-- The natives behind the gateway, by their text. -/
def nativeSecrets : Secrets ⟨7, 42⟩ where
  Secret ref := ref.key = none ∧ ref.endpoint = "IOR:native"
  foreign ref h := by rw [h.1]; rfl
  secured ref h := h

/-- A gateway with one mapper, which knows one interface. -/
def freshGateway : Gateway :=
  ⟨.initial true false [(· == "IDL:I:1.0")] false false, []⟩

/-- The servant of the interface forwards to itself. -/
def forwarded : GatewayOp Unit :=
  .message { raisingEvaluator with inst := ⟨7, 42⟩ } quietSurroundings true raisingFrame
    (.reply "op" (.locationForward (.ok (some (some knownRef))) .locationForward))

theorem learned_not_secret_forwarded :
    ∃ g, (gatewaySystem Unit .plain ⟨7, 42⟩ true).Reach
        (Discreet .plain ⟨7, 42⟩ nativeSecrets) g ∧
      g.learned.length = 2 ∧ ∀ ref ∈ g.learned, ¬ nativeSecrets.Secret ref := by
  let sys := gatewaySystem Unit .plain ⟨7, 42⟩ true
  let register : GatewayOp Unit := .server (.asServer (some knownRef) "" none)
  obtain ⟨g, hg⟩ := Option.isSome_iff_exists.mp (show
    ((sys.step freshGateway register).bind fun g => sys.step g forwarded).isSome by decide)
  have hlearned : g.learned.length = 2 := by
    have hread : (((sys.step freshGateway register).bind fun g => sys.step g forwarded).map
      fun g => g.learned.length) = some 2 := by decide
    rw [hg] at hread
    exact Option.some.inj hread
  have hreverse : ∀ reg : Registry, reg.ReverseSafe ⟨7, 42⟩ knownRef := by
    intro reg m index _ hstatus
    cases hstatus
  obtain ⟨g₁, h₁, h₂⟩ := Option.bind_eq_some_iff.mp hg
  have hstart : sys.Reach (Discreet .plain ⟨7, 42⟩ nativeSecrets) freshGateway :=
    .start ⟨⟨_, _, _, _, rfl⟩, rfl⟩
  have hregister : freshGateway.Discreet .plain ⟨7, 42⟩ nativeSecrets register := hreverse _
  have hguard : g₁.Discreet .plain ⟨7, 42⟩ nativeSecrets forwarded := by
    refine ⟨rfl, rfl, trivial, ?_⟩
    rintro ref ⟨⟩
    exact hreverse _
  have hreach := (hstart.next hregister h₁).next hguard h₂
  exact ⟨g, hreach, hlearned,
    learned_not_secret .plain Orb.plain_lawful ⟨7, 42⟩ nativeSecrets g hreach⟩

/-- Why no in-facing reference may be stale: its index has come back for the
mapping of an inside reference, and the reversal gives that one away. -/
theorem learned_secret_stale :
    ∃ g, (gatewaySystem Unit .plain ⟨7, 42⟩ true).replay (fun _ _ => True) freshGateway
        [.server (.asClient (some ⟨"IDL:I:1.0", none, "IOR:outside", false, false⟩)),
          .server (.removeClient (some ⟨"IDL:I:1.0", some (Poa.name ⟨0, false⟩ ++
            Instance.objectId ⟨7, 42⟩ false 0), "IOR:lorica", false, false⟩)),
          .server (.asServer (some knownRef) "" none),
          .server (.asServer (some ⟨"IDL:I:1.0", some (Poa.name ⟨0, false⟩ ++
            Instance.objectId ⟨7, 42⟩ false 0), "IOR:lorica", false, false⟩) "" none)] = some g ∧
      knownRef ∈ g.learned ∧ nativeSecrets.Secret knownRef := by
  refine ⟨_, rfl, ?_, rfl, rfl⟩
  decide

end Runs

end Gateway

end Lorica
