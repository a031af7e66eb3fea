import Lorica.ExactRemoval
import Lorica.GenericEvaluator
import Lorica.IndexSupply
import Lorica.InstanceIsolation

/-!
What each call leaves of the entries that were there. A mapping of whatever
kind leaves them all with their references; a removal leaves all but the one in
the slot it comes to. While an entry is there and the bound of its table has
not wrapped around, a request on its POA gets its native.
-/

namespace Lorica

open Machine

namespace Registry

/-- A reference that an in-facing POA has made for an id of this instance. -/
def InFacing (orb : Orb) (inst : Instance) (mapped : ObjRef) : Prop :=
  ∃ m index typeId,
    orb.createReferenceWithId ⟨m, false⟩ (inst.objectId false index) typeId = .ok mapped

/-- A request on the POA of the reference gets the native that the standing
mapping was made for. -/
def Resolves (orb : Orb) (reg : Registry) (mapped : ObjRef) : Prop :=
  ∃ m oid native a agent, orb.referenceToId ⟨m, false⟩ mapped = .ok oid ∧
    .mapped ⟨m, false⟩ oid native a ∈ reg.history ∧ .removed a ∉ reg.history ∧
    ∀ given, (currentNative orb m oid given).run reg =
      (.ok (some (reg.origRef native), agent), reg)

/-- The slot that a removal of the reference takes out. -/
def LeadsTo (orb : Orb) (reg : Registry) (mapped : ObjRef) (outFacing : Bool) (m i : Nat) :
    Prop :=
  ∃ t oid index a, reg.handler mapped.typeId = some m ∧ reg.table m = some t ∧
    orb.referenceToId ⟨m, outFacing⟩ mapped = .ok oid ∧ readIndex oid = some index ∧
    lookup t index = some a ∧ i = index.toNat

/-! ## The entries -/

variable {orb : Orb} {inst : Instance} {reg reg' reg'' : Registry} {mapped : ObjRef}

/-- The POA that made the reference takes it back, and no other one does. -/
theorem InFacing.to_id (horb : orb.Lawful) (h : InFacing orb inst mapped) {poa : Poa}
    {oid : ObjectId} (hid : orb.referenceToId poa mapped = .ok oid) : poa.outFacing = false := by
  obtain ⟨m, index, typeId, hcreate⟩ := h
  rw [horb.to_id_other _ _ _ _ _ _ hcreate hid]

/-- The key of the reference is one of ours. -/
theorem InFacing.ours (horb : orb.Lawful) (h : InFacing orb inst mapped) :
    inst.ours mapped.key = true := by
  obtain ⟨m, index, typeId, hcreate⟩ := h
  obtain ⟨before, hkey⟩ := horb.create_key _ _ _ _ hcreate
  rw [hkey, Instance.ours_objectId]
  exact inst.owns_objectId false index

/-- The tables stay, and the references of their entries. -/
structure Stays (reg reg' : Registry) : Prop where
  tables : ∀ m, reg'.table m = reg.table m
  entries : ∀ a v, reg.Bound a → reg.values.cells a = some v →
    ∃ v', reg'.values.cells a = some v' ∧ v'.mappedRef = v.mappedRef

/-- The entries stay with their references, but for some slots. -/
def KeepsBut (gone : Nat → Nat → Prop) (reg reg' : Registry) : Prop :=
  ∀ m i a v, ¬ gone m i → reg.slotOf m i = some a → reg.values.cells a = some v →
    ∃ v', reg'.slotOf m i = some a ∧ reg'.values.cells a = some v' ∧ v'.mappedRef = v.mappedRef

theorem Stays.slotOf_eq (h : reg.Stays reg') (m i : Nat) : reg'.slotOf m i = reg.slotOf m i := by
  unfold slotOf
  rw [h.tables]

theorem Stays.refl (reg : Registry) : reg.Stays reg :=
  ⟨fun _ => rfl, fun _ v _ hv => ⟨v, hv, rfl⟩⟩

theorem Stays.trans (h : reg.Stays reg') (h' : reg'.Stays reg'') : reg.Stays reg'' := by
  refine ⟨fun m => (h'.tables m).trans (h.tables m), ?_⟩
  rintro a v ⟨m, i, hslot⟩ hv
  obtain ⟨v', hv', href'⟩ := h.entries a v ⟨m, i, hslot⟩ hv
  obtain ⟨v'', hv'', href''⟩ := h'.entries a v' ⟨m, i, (h.slotOf_eq m i).trans hslot⟩ hv'
  exact ⟨v'', hv'', href''.trans href'⟩

theorem Stays.of_keeps (htables : ∀ m, reg'.table m = reg.table m) (h : reg.Keeps reg') :
    reg.Stays reg' := by
  refine ⟨htables, ?_⟩
  rintro a v ⟨m, i, hslot⟩ hv
  obtain ⟨v', -, hv', -, href⟩ := h m i a v hslot hv
  exact ⟨v', hv', href⟩

/-- Fields written, but not the reference. -/
theorem Stays.rewrite {a : Nat} {v v' : ReferenceMapValue} (hv : reg.values.cells a = some v)
    (href : v'.mappedRef = v.mappedRef) :
    reg.Stays (reg.setValues (reg.values.write a (some v'))) := by
  refine ⟨fun _ => rfl, ?_⟩
  intro b w _ hw
  by_cases hb : b = a
  · subst hb
    obtain rfl := Option.some.inj (hv.symm.trans hw)
    exact ⟨v', Heap.write_cells_self _ _ _, href⟩
  · exact ⟨w, (Heap.write_cells_of_ne _ hb _).trans hw, rfl⟩

theorem KeepsBut.of_keeps (h : reg.Keeps reg') : KeepsBut (fun _ _ => False) reg reg' := by
  intro m i a v _ hslot hv
  obtain ⟨v', hslot', hv', -, href⟩ := h m i a v hslot hv
  exact ⟨v', hslot', hv', href⟩

theorem KeepsBut.stays {gone : Nat → Nat → Prop} (h : KeepsBut gone reg reg')
    (h' : reg'.Stays reg'') : KeepsBut gone reg reg'' := by
  intro m i a v hkept hslot hv
  obtain ⟨v', hslot', hv', href'⟩ := h m i a v hkept hslot hv
  obtain ⟨v'', hv'', href''⟩ := h'.entries a v' ⟨m, i, hslot'⟩ hv'
  exact ⟨v'', (h'.slotOf_eq m i).trans hslot', hv'', href''.trans href'⟩

end Registry

namespace MapperState

open ReferenceMapper

variable {orb : Orb} {inst : Instance} {s s' : MapperState} {mapped : ObjRef}

/-- An entry belongs to the POA that takes its reference back. -/
theorem isEntry_of_slot (horb : orb.Lawful) (hs : s.Orderly orb inst []) {m i a : Nat}
    {v : ReferenceMapValue} (hslot : s.reg.slotOf m i = some a)
    (hv : s.reg.values.cells a = some v) {poa : Poa} {oid : ObjectId}
    (hid : orb.referenceToId poa v.mappedRef = .ok oid) :
    poa.mapper = m ∧ s.reg.IsEntry (some v.mappedRef) poa.outFacing m i := by
  obtain ⟨facing, index, native, v', -, hevent, -, hv', -, hcreate⟩ := hs.traced.made m i a hslot
  obtain rfl := Option.some.inj (hv'.symm.trans hv)
  rw [horb.to_id_other _ _ _ _ _ _ hcreate hid]
  exact ⟨rfl, a, v', _, native, hslot, hv, rfl, hevent⟩

/-- What keeps the slot of an entry keeps the entry. -/
theorem isEntry_kept (horb : orb.Lawful) (hs : s.Orderly orb inst [])
    (hs' : s'.Orderly orb inst []) {gone : Nat → Nat → Prop}
    (hkeeps : Registry.KeepsBut gone s.reg s'.reg) {m i : Nat} (hkept : ¬ gone m i)
    (h : s.reg.IsEntry (some mapped) false m i) : s'.reg.IsEntry (some mapped) false m i := by
  obtain ⟨a', index, -, -, hid⟩ := isEntry_made horb hs h
  obtain ⟨a, v, oid, native, hslot, hv, hmapped, -⟩ := h
  obtain rfl := Option.some.inj hmapped
  obtain ⟨v', hslot', hv', href⟩ := hkeeps m i a v hkept hslot hv
  rw [← href] at hid ⊢
  exact (isEntry_of_slot horb hs' hslot' hv' hid).2

/-- A request on the POA of an entry gets its native. -/
theorem resolves_of_entry (horb : orb.Lawful) (hs : s.Orderly orb inst []) (hsnug : s.reg.Snug)
    {m i : Nat} (h : s.reg.IsEntry (some mapped) false m i) : s.reg.Resolves orb mapped := by
  obtain ⟨a', index, hslot', rfl, hid⟩ := isEntry_made horb hs h
  obtain ⟨a, v, oid, native, hslot, hv, hmapped, hevent⟩ := h
  obtain ⟨facing, index', native', v', hi, hevent', hstands, hv', horig, -⟩ :=
    hs.traced.made m index.toNat a hslot
  obtain rfl := Option.some.inj (hv'.symm.trans hv)
  obtain ⟨hpoa, -, -⟩ := hs.traced.once _ _ _ _ _ _ _ hevent' hevent
  obtain ⟨-, rfl⟩ := Poa.mk.inj hpoa
  obtain rfl := UInt32.toNat_inj.mp hi
  obtain ⟨t, ht⟩ : ∃ t, s.reg.table m = some t := by
    cases ht : s.reg.table m with
    | none => simp [Registry.slotOf, ht] at hslot
    | some t => exact ⟨t, rfl⟩
  have hread := inst.readIndex_objectId false index
  have hocc : s.reg.occupant m (inst.objectId false index) = some v' := by
    rw [Registry.occupant_eq hread ht, hsnug.lookup_eq ht hslot]
    exact hv
  refine ⟨m, inst.objectId false index, native', a, v'.agent, hid, hevent', hstands, ?_⟩
  intro given
  rw [Registry.run_currentNative orb hs.safe ht, if_pos (by simp), hocc, ← horig]

end MapperState

/-! ## Mapping a reference -/

namespace Registry

section Handing

variable {orb : Orb} {inst : Instance} {reg : Registry} {held : List Nat} {native : ObjRef}
  {outFacing : Bool}

/-- What is handed out belongs to the value that `map_reference` has returned,
which is let go of. -/
theorem run_mappedForNative (hsafe : RegistryState.Safe ⟨reg, held⟩) {a : Nat} {reg₁ : Registry}
    (hmap : (mapReference orb inst native outFacing false).run reg = (.ok (some a), reg₁)) :
    ∃ v reg', reg₁.values.cells a = some v ∧ reg₁.Stays reg' ∧
      (mappedForNative orb inst native outFacing).run reg = (.ok (some v.mappedRef), reg') := by
  have hadv := mapReference_advances orb inst hsafe native outFacing false
  rw [hmap] at hadv
  have hsafe₁ : RegistryState.Safe ⟨reg₁, a :: held⟩ := hsafe.moves hadv
  obtain ⟨v, hv⟩ := hsafe₁.held_cell List.mem_cons_self
  obtain ⟨values, hdecr⟩ := hsafe₁.decr_ok hv
  refine ⟨v, reg₁.setValues values, hv, .of_keeps (fun _ => rfl) (.drop hsafe₁ hdecr), ?_⟩
  unfold mappedForNative
  rw [Action.run_bind_ok hmap]
  exact Action.run_inScope_ok (Action.run_bind_ok (run_readValue hv) _) (run_decrRefcount hdecr)

/-- Only a value that was returned is handed out. -/
theorem mappedForNative_some {ref : ObjRef}
    (h : ((mappedForNative orb inst native outFacing).run reg).1 = .ok (some ref)) :
    ∃ a reg₁, (mapReference orb inst native outFacing false).run reg = (.ok (some a), reg₁) := by
  cases hmap : (mapReference orb inst native outFacing false).run reg with
  | mk outcome reg₁ =>
      unfold mappedForNative at h
      cases outcome with
      | raised e =>
          rw [Action.run_bind_raised hmap] at h
          cases h
      | fault cause =>
          rw [Action.run_bind_fault hmap] at h
          cases h
      | ok r =>
          cases r with
          | none =>
              rw [Action.run_bind_ok hmap] at h
              cases h
          | some a => exact ⟨a, reg₁, rfl⟩

/-- However it ends, the rest keeps what `map_reference` has left. -/
theorem mappedForNative_stays (hsafe : RegistryState.Safe ⟨reg, held⟩) :
    ((mapReference orb inst native outFacing false).run reg).2.Stays
      ((mappedForNative orb inst native outFacing).run reg).2 := by
  cases hmap : (mapReference orb inst native outFacing false).run reg with
  | mk outcome reg₁ =>
      cases outcome with
      | raised e =>
          unfold mappedForNative
          rw [Action.run_bind_raised hmap]
          exact .refl reg₁
      | fault cause =>
          unfold mappedForNative
          rw [Action.run_bind_fault hmap]
          exact .refl reg₁
      | ok r =>
          cases r with
          | none =>
              unfold mappedForNative
              rw [Action.run_bind_ok hmap]
              exact .refl reg₁
          | some a =>
              obtain ⟨v, reg', -, hstays, hrun⟩ := run_mappedForNative hsafe hmap
              rw [hrun]
              exact hstays

/-- Where the value that `map_reference` returns for a client comes from. -/
inductive Handed (reg : Registry) (a : Nat) (v : ReferenceMapValue) (reg₁ : Registry) :
    Prop where
  | bound (h : reg₁.Bound a)
  | reversed {m i b : Nat} {w : ReferenceMapValue} (hslot : reg.slotOf m i = some b)
      (hw : reg.values.cells b = some w) (horig : v.mappedRef = w.origRef)

theorem addNativeUnchecked_bound (hsafe : RegistryState.Safe ⟨reg, held⟩) {m : Nat}
    {t : RMVByMapped Nat} (ht : reg.table m = some t) (hsnug : t.Snug) (hlasts : t.Lasts)
    {a : Nat} {reg₁ : Registry}
    (hrun : (addNativeUnchecked orb inst m native native.typeId false false >>= fun rmv =>
      pure (some rmv)).run reg = (.ok (some a), reg₁)) : reg₁.Bound a := by
  have hcover := hsafe.cover m t ht
  have hroom := hsnug.room hlasts
  have hunchecked := run_addNativeUnchecked orb inst ht hcover native native.typeId false false
  cases hcreate : orb.createReferenceWithId ⟨m, false⟩ (inst.objectId false t.peekIndex)
      native.typeId with
  | error e =>
      rw [hcreate] at hunchecked
      rw [Action.run_bind_raised hunchecked] at hrun
      cases hrun
  | ok ref =>
      rw [hcreate] at hunchecked
      rw [Action.run_bind_ok hunchecked, if_pos hroom] at hrun
      obtain ⟨hvalue, rfl⟩ := Prod.mk.inj hrun
      obtain rfl : reg.values.fresh = a := by simpa using hvalue
      have ht' : (reg.setTable m t.nextIndex.2).table m = some t.nextIndex.2 := by
        rw [table_setTable ht, if_pos rfl]
      have hstored : (t.nextIndex.2.storeAt t.peekIndex (some reg.values.fresh)).slot =
          (t.nextIndex.2.storeAt t.peekIndex (some reg.values.fresh)).slot := rfl
      have hfill := RegistryState.slotOf_storeAt ht' hcover.nextIndex hroom.1 hstored m
        t.peekIndex.toNat
      rw [if_pos ⟨rfl, rfl⟩] at hfill
      exact ⟨m, t.peekIndex.toNat, hfill⟩

theorem mapReference_handed (hsafe : RegistryState.Safe ⟨reg, held⟩)
    (hcached : RegistryState.Cached ⟨reg, held⟩) (hsnug : reg.Snug)
    (hlasts : reg.Lasts inst native false) {a : Nat} {v : ReferenceMapValue} {reg₁ : Registry}
    (hmap : (mapReference orb inst native false false).run reg = (.ok (some a), reg₁))
    (hv : reg₁.values.cells a = some v) : Handed reg a v reg₁ := by
  rw [run_mapReference] at hmap
  cases hhandler : reg.handler native.typeId with
  | none =>
      rw [hhandler] at hmap
      cases hmap
  | some m =>
      obtain ⟨t, ht⟩ := hcached m (handler_lt hhandler)
      have hmapping := addNativeHere_mapping orb inst hsafe m native native.typeId false false
      simp only [hhandler] at hmap
      rw [hmap] at hmapping
      generalize hresult : ((Outcome.ok (some a) : Outcome Exn (Option Nat)), reg₁) = result
        at hmapping
      cases hmapping with
      | missed _ _ _ => cases hresult
      | dangling _ _ _ => cases hresult
      | found ht' _ hlookup _ =>
          cases hresult
          exact .bound ⟨m, _, lookup_slot ht' hlookup⟩
      | reversed ht' _ hlookup hw =>
          cases hresult
          obtain rfl := Option.some.inj ((Heap.write_cells_self _ _ _).symm.trans hv)
          exact .reversed (lookup_slot ht' hlookup) hw rfl
      | made hnew =>
          have hstatus := hnew.resolve_left (by simp [ht])
          refine .bound (addNativeUnchecked_bound hsafe ht (hsnug m t ht) ?_ hresult.symm)
          exact hlasts m t hhandler ht (by rw [hstatus])

end Handing

end Registry

namespace MapperState

open ReferenceMapper

variable {orb : Orb} {inst : Instance} {s s' : MapperState}

theorem registry_lens :
    Action.Lens MapperState.reg (fun s reg => { s with reg := reg }) where
  read_put _ _ := rfl
  put_read _ := rfl
  put_put _ _ _ := rfl

theorem onRegistry_mappedForNative (native : ObjRef) (outFacing : Bool) :
    onRegistry (Registry.mappedForNative orb inst native outFacing) =
      (onRegistry (Registry.mapReference orb inst native outFacing false) >>= fun
        | none => pure none
        | some a =>
            Action.inScope
              (do let v ← onRegistry (Registry.readValue a)
                  pure (some v.mappedRef))
              (onRegistry (Registry.decrRefcount a))) := by
  unfold Registry.mappedForNative onRegistry
  rw [Action.zoom_bind registry_lens]
  congr 1
  funext r
  cases r with
  | none => exact Action.zoom_pure registry_lens none
  | some a =>
      dsimp only
      rw [Action.zoom_inScope registry_lens, Action.zoom_bind registry_lens]
      simp only [Action.zoom_pure registry_lens]

/-- `as_client` maps a reference as the evaluators do for the in-facing side. -/
theorem asClient_eq (native : ObjRef) :
    asClient orb inst (some native) =
      onRegistry (Registry.mappedForNative orb inst native false) :=
  (onRegistry_mappedForNative native false).symm

theorem mappedForNative_orderly (native : ObjRef) (outFacing : Bool) :
    Action.Keeps (Orderly orb inst [])
      (onRegistry (Registry.mappedForNative orb inst native outFacing)) := by
  rw [onRegistry_mappedForNative]
  apply (onRegistry_orderly
    (fun reg hsafe => Registry.mapReference_advances orb inst hsafe native outFacing false)
    fun named => Registry.keeps_mapReference orb inst native outFacing false).bind
  intro r
  cases r with
  | none => exact Action.Keeps.pure _
  | some a =>
      apply scope_triple (fun s hs => hs.safe) ?_ (release_orderly a)
      exact fun v => Action.Triple.pure fun _ h => h.1

/-- What a step of a mapping kind leaves: nothing that was bound is gone, and
indices are left. -/
structure Mapped (orb : Orb) (inst : Instance) (s s' : MapperState) : Prop where
  orderly : s'.Orderly orb inst []
  keeps : Registry.KeepsBut (fun _ _ => False) s.reg s'.reg
  snug : s'.reg.Snug

theorem Mapped.of_stays (hs : s.Orderly orb inst []) (hsnug : s.reg.Snug) {native : ObjRef}
    {outFacing requireSecure : Bool} (hlasts : s.reg.Lasts inst native outFacing)
    (hstays : ((Registry.mapReference orb inst native outFacing requireSecure).run
      s.reg).2.Stays s'.reg) (hs' : s'.Orderly orb inst []) : Mapped orb inst s s' where
  orderly := hs'
  keeps := .stays (.of_keeps
    (mapReference_names orb inst hs.safe native outFacing requireSecure).1) hstays
  snug := .congr (Registry.mapReference_snug orb inst native outFacing requireSecure hs.safe hsnug
    hlasts) hstays.tables

/-- A reference that is mapped and let go of. -/
theorem mappedForNative_mapped (hs : s.Orderly orb inst []) (hsnug : s.reg.Snug)
    {native : ObjRef} {outFacing : Bool} (hlasts : s.reg.Lasts inst native outFacing)
    {outcome : Outcome Exn (Option ObjRef)}
    (hrun : (onRegistry (Registry.mappedForNative orb inst native outFacing)).run s =
      (outcome, s')) (hend : ∀ cause, outcome ≠ .fault cause) : Mapped orb inst s s' := by
  have hs' := (mappedForNative_orderly native outFacing).run hs hrun hend
  have hstays := @Registry.mappedForNative_stays orb inst s.reg [] native outFacing hs.safe
  unfold onRegistry at hrun
  rw [Action.run_zoom] at hrun
  obtain ⟨-, rfl⟩ := Prod.mk.inj hrun
  exact .of_stays hs hsnug hlasts hstays hs'

/-- An in-facing reference that is handed out to a client has an entry. -/
theorem asClient_handed (horb : orb.Lawful) (hs : s.Orderly orb inst []) (hsnug : s.reg.Snug)
    {native mapped : ObjRef} (hlasts : s.reg.Lasts inst native false)
    (hfacing : Registry.InFacing orb inst mapped)
    (hrun : (asClient orb inst (some native)).run s = (.ok (some mapped), s')) :
    ∃ m i, s'.reg.IsEntry (some mapped) false m i := by
  rw [asClient_eq] at hrun
  have hs' := (mappedForNative_orderly native false).run hs hrun nofun
  obtain ⟨k, index₀, typeId, hmade⟩ := id hfacing
  have hid := horb.to_id_own _ _ _ _ hmade
  unfold onRegistry at hrun
  rw [Action.run_zoom] at hrun
  obtain ⟨hok, rfl⟩ := Prod.mk.inj hrun
  obtain ⟨a, reg₁, hmap⟩ := Registry.mappedForNative_some hok
  obtain ⟨v, reg', hv, hstays, hhanded⟩ := Registry.run_mappedForNative hs.safe hmap
  rw [hhanded] at hok hs'
  rw [hhanded]
  obtain rfl : v.mappedRef = mapped := by simpa using hok
  cases Registry.mapReference_handed hs.safe hs.cached hsnug hlasts hmap hv with
  | bound hbound =>
      obtain ⟨m, i, hslot⟩ := id hbound
      obtain ⟨v', hv', href⟩ := hstays.entries a v hbound hv
      rw [← href] at hid ⊢
      exact ⟨m, i, (isEntry_of_slot horb hs' ((hstays.slotOf_eq m i).trans hslot) hv' hid).2⟩
  | reversed hslot hw horig =>
      -- the original of an entry is not one of ours
      obtain ⟨facing, index, native', w', -, hevent, -, hw', horig', -⟩ := hs.traced.made _ _ _ hslot
      obtain rfl := Option.some.inj (hw'.symm.trans hw)
      have hforeign := hs.traced.foreign _ _ _ _ hevent
      have hours := hfacing.ours horb
      rw [horig, horig'] at hours
      have hkey : (s.reg.origRef native').key = native'.key := by
        unfold Registry.origRef
        split <;> rfl
      rw [hkey, hforeign] at hours
      cases hours

section Registering

variable {reg₀ : Registry} {a : Nat}

/-- An assignment that leaves the reference. -/
theorem update_stays {f : ReferenceMapValue → ReferenceMapValue}
    (href : ∀ v, (f v).mappedRef = v.mappedRef) (a : Nat) :
    Action.Keeps (fun s : MapperState => reg₀.Stays s.reg)
      (onRegistry (Registry.update a f)) := by
  intro s hs
  unfold onRegistry Registry.update
  rw [Action.run_zoom]
  cases hv : s.reg.values.cells a with
  | none =>
      rw [Action.run_bind_fault (Registry.run_readValue_dangling hv)]
      trivial
  | some v =>
      rw [Action.run_bind_ok (Registry.run_readValue hv)]
      exact hs.trans (.rewrite hv (href v))

theorem bindName_stays (a : Nat) (mapped : ObjRef) (name : String) :
    Action.Keeps (fun s : MapperState => reg₀.Stays s.reg) (bindName orb a mapped name) := by
  apply Action.Keeps.get.bind
  intro s
  split
  · exact .pure _
  · split
    · exact .pure _
    · apply Action.Keeps.bind
      · apply Action.Keeps.modify
        exact fun _ h => h
      · intro _
        apply update_stays
        exact fun _ => rfl

theorem registerServer_stays (requireSecure : Bool) (name : String) (agent : Option ObjRef)
    (a : Nat) (mapped : ObjRef) :
    Action.Keeps (fun s : MapperState => reg₀.Stays s.reg)
      (registerServer orb requireSecure name agent a mapped) := by
  apply (bindName_stays a mapped name).bind
  intro _
  apply Action.Keeps.bind
  · apply update_stays
    exact fun _ => rfl
  intro _
  apply Action.Keeps.bind
  · apply Action.Keeps.modify
    exact fun _ h => h
  intro _
  apply (openUnlessSecure_keeps (fun _ _ h => h) requireSecure mapped).bind
  intro _
  apply Action.Keeps.bind
  · cases agent with
    | none => exact .pure _
    | some agent =>
        apply update_stays
        exact fun _ => rfl
  · exact fun _ => .pure _

/-- A registration keeps what `map_reference` has left. -/
theorem asServerI_stays (hs : s.Orderly orb inst []) (requireSecure : Bool) (orig : ObjRef)
    (name : String) (agent : Option ObjRef) {outcome : Outcome Exn (Option ObjRef)}
    (hrun : (asServerI orb inst requireSecure orig name agent).run s = (outcome, s'))
    (hend : ∀ cause, outcome ≠ .fault cause) :
    ((Registry.mapReference orb inst orig true requireSecure).run s.reg).2.Stays s'.reg := by
  have hmapped := onRegistry_orderly
    (fun reg hsafe => Registry.mapReference_advances orb inst hsafe orig true requireSecure)
    (fun named => Registry.keeps_mapReference orb inst orig true requireSecure) s hs
  unfold asServerI at hrun
  cases hmap : (onRegistry (Registry.mapReference orb inst orig true requireSecure)).run s with
  | mk result s₁ =>
      rw [hmap] at hmapped
      have hreg : s₁.reg =
          ((Registry.mapReference orb inst orig true requireSecure).run s.reg).2 := by
        unfold onRegistry at hmap
        rw [Action.run_zoom] at hmap
        exact congrArg MapperState.reg (Prod.mk.inj hmap).2.symm
      rw [← hreg]
      cases result with
      | raised e =>
          rw [Action.run_bind_raised hmap] at hrun
          exact (Prod.mk.inj hrun).2 ▸ .refl s₁.reg
      | fault cause =>
          rw [Action.run_bind_fault hmap] at hrun
          exact absurd (Prod.mk.inj hrun).1.symm (hend cause)
      | ok r =>
          rw [Action.run_bind_ok hmap] at hrun
          cases r with
          | none => exact (Prod.mk.inj hrun).2 ▸ .refl s₁.reg
          | some a =>
              have hscope : Action.Triple
                  (fun s => s.Orderly orb inst [a] ∧ s₁.reg.Stays s.reg)
                  (Action.inScope
                    (do let v ← onRegistry (Registry.readValue a)
                        registerServer orb requireSecure name agent a v.mappedRef)
                    (onRegistry (Registry.decrRefcount a)))
                  (fun _ s => s₁.reg.Stays s.reg) (fun s => s₁.reg.Stays s.reg) := by
                apply scope_triple (fun s h => h.1.safe)
                  (J := fun s => s.Orderly orb inst [a] ∧ s₁.reg.Stays s.reg)
                · rintro v s ⟨h, -⟩
                  exact ((registerServer_orderly List.mem_cons_self requireSecure name agent
                    v.mappedRef).and (registerServer_stays requireSecure name agent a v.mappedRef))
                    s h
                · rintro s ⟨horderly, hstays⟩
                  obtain ⟨values, hdecr, hrelease, -⟩ := run_release orb inst horderly.safe
                  rw [hrelease]
                  exact hstays.trans (.of_keeps (fun _ => rfl) (.drop horderly.safe hdecr))
              have hpost := hscope s₁ ⟨hmapped, .refl s₁.reg⟩
              rw [hrun] at hpost
              cases outcome with
              | ok _ => exact hpost
              | raised _ => exact hpost
              | fault cause => exact absurd rfl (hend cause)

end Registering

/-! ## Removing a reference -/

section Removing

variable {outFacing : Bool} {mapped : ObjRef}

theorem decrRefcount_tables (tables : Nat → Option (RMVByMapped Nat)) (a : Nat) :
    Action.Keeps (fun s : MapperState => ∀ m, s.reg.table m = tables m)
      (onRegistry (Registry.decrRefcount a)) := by
  have hkeeps := @Registry.decrRefcount_keeps (fun reg => ∀ m, reg.table m = tables m)
    (fun _ _ h => h) a
  exact hkeeps.onPart fun _ _ => rfl

theorem unbindName_tables (tables : Nat → Option (RMVByMapped Nat)) (name : String) :
    Action.Keeps (fun s : MapperState => ∀ m, s.reg.table m = tables m) (unbindName name) := by
  apply Action.Keeps.get.bind
  intro s
  split
  · exact .fail _
  · split
    · apply Action.Keeps.modify
      exact fun _ h => h
    · exact .raise _

/-- Once `remove_reference` has returned, the tables stay. -/
theorem remove_tables (orb : Orb) (mapped : ObjRef) (outFacing : Bool) (s : MapperState) :
    Action.Triple (fun s₁ => s₁ = s) (remove orb (some mapped) outFacing)
      (fun _ s' => ∀ m, s'.reg.table m =
        ((Registry.removeReference orb mapped outFacing).run s.reg).2.table m)
      (fun s' => ∀ m, s'.reg.table m =
        ((Registry.removeReference orb mapped outFacing).run s.reg).2.table m) := by
  have hfirst : Action.Triple (fun s₁ => s₁ = s)
      (onRegistry (Registry.removeReference orb mapped outFacing))
      (fun _ s' => ∀ m, s'.reg.table m =
        ((Registry.removeReference orb mapped outFacing).run s.reg).2.table m)
      (fun s' => ∀ m, s'.reg.table m =
        ((Registry.removeReference orb mapped outFacing).run s.reg).2.table m) := by
    rintro s rfl
    unfold onRegistry
    rw [Action.run_zoom]
    cases ((Registry.removeReference orb mapped outFacing).run s.reg).1 with
    | ok r => exact fun _ => rfl
    | raised e => exact fun _ => rfl
    | fault cause => trivial
  cases outFacing with
  | false =>
      apply hfirst.bind
      intro r
      cases r with
      | none => exact Action.Keeps.pure _
      | some a => exact decrRefcount_tables _ a
  | true =>
      apply hfirst.bind
      intro r
      cases r with
      | none => exact Action.Keeps.pure _
      | some a =>
          refine Action.Triple.inScope ?_ (fun _ => decrRefcount_tables _ a)
            (decrRefcount_tables _ a)
          apply Action.Keeps.bind
          · intro s' hs'
            unfold onRegistry Registry.readValue
            rw [Action.run_zoom, Action.run_bind_ok (Action.run_get s'.reg)]
            cases s'.reg.values.read a with
            | ok v => exact hs'
            | error cause => trivial
          · intro v
            split
            · exact .pure _
            · exact unbindName_tables _ _

/-- What a removal leaves: the slot it comes to is empty. -/
structure Unbound (orb : Orb) (inst : Instance) (mapped : ObjRef) (outFacing : Bool)
    (s s' : MapperState) : Prop where
  orderly : s'.Orderly orb inst []
  keeps : Registry.KeepsBut (s.reg.LeadsTo orb mapped outFacing) s.reg s'.reg
  cleared : ∀ m i, s.reg.LeadsTo orb mapped outFacing m i → s'.reg.slotOf m i = none
  others : ∀ m i a, s'.reg.slotOf m i = some a → s.reg.slotOf m i = some a ∧
    s'.reg.values.cells a = s.reg.values.cells a
  snug : s'.reg.Snug

/-- A removal that comes to no slot. -/
theorem Unbound.idle (hs : s.Orderly orb inst []) (hsnug : s.reg.Snug)
    (hnone : ∀ m i, ¬ s.reg.LeadsTo orb mapped outFacing m i) :
    Unbound orb inst mapped outFacing s s where
  orderly := hs
  keeps _ _ _ v _ hslot hv := ⟨v, hslot, hv, rfl⟩
  cleared m i hleads := absurd hleads (hnone m i)
  others _ _ _ hslot := ⟨hslot, rfl⟩
  snug := hsnug

theorem remove_unbound (hs : s.Orderly orb inst []) (hsnug : s.reg.Snug)
    {outcome : Outcome Exn Unit}
    (hrun : (remove orb (some mapped) outFacing).run s = (outcome, s'))
    (hend : ∀ cause, outcome ≠ .fault cause) : Unbound orb inst mapped outFacing s s' := by
  have htables := remove_tables orb mapped outFacing s s rfl
  have hremoving := remove_removing hs mapped outFacing
  have hremoved := Registry.removeReference_snug orb outFacing hs.safe.cover hsnug mapped
  rw [hrun] at htables hremoving
  cases hremoving with
  | unhandled hhandler =>
      apply Unbound.idle hs hsnug
      rintro m i ⟨t, oid, index, a, hm, -⟩
      rw [hhandler] at hm
      cases hm
  | refused hhandler hid =>
      apply Unbound.idle hs hsnug
      rintro m i ⟨t, oid, index, a, hm, -, hok, -⟩
      obtain rfl := Option.some.inj (hhandler.symm.trans hm)
      rw [hid] at hok
      cases hok
  | short => exact absurd rfl (hend _)
  | missed hhandler ht hid hread hlookup =>
      apply Unbound.idle hs hsnug
      rintro m i ⟨t, oid, index, a, hm, ht', hok, hindex, hfound, -⟩
      obtain rfl := Option.some.inj (hhandler.symm.trans hm)
      obtain rfl := Option.some.inj (ht.symm.trans ht')
      obtain rfl := Except.ok.inj (hid.symm.trans hok)
      obtain rfl := Option.some.inj (hread.symm.trans hindex)
      rw [hlookup] at hfound
      cases hfound
  | @took m a t oid index _ hhandler ht hid hread hlookup hcleared =>
      have hfull := Registry.lookup_slot ht hlookup
      have hleads : ∀ k j, s.reg.LeadsTo orb mapped outFacing k j ↔ k = m ∧ j = index.toNat := by
        intro k j
        constructor
        · rintro ⟨t', oid', index', a', hm, -, hok, hindex, -, rfl⟩
          obtain rfl := Option.some.inj (hhandler.symm.trans hm)
          obtain rfl := Except.ok.inj (hid.symm.trans hok)
          obtain rfl := Option.some.inj (hread.symm.trans hindex)
          exact ⟨rfl, rfl⟩
        · rintro ⟨rfl, rfl⟩
          exact ⟨t, oid, index, a, hhandler, ht, hid, hread, hlookup, rfl⟩
      -- the value that was taken out was in that slot only
      have hother : ∀ k j b, ¬ (k = m ∧ j = index.toNat) → s.reg.slotOf k j = some b → b ≠ a := by
        rintro k j b hne hslot rfl
        exact hne (hs.safe.injective _ _ _ _ _ hslot hfull)
      refine ⟨hcleared.orderly, ?_, ?_, ?_, .congr hremoved htables⟩
      · intro k j b v hkept hslot hv
        rw [hleads] at hkept
        refine ⟨v, ?_, ?_, rfl⟩
        · rw [hcleared.slots, if_neg hkept, hslot]
        · rw [hcleared.values b (hother k j b hkept hslot), hv]
      · intro k j hgone
        rw [hcleared.slots, if_pos ((hleads k j).mp hgone)]
      · intro k j b hslot
        rw [hcleared.slots] at hslot
        split at hslot
        · cases hslot
        · next hkept => exact ⟨hslot, hcleared.values b (hother k j b hkept hslot)⟩

end Removing

end MapperState

end Lorica
