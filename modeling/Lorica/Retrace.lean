import Lorica.Resolution

/-!
Mapping a mapped reference again: in the same direction it gives the entry it
came from, in the other one the original. The id at the end of its key says
which instance, facing and index it was made with and leaves out the mapper,
although every mapper has a table of its own.
-/

namespace Lorica

open Machine

namespace RegistryState

/-- What a run adds to the history is about values made in that run. -/
structure Grown (s s' : RegistryState) : Prop where
  fresh : s.reg.values.fresh ≤ s'.reg.values.fresh
  kept : ∀ event ∈ s.reg.history, event ∈ s'.reg.history
  later : ∀ poa oid native a, .mapped poa oid native a ∈ s'.reg.history →
    .mapped poa oid native a ∈ s.reg.history ∨ s.reg.values.fresh ≤ a

variable {orb : Orb} {inst : Instance} {s s' s'' : RegistryState}

theorem Grown.refl (s : RegistryState) : Grown s s :=
  ⟨le_refl _, fun _ h => h, fun _ _ _ _ h => .inl h⟩

theorem Grown.trans (h : Grown s s') (h' : Grown s' s'') : Grown s s'' where
  fresh := h.fresh.trans h'.fresh
  kept event hevent := h'.kept event (h.kept event hevent)
  later poa oid native a hmapped := by
    rcases h'.later poa oid native a hmapped with hold | hnew
    · exact h.later poa oid native a hold
    · exact .inr (h.fresh.trans hnew)

/-- A move that keeps the history. -/
theorem Grown.of_same (hfresh : s.reg.values.fresh ≤ s'.reg.values.fresh)
    (hhistory : s'.reg.history = s.reg.history) : Grown s s' := by
  refine ⟨hfresh, ?_, ?_⟩
  · rw [hhistory]
    exact fun _ h => h
  · rw [hhistory]
    exact fun _ _ _ _ h => .inl h

/-- A move that records a removal. -/
theorem Grown.of_removed {a : Nat} (hfresh : s.reg.values.fresh ≤ s'.reg.values.fresh)
    (hhistory : s'.reg.history = .removed a :: s.reg.history) : Grown s s' := by
  refine ⟨hfresh, ?_, ?_⟩
  · rw [hhistory]
    exact fun event h => List.mem_cons_of_mem _ h
  · intro poa oid native b hmapped
    rw [hhistory] at hmapped
    exact .inl (List.mem_of_ne_of_mem (by simp) hmapped)

theorem Grown.move (hmove : Move orb inst s s') : Grown s s' := by
  cases hmove with
  | issue ht => exact .of_same (le_refl _) rfl
  | alloc v hv => exact .of_same (Nat.le_succ _) rfl
  | @install reg held poa index native t v _ _ _ _ _ _ _ =>
      refine ⟨Nat.le_succ _, fun event h => List.mem_cons_of_mem _ h, ?_⟩
      intro poa' oid' native' b hmapped
      rcases List.mem_cons.mp hmapped with heq | hold
      · cases heq
        exact .inr (le_refl _)
      · exact .inl hold
  | take hslot hv => exact .of_same (le_refl _) rfl
  | unbind ht hindex hslot => exact .of_removed (le_refl _) rfl
  | reap ht hoffset hpage hslot hdecr =>
      obtain ⟨v, content, hv, rfl, -⟩ := Heap.decrRefcount_counts hdecr
      exact .of_removed (le_refl _) rfl
  | drop ha hdecr =>
      obtain ⟨v, content, hv, rfl, -⟩ := Heap.decrRefcount_counts hdecr
      exact .of_same (le_refl _) rfl
  | touch ha hv horig hmapped hcount => exact .of_same (le_refl _) rfl
  | evaluators answers => exact .of_same (le_refl _) rfl

theorem Grown.moves (hsafe : s.Safe) (hmoves : Moves orb inst s s') :
    s'.Safe ∧ Grown s s' := by
  induction hmoves with
  | refl => exact ⟨hsafe, .refl s⟩
  | tail _ hlast ih => exact ⟨ih.1.move hlast, ih.2.trans (.move hlast)⟩

theorem Grown.of_reach {cache : Bool} {guard : RegistryState → RegistryOp → Prop}
    (hsafe : s.Safe) (h : ((registrySystem orb inst cache).restart s).Reach guard s') :
    Grown s s' := by
  have hboth : s'.Safe ∧ Grown s s' := by
    apply h.invariant (I := fun s' => s'.Safe ∧ Grown s s')
    · intro s₁ hs₁
      rw [show s₁ = s from hs₁]
      exact ⟨hsafe, .refl s⟩
    · rintro s₁ op s₂ ⟨hsafe₁, hgrown⟩ _ hstep
      obtain ⟨hsafe₂, hstep⟩ := Grown.moves hsafe₁ (step_moves hsafe₁ hstep)
      exact ⟨hsafe₂, hgrown.trans hstep⟩
  exact hboth.2

end RegistryState

namespace Registry

/-- `map_reference` of a mapped reference gives its own entry in the direction
it was made for and the reverse of the entry in the other one, and no table
changes. -/
structure Retraces (orb : Orb) (inst : Instance) (reg : Registry) (a : Nat) (mapped : ObjRef)
    (outFacing : Bool) : Prop where
  again : ∀ requireSecure, ∃ reg',
    (mapReference orb inst mapped outFacing requireSecure).run reg = (.ok (some a), reg') ∧
      ∀ m, reg'.table m = reg.table m
  back : ∀ requireSecure, ∃ reg' b v v',
    (mapReference orb inst mapped (!outFacing) requireSecure).run reg = (.ok (some b), reg') ∧
      (∀ m, reg'.table m = reg.table m) ∧
      reg.values.cells a = some v ∧ reg'.values.cells b = some v' ∧
      v'.mappedRef = v.origRef ∧ v'.origRef = mapped

/-- The table took the entry, its bounds test still lets the index through,
and the mapper that made the entry is still the first one for the type. -/
def StillFirst (inst : Instance) (reg : Registry) (a : Nat) (native : ObjRef)
    (outFacing : Bool) : Prop :=
  ∃ m index t, .mapped ⟨m, outFacing⟩ (inst.objectId outFacing index) native a ∈ reg.history ∧
    reg.handler native.typeId = some m ∧ reg.table m = some t ∧ index < t.limit

end Registry

section Made

variable {orb : Orb} {inst : Instance} {s₀ : RegistryState} {native : ObjRef}
  {outFacing requireSecure : Bool} {a : Nat} {reg₁ : Registry} {v : ReferenceMapValue}

/-- What `map_reference` of a foreign reference has done when it returns a
value: the value is new, its mapped reference carries the id that the mapper
for the type has just drawn, and the table took it or not. -/
theorem mapReference_handled (hsafe : s₀.Safe) (hcached : s₀.Cached)
    (hforeign : inst.ours native.key = false)
    (hmap : (Registry.mapReference orb inst native outFacing requireSecure).run s₀.reg =
      (.ok (some a), reg₁))
    (hv : reg₁.values.cells a = some v) :
    a = s₀.reg.values.fresh ∧ ∃ m index,
      s₀.reg.handler native.typeId = some m ∧
      orb.createReferenceWithId ⟨m, outFacing⟩ (inst.objectId outFacing index)
        native.typeId = .ok v.mappedRef ∧
      (reg₁.history = s₀.reg.history ∨ reg₁.history =
        .mapped ⟨m, outFacing⟩ (inst.objectId outFacing index) native a :: s₀.reg.history) := by
  rw [Registry.run_mapReference] at hmap
  cases hhandler : s₀.reg.handler native.typeId with
  | none =>
      rw [hhandler] at hmap
      exact absurd (congrArg Prod.fst hmap) (by simp)
  | some m =>
      obtain ⟨t, ht⟩ := hcached m (Registry.handler_lt hhandler)
      have hstatus := (inst.ours_eq_false_iff native.key outFacing 0).mp hforeign
      have hrun := Registry.run_addNativeUnchecked orb inst ht (hsafe.cover m t ht) native
        native.typeId outFacing requireSecure
      simp only [hhandler] at hmap
      rw [Registry.run_addNativeHere_new orb inst 0 (.inr hstatus)] at hmap
      cases href : orb.createReferenceWithId ⟨m, outFacing⟩
          (inst.objectId outFacing t.peekIndex) native.typeId with
      | error e =>
          rw [href] at hrun
          rw [Action.run_bind_raised hrun] at hmap
          exact absurd (congrArg Prod.fst hmap) (by simp)
      | ok ref =>
          rw [href] at hrun
          rw [Action.run_bind_ok hrun] at hmap
          obtain ⟨hvalue, hreg⟩ := Prod.mk.inj hmap
          cases hvalue
          refine ⟨rfl, m, t.peekIndex, rfl, ?_⟩
          rw [← hreg] at hv ⊢
          split at hv
          · next hbind =>
              rw [if_pos hbind]
              have hcell : some (s₀.reg.newValue native ref requireSecure 2) = some v :=
                (Heap.write_cells_self _ _ _).symm.trans hv
              rw [← Option.some.inj hcell]
              exact ⟨href, .inr rfl⟩
          · next hbind =>
              rw [if_neg hbind]
              have hcell : some (s₀.reg.newValue native ref requireSecure 1) = some v :=
                (Heap.write_cells_self _ _ _).symm.trans hv
              rw [← Option.some.inj hcell]
              exact ⟨href, .inl rfl⟩

theorem mapReference_made (hsafe : s₀.Safe) (hcached : s₀.Cached)
    (hforeign : inst.ours native.key = false)
    (hmap : (Registry.mapReference orb inst native outFacing requireSecure).run s₀.reg =
      (.ok (some a), reg₁))
    (hv : reg₁.values.cells a = some v) :
    a = s₀.reg.values.fresh ∧ ∃ m index,
      orb.createReferenceWithId ⟨m, outFacing⟩ (inst.objectId outFacing index)
        native.typeId = .ok v.mappedRef ∧
      (reg₁.history = s₀.reg.history ∨ reg₁.history =
        .mapped ⟨m, outFacing⟩ (inst.objectId outFacing index) native a :: s₀.reg.history) := by
  obtain ⟨ha, m, index, -, hmade⟩ := mapReference_handled hsafe hcached hforeign hmap hv
  exact ⟨ha, m, index, hmade⟩

/-- Looking up a mapped reference again: it goes to the mapper that handles
the type now, with the index its id carries. -/
theorem mapped_status (horb : orb.Lawful) {m : Nat} {index : UInt32}
    (href : orb.createReferenceWithId ⟨m, outFacing⟩ (inst.objectId outFacing index)
      native.typeId = .ok v.mappedRef) (facing : Bool) :
    v.mappedRef.typeId = native.typeId ∧
      inst.alreadyMapped v.mappedRef.key facing 0 =
        (if facing = outFacing then .alreadyMapped else .reverseMapped, index) := by
  refine ⟨horb.create_type _ _ _ _ href, ?_⟩
  obtain ⟨before, hkey⟩ := horb.create_key _ _ _ _ href
  have htail : keyTail (before ++ inst.objectId outFacing index) =
      inst.objectId outFacing index :=
    keyTail_append before (inst.objectId_length outFacing index)
  have howns : inst.owns (keyTail (before ++ inst.objectId outFacing index)) = true := by
    rw [htail]
    exact inst.owns_objectId outFacing index
  have hlong : 16 ≤ (before ++ inst.objectId outFacing index).length := by
    rw [List.length_append, inst.objectId_length]
    omega
  obtain ⟨index', hread, hstatus⟩ := alreadyMapped_owned facing hkey hlong howns
  rw [htail, inst.readIndex_objectId] at hread
  obtain rfl := Option.some.inj hread
  rw [hstatus, htail, inst.getElem_objectId]
  congr 1
  by_cases hfacing : facing = outFacing
  · rw [if_pos hfacing, if_pos (by rw [hfacing])]
  · rw [if_neg hfacing, if_neg]
    intro hletter
    exact hfacing (inOut_injective (Option.some.inj hletter)).symm

section Later

variable {s : RegistryState} {m : Nat} {index : UInt32}

/-- The mapping of a value that `map_reference` made is recorded once, by the
call that made it. -/
theorem mapping_once {poa : Poa} {oid : ObjectId} {native' : ObjRef}
    (htraced : RegistryState.Traced orb inst s₀) (ha : a = s₀.reg.values.fresh)
    (hlt : a < reg₁.values.fresh)
    (hhistory : reg₁.history = s₀.reg.history ∨ reg₁.history =
      .mapped ⟨m, outFacing⟩ (inst.objectId outFacing index) native a :: s₀.reg.history)
    (hgrown : RegistryState.Grown ⟨reg₁, a :: s₀.held⟩ s)
    (hmapped : .mapped poa oid native' a ∈ s.reg.history) :
    poa = ⟨m, outFacing⟩ ∧ oid = inst.objectId outFacing index ∧ native' = native := by
  have hbefore : .mapped poa oid native' a ∉ s₀.reg.history := by
    intro hold
    have hpast := htraced.past poa oid native' a (.inl hold)
    omega
  rcases hgrown.later poa oid native' a hmapped with hmade | hnew
  · dsimp only at hmade
    rcases hhistory with hsame | hlogged
    · rw [hsame] at hmade
      exact absurd hmade hbefore
    · rw [hlogged] at hmade
      rcases List.mem_cons.mp hmade with heq | hold
      · cases heq
        exact ⟨rfl, rfl, rfl⟩
      · exact absurd hold hbefore
  · dsimp only at hnew
    omega

/-- Where the entry sits behind the mapper that handles its type, mapping the
mapped reference again finds it, and the other direction reverses it. -/
theorem retraces_of_slot (horb : orb.Lawful) (hsafe : s.Safe) {t : RMVByMapped Nat}
    {w : ReferenceMapValue}
    (href : orb.createReferenceWithId ⟨m, outFacing⟩ (inst.objectId outFacing index)
      native.typeId = .ok v.mappedRef)
    (hhandler : s.reg.handler native.typeId = some m) (ht : s.reg.table m = some t)
    (hlookup : Registry.lookup t index = some a)
    (hw : s.reg.values.cells a = some w) (hmappedRef : w.mappedRef = v.mappedRef) :
    s.reg.Retraces orb inst a v.mappedRef outFacing := by
  have hcover := hsafe.cover m t ht
  constructor
  · intro requireSecure
    obtain ⟨htype, hstatus⟩ := mapped_status horb href outFacing
    rw [if_pos rfl] at hstatus
    have hrun := Registry.run_mapReference orb inst s.reg v.mappedRef outFacing requireSecure
    rw [htype, hhandler] at hrun
    simp only at hrun
    rw [Registry.run_addNativeHere_already orb inst ht hstatus,
      Registry.run_find_hit ht hcover hlookup hw] at hrun
    exact ⟨_, hrun, fun _ => rfl⟩
  · intro requireSecure
    obtain ⟨htype, hstatus⟩ := mapped_status horb href (!outFacing)
    rw [if_neg (Bool.not_ne_self outFacing)] at hstatus
    have hrun := Registry.run_mapReference orb inst s.reg v.mappedRef (!outFacing)
      requireSecure
    rw [htype, hhandler] at hrun
    simp only at hrun
    rw [Registry.run_addNativeHere_reverse_hit orb inst ht hcover hstatus hlookup hw
      (hsafe.counted a w hw).2 (RegistryState.lt_fresh hsafe.fresh hw).ne] at hrun
    exact ⟨_, _, w, w.reverse, hrun, fun _ => rfl, hw, Heap.write_cells_self _ _ _, rfl,
      hmappedRef⟩

/-- Where mapping the mapped reference again gives the entry, it sits in the
slot of its index behind the mapper that handles its type. -/
theorem slot_of_again (horb : orb.Lawful) (hsafe : s.Safe) (hcached : s.Cached)
    (href : orb.createReferenceWithId ⟨m, outFacing⟩ (inst.objectId outFacing index)
      native.typeId = .ok v.mappedRef)
    {reg' : Registry} (hagain : (Registry.mapReference orb inst v.mappedRef outFacing
      requireSecure).run s.reg = (.ok (some a), reg')) :
    ∃ m' t, s.reg.handler native.typeId = some m' ∧ s.reg.table m' = some t ∧
      Registry.lookup t index = some a := by
  obtain ⟨htype, hstatus⟩ := mapped_status horb href outFacing
  rw [if_pos rfl] at hstatus
  rw [Registry.run_mapReference, htype] at hagain
  cases hhandler : s.reg.handler native.typeId with
  | none =>
      rw [hhandler] at hagain
      cases (Prod.mk.inj hagain).1
  | some m' =>
      obtain ⟨t, ht⟩ := hcached m' (Registry.handler_lt hhandler)
      refine ⟨m', t, rfl, ht, ?_⟩
      have hcover := hsafe.cover m' t ht
      simp only [hhandler] at hagain
      rw [← htype, Registry.run_addNativeHere_already orb inst ht hstatus] at hagain
      cases hlookup : Registry.lookup t index with
      | none =>
          rw [Registry.run_find_miss ht hcover hlookup] at hagain
          cases (Prod.mk.inj hagain).1
      | some b =>
          obtain ⟨w, hw, -⟩ := Registry.lookup_cell hsafe ht hlookup
          rw [Registry.run_find_hit ht hcover hlookup hw] at hagain
          cases (Prod.mk.inj hagain).1
          rfl

end Later

end Made

/-- In every run with the cache on, as long as the entry that `map_reference`
made for a foreign reference has not been removed: its mapped reference is
mapped back to it, and reversed, exactly when the table took the entry and the
mapper that made it is still the first one with an evaluator for the type. -/
theorem retraces_iff_still_first (orb : Orb) (horb : orb.Lawful) (inst : Instance)
    (s₀ : RegistryState) (hreach : (registrySystem orb inst true).Reachable s₀)
    (native : ObjRef) (hforeign : inst.ours native.key = false)
    (outFacing requireSecure : Bool) (a : Nat) (reg₁ : Registry) (v : ReferenceMapValue)
    (hmap : (Registry.mapReference orb inst native outFacing requireSecure).run s₀.reg =
      (.ok (some a), reg₁))
    (hv : reg₁.values.cells a = some v) (s : RegistryState)
    (hrun : ((registrySystem orb inst true).restart ⟨reg₁, a :: s₀.held⟩).Reachable s)
    (hkept : .removed a ∉ s.reg.history) :
    s.reg.Retraces orb inst a v.mappedRef outFacing ↔
      s.reg.StillFirst inst a native outFacing := by
  obtain ⟨hsafe₀, htraced₀⟩ := RegistryState.sound_of_reach hreach
  obtain ⟨ha, m, index, href, hhistory⟩ := mapReference_made hsafe₀
    (RegistryState.cached_of_reach hreach) hforeign hmap hv
  have hstep : (registrySystem orb inst true).step s₀
      (.mapReference native outFacing requireSecure) = some ⟨reg₁, a :: s₀.held⟩ := by
    change s₀.afterCall _ = _
    rw [hmap]
    rfl
  have hmade : (registrySystem orb inst true).Reachable ⟨reg₁, a :: s₀.held⟩ :=
    .next hreach trivial hstep
  have hsafe₁ := (RegistryState.sound_of_reach hmade).1
  have hlater := hmade.trans hrun
  obtain ⟨hsafe, htraced⟩ := RegistryState.sound_of_reach hlater
  have hgrown := RegistryState.Grown.of_reach hsafe₁ hrun
  have honce : ∀ poa oid native', .mapped poa oid native' a ∈ s.reg.history →
      poa = ⟨m, outFacing⟩ ∧ oid = inst.objectId outFacing index ∧ native' = native :=
    fun poa oid native' hmapped => mapping_once htraced₀ ha
      (RegistryState.lt_fresh hsafe₁.fresh hv) hhistory hgrown hmapped
  constructor
  · intro hretraces
    obtain ⟨reg', hagain, -⟩ := hretraces.again requireSecure
    obtain ⟨m', t, hhandler, ht, hlookup⟩ := slot_of_again horb hsafe
      (RegistryState.cached_of_reach hlater) href hagain
    obtain ⟨hlimit, hslot⟩ := Registry.lookup_eq_some.mp hlookup
    obtain ⟨facing, index', native', w, hindex, hmapped, -⟩ :=
      htraced.made m' index.toNat a ((Registry.slotOf_eq ht _).trans hslot)
    obtain ⟨hpoa, hoid, rfl⟩ := honce _ _ _ hmapped
    obtain ⟨rfl, rfl⟩ := Poa.mk.inj hpoa
    rw [hoid] at hmapped
    exact ⟨m', index, t, hmapped, hhandler, ht, hlimit⟩
  · rintro ⟨m', index', t, hmapped, hhandler, ht, hlimit⟩
    obtain ⟨hpoa, hoid, -⟩ := honce _ _ _ hmapped
    obtain ⟨rfl, -⟩ := Poa.mk.inj hpoa
    obtain ⟨-, rfl⟩ := inst.objectId_injective hoid
    obtain ⟨index'', hoid, hslot⟩ := htraced.live _ _ _ _ hmapped hkept
    obtain ⟨-, rfl⟩ := inst.objectId_injective hoid
    obtain ⟨facing, index'', native', w, hindex, hmapped', -, hw, -, hcreate⟩ :=
      htraced.made _ _ _ hslot
    obtain ⟨hpoa, hoid, rfl⟩ := honce _ _ _ hmapped'
    obtain ⟨-, rfl⟩ := Poa.mk.inj hpoa
    rw [hoid, href] at hcreate
    rw [Registry.slotOf_eq ht] at hslot
    exact retraces_of_slot horb hsafe href hhandler ht
      (Registry.lookup_eq_some.mpr ⟨hlimit, hslot⟩) hw (Except.ok.inj hcreate).symm

/-- The registry of a chain of mappers once the sample native was mapped. -/
def sampleMade (answers : List (String → Bool)) : Registry :=
  ((Registry.mapReference Orb.plain ⟨7, 42⟩ sampleNative true false).run
    (RegistryState.initial true false answers).reg).2

/-- The first value made, with the id of index 0 of the mapper at `m`. -/
def sampleValue (m : Nat) : ReferenceMapValue where
  origRef := sampleNative
  mappedRef := ⟨"IDL:Test/Hello:1.0", some (Poa.name ⟨m, true⟩ ++
    Instance.objectId ⟨7, 42⟩ true 0), "IOR:lorica", false, false⟩
  iorTableName := ""
  requireSecure := false
  agent := none
  refCount := 2

theorem retraces_just_mapped :
    (sampleMade [fun _ => true]).Retraces Orb.plain ⟨7, 42⟩ 0 (sampleValue 0).mappedRef
      true := by
  apply (retraces_iff_still_first Orb.plain Orb.plain_lawful ⟨7, 42⟩
    (RegistryState.initial true false [fun _ => true]) (.start ⟨_, _, rfl⟩) sampleNative
    (by decide) true false 0 (sampleMade [fun _ => true]) (sampleValue 0)
    (Prod.ext (by decide) rfl) (by decide) _ (.start rfl) (by decide)).mpr
  exact ⟨0, 0, (RMVByMapped.new 1024).nextIndex.2.storeAt 0 (some 0), by decide, by decide,
    rfl, by decide⟩

/-- The interface repository learns of the type after the second mapper took
the reference: the first one handles it now and its table is empty. -/
theorem not_retraces_evaluator_appears :
    ¬ ∀ (orb : Orb) (inst : Instance) (s₀ : RegistryState) (native : ObjRef)
      (outFacing requireSecure : Bool) (a : Nat) (reg₁ : Registry) (v : ReferenceMapValue)
      (s : RegistryState), orb.Lawful → (registrySystem orb inst true).Reachable s₀ →
      inst.ours native.key = false →
      (Registry.mapReference orb inst native outFacing requireSecure).run s₀.reg =
        (.ok (some a), reg₁) →
      reg₁.values.cells a = some v →
      ((registrySystem orb inst true).restart ⟨reg₁, a :: s₀.held⟩).Reachable s →
      .removed a ∉ s.reg.history → s.reg.Retraces orb inst a v.mappedRef outFacing := by
  intro hall
  have hlearns : ((registrySystem Orb.plain ⟨7, 42⟩ true).restart
      ⟨sampleMade [fun _ => false, fun _ => true], [0]⟩).step
        ⟨sampleMade [fun _ => false, fun _ => true], [0]⟩ (.evaluators fun _ _ => true) =
      some ⟨(sampleMade [fun _ => false, fun _ => true]).withEvaluators fun _ _ => true, [0]⟩ :=
    rfl
  have hretraces := hall Orb.plain ⟨7, 42⟩
    (RegistryState.initial true false [fun _ => false, fun _ => true]) sampleNative true
    false 0 (sampleMade [fun _ => false, fun _ => true]) (sampleValue 1)
    ⟨(sampleMade [fun _ => false, fun _ => true]).withEvaluators fun _ _ => true, [0]⟩
    Orb.plain_lawful (.start ⟨_, _, rfl⟩) (by decide) (Prod.ext (by decide) rfl) (by decide)
    (.next (.start rfl) trivial hlearns) (by decide)
  obtain ⟨reg', hagain, -⟩ := hretraces.again false
  have hmissed : ((Registry.mapReference Orb.plain ⟨7, 42⟩ (sampleValue 1).mappedRef true
      false).run ((sampleMade [fun _ => false, fun _ => true]).withEvaluators
        fun _ _ => true)).1 = .ok none := by decide
  rw [hagain] at hmissed
  cases hmissed

end Lorica
