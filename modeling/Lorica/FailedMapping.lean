import Lorica.Resolution

/-!
What a failed `add_native_unchecked` leaves behind. The index is taken from the
table before the POA is asked for a reference, and only `unbind` and the
collector put an index on the free stack; a raise of the POA in between leaves
the index in neither place. The invariant of every run is that an index on the
free stack is there once and has an empty slot, so that what is popped is gone.
-/

namespace Lorica

open Machine

namespace RMVByMapped

variable {V : Type} {t : RMVByMapped V}

/-- `next_index` can still give out the index: it was given back, or it was
never issued. -/
def Available (t : RMVByMapped V) (index : UInt32) : Prop :=
  index ∈ t.freeStack ∨ t.highIndex ≤ index

/-- The free stack against the slots. -/
structure Apart (t : RMVByMapped V) : Prop where
  nodup : t.freeStack.Nodup
  empty : ∀ index ∈ t.freeStack, t.slot index.toNat = none
  small : ∀ i, (t.slot i).isSome → i < 2 ^ 32

theorem Apart.new (pageSize : UInt32) : (RMVByMapped.new pageSize : RMVByMapped V).Apart := by
  refine ⟨List.nodup_nil, ?_, ?_⟩
  · intro index hindex
    cases hindex
  · intro i hfull
    rw [new_slot] at hfull
    cases hfull

@[simp] theorem nextIndex_freeStack : t.nextIndex.2.freeStack = t.freeStack.tail := by
  unfold nextIndex
  cases t.freeStack <;> dsimp only <;> split <;> rfl

theorem nextIndex_highIndex :
    t.nextIndex.2.highIndex = if t.freeStack = [] then t.highIndex + 1 else t.highIndex := by
  unfold nextIndex
  cases t.freeStack <;> dsimp only <;> split <;> simp

theorem Apart.nextIndex (h : t.Apart) : t.nextIndex.2.Apart := by
  refine ⟨?_, ?_, ?_⟩
  · rw [nextIndex_freeStack]
    exact h.nodup.tail
  · intro index hindex
    rw [nextIndex_freeStack] at hindex
    rw [nextIndex_slot]
    exact h.empty index (List.mem_of_mem_tail hindex)
  · rw [nextIndex_slot]
    exact h.small

/-- What was popped is not below on the stack, and nothing is below on an empty
one. -/
theorem Apart.peekIndex_notMem (h : t.Apart) : t.peekIndex ∉ t.freeStack.tail := by
  unfold peekIndex
  cases hfree : t.freeStack with
  | nil => exact List.not_mem_nil
  | cons index rest =>
      have hnodup := h.nodup
      rw [hfree] at hnodup
      exact (List.nodup_cons.mp hnodup).1

theorem Apart.bind (h : t.Apart) (hcover : t.PagesCover) {index : UInt32}
    (hindex : index < t.limit) (hout : index ∉ t.freeStack) (value : V) :
    (t.storeAt index (some value)).Apart := by
  have hslot := storeAt_slot hcover hindex (some value)
  refine ⟨h.nodup, ?_, ?_⟩
  · intro other hother
    have hne : other.toNat ≠ index.toNat := by
      intro heq
      obtain rfl := UInt32.toNat_inj.mp heq
      exact hout hother
    rw [hslot, Function.update_of_ne hne]
    exact h.empty other hother
  · intro i hfull
    rw [hslot] at hfull
    by_cases hi : i = index.toNat
    · rw [hi]
      exact index.toNat_lt
    · rw [Function.update_of_ne hi] at hfull
      exact h.small i hfull

/-- A slot is emptied and its index put on the stack. -/
theorem Apart.release (h : t.Apart) {t' : RMVByMapped V} {index : UInt32}
    (hfull : (t.slot index.toNat).isSome) (hfree : t'.freeStack = index :: t.freeStack)
    (hslot : t'.slot = Function.update t.slot index.toNat none) : t'.Apart := by
  refine ⟨?_, ?_, ?_⟩
  · rw [hfree]
    refine List.nodup_cons.mpr ⟨?_, h.nodup⟩
    intro hmem
    rw [h.empty index hmem] at hfull
    cases hfull
  · intro other hother
    rw [hslot]
    by_cases hother' : other.toNat = index.toNat
    · rw [hother', Function.update_self]
    · rw [Function.update_of_ne hother']
      rw [hfree] at hother
      rcases List.mem_cons.mp hother with rfl | hmem
      · exact absurd rfl hother'
      · exact h.empty other hmem
  · intro i hi
    rw [hslot] at hi
    by_cases hi' : i = index.toNat
    · rw [hi', Function.update_self] at hi
      cases hi
    · rw [Function.update_of_ne hi'] at hi
      exact h.small i hi

theorem Apart.unbind (h : t.Apart) (hcover : t.PagesCover) {index : UInt32}
    (hindex : index < t.limit) (hfull : (t.slot index.toNat).isSome) :
    Apart { t.storeAt index none with freeStack := index :: t.freeStack } :=
  h.release hfull rfl (storeAt_slot hcover hindex none)

/-- The running page offset of the collector is the index of the slot. -/
theorem Apart.reap (h : t.Apart) {page offset : Nat} (hoffset : offset < t.pageSize.toNat)
    (hpage : page < t.pages.length)
    (hfull : (t.slot (page * t.pageSize.toNat + offset)).isSome) : (t.reap page offset).Apart := by
  have hsmall := h.small _ hfull
  have hindex : (UInt32.ofNat (page * t.pageSize.toNat + offset)).toNat =
      page * t.pageSize.toNat + offset := UInt32.toNat_ofNat_of_lt' hsmall
  have hfull' : (t.slot (UInt32.ofNat (page * t.pageSize.toNat + offset)).toNat).isSome := by
    rw [hindex]
    exact hfull
  apply h.release hfull' rfl
  rw [hindex]
  exact reap_slot t page offset hoffset hpage

/-- An index that was taken is not available any more, unless it is not below
`high_index_`. -/
theorem Apart.available_nextIndex (h : t.Apart) :
    (∀ index, t.nextIndex.2.Available index ↔ t.Available index) ↔
      t.freeStack ≠ [] ∧ t.highIndex ≤ t.peekIndex := by
  have hgone := h.peekIndex_notMem
  unfold Available
  rw [nextIndex_freeStack, nextIndex_highIndex]
  cases hfree : t.freeStack with
  | nil =>
      simp only [List.tail_nil, List.not_mem_nil, false_or, if_true, ne_eq, not_true_eq_false,
        false_and, iff_false]
      intro hsame
      -- the mark moves on, or it wraps around to 0
      have hmark := (hsame t.highIndex).mpr (UInt32.le_refl _)
      have hzero := (hsame 0).mp
      have hlt := t.highIndex.toNat_lt
      simp only [UInt32.le_iff_toNat_le, UInt32.toNat_add, UInt32.toNat_one,
        UInt32.toNat_zero] at hmark hzero
      omega
  | cons index rest =>
      have hpeek := t.peekIndex_cons hfree
      rw [hfree, hpeek] at hgone
      rw [hpeek]
      simp only [List.tail_cons, reduceCtorEq, if_false, ne_eq, not_false_eq_true, true_and]
      constructor
      · intro hsame
        exact ((hsame index).mpr (.inl List.mem_cons_self)).resolve_left hgone
      · intro hhigh other
        constructor
        · rintro (hmem | hother)
          · exact .inl (List.mem_cons_of_mem _ hmem)
          · exact .inr hother
        · rintro (hmem | hother)
          · rcases List.mem_cons.mp hmem with rfl | hmem
            · exact .inr hhigh
            · exact .inl hmem
          · exact .inr hother

end RMVByMapped

namespace Registry

/-! ## What holds of every table -/

section Tables

/-- Every table of the registry has the property. -/
def AllTables (P : RMVByMapped Nat → Prop) (reg : Registry) : Prop :=
  ∀ m t, reg.table m = some t → P t

variable {P : RMVByMapped Nat → Prop} {reg : Registry} {held : List Nat} {m : Nat}
  {t t' : RMVByMapped Nat}

theorem AllTables.setTable (h : reg.AllTables P) (ht : reg.table m = some t) (ht' : P t') :
    (reg.setTable m t').AllTables P := by
  intro k u hu
  rw [table_setTable ht] at hu
  split at hu
  · exact Option.some.inj hu ▸ ht'
  · exact h k u hu

variable (orb : Orb) (inst : Instance) (native : ObjRef) (typeId : String)
  (outFacing requireSecure : Bool)

/-- An index is drawn from one table and perhaps bound. -/
theorem addNativeUnchecked_tables (hcover : reg.AllTables RMVByMapped.PagesCover)
    (h : reg.AllTables P)
    (hmade : ∀ t, reg.table m = some t → P t.nextIndex.2 ∧
      (t.peekIndex < t.nextIndex.2.limit →
        P (t.nextIndex.2.storeAt t.peekIndex (some reg.values.fresh)))) :
    ((addNativeUnchecked orb inst m native typeId outFacing requireSecure).run
      reg).2.AllTables P := by
  cases ht : reg.table m with
  | none =>
      rw [run_addNativeUnchecked_uncached orb inst ht]
      split
      · exact h
      · exact h
  | some t =>
      obtain ⟨hnext, hbind⟩ := hmade t ht
      have hissued : (reg.setTable m t.nextIndex.2).AllTables P := h.setTable ht hnext
      rw [run_addNativeUnchecked orb inst ht (hcover m t ht)]
      split
      · exact hissued
      · split
        · next hroom =>
            have ht' : (reg.setTable m t.nextIndex.2).table m = some t.nextIndex.2 := by
              rw [table_setTable ht, if_pos rfl]
            have hbound := hissued.setTable ht' (hbind hroom.1)
            exact hbound
        · exact hissued

/-- Only a native that is taken for unmapped has an index drawn. -/
theorem mapReference_tables (hsafe : RegistryState.Safe ⟨reg, held⟩) (h : reg.AllTables P)
    (hmade : ∀ m t, reg.handler native.typeId = some m → reg.table m = some t →
      (inst.alreadyMapped native.key outFacing 0).1 = .notMapped → P t.nextIndex.2 ∧
        (t.peekIndex < t.nextIndex.2.limit →
          P (t.nextIndex.2.storeAt t.peekIndex (some reg.values.fresh)))) :
    ((mapReference orb inst native outFacing requireSecure).run reg).2.AllTables P := by
  rw [run_mapReference]
  cases hhandler : reg.handler native.typeId with
  | none => exact h
  | some m =>
      have hmapping := addNativeHere_mapping orb inst hsafe m native native.typeId outFacing
        requireSecure
      dsimp only
      generalize (addNativeHere orb inst m native native.typeId outFacing requireSecure).run reg =
        result at hmapping
      cases hmapping with
      | missed _ _ _ => exact h
      | found _ _ _ _ => exact h
      | dangling _ _ _ => exact h
      | reversed _ _ _ _ => exact h
      | made hnew =>
          have hunchecked := addNativeUnchecked_tables orb inst native native.typeId outFacing
            requireSecure hsafe.cover h fun t ht => hmade m t hhandler ht (by
              rw [hnew.resolve_left (by simp [ht])])
          rw [Action.run_bind]
          cases hrun : (addNativeUnchecked orb inst m native native.typeId outFacing
              requireSecure).run reg with
          | mk outcome reg' =>
              rw [hrun] at hunchecked
              cases outcome <;> exact hunchecked

theorem removeReference_tables (hcover : reg.AllTables RMVByMapped.PagesCover)
    (h : reg.AllTables P) (mapped : ObjRef)
    (hunbound : ∀ m t (index : UInt32), reg.table m = some t → index < t.limit →
      (t.slot index.toNat).isSome →
        P { t.storeAt index none with freeStack := index :: t.freeStack }) :
    ((removeReference orb mapped outFacing).run reg).2.AllTables P := by
  have hremoval := removeReference_removal orb hcover mapped outFacing
  generalize (removeReference orb mapped outFacing).run reg = result at hremoval
  cases hremoval with
  | unhandled _ => exact h
  | uncached _ _ => exact h
  | raised _ _ => exact h
  | short _ _ _ => exact h
  | missed _ _ _ _ _ => exact h
  | @took m a t oid index _ ht _ _ hlookup =>
      obtain ⟨hindex, hslot⟩ := lookup_eq_some.mp hlookup
      have hfull : (t.slot index.toNat).isSome := by
        rw [hslot]
        rfl
      have hcleared := h.setTable ht (hunbound m t index ht hindex hfull)
      exact hcleared

end Tables

/-- Every table keeps its free stack apart from its slots. -/
def Apart (reg : Registry) : Prop :=
  ∀ m t, reg.table m = some t → t.Apart

/-- The indices that the table of a mapper can still give out. -/
def available (reg : Registry) (m : Nat) : Set UInt32 :=
  {index | ∃ t, reg.table m = some t ∧ t.Available index}

/-- A call that raises leaves the indices that can still be given out, and all
the slots, as they were. -/
def FailsCleanly (orb : Orb) (inst : Instance) (reg : Registry) (m : Nat) (native : ObjRef)
    (typeId : String) (outFacing requireSecure : Bool) : Prop :=
  ∀ e reg', (addNativeUnchecked orb inst m native typeId outFacing requireSecure).run reg =
      (.raised e, reg') →
    (∀ k, reg'.available k = reg.available k) ∧ ∀ k i, reg'.slotOf k i = reg.slotOf k i

/-- The mapper has no table; or the POA makes the reference; or the index that
is popped is not below `high_index_`, which must have wrapped around. -/
def KeepsIndex (orb : Orb) (inst : Instance) (reg : Registry) (m : Nat) (typeId : String)
    (outFacing : Bool) : Prop :=
  ∀ t, reg.table m = some t →
    (∃ ref, orb.createReferenceWithId ⟨m, outFacing⟩ (inst.objectId outFacing t.peekIndex)
      typeId = .ok ref) ∨ (t.freeStack ≠ [] ∧ t.highIndex ≤ t.peekIndex)

section Keeping

variable {reg : Registry} {held : List Nat}

variable (orb : Orb) (inst : Instance) (native : ObjRef) (outFacing requireSecure : Bool)

theorem mapReference_apart (hsafe : RegistryState.Safe ⟨reg, held⟩) (h : reg.Apart) :
    ((mapReference orb inst native outFacing requireSecure).run reg).2.Apart := by
  apply mapReference_tables orb inst native outFacing requireSecure hsafe h
  intro m t _ ht _
  refine ⟨(h m t ht).nextIndex, fun hroom => ?_⟩
  have hout : t.peekIndex ∉ t.nextIndex.2.freeStack := by
    rw [RMVByMapped.nextIndex_freeStack]
    exact (h m t ht).peekIndex_notMem
  exact (h m t ht).nextIndex.bind (hsafe.cover m t ht).nextIndex hroom hout reg.values.fresh

theorem removeReference_apart (hcover : ∀ m t, reg.table m = some t → t.PagesCover)
    (h : reg.Apart) (mapped : ObjRef) :
    ((removeReference orb mapped outFacing).run reg).2.Apart := by
  apply removeReference_tables orb outFacing hcover h mapped
  intro m t index ht hindex hfull
  exact (h m t ht).unbind (hcover m t ht) hindex hfull

end Keeping

end Registry

namespace RegistryState

variable {orb : Orb} {inst : Instance} {s s' : RegistryState}

theorem afterCall_apart {result : Outcome Exn (Option Nat) × Registry} (h : result.2.Apart)
    (hcall : s.afterCall result = some s') : s'.reg.Apart := by
  obtain ⟨outcome, reg⟩ := result
  cases outcome with
  | ok r => exact Option.some.inj hcall ▸ h
  | raised e => exact Option.some.inj hcall ▸ h
  | fault cause => cases hcall

/-- Every step keeps the free stacks apart from the slots. -/
theorem step_apart (hsafe : s.Safe) (h : s.reg.Apart) {op : RegistryOp}
    (hstep : s.step orb inst op = some s') : s'.reg.Apart := by
  cases op with
  | mapReference native outFacing requireSecure =>
      exact afterCall_apart (Registry.mapReference_apart orb inst native outFacing
        requireSecure hsafe h) hstep
  | removeReference mapped outFacing =>
      exact afterCall_apart (Registry.removeReference_apart orb outFacing hsafe.cover h mapped)
        hstep
  | reap m page offset =>
      simp only [step] at hstep
      cases ht : s.reg.table m with
      | none =>
          rw [ht] at hstep
          cases hstep
      | some t =>
          rw [ht] at hstep
          obtain ⟨⟨hoffset, hpage⟩, hstep⟩ := Option.ite_none_right_eq_some.mp hstep
          cases hslot : t.slot (page * t.pageSize.toNat + offset) with
          | none =>
              rw [Registry.run_reap_empty ht hslot] at hstep
              exact Option.some.inj hstep ▸ h
          | some a =>
              obtain ⟨v, hv⟩ := hsafe.bound_cell ⟨m, _, (Registry.slotOf_eq ht _).trans hslot⟩
              obtain ⟨values, hdecr⟩ := hsafe.decr_ok hv
              rw [Registry.run_reap ht hslot hdecr] at hstep
              have hfull : (t.slot (page * t.pageSize.toNat + offset)).isSome := by
                rw [hslot]
                rfl
              have hreaped := Registry.AllTables.setTable h ht ((h m t ht).reap hoffset hpage hfull)
              exact Option.some.inj hstep ▸ hreaped
  | release a =>
      simp only [step] at hstep
      obtain ⟨ha, hstep⟩ := Option.ite_none_right_eq_some.mp hstep
      obtain ⟨v, hv⟩ := hsafe.held_cell ha
      obtain ⟨values, hdecr⟩ := hsafe.decr_ok hv
      rw [Registry.run_decrRefcount hdecr] at hstep
      exact Option.some.inj hstep ▸ h
  | evaluators answers =>
      obtain rfl := Option.some.inj hstep
      intro m t ht
      rw [Registry.withEvaluators_table] at ht
      exact h m t ht

/-- In every run a popped index is nowhere else on its stack. -/
theorem apart_of_reach {cache : Bool} {guard : RegistryState → RegistryOp → Prop}
    (hreach : (registrySystem orb inst cache).Reach guard s) : s.Safe ∧ s.reg.Apart := by
  apply hreach.invariant (I := fun s => s.Safe ∧ s.reg.Apart)
  · rintro s ⟨hasSecurity, answers, rfl⟩
    refine ⟨initial_safe cache hasSecurity answers, ?_⟩
    intro m t ht
    rw [initial_table] at ht
    split at ht
    · exact Option.some.inj ht ▸ RMVByMapped.Apart.new 1024
    · cases ht
  · rintro s op s' ⟨hsafe, hapart⟩ _ hstep
    exact ⟨hsafe.moves (step_moves hsafe hstep), step_apart hsafe hapart hstep⟩

end RegistryState

namespace Registry

variable {reg : Registry} {m : Nat} {t t' : RMVByMapped Nat}

theorem available_setTable (ht : reg.table m = some t) :
    (∀ k, (reg.setTable m t').available k = reg.available k) ↔
      ∀ index, t'.Available index ↔ t.Available index := by
  have hhere : (reg.setTable m t').available m = {index | t'.Available index} := by
    unfold available
    rw [table_setTable ht, if_pos rfl]
    simp
  have hbefore : reg.available m = {index | t.Available index} := by
    unfold available
    rw [ht]
    simp
  constructor
  · intro hsame index
    have hm := hsame m
    rw [hhere, hbefore] at hm
    exact Set.ext_iff.mp hm index
  · intro hsame k
    by_cases hk : k = m
    · rw [hk, hhere, hbefore]
      exact Set.ext hsame
    · unfold available
      rw [table_setTable ht, if_neg hk]

/-- In every reachable state a mapping fails without a trace exactly when the
mapper has no table or the POA makes the reference; the one exception needs a
`high_index_` that has wrapped around. -/
theorem failsCleanly_iff_keepsIndex (orb : Orb) (inst : Instance) (cacheProxyReferences : Bool)
    (s : RegistryState) (hreach : (registrySystem orb inst cacheProxyReferences).Reachable s)
    (m : Nat) (native : ObjRef) (typeId : String) (outFacing requireSecure : Bool) :
    FailsCleanly orb inst s.reg m native typeId outFacing requireSecure ↔
      KeepsIndex orb inst s.reg m typeId outFacing := by
  obtain ⟨hsafe, hapart⟩ := RegistryState.apart_of_reach hreach
  unfold FailsCleanly KeepsIndex
  cases ht : s.reg.table m with
  | none =>
      refine ⟨fun _ => nofun, fun _ e reg' hrun => ?_⟩
      rw [run_addNativeUnchecked_uncached orb inst ht] at hrun
      split at hrun
      · obtain rfl := (Prod.mk.inj hrun).2
        exact ⟨fun _ => rfl, fun _ _ => rfl⟩
      · cases hrun
  | some t =>
      have hspec := run_addNativeUnchecked orb inst ht (hsafe.cover m t ht) native typeId
        outFacing requireSecure
      cases hcreate : orb.createReferenceWithId ⟨m, outFacing⟩
          (inst.objectId outFacing t.peekIndex) typeId with
      | ok ref =>
          rw [hcreate] at hspec
          constructor
          · rintro - u hu
            obtain rfl := Option.some.inj hu
            exact .inl ⟨ref, hcreate⟩
          · intro _ e reg' hrun
            rw [hspec] at hrun
            cases hrun
      | error e =>
          rw [hcreate] at hspec
          have havailable : (∀ k, (s.reg.setTable m t.nextIndex.2).available k =
              s.reg.available k) ↔ t.freeStack ≠ [] ∧ t.highIndex ≤ t.peekIndex :=
            (available_setTable ht).trans (hapart m t ht).available_nextIndex
          constructor
          · intro hclean u hu
            obtain rfl := Option.some.inj hu
            exact .inr (havailable.mp (hclean e _ hspec).1)
          · intro hkeeps e' reg' hrun
            rw [hspec] at hrun
            obtain rfl := (Prod.mk.inj hrun).2
            rcases hkeeps t rfl with ⟨ref, hok⟩ | hwrapped
            · rw [hcreate] at hok
              cases hok
            · refine ⟨havailable.mpr hwrapped, fun k i => ?_⟩
              rw [slotOf_setTable ht, RMVByMapped.nextIndex_slot]
              split
              · next hk => rw [hk, slotOf_eq ht]
              · rfl

end Registry

/-- The plain ORB with POAs that make no reference of one type. -/
def Orb.refusing (refused : String) : Orb :=
  { Orb.plain with createReferenceWithId := fun poa oid typeId =>
      if typeId = refused then .error (.system "NO_RESOURCES")
      else Orb.plain.createReferenceWithId poa oid typeId }

namespace Registry

/-- With a mapping in the table the next one of the same type is made; without a
table the type that the POA refuses leaves nothing behind. -/
theorem failsCleanly_other_type :
    ∃ s s', (registrySystem (Orb.refusing "IDL:Test/Other:1.0") ⟨7, 42⟩ true).replay
        (fun _ _ => True) (.initial true false [fun _ => true])
        [.mapReference sampleNative true false] = some s ∧
      s.reg.slotOf 0 0 = some 0 ∧
      FailsCleanly (Orb.refusing "IDL:Test/Other:1.0") ⟨7, 42⟩ s.reg 0 sampleNative
        "IDL:Test/Hello:1.0" true false ∧
      (registrySystem (Orb.refusing "IDL:Test/Other:1.0") ⟨7, 42⟩ false).replay
        (fun _ _ => True) (.initial false false [fun _ => true])
        [.mapReference sampleNative true false] = some s' ∧
      FailsCleanly (Orb.refusing "IDL:Test/Other:1.0") ⟨7, 42⟩ s'.reg 0 sampleNative
        "IDL:Test/Other:1.0" true false := by
  obtain ⟨s, hs⟩ := Option.isSome_iff_exists.mp (show
    ((registrySystem (Orb.refusing "IDL:Test/Other:1.0") ⟨7, 42⟩ true).replay
      (fun _ _ => True) (.initial true false [fun _ => true])
      [.mapReference sampleNative true false]).isSome by decide)
  obtain ⟨s', hs'⟩ := Option.isSome_iff_exists.mp (show
    ((registrySystem (Orb.refusing "IDL:Test/Other:1.0") ⟨7, 42⟩ false).replay
      (fun _ _ => True) (.initial false false [fun _ => true])
      [.mapReference sampleNative true false]).isSome by decide)
  have hslot : s.reg.slotOf 0 0 = some 0 :=
    System.replay_read (fun s => s.reg.slotOf 0 0) hs (by decide)
  have hnone : (s'.reg.table 0).isNone :=
    System.replay_read (fun s => (s.reg.table 0).isNone) hs' (by decide)
  refine ⟨s, s', hs, hslot, ?_, hs', ?_⟩
  · refine (failsCleanly_iff_keepsIndex _ _ true s
      (System.Reach.of_replay (.start ⟨_, _, rfl⟩) _ hs) _ _ _ _ _).mpr ?_
    exact fun t _ => .inl ⟨_, rfl⟩
  · refine (failsCleanly_iff_keepsIndex _ _ false s'
      (System.Reach.of_replay (.start ⟨_, _, rfl⟩) _ hs') _ _ _ _ _).mpr ?_
    intro t ht
    rw [ht] at hnone
    cases hnone

/-- The first index is lost when the POA refuses the first reference. -/
theorem not_failsCleanly_refused :
    ¬ ∀ (orb : Orb) (inst : Instance) (s : RegistryState) (m : Nat) (native : ObjRef)
      (typeId : String) (outFacing requireSecure : Bool),
      (registrySystem orb inst true).Reachable s →
      FailsCleanly orb inst s.reg m native typeId outFacing requireSecure := by
  intro hall
  let orb : Orb := Orb.refusing "IDL:Test/Hello:1.0"
  let s : RegistryState := RegistryState.initial true false [fun _ => true]
  have ht : s.reg.table 0 = some (RMVByMapped.new 1024) := rfl
  have hrun := run_addNativeUnchecked orb ⟨7, 42⟩ ht (RMVByMapped.PagesCover.new 1024) sampleNative
    "IDL:Test/Hello:1.0" true false
  obtain ⟨havailable, -⟩ := hall orb ⟨7, 42⟩ s 0 sampleNative "IDL:Test/Hello:1.0" true false
    (.start ⟨_, _, rfl⟩) _ _ hrun
  have hkept := (RMVByMapped.Apart.new 1024).available_nextIndex.mp
    ((available_setTable ht).mp havailable)
  exact hkept.1 rfl

end Registry

end Lorica
