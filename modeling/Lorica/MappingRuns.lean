import Lorica.Retrace
import Lorica.ValueWalk

/-!
What the evaluators do to the registry. `mapped_for_native` is `map_reference`
and the end of the variable that held its value, so an evaluation is a run of
such pairs of steps, and no mapper learns of a type in it.
-/

namespace Lorica

open Machine

namespace Registry

/-- How `mapped_for_native` goes: as `map_reference` does, and the value that
was returned is let go of once its reference has been copied. -/
inductive NativeAnswer (orb : Orb) (inst : Instance) (reg : Registry) (native : ObjRef)
    (outFacing : Bool) : Outcome Exn (Option ObjRef) × Registry → Prop where
  | raised {e : Exn} {reg' : Registry}
      (hmap : (mapReference orb inst native outFacing false).run reg = (.raised e, reg')) :
      NativeAnswer orb inst reg native outFacing (.raised e, reg')
  | fault {cause : Fault} {reg' : Registry}
      (hmap : (mapReference orb inst native outFacing false).run reg = (.fault cause, reg')) :
      NativeAnswer orb inst reg native outFacing (.fault cause, reg')
  | refused {reg' : Registry}
      (hmap : (mapReference orb inst native outFacing false).run reg = (.ok none, reg')) :
      NativeAnswer orb inst reg native outFacing (.ok none, reg')
  | handed {a : Nat} {v : ReferenceMapValue} {values : Heap} {reg' : Registry}
      (hmap : (mapReference orb inst native outFacing false).run reg = (.ok (some a), reg'))
      (hv : reg'.values.cells a = some v) (hdecr : reg'.values.decrRefcount a = .ok values) :
      NativeAnswer orb inst reg native outFacing
        (.ok (some v.mappedRef), reg'.setValues values)

/-- What mapping one reference changes: no mapper learns of a type, and all that
is recorded is a mapping of this reference for this facing. -/
structure Leaves (native : ObjRef) (outFacing : Bool) (reg reg' : Registry) : Prop where
  handler : ∀ typeId, reg'.handler typeId = reg.handler typeId
  events : ∀ event ∈ reg'.history, event ∈ reg.history ∨
    ∃ m oid a, event = .mapped ⟨m, outFacing⟩ oid native a

/-- One registry comes from the other by mapping references and letting go of
the values again. -/
structure Maps (orb : Orb) (inst : Instance) (held : List Nat) (reg reg' : Registry) :
    Prop where
  run : ((registrySystem orb inst true).restart ⟨reg, held⟩).Reachable ⟨reg', held⟩
  grown : RegistryState.Grown ⟨reg, held⟩ ⟨reg', held⟩
  handler : ∀ typeId, reg'.handler typeId = reg.handler typeId
  removed : ∀ a, .removed a ∈ reg'.history → .removed a ∈ reg.history

section Handlers

variable {reg : Registry} {m : Nat}

/-- The mapper for a type is told by the evaluators alone. -/
theorem handler_congr {reg reg' : Registry}
    (h : reg'.mappers.map ProxyMapper.evaluatorFor = reg.mappers.map ProxyMapper.evaluatorFor)
    (typeId : String) : reg'.handler typeId = reg.handler typeId := by
  have hfind := congrArg (List.findIdx? fun evaluatorFor => evaluatorFor typeId) h
  rwa [List.findIdx?_map, List.findIdx?_map] at hfind

@[simp] theorem setTable_handler (t : RMVByMapped Nat) (typeId : String) :
    (reg.setTable m t).handler typeId = reg.handler typeId := by
  apply handler_congr
  apply List.ext_getElem?
  intro k
  simp only [setTable, List.getElem?_map, List.getElem?_modify]
  cases reg.mappers[k]? with
  | none => rfl
  | some mapper => by_cases hk : m = k <;> simp [hk]

@[simp] theorem setValues_handler (values : Heap) (typeId : String) :
    (reg.setValues values).handler typeId = reg.handler typeId := rfl

@[simp] theorem log_handler (event : MapEvent) (typeId : String) :
    (reg.log event).handler typeId = reg.handler typeId := rfl

end Handlers

section Answers

variable {orb : Orb} {inst : Instance} {reg : Registry} {held : List Nat} {native : ObjRef}
  {outFacing requireSecure : Bool}

theorem Leaves.of_same {reg' : Registry} (hhistory : reg'.history = reg.history)
    (hhandler : ∀ typeId, reg'.handler typeId = reg.handler typeId) :
    Leaves native outFacing reg reg' :=
  ⟨hhandler, fun _ hevent => .inl (hhistory ▸ hevent)⟩

theorem addNativeUnchecked_leaves (hsafe : RegistryState.Safe ⟨reg, held⟩) (m : Nat)
    (typeId : String) :
    Leaves native outFacing reg ((addNativeUnchecked orb inst m native typeId outFacing
      requireSecure >>= fun rmv => pure (some rmv)).run reg).2 := by
  cases ht : reg.table m with
  | none =>
      have hrun := run_addNativeUnchecked_uncached orb inst ht native typeId outFacing
        requireSecure
      cases href : orb.createReferenceWithId ⟨m, outFacing⟩
          (orb.stringToObjectId (orb.objectToString native)) typeId with
      | error e =>
          rw [href] at hrun
          rw [Action.run_bind_raised hrun]
          exact .of_same rfl fun _ => rfl
      | ok ref =>
          rw [href] at hrun
          rw [Action.run_bind_ok hrun]
          exact .of_same rfl fun _ => rfl
  | some t =>
      have hrun := run_addNativeUnchecked orb inst ht (hsafe.cover m t ht) native typeId
        outFacing requireSecure
      cases href : orb.createReferenceWithId ⟨m, outFacing⟩
          (inst.objectId outFacing t.peekIndex) typeId with
      | error e =>
          rw [href] at hrun
          rw [Action.run_bind_raised hrun]
          exact .of_same rfl (setTable_handler _)
      | ok ref =>
          rw [href] at hrun
          rw [Action.run_bind_ok hrun, Action.run_pure]
          split
          · refine ⟨fun typeId => by simp, fun event hevent => ?_⟩
            rcases List.mem_cons.mp hevent with rfl | hold
            · exact .inr ⟨m, _, _, rfl⟩
            · exact .inl hold
          · exact .of_same rfl fun typeId => by simp

theorem mapReference_leaves (orb : Orb) (inst : Instance)
    (hsafe : RegistryState.Safe ⟨reg, held⟩) (native : ObjRef) (outFacing requireSecure : Bool) :
    Leaves native outFacing reg
      ((mapReference orb inst native outFacing requireSecure).run reg).2 := by
  rw [run_mapReference]
  cases reg.handler native.typeId with
  | none => exact .of_same rfl fun _ => rfl
  | some m =>
      have hmapping := addNativeHere_mapping orb inst hsafe m native native.typeId outFacing
        requireSecure
      dsimp only
      generalize (addNativeHere orb inst m native native.typeId outFacing requireSecure).run reg =
        result at hmapping
      cases hmapping with
      | missed _ _ _ => exact .of_same rfl fun _ => rfl
      | found _ _ _ _ => exact .of_same rfl fun _ => rfl
      | dangling _ _ _ => exact .of_same rfl fun _ => rfl
      | reversed _ _ _ _ => exact .of_same rfl fun _ => rfl
      | made _ => exact addNativeUnchecked_leaves hsafe m native.typeId

theorem mappedForNative_answer (orb : Orb) (inst : Instance)
    (hsafe : RegistryState.Safe ⟨reg, held⟩) (native : ObjRef) (outFacing : Bool) :
    NativeAnswer orb inst reg native outFacing
      ((mappedForNative orb inst native outFacing).run reg) := by
  have hadv := mapReference_advances orb inst hsafe native outFacing false
  unfold mappedForNative
  cases hmap : (mapReference orb inst native outFacing false).run reg with
  | mk outcome reg' =>
      rw [hmap] at hadv
      cases outcome with
      | raised e =>
          rw [Action.run_bind_raised hmap]
          exact .raised hmap
      | fault cause =>
          rw [Action.run_bind_fault hmap]
          exact .fault hmap
      | ok r =>
          rw [Action.run_bind_ok hmap]
          cases r with
          | none => exact .refused hmap
          | some a =>
              have hsafe' : RegistryState.Safe ⟨reg', a :: held⟩ := hsafe.moves hadv
              obtain ⟨v, hv⟩ := hsafe'.held_cell List.mem_cons_self
              obtain ⟨values, hdecr⟩ := hsafe'.decr_ok hv
              dsimp only
              rw [Action.run_inScope_ok (Action.run_bind_ok (run_readValue hv) _)
                (run_decrRefcount hdecr)]
              exact .handed hmap hv hdecr

instance Maps.refl : Std.Refl (Maps orb inst held) where
  refl _ := ⟨.start rfl, .refl _, fun _ => rfl, fun _ h => h⟩

instance Maps.trans : IsTrans Registry (Maps orb inst held) where
  trans _ _ _ h h' := ⟨h.run.trans h'.run, h.grown.trans h'.grown,
    fun typeId => (h'.handler typeId).trans (h.handler typeId),
    fun a ha => h.removed a (h'.removed a ha)⟩

/-- What a run leads to a run goes on from. -/
theorem Maps.reach {reg' : Registry} (h : Maps orb inst held reg reg')
    (hreach : (registrySystem orb inst true).Reachable ⟨reg, held⟩) :
    (registrySystem orb inst true).Reachable ⟨reg', held⟩ :=
  hreach.trans h.run

theorem Maps.of_run {reg' : Registry} (hsafe : RegistryState.Safe ⟨reg, held⟩)
    (hrun : ((registrySystem orb inst true).restart ⟨reg, held⟩).Reachable ⟨reg', held⟩)
    (hleaves : Leaves native outFacing reg reg') : Maps orb inst held reg reg' := by
  refine ⟨hrun, .of_reach hsafe hrun, hleaves.handler, fun a ha => ?_⟩
  rcases hleaves.events _ ha with hold | ⟨m, oid, b, heq⟩
  · exact hold
  · cases heq

/-- One step, or two when a value was handed out. -/
theorem NativeAnswer.maps {outcome : Outcome Exn (Option ObjRef)} {reg' : Registry}
    (hsafe : RegistryState.Safe ⟨reg, held⟩)
    (h : NativeAnswer orb inst reg native outFacing (outcome, reg'))
    (hend : ∀ cause, outcome ≠ .fault cause) :
    Maps orb inst held reg reg' ∧ Leaves native outFacing reg reg' := by
  have hleaves := mapReference_leaves orb inst hsafe native outFacing false
  have hstep : ((registrySystem orb inst true).restart ⟨reg, held⟩).step ⟨reg, held⟩
      (.mapReference native outFacing false) = RegistryState.afterCall ⟨reg, held⟩
        ((mapReference orb inst native outFacing false).run reg) := rfl
  have hstart : ((registrySystem orb inst true).restart ⟨reg, held⟩).Reachable ⟨reg, held⟩ :=
    .start rfl
  cases h with
  | raised hmap =>
      rw [hmap] at hleaves hstep
      exact ⟨.of_run hsafe (hstart.next trivial hstep) hleaves, hleaves⟩
  | fault hmap => exact absurd rfl (hend _)
  | refused hmap =>
      rw [hmap] at hleaves hstep
      exact ⟨.of_run hsafe (hstart.next trivial hstep) hleaves, hleaves⟩
  | @handed a v values reg₁ hmap hv hdecr =>
      rw [hmap] at hleaves hstep
      have hrelease : ((registrySystem orb inst true).restart ⟨reg, held⟩).step
          ⟨reg₁, a :: held⟩ (.release a) = some ⟨reg₁.setValues values, held⟩ := by
        simp only [System.restart, registrySystem, RegistryState.step, List.mem_cons_self,
          if_true, run_decrRefcount hdecr, List.erase_cons_head]
      have hleaves' : Leaves native outFacing reg (reg₁.setValues values) :=
        ⟨hleaves.handler, hleaves.events⟩
      exact ⟨.of_run hsafe ((hstart.next trivial hstep).next trivial hrelease) hleaves', hleaves'⟩

end Answers

end Registry

end Lorica
