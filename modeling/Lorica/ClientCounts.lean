import Lorica.EntryStays

/-!
How often a client reference was handed out and taken back. `as_client` gives
an already mapped reference out again and keeps no count of that, and
`remove_client` unbinds the entry whatever has been handed out. Next to the
mapper object a run has the calls its clients have made, which no operation
reads, and the references that requests and replies carry through the proxy.
-/

namespace Lorica

open Machine

/-- The mapper object and what its clients have seen of it: the references that
`as_client` and `as_client_with_corbaloc` have returned, and those that
`remove_client` was called with. -/
structure ClientState where
  mapper : MapperState
  returned : List ObjRef
  removals : List ObjRef

/-- A call of the mapper object, or a reference in a request or a reply. -/
inductive ClientOp where
  | call (op : ServerOp)
  | traffic (ref : ObjRef) (outFacing : Bool)

/-- A removal of the collector. -/
def ClientOp.collects : ClientOp → Bool
  | .call (.reap _ _ _) => true
  | _ => false

namespace ClientState

open ReferenceMapper

/-- The state after a call that hands out a reference. -/
def handOut (s : ClientState) : Outcome Exn (Option ObjRef) × MapperState → Option ClientState
  | (.ok ref, mapper) => some ⟨mapper, ref.toList ++ s.returned, s.removals⟩
  | (.raised _, mapper) => some { s with mapper := mapper }
  | (.fault _, _) => none

def step (orb : Orb) (inst : Instance) (s : ClientState) : ClientOp → Option ClientState
  | .call (.asClient orig) => s.handOut ((asClient orb inst orig).run s.mapper)
  | .call (.asClientWithCorbaloc corbaloc id) =>
      s.handOut ((asClientWithCorbaloc orb inst corbaloc id).run s.mapper)
  | .call (.removeClient mapped) =>
      (s.mapper.step orb inst (.removeClient mapped)).map fun mapper =>
        ⟨mapper, s.returned, mapped.toList ++ s.removals⟩
  | .call op => (s.mapper.step orb inst op).map fun mapper => { s with mapper := mapper }
  | .traffic ref outFacing =>
      (MapperState.after ((onRegistry (Registry.mappedForNative orb inst ref outFacing)).run
        s.mapper)).map fun mapper => { s with mapper := mapper }

/-- `as_client` has returned the in-facing reference in more calls than
`remove_client` was called with it. -/
def Outstanding (orb : Orb) (inst : Instance) (s : ClientState) (mapped : ObjRef) : Prop :=
  Registry.InFacing orb inst mapped ∧ s.removals.count mapped < s.returned.count mapped

/-- The table has an in-facing entry with this reference. -/
def Binds (s : ClientState) (mapped : ObjRef) : Prop :=
  ∃ m i, s.mapper.reg.IsEntry (some mapped) false m i

end ClientState

/-- Runs around one mapper object with the cache on. -/
def clientSystem (orb : Orb) (inst : Instance) : System ClientState ClientOp where
  init s := ∃ hasSecurity answers hasTable hasDecision,
    s = ⟨MapperState.initial true hasSecurity answers hasTable hasDecision, [], []⟩
  step := ClientState.step orb inst

/-- Client references are counted in the runs under the guard. -/
structure CountsClients (orb : Orb) (inst : Instance) (guard : ClientState → ClientOp → Prop) :
    Prop where
  bound : ∀ s mapped, (clientSystem orb inst).Reach guard s → s.Outstanding orb inst mapped →
    s.Binds mapped ∧ s.mapper.reg.Resolves orb mapped
  last : ∀ s s' mapped, (clientSystem orb inst).Reach guard s →
    guard s (.call (.removeClient (some mapped))) →
    s.step orb inst (.call (.removeClient (some mapped))) = some s' →
    Registry.InFacing orb inst mapped →
    s.removals.count mapped + 1 = s.returned.count mapped → ¬ s'.Binds mapped

namespace ClientState

/-- A removal does not take out the outstanding entry of another reference. -/
def Spares (orb : Orb) (inst : Instance) (s : ClientState) (mapped : ObjRef)
    (outFacing : Bool) : Prop :=
  ∀ m i other, s.mapper.reg.LeadsTo orb mapped outFacing m i →
    s.mapper.reg.IsEntry (some other) false m i → other ≠ mapped →
    ¬ s.Outstanding orb inst other

/-- No more than one client still has the reference, and the removal comes to
its entry. -/
structure Settles (orb : Orb) (s : ClientState) (mapped : ObjRef) : Prop where
  last : s.returned.count mapped ≤ s.removals.count mapped + 1
  finds : ∀ m i, s.mapper.reg.IsEntry (some mapped) false m i →
    s.mapper.reg.LeadsTo orb mapped false m i

/-- What the counting takes of a step. -/
def Careful (orb : Orb) (inst : Instance) (s : ClientState) : ClientOp → Prop
  | .call (.asServer (some native) _ _) => s.mapper.reg.Lasts inst native true
  | .call (.asSecureServer (some native) _ _) =>
      s.mapper.hasSecurity = true → s.mapper.reg.Lasts inst native true
  | .call (.asClient (some native)) => s.mapper.reg.Lasts inst native false
  | .call (.asClientWithCorbaloc corbaloc id) => ∀ native,
      orb.stringToObject corbaloc = .ok (some native) →
        s.mapper.reg.Lasts inst { native with typeId := id } false
  | .call (.removeServer (some mapped)) => s.Spares orb inst mapped true
  | .call (.removeClient (some mapped)) =>
      s.Spares orb inst mapped false ∧
        (s.Outstanding orb inst mapped → s.Settles orb mapped)
  | .traffic ref outFacing => s.mapper.reg.Lasts inst ref outFacing
  | _ => True

end ClientState

/-! ## Runs -/

namespace ClientState

open ReferenceMapper

variable {orb : Orb} {inst : Instance} {s s' : ClientState} {mapper : MapperState}
  {mapped : ObjRef}

/-- The invariant of careful runs: what is outstanding is bound. -/
structure Tallied (orb : Orb) (inst : Instance) (s : ClientState) : Prop where
  orderly : s.mapper.Orderly orb inst []
  snug : s.mapper.reg.Snug
  bound : ∀ mapped, s.Outstanding orb inst mapped → s.Binds mapped

/-- The end of a call that the program survives. -/
theorem after_run {α : Type} {result : Outcome Exn α × MapperState}
    (h : MapperState.after result = some mapper) :
    ∃ outcome, result = (outcome, mapper) ∧ ∀ cause, outcome ≠ .fault cause := by
  obtain ⟨outcome, mapper'⟩ := result
  cases outcome with
  | ok r => exact ⟨.ok r, Option.some.inj h ▸ rfl, nofun⟩
  | raised e => exact ⟨.raised e, Option.some.inj h ▸ rfl, nofun⟩
  | fault cause => cases h

theorem handOut_after {result : Outcome Exn (Option ObjRef) × MapperState}
    (h : s.handOut result = some s') : MapperState.after result = some s'.mapper := by
  obtain ⟨outcome, mapper⟩ := result
  cases outcome with
  | ok ref => exact Option.some.inj h ▸ rfl
  | raised e => exact Option.some.inj h ▸ rfl
  | fault cause => cases h

/-- A call is a step of the mapper object, whatever is noted down of it. -/
theorem step_call {op : ServerOp} (h : s.step orb inst (.call op) = some s') :
    s.mapper.step orb inst op = some s'.mapper := by
  have hmap : ∀ (note : MapperState → ClientState), (∀ mapper, (note mapper).mapper = mapper) →
      (s.mapper.step orb inst op).map note = some s' →
        s.mapper.step orb inst op = some s'.mapper := by
    intro note hnote hstep
    obtain ⟨mapper, hmapper, rfl⟩ := Option.map_eq_some_iff.mp hstep
    rw [hmapper, hnote]
  cases op with
  | asClient orig => exact handOut_after h
  | asClientWithCorbaloc corbaloc id => exact handOut_after h
  | asServer orig name agent => exact hmap _ (fun _ => rfl) h
  | asSecureServer orig name agent => exact hmap _ (fun _ => rfl) h
  | removeServer mapped => exact hmap _ (fun _ => rfl) h
  | removeClient mapped => exact hmap _ (fun _ => rfl) h
  | reap m page offset => exact hmap _ (fun _ => rfl) h
  | evaluators answers => exact Option.some.inj h ▸ rfl

theorem orderly_of_reach {guard : ClientState → ClientOp → Prop}
    (hreach : (clientSystem orb inst).Reach guard s) : s.mapper.Orderly orb inst [] := by
  apply hreach.invariant (I := fun s => s.mapper.Orderly orb inst [])
  · rintro _ ⟨hasSecurity, answers, hasTable, hasDecision, rfl⟩
    exact MapperState.initial_orderly hasSecurity answers hasTable hasDecision
  · intro s op s' hs _ hstep
    cases op with
    | call op => exact hs.step (step_call hstep)
    | traffic ref outFacing =>
        obtain ⟨mapper, hafter, rfl⟩ := Option.map_eq_some_iff.mp hstep
        obtain ⟨outcome, hrun, hend⟩ := after_run hafter
        exact (MapperState.mappedForNative_orderly ref outFacing).run hs hrun hend

/-- A step of the mapping kind that counts nothing. -/
theorem Tallied.keep (horb : orb.Lawful) (hs : s.Tallied orb inst)
    (h : MapperState.Mapped orb inst s.mapper mapper) :
    Tallied orb inst { s with mapper := mapper } where
  orderly := h.orderly
  snug := h.snug
  bound ref hout := by
    obtain ⟨m, i, hentry⟩ := hs.bound ref hout
    exact ⟨m, i, MapperState.isEntry_kept horb hs.orderly h.orderly h.keeps id hentry⟩

/-- A reference goes to a client, to the first one or to another: it has an
entry, and the entries of the others stay. -/
theorem Tallied.handOut (horb : orb.Lawful) (hs : s.Tallied orb inst) {native : ObjRef}
    (hlasts : s.mapper.reg.Lasts inst native false)
    (hstep : s.handOut ((asClient orb inst (some native)).run s.mapper) = some s') :
    s'.Tallied orb inst := by
  have hmapped : ∀ outcome mapper, (asClient orb inst (some native)).run s.mapper =
      (outcome, mapper) → (∀ cause, outcome ≠ .fault cause) →
        MapperState.Mapped orb inst s.mapper mapper := by
    intro outcome mapper hrun
    rw [MapperState.asClient_eq] at hrun
    exact MapperState.mappedForNative_mapped hs.orderly hs.snug hlasts hrun
  cases hrun : (asClient orb inst (some native)).run s.mapper with
  | mk outcome mapper =>
      rw [hrun] at hstep
      cases outcome with
      | fault cause => cases hstep
      | raised e =>
          obtain rfl := Option.some.inj hstep
          exact hs.keep horb (hmapped _ _ hrun nofun)
      | ok handed =>
          obtain rfl := Option.some.inj hstep
          have hkept := hs.keep horb (hmapped _ _ hrun nofun)
          cases handed with
          | none => exact hkept
          | some ref =>
              refine ⟨hkept.orderly, hkept.snug, ?_⟩
              rintro mapped ⟨hfacing, hcount⟩
              by_cases hmapped : ref = mapped
              · subst hmapped
                exact MapperState.asClient_handed horb hs.orderly hs.snug hlasts hfacing hrun
              · change _ < (ref :: s.returned).count mapped at hcount
                rw [List.count_cons_of_ne hmapped] at hcount
                exact hkept.bound mapped ⟨hfacing, hcount⟩

/-- A reference is removed: for a client it is not outstanding any more. -/
theorem Tallied.removed (horb : orb.Lawful) (hs : s.Tallied orb inst) {outFacing : Bool}
    (h : MapperState.Unbound orb inst mapped outFacing s.mapper mapper)
    (hspares : s.Spares orb inst mapped outFacing) {removals : List ObjRef}
    (hgrown : ∀ ref, s.removals.count ref ≤ removals.count ref)
    (hsettled : outFacing = false → s.Outstanding orb inst mapped →
      s.returned.count mapped ≤ removals.count mapped) :
    Tallied orb inst ⟨mapper, s.returned, removals⟩ := by
  refine ⟨h.orderly, h.snug, ?_⟩
  rintro ref ⟨hfacing, hcount⟩
  have hout : s.Outstanding orb inst ref := ⟨hfacing, (hgrown ref).trans_lt hcount⟩
  obtain ⟨m, i, hentry⟩ := hs.bound ref hout
  refine ⟨m, i, MapperState.isEntry_kept horb hs.orderly h.orderly h.keeps ?_ hentry⟩
  intro hleads
  by_cases hown : ref = mapped
  · subst hown
    obtain ⟨t, oid, index, a, -, -, hid, -⟩ := hleads
    have hside : outFacing = false := hfacing.to_id horb hid
    exact absurd hcount (Nat.not_lt.mpr (hsettled hside hout))
  · exact hspares m i ref hleads hentry hown hout

/-- A removal that comes to the entry of the reference unbinds it, however often
the reference was handed out. -/
theorem Tallied.not_binds (horb : orb.Lawful) (hs : s.Tallied orb inst)
    (hfinds : ∀ m i, s.mapper.reg.IsEntry (some mapped) false m i →
      s.mapper.reg.LeadsTo orb mapped false m i)
    (hstep : s.step orb inst (.call (.removeClient (some mapped))) = some s') :
    ¬ s'.Binds mapped := by
  obtain ⟨mapper, hafter, rfl⟩ := Option.map_eq_some_iff.mp hstep
  obtain ⟨outcome, hrun, hend⟩ := after_run hafter
  have hunbound : MapperState.Unbound orb inst mapped false s.mapper mapper :=
    MapperState.remove_unbound hs.orderly hs.snug hrun hend
  rintro ⟨m, i, hentry⟩
  obtain ⟨a', index, -, -, hid⟩ := MapperState.isEntry_made horb hunbound.orderly hentry
  obtain ⟨a, v, oid, native, hslot, hv, hmapped, -⟩ := hentry
  obtain rfl := Option.some.inj hmapped
  obtain ⟨hslot', hcell⟩ := hunbound.others m i a hslot
  have hbefore :=
    (MapperState.isEntry_of_slot horb hs.orderly hslot' (hcell.symm.trans hv) hid).2
  have hgone := hunbound.cleared m i (hfinds m i hbefore)
  rw [hslot] at hgone
  cases hgone

/-- The removals that the counting leaves out: the reference stays outstanding,
and its entry is gone. -/
theorem Tallied.lost_early (horb : orb.Lawful) (hs : s.Tallied orb inst)
    (hfacing : Registry.InFacing orb inst mapped)
    (hshared : s.removals.count mapped + 1 < s.returned.count mapped)
    (hfinds : ∀ m i, s.mapper.reg.IsEntry (some mapped) false m i →
      s.mapper.reg.LeadsTo orb mapped false m i)
    (hstep : s.step orb inst (.call (.removeClient (some mapped))) = some s') :
    s'.Outstanding orb inst mapped ∧ ¬ s'.Binds mapped := by
  refine ⟨⟨hfacing, ?_⟩, hs.not_binds horb hfinds hstep⟩
  obtain ⟨mapper, -, rfl⟩ := Option.map_eq_some_iff.mp hstep
  change (mapped :: s.removals).count mapped < s.returned.count mapped
  rw [List.count_cons_self]
  exact hshared

/-- Every careful step keeps the invariant. -/
theorem Tallied.step (horb : orb.Lawful) (hs : s.Tallied orb inst) {op : ClientOp}
    (hcollects : op.collects = false) (hcareful : s.Careful orb inst op)
    (hstep : s.step orb inst op = some s') : s'.Tallied orb inst := by
  cases op with
  | traffic ref outFacing =>
      obtain ⟨mapper, hafter, rfl⟩ := Option.map_eq_some_iff.mp hstep
      obtain ⟨outcome, hrun, hend⟩ := after_run hafter
      exact hs.keep horb
        (MapperState.mappedForNative_mapped hs.orderly hs.snug hcareful hrun hend)
  | call op =>
      cases op with
      | asServer orig name agent =>
          obtain ⟨mapper, hafter, rfl⟩ := Option.map_eq_some_iff.mp hstep
          have horderly := hs.orderly.step hafter
          obtain ⟨outcome, hrun, hend⟩ := after_run hafter
          cases orig with
          | none => exact (Prod.mk.inj hrun).2 ▸ hs
          | some native =>
              exact hs.keep horb (.of_stays hs.orderly hs.snug hcareful
                (MapperState.asServerI_stays hs.orderly false native name agent hrun hend) horderly)
      | asSecureServer orig name agent =>
          obtain ⟨mapper, hafter, rfl⟩ := Option.map_eq_some_iff.mp hstep
          have horderly := hs.orderly.step hafter
          obtain ⟨outcome, hrun, hend⟩ := after_run hafter
          unfold asSecureServer at hrun
          rw [Action.run_bind_ok (Action.run_get s.mapper)] at hrun
          split at hrun
          · next hsecurity =>
              cases orig with
              | none => exact (Prod.mk.inj hrun).2 ▸ hs
              | some native =>
                  exact hs.keep horb (.of_stays hs.orderly hs.snug (hcareful hsecurity)
                    (MapperState.asServerI_stays hs.orderly true native name agent hrun hend)
                    horderly)
          · exact (Prod.mk.inj hrun).2 ▸ hs
      | removeServer mapped =>
          obtain ⟨mapper, hafter, rfl⟩ := Option.map_eq_some_iff.mp hstep
          obtain ⟨outcome, hrun, hend⟩ := after_run hafter
          cases mapped with
          | none => exact (Prod.mk.inj hrun).2 ▸ hs
          | some mapped =>
              have hunbound : MapperState.Unbound orb inst mapped true s.mapper mapper :=
                MapperState.remove_unbound hs.orderly hs.snug hrun hend
              exact hs.removed horb hunbound hcareful (fun _ => le_refl _) nofun
      | asClient orig =>
          cases orig with
          | none => exact Option.some.inj hstep ▸ hs
          | some native => exact hs.handOut horb hcareful hstep
      | asClientWithCorbaloc corbaloc id =>
          simp only [ClientState.step, asClientWithCorbaloc] at hstep
          cases hobject : orb.stringToObject corbaloc with
          | error e =>
              rw [hobject] at hstep
              exact Option.some.inj hstep ▸ hs
          | ok orig =>
              rw [hobject] at hstep
              cases orig with
              | none => exact Option.some.inj hstep ▸ hs
              | some native => exact hs.handOut horb (hcareful native hobject) hstep
      | removeClient mapped =>
          obtain ⟨mapper, hafter, rfl⟩ := Option.map_eq_some_iff.mp hstep
          obtain ⟨outcome, hrun, hend⟩ := after_run hafter
          cases mapped with
          | none => exact (Prod.mk.inj hrun).2 ▸ hs
          | some mapped =>
              have hunbound : MapperState.Unbound orb inst mapped false s.mapper mapper :=
                MapperState.remove_unbound hs.orderly hs.snug hrun hend
              apply hs.removed horb hunbound hcareful.1
              · exact fun ref => List.count_le_count_cons
              · intro _ hout
                rw [Option.toList_some, List.singleton_append, List.count_cons_self]
                exact (hcareful.2 hout).last
      | reap m page offset => cases hcollects
      | evaluators answers =>
          have hafter : s.mapper.step orb inst (.evaluators answers) =
              some { s.mapper with reg := s.mapper.reg.withEvaluators answers } := rfl
          obtain rfl := Option.some.inj hstep
          refine hs.keep horb ⟨hs.orderly.step hafter, ?_, ?_⟩
          · intro m i a v _ hslot hv
            exact ⟨v, (Registry.withEvaluators_slotOf _ _ _).trans hslot, hv, rfl⟩
          · exact hs.snug.congr fun m => Registry.withEvaluators_table _ m

theorem initial_tallied (hasSecurity : Bool) (answers : List (String → Bool))
    (hasTable hasDecision : Bool) :
    Tallied orb inst ⟨MapperState.initial true hasSecurity answers hasTable hasDecision, [], []⟩ where
  orderly := MapperState.initial_orderly hasSecurity answers hasTable hasDecision
  snug m t ht := by
    have htable := RegistryState.initial_table true hasSecurity answers m
    change (RegistryState.initial true hasSecurity answers).reg.table m = some t at ht
    rw [ht] at htable
    split at htable
    · exact Option.some.inj htable ▸ .new (by decide)
    · cases htable
  bound mapped hout := absurd hout.2 (Nat.not_lt_zero _)

theorem tallied_of_reach (horb : orb.Lawful)
    (hreach : (clientSystem orb inst).Reach
      (fun s op => op.collects = false ∧ s.Careful orb inst op) s) : s.Tallied orb inst := by
  apply hreach.invariant
  · rintro _ ⟨hasSecurity, answers, hasTable, hasDecision, rfl⟩
    exact initial_tallied hasSecurity answers hasTable hasDecision
  · exact fun s op s' hs hguard hstep => hs.step horb hguard.1 hguard.2 hstep

end ClientState

/-- In every run of careful steps without a collection the client references
are counted. -/
theorem countsClients_of_careful (orb : Orb) (horb : orb.Lawful) (inst : Instance) :
    CountsClients orb inst fun s op => op.collects = false ∧ s.Careful orb inst op where
  bound s mapped hreach hout := by
    have hs := ClientState.tallied_of_reach horb hreach
    obtain ⟨m, i, hentry⟩ := hs.bound mapped hout
    exact ⟨⟨m, i, hentry⟩, MapperState.resolves_of_entry horb hs.orderly hs.snug hentry⟩
  last s s' mapped hreach hguard hstep hfacing hcount := by
    have hs := ClientState.tallied_of_reach horb hreach
    have hout : s.Outstanding orb inst mapped := ⟨hfacing, by omega⟩
    exact hs.not_binds horb (hguard.2.2 hout).finds hstep

namespace ClientState

/-- One mapper that evaluates every type, and no client yet. -/
def sample : ClientState :=
  ⟨MapperState.initial true false [fun _ => true] true false, [], []⟩

/-- The in-facing reference of the first registration. -/
def sampleClient : ObjRef :=
  ⟨"IDL:Test/Hello:1.0", some (Poa.name ⟨0, false⟩ ++ Instance.objectId ⟨7, 42⟩ false 0),
    "IOR:lorica", false, false⟩

theorem sample_init : (clientSystem Orb.spelled ⟨7, 42⟩).init sample :=
  ⟨false, [fun _ => true], true, false, rfl⟩

theorem sampleClient_inFacing : Registry.InFacing Orb.spelled ⟨7, 42⟩ sampleClient :=
  ⟨0, 0, "IDL:Test/Hello:1.0", rfl⟩

theorem sample_lasts :
    sample.Careful Orb.spelled ⟨7, 42⟩ (.call (.asClient (some sampleNative))) := by
  intro m t _ ht _
  have htable := RegistryState.initial_table true false [fun _ => true] m
  change (RegistryState.initial true false [fun _ => true]).reg.table m = some t at ht
  rw [ht] at htable
  split at htable
  · obtain rfl := Option.some.inj htable
    unfold RMVByMapped.Lasts
    decide
  · cases htable

/-- Two clients have the reference of one registration, and nothing is removed. -/
theorem countsClients_two_returned :
    ∃ s, (clientSystem Orb.spelled ⟨7, 42⟩).Reach
        (fun s op => op.collects = false ∧ s.Careful Orb.spelled ⟨7, 42⟩ op) s ∧
      s.returned = [sampleClient, sampleClient] ∧ s.removals = [] ∧ s.Binds sampleClient ∧
      s.mapper.reg.Resolves Orb.spelled sampleClient := by
  have hreads : ((sample.step Orb.spelled ⟨7, 42⟩ (.call (.asClient (some sampleNative)))).bind
      fun s => s.step Orb.spelled ⟨7, 42⟩ (.call (.asClient (some sampleClient)))).map
        (fun s => (s.removals, s.returned)) = some ([], [sampleClient, sampleClient]) := by
    decide +kernel
  obtain ⟨s₂, hrun, hcounts⟩ := Option.map_eq_some_iff.mp hreads
  obtain ⟨s₁, hfirst, hsecond⟩ := Option.bind_eq_some_iff.mp hrun
  obtain ⟨hremovals, hreturned⟩ := Prod.mk.inj hcounts
  -- the second call is handed a reference of ours and draws no index
  have hours : s₁.Careful Orb.spelled ⟨7, 42⟩ (.call (.asClient (some sampleClient))) := by
    intro m t _ _ hforeign
    have hmapped : (Instance.alreadyMapped ⟨7, 42⟩ sampleClient.key false 0).1 =
      .alreadyMapped := by decide
    rw [hmapped] at hforeign
    cases hforeign
  have hreach : (clientSystem Orb.spelled ⟨7, 42⟩).Reach
      (fun s op => op.collects = false ∧ s.Careful Orb.spelled ⟨7, 42⟩ op) s₂ :=
    .next (.next (.start sample_init) ⟨rfl, sample_lasts⟩ hfirst) ⟨rfl, hours⟩ hsecond
  have hout : s₂.Outstanding Orb.spelled ⟨7, 42⟩ sampleClient := by
    refine ⟨sampleClient_inFacing, ?_⟩
    rw [hremovals, hreturned]
    decide
  exact ⟨s₂, hreach, hreturned, hremovals,
    (countsClients_of_careful Orb.spelled Orb.spelled_lawful ⟨7, 42⟩).bound s₂ sampleClient
      hreach hout⟩

/-- Two clients get the reference, one gives it back, and the entry is gone. -/
theorem not_countsClients_two_clients :
    ¬ ∀ (orb : Orb) (inst : Instance), orb.Lawful →
      CountsClients orb inst fun _ op => op.collects = false := by
  intro hall
  let ops : List ClientOp := [.call (.asClient (some sampleNative)),
    .call (.asClient (some sampleClient)), .call (.removeClient (some sampleClient))]
  let run : Option ClientState := (clientSystem Orb.spelled ⟨7, 42⟩).replay
    (fun _ op => op.collects = false) sample ops
  obtain ⟨s, hs⟩ := Option.isSome_iff_exists.mp (show run.isSome by decide +kernel)
  have hreach : (clientSystem Orb.spelled ⟨7, 42⟩).Reach (fun _ op => op.collects = false) s :=
    System.Reach.of_replay (.start sample_init) ops hs
  have hcounts : (s.removals, s.returned) = ([sampleClient], [sampleClient, sampleClient]) :=
    System.replay_read (fun s => (s.removals, s.returned)) hs (by decide +kernel)
  have hhistory : s.mapper.reg.history = [.removed 0,
      .mapped ⟨0, false⟩ (Instance.objectId ⟨7, 42⟩ false 0) sampleNative 0] :=
    System.replay_read (fun s => s.mapper.reg.history) hs (by decide +kernel)
  have hout : s.Outstanding Orb.spelled ⟨7, 42⟩ sampleClient := by
    obtain ⟨hremovals, hreturned⟩ := Prod.mk.inj hcounts
    refine ⟨sampleClient_inFacing, ?_⟩
    rw [hremovals, hreturned]
    decide
  obtain ⟨⟨m, i, hentry⟩, -⟩ :=
    (hall Orb.spelled ⟨7, 42⟩ Orb.spelled_lawful).bound s sampleClient hreach hout
  obtain ⟨a, v, oid, native, hslot, -, -, -⟩ := hentry
  obtain ⟨facing, index, native', v', -, hevent, hstands, -⟩ :=
    (orderly_of_reach hreach).traced.made m i a hslot
  rw [hhistory] at hevent hstands
  rcases List.mem_cons.mp hevent with hremoved | hmapped
  · cases hremoved
  · obtain ⟨-, -, -, rfl⟩ := MapEvent.mapped.inj (List.mem_singleton.mp hmapped)
    exact hstands List.mem_cons_self

end ClientState

end Lorica
