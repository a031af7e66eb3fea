import Lorica.ReferenceMapper

/-!
Which mappings are open to insecure access. The access list is keyed by POA
and object id and never shrinks, while object ids come back with recycled
indices and a mapping can be registered again at another level. The invariant
is kept by every move of the registry; a registration keeps it when it does
not close an id that is open, nor opens one that belongs to a closed mapping.
-/

namespace Lorica

open Machine

/-- The values of the mappings made for an id on a POA that still stand. -/
def Registry.liveAt (reg : Registry) (poa : Poa) (oid : ObjectId) : List Nat :=
  reg.history.filterMap fun
    | .mapped poa' oid' _ a =>
        if poa' = poa ∧ oid' = oid ∧ .removed a ∉ reg.history then some a else none
    | .removed _ => none

/-- A mapping was made for the id and not removed since. -/
def Stands (history : List MapEvent) (poa : Poa) (oid : ObjectId) (a : Nat) :
    Prop :=
  ∃ native, .mapped poa oid native a ∈ history ∧ .removed a ∉ history

theorem Registry.mem_liveAt {reg : Registry} {poa : Poa} {oid : ObjectId}
    {a : Nat} : a ∈ reg.liveAt poa oid ↔ Stands reg.history poa oid a := by
  unfold liveAt
  rw [List.mem_filterMap]
  constructor
  · rintro ⟨event, hevent, hsome⟩
    cases event with
    | mapped poa' oid' native b =>
        obtain ⟨⟨rfl, rfl, hstands⟩, hb⟩ := Option.ite_none_right_eq_some.mp hsome
        obtain rfl := Option.some.inj hb
        exact ⟨native, hevent, hstands⟩
    | removed b => cases hsome
  · rintro ⟨native, hmapped, hstands⟩
    refine ⟨_, hmapped, ?_⟩
    simp [hstands]

namespace MapperState

/-- The pairs passed to `access_decision_->add_object (..., true)`. -/
def opened (s : MapperState) : List (Poa × ObjectId) :=
  s.accessDecision.getD []

/-- A mapping that stands, faces out and was last registered by
`as_secure_server` is not open to insecure access. -/
def SecureClosed (inst : Instance) (s : MapperState) : Prop :=
  ∀ m index, ∀ a ∈ s.reg.liveAt ⟨m, true⟩ (inst.objectId true index),
    s.registered.lookup a = some true →
    (⟨m, true⟩, inst.objectId true index) ∉ s.opened

/-- How `as_server_i` will classify a reference, and the POA and the id of
the entry it leads to. -/
def destination (inst : Instance) (s : MapperState) (orig : ObjRef) :
    Option (MappedStatus × Poa × ObjectId) :=
  (s.reg.handler orig.typeId).bind fun m => (s.reg.table m).map fun t =>
    let (status, index) := inst.alreadyMapped orig.key true t.peekIndex
    (status, ⟨m, true⟩, inst.objectId true index)

/-- The steps that keep secure mappings closed. A secure registration must
not lead to an id that is open already, and the id of a new insecure mapping
must not belong to a standing secure one. -/
def admissible (inst : Instance) (s : MapperState) : ServerOp → Bool
  | .asServer (some orig) _ _ =>
      match s.destination inst orig with
      | some (.notMapped, poa, oid) =>
          (s.reg.liveAt poa oid).all fun a => s.registered.lookup a ≠ some true
      | _ => true
  | .asSecureServer (some orig) _ _ =>
      match s.destination inst orig with
      | some (.notMapped, poa, oid) => (poa, oid) ∉ s.opened
      | some (.alreadyMapped, poa, oid) =>
          s.reg.liveAt poa oid = [] ∨ (poa, oid) ∉ s.opened
      | _ => true
  | _ => true

/-- The invariant of runs, for the pointers callers own at the time. -/
structure Sealed (orb : Orb) (inst : Instance) (s : MapperState)
    (held : List Nat) : Prop where
  safe : RegistryState.Safe ⟨s.reg, held⟩
  traced : RegistryState.Traced orb inst ⟨s.reg, held⟩
  cached : RegistryState.Cached ⟨s.reg, held⟩
  past : ∀ entry ∈ s.registered, entry.1 < s.reg.values.fresh
  closed : s.SecureClosed inst

section Moving

variable {orb : Orb} {inst : Instance}

/-- A move records nothing, a removal, or one mapping of a new value. -/
theorem move_history {s s' : RegistryState} (h : Move orb inst s s') :
    s.reg.values.fresh ≤ s'.reg.values.fresh ∧
    (s'.reg.history = s.reg.history ∨
      (∃ a, s'.reg.history = .removed a :: s.reg.history) ∨
      ∃ poa oid native, s'.reg.history =
        .mapped poa oid native s.reg.values.fresh :: s.reg.history) := by
  cases h with
  | issue _ => exact ⟨le_refl _, Or.inl rfl⟩
  | alloc _ _ => exact ⟨Nat.le_succ _, Or.inl rfl⟩
  | install _ _ _ _ _ _ _ =>
      exact ⟨Nat.le_succ _, Or.inr (Or.inr ⟨_, _, _, rfl⟩)⟩
  | take _ _ => exact ⟨le_refl _, Or.inl rfl⟩
  | unbind _ _ _ => exact ⟨le_refl _, Or.inr (Or.inl ⟨_, rfl⟩)⟩
  | reap _ _ _ _ hdecr =>
      refine ⟨?_, Or.inr (Or.inl ⟨_, rfl⟩)⟩
      obtain ⟨v, -, ⟨-, rfl⟩ | ⟨-, rfl⟩⟩ := Heap.decrRefcount_cases hdecr
      · exact le_refl _
      · exact le_refl _
  | drop _ hdecr =>
      refine ⟨?_, Or.inl rfl⟩
      obtain ⟨v, -, ⟨-, rfl⟩ | ⟨-, rfl⟩⟩ := Heap.decrRefcount_cases hdecr
      · exact le_refl _
      · exact le_refl _
  | touch _ _ _ _ _ => exact ⟨le_refl _, Or.inl rfl⟩
  | evaluators _ => exact ⟨le_refl _, Or.inl rfl⟩

theorem lookup_mem {entries : List (Nat × Bool)} {a : Nat} {secure : Bool}
    (h : entries.lookup a = some secure) : (a, secure) ∈ entries := by
  induction entries with
  | nil => cases h
  | cons entry rest ih =>
      obtain ⟨b, other⟩ := entry
      rw [List.lookup_cons] at h
      split at h
      · next heq =>
          obtain rfl := Option.some.inj h
          obtain rfl := beq_iff_eq.mp heq
          exact List.mem_cons_self
      · exact List.mem_cons_of_mem _ (ih h)

/-- A mapping that stands after a move stood before it, unless it is new. -/
theorem Sealed.move {s : MapperState} {reg' : Registry} {held held' : List Nat}
    (h : s.Sealed orb inst held)
    (hmove : Move orb inst ⟨s.reg, held⟩ ⟨reg', held'⟩) :
    Sealed orb inst { s with reg := reg' } held' := by
  obtain ⟨hfresh, hhistory⟩ := move_history hmove
  refine ⟨h.safe.move hmove, h.traced.move h.safe hmove, h.cached.move hmove,
    fun entry he => lt_of_lt_of_le (h.past entry he) hfresh, ?_⟩
  intro m index a ha hsecure
  apply h.closed m index a ?_ hsecure
  obtain ⟨native, hmapped, hstands⟩ := Registry.mem_liveAt.mp ha
  apply Registry.mem_liveAt.mpr
  dsimp only at hmapped hstands hhistory
  rcases hhistory with hsame | ⟨b, hremoved⟩ | ⟨poa, oid, native', hnew⟩
  · rw [hsame] at hmapped hstands
    exact ⟨native, hmapped, hstands⟩
  · rw [hremoved] at hmapped hstands
    simp only [List.mem_cons, reduceCtorEq, false_or, not_or] at hmapped hstands
    exact ⟨native, hmapped, hstands.2⟩
  · rw [hnew] at hmapped hstands
    simp only [List.mem_cons, reduceCtorEq, false_or] at hmapped hstands
    rcases hmapped with heq | hmapped
    · obtain ⟨-, -, -, rfl⟩ := MapEvent.mapped.inj heq
      exact absurd (h.past _ (lookup_mem hsecure)) (lt_irrefl _)
    · exact ⟨native, hmapped, hstands⟩

theorem Sealed.moves {s : MapperState} {reg' : Registry} {held held' : List Nat}
    (h : s.Sealed orb inst held)
    (hmoves : Moves orb inst ⟨s.reg, held⟩ ⟨reg', held'⟩) :
    Sealed orb inst { s with reg := reg' } held' := by
  have hall : ∀ x : RegistryState, Moves orb inst ⟨s.reg, held⟩ x →
      Sealed orb inst { s with reg := x.reg } x.held := by
    intro x hx
    induction hx with
    | refl => exact h
    | tail _ hlast ih =>
        have hnext := Sealed.move ih hlast
        exact hnext
  exact hall ⟨reg', held'⟩ hmoves

end Moving

section Registering

variable {orb : Orb} {inst : Instance} {held : List Nat} {a : Nat}
  {history : List MapEvent} {pairs : List (Poa × ObjectId)}
  {entries : List (Nat × Bool)}

/-- A registration at work on a value it owns, with what the writes to the
fields of the value leave alone. -/
structure Registering (orb : Orb) (inst : Instance) (held : List Nat) (a : Nat)
    (history : List MapEvent) (pairs : List (Poa × ObjectId))
    (entries : List (Nat × Bool)) (s : MapperState) : Prop where
  kept : s.Sealed orb inst held
  owned : a ∈ held
  history : s.reg.history = history
  opened : s.opened = pairs
  registered : s.registered = entries

open ReferenceMapper

theorem update_registering {f : ReferenceMapValue → ReferenceMapValue}
    (horig : ∀ v, (f v).origRef = v.origRef)
    (hmapped : ∀ v, (f v).mappedRef = v.mappedRef)
    (hcount : ∀ v, (f v).refCount = v.refCount) :
    Action.Triple (Registering orb inst held a history pairs entries)
      (onRegistry (Registry.update a f))
      (fun _ => Registering orb inst held a history pairs entries)
      (fun s => s.Sealed orb inst held) := by
  intro s hs
  obtain ⟨v, hv, hrun⟩ := update_run hs.kept.safe hs.owned f
  have hmove : Move orb inst ⟨s.reg, held⟩
      ⟨s.reg.setValues (s.reg.values.write a (some (f v))), held⟩ :=
    .touch hs.owned hv (horig v) (hmapped v) (hcount v)
  rw [hrun]
  exact ⟨hs.kept.move hmove, hs.owned, hs.history, hs.opened, hs.registered⟩

theorem setAgent_registering (agent : Option ObjRef) :
    Action.Triple (Registering orb inst held a history pairs entries)
      (setAgent a agent)
      (fun _ => Registering orb inst held a history pairs entries)
      (fun s => s.Sealed orb inst held) := by
  cases agent with
  | none => exact Action.Triple.pure fun _ h => h
  | some agent => apply update_registering <;> intro v <;> rfl

theorem bindName_registering (mapped : ObjRef) (name : String) :
    Action.Triple (Registering orb inst held a history pairs entries)
      (bindName orb a mapped name)
      (fun _ => Registering orb inst held a history pairs entries)
      (fun s => s.Sealed orb inst held) := by
  apply Action.Triple.get
  intro s hs
  split
  · exact Action.Triple.pure fun _ h => h ▸ hs
  · split
    · exact Action.Triple.pure fun _ h => h ▸ hs
    · apply Action.Triple.bind (Q := fun _ =>
        Registering orb inst held a history pairs entries)
      · apply Action.Triple.modify
        rintro _ rfl
        exact ⟨⟨hs.kept.safe, hs.kept.traced, hs.kept.cached, hs.kept.past,
          hs.kept.closed⟩, hs.owned, hs.history, hs.opened, hs.registered⟩
      · intro _
        apply update_registering <;> intro v <;> rfl

/-- The registration is recorded. A secure one must find its id closed. -/
theorem register_registering (secure : Bool)
    (hclose : secure = true → ∀ m index,
      Stands history ⟨m, true⟩ (inst.objectId true index) a →
      (⟨m, true⟩, inst.objectId true index) ∉ pairs) :
    Action.Triple (Registering orb inst held a history pairs entries)
      (Action.modify fun s =>
        { s with registered := (a, secure) :: s.registered } : MapperM Unit)
      (fun _ => Registering orb inst held a history pairs ((a, secure) :: entries))
      (fun s => s.Sealed orb inst held) := by
  apply Action.Triple.modify
  intro s hs
  refine ⟨⟨hs.kept.safe, hs.kept.traced, hs.kept.cached, ?_, ?_⟩, hs.owned,
    hs.history, hs.opened, by rw [hs.registered]⟩
  · intro entry hentry
    rcases List.mem_cons.mp hentry with rfl | hentry
    · obtain ⟨v, hv⟩ := hs.kept.safe.held_cell hs.owned
      exact RegistryState.lt_fresh hs.kept.safe.fresh hv
    · exact hs.kept.past entry hentry
  · intro m index b hb hsecure
    change (_, _) ∉ s.opened
    dsimp only at hsecure
    rw [List.lookup_cons] at hsecure
    split at hsecure
    · next heq =>
        obtain rfl := beq_iff_eq.mp heq
        rw [hs.opened]
        apply hclose (Option.some.inj hsecure) m index
        rw [← hs.history]
        exact Registry.mem_liveAt.mp hb
    · exact hs.kept.closed m index b hb hsecure

/-- Opening the pair a reference resolves to does not open a standing mapping
that was last registered as secure. -/
def MayOpen (orb : Orb) (history : List MapEvent) (entries : List (Nat × Bool))
    (ref : ObjRef) : Prop :=
  ∀ m oid, orb.referenceToId ⟨m, true⟩ ref = .ok oid →
    ∀ b, Stands history ⟨m, true⟩ oid b → entries.lookup b ≠ some true

theorem poaAndObjectId_run (orb : Orb) (ref : ObjRef) (chain : List ProxyMapper)
    (m : Nat) (reg : Registry) :
    ((Registry.poaAndObjectId orb ref chain m).run reg).2 = reg ∧
    ∀ pair, ((Registry.poaAndObjectId orb ref chain m).run reg).1 =
        .ok (some pair) →
      ∃ k, pair.1 = ⟨k, true⟩ ∧ orb.referenceToId ⟨k, true⟩ ref = .ok pair.2 := by
  induction chain generalizing m with
  | nil =>
      refine ⟨rfl, ?_⟩
      intro pair h
      cases h
  | cons mapper next ih =>
      unfold Registry.poaAndObjectId
      split
      · cases href : orb.referenceToId ⟨m, true⟩ ref with
        | ok oid =>
            refine ⟨rfl, ?_⟩
            rintro _ ⟨⟩
            exact ⟨m, rfl, href⟩
        | error e =>
            cases e <;> refine ⟨rfl, ?_⟩ <;> intro pair h <;> cases h
      · exact ih (m + 1)

/-- Opening a pair changes the access list alone. -/
theorem openUnlessSecure_keeps {I : MapperState → Prop}
    (hopen : ∀ s pairs, I s → I { s with accessDecision := pairs }) (requireSecure : Bool)
    (mapped : ObjRef) : Action.Keeps I (openUnlessSecure orb requireSecure mapped) := by
  cases requireSecure with
  | true => exact .pure _
  | false =>
      apply Action.Keeps.get.bind
      intro s
      split
      · exact .pure _
      · split
        · refine Action.Keeps.bind ?_ ?_
          · intro s' hs'
            obtain ⟨hstate, -⟩ := poaAndObjectId_run orb mapped s.reg.mappers 0 s'.reg
            unfold onRegistry
            rw [Action.run_zoom, hstate]
            cases ((Registry.poaAndObjectId orb mapped s.reg.mappers 0).run s'.reg).1 with
            | ok pair => exact hs'
            | raised e => exact hs'
            | fault cause => trivial
          · intro pair
            cases pair with
            | none => exact .pure _
            | some pair => exact .modify fun s hs => hopen s _ hs
        · exact .pure _

theorem allowInsecureAccess_registering (ref : ObjRef)
    (hopen : MayOpen orb history entries ref) :
    Action.Triple (Registering orb inst held a history pairs entries)
      (allowInsecureAccess orb ref)
      (fun _ s => ∃ pairs', Registering orb inst held a history pairs' entries s)
      (fun s => s.Sealed orb inst held) := by
  apply Action.Triple.get
  intro s hs
  split
  · exact Action.Triple.pure fun _ h => h ▸ ⟨pairs, hs⟩
  · next known hdecision =>
      split
      · intro s' hs'
        subst s'
        obtain ⟨hstate, hpair⟩ :=
          poaAndObjectId_run orb ref s.reg.mappers 0 s.reg
        have hlookup : (onRegistry
            (Registry.poaAndObjectId orb ref s.reg.mappers 0)).run s =
            (((Registry.poaAndObjectId orb ref s.reg.mappers 0).run s.reg).1,
              s) := by
          unfold onRegistry
          rw [Action.run_zoom, hstate]
        rw [Action.run_bind, hlookup]
        cases houtcome : ((Registry.poaAndObjectId orb ref s.reg.mappers 0).run
            s.reg).1 with
        | ok result =>
            cases result with
            | none => exact ⟨pairs, hs⟩
            | some pair =>
                obtain ⟨k, hpoa, hid⟩ := hpair pair houtcome
                have hknown : s.opened = known := by simp [opened, hdecision]
                refine ⟨pair :: known, ⟨hs.kept.safe, hs.kept.traced,
                  hs.kept.cached, hs.kept.past, ?_⟩, hs.owned, hs.history, rfl,
                  hs.registered⟩
                intro m index b hb hsecure
                change (_, _) ∉ pair :: known
                rw [List.mem_cons, not_or, ← hknown]
                refine ⟨?_, hs.kept.closed m index b hb hsecure⟩
                rintro rfl
                obtain rfl : m = k := by simpa using hpoa
                apply hopen m _ hid b
                · rw [← hs.history]
                  exact Registry.mem_liveAt.mp hb
                · rw [← hs.registered]
                  exact hsecure
        | raised e => exact hs.kept
        | fault cause => trivial
      · exact Action.Triple.pure fun _ h => h ▸ ⟨pairs, hs⟩

/-- What a registration needs to know of the value the registry gave it. -/
structure Registrable (orb : Orb) (inst : Instance) (requireSecure : Bool)
    (a : Nat) (history : List MapEvent) (pairs : List (Poa × ObjectId))
    (entries : List (Nat × Bool)) (mapped : ObjRef) : Prop where
  close : requireSecure = true → ∀ m index,
    Stands history ⟨m, true⟩ (inst.objectId true index) a →
    (⟨m, true⟩, inst.objectId true index) ∉ pairs
  opens : requireSecure = false →
    MayOpen orb history ((a, false) :: entries) mapped

theorem registerServer_sealed (requireSecure : Bool) (name : String)
    (agent : Option ObjRef) (mapped : ObjRef)
    (h : Registrable orb inst requireSecure a history pairs entries mapped) :
    Action.Triple (Registering orb inst held a history pairs entries)
      (registerServer orb requireSecure name agent a mapped)
      (fun _ s => s.Sealed orb inst held) (fun s => s.Sealed orb inst held) := by
  apply (bindName_registering mapped name).bind
  intro _
  apply Action.Triple.bind (Q := fun _ =>
    Registering orb inst held a history pairs entries)
  · apply update_registering <;> intro v <;> rfl
  intro _
  apply (register_registering requireSecure h.close).bind
  intro _
  apply Action.Triple.bind (Q := fun _ s => ∃ pairs', Registering orb inst held a
    history pairs' ((a, requireSecure) :: entries) s)
  · cases requireSecure with
    | true => exact Action.Triple.pure fun _ h => ⟨pairs, h⟩
    | false => exact allowInsecureAccess_registering mapped (h.opens rfl)
  intro _
  apply Action.Triple.bind (Q := fun _ s => s.Sealed orb inst held)
  · rintro s ⟨pairs', hs⟩
    have hset := @setAgent_registering orb inst held a history pairs'
      ((a, requireSecure) :: entries) agent
    exact hset.weaken (fun _ h => h) (fun _ _ h => h.kept) (fun _ h => h) s hs
  intro _
  exact Action.Triple.pure fun _ h => h

end Registering

section Returned

variable {orb : Orb} {inst : Instance} {reg reg' : Registry} {held : List Nat}
  {native : ObjRef} {secure : Bool} {a : Nat}

/-- The value an out-facing `map_reference` returns: the occupant of the slot
the key leads to, the reverse of that occupant, or a new value, which the
table has taken or refused. -/
inductive Returned (orb : Orb) (inst : Instance) (reg : Registry)
    (native : ObjRef) (m : Nat) (t : RMVByMapped Nat) (a : Nat)
    (reg' : Registry) : Prop where
  | found (index : UInt32)
      (hstatus : inst.alreadyMapped native.key true t.peekIndex =
        (.alreadyMapped, index))
      (hslot : reg'.slotOf m index.toNat = some a)
      (hhistory : reg'.history = reg.history)
  | reversed (b : Nat) (v : ReferenceMapValue) (hbound : reg.Bound b)
      (hv : reg.values.cells b = some v)
      (ha : a = reg.values.fresh) (hcell : reg'.values.cells a = some v.reverse)
      (hhistory : reg'.history = reg.history)
  | made (ref : ObjRef) (v : ReferenceMapValue)
      (hstatus : inst.alreadyMapped native.key true t.peekIndex =
        (.notMapped, t.peekIndex))
      (hcreate : orb.createReferenceWithId ⟨m, true⟩
        (inst.objectId true t.peekIndex) native.typeId = .ok ref)
      (ha : a = reg.values.fresh) (hcell : reg'.values.cells a = some v)
      (hmapped : v.mappedRef = ref)
      (hhistory : reg'.history = reg.history ∨ reg'.history =
        .mapped ⟨m, true⟩ (inst.objectId true t.peekIndex) native a ::
          reg.history)

theorem addNativeHere_returned (hsafe : RegistryState.Safe ⟨reg, held⟩)
    {m : Nat} {t : RMVByMapped Nat} (ht : reg.table m = some t)
    (hrun : (Registry.addNativeHere orb inst m native native.typeId true
      secure).run reg = (.ok (some a), reg')) :
    Returned orb inst reg native m t a reg' := by
  have hcover := hsafe.cover m t ht
  cases hours : inst.ours native.key with
  | false =>
      have hzero := (inst.ours_eq_false_iff _ true 0).mp hours
      have hstatus := (inst.ours_eq_false_iff _ true t.peekIndex).mp hours
      rw [Registry.run_addNativeHere_new orb inst 0 (Or.inr hzero)] at hrun
      have hunchecked := Registry.run_addNativeUnchecked orb inst ht hcover native
        native.typeId true secure
      cases hcreate : orb.createReferenceWithId ⟨m, true⟩
          (inst.objectId true t.peekIndex) native.typeId with
      | error e =>
          rw [hcreate] at hunchecked
          rw [Action.run_bind_raised hunchecked] at hrun
          cases hrun
      | ok ref =>
          rw [hcreate] at hunchecked
          rw [Action.run_bind_ok hunchecked] at hrun
          obtain ⟨⟨⟩, rfl⟩ := Prod.mk.inj hrun
          refine .made ref (if t.peekIndex < t.nextIndex.2.limit ∧
              t.nextIndex.2.slot t.peekIndex.toNat = none
            then reg.newValue native ref secure 2
            else reg.newValue native ref secure 1) hstatus hcreate rfl ?_ ?_ ?_
          · split <;> exact Heap.write_cells_self _ _ _
          · split <;> rfl
          · split
            · exact Or.inr rfl
            · exact Or.inl rfl
  | true =>
      obtain ⟨key, hkey, hlong, howns⟩ := (inst.ours_iff _).mp hours
      obtain ⟨index, -, hstatus⟩ := alreadyMapped_owned true hkey hlong howns
      by_cases hletter : (keyTail key)[5]? = some (inOut true)
      · simp only [if_pos hletter] at hstatus
        rw [Registry.run_addNativeHere_already orb inst ht (hstatus 0)] at hrun
        cases hlookup : Registry.lookup t index with
        | none =>
            rw [Registry.run_find_miss ht hcover hlookup] at hrun
            cases hrun
        | some b =>
            obtain ⟨v, hv, -⟩ := Registry.lookup_cell hsafe ht hlookup
            rw [Registry.run_find_hit ht hcover hlookup hv] at hrun
            obtain ⟨⟨⟩, rfl⟩ := Prod.mk.inj hrun
            refine .found index (hstatus _) ?_ rfl
            rw [Registry.setValues_slotOf]
            exact Registry.lookup_slot ht hlookup
      · simp only [if_neg hletter] at hstatus
        cases hlookup : Registry.lookup t index with
        | none =>
            rw [Registry.run_addNativeHere_reverse_miss orb inst ht hcover
              (hstatus 0) hlookup] at hrun
            cases hrun
        | some b =>
            obtain ⟨v, hv, hcount⟩ := Registry.lookup_cell hsafe ht hlookup
            rw [Registry.run_addNativeHere_reverse_hit orb inst ht hcover
              (hstatus 0) hlookup hv hcount
              (RegistryState.lt_fresh hsafe.fresh hv).ne] at hrun
            obtain ⟨⟨⟩, rfl⟩ := Prod.mk.inj hrun
            have hslot := Registry.lookup_slot ht hlookup
            exact .reversed b v ⟨m, _, hslot⟩ hv rfl
              (Heap.write_cells_self _ _ _) rfl

variable {s : RegistryState} {v : ReferenceMapValue} {m i k : Nat}
  {oid : ObjectId}

/-- The mapped reference of a bound value resolves to the id it was made with,
and no other standing mapping has that id. -/
theorem stands_bound (horb : orb.Lawful) (htraced : s.Traced orb inst)
    (hslot : s.reg.slotOf m i = some a) (hv : s.reg.values.cells a = some v)
    (hid : orb.referenceToId ⟨k, true⟩ v.mappedRef = .ok oid) {b : Nat}
    (hb : Stands s.reg.history ⟨k, true⟩ oid b) : b = a := by
  obtain ⟨outFacing, index, native, v', hi, -, -, hv', -, hcreate⟩ :=
    htraced.made m i a hslot
  obtain rfl := Option.some.inj (hv'.symm.trans hv)
  have hpoa := horb.to_id_other _ _ _ _ _ _ hcreate hid
  obtain ⟨rfl, rfl⟩ := Poa.mk.inj hpoa
  have hown := horb.to_id_own _ _ _ _ hcreate
  obtain rfl := Except.ok.inj (hown.symm.trans hid)
  obtain ⟨native', hmapped, hstands⟩ := hb
  obtain ⟨index', hoid, hslot'⟩ := htraced.live _ _ _ _ hmapped hstands
  obtain ⟨-, rfl⟩ := inst.objectId_injective hoid
  rw [hi, hslot'] at hslot
  exact Option.some.inj hslot

/-- The native of a bound value resolves to no standing mapping of any POA. -/
theorem not_stands_native (horb : orb.Lawful) (htraced : s.Traced orb inst)
    (hbound : s.reg.Bound a) (hv : s.reg.values.cells a = some v)
    (hid : orb.referenceToId ⟨k, true⟩ v.origRef = .ok oid) (b : Nat) :
    ¬ Stands s.reg.history ⟨k, true⟩ oid b := by
  rintro ⟨native', hmapped', hstands⟩
  obtain ⟨m, i, hslot⟩ := hbound
  obtain ⟨outFacing, index, native, v', -, hmapped, -, hv', horig, -⟩ :=
    htraced.made m i a hslot
  obtain rfl := Option.some.inj (hv'.symm.trans hv)
  obtain ⟨index', rfl, -⟩ := htraced.live _ _ _ _ hmapped' hstands
  obtain ⟨before, hkey⟩ := horb.to_id_key _ _ _ hid
  have hforeign := htraced.foreign _ _ _ _ hmapped
  have hsame : v'.origRef.key = native.key := by
    rw [horig, Registry.origRef]
    split <;> rfl
  have hours : inst.ours native.key = true := by
    refine (inst.ours_iff _).mpr ⟨_, hsame.symm.trans hkey, by simp, ?_⟩
    rw [keyTail_append before (inst.objectId_length _ _)]
    exact inst.owns_objectId _ _
  rw [hforeign] at hours
  cases hours

/-- Nothing stands at an address that was not given out yet. -/
theorem not_stands_fresh {s : RegistryState} (htraced : s.Traced orb inst) (poa : Poa)
    (oid : ObjectId) : ¬ Stands s.reg.history poa oid s.reg.values.fresh := by
  rintro ⟨native, hmapped, -⟩
  exact lt_irrefl _ (htraced.past _ _ _ _ (Or.inl hmapped))

/-- Where `as_secure_server` may go ahead, no standing mapping of its value has
an id that was opened. -/
theorem unopened_of_returned {s : MapperState} {t : RMVByMapped Nat}
    (h : s.Sealed orb inst held)
    (h' : Sealed orb inst { s with reg := reg' } (a :: held))
    (hhandler : s.reg.handler native.typeId = some m)
    (ht : s.reg.table m = some t)
    (hreturned : Returned orb inst s.reg native m t a reg')
    {name : String} {agent : Option ObjRef}
    (hadm : s.admissible inst (.asSecureServer (some native) name agent) = true)
    {m' : Nat} {index' : UInt32}
    (hstands : Stands reg'.history ⟨m', true⟩ (inst.objectId true index') a) :
    (⟨m', true⟩, inst.objectId true index') ∉ s.opened := by
  cases hreturned with
  | found index hstatus hslot hhistory =>
      simp only [admissible, destination, hhandler, ht, hstatus,
        Option.bind_some, Option.map_some, decide_eq_true_eq] at hadm
      obtain ⟨native', hmapped, hnot⟩ := hstands
      obtain ⟨j, hoid, hslot'⟩ := h'.traced.live _ _ _ _ hmapped hnot
      obtain ⟨-, rfl⟩ := inst.objectId_injective hoid
      obtain ⟨rfl, hj⟩ := h'.safe.injective _ _ _ _ _ hslot' hslot
      obtain rfl := UInt32.toNat_inj.mp hj
      apply hadm.resolve_left
      apply List.ne_nil_of_mem (a := a)
      apply Registry.mem_liveAt.mpr
      rw [← hhistory]
      exact ⟨native', hmapped, hnot⟩
  | reversed b w hbound hw ha hcell hhistory =>
      rw [hhistory, ha] at hstands
      exact absurd hstands (not_stands_fresh h.traced _ _)
  | made ref w hstatus hcreate ha hcell hmappedRef hhistory =>
      simp only [admissible, destination, hhandler, ht, hstatus,
        Option.bind_some, Option.map_some, decide_eq_true_eq] at hadm
      rcases hhistory with hhistory | hhistory
      · rw [hhistory, ha] at hstands
        exact absurd hstands (not_stands_fresh h.traced _ _)
      · obtain ⟨native', hmapped, hnot⟩ := hstands
        rw [hhistory] at hmapped hnot
        simp only [List.mem_cons, reduceCtorEq, false_or] at hmapped hnot
        rcases hmapped with heq | hmapped
        · obtain ⟨hpoa, hoid, -⟩ := MapEvent.mapped.inj heq
          rw [hpoa, hoid]
          exact hadm
        · rw [ha] at hmapped hnot
          exact absurd ⟨native', hmapped, hnot⟩ (not_stands_fresh h.traced _ _)

/-- Where `as_server` may go ahead, whatever stands at the id it opens is its
own value or was last registered as insecure. -/
theorem unlisted_of_returned (horb : orb.Lawful) {s : MapperState} {t : RMVByMapped Nat}
    (h : s.Sealed orb inst held)
    (h' : Sealed orb inst { s with reg := reg' } (a :: held))
    (hhandler : s.reg.handler native.typeId = some m)
    (ht : s.reg.table m = some t)
    (hreturned : Returned orb inst s.reg native m t a reg')
    {name : String} {agent : Option ObjRef}
    (hadm : s.admissible inst (.asServer (some native) name agent) = true)
    (hv : reg'.values.cells a = some v) (hid : orb.referenceToId ⟨k, true⟩ v.mappedRef = .ok oid)
    {b : Nat} (hstands : Stands reg'.history ⟨k, true⟩ oid b) :
    b = a ∨ s.registered.lookup b ≠ some true := by
  cases hreturned with
  | found index hstatus hslot hhistory =>
      exact Or.inl (stands_bound horb h'.traced hslot hv hid hstands)
  | reversed b' w hbound hw ha hcell hhistory =>
      obtain rfl := Option.some.inj (hcell.symm.trans hv)
      rw [hhistory] at hstands
      exact absurd hstands
        (not_stands_native horb h.traced hbound hw hid b)
  | made ref w hstatus hcreate ha hcell hmappedRef hhistory =>
      rcases hhistory with hhistory | hhistory
      · obtain rfl := Option.some.inj (hcell.symm.trans hv)
        obtain rfl := hmappedRef
        simp only [admissible, destination, hhandler, ht, hstatus,
          Option.bind_some, Option.map_some, List.all_eq_true,
          decide_eq_true_eq] at hadm
        obtain ⟨rfl, -⟩ := Poa.mk.inj
          (horb.to_id_other _ _ _ _ _ _ hcreate hid)
        obtain rfl := Except.ok.inj
          ((horb.to_id_own _ _ _ _ hcreate).symm.trans hid)
        rw [hhistory] at hstands
        exact Or.inr (hadm b (Registry.mem_liveAt.mpr hstands))
      · have hmade : .mapped ⟨m, true⟩ (inst.objectId true t.peekIndex) native a ∈
            reg'.history := hhistory ▸ List.mem_cons_self
        have hnew : .removed a ∉ reg'.history := by
          rw [hhistory, ha]
          simp only [List.mem_cons, reduceCtorEq, false_or]
          intro hremoved
          exact lt_irrefl _ (h.traced.past ⟨0, true⟩ [] native _ (Or.inr hremoved))
        obtain ⟨j, -, hslot⟩ := h'.traced.live _ _ _ _ hmade hnew
        exact Or.inl (stands_bound horb h'.traced hslot hv hid hstands)

/-- An admissible registration finds its value registrable. -/
theorem registrable_of_returned (horb : orb.Lawful) {s : MapperState}
    {t : RMVByMapped Nat} (h : s.Sealed orb inst held)
    (h' : Sealed orb inst { s with reg := reg' } (a :: held))
    (hhandler : s.reg.handler native.typeId = some m)
    (ht : s.reg.table m = some t)
    (hreturned : Returned orb inst s.reg native m t a reg')
    {name : String} {agent : Option ObjRef}
    (hsecure : secure = true →
      s.admissible inst (.asSecureServer (some native) name agent) = true)
    (hinsecure : secure = false →
      s.admissible inst (.asServer (some native) name agent) = true)
    (hv : reg'.values.cells a = some v) :
    Registrable orb inst secure a reg'.history s.opened s.registered
      v.mappedRef := by
  constructor
  · intro hs m' index' hstands
    exact unopened_of_returned h h' hhandler ht hreturned (hsecure hs) hstands
  · intro hs k oid hid b hstands
    have hb := unlisted_of_returned horb h h' hhandler ht hreturned (hinsecure hs) hv hid hstands
    rw [List.lookup_cons]
    split
    · simp
    · next hne => exact hb.resolve_left (by simpa using hne)

end Returned

section Steps

variable {orb : Orb} {inst : Instance} {held : List Nat}

open ReferenceMapper

/-- An operation of the registry as the invariant of the mapper sees it. -/
theorem onRegistry_sealed {x : RegistryM (Option Nat)}
    (hx : ∀ reg, RegistryState.Safe ⟨reg, held⟩ →
      Registry.Advances orb inst reg held (x.run reg)) :
    Action.Triple (fun s => s.Sealed orb inst held) (onRegistry x)
      (fun r s => s.Sealed orb inst (r.toList ++ held))
      (fun s => s.Sealed orb inst held) := by
  intro s hs
  have hadv := hx s.reg hs.safe
  unfold onRegistry
  rw [Action.run_zoom]
  cases hrun : x.run s.reg with
  | mk outcome reg' =>
      rw [hrun] at hadv
      cases outcome with
      | ok r => exact hs.moves hadv
      | raised e => exact hs.moves hadv
      | fault cause => trivial

/-- The end of a scope gives back the count of its variable. -/
theorem release_sealed (a : Nat) :
    Action.Triple (fun s => s.Sealed orb inst (a :: held))
      (onRegistry (Registry.decrRefcount a))
      (fun _ s => s.Sealed orb inst held) (fun s => s.Sealed orb inst held) := by
  intro s hs
  obtain ⟨values, -, hrun, hmove⟩ := run_release orb inst hs.safe
  rw [hrun]
  exact hs.move hmove

/-- A scope that reads the value it owns and then keeps the invariant. -/
theorem scope_sealed {α : Type} {a : Nat} {f : ReferenceMapValue → MapperM α}
    (hf : ∀ v, Action.Triple (fun s => s.Sealed orb inst (a :: held)) (f v)
      (fun _ s => s.Sealed orb inst (a :: held))
      (fun s => s.Sealed orb inst (a :: held))) :
    Action.Triple (fun s => s.Sealed orb inst (a :: held))
      (Action.inScope (do let v ← onRegistry (Registry.readValue a); f v)
        (onRegistry (Registry.decrRefcount a)))
      (fun _ s => s.Sealed orb inst held) (fun s => s.Sealed orb inst held) := by
  apply scope_triple (fun s hs => hs.safe) ?_ (release_sealed a)
  exact fun v => (hf v).weaken (fun _ h => h.1) (fun _ _ h => h) fun _ h => h

/-- The part of `as_server_i` that owns the value. -/
theorem registerScope_sealed {a : Nat} {history : List MapEvent}
    {pairs : List (Poa × ObjectId)} {entries : List (Nat × Bool)}
    (secure : Bool) (name : String) (agent : Option ObjRef) :
    Action.Triple
      (fun s => Registering orb inst (a :: held) a history pairs entries s ∧
        ∀ v, s.reg.values.cells a = some v →
          Registrable orb inst secure a history pairs entries v.mappedRef)
      (Action.inScope
        (do let v ← onRegistry (Registry.readValue a)
            registerServer orb secure name agent a v.mappedRef)
        (onRegistry (Registry.decrRefcount a)))
      (fun _ s => s.Sealed orb inst held) (fun s => s.Sealed orb inst held) := by
  apply scope_triple (fun s hs => hs.1.kept.safe) ?_ (release_sealed a)
  rintro v s ⟨⟨hs, hregistrable⟩, hv⟩
  exact registerServer_sealed secure name agent v.mappedRef (hregistrable v hv) s hs

/-- An admissible registration keeps the invariant. -/
theorem asServerI_sealed (horb : orb.Lawful) (secure : Bool) (orig : ObjRef)
    (name : String) (agent : Option ObjRef) :
    Action.Triple
      (fun s => s.Sealed orb inst [] ∧
        (secure = true →
          s.admissible inst (.asSecureServer (some orig) name agent) = true) ∧
        (secure = false →
          s.admissible inst (.asServer (some orig) name agent) = true))
      (asServerI orb inst secure orig name agent)
      (fun _ s => s.Sealed orb inst []) (fun s => s.Sealed orb inst []) := by
  rintro s ⟨hs, hsecure, hinsecure⟩
  have hmap := onRegistry_sealed (fun reg hsafe =>
    Registry.mapReference_advances orb inst hsafe orig true secure) s hs
  have hspec := Registry.run_mapReference orb inst s.reg orig true secure
  unfold asServerI
  rw [Action.run_bind]
  unfold onRegistry at hmap ⊢
  rw [Action.run_zoom] at hmap ⊢
  cases hrun : (Registry.mapReference orb inst orig true secure).run s.reg with
  | mk outcome reg' =>
      rw [hrun] at hmap hspec
      cases outcome with
      | raised e => exact hmap
      | fault cause => trivial
      | ok r =>
          cases r with
          | none => exact hmap
          | some a =>
              cases hhandler : s.reg.handler orig.typeId with
              | none =>
                  rw [hhandler] at hspec
                  cases hspec
              | some m =>
                  rw [hhandler] at hspec
                  obtain ⟨t, ht⟩ := hs.cached m (Registry.handler_lt hhandler)
                  have hreturned := addNativeHere_returned hs.safe ht hspec.symm
                  have hregistrable : ∀ v, reg'.values.cells a = some v →
                      Registrable orb inst secure a reg'.history s.opened
                        s.registered v.mappedRef := fun v hv =>
                    registrable_of_returned horb hs hmap hhandler ht hreturned
                      hsecure hinsecure hv
                  exact registerScope_sealed secure name agent _
                    ⟨⟨hmap, List.mem_cons_self, rfl, rfl, rfl⟩, hregistrable⟩

/-- A client registration records nothing about security. -/
theorem asClient_sealed (orig : Option ObjRef) :
    Action.Triple (fun s => s.Sealed orb inst held) (asClient orb inst orig)
      (fun _ s => s.Sealed orb inst held) (fun s => s.Sealed orb inst held) := by
  cases orig with
  | none => exact Action.Triple.pure fun _ h => h
  | some orig =>
      apply (onRegistry_sealed fun reg hsafe =>
        Registry.mapReference_advances orb inst hsafe orig false false).bind
      intro r
      cases r with
      | none => exact Action.Triple.pure fun _ h => h
      | some a => exact scope_sealed fun v => Action.Triple.pure fun _ h => h

theorem unbindName_sealed (name : String) :
    Action.Triple (fun s => s.Sealed orb inst held) (unbindName name)
      (fun _ s => s.Sealed orb inst held) (fun s => s.Sealed orb inst held) := by
  apply Action.Triple.get
  intro s hs
  split
  · exact Action.Triple.fail
  · split
    · apply Action.Triple.modify
      rintro _ rfl
      exact ⟨hs.safe, hs.traced, hs.cached, hs.past, hs.closed⟩
    · exact Action.Triple.raise fun _ h => h ▸ hs

theorem removeServer_sealed (mapped : Option ObjRef) :
    Action.Triple (fun s => s.Sealed orb inst held) (removeServer orb mapped)
      (fun _ s => s.Sealed orb inst held) (fun s => s.Sealed orb inst held) := by
  cases mapped with
  | none => exact Action.Triple.pure fun _ h => h
  | some mapped =>
      apply (onRegistry_sealed fun reg hsafe =>
        Registry.removeReference_advances orb inst hsafe mapped true).bind
      intro r
      cases r with
      | none => exact Action.Triple.pure fun _ h => h
      | some a =>
          apply scope_sealed
          intro v
          split
          · exact Action.Triple.pure fun _ h => h
          · exact unbindName_sealed v.iorTableName

theorem removeClient_sealed (mapped : Option ObjRef) :
    Action.Triple (fun s => s.Sealed orb inst held) (removeClient orb mapped)
      (fun _ s => s.Sealed orb inst held) (fun s => s.Sealed orb inst held) := by
  cases mapped with
  | none => exact Action.Triple.pure fun _ h => h
  | some mapped =>
      apply (onRegistry_sealed fun reg hsafe =>
        Registry.removeReference_advances orb inst hsafe mapped false).bind
      intro r
      cases r with
      | none => exact Action.Triple.pure fun _ h => h
      | some a => exact release_sealed a

/-- Every admissible step keeps secure mappings closed. -/
theorem Sealed.step (horb : orb.Lawful) {s s' : MapperState} {op : ServerOp}
    (hs : s.Sealed orb inst []) (hadm : s.admissible inst op = true)
    (hstep : s.step orb inst op = some s') : s'.Sealed orb inst [] := by
  cases op with
  | asServer orig name agent =>
      cases orig with
      | none =>
          obtain rfl := Option.some.inj hstep
          exact hs
      | some orig =>
          exact after_triple (asServerI_sealed horb false orig name agent)
            (fun _ _ h => h) ⟨hs, nofun, fun _ => hadm⟩ hstep
  | asSecureServer orig name agent =>
      have hsecure : Action.Triple (fun s => s.Sealed orb inst [] ∧
            s.admissible inst (.asSecureServer orig name agent) = true)
          (asSecureServer orb inst orig name agent)
          (fun _ s => s.Sealed orb inst []) (fun s => s.Sealed orb inst []) := by
        apply asSecureServer_triple fun _ h => h.1
        rintro native rfl s ⟨hs, hadm⟩
        exact asServerI_sealed horb true native name agent s ⟨hs, fun _ => hadm, nofun⟩
      exact after_triple hsecure (fun _ _ h => h) ⟨hs, hadm⟩ hstep
  | removeServer mapped =>
      exact after_triple (removeServer_sealed mapped) (fun _ _ h => h) hs hstep
  | asClient orig => exact after_triple (asClient_sealed orig) (fun _ _ h => h) hs hstep
  | asClientWithCorbaloc corbaloc id =>
      exact after_triple (asClientWithCorbaloc_triple asClient_sealed) (fun _ _ h => h) hs hstep
  | removeClient mapped =>
      exact after_triple (removeClient_sealed mapped) (fun _ _ h => h) hs hstep
  | reap m page offset =>
      obtain ⟨t, ht, hoffset, hpage, hstep⟩ := step_reap hstep
      obtain ⟨reg', hrun, hmoves⟩ := RegistryState.reap_moves hs.safe ht hoffset hpage
      unfold onRegistry at hstep
      rw [Action.run_zoom, hrun] at hstep
      obtain rfl := Option.some.inj hstep
      exact hs.moves hmoves
  | evaluators answers =>
      obtain rfl := Option.some.inj hstep
      exact hs.move (.evaluators answers)

theorem initial_sealed (hasSecurity : Bool) (answers : List (String → Bool))
    (hasTable hasDecision : Bool) :
    (initial true hasSecurity answers hasTable hasDecision).Sealed orb inst [] := by
  have hreach : (registrySystem orb inst true).Reachable
      (RegistryState.initial true hasSecurity answers) := .start ⟨_, _, rfl⟩
  obtain ⟨hsafe, htraced⟩ := RegistryState.sound_of_reach hreach
  refine ⟨hsafe, htraced, RegistryState.cached_of_reach hreach, ?_, ?_⟩
  · intro entry hentry
    cases hentry
  · intro m index a _ hsecure
    cases hsecure

/-- In every run of admissible steps a standing out-facing mapping that was
last registered as secure is closed to insecure access. -/
theorem secureClosed_of_reach (orb : Orb) (horb : orb.Lawful) (inst : Instance)
    (s : MapperState)
    (h : (mapperSystem orb inst true).Reach
      (fun s op => s.admissible inst op = true) s) :
    s.SecureClosed inst := by
  refine (h.invariant (I := fun s : MapperState => s.Sealed orb inst []) ?_
    ?_).closed
  · rintro _ ⟨hasSecurity, answers, hasTable, hasDecision, rfl⟩
    exact initial_sealed hasSecurity answers hasTable hasDecision
  · exact fun s op s' hs hadm hstep => hs.step horb hadm hstep

/-- A run with security available and one mapper that evaluates every type. -/
def securedRun (guard : MapperState → ServerOp → Bool) (ops : List ServerOp) :
    Option MapperState :=
  (mapperSystem Orb.plain ⟨7, 42⟩ true).replay (fun s op => guard s op = true)
    (initial true true [fun _ => true] true true) ops

theorem securedRun_reach {guard : MapperState → ServerOp → Bool}
    {ops : List ServerOp} {s : MapperState} (h : securedRun guard ops = some s) :
    (mapperSystem Orb.plain ⟨7, 42⟩ true).Reach (fun s op => guard s op = true) s :=
  System.Reach.of_replay (.start ⟨_, _, _, _, rfl⟩) ops h

theorem secureClosed_two_servers :
    ∃ s, securedRun (admissible ⟨7, 42⟩)
        [.asServer (some sampleNative) "open" none,
          .asSecureServer (some sampleNative) "closed" none] = some s ∧
      s.opened = [(⟨0, true⟩, Instance.objectId ⟨7, 42⟩ true 0)] ∧
      s.registered = [(1, true), (0, false)] ∧ s.SecureClosed ⟨7, 42⟩ := by
  obtain ⟨s, hs⟩ := Option.isSome_iff_exists.mp (show (securedRun
    (admissible ⟨7, 42⟩) [.asServer (some sampleNative) "open" none,
      .asSecureServer (some sampleNative) "closed" none]).isSome by decide)
  have hopened : s.opened = [(⟨0, true⟩, Instance.objectId ⟨7, 42⟩ true 0)] :=
    System.replay_read (fun s => s.opened) hs (by decide)
  have hregistered : s.registered = [(1, true), (0, false)] :=
    System.replay_read (fun s => s.registered) hs (by decide)
  exact ⟨s, hs, hopened, hregistered, secureClosed_of_reach Orb.plain
    Orb.plain_lawful ⟨7, 42⟩ s (securedRun_reach hs)⟩

/-- A server is registered and removed, and the index of its id comes back
for a secure one. -/
theorem not_secureClosed_reissued :
    ¬ ∀ (orb : Orb) (inst : Instance) (s : MapperState), orb.Lawful →
      (mapperSystem orb inst true).Reachable s → s.SecureClosed inst := by
  intro hall
  let mapped : ObjRef := ⟨"IDL:Test/Hello:1.0",
    some (Poa.name ⟨0, true⟩ ++ Instance.objectId ⟨7, 42⟩ true 0),
    "IOR:lorica", false, false⟩
  let ops : List ServerOp := [.asServer (some sampleNative) "" none,
    .removeServer (some mapped), .asSecureServer (some sampleNative) "" none]
  obtain ⟨s, hs⟩ := Option.isSome_iff_exists.mp (show
    (securedRun (fun _ _ => true) ops).isSome by decide)
  have hreach : (mapperSystem Orb.plain ⟨7, 42⟩ true).Reachable s :=
    (securedRun_reach hs).mono fun _ _ _ => trivial
  have hlive : s.reg.liveAt ⟨0, true⟩ (Instance.objectId ⟨7, 42⟩ true 0) = [1] :=
    System.replay_read (fun s => s.reg.liveAt ⟨0, true⟩
      (Instance.objectId ⟨7, 42⟩ true 0)) hs (by decide)
  have hsecure : s.registered.lookup 1 = some true :=
    System.replay_read (fun s => s.registered.lookup 1) hs (by decide)
  have hopened : s.opened = [(⟨0, true⟩, Instance.objectId ⟨7, 42⟩ true 0)] :=
    System.replay_read (fun s => s.opened) hs (by decide)
  have hclosed := hall Orb.plain ⟨7, 42⟩ s Orb.plain_lawful hreach 0 0 1
    (by rw [hlive]; exact List.mem_cons_self) hsecure
  rw [hopened] at hclosed
  exact hclosed List.mem_cons_self

end Steps

end MapperState

end Lorica
