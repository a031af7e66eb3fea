import Lorica.IorNames
import Lorica.Retrace

/-!
The names that the entries of the tables carry, in every run. Only
`as_server_i` writes one, after it has bound it in the IOR table, and a bound
name is not bound again; only `remove_server` unbinds one, that of the entry it
has just taken out. So the name of an entry is always bound, and no two
entries carry the same one.
-/

namespace Lorica

open Machine

namespace Registry

/-- The values have no names but these. -/
def NamedFrom (named : Nat → String) (reg : Registry) : Prop :=
  ∀ a v, reg.values.cells a = some v → v.iorTableName ≠ "" → v.iorTableName = named a

section Naming

variable {named : Nat → String} {reg : Registry}

theorem NamedFrom.write (h : reg.NamedFrom named) {a : Nat} {content : Option ReferenceMapValue}
    (hcontent : ∀ v, content = some v → v.iorTableName ≠ "" → v.iorTableName = named a) :
    (reg.setValues (reg.values.write a content)).NamedFrom named := by
  intro b v hv hname
  by_cases hb : b = a
  · subst hb
    rw [setValues_values, Heap.write_cells_self] at hv
    exact hcontent v hv hname
  · rw [setValues_values, Heap.write_cells_of_ne _ hb] at hv
    exact h b v hv hname

theorem NamedFrom.alloc (h : reg.NamedFrom named) {v : ReferenceMapValue}
    (hv : v.iorTableName = "") : (reg.setValues (reg.values.alloc v).2).NamedFrom named := by
  have hwrite : (reg.setValues (reg.values.write reg.values.fresh (some v))).NamedFrom named := by
    apply h.write
    rintro _ ⟨⟩ hname
    exact absurd hv hname
  exact hwrite

theorem keeps_derefTable (m : Nat) : Action.Keeps (NamedFrom named) (derefTable m) := by
  apply Action.Keeps.get.bind
  intro reg
  split
  · exact .pure _
  · exact .fail _

theorem keeps_readValue (a : Nat) : Action.Keeps (NamedFrom named) (readValue a) :=
  Action.Keeps.get.bind fun _ => .ofExcept _

theorem keeps_new {v : ReferenceMapValue} (hv : v.iorTableName = "") :
    Action.Keeps (NamedFrom named) (new v) := by
  intro reg h
  rw [run_new]
  exact h.alloc hv

theorem keeps_incrRefcount (a : Nat) : Action.Keeps (NamedFrom named) (incrRefcount a) := by
  intro reg h
  cases hv : reg.values.cells a with
  | none =>
      unfold incrRefcount
      rw [Action.run_bind_ok (Action.run_get reg), Heap.incrRefcount, Heap.read, hv]
      trivial
  | some v =>
      rw [run_incrRefcount hv]
      apply h.write
      rintro _ ⟨⟩ hname
      exact h a v hv hname

theorem keeps_decrRefcount (a : Nat) : Action.Keeps (NamedFrom named) (decrRefcount a) := by
  intro reg h
  cases hdecr : reg.values.decrRefcount a with
  | error cause =>
      unfold decrRefcount
      rw [Action.run_bind_ok (Action.run_get reg), hdecr]
      trivial
  | ok values =>
      rw [run_decrRefcount hdecr]
      obtain ⟨v, hv, ⟨-, rfl⟩ | ⟨-, rfl⟩⟩ := Heap.decrRefcount_cases hdecr
      · apply h.write
        rintro _ ⟨⟩ hname
        exact h a v hv hname
      · apply h.write
        intro w hw
        cases hw

theorem keeps_find (m : Nat) (index : UInt32) :
    Action.Keeps (NamedFrom named) (find m index) := by
  apply (keeps_derefTable m).bind
  intro t
  apply (Action.Keeps.ofExcept _).bind
  intro r
  cases r with
  | none => exact .pure _
  | some a => exact (keeps_incrRefcount a).bind fun _ => .pure _

theorem keeps_bind (poa : Poa) (index : UInt32) (oid : ObjectId) (native : ObjRef) (a : Nat) :
    Action.Keeps (NamedFrom named) (bind poa index oid native a) := by
  apply (keeps_derefTable _).bind
  intro t
  apply (Action.Keeps.ofExcept _).bind
  rintro ⟨bound, t'⟩
  cases bound with
  | false => exact .pure _
  | true => exact (keeps_incrRefcount a).bind fun _ => .modify fun _ h => h

theorem keeps_reap (m page offset : Nat) :
    Action.Keeps (NamedFrom named) (reap m page offset) := by
  apply (keeps_derefTable m).bind
  intro t
  split
  · exact .pure _
  · exact (keeps_decrRefcount _).bind fun _ => .modify fun _ h => h

variable (orb : Orb) (inst : Instance)

theorem keeps_getMappedObjectId (m : Nat) (outFacing : Bool) :
    Action.Keeps (NamedFrom named) (getMappedObjectId inst m outFacing) := by
  apply (keeps_derefTable m).bind
  intro t
  cases t.nextIndex with
  | mk index t' =>
      refine Action.Keeps.bind ?_ fun _ => .pure _
      exact .modify fun _ h => h

theorem keeps_createReferenceWithId (poa : Poa) (oid : ObjectId) (typeId : String) :
    Action.Keeps (NamedFrom named) (createReferenceWithId orb poa oid typeId) := by
  unfold createReferenceWithId
  split
  · exact .pure _
  · exact .raise _

/-- A new mapping starts without a name. -/
theorem keeps_addNativeUnchecked (m : Nat) (native : ObjRef) (typeId : String)
    (outFacing requireSecure : Bool) :
    Action.Keeps (NamedFrom named)
      (addNativeUnchecked orb inst m native typeId outFacing requireSecure) := by
  apply Action.Keeps.get.bind
  intro reg
  dsimp only
  split
  · apply (keeps_getMappedObjectId inst m outFacing).bind
    intro id
    apply (keeps_createReferenceWithId orb _ _ _).bind
    intro ref
    apply (keeps_new rfl).bind
    intro rmv
    exact (keeps_bind _ _ _ _ _).bind fun _ => .pure _
  · apply (Action.Keeps.pure _).bind
    intro id
    apply (keeps_createReferenceWithId orb _ _ _).bind
    intro ref
    exact (keeps_new rfl).bind fun _ => .pure _

theorem keeps_addNativeHere (m : Nat) (native : ObjRef) (typeId : String)
    (outFacing requireSecure : Bool) :
    Action.Keeps (NamedFrom named)
      (addNativeHere orb inst m native typeId outFacing requireSecure) := by
  apply Action.Keeps.get.bind
  intro reg
  dsimp only
  split
  · exact keeps_find _ _
  · apply (keeps_find _ _).bind
    intro found
    cases found with
    | none => exact .fail _
    | some a =>
        apply (keeps_readValue a).bind
        intro v
        apply (keeps_new rfl).bind
        intro reversed
        exact (keeps_decrRefcount a).bind fun _ => .pure _
  · exact (keeps_addNativeUnchecked orb inst _ _ _ _ _).bind fun _ => .pure _
  · exact .pure _

/-- `map_reference` names nothing. -/
theorem keeps_mapReference (native : ObjRef) (outFacing requireSecure : Bool) :
    Action.Keeps (NamedFrom named) (mapReference orb inst native outFacing requireSecure) := by
  intro reg h
  rw [run_mapReference]
  cases reg.handler native.typeId with
  | none => exact h
  | some m => exact keeps_addNativeHere orb inst m native _ outFacing requireSecure reg h

end Naming

/-- The name of a living value. -/
def nameOf (reg : Registry) (a : Nat) : String :=
  ((reg.values.cells a).map ReferenceMapValue.iorTableName).getD ""

theorem namedFrom_self (reg : Registry) : reg.NamedFrom reg.nameOf := by
  intro a v hv _
  simp [nameOf, hv]

/-- An entry of the tables carries the name. -/
def Carries (reg : Registry) (name : String) (a : Nat) : Prop :=
  name ≠ "" ∧ reg.Bound a ∧ ∃ v, reg.values.cells a = some v ∧ v.iorTableName = name

end Registry

section Before

variable {orb : Orb} {inst : Instance} {s s' : RegistryState} {m i a : Nat}

/-- A slot that holds an old value held it before: the history knows of no other
mapping of the value. -/
theorem Moves.slot_before (hsafe : s.Safe) (htraced : s.Traced orb inst)
    (hmoves : Moves orb inst s s') (ha : a < s.reg.values.fresh)
    (hslot : s'.reg.slotOf m i = some a) : s.reg.slotOf m i = some a := by
  obtain ⟨-, htraced'⟩ := htraced.moves hsafe hmoves
  obtain ⟨-, hgrown⟩ := RegistryState.Grown.moves hsafe hmoves
  obtain ⟨facing, index, native, v, rfl, hmapped, hstands, -, -, -⟩ := htraced'.made m i a hslot
  have hbefore := (hgrown.later _ _ _ _ hmapped).resolve_right (Nat.not_le.mpr ha)
  obtain ⟨index', hoid, hold⟩ :=
    htraced.live _ _ _ _ hbefore fun hremoved => hstands (hgrown.kept _ hremoved)
  obtain ⟨-, rfl⟩ := inst.objectId_injective hoid
  exact hold

/-- What names nothing gives no entry a name. -/
theorem Registry.Carries.before {reg reg' : Registry} {held held' : List Nat} {name : String}
    (hsafe : RegistryState.Safe ⟨reg, held⟩) (htraced : RegistryState.Traced orb inst ⟨reg, held⟩)
    (hmoves : Moves orb inst ⟨reg, held⟩ ⟨reg', held'⟩)
    (hnamed : ∀ named, reg.NamedFrom named → reg'.NamedFrom named) (h : reg'.Carries name a) :
    reg.Carries name a := by
  obtain ⟨hname, ⟨m, i, hslot⟩, v, hv, rfl⟩ := h
  have hbefore := hnamed reg.nameOf reg.namedFrom_self a v hv hname
  unfold nameOf at hbefore
  cases hold : reg.values.cells a with
  | none =>
      rw [hold] at hbefore
      exact absurd hbefore hname
  | some w =>
      rw [hold] at hbefore
      have ha : a < reg.values.fresh := RegistryState.lt_fresh hsafe.fresh hold
      exact ⟨hname, ⟨m, i, Moves.slot_before hsafe htraced hmoves ha hslot⟩, w, hold, hbefore.symm⟩

end Before

namespace MapperState

/-- The name of an entry is bound in the IOR table, and no other entry has it. -/
structure NamesBound (s : MapperState) : Prop where
  bound : ∀ name a, s.reg.Carries name a → (s.names.lookup name).isSome
  distinct : ∀ name a b, s.reg.Carries name a → s.reg.Carries name b → a = b

/-- The invariant of every run with the cache on, for the pointers callers own
at the time. -/
structure Orderly (orb : Orb) (inst : Instance) (held : List Nat) (s : MapperState) :
    Prop where
  safe : RegistryState.Safe ⟨s.reg, held⟩
  traced : RegistryState.Traced orb inst ⟨s.reg, held⟩
  cached : RegistryState.Cached ⟨s.reg, held⟩
  named : s.NamesBound

variable {orb : Orb} {inst : Instance} {s : MapperState} {held : List Nat} {a : Nat}

/-- Moves of the registry that name nothing keep the invariant. -/
theorem Orderly.moves {reg' : Registry} {held' : List Nat} (h : s.Orderly orb inst held)
    (hmoves : Moves orb inst ⟨s.reg, held⟩ ⟨reg', held'⟩)
    (hcarries : ∀ name a, reg'.Carries name a → s.reg.Carries name a) :
    Orderly orb inst held' { s with reg := reg' } := by
  obtain ⟨hsafe, htraced⟩ := h.traced.moves h.safe hmoves
  refine ⟨hsafe, htraced, h.cached.moves hmoves, ?_, ?_⟩
  · intro name b hb
    exact h.named.bound name b (hcarries name b hb)
  · intro name b c hb hc
    exact h.named.distinct name b c (hcarries name b hb) (hcarries name c hc)

/-- What the invariant does not speak of may change. -/
theorem Orderly.congr {s' : MapperState} (h : s.Orderly orb inst held) (hreg : s'.reg = s.reg)
    (htable : s'.iorTable = s.iorTable) : s'.Orderly orb inst held := by
  refine ⟨hreg ▸ h.safe, hreg ▸ h.traced, hreg ▸ h.cached, ?_, ?_⟩
  · rw [hreg]
    unfold MapperState.names
    rw [htable]
    exact h.named.bound
  · rw [hreg]
    exact h.named.distinct

section Registering

open ReferenceMapper

/-- An operation of the registry that names nothing. -/
theorem onRegistry_orderly {x : RegistryM (Option Nat)}
    (hx : ∀ reg, RegistryState.Safe ⟨reg, held⟩ →
      Registry.Advances orb inst reg held (x.run reg))
    (hnames : ∀ named, Action.Keeps (Registry.NamedFrom named) x) :
    Action.Triple (Orderly orb inst held) (onRegistry x)
      (fun r => Orderly orb inst (r.toList ++ held)) (Orderly orb inst held) := by
  intro s hs
  have hadv := hx s.reg hs.safe
  unfold onRegistry
  rw [Action.run_zoom]
  cases hrun : x.run s.reg with
  | mk outcome reg' =>
      rw [hrun] at hadv
      have hnamed : (∀ cause, outcome ≠ .fault cause) →
          ∀ named, s.reg.NamedFrom named → reg'.NamedFrom named :=
        fun hend named h => (hnames named).run h hrun hend
      cases outcome with
      | ok r => exact hs.moves hadv fun _ _ h => h.before hs.safe hs.traced hadv (hnamed nofun)
      | raised e => exact hs.moves hadv fun _ _ h => h.before hs.safe hs.traced hadv (hnamed nofun)
      | fault cause => trivial

/-- The destructor of a variable. -/
theorem release_orderly (a : Nat) :
    Action.Triple (Orderly orb inst (a :: held)) (onRegistry (Registry.decrRefcount a))
      (fun _ => Orderly orb inst held) (Orderly orb inst held) := by
  intro s hs
  obtain ⟨values, hdecr, hrun, hmove⟩ := run_release orb inst hs.safe
  rw [hrun]
  refine hs.moves (.single hmove) fun name b hb => hb.before hs.safe hs.traced (.single hmove) ?_
  intro named h
  exact (Registry.keeps_decrRefcount a).run h (Registry.run_decrRefcount hdecr) nofun

/-- The entries carry what they carried after a write that leaves the name. -/
theorem carries_rewrite {reg : Registry} {name : String} {b : Nat} {v v' : ReferenceMapValue}
    (hv : reg.values.cells a = some v) (hname : v'.iorTableName = v.iorTableName)
    (h : (reg.setValues (reg.values.write a (some v'))).Carries name b) :
    reg.Carries name b := by
  obtain ⟨hnonempty, hbound, w, hw, hcarried⟩ := h
  by_cases hb : b = a
  · subst hb
    rw [Registry.setValues_values, Heap.write_cells_self] at hw
    obtain rfl := Option.some.inj hw
    exact ⟨hnonempty, hbound, v, hv, hname.symm.trans hcarried⟩
  · rw [Registry.setValues_values, Heap.write_cells_of_ne _ hb] at hw
    exact ⟨hnonempty, hbound, w, hw, hcarried⟩

/-- An assignment to a field that is neither the name nor a reference. -/
theorem update_orderly (ha : a ∈ held) {f : ReferenceMapValue → ReferenceMapValue}
    (horig : ∀ v, (f v).origRef = v.origRef) (hmapped : ∀ v, (f v).mappedRef = v.mappedRef)
    (hcount : ∀ v, (f v).refCount = v.refCount)
    (hname : ∀ v, (f v).iorTableName = v.iorTableName) :
    Action.Keeps (Orderly orb inst held) (onRegistry (Registry.update a f)) := by
  intro s hs
  obtain ⟨v, hv, hrun⟩ := update_run hs.safe ha f
  rw [hrun]
  exact hs.moves (.single (.touch ha hv (horig v) (hmapped v) (hcount v)))
    fun _ _ h => carries_rewrite hv (hname v) h

/-- A name that was free is bound, and then the value at hand gets it. -/
theorem bindName_orderly (ha : a ∈ held) (mapped : ObjRef) (name : String) :
    Action.Keeps (Orderly orb inst held) (bindName orb a mapped name) := by
  intro s hs
  unfold bindName
  rw [Action.run_bind_ok (Action.run_get s)]
  cases htable : s.iorTable with
  | none => exact hs
  | some table =>
      dsimp only
      by_cases hbind : name = "" ∨ (table.lookup name).isSome
      · rw [if_pos hbind]
        exact hs
      · rw [if_neg hbind]
        have hnames : s.names = table := by simp [names, htable]
        have hfree : ∀ b, ¬ s.reg.Carries name b := by
          intro b hb
          have hbound := hs.named.bound name b hb
          rw [hnames] at hbound
          exact hbind (.inr hbound)
        let s₁ : MapperState :=
          { s with iorTable := some ((name, orb.objectToString mapped) :: table) }
        have hsafe : RegistryState.Safe ⟨s₁.reg, held⟩ := hs.safe
        obtain ⟨v, hv, hrun⟩ := update_run hsafe ha fun v => { v with iorTableName := name }
        rw [Action.run_bind_ok (Action.run_modify _ s), hrun]
        have hmoves : Moves orb inst ⟨s.reg, held⟩ ⟨s.reg.setValues (s.reg.values.write a
            (some { v with iorTableName := name })), held⟩ :=
          .single (.touch ha hv rfl rfl rfl)
        obtain ⟨hsafe', htraced'⟩ := hs.traced.moves hs.safe hmoves
        -- the value written carries the new name, the other entries what they carried
        have hcarries : ∀ other b, (s.reg.setValues (s.reg.values.write a
            (some { v with iorTableName := name }))).Carries other b →
              (b = a ∧ other = name) ∨ s.reg.Carries other b := by
          rintro other b ⟨hnonempty, hbound, w, hw, hcarried⟩
          by_cases hb : b = a
          · subst hb
            rw [Registry.setValues_values, Heap.write_cells_self] at hw
            obtain rfl := Option.some.inj hw
            exact .inl ⟨rfl, hcarried.symm⟩
          · rw [Registry.setValues_values, Heap.write_cells_of_ne _ hb] at hw
            exact .inr ⟨hnonempty, hbound, w, hw, hcarried⟩
        refine ⟨hsafe', htraced', hs.cached.moves hmoves, ?_, ?_⟩
        · intro other b hb
          change (List.lookup other ((name, orb.objectToString mapped) :: table)).isSome
          rw [List.lookup_cons]
          split
          · rfl
          · next hne =>
              rcases hcarries other b hb with ⟨-, rfl⟩ | hold
              · simp at hne
              · rw [← hnames]
                exact hs.named.bound other b hold
        · intro other b c hb hc
          rcases hcarries other b hb with ⟨rfl, rfl⟩ | hold
          · rcases hcarries _ c hc with ⟨rfl, -⟩ | hold
            · rfl
            · exact absurd hold (hfree c)
          · rcases hcarries other c hc with ⟨-, rfl⟩ | hold'
            · exact absurd hold (hfree b)
            · exact hs.named.distinct other b c hold hold'

theorem registerServer_orderly (ha : a ∈ held) (requireSecure : Bool) (name : String)
    (agent : Option ObjRef) (mapped : ObjRef) :
    Action.Keeps (Orderly orb inst held)
      (registerServer orb requireSecure name agent a mapped) := by
  apply (bindName_orderly ha mapped name).bind
  intro _
  apply Action.Keeps.bind
  · apply update_orderly ha <;> intro v <;> rfl
  intro _
  apply Action.Keeps.bind
  · exact .modify fun _ hs => hs.congr rfl rfl
  intro _
  apply (openUnlessSecure_keeps (fun _ _ hs => hs.congr rfl rfl) requireSecure mapped).bind
  intro _
  apply Action.Keeps.bind
  · cases agent with
    | none => exact .pure _
    | some agent => apply update_orderly ha <;> intro v <;> rfl
  exact fun _ => .pure _

theorem asServerI_orderly (requireSecure : Bool) (orig : ObjRef) (name : String)
    (agent : Option ObjRef) :
    Action.Keeps (Orderly orb inst held)
      (asServerI orb inst requireSecure orig name agent) := by
  apply (onRegistry_orderly
    (fun reg hsafe => Registry.mapReference_advances orb inst hsafe orig true requireSecure)
    fun named => Registry.keeps_mapReference orb inst orig true requireSecure).bind
  intro r
  cases r with
  | none => exact Action.Keeps.pure _
  | some a =>
      apply scope_triple (fun s hs => hs.safe) ?_ (release_orderly a)
      rintro v s ⟨hs, -⟩
      exact registerServer_orderly List.mem_cons_self requireSecure name agent v.mappedRef s hs

theorem asClient_orderly (orig : Option ObjRef) :
    Action.Keeps (Orderly orb inst held) (asClient orb inst orig) := by
  cases orig with
  | none => exact .pure _
  | some orig =>
      apply (onRegistry_orderly
        (fun reg hsafe => Registry.mapReference_advances orb inst hsafe orig false false)
        fun named => Registry.keeps_mapReference orb inst orig false false).bind
      intro r
      cases r with
      | none => exact Action.Keeps.pure _
      | some a =>
          apply scope_triple (fun s hs => hs.safe) ?_ (release_orderly a)
          exact fun v => Action.Triple.pure fun _ h => h.1

end Registering

section Removing

open ReferenceMapper

/-- Unbinding a name that no entry carries any more. -/
theorem run_unbindName {name : String} (hs : s.Orderly orb inst held)
    (hbound : (s.names.lookup name).isSome) (hnone : ∀ b, ¬ s.reg.Carries name b) :
    ∃ s', (unbindName name).run s = (.ok (), s') ∧ s'.reg = s.reg ∧
      s'.Orderly orb inst held := by
  cases htable : s.iorTable with
  | none =>
      rw [names, htable] at hbound
      cases hbound
  | some table =>
      have hnames : s.names = table := by simp [names, htable]
      rw [hnames] at hbound
      refine ⟨{ s with iorTable := some (table.filter fun entry => entry.1 ≠ name) }, ?_, rfl,
        hs.safe, hs.traced, hs.cached, ?_, hs.named.distinct⟩
      · unfold unbindName
        rw [Action.run_bind_ok (Action.run_get s), htable]
        dsimp only
        rw [if_pos hbound]
        rfl
      · intro other b hb
        have hold := hs.named.bound other b hb
        rw [hnames] at hold
        obtain ⟨entry, hentry, hother⟩ := List.lookup_isSome_iff.mp hold
        refine List.lookup_isSome_iff.mpr ⟨entry, List.mem_filter.mpr ⟨hentry, ?_⟩, hother⟩
        obtain rfl := beq_iff_eq.mp hother
        rw [decide_eq_true_eq]
        rintro rfl
        exact hnone b hb

/-- `remove_server` and `remove_client`, by the side they are for. -/
def remove (orb : Orb) (mapped : Option ObjRef) (outFacing : Bool) : MapperM Unit :=
  if outFacing then removeServer orb mapped else removeClient orb mapped

/-- The slot that was cleared, and the rest as it was. -/
structure Cleared (orb : Orb) (inst : Instance) (s : MapperState) (m i a : Nat)
    (s' : MapperState) : Prop where
  slots : ∀ k j, s'.reg.slotOf k j = if k = m ∧ j = i then none else s.reg.slotOf k j
  values : ∀ b, b ≠ a → s'.reg.values.cells b = s.reg.values.cells b
  orderly : s'.Orderly orb inst []

/-- The end of the variable that `unbind` has filled. -/
theorem run_release_cleared {s₁ : MapperState} {m i : Nat} (hs : s₁.Orderly orb inst [a])
    (hslots : ∀ k j, s₁.reg.slotOf k j = if k = m ∧ j = i then none else s.reg.slotOf k j)
    (hvalues : s₁.reg.values = s.reg.values) :
    ∃ s', (onRegistry (Registry.decrRefcount a)).run s₁ = (.ok (), s') ∧
      Cleared orb inst s m i a s' := by
  obtain ⟨values, hdecr, hrun, -⟩ := run_release orb inst hs.safe
  have horderly := release_orderly a s₁ hs
  rw [hrun] at horderly
  refine ⟨_, hrun, hslots, ?_, horderly⟩
  intro b hb
  rw [← hvalues]
  obtain ⟨v, -, ⟨-, rfl⟩ | ⟨-, rfl⟩⟩ := Heap.decrRefcount_cases hdecr
  · exact Heap.write_cells_of_ne _ hb _
  · exact Heap.write_cells_of_ne _ hb _

/-- What `unbind` leaves: the caller owns the value, whose name, if it has one,
is still bound and is nobody else's. -/
structure Taken (orb : Orb) (inst : Instance) (s : MapperState) (m i a : Nat)
    (v : ReferenceMapValue) (s₁ : MapperState) : Prop where
  orderly : s₁.Orderly orb inst [a]
  slots : ∀ k j, s₁.reg.slotOf k j = if k = m ∧ j = i then none else s.reg.slotOf k j
  values : s₁.reg.values = s.reg.values
  value : s₁.reg.values.cells a = some v
  nobody : ∀ b, ¬ s₁.reg.Carries v.iorTableName b
  bound : v.iorTableName ≠ "" → (s₁.names.lookup v.iorTableName).isSome

theorem unbind_taken {m : Nat} {t : RMVByMapped Nat} {index : UInt32}
    (hs : s.Orderly orb inst []) (ht : s.reg.table m = some t)
    (hlookup : Registry.lookup t index = some a) :
    ∃ v, Taken orb inst s m index.toNat a v { s with
      reg := (s.reg.setTable m { t.storeAt index none with
        freeStack := index :: t.freeStack }).log (.removed a) } := by
  obtain ⟨hindex, hslot⟩ := Registry.lookup_eq_some.mp hlookup
  have hfull := Registry.lookup_slot ht hlookup
  obtain ⟨v, hv⟩ := hs.safe.bound_cell ⟨m, _, hfull⟩
  have hmove : Move orb inst ⟨s.reg, []⟩ _ := .unbind ht hindex hslot
  have hclear : ∀ k i, (s.reg.setTable m { t.storeAt index none with
      freeStack := index :: t.freeStack }).slotOf k i =
        if k = m ∧ i = index.toNat then none else s.reg.slotOf k i :=
    RegistryState.slotOf_storeAt ht (hs.safe.cover m t ht) hindex rfl
  have hbefore : ∀ name b, ((s.reg.setTable m { t.storeAt index none with
      freeStack := index :: t.freeStack }).log (.removed a)).Carries name b →
        s.reg.Carries name b :=
    fun name b hb => hb.before hs.safe hs.traced (.single hmove) fun _ h => h
  refine ⟨v, hs.moves (.single hmove) hbefore, hclear, rfl, hv, ?_, ?_⟩
  · intro b hb
    have hunbound := (RegistryState.bound_clear hs.safe.injective hfull hclear b).mp hb.2.1
    have hcarried : s.reg.Carries v.iorTableName a := ⟨hb.1, ⟨m, _, hfull⟩, v, hv, rfl⟩
    exact hunbound.2 (hs.named.distinct _ b a (hbefore _ b hb) hcarried)
  · exact fun hname => hs.named.bound _ a ⟨hname, ⟨m, _, hfull⟩, v, hv, rfl⟩

/-- The part of `remove_server` that unbinds the name. -/
theorem Taken.run_unname {m i : Nat} {v : ReferenceMapValue} {s₁ : MapperState}
    (h : Taken orb inst s m i a v s₁) :
    ∃ s₂, (do let v ← onRegistry (Registry.readValue a)
              if v.iorTableName = "" then pure () else unbindName v.iorTableName :
                MapperM Unit).run s₁ = (.ok (), s₂) ∧ s₂.reg = s₁.reg ∧
      s₂.Orderly orb inst [a] := by
  have hread : (onRegistry (Registry.readValue a)).run s₁ = (.ok v, s₁) := by
    unfold onRegistry
    rw [Action.run_zoom, Registry.run_readValue h.value]
  rw [Action.run_bind_ok hread]
  by_cases hname : v.iorTableName = ""
  · rw [if_pos hname]
    exact ⟨_, rfl, rfl, h.orderly⟩
  · rw [if_neg hname]
    exact run_unbindName h.orderly (h.bound hname) h.nobody

/-- Once `unbind` has taken a value out, either removal goes through. -/
theorem run_remove_took {mapped : ObjRef} {outFacing : Bool} {m : Nat} {t : RMVByMapped Nat}
    {index : UInt32} (hs : s.Orderly orb inst []) (ht : s.reg.table m = some t)
    (hlookup : Registry.lookup t index = some a)
    (hrun : (Registry.removeReference orb mapped outFacing).run s.reg =
      (.ok (some a), (s.reg.setTable m { t.storeAt index none with
        freeStack := index :: t.freeStack }).log (.removed a))) :
    ∃ s', (remove orb (some mapped) outFacing).run s = (.ok (), s') ∧
      Cleared orb inst s m index.toNat a s' := by
  obtain ⟨v, htaken⟩ := unbind_taken hs ht hlookup
  have hremoved : (onRegistry (Registry.removeReference orb mapped outFacing)).run s =
      (.ok (some a), { s with
        reg := (s.reg.setTable m { t.storeAt index none with
          freeStack := index :: t.freeStack }).log (.removed a) }) := by
    unfold onRegistry
    rw [Action.run_zoom, hrun]
  cases outFacing with
  | false =>
      obtain ⟨s', hrelease, hcleared⟩ :=
        run_release_cleared htaken.orderly htaken.slots htaken.values
      refine ⟨s', ?_, hcleared⟩
      change (removeClient orb (some mapped)).run s = _
      unfold removeClient
      rw [Action.run_bind_ok hremoved]
      exact hrelease
  | true =>
      obtain ⟨s₂, hbody, hreg, hs₂⟩ := htaken.run_unname
      obtain ⟨s', hrelease, hcleared⟩ :=
        run_release_cleared hs₂ (hreg ▸ htaken.slots) (hreg ▸ htaken.values)
      refine ⟨s', ?_, hcleared⟩
      change (removeServer orb (some mapped)).run s = _
      unfold removeServer
      rw [Action.run_bind_ok hremoved]
      exact Action.run_inScope_ok hbody hrelease

/-- Every way a removal can go. -/
inductive Removing (orb : Orb) (inst : Instance) (s : MapperState) (mapped : ObjRef)
    (outFacing : Bool) : Outcome Exn Unit × MapperState → Prop where
  | unhandled (hhandler : s.reg.handler mapped.typeId = none) :
      Removing orb inst s mapped outFacing (.ok (), s)
  | refused {m : Nat} {e : Exn} (hhandler : s.reg.handler mapped.typeId = some m)
      (hid : orb.referenceToId ⟨m, outFacing⟩ mapped = .error e) :
      Removing orb inst s mapped outFacing (.raised e, s)
  | short {m : Nat} {oid : ObjectId} (hhandler : s.reg.handler mapped.typeId = some m)
      (hid : orb.referenceToId ⟨m, outFacing⟩ mapped = .ok oid)
      (hread : readIndex oid = none) :
      Removing orb inst s mapped outFacing (.fault .outOfBounds, s)
  | missed {m : Nat} {t : RMVByMapped Nat} {oid : ObjectId} {index : UInt32}
      (hhandler : s.reg.handler mapped.typeId = some m) (ht : s.reg.table m = some t)
      (hid : orb.referenceToId ⟨m, outFacing⟩ mapped = .ok oid)
      (hread : readIndex oid = some index) (hlookup : Registry.lookup t index = none) :
      Removing orb inst s mapped outFacing (.ok (), s)
  | took {m a : Nat} {t : RMVByMapped Nat} {oid : ObjectId} {index : UInt32}
      {s' : MapperState} (hhandler : s.reg.handler mapped.typeId = some m)
      (ht : s.reg.table m = some t)
      (hid : orb.referenceToId ⟨m, outFacing⟩ mapped = .ok oid)
      (hread : readIndex oid = some index) (hlookup : Registry.lookup t index = some a)
      (hcleared : Cleared orb inst s m index.toNat a s') :
      Removing orb inst s mapped outFacing (.ok (), s')

theorem remove_removing (hs : s.Orderly orb inst []) (mapped : ObjRef) (outFacing : Bool) :
    Removing orb inst s mapped outFacing ((remove orb (some mapped) outFacing).run s) := by
  have hremoval := Registry.removeReference_removal orb hs.safe.cover mapped outFacing
  cases hrun : (Registry.removeReference orb mapped outFacing).run s.reg with
  | mk outcome reg' =>
      have hlift : (onRegistry (Registry.removeReference orb mapped outFacing)).run s =
          (outcome, { s with reg := reg' }) := by
        unfold onRegistry
        rw [Action.run_zoom, hrun]
      -- without a value the call ends as `remove_reference` has ended
      have hidle : outcome = .ok none → (remove orb (some mapped) outFacing).run s =
          (.ok (), { s with reg := reg' }) := by
        rintro rfl
        cases outFacing <;> exact Action.run_bind_ok hlift _
      have hraise : ∀ e, outcome = .raised e → (remove orb (some mapped) outFacing).run s =
          (.raised e, { s with reg := reg' }) := by
        rintro e rfl
        cases outFacing <;> exact Action.run_bind_raised hlift _
      have hfault : ∀ cause, outcome = .fault cause →
          (remove orb (some mapped) outFacing).run s = (.fault cause, { s with reg := reg' }) := by
        rintro cause rfl
        cases outFacing <;> exact Action.run_bind_fault hlift _
      rw [hrun] at hremoval
      cases hremoval with
      | unhandled hhandler =>
          rw [hidle rfl]
          exact .unhandled hhandler
      | uncached hhandler ht =>
          obtain ⟨t, ht'⟩ := hs.cached _ (Registry.handler_lt hhandler)
          rw [ht] at ht'
          cases ht'
      | raised hhandler hid =>
          rw [hraise _ rfl]
          exact .refused hhandler hid
      | short hhandler hid hread =>
          rw [hfault _ rfl]
          exact .short hhandler hid hread
      | missed hhandler ht hid hread hlookup =>
          rw [hidle rfl]
          exact .missed hhandler ht hid hread hlookup
      | took hhandler ht hid hread hlookup =>
          obtain ⟨s', hremove, hcleared⟩ := run_remove_took hs ht hlookup hrun
          rw [hremove]
          exact .took hhandler ht hid hread hlookup hcleared

theorem remove_orderly (mapped : Option ObjRef) (outFacing : Bool) :
    Action.Keeps (Orderly orb inst []) (remove orb mapped outFacing) := by
  intro s hs
  cases mapped with
  | none => cases outFacing <;> exact hs
  | some mapped =>
      cases hrun : (remove orb (some mapped) outFacing).run s with
      | mk outcome s' =>
          have hremoving := remove_removing hs mapped outFacing
          rw [hrun] at hremoving
          cases hremoving with
          | unhandled _ => exact hs
          | refused _ _ => exact hs
          | short _ _ _ => trivial
          | missed _ _ _ _ _ => exact hs
          | took _ _ _ _ _ hcleared => exact hcleared.orderly

end Removing

section Runs

open ReferenceMapper

/-- Every step keeps the invariant. -/
theorem Orderly.step {s' : MapperState} {op : ServerOp} (hs : s.Orderly orb inst [])
    (hstep : s.step orb inst op = some s') : s'.Orderly orb inst [] := by
  cases op with
  | asServer orig name agent =>
      have hserver : Action.Keeps (Orderly orb inst []) (asServer orb inst orig name agent) := by
        cases orig with
        | none => exact .pure _
        | some orig => exact asServerI_orderly false orig name agent
      exact after_triple hserver (fun _ _ h => h) hs hstep
  | asSecureServer orig name agent =>
      apply after_triple (asSecureServer_triple (fun _ h => h) ?_) (fun _ _ h => h) hs hstep
      exact fun native _ => asServerI_orderly true native name agent
  | removeServer mapped =>
      exact after_triple (remove_orderly mapped true) (fun _ _ h => h) hs hstep
  | asClient orig => exact after_triple (asClient_orderly orig) (fun _ _ h => h) hs hstep
  | asClientWithCorbaloc corbaloc id =>
      exact after_triple (asClientWithCorbaloc_triple asClient_orderly) (fun _ _ h => h) hs hstep
  | removeClient mapped =>
      exact after_triple (remove_orderly mapped false) (fun _ _ h => h) hs hstep
  | reap m page offset =>
      obtain ⟨t, ht, hoffset, hpage, hstep⟩ := step_reap hstep
      obtain ⟨reg', hrun, hmoves⟩ := RegistryState.reap_moves hs.safe ht hoffset hpage
      unfold onRegistry at hstep
      rw [Action.run_zoom, hrun] at hstep
      obtain rfl := Option.some.inj hstep
      refine hs.moves hmoves fun name b hb => hb.before hs.safe hs.traced hmoves ?_
      exact fun named h => (Registry.keeps_reap m page offset).run h hrun nofun
  | evaluators answers =>
      obtain rfl := Option.some.inj hstep
      have hmoves : Moves orb inst ⟨s.reg, []⟩ ⟨s.reg.withEvaluators answers, []⟩ :=
        .single (.evaluators answers)
      exact hs.moves hmoves fun name b hb => hb.before hs.safe hs.traced hmoves fun _ h => h

theorem initial_orderly (hasSecurity : Bool) (answers : List (String → Bool))
    (hasTable hasDecision : Bool) :
    (initial true hasSecurity answers hasTable hasDecision).Orderly orb inst [] := by
  have hreach : (registrySystem orb inst true).Reachable
      (RegistryState.initial true hasSecurity answers) := .start ⟨_, _, rfl⟩
  obtain ⟨hsafe, htraced⟩ := RegistryState.sound_of_reach hreach
  have hnone : ∀ name a,
      ¬ (initial true hasSecurity answers hasTable hasDecision).reg.Carries name a := by
    rintro name a ⟨-, ⟨m, i, hslot⟩, -⟩
    exact absurd ((RegistryState.initial_slotOf true hasSecurity answers m i).symm.trans hslot) nofun
  refine ⟨hsafe, htraced, RegistryState.cached_of_reach hreach, ?_, ?_⟩
  · exact fun name a ha => absurd ha (hnone name a)
  · exact fun name a _ ha => absurd ha (hnone name a)

theorem orderly_of_reach {guard : MapperState → ServerOp → Prop}
    (hreach : (mapperSystem orb inst true).Reach guard s) : s.Orderly orb inst [] := by
  apply hreach.invariant
  · rintro _ ⟨hasSecurity, answers, hasTable, hasDecision, rfl⟩
    exact initial_orderly hasSecurity answers hasTable hasDecision
  · exact fun s op s' hs _ hstep => hs.step hstep

end Runs

end MapperState

end Lorica
