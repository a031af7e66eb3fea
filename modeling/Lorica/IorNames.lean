import Lorica.SecureAccess

/-!
The names that `as_server_i` binds in the IOR table. An entry remembers one
name, `remove_server` unbinds the name of the entry it takes out, and nothing
else does. The invariant is that every bound name is remembered by an entry
that is still in its table; a step keeps it when a name is bound only for an
entry that can remember it, and when an entry with a name leaves its table
only through `remove_server`.
-/

namespace Lorica

open Machine

/-- The text of a reference says all that a POA looks at, and its type. -/
def Orb.Faithful (orb : Orb) : Prop :=
  ∀ ref ref', orb.objectToString ref = orb.objectToString ref' →
    ref.typeId = ref'.typeId ∧
      ∀ poa, orb.referenceToId poa ref = orb.referenceToId poa ref'

namespace Registry

/-- The value in a slot has no name to unbind. -/
def nameless (reg : Registry) (m i : Nat) : Bool :=
  ((reg.slotOf m i).bind reg.values.cells).all fun v => v.iorTableName = ""

/-- A value in a table that remembers a bound name, with the reference the
name is bound to. -/
def Remembers (orb : Orb) (reg : Registry) (entry : String × String) : Prop :=
  ∃ m i a v, reg.slotOf m i = some a ∧ reg.values.cells a = some v ∧
    v.iorTableName = entry.1 ∧ orb.objectToString v.mappedRef = entry.2

end Registry

namespace MapperState

/-- The names bound in the IOR table, with the texts they are bound to. -/
def names (s : MapperState) : List (String × String) :=
  s.iorTable.getD []

/-- No name is bound to the reference. -/
def Unnamed (orb : Orb) (s : MapperState) (mapped : ObjRef) : Prop :=
  ∀ entry ∈ s.names, entry.2 ≠ orb.objectToString mapped

instance (orb : Orb) (s : MapperState) (mapped : ObjRef) :
    Decidable (s.Unnamed orb mapped) := by
  unfold Unnamed
  infer_instance

/-- Every bound name is that of an entry still in a table. -/
def NamesStand (orb : Orb) (s : MapperState) : Prop :=
  ∀ entry ∈ s.names, entry.1 ≠ "" ∧ s.reg.Remembers orb entry

/-- What a step must do for the names: after `remove_server` has returned, and
after an entry was reaped, no name is bound to the mapped reference. -/
def DropsNames (orb : Orb) (inst : Instance) (s : MapperState) : ServerOp → Prop
  | .removeServer (some mapped) => ∀ s',
      (ReferenceMapper.removeServer orb (some mapped)).run s = (.ok (), s') →
      s'.Unnamed orb mapped
  | .reap m page offset => ∀ t a v s', s.reg.table m = some t →
      t.slot (page * t.pageSize.toNat + offset) = some a →
      s.reg.values.cells a = some v →
      s.step orb inst (.reap m page offset) = some s' → s'.Unnamed orb v.mappedRef
  | _ => True

/-- `as_server_i` is going to bind the name if it gets a value. -/
def bindable (s : MapperState) (name : String) : Bool :=
  name ≠ "" && s.iorTable.any fun table => (table.lookup name).isNone

/-- The value `map_reference` will return is in a table, and its field for a
name is free: a new one that the table will take, or one found again that has
no name yet. In the uncached mode there is none, and a reversed value is in no
table. -/
def canRemember (inst : Instance) (s : MapperState) (orig : ObjRef) : Bool :=
  match s.reg.handler orig.typeId with
  | none => true
  | some m =>
      match s.reg.table m with
      | none => false
      | some t =>
          match inst.alreadyMapped orig.key true 0 with
          | (.notMapped, _) =>
              t.peekIndex < t.nextIndex.2.limit &&
                (t.nextIndex.2.slot t.peekIndex.toNat).isNone
          | (.alreadyMapped, index) =>
              ((Registry.lookup t index).bind s.reg.values.cells).all fun v =>
                v.iorTableName = ""
          | _ => false

/-- `remove_server` will reach the slot that the id of the reference names. -/
def removable (orb : Orb) (s : MapperState) (mapped : ObjRef) : Bool :=
  (s.reg.handler mapped.typeId).any fun m => (s.reg.table m).any fun t =>
    match orb.referenceToId ⟨m, true⟩ mapped with
    | .error _ => true
    | .ok oid => (readIndex oid).all fun index => index < t.limit

/-- `remove_client` will not take out an entry with a name. -/
def takesNameless (orb : Orb) (s : MapperState) (mapped : ObjRef) : Bool :=
  (s.reg.handler mapped.typeId).all fun m =>
    match orb.referenceToId ⟨m, false⟩ mapped with
    | .error _ => true
    | .ok oid => (readIndex oid).all fun index => s.reg.nameless m index.toNat

/-- The steps that keep the names in order. -/
def keepsNames (orb : Orb) (inst : Instance) (s : MapperState) : ServerOp → Bool
  | .asServer (some orig) name _ => !s.bindable name || s.canRemember inst orig
  | .asSecureServer (some orig) name _ => !s.bindable name || s.canRemember inst orig
  | .removeServer (some mapped) => s.Unnamed orb mapped || s.removable orb mapped
  | .removeClient (some mapped) => s.takesNameless orb mapped
  | .reap m page offset =>
      (s.reg.table m).all fun t => s.reg.nameless m (page * t.pageSize.toNat + offset)
  | _ => true

end MapperState

namespace Registry

/-- The entries of the tables stay, with their names and references. -/
def Keeps (reg reg' : Registry) : Prop :=
  ∀ m i a v, reg.slotOf m i = some a → reg.values.cells a = some v →
    ∃ v', reg'.slotOf m i = some a ∧ reg'.values.cells a = some v' ∧
      v'.iorTableName = v.iorTableName ∧ v'.mappedRef = v.mappedRef

variable {orb : Orb} {inst : Instance} {reg reg' reg'' : Registry} {held : List Nat}

theorem Keeps.refl (reg : Registry) : reg.Keeps reg :=
  fun _ _ _ v hslot hv => ⟨v, hslot, hv, rfl, rfl⟩

theorem Keeps.trans (h : reg.Keeps reg') (h' : reg'.Keeps reg'') : reg.Keeps reg'' := by
  intro m i a v hslot hv
  obtain ⟨v', hslot', hv', hname', href'⟩ := h m i a v hslot hv
  obtain ⟨v'', hslot'', hv'', hname'', href''⟩ := h' m i a v' hslot' hv'
  exact ⟨v'', hslot'', hv'', hname''.trans hname', href''.trans href'⟩

theorem Remembers.keeps {entry : String × String} (h : reg.Remembers orb entry)
    (hkeeps : reg.Keeps reg') : reg'.Remembers orb entry := by
  obtain ⟨m, i, a, v, hslot, hv, hname, htext⟩ := h
  obtain ⟨v', hslot', hv', hname', href'⟩ := hkeeps m i a v hslot hv
  exact ⟨m, i, a, v', hslot', hv', hname'.trans hname, by rw [href', htext]⟩

/-- A step that leaves the occupied slots alone. -/
theorem Keeps.of_slots (hslots : ∀ m i a, reg.slotOf m i = some a → reg'.slotOf m i = some a)
    (hvalues : reg'.values = reg.values) : reg.Keeps reg' := by
  intro m i a v hslot hv
  exact ⟨v, hslots m i a hslot, by rw [hvalues, hv], rfl, rfl⟩

/-- A step that writes one value: an entry keeps its name and reference, any
other value may change as it likes. -/
theorem Keeps.of_write {a : Nat} {content : Option ReferenceMapValue}
    (hcontent : ∀ v, reg.Bound a → reg.values.cells a = some v → ∃ v', content = some v' ∧
      v'.iorTableName = v.iorTableName ∧ v'.mappedRef = v.mappedRef)
    (hslots : ∀ m i b, reg.slotOf m i = some b → reg'.slotOf m i = some b)
    (hcells : reg'.values.cells = Function.update reg.values.cells a content) :
    reg.Keeps reg' := by
  intro m i b v hslot hv
  by_cases hb : b = a
  · subst hb
    obtain ⟨v', rfl, hname, href⟩ := hcontent v ⟨m, i, hslot⟩ hv
    exact ⟨v', hslots m i b hslot, by rw [hcells, Function.update_self], hname, href⟩
  · exact ⟨v, hslots m i b hslot, by rw [hcells, Function.update_of_ne hb, hv], rfl, rfl⟩

/-- A new value is no entry. -/
theorem Keeps.alloc (hsafe : RegistryState.Safe ⟨reg, held⟩) (v : ReferenceMapValue) :
    reg.Keeps (reg.setValues (reg.values.alloc v).2) := by
  apply Keeps.of_write (a := reg.values.fresh)
  · intro w _ hw
    have hfree : reg.values.cells reg.values.fresh = none := hsafe.fresh _ (le_refl _)
    rw [hfree] at hw
    cases hw
  · exact fun _ _ _ h => h
  · rfl

theorem Keeps.issue {m : Nat} {t : RMVByMapped Nat} (ht : reg.table m = some t) :
    reg.Keeps (reg.setTable m t.nextIndex.2) := by
  refine .of_slots ?_ rfl
  intro k i a hslot
  rw [slotOf_setTable ht, RMVByMapped.nextIndex_slot]
  split
  · next hk => rwa [hk, slotOf_eq ht] at hslot
  · exact hslot

/-- A count taken or fields written, but not the name and the reference. -/
theorem Keeps.rewrite {a : Nat} {v v' : ReferenceMapValue} (hv : reg.values.cells a = some v)
    (hname : v'.iorTableName = v.iorTableName) (href : v'.mappedRef = v.mappedRef) :
    reg.Keeps (reg.setValues (reg.values.write a (some v'))) := by
  refine .of_write ?_ (fun _ _ _ h => h) rfl
  intro w _ hw
  obtain rfl := Option.some.inj (hv.symm.trans hw)
  exact ⟨v', rfl, hname, href⟩

/-- A holder that lets go does not delete an entry: the table has a count. -/
theorem Keeps.drop {a : Nat} {values : Heap} (hsafe : RegistryState.Safe ⟨reg, a :: held⟩)
    (hdecr : reg.values.decrRefcount a = .ok values) : reg.Keeps (reg.setValues values) := by
  obtain ⟨v, hv, hcases⟩ := Heap.decrRefcount_cases hdecr
  rcases hcases with ⟨-, rfl⟩ | ⟨hone, rfl⟩
  · exact .rewrite hv rfl rfl
  · refine .of_write ?_ (fun _ _ _ h => h) rfl
    intro w hbound hw
    have hcount := (hsafe.counted a v hv).1
    rw [Ledger.owners_bound (RegistryState.bound_ledger.mpr hbound)] at hcount
    change v.refCount = 1 + ((a :: held).count a : Int) at hcount
    rw [List.count_cons_self] at hcount
    omega

end Registry

namespace Registry

/-- A value in a table whose field for a name is free. -/
def Blank (reg : Registry) (a : Nat) : Prop :=
  ∃ m i v, reg.slotOf m i = some a ∧ reg.values.cells a = some v ∧ v.iorTableName = ""

/-- What `map_reference` does for the names: the entries stay, and the value it
returns is a blank entry where the call can remember a name. -/
def MapsNames (reg : Registry) (can : Bool)
    (result : Outcome Exn (Option Nat) × Registry) : Prop :=
  reg.Keeps result.2 ∧ ∀ a, result.1 = .ok (some a) → can = true → result.2.Blank a

section Mapping

variable (orb : Orb) (inst : Instance) {reg : Registry} {held : List Nat} {m : Nat}
  {t : RMVByMapped Nat} {native : ObjRef} {outFacing requireSecure : Bool}

theorem MapsNames.nothing {can : Bool} {outcome : Outcome Exn (Option Nat)}
    (hnone : ∀ a, outcome ≠ .ok (some a)) : MapsNames reg can (outcome, reg) :=
  ⟨.refl reg, fun a ha => absurd ha (hnone a)⟩

/-- A new value the table takes is a blank entry. -/
theorem bind_blank (hsafe : RegistryState.Safe ⟨reg, held⟩) (ht : reg.table m = some t)
    {index : UInt32} (hindex : index < t.limit) (hslot : t.slot index.toNat = none)
    {v : ReferenceMapValue} (hname : v.iorTableName = "") (event : MapEvent) :
    let reg' := ((reg.setValues (reg.values.alloc v).2).setTable m
      (t.storeAt index (some reg.values.fresh))).log event
    reg.Keeps reg' ∧ reg'.Blank reg.values.fresh := by
  intro reg'
  have hfill : ∀ k i, reg'.slotOf k i =
      if k = m ∧ i = index.toNat then some reg.values.fresh else reg.slotOf k i :=
    RegistryState.slotOf_storeAt ht (hsafe.cover m t ht) hindex rfl
  have hempty : reg.slotOf m index.toNat = none := by
    rw [slotOf_eq ht, hslot]
  constructor
  · apply Keeps.of_write (a := reg.values.fresh)
    · intro w _ hw
      have hfree : reg.values.cells reg.values.fresh = none := hsafe.fresh _ (le_refl _)
      rw [hfree] at hw
      cases hw
    · intro k i b hb
      rw [hfill, if_neg]
      · exact hb
      · rintro ⟨rfl, rfl⟩
        rw [hempty] at hb
        cases hb
    · rfl
  · refine ⟨m, index.toNat, v, ?_, Heap.write_cells_self _ _ _, hname⟩
    rw [hfill, if_pos ⟨rfl, rfl⟩]

/-- A mapping made without a table, or reversed: the entries stay. -/
theorem addNativeUnchecked_names (hsafe : RegistryState.Safe ⟨reg, held⟩) {can : Bool}
    (hcan : can = true → ∃ t, reg.table m = some t ∧ t.peekIndex < t.nextIndex.2.limit ∧
      t.nextIndex.2.slot t.peekIndex.toNat = none) :
    MapsNames reg can ((addNativeUnchecked orb inst m native native.typeId outFacing
      requireSecure >>= fun rmv => pure (some rmv)).run reg) := by
  cases ht : reg.table m with
  | none =>
      have hno : can ≠ true := by
        intro h
        obtain ⟨t, ht', -⟩ := hcan h
        rw [ht] at ht'
        cases ht'
      have hrun := run_addNativeUnchecked_uncached orb inst ht native native.typeId outFacing
        requireSecure
      cases href : orb.createReferenceWithId ⟨m, outFacing⟩
          (orb.stringToObjectId (orb.objectToString native)) native.typeId with
      | error e =>
          rw [href] at hrun
          rw [Action.run_bind_raised hrun]
          exact .nothing nofun
      | ok ref =>
          rw [href] at hrun
          rw [Action.run_bind_ok hrun]
          exact ⟨.alloc hsafe _, fun _ _ h => absurd h hno⟩
  | some t =>
      have hcover := hsafe.cover m t ht
      have hrun := run_addNativeUnchecked orb inst ht hcover native native.typeId outFacing
        requireSecure
      have hissue : reg.Keeps (reg.setTable m t.nextIndex.2) := .issue ht
      cases href : orb.createReferenceWithId ⟨m, outFacing⟩
          (inst.objectId outFacing t.peekIndex) native.typeId with
      | error e =>
          rw [href] at hrun
          rw [Action.run_bind_raised hrun]
          exact ⟨hissue, nofun⟩
      | ok ref =>
          rw [href] at hrun
          rw [Action.run_bind_ok hrun]
          have hsafe' := hsafe.issue ht
          have ht' : (reg.setTable m t.nextIndex.2).table m = some t.nextIndex.2 := by
            rw [table_setTable ht, if_pos rfl]
          split
          · next hbind =>
              obtain ⟨hkeeps, hblank⟩ := bind_blank hsafe' ht' hbind.1 hbind.2
                (v := reg.newValue native ref requireSecure 2) rfl
                (.mapped ⟨m, outFacing⟩ (inst.objectId outFacing t.peekIndex) native
                  reg.values.fresh)
              refine ⟨hissue.trans hkeeps, ?_⟩
              rintro _ ⟨⟩ _
              exact hblank
          · next hrefused =>
              refine ⟨hissue.trans (.alloc hsafe' _), ?_⟩
              intro _ _ h
              obtain ⟨u, hu, haccepts⟩ := hcan h
              obtain rfl := Option.some.inj (ht.symm.trans hu)
              exact absurd haccepts hrefused

end Mapping

end Registry

namespace MapperState

variable {orb : Orb} {inst : Instance} {s : MapperState} {held : List Nat}

theorem mapReference_names (orb : Orb) (inst : Instance)
    (hsafe : RegistryState.Safe ⟨s.reg, held⟩) (native : ObjRef)
    (outFacing requireSecure : Bool) :
    Registry.MapsNames s.reg (outFacing && s.canRemember inst native)
      ((Registry.mapReference orb inst native outFacing requireSecure).run s.reg) := by
  rw [Registry.run_mapReference]
  unfold canRemember
  cases hhandler : s.reg.handler native.typeId with
  | none => exact .nothing nofun
  | some m =>
      dsimp only
      have hmapping := Registry.addNativeHere_mapping orb inst hsafe m native native.typeId
        outFacing requireSecure
      generalize (Registry.addNativeHere orb inst m native native.typeId outFacing
        requireSecure).run s.reg = result at hmapping
      cases hmapping with
      | missed _ _ _ => exact .nothing nofun
      | @found t index a v ht hstatus hlookup hv =>
          refine ⟨.rewrite hv rfl rfl, ?_⟩
          rintro _ ⟨⟩ hcan
          obtain ⟨hfacing, hcan⟩ := Bool.and_eq_true_iff.mp hcan
          rw [hfacing] at hstatus
          have hslot := Registry.lookup_slot ht hlookup
          refine ⟨m, index.toNat, _, hslot, Heap.write_cells_self _ _ _, ?_⟩
          simpa [ht, hstatus, hlookup, hv] using hcan
      | dangling _ _ _ => exact .nothing nofun
      | reversed ht hstatus _ _ =>
          refine ⟨.alloc hsafe _, ?_⟩
          intro b _ hcan
          obtain ⟨hfacing, hcan⟩ := Bool.and_eq_true_iff.mp hcan
          rw [hfacing] at hstatus
          simp [ht, hstatus] at hcan
      | made hnew =>
          apply Registry.addNativeUnchecked_names orb inst hsafe
          intro hcan
          obtain ⟨hfacing, hcan⟩ := Bool.and_eq_true_iff.mp hcan
          cases ht : s.reg.table m with
          | none => simp [ht] at hcan
          | some t =>
              have hstatus := hnew.resolve_left (by simp [ht])
              rw [hfacing] at hstatus
              simp only [ht, hstatus] at hcan
              obtain ⟨hlimit, hslot⟩ := Bool.and_eq_true_iff.mp hcan
              exact ⟨t, rfl, by simpa using hlimit, by simpa using hslot⟩

/-- The invariant of runs, for the pointers callers own at the time. -/
structure Kept (orb : Orb) (inst : Instance) (held : List Nat) (s : MapperState) : Prop where
  safe : RegistryState.Safe ⟨s.reg, held⟩
  traced : RegistryState.Traced orb inst ⟨s.reg, held⟩
  stand : s.NamesStand orb

/-- Moves of the registry that keep the entries keep the invariant. -/
theorem Kept.moves {reg' : Registry} {held' : List Nat} (h : s.Kept orb inst held)
    (hmoves : Moves orb inst ⟨s.reg, held⟩ ⟨reg', held'⟩) (hkeeps : s.reg.Keeps reg') :
    Kept orb inst held' { s with reg := reg' } := by
  obtain ⟨hsafe, htraced⟩ := h.traced.moves h.safe hmoves
  refine ⟨hsafe, htraced, ?_⟩
  intro entry hentry
  obtain ⟨hname, hremembers⟩ := h.stand entry hentry
  exact ⟨hname, hremembers.keeps hkeeps⟩

/-- What the invariant does not speak of may change. -/
theorem Kept.congr {s' : MapperState} (h : s.Kept orb inst held) (hreg : s'.reg = s.reg)
    (htable : s'.iorTable = s.iorTable) : s'.Kept orb inst held := by
  refine ⟨hreg ▸ h.safe, hreg ▸ h.traced, ?_⟩
  unfold NamesStand MapperState.names
  rw [htable, hreg]
  exact h.stand

section Registering

open ReferenceMapper

variable {a : Nat}

/-- An assignment to a field that is neither the name nor a reference. -/
theorem update_kept (ha : a ∈ held) {f : ReferenceMapValue → ReferenceMapValue}
    (horig : ∀ v, (f v).origRef = v.origRef) (hmapped : ∀ v, (f v).mappedRef = v.mappedRef)
    (hcount : ∀ v, (f v).refCount = v.refCount)
    (hname : ∀ v, (f v).iorTableName = v.iorTableName) :
    Action.Triple (Kept orb inst held) (onRegistry (Registry.update a f))
      (fun _ => Kept orb inst held) (Kept orb inst held) := by
  intro s hs
  obtain ⟨v, hv, hrun⟩ := update_run hs.safe ha f
  rw [hrun]
  exact hs.moves (.single (.touch ha hv (horig v) (hmapped v) (hcount v)))
    (.rewrite hv (hname v) (hmapped v))

theorem setAgent_kept (ha : a ∈ held) (agent : Option ObjRef) :
    Action.Triple (Kept orb inst held) (setAgent a agent)
      (fun _ => Kept orb inst held) (Kept orb inst held) := by
  cases agent with
  | none => exact Action.Triple.pure fun _ h => h
  | some agent => apply update_kept ha <;> intro v <;> rfl

theorem openUnlessSecure_kept (requireSecure : Bool) (mapped : ObjRef) :
    Action.Triple (Kept orb inst held) (openUnlessSecure orb requireSecure mapped)
      (fun _ => Kept orb inst held) (Kept orb inst held) :=
  openUnlessSecure_keeps (fun _ _ hs => hs.congr rfl rfl) requireSecure mapped

/-- A name is bound only where the value at hand can remember it. -/
theorem bindName_kept (ha : a ∈ held) (mapped : ObjRef) (name : String) :
    Action.Triple
      (fun s => s.Kept orb inst held ∧ (s.bindable name → s.reg.Blank a) ∧
        ∀ v, s.reg.values.cells a = some v → v.mappedRef = mapped)
      (bindName orb a mapped name) (fun _ => Kept orb inst held) (Kept orb inst held) := by
  rintro s ⟨hs, hblank, hmapped⟩
  unfold bindName
  rw [Action.run_bind_ok (Action.run_get s)]
  cases htable : s.iorTable with
  | none => exact hs
  | some table =>
      dsimp only
      by_cases hbind : name = "" ∨ (table.lookup name).isSome
      · rw [if_pos hbind]
        exact hs
      · rw [if_neg hbind]
        obtain ⟨hname, hfree⟩ := not_or.mp hbind
        have hbindable : s.bindable name := by
          simp only [bindable, htable, Option.any_some, Bool.and_eq_true, decide_eq_true_eq]
          refine ⟨hname, ?_⟩
          rw [Option.isNone_iff_eq_none]
          exact Option.not_isSome_iff_eq_none.mp hfree
        obtain ⟨m, i, v, hslot, hv, hempty⟩ := hblank hbindable
        let s₁ : MapperState :=
          { s with iorTable := some ((name, orb.objectToString mapped) :: table) }
        have hrun : (onRegistry (Registry.update a fun v => { v with iorTableName := name })).run
            s₁ = (.ok (), { s₁ with reg := s.reg.setValues (s.reg.values.write a
              (some { v with iorTableName := name })) }) := by
          unfold onRegistry Registry.update
          rw [Action.run_zoom, Action.run_bind_ok (Registry.run_readValue hv)]
          rfl
        rw [Action.run_bind_ok (Action.run_modify _ s), hrun]
        have hmoves : Moves orb inst ⟨s.reg, held⟩ ⟨s.reg.setValues (s.reg.values.write a
            (some { v with iorTableName := name })), held⟩ :=
          .single (.touch ha hv rfl rfl rfl)
        obtain ⟨hsafe, htraced⟩ := hs.traced.moves hs.safe hmoves
        refine ⟨hsafe, htraced, ?_⟩
        intro entry hentry
        rcases List.mem_cons.mp hentry with rfl | hold
        · exact ⟨hname, m, i, a, _, hslot, Heap.write_cells_self _ _ _, rfl,
            congrArg orb.objectToString (hmapped v hv)⟩
        · have hmem : entry ∈ s.names := by
            simpa [names, htable] using hold
          obtain ⟨hnonempty, k, j, b, w, hslot', hw, hentryname, htext⟩ := hs.stand entry hmem
          have hne : b ≠ a := by
            rintro rfl
            obtain rfl := Option.some.inj (hv.symm.trans hw)
            exact hnonempty (hentryname.symm.trans hempty)
          exact ⟨hnonempty, k, j, b, w, hslot', (Heap.write_cells_of_ne _ hne _).trans hw,
            hentryname, htext⟩

theorem registerServer_kept (ha : a ∈ held) (requireSecure : Bool) (name : String)
    (agent : Option ObjRef) (mapped : ObjRef) :
    Action.Triple
      (fun s => s.Kept orb inst held ∧ (s.bindable name → s.reg.Blank a) ∧
        ∀ v, s.reg.values.cells a = some v → v.mappedRef = mapped)
      (registerServer orb requireSecure name agent a mapped)
      (fun _ => Kept orb inst held) (Kept orb inst held) := by
  apply (bindName_kept ha mapped name).bind
  intro _
  apply Action.Triple.bind (Q := fun _ => Kept orb inst held)
  · apply update_kept ha <;> intro v <;> rfl
  intro _
  apply Action.Triple.bind (Q := fun _ => Kept orb inst held)
  · apply Action.Triple.modify
    exact fun s hs => hs.congr rfl rfl
  intro _
  apply (openUnlessSecure_kept requireSecure mapped).bind
  intro _
  apply (setAgent_kept ha agent).bind
  intro _
  exact Action.Triple.pure fun _ h => h

/-- The destructor of the variable; what holds of the slots still holds. -/
theorem release_kept (a : Nat) (F : Registry → Prop)
    (hF : ∀ reg values, F reg → F (reg.setValues values)) :
    Action.Triple (fun s => s.Kept orb inst (a :: held) ∧ F s.reg)
      (onRegistry (Registry.decrRefcount a))
      (fun _ s => s.Kept orb inst held ∧ F s.reg) (fun s => s.Kept orb inst held) := by
  rintro s ⟨hs, hslots⟩
  obtain ⟨values, hdecr, hrun, hmove⟩ := run_release orb inst hs.safe
  rw [hrun]
  exact ⟨hs.moves (.single hmove) (.drop hs.safe hdecr), hF _ _ hslots⟩

theorem release_only_kept (a : Nat) :
    Action.Triple (fun s => s.Kept orb inst (a :: held))
      (onRegistry (Registry.decrRefcount a))
      (fun _ s => s.Kept orb inst held) (fun s => s.Kept orb inst held) := by
  apply (release_kept a (fun _ => True) fun _ _ _ => trivial).weaken
  · exact fun s hs => ⟨hs, trivial⟩
  · exact fun _ s hs => hs.1
  · exact fun _ hs => hs

/-- The part of `as_server_i` and of `as_client` that owns the value. -/
theorem scope_kept {α : Type} {P : MapperState → Prop} {f : ReferenceMapValue → MapperM α}
    (hkept : ∀ s, P s → s.Kept orb inst (a :: held))
    (hf : ∀ v, Action.Triple (fun s => P s ∧ s.reg.values.cells a = some v) (f v)
      (fun _ s => s.Kept orb inst (a :: held)) (fun s => s.Kept orb inst (a :: held))) :
    Action.Triple P
      (Action.inScope (do let v ← onRegistry (Registry.readValue a); f v)
        (onRegistry (Registry.decrRefcount a)))
      (fun _ s => s.Kept orb inst held) (fun s => s.Kept orb inst held) :=
  scope_triple (fun s hs => (hkept s hs).safe) hf (release_only_kept a)

/-- `map_reference` as the invariant sees it: the value it returns belongs to
the caller, and it is a blank entry where the call can remember a name. -/
theorem mapReference_kept (native : ObjRef) (outFacing requireSecure : Bool) (can : Bool) :
    Action.Triple
      (fun s => s.Kept orb inst [] ∧ (can = true → outFacing && s.canRemember inst native))
      (onRegistry (Registry.mapReference orb inst native outFacing requireSecure))
      (fun r s => s.Kept orb inst r.toList ∧
        ∀ a, r = some a → can = true → s.reg.Blank a)
      (fun s => s.Kept orb inst []) := by
  rintro s ⟨hs, hcan⟩
  have hadv := Registry.mapReference_advances orb inst hs.safe native outFacing requireSecure
  obtain ⟨hkeeps, hblank⟩ := mapReference_names orb inst hs.safe native outFacing requireSecure
  unfold onRegistry
  rw [Action.run_zoom]
  cases hrun : (Registry.mapReference orb inst native outFacing requireSecure).run s.reg with
  | mk outcome reg' =>
      rw [hrun] at hadv hkeeps hblank
      cases outcome with
      | ok r =>
          have hmoves : Moves orb inst ⟨s.reg, []⟩ ⟨reg', r.toList ++ []⟩ := hadv
          rw [List.append_nil] at hmoves
          refine ⟨hs.moves hmoves hkeeps, ?_⟩
          rintro a rfl h
          exact hblank a rfl (hcan h)
      | raised e => exact hs.moves hadv hkeeps
      | fault cause => trivial

/-- A registration that binds a name only where it can be remembered. -/
theorem asServerI_kept (requireSecure : Bool) (orig : ObjRef) (name : String)
    (agent : Option ObjRef) :
    Action.Triple
      (fun s => s.Kept orb inst [] ∧ (s.bindable name → s.canRemember inst orig))
      (asServerI orb inst requireSecure orig name agent)
      (fun _ s => s.Kept orb inst []) (fun s => s.Kept orb inst []) := by
  rintro s ⟨hs, hcan⟩
  have hbindable : ∀ reg, bindable { s with reg := reg } name = s.bindable name :=
    fun _ => rfl
  have hmap := @mapReference_kept orb inst orig true requireSecure (s.bindable name) s
    ⟨hs, hcan⟩
  unfold asServerI
  rw [Action.run_bind]
  unfold onRegistry at hmap ⊢
  rw [Action.run_zoom] at hmap ⊢
  cases hrun : (Registry.mapReference orb inst orig true requireSecure).run s.reg with
  | mk outcome reg' =>
      rw [hrun] at hmap
      cases outcome with
      | raised e => exact hmap
      | fault cause => trivial
      | ok r =>
          obtain ⟨hkept, hblank⟩ := hmap
          cases r with
          | none => exact hkept
          | some a =>
              have hscope : Action.Triple (fun s' => s' = { s with reg := reg' })
                  (Action.inScope
                    (do let v ← onRegistry (Registry.readValue a)
                        registerServer orb requireSecure name agent a v.mappedRef)
                    (onRegistry (Registry.decrRefcount a)))
                  (fun _ s => s.Kept orb inst []) (fun s => s.Kept orb inst []) := by
                apply scope_kept
                · rintro _ rfl
                  exact hkept
                · intro v
                  apply (registerServer_kept List.mem_cons_self requireSecure name agent
                    v.mappedRef).weaken
                  · rintro _ ⟨rfl, hv⟩
                    refine ⟨hkept, hblank a rfl, ?_⟩
                    intro w hw
                    rw [Option.some.inj (hw.symm.trans hv)]
                  · exact fun _ _ h => h
                  · exact fun _ h => h
              exact hscope _ rfl

theorem asClient_kept (orig : Option ObjRef) :
    Action.Triple (fun s => s.Kept orb inst []) (asClient orb inst orig)
      (fun _ s => s.Kept orb inst []) (fun s => s.Kept orb inst []) := by
  cases orig with
  | none => exact Action.Triple.pure fun _ h => h
  | some orig =>
      apply Action.Triple.bind (Q := fun r s => s.Kept orb inst r.toList)
      · apply (mapReference_kept orig false false false).weaken
        · exact fun s hs => ⟨hs, nofun⟩
        · exact fun _ s hs => hs.1
        · exact fun _ hs => hs
      · intro r
        cases r with
        | none => exact Action.Triple.pure fun _ h => h
        | some a =>
            apply scope_kept fun s hs => hs
            exact fun v => Action.Triple.pure fun _ h => h.1

end Registering

section Removing

open ReferenceMapper

/-- A slot is cleared: the name of its value may be forgotten, no other. -/
theorem remembers_cleared {reg reg' : Registry} {m j a : Nat} {v : ReferenceMapValue}
    {entry : String × String} (h : reg.Remembers orb entry)
    (hfull : reg.slotOf m j = some a)
    (hv : reg.values.cells a = some v)
    (hclear : ∀ k i, reg'.slotOf k i = if k = m ∧ i = j then none else reg.slotOf k i)
    (hcells : ∀ b, b ≠ a → reg'.values.cells b = reg.values.cells b) :
    entry.1 = v.iorTableName ∨ reg'.Remembers orb entry := by
  obtain ⟨k, i, b, w, hslot, hw, hname, htext⟩ := h
  by_cases hb : b = a
  · subst hb
    obtain rfl := Option.some.inj (hv.symm.trans hw)
    exact .inl hname.symm
  · refine .inr ⟨k, i, b, w, ?_, (hcells b hb).trans hw, hname, htext⟩
    rw [hclear, if_neg]
    · exact hslot
    · rintro ⟨rfl, rfl⟩
      exact hb (Option.some.inj (hslot.symm.trans hfull))

/-- No name is bound to a reference whose id leads to an empty slot. -/
theorem unnamed_of_slot (horb : orb.Lawful) (hfaithful : orb.Faithful)
    (h : s.Kept orb inst held) {poa : Poa} {mapped : ObjRef} {oid : ObjectId} {index : UInt32}
    (hid : orb.referenceToId poa mapped = .ok oid) (hread : readIndex oid = some index)
    (hslot : s.reg.slotOf poa.mapper index.toNat = none) : s.Unnamed orb mapped := by
  intro entry hentry htext
  obtain ⟨-, k, i, b, w, hfull, hw, -, hbound⟩ := h.stand entry hentry
  obtain ⟨facing, index', native, w', hi, -, -, hw', -, hcreate⟩ := h.traced.made k i b hfull
  obtain rfl : w' = w := Option.some.inj (hw'.symm.trans hw)
  obtain ⟨-, hsame⟩ := hfaithful w'.mappedRef mapped (hbound.trans htext)
  rw [← hsame] at hid
  obtain rfl := horb.to_id_other _ _ _ _ _ _ hcreate hid
  obtain rfl := Except.ok.inj ((horb.to_id_own _ _ _ _ hcreate).symm.trans hid)
  obtain rfl : index' = index := by simpa using hread
  rw [hi, hslot] at hfull
  cases hfull

/-- What is left right after `unbind`: the caller owns the value, and only its
name may have lost its entry. -/
structure Vacated (orb : Orb) (inst : Instance) (m j a : Nat) (v : ReferenceMapValue)
    (s : MapperState) : Prop where
  safe : RegistryState.Safe ⟨s.reg, [a]⟩
  traced : RegistryState.Traced orb inst ⟨s.reg, [a]⟩
  value : s.reg.values.cells a = some v
  slot : s.reg.slotOf m j = none
  stand : ∀ entry ∈ s.names, entry.1 ≠ "" ∧
    (entry.1 = v.iorTableName ∨ s.reg.Remembers orb entry)

theorem unbind_vacates {m a : Nat} {t : RMVByMapped Nat} {index : UInt32}
    (hs : s.Kept orb inst []) (ht : s.reg.table m = some t)
    (hlookup : Registry.lookup t index = some a) :
    ∃ v, s.reg.values.cells a = some v ∧
      Vacated orb inst m index.toNat a v { s with
        reg := (s.reg.setTable m { t.storeAt index none with
          freeStack := index :: t.freeStack }).log (.removed a) } := by
  have hcover := hs.safe.cover m t ht
  obtain ⟨hindex, hslot⟩ := Registry.lookup_eq_some.mp hlookup
  have hfull : s.reg.slotOf m index.toNat = some a := (Registry.slotOf_eq ht _).trans hslot
  obtain ⟨v, hv⟩ := hs.safe.bound_cell ⟨m, index.toNat, hfull⟩
  have hmove : Move orb inst ⟨s.reg, []⟩ _ := .unbind ht hindex hslot
  have hclear : ∀ k i, (s.reg.setTable m { t.storeAt index none with
      freeStack := index :: t.freeStack }).slotOf k i =
        if k = m ∧ i = index.toNat then none else s.reg.slotOf k i :=
    RegistryState.slotOf_storeAt ht hcover hindex rfl
  refine ⟨v, hv, hs.safe.move hmove, hs.traced.move hs.safe hmove, hv, ?_, ?_⟩
  · exact (hclear m index.toNat).trans (if_pos ⟨rfl, rfl⟩)
  · intro entry hentry
    obtain ⟨hname, hremembers⟩ := hs.stand entry hentry
    exact ⟨hname, remembers_cleared hremembers hfull hv hclear fun _ _ => rfl⟩

variable {m j a : Nat} {v : ReferenceMapValue}

/-- A value without a name leaves no name behind. -/
theorem Vacated.kept (h : Vacated orb inst m j a v s) (hname : v.iorTableName = "") :
    s.Kept orb inst [a] := by
  refine ⟨h.safe, h.traced, ?_⟩
  intro entry hentry
  obtain ⟨hnonempty, hcases⟩ := h.stand entry hentry
  refine ⟨hnonempty, hcases.resolve_left ?_⟩
  rw [hname]
  exact hnonempty

theorem unbindName_kept :
    Action.Triple (Vacated orb inst m j a v) (unbindName v.iorTableName)
      (fun _ s => s.Kept orb inst [a] ∧ s.reg.slotOf m j = none)
      (fun s => s.Kept orb inst [a] ∧ s.reg.slotOf m j = none) := by
  apply Action.Triple.get
  intro s hs
  split
  · exact Action.Triple.fail
  · next table htable =>
      have hnames : s.names = table := by simp [names, htable]
      split
      · apply Action.Triple.modify
        rintro _ rfl
        refine ⟨⟨hs.safe, hs.traced, ?_⟩, hs.slot⟩
        intro entry hentry
        obtain ⟨hold, hother⟩ := List.mem_filter.mp hentry
        obtain ⟨hnonempty, hcases⟩ := hs.stand entry (hnames ▸ hold)
        exact ⟨hnonempty, hcases.resolve_left (by simpa using hother)⟩
      · next hunbound =>
          apply Action.Triple.raise
          rintro _ rfl
          refine ⟨⟨hs.safe, hs.traced, ?_⟩, hs.slot⟩
          intro entry hentry
          obtain ⟨hnonempty, hcases⟩ := hs.stand entry hentry
          refine ⟨hnonempty, hcases.resolve_left ?_⟩
          intro hname
          apply hunbound
          rw [hnames] at hentry
          rw [← hname]
          exact List.lookup_isSome_iff.mpr ⟨entry, hentry, by simp⟩

/-- The part of `remove_server` that owns the value taken out. -/
theorem unnameScope_kept :
    Action.Triple (Vacated orb inst m j a v)
      (Action.inScope
        (do let v ← onRegistry (Registry.readValue a)
            if v.iorTableName = "" then pure () else unbindName v.iorTableName)
        (onRegistry (Registry.decrRefcount a)))
      (fun _ s => s.Kept orb inst [] ∧ s.reg.slotOf m j = none)
      (fun s => s.Kept orb inst []) := by
  have hslots : ∀ reg values, Registry.slotOf reg m j = none →
      Registry.slotOf (reg.setValues values) m j = none := fun _ _ h => h
  apply Action.Triple.inScope
    (M := fun _ s => s.Kept orb inst [a] ∧ s.reg.slotOf m j = none)
    (F := fun s => s.Kept orb inst [a] ∧ s.reg.slotOf m j = none)
  · intro s hs
    have hread : (onRegistry (Registry.readValue a)).run s = (.ok v, s) := by
      unfold onRegistry
      rw [Action.run_zoom, Registry.run_readValue hs.value]
    rw [Action.run_bind_ok hread]
    by_cases hname : v.iorTableName = ""
    · rw [if_pos hname]
      exact ⟨hs.kept hname, hs.slot⟩
    · rw [if_neg hname]
      exact unbindName_kept s hs
  · exact fun _ => release_kept a (fun reg => reg.slotOf m j = none) hslots
  · apply (release_kept a (fun reg => reg.slotOf m j = none) hslots).weaken
    · exact fun _ h => h
    · exact fun _ _ h => h.1
    · exact fun _ h => h

/-- How the removal of a reference goes: nothing is taken out, or the value in
the slot that the id of the reference leads to. -/
inductive Removes (orb : Orb) (inst : Instance) (mapped : ObjRef) (outFacing : Bool)
    (s : MapperState) : Outcome Exn (Option Nat) × Registry → Prop where
  | unhandled (hhandler : s.reg.handler mapped.typeId = none) :
      Removes orb inst mapped outFacing s (.ok none, s.reg)
  | uncached {m : Nat} (hhandler : s.reg.handler mapped.typeId = some m)
      (ht : s.reg.table m = none) : Removes orb inst mapped outFacing s (.ok none, s.reg)
  | raised (e : Exn) : Removes orb inst mapped outFacing s (.raised e, s.reg)
  | fault (cause : Fault) : Removes orb inst mapped outFacing s (.fault cause, s.reg)
  | missed {m : Nat} {t : RMVByMapped Nat} {oid : ObjectId} {index : UInt32}
      (hhandler : s.reg.handler mapped.typeId = some m) (ht : s.reg.table m = some t)
      (hid : orb.referenceToId ⟨m, outFacing⟩ mapped = .ok oid)
      (hread : readIndex oid = some index) (hlookup : Registry.lookup t index = none) :
      Removes orb inst mapped outFacing s (.ok none, s.reg)
  | took {m a : Nat} {oid : ObjectId} {index : UInt32} {reg' : Registry}
      {v : ReferenceMapValue} (hhandler : s.reg.handler mapped.typeId = some m)
      (hid : orb.referenceToId ⟨m, outFacing⟩ mapped = .ok oid)
      (hread : readIndex oid = some index) (hslot : s.reg.slotOf m index.toNat = some a)
      (hv : s.reg.values.cells a = some v)
      (hvacated : Vacated orb inst m index.toNat a v { s with reg := reg' }) :
      Removes orb inst mapped outFacing s (.ok (some a), reg')

theorem removeReference_removes (hs : s.Kept orb inst []) (mapped : ObjRef)
    (outFacing : Bool) :
    Removes orb inst mapped outFacing s
      ((Registry.removeReference orb mapped outFacing).run s.reg) := by
  have hremoval := Registry.removeReference_removal orb hs.safe.cover mapped outFacing
  cases hrun : (Registry.removeReference orb mapped outFacing).run s.reg with
  | mk outcome reg' =>
      rw [hrun] at hremoval
      cases hremoval with
      | unhandled hhandler => exact .unhandled hhandler
      | uncached hhandler ht => exact .uncached hhandler ht
      | raised _ _ => exact .raised _
      | short _ _ _ => exact .fault _
      | missed hhandler ht hid hread hlookup => exact .missed hhandler ht hid hread hlookup
      | took hhandler ht hid hread hlookup =>
          obtain ⟨v, hv, hvacated⟩ := unbind_vacates hs ht hlookup
          exact .took hhandler hid hread (Registry.lookup_slot ht hlookup) hv hvacated

/-- `remove_server` keeps the names in order, and once it has returned no name
is bound to the reference, if it could reach the slot of its id. -/
theorem removeServer_kept (horb : orb.Lawful) (hfaithful : orb.Faithful) (mapped : ObjRef) :
    Action.Triple
      (fun s => s.Kept orb inst [] ∧ (s.Unnamed orb mapped ∨ s.removable orb mapped))
      (removeServer orb (some mapped))
      (fun _ s => s.Kept orb inst [] ∧ s.Unnamed orb mapped)
      (fun s => s.Kept orb inst []) := by
  rintro s ⟨hs, hreach⟩
  have hremoves := removeReference_removes hs mapped true
  unfold removeServer
  rw [Action.run_bind]
  unfold onRegistry
  rw [Action.run_zoom]
  cases hrun : (Registry.removeReference orb mapped true).run s.reg with
  | mk outcome reg' =>
      rw [hrun] at hremoves
      cases hremoves with
      | unhandled hhandler =>
          refine ⟨hs, hreach.resolve_right ?_⟩
          simp [removable, hhandler]
      | uncached hhandler ht =>
          refine ⟨hs, hreach.resolve_right ?_⟩
          simp [removable, hhandler, ht]
      | raised e => exact hs
      | fault cause => trivial
      | @missed m t oid index hhandler ht hid hread hlookup =>
          refine ⟨hs, ?_⟩
          rcases hreach with hunnamed | hremovable
          · exact hunnamed
          · have hlimit : index < t.limit := by
              simpa [removable, hhandler, ht, hid, hread] using hremovable
            refine unnamed_of_slot horb hfaithful hs hid hread ?_
            rw [Registry.slotOf_eq ht]
            unfold Registry.lookup at hlookup
            rwa [if_neg (UInt32.not_le.mpr hlimit)] at hlookup
      | took hhandler hid hread hslot hv hvacated =>
          apply unnameScope_kept.weaken (fun _ h => h) ?_ (fun _ h => h) _ hvacated
          rintro _ s' ⟨hkept, hempty⟩
          exact ⟨hkept, unnamed_of_slot horb hfaithful hkept hid hread hempty⟩

theorem removeClient_kept (mapped : ObjRef) :
    Action.Triple (fun s => s.Kept orb inst [] ∧ s.takesNameless orb mapped)
      (removeClient orb (some mapped))
      (fun _ s => s.Kept orb inst []) (fun s => s.Kept orb inst []) := by
  rintro s ⟨hs, htakes⟩
  have hremoves := removeReference_removes hs mapped false
  unfold removeClient
  rw [Action.run_bind]
  unfold onRegistry
  rw [Action.run_zoom]
  cases hrun : (Registry.removeReference orb mapped false).run s.reg with
  | mk outcome reg' =>
      rw [hrun] at hremoves
      cases hremoves with
      | unhandled _ => exact hs
      | uncached _ _ => exact hs
      | raised e => exact hs
      | fault cause => trivial
      | missed _ _ _ _ _ => exact hs
      | @took m a oid index _ v hhandler hid hread hslot hv hvacated =>
          have hname : v.iorTableName = "" := by
            simpa [takesNameless, hhandler, hid, hread, Registry.nameless, hslot, hv] using htakes
          exact release_only_kept _ _ (hvacated.kept hname)

/-- The collector takes out an entry without a name. -/
theorem reap_kept (hs : s.Kept orb inst []) {m page offset : Nat} {t : RMVByMapped Nat}
    (ht : s.reg.table m = some t) (hoffset : offset < t.pageSize.toNat)
    (hpage : page < t.pages.length)
    (hnameless : s.reg.nameless m (page * t.pageSize.toNat + offset)) :
    ∃ reg', (Registry.reap m page offset).run s.reg = (.ok (), reg') ∧
      Kept orb inst [] { s with reg := reg' } ∧
      reg'.slotOf m (page * t.pageSize.toNat + offset) = none := by
  cases hslot : t.slot (page * t.pageSize.toNat + offset) with
  | none =>
      exact ⟨s.reg, Registry.run_reap_empty ht hslot, hs, (Registry.slotOf_eq ht _).trans hslot⟩
  | some a =>
      have hfull : s.reg.slotOf m (page * t.pageSize.toNat + offset) = some a :=
        (Registry.slotOf_eq ht _).trans hslot
      obtain ⟨v, hv⟩ : ∃ v, s.reg.values.cells a = some v :=
        hs.safe.bound_cell ⟨m, _, hfull⟩
      obtain ⟨values, hdecr⟩ := hs.safe.decr_ok hv
      have hmove : Move orb inst ⟨s.reg, []⟩ _ := .reap ht hoffset hpage hslot hdecr
      have hclear : ∀ k i, ((s.reg.setValues values).setTable m (t.reap page offset)).slotOf k i =
          if k = m ∧ i = page * t.pageSize.toNat + offset then none else s.reg.slotOf k i :=
        RegistryState.slotOf_reap ht hoffset hpage
      refine ⟨_, Registry.run_reap ht hslot hdecr, ⟨hs.safe.move hmove,
        hs.traced.move hs.safe hmove, ?_⟩, (hclear m _).trans (if_pos ⟨rfl, rfl⟩)⟩
      intro entry hentry
      obtain ⟨hnonempty, hremembers⟩ := hs.stand entry hentry
      have hname : v.iorTableName = "" := by
        simpa [Registry.nameless, hfull, hv] using hnameless
      obtain ⟨v', content, -, rfl, -⟩ := Heap.decrRefcount_counts hdecr
      have hcases := remembers_cleared hremembers hfull hv hclear fun b hb =>
        Heap.write_cells_of_ne _ hb _
      refine ⟨hnonempty, hcases.resolve_left ?_⟩
      rw [hname]
      exact hnonempty

end Removing

section Steps

open ReferenceMapper

theorem asServer_guard {orig : ObjRef} {name : String}
    (h : (!s.bindable name || s.canRemember inst orig) = true) :
    s.bindable name → s.canRemember inst orig := by
  intro hbindable
  rw [hbindable] at h
  exact h

/-- Every step that keeps the names keeps the invariant. -/
theorem Kept.step (horb : orb.Lawful) (hfaithful : orb.Faithful) {s' : MapperState}
    {op : ServerOp} (hs : s.Kept orb inst []) (hop : s.keepsNames orb inst op)
    (hstep : s.step orb inst op = some s') : s'.Kept orb inst [] := by
  cases op with
  | asServer orig name agent =>
      cases orig with
      | none =>
          obtain rfl := Option.some.inj hstep
          exact hs
      | some orig =>
          exact after_triple (asServerI_kept false orig name agent) (fun _ _ h => h)
            ⟨hs, asServer_guard hop⟩ hstep
  | asSecureServer orig name agent =>
      have hsecure : Action.Triple
          (fun s => s.Kept orb inst [] ∧ s.keepsNames orb inst (.asSecureServer orig name agent))
          (asSecureServer orb inst orig name agent)
          (fun _ s => s.Kept orb inst []) (fun s => s.Kept orb inst []) := by
        apply asSecureServer_triple fun _ h => h.1
        rintro native rfl s ⟨hs, hop⟩
        exact asServerI_kept true native name agent s ⟨hs, asServer_guard hop⟩
      exact after_triple hsecure (fun _ _ h => h) ⟨hs, hop⟩ hstep
  | removeServer mapped =>
      cases mapped with
      | none =>
          obtain rfl := Option.some.inj hstep
          exact hs
      | some mapped =>
          have hguard : s.Unnamed orb mapped ∨ s.removable orb mapped := by
            simpa [keepsNames] using hop
          exact after_triple (removeServer_kept horb hfaithful mapped) (fun _ _ h => h.1)
            ⟨hs, hguard⟩ hstep
  | asClient orig => exact after_triple (asClient_kept orig) (fun _ _ h => h) hs hstep
  | asClientWithCorbaloc corbaloc id =>
      exact after_triple (asClientWithCorbaloc_triple asClient_kept) (fun _ _ h => h) hs hstep
  | removeClient mapped =>
      cases mapped with
      | none =>
          obtain rfl := Option.some.inj hstep
          exact hs
      | some mapped => exact after_triple (removeClient_kept mapped) (fun _ _ h => h) ⟨hs, hop⟩ hstep
  | reap m page offset =>
      obtain ⟨t, ht, hoffset, hpage, hstep⟩ := step_reap hstep
      have hnameless : s.reg.nameless m (page * t.pageSize.toNat + offset) := by
        simpa [keepsNames, ht] using hop
      obtain ⟨reg', hrun, hkept, -⟩ := reap_kept hs ht hoffset hpage hnameless
      unfold onRegistry at hstep
      rw [Action.run_zoom, hrun] at hstep
      obtain rfl := Option.some.inj hstep
      exact hkept
  | evaluators answers =>
      obtain rfl := Option.some.inj hstep
      refine hs.moves (.single (.evaluators answers)) (.of_slots ?_ rfl)
      intro k i a hslot
      rwa [Registry.withEvaluators_slotOf]

theorem initial_kept (cache hasSecurity : Bool) (answers : List (String → Bool))
    (hasTable hasDecision : Bool) :
    (initial cache hasSecurity answers hasTable hasDecision).Kept orb inst [] := by
  have hreach : (registrySystem orb inst cache).Reachable
      (RegistryState.initial cache hasSecurity answers) := .start ⟨_, _, rfl⟩
  obtain ⟨hsafe, htraced⟩ := RegistryState.sound_of_reach hreach
  refine ⟨hsafe, htraced, ?_⟩
  intro entry hentry
  cases hasTable <;> cases hentry

/-- In every run of steps that keep the names, with or without the cache, every
bound name is that of a standing entry; after `remove_server` has returned, and
after an entry was reaped, no name is bound to the mapped reference. -/
theorem names_dropped (orb : Orb) (horb : orb.Lawful) (hfaithful : orb.Faithful)
    (inst : Instance) (cacheProxyReferences : Bool) (s : MapperState)
    (hreach : (mapperSystem orb inst cacheProxyReferences).Reach
      (fun s op => s.keepsNames orb inst op) s)
    (op : ServerOp) (hop : s.keepsNames orb inst op) :
    s.NamesStand orb ∧ s.DropsNames orb inst op := by
  have hs : s.Kept orb inst [] := by
    apply hreach.invariant
    · rintro _ ⟨hasSecurity, answers, hasTable, hasDecision, rfl⟩
      exact initial_kept _ hasSecurity answers hasTable hasDecision
    · exact fun s op s' hs hop hstep => hs.step horb hfaithful hop hstep
  refine ⟨hs.stand, ?_⟩
  cases op with
  | removeServer mapped =>
      cases mapped with
      | none => trivial
      | some mapped =>
          intro s' hrun
          have hguard : s.Unnamed orb mapped ∨ s.removable orb mapped := by
            simpa [keepsNames] using hop
          have hpost := removeServer_kept horb hfaithful mapped s ⟨hs, hguard⟩
          rw [hrun] at hpost
          exact hpost.2
  | reap m page offset =>
      intro t a v s' ht hslot hv hstep
      have hrange : offset < t.pageSize.toNat ∧ page < t.pages.length := by
        simp only [MapperState.step, ht] at hstep
        exact (Option.ite_none_right_eq_some.mp hstep).1
      have hnameless : s.reg.nameless m (page * t.pageSize.toNat + offset) := by
        simpa [keepsNames, ht] using hop
      obtain ⟨reg', hrun, hkept, hempty⟩ := reap_kept hs ht hrange.1 hrange.2 hnameless
      simp only [MapperState.step, ht] at hstep
      rw [if_pos hrange] at hstep
      unfold onRegistry at hstep
      rw [Action.run_zoom, hrun] at hstep
      obtain rfl := Option.some.inj hstep
      have hfull : s.reg.slotOf m (page * t.pageSize.toNat + offset) = some a :=
        (Registry.slotOf_eq ht _).trans hslot
      obtain ⟨facing, index, native, w, hi, -, -, hw, -, hcreate⟩ := hs.traced.made _ _ _ hfull
      obtain rfl := Option.some.inj (hw.symm.trans hv)
      refine unnamed_of_slot horb hfaithful hkept (horb.to_id_own _ _ _ _ hcreate)
        (inst.readIndex_objectId facing index) ?_
      rw [← hi]
      exact hempty
  | asServer orig name agent => trivial
  | asSecureServer orig name agent => trivial
  | asClient orig => trivial
  | asClientWithCorbaloc corbaloc id => trivial
  | removeClient mapped => trivial
  | evaluators answers => trivial

end Steps

end MapperState

/-- The type id and the key of a reference, spelled out. -/
def spell (ref : ObjRef) : List Char :=
  (ref.typeId.toList.flatMap fun c => ['c', c]) ++ '.' ::
    match ref.key with
    | none => ['n']
    | some key => 'k' :: key.map fun octet => Char.ofNat octet.toNat

/-- The plain ORB with texts that say what its POAs look at. -/
def Orb.spelled : Orb :=
  { Orb.plain with objectToString := fun ref => String.ofList (spell ref) }

theorem Orb.spelled_lawful : Orb.spelled.Lawful :=
  ⟨Orb.plain_lawful.create_key, Orb.plain_lawful.create_type, Orb.plain_lawful.to_id_own,
    Orb.plain_lawful.to_id_other, Orb.plain_lawful.to_id_key⟩

theorem spelled_split {x y rest rest' : List Char}
    (h : (x.flatMap fun c => ['c', c]) ++ '.' :: rest =
      (y.flatMap fun c => ['c', c]) ++ '.' :: rest') : x = y ∧ rest = rest' := by
  induction x generalizing y with
  | nil =>
      cases y with
      | nil => exact ⟨rfl, by simpa using h⟩
      | cons d y => simp at h
  | cons c x ih =>
      cases y with
      | nil => simp at h
      | cons d y =>
          simp only [List.flatMap_cons, List.cons_append, List.nil_append, List.cons.injEq,
            true_and] at h
          obtain ⟨rfl, h⟩ := h
          obtain ⟨rfl, rfl⟩ := ih h
          exact ⟨rfl, rfl⟩

theorem octet_char_injective : Function.Injective fun octet : UInt8 => Char.ofNat octet.toNat := by
  have hvalue : ∀ octet : UInt8, (Char.ofNat octet.toNat).toNat = octet.toNat := by
    intro octet
    have hlt := octet.toNat_lt
    have hvalid : octet.toNat.isValidChar := .inl (by omega)
    unfold Char.ofNat
    rw [dif_pos hvalid]
    rfl
  intro x y h
  apply UInt8.toNat_inj.mp
  rw [← hvalue x, ← hvalue y]
  exact congrArg Char.toNat h

/-- The laws about texts can be met too. -/
theorem Orb.spelled_faithful : Orb.spelled.Faithful := by
  intro ref ref' h
  obtain ⟨htype, hkey⟩ := spelled_split (String.ofList_injective h)
  have hsame : ref.key = ref'.key := by
    cases hr : ref.key with
    | none =>
        cases hr' : ref'.key with
        | none => rfl
        | some key' => simp [hr, hr'] at hkey
    | some key =>
        cases hr' : ref'.key with
        | none => simp [hr, hr'] at hkey
        | some key' =>
            simp only [hr, hr', List.cons.injEq, true_and] at hkey
            rw [octet_char_injective.list_map hkey]
  refine ⟨String.toList_injective htype, ?_⟩
  intro poa
  simp [Orb.spelled, Orb.plain, hsame]

namespace MapperState

/-- A run with one mapper that evaluates every type, and an IOR table. -/
def namedRun (guard : MapperState → ServerOp → Bool) (ops : List ServerOp) :
    Option MapperState :=
  (mapperSystem Orb.spelled ⟨7, 42⟩ true).replay (fun s op => guard s op)
    (initial true false [fun _ => true] true false) ops

theorem namedRun_reach {guard : MapperState → ServerOp → Bool} {ops : List ServerOp}
    {s : MapperState} (h : namedRun guard ops = some s) :
    (mapperSystem Orb.spelled ⟨7, 42⟩ true).Reach (fun s op => guard s op) s :=
  System.Reach.of_replay (.start ⟨_, _, _, _, rfl⟩) ops h

/-- The mapped reference of the first registration. -/
def sampleMapped : ObjRef :=
  ⟨"IDL:Test/Hello:1.0", some (Poa.name ⟨0, true⟩ ++ Instance.objectId ⟨7, 42⟩ true 0),
    "IOR:lorica", false, false⟩

theorem names_dropped_one_server :
    ∃ s, namedRun (keepsNames Orb.spelled ⟨7, 42⟩)
        [.asServer (some sampleNative) "hello" none] = some s ∧
      s.names.map Prod.fst = ["hello"] ∧ s.NamesStand Orb.spelled ∧
      s.DropsNames Orb.spelled ⟨7, 42⟩ (.removeServer (some sampleMapped)) := by
  obtain ⟨s, hs⟩ := Option.isSome_iff_exists.mp (show
    (namedRun (keepsNames Orb.spelled ⟨7, 42⟩)
      [.asServer (some sampleNative) "hello" none]).isSome by decide +kernel)
  have hnames : s.names.map Prod.fst = ["hello"] :=
    System.replay_read (fun s => s.names.map Prod.fst) hs (by decide +kernel)
  have hop : s.keepsNames Orb.spelled ⟨7, 42⟩ (.removeServer (some sampleMapped)) = true :=
    System.replay_read (fun s => s.keepsNames Orb.spelled ⟨7, 42⟩
      (.removeServer (some sampleMapped))) hs (by decide +kernel)
  exact ⟨s, hs, hnames, names_dropped Orb.spelled Orb.spelled_lawful Orb.spelled_faithful
    ⟨7, 42⟩ true s (namedRun_reach hs) _ hop⟩

/-- A mapped server is registered again under a second name and then removed:
the first name stays. -/
theorem not_dropsNames_second_name :
    ¬ ∀ (orb : Orb) (inst : Instance) (cacheProxyReferences : Bool) (s : MapperState)
      (op : ServerOp), orb.Lawful → orb.Faithful →
      (mapperSystem orb inst cacheProxyReferences).Reachable s → s.DropsNames orb inst op := by
  intro hall
  let ops : List ServerOp := [.asServer (some sampleNative) "first" none,
    .asServer (some sampleMapped) "second" none]
  obtain ⟨s, hs⟩ := Option.isSome_iff_exists.mp (show
    (namedRun (fun _ _ => true) ops).isSome by decide +kernel)
  have hreach : (mapperSystem Orb.spelled ⟨7, 42⟩ true).Reachable s :=
    (namedRun_reach hs).mono fun _ _ _ => trivial
  have hdrops := hall Orb.spelled ⟨7, 42⟩ true s (.removeServer (some sampleMapped))
    Orb.spelled_lawful Orb.spelled_faithful hreach
  have hreturned : ((ReferenceMapper.removeServer Orb.spelled (some sampleMapped)).run s).1 =
      .ok () :=
    System.replay_read (fun s => ((ReferenceMapper.removeServer Orb.spelled
      (some sampleMapped)).run s).1) hs (by decide +kernel)
  have hleft : ¬ ((ReferenceMapper.removeServer Orb.spelled
      (some sampleMapped)).run s).2.Unnamed Orb.spelled sampleMapped := by
    have hfalse : decide (((ReferenceMapper.removeServer Orb.spelled
        (some sampleMapped)).run s).2.Unnamed Orb.spelled sampleMapped) = false :=
      System.replay_read (fun s => decide (((ReferenceMapper.removeServer Orb.spelled
        (some sampleMapped)).run s).2.Unnamed Orb.spelled sampleMapped)) hs (by decide +kernel)
    exact of_decide_eq_false hfalse
  exact hleft (hdrops _ (Prod.ext hreturned rfl))

end MapperState

end Lorica
