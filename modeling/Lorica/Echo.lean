import Lorica.MappingRuns

/-!
A value that went out through the gateway and comes back. Each reference in it
was mapped by an entry of its own, so on the way back every one of them is
reversed. Between the two passages anything may have happened that left the
entries where `find` sees them.
-/

namespace Lorica

open Machine

/-! ## The type of a value is a matter of its shape -/

namespace Value

variable {ρ τ : Type} {g : TypeGraph} {f : ρ → τ}

theorem length_mapList (vs : List (Value ρ)) : (map.mapList f vs).length = vs.length := by
  induction vs with
  | nil => rfl
  | cons v vs ih => simp only [map.mapList, List.length_cons, ih]

mutual

theorem HasType.map {v : Value ρ} {tc : Nat} (h : v.HasType g tc) : (v.map f).HasType g tc := by
  cases h with
  | plain hkind => exact .plain hkind
  | object hkind => exact .object hkind
  | struct hkind h => exact .struct hkind (haveTypes_map h)
  | except hkind h => exact .except hkind (haveTypes_map h)
  | @sequence vs _ content hkind h =>
      have helements := haveTypes_map h
      rw [← length_mapList (f := f) vs] at helements
      exact .sequence hkind helements
  | noMember hkind => exact .noMember hkind
  | member hkind hmember h => exact .member hkind hmember (HasType.map h)
  | any hkind hbuilt h => exact .any hkind hbuilt (HasType.map h)

theorem haveTypes_map {vs : List (Value ρ)} {tcs : List Nat} (h : HaveTypes g vs tcs) :
    HaveTypes g (map.mapList f vs) tcs := by
  cases h with
  | nil => exact .nil
  | cons h hs => exact .cons (HasType.map h) (haveTypes_map hs)

end

mutual

theorem HasType.of_map {v : Value ρ} {tc : Nat} (h : (v.map f).HasType g tc) :
    v.HasType g tc := by
  cases v with
  | plain octets => cases h with | plain hkind => exact .plain hkind
  | object ref => cases h with | object hkind => exact .object hkind
  | composite vs =>
      cases h with
      | struct hkind h => exact .struct hkind (haveTypes_of_map h)
      | except hkind h => exact .except hkind (haveTypes_of_map h)
      | sequence hkind h =>
          rw [length_mapList] at h
          exact .sequence hkind (haveTypes_of_map h)
  | union discriminator active =>
      cases active with
      | none => cases h with | noMember hkind => exact .noMember hkind
      | some active =>
          cases h with
          | member hkind hmember h => exact .member hkind hmember (HasType.of_map h)
  | any tc' v => cases h with | any hkind hbuilt h => exact .any hkind hbuilt (HasType.of_map h)

theorem haveTypes_of_map {vs : List (Value ρ)} {tcs : List Nat}
    (h : HaveTypes g (map.mapList f vs) tcs) : HaveTypes g vs tcs := by
  cases vs with
  | nil => cases h with | nil => exact .nil
  | cons v vs => cases h with | cons h hs => exact .cons (HasType.of_map h) (haveTypes_of_map hs)

end

/-- A value alike has the same types. -/
theorem Alike.hasType {R : ρ → τ → Prop} {v : Value ρ} {v' : Value τ} (h : Alike R v v')
    {tc : Nat} (hv : v.HasType g tc) : v'.HasType g tc := by
  have hshape := hv.map (f := fun _ => ())
  rw [← h.shape] at hshape
  exact hshape.of_map

end Value

namespace Registry

/-- `find` sees the value in some table. -/
def Finds (reg : Registry) (a : Nat) : Prop :=
  ∃ m t index, reg.table m = some t ∧ lookup t index = some a

/-- The mapper for the type has handed this reference out for the native, with
a value that is not older than the first one given; whatever is recorded of
that value is this mapping. -/
def Sent (orb : Orb) (inst : Instance) (outFacing : Bool) (first : Nat) (reg : Registry)
    (native mapped : ObjRef) : Prop :=
  ∃ m index a, first ≤ a ∧ a < reg.values.fresh ∧ reg.handler native.typeId = some m ∧
    orb.createReferenceWithId ⟨m, outFacing⟩ (inst.objectId outFacing index) native.typeId =
      .ok mapped ∧
    ∀ poa oid native', .mapped poa oid native' a ∈ reg.history →
      poa = ⟨m, outFacing⟩ ∧ oid = inst.objectId outFacing index ∧ native' = native

/-- The mapper for the type finds an entry that it has made the reference for,
and the entry holds the native. -/
def Standing (orb : Orb) (inst : Instance) (outFacing : Bool) (reg : Registry)
    (native mapped : ObjRef) : Prop :=
  ∃ m index t a w,
    orb.createReferenceWithId ⟨m, outFacing⟩ (inst.objectId outFacing index) native.typeId =
      .ok mapped ∧
    reg.handler native.typeId = some m ∧ reg.table m = some t ∧ lookup t index = some a ∧
    reg.values.cells a = some w ∧ w.origRef = reg.origRef native

section Passages

variable {orb : Orb} {inst : Instance} {outFacing : Bool} {reg reg' : Registry}
  {held : List Nat} {native native' mapped : ObjRef} {first : Nat}

/-! ## On the way out -/

theorem stable_sent (native mapped : ObjRef) :
    Action.Stable (Maps orb inst held)
      fun reg => Sent orb inst outFacing first reg native mapped := by
  rintro reg reg' hmaps ⟨m, index, a, hfirst, hlt, hhandler, hcreate, honly⟩
  refine ⟨m, index, a, hfirst, lt_of_lt_of_le hlt hmaps.grown.fresh,
    (hmaps.handler _).trans hhandler, hcreate, fun poa oid native' hmapped => ?_⟩
  rcases hmaps.grown.later poa oid native' a hmapped with hold | hnew
  · exact honly poa oid native' hold
  · exact absurd hlt (Nat.not_lt.mpr hnew)

/-- Where the evaluators start from: a state of a run, and a first value that
is still to come. -/
def Before (orb : Orb) (inst : Instance) (held : List Nat) (first : Nat) (reg : Registry) :
    Prop :=
  (registrySystem orb inst true).Reachable ⟨reg, held⟩ ∧ first ≤ reg.values.fresh

theorem stable_before : Action.Stable (Maps orb inst held) (Before orb inst held first) :=
  fun _ _ hmaps h => ⟨hmaps.reach h.1, h.2.trans hmaps.grown.fresh⟩

/-- What is handed out for a foreign reference. -/
theorem mappedForNative_sent (hforeign : inst.ours native.key = false) :
    Action.Evolves (Maps orb inst held) (Before orb inst held first)
      (mappedForNative orb inst native outFacing)
      fun answer reg => ∀ mapped, answer = some mapped →
        Sent orb inst outFacing first reg native mapped := by
  rintro reg ⟨hreach, hfirst⟩
  obtain ⟨hsafe, htraced⟩ := RegistryState.sound_of_reach hreach
  have hanswer := mappedForNative_answer orb inst hsafe native outFacing
  generalize (mappedForNative orb inst native outFacing).run reg = result at hanswer
  obtain ⟨outcome, reg'⟩ := result
  cases outcome with
  | fault cause => trivial
  | raised e => exact (hanswer.maps hsafe (by simp)).1
  | ok answer =>
      refine ⟨(hanswer.maps hsafe (by simp)).1, ?_⟩
      rintro mapped rfl
      cases hanswer with
      | @handed a v values reg₁ hmap hv hdecr =>
          obtain ⟨ha, m, index, hhandler, hcreate, hhistory⟩ := mapReference_handled hsafe
            (RegistryState.cached_of_reach hreach) hforeign hmap hv
          have hadv := mapReference_advances orb inst hsafe native outFacing false
          have hleaves := mapReference_leaves orb inst hsafe native outFacing false
          rw [hmap] at hadv hleaves
          have hsafe₁ : RegistryState.Safe ⟨reg₁, a :: held⟩ := hsafe.moves hadv
          have hlt := RegistryState.lt_fresh hsafe₁.fresh hv
          obtain ⟨_, content, -, rfl, -⟩ := Heap.decrRefcount_counts hdecr
          refine ⟨m, index, a, ha ▸ hfirst, hlt, (hleaves.handler _).trans hhandler, hcreate, ?_⟩
          intro poa oid native' hmapped
          exact mapping_once htraced ha hlt hhistory (.refl _) hmapped

/-! ## In between -/

/-- Whatever has happened since: a value that is still found is the entry. -/
theorem Sent.standing {s : RegistryState}
    (htraced : RegistryState.Traced orb inst s)
    (h : Sent orb inst outFacing first reg native mapped)
    (hgrown : RegistryState.Grown ⟨reg, held⟩ s)
    (hhandler : s.reg.handler native.typeId = reg.handler native.typeId)
    (hfinds : ∀ a, first ≤ a → a < reg.values.fresh → s.reg.Finds a) :
    Standing orb inst outFacing s.reg native mapped := by
  obtain ⟨m, index, a, hfirst, hlt, hm, hcreate, honly⟩ := h
  obtain ⟨k, t, index', ht, hlookup⟩ := hfinds a hfirst hlt
  obtain ⟨facing, index'', native', w, hindex, hmapped, -, hw, horig, -⟩ :=
    htraced.made k index'.toNat a (lookup_slot ht hlookup)
  have hold : .mapped ⟨k, facing⟩ (inst.objectId facing index'') native' a ∈ reg.history := by
    rcases hgrown.later _ _ _ _ hmapped with hold | hnew
    · exact hold
    · exact absurd hlt (Nat.not_lt.mpr hnew)
  obtain ⟨hpoa, hoid, rfl⟩ := honly _ _ _ hold
  obtain ⟨rfl, rfl⟩ := Poa.mk.inj hpoa
  obtain ⟨-, rfl⟩ := inst.objectId_injective hoid
  obtain rfl := UInt32.toNat_inj.mp hindex
  exact ⟨k, index', t, a, w, hcreate, hhandler.trans hm, ht, hlookup, hw, horig⟩

/-! ## On the way back -/

/-- The reversed value is made and let go of, and the entries stay. -/
theorem Standing.run (horb : orb.Lawful) (hsafe : RegistryState.Safe ⟨reg, held⟩)
    (h : Standing orb inst outFacing reg native mapped) :
    ∃ values, (mappedForNative orb inst mapped (!outFacing)).run reg =
        (.ok (some (reg.origRef native)), reg.setValues values) ∧
      RegistryState.Safe ⟨reg.setValues values, held⟩ ∧
      ∀ a v, reg.values.cells a = some v → values.cells a = some v := by
  obtain ⟨m, index, t, a, w, hcreate, hhandler, ht, hlookup, hw, horig⟩ := h
  obtain ⟨htype, hstatus⟩ := mapped_status (v := ⟨native, mapped, "", false, none, 0⟩)
    horb hcreate (!outFacing)
  rw [if_neg (Bool.not_ne_self outFacing)] at hstatus
  have hne := (RegistryState.lt_fresh hsafe.fresh hw).ne
  have hmap := run_mapReference orb inst reg mapped (!outFacing) false
  rw [htype, hhandler] at hmap
  simp only at hmap
  rw [run_addNativeHere_reverse_hit orb inst ht (hsafe.cover m t ht) hstatus hlookup hw
    (hsafe.counted a w hw).2 hne] at hmap
  have hcell : (reg.setValues (reg.values.alloc w.reverse).2).values.cells reg.values.fresh =
      some w.reverse := Heap.write_cells_self _ _ _
  have hdecr := Heap.decrRefcount_eq_of_one hcell rfl
  refine ⟨(reg.values.alloc w.reverse).2.write reg.values.fresh none, ?_, ?_, ?_⟩
  · unfold mappedForNative
    rw [Action.run_bind_ok hmap]
    dsimp only
    rw [Action.run_inScope_ok (Action.run_bind_ok (run_readValue hcell) _)
      (run_decrRefcount hdecr), ← horig]
    rfl
  · have hadv := mapReference_advances orb inst hsafe mapped (!outFacing) false
    rw [hmap] at hadv
    have hsafe₁ : RegistryState.Safe ⟨reg.setValues (reg.values.alloc w.reverse).2,
        reg.values.fresh :: held⟩ := hsafe.moves hadv
    have hdrop := hsafe₁.drop List.mem_cons_self hdecr
    rwa [List.erase_cons_head] at hdrop
  · intro b v hv
    have hb := (RegistryState.lt_fresh hsafe.fresh hv).ne
    exact (Heap.write_cells_of_ne _ hb _).trans ((Heap.write_cells_of_ne _ hb _).trans hv)

theorem Standing.kept {values : Heap} (h : Standing orb inst outFacing reg native mapped)
    (hkept : ∀ a v, reg.values.cells a = some v → values.cells a = some v) :
    Standing orb inst outFacing (reg.setValues values) native mapped := by
  obtain ⟨m, index, t, a, w, hcreate, hhandler, ht, hlookup, hw, horig⟩ := h
  exact ⟨m, index, t, a, w, hcreate, hhandler, ht, hlookup, hkept a w hw, horig⟩

end Passages

end Registry

namespace GenericEvaluator

open Registry

variable {ι : Type} {ev : GenericEvaluator ι} {f : Bool} {reg : Registry} {held : List Nat}

/-- One reference after the other is reversed, and those that are still to come
keep their entries. -/
theorem mapsAs_standing (horb : ev.orb.Lawful) {values : Heap} {natives : List ObjRef}
    {refs : List Reference}
    (hkept : ∀ a v, reg.values.cells a = some v → values.cells a = some v)
    (hvalues : RegistryState.Safe ⟨reg.setValues values, held⟩)
    (h : List.Forall₂ (fun native r => Standing ev.orb ev.inst f reg native r.object)
      natives refs) :
    ∃ values', MapsAs ev.orb ev.inst (!f) refs
      (natives.map fun native => some (reg.origRef native)) (reg.setValues values)
      (reg.setValues values') := by
  induction h generalizing values with
  | nil => exact ⟨values, .nil _⟩
  | cons hr hrefs ih =>
      obtain ⟨values₁, hrun, hsafe₁, hkept₁⟩ := (hr.kept hkept).run horb hvalues
      have hkept' : ∀ a v, reg.values.cells a = some v → values₁.cells a = some v :=
        fun a v hv => hkept₁ a v (hkept a v hv)
      obtain ⟨values', hrest⟩ := ih hkept' hsafe₁
      exact ⟨values', .cons hrun hrest⟩

/-- Each reference is the answer it was replaced by. -/
theorem forall₂_replacement (g : ObjRef → ObjRef) {natives : List ObjRef}
    {refs : List Reference} (hlength : natives.length = refs.length) :
    List.Forall₂ (fun native r => g native = r.object) natives
      (List.zipWith (Reference.replacement f) refs (natives.map fun native => some (g native))) := by
  induction natives generalizing refs with
  | nil =>
      rw [List.map_nil, List.zipWith_nil_right]
      exact .nil
  | cons native natives ih =>
      cases refs with
      | nil => cases hlength
      | cons r refs => exact .cons rfl (ih (Nat.succ.inj hlength))

/-! ## The two passages together -/

section Echo

variable {s₀ s : RegistryState} {tc : Nat} {v : Value ObjRef} {v₁ : Value Reference}
  {reg₁ : Registry}

/-- After the way out: the same value, with a reference sent for each one. -/
theorem proxifyAny_sent (hreach₀ : (registrySystem ev.orb ev.inst true).Reachable s₀)
    (hforeign : ∀ ref ∈ v.refs, ev.inst.ours ref.key = false)
    (hsent : (ev.proxifyAny f tc (v.map .incoming)).run s₀.reg = (.ok v₁, reg₁))
    (hcross : Crossing f v₁.refs) :
    Maps ev.orb ev.inst s₀.held s₀.reg reg₁ ∧
      Value.Alike (fun native r => Sent ev.orb ev.inst f s₀.reg.values.fresh reg₁ native r.object)
        v v₁ := by
  have hwalk : Action.Evolves (Maps ev.orb ev.inst s₀.held)
      (Before ev.orb ev.inst s₀.held s₀.reg.values.fresh)
      (ev.proxifyAny f tc (v.map .incoming)) fun v' reg =>
        Value.Alike (fun (r r' : Reference) => ∀ mapped, r' = .mapped f mapped →
          Sent ev.orb ev.inst f s₀.reg.values.fresh reg r.object mapped)
          (v.map Reference.incoming) v' := by
    apply ev.proxifyAny_walks stable_before
    · intro r r' reg reg' hmaps h mapped hr'
      exact stable_sent _ _ _ _ hmaps (h mapped hr')
    · intro r hr
      rw [Value.refs_map] at hr
      obtain ⟨ref, href, rfl⟩ := List.mem_map.mp hr
      refine ⟨fun reg _ mapped heq => (nomatch heq), ?_⟩
      refine (mappedForNative_sent (hforeign ref href)).weaken (fun _ h => h) ?_
      intro answer reg h mapped hanswer mapped' heq
      obtain ⟨-, rfl⟩ := Reference.mapped.inj heq
      exact h mapped hanswer
  have hrun := hwalk s₀.reg ⟨hreach₀, le_refl _⟩
  rw [hsent] at hrun
  refine ⟨hrun.1, hrun.2.of_map_left.imp_mem fun native _ r hr h => ?_⟩
  have hmapped := hcross r hr
  cases r with
  | incoming ref => cases hmapped
  | mapped facing ref =>
      obtain rfl : facing = f := by simpa [Reference.mappedFor] using hmapped
      exact h ref rfl

/-- What went out comes back. A value of foreign references is sent through the
gateway and all of them are mapped. If later the mappers for their types are
still the same and `find` still sees every value made on the way out, sending
the result back the other way gives the value that was sent, and the tables
stay as they are. -/
theorem echo_restores (horb : ev.orb.Lawful)
    (haccept : ∀ tc, ev.types.Built tc → ev.dynAnyRefuses tc = none)
    (hreach₀ : (registrySystem ev.orb ev.inst true).Reachable s₀)
    (hb : ev.types.Built tc) (hv : v.HasType ev.types tc)
    (hforeign : ∀ ref ∈ v.refs, ev.inst.ours ref.key = false)
    (hsent : (ev.proxifyAny f tc (v.map .incoming)).run s₀.reg = (.ok v₁, reg₁))
    (hcross : Crossing f v₁.refs)
    (hrun : ((registrySystem ev.orb ev.inst true).restart ⟨reg₁, s₀.held⟩).Reachable s)
    (hhandler : ∀ ref ∈ v.refs, s.reg.handler ref.typeId = s₀.reg.handler ref.typeId)
    (hfinds : ∀ a, s₀.reg.values.fresh ≤ a → a < reg₁.values.fresh → s.reg.Finds a) :
    ∃ need, ∀ stack ≥ need, ∃ v₂ reg₂,
      (({ ev with stack := stack } : GenericEvaluator ι).proxifyAny (!f) tc
        (v₁.map (.incoming ∘ Reference.object))).run s.reg = (.ok v₂, reg₂) ∧
      v₂.map Reference.object = v.map s.reg.origRef ∧
      ∀ m, reg₂.table m = s.reg.table m := by
  obtain ⟨hmaps, halike⟩ := proxifyAny_sent hreach₀ hforeign hsent hcross
  have hreach₁ := hmaps.reach hreach₀
  obtain ⟨hsafe, htraced⟩ := RegistryState.sound_of_reach (hreach₁.trans hrun)
  have hgrown := RegistryState.Grown.of_reach (RegistryState.sound_of_reach hreach₁).1 hrun
  have hstanding : Value.Alike
      (fun native r => Standing ev.orb ev.inst f s.reg native r.object) v v₁ := by
    refine halike.imp_mem fun native hnative r _ hr => ?_
    refine hr.standing htraced hgrown ?_ hfinds
    rw [hhandler native hnative, hmaps.handler]
  have hback : Value.Alike (fun native r => Standing ev.orb ev.inst f s.reg native r.object) v
      (v₁.map (Reference.incoming ∘ Reference.object)) := by
    refine ⟨(Value.map_map _ _ _).trans hstanding.shape, ?_⟩
    rw [Value.refs_map, List.forall₂_map_right_iff]
    exact hstanding.refs
  obtain ⟨values, hmapsAs⟩ := mapsAs_standing horb (fun _ _ hcell => hcell) hsafe hback.refs
  obtain ⟨need, hneed⟩ := proxify_remaps (f := !f) haccept hb ((halike.hasType hv).map
    (f := Reference.incoming ∘ Reference.object))
  refine ⟨need, fun stack hle => ?_⟩
  have hremaps := hneed stack hle
  rw [← proxify_stack ev (!f) stack] at hremaps
  obtain ⟨v₂, changed, hremapped, hrun₂, hsame⟩ :=
    @remapped_of_remaps _ { ev with stack := stack } _ _ _ _ _ _ hremaps hmapsAs
  refine ⟨v₂, _, run_proxifyAny (haccept tc hb) hrun₂ hsame, ?_, fun _ => rfl⟩
  apply Value.Alike.map_eq
  refine ⟨hremapped.shape.trans hback.shape, ?_⟩
  rw [hremapped.refs]
  exact forall₂_replacement _ hback.refs.length_eq

/-- The native of the pair twice, once inside an any. -/
def twice (ref : ObjRef) : Value ObjRef :=
  .composite [.object (some ref), .any 1 (.object (some ref))]

/-- The registry after the way out. -/
def twiceSent : Registry :=
  ((pairEvaluator.proxifyAny true 0 ((twice pairRef).map .incoming)).run
    (RegistryState.initial true false [(· == "IDL:I:1.0")]).reg).2

def twiceMapped : Value Reference :=
  .composite [.object (some (.mapped true pairMapped)),
    .any 1 (.object (some (.mapped true pairMappedNext)))]

theorem echo_restores_twice :
    ∃ need, ∀ stack ≥ need, ∃ v₂ reg₂,
      (({ pairEvaluator with stack := stack } : GenericEvaluator Unit).proxifyAny false 0
        (twiceMapped.map (.incoming ∘ Reference.object))).run twiceSent = (.ok v₂, reg₂) ∧
      v₂.map Reference.object = (twice pairRef).map twiceSent.origRef ∧
      ∀ m, reg₂.table m = twiceSent.table m := by
  have htyped : (twice pairRef).HasType pairEvaluator.types 0 :=
    .struct rfl (.cons (.object rfl)
      (.cons (.any rfl pairTypes_built.2.1 (.object rfl)) .nil))
  apply @echo_restores _ pairEvaluator true _ ⟨twiceSent, []⟩ _ _ _ _
    Orb.plain_lawful (fun _ _ => rfl) (.start ⟨false, [(· == "IDL:I:1.0")], rfl⟩)
    pairTypes_built.1 htyped (by decide)
    (show (pairEvaluator.proxifyAny true 0 ((twice pairRef).map .incoming)).run
      (RegistryState.initial true false [(· == "IDL:I:1.0")]).reg = (.ok twiceMapped, twiceSent)
      from Prod.ext rfl rfl) (by unfold Crossing; decide) (.start rfl) (by decide)
  intro a _ hlt
  have hfound : ∀ a < 2, ((twiceSent.table 0).bind fun t =>
      Registry.lookup t (UInt32.ofNat a)) = some a := by decide
  obtain ⟨t, ht, hlookup⟩ := Option.bind_eq_some_iff.mp (hfound a hlt)
  exact ⟨0, t, _, ht, hlookup⟩

end Echo

end GenericEvaluator

end Lorica
