import Lorica.EvaluatorPlan
import Lorica.TypeSearch

/-!
What `proxify_any` makes of a value whose type is built without arrays, value
types and recursion: every reference is replaced as `mapped_for_native` says
and everything else stays. Parts that `has_objref` rules out hold no
reference, so nothing is lost by passing them by.
-/

namespace Lorica

open Machine

/-! ## Types and their values -/

namespace TypeNode

/-- The kinds a type is built from here. -/
def isBuilding : TypeNode → Bool
  | tkNull | tkVoid | tkBasic => true
  | tkObjref | tkAny => true
  | tkStruct _ | tkExcept .. | tkUnion _ | tkSequence _ => true
  | _ => false

def isPlain : TypeNode → Bool
  | tkNull | tkVoid | tkBasic => true
  | _ => false

end TypeNode

/-- A type that is built from these kinds, at every depth and without coming
back to itself. -/
inductive TypeGraph.Built (g : TypeGraph) : Nat → Prop where
  | intro {tc : Nat} (hkind : (g.kind tc).isBuilding = true)
      (h : ∀ tc' ∈ g.searchEdges tc, Built g tc') : Built g tc

mutual

/-- `v` is a value of the type. What an any holds brings its own type along. -/
inductive Value.HasType {ρ : Type} (g : TypeGraph) : Value ρ → Nat → Prop where
  | plain {octets : List UInt8} {tc : Nat} (hkind : (g.kind tc).isPlain = true) :
      HasType g (.plain octets) tc
  | object {ref : Option ρ} {tc : Nat} (hkind : g.kind tc = .tkObjref) :
      HasType g (.object ref) tc
  | struct {vs : List (Value ρ)} {tc : Nat} {members : List Nat}
      (hkind : g.kind tc = .tkStruct members) (h : HaveTypes g vs members) :
      HasType g (.composite vs) tc
  | except {vs : List (Value ρ)} {tc : Nat} {id : String} {members : List Nat}
      (hkind : g.kind tc = .tkExcept id members) (h : HaveTypes g vs members) :
      HasType g (.composite vs) tc
  | sequence {vs : List (Value ρ)} {tc content : Nat}
      (hkind : g.kind tc = .tkSequence content)
      (h : HaveTypes g vs (List.replicate vs.length content)) :
      HasType g (.composite vs) tc
  | noMember {discriminator : Int} {tc : Nat} {members : List Nat}
      (hkind : g.kind tc = .tkUnion members) : HasType g (.union discriminator none) tc
  | member {discriminator : Int} {i : Nat} {v : Value ρ} {tc tc' : Nat}
      {members : List Nat} (hkind : g.kind tc = .tkUnion members)
      (hmember : members[i]? = some tc') (h : HasType g v tc') :
      HasType g (.union discriminator (some (i, v))) tc
  | any {v : Value ρ} {tc tc' : Nat} (hkind : g.kind tc = .tkAny) (hbuilt : g.Built tc')
      (h : HasType g v tc') : HasType g (.any tc' v) tc

inductive Value.HaveTypes {ρ : Type} (g : TypeGraph) : List (Value ρ) → List Nat → Prop where
  | nil : HaveTypes g [] []
  | cons {v : Value ρ} {vs : List (Value ρ)} {tc : Nat} {tcs : List Nat}
      (h : HasType g v tc) (hs : HaveTypes g vs tcs) : HaveTypes g (v :: vs) (tc :: tcs)

end

namespace TypeGraph

variable {g : TypeGraph} {tc : Nat}

theorem Built.kind (h : g.Built tc) : (g.kind tc).isBuilding = true := by
  cases h with
  | intro hkind _ => exact hkind

theorem Built.edge (h : g.Built tc) {tc' : Nat} (hedge : tc' ∈ g.searchEdges tc) :
    g.Built tc' := by
  cases h with
  | intro _ h => exact h tc' hedge

/-- Without recursion `has_objref` answers when there is room enough. -/
theorem Built.answers (h : g.Built tc) :
    ∃ need, ∀ depth ≥ need, ∃ b, g.hasObjref depth tc = .ok b := by
  have hreturns : EagerSearch.Returns g.searchTarget g.searchEdges
      Fault.stackExhausted tc := by
    induction h with
    | intro hkind h ih =>
        apply EagerSearch.returns_of_enters
        rintro c ⟨-, before, after, heq, -⟩
        exact ih c (by simp [heq])
  obtain ⟨need, b, -, hneed⟩ := hreturns.answer
  refine ⟨need, fun depth hle => ⟨b, ?_⟩⟩
  rw [hasObjref_eq_search]
  exact hneed depth hle

end TypeGraph

namespace Value

variable {ρ : Type} {g : TypeGraph}

/-! ## Values without references -/

mutual

/-- A value whose type leads to no reference has none in it. -/
theorem refs_of_not_reaches {v : Value ρ} {tc : Nat} (h : v.HasType g tc)
    (hno : ¬ g.ReachesPlainly tc) : v.refs = [] := by
  cases h with
  | plain => rfl
  | object hkind =>
      refine absurd ⟨tc, .refl, ?_⟩ hno
      simp [TypeGraph.searchTarget, hkind, TypeNode.isReference]
  | struct hkind h =>
      refine refsList_of_not_reaches h fun tc' htc' hreaches => ?_
      exact hno (hreaches.of_edge
        (by simpa [TypeGraph.searchEdges, hkind, TypeNode.searched] using htc'))
  | except hkind h =>
      refine refsList_of_not_reaches h fun tc' htc' hreaches => ?_
      exact hno (hreaches.of_edge
        (by simpa [TypeGraph.searchEdges, hkind, TypeNode.searched] using htc'))
  | sequence hkind h =>
      refine refsList_of_not_reaches h fun tc' htc' hreaches => ?_
      obtain rfl := List.eq_of_mem_replicate htc'
      exact hno (hreaches.of_edge (by simp [TypeGraph.searchEdges, hkind, TypeNode.searched]))
  | noMember => rfl
  | @member _ _ v _ tc' _ hkind hmember h =>
      refine refs_of_not_reaches (v := v) h fun hreaches => ?_
      have hedge := List.mem_of_getElem? hmember
      exact hno (hreaches.of_edge
        (by simpa [TypeGraph.searchEdges, hkind, TypeNode.searched] using hedge))
  | any hkind =>
      refine absurd ⟨tc, .refl, ?_⟩ hno
      simp [TypeGraph.searchTarget, hkind, TypeNode.isReference]

theorem refsList_of_not_reaches {vs : List (Value ρ)} {tcs : List Nat}
    (h : HaveTypes g vs tcs) (hno : ∀ tc ∈ tcs, ¬ g.ReachesPlainly tc) :
    refs.refsList vs = [] := by
  cases h with
  | nil => rfl
  | @cons v vs tc tcs h hs =>
      rw [List.forall_mem_cons] at hno
      simp only [refs.refsList, List.append_eq_nil_iff]
      exact ⟨refs_of_not_reaches h hno.1, refsList_of_not_reaches hs hno.2⟩

end

/-! ## Replacing references -/

mutual

theorem map_map {τ υ : Type} (f : ρ → τ) (f' : τ → υ) (v : Value ρ) :
    (v.map f).map f' = v.map (f' ∘ f) := by
  cases v with
  | plain octets => rfl
  | object ref => cases ref <;> rfl
  | composite components =>
      simp only [map]
      rw [mapList_mapList f f' components]
  | union discriminator active =>
      cases active with
      | none => rfl
      | some active =>
          obtain ⟨i, v⟩ := active
          simp only [map]
          rw [map_map f f' v]
  | any tc v =>
      simp only [map]
      rw [map_map f f' v]

theorem mapList_mapList {τ υ : Type} (f : ρ → τ) (f' : τ → υ) (vs : List (Value ρ)) :
    map.mapList f' (map.mapList f vs) = map.mapList (f' ∘ f) vs := by
  cases vs with
  | nil => rfl
  | cons v vs =>
      simp only [map.mapList]
      rw [map_map f f' v, mapList_mapList f f' vs]

end

/-- A shape has as many places for references as the value. -/
theorem length_of_shape {τ : Type} {v : Value ρ} {v' : Value τ}
    (h : v'.map (fun _ => ()) = v.map fun _ => ()) : v.refs.length = v'.refs.length := by
  have hrefs := congrArg (List.length ∘ Value.refs) h
  simpa only [Function.comp_apply, Value.refs_map, List.length_map] using hrefs.symm

mutual

/-- The shape and the references make the value. -/
theorem eq_of_shape {v v' : Value ρ} (hshape : v'.map (fun _ => ()) = v.map fun _ => ())
    (hrefs : v'.refs = v.refs) : v' = v := by
  cases v with
  | plain octets =>
      cases v' with
      | plain octets' => simpa [map] using hshape
      | union discriminator active => cases active <;> simp [map] at hshape
      | _ => simp [map] at hshape
  | object ref =>
      cases v' with
      | object ref' =>
          cases ref <;> cases ref' <;> simp_all [refs]
      | union discriminator active => cases active <;> simp [map] at hshape
      | _ => simp [map] at hshape
  | composite vs =>
      cases v' with
      | composite vs' =>
          exact congrArg Value.composite (eq_of_shapeList (Value.composite.inj hshape) hrefs)
      | union discriminator active => cases active <;> simp [map] at hshape
      | _ => simp [map] at hshape
  | union discriminator active =>
      cases active with
      | none =>
          cases v' with
          | union discriminator' active' => cases active' <;> simp_all [map]
          | _ => simp [map] at hshape
      | some active =>
          obtain ⟨i, v⟩ := active
          cases v' with
          | union discriminator' active' =>
              cases active' with
              | none => simp [map] at hshape
              | some active' =>
                  obtain ⟨i', w⟩ := active'
                  simp only [map, union.injEq, Option.some.injEq, Prod.mk.injEq] at hshape
                  obtain ⟨rfl, rfl, hshape⟩ := hshape
                  rw [eq_of_shape hshape hrefs]
          | _ => simp [map] at hshape
  | any tc v =>
      cases v' with
      | any tc' w =>
          simp only [map, any.injEq] at hshape
          obtain ⟨rfl, hshape⟩ := hshape
          rw [eq_of_shape hshape hrefs]
      | union discriminator active => cases active <;> simp [map] at hshape
      | _ => simp [map] at hshape

theorem eq_of_shapeList {vs vs' : List (Value ρ)}
    (hshape : map.mapList (fun _ => ()) vs' = map.mapList (fun _ => ()) vs)
    (hrefs : refs.refsList vs' = refs.refsList vs) : vs' = vs := by
  cases vs with
  | nil =>
      cases vs' with
      | nil => rfl
      | cons v' vs' => simp [map.mapList] at hshape
  | cons v vs =>
      cases vs' with
      | nil => simp [map.mapList] at hshape
      | cons v' vs' =>
          simp only [map.mapList, List.cons.injEq] at hshape
          obtain ⟨hhead, htail⟩ := List.append_inj hrefs (length_of_shape hshape.1).symm
          rw [eq_of_shape hshape.1 hhead, eq_of_shapeList hshape.2 htail]

end

end Value

/-- What an answer of `mapped_for_native` makes of a reference. -/
def Reference.replacement (outFacing : Bool) (r : Reference) : Option ObjRef → Reference
  | some mappedRef => .mapped outFacing mappedRef
  | none => r

/-- The references are replaced where they were mapped, each by the answer it
got, nothing else is touched, and the flag says whether any was mapped. -/
structure Remapped (outFacing : Bool) (answers : List (Option ObjRef))
    (v v' : Value Reference) (changed : Bool) : Prop where
  refs : v'.refs = List.zipWith (Reference.replacement outFacing) v.refs answers
  shape : v'.map (fun _ => ()) = v.map fun _ => ()
  changed : changed = true ↔ ∃ answer ∈ answers, answer.isSome = true

/-- Where no reference was mapped the value is the old one. -/
theorem Remapped.eq_of_unchanged {outFacing : Bool} {answers : List (Option ObjRef)}
    {v v' : Value Reference} (h : Remapped outFacing answers v v' false)
    (hlength : v.refs.length = answers.length) : v' = v := by
  have hnone : answers = List.replicate v.refs.length none := by
    refine List.eq_replicate_iff.mpr ⟨hlength.symm, fun answer hanswer => ?_⟩
    by_contra hsome
    exact Bool.false_ne_true (h.changed.mpr ⟨answer, hanswer, Option.isSome_iff_ne_none.mpr hsome⟩)
  have hkept : ∀ refs : List Reference,
      List.zipWith (Reference.replacement outFacing) refs (List.replicate refs.length none) =
        refs := by
    intro refs
    induction refs with
    | nil => rfl
    | cons r refs ih => exact congrArg (r :: ·) ih
  refine Value.eq_of_shape h.shape ?_
  rw [h.refs, hnone, hkept]

namespace Registry

/-- Asked for these references in this order, `mapped_for_native` gives these
answers and takes the registry from one state to the other. A reference that
comes again may get another answer. -/
inductive MapsAs (orb : Orb) (inst : Instance) (outFacing : Bool) :
    List Reference → List (Option ObjRef) → Registry → Registry → Prop
  | nil (reg : Registry) : MapsAs orb inst outFacing [] [] reg reg
  | cons {r : Reference} {answer : Option ObjRef} {refs : List Reference}
      {answers : List (Option ObjRef)} {reg mid reg' : Registry}
      (hrun : (mappedForNative orb inst r.object outFacing).run reg = (.ok answer, mid))
      (h : MapsAs orb inst outFacing refs answers mid reg') :
      MapsAs orb inst outFacing (r :: refs) (answer :: answers) reg reg'

variable {orb : Orb} {inst : Instance} {f : Bool} {refs : List Reference}
  {answers : List (Option ObjRef)} {reg reg' : Registry}

theorem MapsAs.length (h : MapsAs orb inst f refs answers reg reg') :
    refs.length = answers.length := by
  induction h with
  | nil reg => rfl
  | cons hrun h ih => rw [List.length_cons, List.length_cons, ih]

theorem mapsAs_append {refs' : List Reference}
    (h : MapsAs orb inst f (refs ++ refs') answers reg reg') :
    ∃ first second mid, answers = first ++ second ∧ MapsAs orb inst f refs first reg mid ∧
      MapsAs orb inst f refs' second mid reg' := by
  induction refs generalizing answers reg with
  | nil => exact ⟨[], answers, reg, rfl, .nil reg, h⟩
  | cons r refs ih =>
      cases h with
      | cons hrun hrest =>
          obtain ⟨first, second, mid, rfl, hrefs, hrefs'⟩ := ih hrest
          exact ⟨_ :: first, second, mid, rfl, .cons hrun hrefs, hrefs'⟩

end Registry

namespace GenericEvaluator

variable {ι : Type} (ev : GenericEvaluator ι)

/-- `x` replaces the references in `old`. -/
def Remaps {α σ : Type} (outFacing : Bool) (refsOf : α → List Reference) (shapeOf : α → σ)
    (old : α) (x : RegistryM (Bool × α)) : Prop :=
  ∀ answers reg reg', Registry.MapsAs ev.orb ev.inst outFacing (refsOf old) answers reg reg' →
    ∃ new, x.run reg = (.ok (answers.any Option.isSome, new), reg') ∧
      refsOf new = List.zipWith (Reference.replacement outFacing) (refsOf old) answers ∧
      shapeOf new = shapeOf old

section Walk

variable {ev} {f : Bool}

theorem remaps_leave {α σ : Type} {refsOf : α → List Reference} {shapeOf : α → σ} {old : α}
    (hrefs : refsOf old = []) : ev.Remaps f refsOf shapeOf old (pure (false, old)) := by
  intro answers reg reg' hm
  rw [hrefs] at hm ⊢
  cases hm
  exact ⟨old, rfl, hrefs, rfl⟩

theorem remaps_cons {v : Value Reference} {vs : List (Value Reference)}
    {x : RegistryM (Bool × Value Reference)} {xs : RegistryM (Bool × List (Value Reference))}
    (hx : ev.Remaps f Value.refs (Value.map fun _ => ()) v x)
    (hxs : ev.Remaps f Value.refs.refsList (Value.map.mapList fun _ => ()) vs xs) :
    ev.Remaps f Value.refs.refsList (Value.map.mapList fun _ => ()) (v :: vs)
      (do let (changed, v) ← x
          let (changed', vs) ← xs
          pure (changed || changed', v :: vs)) := by
  intro answers reg reg' hm
  obtain ⟨first, second, mid, rfl, hv, hvs⟩ := Registry.mapsAs_append hm
  obtain ⟨v', hrun, hrefs, hshape⟩ := hx first reg mid hv
  obtain ⟨vs', hruns, hrefss, hshapes⟩ := hxs second mid reg' hvs
  refine ⟨v' :: vs', ?_, ?_, ?_⟩
  · rw [Action.run_bind_ok hrun]
    dsimp only
    rw [Action.run_bind_ok hruns, Action.run_pure, List.any_append]
  · rw [Value.refs.refsList, Value.refs.refsList, hrefs, hrefss,
      List.zipWith_append hv.length]
  · simp only [Value.map.mapList, hshape, hshapes]

/-- What is done with the components is done with the value around them. -/
theorem remaps_wrap {α β σ τ : Type} {refsOf : α → List Reference}
    {refsOf' : β → List Reference} {shapeOf : α → σ} {shapeOf' : β → τ}
    {old : α} {x : RegistryM (Bool × α)} (wrap : α → β)
    (hrefs : ∀ a, refsOf' (wrap a) = refsOf a)
    (hshape : ∀ a, shapeOf a = shapeOf old → shapeOf' (wrap a) = shapeOf' (wrap old))
    (hx : ev.Remaps f refsOf shapeOf old x) :
    ev.Remaps f refsOf' shapeOf' (wrap old)
      (do let (changed, a) ← x
          pure (changed, wrap a)) := by
  intro answers reg reg' hm
  rw [hrefs] at hm
  obtain ⟨new, hrun, hnew, hsame⟩ := hx answers reg reg' hm
  refine ⟨wrap new, ?_, ?_, hshape new hsame⟩
  · rw [Action.run_bind_ok hrun, Action.run_pure]
  · rw [hrefs, hrefs, hnew]

theorem remaps_composite {vs : List (Value Reference)}
    {x : RegistryM (Bool × List (Value Reference))}
    (hx : ev.Remaps f Value.refs.refsList (Value.map.mapList fun _ => ()) vs x) :
    ev.Remaps f Value.refs (Value.map fun _ => ()) (.composite vs)
      (do let (changed, vs) ← x
          pure (changed, Value.composite vs)) :=
  remaps_wrap Value.composite (fun _ => rfl) (fun _ h => congrArg Value.composite h) hx

theorem proxifyReference_remaps (ref : Option Reference) :
    ev.Remaps f Value.refs (Value.map fun _ => ()) (.object ref)
      (ev.proxifyReference f (.object ref)) := by
  cases ref with
  | none => exact remaps_leave rfl
  | some r =>
      intro answers reg reg' hm
      cases hm with
      | cons hrun hrest =>
          cases hrest
          rw [proxifyReference, Action.run_bind_ok hrun]
          rename_i answer
          cases answer with
          | none => exact ⟨.object (some r), rfl, rfl, rfl⟩
          | some mappedRef => exact ⟨.object (some (.mapped f mappedRef)), rfl, rfl, rfl⟩

theorem proxifyIfObjref_remaps {depth tc : Nat} {v : Value Reference}
    {proxify : Nat → Value Reference → RegistryM (Bool × Value Reference)}
    (hv : v.HasType ev.types tc) (hanswers : ∃ b, ev.types.hasObjref depth tc = .ok b)
    (hrec : ev.Remaps f Value.refs (Value.map fun _ => ()) v (proxify tc v)) :
    ev.Remaps f Value.refs (Value.map fun _ => ()) v
      (proxifyIfObjref (ev.types.hasObjref depth) proxify tc v) := by
  obtain ⟨b, hb⟩ := hanswers
  unfold proxifyIfObjref
  rw [hb]
  cases b with
  | true => exact hrec
  | false =>
      apply remaps_leave
      apply Value.refs_of_not_reaches hv
      exact fun hreaches => by simpa using (TypeGraph.hasObjref_correct hb).mpr hreaches

/-- The room a walk and the searches in front of it need, whichever is more. -/
theorem proxifyIfObjref_room {tc : Nat} {v : Value Reference} (hb : ev.types.Built tc)
    (hv : v.HasType ev.types tc)
    (h : ∃ need, ∀ depth ≥ need,
      ev.Remaps f Value.refs (Value.map fun _ => ()) v (ev.proxify f depth tc v)) :
    ∃ need, ∀ depth ≥ need, ev.Remaps f Value.refs (Value.map fun _ => ()) v
      (proxifyIfObjref (ev.types.hasObjref depth) (ev.proxify f depth) tc v) := by
  obtain ⟨need, hneed⟩ := h
  obtain ⟨need', hanswers⟩ := hb.answers
  refine ⟨max need need', fun depth hle => ?_⟩
  exact proxifyIfObjref_remaps hv (hanswers depth (by omega)) (hneed depth (by omega))

/-- One call of `proxify` has one level less to give to the calls inside. -/
theorem room_succ {v : Value Reference} {tc : Nat} {P : Nat → Prop}
    (h : ∃ need, ∀ depth ≥ need, P depth)
    (hP : ∀ depth, P depth →
      ev.Remaps f Value.refs (Value.map fun _ => ()) v (ev.proxify f (depth + 1) tc v)) :
    ∃ need, ∀ depth ≥ need,
      ev.Remaps f Value.refs (Value.map fun _ => ()) v (ev.proxify f depth tc v) := by
  obtain ⟨need, hneed⟩ := h
  refine ⟨need + 1, fun depth hle => ?_⟩
  obtain ⟨depth, rfl⟩ : ∃ room, depth = room + 1 := ⟨depth - 1, by omega⟩
  exact hP depth (hneed depth (by omega))

mutual

theorem proxify_remaps (haccept : ∀ tc, ev.types.Built tc → ev.dynAnyRefuses tc = none)
    {v : Value Reference} {tc : Nat} (hb : ev.types.Built tc)
    (hv : v.HasType ev.types tc) :
    ∃ need, ∀ depth ≥ need,
      ev.Remaps f Value.refs (Value.map fun _ => ()) v (ev.proxify f depth tc v) := by
  cases hv with
  | plain hkind =>
      refine room_succ (P := fun _ => True) ⟨0, fun _ _ => trivial⟩ fun depth _ => ?_
      unfold proxify
      cases hnode : ev.types.kind tc with
      | tkNull | tkVoid | tkBasic => exact remaps_leave rfl
      | _ => simp [hnode, TypeNode.isPlain] at hkind
  | object hkind =>
      refine room_succ (P := fun _ => True) ⟨0, fun _ _ => trivial⟩ fun depth _ => ?_
      simp only [proxify, hkind]
      exact proxifyReference_remaps _
  | struct hkind h =>
      have hmembers := proxifyMembers_remaps haccept (fun tc' htc' => hb.edge
        (by simpa [TypeGraph.searchEdges, hkind, TypeNode.searched] using htc')) h
      refine room_succ hmembers fun depth hdepth => ?_
      simp only [proxify, hkind, proxifyStruct]
      exact remaps_composite hdepth
  | except hkind h =>
      have hmembers := proxifyMembers_remaps haccept (fun tc' htc' => hb.edge
        (by simpa [TypeGraph.searchEdges, hkind, TypeNode.searched] using htc')) h
      refine room_succ hmembers fun depth hdepth => ?_
      simp only [proxify, hkind, proxifyStruct]
      exact remaps_composite hdepth
  | @sequence vs _ content hkind h =>
      have hb' : ev.types.Built content :=
        hb.edge (by simp [TypeGraph.searchEdges, hkind, TypeNode.searched])
      obtain ⟨need, helements⟩ :=
        proxifyElements_remaps haccept hb' (fun tc' htc' => List.eq_of_mem_replicate htc') h
      obtain ⟨need', hanswers⟩ := hb'.answers
      have hboth : ∃ need, ∀ depth ≥ need,
          ev.Remaps f Value.refs.refsList (Value.map.mapList fun _ => ()) vs
            (proxifyElements (ev.proxify f depth) content vs) ∧
          ∃ b, ev.types.hasObjref depth content = .ok b := by
        refine ⟨max need need', fun depth hle => ?_⟩
        exact ⟨helements depth (by omega), hanswers depth (by omega)⟩
      refine room_succ hboth fun depth hdepth => ?_
      obtain ⟨hdepth, b, hb⟩ := hdepth
      simp only [proxify, hkind, proxifySequence, hb]
      cases b with
      | true => exact remaps_composite hdepth
      | false =>
          have hrefs : Value.refs.refsList vs = [] := by
            apply Value.refsList_of_not_reaches h
            intro tc' htc' hreaches
            obtain rfl := List.eq_of_mem_replicate htc'
            exact absurd ((TypeGraph.hasObjref_correct hb).mpr hreaches) (by simp)
          exact remaps_leave hrefs
  | noMember hkind =>
      refine room_succ (P := fun _ => True) ⟨0, fun _ _ => trivial⟩ fun depth _ => ?_
      simp only [proxify, hkind, proxifyUnion]
      exact remaps_leave rfl
  | @member discriminator i v _ tc' members hkind hmember h =>
      have hb' : ev.types.Built tc' := hb.edge (by
        simpa [TypeGraph.searchEdges, hkind, TypeNode.searched] using
          List.mem_of_getElem? hmember)
      refine room_succ (proxifyIfObjref_room hb' h (proxify_remaps haccept hb' h))
        fun depth hdepth => ?_
      simp only [proxify, hkind, proxifyUnion, hmember]
      exact remaps_wrap (fun v => Value.union discriminator (some (i, v))) (fun _ => rfl)
        (fun _ h => congrArg (fun w => Value.union discriminator (some (i, w))) h) hdepth
  | @any v _ tc' hkind hbuilt h =>
      refine room_succ (proxifyIfObjref_room hbuilt h (proxify_remaps haccept hbuilt h))
        fun depth hdepth => ?_
      simp only [proxify, hkind, proxifyContent, haccept tc' hbuilt]
      exact remaps_wrap (Value.any tc') (fun _ => rfl) (fun _ h => congrArg (Value.any tc') h)
        hdepth

theorem proxifyMembers_remaps
    (haccept : ∀ tc, ev.types.Built tc → ev.dynAnyRefuses tc = none)
    {vs : List (Value Reference)} {tcs : List Nat}
    (hb : ∀ tc ∈ tcs, ev.types.Built tc) (hvs : Value.HaveTypes ev.types vs tcs) :
    ∃ need, ∀ depth ≥ need, ev.Remaps f Value.refs.refsList (Value.map.mapList fun _ => ()) vs
      (proxifyMembers (ev.types.hasObjref depth) (ev.proxify f depth) tcs vs) := by
  cases hvs with
  | nil => exact ⟨0, fun _ _ => remaps_leave rfl⟩
  | @cons v vs tc tcs h hs =>
      rw [List.forall_mem_cons] at hb
      obtain ⟨need, hv⟩ := proxifyIfObjref_room hb.1 h (proxify_remaps haccept hb.1 h)
      obtain ⟨need', hvs⟩ := proxifyMembers_remaps haccept hb.2 hs
      refine ⟨max need need', fun depth hle => ?_⟩
      exact remaps_cons (hv depth (by omega)) (hvs depth (by omega))

theorem proxifyElements_remaps
    (haccept : ∀ tc, ev.types.Built tc → ev.dynAnyRefuses tc = none)
    {vs : List (Value Reference)} {tcs : List Nat} {content : Nat}
    (hb : ev.types.Built content) (hcontent : ∀ tc ∈ tcs, tc = content)
    (hvs : Value.HaveTypes ev.types vs tcs) :
    ∃ need, ∀ depth ≥ need, ev.Remaps f Value.refs.refsList (Value.map.mapList fun _ => ()) vs
      (proxifyElements (ev.proxify f depth) content vs) := by
  cases hvs with
  | nil => exact ⟨0, fun _ _ => remaps_leave rfl⟩
  | @cons v vs tc tcs h hs =>
      rw [List.forall_mem_cons] at hcontent
      obtain ⟨rfl, hcontent⟩ := hcontent
      obtain ⟨need, hv⟩ := proxify_remaps haccept hb h
      obtain ⟨need', hvs⟩ := proxifyElements_remaps haccept hb hcontent hs
      refine ⟨max need need', fun depth hle => ?_⟩
      exact remaps_cons (hv depth (by omega)) (hvs depth (by omega))

end

end Walk

/-! ## The whole any -/

/-- The room on the stack does not enter into what one call does. -/
theorem proxify_stack (f : Bool) (stack depth : Nat) :
    ({ ev with stack := stack } : GenericEvaluator ι).proxify f depth = ev.proxify f depth := by
  induction depth with
  | zero => rfl
  | succ depth ih =>
      funext tc v
      unfold proxify
      rw [ih]
      rfl

variable {ev}

section Whole

variable {f : Bool} {tc : Nat} {v v' : Value Reference} {changed : Bool} {reg reg' : Registry}

theorem run_assignedAny (haccept : ev.dynAnyRefuses tc = none)
    (hrun : (ev.proxify f ev.stack tc v).run reg = (.ok (changed, v'), reg')) :
    (ev.assignedAny f tc v).run reg = (.ok (if changed then some v' else none), reg') := by
  unfold assignedAny
  rw [haccept]
  exact Action.run_bind_ok hrun _

theorem run_proxifyAny (haccept : ev.dynAnyRefuses tc = none)
    (hrun : (ev.proxify f ev.stack tc v).run reg = (.ok (changed, v'), reg'))
    (hsame : changed = false → v' = v) :
    (ev.proxifyAny f tc v).run reg = (.ok v', reg') := by
  unfold proxifyAny
  rw [Action.run_bind_ok (run_assignedAny haccept hrun), Action.run_pure]
  cases changed with
  | true => rfl
  | false =>
      rw [hsame rfl]
      rfl

/-- What `proxify` makes of a value is what the any is left with. -/
theorem remapped_of_remaps {answers : List (Option ObjRef)}
    (hremaps : ev.Remaps f Value.refs (Value.map fun _ => ()) v (ev.proxify f ev.stack tc v))
    (hm : Registry.MapsAs ev.orb ev.inst f v.refs answers reg reg') :
    ∃ v' changed, Remapped f answers v v' changed ∧
      (ev.proxify f ev.stack tc v).run reg = (.ok (changed, v'), reg') ∧
      (changed = false → v' = v) := by
  obtain ⟨v', hrun, hrefs, hshape⟩ := hremaps answers reg reg' hm
  have hremapped : Remapped f answers v v' (answers.any Option.isSome) :=
    ⟨hrefs, hshape, List.any_eq_true⟩
  refine ⟨v', _, hremapped, hrun, fun hchanged => ?_⟩
  rw [hchanged] at hremapped
  exact hremapped.eq_of_unchanged hm.length

end Whole

/-- For a value whose type is built without arrays, value types and recursion,
and for whatever answers of `mapped_for_native` in the order of the walk: given
the stack for it, `proxify_any` replaces each reference by its answer, leaves
all else as it is, and assigns the any exactly if a reference was mapped. -/
theorem proxifyAny_remapped (haccept : ∀ tc, ev.types.Built tc → ev.dynAnyRefuses tc = none)
    {v : Value Reference} {tc : Nat} (hb : ev.types.Built tc)
    (hv : v.HasType ev.types tc) (f : Bool) :
    ∃ need, ∀ stack ≥ need, ∀ answers reg reg',
      Registry.MapsAs ev.orb ev.inst f v.refs answers reg reg' →
      ∃ v' changed, Remapped f answers v v' changed ∧
        (ev.proxify f stack tc v).run reg = (.ok (changed, v'), reg') ∧
        (({ ev with stack := stack } : GenericEvaluator ι).assignedAny f tc v).run reg =
          (.ok (if changed then some v' else none), reg') ∧
        (({ ev with stack := stack } : GenericEvaluator ι).proxifyAny f tc v).run reg =
          (.ok v', reg') := by
  obtain ⟨need, hneed⟩ := proxify_remaps (f := f) haccept hb hv
  refine ⟨need, fun stack hle answers reg reg' hm => ?_⟩
  have hremaps := hneed stack hle
  rw [← proxify_stack ev f stack] at hremaps
  obtain ⟨v', changed, hremapped, hrun, hsame⟩ :=
    @remapped_of_remaps _ { ev with stack := stack } _ _ _ _ _ _ hremaps hm
  have hrun' := hrun
  rw [proxify_stack] at hrun'
  exact ⟨v', changed, hremapped, hrun', run_assignedAny (haccept tc hb) hrun,
    run_proxifyAny (haccept tc hb) hrun hsame⟩

/-! A struct of a reference and an any with the same reference in it. -/

def pairTypes : TypeGraph where
  node tc :=
    match tc with
    | 0 => .tkStruct [1, 2]
    | 1 => .tkObjref
    | 2 => .tkAny
    | _ => .tkBasic
  aliases _ := 0
  alias_lt tc content h := by
    split at h <;> simp at h

def pairEvaluator : GenericEvaluator Unit where
  typeId := "IDL:I:1.0"
  intDef := ()
  repo := ⟨fun _ => "IDL:I:1.0", fun _ => [], fun _ => [], fun _ => []⟩
  prims := ⟨3, 3, 3⟩
  cmp := .sign
  types := pairTypes
  dynAnyRefuses _ := none
  stack := 8
  orb := .plain
  inst := ⟨0, 0⟩
  mapper := 0

def pairRegistry : Registry where
  mappers := [.new true (· == "IDL:I:1.0")]
  values := ⟨fun _ => none, 0⟩
  hasSecurity := false
  history := []

def pairRef : ObjRef := ⟨"IDL:I:1.0", none, "IOR:native", false, false⟩

def pairMapped : ObjRef where
  typeId := "IDL:I:1.0"
  key := some [1, 1, 76, 82, 67, 65, 1, 79, 0, 0, 0, 0, 0, 0, 0, 0, 0, 0]
  endpoint := "IOR:lorica"
  sslTrans := false
  secured := false

/-- The reference that a second mapping makes, with the next id. -/
def pairMappedNext : ObjRef :=
  { pairMapped with key := some [1, 1, 76, 82, 67, 65, 1, 79, 0, 0, 1, 0, 0, 0, 0, 0, 0, 0] }

def pairValue : Value Reference :=
  .composite [.object (some (.incoming pairRef)), .any 1 (.object (some (.incoming pairRef)))]

theorem pairTypes_built : pairTypes.Built 0 ∧ pairTypes.Built 1 ∧ pairTypes.Built 2 := by
  have href : pairTypes.Built 1 := .intro rfl fun _ h => absurd h (List.not_mem_nil)
  have hany : pairTypes.Built 2 := .intro rfl fun _ h => absurd h (List.not_mem_nil)
  refine ⟨.intro rfl fun tc h => ?_, href, hany⟩
  rcases List.mem_cons.mp h with rfl | h
  · exact href
  · exact List.mem_singleton.mp h ▸ hany

/-- The two references are mapped to different ones. -/
theorem proxifyAny_pair :
    ∃ reg' need, ∀ stack ≥ need, ∃ v' changed,
      Remapped true [some pairMapped, some pairMappedNext] pairValue v' changed ∧
      (pairEvaluator.proxify true stack 0 pairValue).run pairRegistry =
        (.ok (changed, v'), reg') ∧
      (({ pairEvaluator with stack := stack } : GenericEvaluator Unit).assignedAny
        true 0 pairValue).run pairRegistry =
          (.ok (if changed then some v' else none), reg') ∧
      (({ pairEvaluator with stack := stack } : GenericEvaluator Unit).proxifyAny
        true 0 pairValue).run pairRegistry = (.ok v', reg') := by
  have hvalue : pairValue.HasType pairEvaluator.types 0 := by
    refine .struct rfl (.cons (.object rfl) (.cons (.any rfl ?_ (.object rfl)) .nil))
    exact pairTypes_built.2.1
  let ask := Registry.mappedForNative Orb.plain ⟨0, 0⟩ pairRef true
  have hfirst : (ask.run pairRegistry).1 = .ok (some pairMapped) := by decide
  have hsecond : (ask.run (ask.run pairRegistry).2).1 = .ok (some pairMappedNext) := by decide
  obtain ⟨need, hneed⟩ := proxifyAny_remapped (fun _ _ => rfl) pairTypes_built.1 hvalue true
  exact ⟨(ask.run (ask.run pairRegistry).2).2, need, fun stack hle =>
    hneed stack hle _ pairRegistry _
      (.cons (Prod.ext hfirst rfl) (.cons (Prod.ext hsecond rfl) (.nil _)))⟩

end GenericEvaluator

end Lorica
