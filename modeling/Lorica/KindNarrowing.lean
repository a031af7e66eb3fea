import Lorica.EvaluatorPlan
import Lorica.TypeSearch

/-!
The interfaces `proxify` narrows dynamic anys to. Arrays share their case with
sequences, and a dynamic array is no dynamic sequence: where an array with
references in it is come to, the null that `_narrow` gives is used, and none of
its elements is visited.
-/

namespace Lorica

open Machine

inductive DynInterface where
  | dynStruct
  | dynSequence
  | dynArray
  | dynUnion
deriving DecidableEq, Repr

namespace TypeNode

/-- The interface of a dynamic any of this kind. -/
def interface : TypeNode → Option DynInterface
  | tkStruct _ => some .dynStruct
  | tkExcept .. => some .dynStruct
  | tkSequence _ => some .dynSequence
  | tkArray _ => some .dynArray
  | tkUnion _ => some .dynUnion
  | _ => none

/-- The interface `proxify` narrows to for this kind. -/
def narrowedTo : TypeNode → Option DynInterface
  | tkStruct _ => some .dynStruct
  | tkExcept .. => some .dynStruct
  | tkArray _ => some .dynSequence
  | tkSequence _ => some .dynSequence
  | tkUnion _ => some .dynUnion
  | _ => none

end TypeNode

/-- `has_objref` says yes, given room enough. -/
def TypeGraph.HasRef (g : TypeGraph) (tc : Nat) : Prop :=
  ∃ depth, g.hasObjref depth tc = .ok true

namespace TypeGraph

variable {g : TypeGraph} {tc : Nat}

theorem HasRef.answers (h : g.HasRef tc) :
    ∃ need, ∀ depth ≥ need, g.hasObjref depth tc = .ok true := by
  obtain ⟨need, hneed⟩ := h
  exact ⟨need, fun depth hle => hasObjref_mono hle hneed⟩

/-- An array or a sequence is narrowed only where `has_objref` finds a reference
in the type of its elements. -/
def narrows (g : TypeGraph) (tc : Nat) : Prop :=
  ∀ content, g.kind tc = .tkArray content ∨ g.kind tc = .tkSequence content →
    g.HasRef content

end TypeGraph

namespace GenericEvaluator

variable {ι : Type} (ev : GenericEvaluator ι)

/-! ## The calls of `proxify` -/

/-- `proxify` of the one type and value calls itself for the other. -/
inductive Calls : Nat × Value Reference → Nat × Value Reference → Prop where
  | struct {tc tc' i : Nat} {members : List Nat} {vs : List (Value Reference)}
      {v : Value Reference} (hkind : ev.types.kind tc = .tkStruct members)
      (htype : members[i]? = some tc') (hvalue : vs[i]? = some v)
      (href : ev.types.HasRef tc') : Calls (tc, .composite vs) (tc', v)
  | except {tc tc' i : Nat} {id : String} {members : List Nat} {vs : List (Value Reference)}
      {v : Value Reference} (hkind : ev.types.kind tc = .tkExcept id members)
      (htype : members[i]? = some tc') (hvalue : vs[i]? = some v)
      (href : ev.types.HasRef tc') : Calls (tc, .composite vs) (tc', v)
  | element {tc content : Nat} {vs : List (Value Reference)} {v : Value Reference}
      (hkind : ev.types.kind tc = .tkSequence content) (href : ev.types.HasRef content)
      (hvalue : v ∈ vs) : Calls (tc, .composite vs) (content, v)
  | member {tc tc' i : Nat} {members : List Nat} {discriminator : Int}
      {v : Value Reference} (hkind : ev.types.kind tc = .tkUnion members)
      (htype : members[i]? = some tc') (href : ev.types.HasRef tc') :
      Calls (tc, .union discriminator (some (i, v))) (tc', v)
  | content {tc tc' : Nat} {v : Value Reference} (hkind : ev.types.kind tc = .tkAny)
      (haccept : ev.dynAnyRefuses tc' = none) (href : ev.types.HasRef tc') :
      Calls (tc, .any tc' v) (tc', v)

def Visits (tc : Nat) (v : Value Reference) (tc' : Nat) (v' : Value Reference) : Prop :=
  Relation.ReflTransGen ev.Calls (tc, v) (tc', v')

/-- Every dynamic any is narrowed to the interface it has, nothing is asked of a
null, and the elements of arrays are visited. -/
structure NarrowsRight (tc : Nat) (v : Value Reference) : Prop where
  interfaces : ∀ tc' v', ev.Visits tc v tc' v' → ev.types.narrows tc' →
    (ev.types.kind tc').narrowedTo = (ev.types.kind tc').interface
  notNil : ∀ depth, .crash .nullDereference ∉ ev.plan depth tc v
  runs : Raw v.refs → ∀ f,
    (∀ ref reg, ((ev.look f ref).run reg).1 ≠ .fault .nullDereference) →
    ∀ depth reg, ((ev.proxify f depth tc v).run reg).1 ≠ .fault .nullDereference
  elements : ∀ tc' vs content, ev.Visits tc v tc' (.composite vs) →
    ev.types.kind tc' = .tkArray content → ev.types.HasRef content →
    ∀ v' ∈ vs, ev.Visits tc v content v'

/-- An array with references in it is come to. -/
def MeetsArray (tc : Nat) (v : Value Reference) : Prop :=
  ∃ tc' v' content, ev.Visits tc v tc' v' ∧ ev.types.kind tc' = .tkArray content ∧
    ev.types.HasRef content

section

variable {ev} {tc tc' depth : Nat} {v v' : Value Reference}

theorem MeetsArray.of_call (hcall : ev.Calls (tc, v) (tc', v')) (h : ev.MeetsArray tc' v') :
    ev.MeetsArray tc v := by
  obtain ⟨tc'', v'', content, hvisits, harray⟩ := h
  exact ⟨tc'', v'', content, .head hcall hvisits, harray⟩

/-! ## A null in the plan is that of an array -/

theorem crash_not_mem_passBy {cause : Fault} {refs : List Reference} :
    .crash cause ∉ passBy refs := by
  simp [passBy]

theorem crash_planIfObjref {plan : Nat → Value Reference → Plan}
    (h : .crash .nullDereference ∈ planIfObjref (ev.types.hasObjref depth) plan tc v) :
    ev.types.HasRef tc ∧ .crash .nullDereference ∈ plan tc v := by
  unfold planIfObjref at h
  split at h
  · next cause heq =>
      obtain rfl := TypeGraph.hasObjref_error heq
      simp at h
  · next heq => exact ⟨⟨depth, heq⟩, h⟩
  · exact absurd h crash_not_mem_passBy

theorem crash_planMembers {plan : Nat → Value Reference → Plan} {tcs : List Nat}
    {vs : List (Value Reference)}
    (h : .crash .nullDereference ∈ planMembers (ev.types.hasObjref depth) plan tcs vs) :
    ∃ (i tc : Nat) (v : Value Reference), tcs[i]? = some tc ∧ vs[i]? = some v ∧
      ev.types.HasRef tc ∧ .crash .nullDereference ∈ plan tc v := by
  induction tcs generalizing vs with
  | nil => exact absurd h crash_not_mem_passBy
  | cons tc tcs ih =>
      cases vs with
      | nil => simp [planMembers] at h
      | cons v vs =>
          rcases List.mem_append.mp h with h | h
          · obtain ⟨href, hcrash⟩ := crash_planIfObjref h
            exact ⟨0, tc, v, rfl, rfl, href, hcrash⟩
          · obtain ⟨i, tc', v', htype, hvalue, hcrash⟩ := ih h
            exact ⟨i + 1, tc', v', htype, hvalue, hcrash⟩

theorem crash_planElements {plan : Nat → Value Reference → Plan} {content : Nat}
    {vs : List (Value Reference)}
    (h : .crash .nullDereference ∈ planElements plan content vs) :
    ∃ v ∈ vs, .crash .nullDereference ∈ plan content v := by
  induction vs with
  | nil => exact absurd h (List.not_mem_nil)
  | cons v vs ih =>
      rcases List.mem_append.mp h with h | h
      · exact ⟨v, List.mem_cons_self .., h⟩
      · obtain ⟨v', hv', hcrash⟩ := ih h
        exact ⟨v', List.mem_cons_of_mem _ hv', hcrash⟩

theorem meetsArray_of_crash (h : .crash .nullDereference ∈ ev.plan depth tc v) :
    ev.MeetsArray tc v := by
  induction depth generalizing tc v with
  | zero => simp [plan] at h
  | succ depth ih =>
      unfold plan at h
      split at h
      · unfold planReference at h
        split at h <;> simp at h
      · next members hkind =>
          unfold planStruct at h
          split at h
          · next vs =>
              obtain ⟨i, tc', v', htype, hvalue, href, hcrash⟩ := crash_planMembers h
              exact (ih hcrash).of_call (.struct hkind htype hvalue href)
          · simp at h
      · next id members hkind =>
          unfold planStruct at h
          split at h
          · next vs =>
              obtain ⟨i, tc', v', htype, hvalue, href, hcrash⟩ := crash_planMembers h
              exact (ih hcrash).of_call (.except hkind htype hvalue href)
          · simp at h
      · next content hkind =>
          unfold planArray at h
          split at h
          · next cause heq =>
              obtain rfl := TypeGraph.hasObjref_error heq
              simp at h
          · exact absurd h crash_not_mem_passBy
          · next heq => exact ⟨tc, v, content, .refl, hkind, depth, heq⟩
      · next content hkind =>
          unfold planSequence at h
          split at h
          · next vs =>
              split at h
              · next cause heq =>
                  obtain rfl := TypeGraph.hasObjref_error heq
                  simp at h
              · exact absurd h crash_not_mem_passBy
              · next heq =>
                  obtain ⟨v', hv', hcrash⟩ := crash_planElements h
                  exact (ih hcrash).of_call (.element hkind ⟨depth, heq⟩ hv')
          · simp at h
      · next members hkind =>
          unfold planUnion at h
          split at h
          · exact absurd h (List.not_mem_nil)
          · split at h
            · simp at h
            · next tc' htype =>
                obtain ⟨href, hcrash⟩ := crash_planIfObjref h
                exact (ih hcrash).of_call (.member hkind htype href)
          · simp at h
      · next hkind =>
          unfold planContent at h
          split at h
          · split at h
            · simp at h
            · next haccept =>
                obtain ⟨href, hcrash⟩ := crash_planIfObjref h
                exact (ih hcrash).of_call (.content hkind haccept href)
          · simp at h
      · exact absurd h crash_not_mem_passBy

/-! ## An array that is come to puts a null in the plan -/

theorem mem_planIfObjref {plan : Nat → Value Reference → Plan} {step : Step ObjRef Exn}
    (htrue : ev.types.hasObjref depth tc = .ok true) (h : step ∈ plan tc v) :
    step ∈ planIfObjref (ev.types.hasObjref depth) plan tc v := by
  unfold planIfObjref
  rwa [htrue]

theorem mem_planMembers {has : Nat → Except Fault Bool}
    {plan : Nat → Value Reference → Plan} {step : Step ObjRef Exn} {tcs : List Nat}
    {vs : List (Value Reference)} {i : Nat} (htype : tcs[i]? = some tc)
    (hvalue : vs[i]? = some v) (h : step ∈ planIfObjref has plan tc v) :
    step ∈ planMembers has plan tcs vs := by
  induction tcs generalizing vs i with
  | nil => simp at htype
  | cons first tcs ih =>
      cases vs with
      | nil => simp at hvalue
      | cons v' vs =>
          rw [planMembers, List.mem_append]
          cases i with
          | zero =>
              obtain rfl : first = tc := by simpa using htype
              obtain rfl : v' = v := by simpa using hvalue
              exact .inl h
          | succ i => exact .inr (ih (by simpa using htype) (by simpa using hvalue))

theorem mem_planElements {plan : Nat → Value Reference → Plan} {step : Step ObjRef Exn}
    {content : Nat} {vs : List (Value Reference)} (hvalue : v ∈ vs)
    (h : step ∈ plan content v) : step ∈ planElements plan content vs := by
  induction vs with
  | nil => exact absurd hvalue (List.not_mem_nil)
  | cons v' vs ih =>
      rw [planElements, List.mem_append]
      rcases List.mem_cons.mp hvalue with rfl | hvalue
      · exact .inl h
      · exact .inr (ih hvalue)

/-- A step of the inner call is one of the outer call, which needs the room for
`has_objref` and one level more. -/
theorem mem_plan_of_call {step : Step ObjRef Exn} (hcall : ev.Calls (tc, v) (tc', v'))
    (h : ∃ need, ∀ depth ≥ need, step ∈ ev.plan depth tc' v') :
    ∃ need, ∀ depth ≥ need, step ∈ ev.plan depth tc v := by
  have href : ev.types.HasRef tc' := by cases hcall <;> assumption
  obtain ⟨need, hneed⟩ := h
  obtain ⟨need', hanswers⟩ := href.answers
  refine ⟨max need need' + 1, fun depth hle => ?_⟩
  obtain ⟨depth, rfl⟩ : ∃ room, depth = room + 1 := ⟨depth - 1, by omega⟩
  have hstep := hneed depth (by omega)
  have htrue := hanswers depth (by omega)
  have hif := mem_planIfObjref htrue hstep
  cases hcall with
  | struct hkind htype hvalue =>
      simp only [plan, hkind, planStruct]
      exact mem_planMembers htype hvalue hif
  | except hkind htype hvalue =>
      simp only [plan, hkind, planStruct]
      exact mem_planMembers htype hvalue hif
  | element hkind _ hvalue =>
      simp only [plan, hkind, planSequence, htrue]
      exact mem_planElements hvalue hstep
  | member hkind htype =>
      simp only [plan, hkind, planUnion, htype]
      exact hif
  | content hkind haccept =>
      simp only [plan, hkind, planContent, haccept]
      exact hif

theorem crash_of_meetsArray (h : ev.MeetsArray tc v) :
    ∃ depth, .crash .nullDereference ∈ ev.plan depth tc v := by
  obtain ⟨tc', v', content, hvisits, hkind, href⟩ := h
  have hlast : ∃ need, ∀ depth ≥ need, .crash .nullDereference ∈ ev.plan depth tc' v' := by
    obtain ⟨need, hanswers⟩ := href.answers
    refine ⟨need + 1, fun depth hle => ?_⟩
    obtain ⟨depth, rfl⟩ : ∃ room, depth = room + 1 := ⟨depth - 1, by omega⟩
    simp only [plan, hkind, planArray, hanswers depth (by omega), List.mem_singleton]
  have hfirst : ∃ need, ∀ depth ≥ need, .crash .nullDereference ∈ ev.plan depth tc v := by
    unfold Visits at hvisits
    generalize hstart : (tc, v) = start at hvisits
    generalize hend : (tc', v') = last at hvisits
    induction hvisits using Relation.ReflTransGen.head_induction_on generalizing tc v with
    | refl =>
        obtain ⟨rfl, rfl⟩ := Prod.mk.inj (hstart.trans hend.symm)
        exact hlast
    | @head a b hcall _ ih =>
        subst hstart
        obtain ⟨next, value⟩ := b
        exact mem_plan_of_call hcall (ih rfl)
  obtain ⟨need, hneed⟩ := hfirst
  exact ⟨need, hneed need le_rfl⟩

/-- `proxify` narrows rightly exactly when it comes to no array with references
in it. -/
theorem narrowsRight_iff_no_array : ev.NarrowsRight tc v ↔ ¬ ev.MeetsArray tc v := by
  constructor
  · intro h harray
    obtain ⟨depth, hcrash⟩ := crash_of_meetsArray harray
    exact h.notNil depth hcrash
  · intro hno
    have hplan : ∀ depth, .crash .nullDereference ∉ ev.plan depth tc v :=
      fun depth hcrash => hno (meetsArray_of_crash hcrash)
    constructor
    · intro tc' v' hvisits hnarrows
      cases hkind : ev.types.kind tc' with
      | tkArray content =>
          exact absurd ⟨tc', v', content, hvisits, hkind, hnarrows content (.inl hkind)⟩ hno
      | _ => rfl
    · exact hplan
    · intro hraw f hlook depth reg
      exact (proxify_replaces depth tc hraw).no_fault (hplan depth) hlook trivial
    · intro tc' vs content hvisits hkind href
      exact absurd ⟨tc', .composite vs, content, hvisits, hkind, href⟩ hno

end

/-! An array of object references. -/

def arrayTypes : TypeGraph where
  node tc :=
    match tc with
    | 0 => .tkArray 1
    | _ => .tkObjref
  aliases _ := 0
  alias_lt tc content h := by
    split at h <;> simp at h

def arrayEvaluator : GenericEvaluator Unit where
  typeId := "IDL:I:1.0"
  intDef := ()
  repo := ⟨fun _ => "IDL:I:1.0", fun _ => [], fun _ => [], fun _ => []⟩
  prims := ⟨1, 1, 1⟩
  cmp := .sign
  types := arrayTypes
  dynAnyRefuses _ := none
  stack := 8
  orb := .plain
  inst := ⟨0, 0⟩
  mapper := 0

def arrayValue : Value Reference :=
  .composite [.object (some (.incoming ⟨"IDL:I:1.0", none, "IOR:native", false, false⟩))]

/-- The null is used whatever the mappers know. -/
theorem not_narrowsRight_array :
    arrayEvaluator.types.HasRef 0 ∧
    (∀ f reg, (arrayEvaluator.proxify f 8 0 arrayValue).run reg =
      (.fault .nullDereference, reg)) ∧
    ¬ arrayEvaluator.NarrowsRight 0 arrayValue := by
  refine ⟨⟨2, rfl⟩, fun f reg => rfl, fun h => h.notNil 8 ?_⟩
  exact List.mem_singleton.mpr rfl

end GenericEvaluator

end Lorica
