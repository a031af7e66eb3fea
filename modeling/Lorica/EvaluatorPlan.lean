import Lorica.GenericEvaluator
import Lorica.Lib.Sweep

/-!
The plan of an evaluation: which references `proxify` looks up, in which
order, which it passes by, and where it ends early. The plan is computed from
the type codes and the values alone, and the evaluator follows it.
-/

namespace Lorica

open Machine

/-- A reference put there by `mapped_for_native` for this `out_facing`. -/
def Reference.mappedFor (outFacing : Bool) : Reference → Bool
  | .incoming _ => false
  | .mapped facing _ => facing == outFacing

def Crossing (outFacing : Bool) (refs : List Reference) : Prop :=
  ∀ r ∈ refs, r.mappedFor outFacing = true

/-- References as they came off the wire. -/
def Raw (refs : List Reference) : Prop :=
  ∀ r ∈ refs, ∃ ref, r = .incoming ref

theorem crossing_append {f : Bool} {refs refs' : List Reference} :
    Crossing f (refs ++ refs') ↔ Crossing f refs ∧ Crossing f refs' :=
  List.forall_mem_append

theorem raw_append {refs refs' : List Reference} :
    Raw (refs ++ refs') ↔ Raw refs ∧ Raw refs' :=
  List.forall_mem_append

/-- Every question was answered with yes and nothing was passed by. -/
def AllMapped (answers : List Bool) : Prop := ∀ b ∈ answers, b = true

/-- References that a plan with these answers has left: one for each answer,
all of them mapped exactly if every answer was yes, and none of them mapped
for the other facing. -/
structure Rewritten (outFacing : Bool) (answers : List Bool) (refs : List Reference) :
    Prop where
  crossing : Crossing outFacing refs ↔ AllMapped answers
  length : refs.length = answers.length
  facing : ∀ r ∈ refs, r.mappedFor (!outFacing) = false

theorem rewritten_append {f : Bool} {answers answers' : List Bool}
    {refs refs' : List Reference} (h : Rewritten f answers refs)
    (h' : Rewritten f answers' refs') :
    Rewritten f (answers ++ answers') (refs ++ refs') where
  crossing := by
    have hall : AllMapped (answers ++ answers') ↔ AllMapped answers ∧ AllMapped answers' :=
      List.forall_mem_append
    rw [crossing_append, hall, h.crossing, h'.crossing]
  length := by rw [List.length_append, List.length_append, h.length, h'.length]
  facing r hr := (List.mem_append.mp hr).elim (h.facing r) (h'.facing r)

mutual

theorem Value.refs_map {ρ τ : Type} (f : ρ → τ) (v : Value ρ) :
    (v.map f).refs = v.refs.map f := by
  cases v with
  | plain octets => rfl
  | object ref => cases ref <;> rfl
  | composite components =>
      simp only [Value.map, Value.refs]
      exact Value.refsList_mapList f components
  | union discriminator active =>
      cases active with
      | none => rfl
      | some active =>
          obtain ⟨i, v⟩ := active
          simp only [Value.map, Value.refs]
          exact Value.refs_map f v
  | any tc v =>
      simp only [Value.map, Value.refs]
      exact Value.refs_map f v

theorem Value.refsList_mapList {ρ τ : Type} (f : ρ → τ) (vs : List (Value ρ)) :
    Value.refs.refsList (Value.map.mapList f vs) = (Value.refs.refsList vs).map f := by
  cases vs with
  | nil => rfl
  | cons v vs =>
      simp only [Value.map.mapList, Value.refs.refsList, List.map_append]
      rw [Value.refs_map f v, Value.refsList_mapList f vs]

end

/-- A value off the wire. -/
theorem raw_incoming (v : Value ObjRef) : Raw (v.map Reference.incoming).refs := by
  intro r hr
  rw [Value.refs_map] at hr
  obtain ⟨ref, -, rfl⟩ := List.mem_map.mp hr
  exact ⟨ref, rfl⟩

namespace GenericEvaluator

abbrev Plan := List (Step ObjRef Exn)

def passBy (refs : List Reference) : Plan :=
  (refs.map Reference.object).map Step.overlook

theorem rewritten_nil (f : Bool) : Rewritten f [] [] where
  crossing := by simp [Crossing, AllMapped]
  length := rfl
  facing r hr := absurd hr (List.not_mem_nil)

/-- References passed by are still those off the wire. -/
theorem rewritten_passBy (f : Bool) {refs : List Reference} (h : Raw refs) :
    Rewritten f ((refs.map Reference.object).map fun _ => false) refs where
  crossing := by
    cases refs with
    | nil => simp [Crossing, AllMapped]
    | cons r refs =>
        obtain ⟨ref, rfl⟩ := h r (List.mem_cons_self ..)
        simp [Crossing, AllMapped, Reference.mappedFor]
  length := by simp
  facing r hr := by
    obtain ⟨ref, rfl⟩ := h r hr
    rfl

section Plans

variable {ι : Type} (ev : GenericEvaluator ι)

section Recursion

variable (has : Nat → Except Fault Bool) (plan : Nat → Value Reference → Plan)

def planIfObjref (tc : Nat) (v : Value Reference) : Plan :=
  match has tc with
  | .error cause => [.crash cause]
  | .ok true => plan tc v
  | .ok false => passBy v.refs

def planMembers : List Nat → List (Value Reference) → Plan
  | [], vs => passBy (Value.refs.refsList vs)
  | _ :: _, [] => [.stop (.user "InvalidValue")]
  | tc :: tcs, v :: vs => planIfObjref has plan tc v ++ planMembers tcs vs

def planElements (tc : Nat) : List (Value Reference) → Plan
  | [] => []
  | v :: vs => plan tc v ++ planElements tc vs

def planStruct (members : List Nat) : Value Reference → Plan
  | .composite vs => planMembers has plan members vs
  | _ => [.stop (.user "TypeMismatch")]

def planSequence (content : Nat) : Value Reference → Plan
  | .composite vs =>
      match has content with
      | .error cause => [.crash cause]
      | .ok false => passBy (Value.refs.refsList vs)
      | .ok true => planElements plan content vs
  | _ => [.stop (.user "TypeMismatch")]

def planArray (content : Nat) (v : Value Reference) : Plan :=
  match has content with
  | .error cause => [.crash cause]
  | .ok false => passBy v.refs
  | .ok true => [.crash .nullDereference]

def planUnion (members : List Nat) : Value Reference → Plan
  | .union _ none => []
  | .union _ (some (i, v)) =>
      match members[i]? with
      | none => [.stop (.user "InvalidValue")]
      | some tc => planIfObjref has plan tc v
  | _ => [.stop (.user "TypeMismatch")]

def planContent : Value Reference → Plan
  | .any tc v =>
      match ev.dynAnyRefuses tc with
      | some e => [.stop e]
      | none => planIfObjref has plan tc v
  | _ => [.stop (.user "TypeMismatch")]

end Recursion

def planReference : Value Reference → Plan
  | .object none => []
  | .object (some ref) => [.visit ref.object]
  | _ => [.stop (.user "TypeMismatch")]

/-- The plan of `proxify`: structs, exceptions, sequences, unions and anys are
entered, references are looked up, and everything else is passed by. -/
def plan : Nat → Nat → Value Reference → Plan
  | 0, _, _ => [.crash .stackExhausted]
  | depth + 1, tc, v =>
      match ev.types.kind tc with
      | .tkObjref => planReference v
      | .tkStruct members => planStruct (ev.types.hasObjref depth) (plan depth) members v
      | .tkExcept _ members =>
          planStruct (ev.types.hasObjref depth) (plan depth) members v
      | .tkArray content => planArray (ev.types.hasObjref depth) content v
      | .tkSequence content =>
          planSequence (ev.types.hasObjref depth) (plan depth) content v
      | .tkUnion members => planUnion (ev.types.hasObjref depth) (plan depth) members v
      | .tkAny => ev.planContent (ev.types.hasObjref depth) (plan depth) v
      | _ => passBy v.refs

def planAny (tc : Nat) (v : Value Reference) : Plan :=
  match ev.dynAnyRefuses tc with
  | some e => [.stop e]
  | none => ev.plan ev.stack tc v

/-- Whether `mapped_for_native` maps a reference. -/
def look (outFacing : Bool) (ref : ObjRef) : RegistryM Bool := do
  let mapped ← Registry.mappedForNative ev.orb ev.inst ref outFacing
  pure mapped.isSome

end Plans

/-! ## `proxify` follows its plan -/

section Follows

variable {ι : Type} {ev : GenericEvaluator ι} {f : Bool}

/-- What a walk over a value left; without a change it is the old one. -/
structure Replaced {α : Type} (f : Bool) (old : α) (refsOf : α → List Reference)
    (answers : List Bool) (new : Bool × α) : Prop where
  rewritten : Rewritten f answers (refsOf new.2)
  unchanged : new.1 = false → new.2 = old

/-- `x` follows the plan and replaces references in `old`. -/
def Replaces {α : Type} (ev : GenericEvaluator ι) (f : Bool) (refsOf : α → List Reference)
    (old : α) (x : RegistryM (Bool × α)) (plan : Plan) : Prop :=
  Action.Follows (ev.look f) id (fun _ => True) x plan
    fun answers new _ => Replaced f old refsOf answers new

theorem replaces_leave {α : Type} {refsOf : α → List Reference} {old : α}
    (h : Raw (refsOf old)) :
    ev.Replaces f refsOf old (pure (false, old)) (passBy (refsOf old)) := by
  apply Action.Follows.overlook
  intro _ _
  exact ⟨rewritten_passBy f h, fun _ => rfl⟩

theorem proxifyReference_replaces {v : Value Reference} (h : Raw v.refs) :
    ev.Replaces f Value.refs v (ev.proxifyReference f v) (planReference v) := by
  cases v with
  | object ref =>
      cases ref with
      | none =>
          apply Action.Follows.pure
          intro _ _
          exact ⟨rewritten_nil f, fun _ => rfl⟩
      | some ref =>
          obtain ⟨ref, rfl⟩ := h ref (List.mem_singleton.mpr rfl)
          intro reg _
          have hlook : (ev.look f ref).run reg =
              (Registry.mappedForNative ev.orb ev.inst ref f >>= fun mapped =>
                pure mapped.isSome).run reg := rfl
          simp only [planReference, Action.sweep, Action.run_bind, id, Reference.object,
            hlook, proxifyReference]
          cases hmap : (Registry.mappedForNative ev.orb ev.inst ref f).run reg with
          | mk outcome reg' =>
              cases outcome with
              | ok mapped =>
                  cases mapped with
                  | none =>
                      exact ⟨_, _, rfl, rfl, rewritten_passBy f h, fun _ => rfl⟩
                  | some mappedRef =>
                      refine ⟨_, _, rfl, rfl, ⟨?_, rfl, ?_⟩, fun h => absurd h (by simp)⟩
                      · simp [Crossing, AllMapped, Value.refs, Reference.mappedFor]
                      · simp [Value.refs, Reference.mappedFor]
              | raised e => exact ⟨_, rfl, rfl⟩
              | fault cause => exact ⟨_, rfl, rfl⟩
  | _ => exact Action.Follows.raise

theorem replaced_cons {answers answers' : List Bool} {v v' : Value Reference}
    {vs vs' : List (Value Reference)} {changed changed' : Bool}
    (hv : Replaced f v Value.refs answers (changed, v'))
    (hvs : Replaced f vs Value.refs.refsList answers' (changed', vs')) :
    Replaced f (v :: vs) Value.refs.refsList (answers ++ answers')
      (changed || changed', v' :: vs') := by
  constructor
  · exact rewritten_append hv.rewritten hvs.rewritten
  · intro h
    rw [Bool.or_eq_false_iff] at h
    obtain rfl : v' = v := hv.unchanged h.1
    obtain rfl : vs' = vs := hvs.unchanged h.2
    rfl

/-- Walking one component and then the others. -/
theorem replaces_cons {v : Value Reference} {vs : List (Value Reference)}
    {x : RegistryM (Bool × Value Reference)} {xs : RegistryM (Bool × List (Value Reference))}
    {p ps : Plan} (hx : ev.Replaces f Value.refs v x p)
    (hxs : ev.Replaces f Value.refs.refsList vs xs ps) :
    ev.Replaces f Value.refs.refsList (v :: vs)
      (do let (changed, v) ← x
          let (changed', vs) ← xs
          pure (changed || changed', v :: vs)) (p ++ ps) := by
  unfold Replaces
  apply Action.Follows.bind hx
  rintro answers ⟨changed, v'⟩
  apply Action.Follows.assuming
  intro hv
  apply Action.Follows.andReturn hxs
  rintro answers' ⟨changed', vs'⟩ _ hvs
  exact replaced_cons hv hvs

/-- What is done with the components is done with the value around them. -/
theorem replaces_wrap {α β : Type} {refsOf : α → List Reference}
    {refsOf' : β → List Reference} {old : α} {x : RegistryM (Bool × α)} {p : Plan}
    (wrap : α → β) (hrefs : ∀ a, refsOf' (wrap a) = refsOf a)
    (hx : ev.Replaces f refsOf old x p) :
    ev.Replaces f refsOf' (wrap old)
      (do let (changed, a) ← x
          pure (changed, wrap a)) p := by
  apply Action.Follows.andReturn hx
  rintro answers ⟨changed, a⟩ _ ⟨hrewritten, hunchanged⟩
  exact ⟨by rw [hrefs]; exact hrewritten, fun h => congrArg wrap (hunchanged h)⟩

section Recursion

variable {has : Nat → Except Fault Bool}
  {proxify : Nat → Value Reference → RegistryM (Bool × Value Reference)}
  {plan : Nat → Value Reference → Plan}
  (hrec : ∀ tc v, Raw v.refs → ev.Replaces f Value.refs v (proxify tc v) (plan tc v))

include hrec

theorem proxifyIfObjref_replaces (tc : Nat) {v : Value Reference} (h : Raw v.refs) :
    ev.Replaces f Value.refs v (proxifyIfObjref has proxify tc v)
      (planIfObjref has plan tc v) := by
  unfold proxifyIfObjref planIfObjref
  cases has tc with
  | error cause => exact Action.Follows.fail
  | ok flag =>
      cases flag with
      | false => exact replaces_leave h
      | true => exact hrec tc v h

theorem proxifyMembers_replaces (tcs : List Nat) {vs : List (Value Reference)}
    (h : Raw (Value.refs.refsList vs)) :
    ev.Replaces f Value.refs.refsList vs (proxifyMembers has proxify tcs vs)
      (planMembers has plan tcs vs) := by
  induction tcs generalizing vs with
  | nil => exact replaces_leave h
  | cons tc tcs ih =>
      cases vs with
      | nil => exact Action.Follows.raise
      | cons v vs =>
          obtain ⟨hv, hvs⟩ := raw_append.mp h
          exact replaces_cons (proxifyIfObjref_replaces hrec tc hv) (ih hvs)

theorem proxifyElements_replaces (tc : Nat) {vs : List (Value Reference)}
    (h : Raw (Value.refs.refsList vs)) :
    ev.Replaces f Value.refs.refsList vs (proxifyElements proxify tc vs)
      (planElements plan tc vs) := by
  induction vs with
  | nil => exact replaces_leave h
  | cons v vs ih =>
      obtain ⟨hv, hvs⟩ := raw_append.mp h
      exact replaces_cons (hrec tc v hv) (ih hvs)

theorem proxifyStruct_replaces (members : List Nat) {v : Value Reference}
    (h : Raw v.refs) :
    ev.Replaces f Value.refs v (proxifyStruct has proxify members v)
      (planStruct has plan members v) := by
  cases v with
  | composite vs =>
      exact replaces_wrap Value.composite (fun _ => rfl)
        (proxifyMembers_replaces hrec members h)
  | _ => exact Action.Follows.raise

theorem proxifySequence_replaces (content : Nat) {v : Value Reference}
    (h : Raw v.refs) :
    ev.Replaces f Value.refs v (proxifySequence has proxify content v)
      (planSequence has plan content v) := by
  cases v with
  | composite vs =>
      unfold proxifySequence planSequence
      cases has content with
      | error cause => exact Action.Follows.fail
      | ok flag =>
          cases flag with
          | false =>
              have hraw : Raw (Value.composite vs).refs := h
              exact replaces_leave hraw
          | true =>
              exact replaces_wrap Value.composite (fun _ => rfl)
                (proxifyElements_replaces hrec content h)
  | _ => exact Action.Follows.raise

theorem proxifyUnion_replaces (members : List Nat) {v : Value Reference}
    (h : Raw v.refs) :
    ev.Replaces f Value.refs v (proxifyUnion has proxify members v)
      (planUnion has plan members v) := by
  cases v with
  | union discriminator active =>
      cases active with
      | none => exact replaces_leave h
      | some active =>
          obtain ⟨i, v⟩ := active
          simp only [proxifyUnion, planUnion]
          cases members[i]? with
          | none => exact Action.Follows.raise
          | some tc =>
              have hv : Raw v.refs := h
              exact replaces_wrap (fun v => Value.union discriminator (some (i, v))) (fun _ => rfl)
                (proxifyIfObjref_replaces hrec tc hv)
  | _ => exact Action.Follows.raise

theorem proxifyContent_replaces {v : Value Reference} (h : Raw v.refs) :
    ev.Replaces f Value.refs v (ev.proxifyContent has proxify v)
      (ev.planContent has plan v) := by
  cases v with
  | any tc v =>
      simp only [proxifyContent, planContent]
      cases ev.dynAnyRefuses tc with
      | some e => exact Action.Follows.raise
      | none =>
          have hv : Raw v.refs := h
          exact replaces_wrap (Value.any tc) (fun _ => rfl)
            (proxifyIfObjref_replaces hrec tc hv)
  | _ => exact Action.Follows.raise

end Recursion

theorem proxifyArray_replaces {has : Nat → Except Fault Bool} (content : Nat)
    {v : Value Reference} (h : Raw v.refs) :
    ev.Replaces f Value.refs v (proxifyArray has content v) (planArray has content v) := by
  unfold proxifyArray planArray
  cases has content with
  | error cause => exact Action.Follows.fail
  | ok flag =>
      cases flag with
      | false => exact replaces_leave h
      | true => exact Action.Follows.fail

theorem proxify_replaces (depth tc : Nat) {v : Value Reference} (h : Raw v.refs) :
    ev.Replaces f Value.refs v (ev.proxify f depth tc v) (ev.plan depth tc v) := by
  induction depth generalizing tc v with
  | zero => exact Action.Follows.fail
  | succ depth ih =>
      have hrec : ∀ tc v, Raw v.refs →
          ev.Replaces f Value.refs v (ev.proxify f depth tc v) (ev.plan depth tc v) :=
        fun tc v h => ih tc h
      unfold proxify GenericEvaluator.plan
      cases ev.types.kind tc with
      | tkObjref => exact proxifyReference_replaces h
      | tkStruct members => exact proxifyStruct_replaces hrec members h
      | tkExcept id members => exact proxifyStruct_replaces hrec members h
      | tkArray content => exact proxifyArray_replaces content h
      | tkSequence content => exact proxifySequence_replaces hrec content h
      | tkUnion members => exact proxifyUnion_replaces hrec members h
      | tkAny => exact proxifyContent_replaces hrec h
      | _ => exact replaces_leave h

/-- `proxify_any` keeps the old any only when nothing in it was replaced, so
what it leaves is what `proxify` made. -/
theorem proxifyAny_follows (tc : Nat) {v : Value Reference} (h : Raw v.refs) :
    Action.Follows (ev.look f) id (fun _ => True) (ev.proxifyAny f tc v) (ev.planAny tc v)
      fun answers v' _ => Rewritten f answers v'.refs := by
  unfold planAny
  cases hrefuses : ev.dynAnyRefuses tc with
  | some e =>
      rw [proxifyAny_refused ev f hrefuses]
      exact Action.Follows.raise
  | none =>
      rw [proxifyAny_accepted ev f hrefuses]
      apply Action.Follows.andReturn (proxify_replaces ev.stack tc h)
      rintro answers ⟨changed, v'⟩ _ ⟨hrewritten, hunchanged⟩
      cases changed with
      | true => exact hrewritten
      | false =>
          obtain rfl : v' = v := hunchanged rfl
          exact hrewritten

end Follows

end GenericEvaluator

end Lorica
