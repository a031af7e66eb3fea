import Lorica.ValueRewrite
import Lorica.Lib.Evolution

/-!
What `proxify` makes of a value of any type, reference by reference. A native
that occurs twice is mapped twice and comes out as two references, so the
result is no function of the value: it has the same shape, and its references
are related one by one to those that were there. What holds of each reference
when it was looked up has to outlast the lookups after it.
-/

namespace Lorica

open Machine

namespace Value

variable {ρ τ υ : Type}

/-- The same value but for its references, which correspond one by one. -/
structure Alike (R : ρ → τ → Prop) (v : Value ρ) (v' : Value τ) : Prop where
  shape : v'.map (fun _ => ()) = v.map fun _ => ()
  refs : List.Forall₂ R v.refs v'.refs

structure AlikeList (R : ρ → τ → Prop) (vs : List (Value ρ)) (vs' : List (Value τ)) :
    Prop where
  shape : map.mapList (fun _ => ()) vs' = map.mapList (fun _ => ()) vs
  refs : List.Forall₂ R (refs.refsList vs) (refs.refsList vs')

variable {R : ρ → τ → Prop}

theorem Alike.imp {R' : ρ → τ → Prop} {v : Value ρ} {v' : Value τ} (h : Alike R v v')
    (hR : ∀ r r', R r r' → R' r r') : Alike R' v v' :=
  ⟨h.shape, h.refs.imp hR⟩

theorem AlikeList.imp {R' : ρ → τ → Prop} {vs : List (Value ρ)} {vs' : List (Value τ)}
    (h : AlikeList R vs vs') (hR : ∀ r r', R r r' → R' r r') : AlikeList R' vs vs' :=
  ⟨h.shape, h.refs.imp hR⟩

theorem Alike.same {R : ρ → ρ → Prop} {v : Value ρ} (h : ∀ r ∈ v.refs, R r r) : Alike R v v :=
  ⟨rfl, List.forall₂_same.mpr h⟩

theorem AlikeList.same {R : ρ → ρ → Prop} {vs : List (Value ρ)}
    (h : ∀ r ∈ refs.refsList vs, R r r) : AlikeList R vs vs :=
  ⟨rfl, List.forall₂_same.mpr h⟩

theorem AlikeList.cons {v : Value ρ} {v' : Value τ} {vs : List (Value ρ)}
    {vs' : List (Value τ)} (h : Alike R v v') (hs : AlikeList R vs vs') :
    AlikeList R (v :: vs) (v' :: vs') where
  shape := by simp only [map.mapList, h.shape, hs.shape]
  refs := List.rel_append h.refs hs.refs

theorem AlikeList.composite {vs : List (Value ρ)} {vs' : List (Value τ)}
    (h : AlikeList R vs vs') : Alike R (.composite vs) (.composite vs') :=
  ⟨congrArg Value.composite h.shape, h.refs⟩

theorem Alike.member {v : Value ρ} {v' : Value τ} (h : Alike R v v') (discriminator : Int)
    (i : Nat) :
    Alike R (.union discriminator (some (i, v))) (.union discriminator (some (i, v'))) :=
  ⟨congrArg (fun w => Value.union discriminator (some (i, w))) h.shape, h.refs⟩

theorem Alike.content {v : Value ρ} {v' : Value τ} (h : Alike R v v') (tc : Nat) :
    Alike R (.any tc v) (.any tc v') :=
  ⟨congrArg (Value.any tc) h.shape, h.refs⟩

theorem AlikeList.nil : AlikeList R [] [] :=
  ⟨rfl, .nil⟩

theorem Alike.of_map_left {f : υ → ρ} {v : Value υ} {v' : Value τ}
    (h : Alike R (v.map f) v') : Alike (fun r r' => R (f r) r') v v' := by
  have hshape := h.shape
  have hrefs := h.refs
  rw [map_map] at hshape
  rw [refs_map, List.forall₂_map_left_iff] at hrefs
  exact ⟨hshape, hrefs⟩

/-- The references that correspond are among those of the two values. -/
theorem Alike.imp_mem {R' : ρ → τ → Prop} {v : Value ρ} {v' : Value τ} (h : Alike R v v')
    (hR : ∀ r ∈ v.refs, ∀ r' ∈ v'.refs, R r r' → R' r r') : Alike R' v v' := by
  refine ⟨h.shape, List.forall₂_iff_zip.mpr ⟨h.refs.length_eq, fun hpair => ?_⟩⟩
  obtain ⟨hr, hr'⟩ := List.of_mem_zip hpair
  exact hR _ hr _ hr' (List.forall₂_zip h.refs hpair)

theorem Alike.exists_left {v : Value ρ} {v' : Value τ} (h : Alike R v v') :
    ∀ r' ∈ v'.refs, ∃ r ∈ v.refs, R r r' := by
  intro r' hr'
  obtain ⟨i, hi, rfl⟩ := List.mem_iff_getElem.mp hr'
  have hlt : i < v.refs.length := h.refs.length_eq ▸ hi
  exact ⟨v.refs[i], List.getElem_mem hlt, h.refs.get hlt hi⟩

/-- Values alike are the same value once the references are the same. -/
theorem Alike.map_eq {f : ρ → υ} {f' : τ → υ} {v : Value ρ} {v' : Value τ}
    (h : Alike (fun r r' => f r = f' r') v v') : v'.map f' = v.map f := by
  have hshape := h.shape
  have hrefs : List.Forall₂ (· = ·) (v.refs.map f) (v'.refs.map f') :=
    List.forall₂_map_left_iff.mpr (List.forall₂_map_right_iff.mpr h.refs)
  rw [List.forall₂_eq_eq_eq] at hrefs
  apply eq_of_shape
  · rw [map_map, map_map]
    exact hshape
  · rw [refs_map, refs_map, hrefs]

end Value

namespace GenericEvaluator

open Action

variable {ι : Type} {ev : GenericEvaluator ι} {f : Bool}
  {le : Registry → Registry → Prop} {I : Registry → Prop}
  {R : Registry → Reference → Reference → Prop}

/-- What a walk needs to know of a reference: how it is related to itself when it
is left alone, and to what `mapped_for_native` hands out for it. -/
structure Handles (ev : GenericEvaluator ι) (f : Bool) (le : Registry → Registry → Prop)
    (I : Registry → Prop) (R : Registry → Reference → Reference → Prop) (r : Reference) :
    Prop where
  left : ∀ reg, I reg → R reg r r
  looked : Evolves le I (Registry.mappedForNative ev.orb ev.inst r.object f)
    fun answer reg => ∀ mappedRef, answer = some mappedRef → R reg r (.mapped f mappedRef)

theorem stable_alike (hR : ∀ r r', Stable le fun reg => R reg r r') (v v' : Value Reference) :
    Stable le fun reg => Value.Alike (R reg) v v' :=
  fun _ _ hle h => h.imp fun r r' => hR r r' _ _ hle

/-- A walk over a value of whatever kind, or over a list of them. -/
def Walks {α : Type} (le : Registry → Registry → Prop) (I : Registry → Prop)
    (alike : Registry → α → α → Prop) (old : α) (x : RegistryM (Bool × α)) : Prop :=
  Evolves le I x fun r reg => alike reg old r.2

variable [Std.Refl le]

theorem walks_leave {α : Type} {alike : Registry → α → α → Prop} {old : α} {changed : Bool}
    (h : ∀ reg, I reg → alike reg old old) :
    Walks le I alike old (pure (changed, old)) :=
  Evolves.pure h

variable [IsTrans Registry le]

/-- What is done with the components is done with the value around them. -/
theorem walks_wrap {α β : Type} {alike : Registry → α → α → Prop}
    {alike' : Registry → β → β → Prop} {old : α} {x : RegistryM (Bool × α)} (wrap : α → β)
    (hwrap : ∀ reg new, alike reg old new → alike' reg (wrap old) (wrap new))
    (hx : Walks le I alike old x) :
    Walks le I alike' (wrap old)
      (do let (changed, a) ← x
          pure (changed, wrap a)) := by
  refine Evolves.bind hx fun r => ?_
  exact Evolves.pure fun reg h => hwrap reg r.2 h

section Recursion

variable {has : Nat → Except Fault Bool}
  {proxify : Nat → Value Reference → RegistryM (Bool × Value Reference)}

omit [IsTrans Registry le] in
theorem proxifyIfObjref_walks {tc : Nat} {v : Value Reference}
    (h : ∀ r ∈ v.refs, Handles ev f le I R r)
    (hrec : Walks le I (fun reg => Value.Alike (R reg)) v (proxify tc v)) :
    Walks le I (fun reg => Value.Alike (R reg)) v (proxifyIfObjref has proxify tc v) := by
  unfold proxifyIfObjref
  cases has tc with
  | error cause => exact Evolves.fail
  | ok b =>
      cases b with
      | true => exact hrec
      | false => exact walks_leave fun reg hreg => .same fun r hr => (h r hr).left reg hreg

/-- The first component and then the rest, which leaves what the first one has
become. -/
theorem walks_cons (hI : Stable le I) (hR : ∀ r r', Stable le fun reg => R reg r r')
    {v : Value Reference} {vs : List (Value Reference)}
    {x : RegistryM (Bool × Value Reference)} {xs : RegistryM (Bool × List (Value Reference))}
    (hx : Walks le I (fun reg => Value.Alike (R reg)) v x)
    (hxs : Walks le I (fun reg => Value.AlikeList (R reg)) vs xs) :
    Walks le I (fun reg => Value.AlikeList (R reg)) (v :: vs)
      (do let (changed, v) ← x
          let (changed', vs) ← xs
          pure (changed || changed', v :: vs)) := by
  refine Evolves.bind (hx.keeping hI) fun r => ?_
  refine Evolves.bind ((hxs.frame (stable_alike hR v r.2)).starting fun reg h => ⟨h.2, h.1⟩)
    fun r' => ?_
  exact Evolves.pure fun reg h => .cons h.2 h.1

theorem proxifyUnion_walks (members : List Nat) {v : Value Reference}
    (h : ∀ r ∈ v.refs, Handles ev f le I R r)
    (hrec : ∀ tc v, (∀ r ∈ v.refs, Handles ev f le I R r) →
      Walks le I (fun reg => Value.Alike (R reg)) v (proxify tc v)) :
    Walks le I (fun reg => Value.Alike (R reg)) v (proxifyUnion has proxify members v) := by
  cases v with
  | union discriminator active =>
      cases active with
      | none => exact walks_leave fun _ _ => .same fun r hr => absurd hr List.not_mem_nil
      | some active =>
          obtain ⟨i, v⟩ := active
          have hv : ∀ r ∈ v.refs, Handles ev f le I R r := h
          unfold proxifyUnion
          dsimp only
          cases members[i]? with
          | none => exact Evolves.raise
          | some tc =>
              exact walks_wrap (fun v => Value.union discriminator (some (i, v)))
                (fun _ _ hv => hv.member discriminator i)
                (proxifyIfObjref_walks hv (hrec tc v hv))
  | _ => exact Evolves.raise

theorem proxifyContent_walks {v : Value Reference}
    (h : ∀ r ∈ v.refs, Handles ev f le I R r)
    (hrec : ∀ tc v, (∀ r ∈ v.refs, Handles ev f le I R r) →
      Walks le I (fun reg => Value.Alike (R reg)) v (proxify tc v)) :
    Walks le I (fun reg => Value.Alike (R reg)) v (ev.proxifyContent has proxify v) := by
  cases v with
  | any tc v =>
      have hv : ∀ r ∈ v.refs, Handles ev f le I R r := h
      unfold proxifyContent
      dsimp only
      cases ev.dynAnyRefuses tc with
      | some e => exact Evolves.raise
      | none =>
          exact walks_wrap (Value.any tc) (fun _ _ hv => hv.content tc)
            (proxifyIfObjref_walks hv (hrec tc v hv))
  | _ => exact Evolves.raise

variable (hI : Stable le I) (hR : ∀ r r', Stable le fun reg => R reg r r')
  (hrec : ∀ tc v, (∀ r ∈ v.refs, Handles ev f le I R r) →
    Walks le I (fun reg => Value.Alike (R reg)) v (proxify tc v))
include hI hR hrec

/-- The induction is on the member types; the values run along. -/
theorem proxifyMembers_walks (tcs : List Nat) {vs : List (Value Reference)}
    (h : ∀ r ∈ Value.refs.refsList vs, Handles ev f le I R r) :
    Walks le I (fun reg => Value.AlikeList (R reg)) vs
      (proxifyMembers has proxify tcs vs) := by
  induction tcs generalizing vs with
  | nil => exact walks_leave fun reg hreg => .same fun r hr => (h r hr).left reg hreg
  | cons tc tcs ih =>
      cases vs with
      | nil => exact Evolves.raise
      | cons v vs =>
          obtain ⟨hv, hvs⟩ := List.forall_mem_append.mp h
          exact walks_cons hI hR (proxifyIfObjref_walks hv (hrec tc v hv)) (ih hvs)

theorem proxifyElements_walks (tc : Nat) {vs : List (Value Reference)}
    (h : ∀ r ∈ Value.refs.refsList vs, Handles ev f le I R r) :
    Walks le I (fun reg => Value.AlikeList (R reg)) vs (proxifyElements proxify tc vs) := by
  induction vs with
  | nil => exact walks_leave fun _ _ => .nil
  | cons v vs ih =>
      obtain ⟨hv, hvs⟩ := List.forall_mem_append.mp h
      exact walks_cons hI hR (hrec tc v hv) (ih hvs)

theorem proxifyStruct_walks (members : List Nat) {v : Value Reference}
    (h : ∀ r ∈ v.refs, Handles ev f le I R r) :
    Walks le I (fun reg => Value.Alike (R reg)) v (proxifyStruct has proxify members v) := by
  cases v with
  | composite vs =>
      exact walks_wrap Value.composite (fun _ _ hvs => Value.AlikeList.composite hvs)
        (proxifyMembers_walks hI hR hrec members h)
  | _ => exact Evolves.raise

theorem proxifySequence_walks (content : Nat) {v : Value Reference}
    (h : ∀ r ∈ v.refs, Handles ev f le I R r) :
    Walks le I (fun reg => Value.Alike (R reg)) v
      (proxifySequence has proxify content v) := by
  cases v with
  | composite vs =>
      unfold proxifySequence
      cases has content with
      | error cause => exact Evolves.fail
      | ok b =>
          cases b with
          | true =>
              exact walks_wrap Value.composite (fun _ _ hvs => Value.AlikeList.composite hvs)
                (proxifyElements_walks hI hR hrec content h)
          | false => exact walks_leave fun reg hreg => .same fun r hr => (h r hr).left reg hreg
  | _ => exact Evolves.raise

end Recursion

theorem proxifyReference_walks (hI : Stable le I) {v : Value Reference}
    (h : ∀ r ∈ v.refs, Handles ev f le I R r) :
    Walks le I (fun reg => Value.Alike (R reg)) v (ev.proxifyReference f v) := by
  cases v with
  | object ref =>
      cases ref with
      | none => exact walks_leave fun _ _ => .same fun r hr => absurd hr List.not_mem_nil
      | some r =>
          have hr := h r (List.mem_singleton.mpr rfl)
          unfold proxifyReference
          refine Evolves.bind (hr.looked.keeping hI) fun answer => ?_
          cases answer with
          | none =>
              refine Evolves.pure fun reg hlooked => ⟨rfl, ?_⟩
              exact .cons (hr.left reg hlooked.2) .nil
          | some mappedRef =>
              refine Evolves.pure fun reg hlooked => ⟨rfl, ?_⟩
              exact .cons (hlooked.1 mappedRef rfl) .nil
  | _ => exact Evolves.raise

/-- The induction is on what is left of the stack. -/
theorem proxify_walks (hI : Stable le I) (hR : ∀ r r', Stable le fun reg => R reg r r')
    (depth tc : Nat) {v : Value Reference} (h : ∀ r ∈ v.refs, Handles ev f le I R r) :
    Walks le I (fun reg => Value.Alike (R reg)) v (ev.proxify f depth tc v) := by
  have hleave : Walks le I (fun reg => Value.Alike (R reg)) v (pure (false, v)) :=
    walks_leave fun reg hreg => .same fun r hr => (h r hr).left reg hreg
  induction depth generalizing tc v with
  | zero => exact Evolves.fail
  | succ depth ih =>
      have hrec : ∀ tc v, (∀ r ∈ v.refs, Handles ev f le I R r) →
          Walks le I (fun reg => Value.Alike (R reg)) v (ev.proxify f depth tc v) :=
        fun tc v hv => ih tc hv
          (walks_leave fun reg hreg => .same fun r hr => (hv r hr).left reg hreg)
      unfold proxify
      cases ev.types.kind tc with
      | tkObjref => exact proxifyReference_walks hI h
      | tkStruct members => exact proxifyStruct_walks hI hR hrec members h
      | tkExcept id members => exact proxifyStruct_walks hI hR hrec members h
      | tkSequence content => exact proxifySequence_walks hI hR hrec content h
      | tkUnion members => exact proxifyUnion_walks members h hrec
      | tkAny => exact proxifyContent_walks h hrec
      | tkArray content =>
          unfold proxifyArray
          dsimp only
          cases ev.types.hasObjref depth content with
          | error cause => exact Evolves.fail
          | ok b =>
              cases b with
              | true => exact Evolves.fail
              | false => exact hleave
      | _ => exact hleave

/-- Whether the any is written back or not, the value is alike: it is written back
when something in it was replaced. -/
theorem proxifyAny_walks (hI : Stable le I) (hR : ∀ r r', Stable le fun reg => R reg r r')
    (tc : Nat) {v : Value Reference} (h : ∀ r ∈ v.refs, Handles ev f le I R r) :
    Evolves le I (ev.proxifyAny f tc v) fun v' reg => Value.Alike (R reg) v v' := by
  cases hrefuses : ev.dynAnyRefuses tc with
  | some e =>
      rw [proxifyAny_refused ev f hrefuses]
      exact Evolves.raise
  | none =>
      rw [proxifyAny_accepted ev f hrefuses]
      refine Evolves.bind ((proxify_walks hI hR ev.stack tc h).keeping hI) fun r => ?_
      obtain ⟨changed, v'⟩ := r
      refine Evolves.pure fun reg hwalk => ?_
      cases changed with
      | true => exact hwalk.1
      | false => exact .same fun r hr => (h r hr).left reg hwalk.2

end GenericEvaluator

end Lorica
