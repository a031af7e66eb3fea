import Lorica.Lib.LinkedChain
import Lorica.ReferenceMapper

/-!
The assembling half of `MapperRegistry.cpp`: mappers come in through three
doors, `init_mappers` puts them into one chain, and the recursions along that
chain look for the first mapper with an evaluator for a type. Mappers live in
a store of their own, linked by `next_` and counted by `ref_count_`.
-/

namespace Lorica

open Machine

/-- The two ways a mapper class answers `evaluator_for`. -/
inductive EvaluatorFor where
  /-- `find_evaluator` of the chain of evaluators -/
  | evaluators (find : String → Bool)
  /-- `NullProxyMapper` -/
  | typeIdList (ids : List String)

/-- `evaluator_for (typeId) != 0` -/
def EvaluatorFor.answers : EvaluatorFor → String → Bool
  | .evaluators find, typeId => find typeId
  | .typeIdList ids, typeId => ids.isEmpty || ids.contains typeId

structure MapperNode where
  evaluatorFor : EvaluatorFor
  refCount : Int
  next : Option Nat

/-- `Lorica_MapperRegistry` before requests come in. A pointer is a number, and
a mapper that was deleted leaves a hole. -/
structure MapperRegistry where
  cells : Nat → Option MapperNode
  fresh : Nat
  mappers : Option Nat
  nullMapper : Option Nat
  genericMapper : Option Nat
  mappersReady : Bool

/-- The calls that add a mapper or a type to one. -/
inductive SetupCall where
  | addProxyMapper (mapper : Nat)
  | setGenericMapper (mapper : Nat)
  | addNullMapperType (typeId : String)
  | createDefaultNullMapper
deriving DecidableEq

namespace MapperRegistry

/-- A new registry in a program with these mappers. -/
def new (cells : Nat → Option MapperNode) (fresh : Nat) : MapperRegistry where
  cells := cells
  fresh := fresh
  mappers := none
  nullMapper := none
  genericMapper := none
  mappersReady := false

def setNext (n : MapperNode) (p : Option Nat) : MapperNode := { n with next := p }

/-- `decr_refcount`; the destructor goes on to the next mapper. -/
def decrRefcount (cells : Nat → Option MapperNode) :
    Nat → Nat → Except Fault (Nat → Option MapperNode)
  | 0, _ => .error .stackExhausted
  | turns + 1, a =>
      match cells a with
      | none => .error .danglingPointer
      | some n =>
          if n.refCount - 1 > 0 then
            .ok (Function.update cells a (some { n with refCount := n.refCount - 1 }))
          else if n.refCount - 1 ≠ 0 then .error .assertionFailed
          else
            match n.next with
            | none => .ok (Function.update cells a none)
            | some b => decrRefcount (Function.update cells a none) turns b

def newNullMapper (r : MapperRegistry) : MapperRegistry :=
  { r with
    cells := Function.update r.cells r.fresh (some ⟨.typeIdList [], 1, none⟩)
    fresh := r.fresh + 1
    nullMapper := some r.fresh }

/-- `NullProxyMapper::add_type_id` -/
def addTypeId (r : MapperRegistry) (a : Nat) (typeId : String) : Except Fault MapperRegistry :=
  match r.cells a with
  | some ⟨.typeIdList ids, refCount, next⟩ =>
      let n : MapperNode := ⟨.typeIdList (ids ++ [typeId]), refCount, next⟩
      .ok { r with cells := Function.update r.cells a (some n) }
  | _ => .error .danglingPointer

/-- The only one of the four that does not look at `mappers_ready_`. -/
def addNullMapperType (r : MapperRegistry) (typeId : String) : Except Fault MapperRegistry :=
  match r.nullMapper with
  | none => r.newNullMapper.addTypeId r.fresh typeId
  | some a => r.addTypeId a typeId

def createDefaultNullMapper (r : MapperRegistry) : MapperRegistry :=
  if r.mappersReady then r
  else
    match r.nullMapper with
    | none => r.newNullMapper
    | some _ => r

def setGenericMapper (r : MapperRegistry) (mapper : Nat) : Except Fault MapperRegistry :=
  if r.mappersReady then .ok r
  else
    match r.genericMapper with
    | none => .ok { r with genericMapper := some mapper }
    | some old =>
        (decrRefcount r.cells (r.fresh + 1) old).map fun cells =>
          { r with cells := cells, genericMapper := some mapper }

/-- Behind a first mapper `take_mapper` recurses to the end of the chain. -/
def addProxyMapper (r : MapperRegistry) (mapper : Nat) : Except Fault MapperRegistry :=
  if r.mappersReady then .ok r
  else
    match r.mappers with
    | none => .ok { r with mappers := some mapper }
    | some first =>
        (Chain.append MapperNode.next setNext r.cells r.fresh first mapper).map fun cells =>
          { r with cells := cells }

def takeGeneric (r : MapperRegistry) : Except Fault MapperRegistry :=
  match r.genericMapper with
  | none => .ok r
  | some a => (r.addProxyMapper a).map fun r => { r with genericMapper := none }

def takeNull (r : MapperRegistry) : Except Fault MapperRegistry :=
  match r.nullMapper with
  | none => .ok r
  | some a => (r.addProxyMapper a).map fun r => { r with nullMapper := none }

/-- The chain of `init_mappers`. What `proxy_mapper_init` does is left to TAO. -/
def initMappers (r : MapperRegistry) : Except Fault MapperRegistry :=
  if r.mappersReady then .ok r
  else do
    let r ← r.takeGeneric
    let r ← r.takeNull
    return { r with mappersReady := true }

def call (r : MapperRegistry) : SetupCall → Except Fault MapperRegistry
  | .addProxyMapper mapper => r.addProxyMapper mapper
  | .setGenericMapper mapper => r.setGenericMapper mapper
  | .addNullMapperType typeId => r.addNullMapperType typeId
  | .createDefaultNullMapper => .ok r.createDefaultNullMapper

def setup (r : MapperRegistry) (calls : List SetupCall) : Except Fault MapperRegistry := do
  let r ← calls.foldlM call r
  r.initMappers

end MapperRegistry

/-! ## What the calls ask for -/

/-- The mappers added in call order, the last generic mapper set, and the type
ids of the null mapper if there is to be one. -/
structure Setup where
  added : List Nat
  generic : Option Nat
  null : Option (List String)
deriving DecidableEq

namespace Setup

def empty : Setup := ⟨[], none, none⟩

def call (st : Setup) : SetupCall → Setup
  | .addProxyMapper mapper => { st with added := st.added ++ [mapper] }
  | .setGenericMapper mapper => { st with generic := some mapper }
  | .addNullMapperType typeId => { st with null := some (st.null.getD [] ++ [typeId]) }
  | .createDefaultNullMapper => { st with null := some (st.null.getD []) }

def calls (st : Setup) (calls : List SetupCall) : Setup := calls.foldl call st

end Setup

namespace SetupCall

/-- The mapper a call hands over. -/
def mapper? : SetupCall → Option Nat
  | .addProxyMapper mapper => some mapper
  | .setGenericMapper mapper => some mapper
  | _ => none

def added? : SetupCall → Option Nat
  | .addProxyMapper mapper => some mapper
  | _ => none

end SetupCall

theorem Setup.calls_added (st : Setup) (cs : List SetupCall) :
    (st.calls cs).added = st.added ++ cs.filterMap SetupCall.added? := by
  induction cs generalizing st with
  | nil => exact (List.append_nil _).symm
  | cons c cs ih =>
      have hstep : (st.call c).added = st.added ++ c.added?.toList := by
        cases c with
        | addProxyMapper mapper => rfl
        | setGenericMapper mapper => exact (List.append_nil _).symm
        | addNullMapperType typeId => exact (List.append_nil _).symm
        | createDefaultNullMapper => exact (List.append_nil _).symm
      have hcons : st.calls (c :: cs) = (st.call c).calls cs := rfl
      have hrest := ih (st.call c)
      rw [hstep] at hrest
      cases hc : c.added? with
      | none =>
          rw [hc] at hrest
          rw [hcons, List.filterMap_cons_none hc]
          simpa using hrest
      | some mapper =>
          rw [hc] at hrest
          rw [hcons, List.filterMap_cons_some hc]
          simpa using hrest

/-- What the callers provide: every mapper on its own and with one reference
for each time it is handed over, and no mapper twice in the chain. -/
structure Offered (cells : Nat → Option MapperNode) (cs : List SetupCall) : Prop where
  distinct : ((Setup.empty.calls cs).added ++ (Setup.empty.calls cs).generic.toList).Nodup
  owned : ∀ a ∈ cs.filterMap SetupCall.mapper?, ∃ n, cells a = some n ∧ n.next = none ∧
    ((cs.filterMap SetupCall.mapper?).count a : Int) ≤ n.refCount

namespace MapperRegistry

/-! ## One call -/

section Assembling

/-- The references to a mapper that are in the registry or still to come. -/
def owed (future : List SetupCall) (st : Setup) (a : Nat) : Nat :=
  st.added.count a + st.generic.toList.count a +
    (future.filterMap SetupCall.mapper?).count a

/-- The registry between two calls. `given` are the mappers at the start. -/
structure Assembling (given : Nat → Option MapperNode) (future : List SetupCall) (st : Setup)
    (r : MapperRegistry) : Prop where
  ready : r.mappersReady = false
  below : ∀ a n, r.cells a = some n → a < r.fresh
  distinct : (st.added ++ future.filterMap SetupCall.added?).Nodup
  linked : Chain.Linked MapperNode.next r.cells r.mappers st.added
  generic : r.genericMapper = st.generic
  owned : ∀ a, 0 < owed future st a → ∃ n n₀, r.cells a = some n ∧ given a = some n₀ ∧
    n.evaluatorFor = n₀.evaluatorFor ∧ (owed future st a : Int) ≤ n.refCount ∧
    (a ∉ st.added → n.next = none)
  noNull : r.nullMapper = none → st.null = none
  null : ∀ b, r.nullMapper = some b → ∃ ids, st.null = some ids ∧
    r.cells b = some ⟨.typeIdList ids, 1, none⟩ ∧ owed future st b = 0

variable {given : Nat → Option MapperNode} {future : List SetupCall} {st : Setup}
  {r : MapperRegistry}

theorem mem_added_owed {a : Nat} (h : a ∈ st.added) : 0 < owed future st a := by
  have hcount := List.count_pos_iff.mpr h
  unfold owed
  omega

/-- The mapper goes to the end of the chain. -/
theorem addProxyMapper_spec {added : List Nat} {p : Nat} {m : MapperNode}
    (hready : r.mappersReady = false) (hbelow : ∀ a n, r.cells a = some n → a < r.fresh)
    (hlinked : Chain.Linked MapperNode.next r.cells r.mappers added)
    (hnodup : (added ++ [p]).Nodup) (hm : r.cells p = some m) (hnext : m.next = none) :
    ∃ cells first, r.addProxyMapper p = .ok { r with cells := cells, mappers := first } ∧
      Chain.Linked MapperNode.next cells first (added ++ [p]) ∧
      (∀ b ∉ added, cells b = r.cells b) ∧
      (∀ b n, r.cells b = some n → ∃ q, cells b = some (setNext n q)) ∧
      ∀ b n, cells b = some n → b < r.fresh := by
  obtain ⟨hadded, -, hdisjoint⟩ := List.nodup_append'.mp hnodup
  have hp : p ∉ added := fun h => hdisjoint h (List.mem_singleton_self p)
  unfold addProxyMapper
  rw [if_neg (by simp [hready])]
  cases added with
  | nil =>
      have hnone : r.mappers = none := hlinked
      simp only [hnone]
      refine ⟨r.cells, some p, rfl, ⟨rfl, m, hm, hnext⟩, fun b _ => rfl, ?_, hbelow⟩
      exact fun b n hn => ⟨n.next, hn⟩
  | cons a rest =>
      have hfirst : r.mappers = some a := hlinked.1
      have hturns : (a :: rest).length ≤ r.fresh := by
        apply Chain.length_le_of_below hadded
        intro b hb
        obtain ⟨n, hn⟩ := hlinked.live hb
        exact hbelow b n hn
      rw [hfirst] at hlinked
      have hset (n : MapperNode) (q : Option Nat) : (setNext n q).next = q := rfl
      obtain ⟨cells, hrun, hlinked', hframe, hlinks⟩ :=
        Chain.append_linked hset hlinked hadded hturns hp hm hnext
      simp only [hfirst, hrun]
      refine ⟨cells, some a, by simp [Except.map], hlinked', hframe, ?_, ?_⟩
      · intro b n hn
        obtain ⟨q, hsame | hset⟩ := hlinks b n hn
        · exact ⟨n.next, hsame⟩
        · exact ⟨q, hset⟩
      · intro b n hn
        by_cases hb : b ∈ a :: rest
        · obtain ⟨n', hn'⟩ := hlinked.live hb
          exact hbelow b n' hn'
        · rw [hframe b hb] at hn
          exact hbelow b n hn

theorem add_assembling {p : Nat}
    (h : Assembling given (.addProxyMapper p :: future) st r) :
    ∃ r', r.addProxyMapper p = .ok r' ∧
      Assembling given future (st.call (.addProxyMapper p)) r' := by
  have howed (a : Nat) : owed future (st.call (.addProxyMapper p)) a =
      owed (.addProxyMapper p :: future) st a := by
    simp only [owed, Setup.call, SetupCall.mapper?, List.filterMap_cons, List.count_append,
      List.count_cons, List.count_nil]
    omega
  have hdistinct : (st.added ++ [p] ++ future.filterMap SetupCall.added?).Nodup := by
    rw [List.append_assoc]
    exact h.distinct
  have hnodup : (st.added ++ [p]).Nodup := hdistinct.of_append_left
  have hp : p ∉ st.added := by
    have hdisjoint := (List.nodup_append'.mp hnodup).2.2
    exact fun hmem => hdisjoint hmem (List.mem_singleton_self p)
  have hpos : 0 < owed (.addProxyMapper p :: future) st p := by
    rw [← howed]
    exact mem_added_owed (List.mem_append_right _ (List.mem_singleton_self p))
  obtain ⟨m, m₀, hm, -, -, -, hnext⟩ := h.owned p hpos
  obtain ⟨cells, first, hrun, hlinked, hframe, hlinks, hbelow⟩ :=
    addProxyMapper_spec h.ready h.below h.linked hnodup hm (hnext hp)
  refine ⟨_, hrun, h.ready, hbelow, hdistinct, hlinked, h.generic, ?_, h.noNull, ?_⟩
  · intro a ha
    rw [howed] at ha ⊢
    obtain ⟨n, n₀, hn, hn₀, heval, hcount, hnone⟩ := h.owned a ha
    obtain ⟨q, hq⟩ := hlinks a n hn
    refine ⟨setNext n q, n₀, hq, hn₀, heval, hcount, ?_⟩
    intro hmem
    have hout : a ∉ st.added := fun hin => hmem (List.mem_append_left _ hin)
    rw [hframe a hout, hn] at hq
    rw [← Option.some.inj hq]
    exact hnone hout
  · intro b hb
    obtain ⟨ids, hids, hcell, hzero⟩ := h.null b hb
    have hout : b ∉ st.added := fun hmem => (mem_added_owed hmem).ne' hzero
    exact ⟨ids, hids, (hframe b hout).trans hcell, (howed b).trans hzero⟩

/-- The mapper that is replaced loses one reference, and its cell with the
last one. -/
theorem decrRefcount_spec {cells : Nat → Option MapperNode} {g : Nat} {n : MapperNode}
    (turns : Nat) (hn : cells g = some n) (hcount : 1 ≤ n.refCount)
    (hlast : n.refCount = 1 → n.next = none) :
    ∃ cells', decrRefcount cells (turns + 1) g = .ok cells' ∧ (∀ b ≠ g, cells' b = cells b) ∧
      (1 < n.refCount → cells' g = some { n with refCount := n.refCount - 1 }) ∧
      ∀ m, cells' g = some m → m = { n with refCount := n.refCount - 1 } := by
  unfold decrRefcount
  simp only [hn]
  rcases lt_or_eq_of_le hcount with hmore | hone
  · rw [if_pos (by omega)]
    refine ⟨_, rfl, fun b hb => Function.update_of_ne hb .., fun _ => Function.update_self ..,
      fun m hm => ?_⟩
    rw [Function.update_self] at hm
    exact (Option.some.inj hm).symm
  · rw [if_neg (by omega), if_neg (by omega)]
    simp only [hlast hone.symm]
    refine ⟨_, rfl, fun b hb => Function.update_of_ne hb .., fun h => by omega,
      fun m hm => ?_⟩
    rw [Function.update_self] at hm
    exact absurd hm (by simp)

/-- Who replaces the generic mapper lets go of the one before. -/
theorem owed_set (p a : Nat) :
    owed future (st.call (.setGenericMapper p)) a + st.generic.toList.count a =
      owed (.setGenericMapper p :: future) st a := by
  simp only [owed, Setup.call, SetupCall.mapper?, List.filterMap_cons, List.count_cons,
    Option.toList_some, List.count_nil]
  omega

theorem replace_assembling {p g : Nat}
    (h : Assembling given (.setGenericMapper p :: future) st r)
    (hgeneric : st.generic = some g) :
    ∃ r', r.setGenericMapper p = .ok r' ∧
      Assembling given future (st.call (.setGenericMapper p)) r' := by
  have howed (a : Nat) : owed future (st.call (.setGenericMapper p)) a +
      st.generic.toList.count a = owed (.setGenericMapper p :: future) st a := owed_set p a
  unfold setGenericMapper
  rw [if_neg (by simp [h.ready]), h.generic, hgeneric]
  simp only [hgeneric, Option.toList_some, List.count_singleton] at howed
  have howedG : owed future (st.call (.setGenericMapper p)) g + 1 =
      owed (.setGenericMapper p :: future) st g := by
    simpa using howed g
  obtain ⟨n, n₀, hn, hn₀, heval, hcount, hnone⟩ := h.owned g (by omega)
  have hlast : n.refCount = 1 → n.next = none := by
    intro hone
    apply hnone
    intro hmem
    have hkept : 0 < owed future (st.call (.setGenericMapper p)) g := mem_added_owed hmem
    omega
  obtain ⟨cells', hrun, hframe, hmore, honly⟩ :=
    decrRefcount_spec r.fresh hn (by omega) hlast
  simp only [hrun, Except.map]
  -- the replaced mapper stays as long as somebody else holds it
  have hkept (a : Nat) (ha : 0 < owed future (st.call (.setGenericMapper p)) a) :
      ∃ n n₀, cells' a = some n ∧ r.cells a = some n₀ ∧ n.next = n₀.next ∧
        n.evaluatorFor = n₀.evaluatorFor ∧
        (n.refCount = n₀.refCount ∨ a = g ∧ n.refCount = n₀.refCount - 1) := by
    rcases eq_or_ne a g with rfl | hne
    · exact ⟨_, n, hmore (by omega), hn, rfl, rfl, .inr ⟨rfl, rfl⟩⟩
    · obtain ⟨n', -, hn', -⟩ := h.owned a (by rw [← howed a]; omega)
      exact ⟨n', n', (hframe a hne).trans hn', hn', rfl, rfl, .inl rfl⟩
  refine ⟨_, rfl, h.ready, ?_, h.distinct, ?_, rfl, ?_, h.noNull, ?_⟩
  · intro a m hm
    rcases eq_or_ne a g with rfl | hne
    · exact h.below a n hn
    · exact h.below a m ((hframe a hne).symm.trans hm)
  · apply h.linked.congr
    intro a ha m hm
    obtain ⟨n', n₁, hn', hn₁, hnext, -⟩ := hkept a (mem_added_owed ha)
    rw [hm] at hn₁
    cases hn₁
    exact ⟨n', hn', hnext⟩
  · intro a ha
    obtain ⟨n', n₁, hn', hn₁, hnext, heval', hrefs⟩ := hkept a ha
    obtain ⟨n₂, n₀', hn₂, hn₀', heval₂, hcount₂, hnone₂⟩ :=
      h.owned a (by rw [← howed a]; omega)
    rw [hn₁] at hn₂
    cases hn₂
    refine ⟨n', n₀', hn', hn₀', heval'.trans heval₂, ?_, fun hmem => hnext.trans (hnone₂ hmem)⟩
    rw [← howed a] at hcount₂
    rcases hrefs with hsame | ⟨rfl, hless⟩
    · push_cast at hcount₂
      split at hcount₂ <;> omega
    · simp only [beq_self_eq_true, if_true] at hcount₂
      omega
  · intro b hb
    obtain ⟨ids, hids, hcell, hzero⟩ := h.null b hb
    have hbg : b ≠ g := by
      rintro rfl
      omega
    have hb0 := howed b
    exact ⟨ids, hids, (hframe b hbg).trans hcell, by omega⟩

theorem set_assembling {p : Nat}
    (h : Assembling given (.setGenericMapper p :: future) st r) :
    ∃ r', r.setGenericMapper p = .ok r' ∧
      Assembling given future (st.call (.setGenericMapper p)) r' := by
  cases hgeneric : st.generic with
  | some g => exact replace_assembling h hgeneric
  | none =>
      have howed (a : Nat) : owed future (st.call (.setGenericMapper p)) a =
          owed (.setGenericMapper p :: future) st a := by
        rw [← owed_set, hgeneric]
        simp
      unfold setGenericMapper
      rw [if_neg (by simp [h.ready]), h.generic, hgeneric]
      refine ⟨_, rfl, h.ready, h.below, h.distinct, h.linked, rfl, ?_, h.noNull, ?_⟩
      · intro a ha
        rw [howed] at ha ⊢
        exact h.owned a ha
      · intro b hb
        obtain ⟨ids, hids, hcell, hzero⟩ := h.null b hb
        exact ⟨ids, hids, hcell, (howed b).trans hzero⟩

/-- Writing the null mapper, which nobody else knows of. -/
theorem putNull_assembling {c : SetupCall} {ids : List String} {b fresh : Nat}
    (h : Assembling given (c :: future) st r) (hmapper : c.mapper? = none)
    (hadded : c.added? = none) (hzero : owed (c :: future) st b = 0) (hb : b < fresh)
    (hfresh : r.fresh ≤ fresh) :
    Assembling given future { st with null := some ids }
      { r with
        cells := Function.update r.cells b (some ⟨.typeIdList ids, 1, none⟩)
        fresh := fresh
        nullMapper := some b } := by
  have howed (a : Nat) : owed future { st with null := some ids } a =
      owed (c :: future) st a := by
    simp only [owed, List.filterMap_cons_none hmapper]
  have hother {a : Nat} (ha : 0 < owed (c :: future) st a) : a ≠ b := by
    rintro rfl
    omega
  have hdistinct := h.distinct
  rw [List.filterMap_cons_none hadded] at hdistinct
  refine ⟨h.ready, ?_, hdistinct, ?_, h.generic, ?_, fun hnone => by simp at hnone, ?_⟩
  · intro a n hn
    rcases eq_or_ne a b with rfl | hne
    · exact hb
    · exact (h.below a n ((Function.update_of_ne hne ..).symm.trans hn)).trans_le hfresh
  · apply h.linked.congr
    intro a ha n hn
    exact ⟨n, (Function.update_of_ne (hother (mem_added_owed ha)) ..).trans hn, rfl⟩
  · intro a ha
    rw [howed] at ha ⊢
    obtain ⟨n, n₀, hn, hrest⟩ := h.owned a ha
    exact ⟨n, n₀, (Function.update_of_ne (hother ha) ..).trans hn, hrest⟩
  · rintro b' ⟨⟩
    exact ⟨ids, rfl, Function.update_self .., (howed b).trans hzero⟩

theorem owed_fresh (h : Assembling given future st r) : owed future st r.fresh = 0 := by
  by_contra hne
  obtain ⟨n, -, hn, -⟩ := h.owned r.fresh (Nat.pos_of_ne_zero hne)
  exact absurd (h.below r.fresh n hn) (Nat.lt_irrefl _)

theorem addType_assembling {typeId : String}
    (h : Assembling given (.addNullMapperType typeId :: future) st r) :
    ∃ r', r.addNullMapperType typeId = .ok r' ∧
      Assembling given future (st.call (.addNullMapperType typeId)) r' := by
  unfold addNullMapperType
  cases hnull : r.nullMapper with
  | none =>
      simp only [newNullMapper, addTypeId, Function.update_self, Function.update_idem]
      refine ⟨_, rfl, ?_⟩
      simp only [Setup.call, h.noNull hnull]
      exact putNull_assembling h rfl rfl (owed_fresh h) (Nat.lt_succ_self _) (Nat.le_succ _)
  | some b =>
      obtain ⟨ids, hids, hcell, hzero⟩ := h.null b hnull
      simp only [addTypeId, hcell]
      refine ⟨_, rfl, ?_⟩
      simp only [Setup.call, hids]
      rw [hnull]
      exact putNull_assembling h rfl rfl hzero (h.below b _ hcell) (Nat.le_refl _)

theorem create_assembling (h : Assembling given (.createDefaultNullMapper :: future) st r) :
    Assembling given future (st.call .createDefaultNullMapper) r.createDefaultNullMapper := by
  unfold createDefaultNullMapper
  rw [if_neg (by simp [h.ready])]
  cases hnull : r.nullMapper with
  | none =>
      simp only [Setup.call, h.noNull hnull]
      exact putNull_assembling h rfl rfl (owed_fresh h) (Nat.lt_succ_self _) (Nat.le_succ _)
  | some b =>
      obtain ⟨ids, hids, -, -⟩ := h.null b hnull
      have hsame : st.call .createDefaultNullMapper = st := by
        simp only [Setup.call, hids]
        rw [Option.getD_some, ← hids]
      simp only [hsame]
      exact ⟨h.ready, h.below, h.distinct, h.linked, h.generic, h.owned, h.noNull, h.null⟩

theorem call_assembling {c : SetupCall} (h : Assembling given (c :: future) st r) :
    ∃ r', r.call c = .ok r' ∧ Assembling given future (st.call c) r' := by
  cases c with
  | addProxyMapper mapper => exact add_assembling h
  | setGenericMapper mapper => exact set_assembling h
  | addNullMapperType typeId => exact addType_assembling h
  | createDefaultNullMapper => exact ⟨_, rfl, create_assembling h⟩

theorem calls_assembling {cs : List SetupCall} (h : Assembling given cs st r) :
    ∃ r', cs.foldlM call r = .ok r' ∧ Assembling given [] (st.calls cs) r' := by
  induction cs generalizing st r with
  | nil => exact ⟨r, rfl, h⟩
  | cons c cs ih =>
      obtain ⟨r₁, hcall, h₁⟩ := call_assembling h
      obtain ⟨r₂, hrest, h₂⟩ := ih h₁
      refine ⟨r₂, ?_, h₂⟩
      rw [List.foldlM_cons, hcall]
      exact hrest

theorem new_assembling {cells : Nat → Option MapperNode} {fresh : Nat} {cs : List SetupCall}
    (hbelow : ∀ a n, cells a = some n → a < fresh) (hoffered : Offered cells cs) :
    Assembling cells cs Setup.empty (new cells fresh) := by
  have hadded := Setup.calls_added Setup.empty cs
  have hdistinct := hoffered.distinct
  rw [hadded] at hdistinct
  refine ⟨rfl, hbelow, hdistinct.of_append_left, rfl, rfl, ?_, fun _ => rfl,
    fun b hb => absurd hb (by simp [new])⟩
  intro a ha
  have howed : owed cs Setup.empty a = (cs.filterMap SetupCall.mapper?).count a := by
    simp [owed, Setup.empty]
  rw [howed] at ha ⊢
  obtain ⟨n, hn, hnext, hcount⟩ := hoffered.owned a (List.count_pos_iff.mp ha)
  exact ⟨n, n, hn, hn, rfl, hcount, fun _ => hnext⟩

end Assembling

/-! ## The finished chain -/

section Finished

variable {given : Nat → Option MapperNode} {st : Setup} {r : MapperRegistry}

/-- What the mapper at an address answers with. -/
def evaluatorAt (cells : Nat → Option MapperNode) (a : Nat) : Option EvaluatorFor :=
  (cells a).map MapperNode.evaluatorFor

theorem takeGeneric_spec (h : Assembling given [] st r)
    (hdistinct : (st.added ++ st.generic.toList).Nodup) :
    ∃ cells first, r.takeGeneric =
        .ok { r with cells := cells, mappers := first, genericMapper := none } ∧
      Chain.Linked MapperNode.next cells first (st.added ++ st.generic.toList) ∧
      (∀ b ∉ st.added, cells b = r.cells b) ∧
      (∀ b n, r.cells b = some n → ∃ q, cells b = some (setNext n q)) ∧
      ∀ b n, cells b = some n → b < r.fresh := by
  unfold takeGeneric
  cases hgeneric : st.generic with
  | none =>
      have hnone : r.genericMapper = none := h.generic.trans hgeneric
      simp only [hnone]
      refine ⟨r.cells, r.mappers, ?_, ?_, fun b _ => rfl, fun b n hn => ⟨n.next, hn⟩, h.below⟩
      · rw [← hnone]
      · rw [Option.toList_none, List.append_nil]
        exact h.linked
  | some p =>
      have hsome : r.genericMapper = some p := h.generic.trans hgeneric
      rw [hgeneric, Option.toList_some] at hdistinct
      have hp : p ∉ st.added := fun hmem =>
        (List.nodup_append'.mp hdistinct).2.2 hmem (List.mem_singleton_self p)
      have howed : 0 < owed [] st p := by
        simp [owed, hgeneric]
      obtain ⟨m, m₀, hm, -, -, -, hnext⟩ := h.owned p howed
      obtain ⟨cells, first, hrun, hlinked, hframe, hlinks, hbelow⟩ :=
        addProxyMapper_spec h.ready h.below h.linked hdistinct hm (hnext hp)
      simp only [hsome, hrun, Except.map]
      exact ⟨cells, first, rfl, hlinked, hframe, hlinks, hbelow⟩

theorem takeNull_none (h : r.nullMapper = none) : r.takeNull = .ok r := by
  unfold takeNull
  simp only [h]

theorem takeNull_some {b : Nat} {r' : MapperRegistry} (h : r.nullMapper = some b)
    (hadd : r.addProxyMapper b = .ok r') :
    r.takeNull = .ok { r' with nullMapper := none } := by
  unfold takeNull
  simp only [h, hadd, Except.map]

theorem initMappers_eq {r₁ r₂ : MapperRegistry} (hready : r.mappersReady = false)
    (h₁ : r.takeGeneric = .ok r₁) (h₂ : r₁.takeNull = .ok r₂) :
    r.initMappers = .ok { r₂ with mappersReady := true } := by
  unfold initMappers
  rw [if_neg (by simp [hready]), h₁]
  change (r₁.takeNull >>= fun r => pure { r with mappersReady := true }) = _
  rw [h₂]
  rfl

/-- `init_mappers` puts the generic mapper behind the added ones and the null
mapper last. -/
theorem initMappers_spec (h : Assembling given [] st r)
    (hdistinct : (st.added ++ st.generic.toList).Nodup) :
    ∃ r' nulls, r.initMappers = .ok r' ∧
      Chain.Linked MapperNode.next r'.cells r'.mappers
        (st.added ++ st.generic.toList ++ nulls) ∧
      (st.added ++ st.generic.toList ++ nulls).map (evaluatorAt r'.cells) =
        (st.added ++ st.generic.toList).map (evaluatorAt given) ++
          st.null.toList.map fun ids => some (.typeIdList ids) := by
  obtain ⟨cells, first, hrun, hlinked, hframe, hlinks, hbelow⟩ := takeGeneric_spec h hdistinct
  have hkept : ∀ a ∈ st.added ++ st.generic.toList, ∀ cells' : Nat → Option MapperNode,
      (∀ n, cells a = some n → ∃ q, cells' a = some (setNext n q)) →
      evaluatorAt cells' a = evaluatorAt given a := by
    intro a ha cells' hlinks'
    have howed : 0 < owed [] st a := by
      have hcount := List.count_pos_iff.mpr ha
      rw [List.count_append] at hcount
      unfold owed
      omega
    obtain ⟨n, n₀, hn, hn₀, heval, -⟩ := h.owned a howed
    obtain ⟨q, hq⟩ := hlinks a n hn
    obtain ⟨q', hq'⟩ := hlinks' _ hq
    unfold evaluatorAt
    rw [hq', hn₀]
    exact congrArg some heval
  obtain hnull | ⟨b, hnull⟩ := Option.eq_none_or_eq_some r.nullMapper
  · have hnone := h.noNull hnull
    refine ⟨_, [], initMappers_eq h.ready hrun (takeNull_none hnull), ?_, ?_⟩
    · rw [List.append_nil]
      exact hlinked
    · rw [List.append_nil, hnone, Option.toList_none, List.map_nil, List.append_nil]
      apply List.map_congr_left
      intro a ha
      exact hkept a ha cells fun n hn => ⟨n.next, hn⟩
  · obtain ⟨ids, hids, hcell, hzero⟩ := h.null b hnull
    have hb : b ∉ st.added ++ st.generic.toList := by
      intro hmem
      have hcount := List.count_pos_iff.mpr hmem
      rw [List.count_append] at hcount
      unfold owed at hzero
      omega
    have hadded : b ∉ st.added := fun hmem => hb (List.mem_append_left _ hmem)
    have hcell' := (hframe b hadded).trans hcell
    have hnodup : (st.added ++ st.generic.toList ++ [b]).Nodup := by
      rw [List.nodup_append']
      exact ⟨hdistinct, List.nodup_singleton b, by simpa using hb⟩
    obtain ⟨cells', first', hrun', hlinked', hframe', hlinks', -⟩ :=
      addProxyMapper_spec (r := { r with cells := cells, mappers := first, genericMapper := none })
        h.ready hbelow hlinked hnodup hcell' rfl
    refine ⟨_, [b], initMappers_eq h.ready hrun (takeNull_some hnull hrun'), hlinked', ?_⟩
    rw [List.map_append, hids, Option.toList_some, List.map_singleton, List.map_singleton]
    congr 1
    · apply List.map_congr_left
      intro a ha
      exact hkept a ha cells' fun n hn => hlinks' a n hn
    · obtain ⟨q, hq⟩ := hlinks' b _ hcell'
      simp [evaluatorAt, hq, setNext]

end Finished

end MapperRegistry

/-! ## Dispatch along the chain -/

namespace Registry

/-- `poa_and_object_id` once this mapper has an evaluator for the type. -/
def poaAndObjectIdHere (orb : Orb) (mappedRef : ObjRef) (m : Nat) :
    RegistryM (Option (Poa × ObjectId)) :=
  match orb.referenceToId ⟨m, true⟩ mappedRef with
  | .ok oid => pure (some (⟨m, true⟩, oid))
  | .error .other => Action.raise .other
  | .error _ => pure none

/-- The three recursions all end at the mapper at this position of the chain,
or behind its end. -/
structure SelectedBy (orb : Orb) (inst : Instance) (reg : Registry) (ref : ObjRef)
    (first : Option Nat) : Prop where
  mapping : ∀ outFacing requireSecure,
    (mapReference orb inst ref outFacing requireSecure).run reg =
      first.elim (.ok none, reg) fun m =>
        (addNativeHere orb inst m ref ref.typeId outFacing requireSecure).run reg
  removal : ∀ outFacing,
    (removeReference orb ref outFacing).run reg =
      first.elim (.ok none, reg) fun m => (removeMappedHere orb m ref outFacing).run reg
  access :
    (poaAndObjectId orb ref reg.mappers 0).run reg =
      first.elim (.ok none, reg) fun m => (poaAndObjectIdHere orb ref m).run reg

theorem selectedBy_handler (orb : Orb) (inst : Instance) (reg : Registry) (ref : ObjRef) :
    SelectedBy orb inst reg ref (reg.handler ref.typeId) where
  mapping outFacing requireSecure := by
    rw [run_mapReference]
    cases reg.handler ref.typeId with
    | none => rfl
    | some m => rfl
  removal outFacing := by
    unfold removeReference handler
    rw [Action.run_bind_ok (Action.run_get reg),
      walk_eq (removeMapped orb ref ref.typeId outFacing) (fun _ => rfl) (fun _ _ _ => rfl)]
    cases reg.mappers.findIdx? fun mapper => mapper.evaluatorFor ref.typeId with
    | none => rfl
    | some m => simp only [Nat.zero_add, Option.elim_some]
  access := by
    have hcons (mapper : ProxyMapper) (next : List ProxyMapper) (m : Nat) :
        poaAndObjectId orb ref (mapper :: next) m =
          if mapper.evaluatorFor ref.typeId then poaAndObjectIdHere orb ref m
          else poaAndObjectId orb ref next (m + 1) := rfl
    unfold handler
    rw [walk_eq (poaAndObjectId orb ref) (fun _ => rfl) hcons]
    cases reg.mappers.findIdx? fun mapper => mapper.evaluatorFor ref.typeId with
    | none => rfl
    | some m => simp only [Nat.zero_add, Option.elim_some]

end Registry

namespace MapperRegistry

/-- The registry of the requests, with the mappers of the finished chain and
their answers. -/
def Serves (r : MapperRegistry) (reg : Registry) : Prop :=
  ∃ l, Chain.Linked MapperNode.next r.cells r.mappers l ∧
    reg.mappers.map (fun mapper => some mapper.evaluatorFor) =
      (l.map (evaluatorAt r.cells)).map (Option.map EvaluatorFor.answers)

end MapperRegistry

/-- The answers in the order of precedence. -/
def Setup.evaluators (given : Nat → Option MapperNode) (st : Setup) : List (Option EvaluatorFor) :=
  (st.added ++ st.generic.toList).map (MapperRegistry.evaluatorAt given) ++
    st.null.toList.map fun ids => some (.typeIdList ids)

/-- Whether an evaluator is there and answers for the type. -/
def acceptsType (typeId : String) (evaluator : Option EvaluatorFor) : Bool :=
  evaluator.any fun e => e.answers typeId

/-- The first position of the order of precedence that accepts a type. -/
def Setup.first (given : Nat → Option MapperNode) (st : Setup) (typeId : String) : Option Nat :=
  (st.evaluators given).findIdx? (acceptsType typeId)

namespace MapperRegistry

theorem Serves.handler_eq {r : MapperRegistry} {reg : Registry} {l : List Nat}
    (h : r.Serves reg) (hlinked : Chain.Linked MapperNode.next r.cells r.mappers l)
    (typeId : String) :
    reg.handler typeId = (l.map (evaluatorAt r.cells)).findIdx? (acceptsType typeId) := by
  obtain ⟨l', hlinked', hmappers⟩ := h
  rw [hlinked'.unique hlinked] at hmappers
  have hanswers := congrArg
    (List.findIdx? fun answers : Option (String → Bool) => answers.any fun f => f typeId) hmappers
  rw [List.findIdx?_map, List.findIdx?_map] at hanswers
  have hleft : (fun answers : Option (String → Bool) => answers.any fun f => f typeId) ∘
      (fun mapper : ProxyMapper => some mapper.evaluatorFor) =
        fun mapper => mapper.evaluatorFor typeId := rfl
  have hright : (fun answers : Option (String → Bool) => answers.any fun f => f typeId) ∘
      Option.map EvaluatorFor.answers = acceptsType typeId := by
    funext evaluator
    cases evaluator with
    | none => rfl
    | some e => rfl
  rw [hleft, hright] at hanswers
  exact hanswers

/-- Whatever order the calls come in, the chain is the added mappers, the last
generic mapper and the null mapper, and a type goes to the first of them that
has an evaluator for it, for mapping, removal and access alike. -/
theorem setup_precedence (orb : Orb) (inst : Instance) {cells : Nat → Option MapperNode}
    {fresh : Nat} {cs : List SetupCall} (hbelow : ∀ a n, cells a = some n → a < fresh)
    (hoffered : Offered cells cs) :
    let st := Setup.empty.calls cs
    ∃ r nulls, (new cells fresh).setup cs = .ok r ∧
      Chain.Linked MapperNode.next r.cells r.mappers
        (st.added ++ st.generic.toList ++ nulls) ∧
      (st.added ++ st.generic.toList ++ nulls).map (evaluatorAt r.cells) =
        st.evaluators cells ∧
      (∀ reg, r.Serves reg → ∀ ref,
        Registry.SelectedBy orb inst reg ref (st.first cells ref.typeId)) ∧
      ∀ typeId, (∃ a ∈ st.added ++ st.generic.toList,
          acceptsType typeId (evaluatorAt cells a)) →
        ∃ k < (st.added ++ st.generic.toList).length, st.first cells typeId = some k := by
  intro st
  obtain ⟨r₁, hcalls, hdone⟩ := calls_assembling (new_assembling hbelow hoffered)
  obtain ⟨r, nulls, hinit, hlinked, hevaluators⟩ := initMappers_spec hdone hoffered.distinct
  refine ⟨r, nulls, ?_, hlinked, hevaluators, ?_, ?_⟩
  · unfold setup
    rw [hcalls]
    exact hinit
  · intro reg hserves ref
    have hselected := Registry.selectedBy_handler orb inst reg ref
    rw [hserves.handler_eq hlinked, hevaluators] at hselected
    exact hselected
  · rintro typeId ⟨a, ha, haccepts⟩
    have hsome : ((st.added ++ st.generic.toList).map (evaluatorAt cells)).findIdx?
        (acceptsType typeId) ≠ none := by
      rw [Ne, List.findIdx?_eq_none_iff]
      intro hnone
      have hrefuses := hnone _ (List.mem_map_of_mem ha)
      rw [haccepts] at hrefuses
      exact Bool.noConfusion hrefuses
    obtain ⟨k, hk⟩ := Option.ne_none_iff_exists'.mp hsome
    refine ⟨k, ?_, ?_⟩
    · have hlt := (List.findIdx?_eq_some_iff_findIdx_eq.mp hk).1
      rwa [List.length_map] at hlt
    · unfold Setup.first Setup.evaluators
      rw [List.findIdx?_append, hk]
      rfl

/-- Three mappers for one type. -/
def sampleMappers (a : Nat) : Option MapperNode :=
  if a < 3 then some ⟨.evaluators fun typeId => typeId == "IDL:A:1.0", 1, none⟩ else none

/-- A generic mapper that is replaced, and a null mapper for every type. -/
theorem setup_precedence_sample :
    ∃ r nulls, (new sampleMappers 3).setup [.createDefaultNullMapper, .setGenericMapper 2,
        .addProxyMapper 0, .setGenericMapper 1] = .ok r ∧
      Chain.Linked MapperNode.next r.cells r.mappers ([0, 1] ++ nulls) := by
  have hbelow : ∀ a n, sampleMappers a = some n → a < 3 := by
    intro a n hn
    by_contra hle
    simp [sampleMappers, hle] at hn
  have hmappers : ([.createDefaultNullMapper, .setGenericMapper 2, .addProxyMapper 0,
      .setGenericMapper 1] : List SetupCall).filterMap SetupCall.mapper? = [2, 0, 1] := by
    decide
  have hoffered : Offered sampleMappers [.createDefaultNullMapper, .setGenericMapper 2,
      .addProxyMapper 0, .setGenericMapper 1] := by
    refine ⟨by decide, ?_⟩
    rw [hmappers]
    intro a ha
    simp only [List.mem_cons, List.not_mem_nil, or_false] at ha
    rcases ha with rfl | rfl | rfl
    · exact ⟨_, rfl, rfl, by decide⟩
    · exact ⟨_, rfl, rfl, by decide⟩
    · exact ⟨_, rfl, rfl, by decide⟩
  obtain ⟨r, nulls, hsetup, hlinked, -⟩ :=
    setup_precedence Orb.plain ⟨0, 0⟩ hbelow hoffered
  exact ⟨r, nulls, hsetup, hlinked⟩

end MapperRegistry

end Lorica
