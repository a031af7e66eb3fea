import Lorica.SharedTable

/-!
The shared table as long as no thread links an object over one that another has
linked there meanwhile. Then it only grows: what a thread has read stays true for
it, and the way on which a pair is linked is the way on which it is found.
-/

namespace Lorica

open Machine

/-! ## A table that only grows -/

namespace TableMemory

variable {T : Type} {cmp : Strcmp} {m m' : TableMemory T} {o r : String} {a : Nat}
  {p q : TablePointer}

theorem operation_pointers (m : TableMemory T) (p : TablePointer) (o : String) :
    (m.apply (.operation p o)).pointers =
      Function.update m.pointers p (some m.names.length) := rfl

theorem opArgs_pointers (m : TableMemory T) (p : TablePointer) (o r : String) (a : Nat) :
    (m.apply (.opArgs p o r a)).pointers =
      Function.update m.pointers p (some m.opArgs.length) := rfl

theorem lookup_singleton {α β : Type} [BEq α] [LawfulBEq α] [DecidableEq α] (k k' : α) (v : β) :
    [(k', v)].lookup k = if k = k' then some v else none := by
  rw [List.lookup_cons]
  by_cases hk : k = k'
  · rw [beq_iff_eq.mpr hk, if_pos hk]
  · rw [beq_eq_false_iff_ne.mpr hk, if_neg hk]
    rfl

theorem opArgs_lookup (m : TableMemory T) (p : TablePointer) (o r : String) (a : Nat)
    (key : String × String) : (m.apply (.opArgs p o r a)).opArgs.lookup key =
      (m.opArgs.lookup key).or (if key = (o, r) then some a else none) := by
  rw [apply, List.lookup_append, lookup_singleton]

structure Extends (m m' : TableMemory T) : Prop where
  pointers : ∀ p x, m.pointers p = some x → m'.pointers p = some x
  names : m.names <+: m'.names
  opArgs : m.opArgs <+: m'.opArgs

theorem Extends.refl (m : TableMemory T) : m.Extends m :=
  ⟨fun _ _ h => h, List.prefix_refl _, List.prefix_refl _⟩

/-- A write at a pointer that is null. -/
theorem apply_extends (w : TableWrite T) (hfree : ∀ p ∈ w.pointer, m.pointers p = none) :
    m.Extends (m.apply w) := by
  have hkeeps : ∀ {p : TablePointer} (x : Nat), p ∈ w.pointer → ∀ q y, m.pointers q = some y →
      Function.update m.pointers p (some x) q = some y := by
    intro p x hp q y hy
    have hne : q ≠ p := by
      rintro rfl
      rw [hfree q hp] at hy
      cases hy
    rwa [Function.update_of_ne hne]
  cases w with
  | nothing => exact .refl m
  | operation p opname => exact ⟨hkeeps _ rfl, List.prefix_append _ _, List.prefix_refl _⟩
  | opArgs p opname repId a => exact ⟨hkeeps _ rfl, List.prefix_refl _, List.prefix_append _ _⟩
  | argList l => exact ⟨fun _ _ h => h, List.prefix_refl _, List.prefix_refl _⟩

theorem getElem?_of_extends {α : Type} {l l' : List α} {i : Nat} {x : α} (h : l <+: l')
    (hx : l[i]? = some x) : l'[i]? = some x := by
  obtain ⟨tail, rfl⟩ := h
  rw [List.getElem?_append_left (List.getElem?_eq_some_iff.mp hx).1]
  exact hx

theorem Extends.lookup (h : m.Extends m') {key : String × String}
    (hkey : m.opArgs.lookup key = some a) : m'.opArgs.lookup key = some a := by
  obtain ⟨tail, heq⟩ := h.opArgs
  rw [← heq, List.lookup_append, hkey, Option.some_or]

theorem Extends.lookup_isSome (h : m.Extends m') {key : String × String}
    (hkey : (m.opArgs.lookup key).isSome) : (m'.opArgs.lookup key).isSome := by
  obtain ⟨a, ha⟩ := Option.isSome_iff_exists.mp hkey
  rw [h.lookup ha]
  rfl

theorem Extends.lookup_none (h : m.Extends m') {key : String × String}
    (hkey : m'.opArgs.lookup key = none) : m.opArgs.lookup key = none := by
  cases hold : m.opArgs.lookup key with
  | none => rfl
  | some a => rw [h.lookup hold] at hkey; cases hkey

/-- What has been read reads the same later, a null pointer apart. -/
theorem Extends.look_eq (h : m.Extends m') (hback : m.look cmp o r p ≠ .back none)
    (hcrash : m.look cmp o r p ≠ .crash) : m'.look cmp o r p = m.look cmp o r p := by
  unfold look at hback hcrash ⊢
  cases hx : m.pointers p with
  | none =>
      rw [hx] at hback
      exact absurd rfl hback
  | some x =>
      simp only [hx] at hcrash
      simp only [h.pointers p x hx]
      cases htree : p.isTree with
      | true =>
          cases hname : m.names[x]? with
          | none =>
              simp only [htree, hname, if_true] at hcrash
              exact absurd rfl hcrash
          | some name => simp only [if_true, getElem?_of_extends h.names hname]
      | false =>
          cases hoa : m.opArgs[x]? with
          | none =>
              simp only [htree, hoa, Bool.false_eq_true, if_false] at hcrash
              exact absurd rfl hcrash
          | some oa => simp only [Bool.false_eq_true, if_false, getElem?_of_extends h.opArgs hoa]

theorem Extends.look_stays (h : m.Extends m') :
    Stays (m.look cmp o r) (m'.look cmp o r) (some a) where
  go p q hgo := by
    rw [h.look_eq (by simp [hgo]) (by simp [hgo]), hgo]
  back p hback := by
    rw [h.look_eq (by simp [hback]) (by simp [hback]), hback]

/-! ## The way to a pair -/

variable (cmp) in
/-- The search for an operation comes by at this pointer. -/
def Toward (m : TableMemory T) (o : String) (p : TablePointer) : Prop :=
  ∀ r, Relation.ReflTransGen (Leads (m.look cmp o r)) .head p

/-- The operation in whose chain a pointer is. -/
def owner (m : TableMemory T) : TablePointer → Option String
  | .argSet op => m.names[op]?
  | .next oa => m.opArgs[oa]?.map (·.1.1)
  | .head | .left _ | .right _ => none

variable (cmp) in
/-- The search for any pair of the operation that is not there comes by. -/
def Along (m : TableMemory T) (o : String) (p : TablePointer) : Prop :=
  m.owner p = some o ∧ ∀ r, m.opArgs.lookup (o, r) = none →
    Relation.ReflTransGen (Leads (m.look cmp o r)) .head p

variable (cmp) in
def HasNode (m : TableMemory T) (o : String) (op : Nat) : Prop :=
  m.names[op]? = some o ∧ m.Toward cmp o (.argSet op)

theorem owner_some (h : m.owner p = some o) : p.isTree = false := by
  cases p with
  | head | left _ | right _ => cases h
  | argSet _ | next _ => rfl

theorem Extends.leads (h : m.Extends m')
    (hleads : Relation.ReflTransGen (Leads (m.look cmp o r)) p q) :
    Relation.ReflTransGen (Leads (m'.look cmp o r)) p q :=
  Relation.ReflTransGen.mono (fun p q hgo => (h.look_stays (a := 0)).go p q hgo) _ _ hleads

theorem Extends.toward (h : m.Extends m') (htoward : m.Toward cmp o p) :
    m'.Toward cmp o p :=
  fun r => h.leads (htoward r)

theorem Extends.owner (h : m.Extends m') (howner : m.owner p = some o) :
    m'.owner p = some o := by
  cases p with
  | head | left _ | right _ => cases howner
  | argSet op => exact getElem?_of_extends h.names howner
  | next oa =>
      obtain ⟨entry, hentry, heq⟩ := Option.map_eq_some_iff.mp howner
      exact Option.map_eq_some_iff.mpr ⟨entry, getElem?_of_extends h.opArgs hentry, heq⟩

theorem Extends.along (h : m.Extends m') (halong : m.Along cmp o p) : m'.Along cmp o p :=
  ⟨h.owner halong.1, fun r hr => h.leads (halong.2 r (h.lookup_none hr))⟩

theorem Extends.hasNode (h : m.Extends m') {op : Nat} (hnode : m.HasNode cmp o op) :
    m'.HasNode cmp o op :=
  ⟨getElem?_of_extends h.names hnode.1, h.toward hnode.2⟩

theorem HasNode.along {op : Nat} (h : m.HasNode cmp o op) : m.Along cmp o (.argSet op) :=
  ⟨h.1, fun r _ => h.2 r⟩

theorem Toward.head : m.Toward cmp o .head := fun _ => .refl

/-- The turn at a node of another name. -/
theorem Toward.below {op : Nat} {name : String} (h : m.Toward cmp o p) (htree : p.isTree)
    (hp : m.pointers p = some op) (hname : m.names[op]? = some name)
    (hbelow : below cmp o name op = some q) : m.Toward cmp o q := by
  intro r
  refine (h r).tail ?_
  simp only [Leads, look, hp, htree, if_true, hname, hbelow]

theorem below_some {name : String} {op : Nat} (h : below cmp o name op = some q) :
    q = .left op ∨ q = .right op := by
  unfold Lorica.below at h
  split at h
  · cases h
  · exact .inl (Option.some.inj h).symm
  · exact .inr (Option.some.inj h).symm

theorem below_isTree {name : String} {op : Nat} (h : below cmp o name op = some q) :
    q.isTree := by
  rcases below_some h with rfl | rfl <;> rfl

/-- The node of the name that is looked for. -/
theorem Toward.node {op : Nat} (h : m.Toward cmp o p) (htree : p.isTree)
    (hp : m.pointers p = some op) (hname : m.names[op]? = some o) : m.HasNode cmp o op := by
  refine ⟨hname, fun r => (h r).tail ?_⟩
  simp only [Leads, look, hp, htree, if_true, hname, below_none.mpr]

/-! ## What holds of the table -/

variable (cmp) in
/-- No chain has the `OpArgs` of another operation in it, and every pair that is
there is found. -/
structure Kept (m : TableMemory T) : Prop where
  owned : ∀ p x, p.isTree = false → m.pointers p = some x →
    ∃ entry, m.opArgs[x]? = some entry ∧ m.owner p = some entry.1.1
  settled : ∀ o r a, m.opArgs.lookup (o, r) = some a →
    ∃ k, Ends (m.look cmp o r) (some a) .head k

/-- Another `OpArgs` of the chain. -/
theorem Along.next {oa : Nat} (hkept : m.Kept cmp) (h : m.Along cmp o p)
    (hp : m.pointers p = some oa) : m.Along cmp o (.next oa) := by
  have htree := owner_some h.1
  obtain ⟨⟨⟨o', id⟩, a⟩, hentry, howner⟩ := hkept.owned p oa htree hp
  obtain rfl : o = o' := Option.some.inj (h.1.symm.trans howner)
  refine ⟨by simp [TableMemory.owner, hentry], fun r hr => (h.2 r hr).tail ?_⟩
  have hne : cmp.compare r id ≠ 0 := by
    intro hzero
    obtain rfl := (cmp.eq_zero r id).mp hzero
    have hmem := List.mem_of_getElem? hentry
    exact absurd (List.lookup_eq_none_iff.mp hr _ hmem) (by simp)
  simp only [Leads, look, hp, htree, Bool.false_eq_true, if_false, hentry, hne]

theorem Kept.write (h : m.Kept cmp) {w : TableWrite T}
    (hfree : ∀ p ∈ w.pointer, m.pointers p = none)
    (howned : ∀ p x, p.isTree = false → (m.apply w).pointers p = some x →
      m.pointers p = some x ∨ ∃ entry, (m.apply w).opArgs[x]? = some entry ∧
        (m.apply w).owner p = some entry.1.1)
    (hsettled : ∀ o r a, (m.apply w).opArgs.lookup (o, r) = some a →
      m.opArgs.lookup (o, r) = some a ∨
        ∃ k, Ends ((m.apply w).look cmp o r) (some a) .head k) : (m.apply w).Kept cmp := by
  have hextends := apply_extends w hfree
  refine ⟨fun p x htree hp => ?_, fun o r a hlookup => ?_⟩
  · rcases howned p x htree hp with hold | hnew
    · obtain ⟨entry, hentry, howner⟩ := h.owned p x htree hold
      exact ⟨entry, getElem?_of_extends hextends.opArgs hentry, hextends.owner howner⟩
    · exact hnew
  · rcases hsettled o r a hlookup with hold | hnew
    · obtain ⟨k, hk⟩ := h.settled o r a hold
      exact ⟨k, hk.mono hextends.look_stays⟩
    · exact hnew

/-- A new node in the tree. -/
theorem Kept.operation (h : m.Kept cmp) (htree : p.isTree) (hfree : m.pointers p = none)
    (opname : String) : (m.apply (.operation p opname)).Kept cmp := by
  refine h.write (fun q hq => ?_) (fun q x hq hx => .inl ?_) fun o r a hlookup => .inl hlookup
  · obtain rfl := Option.some.inj hq
    exact hfree
  · have hne : q ≠ p := by
      rintro rfl
      rw [htree] at hq
      cases hq
    rwa [operation_pointers, Function.update_of_ne hne] at hx

/-- A new node is on the way to its own name. -/
theorem Toward.operation (h : m.Toward cmp o p) (htree : p.isTree)
    (hfree : m.pointers p = none) :
    (m.apply (.operation p o)).HasNode cmp o m.names.length := by
  have hextends : m.Extends (m.apply (.operation p o)) := by
    refine apply_extends _ fun q hq => ?_
    obtain rfl := Option.some.inj hq
    exact hfree
  refine (hextends.toward h).node htree ?_ ?_
  · simp [apply]
  · simp [apply]

/-- A new `OpArgs` at the end of the chain. -/
theorem Kept.newOpArgs (h : m.Kept cmp) (halong : m.Along cmp o p)
    (hfree : m.pointers p = none) (a : Nat) :
    (m.apply (.opArgs p o r a)).Kept cmp := by
  have hpointer : ∀ q ∈ (TableWrite.opArgs (T := T) p o r a).pointer, m.pointers q = none := by
    intro q hq
    obtain rfl := Option.some.inj hq
    exact hfree
  have hextends := apply_extends (.opArgs p o r a) hpointer
  have hentry : (m.apply (.opArgs p o r a)).opArgs[m.opArgs.length]? = some ((o, r), a) := by
    simp [apply]
  have hp : (m.apply (.opArgs p o r a)).pointers p = some m.opArgs.length := by
    simp [apply]
  refine h.write hpointer (fun q x hq hx => ?_) fun o' r' a' hlookup => ?_
  · by_cases hqp : q = p
    · subst hqp
      obtain rfl := Option.some.inj (hp.symm.trans hx)
      exact .inr ⟨_, hentry, hextends.owner halong.1⟩
    · rw [opArgs_pointers, Function.update_of_ne hqp] at hx
      exact .inl hx
  · cases hold : m.opArgs.lookup (o', r') with
    | some b =>
        rw [hextends.lookup hold] at hlookup
        exact .inl hlookup
    | none =>
        rw [opArgs_lookup, hold, Option.none_or] at hlookup
        obtain ⟨hkey, hsome⟩ := Option.ite_none_right_eq_some.mp hlookup
        obtain ⟨rfl, rfl⟩ := Prod.mk.inj hkey
        obtain rfl := Option.some.inj hsome
        refine .inr (Ends.of_leads (hextends.leads (halong.2 _ hold)) (.back ?_))
        have hzero : cmp.compare r' r' = 0 := (cmp.eq_zero r' r').mpr rfl
        simp only [look, hp, owner_some halong.1, Bool.false_eq_true, if_false, hentry, hzero,
          if_true]

end TableMemory

/-! ## What holds of a thread -/

section Threads

variable {T : Type} {cmp : Strcmp} {m m' : TableMemory T}

variable (cmp) in
/-- The pointer at hand is on the way to the pair that is to be added. -/
def AddPc.Sound (m : TableMemory T) : AddPc T → Prop
  | .between => True
  | .findOrAdd r cursor => cursor.pointer.isTree ∧ m.Toward cmp r.name cursor.pointer
  | .returnHead _ => False
  | .make r op => m.HasNode cmp r.name op
  | .addSet r op _ _ _ cursor => m.HasNode cmp r.name op ∧ m.Along cmp r.name cursor.pointer

variable (cmp) in
structure AddCall.Sound (m : TableMemory T) (c : AddCall T) : Prop where
  added : ∀ key ∈ c.added, (m.opArgs.lookup key).isSome
  pc : c.pc.Sound cmp m

variable (cmp) in
/-- A `find` that is due is on its way to the list that was linked first. -/
def SharedCall.Sound (m : TableMemory T) : SharedCall T → Prop
  | .find opname repId due p => due → ∃ a, m.opArgs.lookup (opname, repId) = some a ∧
      ∃ k, Ends (m.look cmp opname repId) (some a) p k
  | .addInterface c => c.Sound cmp m

variable (cmp) in
def SharedThread.Sound (m : TableMemory T) : SharedThread T → Prop
  | .acquiring call | .releasing call | .running call => call.Sound cmp m
  | .idle | .crashed => True

theorem AddPc.Sound.mono (h : m.Extends m') {pc : AddPc T} (hpc : pc.Sound cmp m) :
    pc.Sound cmp m' := by
  cases pc with
  | between => trivial
  | findOrAdd r cursor => exact ⟨hpc.1, h.toward hpc.2⟩
  | returnHead r => exact hpc
  | make r op => exact h.hasNode hpc
  | addSet r op a id ids cursor => exact ⟨h.hasNode hpc.1, h.along hpc.2⟩

theorem SharedCall.Sound.mono (h : m.Extends m') {call : SharedCall T}
    (hcall : call.Sound cmp m) : call.Sound cmp m' := by
  cases call with
  | find opname repId due p =>
      intro hdue
      obtain ⟨a, hlookup, k, hends⟩ := hcall hdue
      exact ⟨a, h.lookup hlookup, k, hends.mono h.look_stays⟩
  | addInterface c =>
      exact ⟨fun key hkey => h.lookup_isSome (hcall.added key hkey), hcall.pc.mono h⟩

theorem SharedThread.stable : Stable (TableMemory.Extends (T := T)) (SharedThread.Sound cmp) := by
  intro m m' thread h hthread
  cases thread with
  | idle | crashed => trivial
  | acquiring call => exact SharedCall.Sound.mono h hthread
  | releasing call => exact SharedCall.Sound.mono h hthread
  | running call => exact SharedCall.Sound.mono h hthread

theorem AddPc.nextSet_sound {r : OperationTable.Registration T} {op : Nat} (a : Nat)
    (ids : List String) (h : m.HasNode cmp r.name op) :
    (AddPc.nextSet r op a ids).Sound cmp m := by
  cases ids with
  | nil => trivial
  | cons id ids => exact ⟨h, h.along⟩

theorem TableMemory.test_pointer (m : TableMemory T) (p : TablePointer) :
    (m.test p).pointer = p := by
  unfold TableMemory.test
  split <;> rfl

namespace AddCall

variable {c c' : AddCall T}

theorem step_pointer {p : TablePointer} (hp : p ∈ (c.step cmp m).1.pointer) :
    p ∈ c.pc.links := by
  obtain ⟨desired, todo, result, added, pc⟩ := c
  cases pc with
  | between => cases todo <;> cases hp
  | findOrAdd r cursor =>
      cases cursor with
      | link q => exact hp
      | test q | follow q => cases hp
  | returnHead r | make r op => cases hp
  | addSet r op a id ids cursor =>
      cases cursor with
      | link q => exact hp
      | test q | follow q => cases hp

theorem test_links {p q : TablePointer} (hp : p ∈ (m.test q).links) : m.pointers p = none := by
  unfold TableMemory.test at hp
  split at hp
  · next hnull =>
      obtain rfl := Option.some.inj hp
      exact hnull
  · cases hp

/-- What is to be linked next has just been tested, and nothing is written then. -/
theorem step_links (hgo : (c.step cmp m).2 = .go c') {p : TablePointer}
    (hp : p ∈ c'.pc.links) : (m.apply (c.step cmp m).1).pointers p = none := by
  obtain ⟨desired, todo, result, added, pc⟩ := c
  have hnext : ∀ {r : OperationTable.Registration T} {op a : Nat} {ids : List String},
      p ∉ (AddPc.nextSet r op a ids).links := by
    intro r op a ids hmem
    cases ids <;> cases hmem
  cases pc with
  | between =>
      cases todo with
      | nil => cases hgo
      | cons r todo =>
          cases hgo
          cases hp
  | findOrAdd r cursor =>
      cases cursor with
      | test q =>
          cases hgo
          exact test_links hp
      | link q =>
          cases hgo
          by_cases hq : q = .head <;> simp [hq, AddPc.links] at hp
      | follow q =>
          rcases step_followTree cmp m rfl with h | ⟨op, -, -, h⟩ | ⟨op, name, q', -, -, -, h⟩ <;>
            rw [h] at hgo <;> cases hgo <;> cases hp
  | returnHead r =>
      rcases step_returnHead cmp m rfl with h | ⟨op, h⟩ <;> rw [h] at hgo <;> cases hgo
      cases hp
  | make r op =>
      cases hgo
      exact absurd hp hnext
  | addSet r op a id ids cursor =>
      cases cursor with
      | test q =>
          cases hgo
          exact test_links hp
      | link q =>
          cases hgo
          exact absurd hp hnext
      | follow q =>
          rcases step_followChain cmp m rfl with h | ⟨oa, -, h⟩ <;> rw [h] at hgo <;> cases hgo
          cases hp

theorem step_extends (cmp : Strcmp) (hfree : ∀ p ∈ c.pc.links, m.pointers p = none) :
    m.Extends (m.apply (c.step cmp m).1) :=
  m.apply_extends _ fun p hp => hfree p (step_pointer hp)

/-- The step of `add_interface` with the memory it leaves. -/
theorem step_sound (hkept : m.Kept cmp) (hhead : m.pointers .head ≠ none)
    (hsound : c.Sound cmp m) (hfree : ∀ p ∈ c.pc.links, m.pointers p = none) :
    (m.apply (c.step cmp m).1).Kept cmp ∧
      ∀ c', (c.step cmp m).2 = .go c' → c'.Sound cmp (m.apply (c.step cmp m).1) := by
  have hextends := step_extends cmp hfree
  obtain ⟨desired, todo, result, added, pc⟩ := c
  obtain ⟨hadded, hpc⟩ := hsound
  cases pc with
  | between =>
      cases todo with
      | nil =>
          refine ⟨hkept, fun c' hgo => ?_⟩
          cases hgo
      | cons r todo =>
          refine ⟨hkept, fun c' hgo => ?_⟩
          cases hgo
          exact ⟨hadded, rfl, .head⟩
  | findOrAdd r cursor =>
      obtain ⟨htree, htoward⟩ := hpc
      cases cursor with
      | test p =>
          refine ⟨hkept, fun c' hgo => ?_⟩
          cases hgo
          refine ⟨hadded, ?_⟩
          simp only [AddPc.Sound, TableMemory.test_pointer]
          exact ⟨htree, htoward⟩
      | link p =>
          have hp : m.pointers p = none := hfree p rfl
          have hne : p ≠ .head := by
            rintro rfl
            exact hhead hp
          refine ⟨hkept.operation htree hp r.name, fun c' hgo => ?_⟩
          simp only [step, hne, if_false] at hgo
          cases hgo
          exact ⟨fun key hkey => hextends.lookup_isSome (hadded key hkey),
            htoward.operation htree hp⟩
      | follow p =>
          refine ⟨hkept, fun c' hgo => ?_⟩
          rcases step_followTree cmp m rfl with
            h | ⟨op, hp, hname, h⟩ | ⟨op, name, q, hp, hname, hbelow, h⟩ <;>
            rw [h] at hgo <;> cases hgo
          · exact ⟨hadded, htoward.node htree hp hname⟩
          · exact ⟨hadded, TableMemory.below_isTree hbelow,
              htoward.below htree hp hname hbelow⟩
  | returnHead r => exact absurd hpc not_false
  | make r op =>
      refine ⟨⟨hkept.owned, hkept.settled⟩, fun c' hgo => ?_⟩
      cases hgo
      exact ⟨hadded, AddPc.nextSet_sound _ _ (hextends.hasNode hpc)⟩
  | addSet r op a id ids cursor =>
      obtain ⟨hnode, halong⟩ := hpc
      cases cursor with
      | test p =>
          refine ⟨hkept, fun c' hgo => ?_⟩
          cases hgo
          refine ⟨hadded, hnode, ?_⟩
          rw [TableMemory.test_pointer]
          exact halong
      | link p =>
          refine ⟨hkept.newOpArgs halong (hfree p rfl) a, fun c' hgo => ?_⟩
          cases hgo
          refine ⟨fun key hkey => ?_, AddPc.nextSet_sound _ _ (hextends.hasNode hnode)⟩
          rcases List.mem_append.mp hkey with hold | hnew
          · exact hextends.lookup_isSome (hadded key hold)
          · rw [step, TableMemory.opArgs_lookup, List.mem_singleton.mp hnew, if_pos rfl]
            cases m.opArgs.lookup (r.name, id) <;> rfl
      | follow p =>
          refine ⟨hkept, fun c' hgo => ?_⟩
          rcases step_followChain cmp m rfl with h | ⟨oa, hp, h⟩ <;> rw [h] at hgo <;> cases hgo
          exact ⟨hadded, hnode, halong.next hkept hp⟩

end AddCall

end Threads

end Lorica
