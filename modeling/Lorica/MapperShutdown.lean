import Lorica.MapperChain

/-!
`Lorica_MapperRegistry::destroy` and `destroy_chain`. Three places give up
references of the same chain: the end of `destroy_chain`, its caller one mapper
up, and the destructor. Every decrement and every deletion is noted, so that a
shutdown can be asked whether each mapper had exactly one of both.
-/

namespace Lorica

open Machine

inductive TeardownEvent where
  | decremented (mapper : Nat)
  | deleted (mapper : Nat)
deriving DecidableEq, Repr

/-- The mappers in the store and what happened to them, newest first. -/
structure Teardown where
  cells : Nat → Option MapperNode
  events : List TeardownEvent

namespace Teardown

def store (s : Teardown) (a : Nat) (content : Option MapperNode) : Teardown :=
  { s with cells := Function.update s.cells a content }

def note (s : Teardown) (event : TeardownEvent) : Teardown :=
  { s with events := event :: s.events }

/-- A method can be called on a mapper that is there. -/
def deref (s : Teardown) (a : Nat) : Except Fault MapperNode :=
  match s.cells a with
  | none => .error .danglingPointer
  | some n => .ok n

/-- `decr_refcount` once more, now with its traces. -/
def decrRefcount : Nat → Nat → Teardown → Except Fault Teardown
  | 0, _, _ => .error .stackExhausted
  | turns + 1, a, s => do
      let n ← s.deref a
      let s := s.note (.decremented a)
      if n.refCount - 1 > 0 then
        .ok (s.store a (some { n with refCount := n.refCount - 1 }))
      else if n.refCount - 1 ≠ 0 then .error .assertionFailed
      else
        let s := (s.note (.deleted a)).store a none
        match n.next with
        | none => .ok s
        | some b => decrRefcount turns b s

/-- `this->next_->decr_refcount ()`, with `next_` read anew. -/
def decrNext (turns a : Nat) (s : Teardown) : Except Fault Teardown := do
  let n ← s.deref a
  match n.next with
  | none => .error .nullDereference
  | some b => decrRefcount turns b s

/-- `this->next_ = 0` -/
def clearNext (a : Nat) (s : Teardown) : Except Fault Teardown := do
  let n ← s.deref a
  return s.store a (some { n with next := none })

/-- `destroy_chain`; the turns bound the recursion as in `decr_refcount`. -/
def destroyChain : Nat → Nat → Teardown → Except Fault Teardown
  | 0, _, _ => .error .stackExhausted
  | turns + 1, a, s => do
      let n ← s.deref a
      match n.next with
      | none => decrRefcount (turns + 1) a s
      | some b => do
          let s ← destroyChain turns b s
          let s ← s.decrNext turns a
          let s ← s.clearNext a
          decrRefcount (turns + 1) a s

/-- `if (p != 0) p->decr_refcount ()` -/
def release (turns : Nat) (p : Option Nat) (s : Teardown) : Except Fault Teardown :=
  match p with
  | none => .ok s
  | some a => decrRefcount turns a s

/-- `if (p != 0) p->destroy_chain ()` -/
def destroyMappers (turns : Nat) (p : Option Nat) (s : Teardown) : Except Fault Teardown :=
  match p with
  | none => .ok s
  | some a => destroyChain turns a s

end Teardown

namespace MapperRegistry

/-- `Lorica_MapperRegistry::destroy` -/
def destroy (r : MapperRegistry) : Except Fault (MapperRegistry × List TeardownEvent) := do
  let turns := r.fresh + 1
  let s ← Teardown.release turns r.nullMapper ⟨r.cells, []⟩
  let s ← Teardown.release turns r.genericMapper s
  let s ← Teardown.destroyMappers turns r.mappers s
  return ({ r with
    cells := s.cells
    mappers := none
    nullMapper := none
    genericMapper := none }, s.events)

/-- The mappers a registry holds whose `mappers_` leads to this chain. -/
def holds (r : MapperRegistry) (chain : List Nat) : List Nat :=
  chain ++ r.genericMapper.toList ++ r.nullMapper.toList

/-- Every mapper is held by its one place in the registry. -/
structure HeldOnce (r : MapperRegistry) (chain : List Nat) : Prop where
  below : ∀ a n, r.cells a = some n → a < r.fresh
  linked : Chain.Linked MapperNode.next r.cells r.mappers chain
  distinct : (r.holds chain).Nodup
  counts : ∀ a ∈ r.holds chain, ∀ n, r.cells a = some n → n.refCount = 1
  alone : ∀ a ∈ r.genericMapper.toList ++ r.nullMapper.toList,
    ∃ n, r.cells a = some n ∧ n.next = none

/-- The shutdown ends, and each mapper was decremented once and deleted once. A
method called on a deleted mapper and a violated assertion are faults. -/
def ShutsDown (r : MapperRegistry) (chain : List Nat) : Prop :=
  ∃ r' events, r.destroy = .ok (r', events) ∧
    ∀ a ∈ r.holds chain,
      events.count (.decremented a) = 1 ∧ events.count (.deleted a) = 1

end MapperRegistry

namespace Teardown

/-! ## The last reference -/

/-- What is noted when the last references of these mappers go. -/
def ended (l : List Nat) : List TeardownEvent :=
  l.flatMap fun a => [.deleted a, .decremented a]

theorem count_ended (l : List Nat) (a : Nat) :
    (ended l).count (.decremented a) = l.count a ∧ (ended l).count (.deleted a) = l.count a := by
  induction l with
  | nil => exact ⟨rfl, rfl⟩
  | cons b l ih =>
      obtain ⟨hdecremented, hdeleted⟩ := ih
      have hcons : ended (b :: l) = .deleted b :: .decremented b :: ended l := rfl
      rw [hcons]
      simp only [List.count_cons, hdecremented, hdeleted, beq_iff_eq, TeardownEvent.deleted.injEq,
        TeardownEvent.decremented.injEq, reduceCtorEq, if_false]
      omega

variable {s : Teardown} {a : Nat} {n : MapperNode}

theorem deref_eq (h : s.cells a = some n) : s.deref a = .ok n := by
  simp [deref, h]

/-- The last reference of a mapper with nothing behind it. -/
theorem decrRefcount_last (turns : Nat) (h : s.cells a = some n) (hcount : n.refCount = 1)
    (hnext : n.next = none) :
    decrRefcount (turns + 1) a s =
      .ok ⟨Function.update s.cells a none, ended [a] ++ s.events⟩ := by
  simp [decrRefcount, deref_eq h, hcount, hnext, bind, Except.bind, note, store, ended]

theorem release_last (turns : Nat) {p : Option Nat}
    (h : ∀ a ∈ p.toList, ∃ n, s.cells a = some n ∧ n.refCount = 1 ∧ n.next = none) :
    ∃ s', release (turns + 1) p s = .ok s' ∧ s'.events = ended p.toList ++ s.events ∧
      ∀ b ∉ p.toList, s'.cells b = s.cells b := by
  cases p with
  | none => exact ⟨s, rfl, rfl, fun _ _ => rfl⟩
  | some a =>
      obtain ⟨n, hn, hcount, hnext⟩ := h a (by simp)
      refine ⟨_, decrRefcount_last turns hn hcount hnext, rfl, ?_⟩
      intro b hb
      exact Function.update_of_ne (by simpa using hb) ..

/-- A chain of one mapper is taken down as it should be. -/
theorem destroyChain_single (turns : Nat) (h : s.cells a = some n) (hcount : n.refCount = 1)
    (hnext : n.next = none) :
    destroyChain (turns + 1) a s =
      .ok ⟨Function.update s.cells a none, ended [a] ++ s.events⟩ := by
  rw [destroyChain, deref_eq h]
  simp only [bind, Except.bind, hnext]
  exact decrRefcount_last turns h hcount hnext

/-- The second mapper of a longer chain has deleted itself at the end of its own
`destroy_chain` when the first one decrements it. -/
theorem destroyChain_dangling {b turns : Nat} {rest : List Nat}
    (h : Chain.Linked MapperNode.next s.cells (some a) (a :: b :: rest))
    (hnodup : (a :: b :: rest).Nodup) (hturns : (a :: b :: rest).length ≤ turns)
    (hcounts : ∀ c ∈ a :: b :: rest, ∀ n, s.cells c = some n → n.refCount = 1) :
    destroyChain turns a s = .error .danglingPointer := by
  obtain ⟨turns, rfl⟩ : ∃ k, turns = k + 2 :=
    ⟨turns - 2, by rw [List.length_cons, List.length_cons] at hturns; omega⟩
  induction rest generalizing a b turns with
  | nil =>
      obtain ⟨-, n, hn, hb, m, hm, hlast⟩ := h
      have hne : a ≠ b := by
        rintro rfl
        simp at hnodup
      have hmcount : m.refCount = 1 := hcounts b (by simp) m hm
      have hinner := destroyChain_single turns hm hmcount hlast
      have hafter : (⟨Function.update s.cells b none, ended [b] ++ s.events⟩ : Teardown).deref a =
          .ok n := deref_eq (by simpa [Function.update_of_ne hne] using hn)
      have hgone : (⟨Function.update s.cells b none, ended [b] ++ s.events⟩ : Teardown).deref b =
          .error .danglingPointer := by simp [deref]
      rw [destroyChain, deref_eq hn]
      simp only [bind, Except.bind, hb, hinner, decrNext, hafter, decrRefcount, hgone]
  | cons c rest ih =>
      obtain ⟨-, n, hn, hb, hrest⟩ := h
      obtain ⟨turns, rfl⟩ : ∃ k, turns = k + 1 :=
        ⟨turns - 1, by simp only [List.length_cons] at hturns; omega⟩
      have hinner : destroyChain (turns + 2) b s = .error .danglingPointer :=
        ih ⟨rfl, hrest⟩ (List.nodup_cons.mp hnodup).2
          (fun d hd => hcounts d (List.mem_cons_of_mem _ hd)) turns
          (by simp only [List.length_cons] at hturns ⊢; omega)
      rw [destroyChain, deref_eq hn]
      simp only [bind, Except.bind, hb, hinner]

end Teardown

namespace MapperRegistry

/-! ## The whole registry -/

variable {r : MapperRegistry} {chain : List Nat}

theorem HeldOnce.length_le (h : r.HeldOnce chain) : chain.length ≤ r.fresh := by
  have hdistinct := h.distinct
  unfold holds at hdistinct
  rw [List.append_assoc] at hdistinct
  apply Chain.length_le_of_below hdistinct.of_append_left
  intro a ha
  obtain ⟨n, hn⟩ := h.linked.live ha
  exact h.below a n hn

/-- The two mappers outside the chain go first and leave the chain alone. -/
theorem HeldOnce.releases (h : r.HeldOnce chain) :
    ∃ s, r.destroy = (Teardown.destroyMappers (r.fresh + 1) r.mappers s).map (fun s =>
        ({ r with
          cells := s.cells, mappers := none, nullMapper := none, genericMapper := none },
          s.events)) ∧
      s.events = Teardown.ended (r.genericMapper.toList ++ r.nullMapper.toList) ∧
      ∀ a ∈ chain, s.cells a = r.cells a := by
  have hdistinct := h.distinct
  unfold holds at hdistinct
  rw [List.append_assoc, List.nodup_append'] at hdistinct
  obtain ⟨-, hothers, hchain⟩ := hdistinct
  have hlast : ∀ a ∈ r.genericMapper.toList ++ r.nullMapper.toList,
      ∃ n, r.cells a = some n ∧ n.refCount = 1 ∧ n.next = none := by
    intro a ha
    obtain ⟨n, hn, hnext⟩ := h.alone a ha
    refine ⟨n, hn, h.counts a ?_ n hn, hnext⟩
    unfold holds
    rw [List.append_assoc]
    exact List.mem_append_right _ ha
  obtain ⟨s₁, hrun₁, hevents₁, hcells₁⟩ := Teardown.release_last r.fresh
    (s := ⟨r.cells, []⟩) fun a ha => hlast a (List.mem_append_right _ ha)
  have hgeneric : ∀ a ∈ r.genericMapper.toList,
      ∃ n, s₁.cells a = some n ∧ n.refCount = 1 ∧ n.next = none := by
    intro a ha
    have hne : a ∉ r.nullMapper.toList := (List.nodup_append'.mp hothers).2.2 ha
    rw [hcells₁ a hne]
    exact hlast a (List.mem_append_left _ ha)
  obtain ⟨s₂, hrun₂, hevents₂, hcells₂⟩ := Teardown.release_last r.fresh hgeneric
  refine ⟨s₂, ?_, ?_, ?_⟩
  · unfold destroy
    simp only [hrun₁, hrun₂, bind, Except.bind]
    cases Teardown.destroyMappers (r.fresh + 1) r.mappers s₂ with
    | error cause => rfl
    | ok s => rfl
  · rw [hevents₂, hevents₁, List.append_nil]
    exact List.flatMap_append.symm
  · intro a ha
    have hothers : a ∉ r.genericMapper.toList ++ r.nullMapper.toList := hchain ha
    rw [hcells₂ a fun hmem => hothers (List.mem_append_left _ hmem),
      hcells₁ a fun hmem => hothers (List.mem_append_right _ hmem)]

/-- A chain of at most one mapper is taken down with the traces it should
leave. -/
theorem destroyMappers_short {s : Teardown} (turns : Nat)
    (hlinked : Chain.Linked MapperNode.next s.cells r.mappers chain)
    (hcounts : ∀ a ∈ chain, ∀ n, s.cells a = some n → n.refCount = 1)
    (hshort : chain.length ≤ 1) :
    ∃ s', Teardown.destroyMappers (turns + 1) r.mappers s = .ok s' ∧
      s'.events = Teardown.ended chain ++ s.events := by
  cases chain with
  | nil =>
      have hnone : r.mappers = none := hlinked
      rw [hnone]
      exact ⟨s, rfl, rfl⟩
  | cons a rest =>
      obtain rfl : rest = [] := by
        simpa using hshort
      obtain ⟨hfirst, n, hn, hnext⟩ := hlinked
      rw [hfirst]
      exact ⟨_, Teardown.destroyChain_single turns hn (hcounts a (by simp) n hn) hnext, rfl⟩

/-- A shutdown goes right exactly when the chain has at most one mapper. -/
theorem shutsDown_iff_short (h : r.HeldOnce chain) :
    r.ShutsDown chain ↔ chain.length ≤ 1 := by
  obtain ⟨s, hdestroy, hevents, hcells⟩ := h.releases
  have hlinked : Chain.Linked MapperNode.next s.cells r.mappers chain :=
    h.linked.congr fun a ha n hn => ⟨n, (hcells a ha).trans hn, rfl⟩
  have hcounts : ∀ a ∈ chain, ∀ n, s.cells a = some n → n.refCount = 1 := by
    intro a ha n hn
    rw [hcells a ha] at hn
    exact h.counts a (List.mem_append_left _ (List.mem_append_left _ ha)) n hn
  constructor
  · rintro ⟨r', events, hrun, -⟩
    by_contra hlong
    obtain ⟨a, b, rest, rfl⟩ : ∃ a b rest, chain = a :: b :: rest := by
      match chain with
      | [] => simp at hlong
      | [a] => simp at hlong
      | a :: b :: rest => exact ⟨a, b, rest, rfl⟩
    have hchain : (a :: b :: rest).Nodup :=
      (List.nodup_append.mp (List.nodup_append.mp h.distinct).1).1
    have hfirst : r.mappers = some a := hlinked.1
    have hfault := Teardown.destroyChain_dangling (hfirst ▸ hlinked) hchain
      (h.length_le.trans (Nat.le_succ _)) hcounts
    rw [hdestroy, hfirst, Teardown.destroyMappers, hfault] at hrun
    cases hrun
  · intro hshort
    obtain ⟨s', hrun, hevents'⟩ := destroyMappers_short r.fresh hlinked hcounts hshort
    refine ⟨_, s'.events, by rw [hdestroy, hrun]; rfl, ?_⟩
    intro a ha
    have hall : s'.events = Teardown.ended (r.holds chain) := by
      rw [hevents', hevents, holds, List.append_assoc]
      exact List.flatMap_append.symm
    obtain ⟨hdecremented, hdeleted⟩ := Teardown.count_ended (r.holds chain) a
    rw [hall, hdecremented, hdeleted, List.count_eq_one_of_mem h.distinct ha]
    exact ⟨rfl, rfl⟩

/-! Two mappers in a chain, each with one reference. -/

def twoMappers : MapperRegistry where
  cells a := if a = 0 then some ⟨.evaluators fun _ => false, 1, some 1⟩
    else if a = 1 then some ⟨.typeIdList [], 1, none⟩ else none
  fresh := 2
  mappers := some 0
  nullMapper := none
  genericMapper := none
  mappersReady := true

theorem twoMappers_heldOnce : twoMappers.HeldOnce [0, 1] where
  below a n h := by
    change a < 2
    by_contra hge
    have hzero : a ≠ 0 := by omega
    have hone : a ≠ 1 := by omega
    simp [twoMappers, hzero, hone] at h
  linked := ⟨rfl, _, rfl, rfl, _, rfl, rfl⟩
  distinct := by decide
  counts a ha n hn := by
    have hcases : a = 0 ∨ a = 1 := by simpa [holds, twoMappers] using ha
    rcases hcases with rfl | rfl
    · obtain rfl := Option.some.inj hn
      rfl
    · obtain rfl := Option.some.inj hn
      rfl
  alone a ha := absurd ha (List.not_mem_nil)

theorem shutsDown_two : twoMappers.ShutsDown [0, 1] ↔ ([0, 1] : List Nat).length ≤ 1 :=
  shutsDown_iff_short twoMappers_heldOnce

/-- The first mapper calls a method on the second one after that one's count
reached 0. -/
theorem not_shutsDown_two :
    twoMappers.HeldOnce [0, 1] ∧
    twoMappers.destroy.toOption.isNone = true ∧ ¬ twoMappers.ShutsDown [0, 1] := by
  have hfault : twoMappers.destroy.toOption.isNone = true := by decide
  refine ⟨twoMappers_heldOnce, hfault, ?_⟩
  rintro ⟨r', events, hrun, -⟩
  rw [hrun] at hfault
  cases hfault

end MapperRegistry

end Lorica
