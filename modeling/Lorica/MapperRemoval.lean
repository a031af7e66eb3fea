import Lorica.MapperChain

/-!
`remove_proxy_mapper`: taking a mapper out of the chain. At the head the chain's
reference is given up, but `next` has counted the mapper behind it first.
Further down a link is led past the mapper, and nobody's reference is given up.
-/

namespace Lorica

open Machine

namespace MapperRegistry

section Definitions

/-- `next`, which counts the mapper that it returns. -/
def nextMapper (cells : Nat → Option MapperNode) (a : Nat) :
    Except Fault (Option Nat × (Nat → Option MapperNode)) :=
  match cells a with
  | none => .error .danglingPointer
  | some n =>
      match n.next with
      | none => .ok (none, cells)
      | some b =>
          match cells b with
          | none => .error .danglingPointer
          | some m =>
              .ok (some b, Function.update cells b (some { m with refCount := m.refCount + 1 }))

def removeProxyMapper (r : MapperRegistry) (mapper : Nat) : Except Fault MapperRegistry :=
  match r.mappers with
  | none => .ok r
  | some first =>
      if first = mapper then do
        let (newHead, cells) ← nextMapper r.cells first
        let cells ← decrRefcount cells (r.fresh + 1) first
        return { r with cells := cells, mappers := newHead }
      else
        (Chain.unlink MapperNode.next setNext r.cells r.fresh first mapper).map fun cells =>
          { r with cells := cells }

/-- So many owners of a mapper release it, one after the other. -/
def releaseTimes (r : MapperRegistry) (mapper : Nat) : Nat → Except Fault MapperRegistry
  | 0 => .ok r
  | k + 1 => do
      let r ← r.releaseTimes mapper k
      let cells ← decrRefcount r.cells (r.fresh + 1) mapper
      return { r with cells := cells }

/-- `ref_count_` of a mapper that is there. -/
def countOf (r : MapperRegistry) (a : Nat) : Option Int := (r.cells a).map (·.refCount)

/-- A chain that has a reference to each of its mappers. What a count has
beyond one belongs to owners outside. -/
structure Chained (r : MapperRegistry) (chain : List Nat) : Prop where
  below : ∀ a n, r.cells a = some n → a < r.fresh
  linked : Chain.Linked MapperNode.next r.cells r.mappers chain
  distinct : chain.Nodup
  counted : ∀ a ∈ chain, ∀ n, r.cells a = some n → 1 ≤ n.refCount

/-- The mapper is out of the chain and the chain's reference is given up; no
other count differs, now or after releases by the owners outside. -/
structure RemovedFrom (r r' : MapperRegistry) (chain : List Nat) (mapper : Nat) : Prop where
  linked : Chain.Linked MapperNode.next r'.cells r'.mappers (chain.erase mapper)
  released : mapper ∈ chain → ∀ n, r.cells mapper = some n →
    r'.countOf mapper = if n.refCount = 1 then none else some (n.refCount - 1)
  others : ∀ b ≠ mapper, r'.countOf b = r.countOf b
  later : mapper ∈ chain → ∀ n, r.cells mapper = some n →
    ∀ k : Nat, (k : Int) < n.refCount → ∃ r'', r'.releaseTimes mapper k = .ok r'' ∧
      ∀ b ∈ chain.erase mapper, r''.countOf b = r'.countOf b
  absent : mapper ∉ chain → r' = r

def Removes (r : MapperRegistry) (chain : List Nat) (mapper : Nat) : Prop :=
  ∃ r', r.removeProxyMapper mapper = .ok r' ∧ RemovedFrom r r' chain mapper

end Definitions

section Counting

variable {r : MapperRegistry} {cells : Nat → Option MapperNode} {chain : List Nat} {a b : Nat}
  {n m : MapperNode}

theorem decrRefcount_shared (turns : Nat) (h : cells a = some n) (hcount : 1 < n.refCount) :
    decrRefcount cells (turns + 1) a =
      .ok (Function.update cells a (some { n with refCount := n.refCount - 1 })) := by
  have hpos : n.refCount - 1 > 0 := by omega
  simp only [decrRefcount, h, if_pos hpos]

/-- The last reference of a mapper; the destructor goes on. -/
theorem decrRefcount_last (turns : Nat) (h : cells a = some n) (hcount : n.refCount = 1)
    (hnext : n.next = some b) :
    decrRefcount cells (turns + 1) a = decrRefcount (Function.update cells a none) turns b := by
  simp [decrRefcount, h, hcount, hnext]

theorem decrRefcount_alone (turns : Nat) (h : cells a = some n) (hcount : 1 ≤ n.refCount)
    (hnext : n.next = none) :
    decrRefcount cells (turns + 1) a = .ok (Function.update cells a
      (if n.refCount = 1 then none else some { n with refCount := n.refCount - 1 })) := by
  rcases eq_or_ne n.refCount 1 with hone | hmore
  · simp [decrRefcount, h, hone, hnext]
  · rw [decrRefcount_shared turns h (by omega), if_neg hmore]

/-- A mapper that nothing stands behind can be released by all its owners. -/
theorem releaseTimes_alone (h : r.cells a = some n) (hnext : n.next = none) (k : Nat)
    (hk : (k : Int) ≤ n.refCount) :
    ∃ r', r.releaseTimes a k = .ok r' ∧
      ((k : Int) < n.refCount → r'.cells a = some { n with refCount := n.refCount - k }) := by
  induction k with
  | zero => exact ⟨r, rfl, fun _ => by simpa using h⟩
  | succ k ih =>
      push_cast at hk
      obtain ⟨r', hrun, hcell⟩ := ih (by omega)
      obtain ⟨cells', hdecr, -, hmore, -⟩ := decrRefcount_spec r'.fresh (hcell (by omega))
        (by dsimp only; omega) fun _ => hnext
      refine ⟨{ r' with cells := cells' }, ?_, fun hlt => ?_⟩
      · simp only [releaseTimes, hrun, hdecr, bind, Except.bind]
        rfl
      · push_cast at hlt ⊢
        rw [hmore (by dsimp only; omega), sub_sub]

end Counting

/-! ## Removal -/

section Removal

variable {r : MapperRegistry} {chain rest : List Nat} {a b mapper : Nat} {n m : MapperNode}

theorem Chained.length_le (h : r.Chained chain) : chain.length ≤ r.fresh :=
  Chain.length_le_of_below h.distinct fun a ha =>
    (h.linked.live ha).elim fun n hn => h.below a n hn

/-- What is not in the chain is not found. -/
theorem removeProxyMapper_absent (h : r.Chained chain) (hmapper : mapper ∉ chain) :
    r.removeProxyMapper mapper = .ok r := by
  have hlinked := h.linked
  cases chain with
  | nil =>
      have hnone : r.mappers = none := hlinked
      simp only [removeProxyMapper, hnone]
  | cons first rest =>
      have hfirst : r.mappers = some first := hlinked.1
      rw [hfirst] at hlinked
      have hne : first ≠ mapper := (List.ne_of_not_mem_cons hmapper).symm
      simp only [removeProxyMapper, hfirst, if_neg hne]
      rw [Chain.unlink_absent hlinked h.length_le (List.not_mem_of_not_mem_cons hmapper), ← hfirst]
      rfl

/-- Behind the head the chain is closed, and no count changes. -/
theorem removeProxyMapper_inner (h : r.Chained (a :: rest)) (hmapper : mapper ∈ rest) :
    ∃ r', r.removeProxyMapper mapper = .ok r' ∧
      Chain.Linked MapperNode.next r'.cells r'.mappers (a :: rest.erase mapper) ∧
      ∀ b, r'.countOf b = r.countOf b := by
  have hlinked := h.linked
  have hfirst : r.mappers = some a := hlinked.1
  rw [hfirst] at hlinked
  have hne : a ≠ mapper := fun heq => (List.nodup_cons.mp h.distinct).1 (heq ▸ hmapper)
  have hset : ∀ n q, (setNext n q).next = q := fun _ _ => rfl
  obtain ⟨cells', hrun, hlinked', hframe, hlinks⟩ :=
    Chain.unlink_linked hset hlinked h.distinct h.length_le hmapper
  refine ⟨{ r with cells := cells' }, ?_, ?_, fun b => ?_⟩
  · simp only [removeProxyMapper, hfirst, if_neg hne, hrun]
    rfl
  · rw [hfirst]
    exact hlinked'
  · unfold countOf
    dsimp only
    cases hb : r.cells b with
    | none =>
        have hout : b ∉ a :: rest.erase mapper := by
          intro hmem
          obtain ⟨n, hn⟩ := hlinked.live
            ((List.cons_subset_cons a List.erase_subset) hmem)
          rw [hn] at hb
          cases hb
        rw [hframe b hout, hb]
    | some n =>
        obtain ⟨q, hn | hn⟩ := hlinks b n hb
        · rw [hn]
        · rw [hn]
          rfl

/-- A mapper on its own in the chain. -/
theorem removes_single (h : r.Chained [mapper]) : r.Removes [mapper] mapper := by
  obtain ⟨hfirst, n, hn, hnext⟩ := h.linked
  have hcount := h.counted mapper List.mem_cons_self n hn
  have hdecr := decrRefcount_alone r.fresh hn hcount hnext
  generalize hleft : (if n.refCount = 1 then none
    else some { n with refCount := n.refCount - 1 }) = left at hdecr
  let r' : MapperRegistry :=
    { r with cells := Function.update r.cells mapper left, mappers := none }
  have hself : r'.cells mapper = left := Function.update_self ..
  refine ⟨r', ?_, ⟨?_, ?_, ?_, ?_, fun hout => absurd List.mem_cons_self hout⟩⟩
  · have hempty : n.next = none := hnext
    simp only [removeProxyMapper, hfirst, if_true, nextMapper, hn, hempty, hdecr, bind, Except.bind]
    rfl
  · rw [List.erase_cons_head]
    rfl
  · intro _ n' hn'
    obtain rfl := Option.some.inj (hn.symm.trans hn')
    unfold countOf
    rw [hself, ← hleft]
    split_ifs <;> rfl
  · intro b hb
    have hkept : r'.cells b = r.cells b := Function.update_of_ne hb ..
    unfold countOf
    rw [hkept]
  · intro _ n' hn' k hk
    obtain rfl := Option.some.inj (hn.symm.trans hn')
    rw [List.erase_cons_head]
    rcases eq_or_ne n.refCount 1 with hone | hmore
    · obtain rfl : k = 0 := by omega
      exact ⟨r', rfl, fun b hb => absurd hb List.not_mem_nil⟩
    · rw [if_neg hmore] at hleft
      obtain ⟨r'', hrun, -⟩ := releaseTimes_alone (hself.trans hleft.symm) hnext k
        (by dsimp only; omega)
      exact ⟨r'', hrun, fun b hb => absurd hb List.not_mem_nil⟩

theorem removeProxyMapper_head (hfirst : r.mappers = some mapper)
    (hn : r.cells mapper = some n) (hnext : n.next = some b) (hm : r.cells b = some m) :
    r.removeProxyMapper mapper =
      (decrRefcount (Function.update r.cells b (some { m with refCount := m.refCount + 1 }))
        (r.fresh + 1) mapper).map fun cells => { r with cells := cells, mappers := some b } := by
  simp only [removeProxyMapper, hfirst, if_true, nextMapper, hn, hnext, hm, bind, Except.bind]
  cases decrRefcount (Function.update r.cells b (some { m with refCount := m.refCount + 1 }))
    (r.fresh + 1) mapper with
  | error cause => rfl
  | ok cells => rfl

/-- The head of a longer chain, with no owner outside. -/
theorem removes_head (h : r.Chained (mapper :: b :: rest)) (hcount : r.countOf mapper = some 1) :
    r.Removes (mapper :: b :: rest) mapper := by
  obtain ⟨hfirst, n, hn, hnext, m, hm, hrest⟩ := h.linked
  have hnotMem := (List.nodup_cons.mp h.distinct).1
  have hne : b ≠ mapper := fun heq => hnotMem (heq ▸ List.mem_cons_self)
  have hone : n.refCount = 1 := by simpa [countOf, hn] using hcount
  have hpos := h.counted b (List.mem_cons_of_mem _ List.mem_cons_self) m hm
  have hhead := removeProxyMapper_head hfirst hn hnext hm
  obtain ⟨turns, hturns⟩ : ∃ turns, r.fresh = turns + 1 :=
    Nat.exists_eq_succ_of_ne_zero (Nat.ne_zero_of_lt (h.below b m hm))
  -- the destructor takes back what `next` has counted
  have hcells : decrRefcount (Function.update r.cells b
      (some { m with refCount := m.refCount + 1 })) (r.fresh + 1) mapper =
        .ok (Function.update r.cells mapper none) := by
    rw [decrRefcount_last r.fresh ((Function.update_of_ne hne.symm ..).trans hn) hone hnext, hturns,
      decrRefcount_shared (n := { m with refCount := m.refCount + 1 }) turns
        ((Function.update_of_ne hne ..).trans (Function.update_self ..)) (by dsimp only; omega)]
    congr 1
    funext c
    rcases eq_or_ne c b with rfl | hcb
    · rw [Function.update_self, Function.update_of_ne hne, hm, add_sub_cancel_right]
    · rw [Function.update_of_ne hcb]
      rcases eq_or_ne c mapper with rfl | hcm
      · rw [Function.update_self, Function.update_self]
      · rw [Function.update_of_ne hcm, Function.update_of_ne hcb, Function.update_of_ne hcm]
  rw [hcells] at hhead
  let r' : MapperRegistry :=
    { r with cells := Function.update r.cells mapper none, mappers := some b }
  refine ⟨r', hhead, ⟨?_, ?_, ?_, ?_, fun hout => absurd List.mem_cons_self hout⟩⟩
  · rw [List.erase_cons_head]
    have hbehind : Chain.Linked MapperNode.next r.cells (some b) (b :: rest) := ⟨rfl, m, hm, hrest⟩
    refine hbehind.congr fun c hc n' hn' => ⟨n', ?_, rfl⟩
    have hcm : c ≠ mapper := fun heq => hnotMem (heq ▸ hc)
    exact (Function.update_of_ne hcm ..).trans hn'
  · intro _ n' hn'
    obtain rfl := Option.some.inj (hn.symm.trans hn')
    have hgone : r'.cells mapper = none := Function.update_self ..
    unfold countOf
    rw [if_pos hone, hgone]
    rfl
  · intro c hc
    have hkept : r'.cells c = r.cells c := Function.update_of_ne hc ..
    unfold countOf
    rw [hkept]
  · intro _ n' hn' k hk
    obtain rfl := Option.some.inj (hn.symm.trans hn')
    obtain rfl : k = 0 := by omega
    exact ⟨r', rfl, fun _ _ => rfl⟩

/-- The head of a longer chain, with an owner outside: the mapper behind it is
counted once too often. -/
theorem removeProxyMapper_shared (h : r.Chained (mapper :: b :: rest))
    (hcount : r.countOf mapper ≠ some 1) :
    ∃ r', r.removeProxyMapper mapper = .ok r' ∧ r'.countOf b ≠ r.countOf b := by
  obtain ⟨hfirst, n, hn, hnext, m, hm, hrest⟩ := h.linked
  have hne : b ≠ mapper := fun heq => (List.nodup_cons.mp h.distinct).1 (heq ▸ List.mem_cons_self)
  have hpos := h.counted mapper List.mem_cons_self n hn
  have hshared : 1 < n.refCount := by
    refine lt_of_le_of_ne hpos fun hone => hcount ?_
    unfold countOf
    rw [hn, Option.map_some, ← hone]
  have hhead := removeProxyMapper_head hfirst hn hnext hm
  rw [decrRefcount_shared r.fresh ((Function.update_of_ne hne.symm ..).trans hn) hshared] at hhead
  refine ⟨_, hhead, ?_⟩
  unfold countOf
  dsimp only
  rw [Function.update_of_ne hne, Function.update_self, hm]
  simp

/-- For every chain, every mapper and every number of owners outside: removal
does what it should exactly if the mapper is not in the chain, or is the whole
chain, or is the head and the chain alone has a reference to it. -/
theorem removes_iff (h : r.Chained chain) (mapper : Nat) :
    r.Removes chain mapper ↔ mapper ∉ chain ∨ chain = [mapper] ∨
      (chain.head? = some mapper ∧ r.countOf mapper = some 1) := by
  constructor
  · rintro ⟨r', hrun, hremoved⟩
    by_cases hmem : mapper ∈ chain
    · refine .inr ?_
      cases chain with
      | nil => exact absurd hmem List.not_mem_nil
      | cons a rest =>
          rcases eq_or_ne a mapper with rfl | hne
          · cases rest with
            | nil => exact .inl rfl
            | cons b rest =>
                refine .inr ⟨rfl, ?_⟩
                by_contra hcount
                obtain ⟨r₁, hrun₁, hchanged⟩ := removeProxyMapper_shared h hcount
                obtain rfl := Except.ok.inj (hrun.symm.trans hrun₁)
                have hba : b ≠ a := fun heq =>
                  (List.nodup_cons.mp h.distinct).1 (heq ▸ List.mem_cons_self)
                exact hchanged (hremoved.others b hba)
          · have hrest := (List.mem_cons.mp hmem).resolve_left hne.symm
            obtain ⟨r₁, hrun₁, -, hkept⟩ := removeProxyMapper_inner h hrest
            obtain rfl := Except.ok.inj (hrun.symm.trans hrun₁)
            obtain ⟨n, hn⟩ := h.linked.live hmem
            have hreleased := hremoved.released hmem n hn
            have hcount : r.countOf mapper = some n.refCount := by
              unfold countOf
              rw [hn]
              rfl
            rw [hkept, hcount] at hreleased
            split_ifs at hreleased
            have heq := Option.some.inj hreleased
            omega
    · exact .inl hmem
  · rintro (habsent | rfl | ⟨hhead, hcount⟩)
    · refine ⟨r, removeProxyMapper_absent h habsent, ⟨?_, ?_, fun _ _ => rfl, ?_, fun _ => rfl⟩⟩
      · rw [List.erase_of_not_mem habsent]
        exact h.linked
      · exact fun hmem => absurd hmem habsent
      · exact fun hmem => absurd hmem habsent
    · exact removes_single h
    · cases chain with
      | nil => cases hhead
      | cons a rest =>
          obtain rfl := Option.some.inj hhead
          cases rest with
          | nil => exact removes_single h
          | cons b rest => exact removes_head h hcount

/-! Three mappers; the first two have an owner outside. -/

def ownedMappers : MapperRegistry where
  cells a := if a = 0 then some ⟨.typeIdList [], 2, some 1⟩
    else if a = 1 then some ⟨.typeIdList [], 2, some 2⟩
    else if a = 2 then some ⟨.typeIdList [], 1, none⟩ else none
  fresh := 3
  mappers := some 0
  nullMapper := none
  genericMapper := none
  mappersReady := true

theorem ownedMappers_chained : ownedMappers.Chained [0, 1, 2] where
  below a n h := by
    change a < 3
    by_contra hge
    have hzero : a ≠ 0 := by omega
    have hone : a ≠ 1 := by omega
    have htwo : a ≠ 2 := by omega
    simp [ownedMappers, hzero, hone, htwo] at h
  linked := ⟨rfl, _, rfl, rfl, _, rfl, rfl, _, rfl, rfl⟩
  distinct := by decide
  counted a ha n hn := by
    have hcases : a = 0 ∨ a = 1 ∨ a = 2 := by simpa using ha
    rcases hcases with rfl | rfl | rfl
    · obtain rfl := Option.some.inj hn
      decide
    · obtain rfl := Option.some.inj hn
      decide
    · obtain rfl := Option.some.inj hn
      decide

theorem removes_iff_owned :
    ownedMappers.Removes [0, 1, 2] 0 ↔ 0 ∉ ([0, 1, 2] : List Nat) ∨ ([0, 1, 2] : List Nat) = [0] ∨
      (([0, 1, 2] : List Nat).head? = some 0 ∧ ownedMappers.countOf 0 = some 1) :=
  removes_iff ownedMappers_chained 0

/-- Removing the first mapper raises the count of the second one, and removing
the second one does not lower its own. -/
theorem not_removes_owned :
    ownedMappers.Chained [0, 1, 2] ∧ ¬ ownedMappers.Removes [0, 1, 2] 0 ∧
      ¬ ownedMappers.Removes [0, 1, 2] 1 := by
  refine ⟨ownedMappers_chained, ?_, ?_⟩
  · rintro ⟨r', hrun, hremoved⟩
    have hcount : (ownedMappers.removeProxyMapper 0).toOption.map (·.countOf 1) =
        some (some 3) := by decide
    rw [hrun] at hcount
    have hkept := hremoved.others 1 (by decide)
    exact absurd ((Option.some.inj hcount).symm.trans hkept) (by decide)
  · rintro ⟨r', hrun, hremoved⟩
    have hcount : (ownedMappers.removeProxyMapper 1).toOption.map (·.countOf 1) =
        some (some 2) := by decide
    rw [hrun] at hcount
    have hreleased := hremoved.released (by decide) _ rfl
    exact absurd ((Option.some.inj hcount).symm.trans hreleased) (by decide)

end Removal

end MapperRegistry

end Lorica
