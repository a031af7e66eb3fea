import Lorica.UnknownOperations

/-!
Who counts on an argument list. `new ArgList` counts for the caller of `new`,
each `OpArgs` for itself, and `find` and `add_interface` for whom they hand the
list to. `add_interface` gives back what it took, unless it returns it; the
three evaluations give back nothing.
-/

namespace Lorica

open Machine

namespace OperationTable

variable {ι T : Type}

section Definitions

/-- `refcount_` of a list; 0 when there is none. -/
def refcount (t : OperationTable T) (a : Nat) : Int := ((t.lists a).map Prod.snd).getD 0

/-- How many `OpArgs` in the tree point to a list. -/
def nodes (t : OperationTable T) (a : Nat) : Nat :=
  t.head.total fun argSet => (argSet.map Prod.snd).count a

/-- What is counted beyond the nodes. -/
def surplus (t : OperationTable T) : Nat → Int := fun a => t.refcount a - t.nodes a

/-- There is no list at an address that is still to be given out, and nothing
points there. -/
def Tidy (t : OperationTable T) : Prop :=
  ∀ a, t.fresh ≤ a → t.lists a = none ∧ t.nodes a = 0

end Definitions

section Surplus

variable {cmp : Strcmp} {t : OperationTable T} {a b : Nat}

theorem refcount_of_some {l : ArgList T} {n : Int} (h : t.lists a = some (l, n)) :
    t.refcount a = n := by
  rw [refcount, h]
  rfl

theorem refcount_of_none (h : t.lists a = none) : t.refcount a = 0 := by
  rw [refcount, h]
  rfl

theorem tidy_empty : (empty : OperationTable T).Tidy := fun _ _ => ⟨rfl, rfl⟩

theorem Tidy.surplus_fresh (h : t.Tidy) : t.surplus t.fresh = 0 := by
  obtain ⟨hlists, hnodes⟩ := h t.fresh (le_refl _)
  rw [surplus, refcount_of_none hlists, hnodes]
  rfl

theorem addRef_refcount (h : (t.lists a).isSome) :
    (t.addRef a).refcount b = t.refcount b + if b = a then 1 else 0 := by
  obtain ⟨⟨l, n⟩, hl⟩ := Option.isSome_iff_exists.mp h
  by_cases hb : b = a
  · subst hb
    simp [refcount, addRef, hl]
  · simp [refcount, addRef, hb]

theorem addRef_surplus (h : (t.lists a).isSome) :
    (t.addRef a).surplus = t.surplus + Pi.single a 1 := by
  funext b
  have hnodes : (t.addRef a).nodes b = t.nodes b := rfl
  rw [Pi.add_apply, surplus, surplus, addRef_refcount h, hnodes, Pi.single_apply]
  ring

theorem removeRef_refcount (h : (t.lists a).isSome) :
    (t.removeRef a).refcount b = t.refcount b - if b = a then 1 else 0 := by
  obtain ⟨⟨l, n⟩, hl⟩ := Option.isSome_iff_exists.mp h
  by_cases hb : b = a
  · subst hb
    by_cases hn : n - 1 = 0
    · simp [refcount, removeRef, hl, hn]
    · simp [refcount, removeRef, hl, hn]
  · simp [refcount, removeRef, hb]

theorem findOrAdd_nodes (o : String) : (t.findOrAdd cmp o).nodes a = t.nodes a :=
  SteeredTree.total_ensure (V := List OpArgs) o rfl t.head

theorem findOrAdd_surplus (o : String) : (t.findOrAdd cmp o).surplus = t.surplus := by
  funext b
  rw [surplus, surplus, findOrAdd_nodes]
  rfl

/-- A list that is found has a node. -/
theorem nodes_pos {o r : String} (h : (t.find cmp o r).1 = some a) : 0 < t.nodes a := by
  rw [find_eq, chain] at h
  cases hnode : t.head.find? cmp.turn o with
  | none =>
      rw [hnode] at h
      cases h
  | some argSet =>
      rw [hnode, Option.getD_some] at h
      have hmem : (r, a) ∈ argSet := by
        obtain ⟨before, rest, heq, -⟩ := List.lookup_eq_some_iff.mp h
        simp [heq]
      have hcount : 0 < (argSet.map Prod.snd).count a :=
        List.count_pos_iff.mpr (List.mem_map_of_mem hmem)
      exact hcount.trans_le (SteeredTree.le_total
        (f := fun argSet => (argSet.map Prod.snd).count a) hnode)

theorem nodes_foldl_modify {h : SteeredTree String (List OpArgs)} {o : String}
    {argSet : List OpArgs} (hnode : h.find? cmp.turn o = some argSet) (ids : List String) :
    (ids.foldl (fun h repId => h.modify cmp.turn o (· ++ [(repId, a)])) h).total
        (fun argSet => (argSet.map Prod.snd).count b) =
      h.total (fun argSet => (argSet.map Prod.snd).count b) +
        if b = a then ids.length else 0 := by
  induction ids generalizing h argSet with
  | nil => simp
  | cons repId ids ih =>
      have hone : (h.modify cmp.turn o (· ++ [(repId, a)])).find? cmp.turn o =
          some (argSet ++ [(repId, a)]) := by
        rw [SteeredTree.find?_modify_self, hnode, Option.map_some]
      rw [List.foldl_cons, ih hone]
      have hadded : ((argSet ++ [(repId, a)]).map Prod.snd).count b =
          (argSet.map Prod.snd).count b + if b = a then 1 else 0 := by
        by_cases hb : b = a
        · simp [List.count_append, hb]
        · simp [List.count_append, hb, Ne.symm hb]
      rw [SteeredTree.total_modify (n := if b = a then 1 else 0) hnode hadded]
      split
      · rw [List.length_cons]
        ring
      · rfl

end Surplus

section Registering

variable (cmp : Strcmp) {t : OperationTable T} {b : Nat}
  (o : String) (l : ArgList T) (ids : List String) (wanted : Bool)

theorem register_nodes : (t.register cmp o l ids wanted).nodes b =
    t.nodes b + if b = t.fresh then ids.length else 0 := by
  have hnode := SteeredTree.find?_ensure_self cmp.turn_here o [] t.head
  rw [nodes, register_head, nodes_foldl_modify hnode,
    SteeredTree.total_ensure o (by rfl) t.head]
  rfl

theorem Tidy.register (h : t.Tidy) : (t.register cmp o l ids wanted).Tidy := by
  intro a ha
  rw [register_fresh] at ha
  obtain ⟨hlists, hnodes⟩ := h a (by omega)
  have hne : a ≠ t.fresh := by omega
  rw [register_lists_ne _ _ _ _ hne, register_nodes, if_neg hne]
  exact ⟨hlists, hnodes⟩

/-- A registration takes no more than it notes, and one reference if the list
is wanted. -/
theorem Tidy.register_surplus (h : t.Tidy) (hids : ids ≠ []) :
    (t.register cmp o l ids wanted).surplus =
      t.surplus + if wanted then Pi.single t.fresh 1 else 0 := by
  funext a
  rw [surplus, register_nodes, Pi.add_apply]
  by_cases ha : a = t.fresh
  · subst ha
    rw [refcount_of_some (register_lists_self o l ids wanted hids), h.surplus_fresh,
      (h t.fresh (le_refl _)).2]
    cases wanted <;> simp
  · rw [refcount, register_lists_ne _ _ _ _ ha, if_neg ha]
    cases wanted <;> simp [surplus, refcount, ha]

end Registering

/-! ## add_interface -/

/-- How many of the registrations `result` is set at. -/
def wantedAmong (d : Desired) (regs : List (Registration T)) : Nat :=
  (regs.filter (·.wanted d)).length

/-- The reference that `result` holds. -/
def reference (result : Option Nat) : Nat → Int :=
  result.elim 0 fun a => Pi.single a 1

theorem reference_pos (a : Nat) : 0 < reference (some a) :=
  Pi.single_pos.mpr zero_lt_one

section Notes

variable (cmp : Strcmp) (d : Desired) {p : Progress T}

/-- The reference an earlier `result` held is lost when it is set again. -/
theorem note_surplus (ht : p.table.Tidy) {r : Registration T} (hids : r.ids ≠ []) :
    (note cmp d p r).table.surplus - reference (note cmp d p r).result =
      p.table.surplus - reference p.result +
        if r.wanted d then reference p.result else 0 := by
  have hsurplus := ht.register_surplus cmp r.name r.list r.ids (r.wanted d) hids
  cases hwanted : r.wanted d with
  | false =>
      rw [hwanted] at hsurplus
      simp only [note, Progress.register, hwanted, hsurplus, Bool.false_eq_true, if_false]
      abel
  | true =>
      rw [hwanted] at hsurplus
      simp only [note, Progress.register, hwanted, hsurplus, if_true, reference, Option.elim_some]
      abel

theorem notes_tidy (regs : List (Registration T)) (ht : p.table.Tidy) :
    (regs.foldl (note cmp d) p).table.Tidy := by
  induction regs generalizing p with
  | nil => exact ht
  | cons r regs ih => exact ih (ht.register _ _ _ _ _)

/-- References are lost exactly when `result` is set a second time. -/
theorem notes_surplus {regs : List (Registration T)} (ht : p.table.Tidy)
    (hids : ∀ r ∈ regs, r.ids ≠ []) :
    let q := regs.foldl (note cmp d) p
    let settings := wantedAmong d regs + if p.result.isSome then 1 else 0
    (settings ≤ 1 → q.table.surplus - reference q.result =
      p.table.surplus - reference p.result) ∧
    (2 ≤ settings → p.table.surplus - reference p.result <
      q.table.surplus - reference q.result) := by
  induction regs generalizing p with
  | nil =>
      refine ⟨fun _ => rfl, fun htwice => ?_⟩
      simp only [wantedAmong, List.filter_nil, List.length_nil] at htwice
      split at htwice <;> omega
  | cons r regs ih =>
      obtain ⟨hr, hregs⟩ := List.forall_mem_cons.mp hids
      have htidy : (note cmp d p r).table.Tidy := ht.register _ _ _ _ _
      have hnote := note_surplus cmp d ht hr
      obtain ⟨honce, htwice⟩ := ih htidy hregs
      simp only [List.foldl_cons]
      cases hwanted : r.wanted d with
      | false =>
          have hresult : (note cmp d p r).result = p.result := by
            simp only [note, Progress.register, hwanted, Bool.false_eq_true, if_false]
          have hsame : wantedAmong d (r :: regs) = wantedAmong d regs := by
            simp [wantedAmong, hwanted]
          rw [hwanted] at hnote
          simp only [Bool.false_eq_true, if_false, add_zero] at hnote
          rw [hnote, hresult] at honce htwice
          rw [hsame]
          exact ⟨honce, htwice⟩
      | true =>
          have hset : (note cmp d p r).result.isSome := by
            simp only [note, Progress.register, hwanted, if_true, Option.isSome_some]
          have hmore : wantedAmong d (r :: regs) = wantedAmong d regs + 1 := by
            simp [wantedAmong, hwanted]
          rw [if_pos hset] at honce htwice
          rw [hwanted, if_pos rfl] at hnote
          rw [hmore]
          cases hold : p.result with
          | none =>
              rw [hold] at hnote
              rw [hnote] at honce htwice
              simpa [reference] using And.intro honce htwice
          | some o =>
              rw [hold] at hnote
              simp only [Option.isSome_some, if_true]
              refine ⟨fun h => absurd h (by omega), fun _ => ?_⟩
              have hlost : p.table.surplus - reference (some o) <
                  (note cmp d p r).table.surplus - reference (note cmp d p r).result := by
                rw [hnote]
                exact lt_add_of_pos_right _ (reference_pos o)
              rcases Nat.lt_or_ge (wantedAmong d regs + 1) 2 with hlast | hagain
              · rw [honce (by omega)]
                exact hlost
              · exact hlost.trans (htwice hagain)

end Notes

/-- Where a call of the repository raises: before the next registration, behind
`find_or_add`, or behind `new ArgList` while the list is filled in. -/
inductive Stage (T : Type) where
  | between
  | found
  | made (l : ArgList T)

namespace Stage

/-- A list that has been made and is pointed to from nowhere. -/
def orphans : Stage T → Option (Registration T) → Bool
  | .made _, some _ => true
  | _, _ => false

def leave (cmp : Strcmp) (stage : Stage T) (next : Option (Registration T))
    (t : OperationTable T) : OperationTable T :=
  match stage, next with
  | .found, some r => t.findOrAdd cmp r.name
  | .made l, some r => (t.findOrAdd cmp r.name).newList l
  | _, _ => t

end Stage

/-- What an `add_interface` leaves that is cut short by an exception of the
repository after `done` registrations; `result` goes out of scope. -/
def addInterfaceRaises (cmp : Strcmp) (prims : Primitives T) (repo : Repository ι T)
    (intDef : ι) (desired : Option String) (done : Nat) (stage : Stage T)
    (t : OperationTable T) : Except Fault (OperationTable T) := do
  let wantAttribute ← Desired.wantsAttribute desired
  let regs := registrations prims repo intDef
  let p := (regs.take done).foldl (note cmp ⟨desired, wantAttribute⟩) ⟨none, t⟩
  pure (stage.leave cmp regs[done]? p.table)

/-- The test with the `want_attribute` of this name. -/
def desire (desired : Option String) : Desired :=
  ⟨desired, (Desired.wantsAttribute desired).toOption.getD false⟩

section Adding

variable {cmp : Strcmp} {prims : Primitives T} {repo : Repository ι T} {I : ι}
  {desired : Option String} {t : OperationTable T}

theorem registration_ids {r : Registration T} (hr : r ∈ registrations prims repo I) :
    r.ids ≠ [] :=
  List.ne_nil_of_mem (registrations_from hr).1

/-- When the registrations end without a return, what `result` held is lost. -/
theorem notes_lost (cmp : Strcmp) (d : Desired) {regs : List (Registration T)} (ht : t.Tidy)
    (hids : ∀ r ∈ regs, r.ids ≠ []) :
    (wantedAmong d regs = 0 → (regs.foldl (note cmp d) ⟨none, t⟩).table.surplus = t.surplus) ∧
    (wantedAmong d regs ≠ 0 →
      t.surplus < (regs.foldl (note cmp d) ⟨none, t⟩).table.surplus) := by
  have hstart : (⟨none, t⟩ : Progress T).table.Tidy := ht
  obtain ⟨honce, htwice⟩ := notes_surplus cmp d hstart hids
  have hresult : (regs.foldl (note cmp d) ⟨none, t⟩).result = none ↔ wantedAmong d regs = 0 := by
    rw [notes_result_none, wantedAmong, List.length_eq_zero_iff, List.filter_eq_nil_iff]
    simp
  simp only [Option.isSome_none, Bool.false_eq_true, if_false, add_zero, reference,
    Option.elim_none, sub_zero] at honce htwice
  constructor
  · intro hnone
    have hsame := honce (by omega)
    rwa [hresult.mpr hnone, Option.elim_none, sub_zero] at hsame
  · intro hsome
    obtain ⟨a, ha⟩ := Option.ne_none_iff_exists'.mp (hresult.not.mpr hsome)
    rw [ha] at honce htwice
    have hheld := reference_pos a
    rcases Nat.lt_or_ge (wantedAmong d regs) 2 with hlast | hagain
    · rw [← honce (by omega)]
      exact sub_lt_self _ hheld
    · exact (htwice hagain).trans (sub_lt_self _ hheld)

theorem Tidy.newList (h : t.Tidy) (l : ArgList T) : (t.newList l).Tidy := by
  intro a ha
  change t.fresh + 1 ≤ a at ha
  obtain ⟨hlists, hnodes⟩ := h a (by omega)
  exact ⟨(Function.update_of_ne (by omega) _ _).trans hlists, hnodes⟩

theorem Tidy.newList_surplus (h : t.Tidy) (l : ArgList T) :
    (t.newList l).surplus = t.surplus + Pi.single t.fresh 1 := by
  funext a
  have hnodes : (t.newList l).nodes a = t.nodes a := rfl
  rw [surplus, hnodes, Pi.add_apply, Pi.single_apply, surplus]
  by_cases ha : a = t.fresh
  · subst ha
    have hlist : (t.newList l).lists t.fresh = some (l, 1) := Function.update_self ..
    rw [refcount_of_some hlist, refcount_of_none (h t.fresh (le_refl _)).1, if_pos rfl]
    ring
  · have hlist : (t.newList l).lists a = t.lists a := Function.update_of_ne ha ..
    rw [refcount, refcount, hlist, if_neg ha]
    ring

theorem Tidy.findOrAdd (h : t.Tidy) (cmp : Strcmp) (o : String) :
    (t.findOrAdd cmp o).Tidy := by
  intro a ha
  rw [findOrAdd_nodes]
  exact h a ha

theorem leave_tidy (h : t.Tidy) (stage : Stage T) (next : Option (Registration T)) :
    (stage.leave cmp next t).Tidy := by
  cases next with
  | none => cases stage <;> exact h
  | some r =>
      cases stage with
      | between => exact h
      | found => exact h.findOrAdd cmp r.name
      | made l => exact (h.findOrAdd cmp r.name).newList l

/-- Only a list that was not noted yet keeps a reference. -/
theorem leave_surplus (h : t.Tidy) (cmp : Strcmp) (stage : Stage T) (next : Option (Registration T)) :
    (stage.orphans next = false → (stage.leave cmp next t).surplus = t.surplus) ∧
    (stage.orphans next = true → t.surplus < (stage.leave cmp next t).surplus) := by
  cases next with
  | none => cases stage <;> exact ⟨fun _ => rfl, fun h => by cases h⟩
  | some r =>
      cases stage with
      | between => exact ⟨fun _ => rfl, fun h => by cases h⟩
      | found => exact ⟨fun _ => findOrAdd_surplus r.name, fun h => by cases h⟩
      | made l =>
          refine ⟨fun h => by (cases h), fun _ => ?_⟩
          have hmade := (h.findOrAdd cmp r.name).newList_surplus l
          rw [findOrAdd_surplus] at hmade
          change t.surplus < ((t.findOrAdd cmp r.name).newList l).surplus
          rw [hmade]
          exact lt_add_of_pos_right _ (Pi.single_pos.mpr zero_lt_one)

/-- The reference of the list that is returned is the caller's; no other is
taken if the name is met at most once. -/
theorem addInterface_surplus (ht : t.Tidy) {result : Option Nat} {t' : OperationTable T}
    (hadd : addInterface cmp prims repo I desired t = .ok (result, t')) :
    let settings := wantedAmong (desire desired) (registrations prims repo I)
    t'.Tidy ∧ (settings ≤ 1 → t'.surplus = t.surplus + reference result) ∧
      (2 ≤ settings → t.surplus + reference result < t'.surplus) := by
  obtain ⟨want, hwant, -⟩ := ok_of_bind hadd
  rw [addInterface_eq hwant] at hadd
  obtain ⟨rfl, rfl⟩ := Prod.mk.inj (Except.ok.inj hadd)
  have hdesire : desire desired = ⟨desired, want⟩ := by
    rw [desire, hwant]
    rfl
  have hstart : (⟨none, t⟩ : Progress T).table.Tidy := ht
  have hids : ∀ r ∈ registrations prims repo I, r.ids ≠ [] := fun r hr => registration_ids hr
  obtain ⟨honce, htwice⟩ := notes_surplus cmp ⟨desired, want⟩ hstart hids
  simp only [Option.isSome_none, Bool.false_eq_true, if_false, add_zero, reference,
    Option.elim_none, sub_zero] at honce htwice
  rw [hdesire]
  exact ⟨notes_tidy _ _ _ hstart, fun h => sub_eq_iff_eq_add.mp (honce h),
    fun h => lt_sub_iff_add_lt.mp (htwice h)⟩

/-- A call that is cut short loses the reference of `result` and that of the list
it was filling in. -/
theorem addInterfaceRaises_surplus (ht : t.Tidy) {done : Nat} {stage : Stage T}
    {t' : OperationTable T}
    (hadd : addInterfaceRaises cmp prims repo I desired done stage t = .ok t') :
    let regs := registrations prims repo I
    let careful := wantedAmong (desire desired) (regs.take done) = 0 ∧
      stage.orphans regs[done]? = false
    t'.Tidy ∧ (careful → t'.surplus = t.surplus) ∧ (¬ careful → t.surplus < t'.surplus) := by
  obtain ⟨want, hwant, hleave⟩ := ok_of_bind hadd
  obtain rfl := Except.ok.inj hleave
  have hdesire : desire desired = ⟨desired, want⟩ := by
    rw [desire, hwant]
    rfl
  have hids : ∀ r ∈ (registrations prims repo I).take done, r.ids ≠ [] := fun r hr =>
    registration_ids (List.mem_of_mem_take hr)
  have hstart : (⟨none, t⟩ : Progress T).table.Tidy := ht
  have htidy := notes_tidy cmp ⟨desired, want⟩ ((registrations prims repo I).take done) hstart
  obtain ⟨hnone, hsome⟩ := notes_lost cmp ⟨desired, want⟩ ht hids
  obtain ⟨hkept, horphan⟩ := leave_surplus htidy cmp stage (registrations prims repo I)[done]?
  rw [hdesire]
  refine ⟨leave_tidy htidy _ _, ?_, ?_⟩
  · rintro ⟨hwanted, hstage⟩
    rw [hkept hstage, hnone hwanted]
  · intro hcareless
    by_cases hwanted : wantedAmong ⟨desired, want⟩ ((registrations prims repo I).take done) = 0
    · have hstage := not_and.mp hcareless hwanted
      rw [← hnone hwanted]
      exact horphan (Bool.eq_true_of_not_eq_false hstage)
    · have hlost := hsome hwanted
      by_cases hstage : stage.orphans (registrations prims repo I)[done]? = false
      · rw [hkept hstage]
        exact hlost
      · exact hlost.trans (horphan (Bool.eq_true_of_not_eq_false hstage))

end Adding

end OperationTable

end Lorica
