import Lorica.TableFlags
import Lorica.Lib.Release

/-!
`~OperationTable`: the tree is deleted from the head down, and each `OpArgs`
gives back its reference to the list it points to. A list that is shared by
several interfaces is met once for each of them; it goes with the last one,
unless somebody has kept a reference.
-/

namespace Lorica

open Machine

namespace OperationTable

variable {T : Type}

/-! ## The destructors -/

/-- `args_->remove_ref ()` -/
def giveBack (a : Nat) (t : OperationTable T) : Except Fault (OperationTable T) :=
  match t.lists a with
  | none => .error .danglingPointer
  | some _ => .ok (t.removeRef a)

/-- `OpArgs::~OpArgs`, which deletes the next one. -/
def deleteOpArgs : List OpArgs → OperationTable T → Except Fault (OperationTable T)
  | [], t => .ok t
  | op :: next, t => t.giveBack op.2 >>= deleteOpArgs next

/-- `Operation::~Operation` -/
def deleteOperation :
    SteeredTree String (List OpArgs) → OperationTable T → Except Fault (OperationTable T)
  | .leaf, t => .ok t
  | .node _ argSet left right, t =>
      deleteOperation left t >>= fun t => deleteOperation right t >>= deleteOpArgs argSet

/-- `OperationTable::~OperationTable` -/
def destroy (t : OperationTable T) : Except Fault (OperationTable T) :=
  (deleteOperation t.head t).map fun t => { t with head := .leaf }

/-! ## The references in the tree -/

/-- The lists pointed to, in the order in which the pointers are deleted. -/
def pointers : SteeredTree String (List OpArgs) → List Nat
  | .leaf => []
  | .node _ argSet left right => pointers left ++ (pointers right ++ argSet.map Prod.snd)

theorem count_pointers (tree : SteeredTree String (List OpArgs)) (a : Nat) :
    (pointers tree).count a = tree.total fun argSet => (argSet.map Prod.snd).count a := by
  induction tree with
  | leaf => rfl
  | node key argSet left right ihl ihr =>
      simp only [pointers, List.count_append, SteeredTree.total, ihl, ihr]
      omega

/-- The table with other lists. -/
def withLists (t : OperationTable T) (lists : CountedObjects Nat (ArgList T)) :
    OperationTable T := { t with lists := lists }

theorem giveBack_eq (a : Nat) (t : OperationTable T) :
    t.giveBack a = (CountedObjects.release a t.lists).map t.withLists := by
  unfold giveBack CountedObjects.release
  cases hlist : t.lists a with
  | none => rfl
  | some c =>
      refine congrArg Except.ok (mapLists_ext rfl (fun b => ?_) rfl)
      simp only [removeRef, withLists]
      rcases eq_or_ne b a with rfl | hne
      · rw [if_pos rfl, Function.update_self, hlist, Option.bind_some]
      · rw [if_neg hne, Function.update_of_ne hne]

theorem deleteOpArgs_eq (argSet : List OpArgs) (t : OperationTable T) :
    deleteOpArgs argSet t =
      (CountedObjects.releaseAll (argSet.map Prod.snd) t.lists).map t.withLists := by
  induction argSet generalizing t with
  | nil => rfl
  | cons op next ih =>
      unfold deleteOpArgs
      rw [List.map_cons, CountedObjects.releaseAll, giveBack_eq]
      cases CountedObjects.release op.2 t.lists with
      | error cause => rfl
      | ok lists => exact ih (t.withLists lists)

/-- Deleting the tree is giving back the references in it. -/
theorem deleteOperation_eq (tree : SteeredTree String (List OpArgs)) (t : OperationTable T) :
    deleteOperation tree t =
      (CountedObjects.releaseAll (pointers tree) t.lists).map t.withLists := by
  induction tree generalizing t with
  | leaf => rfl
  | node key argSet left right ihl ihr =>
      unfold deleteOperation pointers
      rw [CountedObjects.releaseAll_append, ihl]
      cases CountedObjects.releaseAll (pointers left) t.lists with
      | error cause => rfl
      | ok lists =>
          change (deleteOperation right (t.withLists lists) >>= deleteOpArgs argSet) =
            (CountedObjects.releaseAll (pointers right ++ argSet.map Prod.snd) lists).map
              t.withLists
          rw [CountedObjects.releaseAll_append, ihr]
          change ((CountedObjects.releaseAll (pointers right) lists).map _ >>= _) = _
          cases CountedObjects.releaseAll (pointers right) lists with
          | error cause => rfl
          | ok lists' => exact deleteOpArgs_eq argSet (t.withLists lists')

/-- No list is met that is gone, if each is counted for the nodes that point to it. -/
theorem destroy_ok {t : OperationTable T}
    (h : ∀ a, 0 < t.nodes a → (t.nodes a : Int) ≤ t.refcount a) :
    ∃ t', t.destroy = .ok t' ∧
      ∀ a, t'.lists a = CountedObjects.less (t.nodes a) (t.lists a) := by
  have hnodes : ∀ a, (pointers t.head).count a = t.nodes a := count_pointers t.head
  have hcounted : ∀ a ∈ pointers t.head, ∃ l n, t.lists a = some (l, n) ∧
      ((pointers t.head).count a : Int) ≤ n := by
    intro a ha
    have hpos : 0 < t.nodes a := by
      rw [← hnodes]
      exact List.count_pos_iff.mpr ha
    have hle := h a hpos
    cases hlist : t.lists a with
    | none =>
        rw [refcount_of_none hlist] at hle
        omega
    | some entry =>
        obtain ⟨l, n⟩ := entry
        rw [refcount_of_some hlist] at hle
        exact ⟨l, n, rfl, by rw [hnodes]; exact hle⟩
  obtain ⟨lists, hrun, hleft⟩ := CountedObjects.releaseAll_ok hcounted
  refine ⟨{ t.withLists lists with head := .leaf }, ?_, fun a => ?_⟩
  · unfold destroy
    rw [deleteOperation_eq, hrun]
    rfl
  · rw [← hnodes]
    exact hleft a

end OperationTable

/-! ## After any run -/

namespace TableUse

open OperationTable

variable {ι : Type} {cmp : Strcmp} {prims : OperationTable.Primitives Nat}
variable {s s' : TableUse} {event : TableEvent ι}

/-- A list that is there is counted for somebody. -/
def Counted (t : OperationTable Nat) : Prop := t.AllLists fun _ n => 0 < n

theorem counted_of_same {t t' : OperationTable Nat} (h : Counted t) (hsame : t.SameCounts t') :
    Counted t' := by
  intro a l n hlist
  have hcount := hsame.counts a
  rw [hlist, Option.map_some] at hcount
  obtain ⟨⟨l', n'⟩, hold, rfl⟩ := Option.map_eq_some_iff.mp hcount.symm
  exact h a l' n' hold

theorem counted_of_deref {a : Nat} {l : ArgList Nat} {t : OperationTable Nat}
    {found : Except Fault (Option Nat × OperationTable Nat)}
    (hfound : ∀ p, found = .ok p → Counted p.2)
    (h : GenericEvaluator.deref found = .ok (a, l, t)) : Counted t :=
  hfound _ (GenericEvaluator.deref_ok h).1

theorem counted_of_find {ev : GenericEvaluator ι} {operation : String} {a : Nat}
    {l : ArgList Nat} {t t' : OperationTable Nat} (ht : Counted t)
    (h : GenericEvaluator.deref (.ok (t.find ev.cmp operation ev.typeId)) = .ok (a, l, t')) :
    Counted t' := by
  refine counted_of_deref (fun p hp => ?_) h
  obtain rfl := Except.ok.inj hp
  exact AllLists.find .positive ht operation ev.typeId

theorem counted_of_lookup {ev : GenericEvaluator ι} {operation : String} {a : Nat}
    {l : ArgList Nat} {t t' : OperationTable Nat} (ht : Counted t)
    (h : GenericEvaluator.deref (ev.lookup operation t) = .ok (a, l, t')) : Counted t' := by
  refine counted_of_deref (fun p hp => ?_) h
  unfold GenericEvaluator.lookup at hp
  rcases GenericEvaluator.find_cases ev.cmp operation ev.typeId t with hnone | ⟨b, hsome⟩
  · rw [hnone] at hp
    exact AllLists.addInterface .positive ht (fun _ _ => Int.one_pos) hp
  · rw [hsome] at hp
    obtain rfl := Except.ok.inj hp
    exact AllLists.addRef .positive ht b

theorem counted_of_after {frame : Frame} {x : EvalM Bool} (hafter : s.after frame x = some s')
    (hx : ∀ outcome frame', x.run { frame with table := s.table } = (outcome, frame') →
      (∀ cause, outcome ≠ .fault cause) →
        ∃ t : OperationTable Nat, Counted t ∧ t.SameCounts frame'.table) :
    Counted s'.table := by
  unfold after at hafter
  split at hafter
  · cases hafter
  · next outcome frame' hend hrun =>
      obtain rfl := Option.some.inj hafter
      obtain ⟨t, hcounted, hsame⟩ := hx outcome frame' hrun
        fun cause hfault => hend cause (hfault ▸ rfl)
      exact counted_of_same hcounted hsame

theorem counted_of_cutShort {repo : Repository ι Nat} {intDef : ι} {desired : Option String}
    {done : Nat} {stage : OperationTable.Stage Nat} (h : Counted s.table)
    (hcut : s.cutShort cmp prims repo intDef desired done stage = some s') :
    Counted s'.table := by
  obtain ⟨t, hraises, rfl⟩ := Option.map_eq_some_iff.mp hcut
  exact AllLists.addInterfaceRaises .positive h (fun _ _ => Int.one_pos)
    (fun _ _ => Int.one_pos) (ok_of_toOption hraises)

theorem counted_step (h : Counted s.table) (hstep : s.step cmp prims event = some s') :
    Counted s'.table := by
  cases event with
  | find opname repId =>
      obtain rfl := Option.some.inj hstep
      exact AllLists.find .positive h opname repId
  | addInterface repo intDef desired =>
      obtain ⟨p, hadd, rfl⟩ := Option.map_eq_some_iff.mp hstep
      exact AllLists.addInterface .positive h (fun _ _ => Int.one_pos) (ok_of_toOption hadd)
  | addInterfaceRaises repo intDef desired done stage => exact counted_of_cutShort h hstep
  | giveBack a =>
      obtain ⟨-, hstep⟩ := Option.ite_none_right_eq_some.mp hstep
      obtain rfl := Option.some.inj hstep
      exact AllLists.removeRef .positive h a
  | request ev frame operation reqPoa decoded =>
      refine counted_of_after hstep fun outcome frame' hrun hend => ?_
      obtain ⟨a, l, t, hfound, hsame⟩ := GenericEvaluator.evaluateRequest_found _ hrun hend
      exact ⟨t, counted_of_lookup h hfound, hsame⟩
  | requestRaises ev frame operation reqPoa decoded e done stage =>
      obtain ⟨hnone, hcut⟩ := Option.ite_none_right_eq_some.mp hstep
      exact counted_of_cutShort h ((after_requestRaising hnone).symm.trans hcut)
  | reply ev frame operation reqPoa =>
      refine counted_of_after hstep fun outcome frame' hrun hend => ?_
      obtain ⟨a, l, t, hfound, hsame⟩ := GenericEvaluator.evaluateReply_found _ hrun hend
      exact ⟨t, counted_of_find h hfound, hsame⟩
  | exception ev frame operation reqPoa exType decoded =>
      refine counted_of_after hstep fun outcome frame' hrun hend => ?_
      obtain ⟨a, l, t, hfound, hsame⟩ := GenericEvaluator.evaluateException_found _ hrun hend
      exact ⟨t, counted_of_find h hfound, hsame⟩

theorem counted_of_reach (h : (system cmp prims ι).Reachable s) : Counted s.table := by
  refine h.invariant (I := fun s => Counted s.table) ?_
    fun s event s' hs _ hstep => counted_step hs hstep
  rintro s rfl
  exact AllLists.create .positive cmp prims fun _ _ => Int.one_pos

theorem excess_nonneg (h : (system cmp prims ι).Reachable s) : 0 ≤ s.excess := by
  rcases (reach_careful_or h).2 with hcareful | hpos
  · exact (excess_of_careful hcareful).2.ge
  · exact hpos.le

/-- After any run the table can be destroyed: no list is met that is gone. What is
left of each list is what it was counted for beyond the nodes, so that everything
is freed exactly if every step was a careful one and nobody holds a list. -/
theorem destroy_frees (ι : Type) (cmp : Strcmp) (prims : OperationTable.Primitives Nat)
    {s : TableUse} (h : (system cmp prims ι).Reachable s) :
    ∃ t, s.table.destroy = .ok t ∧
      (∀ a l n, t.lists a = some (l, n) →
        (s.table.lists a).map Prod.fst = some l ∧ n = s.table.surplus a ∧ 0 < n) ∧
      (∀ a, t.lists a = none ↔ s.table.surplus a = 0) ∧
      ((∀ a, t.lists a = none) ↔ (∀ a, s.held a = 0) ∧
        (system cmp prims ι).Reach (fun _ event => Careful prims event) s) := by
  have hfair := excess_nonneg h
  have hat : ∀ a, (s.table.nodes a : Int) + s.held a ≤ s.table.refcount a := by
    intro a
    have hnonneg := hfair a
    simp only [excess, OperationTable.surplus, Pi.sub_apply, Pi.zero_apply] at hnonneg
    omega
  have hcovered : ∀ a, 0 < s.table.nodes a → (s.table.nodes a : Int) ≤ s.table.refcount a := by
    intro a _
    have hcount := hat a
    omega
  obtain ⟨t, hdestroy, hleft⟩ := destroy_ok hcovered
  have hfreed : ∀ a, t.lists a = none ↔ s.table.surplus a = 0 := by
    intro a
    have hcount := hat a
    rw [hleft, surplus]
    cases hlist : s.table.lists a with
    | none =>
        rw [refcount_of_none hlist] at hcount ⊢
        refine ⟨fun _ => by omega, fun _ => rfl⟩
    | some entry =>
        obtain ⟨l, n⟩ := entry
        have hpos : 0 < n := counted_of_reach h a l n hlist
        rw [refcount_of_some hlist] at hcount ⊢
        simp only [CountedObjects.less]
        split
        · exact ⟨fun _ => by omega, fun _ => rfl⟩
        · next hless =>
            refine ⟨fun hnone => (by cases hnone), fun hzero => ?_⟩
            have hall : s.table.nodes a ≠ 0 ∧ n = s.table.nodes a := ⟨by omega, by omega⟩
            exact absurd hall hless
  refine ⟨t, hdestroy, ?_, hfreed, ?_, ?_⟩
  · intro a l n hlist
    have hcount := hat a
    have hne : s.table.surplus a ≠ 0 := fun hzero => by
      rw [(hfreed a).mpr hzero] at hlist
      cases hlist
    rw [hleft] at hlist
    rw [surplus] at hne ⊢
    cases hold : s.table.lists a with
    | none =>
        rw [hold] at hlist
        cases hlist
    | some entry =>
        obtain ⟨l', n'⟩ := entry
        rw [refcount_of_some hold] at hcount hne ⊢
        rw [hold] at hlist
        simp only [CountedObjects.less] at hlist
        split at hlist
        · cases hlist
        · cases hlist
          exact ⟨rfl, rfl, by omega⟩
  · intro hall
    have hzero : ∀ a, s.table.surplus a = 0 := fun a => (hfreed a).mp (hall a)
    have hheld : ∀ a, s.held a = 0 := by
      intro a
      have hcount := hat a
      have hsurplus := hzero a
      rw [surplus] at hsurplus
      omega
    refine ⟨hheld, (reach_careful_or h).2.resolve_right fun hpos => hpos.ne ?_⟩
    funext a
    simp [excess, hzero a, hheld a]
  · rintro ⟨hheld, hcareful⟩ a
    have hexcess := congrFun (excess_of_careful hcareful).2 a
    simp only [excess, Pi.sub_apply, Pi.zero_apply, hheld a] at hexcess
    exact (hfreed a).mpr (by simpa using hexcess)

/-- Two requests leave their references; the list outlives the table. -/
theorem destroy_frees_asked_twice :
    ∃ s t, (system .sign ⟨0, 1, 2⟩ Unit).Reachable s ∧ s.table.destroy = .ok t ∧
      (t.lists 1).map Prod.snd = some 2 ∧ t.lists 0 = none ∧
      ¬ (system .sign ⟨0, 1, 2⟩ Unit).Reach (fun _ event => Careful ⟨0, 1, 2⟩ event) s := by
  obtain ⟨s, hs⟩ := Option.isSome_iff_exists.mp (show
    ((system .sign ⟨0, 1, 2⟩ Unit).replay (fun _ _ => True)
      ⟨OperationTable.create .sign ⟨0, 1, 2⟩, fun _ => 0⟩ askedTwice).isSome by decide)
  have hreach : (system .sign ⟨0, 1, 2⟩ Unit).Reachable s :=
    System.Reach.of_replay (.start rfl) _ hs
  obtain ⟨t, hdestroy, -, -, hall⟩ := destroy_frees Unit .sign ⟨0, 1, 2⟩ hreach
  have hread : s.table.destroy.toOption.map (fun t =>
      ((t.lists 1).map Prod.snd, (t.lists 0).isNone)) = some (some 2, true) :=
    System.replay_read (fun s => s.table.destroy.toOption.map fun t =>
      ((t.lists 1).map Prod.snd, (t.lists 0).isNone)) hs (by decide)
  rw [hdestroy] at hread
  obtain ⟨hone, hzero⟩ := Prod.mk.inj (Option.some.inj hread)
  have hheld : ∀ a, s.held a = 0 := fun a =>
    System.replay_read (fun s => s.held a) hs rfl
  refine ⟨s, t, hreach, hdestroy, hone, Option.isNone_iff_eq_none.mp hzero, fun hcareful => ?_⟩
  rw [hall.mpr ⟨hheld, hcareful⟩ 1] at hone
  cases hone

end TableUse

end Lorica
