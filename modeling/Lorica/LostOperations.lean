import Lorica.SharedCalls
import Lorica.TableGrowth

/-!
Which runs of the shared table lose an operation. A guard that lives for one
statement keeps no thread out of the loops behind it; what a run depends on is
whether a thread links an object at a pointer that another has set since it was
read as null.
-/

namespace Lorica

open Machine

namespace SharedTable

variable {ι T : Type} {cmp : Strcmp} {prims : OperationTable.Primitives T}
  {s s' : SharedTable T} {event : SharedEvent ι T} {t u : Nat}

/-- A step of a run without races adds to the table. -/
theorem Does.extends (h : Does cmp prims s event s') (hunraced : s.Unraced event) :
    s.memory.Extends s'.memory := by
  cases h with
  | calls | acquires | releases | raises => exact .refl _
  | finds hthread =>
      rw [advanceFind_memory]
      exact .refl _
  | adds hthread =>
      rw [advanceAdd_memory]
      exact AddCall.step_extends cmp fun p hp => hunraced p (by rwa [hthread])

/-! ## What holds of a run -/

variable (cmp) in
structure Sound (s : SharedTable T) : Prop where
  memory : s.memory.Kept cmp
  head : s.memory.pointers .head ≠ none
  threads : ∀ t, (s.threads t).Sound cmp s.memory
  returned : ∀ key ∈ s.returned, (s.memory.opArgs.lookup key).isSome
  answered : ∀ t, ∀ ans ∈ s.answers t, ans.due →
    ∃ a, ans.found = some a ∧ s.memory.opArgs.lookup (ans.opname, ans.repId) = some a

theorem Sound.moveTo (h : s.Sound cmp) {thread : SharedThread T}
    (hthread : thread.Sound cmp s.memory) : (s.moveTo t thread).Sound cmp where
  memory := h.memory
  head := h.head
  threads := SharedThread.stable.update (.refl _) h.threads hthread
  returned := h.returned
  answered := h.answered

theorem Sound.extend (h : s.Sound cmp) {m : TableMemory T} (hkept : m.Kept cmp)
    (hextends : s.memory.Extends m) : { s with memory := m }.Sound cmp where
  memory := hkept
  head := by
    obtain ⟨op, hop⟩ := Option.ne_none_iff_exists'.mp h.head
    simp only [hextends.pointers _ _ hop, ne_eq, reduceCtorEq, not_false_eq_true]
  threads t := SharedThread.stable _ _ _ hextends (h.threads t)
  returned key hkey := hextends.lookup_isSome (h.returned key hkey)
  answered t ans hans hdue := by
    obtain ⟨a, hfound, hlookup⟩ := h.answered t ans hans hdue
    exact ⟨a, hfound, hextends.lookup hlookup⟩

theorem Sound.relock (h : s.Sound cmp) (lock : RwLock) : { s with lock }.Sound cmp :=
  ⟨h.memory, h.head, h.threads, h.returned, h.answered⟩

theorem Sound.returns (h : s.Sound cmp) {keys : List (String × String)}
    (hkeys : ∀ key ∈ keys, (s.memory.opArgs.lookup key).isSome) :
    { s with returned := s.returned ++ keys }.Sound cmp :=
  ⟨h.memory, h.head, h.threads,
    fun key hkey => (List.mem_append.mp hkey).elim (h.returned key) (hkeys key), h.answered⟩

theorem Sound.answer (h : s.Sound cmp) {ans : TableAnswer}
    (hans : ans.due → ∃ a, ans.found = some a ∧
      s.memory.opArgs.lookup (ans.opname, ans.repId) = some a) :
    (s.answer t ans).Sound cmp where
  memory := h.memory
  head := h.head
  threads := h.threads
  returned := h.returned
  answered u ans' hmem hdue := by
    by_cases hu : u = t
    · subst hu
      simp only [SharedTable.answer, Function.update_self] at hmem
      rcases List.mem_append.mp hmem with hold | hnew
      · exact h.answered u ans' hold hdue
      · obtain rfl := List.mem_singleton.mp hnew
        exact hans hdue
    · simp only [SharedTable.answer, Function.update_of_ne hu] at hmem
      exact h.answered u ans' hmem hdue

theorem Sound.begins (h : s.Sound cmp) {call : SharedCall T} (hbegins : s.Begins ι prims call) :
    call.Sound cmp s.memory := by
  cases call with
  | find opname repId due p =>
      obtain ⟨rfl, hreturned⟩ := hbegins
      intro hdue
      obtain ⟨a, ha⟩ := Option.isSome_iff_exists.mp (h.returned _ (hreturned hdue))
      exact ⟨a, ha, h.memory.settled opname repId a ha⟩
  | addInterface c =>
      obtain ⟨hadded, hpc, -⟩ := hbegins
      exact ⟨by simp [hadded], by rw [hpc]; trivial⟩

theorem Sound.advanceFind (h : s.Sound cmp) {o r : String} {due : Bool} {p : TablePointer}
    (hthread : s.threads t = .running (.find o r due p)) :
    (s.advanceFind cmp t o r due p).Sound cmp := by
  have hcall := h.threads t
  rw [hthread] at hcall
  unfold SharedTable.advanceFind
  split
  · next q hgo =>
      refine h.moveTo fun hdue => ?_
      obtain ⟨a, hlookup, k, hends⟩ := hcall hdue
      obtain ⟨j, -, hj⟩ := hends.of_go hgo
      exact ⟨a, hlookup, j, hj⟩
  · next found hback =>
      have hanswer : (s.answer t ⟨o, r, due, found⟩).Sound cmp := by
        refine h.answer fun hdue => ?_
        obtain ⟨a, hlookup, k, hends⟩ := hcall hdue
        exact ⟨a, hends.of_back hback, hlookup⟩
      exact hanswer.moveTo trivial
  · exact h.moveTo trivial

theorem Sound.advanceAdd (h : s.Sound cmp) {c : AddCall T}
    (hthread : s.threads t = .running (.addInterface c))
    (hfree : ∀ p ∈ c.pc.links, s.memory.pointers p = none) :
    (s.advanceAdd cmp t c).Sound cmp := by
  have hcall := h.threads t
  rw [hthread] at hcall
  have hextends := AddCall.step_extends cmp hfree
  obtain ⟨hkept, hgoes⟩ := AddCall.step_sound h.memory h.head hcall hfree
  have hmemory := h.extend hkept hextends
  unfold SharedTable.advanceAdd
  dsimp only
  split
  · next c' hgo => exact hmemory.moveTo (hgoes c' hgo)
  · exact (hmemory.returns fun key hkey => hextends.lookup_isSome (hcall.added key hkey)).moveTo
      trivial
  · exact hmemory.moveTo trivial

theorem Sound.step (h : s.Sound cmp) (hunraced : s.Unraced event)
    (hstep : s.step cmp prims event = some s') : s'.Sound cmp := by
  cases does_of_step hstep with
  | calls event hidle hbegins => exact h.moveTo (h.begins hbegins)
  | @acquires t call lock hthread hlock =>
      have hcall := h.threads t
      rw [hthread] at hcall
      exact (h.relock lock).moveTo hcall
  | @releases t call hthread =>
      have hcall := h.threads t
      rw [hthread] at hcall
      exact (h.relock _).moveTo hcall
  | finds hthread => exact h.advanceFind hthread
  | adds hthread => exact h.advanceAdd hthread fun p hp => hunraced p (by rwa [hthread])
  | raises hthread => exact h.moveTo trivial

/-! ## The beginning -/

theorem kept_empty : (TableMemory.empty : TableMemory T).Kept cmp where
  owned p x _ hp := by cases hp
  settled o r a hlookup := by cases hlookup

/-- A new operation with its first `OpArgs`. -/
theorem kept_add {m : TableMemory T} {o : String} {p : TablePointer} (h : m.Kept cmp)
    (htoward : m.Toward cmp o p) (htree : p.isTree) (hfree : m.pointers p = none)
    (hnew : m.pointers (.argSet m.names.length) = none) (l : ArgList T) (r : String) (a : Nat) :
    (((m.apply (.operation p o)).apply (.argList l)).apply
      (.opArgs (.argSet m.names.length) o r a)).Kept cmp := by
  have hnode := htoward.operation htree hfree
  have hlists := TableMemory.apply_extends (m := m.apply (.operation p o)) (.argList l)
    (fun q hq => by cases hq)
  have hkept := h.operation htree hfree o
  have hlists' : ((m.apply (.operation p o)).apply (.argList l)).Kept cmp :=
    ⟨hkept.owned, hkept.settled⟩
  refine hlists'.newOpArgs (hlists.hasNode hnode).along ?_ a
  have hne : .argSet m.names.length ≠ p := by
    rintro rfl
    cases htree
  change (m.apply (.operation p o)).pointers (.argSet m.names.length) = none
  rw [TableMemory.operation_pointers, Function.update_of_ne hne]
  exact hnew

theorem below_is_a (cmp : Strcmp) : ∃ q, below cmp "_non_existent" "_is_a" 0 = some q := by
  refine Option.ne_none_iff_exists'.mp fun hnone => ?_
  exact absurd (below_none.mp hnone) (by decide)

/-- The table with the first of the constructor's operations. -/
def withIsA (prims : OperationTable.Primitives T) : TableMemory T :=
  ((TableMemory.empty.apply (.operation .head "_is_a")).apply (.argList prims.isA)).apply
    (.opArgs (.argSet 0) "_is_a" "IDL:org.omg/CORBA/Object:1.0" 0)

theorem create_eq {q : TablePointer} (hbelow : below cmp "_non_existent" "_is_a" 0 = some q) :
    TableMemory.create cmp prims =
      (((withIsA prims).apply (.operation q "_non_existent")).apply
        (.argList prims.nonExistent)).apply
        (.opArgs (.argSet 1) "_non_existent" "IDL:org.omg/CORBA/Object:1.0" 1) := by
  simp only [TableMemory.create, hbelow, Option.getD_some]
  rfl

theorem kept_create : (TableMemory.create cmp prims).Kept cmp := by
  have hfirst : (withIsA prims).Kept cmp :=
    kept_add kept_empty .head rfl rfl rfl prims.isA "IDL:org.omg/CORBA/Object:1.0" 0
  obtain ⟨q, hbelow⟩ := below_is_a cmp
  have hhead : (withIsA prims).pointers .head = some 0 := rfl
  have htoward : (withIsA prims).Toward cmp "_non_existent" q :=
    TableMemory.Toward.below .head rfl hhead rfl hbelow
  have hfree : (withIsA prims).pointers q = none := by
    rcases TableMemory.below_some hbelow with rfl | rfl <;> rfl
  rw [create_eq hbelow]
  exact kept_add hfirst htoward (TableMemory.below_isTree hbelow) hfree rfl
    prims.nonExistent "IDL:org.omg/CORBA/Object:1.0" 1

theorem create_head : (TableMemory.create cmp prims).pointers .head = some 0 := by
  obtain ⟨q, hbelow⟩ := below_is_a cmp
  rw [create_eq hbelow]
  rcases TableMemory.below_some hbelow with rfl | rfl <;> rfl

theorem sound_create : (create cmp prims).Sound cmp where
  memory := kept_create
  head := by simp [create, create_head]
  threads t := trivial
  returned key hkey := by cases hkey
  answered t ans hans := by cases hans

theorem sound_of_unraced (h : (system cmp prims ι).Reach Unraced s) : s.Sound cmp := by
  refine System.Reach.invariant (I := fun s => s.Sound cmp) ?_ ?_ h
  · rintro s rfl
    exact sound_create
  · intro s event s' hsound hunraced hstep
    exact hsound.step hunraced hstep

/-! ## The end of a search -/

variable (cmp) in
/-- A thread whose search comes to its list in so many of its own steps. -/
inductive EndsIn (m : TableMemory T) : SharedThread T → Nat → Prop where
  | running {o r : String} {due : Bool} {p : TablePointer} {a k : Nat}
      (h : Ends (m.look cmp o r) (some a) p k) :
      EndsIn m (.running (.find o r due p)) k
  | releasing {o r : String} {due : Bool} {p : TablePointer} {k : Nat}
      (h : EndsIn m (.running (.find o r due p)) k) :
      EndsIn m (.releasing (.find o r due p)) (k + 1)
  | acquiring {o r : String} {due : Bool} {p : TablePointer} {k : Nat}
      (h : EndsIn m (.releasing (.find o r due p)) k) :
      EndsIn m (.acquiring (.find o r due p)) (k + 1)

theorem EndsIn.mono {m m' : TableMemory T} {thread : SharedThread T} {k : Nat}
    (hextends : m.Extends m') (h : EndsIn cmp m thread k) : EndsIn cmp m' thread k := by
  induction h with
  | running h => exact .running (h.mono hextends.look_stays)
  | releasing _ ih => exact .releasing ih
  | acquiring _ ih => exact .acquiring ih

theorem EndsIn.pos {m : TableMemory T} {thread : SharedThread T} {k : Nat}
    (h : EndsIn cmp m thread k) : 0 < k := by
  cases h with
  | running h => cases h <;> exact Nat.succ_pos _
  | releasing _ | acquiring _ => exact Nat.succ_pos _

theorem Sound.endsIn (h : s.Sound cmp) {o r : String} {p : TablePointer}
    (hthread : s.threads t = .acquiring (.find o r true p) ∨
      s.threads t = .releasing (.find o r true p) ∨
      s.threads t = .running (.find o r true p)) :
    ∃ k, EndsIn cmp s.memory (s.threads t) k := by
  have hcall := h.threads t
  rcases hthread with hthread | hthread | hthread <;> rw [hthread] at hcall ⊢ <;>
    obtain ⟨a, -, k, hends⟩ := hcall rfl
  · exact ⟨k + 2, .acquiring (.releasing (.running hends))⟩
  · exact ⟨k + 1, .releasing (.running hends)⟩
  · exact ⟨k, .running hends⟩

/-- A turn of the loop answers or brings the thread nearer to the end. -/
theorem advanceFind_nearer {o r : String} {due : Bool} {p : TablePointer} {k : Nat}
    (hends : EndsIn cmp s.memory (.running (.find o r due p)) k) :
    (s.answers t).length < ((s.advanceFind cmp t o r due p).answers t).length ∨
      ∃ j, k = j + 1 ∧ EndsIn cmp (s.advanceFind cmp t o r due p).memory
        ((s.advanceFind cmp t o r due p).threads t) j := by
  obtain ⟨hwalk⟩ := hends
  unfold advanceFind
  split
  · next q hgo =>
      obtain ⟨j, hk, hj⟩ := hwalk.of_go hgo
      rw [moveTo_self]
      exact .inr ⟨j, hk, .running hj⟩
  · simp [moveTo, answer]
  · next hcrash => exact absurd hcrash hwalk.not_crash

/-- A step of the thread itself answers or brings it nearer to the end. -/
theorem Does.nearer {k : Nat} (h : Does cmp prims s event s')
    (hends : EndsIn cmp s.memory (s.threads event.thread) k) :
    (s.answers event.thread).length < (s'.answers event.thread).length ∨
      ∃ j, k = j + 1 ∧ EndsIn cmp s'.memory (s'.threads event.thread) j := by
  cases h with
  | calls event hidle =>
      rw [hidle] at hends
      cases hends
  | @acquires t call lock hthread hlock =>
      change EndsIn cmp s.memory (s.threads t) k at hends
      rw [hthread] at hends
      cases hends with
      | acquiring h => exact .inr ⟨_, rfl, (moveTo_self _ t _).symm ▸ h⟩
  | @releases t call hthread =>
      change EndsIn cmp s.memory (s.threads t) k at hends
      rw [hthread] at hends
      cases hends with
      | releasing h => exact .inr ⟨_, rfl, (moveTo_self _ t _).symm ▸ h⟩
  | @finds t o r due p hthread =>
      change EndsIn cmp s.memory (s.threads t) k at hends
      rw [hthread] at hends
      exact advanceFind_nearer hends
  | @adds t c hthread =>
      change EndsIn cmp s.memory (s.threads t) k at hends
      rw [hthread] at hends
      cases hends
  | @raises t c hthread =>
      change EndsIn cmp s.memory (s.threads t) k at hends
      rw [hthread] at hends
      cases hends

/-- What has been answered in a run stays answered. -/
theorem replay_answers {events : List (SharedEvent ι T)}
    (hrun : (system cmp prims ι).replay Unraced s events = some s') (t : Nat) :
    (s.answers t).length ≤ (s'.answers t).length := by
  induction events generalizing s with
  | nil =>
      obtain rfl := Option.some.inj hrun
      exact le_refl _
  | cons event events ih =>
      obtain ⟨hunraced, hrun⟩ := Option.ite_none_right_eq_some.mp hrun
      obtain ⟨middle, hstep, hrest⟩ := Option.bind_eq_some_iff.mp hrun
      exact ((does_of_step hstep).answers t).trans (ih hrest)

/-- A search that ends in so many steps is over when its thread has taken them. -/
theorem replay_ends {events : List (SharedEvent ι T)} {k : Nat}
    (hends : EndsIn cmp s.memory (s.threads t) k)
    (hrun : (system cmp prims ι).replay Unraced s events = some s')
    (hcount : k ≤ events.countP (·.advances t)) :
    (s.answers t).length < (s'.answers t).length := by
  induction events generalizing s k with
  | nil => exact absurd hends.pos (by simpa using hcount)
  | cons event events ih =>
      obtain ⟨hunraced, hrun⟩ := Option.ite_none_right_eq_some.mp hrun
      obtain ⟨middle, hstep, hrest⟩ := Option.bind_eq_some_iff.mp hrun
      have hdoes := does_of_step hstep
      have hgrown := hdoes.answers t
      by_cases ht : event.thread = t
      · subst ht
        rcases hdoes.nearer hends with hanswered | ⟨j, rfl, hj⟩
        · exact hanswered.trans_le (replay_answers hrest _)
        · refine hgrown.trans_lt (ih hj hrest ?_)
          rw [List.countP_cons] at hcount
          split at hcount <;> omega
      · obtain ⟨hthread, -⟩ := hdoes.frame (u := t) (Ne.symm ht)
        have hadvances : event.advances t = false :=
          Bool.eq_false_iff.mpr fun h => ht (advances_thread h)
        rw [List.countP_cons, hadvances] at hcount
        refine hgrown.trans_lt (ih ?_ hrest (by simpa using hcount))
        rw [hthread]
        exact hends.mono (hdoes.extends hunraced)

/-! ## One call at a time -/

/-- A call of `add_interface` goes on only while no other is under way. -/
def Serial (s : SharedTable T) : SharedEvent ι T → Prop
  | .advance t => ∀ u c c', s.threads t = .running (.addInterface c) →
      s.threads u = .running (.addInterface c') → u = t
  | .find .. | .addInterface .. | .raise _ => True

/-- A pointer that a thread has tested for null still is. -/
def Tested (m : TableMemory T) : SharedThread T → Prop
  | .acquiring (.addInterface c) | .releasing (.addInterface c) => c.pc = .between
  | .running (.addInterface c) => ∀ p ∈ c.pc.links, m.pointers p = none
  | .idle | .acquiring (.find ..) | .releasing (.find ..) | .running (.find ..) | .crashed => True

theorem Tested.links {m : TableMemory T} {thread : SharedThread T} (h : Tested m thread) :
    ∀ p ∈ thread.links, m.pointers p = none := by
  intro p hp
  unfold SharedThread.links at hp
  split at hp
  · exact h p hp
  · cases hp

/-- The step of a thread with what it leaves the others. -/
theorem tested_moveTo {m : TableMemory T} {thread : SharedThread T} (hthread : Tested m thread)
    (hothers : ∀ u, u ≠ t → Tested m (s.threads u)) :
    ∀ u, Tested m ((s.moveTo t thread).threads u) :=
  (Function.forall_update_iff s.threads fun _ thread => Tested m thread).mpr
    ⟨hthread, hothers⟩

/-- A thread that does not run a call of its own keeps what it tested in any
memory. -/
theorem Tested.other {m m' : TableMemory T} {thread : SharedThread T} (h : Tested m thread)
    (hrunning : ∀ c, thread ≠ .running (.addInterface c)) : Tested m' thread := by
  unfold Tested at h ⊢
  split
  · exact h
  · exact h
  · next c => exact absurd rfl (hrunning c)
  all_goals trivial

theorem advanceFind_tested (h : ∀ u, Tested s.memory (s.threads u)) (o r : String) (due : Bool)
    (p : TablePointer) : ∀ u, Tested (s.advanceFind cmp t o r due p).memory
      ((s.advanceFind cmp t o r due p).threads u) := by
  rw [advanceFind_memory]
  unfold advanceFind
  split
  · exact tested_moveTo trivial fun u _ => h u
  · exact tested_moveTo (s := s.answer t _) trivial fun u _ => h u
  · exact tested_moveTo trivial fun u _ => h u

theorem advanceAdd_tested {c : AddCall T} (h : ∀ u, Tested s.memory (s.threads u))
    (halone : ∀ u c', u ≠ t → s.threads u ≠ .running (.addInterface c')) :
    ∀ u, Tested (s.advanceAdd cmp t c).memory ((s.advanceAdd cmp t c).threads u) := by
  have hothers : ∀ u, u ≠ t →
      Tested (s.memory.apply (c.step cmp s.memory).1) (s.threads u) :=
    fun u hu => (h u).other fun c' => halone u c' hu
  rw [advanceAdd_memory]
  unfold advanceAdd
  dsimp only
  split
  · next c' hgo => exact tested_moveTo (fun p hp => AddCall.step_links hgo hp) hothers
  · exact tested_moveTo trivial hothers
  · exact tested_moveTo trivial hothers

theorem Does.tested (hdoes : Does cmp prims s event s') (hserial : s.Serial event)
    (h : ∀ u, Tested s.memory (s.threads u)) : ∀ u, Tested s'.memory (s'.threads u) := by
  cases hdoes with
  | @calls event call hidle hbegins =>
      refine tested_moveTo ?_ fun u _ => h u
      cases call with
      | find => trivial
      | addInterface c => exact hbegins.2.1
  | @acquires t call lock hthread hlock =>
      refine tested_moveTo ?_ fun u _ => h u
      have hcall := h t
      rw [hthread] at hcall
      cases call with
      | find => trivial
      | addInterface c => exact hcall
  | @releases t call hthread =>
      refine tested_moveTo ?_ fun u _ => h u
      have hcall := h t
      rw [hthread] at hcall
      cases call with
      | find => trivial
      | addInterface c =>
          intro p hp
          rw [show c.pc = .between from hcall] at hp
          cases hp
  | finds hthread => exact advanceFind_tested h _ _ _ _
  | @adds t c hthread =>
      exact advanceAdd_tested h fun u c' hu hthread' => hu (hserial u c c' hthread hthread')
  | raises hthread => exact tested_moveTo trivial fun u _ => h u

/-- Calls of `add_interface` that do not overlap do not race. -/
theorem unraced_of_serial (h : (system cmp prims ι).Reach Serial s) :
    (system cmp prims ι).Reach Unraced s := by
  have hboth : (system cmp prims ι).Reach Unraced s ∧ ∀ u, Tested s.memory (s.threads u) := by
    induction h with
    | start h =>
        obtain rfl := h
        exact ⟨.start rfl, fun _ => trivial⟩
    | @next s s' event _ hserial hstep ih =>
        obtain ⟨hreach, htested⟩ := ih
        refine ⟨.next hreach ?_ hstep, (does_of_step hstep).tested hserial htested⟩
        cases event with
        | advance t => exact (htested t).links
        | find | addInterface | raise => trivial
  exact hboth.1

theorem chain_addOne (t : OperationTable T) (o r : String) (a : Nat) (n : String) :
    ((t.findOrAdd cmp o).addSet cmp o r a).chain cmp n =
      t.chain cmp n ++ if n = o then [(r, a)] else [] := by
  have hhead : ((t.findOrAdd cmp o).addSet cmp o r a).head =
      (t.head.ensure cmp.turn o []).modify cmp.turn o (· ++ [(r, a)]) := rfl
  unfold OperationTable.chain
  rw [hhead]
  by_cases hn : n = o
  · rw [if_pos hn, hn, SteeredTree.find?_modify_self, SteeredTree.find?_ensure_self cmp.turn_here,
      Option.map_some, Option.getD_some]
  · rw [if_neg hn, SteeredTree.find?_modify_ne cmp.turn_here hn,
      SteeredTree.find?_ensure_ne cmp.turn_here hn, List.append_nil]

variable (cmp) in
/-- The table that the same `OpArgs` make when they are added one at a time, in the
order in which they were linked. -/
def inOrder (m : TableMemory T) : OperationTable T :=
  m.opArgs.foldl (fun t entry =>
    (t.findOrAdd cmp entry.1.1).addSet cmp entry.1.1 entry.1.2 entry.2) .empty

theorem inOrder_find (m : TableMemory T) (o r : String) :
    ((inOrder cmp m).find cmp o r).1 = m.opArgs.lookup (o, r) := by
  rw [OperationTable.find_eq]
  unfold inOrder
  induction m.opArgs using List.reverseRecOn with
  | nil => rfl
  | append_singleton entries entry ih =>
      obtain ⟨⟨o', r'⟩, a⟩ := entry
      rw [List.foldl_append, List.foldl_cons, List.foldl_nil, chain_addOne, List.lookup_append,
        List.lookup_append, ih]
      congr 1
      rw [TableMemory.lookup_singleton]
      by_cases ho : o = o'
      · rw [if_pos ho, TableMemory.lookup_singleton]
        simp [ho]
      · simp [ho]

/-- In a run without races a `find` that is due comes back with what it would come
back with if the calls had been made one after the other. -/
theorem answered_in_order (h : (system cmp prims ι).Reach Unraced s) {ans : TableAnswer}
    (hans : ans ∈ s.answers t) (hdue : ans.due) :
    ans.found = ((inOrder cmp s.memory).find cmp ans.opname ans.repId).1 := by
  obtain ⟨a, hfound, hlookup⟩ := (sound_of_unraced h).answered t ans hans hdue
  rw [inOrder_find, hfound, hlookup]

/-- No operation is lost in a run in which no thread links an object where another
thread has linked one since it looked. -/
theorem noneLost_of_unraced (ι : Type) (cmp : Strcmp) (prims : OperationTable.Primitives T)
    {s : SharedTable T} (h : (system cmp prims ι).Reach Unraced s) :
    NoneLost (system cmp prims ι) Unraced s := by
  have hsound := sound_of_unraced h
  refine ⟨hsound.answered, fun t opname repId p hthread => ?_⟩
  obtain ⟨k, hends⟩ := hsound.endsIn hthread
  exact ⟨k, fun events s' hrun hcount => replay_ends hends hrun hcount⟩

/-! Two interfaces without members of their own, each loaded by a thread. -/

def memberless (id : String) : Repository Unit Nat :=
  ⟨fun _ => id, fun _ => [], fun _ => [], fun _ => []⟩

def steps (t n : Nat) : List (SharedEvent Unit Nat) := List.replicate n (.advance t)

/-- The two calls one after the other, and a `find` behind them. -/
def inTurn : List (SharedEvent Unit Nat) :=
  [[.addInterface 0 (memberless "IDL:A:1.0") () none], steps 0 21,
    [.addInterface 1 (memberless "IDL:B:1.0") () none], steps 1 25,
    [.find 2 "_is_a" "IDL:A:1.0"], steps 2 5].flatten

theorem noneLost_of_unraced_in_turn : ∃ s : SharedTable Nat,
    s.answers 2 = [⟨"_is_a", "IDL:A:1.0", true, some 2⟩] ∧
      NoneLost (system .sign (⟨0, 1, 2⟩ : OperationTable.Primitives Nat) Unit) Unraced s := by
  obtain ⟨s, hs⟩ := Option.isSome_iff_exists.mp (show
    ((system .sign ⟨0, 1, 2⟩ Unit).replay Unraced (create .sign ⟨0, 1, 2⟩) inTurn).isSome
      by decide +kernel)
  exact ⟨s, System.replay_read (fun s => s.answers 2) hs (by decide +kernel),
    noneLost_of_unraced Unit .sign ⟨0, 1, 2⟩ (System.Reach.of_replay (.start rfl) _ hs)⟩

/-- Both threads come to the end of the chain of `_is_a` before one of them links
its `OpArgs` there; the other then links its own over it. -/
def racing : List (SharedEvent Unit Nat) :=
  [[.addInterface 0 (memberless "IDL:A:1.0") () none], steps 0 9,
    [.addInterface 1 (memberless "IDL:B:1.0") () none], steps 1 9,
    steps 0 1, steps 1 1, steps 0 11,
    [.find 2 "_is_a" "IDL:A:1.0"], steps 2 6].flatten

/-- A `find` comes back with nothing for a pair that a call has added that has
returned. -/
theorem not_noneLost_racing : ∃ s : SharedTable Nat,
    (system .sign (⟨0, 1, 2⟩ : OperationTable.Primitives Nat) Unit).Reachable s ∧
      s.answers 2 = [⟨"_is_a", "IDL:A:1.0", true, none⟩] ∧
      ¬ NoneLost (system .sign (⟨0, 1, 2⟩ : OperationTable.Primitives Nat) Unit)
        (fun _ _ => True) s := by
  obtain ⟨s, hs⟩ := Option.isSome_iff_exists.mp (show
    ((system .sign ⟨0, 1, 2⟩ Unit).replay (fun _ _ => True) (create .sign ⟨0, 1, 2⟩)
      racing).isSome by decide +kernel)
  have hanswers := System.replay_read (fun s => s.answers 2) hs
    (a := [⟨"_is_a", "IDL:A:1.0", true, none⟩]) (by decide +kernel)
  refine ⟨s, System.Reach.of_replay (.start rfl) _ hs, hanswers, fun hnone => ?_⟩
  obtain ⟨a, hfound, -⟩ := hnone.answered 2 ⟨"_is_a", "IDL:A:1.0", true, none⟩
    (by simp [hanswers]) rfl
  cases hfound

end SharedTable

end Lorica
