import Lorica.Lib.Lease
import Lorica.Lib.LinkedChain
import Lorica.Lib.IndexPool
import Lorica.Lib.Runs

/-!
The stack of free indices among threads. `next_index` pops it under
`high_index_lock_` and `unbind` and the collector push under
`gc_control_lock_`, so a pop and a push may overlap. Every load and store of
`free_stack_` and of the fields of its nodes is a step of its own here; what
the threads do elsewhere (the slots of the pages, `high_index_`) takes one step
where it touches the stack. A node is built before anybody else can see it, in
one step.

Two fields are there to say what happened: the number of indices taken from
`high_index_`, and the history of what was returned and what was freed.
-/

namespace Lorica

open Machine

/-- `free_stack_node` -/
structure FreeNode where
  index : UInt32
  next : Option Nat
deriving DecidableEq, Repr

/-- Where the thread that holds `high_index_lock_` is in `next_index`. -/
inductive PopStage where
  | entered
  /-- `free_stack_ != 0` was true -/
  | nonEmpty
  /-- `free_stack_` loaded for `index_` -/
  | atTop (a : Nat)
  /-- `rtn = free_stack_->index_` -/
  | read (rtn : UInt32)
  /-- `free_stack_` loaded for `pop ()` -/
  | popping (rtn : UInt32) (a : Nat)
  /-- `next_` loaded -/
  | following (rtn : UInt32) (a : Nat) (next : Option Nat)
  /-- the node deleted, `free_stack_` still to be stored -/
  | unlinked (rtn : UInt32) (next : Option Nat)
  /-- `free_stack_ != 0` was false -/
  | empty
  | taken (rtn : UInt32)
deriving DecidableEq, Repr

/-- Where the thread that holds `gc_control_lock_` is in a removal. -/
inductive PushStage where
  | entered
  /-- the slot emptied -/
  | cleared (index : UInt32)
  /-- `free_stack_` loaded -/
  | loaded (index : UInt32) (top : Option Nat)
  /-- the new node built, `free_stack_` still to be stored -/
  | built (index : UInt32) (a : Nat)
deriving DecidableEq, Repr

/-- A lock is held by one thread, which is at some stage, or by none. -/
structure FreeStack where
  nodes : Nat → Option FreeNode
  freeStack : Option Nat
  highIndex : UInt32
  numPages : UInt32
  pageSize : UInt32
  occupied : Nat → Bool
  highHolder : Option (Nat × PopStage)
  gcHolder : Option (Nat × PushStage)
  /-- returned by `next_index` and not bound yet -/
  issued : List UInt32
  fresh : Nat
  history : List (LeaseEvent UInt32)

/-- `bind` stores into a slot and takes one step. `reap` clears the slot the scan
is at, and `unbind` the one it was asked for. `make` gets any address that is
free. -/
inductive FreeStackOp where
  | lockNext (thread : Nat)
  | next
  | bind (index : UInt32)
  | lockGc (thread : Nat)
  | unbind (index : UInt32)
  | reap (index : UInt32)
  | load
  | make (a : Nat)
  | store
  | unlockGc
deriving DecidableEq, Repr

namespace FreeStack

def new (pageSize : UInt32) : FreeStack where
  nodes _ := none
  freeStack := none
  highIndex := 0
  numPages := 1
  pageSize := pageSize
  occupied _ := false
  highHolder := none
  gcHolder := none
  issued := []
  fresh := 0
  history := []

def limit (s : FreeStack) : UInt32 := s.numPages * s.pageSize

/-- A thread runs one call at a time. -/
def busy (s : FreeStack) (thread : Nat) : Bool :=
  s.highHolder.any (·.1 == thread) || s.gcHolder.any (·.1 == thread)

/-- The next step of `next_index`; `none` where the code follows a null or a
dangling pointer. -/
def nextStep (s : FreeStack) (t : Nat) : PopStage → Option FreeStack
  | .entered =>
      match s.freeStack with
      | some _ => some { s with highHolder := some (t, .nonEmpty) }
      | none => some { s with highHolder := some (t, .empty) }
  | .nonEmpty => s.freeStack.map fun a => { s with highHolder := some (t, .atTop a) }
  | .atTop a => (s.nodes a).map fun n => { s with highHolder := some (t, .read n.index) }
  | .read rtn => s.freeStack.map fun a => { s with highHolder := some (t, .popping rtn a) }
  | .popping rtn a =>
      (s.nodes a).map fun n => { s with highHolder := some (t, .following rtn a n.next) }
  | .following rtn a next => some { s with
      nodes := Function.update s.nodes a none
      highHolder := some (t, .unlinked rtn next) }
  | .unlinked rtn next => some { s with
      freeStack := next
      highHolder := some (t, .taken rtn) }
  | .empty => some { s with
      highIndex := s.highIndex + 1
      fresh := s.fresh + 1
      highHolder := some (t, .taken s.highIndex) }
  | .taken rtn => some { s with
      numPages := if s.limit ≤ rtn then s.numPages + 1 else s.numPages
      highHolder := none
      issued := rtn :: s.issued
      history := .taken rtn :: s.history }

/-- Empty a slot, with or without a bounds test. -/
def clear (s : FreeStack) (index : UInt32) (bounded : Bool) : Option FreeStack :=
  match s.gcHolder with
  | some (t, .entered) =>
      if s.occupied index.toNat ∧ (bounded → index < s.limit) then
        some { s with
          occupied := Function.update s.occupied index.toNat false
          gcHolder := some (t, .cleared index) }
      else none
  | _ => none

def step (s : FreeStack) : FreeStackOp → Option FreeStack
  | .lockNext t =>
      if s.highHolder = none ∧ s.busy t = false then
        some { s with highHolder := some (t, .entered) }
      else none
  | .next =>
      match s.highHolder with
      | some (t, stage) => s.nextStep t stage
      | none => none
  | .bind index =>
      if s.gcHolder = none ∧ index ∈ s.issued ∧ index < s.limit ∧
          s.occupied index.toNat = false then
        some { s with
          occupied := Function.update s.occupied index.toNat true
          issued := s.issued.erase index }
      else none
  | .lockGc t =>
      if s.gcHolder = none ∧ s.busy t = false then
        some { s with gcHolder := some (t, .entered) }
      else none
  | .unbind index => s.clear index true
  | .reap index => s.clear index false
  | .load =>
      match s.gcHolder with
      | some (t, .cleared index) =>
          some { s with gcHolder := some (t, .loaded index s.freeStack) }
      | _ => none
  | .make a =>
      match s.gcHolder with
      | some (t, .loaded index top) =>
          if s.nodes a = none then some { s with
            nodes := Function.update s.nodes a (some ⟨index, top⟩)
            gcHolder := some (t, .built index a) }
          else none
      | _ => none
  | .store =>
      match s.gcHolder with
      | some (t, .built index a) => some { s with
          freeStack := some a
          gcHolder := some (t, .entered)
          history := .freed index :: s.history }
      | _ => none
  | .unlockGc =>
      match s.gcHolder with
      | some (_, .entered) => some { s with gcHolder := none }
      | _ => none

/-- The stack as the pop in progress leaves it. -/
def top (s : FreeStack) : Option Nat :=
  match s.highHolder with
  | some (_, .unlinked _ next) => next
  | _ => s.freeStack

/-- What a pop in progress has taken and is about to return. -/
def carried (s : FreeStack) : List UInt32 :=
  match s.highHolder with
  | some (_, .unlinked rtn _) => [rtn]
  | some (_, .taken rtn) => [rtn]
  | _ => []

/-- The index is in a node on the stack. -/
def OnStack (s : FreeStack) (index : UInt32) : Prop :=
  ∃ l, Chain.Linked FreeNode.next s.nodes s.top l ∧
    ∃ a ∈ l, ∃ n, s.nodes a = some n ∧ n.index = index

/-- No index is returned twice without having been freed in between, what was
freed is on the stack until a `next_index` takes it to return it, and a
`next_index` on its way never follows a null or dangling pointer. -/
structure Sound (s : FreeStack) : Prop where
  exclusive : Lease.Exclusive s.history
  kept : ∀ i, Lease.last i s.history = some (.freed i) → s.OnStack i ∨ i ∈ s.carried
  goesOn : s.highHolder.isSome → (s.step .next).isSome

end FreeStack

def freeStackSystem (pageSize : UInt32) : System FreeStack FreeStackOp where
  init s := s = FreeStack.new pageSize
  step := FreeStack.step

/-- Between its first look at the node on top and its store. -/
def PopStage.midway : PopStage → Bool
  | .entered | .nonEmpty | .empty | .taken _ => false
  | _ => true

/-- The pop has taken an index off the stack or from `high_index_`. -/
def PopStage.carries : PopStage → Bool
  | .unlinked _ _ | .taken _ => true
  | _ => false

/-- Between its load of `free_stack_` and its store. -/
def PushStage.midway : PushStage → Bool
  | .entered | .cleared _ => false
  | _ => true

namespace FreeStack

/-- A push stores only while no pop is midway and a pop only while no push is,
and `high_index_` is taken only for the first `2^32` indices. -/
def apart (s : FreeStack) : FreeStackOp → Bool
  | .store => !s.highHolder.any (·.2.midway)
  | .next =>
      match s.highHolder with
      | some (_, .unlinked _ _) => !s.gcHolder.any (·.2.midway)
      | some (_, .empty) => s.fresh < 2 ^ 32
      | _ => true
  | _ => true

/-! ## The stack as an index pool -/

/-- The slot is taken, or just emptied by a removal that has not yet given its
index back. -/
def inUse (s : FreeStack) (i : Nat) : Bool :=
  s.occupied i || (match s.gcHolder with
    | some (_, .cleared index) => index.toNat == i
    | some (_, .loaded index _) => index.toNat == i
    | some (_, .built index _) => index.toNat == i
    | _ => false)

/-- The index in a node. -/
def indexAt (s : FreeStack) (a : Nat) : Nat :=
  match s.nodes a with
  | some n => n.index.toNat
  | none => 0

/-- What the pop in progress has seen is still so. -/
def PopHolds (s : FreeStack) (l : List Nat) : Prop :=
  match s.highHolder with
  | some (_, .nonEmpty) => l ≠ []
  | some (_, .atTop a) => l.head? = some a
  | some (_, .read rtn) => ∃ a n, l.head? = some a ∧ s.nodes a = some n ∧ n.index = rtn
  | some (_, .popping rtn a) => l.head? = some a ∧ ∃ n, s.nodes a = some n ∧ n.index = rtn
  | some (_, .following rtn a next) => l.head? = some a ∧ s.nodes a = some ⟨rtn, next⟩
  | _ => True

/-- What the push in progress has seen is still so, and its node is its own. -/
def PushHolds (s : FreeStack) (l : List Nat) : Prop :=
  match s.gcHolder with
  | some (_, .cleared index) => s.occupied index.toNat = false
  | some (_, .loaded index top) => s.occupied index.toNat = false ∧ top = s.freeStack
  | some (_, .built index a) => s.occupied index.toNat = false ∧ a ∉ l ∧
      s.nodes a = some ⟨index, s.freeStack⟩
  | _ => True

/-- The state stands for a pool, in which an index is free while its node is on
the stack `l`, issued from the moment a pop unlinks it, and in use until a push
has stored it. -/
structure Represents (s : FreeStack) (p : IndexPool Unit) (l : List Nat) : Prop where
  high : p.high = s.fresh
  mark : s.highIndex = UInt32.ofNat s.fresh
  linked : Chain.Linked FreeNode.next s.nodes s.top l
  free : p.free = l.map s.indexAt
  issued : p.issued = (s.carried ++ s.issued).map UInt32.toNat
  bound : p.bound = fun i => if s.inUse i then some () else none
  popHolds : s.PopHolds l
  pushHolds : s.PushHolds l

/-- What was returned last is in somebody's hands, and what was freed last is
free. -/
structure Logged (s : FreeStack) (p : IndexPool Unit) : Prop where
  exclusive : Lease.Exclusive s.history
  lastTaken : ∀ i, Lease.last i s.history = some (.taken i) →
    i ∈ s.issued ∨ s.inUse i.toNat = true
  lastFreed : ∀ i, Lease.last i s.history = some (.freed i) →
    i.toNat ∈ p.free ∨ i ∈ s.carried

/-- The invariant. -/
def Good (s : FreeStack) : Prop :=
  ∃ p l, s.Represents p l ∧ s.Logged p

section Facts

variable {s : FreeStack} {p : IndexPool Unit} {l : List Nat} (h : s.Represents p l)

include h

theorem Represents.nodup : l.Nodup := by
  have hfree := p.nodup.of_append_left
  rw [h.free] at hfree
  exact hfree.of_map _

/-- A carried index is in nobody else's hands. -/
theorem Represents.carried_alone {rtn : UInt32} (hcarried : s.carried = [rtn]) :
    rtn ∉ s.issued ∧ s.inUse rtn.toNat = false := by
  have hissued : p.issued = rtn.toNat :: s.issued.map UInt32.toNat := by
    rw [h.issued, hcarried]
    rfl
  constructor
  · intro hmem
    have hnodup := p.nodup.of_append_right
    rw [hissued, List.nodup_cons] at hnodup
    exact hnodup.1 (List.mem_map_of_mem hmem)
  · have hvacant := p.issued_vacant (i := rtn.toNat) (by simp [hissued])
    rw [h.bound] at hvacant
    simpa using hvacant

/-- The free indices of the pool are on the linked stack. -/
theorem Represents.onStack {i : UInt32} (hmem : i.toNat ∈ p.free) : s.OnStack i := by
  rw [h.free, List.mem_map] at hmem
  obtain ⟨a, ha, hindex⟩ := hmem
  obtain ⟨n, hn⟩ := h.linked.live ha
  refine ⟨l, h.linked, a, ha, n, hn, ?_⟩
  simp only [indexAt, hn] at hindex
  exact UInt32.toNat_inj.mp hindex

end Facts

/-! ## One step of `next_index` -/

theorem head?_of_linked {nodes : Nat → Option FreeNode} {a : Nat} {l : List Nat}
    (h : Chain.Linked FreeNode.next nodes (some a) l) : l.head? = some a := by
  cases l with
  | nil => exact absurd h (by simp [Chain.Linked])
  | cons b rest => exact h.1.symm

section Pop

variable {s : FreeStack} {p : IndexPool Unit} {l : List Nat} {t : Nat} {stage : PopStage}

theorem not_carrying (hh : s.highHolder = some (t, stage)) (hstage : stage.carries = false) :
    s.top = s.freeStack ∧ s.carried = [] := by
  unfold top carried
  simp only [hh]
  cases stage with
  | unlinked rtn next => cases hstage
  | taken rtn => cases hstage
  | _ => exact ⟨rfl, rfl⟩

/-- A step of the pop that only looks. -/
theorem Represents.advance (h : s.Represents p l) (hlog : s.Logged p)
    (hh : s.highHolder = some (t, stage)) (hstage : stage.carries = false) {stage' : PopStage}
    (hstage' : stage'.carries = false)
    (hholds : ({ s with highHolder := some (t, stage') } : FreeStack).PopHolds l) :
    Good { s with highHolder := some (t, stage') } := by
  obtain ⟨htop, hcarried⟩ := not_carrying hh hstage
  obtain ⟨htop', hcarried'⟩ :=
    not_carrying (s := { s with highHolder := some (t, stage') }) rfl hstage'
  refine ⟨p, l, ⟨h.high, h.mark, ?_, h.free, ?_, h.bound, hholds, h.pushHolds⟩,
    ⟨hlog.exclusive, hlog.lastTaken, ?_⟩⟩
  · rw [htop', ← htop]
    exact h.linked
  · rw [hcarried', ← hcarried]
    exact h.issued
  · intro i hi
    rw [hcarried', ← hcarried]
    exact hlog.lastFreed i hi

/-- The pop deletes the node on top: its index is issued from here on. -/
theorem Represents.unlink (h : s.Represents p l) (hlog : s.Logged p) {rtn : UInt32} {a : Nat}
    {next : Option Nat} (hh : s.highHolder = some (t, .following rtn a next)) :
    Good { s with
      nodes := Function.update s.nodes a none
      highHolder := some (t, .unlinked rtn next) } := by
  obtain ⟨hhead, hnode⟩ : l.head? = some a ∧ s.nodes a = some ⟨rtn, next⟩ := by
    have hholds := h.popHolds
    simpa only [PopHolds, hh] using hholds
  obtain ⟨rest, rfl⟩ : ∃ rest, l = a :: rest := List.head?_eq_some_iff.mp hhead
  have hfree : p.free = rtn.toNat :: rest.map s.indexAt := by
    rw [h.free, List.map_cons, indexAt, hnode]
  have hnotin : a ∉ rest := (List.nodup_cons.mp h.nodup).1
  have hlinked : Chain.Linked FreeNode.next s.nodes next rest := by
    obtain ⟨-, n, hn, hrest⟩ := h.linked
    rw [hnode] at hn
    cases hn
    exact hrest
  have hkept : ∀ b ∈ rest, Function.update s.nodes a none b = s.nodes b := fun b hb =>
    Function.update_of_ne (by rintro rfl; exact hnotin hb) ..
  have hcarried : s.carried = [] := (not_carrying hh rfl).2
  have hissued : p.issued = s.issued.map UInt32.toNat := by
    rw [h.issued, hcarried, List.nil_append]
  refine ⟨p.reissue _ _ hfree, rest, ⟨h.high, h.mark, ?_, ?_, ?_, h.bound, trivial, ?_⟩,
    ⟨hlog.exclusive, hlog.lastTaken, ?_⟩⟩
  · exact hlinked.congr fun b hb n hn => ⟨n, (hkept b hb).trans hn, rfl⟩
  · apply List.map_congr_left
    intro b hb
    simp only [indexAt, hkept b hb]
  · exact congrArg (rtn.toNat :: ·) hissued
  · have hpush := h.pushHolds
    unfold PushHolds at hpush ⊢
    dsimp only
    cases hg : s.gcHolder with
    | none => trivial
    | some holder =>
        obtain ⟨t', stage⟩ := holder
        rw [hg] at hpush
        cases stage with
        | built index b =>
            obtain ⟨hempty, hb, hown⟩ := hpush
            rw [List.mem_cons, not_or] at hb
            exact ⟨hempty, hb.2, (Function.update_of_ne hb.1 ..).trans hown⟩
        | entered => exact trivial
        | cleared index => exact hpush
        | loaded index top => exact hpush
  · intro i hi
    rcases hlog.lastFreed i hi with hmem | hmem
    · rw [hfree, List.mem_cons] at hmem
      rcases hmem with heq | hmem
      · exact Or.inr (List.mem_singleton.mpr (UInt32.toNat_inj.mp heq))
      · exact Or.inl hmem
    · rw [hcarried] at hmem
      exact absurd hmem (List.not_mem_nil)

/-- The pop stores the next node as the top. No push is midway, so none has an
older top in its hands. -/
theorem Represents.popStore (h : s.Represents p l) (hlog : s.Logged p) {rtn : UInt32}
    {next : Option Nat} (hh : s.highHolder = some (t, .unlinked rtn next))
    (hpush : s.gcHolder.any (·.2.midway) = false) :
    Good { s with freeStack := next, highHolder := some (t, .taken rtn) } := by
  have htop : s.top = next := by simp only [top, hh]
  have hcarried : s.carried = [rtn] := by simp only [carried, hh]
  refine ⟨p, l, ⟨h.high, h.mark, ?_, h.free, ?_, h.bound, trivial, ?_⟩,
    ⟨hlog.exclusive, hlog.lastTaken, ?_⟩⟩
  · rw [← htop]
    exact h.linked
  · rw [h.issued, hcarried]
    rfl
  · have hholds := h.pushHolds
    unfold PushHolds at hholds ⊢
    dsimp only
    cases hg : s.gcHolder with
    | none => trivial
    | some holder =>
        obtain ⟨t', stage⟩ := holder
        rw [hg] at hholds hpush
        cases stage with
        | entered => exact trivial
        | cleared index => exact hholds
        | loaded index top => cases hpush
        | built index b => cases hpush
  · intro i hi
    have hfreed := hlog.lastFreed i hi
    rw [hcarried] at hfreed
    exact hfreed

/-- An index is taken from `high_index_` before that wraps. -/
theorem Represents.takeFresh (h : s.Represents p l) (hlog : s.Logged p)
    (hh : s.highHolder = some (t, .empty)) (hfresh : s.fresh < 2 ^ 32) :
    Good { s with
      highIndex := s.highIndex + 1
      fresh := s.fresh + 1
      highHolder := some (t, .taken s.highIndex) } := by
  obtain ⟨htop, hcarried⟩ := not_carrying hh rfl
  have hmark : s.highIndex.toNat = p.high := by
    rw [h.mark, h.high, UInt32.toNat_ofNat_of_lt' hfresh]
  have hissued : p.issued = s.issued.map UInt32.toNat := by
    rw [h.issued, hcarried, List.nil_append]
  refine ⟨p.issueFresh, l, ⟨?_, ?_, ?_, h.free, ?_, h.bound, trivial, h.pushHolds⟩,
    ⟨hlog.exclusive, hlog.lastTaken, ?_⟩⟩
  · exact congrArg (· + 1) h.high
  · change s.highIndex + 1 = UInt32.ofNat (s.fresh + 1)
    rw [h.mark, UInt32.ofNat_add]
    rfl
  · have hlinked := h.linked
    rw [htop] at hlinked
    exact hlinked
  · change p.high :: p.issued = s.highIndex.toNat :: s.issued.map UInt32.toNat
    rw [hmark, hissued]
  · intro i hi
    have hfreed := hlog.lastFreed i hi
    rw [hcarried] at hfreed
    exact Or.inl (hfreed.resolve_right List.not_mem_nil)

/-- `next_index` returns what it carries. -/
theorem Represents.returned (h : s.Represents p l) (hlog : s.Logged p) {rtn : UInt32}
    (hh : s.highHolder = some (t, .taken rtn)) (numPages : UInt32) :
    Good { s with
      numPages := numPages
      highHolder := none
      issued := rtn :: s.issued
      history := .taken rtn :: s.history } := by
  have htop : s.top = s.freeStack := by simp only [top, hh]
  have hcarried : s.carried = [rtn] := by simp only [carried, hh]
  obtain ⟨hnotIssued, hnotInUse⟩ := h.carried_alone hcarried
  have hlast : Lease.last rtn s.history ≠ some (.taken rtn) := by
    intro hlast
    rcases hlog.lastTaken rtn hlast with hmem | huse
    · exact hnotIssued hmem
    · rw [hnotInUse] at huse
      cases huse
  refine ⟨p, l, ⟨h.high, h.mark, ?_, h.free, ?_, h.bound, trivial, h.pushHolds⟩,
    ⟨hlog.exclusive.take hlast, ?_, ?_⟩⟩
  · have hlinked := h.linked
    rw [htop] at hlinked
    exact hlinked
  · rw [h.issued, hcarried]
    rfl
  · intro i hi
    by_cases heq : rtn = i
    · exact Or.inl (heq ▸ List.mem_cons_self ..)
    · have hold : Lease.last i s.history = some (.taken i) := by
        rwa [Lease.last_cons_ne (e := .taken rtn) heq] at hi
      exact (hlog.lastTaken i hold).imp_left (List.mem_cons_of_mem _)
  · intro i hi
    by_cases heq : rtn = i
    · have hself : Lease.last i (.taken rtn :: s.history) = some (.taken rtn) := if_pos heq
      rw [hself] at hi
      cases hi
    · have hold : Lease.last i s.history = some (.freed i) := by
        rwa [Lease.last_cons_ne (e := .taken rtn) heq] at hi
      have hfreed := hlog.lastFreed i hold
      rw [hcarried, List.mem_singleton] at hfreed
      exact Or.inl (hfreed.resolve_right (Ne.symm heq))

/-- Whatever the pop does next leads on, and never through a pointer that is
null or dangling. -/
theorem Represents.next (h : s.Represents p l) (hlog : s.Logged p)
    (hh : s.highHolder = some (t, stage)) (hapart : s.apart .next = true) :
    ∃ s', s.nextStep t stage = some s' ∧ Good s' := by
  have hholds := h.popHolds
  have hlinked := h.linked
  unfold PopHolds at hholds
  simp only [hh] at hholds
  cases stage with
  | entered =>
      rw [(not_carrying hh rfl).1] at hlinked
      cases hf : s.freeStack with
      | none =>
          exact ⟨{ s with highHolder := some (t, .empty) }, by simp only [nextStep, hf],
            h.advance hlog hh rfl rfl trivial⟩
      | some a =>
          have hne : l ≠ [] := by
            rw [hf] at hlinked
            rintro rfl
            exact absurd (head?_of_linked hlinked) (by simp)
          exact ⟨{ s with highHolder := some (t, .nonEmpty) }, by simp only [nextStep, hf],
            h.advance hlog hh rfl rfl hne⟩
  | nonEmpty =>
      obtain ⟨a, rest, rfl⟩ := List.exists_cons_of_ne_nil hholds
      rw [(not_carrying hh rfl).1] at hlinked
      have hf : s.freeStack = some a := hlinked.1
      exact ⟨{ s with highHolder := some (t, .atTop a) }, by simp only [nextStep, hf, Option.map],
        h.advance hlog hh rfl rfl rfl⟩
  | atTop a =>
      obtain ⟨n, hn⟩ := h.linked.live (List.mem_of_mem_head? hholds)
      exact ⟨{ s with highHolder := some (t, .read n.index) },
        by simp only [nextStep, hn, Option.map],
        h.advance hlog hh rfl rfl ⟨a, n, hholds, hn, rfl⟩⟩
  | read rtn =>
      obtain ⟨a, n, hhead, hn, rfl⟩ := hholds
      obtain ⟨rest, rfl⟩ := List.head?_eq_some_iff.mp hhead
      rw [(not_carrying hh rfl).1] at hlinked
      have hf : s.freeStack = some a := hlinked.1
      exact ⟨{ s with highHolder := some (t, .popping n.index a) },
        by simp only [nextStep, hf, Option.map],
        h.advance hlog hh rfl rfl ⟨rfl, n, hn, rfl⟩⟩
  | popping rtn a =>
      obtain ⟨hhead, n, hn, rfl⟩ := hholds
      exact ⟨{ s with highHolder := some (t, .following n.index a n.next) },
        by simp only [nextStep, hn, Option.map],
        h.advance hlog hh rfl rfl ⟨hhead, hn⟩⟩
  | following rtn a next => exact ⟨_, rfl, h.unlink hlog hh⟩
  | unlinked rtn next =>
      simp only [apart, hh, Bool.not_eq_true'] at hapart
      exact ⟨_, rfl, h.popStore hlog hh hapart⟩
  | empty =>
      simp only [apart, hh, decide_eq_true_eq] at hapart
      exact ⟨_, rfl, h.takeFresh hlog hh hapart⟩
  | taken rtn => exact ⟨_, rfl, h.returned hlog hh _⟩

end Pop

/-! ## The other steps -/

section Push

variable {s s' : FreeStack} {p : IndexPool Unit} {l : List Nat} {t : Nat}

theorem Represents.goesOn (h : s.Represents p l) (hlog : s.Logged p) {stage : PopStage}
    (hh : s.highHolder = some (t, stage)) : (s.nextStep t stage).isSome := by
  cases hapart : s.apart .next with
  | true =>
      obtain ⟨s', hs', -⟩ := h.next hlog hh hapart
      simp [hs']
  | false =>
      simp only [apart, hh] at hapart
      cases stage with
      | unlinked rtn next => rfl
      | empty => rfl
      | _ => cases hapart

/-- A step of the thread with `gc_control_lock_` that leaves the stack alone and
the same indices in use. -/
theorem Represents.moveGc (h : s.Represents p l) (hlog : s.Logged p) (occupied : Nat → Bool)
    {gcHolder : Option (Nat × PushStage)}
    (huse : ∀ i, ({ s with occupied := occupied, gcHolder := gcHolder } : FreeStack).inUse i =
      s.inUse i)
    (hholds : ({ s with occupied := occupied, gcHolder := gcHolder } : FreeStack).PushHolds l) :
    Good { s with occupied := occupied, gcHolder := gcHolder } := by
  refine ⟨p, l, ⟨h.high, h.mark, h.linked, h.free, h.issued, ?_, h.popHolds, hholds⟩,
    ⟨hlog.exclusive, ?_, hlog.lastFreed⟩⟩
  · rw [h.bound]
    funext i
    rw [huse]
  · intro i hi
    rw [huse]
    exact hlog.lastTaken i hi

theorem Represents.clear (h : s.Represents p l) (hlog : s.Logged p) {index : UInt32}
    {bounded : Bool} (hstep : s.clear index bounded = some s') : Good s' := by
  unfold FreeStack.clear at hstep
  cases hg : s.gcHolder with
  | none =>
      rw [hg] at hstep
      cases hstep
  | some holder =>
      obtain ⟨t, stage⟩ := holder
      rw [hg] at hstep
      cases stage with
      | entered =>
          obtain ⟨⟨hoccupied, -⟩, hs'⟩ := Option.ite_none_right_eq_some.mp hstep
          obtain rfl := Option.some.inj hs'
          refine h.moveGc hlog _ ?_ ?_
          · intro i
            by_cases hi : i = index.toNat
            · simp [inUse, hi, hoccupied]
            · simp [inUse, hg, Function.update_of_ne hi, Ne.symm hi]
          · exact Function.update_self ..
      | cleared index => cases hstep
      | loaded index top => cases hstep
      | built index a => cases hstep

/-- A new node at a free address is no node of the stack. -/
theorem Represents.make (h : s.Represents p l) (hlog : s.Logged p) {index : UInt32}
    {top : Option Nat} {a : Nat} (hg : s.gcHolder = some (t, .loaded index top))
    (ha : s.nodes a = none) :
    Good { s with
      nodes := Function.update s.nodes a (some ⟨index, top⟩)
      gcHolder := some (t, .built index a) } := by
  have hnotin : a ∉ l := by
    intro hmem
    obtain ⟨n, hn⟩ := h.linked.live hmem
    rw [ha] at hn
    cases hn
  have hkept : ∀ b n, s.nodes b = some n →
      Function.update s.nodes a (some ⟨index, top⟩) b = some n := by
    intro b n hn
    have hne : b ≠ a := by
      rintro rfl
      rw [ha] at hn
      cases hn
    exact (Function.update_of_ne hne ..).trans hn
  obtain ⟨hempty, rfl⟩ : s.occupied index.toNat = false ∧ top = s.freeStack := by
    have hpush := h.pushHolds
    simpa only [PushHolds, hg] using hpush
  have huse : ∀ i, ({ s with
      nodes := Function.update s.nodes a (some ⟨index, s.freeStack⟩)
      gcHolder := some (t, .built index a) } : FreeStack).inUse i = s.inUse i := by
    intro i
    simp only [inUse, hg]
  refine ⟨p, l, ⟨h.high, h.mark, ?_, ?_, h.issued, ?_, ?_, ?_⟩,
    ⟨hlog.exclusive, ?_, hlog.lastFreed⟩⟩
  · exact h.linked.congr fun b _ n hn => ⟨n, hkept b n hn, rfl⟩
  · rw [h.free]
    apply List.map_congr_left
    intro b hb
    obtain ⟨n, hn⟩ := h.linked.live hb
    simp only [indexAt, hn, hkept b n hn]
  · rw [h.bound]
    funext i
    rw [huse]
  · have hpop := h.popHolds
    unfold PopHolds at hpop ⊢
    dsimp only
    cases hh : s.highHolder with
    | none => trivial
    | some holder =>
        obtain ⟨t', stage⟩ := holder
        rw [hh] at hpop
        cases stage with
        | read rtn =>
            obtain ⟨b, n, hhead, hn, hindex⟩ := hpop
            exact ⟨b, n, hhead, hkept b n hn, hindex⟩
        | popping rtn b =>
            obtain ⟨hhead, n, hn, hindex⟩ := hpop
            exact ⟨hhead, n, hkept b n hn, hindex⟩
        | following rtn b next => exact ⟨hpop.1, hkept b _ hpop.2⟩
        | nonEmpty => exact hpop
        | atTop b => exact hpop
        | _ => exact trivial
  · exact ⟨hempty, hnotin, Function.update_self ..⟩
  · intro i hi
    rw [huse]
    exact hlog.lastTaken i hi

theorem not_midway (hpop : s.highHolder.any (·.2.midway) = false) :
    s.top = s.freeStack ∧ ∀ l, s.PopHolds l → ∀ a, s.PopHolds (a :: l) := by
  unfold top PopHolds
  cases hh : s.highHolder with
  | none => exact ⟨rfl, fun _ _ _ => trivial⟩
  | some holder =>
      obtain ⟨t', stage⟩ := holder
      rw [hh] at hpop
      cases stage with
      | entered => exact ⟨rfl, fun _ _ _ => trivial⟩
      | nonEmpty => exact ⟨rfl, fun l _ a => List.cons_ne_nil a l⟩
      | empty => exact ⟨rfl, fun _ _ _ => trivial⟩
      | taken rtn => exact ⟨rfl, fun _ _ _ => trivial⟩
      | _ => cases hpop

/-- The push stores its node as the top. No pop is midway, so none has seen the
older top. -/
theorem Represents.store (h : s.Represents p l) (hlog : s.Logged p) {index : UInt32} {a : Nat}
    (hg : s.gcHolder = some (t, .built index a))
    (hpop : s.highHolder.any (·.2.midway) = false) :
    Good { s with
      freeStack := some a
      gcHolder := some (t, .entered)
      history := .freed index :: s.history } := by
  obtain ⟨hempty, hnotin, hnode⟩ : s.occupied index.toNat = false ∧ a ∉ l ∧
      s.nodes a = some ⟨index, s.freeStack⟩ := by
    have hpush := h.pushHolds
    simpa only [PushHolds, hg] using hpush
  have hbound : (p.bound index.toNat).isSome := by
    rw [h.bound]
    simp [inUse, hg]
  obtain ⟨htop, hholds⟩ := not_midway hpop
  obtain ⟨htop', -⟩ := not_midway (s := { s with
    freeStack := some a, gcHolder := some (t, .entered), history := .freed index :: s.history })
    hpop
  have huse : ∀ i, ({ s with
      freeStack := some a
      gcHolder := some (t, .entered)
      history := .freed index :: s.history } : FreeStack).inUse i =
        if i = index.toNat then false else s.inUse i := by
    intro i
    by_cases hi : i = index.toNat
    · simp [inUse, hi, hempty]
    · simp [inUse, hg, hi, Ne.symm hi]
  refine ⟨p.release index.toNat hbound, a :: l,
    ⟨h.high, h.mark, ?_, ?_, h.issued, ?_, hholds l h.popHolds a, trivial⟩,
    ⟨hlog.exclusive.free index, ?_, ?_⟩⟩
  · rw [htop']
    refine ⟨rfl, _, hnode, ?_⟩
    change Chain.Linked FreeNode.next s.nodes s.freeStack l
    rw [← htop]
    exact h.linked
  · change index.toNat :: p.free = s.indexAt a :: l.map s.indexAt
    rw [h.free, indexAt, hnode]
  · change Function.update p.bound index.toNat none = _
    funext i
    rw [huse, Function.update_apply, h.bound]
    split <;> simp
  · intro i hi
    by_cases heq : index = i
    · have hself : Lease.last i (.freed index :: s.history) = some (.freed index) := if_pos heq
      rw [hself] at hi
      cases hi
    · rw [Lease.last_cons_ne (e := .freed index) heq] at hi
      rw [huse, if_neg fun hi' => heq (UInt32.toNat_inj.mp hi').symm]
      exact hlog.lastTaken i hi
  · intro i hi
    by_cases heq : index = i
    · exact Or.inl (heq ▸ List.mem_cons_self ..)
    · rw [Lease.last_cons_ne (e := .freed index) heq] at hi
      exact (hlog.lastFreed i hi).imp_left (List.mem_cons_of_mem _)

/-- A caller of `next_index` binds what it was given. -/
theorem Represents.bind (h : s.Represents p l) (hlog : s.Logged p) {index : UInt32}
    (hg : s.gcHolder = none) (hmem : index ∈ s.issued) :
    Good { s with
      occupied := Function.update s.occupied index.toNat true
      issued := s.issued.erase index } := by
  have hissued : p.issued = s.carried.map UInt32.toNat ++ s.issued.map UInt32.toNat := by
    rw [h.issued, List.map_append]
  have hmem' : index.toNat ∈ s.issued.map UInt32.toNat := List.mem_map_of_mem hmem
  have hnot : index.toNat ∉ s.carried.map UInt32.toNat := by
    have hnodup := p.nodup.of_append_right
    rw [hissued, List.nodup_append'] at hnodup
    exact fun hcarried => hnodup.2.2 hcarried hmem'
  have huse : ∀ i, ({ s with
      occupied := Function.update s.occupied index.toNat true
      issued := s.issued.erase index } : FreeStack).inUse i =
        if i = index.toNat then true else s.inUse i := by
    intro i
    by_cases hi : i = index.toNat
    · simp [inUse, hi]
    · simp [inUse, hi]
  refine ⟨p.bind index.toNat () (hissued ▸ List.mem_append_right _ hmem'), l,
    ⟨h.high, h.mark, h.linked, h.free, ?_, ?_, h.popHolds, ?_⟩,
    ⟨hlog.exclusive, ?_, hlog.lastFreed⟩⟩
  · change p.issued.erase index.toNat = (s.carried ++ s.issued.erase index).map UInt32.toNat
    rw [hissued, List.erase_append_right _ hnot, List.map_append]
    congr 1
    exact (List.map_erase (fun _ _ => UInt32.toNat_inj.mp) _).symm
  · change Function.update p.bound index.toNat (some ()) = _
    funext i
    rw [huse, Function.update_apply, h.bound]
    split <;> simp
  · unfold PushHolds
    simp only [hg]
  · intro i hi
    rw [huse]
    by_cases heq : i = index
    · exact Or.inr (if_pos (congrArg UInt32.toNat heq))
    · rw [if_neg fun hi' => heq (UInt32.toNat_inj.mp hi')]
      exact (hlog.lastTaken i hi).imp_left (List.mem_erase_of_ne heq).mpr

end Push

/-! ## Runs -/

theorem good_new (pageSize : UInt32) : Good (new pageSize) := by
  refine ⟨.empty, [], ⟨rfl, rfl, rfl, rfl, rfl, ?_, trivial, trivial⟩,
    ⟨Lease.exclusive_nil, ?_, ?_⟩⟩
  · funext i
    simp [IndexPool.empty, inUse, new]
  · intro i hi
    cases hi
  · intro i hi
    cases hi

theorem Represents.lockNext {s : FreeStack} {p : IndexPool Unit} {l : List Nat}
    (h : s.Represents p l) (hlog : s.Logged p) (hh : s.highHolder = none) (t : Nat) :
    Good { s with highHolder := some (t, .entered) } := by
  have htop : s.top = s.freeStack := by simp only [top, hh]
  have hcarried : s.carried = [] := by simp only [carried, hh]
  refine ⟨p, l, ⟨h.high, h.mark, ?_, h.free, ?_, h.bound, trivial, h.pushHolds⟩,
    ⟨hlog.exclusive, hlog.lastTaken, ?_⟩⟩
  · have hlinked := h.linked
    rw [htop] at hlinked
    exact hlinked
  · rw [h.issued, hcarried]
    rfl
  · intro i hi
    have hfreed := hlog.lastFreed i hi
    rw [hcarried] at hfreed
    exact hfreed

theorem Good.step {s s' : FreeStack} (h : s.Good) {op : FreeStackOp}
    (hapart : s.apart op = true) (hstep : s.step op = some s') : s'.Good := by
  obtain ⟨p, l, hrep, hlog⟩ := h
  cases op with
  | lockNext t =>
      obtain ⟨⟨hh, -⟩, hs'⟩ := Option.ite_none_right_eq_some.mp hstep
      exact Option.some.inj hs' ▸ hrep.lockNext hlog hh t
  | next =>
      cases hh : s.highHolder with
      | none => simp [FreeStack.step, hh] at hstep
      | some holder =>
          obtain ⟨t, stage⟩ := holder
          obtain ⟨s'', hs'', hgood⟩ := hrep.next hlog hh hapart
          have hnext : s.step .next = s.nextStep t stage := by simp only [FreeStack.step, hh]
          rw [hnext, hs''] at hstep
          exact Option.some.inj hstep ▸ hgood
  | bind index =>
      obtain ⟨⟨hg, hmem, -⟩, hs'⟩ := Option.ite_none_right_eq_some.mp hstep
      exact Option.some.inj hs' ▸ hrep.bind hlog hg hmem
  | lockGc t =>
      obtain ⟨⟨hg, -⟩, hs'⟩ := Option.ite_none_right_eq_some.mp hstep
      refine Option.some.inj hs' ▸ hrep.moveGc hlog s.occupied ?_ trivial
      intro i
      simp only [inUse, hg]
  | unbind index => exact hrep.clear hlog hstep
  | reap index => exact hrep.clear hlog hstep
  | load =>
      simp only [FreeStack.step] at hstep
      split at hstep
      · next t index hg =>
          have hempty : s.occupied index.toNat = false := by
            have hpush := hrep.pushHolds
            simpa only [PushHolds, hg] using hpush
          refine Option.some.inj hstep ▸ hrep.moveGc hlog s.occupied ?_ ⟨hempty, rfl⟩
          intro i
          simp only [inUse, hg]
      · cases hstep
  | make a =>
      simp only [FreeStack.step] at hstep
      split at hstep
      · next t index top hg =>
          obtain ⟨ha, hs'⟩ := Option.ite_none_right_eq_some.mp hstep
          exact Option.some.inj hs' ▸ hrep.make hlog hg ha
      · cases hstep
  | store =>
      simp only [FreeStack.step] at hstep
      split at hstep
      · next t index a hg =>
          simp only [apart, Bool.not_eq_true'] at hapart
          exact Option.some.inj hstep ▸ hrep.store hlog hg hapart
      · cases hstep
  | unlockGc =>
      simp only [FreeStack.step] at hstep
      split at hstep
      · next t hg =>
          refine Option.some.inj hstep ▸ hrep.moveGc hlog s.occupied ?_ trivial
          intro i
          simp only [inUse, hg]
      · cases hstep

theorem Good.sound {s : FreeStack} (h : s.Good) : s.Sound := by
  obtain ⟨p, l, hrep, hlog⟩ := h
  refine ⟨hlog.exclusive, ?_, ?_⟩
  · intro i hi
    exact (hlog.lastFreed i hi).imp_left hrep.onStack
  · intro hheld
    obtain ⟨⟨t, stage⟩, hh⟩ := Option.isSome_iff_exists.mp hheld
    have hnext : s.step .next = s.nextStep t stage := by simp only [FreeStack.step, hh]
    rw [hnext]
    exact hrep.goesOn hlog hh

/-- While no push stores during a pop and no pop during a push, every state
stands for a pool. -/
theorem good_of_reach {pageSize : UInt32} {s : FreeStack}
    (h : (freeStackSystem pageSize).Reach (fun s op => s.apart op = true) s) : s.Good := by
  refine System.Reach.invariant (I := Good) ?_ ?_ h
  · rintro s rfl
    exact good_new pageSize
  · intro s op s' hgood hapart hstep
    exact hgood.step hapart hstep

/-- No index is lost and none is issued twice in a run whose pops and pushes
stay apart. -/
theorem sound_of_apart {pageSize : UInt32} {s : FreeStack}
    (h : (freeStackSystem pageSize).Reach (fun s op => s.apart op = true) s) : s.Sound :=
  (good_of_reach h).sound

/-- One index is taken, freed and taken again. -/
theorem sound_taken_again :
    ∃ s : FreeStack, s.history = [.taken 0, .freed 0, .taken 0] ∧ s.Sound := by
  have hruns : ((freeStackSystem 1024).replay (fun s op => s.apart op = true) (new 1024)
      [.lockNext 1, .next, .next, .next, .bind 0,
        .lockGc 2, .unbind 0, .load, .make 10, .store, .unlockGc,
        .lockNext 1, .next, .next, .next, .next, .next, .next, .next, .next]).isSome := by
    decide
  obtain ⟨s, hs⟩ := Option.isSome_iff_exists.mp hruns
  have hhistory : s.history = [.taken 0, .freed 0, .taken 0] :=
    System.replay_read (fun s => s.history) hs (by decide)
  exact ⟨s, hhistory, sound_of_apart (System.Reach.of_replay (.start rfl) _ hs)⟩

/-- Thread 2 frees index 1 while thread 1 has read index 0 from the node on top
and not yet popped it. Thread 1 pops the node of index 1 and returns 0, and
thread 3 returns 0 once more. -/
theorem not_sound_overlapping :
    ∃ s : FreeStack, (freeStackSystem 1024).Reachable s ∧
      ¬ Lease.Exclusive s.history ∧
      (Lease.last 1 s.history = some (.freed 1) ∧ ¬ s.OnStack 1 ∧ 1 ∉ s.carried) ∧
      ¬ s.Sound := by
  have hruns : ((freeStackSystem 1024).replay (fun _ _ => True) (new 1024)
      [.lockNext 1, .next, .next, .next, .bind 0, .lockNext 1, .next, .next, .next, .bind 1,
        .lockGc 2, .unbind 0, .load, .make 10, .store, .unlockGc,
        .lockNext 1, .next, .next, .next,
        .lockGc 2, .unbind 1, .load, .make 11, .store, .unlockGc,
        .next, .next, .next, .next, .next,
        .lockNext 3, .next, .next, .next, .next, .next, .next, .next, .next]).isSome := by
    decide
  obtain ⟨s, hs⟩ := Option.isSome_iff_exists.mp hruns
  have hhistory : s.history =
      [.taken 0, .taken 0, .freed 1, .freed 0, .taken 1, .taken 0] :=
    System.replay_read (fun s => s.history) hs (by decide)
  have htop : s.top = none := System.replay_read (fun s => s.top) hs (by decide)
  have hcarried : s.carried = [] := System.replay_read (fun s => s.carried) hs (by decide)
  have hexclusive : ¬ Lease.Exclusive s.history := by
    intro h
    exact absurd (h 0 [] [] [.freed 1, .freed 0, .taken 1, .taken 0] hhistory) List.not_mem_nil
  refine ⟨s, System.Reach.of_replay (.start rfl) _ hs, hexclusive, ⟨?_, ?_, ?_⟩,
    fun h => hexclusive h.exclusive⟩
  · rw [hhistory]
    decide
  · rintro ⟨l, hlinked, a, ha, -⟩
    rw [htop] at hlinked
    cases l with
    | nil => exact absurd ha List.not_mem_nil
    | cons b rest => exact absurd hlinked.1 (by simp)
  · rw [hcarried]
    exact List.not_mem_nil

end FreeStack

end Lorica
