import Lorica.InterfaceLookup
import Lorica.Lib.Interference
import Lorica.Lib.RwLock
import Lorica.Lib.Runs

/-!
The operation table under several threads. Every read and every write of a
pointer of the tree or of a chain is a step of its own. `lock_` is taken by a
temporary in a statement of its own, `ACE_Read_Guard<ACE_RW_Thread_Mutex>
(this->lock_);`, and given back at the end of that statement: what `find` and
`add_interface` do to the table they do behind it.
-/

namespace Lorica

open Machine

/-! ## Memory -/

/-- A variable that points to an `Operation`, or to an `OpArgs`, with the object
it is a member of. -/
inductive TablePointer where
  | head
  | left (op : Nat)
  | right (op : Nat)
  | argSet (op : Nat)
  | next (oa : Nat)
deriving DecidableEq, Repr

/-- The pointers to an `Operation`. -/
def TablePointer.isTree : TablePointer → Bool
  | .head | .left _ | .right _ => true
  | .argSet _ | .next _ => false

/-- The objects by their addresses: the name of each `Operation`; the id and the
list of each `OpArgs`, with the name of the operation it was made for in front,
which no step reads. Counts of lists are left out. -/
structure TableMemory (T : Type) where
  pointers : TablePointer → Option Nat
  names : List String
  opArgs : List ((String × String) × Nat)
  lists : List (ArgList T)

/-- What a step writes. A new object is made in the step that links it: before,
no other thread can come to it. -/
inductive TableWrite (T : Type) where
  | nothing
  | operation (p : TablePointer) (opname : String)
  | opArgs (p : TablePointer) (opname repId : String) (a : Nat)
  | argList (l : ArgList T)

/-- The pointer that is written. -/
def TableWrite.pointer {T : Type} : TableWrite T → Option TablePointer
  | .operation p _ | .opArgs p _ _ _ => some p
  | .nothing | .argList _ => none

namespace TableMemory

variable {T : Type}

def empty : TableMemory T := ⟨fun _ => none, [], [], []⟩

/-- The pointers of a new object are null. -/
def apply (m : TableMemory T) : TableWrite T → TableMemory T
  | .nothing => m
  | .operation p opname =>
      { m with
        pointers := Function.update m.pointers p (some m.names.length)
        names := m.names ++ [opname] }
  | .opArgs p opname repId a =>
      { m with
        pointers := Function.update m.pointers p (some m.opArgs.length)
        opArgs := m.opArgs ++ [((opname, repId), a)] }
  | .argList l => { m with lists := m.lists ++ [l] }

end TableMemory

/-- `match == 1 ? op->right () : op->left ()`; none where the names are equal. -/
def below (cmp : Strcmp) (opname name : String) (op : Nat) : Option TablePointer :=
  match cmp.turn opname name with
  | .here => none
  | .left => some (.left op)
  | .right => some (.right op)

theorem below_none {cmp : Strcmp} {opname name : String} {op : Nat} :
    below cmp opname name op = none ↔ opname = name := by
  rw [← cmp.turn_here]
  unfold below
  cases cmp.turn opname name <;> simp

namespace TableMemory

variable {T : Type} (cmp : Strcmp)

/-- The table as its constructor leaves it. -/
def create (prims : OperationTable.Primitives T) : TableMemory T :=
  [.operation .head "_is_a", .argList prims.isA,
    .opArgs (.argSet 0) "_is_a" "IDL:org.omg/CORBA/Object:1.0" 0,
    .operation ((below cmp "_non_existent" "_is_a" 0).getD .head) "_non_existent",
    .argList prims.nonExistent,
    .opArgs (.argSet 1) "_non_existent" "IDL:org.omg/CORBA/Object:1.0" 1].foldl apply empty

/-- One turn of the loop of `find`, and of the loop of `args` behind it: a pointer
is read, and what it points to is looked at. -/
def look (m : TableMemory T) (opname repId : String) (p : TablePointer) :
    Next TablePointer (Option Nat) :=
  match m.pointers p with
  | none => .back none
  | some x =>
      if p.isTree then
        match m.names[x]? with
        | none => .crash
        | some name =>
            match below cmp opname name x with
            | none => .go (.argSet x)
            | some q => .go q
      else
        match m.opArgs[x]? with
        | none => .crash
        | some ((_, id), a) =>
            if cmp.compare repId id = 0 then .back (some a) else .go (.next x)

end TableMemory

/-! ## Calls -/

/-- Where `find_or_add` and `add_set` are in their loops: about to test a pointer
for null, about to link a new object there, or about to read it again. -/
inductive Cursor where
  | test (p : TablePointer)
  | link (p : TablePointer)
  | follow (p : TablePointer)
deriving DecidableEq, Repr

namespace Cursor

def pointer : Cursor → TablePointer
  | .test p | .link p | .follow p => p

/-- The pointer a new object is about to be linked at. -/
def links : Cursor → Option TablePointer
  | .link p => some p
  | .test _ | .follow _ => none

end Cursor

/-- `p == 0` -/
def TableMemory.test {T : Type} (m : TableMemory T) (p : TablePointer) : Cursor :=
  if m.pointers p = none then .link p else .follow p

/-- Where `add_interface` is in the registrations it makes. -/
inductive AddPc (T : Type) where
  | between
  | findOrAdd (r : OperationTable.Registration T) (cursor : Cursor)
  | returnHead (r : OperationTable.Registration T)
  | make (r : OperationTable.Registration T) (op : Nat)
  | addSet (r : OperationTable.Registration T) (op a : Nat) (id : String)
      (ids : List String) (cursor : Cursor)

/-- `add_interface` with its variables; `added` is what it has linked so far. -/
structure AddCall (T : Type) where
  desired : Desired
  todo : List (OperationTable.Registration T)
  result : Option Nat
  added : List (String × String)
  pc : AddPc T

namespace AddPc

variable {T : Type}

/-- The next `op_ptr->add_set (new OpArgs (id, arg_list))`. -/
def nextSet (r : OperationTable.Registration T) (op a : Nat) : List String → AddPc T
  | [] => .between
  | id :: ids => .addSet r op a id ids (.test (.argSet op))

def links : AddPc T → Option TablePointer
  | .findOrAdd _ cursor | .addSet _ _ _ _ _ cursor => cursor.links
  | .between | .returnHead _ | .make _ _ => none

/-- The interface repository is asked before a registration and before the list
is made. -/
def mayRaise : AddPc T → Bool
  | .between | .make _ _ => true
  | .findOrAdd _ _ | .returnHead _ | .addSet _ _ _ _ _ _ => false

end AddPc

namespace AddCall

variable {T : Type}

def step (cmp : Strcmp) (m : TableMemory T) (c : AddCall T) :
    TableWrite T × Next (AddCall T) (Option Nat) :=
  match c.pc with
  | .between =>
      match c.todo with
      | [] => (.nothing, .back c.result)
      | r :: todo => (.nothing, .go { c with todo, pc := .findOrAdd r (.test .head) })
  | .findOrAdd r (.test p) => (.nothing, .go { c with pc := .findOrAdd r (m.test p) })
  | .findOrAdd r (.link p) =>
      -- behind `head_` the new node is not at hand: `return head_` reads it again
      (.operation p r.name, .go { c with
        pc := if p = .head then .returnHead r else .make r m.names.length })
  | .findOrAdd r (.follow p) =>
      (.nothing,
        match m.pointers p with
        | none => .crash
        | some op =>
            match m.names[op]? with
            | none => .crash
            | some name =>
                match below cmp r.name name op with
                | none => .go { c with pc := .make r op }
                | some q => .go { c with pc := .findOrAdd r (.test q) })
  | .returnHead r =>
      (.nothing,
        match m.pointers .head with
        | none => .crash
        | some op => .go { c with pc := .make r op })
  | .make r op =>
      (.argList r.list, .go { c with
        result := if r.wanted c.desired then some m.lists.length else c.result
        pc := .nextSet r op m.lists.length r.ids })
  | .addSet r op a id ids (.test p) =>
      (.nothing, .go { c with pc := .addSet r op a id ids (m.test p) })
  | .addSet r op a id ids (.link p) =>
      (.opArgs p r.name id a, .go { c with
        added := c.added ++ [(r.name, id)]
        pc := .nextSet r op a ids })
  | .addSet r op a id ids (.follow p) =>
      (.nothing,
        match m.pointers p with
        | none => .crash
        | some oa => .go { c with pc := .addSet r op a id ids (.test (.next oa)) })

variable (cmp : Strcmp) (m : TableMemory T) {desired : Desired}
  {todo : List (OperationTable.Registration T)} {result : Option Nat}
  {added : List (String × String)} {r : OperationTable.Registration T} {p : TablePointer}

/-- `find_or_add` reads a pointer that was not null. -/
theorem step_followTree {c : AddCall T}
    (hc : c = ⟨desired, todo, result, added, .findOrAdd r (.follow p)⟩) :
    c.step cmp m = (.nothing, .crash) ∨
      (∃ op, m.pointers p = some op ∧ m.names[op]? = some r.name ∧
        c.step cmp m = (.nothing, .go { c with pc := .make r op })) ∨
      ∃ op name q, m.pointers p = some op ∧ m.names[op]? = some name ∧
        below cmp r.name name op = some q ∧
        c.step cmp m = (.nothing, .go { c with pc := .findOrAdd r (.test q) }) := by
  subst hc
  cases hp : m.pointers p with
  | none => exact .inl (by simp only [step, hp])
  | some op =>
      cases hname : m.names[op]? with
      | none => exact .inl (by simp only [step, hp, hname])
      | some name =>
          cases hbelow : below cmp r.name name op with
          | none =>
              refine .inr (.inl ⟨op, rfl, ?_, by simp only [step, hp, hname, hbelow]⟩)
              rw [hname, below_none.mp hbelow]
          | some q =>
              exact .inr (.inr ⟨op, name, q, rfl, hname, hbelow,
                by simp only [step, hp, hname, hbelow]⟩)

/-- `add_set` reads a pointer that was not null. -/
theorem step_followChain {op a : Nat} {id : String} {ids : List String} {c : AddCall T}
    (hc : c = ⟨desired, todo, result, added, .addSet r op a id ids (.follow p)⟩) :
    c.step cmp m = (.nothing, .crash) ∨ ∃ oa, m.pointers p = some oa ∧
      c.step cmp m = (.nothing, .go { c with pc := .addSet r op a id ids (.test (.next oa)) }) := by
  subst hc
  cases hp : m.pointers p with
  | none => exact .inl (by simp only [step, hp])
  | some oa => exact .inr ⟨oa, rfl, by simp only [step, hp]⟩

theorem step_returnHead {c : AddCall T}
    (hc : c = ⟨desired, todo, result, added, .returnHead r⟩) :
    c.step cmp m = (.nothing, .crash) ∨
      ∃ op, c.step cmp m = (.nothing, .go { c with pc := .make r op }) := by
  subst hc
  cases hhead : m.pointers .head with
  | none => exact .inl (by simp only [step, hhead])
  | some op => exact .inr ⟨op, by simp only [step, hhead]⟩

end AddCall

/-- A call on the table. `due` is whether the pair `find` asks for had been added
by an `add_interface` that had returned when `find` was called. -/
inductive SharedCall (T : Type) where
  | find (opname repId : String) (due : Bool) (p : TablePointer)
  | addInterface (c : AddCall T)

/-- `ACE_Write_Guard` and not `ACE_Read_Guard`. -/
def SharedCall.exclusive {T : Type} : SharedCall T → Bool
  | .find .. => false
  | .addInterface _ => true

inductive SharedThread (T : Type) where
  | idle
  /-- at the constructor of the guard -/
  | acquiring (call : SharedCall T)
  /-- at its destructor -/
  | releasing (call : SharedCall T)
  | running (call : SharedCall T)
  | crashed

/-- The pointer a thread is about to link a new object at. -/
def SharedThread.links {T : Type} : SharedThread T → Option TablePointer
  | .running (.addInterface c) => c.pc.links
  | _ => none

/-! ## Runs -/

/-- What a `find` has come back with. -/
structure TableAnswer where
  opname : String
  repId : String
  due : Bool
  found : Option Nat
deriving DecidableEq, Repr

/-- The table with its `ACE_RW_Thread_Mutex`, and its threads; `returned` holds the pairs that the calls of
`add_interface` have added that have returned, `answers` what the calls of `find`
have come back with. -/
structure SharedTable (T : Type) where
  memory : TableMemory T
  lock : RwLock
  threads : Nat → SharedThread T
  returned : List (String × String)
  answers : Nat → List TableAnswer

/-- A thread calls, or takes its next step. An exception of the interface
repository ends `add_interface`. -/
inductive SharedEvent (ι T : Type) where
  | find (t : Nat) (opname repId : String)
  | addInterface (t : Nat) (repo : Repository ι T) (intDef : ι) (desired : Option String)
  | advance (t : Nat)
  | raise (t : Nat)

namespace SharedEvent

variable {ι T : Type}

def thread : SharedEvent ι T → Nat
  | .find t _ _ | .addInterface t _ _ _ | .advance t | .raise t => t

/-- A step within a call of this thread. -/
def advances (t : Nat) : SharedEvent ι T → Bool
  | .advance u => u == t
  | .find .. | .addInterface .. | .raise _ => false

end SharedEvent

namespace SharedTable

variable {ι T : Type}

def moveTo (s : SharedTable T) (t : Nat) (thread : SharedThread T) : SharedTable T :=
  { s with threads := Function.update s.threads t thread }

/-- A thread that is in no call makes one. -/
def call (s : SharedTable T) (t : Nat) (c : SharedCall T) : Option (SharedTable T) :=
  match s.threads t with
  | .idle => some (s.moveTo t (.acquiring c))
  | _ => none

def answer (s : SharedTable T) (t : Nat) (ans : TableAnswer) : SharedTable T :=
  { s with answers := Function.update s.answers t (s.answers t ++ [ans]) }

section Step

variable (cmp : Strcmp) (prims : OperationTable.Primitives T)

def advanceFind (s : SharedTable T) (t : Nat) (opname repId : String) (due : Bool)
    (p : TablePointer) : SharedTable T :=
  match s.memory.look cmp opname repId p with
  | .go q => s.moveTo t (.running (.find opname repId due q))
  | .back found => (s.answer t ⟨opname, repId, due, found⟩).moveTo t .idle
  | .crash => s.moveTo t .crashed

def advanceAdd (s : SharedTable T) (t : Nat) (c : AddCall T) : SharedTable T :=
  let (write, next) := c.step cmp s.memory
  let s := { s with memory := s.memory.apply write }
  match next with
  | .go c => s.moveTo t (.running (.addInterface c))
  | .back _ => { s with returned := s.returned ++ c.added }.moveTo t .idle
  | .crash => s.moveTo t .crashed

def advance (s : SharedTable T) (t : Nat) : Option (SharedTable T) :=
  match s.threads t with
  | .idle => none
  | .acquiring call =>
      (s.lock.acquire call.exclusive).map fun lock =>
        { s with lock }.moveTo t (.releasing call)
  | .releasing call =>
      some ({ s with lock := s.lock.release call.exclusive }.moveTo t (.running call))
  | .running (.find opname repId due p) => some (s.advanceFind cmp t opname repId due p)
  | .running (.addInterface c) => some (s.advanceAdd cmp t c)
  | .crashed => none

def step (s : SharedTable T) : SharedEvent ι T → Option (SharedTable T)
  | .find t opname repId =>
      s.call t (.find opname repId (s.returned.contains (opname, repId)) .head)
  | .addInterface t repo intDef desired =>
      -- `desired_op` is looked at before the guard
      match Desired.wantsAttribute desired with
      | .error _ => none
      | .ok wantAttribute =>
          s.call t (.addInterface ⟨⟨desired, wantAttribute⟩,
            OperationTable.registrations prims repo intDef, none, [], .between⟩)
  | .advance t => s.advance cmp t
  | .raise t =>
      match s.threads t with
      | .running (.addInterface c) => if c.pc.mayRaise then some (s.moveTo t .idle) else none
      | _ => none

def create : SharedTable T :=
  ⟨.create cmp prims, ⟨0, false⟩, fun _ => .idle, [], fun _ => []⟩

def system (ι : Type) : System (SharedTable T) (SharedEvent ι T) where
  init s := s = create cmp prims
  step := step cmp prims

end Step

/-- A thread that links a new object finds the pointer as it tested it: no other
thread has linked one there meanwhile. -/
def Unraced (s : SharedTable T) : SharedEvent ι T → Prop
  | .advance t => ∀ p ∈ (s.threads t).links, s.memory.pointers p = none
  | .find .. | .addInterface .. | .raise _ => True

instance (s : SharedTable T) (event : SharedEvent ι T) : Decidable (s.Unraced event) :=
  match event with
  | .advance t =>
      inferInstanceAs (Decidable (∀ p ∈ (s.threads t).links, s.memory.pointers p = none))
  | .find .. | .addInterface .. | .raise _ => inferInstanceAs (Decidable True)

/-- No added pair is lost: a `find` that is called after the `add_interface` has
returned comes back with the list that was linked for the pair first, and it comes
back after so many steps of its own, whatever the others do. -/
structure NoneLost (sys : System (SharedTable T) (SharedEvent ι T))
    (guard : SharedTable T → SharedEvent ι T → Prop)
    [∀ s event, Decidable (guard s event)] (s : SharedTable T) : Prop where
  answered : ∀ t, ∀ ans ∈ s.answers t, ans.due →
    ∃ a, ans.found = some a ∧ s.memory.opArgs.lookup (ans.opname, ans.repId) = some a
  underWay : ∀ t opname repId p,
    s.threads t = .acquiring (.find opname repId true p) ∨
      s.threads t = .releasing (.find opname repId true p) ∨
      s.threads t = .running (.find opname repId true p) →
    ∃ k, ∀ events s', sys.replay guard s events = some s' →
      k ≤ events.countP (·.advances t) → (s.answers t).length < (s'.answers t).length

end SharedTable

end Lorica
