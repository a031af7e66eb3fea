import Lorica.AddInterface
import Lorica.TypeCode
import Lorica.ProxyMapper

/-!
`GenericEvaluator.cpp`: the references in the arguments of a request, in a
reply and in a user exception are replaced by mapped ones. Every reference
says where it came from, which no operation reads.

The dynamic any factory is code outside this repository. It enters as the
type codes it refuses; what it makes of the others behaves as the value. The
interface repository is taken to answer, and what was decoded to marshal.
-/

namespace Lorica

open Machine

/-- A reference in a value: as it came off the wire, or put there by
`mapped_for_native` for the given `out_facing`. -/
inductive Reference where
  | incoming (ref : ObjRef)
  | mapped (outFacing : Bool) (ref : ObjRef)
deriving DecidableEq, Repr

def Reference.object : Reference → ObjRef
  | .incoming ref => ref
  | .mapped _ ref => ref

structure NamedValue (ρ : Type) where
  flags : Flags
  tc : Nat
  value : Value ρ

namespace Registry

/-- `other_POA` of the mapper at position `m`. -/
def otherPoa (m : Nat) (poa : Poa) : Poa :=
  if poa = ⟨m, false⟩ then ⟨m, true⟩ else ⟨m, false⟩

/-- `want_outfacing` in `mapped_for_native` -/
def wantOutfacing (m : Nat) (poa : Poa) : Bool := poa == ⟨m, false⟩

/-- `mapped_for_native` of a reference that is not nil; `none` for false. -/
def mappedForNative (orb : Orb) (inst : Instance) (ref : ObjRef) (outFacing : Bool) :
    RegistryM (Option ObjRef) := do
  match ← mapReference orb inst ref outFacing false with
  | none => pure none
  | some a =>
      Action.inScope
        (do let v ← readValue a
            pure (some v.mappedRef))
        (decrRefcount a)

end Registry

/-- The state of one evaluation: the operation table, the registry, and the
values the evaluator is handed and hands back. -/
structure Frame where
  table : OperationTable Nat
  reg : Registry
  args : List (NamedValue Reference)
  outArgs : List (NamedValue Reference)
  result : Option (NamedValue Reference)
  encap : Option (NamedValue Reference)

abbrev EvalM (α : Type) := Action Frame Exn α

structure GenericEvaluator (ι : Type) where
  typeId : String
  intDef : ι
  repo : Repository ι Nat
  prims : OperationTable.Primitives Nat
  cmp : Strcmp
  types : TypeGraph
  /-- `create_dyn_any` and `get_dyn_any` raise for these type codes -/
  dynAnyRefuses : Nat → Option Exn
  /-- the nesting of calls the stack has room for -/
  stack : Nat
  orb : Orb
  inst : Instance
  mapper : Nat

namespace GenericEvaluator

variable {ι : Type} (ev : GenericEvaluator ι)

/-! ## Walking a value -/

section Walk

variable (outFacing : Bool)

/-- The case `tk_objref` of `proxify`; nil maps to nil. -/
def proxifyReference : Value Reference → RegistryM (Bool × Value Reference)
  | .object none => pure (false, .object none)
  | .object (some ref) => do
      match ← Registry.mappedForNative ev.orb ev.inst ref.object outFacing with
      | none => pure (false, .object (some ref))
      | some mappedRef => pure (true, .object (some (.mapped outFacing mappedRef)))
  | _ => Action.raise (.user "TypeMismatch")

section Recursion

-- `has_objref` and `proxify` with what is left of the stack
variable (has : Nat → Except Fault Bool)
  (proxify : Nat → Value Reference → RegistryM (Bool × Value Reference))

def proxifyIfObjref (tc : Nat) (v : Value Reference) :
    RegistryM (Bool × Value Reference) :=
  match has tc with
  | .error cause => Action.fail cause
  | .ok true => proxify tc v
  | .ok false => pure (false, v)

def proxifyMembers : List Nat → List (Value Reference) →
    RegistryM (Bool × List (Value Reference))
  | [], vs => pure (false, vs)
  | _ :: _, [] => Action.raise (.user "InvalidValue")
  | tc :: tcs, v :: vs => do
      let (changed, v) ← proxifyIfObjref has proxify tc v
      let (changed', vs) ← proxifyMembers tcs vs
      pure (changed || changed', v :: vs)

def proxifyElements (tc : Nat) : List (Value Reference) →
    RegistryM (Bool × List (Value Reference))
  | [] => pure (false, [])
  | v :: vs => do
      let (changed, v) ← proxify tc v
      let (changed', vs) ← proxifyElements tc vs
      pure (changed || changed', v :: vs)

def proxifyStruct (members : List Nat) :
    Value Reference → RegistryM (Bool × Value Reference)
  | .composite vs => do
      let (changed, vs) ← proxifyMembers has proxify members vs
      pure (changed, .composite vs)
  | _ => Action.raise (.user "TypeMismatch")

def proxifySequence (content : Nat) :
    Value Reference → RegistryM (Bool × Value Reference)
  | .composite vs =>
      match has content with
      | .error cause => Action.fail cause
      | .ok false => pure (false, .composite vs)
      | .ok true => do
          let (changed, vs) ← proxifyElements proxify content vs
          pure (changed, .composite vs)
  | _ => Action.raise (.user "TypeMismatch")

/-- An array is no sequence: `DynSequence::_narrow` gives null for it. -/
def proxifyArray (content : Nat) (v : Value Reference) :
    RegistryM (Bool × Value Reference) :=
  match has content with
  | .error cause => Action.fail cause
  | .ok false => pure (false, v)
  | .ok true => Action.fail .nullDereference

def proxifyUnion (members : List Nat) :
    Value Reference → RegistryM (Bool × Value Reference)
  | .union discriminator none => pure (false, .union discriminator none)
  | .union discriminator (some (i, v)) =>
      match members[i]? with
      | none => Action.raise (.user "InvalidValue")
      | some tc => do
          let (changed, v) ← proxifyIfObjref has proxify tc v
          pure (changed, .union discriminator (some (i, v)))
  | _ => Action.raise (.user "TypeMismatch")

/-- The case `tk_any` of `proxify`: the factory makes a dynamic any of the
content. -/
def proxifyContent : Value Reference → RegistryM (Bool × Value Reference)
  | .any tc v =>
      match ev.dynAnyRefuses tc with
      | some e => Action.raise e
      | none => do
          let (changed, v) ← proxifyIfObjref has proxify tc v
          pure (changed, .any tc v)
  | _ => Action.raise (.user "TypeMismatch")

end Recursion

/-- `proxify`; the flag says whether anything was replaced. Kinds that are not
listed are left alone. -/
def proxify : Nat → Nat → Value Reference → RegistryM (Bool × Value Reference)
  | 0, _, _ => Action.fail .stackExhausted
  | depth + 1, tc, v =>
      match ev.types.kind tc with
      | .tkObjref => ev.proxifyReference outFacing v
      | .tkStruct members =>
          proxifyStruct (ev.types.hasObjref depth) (proxify depth) members v
      | .tkExcept _ members =>
          proxifyStruct (ev.types.hasObjref depth) (proxify depth) members v
      | .tkArray content => proxifyArray (ev.types.hasObjref depth) content v
      | .tkSequence content =>
          proxifySequence (ev.types.hasObjref depth) (proxify depth) content v
      | .tkUnion members =>
          proxifyUnion (ev.types.hasObjref depth) (proxify depth) members v
      | .tkAny => ev.proxifyContent (ev.types.hasObjref depth) (proxify depth) v
      | _ => pure (false, v)

/-- What `any = tmp.in ()` in `proxify_any` assigns: nothing unless something in
the any was replaced. -/
def assignedAny (tc : Nat) (v : Value Reference) : RegistryM (Option (Value Reference)) :=
  match ev.dynAnyRefuses tc with
  | some e => Action.raise e
  | none => do
      let (changed, v') ← ev.proxify outFacing ev.stack tc v
      pure (if changed then some v' else none)

/-- `proxify_any`: the any as it is left. -/
def proxifyAny (tc : Nat) (v : Value Reference) : RegistryM (Value Reference) := do
  let assigned ← ev.assignedAny outFacing tc v
  pure (assigned.getD v)

theorem proxifyAny_refused {tc : Nat} {e : Exn} (h : ev.dynAnyRefuses tc = some e)
    (v : Value Reference) : ev.proxifyAny outFacing tc v = Action.raise e := by
  unfold proxifyAny assignedAny
  rw [h]
  rfl

theorem proxifyAny_accepted {tc : Nat} (h : ev.dynAnyRefuses tc = none)
    (v : Value Reference) :
    ev.proxifyAny outFacing tc v =
      (do let (changed, v') ← ev.proxify outFacing ev.stack tc v
          pure (if changed then v' else v)) := by
  unfold proxifyAny assignedAny
  rw [h]
  refine (bind_assoc _ _ _).trans (bind_congr ?_)
  rintro ⟨_ | _, v'⟩
  · rfl
  · rfl

end Walk

/-! ## Arguments, results and exceptions -/

def onRegistry {α : Type} (x : RegistryM α) : EvalM α :=
  Action.zoom Frame.reg (fun s reg => { s with reg := reg }) x

/-- Where in an argument list a flag is. -/
inductive FlagPlace where
  | argument (i : Nat)
  | result
  | exception (i : Nat)

/-- `must_proxy_ = flag` in a list. -/
def FlagPlace.write (place : FlagPlace) (flag : Bool) (l : ArgList Nat) : ArgList Nat :=
  let set (arg : Arg Nat) : Arg Nat := { arg with mustProxy := if flag then 1 else 0 }
  match place with
  | .argument i => { l with args := l.args.modify i set }
  | .result => { l with result := set l.result }
  | .exception i => { l with exceptions := l.exceptions.modify i set }

def mark (a : Nat) (place : FlagPlace) (flag : Bool) : EvalM Unit :=
  Action.modify fun s => { s with table := { s.table with
    lists := fun b =>
      if b = a then (s.table.lists b).map fun c => (place.write flag c.1, c.2)
      else s.table.lists b } }

/-- Whether there is something to replace: the flag, which is determined the
first time. -/
def mustProxy (a : Nat) (place : FlagPlace) (arg : Arg Nat) : EvalM Bool :=
  if arg.mustProxy = 0 then pure false
  else if arg.mustProxy = -1 then
    match arg.tc with
    | none => Action.fail .nullDereference
    | some tc =>
        match ev.types.hasObjref ev.stack tc with
        | .error cause => Action.fail cause
        | .ok flag => do
            mark a place flag
            pure flag
  else pure true

def proxifyIfMust (outFacing : Bool) (a : Nat) (place : FlagPlace) (arg : Arg Nat)
    (nv : NamedValue Reference) : EvalM (NamedValue Reference) := do
  let must ← ev.mustProxy a place arg
  if must then do
    let v ← onRegistry (ev.proxifyAny outFacing nv.tc nv.value)
    pure { nv with value := v }
  else pure nv

/-- `while (nv->flags () == exclude) nv = args->item (n_arg++)`, with the items
passed over. -/
def nextItem (exclude : Flags) : List (NamedValue Reference) →
    Option (List (NamedValue Reference) × NamedValue Reference ×
      List (NamedValue Reference))
  | [] => none
  | nv :: rest =>
      if nv.flags = exclude then
        (nextItem exclude rest).map fun (skipped, found, rest) =>
          (nv :: skipped, found, rest)
      else some ([], nv, rest)

/-- The loop of `proxify_params`; the list is what was handled before and the
rest the cursor has not passed yet. -/
def paramsLoop (outFacing : Bool) (a : Nat) (exclude : Flags) :
    Nat → List (Arg Nat) → List (NamedValue Reference) →
    List (NamedValue Reference) → EvalM Unit
  | _, [], _, _ => pure ()
  | i, arg :: arguments, before, rest =>
      if arg.mode = exclude then
        paramsLoop outFacing a exclude (i + 1) arguments before rest
      else
        match nextItem exclude rest with
        | none => Action.raise (.user "Bounds")
        | some (skipped, nv, rest) => do
            let nv ← ev.proxifyIfMust outFacing a (.argument i) arg nv
            Action.modify fun s => { s with args := before ++ skipped ++ nv :: rest }
            paramsLoop outFacing a exclude (i + 1) arguments
              (before ++ skipped ++ [nv]) rest

def proxifyParams (outFacing : Bool) (a : Nat) (l : ArgList Nat) (direction : Flags) :
    EvalM Unit :=
  if l.mustProxy direction = 0 then pure ()
  else do
    let s ← Action.get
    ev.paramsLoop outFacing a (if direction = .argIn then .argOut else .argIn) 0 l.args
      [] s.args

def replaceResult (outFacing : Bool) : EvalM Unit := do
  let s ← Action.get
  match s.result with
  | none => Action.fail .nullDereference
  | some nv => do
      let v ← onRegistry (ev.proxifyAny outFacing nv.tc nv.value)
      Action.modify fun s => { s with result := some { nv with value := v } }

def proxifyResult (outFacing : Bool) (a : Nat) (l : ArgList Nat) : EvalM Unit := do
  let must ← ev.mustProxy a .result l.result
  if must then ev.replaceResult outFacing else pure ()

/-! ## The three evaluations -/

/-- How `add_interface` ends: with a list or null, or with what the repository
raises. -/
abbrev Added := Except Fault (Except Exn (Option Nat) × OperationTable Nat)

/-- The list of an operation: from the table, or else as it is added. -/
def lookupBy (add : OperationTable Nat → Added) (operation : String) (t : OperationTable Nat) :
    Added :=
  match t.find ev.cmp operation ev.typeId with
  | (some a, t) => .ok (.ok (some a), t)
  | (none, t) => add t

/-- `add_interface` when the repository answers. -/
def added (operation : String) (t : OperationTable Nat) : Added :=
  (t.addInterface ev.cmp ev.prims ev.repo ev.intDef (some operation)).map fun p => (.ok p.1, p.2)

/-- The lookup when the repository answers. -/
def lookup (operation : String) (t : OperationTable Nat) :
    Except Fault (Option Nat × OperationTable Nat) :=
  match t.find ev.cmp operation ev.typeId with
  | (some a, t) => .ok (some a, t)
  | (none, t) => t.addInterface ev.cmp ev.prims ev.repo ev.intDef (some operation)

/-- The list behind a pointer. -/
def deref (found : Except Fault (Option Nat × OperationTable Nat)) :
    Except Fault (Nat × ArgList Nat × OperationTable Nat) :=
  match found with
  | .error cause => .error cause
  | .ok (none, _) => .error .nullDereference
  | .ok (some a, t) =>
      match t.lists a with
      | none => .error .danglingPointer
      | some (l, _) => .ok (a, l, t)

def argList (found : Except Fault (Nat × ArgList Nat × OperationTable Nat)) :
    EvalM (Nat × ArgList Nat) := do
  let (a, l, t) ← Action.ofExcept found
  Action.modify fun s => { s with table := t }
  pure (a, l)

/-- The exception of `add_interface` is passed on; `arg_list` is still null then. -/
def takeList : Added → EvalM (Nat × ArgList Nat)
  | .error cause => Action.fail cause
  | .ok (.error e, t) => do
      Action.modify fun s => { s with table := t }
      Action.raise e
  | .ok (.ok found, t) => argList (deref (.ok (found, t)))

/-- `prepare_request`: an item without a value for each argument. -/
def prepareRequest : List (Arg Nat) → Except Fault (List (NamedValue Reference))
  | [] => .ok []
  | arg :: rest =>
      match arg.tc, prepareRequest rest with
      | none, _ => .error .nullDereference
      | _, .error cause => .error cause
      | some tc, .ok items => .ok (⟨arg.mode, tc, .plain []⟩ :: items)

/-- Decode values into the items that travel in this direction. -/
def fill (skip : Flags) : List (NamedValue Reference) → List (Value ObjRef) →
    Except Exn (List (NamedValue Reference))
  | [], _ => .ok []
  | nv :: rest, values =>
      if nv.flags = skip then (fill skip rest values).map (nv :: ·)
      else
        match values with
        | [] => .error (.system "MARSHAL")
        | v :: values =>
            (fill skip rest values).map ({ nv with value := v.map .incoming } :: ·)

/-- What the request brings along, or what decoding it raises. -/
def arguments (items : List (NamedValue Reference))
    (decoded : Except Exn (List (Value ObjRef))) :
    Except Exn (List (NamedValue Reference)) :=
  match decoded with
  | .error e => .error e
  | .ok values => fill .argOut items values

/-- The result the reply will have, unless it has none. -/
def prepareResult (l : ArgList Nat) : EvalM Unit :=
  match l.result.tc with
  | none => Action.fail .nullDereference
  | some tc =>
      if ev.types.node tc = .tkNull ∨ ev.types.node tc = .tkVoid then pure ()
      else Action.modify fun s => { s with result := some ⟨.unset, tc, .plain []⟩ }

/-- What is needed to marshal the reply later, unless there will be none. -/
def prepareReply (l : ArgList Nat) : EvalM Unit :=
  if l.isOneway then pure ()
  else do
    Action.modify fun s => { s with
      outArgs := s.outArgs ++
        s.args.filter (fun nv => nv.flags = .argInout ∨ nv.flags = .argOut) }
    ev.prepareResult l

def setArguments (args : Except Exn (List (NamedValue Reference))) : EvalM Unit :=
  match args with
  | .error e => Action.raise e
  | .ok args => Action.modify fun s => { s with args := args }

/-- The rest of `evaluate_request`, with the list. -/
def forwardRequest (reqPoa : Poa) (decoded : Except Exn (List (Value ObjRef)))
    (found : Nat × ArgList Nat) : EvalM Bool := do
  let (a, l) := found
  let items ← Action.ofExcept (prepareRequest l.args)
  setArguments (arguments items decoded)
  ev.proxifyParams (Registry.wantOutfacing ev.mapper reqPoa) a l .argIn
  ev.prepareReply l
  pure true

/-- `evaluate_request`, however its call of `add_interface` ends. -/
def evaluateRequestBy (add : OperationTable Nat → Added) (operation : String) (reqPoa : Poa)
    (decoded : Except Exn (List (Value ObjRef))) : EvalM Bool := do
  let s ← Action.get
  let found ← takeList (ev.lookupBy add operation s.table)
  ev.forwardRequest reqPoa decoded found

def evaluateRequest (operation : String) (reqPoa : Poa)
    (decoded : Except Exn (List (Value ObjRef))) : EvalM Bool :=
  ev.evaluateRequestBy (ev.added operation) operation reqPoa decoded

def evaluateReply (operation : String) (reqPoa : Poa) : EvalM Bool := do
  let s ← Action.get
  let (a, l) ← argList (deref (.ok (s.table.find ev.cmp operation ev.typeId)))
  ev.proxifyResult (Registry.wantOutfacing ev.mapper reqPoa) a l
  ev.proxifyParams (Registry.wantOutfacing ev.mapper reqPoa) a l .argOut
  pure true

/-- `find_exception`: the last exception with this id. The table makes no
exception without a type code. -/
def findException (exType : String) : Nat → List (Arg Nat) →
    Option (Nat × Arg Nat × Nat)
  | _, [] => none
  | i, arg :: rest =>
      (findException exType (i + 1) rest).or
        (arg.tc.bind fun tc =>
          match ev.types.node tc with
          | .tkExcept id _ => if exType = id then some (i, arg, tc) else none
          | _ => none)

/-- The exception is decoded, rewritten and marshalled again. -/
def proxifyException (outFacing : Bool) (a i : Nat) (arg : Arg Nat)
    (decoded : Except Exn (NamedValue Reference)) : EvalM Bool :=
  match decoded with
  | .error e => Action.raise e
  | .ok nv => do
      let nv ← ev.proxifyIfMust outFacing a (.exception i) arg nv
      Action.modify fun s => { s with encap := some nv }
      pure true

def evaluateException (operation : String) (reqPoa : Poa) (exType : String)
    (decoded : Nat → Except Exn (Value ObjRef)) : EvalM Bool := do
  let s ← Action.get
  let (a, l) ← argList (deref (.ok (s.table.find ev.cmp operation ev.typeId)))
  match ev.findException exType 0 l.exceptions with
  | none => pure false
  | some (i, arg, tc) =>
      ev.proxifyException (Registry.wantOutfacing ev.mapper reqPoa) a i arg
        ((decoded tc).map fun v => ⟨.unset, tc, v.map .incoming⟩)

section Requests

variable (operation : String) (t : OperationTable Nat)

theorem takeList_added :
    takeList (ev.lookupBy (ev.added operation) operation t) =
      argList (deref (ev.lookup operation t)) := by
  unfold lookupBy lookup
  split
  · rfl
  · next t' _ =>
      unfold added
      cases t'.addInterface ev.cmp ev.prims ev.repo ev.intDef (some operation) <;> rfl

/-- The evaluation when the repository answers. -/
theorem evaluateRequest_eq (reqPoa : Poa) (decoded : Except Exn (List (Value ObjRef))) :
    ev.evaluateRequest operation reqPoa decoded =
      (Action.get >>= fun s => argList (deref (ev.lookup operation s.table)) >>=
        ev.forwardRequest reqPoa decoded) := by
  unfold evaluateRequest evaluateRequestBy
  simp only [takeList_added]

end Requests

section Keeping

variable {ev} {P : Frame → Prop}

/-- What the walk over a type needs besides: the flag that is left behind. -/
theorem mustProxy_keeps {a : Nat} {place : FlagPlace} {arg : Arg Nat}
    (hmark : ∀ tc flag, arg.tc = some tc → ev.types.hasObjref ev.stack tc = .ok flag →
      Action.Keeps P (mark a place flag)) : Action.Keeps P (ev.mustProxy a place arg) := by
  unfold mustProxy
  split
  · exact Action.Keeps.pure _
  · split
    · cases htc : arg.tc with
      | none => exact Action.Keeps.fail _
      | some tc =>
          dsimp only
          cases hflag : ev.types.hasObjref ev.stack tc with
          | error cause => exact Action.Keeps.fail _
          | ok flag => exact (hmark tc flag htc hflag).bind fun _ => Action.Keeps.pure _
    · exact Action.Keeps.pure _

theorem onRegistry_keeps {α : Type} (x : RegistryM α)
    (hreg : ∀ s reg, P s → P { s with reg := reg }) : Action.Keeps P (onRegistry x) :=
  Action.Keeps.zoom x hreg

theorem proxifyIfMust_keeps (hreg : ∀ s reg, P s → P { s with reg := reg }) {f : Bool} {a : Nat}
    {place : FlagPlace} {arg : Arg Nat} (hmust : Action.Keeps P (ev.mustProxy a place arg))
    (nv : NamedValue Reference) : Action.Keeps P (ev.proxifyIfMust f a place arg nv) := by
  refine hmust.bind fun must => ?_
  cases must with
  | false => exact Action.Keeps.pure _
  | true => exact (onRegistry_keeps _ hreg).bind fun _ => Action.Keeps.pure _

/-- The induction is on the arguments that are left. -/
theorem paramsLoop_keeps (hreg : ∀ s reg, P s → P { s with reg := reg })
    (hargs : ∀ s args, P s → P { s with args := args }) {f : Bool} {a : Nat} {exclude : Flags}
    {i : Nat} {arguments : List (Arg Nat)}
    (hmust : ∀ j arg, arguments[j]? = some arg →
      Action.Keeps P (ev.mustProxy a (.argument (i + j)) arg))
    (before rest : List (NamedValue Reference)) :
    Action.Keeps P (ev.paramsLoop f a exclude i arguments before rest) := by
  induction arguments generalizing i before rest with
  | nil => exact Action.Keeps.pure _
  | cons arg arguments ih =>
      have hrest : ∀ before rest,
          Action.Keeps P (ev.paramsLoop f a exclude (i + 1) arguments before rest) := by
        refine ih fun j arg' hj => ?_
        rw [Nat.add_right_comm]
        exact hmust (j + 1) arg' hj
      unfold paramsLoop
      split
      · exact hrest _ _
      · cases nextItem exclude rest with
        | none => exact Action.Keeps.raise _
        | some item =>
            obtain ⟨skipped, nv, rest⟩ := item
            refine (proxifyIfMust_keeps hreg (hmust 0 arg rfl) nv).bind fun nv => ?_
            refine Action.Keeps.bind (Action.Keeps.modify fun s hs => hargs s _ hs) fun _ => ?_
            exact hrest _ _

end Keeping

end GenericEvaluator

end Lorica
