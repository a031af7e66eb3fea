import Lorica.Firewall

/-!
`ProxyReplyHandler.cpp`: the reply to a forwarded request on its way back to
the requester. The evaluator is a virtual object and enters as two functions;
the calls of the response handler are recorded, and what each of them does is
up to TAO.
-/

namespace Lorica

open Machine

/-- The virtual functions that see a reply. Exceptions are written to the
encapsulation of the frame. -/
structure ReplyEvaluator where
  evaluateReply : String → Poa → EvalM Bool
  evaluateException : String → Poa → String → (Nat → Except Exn (Value ObjRef)) →
    EvalM Bool

/-- The generic evaluator behind the virtual functions. -/
def GenericEvaluator.virtual {ι : Type} (ev : GenericEvaluator ι) : ReplyEvaluator where
  evaluateReply := ev.evaluateReply
  evaluateException := ev.evaluateException

/-- `TAO_AMI_REPLY_...` -/
inductive ReplyStatus where
  | ok
  | notOk
  | userException
  | systemException
  | locationForward
  | locationForwardPerm
  | other (status : UInt32)
deriving DecidableEq, Repr

/-- A call of a method of `response_handler_`. An exception goes with its minor
code and completion status where the handler sets them. -/
inductive Answer where
  | invokeReply (outArgs : List (NamedValue Reference))
      (result : Option (NamedValue Reference))
  | invokeExcep (exception : Exn) (details : Option (UInt32 × UInt32))
  | gatewayExceptionReply (status : ReplyStatus) (encap : Option (NamedValue Reference))
  | invokeLocationForward (fwd : Option Reference) (isPerm : Bool)

/-- `CORBA::MARSHAL ex (0, CORBA::COMPLETED_MAYBE)` -/
def Answer.marshal : Answer := .invokeExcep (.system "MARSHAL") (some (0, 2))

/-- The part of an exception reply that is read: the id, the two numbers of a
system exception, and what decoding the body as a type code gives. Reading a
string or a number may fail. -/
structure ExceptionBody where
  id : Option String
  minor : Option UInt32
  completion : Option UInt32
  exception : Nat → Except Exn (Value ObjRef)

/-- A reply as it arrives, with the outcomes of decoding it. -/
inductive ReplyEvent where
  | response (result : Nat → Except Exn (Value ObjRef))
      (outArgs : Except Exn (List (Value ObjRef)))
  | excep (body : ExceptionBody) (status : ReplyStatus)
  | locationForward (fwd : Except Exn (Option (Option ObjRef))) (status : ReplyStatus)

structure ReplyState where
  frame : Frame
  answers : List Answer

abbrev ReplyM (α : Type) := Action ReplyState Exn α

/-- The members of the handler. Its out arguments are never null, as the
servant always makes the list; they and the result are in the frame. -/
structure ProxyReplyHandler where
  operation : String
  poa : Poa
  evaluator : ReplyEvaluator
  mapper : Nat
  orb : Orb
  inst : Instance
  /-- `response_handler_` is not nil -/
  hasResponseHandler : Bool
  /-- `TAO::create_system_exception` knows the id -/
  knownSystemException : String → Bool
  /-- the outcome of a call of `response_handler_` -/
  deliver : Answer → Except Exn Unit

namespace ProxyReplyHandler

def onFrame {α : Type} (x : EvalM α) : ReplyM α :=
  Action.zoom ReplyState.frame (fun s frame => { s with frame := frame }) x

section Handlers

variable (h : ProxyReplyHandler)

/-- `response_handler_->method (...)` -/
def invoke (answer : Answer) : ReplyM Unit :=
  if h.hasResponseHandler then do
    Action.modify fun s => { s with answers := s.answers ++ [answer] }
    match h.deliver answer with
    | .ok _ => pure ()
    | .error e => Action.raise e
  else Action.fail .nullDereference

/-- `result_->value ()->impl ()->_tao_decode (incoming)` if there is one -/
def decodeResult (decoded : Nat → Except Exn (Value ObjRef)) : EvalM Unit := do
  let s ← Action.get
  match s.result with
  | none => pure ()
  | some nv =>
      match decoded nv.tc with
      | .error e => Action.raise e
      | .ok v =>
          Action.modify fun s =>
            { s with result := some { nv with value := v.map .incoming } }

/-- `out_args_->_tao_incoming_cdr (incoming, ARG_OUT | ARG_INOUT, ...)` -/
def decodeOutArgs (decoded : Except Exn (List (Value ObjRef))) : EvalM Unit := do
  let s ← Action.get
  GenericEvaluator.setArguments
    (match decoded with
    | .error e => .error e
    | .ok values => GenericEvaluator.fill .argIn s.args values)

def decodeResponse (result : Nat → Except Exn (Value ObjRef))
    (outArgs : Except Exn (List (Value ObjRef))) : EvalM Unit := do
  decodeResult result
  decodeOutArgs outArgs

/-- The `try` block of `handle_response_i`; the answer of the evaluator is
ignored. -/
def responseBody (result : Nat → Except Exn (Value ObjRef))
    (outArgs : Except Exn (List (Value ObjRef))) : EvalM Unit := do
  decodeResponse result outArgs
  let _ ← h.evaluator.evaluateReply h.operation (Registry.otherPoa h.mapper h.poa)
  pure ()

/-- What the two `catch` clauses report. -/
def caught : Exn → Answer
  | .system name => .invokeExcep (.system name) none
  | _ => .invokeExcep (.system "UNKNOWN") none

/-- The end of `handle_response_i`, reached from the `catch` clauses too. -/
def invokeReply : ReplyM Unit :=
  if h.hasResponseHandler then do
    let s ← Action.get
    h.invoke (.invokeReply s.frame.args s.frame.result)
  else pure ()

def handleResponse (result : Nat → Except Exn (Value ObjRef))
    (outArgs : Except Exn (List (Value ObjRef))) : ReplyM Unit := do
  Action.tryCatch (onFrame (h.responseBody result outArgs)) fun e => h.invoke (caught e)
  h.invokeReply

/-- The user exception is evaluated into an empty encapsulation. The POA is the
one the request arrived on, and the answer of the evaluator is ignored. -/
def evaluateUser (id : String) (exception : Nat → Except Exn (Value ObjRef)) :
    EvalM Unit := do
  Action.modify fun s => { s with encap := none }
  let _ ← h.evaluator.evaluateException h.operation h.poa id exception
  pure ()

def handleUserException (id : String) (body : ExceptionBody) (status : ReplyStatus) :
    ReplyM Unit := do
  onFrame (h.evaluateUser id body.exception)
  let s ← Action.get
  h.invoke (.gatewayExceptionReply status s.frame.encap)

/-- `create_system_exception` gives null for an id it does not know. -/
def handleSystemException (id : String) (body : ExceptionBody) : ReplyM Unit :=
  match body.minor, body.completion with
  | some minor, some completion =>
      if h.knownSystemException id then
        h.invoke (.invokeExcep (.system id) (some (minor, completion)))
      else Action.fail .nullDereference
  | _, _ => h.invoke .marshal

def handleExcep (body : ExceptionBody) (status : ReplyStatus) : ReplyM Unit :=
  match body.id with
  | none => h.invoke .marshal
  | some id =>
      match status with
      | .userException => h.handleUserException id body status
      | .systemException => h.handleSystemException id body
      | _ => pure ()

/-- `want_outfacing` when the reference to forward to is mapped -/
def forwardFacing : Bool :=
  Registry.wantOutfacing h.mapper (Registry.otherPoa h.mapper h.poa)

def handleLocationForward (fwd : Except Exn (Option (Option ObjRef)))
    (status : ReplyStatus) : ReplyM Unit :=
  match fwd with
  | .error e => Action.raise e
  | .ok none => h.invoke .marshal
  | .ok (some none) =>
      h.invoke (.invokeLocationForward none (status == .locationForwardPerm))
  | .ok (some (some ref)) => do
      match ← onFrame (GenericEvaluator.onRegistry
          (Registry.mappedForNative h.orb h.inst ref h.forwardFacing)) with
      | none => h.invoke .marshal
      | some mapped =>
          h.invoke (.invokeLocationForward (some (.mapped h.forwardFacing mapped))
            (status == .locationForwardPerm))

def handle : ReplyEvent → ReplyM Unit
  | .response result outArgs => h.handleResponse result outArgs
  | .excep body status => h.handleExcep body status
  | .locationForward fwd status => h.handleLocationForward fwd status

end Handlers

/-! ## The answers -/

section Answers

variable {h : ProxyReplyHandler}

theorem run_invoke (hh : h.hasResponseHandler = true) (answer : Answer) (s : ReplyState) :
    (h.invoke answer).run s =
      (match h.deliver answer with
        | .ok _ => .ok ()
        | .error e => .raised e, { s with answers := s.answers ++ [answer] }) := by
  unfold invoke
  rw [if_pos hh, Action.run_bind_ok (Action.run_modify _ s)]
  cases h.deliver answer <;> rfl

theorem run_invoke_nil (hh : h.hasResponseHandler = false) (answer : Answer)
    (s : ReplyState) : (h.invoke answer).run s = (.fault .nullDereference, s) := by
  unfold invoke
  rw [if_neg (by simp [hh])]
  rfl

theorem invoke_answers (hh : h.hasResponseHandler = true) (answer : Answer)
    (s : ReplyState) : ((h.invoke answer).run s).2.answers = s.answers ++ [answer] := by
  rw [run_invoke hh]

theorem run_invokeReply (hh : h.hasResponseHandler = true) (s : ReplyState) :
    h.invokeReply.run s = (h.invoke (.invokeReply s.frame.args s.frame.result)).run s := by
  unfold invokeReply
  rw [if_pos hh, Action.run_bind_ok (Action.run_get s)]

/-- A response: the reply is sent whether or not the `try` block raised, unless
reporting the exception raises as well. -/
theorem handleResponse_answers (hh : h.hasResponseHandler = true)
    (result : Nat → Except Exn (Value ObjRef)) (outArgs : Except Exn (List (Value ObjRef)))
    (s : ReplyState) :
    ((h.handleResponse result outArgs).run s).2.answers =
      match (h.responseBody result outArgs).run s.frame with
      | (.ok _, f) => s.answers ++ [.invokeReply f.args f.result]
      | (.raised e, f) =>
          match h.deliver (caught e) with
          | .ok _ => s.answers ++ [caught e] ++ [.invokeReply f.args f.result]
          | .error _ => s.answers ++ [caught e]
      | (.fault _, _) => s.answers := by
  unfold handleResponse onFrame
  rw [Action.run_bind, Action.run_tryCatch, Action.run_zoom]
  cases (h.responseBody result outArgs).run s.frame with
  | mk outcome f =>
      cases outcome with
      | ok a =>
          dsimp only
          rw [run_invokeReply hh, invoke_answers hh]
      | raised e =>
          dsimp only
          rw [run_invoke hh]
          cases h.deliver (caught e) with
          | ok a =>
              dsimp only
              rw [run_invokeReply hh, invoke_answers hh]
          | error e' => rfl
      | fault cause => rfl

theorem handleUserException_answers (hh : h.hasResponseHandler = true) (id : String)
    (body : ExceptionBody) (status : ReplyStatus) (s : ReplyState) :
    ((h.handleUserException id body status).run s).2.answers =
      match (h.evaluateUser id body.exception).run s.frame with
      | (.ok _, f) => s.answers ++ [.gatewayExceptionReply status f.encap]
      | (.raised _, _) => s.answers
      | (.fault _, _) => s.answers := by
  unfold handleUserException onFrame
  rw [Action.run_bind, Action.run_zoom]
  cases (h.evaluateUser id body.exception).run s.frame with
  | mk outcome f =>
      cases outcome with
      | ok a =>
          dsimp only
          rw [Action.run_bind_ok (Action.run_get _), invoke_answers hh]
      | raised e => rfl
      | fault cause => rfl

theorem handleLocationForward_answers (hh : h.hasResponseHandler = true) (ref : ObjRef)
    (status : ReplyStatus) (s : ReplyState) :
    ((h.handleLocationForward (.ok (some (some ref))) status).run s).2.answers =
      match (Registry.mappedForNative h.orb h.inst ref h.forwardFacing).run s.frame.reg with
      | (.ok none, _) => s.answers ++ [.marshal]
      | (.ok (some mapped), _) => s.answers ++
          [.invokeLocationForward (some (.mapped h.forwardFacing mapped))
            (status == .locationForwardPerm)]
      | (.raised _, _) => s.answers
      | (.fault _, _) => s.answers := by
  unfold handleLocationForward onFrame GenericEvaluator.onRegistry
  dsimp only
  rw [Action.run_bind, Action.run_zoom, Action.run_zoom]
  cases (Registry.mappedForNative h.orb h.inst ref h.forwardFacing).run s.frame.reg with
  | mk outcome reg =>
      cases outcome with
      | ok mapped =>
          cases mapped with
          | none =>
              dsimp only
              rw [invoke_answers hh]
          | some mapped =>
              dsimp only
              rw [invoke_answers hh]
      | raised e => rfl
      | fault cause => rfl

/-- Without a response handler nobody is answered. -/
theorem handle_unanswered (hh : h.hasResponseHandler = false) (event : ReplyEvent)
    (s : ReplyState) : ((h.handle event).run s).2.answers = s.answers := by
  have hreply : ∀ s, h.invokeReply.run s = (.ok (), s) := by
    intro s
    unfold invokeReply
    rw [if_neg (by simp [hh])]
    rfl
  cases event with
  | response result outArgs =>
      simp only [handle, handleResponse, onFrame, Action.run_bind, Action.run_tryCatch,
        Action.run_zoom]
      cases (h.responseBody result outArgs).run s.frame with
      | mk outcome f =>
          cases outcome with
          | ok a =>
              dsimp only
              rw [hreply]
          | raised e =>
              dsimp only
              rw [run_invoke_nil hh]
          | fault cause => rfl
  | excep body status =>
      simp only [handle, handleExcep]
      cases body.id with
      | none =>
          dsimp only
          rw [run_invoke_nil hh]
      | some id =>
          cases status with
          | userException =>
              simp only [handleUserException, onFrame, Action.run_bind, Action.run_zoom]
              cases (h.evaluateUser id body.exception).run s.frame with
              | mk outcome f =>
                  cases outcome with
                  | ok a =>
                      dsimp only [Action.run_get]
                      rw [run_invoke_nil hh]
                  | raised e => rfl
                  | fault cause => rfl
          | systemException =>
              simp only [handleSystemException]
              split
              · split
                · rw [run_invoke_nil hh]
                · rfl
              · rw [run_invoke_nil hh]
          | _ => rfl
  | locationForward fwd status =>
      simp only [handle, handleLocationForward]
      split
      · rfl
      · rw [run_invoke_nil hh]
      · rw [run_invoke_nil hh]
      · next ref =>
          simp only [onFrame, GenericEvaluator.onRegistry, Action.run_bind, Action.run_zoom]
          cases (Registry.mappedForNative h.orb h.inst ref h.forwardFacing).run
            s.frame.reg with
          | mk outcome reg =>
              cases outcome with
              | ok mapped =>
                  cases mapped <;>
                  · dsimp only
                    rw [run_invoke_nil hh]
              | raised e => rfl
              | fault cause => rfl

end Answers

/-! ## One answer for each reply -/

/-- A forwarded user exception has a body. -/
def HasBody : Answer → Prop
  | .gatewayExceptionReply _ encap => encap.isSome
  | _ => True

/-- Exactly one method of the response handler is invoked, once, and a user
exception goes with its body. -/
def OneAnswer (h : ProxyReplyHandler) (event : ReplyEvent) (s : ReplyState) : Prop :=
  ∃ answer, ((h.handle event).run s).2.answers = s.answers ++ [answer] ∧ HasBody answer

/-- What decoding and the evaluator have to do for that. -/
def Answerable (h : ProxyReplyHandler) (s : ReplyState) : ReplyEvent → Prop
  | .response result outArgs =>
      match (h.responseBody result outArgs).run s.frame with
      | (.ok _, _) => True
      | (.raised e, _) => ∃ e', h.deliver (caught e) = .error e'
      | (.fault _, _) => False
  | .excep body status =>
      match body.id with
      | none => True
      | some id =>
          match status with
          | .userException =>
              match (h.evaluateUser id body.exception).run s.frame with
              | (.ok _, f) => f.encap.isSome
              | (.raised _, _) => False
              | (.fault _, _) => False
          | .systemException =>
              body.minor = none ∨ body.completion = none ∨ h.knownSystemException id = true
          | _ => False
  | .locationForward fwd _ =>
      match fwd with
      | .error _ => False
      | .ok none => True
      | .ok (some none) => True
      | .ok (some (some ref)) =>
          match (Registry.mappedForNative h.orb h.inst ref h.forwardFacing).run
            s.frame.reg with
          | (.ok _, _) => True
          | (.raised _, _) => False
          | (.fault _, _) => False

section OneAnswer

variable {h : ProxyReplyHandler} {event : ReplyEvent} {s : ReplyState}

theorem oneAnswer_of_append {answer : Answer}
    (hanswers : ((h.handle event).run s).2.answers = s.answers ++ [answer]) :
    h.OneAnswer event s ↔ HasBody answer := by
  unfold OneAnswer
  rw [hanswers]
  constructor
  · rintro ⟨answer', heq, hbody⟩
    obtain rfl : answer = answer' := by simpa using heq
    exact hbody
  · exact fun hbody => ⟨answer, rfl, hbody⟩

theorem not_oneAnswer_of_same
    (hanswers : ((h.handle event).run s).2.answers = s.answers) :
    ¬ h.OneAnswer event s := by
  rintro ⟨answer, heq, -⟩
  rw [hanswers] at heq
  simpa using congrArg List.length heq

theorem not_oneAnswer_of_two {answer answer' : Answer}
    (hanswers : ((h.handle event).run s).2.answers = s.answers ++ [answer] ++ [answer']) :
    ¬ h.OneAnswer event s := by
  rintro ⟨answer'', heq, -⟩
  rw [hanswers] at heq
  simpa using congrArg List.length heq

theorem oneAnswer_response (hh : h.hasResponseHandler = true)
    (result : Nat → Except Exn (Value ObjRef)) (outArgs : Except Exn (List (Value ObjRef))) :
    h.OneAnswer (.response result outArgs) s ↔
      h.Answerable s (.response result outArgs) := by
  have hanswers : ((h.handle (.response result outArgs)).run s).2.answers = _ :=
    handleResponse_answers hh result outArgs s
  cases hbody : (h.responseBody result outArgs).run s.frame with
  | mk outcome f =>
      rw [hbody] at hanswers
      simp only [Answerable, hbody]
      cases outcome with
      | ok a =>
          exact (oneAnswer_of_append hanswers).trans (by simp [HasBody])
      | raised e =>
          dsimp only at hanswers ⊢
          cases hdeliver : h.deliver (caught e) with
          | ok a =>
              rw [hdeliver] at hanswers
              exact iff_of_false (not_oneAnswer_of_two hanswers) (by simp)
          | error e' =>
              rw [hdeliver] at hanswers
              have hcaught : HasBody (caught e) := by cases e <;> trivial
              exact iff_of_true ((oneAnswer_of_append hanswers).mpr hcaught) ⟨e', rfl⟩
      | fault cause => exact iff_of_false (not_oneAnswer_of_same hanswers) (fun h => h)

theorem oneAnswer_invoke (hh : h.hasResponseHandler = true) {answer : Answer}
    (hhandle : h.handle event = h.invoke answer) :
    h.OneAnswer event s ↔ HasBody answer :=
  oneAnswer_of_append (by rw [hhandle, invoke_answers hh])

theorem not_oneAnswer_pure (hhandle : (h.handle event).run s = (.ok (), s)) :
    ¬ h.OneAnswer event s :=
  not_oneAnswer_of_same (by rw [hhandle])

theorem oneAnswer_user (hh : h.hasResponseHandler = true) (id : String)
    {body : ExceptionBody} (hid : body.id = some id) :
    h.OneAnswer (.excep body .userException) s ↔
      h.Answerable s (.excep body .userException) := by
  have hhandle : h.handle (.excep body .userException) =
      h.handleUserException id body .userException := by
    simp only [handle, handleExcep, hid]
  have hanswers := handleUserException_answers hh id body .userException s
  rw [← hhandle] at hanswers
  cases hbody : (h.evaluateUser id body.exception).run s.frame with
  | mk outcome f =>
      rw [hbody] at hanswers
      simp only [Answerable, hid, hbody]
      cases outcome with
      | ok a => exact oneAnswer_of_append hanswers
      | raised e => exact iff_of_false (not_oneAnswer_of_same hanswers) (fun h => h)
      | fault cause => exact iff_of_false (not_oneAnswer_of_same hanswers) (fun h => h)

theorem oneAnswer_system (hh : h.hasResponseHandler = true) (id : String)
    {body : ExceptionBody} (hid : body.id = some id) :
    h.OneAnswer (.excep body .systemException) s ↔
      h.Answerable s (.excep body .systemException) := by
  simp only [Answerable, hid]
  have hhandle : h.handle (.excep body .systemException) =
      h.handleSystemException id body := by
    simp only [handle, handleExcep, hid]
  unfold handleSystemException at hhandle
  cases hminor : body.minor with
  | none =>
      rw [hminor] at hhandle
      exact iff_of_true ((oneAnswer_invoke hh hhandle).mpr trivial) (.inl rfl)
  | some minor =>
      cases hcompletion : body.completion with
      | none =>
          rw [hminor, hcompletion] at hhandle
          exact iff_of_true ((oneAnswer_invoke hh hhandle).mpr trivial) (.inr (.inl rfl))
      | some completion =>
          rw [hminor, hcompletion] at hhandle
          dsimp only at hhandle
          cases hknown : h.knownSystemException id with
          | true =>
              rw [if_pos hknown] at hhandle
              exact iff_of_true ((oneAnswer_invoke hh hhandle).mpr trivial)
                (.inr (.inr rfl))
          | false =>
              rw [if_neg (by simp [hknown])] at hhandle
              have hsame : ((h.handle (.excep body .systemException)).run s).2.answers =
                  s.answers := by
                rw [hhandle]
                rfl
              exact iff_of_false (not_oneAnswer_of_same hsame) (by simp)

theorem oneAnswer_excep (hh : h.hasResponseHandler = true) (body : ExceptionBody)
    (status : ReplyStatus) :
    h.OneAnswer (.excep body status) s ↔ h.Answerable s (.excep body status) := by
  cases hid : body.id with
  | none =>
      have hhandle : h.handle (.excep body status) = h.invoke .marshal := by
        simp only [handle, handleExcep, hid]
      simp only [Answerable, hid]
      exact iff_of_true ((oneAnswer_invoke hh hhandle).mpr trivial) trivial
  | some id =>
      have hignored : status ≠ .userException → status ≠ .systemException →
          (h.handle (.excep body status)).run s = (.ok (), s) := by
        intro huser hsystem
        cases status <;> first
          | exact absurd rfl huser
          | exact absurd rfl hsystem
          | simp only [handle, handleExcep, hid, Action.run_pure]
      cases status with
      | userException => exact oneAnswer_user hh id hid
      | systemException => exact oneAnswer_system hh id hid
      | _ =>
          simp only [Answerable, hid]
          exact iff_of_false (not_oneAnswer_pure (hignored (by simp) (by simp)))
            (fun h => h)

theorem oneAnswer_locationForward (hh : h.hasResponseHandler = true)
    (fwd : Except Exn (Option (Option ObjRef))) (status : ReplyStatus) :
    h.OneAnswer (.locationForward fwd status) s ↔
      h.Answerable s (.locationForward fwd status) := by
  cases fwd with
  | error e => exact iff_of_false (not_oneAnswer_of_same rfl) (fun h => h)
  | ok fwd =>
      cases fwd with
      | none =>
          have hhandle : h.handle (.locationForward (.ok none) status) =
              h.invoke .marshal := rfl
          exact iff_of_true ((oneAnswer_invoke hh hhandle).mpr trivial) trivial
      | some ref =>
          cases ref with
          | none =>
              have hhandle : h.handle (.locationForward (.ok (some none)) status) =
                  h.invoke (.invokeLocationForward none
                    (status == .locationForwardPerm)) := rfl
              exact iff_of_true ((oneAnswer_invoke hh hhandle).mpr trivial) trivial
          | some ref =>
              have hanswers : ((h.handle (.locationForward (.ok (some (some ref)))
                  status)).run s).2.answers = _ :=
                handleLocationForward_answers hh ref status s
              simp only [Answerable]
              cases hmap : (Registry.mappedForNative h.orb h.inst ref h.forwardFacing).run
                s.frame.reg with
              | mk outcome reg =>
                  rw [hmap] at hanswers
                  cases outcome with
                  | ok mapped =>
                      cases mapped with
                      | none =>
                          exact iff_of_true ((oneAnswer_of_append hanswers).mpr trivial)
                            trivial
                      | some mapped =>
                          exact iff_of_true ((oneAnswer_of_append hanswers).mpr trivial)
                            trivial
                  | raised e =>
                      exact iff_of_false (not_oneAnswer_of_same hanswers) (fun h => h)
                  | fault cause =>
                      exact iff_of_false (not_oneAnswer_of_same hanswers) (fun h => h)

/-- For every reply, every outcome of decoding it and every evaluator: the
requester gets exactly one answer, with a body, exactly when there is a
response handler and the outcomes are such as the handler is prepared for. -/
theorem oneAnswer_iff_answerable :
    h.OneAnswer event s ↔ h.hasResponseHandler = true ∧ h.Answerable s event := by
  cases hh : h.hasResponseHandler with
  | false =>
      exact iff_of_false (not_oneAnswer_of_same (handle_unanswered hh event s)) (by simp)
  | true =>
      rw [and_iff_right rfl]
      cases event with
      | response result outArgs => exact oneAnswer_response hh result outArgs
      | excep body status => exact oneAnswer_excep hh body status
      | locationForward fwd status => exact oneAnswer_locationForward hh fwd status

end OneAnswer

/-! The handler of a reply to a request on the out-facing POA, with the
evaluator for `void op (in Object x)`. -/

def sampleHandler : ProxyReplyHandler where
  operation := "op"
  poa := ⟨0, true⟩
  evaluator := (GenericEvaluator.sampleEvaluator 1).virtual
  mapper := 0
  orb := .plain
  inst := ⟨0, 0⟩
  hasResponseHandler := true
  knownSystemException id := id == "IDL:omg.org/CORBA/MARSHAL:1.0"
  deliver _ := .ok ()

/-- The state after `evaluate_request` has looked the operation up. -/
def sampleState : ReplyState where
  frame :=
    { (((GenericEvaluator.sampleEvaluator 1).evaluateRequest "op" ⟨0, true⟩
        (.ok [.plain []])).run ⟨.create .sign ⟨0, 3, 3⟩, GenericEvaluator.sampleRegistry,
          [], [], none, none⟩).2 with args := [] }
  answers := []

/-- Four replies that are not answered once: one whose decoding raises (two
answers), a user exception the operation does not declare (an empty body), a
system exception with an unknown id (the program is gone) and a reply status
that is none of the two (no answer). -/
theorem not_oneAnswer_samples :
    ¬ sampleHandler.OneAnswer
      (.response (fun _ => .ok (.plain [])) (.error (.system "MARSHAL"))) sampleState ∧
    ¬ sampleHandler.OneAnswer
      (.excep ⟨some "IDL:E:1.0", none, none, fun _ => .ok (.plain [])⟩ .userException)
      sampleState ∧
    ¬ sampleHandler.OneAnswer
      (.excep ⟨some "IDL:Vendor/E:1.0", some 0, some 0, fun _ => .ok (.plain [])⟩
        .systemException) sampleState ∧
    ¬ sampleHandler.OneAnswer
      (.excep ⟨some "IDL:E:1.0", none, none, fun _ => .ok (.plain [])⟩ .notOk)
      sampleState := by
  refine ⟨?_, ?_, ?_, ?_⟩
  · exact not_oneAnswer_of_two rfl
  · have hempty : ((sampleHandler.handle
        (.excep ⟨some "IDL:E:1.0", none, none, fun _ => .ok (.plain [])⟩ .userException)).run
        sampleState).2.answers = [.gatewayExceptionReply .userException none] := rfl
    rw [oneAnswer_of_append hempty]
    simp [HasBody]
  · exact not_oneAnswer_of_same rfl
  · exact not_oneAnswer_of_same rfl

end ProxyReplyHandler

end Lorica
