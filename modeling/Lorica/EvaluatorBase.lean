import Lorica.Lib.LittleEndian
import Lorica.ProxyReplyHandler
import Lorica.ProxyServant

/-!
`EvaluatorBase.cpp`: the evaluator that looks at nothing, with the octets it is
to let through. A list of arguments marshals to the stream attached to it, and
only `ServerRequest::arguments` attaches one; an encapsulation is what is
written into it. `handle_excep_i` is followed octet by octet here and shown to
answer as `ProxyReplyHandler` says.
-/

namespace Lorica

open Machine

abbrev Octets := List UInt8

/-- A `CORBA::NVList` as it is marshalled: its values, each in its octets, and
the unread octets of the stream attached to it. -/
structure NVList where
  values : List Octets
  incoming : Option Octets
deriving DecidableEq

namespace NVList

/-- `ORB::create_list (0, list)` -/
def createList : NVList := ⟨[], none⟩

/-- The stream goes out as it is when no value was taken from it. -/
def encode (list : NVList) : Octets :=
  match list.values, list.incoming with
  | [], some stream => stream
  | values, _ => values.flatten

end NVList

/-- A server request with the octets of its arguments. -/
structure RawRequest where
  request : ServerRequest
  arguments : Octets

/-- `ServerRequest::arguments` -/
def RawRequest.attach (raw : RawRequest) (list : NVList) : NVList :=
  { list with incoming := some raw.arguments }

/-- A `TAO_InputCDR`: a copy of it reads on its own. -/
structure InputCDR where
  octets : Octets
  position : Nat

/-- From `start ()` on: what is still to be read. -/
def InputCDR.unread (cdr : InputCDR) : Octets := cdr.octets.drop cdr.position

/-- What the code relies on of the streams of TAO: a string is written behind
what is there, and even an empty one takes octets, those of its length. -/
structure Cdr where
  readString : InputCDR → Option (String × InputCDR)
  readUlong : InputCDR → Option (UInt32 × InputCDR)
  putString : Octets → String → Octets
  putString_appends : ∀ out text, ∃ added, added ≠ [] ∧ putString out text = out ++ added

/-- What `evaluate_request` leaves in its arguments. -/
structure Evaluated where
  args : NVList
  outArgs : NVList
  result : Option Octets

/-- The virtual functions of an evaluator that see the streams. -/
structure RawEvaluator where
  evaluateRequest : String → Poa → RawRequest → NVList → NVList →
    RegistryM (Option Evaluated)
  evaluateException : String → Poa → String → InputCDR → Octets → Bool × Octets

namespace EvaluatorBase

def evaluateRequest (_operation : String) (_reqPoa : Poa) (_request : RawRequest)
    (args outArgs : NVList) : RegistryM (Option Evaluated) :=
  pure (some { args, outArgs, result := none })

def evaluateException (cdr : Cdr) (_operation : String) (_reqPoa : Poa) (exType : String)
    (incoming : InputCDR) (encap : Octets) : Bool × Octets :=
  let buffer := incoming.unread
  let encap := cdr.putString encap exType
  (true, encap ++ buffer)

end EvaluatorBase

def EvaluatorBase (cdr : Cdr) : RawEvaluator where
  evaluateRequest := EvaluatorBase.evaluateRequest
  evaluateException := EvaluatorBase.evaluateException cdr

/-- `invoke_i` with its two lists, for one request. -/
def RawEvaluator.servant (ev : RawEvaluator) (orb : Orb)
    (errorOccured : ObjRef → Except Exn Unit) (send : Forwarded Evaluated → Except Exn Unit)
    (raw : RawRequest) : Servant Evaluated where
  orb := orb
  evaluateRequest operation poa :=
    ev.evaluateRequest operation poa raw NVList.createList NVList.createList
  errorOccured := errorOccured
  send := send

/-- A call of a method of `response_handler_`, with the octets it is given. -/
inductive RawAnswer where
  | invokeExcep (exception : Exn) (details : Option (UInt32 × UInt32))
  | gatewayExceptionReply (status : ReplyStatus) (encap : Octets)
deriving DecidableEq

/-- What `handle_excep_i` keeps and calls, of the members of the handler and of
TAO. -/
structure RawHandler where
  cdr : Cdr
  evaluator : RawEvaluator
  operation : String
  poa : Poa
  knownSystemException : String → Bool

namespace RawHandler

def marshal : RawAnswer := .invokeExcep (.system "MARSHAL") (some (0, 2))

def handleExcep (h : RawHandler) (incoming : InputCDR) (replyStatus : ReplyStatus) :
    Except Fault (Option RawAnswer) :=
  -- a copy: what is read from it stays unread in `incoming`
  let forReading := incoming
  match h.cdr.readString forReading with
  | none => .ok (some marshal)
  | some (id, forReading) =>
      match replyStatus with
      | .userException =>
          let (_, encap) :=
            h.evaluator.evaluateException h.operation h.poa id incoming []
          .ok (some (.gatewayExceptionReply replyStatus encap))
      | .systemException =>
          match h.cdr.readUlong forReading with
          | none => .ok (some marshal)
          | some (minor, forReading) =>
              match h.cdr.readUlong forReading with
              | none => .ok (some marshal)
              | some (completion, _) =>
                  -- `create_system_exception` gives null for an id it does not know
                  if h.knownSystemException id then
                    .ok (some (.invokeExcep (.system id) (some (minor, completion))))
                  else .error .nullDereference
      | _ => .ok none

end RawHandler

/-- The handler that `invoke_i` makes for the reply to a request. -/
def RawEvaluator.handler (ev : RawEvaluator) (cdr : Cdr)
    (knownSystemException : String → Bool) (raw : RawRequest) : RawHandler where
  cdr := cdr
  evaluator := ev
  operation := raw.request.operation
  poa := raw.request.poa
  knownSystemException := knownSystemException

/-! ## The two views of a reply -/

namespace RawHandler

/-- What reading the body one item after the other gives. -/
def decode (h : RawHandler) (incoming : InputCDR)
    (exception : Nat → Except Exn (Value ObjRef)) : ExceptionBody :=
  let id := h.cdr.readString incoming
  let minor := id.bind fun read => h.cdr.readUlong read.2
  let completion := minor.bind fun read => h.cdr.readUlong read.2
  { id := id.map Prod.fst
    minor := minor.map Prod.fst
    completion := completion.map Prod.fst
    exception := exception }

/-- The same call of the response handler, whatever an encapsulation holds. -/
def Matches : RawAnswer → Answer → Prop
  | .invokeExcep exception details, .invokeExcep exception' details' =>
      exception = exception' ∧ details = details'
  | .gatewayExceptionReply status _, .gatewayExceptionReply status' _ => status = status'
  | _, _ => False

/-- The answers that a handler over octets allows. -/
def Answers (before after : List Answer) : Except Fault (Option RawAnswer) → Prop
  | .ok (some raw) => ∃ answer, after = before ++ [answer] ∧ Matches raw answer
  | _ => after = before

variable {v : ProxyReplyHandler}

theorem answers_invoke (hv : v.hasResponseHandler = true) {raw : RawAnswer}
    {answer : Answer} (hmatches : Matches raw answer) (s : ReplyState) :
    Answers s.answers ((v.invoke answer).run s).2.answers (.ok (some raw)) :=
  ⟨answer, ProxyReplyHandler.invoke_answers hv answer s, hmatches⟩

/-- The handler over values answers an exception as the one over octets does. -/
theorem handleExcep_refines (h : RawHandler) (hv : v.hasResponseHandler = true)
    (hknown : v.knownSystemException = h.knownSystemException)
    (hreturns : ∀ id exception f, ∃ answered f',
      (v.evaluator.evaluateException v.operation v.poa id exception).run f =
        (.ok answered, f'))
    (incoming : InputCDR) (exception : Nat → Except Exn (Value ObjRef))
    (status : ReplyStatus) (s : ReplyState) :
    Answers s.answers
      ((v.handleExcep (h.decode incoming exception) status).run s).2.answers
      (h.handleExcep incoming status) := by
  have hmarshal : Matches marshal Answer.marshal := ⟨rfl, rfl⟩
  rw [ProxyReplyHandler.handleExcep, handleExcep]
  cases hid : h.cdr.readString incoming with
  | none =>
      simp only [decode, hid, Option.map_none]
      exact answers_invoke hv hmarshal s
  | some read =>
      obtain ⟨id, forReading⟩ := read
      simp only [decode, hid, Option.map_some, Option.bind_some]
      cases status with
      | userException =>
          obtain ⟨answered, f', hrun⟩ := hreturns id exception { s.frame with encap := none }
          have heval : (v.evaluateUser id exception).run s.frame = (.ok (), f') := by
            unfold ProxyReplyHandler.evaluateUser
            rw [Action.run_bind_ok (Action.run_modify _ _), Action.run_bind_ok hrun]
            rfl
          dsimp only
          rw [ProxyReplyHandler.handleUserException_answers hv, heval]
          exact ⟨_, rfl, rfl⟩
      | systemException =>
          simp only [ProxyReplyHandler.handleSystemException]
          cases hminor : h.cdr.readUlong forReading with
          | none =>
              simp only [Option.map_none]
              exact answers_invoke hv hmarshal s
          | some read =>
              obtain ⟨minor, forReading⟩ := read
              simp only [Option.map_some, Option.bind_some]
              cases hcompletion : h.cdr.readUlong forReading with
              | none =>
                  simp only [Option.map_none]
                  exact answers_invoke hv hmarshal s
              | some read =>
                  obtain ⟨completion, rest⟩ := read
                  simp only [Option.map_some, hknown]
                  by_cases hid : h.knownSystemException id = true
                  · have hmatches : Matches
                        (.invokeExcep (.system id) (some (minor, completion)))
                        (.invokeExcep (.system id) (some (minor, completion))) :=
                      ⟨rfl, rfl⟩
                    rw [if_pos hid, if_pos hid]
                    exact answers_invoke hv hmatches s
                  · rw [if_neg hid, if_neg hid]
                    exact rfl
      | ok => exact rfl
      | notOk => exact rfl
      | locationForward => exact rfl
      | locationForwardPerm => exact rfl
      | other status => exact rfl

/-- Only a user exception whose id can be read goes out as an encapsulation. -/
theorem handleExcep_gateway {h : RawHandler} {incoming : InputCDR}
    {status status' : ReplyStatus} {encap : Octets}
    (hanswer : h.handleExcep incoming status =
      .ok (some (.gatewayExceptionReply status' encap))) :
    status = .userException ∧ ∃ read, h.cdr.readString incoming = some read := by
  rw [handleExcep] at hanswer
  cases hread : h.cdr.readString incoming with
  | none => simp [hread, marshal] at hanswer
  | some read =>
      refine ⟨?_, read, rfl⟩
      rw [hread] at hanswer
      cases status with
      | userException => rfl
      | systemException =>
          dsimp only at hanswer
          split at hanswer
          next => simp [marshal] at hanswer
          next =>
            split at hanswer
            next => simp [marshal] at hanswer
            next => split at hanswer <;> simp at hanswer
      | ok => simp at hanswer
      | notOk => simp at hanswer
      | locationForward => simp at hanswer
      | locationForwardPerm => simp at hanswer
      | other status => simp at hanswer

end RawHandler

/-! ## Transparency -/

/-- The arguments sent to the target are the argument octets of the request. -/
def PassesArguments (servant : Servant Evaluated) (raw : RawRequest)
    (s : ServantState Evaluated) : Prop :=
  ∀ message, ((servant.invokeI raw.request).run s).2.sent = message :: s.sent →
    message.args.args.encode = raw.arguments

/-- The body of a user exception goes to the requester as it came. -/
def PassesException (h : RawHandler) (incoming : InputCDR) (status : ReplyStatus) : Prop :=
  ∀ encap, h.handleExcep incoming status =
      .ok (some (.gatewayExceptionReply .userException encap)) →
    encap = incoming.unread

section

variable {ev : RawEvaluator} {orb : Orb} {errorOccured : ObjRef → Except Exn Unit}
variable {send : Forwarded Evaluated → Except Exn Unit} {raw : RawRequest}
variable {s : ServantState Evaluated}

/-- A call is transparent when the list that the evaluator leaves behind is. -/
theorem passesArguments_iff {left : Evaluated}
    (hserved : (ev.servant orb errorOccured send raw).Served raw.request s)
    (heval : ∀ reg, ∃ reg', (ev.evaluateRequest raw.request.operation raw.request.poa raw
      NVList.createList NVList.createList).run reg = (.ok (some left), reg')) :
    PassesArguments (ev.servant orb errorOccured send raw) raw s ↔
      left.args.encode = raw.arguments := by
  obtain ⟨message, hsent, hargs⟩ := Servant.invokeI_sends _ raw.request s hserved heval
  constructor
  · intro h
    rw [← hargs]
    exact h message hsent
  · intro hleft message' hsent'
    have hsame : message' = message := by
      rw [hsent] at hsent'
      exact (List.cons.inj hsent').1.symm
    rw [hsame, hargs]
    exact hleft

/-- An evaluator that attaches the stream of the request lets it through. -/
theorem passesArguments_of_attached {outArgs : NVList} {result : Option Octets}
    (hserved : (ev.servant orb errorOccured send raw).Served raw.request s)
    (heval : ∀ reg, ∃ reg', (ev.evaluateRequest raw.request.operation raw.request.poa raw
      NVList.createList NVList.createList).run reg =
        (.ok (some ⟨raw.attach NVList.createList, outArgs, result⟩), reg')) :
    PassesArguments (ev.servant orb errorOccured send raw) raw s :=
  (passesArguments_iff hserved heval).mpr rfl

end

namespace EvaluatorBase

section

variable {cdr : Cdr} {orb : Orb} {errorOccured : ObjRef → Except Exn Unit}
variable {send : Forwarded Evaluated → Except Exn Unit} {raw : RawRequest}
variable {s : ServantState Evaluated} {known : String → Bool} {incoming : InputCDR}

/-- Nobody attaches the stream: only a request without arguments is let
through. -/
theorem passesArguments_iff_nil
    (hserved : ((EvaluatorBase cdr).servant orb errorOccured send raw).Served
      raw.request s) :
    PassesArguments ((EvaluatorBase cdr).servant orb errorOccured send raw) raw s ↔
      raw.arguments = [] := by
  rw [passesArguments_iff hserved fun reg => ⟨reg, rfl⟩]
  exact eq_comm

/-- The id is written in front of a body that begins with it. -/
theorem handleExcep_user {id : String} {rest : InputCDR}
    (hread : cdr.readString incoming = some (id, rest)) :
    ((EvaluatorBase cdr).handler cdr known raw).handleExcep incoming .userException =
      .ok (some (.gatewayExceptionReply .userException
        (cdr.putString [] id ++ incoming.unread))) := by
  simp [RawHandler.handleExcep, RawEvaluator.handler, hread, EvaluatorBase,
    evaluateException]

/-- No user exception is let through. -/
theorem passesException_iff (status : ReplyStatus) :
    PassesException ((EvaluatorBase cdr).handler cdr known raw) incoming status ↔
      (status = .userException → cdr.readString incoming = none) := by
  constructor
  · rintro h rfl
    cases hread : cdr.readString incoming with
    | none => rfl
    | some read =>
        obtain ⟨id, rest⟩ := read
        have hbody := h _ (handleExcep_user hread)
        obtain ⟨added, hne, hput⟩ := cdr.putString_appends [] id
        rw [hput, List.nil_append] at hbody
        exact absurd (List.append_left_eq_self.mp hbody) hne
  · intro h encap hanswer
    obtain ⟨huser, read, hread⟩ := RawHandler.handleExcep_gateway hanswer
    have hnone := h huser
    change cdr.readString incoming = some read at hread
    rw [hread] at hnone
    cases hnone

/-- Exactly the calls without argument octets and without a user exception pass
through the evaluator unchanged. -/
theorem transparent_iff
    (hserved : ((EvaluatorBase cdr).servant orb errorOccured send raw).Served
      raw.request s) (status : ReplyStatus) :
    PassesArguments ((EvaluatorBase cdr).servant orb errorOccured send raw) raw s ∧
        PassesException ((EvaluatorBase cdr).handler cdr known raw) incoming status ↔
      raw.arguments = [] ∧
        (status = .userException → cdr.readString incoming = none) := by
  rw [passesArguments_iff_nil hserved, passesException_iff]

end

/-- Streams in little-endian order. -/
def plainCdr : Cdr where
  readString cdr :=
    let start := (cdr.position + 3) / 4 * 4
    (readOctets cdr.octets start 4).bind fun length =>
      let text := (cdr.octets.drop (start + 4)).take length
      if text.length = length then
        some (String.ofList ((text.takeWhile (· ≠ 0)).map fun octet =>
          Char.ofNat octet.toNat), { cdr with position := start + 4 + length })
      else none
  readUlong cdr :=
    let start := (cdr.position + 3) / 4 * 4
    (readOctets cdr.octets start 4).map fun n =>
      (UInt32.ofNat n, { cdr with position := start + 4 })
  putString out text :=
    out ++ (List.replicate ((4 - out.length % 4) % 4) 0 ++
      (toOctets 4 (text.length + 1) ++
        (text.toList.map fun c => UInt8.ofNat c.toNat) ++ [0]))
  putString_appends out text := ⟨_, by simp, rfl⟩

/-- A request for a reference in the uncached mode. -/
def rawRequest (arguments : Octets) : RawRequest where
  request :=
    { operation := "refuse"
      poa := ⟨0, true⟩
      -- `IOR:1`
      oid := [73, 79, 82, 58, 49]
      responseExpected := true
      syncWithServer := false }
  arguments := arguments

def plainServant (raw : RawRequest) : Servant Evaluated :=
  (EvaluatorBase plainCdr).servant Orb.plain (fun _ => .ok ()) (fun _ => .ok ()) raw

def plainState : ServantState Evaluated where
  reg := (RegistryState.initial false false [fun _ => true]).reg
  sent := []
  reported := []

theorem plainServant_served (arguments : Octets) :
    (plainServant (rawRequest arguments)).Served (rawRequest arguments).request plainState := by
  refine ⟨⟨"", none, "IOR:1", false, false⟩, none, plainState.reg, ?_, by rfl⟩
  have ht : plainState.reg.table 0 = none := by decide
  have hnative : (Orb.plain.objectIdToString (rawRequest arguments).request.oid >>=
      Orb.plain.stringToObject) = .ok (some ⟨"", none, "IOR:1", false, false⟩) := by
    change (Orb.plain.objectIdToString [73, 79, 82, 58, 49] >>=
      Orb.plain.stringToObject) = _
    decide +kernel
  refine (Servant.run_currentNative_uncached Orb.plain ht _).trans ?_
  rw [hnative]

/-- An exception without members: its id `a`. -/
def refused : InputCDR := ⟨[2, 0, 0, 0, 97, 0], 0⟩

/-- A request without arguments that is answered with a system exception. -/
theorem transparent_no_arguments :
    PassesArguments (plainServant (rawRequest [])) (rawRequest []) plainState ∧
      PassesException ((EvaluatorBase plainCdr).handler plainCdr (fun _ => true)
        (rawRequest [])) refused .systemException :=
  (transparent_iff (plainServant_served []) .systemException).mpr
    ⟨rfl, fun h => by cases h⟩

/-- An argument of four octets does not arrive, and an exception comes with its
id twice. -/
theorem not_transparent :
    ¬ PassesArguments (plainServant (rawRequest [42, 0, 0, 0]))
        (rawRequest [42, 0, 0, 0]) plainState ∧
      ¬ PassesException ((EvaluatorBase plainCdr).handler plainCdr (fun _ => true)
        (rawRequest [])) refused .userException := by
  constructor
  · intro h
    have hnil := (passesArguments_iff_nil (plainServant_served _)).mp h
    cases hnil
  · intro h
    have hread := (passesException_iff .userException).mp h rfl
    exact absurd hread (by decide)

end EvaluatorBase

end Lorica
