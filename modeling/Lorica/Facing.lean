import Lorica.ProxyReplyHandler

/-!
For which side references are mapped. A request that arrives on the POA of one
facing goes on to the other side, and its reply comes back; each path chooses
on its own the POA it hands to `mapped_for_native`, which turns it round. Of
the answers to a request only the first reaches the requester: the response
handler refuses to reply twice.
-/

namespace Lorica

open Machine

/-- The references in an answer. -/
def Answer.refs : Answer → List Reference
  | .invokeReply outArgs result =>
      GenericEvaluator.resultRefs result ++ GenericEvaluator.itemRefs .argIn outArgs
  | .invokeExcep _ _ => []
  | .gatewayExceptionReply _ encap => GenericEvaluator.resultRefs encap
  | .invokeLocationForward fwd _ => fwd.toList

namespace GenericEvaluator

/-- One message on its way: a request, or a reply to an operation. -/
inductive Passage where
  | request (operation : String) (decoded : Except Exn (List (Value ObjRef)))
  | reply (operation : String) (event : ReplyEvent)

/-- What surrounds the evaluator of a reply: the system exceptions TAO knows and
the outcomes of answering. -/
structure Surroundings where
  knownSystemException : String → Bool
  deliver : Answer → Except Exn Unit

section Definitions

variable {ι : Type} (ev : GenericEvaluator ι) (env : Surroundings) (facing : Bool)

/-- The handler made for a request on the POA of a facing. -/
def replyHandler (operation : String) : ProxyReplyHandler where
  operation := operation
  poa := ⟨ev.mapper, facing⟩
  evaluator := ev.virtual
  mapper := ev.mapper
  orb := ev.orb
  inst := ev.inst
  hasResponseHandler := true
  knownSystemException := env.knownSystemException
  deliver := env.deliver

def delivered (answers : List Answer) : List Reference :=
  match answers with
  | [] => []
  | answer :: _ => answer.refs

/-- The references that pass: in the arguments of a request that is forwarded,
or in the answer the requester gets. A reply starts from the out arguments and
the result that were prepared with the request. -/
def passed : Passage → Frame → List Reference
  | .request operation decoded, s =>
      match (ev.evaluate ⟨ev.mapper, facing⟩ (.request operation decoded)).run
        (Traffic.start s.table s.reg (.request operation decoded)) with
      | (.ok true, s') => itemRefs .argOut s'.args
      | _ => []
  | .reply operation event, s =>
      delivered (((ev.replyHandler env facing operation).handle event).run
        ⟨s, []⟩).2.answers

/-- The side a message goes to, as an out-facing flag. -/
def Passage.side : Passage → Bool
  | .request _ _ => !facing
  | .reply _ _ => facing

/-- Every reference that passes was mapped for the side it goes to. -/
def FacingConsistent (passage : Passage) (s : Frame) : Prop :=
  Crossing (passage.side facing) (ev.passed env facing passage s)

/-- If the walk over what the message holds comes to its end, `P` holds of the
answers. -/
def WhenSwept (outFacing : Bool) (plan : Plan) (reg : Registry)
    (P : List Bool → Prop) : Prop :=
  match (Action.sweep (ev.look outFacing) plan).run reg with
  | (.ok answers, _) => P answers
  | (.raised _, _) => True
  | (.fault _, _) => True

/-- Requests and responses: everything is reached and mapped. User exceptions:
there is no reference in them. -/
def RightlyFaced : Passage → Frame → Prop
  | .request operation decoded, s =>
      ev.WhenSwept (!facing) (ev.planOf s.table (.request operation decoded)) s.reg
        AllMapped
  | .reply operation (.response result outArgs), s =>
      match (ProxyReplyHandler.decodeResponse result outArgs).run s with
      | (.ok _, f) =>
          ev.WhenSwept facing (ev.planReplyOf f.table operation f.values) f.reg AllMapped
      | (.raised _, _) => True
      | (.fault _, _) => True
  | .reply operation (.excep body .userException), s =>
      match body.id with
      | none => True
      | some id =>
          ev.WhenSwept (!facing)
            (ev.planOf s.table (.exception operation id body.exception)) s.reg (· = [])
  | .reply _ _, _ => True

end Definitions

section Facing

variable {ι : Type} {ev : GenericEvaluator ι} {env : Surroundings} {facing : Bool}

theorem wantOutfacing_arrival (m : Nat) (facing : Bool) :
    Registry.wantOutfacing m ⟨m, facing⟩ = !facing := by
  cases facing <;> simp [Registry.wantOutfacing]

/-- The POA handed over for a reply leads back to the requester's side. -/
theorem wantOutfacing_other (m : Nat) (facing : Bool) :
    Registry.wantOutfacing m (Registry.otherPoa m ⟨m, facing⟩) = facing := by
  cases facing <;> simp [Registry.wantOutfacing, Registry.otherPoa]

theorem crossing_nil (f : Bool) : Crossing f [] := fun _ hr => absurd hr (List.not_mem_nil)

/-- References mapped for the other side do not cross, unless there are
none. -/
theorem rewritten_other {f : Bool} {answers : List Bool} {refs : List Reference}
    (h : Rewritten (!f) answers refs) : Crossing f refs ↔ answers = [] := by
  rw [← List.length_eq_zero_iff, ← h.length, List.length_eq_zero_iff]
  constructor
  · intro hcrossing
    rw [List.eq_nil_iff_forall_not_mem]
    intro r hr
    have hother := h.facing r hr
    rw [Bool.not_not, hcrossing r hr] at hother
    exact absurd hother (by simp)
  · rintro rfl
    exact crossing_nil f

/-- A request hands on what the walk over its arguments left. -/
theorem facingConsistent_request (operation : String)
    (decoded : Except Exn (List (Value ObjRef))) (s : Frame) :
    ev.FacingConsistent env facing (.request operation decoded) s ↔
      ev.RightlyFaced facing (.request operation decoded) s := by
  have hview : (Traffic.start s.table s.reg (.request operation decoded)).reg = s.reg := rfl
  have hrun := @evaluate_follows ι ev ⟨ev.mapper, facing⟩ (.request operation decoded)
    s.table s.reg _ rfl
  rw [wantOutfacing_arrival, hview] at hrun
  simp only [FacingConsistent, RightlyFaced, WhenSwept, passed, Passage.side]
  split at hrun
  · next answers m hsweep =>
      obtain ⟨b, f, hevaluate, -, hrewritten, hfalse⟩ := hrun
      rw [hevaluate, hsweep]
      cases b with
      | true => exact hrewritten.crossing
      | false =>
          rw [hfalse rfl]
          exact iff_of_true (crossing_nil _) (by simp [AllMapped])
  · next e m hsweep =>
      obtain ⟨f, hevaluate, -⟩ := hrun
      rw [hevaluate, hsweep]
      exact iff_of_true (crossing_nil _) trivial
  · next cause m hsweep =>
      obtain ⟨f, hevaluate, -⟩ := hrun
      rw [hevaluate, hsweep]
      exact iff_of_true (crossing_nil _) trivial

/-! ### Responses -/

theorem decodeResult_raw {decoded : Nat → Except Exn (Value ObjRef)} {s f : Frame}
    (h : (ProxyReplyHandler.decodeResult decoded).run s = (.ok (), f)) :
    Raw (resultRefs f.result) := by
  unfold ProxyReplyHandler.decodeResult at h
  rw [Action.run_bind_ok (Action.run_get s)] at h
  cases hresult : s.result with
  | none =>
      simp only [hresult, Action.run_pure, Prod.mk.injEq, true_and] at h
      subst h
      rw [hresult]
      exact fun r hr => absurd hr (List.not_mem_nil)
  | some nv =>
      simp only [hresult] at h
      cases hdecoded : decoded nv.tc with
      | error e => simp [hdecoded] at h
      | ok v =>
          simp only [hdecoded, Action.run_modify, Prod.mk.injEq, true_and] at h
          subst h
          exact raw_incoming v

/-- Decoding the out arguments leaves the result alone. -/
theorem decodeOutArgs_raw {decoded : Except Exn (List (Value ObjRef))} {s f : Frame}
    (h : (ProxyReplyHandler.decodeOutArgs decoded).run s = (.ok (), f)) :
    f.result = s.result ∧ Raw (itemRefs .argIn f.args) := by
  unfold ProxyReplyHandler.decodeOutArgs setArguments at h
  rw [Action.run_bind_ok (Action.run_get s)] at h
  cases decoded with
  | error e => simp at h
  | ok values =>
      cases hfill : fill .argIn s.args values with
      | error e => simp [hfill] at h
      | ok args =>
          simp only [hfill, Action.run_modify, Prod.mk.injEq, true_and] at h
          subst h
          exact ⟨rfl, fill_raw hfill⟩

theorem decodeResponse_raw {result : Nat → Except Exn (Value ObjRef)}
    {outArgs : Except Exn (List (Value ObjRef))} {s f : Frame}
    (h : (ProxyReplyHandler.decodeResponse result outArgs).run s = (.ok (), f)) :
    Raw (resultRefs f.result) ∧ Raw (itemRefs .argIn f.args) := by
  unfold ProxyReplyHandler.decodeResponse at h
  rw [Action.run_bind] at h
  cases hresult : (ProxyReplyHandler.decodeResult result).run s with
  | mk outcome s' =>
      rw [hresult] at h
      cases outcome with
      | ok a =>
          obtain ⟨hsame, hargs⟩ := decodeOutArgs_raw h
          rw [hsame]
          exact ⟨decodeResult_raw hresult, hargs⟩
      | raised e => simp at h
      | fault cause => simp at h

/-- The references of a response are those of the first answer: an exception
that is reported instead has none. -/
theorem passed_response (operation : String) (result : Nat → Except Exn (Value ObjRef))
    (outArgs : Except Exn (List (Value ObjRef))) (s : Frame) :
    ev.passed env facing (.reply operation (.response result outArgs)) s =
      match ((ev.replyHandler env facing operation).responseBody result outArgs).run s with
      | (.ok _, f) => resultRefs f.result ++ itemRefs .argIn f.args
      | (.raised _, _) => []
      | (.fault _, _) => [] := by
  have hanswers := ProxyReplyHandler.handleResponse_answers
    (h := ev.replyHandler env facing operation) rfl result outArgs ⟨s, []⟩
  simp only [passed, ProxyReplyHandler.handle, hanswers]
  cases ((ev.replyHandler env facing operation).responseBody result outArgs).run s with
  | mk outcome f =>
      cases outcome with
      | ok a => rfl
      | raised e =>
          have hcaught : (ProxyReplyHandler.caught e).refs = [] := by cases e <;> rfl
          dsimp only
          split <;> exact hcaught
      | fault cause => rfl

/-- After decoding, the evaluator handles what is in the frame. -/
theorem run_responseBody (operation : String) {result : Nat → Except Exn (Value ObjRef)}
    {outArgs : Except Exn (List (Value ObjRef))} {s f : Frame}
    (h : (ProxyReplyHandler.decodeResponse result outArgs).run s = (.ok (), f)) :
    ((ev.replyHandler env facing operation).responseBody result outArgs).run s =
      (ev.evaluateReply operation (Registry.otherPoa ev.mapper ⟨ev.mapper, facing⟩) >>=
        fun _ => pure ()).run f := by
  unfold ProxyReplyHandler.responseBody
  rw [Action.run_bind_ok h]
  rfl

theorem facingConsistent_response (operation : String)
    (result : Nat → Except Exn (Value ObjRef)) (outArgs : Except Exn (List (Value ObjRef)))
    (s : Frame) :
    ev.FacingConsistent env facing (.reply operation (.response result outArgs)) s ↔
      ev.RightlyFaced facing (.reply operation (.response result outArgs)) s := by
  simp only [FacingConsistent, RightlyFaced, WhenSwept, passed_response, Passage.side]
  cases hdecode : (ProxyReplyHandler.decodeResponse result outArgs).run s with
  | mk outcome f =>
      cases outcome with
      | ok a =>
          obtain ⟨hresult, hargs⟩ := decodeResponse_raw hdecode
          have hrun := @evaluateReply_follows ι ev
            (Registry.otherPoa ev.mapper ⟨ev.mapper, facing⟩) operation f.values
            hresult hargs f.table f ⟨rfl, rfl⟩
          rw [wantOutfacing_other] at hrun
          rw [run_responseBody operation hdecode]
          dsimp only
          split at hrun
          · next answers m hsweep =>
              obtain ⟨b, f', hevaluate, -, hrewritten, -⟩ := hrun
              rw [Action.run_bind_ok hevaluate, hsweep]
              exact hrewritten.crossing
          · next e m hsweep =>
              obtain ⟨f', hevaluate, -⟩ := hrun
              rw [Action.run_bind_raised hevaluate, hsweep]
              exact iff_of_true (crossing_nil _) trivial
          · next cause m hsweep =>
              obtain ⟨f', hevaluate, -⟩ := hrun
              rw [Action.run_bind_fault hevaluate, hsweep]
              exact iff_of_true (crossing_nil _) trivial
      | raised e =>
          unfold ProxyReplyHandler.responseBody
          rw [Action.run_bind_raised hdecode]
          exact iff_of_true (crossing_nil _) trivial
      | fault cause =>
          unfold ProxyReplyHandler.responseBody
          rw [Action.run_bind_fault hdecode]
          exact iff_of_true (crossing_nil _) trivial

/-! ### Exceptions -/

/-- The POA of a user exception is the one of the request. -/
theorem run_evaluateUser (operation id : String)
    (exception : Nat → Except Exn (Value ObjRef)) (s : Frame) :
    ((ev.replyHandler env facing operation).evaluateUser id exception).run s =
      (ev.evaluateException operation ⟨ev.mapper, facing⟩ id exception >>=
        fun _ => pure ()).run { s with encap := none } := rfl

theorem passed_user (operation id : String) {body : ExceptionBody} (hid : body.id = some id)
    (s : Frame) :
    ev.passed env facing (.reply operation (.excep body .userException)) s =
      match ((ev.replyHandler env facing operation).evaluateUser id body.exception).run
        s with
      | (.ok _, f) => resultRefs f.encap
      | (.raised _, _) => []
      | (.fault _, _) => [] := by
  have hanswers := ProxyReplyHandler.handleUserException_answers
    (h := ev.replyHandler env facing operation) rfl id body .userException ⟨s, []⟩
  simp only [passed, ProxyReplyHandler.handle, ProxyReplyHandler.handleExcep, hid, hanswers]
  cases ((ev.replyHandler env facing operation).evaluateUser id body.exception).run s with
  | mk outcome f =>
      cases outcome with
      | ok a => rfl
      | raised e => rfl
      | fault cause => rfl

/-- The walk maps for the wrong side, so that only an exception without
references crosses. -/
theorem facingConsistent_user (operation : String) (body : ExceptionBody) (id : String)
    (hid : body.id = some id) (s : Frame) :
    ev.FacingConsistent env facing (.reply operation (.excep body .userException)) s ↔
      ev.RightlyFaced facing (.reply operation (.excep body .userException)) s := by
  have hrun := @evaluateException_follows ι ev ⟨ev.mapper, facing⟩ operation id
    body.exception s.table { s with encap := none } ⟨rfl, rfl⟩
  rw [wantOutfacing_arrival] at hrun
  simp only [FacingConsistent, RightlyFaced, WhenSwept, Passage.side, hid]
  rw [passed_user operation id hid, run_evaluateUser]
  split at hrun
  · next answers m hsweep =>
      obtain ⟨b, f, hevaluate, -, hrewritten, -⟩ := hrun
      rw [Action.run_bind_ok hevaluate, hsweep]
      exact rewritten_other hrewritten
  · next e m hsweep =>
      obtain ⟨f, hevaluate, -⟩ := hrun
      rw [Action.run_bind_raised hevaluate, hsweep]
      exact iff_of_true (crossing_nil _) trivial
  · next cause m hsweep =>
      obtain ⟨f, hevaluate, -⟩ := hrun
      rw [Action.run_bind_fault hevaluate, hsweep]
      exact iff_of_true (crossing_nil _) trivial

/-- An answer without references is sent. -/
theorem passed_invoke {operation : String} {event : ReplyEvent} {answer : Answer}
    (hhandle : (ev.replyHandler env facing operation).handle event =
      (ev.replyHandler env facing operation).invoke answer)
    (hrefs : answer.refs = []) (s : Frame) :
    ev.passed env facing (.reply operation event) s = [] := by
  simp only [passed, hhandle]
  rw [ProxyReplyHandler.invoke_answers rfl]
  exact hrefs

theorem passed_system (operation id : String) {body : ExceptionBody}
    (hid : body.id = some id) (s : Frame) :
    ev.passed env facing (.reply operation (.excep body .systemException)) s = [] := by
  have hhandle : (ev.replyHandler env facing operation).handle
      (.excep body .systemException) =
      (ev.replyHandler env facing operation).handleSystemException id body := by
    simp only [ProxyReplyHandler.handle, ProxyReplyHandler.handleExcep, hid]
  unfold ProxyReplyHandler.handleSystemException at hhandle
  split at hhandle
  · split at hhandle
    · exact passed_invoke hhandle rfl s
    · simp only [passed, hhandle]
      rfl
  · exact passed_invoke hhandle rfl s

theorem facingConsistent_excep (operation : String) (body : ExceptionBody)
    (status : ReplyStatus) (s : Frame) :
    ev.FacingConsistent env facing (.reply operation (.excep body status)) s ↔
      ev.RightlyFaced facing (.reply operation (.excep body status)) s := by
  cases hid : body.id with
  | none =>
      have hhandle : (ev.replyHandler env facing operation).handle (.excep body status) =
          (ev.replyHandler env facing operation).invoke .marshal := by
        simp only [ProxyReplyHandler.handle, ProxyReplyHandler.handleExcep, hid]
      have hpassed := passed_invoke hhandle rfl s
      unfold FacingConsistent
      rw [hpassed]
      apply iff_of_true (crossing_nil _)
      cases status <;> simp [RightlyFaced, hid]
  | some id =>
      cases status with
      | userException => exact facingConsistent_user operation body id hid s
      | systemException =>
          unfold FacingConsistent
          rw [passed_system operation id hid]
          exact iff_of_true (crossing_nil _) trivial
      | _ =>
          simp only [FacingConsistent, passed, ProxyReplyHandler.handle,
            ProxyReplyHandler.handleExcep, hid]
          exact iff_of_true (crossing_nil _) trivial

/-! ### Location forwards -/

theorem forwardFacing_replyHandler (operation : String) :
    (ev.replyHandler env facing operation).forwardFacing = facing :=
  wantOutfacing_other ev.mapper facing

theorem passed_locationForward (operation : String) (ref : ObjRef) (status : ReplyStatus)
    (s : Frame) :
    ev.passed env facing (.reply operation (.locationForward (.ok (some (some ref))) status))
        s =
      match (Registry.mappedForNative ev.orb ev.inst ref facing).run s.reg with
      | (.ok (some mapped), _) => [.mapped facing mapped]
      | (.ok none, _) => []
      | (.raised _, _) => []
      | (.fault _, _) => [] := by
  have hanswers := ProxyReplyHandler.handleLocationForward_answers
    (h := ev.replyHandler env facing operation) rfl ref status ⟨s, []⟩
  rw [forwardFacing_replyHandler] at hanswers
  simp only [passed, ProxyReplyHandler.handle]
  rw [hanswers]
  dsimp only [replyHandler]
  cases (Registry.mappedForNative ev.orb ev.inst ref facing).run s.reg with
  | mk outcome reg =>
      cases outcome with
      | ok mapped => cases mapped <;> rfl
      | raised e => rfl
      | fault cause => rfl

/-- A location forward always crosses: it is mapped for the requester's side or
not sent. -/
theorem facingConsistent_locationForward (operation : String)
    (fwd : Except Exn (Option (Option ObjRef))) (status : ReplyStatus) (s : Frame) :
    ev.FacingConsistent env facing (.reply operation (.locationForward fwd status)) s := by
  unfold FacingConsistent
  cases fwd with
  | error e => exact crossing_nil _
  | ok fwd =>
      cases fwd with
      | none =>
          have hhandle : (ev.replyHandler env facing operation).handle
              (.locationForward (.ok none) status) =
              (ev.replyHandler env facing operation).invoke .marshal := rfl
          rw [passed_invoke hhandle rfl s]
          exact crossing_nil _
      | some ref =>
          cases ref with
          | none =>
              have hhandle : (ev.replyHandler env facing operation).handle
                  (.locationForward (.ok (some none)) status) =
                  (ev.replyHandler env facing operation).invoke
                    (.invokeLocationForward none (status == .locationForwardPerm)) := rfl
              rw [passed_invoke hhandle rfl s]
              exact crossing_nil _
          | some ref =>
              rw [passed_locationForward]
              split
              · intro r hr
                obtain rfl := List.mem_singleton.mp hr
                simp [Reference.mappedFor, Passage.side]
              · exact crossing_nil _
              · exact crossing_nil _
              · exact crossing_nil _

/-- For every evaluator, facing, message and state: the references that pass
are mapped for the side they go to exactly when the walk maps all of those in a
request or a response, and when a user exception holds none. -/
theorem facingConsistent_iff_rightlyFaced (ev : GenericEvaluator ι) (env : Surroundings)
    (facing : Bool) (passage : Passage) (s : Frame) :
    ev.FacingConsistent env facing passage s ↔ ev.RightlyFaced facing passage s := by
  cases passage with
  | request operation decoded => exact facingConsistent_request operation decoded s
  | reply operation event =>
      cases event with
      | response result outArgs => exact facingConsistent_response operation result outArgs s
      | excep body status => exact facingConsistent_excep operation body status s
      | locationForward fwd status =>
          exact iff_of_true (facingConsistent_locationForward operation fwd status s) trivial

end Facing

/-! An evaluator for one interface with `void op () raises (E)`, where `E` has
one reference. -/

def raisingTypes : TypeGraph where
  node tc :=
    match tc with
    | 0 => .tkVoid
    | 1 => .tkObjref
    | 2 => .tkExcept "IDL:E:1.0" [1]
    | _ => .tkBasic
  aliases _ := 0
  alias_lt tc content h := by
    split at h <;> simp at h

def raisingEvaluator : GenericEvaluator Unit where
  typeId := "IDL:I:1.0"
  intDef := ()
  repo :=
    { id := fun _ => "IDL:I:1.0"
      baseInterfaces := fun _ => []
      attributes := fun _ => []
      operations := fun _ => [⟨"op", false, 0, [], [2]⟩] }
  prims := ⟨0, 3, 3⟩
  cmp := .sign
  types := raisingTypes
  dynAnyRefuses _ := none
  stack := 8
  orb := .plain
  inst := ⟨0, 0⟩
  mapper := 0

def quietSurroundings : Surroundings := ⟨fun _ => false, fun _ => .ok ()⟩

/-- The frame after `evaluate_request` has looked the operation up. -/
def raisingFrame : Frame :=
  ((raisingEvaluator.evaluateRequest "op" ⟨0, true⟩ (.ok [])).run
    ⟨.create .sign ⟨0, 3, 3⟩, sampleRegistry, [], [], none, none⟩).2

def knownRef : ObjRef := ⟨"IDL:I:1.0", none, "IOR:native", false, false⟩

/-- The exception `E` with a reference of the interface itself. -/
def raised : Passage :=
  .reply "op" (.excep ⟨some "IDL:E:1.0", none, none,
    fun _ => .ok (.composite [.object (some knownRef)])⟩ .userException)

/-- The reference in a user exception is mapped, but for the side of the
servant. -/
theorem not_facingConsistent_user :
    ¬ raisingEvaluator.FacingConsistent quietSurroundings true raised raisingFrame := by
  have hfacings : (raisingEvaluator.passed quietSurroundings true raised raisingFrame).map
      (fun r => (r.mappedFor true, r.mappedFor false)) = [(false, true)] := by decide
  intro h
  obtain ⟨r, hr, heq⟩ := List.mem_map.mp (hfacings ▸ List.mem_cons_self ..)
  have hmapped : r.mappedFor true = true := h r hr
  rw [hmapped] at heq
  exact absurd heq (by simp)

end GenericEvaluator

end Lorica
