import Lorica.Resolution

/-!
`ProxyServant::invoke_i`: from an incoming request to the request that is
forwarded. The evaluator is a virtual object and enters as a function that
may change the registry, answer false or raise; the calls to the agent and to
the target go over the wire and may raise.
-/

namespace Lorica

open Machine

/-- What `invoke_i` reads of the server request. -/
structure ServerRequest where
  operation : String
  poa : Poa
  oid : ObjectId
  responseExpected : Bool
  syncWithServer : Bool

structure Forwarded (Args : Type) where
  target : ObjRef
  operation : String
  args : Args
  oneway : Bool

/-- The registry, the requests sent to targets and the failures reported to
agents, newest first. -/
structure ServantState (Args : Type) where
  reg : Registry
  sent : List (Forwarded Args)
  reported : List ObjRef

structure Servant (Args : Type) where
  orb : Orb
  /-- `evaluate_request`: the arguments to forward, or `none` for false -/
  evaluateRequest : String → Poa → RegistryM (Option Args)
  /-- `agent->error_occured` -/
  errorOccured : ObjRef → Except Exn Unit
  /-- `send_oneway` and `sendc` -/
  send : Forwarded Args → Except Exn Unit

namespace Servant

variable {Args : Type}

def onRegistry {α : Type} (x : RegistryM α) : Action (ServantState Args) Exn α :=
  Action.zoom ServantState.reg (fun s reg => { s with reg := reg }) x

/-- `if (!CORBA::is_nil (agent)) agent->error_occured (...)` -/
def report (servant : Servant Args) (agent : Option ObjRef) :
    Action (ServantState Args) Exn Unit :=
  match agent with
  | none => pure ()
  | some agent => do
      Action.modify fun s => { s with reported := agent :: s.reported }
      match servant.errorOccured agent with
      | .ok _ => pure ()
      | .error e => Action.raise e

/-- The `try` block around `evaluate_request`: a user exception becomes
`BAD_OPERATION`, every other one passes. -/
def evaluate (servant : Servant Args) (request : ServerRequest)
    (agent : Option ObjRef) : Action (ServantState Args) Exn Args :=
  Action.tryCatch
    (do
      match ← onRegistry
          (servant.evaluateRequest request.operation request.poa) with
      | some args => pure args
      | none => do
          servant.report agent
          Action.raise (.system "BAD_OPERATION"))
    fun
    | .user _ => do
        servant.report agent
        Action.raise (.system "BAD_OPERATION")
    | e => Action.raise e

def forward (servant : Servant Args) (message : Forwarded Args) :
    Action (ServantState Args) Exn Unit := do
  Action.modify fun s => { s with sent := message :: s.sent }
  match servant.send message with
  | .ok _ => pure ()
  | .error e => Action.raise e

/-- `invoke_i` once the native is known. -/
def invokeNative (servant : Servant Args) (request : ServerRequest)
    (target agent : Option ObjRef) : Action (ServantState Args) Exn Unit := do
  let s ← Action.get
  -- `evaluator_for` of a nil reference is null
  match target with
  | none => Action.raise (.system "NO_IMPLEMENT")
  | some target =>
      if (s.reg.mappers[request.poa.mapper]?.any
          fun mapper => mapper.evaluatorFor target.typeId) then do
        let args ← servant.evaluate request agent
        servant.forward
          { target := target
            operation := request.operation
            args := args
            oneway := !request.responseExpected || request.syncWithServer }
      else Action.raise (.system "NO_IMPLEMENT")

def invokeI (servant : Servant Args) (request : ServerRequest) :
    Action (ServantState Args) Exn Unit := do
  let (target, agent) ← onRegistry
    (Registry.currentNative servant.orb request.poa.mapper request.oid none)
  servant.invokeNative request target agent

/-- An incoming id is handled safely: the lookup is defined and comes back
with a native or nil, and after nil the request is refused with
`NO_IMPLEMENT` and nothing is sent. -/
def HandlesId (servant : Servant Args) (request : ServerRequest)
    (s : ServantState Args) : Prop :=
  ∃ target agent reg',
    (Registry.currentNative servant.orb request.poa.mapper request.oid none).run
      s.reg = (.ok (target, agent), reg') ∧
    (target = none →
      (servant.invokeI request).run s =
        (.raised (.system "NO_IMPLEMENT"), { s with reg := reg' }))

/-- In the cached mode the id holds an index; in the uncached mode its text is
that of a reference. -/
def WellFormedId (orb : Orb) (cacheProxyReferences : Bool) (oid : ObjectId) :
    Prop :=
  if cacheProxyReferences then 12 ≤ oid.length
  else ∃ nref, (orb.objectIdToString oid >>= orb.stringToObject) = .ok nref

end Servant

namespace RegistryState

variable {orb : Orb} {inst : Instance}

/-- Without the cache no mapper ever gets a table. -/
theorem uncached_of_reach {guard : RegistryState → RegistryOp → Prop}
    {s : RegistryState} (h : (registrySystem orb inst false).Reach guard s) :
    ∀ m, s.reg.table m = none := by
  refine (move_invariant (I := fun s => ∀ m, s.reg.table m = none) ?_ ?_ h).2
  · intro hasSecurity answers m
    rw [initial_table]
    simp
  · intro s s' _ hnone hmove
    have habsurd : ∀ {m : Nat} {t : RMVByMapped Nat},
        s.reg.table m = some t → False := by
      intro m t ht
      rw [hnone m] at ht
      cases ht
    cases hmove with
    | issue ht => exact (habsurd ht).elim
    | alloc v hv => exact hnone
    | install ht _ _ _ _ _ _ => exact (habsurd ht).elim
    | take _ _ => exact hnone
    | unbind ht _ _ => exact (habsurd ht).elim
    | reap ht _ _ _ _ => exact (habsurd ht).elim
    | drop _ _ => exact hnone
    | touch _ _ _ _ _ => exact hnone
    | evaluators answers =>
        intro m
        rw [Registry.withEvaluators_table]
        exact hnone m

end RegistryState

namespace Servant

variable {Args : Type}

/-- Nil from the lookup ends the request before anything is evaluated. -/
theorem run_invokeI_nil (servant : Servant Args) (request : ServerRequest)
    (s : ServantState Args) {agent : Option ObjRef} {reg' : Registry}
    (hnil : (Registry.currentNative servant.orb request.poa.mapper request.oid
      none).run s.reg = (.ok (none, agent), reg')) :
    (servant.invokeI request).run s =
      (.raised (.system "NO_IMPLEMENT"), { s with reg := reg' }) := by
  have hlookup : (onRegistry (Registry.currentNative servant.orb
      request.poa.mapper request.oid none)).run s =
        (.ok (none, agent), { s with reg := reg' }) := by
    unfold onRegistry
    rw [Action.run_zoom, hnil]
  unfold invokeI
  rw [Action.run_bind_ok hlookup]
  rfl

/-- The lookup finds a native, and there is an evaluator for its type. -/
def Served (servant : Servant Args) (request : ServerRequest)
    (s : ServantState Args) : Prop :=
  ∃ target agent reg',
    (Registry.currentNative servant.orb request.poa.mapper request.oid none).run
      s.reg = (.ok (some target, agent), reg') ∧
    reg'.mappers[request.poa.mapper]?.any fun mapper =>
      mapper.evaluatorFor target.typeId

/-- What the evaluator makes of the arguments goes to the target. -/
theorem invokeI_sends (servant : Servant Args) (request : ServerRequest)
    (s : ServantState Args) {args : Args} (hserved : servant.Served request s)
    (hargs : ∀ reg, ∃ reg', (servant.evaluateRequest request.operation request.poa).run
      reg = (.ok (some args), reg')) :
    ∃ message, ((servant.invokeI request).run s).2.sent = message :: s.sent ∧
      message.args = args := by
  obtain ⟨target, agent, found, hrun, hevaluator⟩ := hserved
  obtain ⟨evaluated, heval⟩ := hargs found
  have hlookup : (onRegistry (Registry.currentNative servant.orb
      request.poa.mapper request.oid none)).run s =
        (.ok (some target, agent), { s with reg := found }) := by
    unfold onRegistry
    rw [Action.run_zoom, hrun]
  have hevaluate : (servant.evaluate request agent).run { s with reg := found } =
      (.ok args, { s with reg := evaluated }) := by
    unfold evaluate onRegistry
    rw [Action.run_tryCatch, Action.run_bind, Action.run_zoom]
    dsimp only
    rw [heval]
    rfl
  let message : Forwarded Args :=
    { target := target
      operation := request.operation
      args := args
      oneway := !request.responseExpected || request.syncWithServer }
  have hforward : ∀ s, ((servant.forward message).run s).2.sent = message :: s.sent := by
    intro s
    unfold forward
    rw [Action.run_bind_ok (Action.run_modify _ s)]
    cases servant.send message <;> rfl
  refine ⟨message, ?_, rfl⟩
  unfold invokeI
  rw [Action.run_bind_ok hlookup]
  unfold invokeNative
  rw [Action.run_bind_ok (Action.run_get _)]
  dsimp only
  rw [if_pos hevaluator, Action.run_bind_ok hevaluate]
  exact hforward _

/-- The lookup of the uncached mode. An exception of CORBA is answered by a
call on the agent, which is nil. -/
theorem run_currentNative_uncached (orb : Orb) {reg : Registry} {m : Nat}
    (ht : reg.table m = none) (oid : ObjectId) :
    (Registry.currentNative orb m oid none).run reg =
      (match orb.objectIdToString oid >>= orb.stringToObject with
        | .ok nref => .ok (nref, none)
        | .error .other => .raised .other
        | .error _ => .fault .nullDereference, reg) := by
  unfold Registry.currentNative Registry.currentNativeBody
  rw [Action.run_tryCatch, Action.run_bind_ok (Action.run_get reg)]
  simp only [ht]
  cases orb.objectIdToString oid >>= orb.stringToObject with
  | ok nref => rfl
  | error e => cases e <;> rfl

/-- In every run of both modes an incoming id is handled safely exactly when
it is well formed. -/
theorem handlesId_iff_wellFormed (servant : Servant Args) (inst : Instance)
    (cache : Bool) (s : ServantState Args) (held : List Nat)
    (hreach : (registrySystem servant.orb inst cache).Reachable ⟨s.reg, held⟩)
    (request : ServerRequest)
    (hpoa : request.poa.mapper < s.reg.mappers.length) :
    servant.HandlesId request s ↔
      WellFormedId servant.orb cache request.oid := by
  -- nil is refused in either mode, so only the lookup can go wrong
  have hhandles : servant.HandlesId request s ↔
      ∃ answer, ((Registry.currentNative servant.orb request.poa.mapper
        request.oid none).run s.reg).1 = .ok answer := by
    constructor
    · rintro ⟨target, agent, reg', hrun, -⟩
      exact ⟨(target, agent), by rw [hrun]⟩
    · rintro ⟨⟨target, agent⟩, hanswer⟩
      refine ⟨target, agent, _, Prod.ext hanswer rfl, ?_⟩
      rintro rfl
      exact servant.run_invokeI_nil request s (Prod.ext hanswer rfl)
  rw [hhandles]
  cases cache with
  | false =>
      rw [run_currentNative_uncached servant.orb
        (RegistryState.uncached_of_reach hreach request.poa.mapper)]
      simp only [WellFormedId, Bool.false_eq_true, if_false]
      cases servant.orb.objectIdToString request.oid >>=
          servant.orb.stringToObject with
      | ok nref => simp
      | error e => cases e <;> simp
  | true =>
      have hsafe := (RegistryState.sound_of_reach hreach).1
      obtain ⟨t, ht⟩ := RegistryState.cached_of_reach hreach _ hpoa
      rw [Registry.run_currentNative servant.orb hsafe ht]
      simp only [WellFormedId, if_true]
      by_cases hlong : 12 ≤ request.oid.length
      · simp only [hlong, if_true, iff_true]
        cases s.reg.occupant request.poa.mapper request.oid with
        | none => exact ⟨_, rfl⟩
        | some v => exact ⟨_, rfl⟩
      · simp [hlong]

/-- A servant whose evaluator lets every request through. -/
def transparent : Servant Unit where
  orb := Orb.plain
  evaluateRequest := fun _ _ => pure (some ())
  errorOccured := fun _ => .ok ()
  send := fun _ => .ok ()

/-- The state of `transparent` after `init_mappers` with one mapper. -/
def fresh (cacheProxyReferences : Bool) : ServantState Unit where
  reg := (RegistryState.initial cacheProxyReferences false [fun _ => true]).reg
  sent := []
  reported := []

theorem fresh_reachable (cache : Bool) :
    (registrySystem Orb.plain ⟨7, 42⟩ cache).Reachable ⟨(fresh cache).reg, []⟩ :=
  .start ⟨false, [fun _ => true], rfl⟩

theorem handlesId_unknown_index :
    transparent.HandlesId
      ⟨"ping", ⟨0, true⟩, Instance.objectId ⟨7, 42⟩ true 5, true, false⟩
      (fresh true) := by
  have hwell : WellFormedId Orb.plain true (Instance.objectId ⟨7, 42⟩ true 5) := by
    change 12 ≤ (Instance.objectId ⟨7, 42⟩ true 5).length
    decide
  exact (handlesId_iff_wellFormed transparent ⟨7, 42⟩ true (fresh true) []
    (fresh_reachable true) _ (by decide)).mpr hwell

/-- Every id is handled in every run of a mode. -/
def EveryIdHandled (cacheProxyReferences : Bool) : Prop :=
  ∀ (servant : Servant Unit) (inst : Instance) (s : ServantState Unit)
    (held : List Nat) (request : ServerRequest),
    (registrySystem servant.orb inst cacheProxyReferences).Reachable
      ⟨s.reg, held⟩ →
    request.poa.mapper < s.reg.mappers.length → servant.HandlesId request s

theorem not_everyIdHandled (cache : Bool) (oid : ObjectId) (cause : Fault)
    (hfault : ((Registry.currentNative Orb.plain 0 oid none).run
      (fresh cache).reg).1 = .fault cause) : ¬ EveryIdHandled cache := by
  intro hall
  obtain ⟨target, agent, reg', hrun, -⟩ := hall transparent ⟨7, 42⟩ (fresh cache) []
    ⟨"ping", ⟨0, true⟩, oid, true, false⟩ (fresh_reachable cache)
    (by simp [fresh, RegistryState.initial])
  have hok : ((Registry.currentNative Orb.plain 0 oid none).run
      (fresh cache).reg).1 = .ok (target, agent) := congrArg Prod.fst hrun
  rw [hfault] at hok
  cases hok

/-- Either mode has an id that is not handled: the empty one where the table
is asked, and `foo`, which is no text of a reference, where it is not. -/
theorem ids_not_handled :
    ¬ EveryIdHandled true ∧ ¬ EveryIdHandled false := by
  constructor
  · apply not_everyIdHandled true [] .outOfBounds
    decide
  · apply not_everyIdHandled false [0x66, 0x6f, 0x6f] .nullDereference
    decide

end Servant

end Lorica
