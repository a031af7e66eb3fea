import Lorica.Resolution

/-!
`ReferenceMapper_i.cpp`: registration of servers and clients over the
registry, the names bound in the IOR table and the pairs of POA and object id
that the access decision object lets insecure requests through to. The access
decision object and the IOR table are objects of TAO; both keep an entry
until it is removed.
-/

namespace Lorica

open Machine

namespace Registry

/-- `rmv->field = value` -/
def update (a : Nat) (f : ReferenceMapValue → ReferenceMapValue) :
    RegistryM Unit := do
  let v ← readValue a
  Action.modify fun reg => reg.setValues (reg.values.write a (some (f v)))

/-- `poa_and_object_id` along the chain from position `m` on. -/
def poaAndObjectId (orb : Orb) (mappedRef : ObjRef) :
    List ProxyMapper → Nat → RegistryM (Option (Poa × ObjectId))
  | [], _ => pure none
  | mapper :: next, m =>
      if mapper.evaluatorFor mappedRef.typeId then
        match orb.referenceToId ⟨m, true⟩ mappedRef with
        | .ok oid => pure (some (⟨m, true⟩, oid))
        | .error .other => Action.raise .other
        | .error _ => pure none
      else poaAndObjectId orb mappedRef next (m + 1)

end Registry

/-- The state of the program around one `ReferenceMapper_i`. No operation
reads `registered`: it records which value each registration was for and
whether it asked for secure access, newest first. -/
structure MapperState where
  reg : Registry
  hasSecurity : Bool
  iorTable : Option (List (String × String))
  accessDecision : Option (List (Poa × ObjectId))
  registered : List (Nat × Bool)

abbrev MapperM (α : Type) := Action MapperState Exn α

namespace ReferenceMapper

def onRegistry {α : Type} (x : RegistryM α) : MapperM α :=
  Action.zoom MapperState.reg (fun s reg => { s with reg := reg }) x

section

variable (orb : Orb) (inst : Instance)

def allowInsecureAccess (self : ObjRef) : MapperM Unit := do
  let s ← Action.get
  match s.accessDecision with
  | none => pure ()
  | some pairs =>
      if s.hasSecurity then do
        match ← onRegistry (Registry.poaAndObjectId orb self s.reg.mappers 0) with
        | none => pure ()
        | some pair =>
            Action.modify fun s =>
              { s with accessDecision := some (pair :: pairs) }
      else pure ()

/-- A name that is bound already is only reported. -/
def bindName (a : Nat) (mapped : ObjRef) (corbalocName : String) :
    MapperM Unit := do
  let s ← Action.get
  match s.iorTable with
  | none => pure ()
  | some table =>
      if corbalocName = "" ∨ (table.lookup corbalocName).isSome then pure ()
      else do
        Action.modify fun s => { s with
          iorTable := some ((corbalocName, orb.objectToString mapped) :: table) }
        onRegistry (Registry.update a fun v =>
          { v with iorTableName := corbalocName })

def openUnlessSecure (requireSecure : Bool) (mapped : ObjRef) : MapperM Unit :=
  if requireSecure then pure () else allowInsecureAccess orb mapped

def setAgent (a : Nat) (agent : Option ObjRef) : MapperM Unit :=
  match agent with
  | none => pure ()
  | some agent =>
      onRegistry (Registry.update a fun v => { v with agent := some agent })

/-- `as_server_i` once the registry has returned a value with this mapped
reference. -/
def registerServer (requireSecure : Bool) (corbalocName : String)
    (agent : Option ObjRef) (a : Nat) (mapped : ObjRef) :
    MapperM (Option ObjRef) := do
  bindName orb a mapped corbalocName
  onRegistry (Registry.update a fun v => { v with requireSecure := requireSecure })
  Action.modify fun s =>
    { s with registered := (a, requireSecure) :: s.registered }
  openUnlessSecure orb requireSecure mapped
  setAgent a agent
  pure (some mapped)

def asServerI (requireSecure : Bool) (orig : ObjRef) (corbalocName : String)
    (agent : Option ObjRef) : MapperM (Option ObjRef) := do
  match ← onRegistry
      (Registry.mapReference orb inst orig true requireSecure) with
  | none => pure none
  | some a =>
      Action.inScope
        (do let v ← onRegistry (Registry.readValue a)
            registerServer orb requireSecure corbalocName agent a v.mappedRef)
        (onRegistry (Registry.decrRefcount a))

def asServer (orig : Option ObjRef) (corbalocName : String)
    (agent : Option ObjRef) : MapperM (Option ObjRef) :=
  match orig with
  | none => pure none
  | some orig => asServerI orb inst false orig corbalocName agent

def asSecureServer (orig : Option ObjRef) (corbalocName : String)
    (agent : Option ObjRef) : MapperM (Option ObjRef) := do
  let s ← Action.get
  if s.hasSecurity then
    match orig with
    | none => pure none
    | some orig => asServerI orb inst true orig corbalocName agent
  else Action.raise (.user "SecurityNotAvailable")

def asClient (orig : Option ObjRef) : MapperM (Option ObjRef) :=
  match orig with
  | none => pure none
  | some orig => do
      match ← onRegistry (Registry.mapReference orb inst orig false false) with
      | none => pure none
      | some a =>
          Action.inScope
            (do let v ← onRegistry (Registry.readValue a)
                pure (some v.mappedRef))
            (onRegistry (Registry.decrRefcount a))

/-- The repository id given replaces the one of the reference. -/
def asClientWithCorbaloc (corbaloc interfaceRepositoryId : String) :
    MapperM (Option ObjRef) :=
  match orb.stringToObject corbaloc with
  | .error e => Action.raise e
  | .ok none => pure none
  | .ok (some orig) =>
      asClient orb inst (some { orig with typeId := interfaceRepositoryId })

/-- `ior_table_->unbind` -/
def unbindName (name : String) : MapperM Unit := do
  let s ← Action.get
  match s.iorTable with
  | none => Action.fail .nullDereference
  | some table =>
      if (table.lookup name).isSome then
        Action.modify fun s => { s with
          iorTable := some (table.filter fun entry => entry.1 ≠ name) }
      else Action.raise (.user "NotFound")

def removeServer (mapped : Option ObjRef) : MapperM Unit :=
  match mapped with
  | none => pure ()
  | some mapped => do
      match ← onRegistry (Registry.removeReference orb mapped true) with
      | none => pure ()
      | some a =>
          Action.inScope
            (do let v ← onRegistry (Registry.readValue a)
                if v.iorTableName = "" then pure () else unbindName v.iorTableName)
            (onRegistry (Registry.decrRefcount a))

def removeClient (mapped : Option ObjRef) : MapperM Unit :=
  match mapped with
  | none => pure ()
  | some mapped => do
      match ← onRegistry (Registry.removeReference orb mapped false) with
      | none => pure ()
      | some a => onRegistry (Registry.decrRefcount a)

end

end ReferenceMapper

/-- What can happen around the mapper object: its operations, the removals of
the collector and a change of the interface repository. -/
inductive ServerOp where
  | asServer (orig : Option ObjRef) (corbalocName : String)
      (agent : Option ObjRef)
  | asSecureServer (orig : Option ObjRef) (corbalocName : String)
      (agent : Option ObjRef)
  | removeServer (mapped : Option ObjRef)
  | asClient (orig : Option ObjRef)
  | asClientWithCorbaloc (corbaloc interfaceRepositoryId : String)
  | removeClient (mapped : Option ObjRef)
  | reap (m page offset : Nat)
  | evaluators (answers : Nat → String → Bool)

namespace MapperState

/-- The state after a call, whether it returned or raised. -/
def after {α : Type} : Outcome Exn α × MapperState → Option MapperState
  | (.ok _, s) => some s
  | (.raised _, s) => some s
  | (.fault _, _) => none

open ReferenceMapper in
def step (orb : Orb) (inst : Instance) (s : MapperState) :
    ServerOp → Option MapperState
  | .asServer orig name agent => after ((asServer orb inst orig name agent).run s)
  | .asSecureServer orig name agent =>
      after ((asSecureServer orb inst orig name agent).run s)
  | .removeServer mapped => after ((removeServer orb mapped).run s)
  | .asClient orig => after ((asClient orb inst orig).run s)
  | .asClientWithCorbaloc corbaloc id =>
      after ((asClientWithCorbaloc orb inst corbaloc id).run s)
  | .removeClient mapped => after ((removeClient orb mapped).run s)
  | .reap m page offset =>
      match s.reg.table m with
      | none => none
      | some t =>
          if offset < t.pageSize.toNat ∧ page < t.pages.length then
            after ((onRegistry (Registry.reap m page offset)).run s)
          else none
  | .evaluators answers => some { s with reg := s.reg.withEvaluators answers }

/-- A new mapper object over a registry just initialised. The access decision
object is nil where it could not be resolved. -/
def initial (cacheProxyReferences hasSecurity : Bool)
    (answers : List (String → Bool)) (hasTable hasDecision : Bool) :
    MapperState where
  reg := (RegistryState.initial cacheProxyReferences hasSecurity answers).reg
  hasSecurity := hasSecurity
  iorTable := if hasTable then some [] else none
  accessDecision := if hasDecision then some [] else none
  registered := []

section Rules

variable {orb : Orb} {inst : Instance} {P I : MapperState → Prop} {s s' : MapperState}
variable {held : List Nat} {a : Nat}

open ReferenceMapper

/-- What holds however a call ends holds after its step. -/
theorem after_triple {α : Type} {x : MapperM α} {Q : α → MapperState → Prop}
    (hx : Action.Triple P x Q I) (hQ : ∀ r s, Q r s → I s) (hs : P s)
    (hafter : after (x.run s) = some s') : I s' := by
  have hrun := hx s hs
  cases hx' : x.run s with
  | mk outcome t =>
      rw [hx'] at hrun hafter
      cases outcome with
      | ok r => exact Option.some.inj hafter ▸ hQ r t hrun
      | raised e => exact Option.some.inj hafter ▸ hrun
      | fault cause => cases hafter

theorem asSecureServer_triple {orig : Option ObjRef} {name : String} {agent : Option ObjRef}
    (hkeep : ∀ s, P s → I s)
    (hserver : ∀ native, orig = some native →
      Action.Triple P (asServerI orb inst true native name agent) (fun _ => I) I) :
    Action.Triple P (asSecureServer orb inst orig name agent) (fun _ => I) I := by
  apply Action.Triple.get
  intro s hs
  split
  · cases orig with
    | none => exact Action.Triple.pure fun _ h => h ▸ hkeep s hs
    | some native =>
        rintro _ rfl
        exact hserver native rfl _ hs
  · exact Action.Triple.raise fun _ h => h ▸ hkeep s hs

theorem asClientWithCorbaloc_triple {corbaloc id : String}
    (hclient : ∀ orig, Action.Triple I (asClient orb inst orig) (fun _ => I) I) :
    Action.Triple I (asClientWithCorbaloc orb inst corbaloc id) (fun _ => I) I := by
  unfold asClientWithCorbaloc
  split
  · exact Action.Triple.raise fun _ h => h
  · exact Action.Triple.pure fun _ h => h
  · exact hclient _

/-- A value that is owned can be read. -/
theorem run_readOwned (hsafe : (⟨s.reg, held⟩ : RegistryState).Safe) (ha : a ∈ held) :
    ∃ v, s.reg.values.cells a = some v ∧
      (onRegistry (Registry.readValue a)).run s = (.ok v, s) := by
  obtain ⟨v, hv⟩ := hsafe.held_cell ha
  refine ⟨v, hv, ?_⟩
  unfold onRegistry
  rw [Action.run_zoom, Registry.run_readValue hv]

/-- A value that is owned can be written. -/
theorem update_run (hsafe : (⟨s.reg, held⟩ : RegistryState).Safe) (ha : a ∈ held)
    (f : ReferenceMapValue → ReferenceMapValue) :
    ∃ v, s.reg.values.cells a = some v ∧
      (onRegistry (Registry.update a f)).run s = (.ok (), { s with
        reg := s.reg.setValues (s.reg.values.write a (some (f v))) }) := by
  obtain ⟨v, hv⟩ := hsafe.held_cell ha
  refine ⟨v, hv, ?_⟩
  unfold onRegistry Registry.update
  rw [Action.run_zoom, Action.run_bind_ok (Registry.run_readValue hv)]
  rfl

/-- The destructor of a variable gives back its count. -/
theorem run_release (orb : Orb) (inst : Instance)
    (hsafe : (⟨s.reg, a :: held⟩ : RegistryState).Safe) :
    ∃ values, s.reg.values.decrRefcount a = .ok values ∧
      (onRegistry (Registry.decrRefcount a)).run s =
        (.ok (), { s with reg := s.reg.setValues values }) ∧
      Move orb inst ⟨s.reg, a :: held⟩ ⟨s.reg.setValues values, held⟩ := by
  obtain ⟨v, hv⟩ := hsafe.held_cell List.mem_cons_self
  obtain ⟨values, hdecr⟩ := hsafe.decr_ok hv
  have hmove : Move orb inst ⟨s.reg, a :: held⟩
      ⟨s.reg.setValues values, (a :: held).erase a⟩ :=
    .drop List.mem_cons_self hdecr
  rw [List.erase_cons_head] at hmove
  refine ⟨values, hdecr, ?_, hmove⟩
  unfold onRegistry
  rw [Action.run_zoom, Registry.run_decrRefcount hdecr]

/-- The part of an operation that owns a value: `J` holds while it does, `K`
after the destructor has given the count back. -/
theorem scope_triple {α : Type} {J K : MapperState → Prop} {f : ReferenceMapValue → MapperM α}
    (hsafe : ∀ s, P s → RegistryState.Safe ⟨s.reg, a :: held⟩)
    (hf : ∀ v, Action.Triple (fun s => P s ∧ s.reg.values.cells a = some v) (f v)
      (fun _ => J) J)
    (hdrop : Action.Triple J (onRegistry (Registry.decrRefcount a)) (fun _ => K) K) :
    Action.Triple P
      (Action.inScope (do let v ← onRegistry (Registry.readValue a); f v)
        (onRegistry (Registry.decrRefcount a)))
      (fun _ => K) K := by
  apply Action.Triple.inScope (M := fun _ => J) (F := J)
  · intro s hs
    obtain ⟨v, hv, hread⟩ := run_readOwned (hsafe s hs) List.mem_cons_self
    rw [Action.run_bind_ok hread]
    exact hf v s ⟨hs, hv⟩
  · exact fun _ => hdrop
  · exact hdrop

/-- The collector visits a slot that is there. -/
theorem step_reap {m page offset : Nat}
    (hstep : s.step orb inst (.reap m page offset) = some s') :
    ∃ t, s.reg.table m = some t ∧ offset < t.pageSize.toNat ∧ page < t.pages.length ∧
      after ((onRegistry (Registry.reap m page offset)).run s) = some s' := by
  simp only [step] at hstep
  cases ht : s.reg.table m with
  | none =>
      rw [ht] at hstep
      cases hstep
  | some t =>
      rw [ht] at hstep
      obtain ⟨hrange, hstep⟩ := Option.ite_none_right_eq_some.mp hstep
      exact ⟨t, rfl, hrange.1, hrange.2, hstep⟩

end Rules

end MapperState

def mapperSystem (orb : Orb) (inst : Instance) (cacheProxyReferences : Bool) :
    System MapperState ServerOp where
  init s := ∃ hasSecurity answers hasTable hasDecision,
    s = MapperState.initial cacheProxyReferences hasSecurity answers hasTable
      hasDecision
  step := MapperState.step orb inst

end Lorica
