import Lorica.WordSplitting

/-!
`Proxy::configure`: what it asks of TAO and in which order, and how it ends.
Whatever is raised on the way ends in the `InitError`; the use of a null pointer
is not raised. What TAO answers is a parameter.
-/

namespace Lorica

open Machine

/-- The endpoint of a policy. The port is a `CORBA::UShort`. -/
structure IIOPEndpointValue where
  host : Text
  port : UInt16
deriving DecidableEq

/-- The policy value for an endpoint, under its alias if it has one. -/
def Config.Endpoint.policyValue (ep : Endpoint) : IIOPEndpointValue where
  host := cStr (if ep.alias_ ≠ [] then ep.alias_ else ep.hostname)
  port := UInt16.ofInt ep.port

namespace Proxy

/-- What `configure` asks for. -/
inductive Request where
  | orbInit (args : ArgVector)
  /-- `resolve_initial_references ("RootPOA")`, with so many attempts left -/
  | rootPoa (attempts : Nat)
  | narrowRootPoa
  | managerFactory
  | iorTable
  | poaManager (name : Text) (endpoints : List IIOPEndpointValue)
  | adminPoa
  | activateMapper
  | bindMapper
  | iorFile (name : Text)
  | shutdownHandler
  | register (call : SetupCall)
  | genericEvaluator
  | initMappers
  | activateManagers
deriving DecidableEq

/-- Whether a request is granted. If not, an exception is raised or nil comes
back and `configure` raises the exception. -/
abbrev Answers := Request → Bool

/-- How `configure` ends. -/
inductive Ending where
  | configured
  | initError
  /-- `arguments->argc ()` with a null pointer -/
  | nullArguments
deriving DecidableEq

section Definitions

variable (hashPjw : Text → UInt64) (defs : BuildDefs) (world : Surroundings)
  (tao : Answers)

/-- From `ORB_init` to the IOR table. The root POA is asked for four times. -/
def openOrb (args : ArgVector) : Bool :=
  tao (.orbInit args) && [3, 2, 1, 0].any (fun attempts => tao (.rootPoa attempts)) &&
    [.narrowRootPoa, .managerFactory, .iorTable].all tao

/-- What comes after the two POA managers. -/
def closingRequests (c : Config) (defIorFile : Text) : List Request :=
  [.adminPoa, .activateMapper, .bindMapper,
      .iorFile (c.getValue hashPjw "IOR_FILE".toList defIorFile), .shutdownHandler] ++
    (c.nullMapperCalls hashPjw).map .register ++
    (if c.getBoolValue hashPjw "Generic_Evaluator".toList false then [.genericEvaluator]
    else []) ++
    [.initMappers, .activateManagers]

def configure (c : Config) (defIorFile : Text) : Except Fault Ending := do
  let (arguments, c) ← c.getOrbOptions hashPjw defs world
  match arguments with
  | none => return .nullArguments
  | some arguments =>
      if openOrb tao arguments = false then return .initError
      let (exPoints, c) ← c.getEndpoints hashPjw world true
      if tao (.poaManager "OutsidePOAManager".toList (exPoints.map (·.policyValue))) = false then
        return .initError
      let (inPoints, c) ← c.getEndpoints hashPjw world false
      if tao (.poaManager "InsidePOAManager".toList (inPoints.map (·.policyValue))) = false then
        return .initError
      return if (closingRequests hashPjw c defIorFile).all tao then .configured else .initError

/-- `parse_string` returns false. -/
def Rejected (word : Text) : Prop :=
  ∃ world ep outsideFacing asked asked',
    Config.Endpoint.parseString world ep word outsideFacing asked = .ok (none, asked')

/-- A word of one of the two lists. -/
def Listed (c : Config) (word : Text) : Prop :=
  ∃ doExtern, word ∈ Machine.words ' ' (c.getValue hashPjw (Config.addressToken doExtern) [])

/-- A word of one of the two lists that stands in front of any empty piece. -/
def Tried (c : Config) (word : Text) : Prop :=
  ∃ doExtern, word ∈
    Config.endpointWords (c.getValue hashPjw (Config.addressToken doExtern) [])

/-- A word of the configuration that is rejected, wherever it stands. -/
structure BadWord (c : Config) (word : Text) : Prop where
  listed : Listed hashPjw c word
  rejected : Rejected word

/-- Where each interface has an address, `configure` ends in the `InitError`. -/
def Reports (c : Config) (defIorFile : Text) : Prop :=
  ∀ world tao, (∀ n family nic, (world.ip n family nic).isSome) →
    configure hashPjw defs world tao c defIorFile = .ok .initError

end Definitions

section Rejection

variable {hashPjw : Text → UInt64} {defs : BuildDefs} {world : Surroundings}
  {tao : Answers}

theorem rejected_iff {word : Text} : Rejected word ↔ ¬ Config.Endpoint.Readable word := by
  constructor
  · rintro ⟨world, ep, outsideFacing, asked, asked', h⟩ hread
    exact absurd ((Config.Endpoint.parseString_spec h).1.mpr hread) (by simp)
  · intro hread
    let found : Surroundings := { Config.sampleWorld with ip := fun _ _ _ => some [] }
    obtain ⟨⟨result, asked'⟩, h⟩ :=
      (@Config.Endpoint.parseString_returns found {} word true 0).ok
        (Config.Endpoint.not_wordMissing (fun _ _ _ => rfl) word)
    cases result with
    | none => exact ⟨found, {}, true, 0, asked', h⟩
    | some ep => exact absurd ((Config.Endpoint.parseString_spec h).1.mp rfl) hread

/-- With a rejected word in front of any empty piece there are no arguments. -/
theorem getOrbOptions_tried {c c' : Config} {word : Text} {arguments : Option ArgVector}
    (htried : Tried hashPjw c word) (hrejected : Rejected word) (hargs : c.orbArgs = [])
    (hendpoints : c.endpoints = [])
    (h : c.getOrbOptions hashPjw defs world = .ok (arguments, c')) :
    arguments = none := by
  obtain ⟨doExtern, hword⟩ := htried
  unfold Config.getOrbOptions at h
  rw [if_neg (not_not.mpr hargs)] at h
  obtain ⟨⟨ok, c₁⟩, hfill, heq⟩ := ok_of_bind h
  cases ok with
  | false =>
      cases heq
      rfl
  | true =>
      have hnone : { c with orbArgs := c.leadingArgs hashPjw defs }.endpoints = [] := hendpoints
      have hparses := (Config.fillEndpoints_first hnone hfill).1.mp rfl
      refine absurd ?_ (rejected_iff.mp hrejected)
      cases doExtern with
      | true => exact hparses.1 word hword
      | false => exact hparses.2 word hword

/-- Where TAO grants everything nothing is raised. -/
theorem configure_granted (c : Config) (defIorFile : Text) :
    configure hashPjw defs world (fun _ => true) c defIorFile ≠ .ok .initError := by
  have hall (requests : List Request) : requests.all (fun _ => true) = true := by simp
  intro h
  unfold configure openOrb at h
  obtain ⟨⟨_ | arguments, c₁⟩, -, h⟩ := ok_of_bind h
  · cases h
  · simp only [hall, List.any_cons, Bool.true_or, Bool.true_and, reduceCtorEq, if_false] at h
    obtain ⟨⟨ext, c₂⟩, -, h⟩ := ok_of_bind h
    obtain ⟨⟨int, c₃⟩, -, h⟩ := ok_of_bind h
    cases h

theorem configure_nullArguments {c c' : Config} (defIorFile : Text)
    (h : c.getOrbOptions hashPjw defs world = .ok (none, c')) :
    configure hashPjw defs world tao c defIorFile = .ok .nullArguments := by
  unfold configure
  rw [h]
  rfl

/-- The word's place in the list and the answers of TAO do not matter. -/
theorem configure_tried {c : Config} {word : Text} (htried : Tried hashPjw c word)
    (hrejected : Rejected word) (hargs : c.orbArgs = []) (hendpoints : c.endpoints = [])
    (defIorFile : Text) :
    configure hashPjw defs world tao c defIorFile = .error .outOfBounds ∧
        Config.NicMissing hashPjw world c ∨
      configure hashPjw defs world tao c defIorFile = .ok .nullArguments := by
  rcases @Config.getOrbOptions_returns hashPjw defs world c with
    ⟨⟨arguments, c₁⟩, hoptions⟩ | ⟨hfault, hmissing⟩
  · obtain rfl := getOrbOptions_tried htried hrejected hargs hendpoints hoptions
    exact .inr (configure_nullArguments defIorFile hoptions)
  · refine .inl ⟨?_, hmissing⟩
    unfold configure
    rw [hfault]
    rfl

theorem fillEndpoints_untried {c : Config}
    (hip : ∀ n family nic, (world.ip n family nic).isSome)
    (htried : ∀ word, Tried hashPjw c word → ¬ Rejected word) :
    ∃ c', c.fillEndpoints hashPjw world = .ok (true, c') := by
  obtain ⟨⟨ok, c'⟩, hfill⟩ := (@Config.fillEndpoints_returns hashPjw world c).ok
    (Config.not_nicMissing hip c)
  rcases eq_or_ne c.endpoints [] with hnone | hsome
  · have hread (doExtern : Bool) : Config.ListParses hashPjw c doExtern := by
      intro word hword
      exact not_not.mp fun hread => htried word ⟨doExtern, hword⟩ (rejected_iff.mpr hread)
    obtain rfl := (Config.fillEndpoints_first hnone hfill).1.mpr ⟨hread true, hread false⟩
    exact ⟨c', hfill⟩
  · unfold Config.fillEndpoints
    exact ⟨c, if_pos hsome⟩

/-- With every tried word accepted nothing is noticed. -/
theorem configure_untried {c : Config} (hip : ∀ n family nic, (world.ip n family nic).isSome)
    (htried : ∀ word, Tried hashPjw c word → ¬ Rejected word) (defIorFile : Text) :
    configure hashPjw defs world (fun _ => true) c defIorFile = .ok .configured := by
  have hall (requests : List Request) : requests.all (fun _ => true) = true := by simp
  have hget (c : Config) (ext : Bool) : ∃ result,
      c.getEndpoints hashPjw world ext = .ok result :=
    (Config.getEndpoints_returns c ext).ok (Config.not_nicMissing hip c)
  obtain ⟨arguments, c₁, hoptions⟩ : ∃ arguments c₁,
      c.getOrbOptions hashPjw defs world = .ok (some arguments, c₁) := by
    unfold Config.getOrbOptions
    split_ifs with hargs
    · exact ⟨_, _, rfl⟩
    · have hfill := @fillEndpoints_untried hashPjw world
        { c with orbArgs := c.leadingArgs hashPjw defs } hip htried
      obtain ⟨c₁, hfill⟩ := hfill
      rw [hfill]
      exact ⟨_, _, rfl⟩
  obtain ⟨ext, hext⟩ := hget c₁ true
  obtain ⟨int, hint⟩ := hget ext.2 false
  simp [configure, openOrb, hoptions, hext, hint, bind, Except.bind, pure, Except.pure]

/-- For every file in which a word of an address list is rejected: `configure`
does not end in the `InitError`. If the word is tried it uses the null pointer,
unless an address names an interface that has none when it is looked up. -/
theorem badWord_not_reported (hashPjw : Text → UInt64) (defs : BuildDefs) (fileName : Text)
    (file : Option Text) (debugLevel : Int) (asked : Nat) (defIorFile : Text) {word : Text}
    (hbad : BadWord hashPjw (Config.initialised hashPjw fileName file debugLevel asked) word) :
    let c := Config.initialised hashPjw fileName file debugLevel asked
    ¬ Reports hashPjw defs c defIorFile ∧
      (Tried hashPjw c word → ∀ world tao,
        configure hashPjw defs world tao c defIorFile = .error .outOfBounds ∧
            Config.NicMissing hashPjw world c ∨
          configure hashPjw defs world tao c defIorFile = .ok .nullArguments) := by
  intro c
  constructor
  · intro h
    let found : Surroundings := { Config.sampleWorld with ip := fun _ _ _ => some [] }
    exact configure_granted c defIorFile (h found (fun _ => true) fun _ _ _ => rfl)
  · intro htried world tao
    have hnew : Config.Unsettled hashPjw defs c c :=
      Config.initialised_unsettled fileName file debugLevel asked
    exact configure_tried htried hbad.rejected hnew.orbArgs hnew.endpoints defIorFile

/-- The only word has no port. -/
theorem badWord_no_port :
    BadWord FileConfig.acePjw (Config.sampleConfig "External_Address x") ['x'] where
  listed := ⟨true, by decide +kernel⟩
  rejected := rejected_iff.mpr (by decide)

theorem badWord_not_reported_no_port :
    ¬ Reports FileConfig.acePjw Config.sampleDefs (Config.sampleConfig "External_Address x")
      "ior".toList :=
  (badWord_not_reported FileConfig.acePjw Config.sampleDefs _ _ _ _ _ badWord_no_port).1

/-- Whatever TAO would answer, the null pointer is used. -/
theorem nullArguments_no_port :
    BadWord FileConfig.acePjw (Config.sampleConfig "External_Address x") ['x'] ∧
      (∀ tao, configure FileConfig.acePjw Config.sampleDefs Config.sampleWorld tao
        (Config.sampleConfig "External_Address x") "ior".toList = .ok .nullArguments) ∧
      ¬ Reports FileConfig.acePjw Config.sampleDefs (Config.sampleConfig "External_Address x")
        "ior".toList := by
  have hnull : (Config.getOrbOptions FileConfig.acePjw Config.sampleDefs Config.sampleWorld
      (Config.sampleConfig "External_Address x")).map Prod.fst = .ok none := by
    decide +kernel
  obtain ⟨⟨arguments, c'⟩, hoptions, rfl⟩ := ok_of_map hnull
  refine ⟨badWord_no_port, fun tao => configure_nullArguments _ hoptions, fun h => ?_⟩
  have hend := h { Config.sampleWorld with ip := fun _ _ _ => some [] } (fun _ => true)
    fun _ _ _ => rfl
  exact configure_granted _ _ hend

end Rejection

end Proxy

end Lorica
