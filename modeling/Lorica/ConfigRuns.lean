import Lorica.Config
import Lorica.ConfigSyntax

/-!
Whole runs of the getters of one `Config`: the argument vector for the ORB and
the endpoints that the policies are made from agree in every run, and what a
second configuration file has to share with the first.
-/

namespace Lorica

open Machine

namespace Config

/-! ## The arguments and the endpoints -/

section Agreement

/-- The strings behind each occurrence of a flag. -/
def following (flag : Text) : List Text → List Text
  | arg :: next :: rest =>
      if arg = flag then next :: following flag (next :: rest)
      else following flag (next :: rest)
  | _ => []

theorem following_cons_of_ne {flag arg : Text} (h : arg ≠ flag) (rest : List Text) :
    following flag (arg :: rest) = following flag rest := by
  cases rest with
  | nil => rfl
  | cons next rest => rw [following, if_neg h]

theorem following_append {flag : Text} {args : List Text} (h : flag ∉ args)
    (rest : List Text) : following flag (args ++ rest) = following flag rest := by
  induction args with
  | nil => rfl
  | cons arg args ih =>
      rw [List.cons_append, following_cons_of_ne (List.ne_of_not_mem_cons h).symm,
        ih (List.not_mem_of_not_mem_cons h)]

theorem asTaoEndpoint_ne_listenFlag (ep : Endpoint) : ep.asTaoEndpoint ≠ listenFlag := by
  have hscheme : "iiop://1.2@".toList = 'i' :: "iop://1.2@".toList := by decide
  have hflag : listenFlag = '-' :: "ORBListenEndpoints".toList := by decide
  unfold Endpoint.asTaoEndpoint
  rw [hscheme, hflag]
  intro heq
  exact absurd (List.cons.inj heq).1 (by decide)

theorem following_listenArgs (eps : List Endpoint) (debugLevel : Int) :
    following listenFlag (listenArgs eps ++ debugArgs debugLevel) =
      eps.map Endpoint.asTaoEndpoint := by
  induction eps with
  | nil =>
      have hdebug : "-ORBDebuglevel".toList ≠ listenFlag := by decide
      unfold debugArgs
      split_ifs
      · exact following_cons_of_ne hdebug _
      · rfl
  | cons ep eps ih =>
      calc following listenFlag (listenArgs (ep :: eps) ++ debugArgs debugLevel)
          = ep.asTaoEndpoint :: following listenFlag
              (ep.asTaoEndpoint :: (listenArgs eps ++ debugArgs debugLevel)) := rfl
        _ = (ep :: eps).map Endpoint.asTaoEndpoint := by
          rw [following_cons_of_ne (asTaoEndpoint_ne_listenFlag ep), ih, List.map_cons]

/-- Getters that all return the same, whenever they are called. -/
def answerOf (args ifrArgs : List Text) (ext int : List Endpoint) : Call → Answer
  | .orbOptions => .options (some { added := args })
  | .ifrOptions _ => .options (some { added := ifrArgs })
  | .endpoints true => .endpoints ext
  | .endpoints false => .endpoints int

/-- Equal results, and the argument vector names exactly the endpoints. -/
def Agree (requests : List Call) (answers : List Answer) : Prop :=
  ∃ args ifrArgs ext int, answers = requests.map (answerOf args ifrArgs ext int) ∧
    following listenFlag args = (ext ++ int).map Endpoint.asTaoEndpoint

/-- What a run of getters that began with this configuration has returned, and
the configuration behind it. `ORB_Option` is passed on as it is; behind it the
strings added to the argument vector name the endpoints that the policies are
made from, and with an address list that does not parse there are neither
arguments nor endpoints. -/
structure Answered (hashPjw : Text → UInt64) (defs : BuildDefs) (c : Config)
    (requests : List Call) (answers : List Answer) (c' : Config) : Prop where
  parses : ListParses hashPjw c true ∧ ListParses hashPjw c false →
    ∃ ext int, (∀ ep ∈ ext, ep.external = true) ∧ (∀ ep ∈ int, ep.external = false) ∧
      answers = requests.map (answerOf
        (c.leadingArgs hashPjw defs ++ listenArgs (ext ++ int) ++ debugArgs c.debugLevel)
        (c.ifrArguments hashPjw defs) ext int)
  agree : ListParses hashPjw c true ∧ ListParses hashPjw c false →
    listenFlag ∉ c.leadingArgs hashPjw defs → Agree requests answers
  refused : ¬ (ListParses hashPjw c true ∧ ListParses hashPjw c false) →
    answers = requests.map (refusal hashPjw defs c) ∧ c'.endpoints = []

variable {hashPjw : Text → UInt64} {defs : BuildDefs} {world : Surroundings}

theorem run_answered {fileName : Text} {file : Option Text} {debugLevel : Int} {asked : Nat}
    {requests : List Call} {answers : List Answer} {c' : Config}
    (h : run hashPjw defs world requests
      (initialised hashPjw fileName file debugLevel asked) = .ok (answers, c')) :
    Answered hashPjw defs (initialised hashPjw fileName file debugLevel asked) requests
      answers c' := by
  generalize hc : initialised hashPjw fileName file debugLevel asked = c at h ⊢
  have hs : Unsettled hashPjw defs c c :=
    hc ▸ initialised_unsettled fileName file debugLevel asked
  suffices hgood : ListParses hashPjw c true ∧ ListParses hashPjw c false →
      (∃ ext int, (∀ ep ∈ ext, ep.external = true) ∧ (∀ ep ∈ int, ep.external = false) ∧
        answers = requests.map (answerOf
          (c.leadingArgs hashPjw defs ++ listenArgs (ext ++ int) ++ debugArgs c.debugLevel)
          (c.ifrArguments hashPjw defs) ext int)) ∧
      (listenFlag ∉ c.leadingArgs hashPjw defs → Agree requests answers) from
    ⟨fun hparses => (hgood hparses).1, fun hparses => (hgood hparses).2,
      fun hparses => run_refused hs hparses h⟩
  intro hparses
  obtain ⟨eps, hparted, hanswers⟩ := run_parses hs hparses h
  have hreply : reply hashPjw defs c eps = answerOf
      (c.leadingArgs hashPjw defs ++ listenArgs (eps.filter (·.external = true) ++
        eps.filter (·.external = false)) ++ debugArgs c.debugLevel)
      (c.ifrArguments hashPjw defs) (eps.filter (·.external = true))
      (eps.filter (·.external = false)) := by
    funext request
    rw [hparted]
    cases request with
    | orbOptions => rfl
    | ifrOptions debug => rfl
    | endpoints ext => cases ext <;> rfl
  rw [hreply] at hanswers
  refine ⟨⟨_, _, ?_, ?_, hanswers⟩, ?_⟩
  · exact fun ep hep => by simpa using (List.mem_filter.mp hep).2
  · exact fun ep hep => by simpa using (List.mem_filter.mp hep).2
  · intro hflag
    refine ⟨_, _, _, _, hanswers, ?_⟩
    rw [List.append_assoc, following_append hflag, following_listenArgs]

/-- For every configuration and all surroundings, a run of getters returns what
`Answered` says, unless an address of the configuration names an interface that
has none when it is looked up. -/
theorem arguments_agree (hashPjw : Text → UInt64) (defs : BuildDefs) (world : Surroundings)
    (fileName : Text) (file : Option Text) (debugLevel : Int) (asked : Nat)
    (requests : List Call) :
    (∃ answers c',
      run hashPjw defs world requests (initialised hashPjw fileName file debugLevel asked) =
        .ok (answers, c') ∧
      Answered hashPjw defs (initialised hashPjw fileName file debugLevel asked) requests
        answers c') ∨
    run hashPjw defs world requests (initialised hashPjw fileName file debugLevel asked) =
        .error .outOfBounds ∧
      NicMissing hashPjw world (initialised hashPjw fileName file debugLevel asked) := by
  rcases run_returns requests (initialised hashPjw fileName file debugLevel asked) with
    ⟨⟨answers, c'⟩, hrun⟩ | hmissing
  · exact .inl ⟨answers, c', hrun, run_answered hrun⟩
  · exact .inr hmissing

/-! ### One configuration -/

def sampleDefs : BuildDefs where
  loricaExeName := "lorica".toList
  ifrServiceExeName := "IFR_Service".toList
  ifrServiceIorFile := "ifr.ior".toList
  ifrServiceCacheFile := "ifr.cache".toList

/-- A host on which no interface has an address. -/
def sampleWorld : Surroundings where
  hostname := fun _ => ⟨"host".toList, by simp⟩
  ip := fun _ _ _ => none
  uuid := fun n => 'u' :: Endpoint.itoa n

/-- A new `FileConfig` for a file with this content. -/
def sampleConfig (content : String) : Config :=
  initialised FileConfig.acePjw "lorica.conf".toList (some content.toList) 0 0

theorem arguments_agree_random_alias :
    ∃ answers c', run FileConfig.acePjw sampleDefs sampleWorld
        [.endpoints true, .orbOptions, .endpoints false, .orbOptions]
        (sampleConfig "External_Address a:1/random_alias") = .ok (answers, c') ∧
      Agree [.endpoints true, .orbOptions, .endpoints false, .orbOptions] answers := by
  have hreturns : (run FileConfig.acePjw sampleDefs sampleWorld
      [.endpoints true, .orbOptions, .endpoints false, .orbOptions]
      (sampleConfig "External_Address a:1/random_alias")).isOk = true := by
    decide +kernel
  have hparses : ListParses FileConfig.acePjw
      (sampleConfig "External_Address a:1/random_alias") true ∧
      ListParses FileConfig.acePjw (sampleConfig "External_Address a:1/random_alias") false := by
    decide +kernel
  unfold sampleConfig at hreturns hparses ⊢
  rcases arguments_agree FileConfig.acePjw sampleDefs sampleWorld "lorica.conf".toList
    (some "External_Address a:1/random_alias".toList) 0 0
    [.endpoints true, .orbOptions, .endpoints false, .orbOptions] with
    ⟨answers, c', hrun, hanswered⟩ | ⟨hfault, -⟩
  · exact ⟨answers, c', hrun, hanswered.agree hparses (by decide +kernel)⟩
  · rw [hfault] at hreturns
    cases hreturns

/-- An endpoint that `ORB_Option` passes on has no policy. -/
theorem not_agree_passed_on :
    ∃ answers, (run FileConfig.acePjw sampleDefs sampleWorld
        [.orbOptions, .endpoints true, .endpoints false]
        (sampleConfig "ORB_Option -ORBListenEndpoints iiop://x:1")).map Prod.fst = .ok answers ∧
      ListParses FileConfig.acePjw (sampleConfig "ORB_Option -ORBListenEndpoints iiop://x:1") true ∧
      ListParses FileConfig.acePjw (sampleConfig "ORB_Option -ORBListenEndpoints iiop://x:1") false ∧
      ¬ Agree [.orbOptions, .endpoints true, .endpoints false] answers := by
  refine ⟨[.options (some ⟨["lorica".toList, "-ORBUseSharedProfile".toList, "0".toList,
    "-ORBListenEndpoints".toList, "iiop://x:1".toList,
    "-ORBListenEndpoints".toList, "iiop://1.2@host:4082".toList,
    "-ORBListenEndpoints".toList, "iiop://1.2@localhost:4080".toList]⟩),
    .endpoints [{ external := true, hostname := "host".toList, port := 4082 }],
    .endpoints [{ hostname := "localhost".toList, port := 4080 }]],
    by decide +kernel, by decide +kernel, by decide +kernel, ?_⟩
  rintro ⟨args, ifrArgs, ext, int, hanswers, hfollowing⟩
  simp only [List.map_cons, List.map_nil, answerOf, List.cons.injEq, Answer.options.injEq,
    Option.some.injEq, ArgVector.mk.injEq, Answer.endpoints.injEq, and_true] at hanswers
  obtain ⟨rfl, rfl, rfl⟩ := hanswers
  exact absurd hfollowing (by decide +kernel)

end Agreement

/-! ## A second configuration file -/

section SecondFile

variable (hashPjw : Text → UInt64) (defs : BuildDefs) (world : Surroundings)

/-- Whatever is called after `init` of another file answers as for a new object. -/
def Forgets (c : Config) : Prop :=
  ∀ (fileName content : Text) (debugLevel : Int) (requests : List Call),
    fileName ≠ [] →
      (run hashPjw defs world requests
          (c.init hashPjw fileName (some content) debugLevel).2).map Prod.fst =
        (run hashPjw defs world requests
          (initialised hashPjw fileName (some content) debugLevel c.asked)).map Prod.fst

variable {hashPjw defs world} {c : Config}

/-- What `init` puts in place of the old configuration; the caches stay. -/
theorem init_some {fileName : Text} (h : fileName ≠ []) (content : Text) (debugLevel : Int) :
    (c.init hashPjw fileName (some content) debugLevel).2 =
      { c with configs := FileConfig.load hashPjw content, debugLevel := debugLevel } := by
  unfold init load
  rw [if_neg h]

theorem initialised_some {fileName : Text} (h : fileName ≠ []) (content : Text)
    (debugLevel : Int) (asked : Nat) :
    initialised hashPjw fileName (some content) debugLevel asked =
      { fresh asked with
        configs := FileConfig.load hashPjw content, debugLevel := debugLevel } :=
  init_some h content debugLevel

/-- A file of one line with a token and a value. -/
theorem getValue_one_line {content token value : Text} (hlines : '\n' ∉ content)
    (hparse : FileConfig.parseLine content = some (token, value))
    (hvalue : ∀ ch ∈ value, ch ≠ '\x00') (hc : c.configs = FileConfig.load hashPjw content)
    (dflt : Text) : c.getValue hashPjw token dflt = value := by
  have hsingle : FileConfig.getlines content = [content] :=
    List.splitOn_eq_singleton hlines
  unfold getValue
  rw [hc]
  unfold FileConfig.load
  rw [hsingle]
  simp [FileConfig.addLine, hparse, FileConfig.insert, FileConfig.extract, FileConfig.append,
    FileConfig.cStr_eq_self hvalue]

/-- The only word of its address list has no port separator. -/
def noPort : Text := "External_Address x".toList

theorem fillEndpoints_noPort (hnil : c.endpoints = [])
    (hc : c.configs = FileConfig.load hashPjw noPort) :
    c.fillEndpoints hashPjw world = .ok (false, c) := by
  have hvalue : c.getValue hashPjw (addressToken true) [] = ['x'] :=
    getValue_one_line (by decide) (by decide) (by simp) hc []
  have hwords : endpointWords ['x'] = [['x']] := by decide
  have hport : splitPort (Endpoint.primaryAddr ['x']) = none := by decide
  have hinit : c.initEndpoints hashPjw world true = .ok (false, c) := by
    unfold initEndpoints
    rw [endpointLoop_eq, List.drop_zero]
    simp [addresses, hvalue, hwords, addEndpoints, Endpoint.parseString, hport, bind,
      Except.bind, pure, Except.pure]
  unfold fillEndpoints
  rw [if_neg (not_not.mpr hnil), hinit]
  rfl

theorem call_endpoints_noPort (asked : Nat) (ext : Bool) :
    ({ fresh asked with configs := FileConfig.load hashPjw noPort }.call hashPjw defs world
      (.endpoints ext)).map Prod.fst = .ok (.endpoints []) := by
  simp only [call, getEndpoints]
  rw [fillEndpoints_noPort rfl rfl]
  rfl

theorem call_orbOptions_noPort (asked : Nat) :
    ({ fresh asked with configs := FileConfig.load hashPjw noPort }.call hashPjw defs world
      .orbOptions).map Prod.fst = .ok (.options none) := by
  simp only [call, getOrbOptions]
  have hcache : (fresh asked).orbArgs = [] := rfl
  rw [if_neg (not_not.mpr hcache), fillEndpoints_noPort rfl rfl]
  rfl

theorem run_one (request : Call) :
    (run hashPjw defs world [request] c).map Prod.fst =
      ((c.call hashPjw defs world request).map Prod.fst).map ([·]) := by
  cases hcall : c.call hashPjw defs world request with
  | error cause => simp [run, hcall, bind, Except.bind, Except.map]
  | ok result => simp [run, hcall, bind, Except.bind, pure, Except.pure, Except.map]

/-- What one getter returns after `init` is what a new object returns. -/
theorem Forgets.call_eq (h : Forgets hashPjw defs world c) (content : Text) (request : Call) :
    ({ c with configs := FileConfig.load hashPjw content, debugLevel := 0 }.call hashPjw defs
        world request).map Prod.fst =
      ({ fresh c.asked with configs := FileConfig.load hashPjw content }.call hashPjw defs
        world request).map Prod.fst := by
  have hname : ['f'] ≠ [] := List.cons_ne_nil _ _
  have hone := h ['f'] content 0 [request] hname
  rw [init_some hname, initialised_some hname, run_one, run_one] at hone
  exact (map_inj_right fun heq => (List.cons.inj heq).1).mp hone

theorem Forgets.endpoints_eq_nil (h : Forgets hashPjw defs world c) : c.endpoints = [] := by
  rcases eq_or_ne c.endpoints [] with hnil | hne
  · exact hnil
  · obtain ⟨ep, rest, hcons⟩ := List.exists_cons_of_ne_nil hne
    have hcall := h.call_eq noPort (.endpoints ep.external)
    rw [call_endpoints_noPort] at hcall
    simp [call, getEndpoints, fillEndpoints, hcons, Except.map] at hcall

theorem Forgets.orbArgs_eq_nil (h : Forgets hashPjw defs world c) : c.orbArgs = [] := by
  rcases eq_or_ne c.orbArgs [] with hnil | hne
  · exact hnil
  · have hcall := h.call_eq noPort .orbOptions
    rw [call_orbOptions_noPort] at hcall
    simp [call, getOrbOptions, hne, Except.map] at hcall

/-- Two files that name different files for the repository's reference. -/
theorem Forgets.ifrArgs_eq_nil (h : Forgets hashPjw defs world c) : c.ifrArgs = [] := by
  rcases eq_or_ne c.ifrArgs [] with hnil | hne
  · exact hnil
  · have hkept (content value : Text) (hlines : '\n' ∉ content)
        (hparse : FileConfig.parseLine content = some ("IFR_IOR_FILE".toList, value))
        (hvalue : ∀ ch ∈ value, ch ≠ '\x00') : c.ifrArgs[2]? = some value := by
      have hcall := h.call_eq content (.ifrOptions false)
      simp only [call, getIfrOptions] at hcall
      have hcache : (fresh c.asked).ifrArgs = [] := rfl
      rw [if_pos hne, if_neg (not_not.mpr hcache)] at hcall
      simp only [Except.map, Except.ok.injEq, Answer.options.injEq, Option.some.injEq,
        getIfrOptionsCopy, ArgVector.mk.injEq] at hcall
      rw [hcall]
      exact congrArg some (getValue_one_line hlines hparse hvalue rfl _)
    have ha := hkept "IFR_IOR_FILE a".toList ['a'] (by decide) (by decide) (by simp)
    have hb := hkept "IFR_IOR_FILE b".toList ['b'] (by decide) (by decide) (by simp)
    exact absurd (ha.symm.trans hb) (by decide)

/-- Nothing of the old configuration survives exactly where no getter has left
anything in the caches. -/
theorem forgets_iff_unused (hashPjw : Text → UInt64) (defs : BuildDefs)
    (world : Surroundings) (c : Config) :
    Forgets hashPjw defs world c ↔ c.endpoints = [] ∧ c.orbArgs = [] ∧ c.ifrArgs = [] := by
  constructor
  · exact fun h => ⟨h.endpoints_eq_nil, h.orbArgs_eq_nil, h.ifrArgs_eq_nil⟩
  · rintro ⟨hendpoints, horb, hifr⟩ fileName content debugLevel requests hname
    rw [init_some hname, initialised_some hname, hendpoints, horb, hifr]
    rfl

/-- The endpoints of the first file stay. -/
theorem not_forgets_endpoints :
    ∃ answers c, run FileConfig.acePjw sampleDefs sampleWorld [.endpoints true]
        (sampleConfig "External_Address a:1") = .ok (answers, c) ∧
      ¬ Forgets FileConfig.acePjw sampleDefs sampleWorld c := by
  have hreturns : ((run FileConfig.acePjw sampleDefs sampleWorld [.endpoints true]
      (sampleConfig "External_Address a:1")).map fun result => result.2.endpoints.length) =
        .ok 2 := by
    decide +kernel
  obtain ⟨⟨answers, c⟩, hrun, hlength⟩ := ok_of_map hreturns
  refine ⟨answers, c, hrun, fun h => ?_⟩
  rw [h.endpoints_eq_nil] at hlength
  exact absurd hlength (by decide)

end SecondFile

end Config

end Lorica
