import Lorica.Endpoint
import Lorica.Lib.Pieces

/-!
`ConfigBase.cpp` over `FileConfig.cpp`: the getters that turn the tokens of a
configuration into argument vectors and endpoints. Two lists of arguments and
the list of endpoints are filled by whichever getter needs them first and kept
from then on. The getters copy the arguments into an `ACE_ARGV`, which is known
by what was added to it: how `argv ()` joins that and splits it again is left
out.
-/

namespace Lorica

open Machine

/-- What the build defines for `ConfigBase.cpp`. -/
structure BuildDefs where
  loricaExeName : Text
  ifrServiceExeName : Text
  ifrServiceIorFile : Text
  ifrServiceCacheFile : Text

/-- The members of a `FileConfig` that its getters read; `asked` counts the
questions to the surroundings. -/
structure Config where
  configs : Configs
  debugLevel : Int
  endpoints : List Config.Endpoint
  orbArgs : List Text
  ifrArgs : List Text
  asked : Nat

/-- An `ACE_ARGV`, given by the strings that were added to it. -/
structure ArgVector where
  added : List Text
deriving DecidableEq

namespace Config

inductive Call where
  | orbOptions
  | ifrOptions (debug : Bool)
  | endpoints (external : Bool)
deriving DecidableEq

inductive Answer where
  | options (args : Option ArgVector)
  | endpoints (eps : List Endpoint)
deriving DecidableEq

/-- The constructor of `FileConfig`. -/
def fresh (asked : Nat) : Config where
  configs := fun _ => none
  debugLevel := 0
  endpoints := []
  orbArgs := []
  ifrArgs := []
  asked := asked

/-! ## The loops over a setting -/

section Loops

/-- The loop of `get_orb_options`, and again of `get_ifr_options`. -/
def optionLoop (opts : Text) (pos : Nat) : List Text :=
  match h : findFrom ' ' opts pos with
  | none => if opts.drop pos = [] then [] else [opts.drop pos]
  | some tpos =>
      let substr := (opts.drop pos).take (tpos - pos)
      if substr = [] then optionLoop opts (tpos + 1)
      else substr :: optionLoop opts (tpos + 1)
termination_by opts.length - pos
decreasing_by
  all_goals
    have hbounds := findFrom_bounds h
    omega

/-- The loop of `init_endpoints`. -/
def endpointLoop (epsStr : Text) (pos : Nat) : List Text :=
  match h : findFrom ' ' epsStr pos with
  | none => if epsStr.drop pos = [] then [] else [epsStr.drop pos]
  | some tpos =>
      let epStr := (epsStr.drop pos).take (tpos - pos)
      if epStr = [] then [] else epStr :: endpointLoop epsStr (tpos + 1)
termination_by epsStr.length - pos
decreasing_by
  have hbounds := findFrom_bounds h
  omega

/-- The pieces between blanks up to the first empty one. -/
def endpointWords (epsStr : Text) : List Text := (epsStr.splitOn ' ').takeWhile (· ≠ [])

theorem optionLoop_eq (opts : Text) (pos : Nat) :
    optionLoop opts pos = words ' ' (opts.drop pos) := by
  unfold words
  fun_induction optionLoop opts pos with
  | case1 pos h hnil => simp [hnil]
  | case2 pos h hne => simp [splitOn_drop_of_none h, hne]
  | case3 pos tpos h substr hnil ih =>
      have hpiece : (opts.drop pos).take (tpos - pos) = [] := hnil
      rw [ih, splitOn_drop_of_some h, hpiece]
      rfl
  | case4 pos tpos h substr hne ih =>
      rw [ih, splitOn_drop_of_some h, List.filter_cons_of_pos (by simpa [substr] using hne)]

theorem endpointLoop_eq (epsStr : Text) (pos : Nat) :
    endpointLoop epsStr pos = endpointWords (epsStr.drop pos) := by
  unfold endpointWords
  fun_induction endpointLoop epsStr pos with
  | case1 pos h hnil => simp [hnil]
  | case2 pos h hne => simp [splitOn_drop_of_none h, hne]
  | case3 pos tpos h epStr hnil =>
      have hpiece : (epsStr.drop pos).take (tpos - pos) = [] := hnil
      rw [splitOn_drop_of_some h, hpiece]
      rfl
  | case4 pos tpos h epStr hne ih =>
      rw [ih, splitOn_drop_of_some h, List.takeWhile_cons_of_pos (by simpa [epStr] using hne)]

/-- A setting that is not empty is split. -/
def optionWords (opts : Text) : List Text := if opts ≠ [] then optionLoop opts 0 else []

theorem optionWords_eq (opts : Text) : optionWords opts = words ' ' opts := by
  unfold optionWords
  split_ifs with hne
  · exact optionLoop_eq opts 0
  · rw [not_not.mp hne, words_nil]

end Loops

/-! ## The getters -/

def addressToken (doExtern : Bool) : Text :=
  if doExtern then "External_Address".toList else "Internal_Address".toList

def listenFlag : Text := "-ORBListenEndpoints".toList

def listenArgs (eps : List Endpoint) : List Text :=
  eps.flatMap fun ep => [listenFlag, ep.asTaoEndpoint]

def debugArgs (debugLevel : Int) : List Text :=
  if debugLevel > 0 then ["-ORBDebuglevel".toList, Endpoint.itoa debugLevel] else []

section Definitions

variable (hashPjw : Text → UInt64) (defs : BuildDefs) (world : Surroundings)

def getValue (c : Config) (token dflt : Text) : Text :=
  FileConfig.extract hashPjw c.configs token dflt

/-- `get_bool_value`; `strcasecmp` ignores the case. -/
def getBoolValue (c : Config) (token : Text) (dflt : Bool) : Bool :=
  let value := (c.getValue hashPjw token []).map Char.toLower
  if value = "yes".toList ∨ value = "true".toList then true
  else if value = "no".toList ∨ value = "false".toList then false
  else dflt

/-- `load` of the file that the name opens, if it opens one. -/
def load (c : Config) (fileName : Text) (file : Option Text) : Bool × Config :=
  if fileName = [] then (false, c)
  else
    match file with
    | none => (false, { c with configs := fun _ => none })
    | some content => (true, { c with configs := FileConfig.load hashPjw content })

/-- `FileConfig::init`; `false` is the `InitError`. -/
def init (c : Config) (fileName : Text) (file : Option Text) (debugLevel : Int) :
    Bool × Config :=
  { c with debugLevel := debugLevel }.load hashPjw fileName file

/-- A new object after `init`. -/
def initialised (fileName : Text) (file : Option Text) (debugLevel : Int) (asked : Nat) :
    Config :=
  ((fresh asked).init hashPjw fileName file debugLevel).2

/-- The list of addresses, or the default for an empty one. -/
def addresses (c : Config) (doExtern : Bool) : Text × Config :=
  let epsStr := c.getValue hashPjw (addressToken doExtern) []
  if epsStr ≠ [] then (epsStr, c)
  else if doExtern then
    ((world.hostname c.asked).val ++ ":4082".toList, { c with asked := c.asked + 1 })
  else ("localhost:4080".toList, c)

/-- What `init_endpoints` does with the pieces that its loop comes to. -/
def addEndpoints (doExtern : Bool) : List Text → Config → Except Fault (Bool × Config)
  | [], c => .ok (true, c)
  | epStr :: rest, c => do
      let (parsed, asked) ← Endpoint.parseString world { external := doExtern } epStr doExtern
        c.asked
      match parsed with
      | none => return (false, { c with asked := asked })
      | some ep =>
          addEndpoints doExtern rest
            { c with endpoints := c.endpoints ++ [ep], asked := asked }

def initEndpoints (c : Config) (doExtern : Bool) : Except Fault (Bool × Config) :=
  addEndpoints world doExtern (endpointLoop (c.addresses hashPjw world doExtern).1 0)
    (c.addresses hashPjw world doExtern).2

/-- The condition that both getters of endpoints begin with: `false` if the
list was empty and could not be filled. -/
def fillEndpoints (c : Config) : Except Fault (Bool × Config) :=
  if c.endpoints ≠ [] then .ok (true, c)
  else do
    let (ok, c) ← c.initEndpoints hashPjw world true
    if ok then c.initEndpoints hashPjw world false else return (false, c)

def getEndpoints (c : Config) (ext : Bool) : Except Fault (List Endpoint × Config) := do
  let (ok, c) ← c.fillEndpoints hashPjw world
  return if ok then (c.endpoints.filter (·.external = ext), c)
    else ([], { c with endpoints := [] })

/-- The arguments that come before the endpoints. -/
def leadingArgs (c : Config) : List Text :=
  [defs.loricaExeName, "-ORBUseSharedProfile".toList, "0".toList] ++
    optionWords (c.getValue hashPjw "ORB_Option".toList [])

def getOrbOptionsCopy (c : Config) : ArgVector where
  added := c.orbArgs

def getOrbOptions (c : Config) : Except Fault (Option ArgVector × Config) :=
  if c.orbArgs ≠ [] then .ok (some c.getOrbOptionsCopy, c)
  else do
    let (ok, c) ← fillEndpoints hashPjw world
      { c with orbArgs := c.leadingArgs hashPjw defs }
    if ok then
      let c := { c with
        orbArgs := c.orbArgs ++ listenArgs c.endpoints ++ debugArgs c.debugLevel }
      return (some c.getOrbOptionsCopy, c)
    else return (none, { c with endpoints := [], orbArgs := [] })

/-- The arguments of the interface repository in front of `IFR_CmdOption`. -/
def ifrLeadingArgs (c : Config) : List Text :=
  let cache := c.getValue hashPjw "IFR_CACHE".toList []
  [defs.ifrServiceExeName, "-o".toList,
      c.getValue hashPjw "IFR_IOR_FILE".toList defs.ifrServiceIorFile] ++
    (if c.getBoolValue hashPjw "IFR_PERSISTENT".toList true then
      ["-p".toList, "-b".toList, if cache = [] then defs.ifrServiceCacheFile else cache]
    else [])

/-- The arguments of the interface repository. -/
def ifrArguments (c : Config) : List Text :=
  c.ifrLeadingArgs hashPjw defs ++
    optionWords (c.getValue hashPjw "IFR_CmdOption".toList [])

def getIfrOptionsCopy (c : Config) : ArgVector where
  added := c.ifrArgs

def getIfrOptions (c : Config) (_debug : Bool) : ArgVector × Config :=
  if c.ifrArgs ≠ [] then (c.getIfrOptionsCopy, c)
  else
    let c := { c with ifrArgs := c.ifrArguments hashPjw defs }
    (c.getIfrOptionsCopy, c)

/-- One getter. -/
def call (c : Config) : Call → Except Fault (Answer × Config)
  | .orbOptions => do
      let (args, c) ← c.getOrbOptions hashPjw defs world
      return (.options args, c)
  | .ifrOptions debug =>
      .ok (.options (some (c.getIfrOptions hashPjw defs debug).1),
        (c.getIfrOptions hashPjw defs debug).2)
  | .endpoints ext => do
      let (eps, c) ← c.getEndpoints hashPjw world ext
      return (.endpoints eps, c)

def run : List Call → Config → Except Fault (List Answer × Config)
  | [], c => .ok ([], c)
  | call :: rest, c => do
      let (answer, c) ← c.call hashPjw defs world call
      let (answers, c) ← run rest c
      return (answer :: answers, c)

end Definitions

/-! ## Filling the list of endpoints -/

section Fill

variable {hashPjw : Text → UInt64} {defs : BuildDefs} {world : Surroundings}
  {c c' : Config}

/-- Every word of the configured list is accepted. The default lists are. -/
def ListParses (hashPjw : Text → UInt64) (c : Config) (doExtern : Bool) : Prop :=
  ∀ w ∈ endpointWords (c.getValue hashPjw (addressToken doExtern) []), Endpoint.Readable w

instance (doExtern : Bool) : Decidable (ListParses hashPjw c doExtern) :=
  inferInstanceAs (Decidable (∀ w ∈ _, _))

/-- A list that is there and whose first piece is empty. -/
def ListEmpty (hashPjw : Text → UInt64) (c : Config) (doExtern : Bool) : Prop :=
  c.getValue hashPjw (addressToken doExtern) [] ≠ [] ∧
    endpointWords (c.getValue hashPjw (addressToken doExtern) []) = []

/-- All that filling changes. -/
structure Fills (c c' : Config) (new : List Endpoint) : Prop where
  configs : c'.configs = c.configs
  debugLevel : c'.debugLevel = c.debugLevel
  endpoints : c'.endpoints = c.endpoints ++ new
  orbArgs : c'.orbArgs = c.orbArgs
  ifrArgs : c'.ifrArgs = c.ifrArgs

theorem addEndpoints_spec {doExtern ok : Bool} {epStrs : List Text}
    (h : addEndpoints world doExtern epStrs c = .ok (ok, c')) :
    (ok = true ↔ ∀ w ∈ epStrs, Endpoint.Readable w) ∧
      ∃ new, Fills c c' new ∧ (∀ ep ∈ new, ep.external = doExtern) ∧
        (ok = true → new.length = epStrs.length) := by
  induction epStrs generalizing c with
  | nil =>
      cases h
      exact ⟨by simp, [], ⟨rfl, rfl, (List.append_nil _).symm, rfl, rfl⟩, by simp, fun _ => rfl⟩
  | cons epStr rest ih =>
      obtain ⟨⟨parsed, asked⟩, hparse, h⟩ := ok_of_bind h
      obtain ⟨hread, hexternal⟩ := Endpoint.parseString_spec hparse
      cases parsed with
      | none =>
          cases h
          refine ⟨?_, [], ⟨rfl, rfl, (List.append_nil _).symm, rfl, rfl⟩, by simp, by simp⟩
          simp only [List.forall_mem_cons, ← hread]
          simp
      | some ep =>
          obtain ⟨hok, new, hfills, hnew, hlength⟩ := ih h
          refine ⟨?_, ep :: new, ⟨hfills.configs, hfills.debugLevel, ?_, hfills.orbArgs,
            hfills.ifrArgs⟩, ?_, ?_⟩
          · simp only [List.forall_mem_cons, ← hread, hok]
            simp
          · rw [hfills.endpoints]
            simp
          · intro ep' hep'
            rcases List.mem_cons.mp hep' with rfl | hep'
            · exact hexternal ep' rfl
            · exact hnew ep' hep'
          · intro htrue
            simp [hlength htrue]

theorem takeWhile_slash {text rest : Text} (h : ∀ c ∈ text, c ≠ '/') (hrest : '/' ∉ rest) :
    (text ++ rest).takeWhile (· ≠ '/') = text ++ rest := by
  rw [List.takeWhile_eq_self_iff]
  intro c hc
  rcases List.mem_append.mp hc with hc | hc
  · simpa using h c hc
  · simpa using fun heq : c = '/' => hrest (heq ▸ hc)

/-- The default lists have one word, which is accepted. -/
theorem endpointWords_default (name : HostName) :
    endpointWords (name.val ++ ":4082".toList) = [name.val ++ ":4082".toList] ∧
      Endpoint.Readable (name.val ++ ":4082".toList) := by
  have hport : ∀ c ∈ ":4082".toList, c ≠ ' ' := by simp
  have hblank : ∀ c ∈ name.val ++ ":4082".toList, c ≠ ' ' := by
    intro c hc
    rcases List.mem_append.mp hc with hc | hc
    · exact (name.property c hc).1
    · exact hport c hc
  have hslash : Endpoint.primaryAddr (name.val ++ ":4082".toList) =
      name.val ++ ":4082".toList :=
    takeWhile_slash (fun c hc => (name.property c hc).2) (by decide)
  have hmodifiers : Endpoint.modifiers (name.val ++ ":4082".toList) = [] := by
    have hsplit : (name.val ++ ":4082".toList).takeWhile (· ≠ '/') ++
        (name.val ++ ":4082".toList).dropWhile (· ≠ '/') = name.val ++ ":4082".toList :=
      List.takeWhile_append_dropWhile
    unfold Endpoint.primaryAddr at hslash
    rw [hslash] at hsplit
    unfold Endpoint.modifiers
    rw [List.append_right_eq_self.mp hsplit]
    rfl
  constructor
  · unfold endpointWords
    rw [List.splitOn_eq_singleton fun hmem => hblank ' ' hmem rfl]
    simp
  · refine ⟨?_, ?_⟩
    · rw [hslash]
      simp
    · rw [hmodifiers]
      decide

theorem ListEmpty.parses {doExtern : Bool} (h : ListEmpty hashPjw c doExtern) :
    ListParses hashPjw c doExtern := by
  intro w hw
  rw [h.2] at hw
  exact absurd hw List.not_mem_nil

/-- The configured list, or a default of one word that is accepted. -/
theorem addresses_cases (hashPjw : Text → UInt64) (world : Surroundings) (c : Config)
    (doExtern : Bool) :
    (c.getValue hashPjw (addressToken doExtern) [] ≠ [] ∧
        c.addresses hashPjw world doExtern =
          (c.getValue hashPjw (addressToken doExtern) [], c)) ∨
      c.getValue hashPjw (addressToken doExtern) [] = [] ∧
        ∃ text asked, c.addresses hashPjw world doExtern = (text, { c with asked := asked }) ∧
          endpointWords text = [text] ∧ Endpoint.Readable text := by
  rcases eq_or_ne (c.getValue hashPjw (addressToken doExtern) []) [] with hvalue | hvalue
  · refine .inr ⟨hvalue, ?_⟩
    have hlocal : endpointWords "localhost:4080".toList = ["localhost:4080".toList] ∧
        Endpoint.Readable "localhost:4080".toList := by
      decide
    cases doExtern with
    | true =>
        refine ⟨_, c.asked + 1, ?_, endpointWords_default (world.hostname c.asked)⟩
        simp [addresses, hvalue]
    | false =>
        refine ⟨_, c.asked, ?_, hlocal⟩
        simp [addresses, hvalue]
  · refine .inl ⟨hvalue, ?_⟩
    simp [addresses, hvalue]

theorem initEndpoints_spec {doExtern ok : Bool}
    (h : c.initEndpoints hashPjw world doExtern = .ok (ok, c')) :
    (ok = true ↔ ListParses hashPjw c doExtern) ∧
      ∃ new, Fills c c' new ∧ (∀ ep ∈ new, ep.external = doExtern) ∧
        (ok = true → (new = [] ↔ ListEmpty hashPjw c doExtern)) := by
  unfold initEndpoints at h
  rw [endpointLoop_eq, List.drop_zero] at h
  rcases addresses_cases hashPjw world c doExtern with
    ⟨hvalue, heq⟩ | ⟨hvalue, text, asked, heq, hwords, hread⟩
  · rw [heq] at h
    obtain ⟨hok, new, hfills, hnew, hlength⟩ := addEndpoints_spec h
    refine ⟨hok, new, hfills, hnew, fun htrue => ?_⟩
    rw [← List.length_eq_zero_iff, hlength htrue, List.length_eq_zero_iff]
    exact ⟨fun hnil => ⟨hvalue, hnil⟩, And.right⟩
  · rw [heq] at h
    obtain ⟨hok, new, hfills, hnew, hlength⟩ := addEndpoints_spec h
    rw [hwords] at hok hlength
    have hparses : ListParses hashPjw c doExtern := by
      intro w hw
      rw [hvalue] at hw
      exact absurd hw List.not_mem_nil
    refine ⟨iff_of_true (hok.mpr (by simpa using hread)) hparses, new,
      ⟨hfills.configs, hfills.debugLevel, hfills.endpoints, hfills.orbArgs, hfills.ifrArgs⟩,
      hnew, fun htrue => iff_of_false ?_ fun hempty => hempty.1 hvalue⟩
    intro hnil
    have hone := hlength htrue
    simp [hnil] at hone

theorem Fills.getValue_eq {new : List Endpoint} (h : Fills c c' new) (token dflt : Text) :
    c'.getValue hashPjw token dflt = c.getValue hashPjw token dflt := by
  unfold getValue
  rw [h.configs]

/-- The external endpoints come first. -/
def Parted (eps : List Endpoint) : Prop :=
  eps.filter (·.external = true) ++ eps.filter (·.external = false) = eps

theorem parted_append {ext int : List Endpoint} (hext : ∀ ep ∈ ext, ep.external = true)
    (hint : ∀ ep ∈ int, ep.external = false) : Parted (ext ++ int) := by
  have hext' : ext.filter (·.external = false) = [] := by
    rw [List.filter_eq_nil_iff]
    intro ep hep
    simp [hext ep hep]
  have hint' : int.filter (·.external = true) = [] := by
    rw [List.filter_eq_nil_iff]
    intro ep hep
    simp [hint ep hep]
  have hextAll : ext.filter (·.external = true) = ext :=
    List.filter_eq_self.mpr fun ep hep => by simp [hext ep hep]
  have hintAll : int.filter (·.external = false) = int :=
    List.filter_eq_self.mpr fun ep hep => by simp [hint ep hep]
  unfold Parted
  rw [List.filter_append, List.filter_append, hextAll, hintAll, hext', hint', List.append_nil,
    List.nil_append]

/-- Filling an empty list. -/
theorem fillEndpoints_first {ok : Bool} (hc : c.endpoints = [])
    (h : c.fillEndpoints hashPjw world = .ok (ok, c')) :
    (ok = true ↔ ListParses hashPjw c true ∧ ListParses hashPjw c false) ∧
      ∃ eps, Fills c c' eps ∧ Parted eps ∧
        (ok = true → (eps = [] ↔ ListEmpty hashPjw c true ∧ ListEmpty hashPjw c false)) := by
  unfold fillEndpoints at h
  rw [if_neg (not_not.mpr hc)] at h
  obtain ⟨⟨first, c₁⟩, hfirst, h⟩ := ok_of_bind h
  obtain ⟨hok₁, ext, hfills₁, hext, hempty₁⟩ := initEndpoints_spec hfirst
  cases first with
  | true =>
      obtain ⟨hok₂, int, hfills₂, hint, hempty₂⟩ := initEndpoints_spec h
      unfold ListParses at hok₂
      unfold ListEmpty at hempty₂
      rw [hfills₁.getValue_eq] at hok₂ hempty₂
      refine ⟨?_, ext ++ int, ⟨hfills₂.configs.trans hfills₁.configs,
        hfills₂.debugLevel.trans hfills₁.debugLevel, ?_,
        hfills₂.orbArgs.trans hfills₁.orbArgs, hfills₂.ifrArgs.trans hfills₁.ifrArgs⟩,
        parted_append hext hint, ?_⟩
      · rw [hok₂]
        exact ⟨fun hsecond => ⟨hok₁.mp rfl, hsecond⟩, And.right⟩
      · rw [hfills₂.endpoints, hfills₁.endpoints, List.append_assoc]
      · intro htrue
        rw [List.append_eq_nil_iff]
        exact and_congr (hempty₁ rfl) (hempty₂ htrue)
  | false =>
      cases h
      refine ⟨iff_of_false (by simp) fun hboth => Bool.false_ne_true (hok₁.mpr hboth.1), ext,
        hfills₁, ?_, by simp⟩
      have hnone : ∀ ep ∈ ([] : List Endpoint), ep.external = false := by simp
      simpa using parted_append hext hnone

/-- A list that stayed empty stays empty. -/
theorem fillEndpoints_again {ok : Bool}
    (hempty : c.endpoints = [] → ListEmpty hashPjw c true ∧ ListEmpty hashPjw c false)
    (h : c.fillEndpoints hashPjw world = .ok (ok, c')) :
    ok = true ∧ Fills c c' [] := by
  rcases eq_or_ne c.endpoints [] with hc | hc
  · obtain ⟨hok, eps, hfills, -, hnil⟩ := fillEndpoints_first hc h
    have htrue : ok = true := hok.mpr ⟨(hempty hc).1.parses, (hempty hc).2.parses⟩
    rw [(hnil htrue).mpr (hempty hc)] at hfills
    exact ⟨htrue, hfills⟩
  · unfold fillEndpoints at h
    rw [if_pos hc] at h
    cases h
    exact ⟨rfl, rfl, rfl, (List.append_nil _).symm, rfl, rfl⟩

end Fill

/-! ## The getters return -/

section Returning

open Endpoint (Returns WordMissing)

/-- A word of one of the two lists of addresses names an interface without an
address. -/
def NicMissing (hashPjw : Text → UInt64) (world : Surroundings) (c : Config) : Prop :=
  ∃ doExtern asked, ∃ word ∈
    endpointLoop ({ c with asked := asked }.addresses hashPjw world doExtern).1 0,
      WordMissing world word

variable {hashPjw : Text → UInt64} {defs : BuildDefs} {world : Surroundings}
  {c c' : Config}

theorem addresses_congr (h : c'.configs = c.configs) (hasked : c'.asked = c.asked)
    (doExtern : Bool) :
    (c'.addresses hashPjw world doExtern).1 = (c.addresses hashPjw world doExtern).1 := by
  have hvalue : c'.getValue hashPjw (addressToken doExtern) [] =
      c.getValue hashPjw (addressToken doExtern) [] := by
    unfold getValue
    rw [h]
  unfold addresses
  rw [hvalue, hasked]
  dsimp only
  split_ifs <;> rfl

theorem NicMissing.congr (h : c'.configs = c.configs) (hmissing : NicMissing hashPjw world c') :
    NicMissing hashPjw world c := by
  obtain ⟨doExtern, asked, word, hword, hnone⟩ := hmissing
  refine ⟨doExtern, asked, word, ?_, hnone⟩
  have hsame : ({ c' with asked := asked }.addresses hashPjw world doExtern).1 =
      ({ c with asked := asked }.addresses hashPjw world doExtern).1 :=
    @addresses_congr hashPjw world { c with asked := asked } { c' with asked := asked } h rfl
      doExtern
  rwa [hsame] at hword

theorem not_nicMissing (hip : ∀ n family nic, (world.ip n family nic).isSome) (c : Config) :
    ¬ NicMissing hashPjw world c := by
  rintro ⟨_, _, word, -, hmissing⟩
  exact Endpoint.not_wordMissing hip word hmissing

theorem addEndpoints_returns (doExtern : Bool) (epStrs : List Text) (c : Config) :
    Returns (∃ word ∈ epStrs, WordMissing world word) (addEndpoints world doExtern epStrs c) := by
  induction epStrs generalizing c with
  | nil => exact .pure _
  | cons epStr rest ih =>
      have hparse := @Endpoint.parseString_returns world { external := doExtern } epStr
        doExtern c.asked
      refine (hparse.imp fun h => ⟨epStr, List.mem_cons_self, h⟩).bind ?_
      rintro ⟨_ | ep, asked⟩ -
      · exact .pure _
      · refine (ih _).imp ?_
        rintro ⟨word, hword, hmissing⟩
        exact ⟨word, List.mem_cons_of_mem _ hword, hmissing⟩

theorem initEndpoints_returns (c : Config) (doExtern : Bool) :
    Returns (NicMissing hashPjw world c) (c.initEndpoints hashPjw world doExtern) :=
  (addEndpoints_returns doExtern _ _).imp fun h => ⟨doExtern, c.asked, h⟩

theorem fillEndpoints_returns (c : Config) :
    Returns (NicMissing hashPjw world c) (c.fillEndpoints hashPjw world) := by
  unfold fillEndpoints
  split_ifs
  · exact .pure _
  · refine (initEndpoints_returns c true).bind ?_
    rintro ⟨_ | _, c₁⟩ hfirst
    · exact .pure _
    · obtain ⟨-, _, hfills, -⟩ := initEndpoints_spec hfirst
      exact (initEndpoints_returns c₁ false).imp fun h => h.congr hfills.configs

theorem getEndpoints_returns (c : Config) (ext : Bool) :
    Returns (NicMissing hashPjw world c) (c.getEndpoints hashPjw world ext) :=
  (fillEndpoints_returns c).bind fun _ _ => .pure _

theorem getOrbOptions_returns (c : Config) :
    Returns (NicMissing hashPjw world c) (c.getOrbOptions hashPjw defs world) := by
  unfold getOrbOptions
  split_ifs
  · exact .pure _
  · let c₀ : Config := { c with orbArgs := c.leadingArgs hashPjw defs }
    have hsame : NicMissing hashPjw world c₀ → NicMissing hashPjw world c :=
      @NicMissing.congr hashPjw world c c₀ rfl
    refine ((fillEndpoints_returns c₀).imp hsame).bind ?_
    rintro ⟨_ | _, c₁⟩ -
    · exact .pure _
    · exact .pure _

theorem call_returns (c : Config) (request : Call) :
    Returns (NicMissing hashPjw world c) (c.call hashPjw defs world request) := by
  cases request with
  | orbOptions => exact (getOrbOptions_returns c).bind fun _ _ => .pure _
  | ifrOptions debug => exact .pure _
  | endpoints ext => exact (getEndpoints_returns c ext).bind fun _ _ => .pure _

theorem fillEndpoints_configs {ok : Bool} (h : c.fillEndpoints hashPjw world = .ok (ok, c')) :
    c'.configs = c.configs := by
  rcases eq_or_ne c.endpoints [] with hnone | hsome
  · obtain ⟨-, _, hfills, -⟩ := fillEndpoints_first hnone h
    exact hfills.configs
  · unfold fillEndpoints at h
    rw [if_pos hsome] at h
    cases h
    rfl

/-- A getter leaves the configuration as it is. -/
theorem call_configs {request : Call} {answer : Answer}
    (h : c.call hashPjw defs world request = .ok (answer, c')) : c'.configs = c.configs := by
  cases request with
  | orbOptions =>
      obtain ⟨⟨args, c₁⟩, hget, heq⟩ := ok_of_bind h
      cases heq
      unfold getOrbOptions at hget
      split_ifs at hget
      · cases hget
        rfl
      · obtain ⟨⟨_ | _, c₂⟩, hfill, heq⟩ := ok_of_bind hget
        all_goals
          have hconfigs := fillEndpoints_configs hfill
          cases heq
          exact hconfigs
  | ifrOptions debug =>
      cases h
      unfold getIfrOptions
      split_ifs <;> rfl
  | endpoints ext =>
      obtain ⟨⟨eps, c₁⟩, hget, heq⟩ := ok_of_bind h
      cases heq
      obtain ⟨⟨_ | _, c₂⟩, hfill, heq⟩ := ok_of_bind hget
      all_goals
        have hconfigs := fillEndpoints_configs hfill
        cases heq
        exact hconfigs

theorem run_returns (requests : List Call) (c : Config) :
    Returns (NicMissing hashPjw world c) (run hashPjw defs world requests c) := by
  induction requests generalizing c with
  | nil => exact .pure _
  | cons request rest ih =>
      refine (call_returns c request).bind ?_
      rintro ⟨answer, c₁⟩ hcall
      have hlater := (ih c₁).imp fun h => h.congr (call_configs hcall)
      exact hlater.bind fun _ _ => .pure _

end Returning

/-! ## What the getters return -/

section Getters

variable (hashPjw : Text → UInt64) (defs : BuildDefs)

/-- The argument vector for these endpoints. -/
def orbArguments (c : Config) (eps : List Endpoint) : List Text :=
  c.leadingArgs hashPjw defs ++ listenArgs eps ++ debugArgs c.debugLevel

/-- What a getter returns once the endpoints are known. -/
def reply (c : Config) (eps : List Endpoint) : Call → Answer
  | .orbOptions => .options (some { added := c.orbArguments hashPjw defs eps })
  | .ifrOptions _ => .options (some { added := c.ifrArguments hashPjw defs })
  | .endpoints ext => .endpoints (eps.filter (·.external = ext))

/-- What a getter returns when an address list does not parse. -/
def refusal (c : Config) : Call → Answer
  | .orbOptions => .options none
  | .ifrOptions _ => .options (some { added := c.ifrArguments hashPjw defs })
  | .endpoints _ => .endpoints []

/-- What every getter keeps. -/
structure Kept (start c : Config) : Prop where
  configs : c.configs = start.configs
  debugLevel : c.debugLevel = start.debugLevel
  ifrArgs : c.ifrArgs = [] ∨ c.ifrArgs = start.ifrArguments hashPjw defs

/-- No endpoints and no arguments for the ORB yet. -/
structure Unsettled (start c : Config) : Prop extends Kept hashPjw defs start c where
  endpoints : c.endpoints = []
  orbArgs : c.orbArgs = []

/-- The endpoints are drawn. -/
structure Settled (start c : Config) (eps : List Endpoint) : Prop
    extends Kept hashPjw defs start c where
  endpoints : c.endpoints = eps
  orbArgs : c.orbArgs = [] ∨ c.orbArgs = start.orbArguments hashPjw defs eps
  empty : eps = [] → ListEmpty hashPjw start true ∧ ListEmpty hashPjw start false

variable {hashPjw defs} {world : Surroundings} {start c c' : Config}
  {eps : List Endpoint}

namespace Kept

theorem getValue_eq (h : Kept hashPjw defs start c) (token dflt : Text) :
    c.getValue hashPjw token dflt = start.getValue hashPjw token dflt := by
  unfold getValue
  rw [h.configs]

theorem ifrArguments_eq (h : Kept hashPjw defs start c) :
    c.ifrArguments hashPjw defs = start.ifrArguments hashPjw defs := by
  have hbool (token : Text) (dflt : Bool) :
      c.getBoolValue hashPjw token dflt = start.getBoolValue hashPjw token dflt := by
    unfold getBoolValue
    rw [h.getValue_eq]
  simp only [ifrArguments, ifrLeadingArgs, hbool, h.getValue_eq]

theorem leadingArgs_eq (h : Kept hashPjw defs start c) :
    c.leadingArgs hashPjw defs = start.leadingArgs hashPjw defs := by
  simp only [leadingArgs, h.getValue_eq]

theorem listParses_iff (h : Kept hashPjw defs start c) (doExtern : Bool) :
    ListParses hashPjw c doExtern ↔ ListParses hashPjw start doExtern := by
  simp only [ListParses, h.getValue_eq]

theorem listEmpty_iff (h : Kept hashPjw defs start c) (doExtern : Bool) :
    ListEmpty hashPjw c doExtern ↔ ListEmpty hashPjw start doExtern := by
  simp only [ListEmpty, h.getValue_eq]

theorem fills (h : Kept hashPjw defs start c) {new : List Endpoint} (hfills : Fills c c' new) :
    Kept hashPjw defs start c' where
  configs := hfills.configs.trans h.configs
  debugLevel := hfills.debugLevel.trans h.debugLevel
  ifrArgs := by
    rw [hfills.ifrArgs]
    exact h.ifrArgs

/-- The argument cache of the interface repository holds what it would be
filled with. -/
theorem getIfrOptions_spec (h : Kept hashPjw defs start c) (debug : Bool) :
    (c.getIfrOptions hashPjw defs debug).1 = { added := start.ifrArguments hashPjw defs } ∧
      ∃ args, (args = [] ∨ args = start.ifrArguments hashPjw defs) ∧
        (c.getIfrOptions hashPjw defs debug).2 = { c with ifrArgs := args } := by
  unfold getIfrOptions
  split_ifs with hcache
  · have hargs := h.ifrArgs.resolve_left hcache
    exact ⟨congrArg ArgVector.mk hargs, _, .inr hargs, rfl⟩
  · have hargs := h.ifrArguments_eq
    exact ⟨congrArg ArgVector.mk hargs, _, .inr hargs, rfl⟩

end Kept

/-- Once they are drawn, every getter goes by the same endpoints. -/
theorem call_settled {request : Call} {answer : Answer}
    (hs : Settled hashPjw defs start c eps)
    (h : c.call hashPjw defs world request = .ok (answer, c')) :
    answer = reply hashPjw defs start eps request ∧ Settled hashPjw defs start c' eps := by
  have hempty : c.endpoints = [] → ListEmpty hashPjw c true ∧ ListEmpty hashPjw c false := by
    intro hnil
    have hboth := hs.empty (hs.endpoints.symm.trans hnil)
    exact ⟨(hs.toKept.listEmpty_iff true).mpr hboth.1,
      (hs.toKept.listEmpty_iff false).mpr hboth.2⟩
  cases request with
  | orbOptions =>
      obtain ⟨⟨args, c₁⟩, hget, heq⟩ := ok_of_bind h
      cases heq
      unfold getOrbOptions at hget
      split_ifs at hget with hcache
      · cases hget
        have hargs := hs.orbArgs.resolve_left hcache
        refine ⟨?_, hs⟩
        rw [getOrbOptionsCopy, hargs]
        rfl
      · obtain ⟨⟨ok, c₂⟩, hfill, heq⟩ := ok_of_bind hget
        have hagain : ok = true ∧
            Fills { c with orbArgs := c.leadingArgs hashPjw defs } c₂ [] :=
          fillEndpoints_again hempty hfill
        obtain ⟨rfl, hfills⟩ := hagain
        cases heq
        have heps := hfills.endpoints.trans ((List.append_nil _).trans hs.endpoints)
        have hargs : c₂.orbArgs ++ listenArgs c₂.endpoints ++ debugArgs c₂.debugLevel =
            start.orbArguments hashPjw defs eps := by
          rw [hfills.orbArgs, heps, hfills.debugLevel, hs.toKept.leadingArgs_eq, hs.debugLevel]
          rfl
        refine ⟨?_, ⟨hfills.configs.trans hs.configs, hfills.debugLevel.trans hs.debugLevel, ?_⟩,
          heps, .inr hargs, hs.empty⟩
        · rw [hargs]
          rfl
        · rw [hfills.ifrArgs]
          exact hs.ifrArgs
  | ifrOptions debug =>
      obtain ⟨hanswer, args, hargs, heq⟩ := hs.toKept.getIfrOptions_spec debug
      cases h
      rw [heq]
      refine ⟨?_, ⟨hs.configs, hs.debugLevel, hargs⟩, hs.endpoints, hs.orbArgs, hs.empty⟩
      rw [hanswer]
      rfl
  | endpoints ext =>
      obtain ⟨⟨answered, c₁⟩, hget, heq⟩ := ok_of_bind h
      cases heq
      obtain ⟨⟨ok, c₂⟩, hfill, heq⟩ := ok_of_bind hget
      obtain ⟨rfl, hfills⟩ := fillEndpoints_again hempty hfill
      cases heq
      have heps := hfills.endpoints.trans ((List.append_nil _).trans hs.endpoints)
      refine ⟨?_, hs.toKept.fills hfills, heps, ?_, hs.empty⟩
      · rw [heps]
        rfl
      · rw [hfills.orbArgs]
        exact hs.orbArgs

/-- The first getter that needs endpoints draws them, or fails. -/
theorem call_unsettled {request : Call} {answer : Answer}
    (hs : Unsettled hashPjw defs start c)
    (h : c.call hashPjw defs world request = .ok (answer, c')) :
    if ListParses hashPjw start true ∧ ListParses hashPjw start false then
      (Unsettled hashPjw defs start c' ∧ ∀ eps, answer = reply hashPjw defs start eps request) ∨
        ∃ eps, Parted eps ∧ answer = reply hashPjw defs start eps request ∧
          Settled hashPjw defs start c' eps
    else answer = refusal hashPjw defs start request ∧ Unsettled hashPjw defs start c' := by
  have hparses := and_congr (hs.toKept.listParses_iff true) (hs.toKept.listParses_iff false)
  have hempty := and_congr (hs.toKept.listEmpty_iff true) (hs.toKept.listEmpty_iff false)
  cases request with
  | orbOptions =>
      obtain ⟨⟨args, c₁⟩, hget, heq⟩ := ok_of_bind h
      cases heq
      unfold getOrbOptions at hget
      rw [if_neg (not_not.mpr hs.orbArgs)] at hget
      obtain ⟨⟨ok, c₂⟩, hfill, heq⟩ := ok_of_bind hget
      have hstart : Kept hashPjw defs start { c with orbArgs := c.leadingArgs hashPjw defs } :=
        ⟨hs.configs, hs.debugLevel, hs.ifrArgs⟩
      have hnone : { c with orbArgs := c.leadingArgs hashPjw defs }.endpoints = [] :=
        hs.endpoints
      obtain ⟨hok, eps, hfills, hparted, hnil⟩ := fillEndpoints_first hnone hfill
      have hkept := hstart.fills hfills
      cases ok with
      | true =>
          cases heq
          rw [if_pos (hparses.mp (hok.mp rfl))]
          have heps : c₂.endpoints = eps := by
            rw [hfills.endpoints]
            exact congrArg (· ++ eps) hs.endpoints
          have hargs : c₂.orbArgs ++ listenArgs c₂.endpoints ++ debugArgs c₂.debugLevel =
              start.orbArguments hashPjw defs eps := by
            rw [hfills.orbArgs, heps, hkept.debugLevel, hs.toKept.leadingArgs_eq]
            rfl
          refine .inr ⟨eps, hparted, ?_, ⟨hkept.configs, hkept.debugLevel, hkept.ifrArgs⟩, heps,
            .inr hargs, fun h => hempty.mp ((hnil rfl).mp h)⟩
          rw [hargs]
          rfl
      | false =>
          cases heq
          rw [if_neg fun h => Bool.false_ne_true (hok.mpr (hparses.mpr h))]
          exact ⟨rfl, ⟨hkept.configs, hkept.debugLevel, hkept.ifrArgs⟩, rfl, rfl⟩
  | ifrOptions debug =>
      obtain ⟨hanswer, args, hargs, heq⟩ := hs.toKept.getIfrOptions_spec debug
      cases h
      rw [heq, hanswer]
      have hkept : Unsettled hashPjw defs start { c with ifrArgs := args } :=
        ⟨⟨hs.configs, hs.debugLevel, hargs⟩, hs.endpoints, hs.orbArgs⟩
      split_ifs
      · exact .inl ⟨hkept, fun eps => rfl⟩
      · exact ⟨rfl, hkept⟩
  | endpoints ext =>
      obtain ⟨⟨answered, c₁⟩, hget, heq⟩ := ok_of_bind h
      cases heq
      obtain ⟨⟨ok, c₂⟩, hfill, heq⟩ := ok_of_bind hget
      obtain ⟨hok, eps, hfills, hparted, hnil⟩ := fillEndpoints_first hs.endpoints hfill
      have hkept := hs.toKept.fills hfills
      have horb := hfills.orbArgs.trans hs.orbArgs
      cases ok with
      | true =>
          cases heq
          rw [if_pos (hparses.mp (hok.mp rfl))]
          have heps : c'.endpoints = eps := by
            rw [hfills.endpoints, hs.endpoints, List.nil_append]
          refine .inr ⟨eps, hparted, ?_, hkept, heps, .inl horb,
            fun h => hempty.mp ((hnil rfl).mp h)⟩
          rw [heps]
          rfl
      | false =>
          cases heq
          rw [if_neg fun h => Bool.false_ne_true (hok.mpr (hparses.mpr h))]
          exact ⟨rfl, ⟨hkept.configs, hkept.debugLevel, hkept.ifrArgs⟩, rfl, horb⟩

/-- The first call of a run and the run that goes on from it. -/
theorem run_cons {request : Call} {rest : List Call} {answers : List Answer}
    (h : run hashPjw defs world (request :: rest) c = .ok (answers, c')) :
    ∃ answer c₁ answers', c.call hashPjw defs world request = .ok (answer, c₁) ∧
      run hashPjw defs world rest c₁ = .ok (answers', c') ∧
      answers = answer :: answers' := by
  obtain ⟨⟨answer, c₁⟩, hcall, h⟩ := ok_of_bind h
  obtain ⟨⟨answers', c₂⟩, hrest, heq⟩ := ok_of_bind h
  cases heq
  exact ⟨answer, c₁, answers', hcall, hrest, rfl⟩

theorem run_settled {requests : List Call} {answers : List Answer}
    (hs : Settled hashPjw defs start c eps)
    (h : run hashPjw defs world requests c = .ok (answers, c')) :
    answers = requests.map (reply hashPjw defs start eps) := by
  induction requests generalizing c answers with
  | nil =>
      cases h
      rfl
  | cons request rest ih =>
      obtain ⟨answer, c₁, answers', hcall, hrest, rfl⟩ := run_cons h
      obtain ⟨hanswer, hs₁⟩ := call_settled hs hcall
      rw [ih hs₁ hrest, hanswer, List.map_cons]

/-- All the getters of a run go by one list of endpoints. -/
theorem run_parses {requests : List Call} {answers : List Answer}
    (hs : Unsettled hashPjw defs start c)
    (hparses : ListParses hashPjw start true ∧ ListParses hashPjw start false)
    (h : run hashPjw defs world requests c = .ok (answers, c')) :
    ∃ eps, Parted eps ∧ answers = requests.map (reply hashPjw defs start eps) := by
  induction requests generalizing c answers with
  | nil =>
      cases h
      exact ⟨[], rfl, rfl⟩
  | cons request rest ih =>
      obtain ⟨answer, c₁, answers', hcall, hrest, rfl⟩ := run_cons h
      have hstep := call_unsettled hs hcall
      rw [if_pos hparses] at hstep
      rcases hstep with ⟨hs₁, hanswer⟩ | ⟨eps, hparted, hanswer, hs₁⟩
      · obtain ⟨eps, hparted, hanswers⟩ := ih hs₁ hrest
        exact ⟨eps, hparted, by rw [hanswer eps, hanswers, List.map_cons]⟩
      · exact ⟨eps, hparted, by rw [hanswer, run_settled hs₁ hrest, List.map_cons]⟩

/-- With a list that does not parse, every getter of endpoints fails. -/
theorem run_refused {requests : List Call} {answers : List Answer}
    (hs : Unsettled hashPjw defs start c)
    (hparses : ¬ (ListParses hashPjw start true ∧ ListParses hashPjw start false))
    (h : run hashPjw defs world requests c = .ok (answers, c')) :
    answers = requests.map (refusal hashPjw defs start) ∧ c'.endpoints = [] := by
  induction requests generalizing c answers with
  | nil =>
      cases h
      exact ⟨rfl, hs.endpoints⟩
  | cons request rest ih =>
      obtain ⟨answer, c₁, answers', hcall, hrest, rfl⟩ := run_cons h
      have hstep := call_unsettled hs hcall
      rw [if_neg hparses] at hstep
      obtain ⟨hanswers, hnil⟩ := ih hstep.2 hrest
      exact ⟨by rw [hstep.1, hanswers, List.map_cons], hnil⟩

theorem initialised_unsettled (fileName : Text) (file : Option Text) (debugLevel : Int)
    (asked : Nat) :
    Unsettled hashPjw defs (initialised hashPjw fileName file debugLevel asked)
      (initialised hashPjw fileName file debugLevel asked) := by
  unfold initialised init load
  split_ifs
  · exact ⟨⟨rfl, rfl, .inl rfl⟩, rfl, rfl⟩
  · cases file with
    | none => exact ⟨⟨rfl, rfl, .inl rfl⟩, rfl, rfl⟩
    | some content => exact ⟨⟨rfl, rfl, .inl rfl⟩, rfl, rfl⟩

end Getters

end Config

end Lorica
