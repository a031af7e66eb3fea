import Lorica.FileConfig
import Lorica.Lib.Action

/-!
`Config::Endpoint` of `ConfigBase.cpp`: an address of the proxy, read from one
word of the configuration and written again in the form that TAO takes. While
it reads a word the code asks the host for its name, for the address of an
interface or for a UUID. The surroundings answer, and their answer may be
another one each time: every question takes a number.
-/

namespace Lorica

open Machine

inductive Family where
  | inet
  | inet6
deriving DecidableEq

/-- The sign in front of the name of an interface. -/
def Family.sign : Family → Char
  | inet => '%'
  | inet6 => '+'

/-- What an interface is looked up by. -/
inductive Nic where
  | firstExternal
  | named (ifname : Text)
deriving DecidableEq

/-- Host names hold neither blanks nor slashes. -/
abbrev HostName := { name : Text // ∀ c ∈ name, c ≠ ' ' ∧ c ≠ '/' }

structure Surroundings where
  /-- `ACE_OS::hostname`, empty where that fails -/
  hostname : Nat → HostName
  /-- `get_first_external_ip` and `get_ip_from_ifname` -/
  ip : Nat → Family → Nic → Option Text
  uuid : Nat → Text

namespace Config

structure Endpoint where
  external : Bool := false
  hostname : Text := []
  port : Int := 0
  alias_ : Text := []
  isIpv6 : Bool := false
  sslPort : Int := 0
deriving DecidableEq

def SYS_PORT : Int := -1

/-! ## Reading text -/

section Reading

/-- The text behind the first place where the pattern stands, as `find` has it. -/
def after (pattern : Text) : Text → Option Text
  | [] => if pattern = [] then some [] else none
  | c :: text =>
      if pattern.isPrefixOf (c :: text) then some ((c :: text).drop pattern.length)
      else after pattern text

/-- The value of an option, which ends at the next comma. -/
def optionValue (test options : Text) : Option Text :=
  (after test options).map fun text => text.takeWhile (· ≠ ',')

def isspace (c : Char) : Bool :=
  c = ' ' || c = '\t' || c = '\n' || c = '\x0b' || c = '\x0c' || c = '\r'

def digits (text : Text) : Nat :=
  (text.takeWhile Char.isDigit).foldl (fun n c => 10 * n + (c.toNat - '0'.toNat)) 0

/-- `strtol (text, 0, 10)`, where a `long` has 64 bits -/
def strtol (text : Text) : Int :=
  let value : Int :=
    match text.dropWhile isspace with
    | '-' :: rest => -digits rest
    | '+' :: rest => digits rest
    | rest => digits rest
  max (-2 ^ 63) (min value (2 ^ 63 - 1))

/-- A port, or the default for what is not one. The `long` is cut to an `int`. -/
def portOr (dflt : Int) (text : Text) : Int :=
  let port := (strtol text).bmod (2 ^ 32)
  if 0 ≥ port then dflt else port

/-- What stands before and behind the last colon. -/
def splitPort (primaryAddr : Text) : Option (Text × Text) :=
  match primaryAddr.reverse.span (· ≠ ':') with
  | (_, []) => none
  | (port, _ :: host) => some (host.reverse, port.reverse)

end Reading

namespace Endpoint

def readPort (outsideFacing : Bool) (text : Text) (ep : Endpoint) : Endpoint :=
  { ep with port := portOr (if outsideFacing then 4082 else 4080) text }

/-- The host name, out of its brackets. -/
def readHost (host : Text) (ep : Endpoint) : Endpoint :=
  if host = [] then { ep with hostname := [] }
  else if host = ['[', ']'] then { ep with isIpv6 := true, hostname := [] }
  else if host.head? = some '[' ∧ host.getLast? = some ']' then
    { ep with isIpv6 := true, hostname := (host.drop 1).take (host.length - 2) }
  else { ep with hostname := host }

section Asking

variable (world : Surroundings)

/-- `hostname_ [1]`: behind the last character stands a NUL, and behind that
nothing may be read. -/
def secondChar : Text → Except Fault Char
  | [] => .error .outOfBounds
  | [_] => .ok '\x00'
  | _ :: second :: _ => .ok second

/-- What a turn of the loop looks up. -/
def lookup (ifname hostname : Text) : Except Fault Nic := do
  return if (← secondChar hostname) = '?' then .firstExternal else .named ifname

/-- One turn of the loop that looks an interface up. -/
def turn (family : Family) (ifname hostname : Text) (asked : Nat) :
    Except Fault (Option Text) := do
  return world.ip asked family (← lookup ifname hostname)

/-- The loop goes on until the interface has an address. A failed lookup empties
`hostname_`, and the next turn reads it again. -/
def awaitIp (family : Family) (ifname hostname : Text) (asked : Nat) :
    Except Fault (Text × Nat) :=
  match h : turn world family ifname hostname asked with
  | .error cause => .error cause
  | .ok (some ip) => .ok (ip, asked + 1)
  | .ok none => awaitIp family ifname [] (asked + 1)
termination_by hostname.length
decreasing_by
  rcases hostname with _ | ⟨c, rest⟩
  · cases h
  · exact Nat.succ_pos _

/-- The address of the interface that the host name is the name of. -/
def findIp (family : Family) (hostname : Text) (asked : Nat) : Except Fault (Text × Nat) :=
  if hostname.drop 1 = [] then .ok ([], asked)
  else awaitIp world family (hostname.drop 1) hostname asked

def checkIpv4 (ep : Endpoint) (asked : Nat) : Except Fault (Endpoint × Nat) := do
  if ep.hostname.head? = some '%' then
    let (ip, asked) ← findIp world .inet ep.hostname asked
    return ({ ep with hostname := ip }, asked)
  else return (ep, asked)

def checkIpv6 (ep : Endpoint) (asked : Nat) : Except Fault (Endpoint × Nat) := do
  if ep.hostname.head? = some '+' then
    let (ip, asked) ← findIp world .inet6 ep.hostname asked
    return ({ ep with hostname := ip, isIpv6 := true }, asked)
  else return (ep, asked)

/-- An empty host name becomes the name of this host. -/
def fixHostname (ep : Endpoint) (asked : Nat) : Endpoint × Nat :=
  if ep.hostname = [] then ({ ep with hostname := world.hostname asked }, asked + 1)
  else (ep, asked)

def readAlias (options : Text) (ep : Endpoint) : Endpoint :=
  { ep with alias_ := (optionValue "alias=".toList options).getD ep.alias_ }

/-- `random_alias` excludes `alias=`. -/
def readRandomAlias (options : Text) (ep : Endpoint) (asked : Nat) : Option Endpoint × Nat :=
  if (after "random_alias".toList options).isNone then (some ep, asked)
  else if (after "alias=".toList options).isSome then (none, asked)
  else (some { ep with alias_ := world.uuid asked }, asked + 1)

def readSslPort (outsideFacing : Bool) (options : Text) (ep : Endpoint) : Endpoint :=
  match optionValue "ssl_port=".toList options with
  | none => ep
  | some portstr =>
      { ep with sslPort := portOr (if outsideFacing then 4083 else 4081) portstr }

/-- The part of the word before its options. -/
def primaryAddr (epStr : Text) : Text := epStr.takeWhile (· ≠ '/')

def modifiers (epStr : Text) : Text := (epStr.dropWhile (· ≠ '/')).drop 1

/-- `parse_string`: the endpoint as it is read, or none where the code returns
`false`. -/
def parseString (ep : Endpoint) (epStr : Text) (outsideFacing : Bool) (asked : Nat) :
    Except Fault (Option Endpoint × Nat) :=
  match splitPort (primaryAddr epStr) with
  | none => .ok (none, asked)
  | some (host, port) => do
      let ep := { ep with isIpv6 := false, sslPort := 0 }
      let (ep, asked) ← ((ep.readPort outsideFacing port).readHost host).checkIpv4 world asked
      let (ep, asked) ← ep.checkIpv6 world asked
      let (ep, asked) := ep.fixHostname world asked
      let (ep, asked) := (ep.readAlias (modifiers epStr)).readRandomAlias world
        (modifiers epStr) asked
      return (ep.map (readSslPort outsideFacing (modifiers epStr)), asked)

end Asking

/-- `itoa` in base 10 -/
def itoa (n : Int) : Text := (toString n).toList

def options (ep : Endpoint) : Text :=
  let sslPort := if ep.sslPort ≠ 0 then "/ssl_port=".toList ++ itoa ep.sslPort else []
  if ep.alias_ = [] then sslPort
  else sslPort ++ (if sslPort = [] then '/' else ',') :: "hostname_in_ior=".toList ++ ep.alias_

/-- The port as it is written, or nothing where the system takes one. -/
def printedPort (ep : Endpoint) : Text := if SYS_PORT ≠ ep.port then itoa ep.port else []

def asTaoEndpoint (ep : Endpoint) : Text :=
  "iiop://1.2@".toList ++
    (if ep.isIpv6 then '[' :: ep.hostname ++ [']', ':'] else ep.hostname ++ [':']) ++
    ep.printedPort ++ ep.options

/-! ## When a word is accepted -/

section Accepted

/-- A word with a port separator that does not ask for both kinds of alias. -/
def Readable (epStr : Text) : Prop :=
  ':' ∈ primaryAddr epStr ∧
    ((after "random_alias".toList (modifiers epStr)).isSome →
      (after "alias=".toList (modifiers epStr)).isNone)

instance (epStr : Text) : Decidable (Readable epStr) :=
  inferInstanceAs (Decidable (_ ∧ (_ → _)))

theorem splitPort_isSome_iff (text : Text) : (splitPort text).isSome ↔ ':' ∈ text := by
  have hrest : text.reverse.dropWhile (· ≠ ':') = [] ↔ ':' ∉ text := by
    rw [List.dropWhile_eq_nil_iff]
    constructor
    · intro h hmem
      simpa using h ':' (List.mem_reverse.mpr hmem)
    · intro h c hc
      simpa using fun heq : c = ':' => h (heq ▸ List.mem_reverse.mp hc)
  unfold splitPort
  rw [List.span_eq_takeWhile_dropWhile]
  cases hdrop : text.reverse.dropWhile (· ≠ ':') with
  | nil => simpa using hrest.mp hdrop
  | cons c host =>
      have hmem : ¬ ':' ∉ text := fun h => List.cons_ne_nil _ _ (hdrop.symm.trans (hrest.mpr h))
      simpa using hmem

variable {world : Surroundings} {ep ep' : Endpoint} {asked asked' : Nat}

/-- The two may differ in the host and the alias. -/
structure Readdressed (ep ep' : Endpoint) : Prop where
  external : ep'.external = ep.external
  port : ep'.port = ep.port
  sslPort : ep'.sslPort = ep.sslPort

theorem Readdressed.trans {ep'' : Endpoint} (h : Readdressed ep ep')
    (h' : Readdressed ep' ep'') : Readdressed ep ep'' :=
  ⟨h'.external.trans h.external, h'.port.trans h.port, h'.sslPort.trans h.sslPort⟩

theorem readHost_readdressed (host : Text) : Readdressed ep (ep.readHost host) := by
  unfold readHost
  split_ifs <;> exact ⟨rfl, rfl, rfl⟩

theorem checkIpv4_readdressed (h : ep.checkIpv4 world asked = .ok (ep', asked')) :
    Readdressed ep ep' := by
  unfold checkIpv4 at h
  split_ifs at h
  · obtain ⟨⟨ip, asked₁⟩, -, heq⟩ := ok_of_bind h
    cases heq
    exact ⟨rfl, rfl, rfl⟩
  · cases h
    exact ⟨rfl, rfl, rfl⟩

theorem checkIpv6_readdressed (h : ep.checkIpv6 world asked = .ok (ep', asked')) :
    Readdressed ep ep' := by
  unfold checkIpv6 at h
  split_ifs at h
  · obtain ⟨⟨ip, asked₁⟩, -, heq⟩ := ok_of_bind h
    cases heq
    exact ⟨rfl, rfl, rfl⟩
  · cases h
    exact ⟨rfl, rfl, rfl⟩

theorem fixHostname_readdressed : Readdressed ep (ep.fixHostname world asked).1 := by
  unfold fixHostname
  split_ifs <;> exact ⟨rfl, rfl, rfl⟩

theorem readAlias_readdressed (options : Text) : Readdressed ep (ep.readAlias options) :=
  ⟨rfl, rfl, rfl⟩

theorem readRandomAlias_readdressed {options : Text}
    (h : (ep.readRandomAlias world options asked).1 = some ep') : Readdressed ep ep' := by
  unfold readRandomAlias at h
  split_ifs at h
  · cases h
    exact ⟨rfl, rfl, rfl⟩
  · cases h
    exact ⟨rfl, rfl, rfl⟩

theorem readRandomAlias_isSome (options : Text) :
    (ep.readRandomAlias world options asked).1.isSome ↔
      ((after "random_alias".toList options).isSome →
        (after "alias=".toList options).isNone) := by
  unfold readRandomAlias
  generalize after "random_alias".toList options = random
  generalize after "alias=".toList options = named
  cases random with
  | none => simp
  | some text =>
      cases named with
      | none => simp
      | some text => simp

theorem readSslPort_external (outsideFacing : Bool) (options : Text) :
    (ep.readSslPort outsideFacing options).external = ep.external := by
  unfold readSslPort
  split <;> rfl

/-- The steps of `parse_string` behind the port and in front of the one for
`ssl_port`. -/
theorem readdressed_steps {ep₁ ep₂ ep₃ : Endpoint} {asked₁ asked₂ : Nat} {host options : Text}
    (h₁ : (ep.readHost host).checkIpv4 world asked = .ok (ep₁, asked₁))
    (h₂ : ep₁.checkIpv6 world asked₁ = .ok (ep₂, asked₂))
    (h₃ : (((ep₂.fixHostname world asked₂).1.readAlias options).readRandomAlias world options
      (ep₂.fixHostname world asked₂).2).1 = some ep₃) : Readdressed ep ep₃ :=
  (readHost_readdressed host).trans <| (checkIpv4_readdressed h₁).trans <|
    (checkIpv6_readdressed h₂).trans <| fixHostname_readdressed.trans <|
    (readAlias_readdressed options).trans <| readRandomAlias_readdressed h₃

/-- Whether a word is accepted does not depend on the surroundings. -/
theorem parseString_spec {epStr : Text} {outsideFacing : Bool} {result : Option Endpoint}
    (h : ep.parseString world epStr outsideFacing asked = .ok (result, asked')) :
    (result.isSome ↔ Readable epStr) ∧ ∀ ep' ∈ result, ep'.external = ep.external := by
  have hport := splitPort_isSome_iff (primaryAddr epStr)
  unfold parseString at h
  cases hsplit : splitPort (primaryAddr epStr) with
  | none =>
      rw [hsplit] at h
      cases h
      have hcolon : ':' ∉ primaryAddr epStr := by simpa [hsplit] using hport
      exact ⟨iff_of_false (by simp) fun hread => hcolon hread.1, by simp⟩
  | some parts =>
      obtain ⟨host, port⟩ := parts
      rw [hsplit] at h
      obtain ⟨⟨ep₁, asked₁⟩, h₁, h⟩ := ok_of_bind h
      obtain ⟨⟨ep₂, asked₂⟩, h₂, h⟩ := ok_of_bind h
      simp only [pure, Except.pure, Except.ok.injEq, Prod.mk.injEq] at h
      obtain ⟨rfl, -⟩ := h
      rw [hsplit] at hport
      refine ⟨?_, ?_⟩
      · rw [Option.isSome_map, readRandomAlias_isSome]
        simpa [Readable] using fun _ => hport
      · intro ep' hep'
        obtain ⟨ep₃, h₃, rfl⟩ := Option.mem_map.mp hep'
        rw [readSslPort_external]
        exact (readdressed_steps h₁ h₂ h₃).external

end Accepted

/-! ## When the code returns -/

section Returning

/-- The code returns, unless something is missing and it reads behind the end of
a string. -/
def Returns {α : Type} (missing : Prop) (x : Except Fault α) : Prop :=
  (∃ a, x = .ok a) ∨ x = .error .outOfBounds ∧ missing

/-- The interface that a host name is the name of has no address when it is
looked up, or the address found is again the name of one that has none. -/
inductive NicMissing (world : Surroundings) : Text → Prop where
  | looked {hostname : Text} {family : Family} {nic : Nic} {n : Nat}
      (hsign : hostname.head? = some family.sign)
      (hlookup : lookup (hostname.drop 1) hostname = .ok nic)
      (hnone : world.ip n family nic = none) : NicMissing world hostname
  | found {hostname ip : Text} {family : Family} {nic : Nic} {n : Nat}
      (hsign : hostname.head? = some family.sign)
      (hlookup : lookup (hostname.drop 1) hostname = .ok nic)
      (hsome : world.ip n family nic = some ip) (hmissing : NicMissing world ip) :
      NicMissing world hostname

/-- The host of a word is such a name. -/
def WordMissing (world : Surroundings) (epStr : Text) : Prop :=
  ∃ host port, splitPort (primaryAddr epStr) = some (host, port) ∧
    NicMissing world (({} : Endpoint).readHost host).hostname

variable {world : Surroundings} {α β : Type} {missing : Prop}

theorem Returns.pure (a : α) : Returns missing (.ok a) := .inl ⟨a, rfl⟩

theorem Returns.bind {x : Except Fault α} {f : α → Except Fault β} (hx : Returns missing x)
    (hf : ∀ a, x = .ok a → Returns missing (f a)) : Returns missing (x >>= f) := by
  rcases hx with ⟨a, rfl⟩ | ⟨rfl, hmissing⟩
  · exact hf a rfl
  · exact .inr ⟨rfl, hmissing⟩

theorem Returns.imp {missing' : Prop} {x : Except Fault α} (hx : Returns missing x)
    (himp : missing → missing') : Returns missing' x :=
  Or.imp_right (And.imp_right himp) hx

theorem Returns.ok {x : Except Fault α} (hx : Returns missing x) (hnone : ¬ missing) :
    ∃ a, x = .ok a :=
  hx.resolve_right fun h => hnone h.2

theorem not_nicMissing (hip : ∀ n family nic, (world.ip n family nic).isSome)
    (hostname : Text) : ¬ NicMissing world hostname := by
  intro h
  induction h with
  | @looked hostname family nic n _ _ hnone =>
      have hsome := hip n family nic
      rw [hnone] at hsome
      cases hsome
  | found _ _ _ _ ih => exact ih

theorem not_wordMissing (hip : ∀ n family nic, (world.ip n family nic).isSome)
    (epStr : Text) : ¬ WordMissing world epStr := by
  rintro ⟨host, port, -, hmissing⟩
  exact not_nicMissing hip _ hmissing

theorem not_nicMissing_nil : ¬ NicMissing world [] := by
  rintro (⟨hsign, -, -⟩ | ⟨hsign, -, -, -⟩) <;> cases hsign

theorem awaitIp_found {family : Family} {ifname hostname ip : Text} {asked : Nat}
    (h : turn world family ifname hostname asked = .ok (some ip)) :
    awaitIp world family ifname hostname asked = .ok (ip, asked + 1) := by
  unfold awaitIp
  split
  · next heq => cases h.symm.trans heq
  · next heq =>
      cases h.symm.trans heq
      rfl
  · next heq => cases h.symm.trans heq

/-- A turn that finds nothing goes on with an empty host name. -/
theorem awaitIp_next {family : Family} {ifname hostname : Text} {asked : Nat}
    (h : turn world family ifname hostname asked = .ok none) :
    awaitIp world family ifname hostname asked =
      awaitIp world family ifname [] (asked + 1) := by
  rw [awaitIp]
  split
  · next heq => cases h.symm.trans heq
  · next heq => cases h.symm.trans heq
  · rfl

theorem awaitIp_nil (family : Family) (ifname : Text) (asked : Nat) :
    awaitIp world family ifname [] asked = .error .outOfBounds := by
  rw [awaitIp]
  split
  · next heq =>
      cases heq
      rfl
  · next heq => cases heq
  · next heq => cases heq

theorem exists_lookup (ifname : Text) {hostname : Text} (hne : hostname ≠ []) :
    ∃ nic, lookup ifname hostname = .ok nic := by
  rcases hostname with _ | ⟨first, _ | ⟨second, rest⟩⟩
  · exact absurd rfl hne
  · exact ⟨_, rfl⟩
  · exact ⟨_, rfl⟩

/-- Without a name nothing is looked up; otherwise the first turn decides. -/
theorem findIp_cases (world : Surroundings) (family : Family) (hostname : Text) (asked : Nat) :
    findIp world family hostname asked = .ok ([], asked) ∨
    ∃ nic, lookup (hostname.drop 1) hostname = .ok nic ∧
      ((∃ ip, world.ip asked family nic = some ip ∧
          findIp world family hostname asked = .ok (ip, asked + 1)) ∨
        world.ip asked family nic = none ∧
          findIp world family hostname asked = .error .outOfBounds) := by
  unfold findIp
  split_ifs with hname
  · exact .inl rfl
  · have hne : hostname ≠ [] := by
      rintro rfl
      exact hname rfl
    obtain ⟨nic, hlookup⟩ := exists_lookup (hostname.drop 1) hne
    have hturn : turn world family (hostname.drop 1) hostname asked =
        .ok (world.ip asked family nic) := by
      unfold turn
      rw [hlookup]
      rfl
    refine .inr ⟨nic, hlookup, ?_⟩
    cases hip : world.ip asked family nic with
    | some ip => exact .inl ⟨ip, rfl, awaitIp_found (hturn.trans (congrArg _ hip))⟩
    | none =>
        refine .inr ⟨rfl, ?_⟩
        rw [awaitIp_next (hturn.trans (congrArg _ hip)), awaitIp_nil]

theorem findIp_returns {family : Family} {hostname : Text}
    (hsign : hostname.head? = some family.sign) (asked : Nat) :
    Returns (NicMissing world hostname) (findIp world family hostname asked) := by
  rcases findIp_cases world family hostname asked with
    heq | ⟨nic, hlookup, ⟨ip, -, heq⟩ | ⟨hnone, heq⟩⟩
  · exact heq ▸ .pure _
  · exact heq ▸ .pure _
  · exact .inr ⟨heq, .looked hsign hlookup hnone⟩

/-- What is found is looked at again. -/
theorem findIp_nicMissing {family : Family} {hostname ip : Text} {asked asked' : Nat}
    (hsign : hostname.head? = some family.sign)
    (h : findIp world family hostname asked = .ok (ip, asked'))
    (hmissing : NicMissing world ip) : NicMissing world hostname := by
  rcases findIp_cases world family hostname asked with
    heq | ⟨nic, hlookup, ⟨ip', hsome, heq⟩ | ⟨-, heq⟩⟩
  · cases h.symm.trans heq
    exact absurd hmissing not_nicMissing_nil
  · cases h.symm.trans heq
    exact .found hsign hlookup hsome hmissing
  · cases h.symm.trans heq

theorem checkIpv4_returns (ep : Endpoint) (asked : Nat) :
    Returns (NicMissing world ep.hostname) (ep.checkIpv4 world asked) := by
  unfold checkIpv4
  split_ifs with hsign
  · exact (@findIp_returns world .inet _ hsign asked).bind fun _ _ => .pure _
  · exact .pure _

theorem checkIpv4_nicMissing {ep ep' : Endpoint} {asked asked' : Nat}
    (h : ep.checkIpv4 world asked = .ok (ep', asked'))
    (hmissing : NicMissing world ep'.hostname) : NicMissing world ep.hostname := by
  unfold checkIpv4 at h
  split_ifs at h with hsign
  · obtain ⟨⟨ip, asked₁⟩, hfind, heq⟩ := ok_of_bind h
    cases heq
    exact @findIp_nicMissing world .inet _ _ _ _ hsign hfind hmissing
  · cases h
    exact hmissing

theorem checkIpv6_returns (ep : Endpoint) (asked : Nat) :
    Returns (NicMissing world ep.hostname) (ep.checkIpv6 world asked) := by
  unfold checkIpv6
  split_ifs with hsign
  · exact (@findIp_returns world .inet6 _ hsign asked).bind fun _ _ => .pure _
  · exact .pure _

theorem readHost_hostname (host : Text) (ep : Endpoint) :
    (ep.readHost host).hostname = (({} : Endpoint).readHost host).hostname := by
  unfold readHost
  split_ifs <;> rfl

theorem parseString_returns (ep : Endpoint) (epStr : Text) (outsideFacing : Bool)
    (asked : Nat) :
    Returns (WordMissing world epStr) (ep.parseString world epStr outsideFacing asked) := by
  unfold parseString
  split
  · exact .pure _
  · next host port hsplit =>
      have hword (ep : Endpoint) (h : NicMissing world (ep.readHost host).hostname) :
          WordMissing world epStr :=
        ⟨host, port, hsplit, readHost_hostname host ep ▸ h⟩
      refine ((checkIpv4_returns _ _).imp (hword _)).bind fun result hfour => ?_
      have hlater (h : NicMissing world result.1.hostname) : WordMissing world epStr :=
        hword _ (checkIpv4_nicMissing hfour h)
      exact ((checkIpv6_returns _ _).imp hlater).bind fun _ _ => .pure _

end Returning

end Endpoint

end Config

end Lorica
