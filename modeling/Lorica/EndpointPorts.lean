import Lorica.ProxyConfigure

/-!
The ports of an endpoint on their way from the digits of a word to the policies:
`strtol` stops at the ends of a `long`, the `long` is cut to an `int`, what is not
positive becomes the default, and the policy takes sixteen bits of the rest.
-/

namespace Lorica

open Machine

namespace Config

/-! ## One number -/

section Numbers

/-- The number that stands at the beginning of a text, zero if there is none. -/
def written (text : Text) : Int :=
  match text.dropWhile isspace with
  | '-' :: rest => -digits rest
  | '+' :: rest => digits rest
  | rest => digits rest

/-- A number beyond a `long`, or one whose lower 32 bits are a port or the bits
of a negative `int`. -/
def FitsPort (n : Int) : Prop :=
  n < -2 ^ 63 ∨ 2 ^ 63 ≤ n ∨ n % 2 ^ 32 ≤ 65535 ∨ 2 ^ 31 ≤ n % 2 ^ 32

instance (n : Int) : Decidable (FitsPort n) :=
  inferInstanceAs (Decidable (_ ∨ _ ∨ _ ∨ _))

theorem strtol_eq (text : Text) :
    strtol text = max (-2 ^ 63) (min (written text) (2 ^ 63 - 1)) := rfl

/-- The cut to an `int`. -/
theorem bmod_eq (n : Int) :
    n.bmod (2 ^ 32) = if n % 2 ^ 32 < 2 ^ 31 then n % 2 ^ 32 else n % 2 ^ 32 - 2 ^ 32 := by
  rw [Int.bmod_def]
  norm_num

/-- Both ends of a `long` are cut to what is not positive. -/
theorem bmod_strtol_le_iff (text : Text) :
    (strtol text).bmod (2 ^ 32) ≤ 65535 ↔ FitsPort (written text) := by
  rw [strtol_eq, bmod_eq]
  unfold FitsPort
  generalize written text = n
  split_ifs <;> omega

theorem portOr_pos {dflt : Int} (hdflt : 1 ≤ dflt) (text : Text) : 1 ≤ portOr dflt text := by
  unfold portOr
  dsimp only
  split_ifs <;> omega

theorem portOr_le_iff {dflt : Int} (hdflt : dflt ≤ 65535) (text : Text) :
    portOr dflt text ≤ 65535 ↔ FitsPort (written text) := by
  rw [← bmod_strtol_le_iff]
  unfold portOr
  dsimp only
  split_ifs <;> omega

end Numbers

namespace Endpoint

/-! ## The ports of a word -/

section Ports

variable {world : Surroundings} {ep ep' : Endpoint} {asked asked' : Nat}

/-- The port is read from what stands behind the last colon and the other one
from the option, if there is one. -/
theorem parseString_ports {epStr : Text} {outsideFacing : Bool}
    (h : ep.parseString world epStr outsideFacing asked = .ok (some ep', asked')) :
    ∃ host port, splitPort (primaryAddr epStr) = some (host, port) ∧
      ep'.port = portOr (if outsideFacing then 4082 else 4080) port ∧
      ep'.sslPort = ((optionValue "ssl_port=".toList (modifiers epStr)).map
        (portOr (if outsideFacing then 4083 else 4081))).getD 0 := by
  unfold parseString at h
  cases hsplit : splitPort (primaryAddr epStr) with
  | none =>
      rw [hsplit] at h
      cases h
  | some parts =>
      obtain ⟨host, port⟩ := parts
      rw [hsplit] at h
      obtain ⟨⟨ep₁, asked₁⟩, h₁, h⟩ := ok_of_bind h
      obtain ⟨⟨ep₂, asked₂⟩, h₂, h⟩ := ok_of_bind h
      simp only [pure, Except.pure, Except.ok.injEq, Prod.mk.injEq, Option.map_eq_some_iff] at h
      obtain ⟨⟨ep₃, h₃, rfl⟩, -⟩ := h
      have hsame := readdressed_steps h₁ h₂ h₃
      refine ⟨host, port, rfl, ?_, ?_⟩
      · unfold readSslPort
        split
        · exact hsame.port
        · exact hsame.port
      · unfold readSslPort
        cases hssl : optionValue "ssl_port=".toList (modifiers epStr) with
        | none => exact hsame.sslPort
        | some text => rfl

end Ports

/-! ## The range -/

section Range

/-- Both ports are in range, and the argument and the policy have the same one. -/
structure PortsInRange (ep : Endpoint) : Prop where
  port : 1 ≤ ep.port ∧ ep.port ≤ 65535
  sslPort : ep.sslPort = 0 ∨ 1 ≤ ep.sslPort ∧ ep.sslPort ≤ 65535
  agree : ep.printedPort = itoa ep.policyValue.port.toNat

theorem printedPort_eq {ep : Endpoint} (hpos : 1 ≤ ep.port) (hle : ep.port ≤ 65535) :
    ep.printedPort = itoa ep.policyValue.port.toNat := by
  have hpolicy : (ep.policyValue.port.toNat : Int) = ep.port := by
    unfold policyValue UInt16.ofInt
    rw [UInt16.toNat_ofNat']
    omega
  have hsys : SYS_PORT ≠ ep.port := by
    unfold SYS_PORT
    omega
  unfold printedPort
  rw [if_pos hsys, hpolicy]

/-- For every word that is accepted, with whatever stands in the places of its
ports: they are in range exactly if the numbers written there fit. -/
theorem portsInRange_iff {world : Surroundings} {ep ep' : Endpoint}
    {asked asked' : Nat} {epStr : Text} {outsideFacing : Bool}
    (h : ep.parseString world epStr outsideFacing asked = .ok (some ep', asked')) :
    PortsInRange ep' ↔
      (∀ host port, splitPort (primaryAddr epStr) = some (host, port) →
        FitsPort (written port)) ∧
      ∀ port ∈ optionValue "ssl_port=".toList (modifiers epStr), FitsPort (written port) := by
  obtain ⟨host, port, hsplit, hport, hssl⟩ := parseString_ports h
  have hdflt : (1 : Int) ≤ (if outsideFacing then 4082 else 4080) ∧
      (if outsideFacing then 4082 else 4080 : Int) ≤ 65535 := by
    cases outsideFacing <;> decide
  have hsslDflt : (1 : Int) ≤ (if outsideFacing then 4083 else 4081) ∧
      (if outsideFacing then 4083 else 4081 : Int) ≤ 65535 := by
    cases outsideFacing <;> decide
  have hpos : 1 ≤ ep'.port := hport ▸ portOr_pos hdflt.1 port
  have hle : ep'.port ≤ 65535 ↔ FitsPort (written port) := hport ▸ portOr_le_iff hdflt.2 port
  have hsslLe : (ep'.sslPort = 0 ∨ 1 ≤ ep'.sslPort ∧ ep'.sslPort ≤ 65535) ↔
      ∀ port ∈ optionValue "ssl_port=".toList (modifiers epStr), FitsPort (written port) := by
    rw [hssl]
    cases optionValue "ssl_port=".toList (modifiers epStr) with
    | none => simp
    | some text =>
        have htextPos := portOr_pos hsslDflt.1 text
        have htextLe := portOr_le_iff hsslDflt.2 text
        simp only [Option.map_some, Option.getD_some, Option.mem_some_iff, forall_eq', ← htextLe]
        omega
  constructor
  · intro hrange
    refine ⟨fun host' port' hsplit' => ?_, hsslLe.mp hrange.sslPort⟩
    obtain ⟨rfl, rfl⟩ : host = host' ∧ port = port' := by simpa [hsplit] using hsplit'
    exact hle.mp hrange.port.2
  · rintro ⟨hfits, hsslFits⟩
    have hport' := hle.mpr (hfits host port hsplit)
    exact ⟨⟨hpos, hport'⟩, hsslLe.mpr hsslFits, printedPort_eq hpos hport'⟩

theorem portsInRange_iff_one :
    PortsInRange { external := true, hostname := ['h'], port := 1 } ↔
      (∀ host port, splitPort (primaryAddr "h:1".toList) = some (host, port) →
        FitsPort (written port)) ∧
      ∀ port ∈ optionValue "ssl_port=".toList (modifiers "h:1".toList),
        FitsPort (written port) := by
  have hparse : parseString sampleWorld { external := true } "h:1".toList true 0 =
      .ok (some { external := true, hostname := ['h'], port := 1 }, 0) := by
    decide
  exact portsInRange_iff hparse

/-- `65536` is printed, and the policy has port zero. -/
theorem not_portsInRange_65536 :
    ∃ ep, parseString sampleWorld { external := true } "h:65536".toList true 0 =
        .ok (some ep, 0) ∧
      ep.printedPort = "65536".toList ∧ ep.policyValue.port = 0 ∧ ¬ PortsInRange ep := by
  refine ⟨{ external := true, hostname := ['h'], port := 65536 }, by decide, by decide,
    by decide, ?_⟩
  intro hrange
  exact absurd hrange.port.2 (by decide)

end Range

end Endpoint

end Config

end Lorica
