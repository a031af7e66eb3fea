import Lorica.Endpoint

/-!
The loops of `parse_string` that wait until an interface has an address. Which
lookup a turn makes depends on the second character of `hostname_`, and a
failed lookup empties `hostname_`: the second turn reads behind the end of that
string.
-/

namespace Lorica

open Machine

namespace Config

namespace Endpoint

/-- What has been read when `parse_string` comes to the interfaces. -/
def located (ep : Endpoint) (epStr : Text) (outsideFacing : Bool) : Option Endpoint :=
  (splitPort (primaryAddr epStr)).map fun (host, port) =>
    ({ ep with isIpv6 := false, sslPort := 0 }.readPort outsideFacing port).readHost host

/-- The lookup that the documentation of `lorica.conf` promises for a name. -/
def promised (ifname : Text) : Nic :=
  if ifname.head? = some '?' then .firstExternal else .named ifname

section Definitions

variable (world : Surroundings) (family : Family)

def checkIp (ep : Endpoint) (asked : Nat) : Except Fault (Endpoint × Nat) :=
  match family with
  | .inet => ep.checkIpv4 world asked
  | .inet6 => ep.checkIpv6 world asked

variable (ifname hostname : Text) (asked : Nat)

/-- `hostname_` at the head of each turn of a loop. -/
def hostnameAt : Nat → Text
  | 0 => hostname
  | _ + 1 => []

/-- Every turn before this one has looked an interface up and has found nothing. -/
def Entered (n : Nat) : Prop :=
  ∀ i < n, turn world family ifname (hostnameAt hostname i) (asked + i) = .ok none

/-- In each turn the promised lookup, and the loop ends with the first address
that it finds. The host is the sign of the family and then this name. -/
structure Retries (ep : Endpoint) (epStr : Text) (outsideFacing : Bool) : Prop where
  same : ∀ n, Entered world family ifname (family.sign :: ifname) asked n →
    lookup ifname (hostnameAt (family.sign :: ifname) n) = .ok (promised ifname)
  ends : ∀ n ip, (∀ i < n, world.ip (asked + i) family (promised ifname) = none) →
    world.ip (asked + n) family (promised ifname) = some ip →
      ((ep.located epStr outsideFacing).map fun ep =>
        (ep.checkIp world family asked).map fun result => result.1.hostname) = some (.ok ip)

end Definitions

/-! ## Turns -/

section Turns

variable {world : Surroundings} {family : Family} {ifname hostname : Text} {asked : Nat}

theorem entered_succ {n : Nat} :
    Entered world family ifname hostname asked (n + 1) ↔
      Entered world family ifname hostname asked n ∧
        turn world family ifname (hostnameAt hostname n) (asked + n) = .ok none :=
  Nat.forall_lt_succ_right

/-- The loop from the head of a turn that it comes to. -/
theorem awaitIp_entered {n : Nat} (h : Entered world family ifname hostname asked n) :
    awaitIp world family ifname hostname asked =
      awaitIp world family ifname (hostnameAt hostname n) (asked + n) := by
  induction n with
  | zero => rfl
  | succ n ih =>
      obtain ⟨hbefore, hturn⟩ := entered_succ.mp h
      rw [ih hbefore, awaitIp_next hturn]
      rfl

theorem awaitIp_ends {n : Nat} {ip : Text}
    (h : Entered world family ifname hostname asked n)
    (hturn : turn world family ifname (hostnameAt hostname n) (asked + n) = .ok (some ip)) :
    awaitIp world family ifname hostname asked = .ok (ip, asked + n + 1) := by
  rw [awaitIp_entered h, awaitIp_found hturn]

/-- The second turn has no host name to read. -/
theorem awaitIp_second (h : Entered world family ifname hostname asked 1) :
    awaitIp world family ifname hostname asked = .error .outOfBounds := by
  rw [awaitIp_entered h]
  exact awaitIp_nil family ifname (asked + 1)

end Turns

/-! ## The lookup that is promised -/

section Promise

variable {world : Surroundings} {family : Family} {second : Char} {rest : Text}
  {asked : Nat}

/-- The first turn makes the promised lookup. -/
theorem lookup_first (first second : Char) (rest : Text) :
    lookup (second :: rest) (first :: second :: rest) =
      .ok (promised (second :: rest)) := by
  simp [lookup, secondChar, promised, bind, Except.bind, pure, Except.pure]

theorem turn_first (world : Surroundings) (family : Family) (first second : Char)
    (rest : Text) (asked : Nat) :
    turn world family (second :: rest) (first :: second :: rest) asked =
      .ok (world.ip asked family (promised (second :: rest))) := by
  unfold turn
  rw [lookup_first]
  rfl

theorem entered_one_iff {first : Char} :
    Entered world family (second :: rest) (first :: second :: rest) asked 1 ↔
      world.ip asked family (promised (second :: rest)) = none := by
  rw [entered_succ, hostnameAt, Nat.add_zero, turn_first, Except.ok.injEq]
  exact and_iff_right fun i hi => absurd hi i.not_lt_zero

theorem checkIp_eq {ep : Endpoint} (hhost : ep.hostname = family.sign :: second :: rest) :
    (ep.checkIp world family asked).map (fun result => result.1.hostname) =
      (awaitIp world family (second :: rest) (family.sign :: second :: rest) asked).map
        Prod.fst := by
  cases family with
  | inet =>
      simp only [checkIp, checkIpv4, findIp, hhost, Family.sign, List.head?_cons, if_true,
        List.drop_succ_cons, List.drop_zero, reduceCtorEq, if_false]
      cases awaitIp world .inet (second :: rest) ('%' :: second :: rest) asked <;> rfl
  | inet6 =>
      simp only [checkIp, checkIpv6, findIp, hhost, Family.sign, List.head?_cons, if_true,
        List.drop_succ_cons, List.drop_zero, reduceCtorEq, if_false]
      cases awaitIp world .inet6 (second :: rest) ('+' :: second :: rest) asked <;> rfl

/-- Where the loop faults, so does `parse_string`. -/
theorem parseString_fault {cause : Fault} {ep ep' : Endpoint} {epStr : Text}
    {outsideFacing : Bool} (hlocated : ep.located epStr outsideFacing = some ep')
    (hhost : ep'.hostname = family.sign :: second :: rest)
    (hfault : awaitIp world family (second :: rest) (family.sign :: second :: rest) asked =
      .error cause) :
    ep.parseString world epStr outsideFacing asked = .error cause := by
  obtain ⟨⟨host, port⟩, hsplit, rfl⟩ := Option.map_eq_some_iff.mp hlocated
  unfold parseString
  rw [hsplit]
  cases family with
  | inet => simp_all [checkIpv4, findIp, Family.sign, bind, Except.bind]
  | inet6 => simp_all [checkIpv4, checkIpv6, findIp, Family.sign, bind, Except.bind, pure,
      Except.pure]

/-- For every word whose host is an interface and for everything that the
lookups may answer: each turn makes the promised lookup, and the loop ends with
the first address, exactly if the first lookup finds one. -/
theorem retries_iff_first_found (world : Surroundings) (family : Family) (asked : Nat)
    {ep ep' : Endpoint} {epStr : Text} {outsideFacing : Bool} {second : Char} {rest : Text}
    (hlocated : ep.located epStr outsideFacing = some ep')
    (hhost : ep'.hostname = family.sign :: second :: rest) :
    Retries world family (second :: rest) asked ep epStr outsideFacing ↔
      (world.ip asked family (promised (second :: rest))).isSome := by
  constructor
  · intro h
    by_contra hmissing
    have hentered := (@entered_one_iff _ _ _ _ _ family.sign).mpr
      (Option.not_isSome_iff_eq_none.mp hmissing)
    -- the second turn has no second character to read
    cases h.same 1 hentered
  · intro hfound
    obtain ⟨ip₀, hfound⟩ := Option.isSome_iff_exists.mp hfound
    refine ⟨fun n hentered => ?_, fun n ip hfailed hip => ?_⟩
    · cases n with
      | zero => exact lookup_first family.sign second rest
      | succ n =>
          have hfirst := hentered 0 n.succ_pos
          rw [hostnameAt, Nat.add_zero, turn_first, hfound] at hfirst
          cases hfirst
    · cases n with
      | zero =>
          have hturn := turn_first world family family.sign second rest asked
          rw [Nat.add_zero] at hip
          rw [hip] at hturn
          have hnone (p : Nat → Prop) : ∀ i < 0, p i := fun i hi => absurd hi i.not_lt_zero
          rw [hlocated, Option.map_some, checkIp_eq hhost, awaitIp_ends (hnone _) hturn]
          rfl
      | succ n =>
          have hfirst := hfailed 0 n.succ_pos
          rw [Nat.add_zero, hfound] at hfirst
          cases hfirst

/-- An interface that has no address at first. -/
def lateWorld : Surroundings where
  hostname := fun _ => ⟨[], by simp⟩
  ip := fun n _ nic => if nic = .firstExternal ∧ 0 < n then some "10.0.0.1".toList else none
  uuid := fun _ => []

theorem located_question_mark :
    located {} "%?:1".toList true = some { hostname := ['%', '?'], port := 1 } := by decide

/-- Asked later, the first lookup finds the address and the loop ends with it. -/
theorem retries_iff_first_found_question_mark :
    Retries lateWorld .inet ['?'] 1 {} "%?:1".toList true :=
  (retries_iff_first_found lateWorld .inet 1 located_question_mark rfl).mpr rfl

/-- The first external address is there from the second lookup on, and the
second turn reads behind the end of the host name instead of looking it up. -/
theorem not_retries_question_mark :
    ¬ Retries lateWorld .inet ['?'] 0 {} "%?:1".toList true ∧
      parseString lateWorld {} "%?:1".toList true 0 = .error .outOfBounds := by
  have hentered : Entered lateWorld .inet ['?'] ['%', '?'] 0 1 := entered_one_iff.mpr rfl
  have hhost : ['%', '?'] = Family.inet.sign :: '?' :: [] := rfl
  constructor
  · intro h
    cases h.same 1 hentered
  · exact parseString_fault located_question_mark hhost (awaitIp_second hentered)

end Promise

end Endpoint

end Config

end Lorica
