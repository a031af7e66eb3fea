import Lorica.Endpoint

/-!
The documented form of an endpoint word, what `parse_string` reads from it and
what `as_tao_endpoint` writes for it. An option's keyword is found by a search
through all of the options; no option holds a comma, so the search finds it in
one option or in none.
-/

namespace Lorica

namespace Config

/-! ## The form of a word -/

/-- A letter, a digit, a dot or a hyphen. -/
def IsHostChar (c : Char) : Prop := c.isAlphanum = true ∨ c = '.' ∨ c = '-'

instance (c : Char) : Decidable (IsHostChar c) :=
  inferInstanceAs (Decidable (_ ∨ _ ∨ _))

/-- A host, as such or in brackets. Only in brackets it may hold colons. -/
structure Host where
  name : Text
  bracketed : Bool
  nonempty : name ≠ []
  chars : ∀ c ∈ name, IsHostChar c ∨ (bracketed = true ∧ c = ':')

def Host.render (h : Host) : Text := if h.bracketed then '[' :: h.name ++ [']'] else h.name

abbrev Port := { n : Nat // 1 ≤ n ∧ n ≤ 65535 }

/-- The decimal numeral, which has no leading zeros. -/
def Port.render (p : Port) : Text := Nat.toDigits 10 p.val

inductive EndpointOption where
  | sslPort (port : Port)
  | alias_ (host : Host)

namespace EndpointOption

def render : EndpointOption → Text
  | sslPort port => "ssl_port=".toList ++ Port.render port
  | alias_ host => "alias=".toList ++ host.render

def sslPort? : EndpointOption → Option Port
  | sslPort port => some port
  | alias_ _ => none

def alias? : EndpointOption → Option Host
  | sslPort _ => none
  | alias_ host => some host

end EndpointOption

/-- A host, a port and perhaps a slash with options behind it, at most one of
each kind. -/
structure EndpointSyntax where
  host : Host
  port : Port
  options : Option (List EndpointOption)
  sslPort_unique : ((options.getD []).filterMap EndpointOption.sslPort?).length ≤ 1
  alias_unique : ((options.getD []).filterMap EndpointOption.alias?).length ≤ 1

namespace EndpointSyntax

variable (e : EndpointSyntax)

def renderOptions : Text :=
  match e.options with
  | none => []
  | some options => '/' :: [','].intercalate (options.map EndpointOption.render)

def render : Text := e.host.render ++ ':' :: e.port.render ++ e.renderOptions

def sslPort : Option Port := ((e.options.getD []).filterMap EndpointOption.sslPort?).head?

def alias_ : Option Host := ((e.options.getD []).filterMap EndpointOption.alias?).head?

/-- What the word says in front of the slash. -/
def address (external : Bool) : Endpoint where
  external := external
  hostname := e.host.name
  port := e.port.val
  isIpv6 := e.host.bracketed

/-- What the word says. -/
def endpoint (external : Bool) : Endpoint :=
  { e.address external with
    alias_ := (e.alias_.map Host.render).getD []
    sslPort := (e.sslPort.map fun p => (p.val : Int)).getD 0 }

/-- The options in the form that TAO takes, always in this order. -/
def taoOptions : Text :=
  match e.sslPort, e.alias_ with
  | none, none => []
  | some port, none => "/ssl_port=".toList ++ port.render
  | none, some host => "/hostname_in_ior=".toList ++ host.render
  | some port, some host =>
      "/ssl_port=".toList ++ port.render ++ ",hostname_in_ior=".toList ++ host.render

def tao : Text :=
  "iiop://1.2@".toList ++ e.host.render ++ ':' :: e.port.render ++ e.taoOptions

end EndpointSyntax

/-! ## Searching the options -/

section Searching

variable {pattern : Text}

/-- What is found has been written. -/
theorem mem_of_after {text rest : Text} (h : after pattern text = some rest) {c : Char}
    (hc : c ∈ pattern) : c ∈ text := by
  induction text with
  | nil =>
      unfold after at h
      split at h
      · next hnil => exact absurd hc (by simp [hnil])
      · cases h
  | cons d text ih =>
      unfold after at h
      split at h
      · next hprefix => exact (List.isPrefixOf_iff_prefix.mp hprefix).subset hc
      · exact List.mem_cons_of_mem _ (ih h)

theorem after_eq_none {text : Text} {c : Char} (hc : c ∈ pattern) (h : c ∉ text) :
    after pattern text = none := by
  cases hafter : after pattern text with
  | none => rfl
  | some rest => exact absurd (mem_of_after hafter hc) h

theorem after_self (rest : Text) : after pattern (pattern ++ rest) = some rest := by
  cases pattern with
  | nil => cases rest <;> simp [after]
  | cons c pattern =>
      have hprefix : (c :: pattern).isPrefixOf (c :: (pattern ++ rest)) = true :=
        List.isPrefixOf_iff_prefix.mpr ⟨rest, rfl⟩
      rw [List.cons_append, after, if_pos hprefix, ← List.cons_append, List.drop_left]

theorem isPrefixOf_comma (hcomma : ',' ∉ pattern) (piece rest : Text) :
    pattern.isPrefixOf (piece ++ ',' :: rest) = pattern.isPrefixOf piece := by
  rw [Bool.eq_iff_iff, List.isPrefixOf_iff_prefix, List.isPrefixOf_iff_prefix]
  constructor
  · intro h
    by_cases hle : pattern.length ≤ piece.length
    · exact List.prefix_of_prefix_length_le h (List.prefix_append _ _) hle
    · have hpiece : piece ++ [','] <+: piece ++ ',' :: rest := ⟨rest, by simp⟩
      have hle' : (piece ++ [',']).length ≤ pattern.length := by
        rw [List.length_append, List.length_singleton]
        omega
      have hmem := (List.prefix_of_prefix_length_le hpiece h hle').subset
        (List.mem_append_right piece (List.mem_singleton.mpr rfl))
      exact absurd hmem hcomma
  · exact fun h => h.trans (List.prefix_append _ _)

/-- A pattern without a comma is found before the comma or after it. -/
theorem after_comma (hne : pattern ≠ []) (hcomma : ',' ∉ pattern) (piece rest : Text) :
    after pattern (piece ++ ',' :: rest) =
      match after pattern piece with
      | some tail => some (tail ++ ',' :: rest)
      | none => after pattern rest := by
  induction piece with
  | nil =>
      have hnil : after pattern [] = none := by simp [after, hne]
      have hprefix : ¬ pattern.isPrefixOf (',' :: rest) = true := by
        intro h
        obtain ⟨tail, htail⟩ := List.isPrefixOf_iff_prefix.mp h
        cases pattern with
        | nil => exact hne rfl
        | cons c pattern =>
            obtain rfl : c = ',' := (List.cons.inj htail).1
            exact hcomma List.mem_cons_self
      rw [hnil, List.nil_append, after, if_neg hprefix]
  | cons c piece ih =>
      have hprefix : pattern.isPrefixOf (c :: (piece ++ ',' :: rest)) =
          pattern.isPrefixOf (c :: piece) := isPrefixOf_comma hcomma (c :: piece) rest
      rw [List.cons_append, after, after, hprefix]
      split
      · next h =>
          obtain ⟨tail, htail⟩ := List.isPrefixOf_iff_prefix.mp h
          have hle : pattern.length ≤ (c :: piece).length := by
            rw [← htail, List.length_append]
            omega
          rw [← List.cons_append, List.drop_append_of_le_length hle]
      · exact ih

/-- The first option in which the pattern is found has the value. -/
theorem optionValue_intercalate (select : EndpointOption → Option Text)
    {options : List EndpointOption} (hne : pattern ≠ []) (hcomma : ',' ∉ pattern)
    (hrender : ∀ o ∈ options, after pattern o.render = select o)
    (hselect : ∀ o ∈ options, ∀ v ∈ select o, ',' ∉ v) :
    optionValue pattern ([','].intercalate (options.map EndpointOption.render)) =
      (options.filterMap select).head? := by
  unfold optionValue
  have hwhole : ∀ {v : Text}, ',' ∉ v → v.takeWhile (· ≠ ',') = v := by
    intro v hv
    rw [List.takeWhile_eq_self_iff]
    exact fun c hc => by simpa using fun heq : c = ',' => hv (heq ▸ hc)
  induction options with
  | nil => simp [List.intercalate, after, hne]
  | cons o rest ih =>
      obtain ⟨ho, hrest⟩ := List.forall_mem_cons.mp hrender
      obtain ⟨hv, hvs⟩ := List.forall_mem_cons.mp hselect
      cases rest with
      | nil =>
          rw [List.map_cons, List.map_nil, List.intercalate_singleton, ho]
          cases hsel : select o with
          | none => simp [hsel]
          | some v => simp only [hsel, List.filterMap_cons, Option.map_some, hwhole (hv v hsel), List.head?_cons]
      | cons o' rest =>
          rw [List.map_cons, List.map_cons, List.intercalate_cons_cons, List.append_assoc,
            List.singleton_append, after_comma hne hcomma, ho]
          cases hsel : select o with
          | none =>
              rw [List.filterMap_cons, hsel]
              exact ih hrest hvs
          | some v =>
              have htake : (v ++ ',' :: [','].intercalate
                  ((o' :: rest).map EndpointOption.render)).takeWhile (· ≠ ',') = v := by
                rw [List.takeWhile_append_of_pos, List.takeWhile_cons_of_neg (by simp),
                  List.append_nil]
                intro c hc
                simpa using fun heq : c = ',' => hv v hsel (heq ▸ hc)
              rw [List.filterMap_cons, hsel, List.head?_cons]
              exact congrArg some htake

end Searching

/-! ## What the parts of a word are made of -/

section Parts

theorem Host.mem_render {h : Host} {c : Char} (hc : c ∈ h.render) :
    IsHostChar c ∨ c = ':' ∨ c = '[' ∨ c = ']' := by
  unfold Host.render at hc
  split at hc
  · simp only [List.mem_cons, List.mem_append, List.not_mem_nil, or_false] at hc
    rcases hc with (hc | hc) | hc
    · exact Or.inr (Or.inr (Or.inl hc))
    · rcases h.chars c hc with hchar | hcolon
      · exact Or.inl hchar
      · exact Or.inr (Or.inl hcolon.2)
    · exact Or.inr (Or.inr (Or.inr hc))
  · next hplain =>
      rcases h.chars c hc with hchar | hcolon
      · exact Or.inl hchar
      · exact absurd hcolon.1 hplain

theorem Port.mem_render {p : Port} {c : Char} (hc : c ∈ p.render) : c.isDigit = true :=
  Nat.isDigit_of_mem_toDigits (by decide) (by decide) hc

theorem Host.render_ne_nil (h : Host) : h.render ≠ [] := by
  unfold Host.render
  split
  · exact List.cons_ne_nil _ _
  · exact h.nonempty

/-- A character that no host has, in brackets or not. -/
theorem Host.notMem_render {c : Char} (hchar : ¬ IsHostChar c) (hcolon : c ≠ ':')
    (hopen : c ≠ '[') (hclose : c ≠ ']') (h : Host) : c ∉ h.render := by
  intro hc
  rcases h.mem_render hc with hc | hc | hc | hc
  · exact hchar hc
  · exact hcolon hc
  · exact hopen hc
  · exact hclose hc

theorem Port.notMem_render {c : Char} (hc : c.isDigit = false) (p : Port) : c ∉ p.render :=
  fun h => absurd (Port.mem_render h) (by simp [hc])

theorem Host.plain (h : Host) : ',' ∉ h.render ∧ '_' ∉ h.render ∧ '/' ∉ h.render :=
  ⟨h.notMem_render (by decide) (by decide) (by decide) (by decide),
    h.notMem_render (by decide) (by decide) (by decide) (by decide),
    h.notMem_render (by decide) (by decide) (by decide) (by decide)⟩

theorem Host.head_ne {c : Char} (hchar : ¬ IsHostChar c) (hcolon : c ≠ ':') (h : Host) :
    h.name.head? ≠ some c := by
  intro heq
  rcases h.chars c (List.mem_of_mem_head? heq) with hc | hc
  · exact hchar hc
  · exact hcolon hc.2

theorem EndpointOption.notMem_render {c : Char} (hport : c ∉ "ssl_port=".toList)
    (halias : c ∉ "alias=".toList) (hdigit : c.isDigit = false)
    (hhost : ∀ h : Host, c ∉ h.render) (o : EndpointOption) : c ∉ o.render := by
  cases o with
  | sslPort p =>
      exact fun h => (List.mem_append.mp h).elim hport (p.notMem_render hdigit)
  | alias_ h => exact fun hc => (List.mem_append.mp hc).elim halias (hhost h)

end Parts

namespace EndpointSyntax

variable {e : EndpointSyntax}

/-! ## The options -/

section Options

variable (options : List EndpointOption)

theorem optionValue_sslPort :
    optionValue "ssl_port=".toList ([','].intercalate (options.map EndpointOption.render)) =
      ((options.filterMap EndpointOption.sslPort?).head?).map Port.render := by
  rw [optionValue_intercalate (fun o => o.sslPort?.map Port.render) (by decide) (by decide),
    ← List.head?_map, List.map_filterMap]
  · rintro (port | host) -
    · exact after_self _
    · refine after_eq_none (c := '_') (by decide) ?_
      exact fun h => (List.mem_append.mp h).elim (by decide) host.plain.2.1
  · rintro (port | host) - v hv
    · obtain rfl := Option.some.inj hv
      exact port.notMem_render (by decide)
    · cases hv

theorem optionValue_alias :
    optionValue "alias=".toList ([','].intercalate (options.map EndpointOption.render)) =
      ((options.filterMap EndpointOption.alias?).head?).map Host.render := by
  rw [optionValue_intercalate (fun o => o.alias?.map Host.render) (by decide) (by decide),
    ← List.head?_map, List.map_filterMap]
  · rintro (port | host) -
    · refine after_eq_none (c := 'a') (by decide) ?_
      exact fun h => (List.mem_append.mp h).elim (by decide) (port.notMem_render (by decide))
    · exact after_self _
  · rintro (port | host) - v hv
    · cases hv
    · obtain rfl := Option.some.inj hv
      exact host.plain.1

/-- The two names with an underscore do not meet in an option. -/
theorem after_random_alias :
    after "random_alias".toList ([','].intercalate (options.map EndpointOption.render)) =
      none := by
  have hnone : optionValue "random_alias".toList
      ([','].intercalate (options.map EndpointOption.render)) =
        (options.filterMap fun _ => none).head? :=
    optionValue_intercalate (fun _ => none) (by decide) (by decide)
      (by
        rintro (port | host) -
        · refine after_eq_none (c := 'd') (by decide) ?_
          exact fun h => (List.mem_append.mp h).elim (by decide) (port.notMem_render (by decide))
        · refine after_eq_none (c := '_') (by decide) ?_
          exact fun h => (List.mem_append.mp h).elim (by decide) host.plain.2.1)
      (by rintro o - v ⟨⟩)
  simpa [optionValue] using hnone

end Options

/-! ## The address -/

section Address

theorem slash_notMem : '/' ∉ e.host.render ++ ':' :: e.port.render := by
  intro h
  rcases List.mem_append.mp h with h | h
  · exact e.host.plain.2.2 h
  · rcases List.mem_cons.mp h with h | h
    · exact absurd h (by decide)
    · exact e.port.notMem_render (by decide) h

theorem primaryAddr_render :
    Endpoint.primaryAddr e.render = e.host.render ++ ':' :: e.port.render := by
  have hall : ∀ c ∈ e.host.render ++ ':' :: e.port.render, decide (c ≠ '/') = true :=
    fun c hc => decide_eq_true fun heq : c = '/' => slash_notMem (heq ▸ hc)
  unfold Endpoint.primaryAddr render renderOptions
  rw [List.takeWhile_append_of_pos hall]
  cases e.options <;> simp

theorem modifiers_render :
    Endpoint.modifiers e.render =
      [','].intercalate ((e.options.getD []).map EndpointOption.render) := by
  have hall : ∀ c ∈ e.host.render ++ ':' :: e.port.render, decide (c ≠ '/') = true :=
    fun c hc => decide_eq_true fun heq : c = '/' => slash_notMem (heq ▸ hc)
  unfold Endpoint.modifiers render renderOptions
  rw [List.dropWhile_append_of_pos hall]
  cases e.options <;> simp [List.intercalate]

theorem splitPort_render :
    splitPort (e.host.render ++ ':' :: e.port.render) = some (e.host.render, e.port.render) := by
  have hall : ∀ c ∈ e.port.render.reverse, decide (c ≠ ':') = true := by
    intro c hc
    rw [List.mem_reverse] at hc
    exact decide_eq_true fun heq : c = ':' => e.port.notMem_render (by decide) (heq ▸ hc)
  unfold splitPort
  rw [List.span_eq_takeWhile_dropWhile, List.reverse_append, List.reverse_cons,
    List.append_assoc, List.takeWhile_append_of_pos hall, List.dropWhile_append_of_pos hall]
  simp

theorem digits_toDigits (n : Nat) : digits (Nat.toDigits 10 n) = n := by
  have hall : ∀ c ∈ Nat.toDigits 10 n, c.isDigit = true :=
    fun c hc => Nat.isDigit_of_mem_toDigits (by decide) (by decide) hc
  unfold digits
  rw [List.takeWhile_eq_self_iff.mpr hall]
  exact Nat.ofDigitChars_ten_toDigits

/-- A text that starts with a digit has no blanks and no sign to skip. -/
theorem strtol_of_isDigit {c : Char} (hc : c.isDigit = true) (text : Text) :
    strtol (c :: text) = max (-2 ^ 63) (min (digits (c :: text) : Int) (2 ^ 63 - 1)) := by
  have hspace : ¬ isspace c = true := by
    intro h
    simp only [isspace, Bool.or_eq_true, decide_eq_true_eq] at h
    rcases h with ((((rfl | rfl) | rfl) | rfl) | rfl) | rfl <;> exact absurd hc (by decide)
  unfold strtol
  rw [List.dropWhile_cons_of_neg hspace]
  split
  · next heq =>
      obtain rfl := (List.cons.inj heq).1
      exact absurd hc (by decide)
  · next heq =>
      obtain rfl := (List.cons.inj heq).1
      exact absurd hc (by decide)
  · rfl

/-- A numeral is read back. -/
theorem portOr_render (dflt : Int) (p : Port) : portOr dflt p.render = p.val := by
  obtain ⟨n, hlow, hhigh⟩ := p
  have hdigits := digits_toDigits n
  unfold portOr Port.render
  cases htext : Nat.toDigits 10 n with
  | nil => exact absurd htext Nat.toDigits_ne_nil
  | cons c text =>
      have hc : c.isDigit = true :=
        Nat.isDigit_of_mem_toDigits (b := 10) (n := n) (by decide) (by decide)
          (htext ▸ List.mem_cons_self)
      rw [htext] at hdigits
      have hvalue : max (-2 ^ 63) (min (n : Int) (2 ^ 63 - 1)) = n := by omega
      rw [strtol_of_isDigit hc, hdigits, hvalue, Int.bmod_eq_of_le (by omega) (by omega),
        if_neg (by omega)]

end Address

/-! ## Reading and writing -/

section Reading

variable {world : Surroundings} {asked : Nat}

theorem readHost_render (h : Host) {ep : Endpoint} (hfresh : ep.isIpv6 = false) :
    ep.readHost h.render = { ep with hostname := h.name, isIpv6 := h.bracketed } := by
  have hopen := h.head_ne (c := '[') (by decide) (by decide)
  obtain ⟨name, bracketed, hne, hchars⟩ := h
  unfold Endpoint.readHost Host.render
  cases bracketed with
  | false =>
      have hbrackets : name ≠ ['[', ']'] := by
        rintro rfl
        exact hopen rfl
      simp only [Bool.false_eq_true, if_false, hne, hbrackets, hopen, false_and]
      cases ep
      simp_all
  | true =>
      have hbrackets : '[' :: name ++ [']'] ≠ ['[', ']'] := by
        cases name with
        | nil => exact absurd rfl hne
        | cons c name => simp
      have hinner : (('[' :: name ++ [']']).drop 1).take (('[' :: name ++ [']']).length - 2) =
          name := by
        simp
      have hlast : ('[' :: name ++ [']']).getLast? = some ']' := by
        rw [List.getLast?_append, List.getLast?_singleton, Option.some_or]
      have hnil : '[' :: name ++ [']'] ≠ [] := List.cons_ne_nil _ _
      rw [if_pos rfl, if_neg hnil, if_neg hbrackets, if_pos ⟨rfl, hlast⟩, hinner]

/-- The host is no interface's name, and it is not empty. -/
theorem checked_address (external : Bool) :
    (e.address external).checkIpv4 world asked = .ok (e.address external, asked) ∧
    (e.address external).checkIpv6 world asked = .ok (e.address external, asked) ∧
    (e.address external).fixHostname world asked = (e.address external, asked) :=
  ⟨if_neg (e.host.head_ne (by decide) (by decide)),
    if_neg (e.host.head_ne (by decide) (by decide)), if_neg e.host.nonempty⟩

theorem readSslPort_options (outsideFacing : Bool) (options : List EndpointOption)
    (ep : Endpoint) :
    ep.readSslPort outsideFacing ([','].intercalate (options.map EndpointOption.render)) =
      { ep with sslPort := (((options.filterMap EndpointOption.sslPort?).head?).map
        fun p => (p.val : Int)).getD ep.sslPort } := by
  unfold Endpoint.readSslPort
  rw [optionValue_sslPort]
  cases (options.filterMap EndpointOption.sslPort?).head? with
  | none => rfl
  | some p => simp only [Option.map_some, portOr_render, Option.getD_some]

end Reading

section Writing

theorem itoa_port (p : Port) : Endpoint.itoa p.val = p.render := by
  unfold Endpoint.itoa
  rw [Int.toString_eq_repr, Int.repr_eq_if, if_pos (by omega)]
  simp [Port.render, Nat.toList_repr]

theorem printedPort_endpoint (external : Bool) :
    (e.endpoint external).printedPort = e.port.render := by
  have hlow := e.port.property.1
  have hsys : SYS_PORT ≠ (e.port.val : Int) := by
    unfold SYS_PORT
    omega
  exact (if_pos hsys).trans (itoa_port e.port)

theorem options_endpoint (external : Bool) : (e.endpoint external).options = e.taoOptions := by
  have hport : ∀ p : Port, p.val ≠ 0 := fun p => Nat.one_le_iff_ne_zero.mp p.property.1
  unfold Endpoint.options taoOptions
  simp only [endpoint]
  obtain hssl | ⟨port, hssl⟩ := Option.eq_none_or_eq_some e.sslPort
  · obtain halias | ⟨host, halias⟩ := Option.eq_none_or_eq_some e.alias_
    · simp [hssl, halias]
    · simp [hssl, halias, host.render_ne_nil]
  · obtain halias | ⟨host, halias⟩ := Option.eq_none_or_eq_some e.alias_
    · simp [hssl, halias, hport port, itoa_port]
    · simp [hssl, halias, hport port, itoa_port, host.render_ne_nil]

end Writing

/-- Every word of the documented form is read as what it says, whatever the
surroundings and for both facings, and is written as the same host, port and
options in the form of TAO. -/
theorem parseString_render (e : EndpointSyntax) (world : Surroundings)
    (external outsideFacing : Bool) (asked : Nat) :
    ({ external := external } : Endpoint).parseString world e.render outsideFacing asked =
        .ok (some (e.endpoint external), asked) ∧
      (e.endpoint external).asTaoEndpoint = e.tao := by
  constructor
  · obtain ⟨hipv4, hipv6, hfix⟩ := @checked_address e world asked external
    have haddress : ({ external := external, port := e.port.val } : Endpoint).readHost
        e.host.render = e.address external := readHost_render e.host rfl
    unfold Endpoint.parseString
    rw [primaryAddr_render, splitPort_render, modifiers_render]
    simp only [Endpoint.readPort, portOr_render, haddress, hipv4, hipv6, hfix, bind,
      Except.bind, Endpoint.readAlias, optionValue_alias,
      Endpoint.readRandomAlias, after_random_alias, Option.isNone_none, if_true,
      Option.map_some, readSslPort_options]
    rfl
  · unfold Endpoint.asTaoEndpoint tao
    rw [options_endpoint, printedPort_endpoint]
    simp only [endpoint, address]
    unfold Host.render
    split_ifs with hbracketed
    · simp [hbracketed]
    · simp [hbracketed]

end EndpointSyntax

end Config

end Lorica
