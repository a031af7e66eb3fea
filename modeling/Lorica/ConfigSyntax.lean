import Lorica.FileConfig

/-!
What a configuration file says and what `load` makes of it. A file is a list
of lines of three kinds; a setting has a token, white space, a value and
possibly more white space and a comment. Between the file and `get_value` lies
the text of the file.
-/

namespace Lorica

namespace FileConfig

/-- A white space character of the configuration syntax. -/
def IsBlank (c : Char) : Prop := c = ' ' ∨ c = '\t' ∨ c = '\r'

instance (c : Char) : Decidable (IsBlank c) :=
  inferInstanceAs (Decidable (_ ∨ _ ∨ _))

/-- Characters that can stand in a token. -/
def InToken (c : Char) : Prop := ¬ IsBlank c ∧ c ≠ '#' ∧ c ≠ '\n'

instance (c : Char) : Decidable (InToken c) :=
  inferInstanceAs (Decidable (_ ∧ _ ∧ _))

/-- Characters that can stand in a value; at its ends a blank cannot. -/
def InValue (c : Char) : Prop :=
  c ≠ '#' ∧ c ≠ '\t' ∧ c ≠ '\r' ∧ c ≠ '\x00' ∧ c ≠ '\n'

instance (c : Char) : Decidable (InValue c) :=
  inferInstanceAs (Decidable (_ ∧ _ ∧ _ ∧ _ ∧ _))

structure Setting where
  token : Text
  separator : Text
  value : Text
  trailing : Text
  comment : Option Text
  token_chars : ∀ c ∈ token, InToken c
  separator_ne : separator ≠ []
  separator_chars : ∀ c ∈ separator, c = ' ' ∨ c = '\t'
  value_chars : ∀ c ∈ value, InValue c
  value_ne : value ≠ []
  value_head : value.head value_ne ≠ ' '
  value_last : value.getLast value_ne ≠ ' '
  trailing_chars : ∀ c ∈ trailing, IsBlank c
  comment_chars : ∀ c ∈ comment.getD [], c ≠ '\n'

inductive ConfLine where
  | blank (space : Text) (h : ∀ c ∈ space, IsBlank c)
  | comment (space text : Text) (h : ∀ c ∈ space, IsBlank c) (htext : ∀ c ∈ text, c ≠ '\n')
  | setting (s : Setting)

def Setting.render (s : Setting) : Text :=
  s.token ++ s.separator ++ s.value ++ s.trailing ++
    s.comment.elim [] ('#' :: ·)

def ConfLine.render : ConfLine → Text
  | .blank space _ => space
  | .comment space text _ _ => space ++ '#' :: text
  | .setting s => s.render

/-- The file with these lines. -/
def unlines (lines : List ConfLine) : Text :=
  ['\n'].intercalate (lines.map ConfLine.render)

/-- The settings of a token, in file order. -/
def settingsOf (token : Text) (lines : List ConfLine) : List Setting :=
  lines.filterMap fun
    | .setting s => if s.token = token then some s else none
    | _ => none

/-- Values joined by single blanks, if there are any. -/
def joined (dflt : Text) : List Text → Text
  | [] => dflt
  | v :: vs => [' '].intercalate (v :: vs)

/-- What the file says about a token. -/
def stated (lines : List ConfLine) (token dflt : Text) : Text :=
  joined dflt ((settingsOf token lines).map Setting.value)

/-- `get_value` returns what the file says. -/
def RoundTrip (hashPjw : Text → UInt64) (lines : List ConfLine) (token dflt : Text) :
    Prop :=
  getValue hashPjw (unlines lines) token dflt = stated lines token dflt

/-! ## Reading one line -/

section Lines

/-- CR and tab become blanks. -/
def toBlank (c : Char) : Char := if c = '\r' ∨ c = '\t' then ' ' else c

theorem toBlank_isBlank {c : Char} (h : IsBlank c) : toBlank c = ' ' := by
  rcases h with rfl | rfl | rfl <;> rfl

theorem toBlank_eq_self {c : Char} (hr : c ≠ '\r') (ht : c ≠ '\t') : toBlank c = c := by
  simp [toBlank, hr, ht]

theorem map_toBlank_isBlank {space : Text} (h : ∀ c ∈ space, IsBlank c) :
    space.map toBlank = List.replicate space.length ' ' := by
  rw [List.eq_replicate_iff]
  refine ⟨List.length_map _, ?_⟩
  intro c hc
  obtain ⟨b, hb, rfl⟩ := List.mem_map.mp hc
  exact toBlank_isBlank (h b hb)

theorem map_toBlank_eq_self {text : Text} (h : ∀ c ∈ text, c ≠ '\r' ∧ c ≠ '\t') :
    text.map toBlank = text := by
  calc text.map toBlank = text.map id :=
        List.map_congr_left fun c hc => toBlank_eq_self (h c hc).1 (h c hc).2
    _ = text := List.map_id text

/-- The comment goes, from its first `#` on. -/
theorem takeWhile_comment {text rest : Text} (h : ∀ c ∈ text, c ≠ '#')
    (hrest : rest = [] ∨ ∃ comment, rest = '#' :: comment) :
    (text ++ rest).takeWhile (· ≠ '#') = text := by
  rw [List.takeWhile_append_of_pos (by simpa using h)]
  rcases hrest with rfl | ⟨comment, rfl⟩
  · simp
  · simp

theorem rtrim_append_blanks (text : Text) (n : Nat) :
    rtrim (text ++ List.replicate n ' ') = rtrim text := by
  have hblanks : ∀ c ∈ List.replicate n ' ', decide (c = ' ') = true := by
    intro c hc
    rw [List.eq_of_mem_replicate hc]
    rfl
  unfold rtrim List.rdropWhile
  rw [List.reverse_append, List.reverse_replicate, List.dropWhile_append_of_pos hblanks]

/-- Trailing white space and the comment leave no trace. -/
theorem clean_append {text space rest : Text} (htext : ∀ c ∈ text, c ≠ '#')
    (hspace : ∀ c ∈ space, IsBlank c)
    (hrest : rest = [] ∨ ∃ comment, rest = '#' :: comment) :
    clean (text ++ space ++ rest) = rtrim (text.map toBlank) := by
  have hall : ∀ c ∈ text ++ space, c ≠ '#' := by
    intro c hc
    rcases List.mem_append.mp hc with hc | hc
    · exact htext c hc
    · rcases hspace c hc with rfl | rfl | rfl <;> decide
  calc clean (text ++ space ++ rest) = rtrim ((text ++ space).map toBlank) := by
        unfold clean
        rw [takeWhile_comment hall hrest]
        rfl
    _ = rtrim (text.map toBlank) := by
        rw [List.map_append, map_toBlank_isBlank hspace, rtrim_append_blanks]

theorem parseLine_blank {space rest : Text} (hspace : ∀ c ∈ space, IsBlank c)
    (hrest : rest = [] ∨ ∃ comment, rest = '#' :: comment) :
    parseLine (space ++ rest) = none := by
  have hclean : clean (space ++ rest) = [] :=
    clean_append (fun c hc => absurd hc List.not_mem_nil) hspace hrest
  unfold parseLine
  rw [hclean]
  rfl

/-- A line that begins with a word, a blank and something more. -/
theorem parseLine_of_clean {line token curVal : Text} (htoken : ∀ c ∈ token, c ≠ ' ')
    (hne : curVal ≠ []) (hclean : clean line = token ++ ' ' :: curVal) :
    parseLine line = some (token, curVal) := by
  have hspan : (clean line).span (· ≠ ' ') = (token, ' ' :: curVal) := by
    rw [hclean, List.span_eq_takeWhile_dropWhile,
      List.takeWhile_append_of_pos (by simpa using htoken),
      List.dropWhile_append_of_pos (by simpa using htoken)]
    simp
  obtain ⟨c, rest, rfl⟩ := List.exists_cons_of_ne_nil hne
  unfold parseLine
  rw [hspan]

end Lines

/-! ## Settings -/

namespace Setting

variable (s : Setting)

/-- The blanks of the separator that `load` leaves in front of the value. -/
def padding : Text := List.replicate (s.separator.length - 1) ' '

theorem separator_length_pos : 0 < s.separator.length :=
  List.length_pos_iff.mpr s.separator_ne

theorem clean_render : clean s.render = s.token ++ ' ' :: (s.padding ++ s.value) := by
  have htext : ∀ c ∈ s.token ++ s.separator ++ s.value, c ≠ '#' := by
    intro c hc
    simp only [List.mem_append] at hc
    rcases hc with (hc | hc) | hc
    · exact (s.token_chars c hc).2.1
    · rcases s.separator_chars c hc with rfl | rfl <;> decide
    · exact (s.value_chars c hc).1
  have hrest : s.comment.elim [] ('#' :: ·) = [] ∨
      ∃ comment, s.comment.elim [] ('#' :: ·) = '#' :: comment := by
    cases s.comment with
    | none => exact .inl rfl
    | some comment => exact .inr ⟨comment, rfl⟩
  have htoken : s.token.map toBlank = s.token := by
    apply map_toBlank_eq_self
    intro c hc
    have hblank := (s.token_chars c hc).1
    exact ⟨fun h => hblank (.inr (.inr h)), fun h => hblank (.inr (.inl h))⟩
  have hvalue : s.value.map toBlank = s.value :=
    map_toBlank_eq_self fun c hc => ⟨(s.value_chars c hc).2.2.1, (s.value_chars c hc).2.1⟩
  have hseparator : s.separator.map toBlank = ' ' :: s.padding := by
    rw [map_toBlank_isBlank fun c hc => (s.separator_chars c hc).imp_right .inl]
    unfold padding
    rw [← List.replicate_succ, Nat.sub_add_cancel s.separator_length_pos]
  have hlast : rtrim (s.token ++ ' ' :: (s.padding ++ s.value)) =
      s.token ++ ' ' :: (s.padding ++ s.value) := by
    unfold rtrim
    rw [List.rdropWhile_eq_self_iff]
    intro hne
    rw [List.getLast_append_of_ne_nil _ (List.cons_ne_nil _ _)]
    simp [s.value_ne, s.value_last]
  unfold render
  rw [clean_append htext s.trailing_chars hrest, List.map_append, List.map_append, htoken,
    hseparator, hvalue, List.append_assoc, List.cons_append, hlast]

/-- The token comes back as written, the value with the rest of the separator
in front. -/
theorem parseLine_render : parseLine s.render = some (s.token, s.padding ++ s.value) := by
  apply parseLine_of_clean _ _ s.clean_render
  · exact fun c hc heq => (s.token_chars c hc).1 (.inl heq)
  · simp [s.value_ne]

end Setting

/-! ## Reading a file -/

section Files

variable {hashPjw : Text → UInt64} {lines : List ConfLine} {token dflt : Text}

theorem render_no_newline (line : ConfLine) : '\n' ∉ line.render := by
  have hblank : ∀ c, IsBlank c → c ≠ '\n' := by
    rintro c (rfl | rfl | rfl) <;> decide
  intro hmem
  cases line with
  | blank space h => exact hblank _ (h _ hmem) rfl
  | comment space text h htext =>
      rcases List.mem_append.mp hmem with hmem | hmem
      · exact hblank _ (h _ hmem) rfl
      · rcases List.mem_cons.mp hmem with heq | hmem
        · exact absurd heq (by decide)
        · exact htext _ hmem rfl
  | setting s =>
      simp only [ConfLine.render, Setting.render, List.mem_append] at hmem
      rcases hmem with (((hmem | hmem) | hmem) | hmem) | hmem
      · exact (s.token_chars _ hmem).2.2 rfl
      · rcases s.separator_chars _ hmem with heq | heq
        · exact absurd heq (by decide)
        · exact absurd heq (by decide)
      · exact (s.value_chars _ hmem).2.2.2.2 rfl
      · exact hblank _ (s.trailing_chars _ hmem) rfl
      · have hcomment := s.comment_chars
        cases hs : s.comment with
        | none => simp [hs] at hmem
        | some comment =>
            rw [hs] at hmem hcomment
            rcases List.mem_cons.mp hmem with heq | hmem
            · exact absurd heq (by decide)
            · exact hcomment _ hmem rfl

/-- The token and value that a line of the file gives to `load`. -/
def ConfLine.parsed : ConfLine → Option (Text × Text)
  | .setting s => some (s.token, s.padding ++ s.value)
  | _ => none

theorem parseLine_line (line : ConfLine) : parseLine line.render = line.parsed := by
  cases line with
  | blank space h =>
      have hnone := parseLine_blank h (.inl rfl : ([] : Text) = [] ∨ _)
      rw [List.append_nil] at hnone
      exact hnone
  | comment space text h htext => exact parseLine_blank h (.inr ⟨text, rfl⟩)
  | setting s => exact s.parseLine_render

theorem getlines_unlines (h : lines ≠ []) :
    getlines (unlines lines) = lines.map ConfLine.render := by
  apply List.splitOn_intercalate
  · intro l hl
    obtain ⟨line, -, rfl⟩ := List.mem_map.mp hl
    exact render_no_newline line
  · simpa using h

/-- The values under the key of a token that shares it with no other token of
the file. -/
theorem valuesAt_unlines
    (hcollide : ∀ s, .setting s ∈ lines →
      key hashPjw s.token = key hashPjw token → s.token = token) :
    valuesAt hashPjw (key hashPjw token) (getlines (unlines lines)) =
      (settingsOf token lines).map fun s => s.padding ++ s.value := by
  rcases eq_or_ne lines [] with rfl | hne
  · rfl
  · rw [getlines_unlines hne]
    unfold valuesAt settingsOf
    rw [List.filterMap_map, List.map_filterMap]
    apply List.filterMap_congr
    intro line hline
    simp only [Function.comp_apply, parseLine_line]
    cases line with
    | blank space h => rfl
    | comment space text h htext => rfl
    | setting s =>
        have hiff : key hashPjw s.token = key hashPjw token ↔ s.token = token :=
          ⟨hcollide s hline, fun h => by rw [h]⟩
        simp only [ConfLine.parsed, Option.bind_some, hiff]
        split <;> rfl

end Files

/-! ## Values joined -/

section Values

/-- A value that `c_str` copies whole. -/
def Whole (v : Text) : Prop := v ≠ [] ∧ ∀ c ∈ v, c ≠ '\x00'

theorem cStr_eq_self {v : Text} (h : ∀ c ∈ v, c ≠ '\x00') : cStr v = v :=
  List.takeWhile_eq_self_iff.mpr (by simpa using h)

theorem accrue_some {old v : Text} (hold : Whole old) (hv : Whole v) :
    accrue (some old) v = some (old ++ ' ' :: v) ∧ Whole (old ++ ' ' :: v) := by
  have hchars : ∀ c ∈ old ++ ' ' :: v, c ≠ '\x00' := by
    intro c hc
    rcases List.mem_append.mp hc with hc | hc
    · exact hold.2 c hc
    · rcases List.mem_cons.mp hc with rfl | hc
      · decide
      · exact hv.2 c hc
  constructor
  · unfold accrue append
    rw [Option.getD_some, if_neg hold.1, cStr_eq_self hchars]
  · exact ⟨by simp, hchars⟩

theorem foldl_accrue_some {vs : List Text} {old : Text} (hold : Whole old)
    (hvs : ∀ v ∈ vs, Whole v) :
    vs.foldl accrue (some old) = some ([' '].intercalate (old :: vs)) := by
  induction vs generalizing old with
  | nil => rw [List.intercalate_singleton]; rfl
  | cons v vs ih =>
      obtain ⟨hstep, hwhole⟩ := accrue_some hold (hvs v (List.mem_cons_self ..))
      rw [List.foldl_cons, hstep, ih hwhole fun w hw => hvs w (List.mem_cons_of_mem _ hw)]
      cases vs with
      | nil => simp
      | cons w vs => simp

theorem foldl_accrue {vs : List Text} (hvs : ∀ v ∈ vs, Whole v) (dflt : Text) :
    (vs.foldl accrue none).getD dflt = joined dflt vs := by
  cases vs with
  | nil => rfl
  | cons v vs =>
      have hv := hvs v (List.mem_cons_self ..)
      have hfirst : accrue none v = some v := by
        unfold accrue append
        rw [Option.getD_none, if_pos rfl, cStr_eq_self hv.2]
      rw [List.foldl_cons, hfirst,
        foldl_accrue_some hv fun w hw => hvs w (List.mem_cons_of_mem _ hw)]
      rfl

end Values

/-! ## The round trip -/

section RoundTrip

/-- A separator of one character. -/
def Setting.Tight (s : Setting) : Prop := s.separator.length = 1

theorem Setting.padding_eq_nil_iff (s : Setting) : s.padding = [] ↔ s.Tight := by
  have hpos := s.separator_length_pos
  unfold padding Tight
  rw [List.replicate_eq_nil_iff]
  omega

theorem Setting.whole_padded (s : Setting) : Whole (s.padding ++ s.value) := by
  constructor
  · simp [s.value_ne]
  · intro c hc
    rcases List.mem_append.mp hc with hc | hc
    · rw [List.eq_of_mem_replicate hc]
      decide
    · exact (s.value_chars c hc).2.2.2.1

theorem length_intercalate_le (settings : List Setting) :
    ([' '].intercalate (settings.map Setting.value)).length ≤
      ([' '].intercalate (settings.map fun s => s.padding ++ s.value)).length := by
  induction settings with
  | nil => rfl
  | cons s rest ih =>
      cases rest with
      | nil => simp
      | cons s' rest =>
          simp only [List.map_cons, List.intercalate_cons_cons, List.length_append] at ih ⊢
          omega

/-- The joined values differ in length as soon as one of them is padded. -/
theorem intercalate_padded_iff (settings : List Setting) :
    [' '].intercalate (settings.map fun s => s.padding ++ s.value) =
        [' '].intercalate (settings.map Setting.value) ↔
      ∀ s ∈ settings, s.padding = [] := by
  constructor
  · intro h
    induction settings with
    | nil => exact fun s hs => absurd hs List.not_mem_nil
    | cons s rest ih =>
        cases rest with
        | nil => simpa using h
        | cons s' rest =>
            have hle := length_intercalate_le (s' :: rest)
            have hlength := congrArg List.length h
            simp only [List.map_cons, List.intercalate_cons_cons, List.length_append]
              at hlength hle
            have hpadding : s.padding = [] := by
              rw [← List.length_eq_zero_iff]
              omega
            simp only [List.map_cons, List.intercalate_cons_cons, hpadding, List.nil_append,
              List.append_assoc, List.append_cancel_left_eq] at h
            intro x hx
            rcases List.mem_cons.mp hx with rfl | hx
            · exact hpadding
            · exact ih (by simpa using h) x hx
  · intro h
    congr 1
    apply List.map_congr_left
    intro s hs
    rw [h s hs, List.nil_append]

theorem mem_settingsOf {lines : List ConfLine} {token : Text} {s : Setting} :
    s ∈ settingsOf token lines ↔ .setting s ∈ lines ∧ s.token = token := by
  unfold settingsOf
  rw [List.mem_filterMap]
  constructor
  · rintro ⟨line, hline, hsome⟩
    cases line with
    | blank space h => exact absurd hsome (by simp)
    | comment space text h htext => exact absurd hsome (by simp)
    | setting s' =>
        obtain ⟨htoken, heq⟩ := Option.ite_none_right_eq_some.mp hsome
        obtain rfl := Option.some.inj heq
        exact ⟨hline, htoken⟩
  · rintro ⟨hline, htoken⟩
    exact ⟨_, hline, if_pos htoken⟩

/-- For every file of lines of the three kinds, every token, default and hash
that keeps the token apart from the others of the file: `get_value` returns
what the file says exactly when each line of the token has a single character
between token and value. -/
theorem roundTrip_iff_tight (hashPjw : Text → UInt64) (lines : List ConfLine)
    (token dflt : Text)
    (hcollide : ∀ s, .setting s ∈ lines →
      key hashPjw s.token = key hashPjw token → s.token = token) :
    RoundTrip hashPjw lines token dflt ↔
      ∀ s, .setting s ∈ lines → s.token = token → s.Tight := by
  have hpadded : ∀ v ∈ (settingsOf token lines).map fun s => s.padding ++ s.value,
      Whole v := by
    intro v hv
    obtain ⟨s, -, rfl⟩ := List.mem_map.mp hv
    exact s.whole_padded
  have hread : getValue hashPjw (unlines lines) token dflt =
      joined dflt ((settingsOf token lines).map fun s => s.padding ++ s.value) := by
    rw [getValue_eq, valuesAt_unlines hcollide, foldl_accrue hpadded]
  have hall : (∀ s, .setting s ∈ lines → s.token = token → s.Tight) ↔
      ∀ s ∈ settingsOf token lines, s.padding = [] := by
    simp only [mem_settingsOf, Setting.padding_eq_nil_iff, and_imp]
  unfold RoundTrip stated
  rw [hread, hall, ← intercalate_padded_iff]
  cases settingsOf token lines with
  | nil => simp
  | cons s rest => exact Iff.rfl

/-- `ACE::hash_pjw`, for concrete files. -/
def acePjw (s : Text) : UInt64 :=
  s.foldl (fun hash c =>
    let hash := (hash <<< 4) + UInt64.ofNat c.toNat * 13
    let g := hash &&& 0xf0000000
    if g = 0 then hash else hash ^^^ (g >>> 24) ^^^ g) 0

/-- `ORB_Option -ORBDebug` with this white space in between. -/
def sampleSetting (separator : Text) (hne : separator ≠ [])
    (hchars : ∀ c ∈ separator, c = ' ' ∨ c = '\t') : Setting where
  token := "ORB_Option".toList
  separator := separator
  value := "-ORBDebug".toList
  trailing := []
  comment := none
  token_chars := by simp [InToken, IsBlank]
  separator_ne := hne
  separator_chars := hchars
  value_chars := by simp [InValue]
  value_ne := by decide
  value_head := by decide
  value_last := by decide
  trailing_chars := by simp
  comment_chars := by simp

theorem roundTrip_single_blank :
    RoundTrip acePjw [.setting (sampleSetting [' '] (by decide) (by simp))]
      "ORB_Option".toList [] := by
  refine (roundTrip_iff_tight _ _ _ _ ?_).mpr ?_
  · intro s hs _
    obtain rfl := ConfLine.setting.inj (List.mem_singleton.mp hs)
    rfl
  · intro s hs _
    obtain rfl := ConfLine.setting.inj (List.mem_singleton.mp hs)
    rfl

/-- With two blanks the value of `ORB_Option` begins with one of them. -/
theorem not_roundTrip_two_blanks :
    ¬ RoundTrip acePjw [.setting (sampleSetting [' ', ' '] (by decide) (by simp))]
      "ORB_Option".toList [] := by
  unfold RoundTrip
  have hread : getValue acePjw
      (unlines [.setting (sampleSetting [' ', ' '] (by decide) (by simp))])
      "ORB_Option".toList [] = " -ORBDebug".toList := by decide +kernel
  rw [hread]
  decide

end RoundTrip

/-! ## Interference between tokens -/

section Interference

/-- The lines with a token. -/
def linesWith (token : Text) (content : Text) : List Text :=
  (getlines content).filter fun line => (parseLine line).map Prod.fst = some token

/-- The tokens of the settings in a file. -/
def tokens (content : Text) : List Text :=
  (getlines content).filterMap fun line => (parseLine line).map Prod.fst

/-- Among files with tokens from a set, the value of `token` depends on the
lines with that token alone. -/
def Separate (hashPjw : Text → UInt64) (allowed : Set Text) (token : Text) : Prop :=
  ∀ f₁ f₂ dflt : Text, (∀ t ∈ tokens f₁, t ∈ allowed) → (∀ t ∈ tokens f₂, t ∈ allowed) →
    linesWith token f₁ = linesWith token f₂ →
    getValue hashPjw f₁ token dflt = getValue hashPjw f₂ token dflt

theorem mem_clean {line : Text} {c : Char} (hline : '\n' ∉ line) (hc : c ∈ clean line) :
    c ≠ '#' ∧ c ≠ '\t' ∧ c ≠ '\r' ∧ c ≠ '\n' := by
  obtain ⟨b, hb, rfl⟩ := List.mem_map.mp ((List.rdropWhile_prefix _ _).subset hc)
  have hhash : b ≠ '#' := by simpa using List.mem_takeWhile_imp hb
  have hnewline : b ≠ '\n' := by
    rintro rfl
    exact hline ((List.takeWhile_prefix _).subset hb)
  split
  · decide
  · next h =>
      push Not at h
      exact ⟨hhash, h.2, h.1, hnewline⟩

theorem parseLine_token {line token curVal : Text} (hline : '\n' ∉ line)
    (h : parseLine line = some (token, curVal)) : ∀ c ∈ token, InToken c := by
  have htoken : token = (clean line).takeWhile (· ≠ ' ') := by
    unfold parseLine at h
    rw [List.span_eq_takeWhile_dropWhile] at h
    split at h
    · cases h
    · cases h
    · next heq =>
        obtain ⟨rfl, -⟩ := Prod.mk.inj (Option.some.inj h)
        exact (Prod.mk.inj heq).1.symm
  subst htoken
  intro c hc
  have hspace : c ≠ ' ' := by simpa using List.mem_takeWhile_imp hc
  obtain ⟨hhash, htab, hcr, hnewline⟩ := mem_clean hline ((List.takeWhile_prefix _).subset hc)
  refine ⟨?_, hhash, hnewline⟩
  rintro (h | h | h)
  · exact hspace h
  · exact htab h
  · exact hcr h

variable {hashPjw : Text → UInt64} {allowed : Set Text} {token : Text}

/-- Without a collision the key belongs to the lines with the token. -/
theorem valuesAt_linesWith {content : Text} (hallowed : ∀ t ∈ tokens content, t ∈ allowed)
    (hcollide : ∀ t ∈ allowed, (∀ c ∈ t, InToken c) → key hashPjw t = key hashPjw token →
      t = token) :
    valuesAt hashPjw (key hashPjw token) (getlines content) =
      (linesWith token content).filterMap fun line => (parseLine line).map Prod.snd := by
  unfold valuesAt linesWith
  rw [List.filterMap_filter]
  apply List.filterMap_congr
  intro line hline
  cases hparse : parseLine line with
  | none => simp
  | some setting =>
      obtain ⟨t, v⟩ := setting
      have hmem : t ∈ tokens content :=
        List.mem_filterMap.mpr ⟨line, hline, by rw [hparse]; rfl⟩
      have hiff : key hashPjw t = key hashPjw token ↔ t = token :=
        ⟨hcollide t (hallowed t hmem) (parseLine_token (notMem_of_mem_splitOn hline) hparse),
          fun h => by rw [h]⟩
      simp only [Option.bind_some, hiff, Option.map_some, Option.some.injEq]
      by_cases ht : t = token
      · simp [ht]
      · simp [ht]

/-- For every hash, every set of tokens and every token: files over the set
that agree on the lines of the token agree on its value exactly when no other
token of the set has its key. -/
theorem separate_iff_no_collision (hashPjw : Text → UInt64) (allowed : Set Text)
    (token : Text) :
    Separate hashPjw allowed token ↔
      ∀ t ∈ allowed, (∀ c ∈ t, InToken c) → key hashPjw t = key hashPjw token →
        t = token := by
  constructor
  · intro hseparate t ht hchars hkey
    by_contra hne
    -- a file with one line for the other token, against the empty file
    let s : Setting :=
      { sampleSetting [' '] (by decide) (by simp) with
        token := t
        token_chars := hchars }
    have hlines : getlines s.render = [s.render] :=
      List.splitOn_eq_singleton (render_no_newline (.setting s))
    have hparse : parseLine s.render = some (t, s.value) := s.parseLine_render
    have hvalue : getValue hashPjw s.render token [] = s.value := by
      have hat : valuesAt hashPjw (key hashPjw token) [s.render] = [s.value] := by
        simp [valuesAt, hparse, hkey]
      have hwhole : ∀ v ∈ [s.value], Whole v := by
        intro v hv
        obtain rfl := List.mem_singleton.mp hv
        exact s.whole_padded
      rw [getValue_eq, hlines, hat, foldl_accrue hwhole]
      rfl
    have hnoTokens : tokens [] = [] := rfl
    have hnoLines : linesWith token [] = [] := rfl
    have hother : linesWith token s.render = [] := by
      simp [linesWith, hlines, hparse, hne]
    have hsame := hseparate [] s.render [] (by simp [hnoTokens])
      (by simp [tokens, hlines, hparse, ht]) (hnoLines.trans hother.symm)
    rw [hvalue] at hsame
    exact s.value_ne hsame.symm
  · intro hcollide f₁ f₂ dflt hf₁ hf₂ hlines
    rw [getValue_eq, getValue_eq, valuesAt_linesWith hf₁ hcollide,
      valuesAt_linesWith hf₂ hcollide, hlines]

/-- A misspelled line switches `Null_Evaluator_Any` on. -/
theorem not_separate_misspelled :
    ¬ ∀ (hashPjw : Text → UInt64) (token f₁ f₂ dflt : Text),
      linesWith token f₁ = linesWith token f₂ →
      getValue hashPjw f₁ token dflt = getValue hashPjw f₂ token dflt := by
  intro hall
  have hsame := hall acePjw "Null_Evaluator_Any".toList [] "Oell_Evaluator_Any yes".toList []
    (by decide +kernel)
  have hvalue : getValue acePjw "Oell_Evaluator_Any yes".toList
      "Null_Evaluator_Any".toList [] = "yes".toList := by decide +kernel
  rw [hvalue] at hsame
  exact absurd hsame (by decide +kernel)

end Interference

end FileConfig

end Lorica
