import Mathlib.Data.List.DropRight
import Mathlib.Tactic

/-!
`FileConfig.cpp`: reading a configuration file into a map from keys to values,
and looking a token up again. A key is a hash of the token and not the token,
and the hash function is ACE's, so that it is a parameter here.
-/

namespace Lorica

/-- A `std::string`. -/
abbrev Text := List Char

/-- A string made from `c_str ()`: it ends at the first NUL. -/
def cStr (s : Text) : Text := s.takeWhile (· ≠ '\x00')

/-- The pieces of a text hold no separator. -/
theorem notMem_of_mem_splitOn {sep : Char} {text piece : Text}
    (h : piece ∈ text.splitOn sep) : sep ∉ piece := by
  induction text generalizing piece with
  | nil =>
      rw [List.splitOn_nil] at h
      obtain rfl := List.mem_singleton.mp h
      exact List.not_mem_nil
  | cons c text ih =>
      rw [List.splitOn_cons_eq_if_modifyHead] at h
      split at h
      · rcases List.mem_cons.mp h with rfl | h
        · exact List.not_mem_nil
        · exact ih h
      · next hc =>
          obtain ⟨first, rest, hsplit⟩ :=
            List.exists_cons_of_ne_nil (List.splitOn_ne_nil sep text)
          rw [hsplit] at ih h
          rw [List.modifyHead_cons] at h
          rcases List.mem_cons.mp h with rfl | h
          · intro hmem
            rcases List.mem_cons.mp hmem with rfl | hmem
            · exact hc (by simp)
            · exact ih (List.mem_cons_self ..) hmem
          · exact ih (List.mem_cons_of_mem _ h)

/-- `FileConfig::Configs`. A key is an `int`, given by its bits. -/
abbrev Configs := UInt32 → Option Text

namespace FileConfig

/-- The lines that `std::getline` delivers until `eof`. -/
def getlines (content : Text) : List Text := content.splitOn '\n'

/-- `rtrim (line, " ")` -/
def rtrim (line : Text) : Text := line.rdropWhile (· = ' ')

/-- What is left of a line without its comment, with every CR and tab replaced
and the blanks at its end removed. -/
def clean (line : Text) : Text :=
  rtrim ((line.takeWhile (· ≠ '#')).map fun c => if c = '\r' ∨ c = '\t' then ' ' else c)

/-- The token and the value of a line, or none if `load` goes on to the next
line. The value begins right after the first blank. -/
def parseLine (line : Text) : Option (Text × Text) :=
  match (clean line).span (· ≠ ' ') with
  | (_, []) => none
  | (_, [_]) => none
  | (token, _ :: curVal) => some (token, curVal)

/-- A new value behind the value so far. -/
def append (accruVal curVal : Text) : Text :=
  if accruVal = [] then curVal else accruVal ++ ' ' :: curVal

section Definitions

variable (hashPjw : Text → UInt64)

/-- `ACE::hash_pjw (token.c_str ())`, cut down to an `int` -/
def key (token : Text) : UInt32 := (hashPjw (cStr token)).toUInt32

def extract (configs : Configs) (token dflt : Text) : Text :=
  (configs (key hashPjw token)).getD dflt

def insert (configs : Configs) (token value : Text) : Configs :=
  Function.update configs (key hashPjw token) (some (cStr value))

/-- One turn of the loop in `load`. -/
def addLine (configs : Configs) (line : Text) : Configs :=
  match parseLine line with
  | none => configs
  | some (token, curVal) =>
      insert hashPjw configs token (append (extract hashPjw configs token []) curVal)

/-- `load` of a file with this content, from a map that `unload` cleared. -/
def load (content : Text) : Configs :=
  (getlines content).foldl (addLine hashPjw) fun _ => none

def getValue (content token dflt : Text) : Text :=
  extract hashPjw (load hashPjw content) token dflt

end Definitions

/-! ## What a key holds after `load` -/

section Lookup

variable {hashPjw : Text → UInt64}

/-- The value a key holds once another one is added. -/
def accrue (old : Option Text) (curVal : Text) : Option Text :=
  some (cStr (append (old.getD []) curVal))

/-- The values of the lines whose token has the key. -/
def valuesAt (hashPjw : Text → UInt64) (k : UInt32) (lines : List Text) : List Text :=
  lines.filterMap fun line =>
    (parseLine line).bind fun setting =>
      if key hashPjw setting.1 = k then some setting.2 else none

theorem addLine_apply (configs : Configs) (line : Text) (k : UInt32) :
    addLine hashPjw configs line k =
      (valuesAt hashPjw k [line]).foldl accrue (configs k) := by
  unfold addLine valuesAt
  cases hline : parseLine line with
  | none => simp [hline]
  | some setting =>
      obtain ⟨token, curVal⟩ := setting
      by_cases hk : key hashPjw token = k
      · subst hk
        simp [hline, insert, extract, accrue]
      · simp [hline, insert, hk, Ne.symm hk]

/-- Only the lines with its key matter to a key. -/
theorem foldl_addLine_apply (lines : List Text) (configs : Configs) (k : UInt32) :
    lines.foldl (addLine hashPjw) configs k =
      (valuesAt hashPjw k lines).foldl accrue (configs k) := by
  induction lines generalizing configs with
  | nil => rfl
  | cons line lines ih =>
      have hsplit : valuesAt hashPjw k (line :: lines) =
          valuesAt hashPjw k [line] ++ valuesAt hashPjw k lines :=
        List.filterMap_append (l := [line])
      rw [List.foldl_cons, ih, addLine_apply, hsplit, List.foldl_append]

theorem getValue_eq (content token dflt : Text) :
    getValue hashPjw content token dflt =
      ((valuesAt hashPjw (key hashPjw token) (getlines content)).foldl accrue
        none).getD dflt := by
  unfold getValue extract load
  rw [foldl_addLine_apply]

end Lookup

end FileConfig

end Lorica
