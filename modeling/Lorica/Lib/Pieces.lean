import Mathlib.Tactic

/-!
Splitting a text at a separator: a cursor that goes from one separator to the
next, the pieces it passes, and the words, which are the longest runs without a
separator.
-/

namespace Machine

variable {α : Type}

/-! ## The cursor -/

section Cursor

variable [DecidableEq α]

/-- The index of the first separator from `pos` on. -/
def findFrom (sep : α) (text : List α) (pos : Nat) : Option Nat :=
  if sep ∈ text.drop pos then some (pos + (text.drop pos).idxOf sep) else none

variable {sep : α} {text : List α} {pos tpos : Nat}

theorem findFrom_bounds (h : findFrom sep text pos = some tpos) :
    pos ≤ tpos ∧ tpos < text.length := by
  unfold findFrom at h
  split_ifs at h with hmem
  cases h
  have hlt := List.idxOf_lt_length_of_mem hmem
  rw [List.length_drop] at hlt
  omega

/-- Behind the last separator there is one piece. -/
theorem splitOn_drop_of_none (h : findFrom sep text pos = none) :
    (text.drop pos).splitOn sep = [text.drop pos] := by
  unfold findFrom at h
  split_ifs at h with hmem
  exact List.splitOn_eq_singleton hmem

/-- In front of a separator the first piece ends there, and the others are those
behind it. -/
theorem splitOn_drop_of_some (h : findFrom sep text pos = some tpos) :
    (text.drop pos).splitOn sep =
      (text.drop pos).take (tpos - pos) :: (text.drop (tpos + 1)).splitOn sep := by
  unfold findFrom at h
  split_ifs at h with hmem
  cases h
  have hlt := List.idxOf_lt_length_of_mem hmem
  have hfront : sep ∉ (text.drop pos).take ((text.drop pos).idxOf sep) := by
    intro htake
    obtain ⟨i, hi, heq⟩ := List.mem_iff_getElem.mp htake
    rw [List.length_take] at hi
    rw [List.getElem_take] at heq
    have hother := List.not_of_lt_findIdx (lt_min_iff.mp hi).1
    simp [heq] at hother
  have hsplit : (text.drop pos).take ((text.drop pos).idxOf sep) ++
      sep :: (text.drop pos).drop ((text.drop pos).idxOf sep + 1) = text.drop pos := by
    conv_rhs => rw [← List.take_append_drop ((text.drop pos).idxOf sep) (text.drop pos)]
    rw [List.drop_eq_getElem_cons hlt, List.getElem_idxOf]
  calc (text.drop pos).splitOn sep
      = ((text.drop pos).take ((text.drop pos).idxOf sep) ++
          sep :: (text.drop pos).drop ((text.drop pos).idxOf sep + 1)).splitOn sep := by
        rw [hsplit]
    _ = (text.drop pos).take ((text.drop pos).idxOf sep) ::
          ((text.drop pos).drop ((text.drop pos).idxOf sep + 1)).splitOn sep :=
        List.splitOn_append_cons_self_of_not_mem hfront _
    _ = _ := by
        rw [Nat.add_sub_cancel_left, List.drop_drop, Nat.add_assoc]

end Cursor

/-! ## Words -/

section Words

/-- The words of a text, in order. -/
inductive Worded (sep : α) : List α → List (List α) → Prop
  | blank (n : Nat) : Worded sep (List.replicate n sep) []
  | word (n : Nat) {w rest : List α} {ws : List (List α)} (hne : w ≠ []) (hsep : sep ∉ w)
      (hrest : rest ≠ [] → rest.head? = some sep) (h : Worded sep rest ws) :
      Worded sep (List.replicate n sep ++ (w ++ rest)) (w :: ws)

variable {sep : α}

theorem Worded.sep_cons {text : List α} {ws : List (List α)} (h : Worded sep text ws) :
    Worded sep (sep :: text) ws := by
  cases h with
  | blank n => exact .blank (n + 1)
  | word n hne hsep hrest h => exact .word (n + 1) hne hsep hrest h

/-- In front of a text another character begins a word or lengthens the first one. -/
theorem Worded.exists_cons {text : List α} {ws : List (List α)} (h : Worded sep text ws)
    {c : α} (hc : c ≠ sep) : ∃ ws', Worded sep (c :: text) ws' := by
  have hone : sep ∉ [c] := by simpa using hc.symm
  cases h with
  | blank n =>
      refine ⟨_, .word 0 (List.cons_ne_nil c []) hone ?_ (.blank n)⟩
      intro hne
      obtain ⟨n, rfl⟩ := Nat.exists_eq_succ_of_ne_zero fun hzero : n = 0 => hne (by simp [hzero])
      rfl
  | @word n w rest ws hne hsep hrest h =>
      cases n with
      | zero =>
          have hlonger : sep ∉ c :: w := by simpa using ⟨hc.symm, hsep⟩
          exact ⟨_, .word 0 (List.cons_ne_nil c w) hlonger hrest h⟩
      | succ n =>
          exact ⟨_, .word 0 (List.cons_ne_nil c []) hone (fun _ => rfl)
            (.word (n + 1) hne hsep hrest h)⟩

theorem exists_worded (text : List α) : ∃ ws, Worded sep text ws := by
  induction text with
  | nil => exact ⟨[], .blank 0⟩
  | cons c text ih =>
      obtain ⟨ws, hws⟩ := ih
      rcases eq_or_ne c sep with rfl | hc
      · exact ⟨ws, hws.sep_cons⟩
      · exact hws.exists_cons hc

variable [DecidableEq α]

/-- The pieces that are not empty. -/
def words (sep : α) (text : List α) : List (List α) := (text.splitOn sep).filter (· ≠ [])

theorem words_append_sep (sep : α) (x y : List α) :
    words sep (x ++ sep :: y) = words sep x ++ words sep y := by
  unfold words
  rw [List.splitOn_append_cons_self, List.filter_append]

theorem words_of_notMem {w : List α} (hne : w ≠ []) (hsep : sep ∉ w) : words sep w = [w] := by
  unfold words
  rw [List.splitOn_eq_singleton hsep]
  simpa using hne

@[simp] theorem words_nil : words sep ([] : List α) = [] := by simp [words]

theorem words_sep_cons (text : List α) : words sep (sep :: text) = words sep text := by
  simpa using words_append_sep sep [] text

theorem words_replicate_append (n : Nat) (text : List α) :
    words sep (List.replicate n sep ++ text) = words sep text := by
  induction n with
  | zero => rfl
  | succ n ih => rw [List.replicate_succ, List.cons_append, words_sep_cons, ih]

theorem Worded.eq_words {text : List α} {ws : List (List α)} (h : Worded sep text ws) :
    ws = words sep text := by
  induction h with
  | blank n => simpa using (@words_replicate_append _ sep _ n []).symm
  | @word n w rest ws hne hsep hrest h ih =>
      rw [words_replicate_append]
      cases rest with
      | nil => simpa [ih] using (words_of_notMem hne hsep).symm
      | cons c rest =>
          obtain rfl : c = sep := by simpa using hrest
          rw [words_append_sep, words_of_notMem hne hsep, ih, words_sep_cons]
          rfl

/-- A text has one list of words. -/
theorem worded_iff {text : List α} {ws : List (List α)} :
    Worded sep text ws ↔ ws = words sep text := by
  constructor
  · exact Worded.eq_words
  · rintro rfl
    obtain ⟨ws, hws⟩ : ∃ ws, Worded sep text ws := exists_worded text
    exact hws.eq_words ▸ hws

end Words

end Machine
