import Lorica.Lib.SteeredTree

/-!
When a tree that is searched with a direction function is a search tree. The
tree grown from a list of keys is its first key over the trees grown from the
keys that are steered left of it and from those that are steered right.
-/

namespace Machine

namespace SteeredTree

variable {K V : Type*}

section Definitions

/-- The keys in their places, without the values. -/
def shape : SteeredTree K V → SteeredTree K Unit
  | leaf => leaf
  | node key _ left right => node key () left.shape right.shape

/-- Smaller keys are on the left and greater keys on the right. -/
def Sorted [LT K] : SteeredTree K V → Prop
  | leaf => True
  | node key _ left right =>
      (∀ k ∈ left.keys, k < key) ∧ (∀ k ∈ right.keys, key < k) ∧
        Sorted left ∧ Sorted right

/-- The tree made by looking up one key after the other. -/
def grow (turn : K → K → Turn) (ks : List K) : SteeredTree K Unit :=
  ks.foldl (fun t k => t.ensure turn k ()) leaf

/-- A key that comes after a smaller one, and would be steered left of it, has
been parted from it by a key that came before both. -/
def Parted [LinearOrder K] (turn : K → K → Turn) (ks : List K) : Prop :=
  ∀ pre a rest, ks = pre ++ a :: rest → ∀ b ∈ rest, turn b a = .left → a < b →
    ∃ m ∈ pre, a < m ∧ m ≤ b

end Definitions

section Shapes

variable {turn : K → K → Turn}

@[simp] theorem keys_shape (t : SteeredTree K V) : t.shape.keys = t.keys := by
  induction t with
  | leaf => rfl
  | node key value left right ihl ihr => simp only [shape, keys, ihl, ihr]

theorem sorted_shape [LT K] (t : SteeredTree K V) : t.shape.Sorted ↔ t.Sorted := by
  induction t with
  | leaf => exact Iff.rfl
  | node key value left right ihl ihr => simp only [shape, Sorted, keys_shape, ihl, ihr]

theorem shape_ensure (k : K) (value : V) (t : SteeredTree K V) :
    (t.ensure turn k value).shape = t.shape.ensure turn k () := by
  induction t with
  | leaf => rfl
  | node key value' left right ihl ihr =>
      cases h : turn k key with
      | here => simp only [ensure, h, shape]
      | left => simp only [ensure, h, shape, ihl]
      | right => simp only [ensure, h, shape, ihr]

theorem shape_modifyAt (way : List Turn) (f : V → V) (t : SteeredTree K V) :
    (t.modifyAt way f).shape = t.shape := by
  induction t generalizing way with
  | leaf => cases way <;> rfl
  | node key value left right ihl ihr =>
      match way with
      | [] => rfl
      | .here :: way => rfl
      | .left :: way => simp only [modifyAt, shape, ihl]
      | .right :: way => simp only [modifyAt, shape, ihr]

end Shapes

section Growth

variable {turn : K → K → Turn}

/-- Behind the first key each child grows on its own. -/
theorem foldl_ensure_node (key : K) (ks : List K) (left right : SteeredTree K Unit) :
    ks.foldl (fun t k => t.ensure turn k ()) (node key () left right) =
      node key ()
        ((ks.filter fun k => turn k key = .left).foldl (fun t k => t.ensure turn k ()) left)
        ((ks.filter fun k => turn k key = .right).foldl (fun t k => t.ensure turn k ()) right) := by
  induction ks generalizing left right with
  | nil => rfl
  | cons k ks ih =>
      rw [List.foldl_cons, List.filter_cons, List.filter_cons]
      cases h : turn k key with
      | here => simp [ensure, h, ih]
      | left => simp [ensure, h, ih]
      | right => simp [ensure, h, ih]

theorem grow_cons (key : K) (ks : List K) :
    grow turn (key :: ks) =
      node key () (grow turn (ks.filter fun k => turn k key = .left))
        (grow turn (ks.filter fun k => turn k key = .right)) :=
  foldl_ensure_node key ks leaf leaf

theorem mem_keys_grow (hturn : ∀ a b, turn a b = .here ↔ a = b) {k : K} {ks : List K} :
    k ∈ (grow turn ks).keys ↔ k ∈ ks := by
  have hfold : ∀ t : SteeredTree K Unit,
      k ∈ (ks.foldl (fun t k => t.ensure turn k ()) t).keys ↔ k ∈ ks ∨ k ∈ t.keys := by
    induction ks with
    | nil => simp
    | cons k' ks ih =>
        intro t
        rw [List.foldl_cons, ih, mem_keys_ensure hturn, List.mem_cons, ← or_assoc,
          or_comm (a := k ∈ ks)]
  rw [grow, hfold]
  simp [keys]

end Growth

section Search

variable [LinearOrder K] {turn : K → K → Turn}
  (hturn : ∀ a b, turn a b = .here ↔ a = b) (hright : ∀ a b, turn a b = .right → b < a)

include hturn hright in
/-- When no greater key is steered left of the first one, the keys on its two
sides are told apart by it. -/
theorem lt_first {key : K} {ks : List K}
    (hfirst : ∀ b ∈ ks, turn b key = .left → ¬ key < b) {b : K} (hb : b ∈ ks) :
    (turn b key = .left ↔ b < key) ∧ (turn b key = .right ↔ key < b) := by
  cases h : turn b key with
  | here =>
      obtain rfl := (hturn b key).mp h
      simp
  | left =>
      have hne : b ≠ key := by
        rintro rfl
        exact absurd ((hturn b b).mpr rfl) (by rw [h]; decide)
      have hlt : b < key := lt_of_le_of_ne (not_lt.mp (hfirst b hb h)) hne
      simp [hlt, hlt.le]
  | right =>
      have hlt := hright b key h
      simp [hlt, hlt.le]

/-- What is parted stays so among the keys of one side. -/
theorem Parted.filter {key : K} {ks : List K} (h : Parted turn (key :: ks))
    {side : K → Bool} (hconvex : ∀ a b m, a ∈ ks → b ∈ ks → side a → side b → a < m → m ≤ b →
      m ≠ key ∧ (m ∈ ks → side m)) : Parted turn (ks.filter side) := by
  intro pre a rest hsplit b hb hleft hlt
  obtain ⟨pre', tail, rfl, rfl, htail⟩ := List.filter_eq_append_iff.mp hsplit
  obtain ⟨skipped, rest', rfl, hskipped, ha, rfl⟩ := List.filter_eq_cons_iff.mp htail
  obtain ⟨hbrest, hbside⟩ := List.mem_filter.mp hb
  obtain ⟨m, hm, ham, hmb⟩ := h (key :: (pre' ++ skipped)) a rest' (by simp) b hbrest hleft hlt
  obtain ⟨hne, hside⟩ := hconvex a b m (by simp) (by simp [hbrest]) ha hbside ham hmb
  have hmem : m ∈ pre' ++ skipped := (List.mem_cons.mp hm).resolve_left hne
  refine ⟨m, ?_, ham, hmb⟩
  rcases List.mem_append.mp hmem with hpre | hskip
  · exact List.mem_filter.mpr ⟨hpre, hside (by simp [hpre])⟩
  · exact absurd (hside (by simp [hskip])) (hskipped m hskip)

include hturn hright in
theorem parted_cons {key : K} {ks : List K} :
    Parted turn (key :: ks) ↔
      (∀ b ∈ ks, turn b key = .left → ¬ key < b) ∧
        Parted turn (ks.filter fun k => turn k key = .left) ∧
        Parted turn (ks.filter fun k => turn k key = .right) := by
  constructor
  · intro h
    have hfirst : ∀ b ∈ ks, turn b key = .left → ¬ key < b := by
      intro b hb hleft hlt
      obtain ⟨m, hm, -⟩ := h [] key ks rfl b hb hleft hlt
      exact absurd hm List.not_mem_nil
    refine ⟨hfirst, h.filter ?_, h.filter ?_⟩
    · intro a b m _ hb _ hbside _ hmb
      have hbkey := (lt_first hturn hright hfirst hb).1.mp (of_decide_eq_true hbside)
      have hmkey := hmb.trans_lt hbkey
      exact ⟨hmkey.ne, fun hm => decide_eq_true
        ((lt_first hturn hright hfirst hm).1.mpr hmkey)⟩
    · intro a b m ha _ haside _ ham _
      have hmkey := (hright a key (of_decide_eq_true haside)).trans ham
      exact ⟨hmkey.ne', fun hm => decide_eq_true
        ((lt_first hturn hright hfirst hm).2.mpr hmkey)⟩
  · rintro ⟨hfirst, hlefts, hrights⟩ pre a rest hsplit b hb hleft hlt
    cases pre with
    | nil =>
        obtain ⟨rfl, rfl⟩ := List.cons.inj hsplit
        exact absurd hlt (hfirst b hb hleft)
    | cons _ pre =>
        obtain ⟨rfl, rfl⟩ := List.cons.inj hsplit
        have haks : a ∈ pre ++ a :: rest := by simp
        have hbks : b ∈ pre ++ a :: rest := by simp [hb]
        have hside := @lt_first _ _ _ hturn hright _ _ hfirst
        rcases lt_trichotomy b key with hbkey | hbkey | hbkey
        · have ha := (hside haks).1.mpr (hlt.trans hbkey)
          have hb' := (hside hbks).1.mpr hbkey
          obtain ⟨m, hm, hbetween⟩ := hlefts (pre.filter fun k => turn k key = .left) a
            (rest.filter fun k => turn k key = .left) (by simp [ha]) b (by simp [hb, hb'])
            hleft hlt
          exact ⟨m, List.mem_cons_of_mem _ (List.mem_filter.mp hm).1, hbetween⟩
        · exact ⟨key, List.mem_cons_self .., hbkey ▸ hlt, hbkey.ge⟩
        · rcases lt_trichotomy a key with hakey | rfl | hakey
          · exact ⟨key, List.mem_cons_self .., hakey, hbkey.le⟩
          · exact absurd hlt (hfirst b hbks hleft)
          · have ha := (hside haks).2.mpr hakey
            have hb' := (hside hbks).2.mpr hbkey
            obtain ⟨m, hm, hbetween⟩ := hrights (pre.filter fun k => turn k key = .right) a
              (rest.filter fun k => turn k key = .right) (by simp [ha]) b (by simp [hb, hb'])
              hleft hlt
            exact ⟨m, List.mem_cons_of_mem _ (List.mem_filter.mp hm).1, hbetween⟩

include hturn hright in
/-- A tree that is searched to the right only for greater keys is a search tree
exactly when the keys were looked up in an order that parts them. -/
theorem sorted_grow_iff (ks : List K) : (grow turn ks).Sorted ↔ Parted turn ks := by
  induction hn : ks.length using Nat.strong_induction_on generalizing ks with
  | _ n ih =>
      cases ks with
      | nil => simp [grow, Sorted, Parted]
      | cons key ks =>
          have hshorter : ∀ side : K → Bool, (ks.filter side).length < n := by
            intro side
            rw [← hn, List.length_cons]
            exact Nat.lt_succ_of_le (List.length_filter_le _ _)
          rw [grow_cons, Sorted, parted_cons hturn hright, ih _ (hshorter _) _ rfl,
            ih _ (hshorter _) _ rfl]
          simp only [mem_keys_grow hturn, List.mem_filter, decide_eq_true_eq, and_imp]
          constructor
          · rintro ⟨hlefts, -, hparted⟩
            exact ⟨fun b hb hleft => (hlefts b hb hleft).not_gt, hparted⟩
          · rintro ⟨hfirst, hparted⟩
            exact ⟨fun b hb hleft => (lt_first hturn hright hfirst hb).1.mp hleft,
              fun b _ => hright b key, hparted⟩

end Search

end SteeredTree

end Machine
