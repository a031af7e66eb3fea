import Mathlib.Tactic

/-!
Binary trees searched with a direction function. At each node the function
compares the key looked for with the key there: stop, or go on in the left or
in the right child. All it has to promise is that it stops exactly at an equal
key. No order between the keys is asked for: a key is found again because
every search for it makes the same turns.
-/

namespace Machine

inductive Turn where
  | here
  | left
  | right
deriving DecidableEq, Repr

inductive SteeredTree (K V : Type*) where
  | leaf
  | node (key : K) (value : V) (left right : SteeredTree K V)
deriving DecidableEq, Repr

namespace SteeredTree

variable {K V : Type*}

/-- Every key, the root first. -/
def keys : SteeredTree K V → List K
  | leaf => []
  | node key _ left right => key :: (left.keys ++ right.keys)

/-- The sum of a measure of the values. -/
def total (f : V → Nat) : SteeredTree K V → Nat
  | leaf => 0
  | node _ value left right => f value + (left.total f + right.total f)

/-- Change the value of the node at the end of a way. -/
def modifyAt : List Turn → (V → V) → SteeredTree K V → SteeredTree K V
  | _, _, leaf => leaf
  | [], f, node key value left right => node key (f value) left right
  | .here :: _, _, t => t
  | .left :: way, f, node key value left right =>
      node key value (modifyAt way f left) right
  | .right :: way, f, node key value left right =>
      node key value left (modifyAt way f right)

section Operations

variable (turn : K → K → Turn)

/-- The value at a key. -/
def find? (k : K) : SteeredTree K V → Option V
  | leaf => none
  | node key value left right =>
      match turn k key with
      | .here => some value
      | .left => find? k left
      | .right => find? k right

/-- A node for the key where the search for it ends, unless there is one. -/
def ensure (k : K) (value : V) : SteeredTree K V → SteeredTree K V
  | leaf => node k value leaf leaf
  | node key value' left right =>
      match turn k key with
      | .here => node key value' left right
      | .left => node key value' (ensure k value left) right
      | .right => node key value' left (ensure k value right)

/-- The way to where the search for a key ends. -/
def path (k : K) : SteeredTree K V → List Turn
  | leaf => []
  | node key _ left right =>
      match turn k key with
      | .here => []
      | .left => .left :: path k left
      | .right => .right :: path k right

/-- Change the value at a key; nothing happens when there is no such node. -/
def modify (k : K) (f : V → V) : SteeredTree K V → SteeredTree K V
  | leaf => leaf
  | node key value left right =>
      match turn k key with
      | .here => node key (f value) left right
      | .left => node key value (modify k f left) right
      | .right => node key value left (modify k f right)

/-- Each key is where the search for it goes. -/
def Steered : SteeredTree K V → Prop
  | leaf => True
  | node key _ left right =>
      (∀ k ∈ left.keys, turn k key = .left) ∧ (∀ k ∈ right.keys, turn k key = .right) ∧
        Steered left ∧ Steered right

end Operations

variable {turn : K → K → Turn}

section Shape

theorem keys_modify (k : K) (f : V → V) (t : SteeredTree K V) :
    (t.modify turn k f).keys = t.keys := by
  induction t with
  | leaf => rfl
  | node key value left right ihl ihr =>
      cases h : turn k key with
      | here => simp only [modify, h, keys]
      | left => simp only [modify, h, keys, ihl]
      | right => simp only [modify, h, keys, ihr]

theorem mem_keys_ensure (hturn : ∀ a b, turn a b = .here ↔ a = b) {k k' : K} {value : V}
    {t : SteeredTree K V} : k' ∈ (t.ensure turn k value).keys ↔ k' = k ∨ k' ∈ t.keys := by
  induction t with
  | leaf => simp [ensure, keys]
  | node key value' left right ihl ihr =>
      cases h : turn k key with
      | here =>
          obtain rfl := (hturn k key).mp h
          simp only [ensure, h, keys, List.mem_cons, or_self_left]
      | left =>
          simp only [ensure, h, keys, List.mem_cons, List.mem_append, ihl, or_assoc]
          exact or_left_comm
      | right =>
          simp only [ensure, h, keys, List.mem_cons, List.mem_append, ihr]
          rw [or_left_comm (b := k' = k), or_left_comm (b := k' = k)]

theorem Steered.modify {t : SteeredTree K V} (h : t.Steered turn) (k : K) (f : V → V) :
    (t.modify turn k f).Steered turn := by
  induction t with
  | leaf => exact h
  | node key value left right ihl ihr =>
      obtain ⟨hl, hr, hleft, hright⟩ := h
      cases hk : turn k key with
      | here =>
          simp only [SteeredTree.modify, hk]
          exact ⟨hl, hr, hleft, hright⟩
      | left =>
          simp only [SteeredTree.modify, hk]
          exact ⟨by rwa [keys_modify], hr, ihl hleft, hright⟩
      | right =>
          simp only [SteeredTree.modify, hk]
          exact ⟨hl, by rwa [keys_modify], hleft, ihr hright⟩

/-- A new key goes where the search for it ends, so it is steered there. -/
theorem Steered.ensure (hturn : ∀ a b, turn a b = .here ↔ a = b) {t : SteeredTree K V}
    (h : t.Steered turn) (k : K) (value : V) : (t.ensure turn k value).Steered turn := by
  induction t with
  | leaf => exact ⟨by simp [keys], by simp [keys], trivial, trivial⟩
  | node key value' left right ihl ihr =>
      obtain ⟨hl, hr, hleft, hright⟩ := h
      cases hk : turn k key with
      | here =>
          simp only [SteeredTree.ensure, hk]
          exact ⟨hl, hr, hleft, hright⟩
      | left =>
          simp only [SteeredTree.ensure, hk]
          refine ⟨fun k' hk' => ?_, hr, ihl hleft, hright⟩
          rcases (mem_keys_ensure hturn).mp hk' with rfl | hk'
          · exact hk
          · exact hl k' hk'
      | right =>
          simp only [SteeredTree.ensure, hk]
          refine ⟨hl, fun k' hk' => ?_, hleft, ihr hright⟩
          rcases (mem_keys_ensure hturn).mp hk' with rfl | hk'
          · exact hk
          · exact hr k' hk'

/-- No key stands in two places. -/
theorem Steered.nodup (hturn : ∀ a b, turn a b = .here ↔ a = b) {t : SteeredTree K V}
    (h : t.Steered turn) : t.keys.Nodup := by
  induction t with
  | leaf => exact List.nodup_nil
  | node key value left right ihl ihr =>
      obtain ⟨hl, hr, hleft, hright⟩ := h
      have hself : turn key key = .here := (hturn key key).mpr rfl
      rw [keys, List.nodup_cons, List.mem_append, List.nodup_append]
      refine ⟨?_, ihl hleft, ihr hright, ?_⟩
      · rintro (hmem | hmem)
        · exact absurd (hself.symm.trans (hl key hmem)) (by decide)
        · exact absurd (hself.symm.trans (hr key hmem)) (by decide)
      · rintro k hkl k' hkr rfl
        exact absurd ((hl k hkl).symm.trans (hr k hkr)) (by decide)

end Shape

section Places

theorem modifyAt_path (k : K) (f : V → V) (t : SteeredTree K V) :
    t.modifyAt (t.path turn k) f = t.modify turn k f := by
  induction t with
  | leaf => rfl
  | node key value left right ihl ihr =>
      cases h : turn k key with
      | here => simp only [path, modifyAt, modify, h]
      | left => simp only [path, modifyAt, modify, h, ihl]
      | right => simp only [path, modifyAt, modify, h, ihr]

theorem path_modify (k k' : K) (f : V → V) (t : SteeredTree K V) :
    (t.modify turn k f).path turn k' = t.path turn k' := by
  induction t with
  | leaf => rfl
  | node key value left right ihl ihr =>
      cases h : turn k key with
      | here => simp only [modify, h, path]
      | left => simp only [modify, h, path, ihl]
      | right => simp only [modify, h, path, ihr]

/-- A node stays where it is when another key is added. -/
theorem path_ensure {k k' : K} (value : V) {t : SteeredTree K V}
    (h : (t.find? turn k').isSome) :
    (t.ensure turn k value).path turn k' = t.path turn k' := by
  induction t with
  | leaf => simp [find?] at h
  | node key value' left right ihl ihr =>
      cases hk : turn k key with
      | here => simp only [ensure, hk]
      | left =>
          cases hk' : turn k' key with
          | here => simp only [ensure, hk, path, hk']
          | left =>
              simp only [find?, hk'] at h
              simp only [ensure, hk, path, hk', ihl h]
          | right => simp only [ensure, hk, path, hk']
      | right =>
          cases hk' : turn k' key with
          | here => simp only [ensure, hk, path, hk']
          | left => simp only [ensure, hk, path, hk']
          | right =>
              simp only [find?, hk'] at h
              simp only [ensure, hk, path, hk', ihr h]

end Places

theorem find?_ensure_self (hturn : ∀ a b, turn a b = .here ↔ a = b)
    (k : K) (value : V) (t : SteeredTree K V) :
    (t.ensure turn k value).find? turn k = some ((t.find? turn k).getD value) := by
  induction t with
  | leaf =>
      simp only [ensure, find?, (hturn k k).mpr rfl, Option.getD_none]
  | node key value' left right ihl ihr =>
      cases h : turn k key with
      | here => simp only [ensure, find?, h, Option.getD_some]
      | left => simp only [ensure, find?, h, ihl]
      | right => simp only [ensure, find?, h, ihr]

/-- Making room for one key moves no other: the search for it makes the same
turns as before. -/
theorem find?_ensure_ne (hturn : ∀ a b, turn a b = .here ↔ a = b)
    {k k' : K} (hne : k' ≠ k) (value : V) (t : SteeredTree K V) :
    (t.ensure turn k value).find? turn k' = t.find? turn k' := by
  induction t with
  | leaf =>
      have h : turn k' k ≠ .here := fun h => hne ((hturn k' k).mp h)
      cases hk : turn k' k with
      | here => exact absurd hk h
      | left => simp only [ensure, find?, hk]
      | right => simp only [ensure, find?, hk]
  | node key value' left right ihl ihr =>
      cases h : turn k key with
      | here => simp only [ensure, h]
      | left => simp only [ensure, find?, h, ihl]
      | right => simp only [ensure, find?, h, ihr]

theorem find?_modify_self (k : K) (f : V → V) (t : SteeredTree K V) :
    (t.modify turn k f).find? turn k = (t.find? turn k).map f := by
  induction t with
  | leaf => rfl
  | node key value left right ihl ihr =>
      cases h : turn k key with
      | here => simp only [modify, find?, h, Option.map_some]
      | left => simp only [modify, find?, h, ihl]
      | right => simp only [modify, find?, h, ihr]

theorem find?_modify_ne (hturn : ∀ a b, turn a b = .here ↔ a = b)
    {k k' : K} (hne : k' ≠ k) (f : V → V) (t : SteeredTree K V) :
    (t.modify turn k f).find? turn k' = t.find? turn k' := by
  induction t with
  | leaf => rfl
  | node key value left right ihl ihr =>
      cases h : turn k key with
      | here =>
          have hkey : k = key := (hturn k key).mp h
          have hk : turn k' key ≠ .here := fun h' => hne (((hturn k' key).mp h').trans hkey.symm)
          cases hk' : turn k' key with
          | here => exact absurd hk' hk
          | left => simp only [modify, find?, h, hk']
          | right => simp only [modify, find?, h, hk']
      | left => simp only [modify, find?, h, ihl]
      | right => simp only [modify, find?, h, ihr]

section Totals

variable {f : V → Nat}

theorem total_ensure (k : K) {value : V} (hvalue : f value = 0) (t : SteeredTree K V) :
    (t.ensure turn k value).total f = t.total f := by
  induction t with
  | leaf => simp [ensure, total, hvalue]
  | node key value' left right ihl ihr =>
      cases h : turn k key with
      | here => simp only [ensure, h]
      | left => simp only [ensure, h, total, ihl]
      | right => simp only [ensure, h, total, ihr]

theorem le_total {k : K} {value : V} {t : SteeredTree K V} (h : t.find? turn k = some value) :
    f value ≤ t.total f := by
  induction t with
  | leaf => cases h
  | node key value' left right ihl ihr =>
      cases hk : turn k key with
      | here =>
          simp only [find?, hk, Option.some.injEq] at h
          simp only [total, h]
          omega
      | left =>
          simp only [find?, hk] at h
          have := ihl h
          simp only [total]
          omega
      | right =>
          simp only [find?, hk] at h
          have := ihr h
          simp only [total]
          omega

/-- What a change adds to the value at a key it adds to the sum. -/
theorem total_modify {k : K} {value : V} {g : V → V} {n : Nat} {t : SteeredTree K V}
    (h : t.find? turn k = some value) (hg : f (g value) = f value + n) :
    (t.modify turn k g).total f = t.total f + n := by
  induction t with
  | leaf => cases h
  | node key value' left right ihl ihr =>
      cases hk : turn k key with
      | here =>
          simp only [find?, hk, Option.some.injEq] at h
          simp only [modify, hk, total, h, hg]
          omega
      | left =>
          simp only [find?, hk] at h
          simp only [modify, hk, total, ihl h]
          omega
      | right =>
          simp only [find?, hk] at h
          simp only [modify, hk, total, ihr h]
          omega

end Totals

/-- The first entry of a list with a given label, when more are appended. -/
theorem lookup_append_fresh {α β : Type*} [BEq α] {k : α} {old new : List (α × β)} {b : β}
    (hnew : new.lookup k = some b) (hfresh : old.lookup k ≠ some b) :
    (old ++ new).lookup k = some b ↔ old.lookup k = none := by
  rw [List.lookup_append, hnew]
  cases hold : old.lookup k with
  | none => simp
  | some c =>
      rw [hold] at hfresh
      simpa using hfresh

end SteeredTree

end Machine
