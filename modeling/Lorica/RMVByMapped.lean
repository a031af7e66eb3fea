import Lorica.Lib.Action
import Lorica.Lib.Runs
import Lorica.Lib.IndexPool

/-!
The paged array of `RMVByMapped.cpp`: pages of `page_size_` slots in a linked
list, a high-water mark and a stack of indices that were given back. All
counters are `ACE_UINT32` and wrap. The values are pointers in the source and
stay a type parameter here; what the operations do to reference counts is the
business of `Lorica.ReferenceMapValue`.

Each operation runs under a lock of its own in the source and is one step
here.
-/

namespace Lorica

open Machine

/-- `page_list_node::page_`, an array of pointers that starts zeroed. -/
abbrev Page (V : Type) := Nat → Option V

structure RMVByMapped (V : Type) where
  highIndex : UInt32
  pageSize : UInt32
  freeStack : List UInt32
  pages : List (Page V)
  numPages : UInt32

namespace RMVByMapped

variable {V : Type}

/-- The constructor: one empty page. -/
def new (pageSize : UInt32) : RMVByMapped V where
  highIndex := 0
  pageSize := pageSize
  freeStack := []
  pages := [fun _ => none]
  numPages := 1

/-- `page_list_node::find_page`; `none` is the walk past the last node, where
the source follows a null `next_`. -/
def findPage (t : RMVByMapped V) (count : UInt32) : Option (Page V) :=
  t.pages[count.toNat]?

/-- Store into one slot of one page. -/
def store (t : RMVByMapped V) (page offset : Nat) (value : Option V) :
    RMVByMapped V :=
  { t with pages := t.pages.modify page fun slots =>
      Function.update slots offset value }

/-- The 32-bit product every bounds test compares with. -/
def limit (t : RMVByMapped V) : UInt32 :=
  t.numPages * t.pageSize

/-- The index `next_index` is about to return. -/
def peekIndex (t : RMVByMapped V) : UInt32 :=
  t.freeStack.headD t.highIndex

def nextIndex (t : RMVByMapped V) : UInt32 × RMVByMapped V :=
  let (rtn, t) :=
    match t.freeStack with
    | index :: rest => (index, { t with freeStack := rest })
    | [] => (t.highIndex, { t with highIndex := t.highIndex + 1 })
  if t.limit ≤ rtn then
    (rtn, { t with numPages := t.numPages + 1, pages := t.pages ++ [fun _ => none] })
  else
    (rtn, t)

/-- The slot an index names, after the bounds test of `bind`, `rebind`, `find`
and `unbind`: `none` when the index is out of range, a fault when the page
list is shorter than the bounds test believes. -/
def locate (t : RMVByMapped V) (index : UInt32) :
    Except Fault (Option (Option V)) :=
  if t.limit ≤ index then
    .ok none
  else
    match t.findPage (index / t.pageSize) with
    | none => .error .nullDereference
    | some page => .ok (some (page (index % t.pageSize).toNat))

/-- Store at a 32-bit index, `page[index % page_size_] = value`. -/
def storeAt (t : RMVByMapped V) (index : UInt32) (value : Option V) :
    RMVByMapped V :=
  t.store (index / t.pageSize).toNat (index % t.pageSize).toNat value

def bind (t : RMVByMapped V) (index : UInt32) (value : V) :
    Except Fault (Bool × RMVByMapped V) := do
  match ← t.locate index with
  | none => .ok (false, t)
  | some (some _) => .ok (false, t)
  | some none => .ok (true, t.storeAt index (some value))

/-- Also returns the value that was there, whose count the source drops. -/
def rebind (t : RMVByMapped V) (index : UInt32) (value : V) :
    Except Fault (Bool × Option V × RMVByMapped V) := do
  match ← t.locate index with
  | none => .ok (false, none, t)
  | some old => .ok (true, old, t.storeAt index (some value))

def find (t : RMVByMapped V) (index : UInt32) : Except Fault (Option V) := do
  match ← t.locate index with
  | none => .ok none
  | some content => .ok content

def unbind (t : RMVByMapped V) (index : UInt32) :
    Except Fault (Option V × RMVByMapped V) := do
  match ← t.locate index with
  | none => .ok (none, t)
  | some none => .ok (none, t)
  | some (some value) =>
      .ok (some value,
        { t.storeAt index none with freeStack := index :: t.freeStack })

/-- What `svc` does to the table when it removes the entry at `offset` of the
page at position `page`: the running `page_offset` is a `size_t` and the sum
is cut to 32 bits by the constructor of `free_stack_node`. -/
def reap (t : RMVByMapped V) (page offset : Nat) : RMVByMapped V :=
  { t.store page offset none with
    freeStack := UInt32.ofNat (page * t.pageSize.toNat + offset) :: t.freeStack }

/-- The content of the slot with global index `i`. -/
def slot (t : RMVByMapped V) (i : Nat) : Option V :=
  match t.pages[i / t.pageSize.toNat]? with
  | some page => page (i % t.pageSize.toNat)
  | none => none

theorem new_slot (pageSize : UInt32) (i : Nat) :
    (new pageSize : RMVByMapped V).slot i = none := by
  simp only [new, slot]
  cases i / pageSize.toNat <;> simp

section Slots

variable (t : RMVByMapped V)

@[simp] theorem store_pages_length (page offset : Nat) (value : Option V) :
    (t.store page offset value).pages.length = t.pages.length := by
  simp [store]

theorem slot_store (page offset : Nat) (value : Option V) (i : Nat)
    (hpage : page < t.pages.length) :
    (t.store page offset value).slot i =
      if i / t.pageSize.toNat = page ∧ i % t.pageSize.toNat = offset
      then value else t.slot i := by
  unfold slot store
  simp only [List.getElem?_modify]
  by_cases hq : i / t.pageSize.toNat = page
  · subst hq
    rw [List.getElem?_eq_getElem hpage]
    by_cases hr : i % t.pageSize.toNat = offset
    · subst hr
      simp
    · simp [hr]
  · simp [hq, Ne.symm hq]

theorem div_mod_unique {size i page offset : Nat} (hoffset : offset < size) :
    (i / size = page ∧ i % size = offset) ↔ i = page * size + offset := by
  have hsize : 0 < size := by omega
  constructor
  · rintro ⟨rfl, rfl⟩
    have := Nat.div_add_mod i size
    rw [Nat.mul_comm] at this
    omega
  · rintro rfl
    constructor
    · rw [Nat.mul_comm, Nat.mul_add_div hsize, Nat.div_eq_of_lt hoffset]
      omega
    · rw [Nat.mul_comm, Nat.mul_add_mod, Nat.mod_eq_of_lt hoffset]

/-- The collector clears one slot. -/
theorem reap_slot (page offset : Nat) (hoffset : offset < t.pageSize.toNat)
    (hpage : page < t.pages.length) :
    (t.reap page offset).slot =
      Function.update t.slot (page * t.pageSize.toNat + offset) none := by
  funext i
  change (t.store page offset none).slot i = _
  rw [slot_store _ _ _ _ _ hpage]
  simp only [div_mod_unique hoffset, Function.update_apply]

/-- Adding an empty page shows in no slot. -/
theorem slot_append_page (t : RMVByMapped V) (high num : UInt32)
    (free : List UInt32) :
    RMVByMapped.slot ⟨high, t.pageSize, free, t.pages ++ [fun _ => none], num⟩ =
      t.slot := by
  funext i
  simp only [slot]
  by_cases h : i / t.pageSize.toNat < t.pages.length
  · rw [List.getElem?_append_left h]
  · rw [List.getElem?_append_right (by omega)]
    rw [List.getElem?_eq_none (by omega : t.pages.length ≤ i / t.pageSize.toNat)]
    by_cases h0 : i / t.pageSize.toNat - t.pages.length = 0
    · simp [h0]
    · rw [List.getElem?_eq_none (by simp; omega)]

theorem peekIndex_nil (h : t.freeStack = []) : t.peekIndex = t.highIndex := by
  rw [peekIndex, h, List.headD_nil]

theorem peekIndex_cons {index : UInt32} {rest : List UInt32} (h : t.freeStack = index :: rest) :
    t.peekIndex = index := by
  rw [peekIndex, h, List.headD_cons]

/-- `next_index` adds a page when the index it returns is beyond the pages. -/
theorem nextIndex_grown : (t.nextIndex.2.numPages, t.nextIndex.2.pages) =
    if t.limit ≤ t.peekIndex then (t.numPages + 1, t.pages ++ [fun _ => none])
    else (t.numPages, t.pages) := by
  unfold nextIndex
  cases hfree : t.freeStack with
  | nil =>
      rw [peekIndex_nil t hfree]
      change (fun u : RMVByMapped V => (u.numPages, u.pages))
        (Prod.snd (if t.limit ≤ t.highIndex then _ else _)) = _
      split <;> rfl
  | cons index rest =>
      rw [peekIndex_cons t hfree]
      change (fun u : RMVByMapped V => (u.numPages, u.pages))
        (Prod.snd (if t.limit ≤ index then _ else _)) = _
      split <;> rfl

@[simp] theorem nextIndex_fst : t.nextIndex.1 = t.peekIndex := by
  unfold nextIndex peekIndex
  cases t.freeStack <;> simp only [List.headD_nil, List.headD_cons] <;> split <;> rfl

@[simp] theorem nextIndex_slot : t.nextIndex.2.slot = t.slot := by
  unfold nextIndex
  cases hfree : t.freeStack with
  | nil =>
      dsimp only
      split
      · exact slot_append_page t _ _ _
      · rfl
  | cons index rest =>
      dsimp only
      split
      · exact slot_append_page t _ _ _
      · rfl

theorem nextIndex_pages_length :
    t.pages.length ≤ t.nextIndex.2.pages.length := by
  unfold nextIndex
  cases t.freeStack <;> dsimp only <;> split <;> simp

@[simp] theorem nextIndex_pageSize : t.nextIndex.2.pageSize = t.pageSize := by
  unfold nextIndex
  cases t.freeStack <;> dsimp only <;> split <;> rfl

end Slots

/-- The page list is at least as long as `num_pages_` says. It survives the
wrap of the counters, and it is what keeps every lookup on the list. -/
def PagesCover (t : RMVByMapped V) : Prop :=
  t.numPages.toNat ≤ t.pages.length

theorem PagesCover.locate_page {t : RMVByMapped V} (h : t.PagesCover)
    {index : UInt32} (hindex : index < t.limit) :
    (index / t.pageSize).toNat < t.pages.length := by
  have hprod : index.toNat < t.numPages.toNat * t.pageSize.toNat := by
    have hlt := UInt32.lt_iff_toNat_lt.mp hindex
    rw [limit, UInt32.toNat_mul] at hlt
    exact lt_of_lt_of_le hlt (Nat.mod_le _ _)
  rw [UInt32.toNat_div]
  calc index.toNat / t.pageSize.toNat < t.numPages.toNat :=
        Nat.div_lt_of_lt_mul (by rwa [Nat.mul_comm] at hprod)
    _ ≤ t.pages.length := h

/-- With the page list long enough, the four lookups read one slot. -/
theorem PagesCover.locate_eq {t : RMVByMapped V} (h : t.PagesCover)
    (index : UInt32) :
    t.locate index =
      .ok (if t.limit ≤ index then none else some (t.slot index.toNat)) := by
  unfold locate
  by_cases hlimit : t.limit ≤ index
  · simp [hlimit]
  · have hpage := h.locate_page (UInt32.not_le.mp hlimit)
    simp only [hlimit, if_false, findPage, slot]
    rw [UInt32.toNat_div] at *
    rw [List.getElem?_eq_getElem hpage, UInt32.toNat_mod]

theorem PagesCover.find_eq {t : RMVByMapped V} (h : t.PagesCover)
    (index : UInt32) :
    t.find index =
      .ok (if t.limit ≤ index then none else t.slot index.toNat) := by
  unfold find
  rw [h.locate_eq]
  split <;> rfl

/-- There is no index in range when the pages have no slots. -/
theorem pageSize_pos {t : RMVByMapped V} {index : UInt32} (hindex : index < t.limit) :
    0 < t.pageSize.toNat := by
  rcases Nat.eq_zero_or_pos t.pageSize.toNat with hzero | hpos
  · have hlt := UInt32.lt_iff_toNat_lt.mp hindex
    rw [limit, UInt32.toNat_mul, hzero] at hlt
    simp at hlt
  · exact hpos

theorem storeAt_slot {t : RMVByMapped V} (h : t.PagesCover)
    {index : UInt32} (hindex : index < t.limit) (value : Option V) :
    (t.storeAt index value).slot = Function.update t.slot index.toNat value := by
  have hpage := h.locate_page hindex
  have hsize := pageSize_pos hindex
  funext i
  unfold storeAt
  rw [slot_store t _ _ _ _ hpage, UInt32.toNat_div, UInt32.toNat_mod]
  simp only [div_mod_unique (Nat.mod_lt index.toNat hsize)]
  have hself : index.toNat / t.pageSize.toNat * t.pageSize.toNat +
      index.toNat % t.pageSize.toNat = index.toNat := by
    rw [Nat.mul_comm]
    exact Nat.div_add_mod _ _
  rw [hself, Function.update_apply]

section Specs

variable {t : RMVByMapped V} (h : t.PagesCover) (index : UInt32)

include h

/-- `bind` succeeds exactly on an empty slot in range. -/
theorem PagesCover.bind_eq (value : V) :
    t.bind index value =
      .ok (if index < t.limit ∧ t.slot index.toNat = none
        then (true, t.storeAt index (some value)) else (false, t)) := by
  unfold bind
  rw [h.locate_eq]
  by_cases hlimit : t.limit ≤ index
  · simp [hlimit, UInt32.not_lt.mpr hlimit]
    rfl
  · simp only [hlimit, if_false, UInt32.not_le.mp hlimit, true_and]
    cases hslot : t.slot index.toNat with
    | none => simp; rfl
    | some old => simp; rfl

theorem PagesCover.rebind_eq (value : V) :
    t.rebind index value =
      .ok (if index < t.limit
        then (true, t.slot index.toNat, t.storeAt index (some value))
        else (false, none, t)) := by
  unfold rebind
  rw [h.locate_eq]
  by_cases hlimit : t.limit ≤ index
  · simp [hlimit, UInt32.not_lt.mpr hlimit]
    rfl
  · simp only [hlimit, if_false, UInt32.not_le.mp hlimit, if_true]
    rfl

theorem PagesCover.unbind_eq :
    t.unbind index =
      .ok (if index < t.limit ∧ (t.slot index.toNat).isSome
        then (t.slot index.toNat,
          { t.storeAt index none with freeStack := index :: t.freeStack })
        else (none, t)) := by
  unfold unbind
  rw [h.locate_eq]
  by_cases hlimit : t.limit ≤ index
  · simp [hlimit, UInt32.not_lt.mpr hlimit]
    rfl
  · simp only [hlimit, if_false, UInt32.not_le.mp hlimit, true_and]
    cases hslot : t.slot index.toNat with
    | none => simp; rfl
    | some old => simp; rfl

theorem PagesCover.store (page offset : Nat) (value : Option V) :
    (t.store page offset value).PagesCover := by
  unfold PagesCover
  rw [store_pages_length]
  exact h

/-- Growth adds a page whenever the counter moves, wrapped or not. -/
theorem PagesCover.nextIndex : t.nextIndex.2.PagesCover := by
  unfold RMVByMapped.nextIndex
  have hgrow : (t.numPages + 1).toNat ≤ t.pages.length + 1 := by
    rw [UInt32.toNat_add]
    exact (Nat.mod_le _ _).trans (Nat.add_le_add_right h 1)
  cases t.freeStack with
  | nil =>
      dsimp only
      split
      · simpa [PagesCover] using hgrow
      · exact h
  | cons index rest =>
      dsimp only
      split
      · simpa [PagesCover] using hgrow
      · exact h

end Specs

theorem PagesCover.new (pageSize : UInt32) :
    (RMVByMapped.new pageSize : RMVByMapped V).PagesCover := by
  simp [PagesCover, RMVByMapped.new]

end RMVByMapped

end Lorica
