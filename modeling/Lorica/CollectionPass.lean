import Lorica.Collector
import Lorica.FailedMapping

/-!
One scan of `RMVByMapped::svc` as the loops it is written in: over the list of
pages with a running `page_offset`, and over the slots of each page. No other
thread gets at the table while a native is pinged and nobody asks for the end.
The scan is compared with the slots one by one, and with the steps that
`Lorica.Collector` gives the collector among the other threads.
-/

namespace Lorica

open Machine

/-- What comes of `obj->_non_existent ()`. -/
inductive Pinged where
  | alive
  | nonExistent
  | badOperation
  | exception
deriving DecidableEq, Repr

/-- `expired` behind the `try` block and its two handlers. -/
def Pinged.expired : Pinged → Bool
  | .alive => false
  | .nonExistent => true
  | .badOperation => false
  | .exception => true

/-- What the scan of a page works on: the array of the page, the store and the
free stack. -/
structure Scanned where
  rmv : Page Nat
  values : Heap
  freeStack : List UInt32

/-- The body of the inner loop. The sum is a `size_t` and is cut to 32 bits by
the constructor of `free_stack_node`. -/
def scanSlot (ping : ObjRef → Pinged) (pageOffset index : Nat) (s : Scanned) :
    Except Fault Scanned :=
  match s.rmv index with
  | none => .ok s
  | some value => do
      let v ← s.values.read value
      -- the lock is released and acquired around the ping
      if (ping v.origRef).expired ∧ s.rmv index = some value then do
        let values ← s.values.decrRefcount value
        .ok { rmv := Function.update s.rmv index none
              values := values
              freeStack := UInt32.ofNat (pageOffset + index) :: s.freeStack }
      else .ok s

/-- The inner loop with the turns that are left. -/
def scanPage (ping : ObjRef → Pinged) (pageOffset : Nat) :
    Nat → Nat → Scanned → Except Fault Scanned
  | 0, _, s => .ok s
  | turns + 1, index, s => do
      let s ← scanSlot ping pageOffset index s
      scanPage ping pageOffset turns (index + 1) s

/-- The outer loop from `iter` on. -/
def scanPages (ping : ObjRef → Pinged) (pageSize : Nat) :
    List (Page Nat) → Nat → Heap → List UInt32 →
      Except Fault (List (Page Nat) × Heap × List UInt32)
  | [], _, values, freeStack => .ok ([], values, freeStack)
  | rmv :: next, pageOffset, values, freeStack => do
      let s ← scanPage ping pageOffset pageSize 0 ⟨rmv, values, freeStack⟩
      let (pages, values, freeStack) ←
        scanPages ping pageSize next (pageOffset + pageSize) s.values s.freeStack
      .ok (s.rmv :: pages, values, freeStack)

/-- What `svc` does between two waits. -/
def svcScan (ping : ObjRef → Pinged) (t : RMVByMapped Nat) (values : Heap) :
    Except Fault (RMVByMapped Nat × Heap) := do
  let (pages, values, freeStack) ←
    scanPages ping t.pageSize.toNat t.pages 0 values t.freeStack
  .ok ({ t with pages := pages, freeStack := freeStack }, values)

namespace RMVByMapped

/-- `page_[offset]` of the page at that position of the list. -/
def content (t : RMVByMapped Nat) (page offset : Nat) : Option Nat :=
  t.pages[page]?.bind fun rmv => rmv offset

/-- The values in the slots, as often as a slot has them. -/
def occupants (t : RMVByMapped Nat) : List Nat :=
  t.pages.flatMap fun rmv => (List.range t.pageSize.toNat).filterMap rmv

/-- What the table owes to those who fill it: the index of a slot is an
`ACE_UINT32`, and `bind` takes a count for the slot. -/
structure Accounted (t : RMVByMapped Nat) (values : Heap) : Prop where
  small : ∀ page offset, offset < t.pageSize.toNat → (t.content page offset).isSome →
    page * t.pageSize.toNat + offset < 2 ^ 32
  counted : ∀ a ∈ t.occupants, ∃ v, values.cells a = some v ∧
    (t.occupants.count a : Int) ≤ v.refCount

/-- The global index of a slot whose native has gone. -/
def Expired (ping : ObjRef → Pinged) (t : RMVByMapped Nat) (values : Heap) (i : Nat) : Prop :=
  ∃ page offset a v, offset < t.pageSize.toNat ∧ i = page * t.pageSize.toNat + offset ∧
    t.content page offset = some a ∧ values.cells a = some v ∧
    (ping v.origRef).expired = true

/-- The pass is exact. -/
structure Collected (ping : ObjRef → Pinged) (t : RMVByMapped Nat) (values : Heap)
    (t' : RMVByMapped Nat) (values' : Heap) : Prop where
  bound : ∀ page offset a, offset < t.pageSize.toNat →
    (t'.content page offset = some a ↔ t.content page offset = some a ∧
      ∃ v, values.cells a = some v ∧
        (ping v.origRef = .alive ∨ ping v.origRef = .badOperation))
  freed : ∃ freed, t'.freeStack = freed ++ t.freeStack ∧ (freed.map UInt32.toNat).Nodup ∧
    ∀ i, i ∈ freed.map UInt32.toNat ↔ Expired ping t values i
  highIndex : t'.highIndex = t.highIndex
  numPages : t'.numPages = t.numPages
  survivors : ∀ index : UInt32, ¬ Expired ping t values index.toNat →
    t'.find index = t.find index
  reaped : ∀ index : UInt32, Expired ping t values index.toNat → t'.find index = .ok none
  values : ∀ page offset a, offset < t.pageSize.toNat → t'.content page offset = some a →
    values'.cells a = values.cells a

end RMVByMapped

namespace Heap

/-- The store once a count was given back for each address of the list. -/
def Released (h h' : Heap) (given : List Nat) : Prop :=
  ∀ a, h'.cells a = (h.cells a).bind fun v =>
    if given.count a ≠ 0 ∧ v.refCount ≤ given.count a then none
    else some { v with refCount := v.refCount - given.count a }

variable {h h' : Heap} {given given' : List Nat} {a : Nat} {v : ReferenceMapValue}

theorem Released.refl (h : Heap) : h.Released h [] := by
  intro a
  cases h.cells a <;> simp

theorem Released.untouched (hreleased : h.Released h' given) (ha : a ∉ given) :
    h'.cells a = h.cells a := by
  rw [hreleased a, List.count_eq_zero.mpr ha]
  cases h.cells a <;> simp

/-- A write to one address and one more count given back for it. -/
theorem Released.write (hreleased : h.Released h' given) (hv : h.cells a = some v)
    {content : Option ReferenceMapValue}
    (hcontent : content = if v.refCount ≤ given.count a + 1 then none
      else some { v with refCount := v.refCount - (given.count a + 1) }) :
    h.Released (h'.write a content) (a :: given) := by
  intro b
  by_cases hb : b = a
  · subst hb
    rw [write_cells_self, hv, Option.bind_some, List.count_cons_self, hcontent]
    push_cast
    simp only [ne_eq, Nat.add_eq_zero_iff, one_ne_zero, and_false, not_false_eq_true, true_and]
  · rw [write_cells_of_ne _ hb, List.count_cons_of_ne (Ne.symm hb), hreleased b]

/-- One more count can be given back while there is one. -/
theorem Released.give (hreleased : h.Released h' given) (hv : h.cells a = some v)
    (hcount : (given.count a : Int) + 1 ≤ v.refCount) :
    ∃ v' h'', h'.read a = .ok v' ∧ v'.origRef = v.origRef ∧ h'.decrRefcount a = .ok h'' ∧
      h.Released h'' (a :: given) := by
  have hcell : h'.cells a = some { v with refCount := v.refCount - given.count a } := by
    rw [hreleased a, hv, Option.bind_some, if_neg]
    rintro ⟨-, hle⟩
    omega
  rcases Int.lt_or_eq_of_le hcount with hmore | hlast
  · refine ⟨_, _, read_eq hcell, rfl, decrRefcount_eq_of_lt hcell (by dsimp only; omega),
      hreleased.write hv ?_⟩
    rw [if_neg (by omega), sub_sub]
  · refine ⟨_, _, read_eq hcell, rfl, decrRefcount_eq_of_one hcell (by dsimp only; omega),
      hreleased.write hv ?_⟩
    rw [if_pos (by omega)]

end Heap

/-! ## The loops -/

section Loops

variable {ping : ObjRef → Pinged} {h : Heap} {given : List Nat} {pageOffset index turns : Nat}
  {rmv : Page Nat} {a : Nat} {v : ReferenceMapValue}

/-- The native of the value has gone. -/
def gone (ping : ObjRef → Pinged) (h : Heap) (a : Nat) : Bool :=
  (h.cells a).any fun v => (ping v.origRef).expired

theorem gone_eq (hv : h.cells a = some v) : gone ping h a = (ping v.origRef).expired := by
  unfold gone
  rw [hv, Option.any_some]

/-- The occupied slots of a page from an index on, with their global indices. -/
def bindings (pageOffset : Nat) (rmv : Page Nat) (index turns : Nat) : List (Nat × Nat) :=
  (List.range' index turns).filterMap fun offset =>
    (rmv offset).map fun a => (pageOffset + offset, a)

/-- Those whose natives have gone. -/
def reapable (ping : ObjRef → Pinged) (h : Heap) (slots : List (Nat × Nat)) :
    List (Nat × Nat) :=
  slots.filter fun slot => gone ping h slot.2

/-- A page after the scan has gone through a part of it. -/
def cleared (ping : ObjRef → Pinged) (h : Heap) (rmv : Page Nat) (index turns : Nat) :
    Page Nat := fun offset =>
  if index ≤ offset ∧ offset < index + turns then
    (rmv offset).filter fun a => !gone ping h a
  else rmv offset

theorem bindings_none (hslot : rmv index = none) :
    bindings pageOffset rmv index (turns + 1) = bindings pageOffset rmv (index + 1) turns := by
  unfold bindings
  rw [List.range'_succ, List.filterMap_cons_none (by rw [hslot]; rfl)]

theorem bindings_some (hslot : rmv index = some a) :
    bindings pageOffset rmv index (turns + 1) =
      (pageOffset + index, a) :: bindings pageOffset rmv (index + 1) turns := by
  unfold bindings
  rw [List.range'_succ, List.filterMap_cons_some (by rw [hslot]; rfl)]

/-- A slot that was passed does not show in the rest of the page. -/
theorem bindings_update (content : Option Nat) :
    bindings pageOffset (Function.update rmv index content) (index + 1) turns =
      bindings pageOffset rmv (index + 1) turns := by
  unfold bindings
  apply List.filterMap_congr
  intro offset hoffset
  have hlater := (List.mem_range'_1.mp hoffset).1
  rw [Function.update_of_ne (by omega)]

/-- The part that has been cleared grows by a slot. -/
theorem cleared_succ {rmv' : Page Nat}
    (hhere : rmv' index = (rmv index).filter fun a => !gone ping h a)
    (hothers : ∀ offset, offset ≠ index → rmv' offset = rmv offset) :
    cleared ping h rmv' (index + 1) turns = cleared ping h rmv index (turns + 1) := by
  funext offset
  unfold cleared
  by_cases hoffset : offset = index
  · subst hoffset
    rw [if_neg (by omega), if_pos (by omega), hhere]
  · rw [hothers offset hoffset]
    have hrange : (index + 1 ≤ offset ∧ offset < index + 1 + turns) ↔
        (index ≤ offset ∧ offset < index + (turns + 1)) := by omega
    simp only [hrange]

/-- Every slot has a count on its value, next to those given back before. -/
def Covered (h : Heap) (given : List Nat) (slots : List (Nat × Nat)) : Prop :=
  ∀ a ∈ slots.map Prod.snd, ∃ v, h.cells a = some v ∧
    ((given ++ slots.map Prod.snd).count a : Int) ≤ v.refCount

/-- What a part of the scan leaves of a page. -/
structure Swept (ping : ObjRef → Pinged) (h : Heap) (given : List Nat) (slots : List (Nat × Nat))
    (free : List UInt32) (values' : Heap) (free' : List UInt32) : Prop where
  freeStack : free' = ((reapable ping h slots).reverse.map fun slot => UInt32.ofNat slot.1) ++ free
  released : h.Released values' ((reapable ping h slots).reverse.map Prod.snd ++ given)

variable {slots : List (Nat × Nat)} {free free' : List UInt32} {values' : Heap} {i : Nat}

theorem Covered.head (hcovered : Covered h given ((i, a) :: slots)) :
    ∃ v, h.cells a = some v ∧ (given.count a : Int) + 1 ≤ v.refCount := by
  obtain ⟨v, hv, hcount⟩ := hcovered a List.mem_cons_self
  rw [List.map_cons, List.count_append, List.count_cons_self] at hcount
  exact ⟨v, hv, by omega⟩

/-- A count that was for a slot is given back. -/
theorem Covered.give (hcovered : Covered h given ((i, a) :: slots)) :
    Covered h (a :: given) slots := by
  intro b hb
  obtain ⟨w, hw, hroom⟩ := hcovered b (List.mem_cons_of_mem _ hb)
  refine ⟨w, hw, ?_⟩
  rwa [List.map_cons, List.perm_middle.count_eq] at hroom

theorem Covered.tail (hcovered : Covered h given ((i, a) :: slots)) : Covered h given slots := by
  intro b hb
  obtain ⟨w, hw, hroom⟩ := hcovered.give b hb
  exact ⟨w, hw, le_trans (Int.ofNat_le.mpr List.count_le_count_cons) hroom⟩

theorem Swept.reap (hgone : gone ping h a = true)
    (hswept : Swept ping h (a :: given) slots (UInt32.ofNat i :: free) values' free') :
    Swept ping h given ((i, a) :: slots) free values' free' := by
  have hreap : reapable ping h ((i, a) :: slots) = (i, a) :: reapable ping h slots :=
    List.filter_cons_of_pos hgone
  constructor
  · rw [hreap, hswept.freeStack, List.reverse_cons, List.map_append, List.append_assoc]
    rfl
  · rw [hreap, List.reverse_cons, List.map_append, List.append_assoc]
    exact hswept.released

theorem Swept.keep (hgone : gone ping h a = false)
    (hswept : Swept ping h given slots free values' free') :
    Swept ping h given ((i, a) :: slots) free values' free' := by
  have hkeep : reapable ping h ((i, a) :: slots) = reapable ping h slots :=
    List.filter_cons_of_neg (by rw [hgone]; exact Bool.false_ne_true)
  constructor
  · rw [hkeep]
    exact hswept.freeStack
  · rw [hkeep]
    exact hswept.released

/-- The turn at an occupied slot. -/
theorem scanSlot_some (ping : ObjRef → Pinged) (pageOffset : Nat) {s : Scanned}
    (hreleased : h.Released s.values given)
    (hslot : s.rmv index = some a) (hv : h.cells a = some v)
    (hcount : (given.count a : Int) + 1 ≤ v.refCount) :
    ∃ values', h.Released values' (a :: given) ∧ scanSlot ping pageOffset index s = .ok
      (if gone ping h a then
        { rmv := Function.update s.rmv index none
          values := values'
          freeStack := UInt32.ofNat (pageOffset + index) :: s.freeStack }
      else s) := by
  obtain ⟨v', values', hread, horig, hdecr, hgiven⟩ := hreleased.give hv hcount
  refine ⟨values', hgiven, ?_⟩
  have hexpired : (ping v'.origRef).expired = gone ping h a := by
    rw [horig, gone_eq hv]
  unfold scanSlot
  cases hgone : gone ping h a with
  | true =>
      rw [hgone] at hexpired
      simp only [hslot, hread, hdecr, hexpired, bind, Except.bind, and_self, if_true]
  | false =>
      rw [hgone] at hexpired
      simp only [hslot, hread, hexpired, bind, Except.bind, Bool.false_eq_true, false_and,
        if_false]

/-- What one turn of the inner loop leaves to the others. -/
structure Turned (ping : ObjRef → Pinged) (h : Heap) (given : List Nat)
    (pageOffset index turns : Nat) (s s' : Scanned) (given' : List Nat) : Prop where
  released : h.Released s'.values given'
  covered : Covered h given' (bindings pageOffset s'.rmv (index + 1) turns)
  cleared : cleared ping h s'.rmv (index + 1) turns = cleared ping h s.rmv index (turns + 1)
  swept : ∀ values' free', Swept ping h given' (bindings pageOffset s'.rmv (index + 1) turns)
    s'.freeStack values' free' →
      Swept ping h given (bindings pageOffset s.rmv index (turns + 1)) s.freeStack values' free'

/-- A slot is empty, or its native has gone, or it stays as it is. -/
theorem scanSlot_turned (ping : ObjRef → Pinged) (s : Scanned)
    (hreleased : h.Released s.values given)
    (hcovered : Covered h given (bindings pageOffset s.rmv index (turns + 1))) :
    ∃ s' given', scanSlot ping pageOffset index s = .ok s' ∧
      Turned ping h given pageOffset index turns s s' given' := by
  cases hslot : s.rmv index with
  | none =>
      rw [bindings_none hslot] at hcovered
      refine ⟨s, given, ?_, hreleased, hcovered, ?_, ?_⟩
      · unfold scanSlot
        rw [hslot]
      · exact cleared_succ (by rw [hslot]; rfl) fun _ _ => rfl
      · rw [bindings_none hslot]
        exact fun _ _ hswept => hswept
  | some a =>
      rw [bindings_some hslot] at hcovered
      obtain ⟨v, hv, hcount⟩ := hcovered.head
      obtain ⟨values', hgiven, hstep⟩ :=
        scanSlot_some ping pageOffset hreleased hslot hv hcount
      cases hgone : gone ping h a with
      | true =>
          rw [hgone, if_pos rfl] at hstep
          refine ⟨_, a :: given, hstep, hgiven, ?_, ?_, ?_⟩
          · rw [bindings_update]
            exact hcovered.give
          · apply cleared_succ
            · dsimp only
              rw [Function.update_self, hslot, Option.filter_some, hgone]
              rfl
            · exact fun offset hoffset => Function.update_of_ne hoffset _ _
          · rw [bindings_update, bindings_some hslot]
            exact fun _ _ hswept => hswept.reap hgone
      | false =>
          rw [hgone, if_neg Bool.false_ne_true] at hstep
          refine ⟨s, given, hstep, hreleased, hcovered.tail, ?_, ?_⟩
          · apply cleared_succ
            · rw [hslot, Option.filter_some, hgone]
              rfl
            · exact fun _ _ => rfl
          · rw [bindings_some hslot]
            exact fun _ _ hswept => hswept.keep hgone

/-- The inner loop clears the slots whose natives have gone, pushes their
indices and gives back their counts. -/
theorem scanPage_swept (ping : ObjRef → Pinged) (s : Scanned)
    (hreleased : h.Released s.values given)
    (hcovered : Covered h given (bindings pageOffset s.rmv index turns)) :
    ∃ s', scanPage ping pageOffset turns index s = .ok s' ∧
      s'.rmv = cleared ping h s.rmv index turns ∧
      Swept ping h given (bindings pageOffset s.rmv index turns) s.freeStack s'.values
        s'.freeStack := by
  induction turns generalizing index s given with
  | zero =>
      refine ⟨s, rfl, ?_, rfl, hreleased⟩
      funext offset
      unfold cleared
      rw [if_neg (by omega)]
  | succ turns ih =>
      obtain ⟨s₁, given₁, hslot, hturned⟩ := scanSlot_turned ping s hreleased hcovered
      obtain ⟨s', hrun, hrmv, hswept⟩ := ih s₁ hturned.released hturned.covered
      refine ⟨s', ?_, hrmv.trans hturned.cleared, hturned.swept _ _ hswept⟩
      unfold scanPage
      rw [hslot]
      exact hrun

/-- The occupied slots of the pages from a page offset on. -/
def bindingsFrom (pageSize : Nat) : Nat → List (Page Nat) → List (Nat × Nat)
  | _, [] => []
  | pageOffset, rmv :: next =>
      bindings pageOffset rmv 0 pageSize ++ bindingsFrom pageSize (pageOffset + pageSize) next

theorem reapable_append (slots rest : List (Nat × Nat)) :
    reapable ping h (slots ++ rest) = reapable ping h slots ++ reapable ping h rest :=
  List.filter_append ..

theorem Covered.left {rest : List (Nat × Nat)} (hcovered : Covered h given (slots ++ rest)) :
    Covered h given slots := by
  intro a ha
  rw [Covered, List.map_append] at hcovered
  obtain ⟨v, hv, hcount⟩ := hcovered a (List.mem_append_left _ ha)
  refine ⟨v, hv, le_trans (Int.ofNat_le.mpr ?_) hcount⟩
  simp only [List.count_append]
  omega

/-- The counts for the slots passed are an upper bound of those given back. -/
theorem Covered.right {rest : List (Nat × Nat)} (hcovered : Covered h given (slots ++ rest)) :
    Covered h ((reapable ping h slots).reverse.map Prod.snd ++ given) rest := by
  intro a ha
  rw [Covered, List.map_append] at hcovered
  obtain ⟨v, hv, hcount⟩ := hcovered a (List.mem_append_right _ ha)
  refine ⟨v, hv, le_trans (Int.ofNat_le.mpr ?_) hcount⟩
  have hreaped : ((reapable ping h slots).reverse.map Prod.snd).count a ≤
      (slots.map Prod.snd).count a := by
    rw [List.map_reverse, List.count_reverse]
    exact List.Sublist.count_le a (List.Sublist.map _ List.filter_sublist)
  simp only [List.count_append]
  omega

theorem Swept.append {rest : List (Nat × Nat)} {values'' : Heap} {free'' : List UInt32}
    (hswept : Swept ping h given slots free values' free')
    (hrest : Swept ping h ((reapable ping h slots).reverse.map Prod.snd ++ given) rest free'
      values'' free'') :
    Swept ping h given (slots ++ rest) free values'' free'' := by
  constructor
  · rw [hrest.freeStack, hswept.freeStack, reapable_append, List.reverse_append, List.map_append,
      List.append_assoc]
  · rw [reapable_append, List.reverse_append, List.map_append, List.append_assoc]
    exact hrest.released

/-- The outer loop does the same for each page, with the offset of the page. -/
theorem scanPages_swept (ping : ObjRef → Pinged) (free : List UInt32) {pageSize : Nat}
    {pages : List (Page Nat)} {values : Heap} (hreleased : h.Released values given)
    (hcovered : Covered h given (bindingsFrom pageSize pageOffset pages)) :
    ∃ values' free', scanPages ping pageSize pages pageOffset values free =
        .ok (pages.map fun rmv => cleared ping h rmv 0 pageSize, values', free') ∧
      Swept ping h given (bindingsFrom pageSize pageOffset pages) free values' free' := by
  induction pages generalizing pageOffset values free given with
  | nil => exact ⟨values, free, rfl, rfl, hreleased⟩
  | cons rmv next ih =>
      obtain ⟨s, hpage, hrmv, hswept⟩ := scanPage_swept ping
        ⟨rmv, values, free⟩ hreleased hcovered.left
      obtain ⟨values', free', hnext, hrest⟩ := ih s.freeStack hswept.released hcovered.right
      refine ⟨values', free', ?_, hswept.append hrest⟩
      unfold scanPages
      rw [hpage]
      change (scanPages ping pageSize next (pageOffset + pageSize) s.values s.freeStack >>= _) = _
      rw [hnext, List.map_cons, ← hrmv]
      rfl

/-- The indices of the occupied slots stand in their order, each at most once. -/
theorem bindings_sublist (rmv : Page Nat) :
    ((bindings pageOffset rmv index turns).map Prod.fst).Sublist
      (List.range' (pageOffset + index) turns) := by
  induction turns generalizing index with
  | zero => exact List.Sublist.refl _
  | succ turns ih =>
      rw [List.range'_succ]
      cases hslot : rmv index with
      | none =>
          rw [bindings_none hslot]
          exact ih.cons _
      | some a =>
          rw [bindings_some hslot]
          exact ih.cons_cons _

theorem bindingsFrom_sublist (pageSize : Nat) (pages : List (Page Nat)) :
    ((bindingsFrom pageSize pageOffset pages).map Prod.fst).Sublist
      (List.range' pageOffset (pages.length * pageSize)) := by
  induction pages generalizing pageOffset with
  | nil => exact List.nil_sublist _
  | cons rmv next ih =>
      have hlength : (rmv :: next).length * pageSize = pageSize + next.length * pageSize := by
        rw [List.length_cons, Nat.succ_mul, Nat.add_comm]
      unfold bindingsFrom
      rw [List.map_append, hlength, ← List.range'_append_1]
      exact (bindings_sublist rmv).append ih

theorem mem_bindings (rmv : Page Nat) :
    (i, a) ∈ bindings pageOffset rmv 0 turns ↔
      ∃ offset, offset < turns ∧ i = pageOffset + offset ∧ rmv offset = some a := by
  unfold bindings
  rw [List.mem_filterMap]
  constructor
  · rintro ⟨offset, hoffset, hslot⟩
    obtain ⟨b, hb, hpair⟩ := Option.map_eq_some_iff.mp hslot
    obtain ⟨rfl, rfl⟩ := Prod.mk.inj hpair
    have hrange := (List.mem_range'_1.mp hoffset).2
    exact ⟨offset, by omega, rfl, hb⟩
  · rintro ⟨offset, hoffset, rfl, hslot⟩
    refine ⟨offset, List.mem_range'_1.mpr ⟨Nat.zero_le _, by omega⟩, ?_⟩
    rw [hslot]
    rfl

/-- The running offset is the position of the page times the size. -/
theorem mem_bindingsFrom (pageSize : Nat) (pages : List (Page Nat)) :
    (i, a) ∈ bindingsFrom pageSize pageOffset pages ↔
      ∃ page offset, offset < pageSize ∧ i = pageOffset + (page * pageSize + offset) ∧
        (pages[page]?.bind fun rmv => rmv offset) = some a := by
  induction pages generalizing pageOffset with
  | nil =>
      constructor
      · intro hmem
        cases hmem
      · rintro ⟨page, offset, -, -, hslot⟩
        cases hslot
  | cons rmv next ih =>
      unfold bindingsFrom
      rw [List.mem_append, mem_bindings, ih]
      constructor
      · rintro (⟨offset, hoffset, rfl, hslot⟩ | ⟨page, offset, hoffset, rfl, hslot⟩)
        · exact ⟨0, offset, hoffset, by omega, hslot⟩
        · refine ⟨page + 1, offset, hoffset, ?_, hslot⟩
          rw [Nat.succ_mul]
          omega
      · rintro ⟨page, offset, hoffset, rfl, hslot⟩
        cases page with
        | zero => exact Or.inl ⟨offset, hoffset, by omega, hslot⟩
        | succ page =>
            refine Or.inr ⟨page, offset, hoffset, ?_, hslot⟩
            rw [Nat.succ_mul]
            omega

end Loops

/-! ## The pass -/

namespace RMVByMapped

variable {ping : ObjRef → Pinged} {t t' : RMVByMapped Nat} {values values' : Heap}
  {page offset i a : Nat} {index : UInt32} {v : ReferenceMapValue}

/-- The occupied slots of a table with their global indices. -/
def slots (t : RMVByMapped Nat) : List (Nat × Nat) :=
  bindingsFrom t.pageSize.toNat 0 t.pages

theorem mem_slots :
    (i, a) ∈ t.slots ↔ ∃ page offset, offset < t.pageSize.toNat ∧
      i = page * t.pageSize.toNat + offset ∧ t.content page offset = some a := by
  unfold slots
  simp only [mem_bindingsFrom, Nat.zero_add]
  rfl

theorem slots_nodup (t : RMVByMapped Nat) : (t.slots.map Prod.fst).Nodup :=
  (bindingsFrom_sublist ..).nodup List.nodup_range'

theorem bindingsFrom_occupants (pageSize pageOffset : Nat) (pages : List (Page Nat)) :
    (bindingsFrom pageSize pageOffset pages).map Prod.snd =
      pages.flatMap fun rmv => (List.range pageSize).filterMap rmv := by
  induction pages generalizing pageOffset with
  | nil => rfl
  | cons rmv next ih =>
      have hpage : (bindings pageOffset rmv 0 pageSize).map Prod.snd =
          (List.range pageSize).filterMap rmv := by
        unfold bindings
        rw [List.map_filterMap, List.range_eq_range']
        apply List.filterMap_congr
        intro offset _
        cases rmv offset <;> rfl
      unfold bindingsFrom
      rw [List.map_append, hpage, ih, List.flatMap_cons]

theorem slots_occupants (t : RMVByMapped Nat) : t.slots.map Prod.snd = t.occupants :=
  bindingsFrom_occupants ..

theorem Accounted.covered (h : t.Accounted values) : Covered values [] t.slots := by
  intro a ha
  rw [slots_occupants] at ha ⊢
  exact h.counted a ha

theorem Accounted.cell (h : t.Accounted values) (hoffset : offset < t.pageSize.toNat)
    (hslot : t.content page offset = some a) : ∃ v, values.cells a = some v := by
  have hmem := mem_slots.mpr ⟨page, offset, hoffset, rfl, hslot⟩
  obtain ⟨v, hv, -⟩ := h.covered a (List.mem_map_of_mem (f := Prod.snd) hmem)
  exact ⟨v, hv⟩

/-- The cut to 32 bits takes nothing from the index of an occupied slot. -/
theorem Accounted.toNat_ofNat (h : t.Accounted values) (hmem : (i, a) ∈ t.slots) :
    (UInt32.ofNat i).toNat = i := by
  obtain ⟨page, offset, hoffset, rfl, hslot⟩ := mem_slots.mp hmem
  exact UInt32.toNat_ofNat_of_lt' (h.small page offset hoffset (Option.isSome_of_eq_some hslot))

theorem expired_iff :
    t.Expired ping values i ↔ ∃ a, (i, a) ∈ t.slots ∧ gone ping values a = true := by
  constructor
  · rintro ⟨page, offset, a, v, hoffset, hi, hslot, hv, hexpired⟩
    exact ⟨a, mem_slots.mpr ⟨page, offset, hoffset, hi, hslot⟩, (gone_eq hv).trans hexpired⟩
  · rintro ⟨a, hmem, hgone⟩
    obtain ⟨page, offset, hoffset, hi, hslot⟩ := mem_slots.mp hmem
    obtain ⟨v, hv, hexpired⟩ := (Option.any_eq_true ..).mp hgone
    exact ⟨page, offset, a, v, hoffset, hi, hslot, hv, hexpired⟩

/-- What the scan pushes, from the last push to the first. -/
def reapedSlots (ping : ObjRef → Pinged) (t : RMVByMapped Nat) (values : Heap) :
    List (Nat × Nat) :=
  (reapable ping values t.slots).reverse

theorem mem_reapedSlots :
    (i, a) ∈ reapedSlots ping t values ↔ (i, a) ∈ t.slots ∧ gone ping values a = true := by
  unfold reapedSlots reapable
  rw [List.mem_reverse, List.mem_filter]

theorem Accounted.pushed (h : t.Accounted values) :
    ((reapedSlots ping t values).map fun slot => UInt32.ofNat slot.1).map UInt32.toNat =
      (reapedSlots ping t values).map Prod.fst := by
  rw [List.map_map]
  apply List.map_congr_left
  rintro ⟨i, a⟩ hmem
  exact h.toNat_ofNat (mem_reapedSlots.mp hmem).1

theorem reapedSlots_nodup (ping : ObjRef → Pinged) (t : RMVByMapped Nat) (values : Heap) :
    ((reapedSlots ping t values).map Prod.fst).Nodup := by
  unfold reapedSlots reapable
  rw [List.map_reverse, List.nodup_reverse]
  exact (List.filter_sublist.map Prod.fst).nodup t.slots_nodup

theorem mem_map_reapedSlots :
    i ∈ (reapedSlots ping t values).map Prod.fst ↔ t.Expired ping values i := by
  rw [expired_iff, List.mem_map]
  constructor
  · rintro ⟨⟨i, a⟩, hmem, rfl⟩
    exact ⟨a, mem_reapedSlots.mp hmem⟩
  · rintro ⟨a, hmem⟩
    exact ⟨(i, a), mem_reapedSlots.mpr hmem, rfl⟩

/-- The table after the scan, in terms of that before it. -/
def swept (ping : ObjRef → Pinged) (t : RMVByMapped Nat) (values : Heap) : RMVByMapped Nat :=
  { t with
    pages := t.pages.map fun rmv => cleared ping values rmv 0 t.pageSize.toNat
    freeStack := ((reapedSlots ping t values).map fun slot => UInt32.ofNat slot.1) ++ t.freeStack }

theorem svcScan_eq (ping : ObjRef → Pinged) (h : t.Accounted values) :
    ∃ values', svcScan ping t values = .ok (swept ping t values, values') ∧
      values.Released values' ((reapedSlots ping t values).map Prod.snd) := by
  obtain ⟨values', free', hrun, hswept⟩ :=
    scanPages_swept ping t.freeStack (Heap.Released.refl values) h.covered
  refine ⟨values', ?_, ?_⟩
  · unfold svcScan
    rw [hrun, hswept.freeStack]
    rfl
  · have hreleased := hswept.released
    rwa [List.append_nil] at hreleased

theorem find_out (t : RMVByMapped Nat) (hindex : t.limit ≤ index) : t.find index = .ok none := by
  unfold find locate
  rw [if_pos hindex]
  rfl

theorem find_in (t : RMVByMapped Nat) (hindex : ¬ t.limit ≤ index) :
    t.find index = match t.pages[index.toNat / t.pageSize.toNat]? with
      | none => .error .nullDereference
      | some rmv => .ok (rmv (index.toNat % t.pageSize.toNat)) := by
  unfold find locate findPage
  rw [if_neg hindex, UInt32.toNat_div, UInt32.toNat_mod]
  cases t.pages[index.toNat / t.pageSize.toNat]? <;> rfl

theorem swept_content (hoffset : offset < t.pageSize.toNat) :
    (swept ping t values).content page offset =
      (t.content page offset).filter fun a => !gone ping values a := by
  unfold content swept
  rw [List.getElem?_map]
  cases t.pages[page]? with
  | none => rfl
  | some rmv =>
      change cleared ping values rmv 0 _ offset = _
      unfold cleared
      rw [if_pos (by omega)]
      rfl

theorem Accounted.swept_bound (h : t.Accounted values) (hoffset : offset < t.pageSize.toNat) :
    (swept ping t values).content page offset = some a ↔ t.content page offset = some a ∧
      ∃ v, values.cells a = some v ∧
        (ping v.origRef = .alive ∨ ping v.origRef = .badOperation) := by
  rw [swept_content hoffset, Option.filter_eq_some_iff]
  apply and_congr_right
  intro hslot
  obtain ⟨v, hv⟩ := h.cell hoffset hslot
  rw [gone_eq hv, Bool.not_eq_true']
  constructor
  · intro halive
    refine ⟨v, hv, ?_⟩
    cases hping : ping v.origRef <;> rw [hping] at halive
    case alive => exact Or.inl rfl
    case badOperation => exact Or.inr rfl
    all_goals cases halive
  · rintro ⟨w, hw, hping⟩
    obtain rfl := Option.some.inj (hv.symm.trans hw)
    rcases hping with hping | hping <;> rw [hping] <;> rfl

/-- A lookup reads the slot it read before, after the clearing. -/
theorem swept_find (index : UInt32) :
    (swept ping t values).find index =
      (t.find index).map (Option.filter fun a => !gone ping values a) := by
  by_cases hindex : t.limit ≤ index
  · rw [t.find_out hindex, (swept ping t values).find_out hindex]
    rfl
  · have hinside := Nat.mod_lt index.toNat (pageSize_pos (UInt32.not_le.mp hindex))
    rw [t.find_in hindex, (swept ping t values).find_in hindex]
    unfold swept
    rw [List.getElem?_map]
    cases t.pages[index.toNat / t.pageSize.toNat]? with
    | none => rfl
    | some rmv =>
        change Except.ok (cleared ping values rmv 0 _ (index.toNat % t.pageSize.toNat)) = _
        unfold cleared
        rw [if_pos (by omega)]
        rfl

/-- An index in range finds what is in the slot it names. -/
theorem find_eq_content (hindex : ¬ t.limit ≤ index) (hmem : (index.toNat, a) ∈ t.slots) :
    t.find index = .ok (some a) := by
  obtain ⟨page, offset, hoffset, hi, hslot⟩ := mem_slots.mp hmem
  obtain ⟨hdiv, hmod⟩ := (div_mod_unique hoffset).mpr hi
  obtain ⟨rmv, hrmv, hcell⟩ := Option.bind_eq_some_iff.mp hslot
  rw [t.find_in hindex, hdiv, hmod, hrmv]
  exact congrArg Except.ok hcell

/-- What a lookup finds is in the slot the index names. -/
theorem slots_of_find (hfind : t.find index = .ok (some a)) : (index.toNat, a) ∈ t.slots := by
  by_cases hindex : t.limit ≤ index
  · rw [t.find_out hindex] at hfind
    cases hfind
  · have hinside := Nat.mod_lt index.toNat (pageSize_pos (UInt32.not_le.mp hindex))
    rw [t.find_in hindex] at hfind
    cases hrmv : t.pages[index.toNat / t.pageSize.toNat]? with
    | none =>
        rw [hrmv] at hfind
        cases hfind
    | some rmv =>
        rw [hrmv] at hfind
        refine mem_slots.mpr ⟨index.toNat / t.pageSize.toNat, index.toNat % t.pageSize.toNat,
          hinside, (Nat.div_add_mod' ..).symm, ?_⟩
        unfold content
        rw [hrmv]
        exact Except.ok.inj hfind

/-- The slots, the stack and the lookups of the table after the scan. -/
theorem Accounted.swept_collected (h : t.Accounted values)
    (hreleased : values.Released values' ((reapedSlots ping t values).map Prod.snd)) :
    Collected ping t values (swept ping t values) values' := by
  constructor
  case bound => exact fun page offset a hoffset => h.swept_bound hoffset
  case freed =>
    refine ⟨_, rfl, ?_, ?_⟩
    · rw [h.pushed]
      exact reapedSlots_nodup ping t values
    · intro i
      rw [h.pushed]
      exact mem_map_reapedSlots
  case highIndex => rfl
  case numPages => rfl
  case survivors =>
    intro index hindex
    rw [swept_find]
    cases hfind : t.find index with
    | error fault => rfl
    | ok found =>
        cases found with
        | none => rfl
        | some a =>
            have hmem := slots_of_find hfind
            have hstays : gone ping values a = false := by
              rw [← Bool.not_eq_true]
              exact fun hgone => hindex (expired_iff.mpr ⟨a, hmem, hgone⟩)
            change Except.ok (Option.filter _ (some a)) = _
            rw [Option.filter_some, hstays]
            rfl
  case reaped =>
    intro index hindex
    obtain ⟨a, hmem, hgone⟩ := expired_iff.mp hindex
    rw [swept_find]
    by_cases hout : t.limit ≤ index
    · rw [t.find_out hout]
      rfl
    · rw [find_eq_content hout hmem]
      change Except.ok (Option.filter _ (some a)) = _
      rw [Option.filter_some, hgone]
      rfl
  case values =>
    intro page offset a hoffset hslot
    apply hreleased.untouched
    intro hmem
    obtain ⟨⟨i, b⟩, hreaped, rfl⟩ := List.mem_map.mp hmem
    rw [swept_content hoffset] at hslot
    have hstays := (Option.filter_eq_some_iff.mp hslot).2
    rw [(mem_reapedSlots.mp hreaped).2] at hstays
    cases hstays

/-- A pass of the scan is exact. -/
theorem svcScan_collected (ping : ObjRef → Pinged) (t : RMVByMapped Nat) (values : Heap)
    (h : t.Accounted values) :
    ∃ t' values', svcScan ping t values = .ok (t', values') ∧
      Collected ping t values t' values' := by
  obtain ⟨values', hrun, hreleased⟩ := svcScan_eq ping h
  exact ⟨swept ping t values, values', hrun, h.swept_collected hreleased⟩

/-- Two pages of two slots, three of them in use. -/
def twoPages : RMVByMapped Nat where
  highIndex := 4
  pageSize := 2
  freeStack := [2]
  pages := [fun offset => some offset, fun offset => if offset = 1 then some 2 else none]
  numPages := 2

/-- The natives of the values 0, 1 and 2. -/
def threeValues : Heap where
  cells a := [CollectorState.sampleValue "IOR:first", CollectorState.sampleValue "IOR:second",
    CollectorState.sampleValue "IOR:third"][a]?
  fresh := 3

/-- The first native answers, the second has no such operation, the third is
not there. -/
def samplePing (obj : ObjRef) : Pinged :=
  if obj.endpoint = "IOR:second" then .badOperation
  else if obj.endpoint = "IOR:third" then .exception else .alive

theorem twoPages_accounted : twoPages.Accounted threeValues where
  small page offset hoffset hfull := by
    change offset < 2 at hoffset
    change page * 2 + offset < 2 ^ 32
    match page with
    | 0 => omega
    | 1 => omega
    | page + 2 => cases hfull
  counted := by
    have hall : twoPages.occupants = [0, 1, 2] := by decide
    rw [hall]
    intro a ha
    fin_cases ha <;> exact ⟨_, rfl, by decide⟩

theorem svcScan_collected_two_pages :
    twoPages.Accounted threeValues ∧
    ∃ t' values', svcScan samplePing twoPages threeValues = .ok (t', values') ∧
      Collected samplePing twoPages threeValues t' values' :=
  ⟨twoPages_accounted, svcScan_collected samplePing twoPages threeValues twoPages_accounted⟩

/-- The index freed is that of the second page. -/
example : ((svcScan samplePing twoPages threeValues).toOption.map fun r => r.1.freeStack) =
    some [3, 2] := by decide

theorem slot_eq_content (t : RMVByMapped Nat) (page : Nat) (hoffset : offset < t.pageSize.toNat) :
    t.slot (page * t.pageSize.toNat + offset) = t.content page offset := by
  obtain ⟨hdiv, hmod⟩ := (div_mod_unique hoffset).mpr rfl
  unfold slot content
  rw [hdiv, hmod]
  cases t.pages[page]? <;> rfl

/-- A value has one slot at most, as in every state a run reaches. -/
theorem Accounted.of_slots (hsmall : ∀ i, (t.slot i).isSome → i < 2 ^ 32)
    (hinjective : ∀ i j a, t.slot i = some a → t.slot j = some a → i = j)
    (hcounted : ∀ i a, t.slot i = some a → ∃ v, values.cells a = some v ∧ 1 ≤ v.refCount) :
    t.Accounted values where
  small page offset hoffset hfull := by
    rw [← t.slot_eq_content page hoffset] at hfull
    exact hsmall _ hfull
  counted a ha := by
    have hslot : ∀ slot ∈ t.slots, t.slot slot.1 = some slot.2 := by
      rintro ⟨i, b⟩ hmem
      obtain ⟨page, offset, hoffset, rfl, hcontent⟩ := mem_slots.mp hmem
      exact (t.slot_eq_content page hoffset).trans hcontent
    have honce : t.occupants.Nodup := by
      rw [← slots_occupants]
      refine (List.Nodup.of_map _ t.slots_nodup).map_on ?_
      rintro ⟨i, b⟩ hi ⟨j, c⟩ hj rfl
      rw [hinjective i j b (hslot _ hi) (hslot _ hj)]
    rw [← slots_occupants] at ha
    obtain ⟨⟨i, b⟩, hmem, rfl⟩ := List.mem_map.mp ha
    obtain ⟨v, hv, hcount⟩ := hcounted i b (hslot _ hmem)
    refine ⟨v, hv, le_trans (Int.ofNat_le.mpr ?_) hcount⟩
    exact List.nodup_iff_count_le_one.mp honce b

end RMVByMapped

/-- The tables of the registry are such tables, in every run. -/
theorem RegistryState.accounted_of_reach {orb : Orb} {inst : Instance} {cache : Bool}
    {guard : RegistryState → RegistryOp → Prop} {s : RegistryState}
    (hreach : (registrySystem orb inst cache).Reach guard s) {m : Nat} {t : RMVByMapped Nat}
    (ht : s.reg.table m = some t) : t.Accounted s.reg.values := by
  obtain ⟨hsafe, hapart⟩ := apart_of_reach hreach
  have hslot : ∀ i a, t.slot i = some a → s.reg.slotOf m i = some a := by
    intro i a hi
    unfold Registry.slotOf
    rw [ht]
    exact hi
  apply RMVByMapped.Accounted.of_slots (hapart m t ht).small
  · intro i j a hi hj
    exact (hsafe.injective m i m j a (hslot i a hi) (hslot j a hj)).2
  · intro i a hi
    obtain ⟨v, hv⟩ := hsafe.bound_cell ⟨m, i, hslot i a hi⟩
    exact ⟨v, hv, (hsafe.counted a v hv).2⟩

/-! ## The pass among the steps -/

namespace CollectorState

section Alone

variable {ping : ObjRef → Pinged} {s s' : CollectorState} {t : RMVByMapped Nat}
  {passed next : List (Page Nat)} {offset turns a : Nat} {sc sc' : Scanned}
  {v : ReferenceMapValue}

/-- The scan takes its next step, and a ping is answered as the native answers. -/
def alone (ping : ObjRef → Pinged) (s : CollectorState) : CollectorOp → Prop
  | .look => True
  | .answer expired => ∀ p, s.scan = .pinging p → expired = (ping p.target).expired
  | _ => False

/-- States that the scan alone comes to. -/
def Goes (ping : ObjRef → Pinged) (s s' : CollectorState) : Prop :=
  ((collectorSystem s.table.pageSize).restart s).Reach (alone ping) s'

theorem Goes.refl (ping : ObjRef → Pinged) (s : CollectorState) : Goes ping s s :=
  .start rfl

theorem Goes.trans {s'' : CollectorState} (h : Goes ping s s') (h' : Goes ping s' s'') :
    Goes ping s s'' := by
  induction h' with
  | start hstart => exact hstart ▸ h
  | next _ hguard hstep ih => exact .next ih hguard hstep

theorem Goes.look {page : Nat} (hscan : s.scan = .looking page offset)
    (hlook : s.look page offset = some s') : Goes ping s s' := by
  have hguard : alone ping s .look := trivial
  refine (Goes.refl ping s).next hguard ?_
  change CollectorState.step s .look = _
  simp only [CollectorState.step, hscan]
  exact hlook

theorem Goes.answer {p : Ping} (hscan : s.scan = .pinging p)
    (hanswer : s.answer p (ping p.target).expired = some s') : Goes ping s s' := by
  have hguard : alone ping s (.answer (ping p.target).expired) := by
    intro q hq
    rw [hscan] at hq
    obtain rfl := Scan.pinging.inj hq
    rfl
  refine (Goes.refl ping s).next hguard ?_
  change CollectorState.step s (.answer _) = _
  simp only [CollectorState.step, hscan]
  exact hanswer

/-- The scan stands at a slot of the first page of the rest, with these values
of the variables of the loops. -/
structure Stands (s : CollectorState) (t : RMVByMapped Nat) (passed : List (Page Nat))
    (offset : Nat) (next : List (Page Nat)) (sc : Scanned) : Prop where
  scan : s.scan = .looking passed.length offset
  table : s.table = { t with pages := passed ++ sc.rmv :: next, freeStack := sc.freeStack }
  values : s.values = sc.values

theorem Stands.slot (h : s.Stands t passed offset next sc) (hoffset : offset < t.pageSize.toNat) :
    s.table.slot (passed.length * s.table.pageSize.toNat + offset) = sc.rmv offset := by
  have hsize : s.table.pageSize = t.pageSize := by rw [h.table]
  rw [RMVByMapped.slot_eq_content s.table passed.length (hsize ▸ hoffset)]
  unfold RMVByMapped.content
  rw [h.table, List.getElem?_append_right (le_refl _), Nat.sub_self]
  rfl

theorem Stands.here (h : s.Stands t passed offset next sc) (hoffset : offset < t.pageSize.toNat) :
    ¬ s.table.pages.length ≤ passed.length ∧ ¬ s.table.pageSize.toNat ≤ offset := by
  rw [h.table, List.length_append, List.length_cons]
  exact ⟨by omega, Nat.not_le_of_lt hoffset⟩

theorem Stands.look_none (h : s.Stands t passed offset next sc)
    (hoffset : offset < t.pageSize.toNat) (hslot : sc.rmv offset = none) :
    s.look passed.length offset =
      some { s with scan := .looking passed.length (offset + 1) } := by
  obtain ⟨hpage, hsize⟩ := h.here hoffset
  unfold CollectorState.look
  rw [if_neg hpage, if_neg hsize, h.slot hoffset, hslot]

/-- The collector has released the lock for the ping. -/
def asks (s : CollectorState) (page offset a : Nat) (v : ReferenceMapValue) : CollectorState :=
  { s with scan := .pinging ⟨page, offset, a, v.origRef, s.clock⟩ }

theorem Stands.look_some (h : s.Stands t passed offset next sc)
    (hoffset : offset < t.pageSize.toNat) (hslot : sc.rmv offset = some a)
    (hread : s.values.read a = .ok v) :
    s.look passed.length offset = some (s.asks passed.length offset a v) := by
  obtain ⟨hpage, hsize⟩ := h.here hoffset
  unfold CollectorState.look
  rw [if_neg hpage, if_neg hsize, h.slot hoffset, hslot]
  dsimp only
  rw [hread]
  rfl

theorem asks_answer_false (s : CollectorState) (page offset a : Nat) (v : ReferenceMapValue) :
    (s.asks page offset a v).answer ⟨page, offset, a, v.origRef, s.clock⟩ false =
      some { s with scan := .looking page (offset + 1) } := by
  unfold CollectorState.answer
  rw [if_neg (fun hcheck => Bool.false_ne_true hcheck.1)]
  rfl

theorem asks_answer_true {page : Nat} {values : Heap}
    (hslot : s.table.slot (page * s.table.pageSize.toNat + offset) = some a)
    (hread : s.values.read a = .ok v) (hdecr : s.values.decrRefcount a = .ok values) :
    (s.asks page offset a v).answer ⟨page, offset, a, v.origRef, s.clock⟩ true =
      some { s with
        table := s.table.reap page offset
        values := values
        scan := .looking page (offset + 1)
        reaped := ⟨⟨page, offset, a, v.origRef, s.clock⟩, v.origRef, s.boundAt a⟩ ::
          s.reaped } := by
  unfold CollectorState.answer asks
  dsimp only
  rw [if_pos ⟨rfl, hslot⟩, hread, hdecr]

theorem reap_passed (t : RMVByMapped Nat) (rmv : Page Nat) (freeStack : List UInt32) :
    RMVByMapped.reap { t with pages := passed ++ rmv :: next, freeStack := freeStack }
        passed.length offset =
      { t with
        pages := passed ++ Function.update rmv offset none :: next
        freeStack := UInt32.ofNat (passed.length * t.pageSize.toNat + offset) ::
          freeStack } := by
  unfold RMVByMapped.reap RMVByMapped.store
  rw [List.modify_eq_take_cons_drop (by simp)]
  simp

/-- A turn of the inner loop is one step at an empty slot and two at another. -/
theorem Stands.slot_goes (h : s.Stands t passed offset next sc)
    (hoffset : offset < t.pageSize.toNat)
    (hrun : scanSlot ping (passed.length * t.pageSize.toNat) offset sc = .ok sc') :
    ∃ s', Goes ping s s' ∧ s'.Stands t passed (offset + 1) next sc' := by
  unfold scanSlot at hrun
  split at hrun
  case h_1 hslot =>
    obtain rfl := Except.ok.inj hrun
    exact ⟨_, .look h.scan (h.look_none hoffset hslot), rfl, h.table, h.values⟩
  case h_2 a hslot =>
    obtain ⟨v, hread, hrun⟩ := ok_of_bind hrun
    have hasks : Goes ping s (s.asks passed.length offset a v) :=
      .look h.scan (h.look_some hoffset hslot (h.values ▸ hread))
    cases hexpired : (ping v.origRef).expired with
    | false =>
        rw [hexpired, if_neg (fun hcheck => Bool.false_ne_true hcheck.1)] at hrun
        obtain rfl := Except.ok.inj hrun
        have hanswer := s.asks_answer_false passed.length offset a v
        rw [← hexpired] at hanswer
        exact ⟨_, hasks.trans (.answer rfl hanswer), rfl, h.table, h.values⟩
    | true =>
        rw [hexpired, if_pos ⟨rfl, hslot⟩] at hrun
        obtain ⟨values, hdecr, hrun⟩ := ok_of_bind hrun
        obtain rfl := Except.ok.inj hrun
        have hanswer := asks_answer_true ((h.slot hoffset).trans hslot)
          (h.values ▸ hread) (h.values ▸ hdecr)
        rw [← hexpired] at hanswer
        refine ⟨_, hasks.trans (.answer rfl hanswer), rfl, ?_, rfl⟩
        dsimp only
        rw [h.table, reap_passed]

theorem Stands.page_goes (h : s.Stands t passed offset next sc)
    (hturns : offset + turns = t.pageSize.toNat)
    (hrun : scanPage ping (passed.length * t.pageSize.toNat) turns offset sc = .ok sc') :
    ∃ s', Goes ping s s' ∧ s'.Stands t passed t.pageSize.toNat next sc' := by
  induction turns generalizing s offset sc with
  | zero =>
      obtain rfl := Except.ok.inj hrun
      rw [← hturns]
      exact ⟨s, .refl ping s, h⟩
  | succ turns ih =>
      unfold scanPage at hrun
      obtain ⟨middle, hslot, hrun⟩ := ok_of_bind hrun
      obtain ⟨s₁, hgoes₁, hstands₁⟩ := h.slot_goes (by omega) hslot
      obtain ⟨s₂, hgoes₂, hstands₂⟩ := ih hstands₁ (by omega) hrun
      exact ⟨s₂, hgoes₁.trans hgoes₂, hstands₂⟩

/-- The step from the last slot of a page to the first of the next. -/
theorem Stands.turn_page (h : s.Stands t passed t.pageSize.toNat next sc) :
    s.look passed.length t.pageSize.toNat =
      some { s with scan := .looking (passed.length + 1) 0 } := by
  have hpage : ¬ s.table.pages.length ≤ passed.length := by
    rw [h.table, List.length_append, List.length_cons]
    omega
  have hsize : s.table.pageSize.toNat ≤ t.pageSize.toNat := by rw [h.table]
  unfold CollectorState.look
  rw [if_neg hpage, if_pos hsize]

/-- The pages that are left. -/
theorem pages_goes {rest pages : List (Page Nat)} {values' : Heap}
    {free free' : List UInt32} (hscan : s.scan = .looking passed.length 0)
    (htable : s.table = { t with pages := passed ++ rest, freeStack := free })
    (hrun : scanPages ping t.pageSize.toNat rest (passed.length * t.pageSize.toNat) s.values
      free = .ok (pages, values', free')) :
    ∃ s', Goes ping s s' ∧ s'.scan = .waiting ∧
      s'.table = { t with pages := passed ++ pages, freeStack := free' } ∧
      s'.values = values' := by
  induction rest generalizing s passed free pages with
  | nil =>
      obtain ⟨rfl, rfl, rfl⟩ := by simpa [scanPages] using hrun
      have hlook : s.look passed.length 0 = some { s with scan := .waiting } := by
        unfold CollectorState.look
        rw [htable, List.append_nil, if_pos (le_refl _)]
      exact ⟨_, .look hscan hlook, rfl, htable, rfl⟩
  | cons rmv next ih =>
      unfold scanPages at hrun
      obtain ⟨sc, hpage, hrun⟩ := ok_of_bind hrun
      obtain ⟨⟨left, values₂, free₂⟩, hnext, hrun⟩ := ok_of_bind hrun
      cases hrun
      have hstands : s.Stands t passed 0 next ⟨rmv, s.values, free⟩ := ⟨hscan, htable, rfl⟩
      obtain ⟨s₁, hgoes₁, hstands₁⟩ := hstands.page_goes (Nat.zero_add _) hpage
      have htable₁ : s₁.table =
          { t with pages := (passed ++ [sc.rmv]) ++ next, freeStack := sc.freeStack } := by
        rw [hstands₁.table, List.append_assoc]
        rfl
      have hoffset : passed.length * t.pageSize.toNat + t.pageSize.toNat =
          (passed ++ [sc.rmv]).length * t.pageSize.toNat := by
        rw [List.length_append, List.length_singleton, Nat.succ_mul]
      rw [hoffset, ← hstands₁.values] at hnext
      obtain ⟨s₂, hgoes₂, hscan₂, htable₂, hvalues₂⟩ :=
        ih (s := { s₁ with scan := .looking (passed ++ [sc.rmv]).length 0 }) rfl htable₁ hnext
      refine ⟨s₂, ?_, hscan₂, ?_, hvalues₂⟩
      · refine hgoes₁.trans (.trans (.look hstands₁.scan hstands₁.turn_page) ?_)
        rwa [List.length_append] at hgoes₂
      · rw [htable₂, List.append_assoc]
        rfl

/-- The steps of the scan that nobody disturbs make the same pass. -/
theorem svcScan_goes {t' : RMVByMapped Nat} {values' : Heap} (hscan : s.scan = .looking 0 0)
    (hrun : svcScan ping s.table s.values = .ok (t', values')) :
    ∃ s', Goes ping s s' ∧ s'.scan = .waiting ∧ s'.table = t' ∧ s'.values = values' := by
  unfold svcScan at hrun
  obtain ⟨⟨pages, values, free⟩, hpages, hrun⟩ := ok_of_bind hrun
  cases hrun
  rw [← Nat.zero_mul s.table.pageSize.toNat] at hpages
  have hstart : s.scan = .looking ([] : List (Page Nat)).length 0 := hscan
  exact pages_goes hstart rfl hpages

/-- So a pass among the steps is exact where the scan is left alone. -/
theorem goes_collected (hscan : s.scan = .looking 0 0) (h : s.table.Accounted s.values) :
    ∃ s', Goes ping s s' ∧ s'.scan = .waiting ∧
      RMVByMapped.Collected ping s.table s.values s'.table s'.values := by
  obtain ⟨values', hrun, hreleased⟩ := RMVByMapped.svcScan_eq ping h
  obtain ⟨s', hgoes, hwaiting, htable, hvalues⟩ := svcScan_goes hscan hrun
  refine ⟨s', hgoes, hwaiting, ?_⟩
  rw [htable, hvalues]
  exact h.swept_collected hreleased

end Alone

end CollectorState

end Lorica
