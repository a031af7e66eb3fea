import Lorica.Lib.Ledger
import Lorica.ProxyMapper

/-!
What the operations of the registry can do to its state, said once. A `Move`
is one change of the tables, the values or the pointers callers own; every
operation of `Lorica.ProxyMapper` is a short sequence of moves. Invariants
are proved on moves: `Safe` says that the reference counts add up, so that no
pointer dangles, and `Traced` ties the occupied slots to the recorded
history.
-/

namespace Lorica

open Machine

namespace Registry

/-- The value in one slot of the table of one mapper. -/
def slotOf (reg : Registry) (m i : Nat) : Option Nat :=
  (reg.table m).bind fun t => t.slot i

/-- Some slot of some table holds the value. -/
def Bound (reg : Registry) (a : Nat) : Prop :=
  ∃ m i, reg.slotOf m i = some a

/-- Replace the answers of the evaluators, as a change of the interface
repository does. -/
def withEvaluators (reg : Registry) (answers : Nat → String → Bool) : Registry :=
  { reg with mappers := reg.mappers.mapIdx fun m mapper =>
      { mapper with evaluatorFor := answers m } }

section Views

variable {reg : Registry} {m : Nat} {t : RMVByMapped Nat}

theorem slotOf_eq (h : reg.table m = some t) (i : Nat) :
    reg.slotOf m i = t.slot i := by
  simp [slotOf, h]

theorem table_setTable (h : reg.table m = some t) (t' : RMVByMapped Nat)
    (k : Nat) :
    (reg.setTable m t').table k = if k = m then some t' else reg.table k := by
  unfold table setTable at *
  simp only [List.getElem?_modify]
  by_cases hk : k = m
  · subst hk
    obtain ⟨mapper, hmapper, -⟩ := Option.bind_eq_some_iff.mp h
    simp [hmapper]
  · simp [hk, Ne.symm hk]

theorem slotOf_setTable (h : reg.table m = some t) (t' : RMVByMapped Nat)
    (k i : Nat) :
    (reg.setTable m t').slotOf k i =
      if k = m then t'.slot i else reg.slotOf k i := by
  unfold slotOf
  rw [table_setTable h]
  split <;> rfl

@[simp] theorem setTable_values (t' : RMVByMapped Nat) :
    (reg.setTable m t').values = reg.values := rfl

@[simp] theorem setTable_history (t' : RMVByMapped Nat) :
    (reg.setTable m t').history = reg.history := rfl

@[simp] theorem setTable_hasSecurity (t' : RMVByMapped Nat) :
    (reg.setTable m t').hasSecurity = reg.hasSecurity := rfl

@[simp] theorem setTable_length (t' : RMVByMapped Nat) :
    (reg.setTable m t').mappers.length = reg.mappers.length := by
  simp [setTable]

@[simp] theorem setValues_table (values : Heap) (k : Nat) :
    (reg.setValues values).table k = reg.table k := rfl

@[simp] theorem setValues_slotOf (values : Heap) (k i : Nat) :
    (reg.setValues values).slotOf k i = reg.slotOf k i := rfl

@[simp] theorem setValues_values (values : Heap) :
    (reg.setValues values).values = values := rfl

@[simp] theorem setValues_history (values : Heap) :
    (reg.setValues values).history = reg.history := rfl

@[simp] theorem log_values (event : MapEvent) :
    (reg.log event).values = reg.values := rfl

@[simp] theorem log_history (event : MapEvent) :
    (reg.log event).history = event :: reg.history := rfl

@[simp] theorem log_table (event : MapEvent) (k : Nat) :
    (reg.log event).table k = reg.table k := rfl

@[simp] theorem log_slotOf (event : MapEvent) (k i : Nat) :
    (reg.log event).slotOf k i = reg.slotOf k i := rfl

@[simp] theorem withEvaluators_table (answers : Nat → String → Bool) (k : Nat) :
    (reg.withEvaluators answers).table k = reg.table k := by
  unfold table withEvaluators
  simp only [List.getElem?_mapIdx]
  cases reg.mappers[k]? <;> rfl

@[simp] theorem withEvaluators_slotOf (answers : Nat → String → Bool) (k i : Nat) :
    (reg.withEvaluators answers).slotOf k i = reg.slotOf k i := by
  simp [slotOf]

end Views

end Registry

/-- The registry and the pointers to values that callers own. -/
structure RegistryState where
  reg : Registry
  held : List Nat

/-- One change of the state. The last column of each line is who makes it. -/
inductive Move (orb : Orb) (inst : Instance) :
    RegistryState → RegistryState → Prop where
  /-- `next_index` -/
  | issue {reg : Registry} {held : List Nat} {m : Nat} {t : RMVByMapped Nat}
      (ht : reg.table m = some t) :
      Move orb inst ⟨reg, held⟩ ⟨reg.setTable m t.nextIndex.2, held⟩
  /-- `new ReferenceMapValue`, in `reverse` and for a mapping that no table
  keeps -/
  | alloc {reg : Registry} {held : List Nat} (v : ReferenceMapValue)
      (hv : v.refCount = 1) :
      Move orb inst ⟨reg, held⟩
        ⟨reg.setValues (reg.values.alloc v).2, reg.values.fresh :: held⟩
  /-- `new ReferenceMapValue` followed by a successful `bind` -/
  | install {reg : Registry} {held : List Nat} {poa : Poa} {index : UInt32}
      {native : ObjRef} {t : RMVByMapped Nat} {v : ReferenceMapValue}
      (ht : reg.table poa.mapper = some t) (hindex : index < t.limit)
      (hslot : t.slot index.toNat = none) (hv : v.refCount = 2)
      (horig : v.origRef = reg.origRef native)
      (href : orb.createReferenceWithId poa
        (inst.objectId poa.outFacing index) native.typeId = .ok v.mappedRef)
      (hforeign : inst.ours native.key = false) :
      Move orb inst ⟨reg, held⟩
        ⟨((reg.setValues (reg.values.alloc v).2).setTable poa.mapper
            (t.storeAt index (some reg.values.fresh))).log
          (.mapped poa (inst.objectId poa.outFacing index) native
            reg.values.fresh),
          reg.values.fresh :: held⟩
  /-- a successful `find` -/
  | take {reg : Registry} {held : List Nat} {m i a : Nat}
      {v : ReferenceMapValue} (hslot : reg.slotOf m i = some a)
      (hv : reg.values.cells a = some v) :
      Move orb inst ⟨reg, held⟩
        ⟨reg.setValues (reg.values.write a
          (some { v with refCount := v.refCount + 1 })), a :: held⟩
  /-- a successful `unbind` -/
  | unbind {reg : Registry} {held : List Nat} {m a : Nat} {index : UInt32}
      {t : RMVByMapped Nat} (ht : reg.table m = some t)
      (hindex : index < t.limit) (hslot : t.slot index.toNat = some a) :
      Move orb inst ⟨reg, held⟩
        ⟨(reg.setTable m { t.storeAt index none with
            freeStack := index :: t.freeStack }).log (.removed a), a :: held⟩
  /-- a removal by the collector -/
  | reap {reg : Registry} {held : List Nat} {m page offset a : Nat}
      {t : RMVByMapped Nat} {values : Heap} (ht : reg.table m = some t)
      (hoffset : offset < t.pageSize.toNat) (hpage : page < t.pages.length)
      (hslot : t.slot (page * t.pageSize.toNat + offset) = some a)
      (hdecr : reg.values.decrRefcount a = .ok values) :
      Move orb inst ⟨reg, held⟩
        ⟨((reg.setValues values).setTable m (t.reap page offset)).log
          (.removed a), held⟩
  /-- a caller's `_var` goes out of scope -/
  | drop {reg : Registry} {held : List Nat} {a : Nat} {values : Heap}
      (ha : a ∈ held) (hdecr : reg.values.decrRefcount a = .ok values) :
      Move orb inst ⟨reg, held⟩ ⟨reg.setValues values, held.erase a⟩
  /-- a caller writes the other fields of a value it holds -/
  | touch {reg : Registry} {held : List Nat} {a : Nat}
      {v v' : ReferenceMapValue} (ha : a ∈ held)
      (hv : reg.values.cells a = some v) (horig : v'.origRef = v.origRef)
      (hmapped : v'.mappedRef = v.mappedRef) (hcount : v'.refCount = v.refCount) :
      Move orb inst ⟨reg, held⟩
        ⟨reg.setValues (reg.values.write a (some v')), held⟩
  /-- the interface repository changes -/
  | evaluators {reg : Registry} {held : List Nat}
      (answers : Nat → String → Bool) :
      Move orb inst ⟨reg, held⟩ ⟨reg.withEvaluators answers, held⟩

namespace RegistryState

/-- Who points to the values: the slots of the tables and the callers. -/
def ledger (s : RegistryState) : Ledger (Nat × Nat) where
  slots p := s.reg.slotOf p.1 p.2
  held := s.held
  counts := s.reg.values.counts

/-- No pointer dangles: the counts of the living values add up, and nothing
points to a dead one. -/
structure Safe (s : RegistryState) : Prop where
  cover : ∀ m t, s.reg.table m = some t → t.PagesCover
  balanced : s.ledger.Balanced
  fresh : ∀ a, s.reg.values.fresh ≤ a → s.reg.values.cells a = none

/-- The history and the tables tell the same story. -/
structure Traced (orb : Orb) (inst : Instance) (s : RegistryState) : Prop where
  made : ∀ m i a, s.reg.slotOf m i = some a →
    ∃ outFacing index native v,
      i = UInt32.toNat index ∧
      .mapped ⟨m, outFacing⟩ (inst.objectId outFacing index) native a ∈
        s.reg.history ∧
      .removed a ∉ s.reg.history ∧
      s.reg.values.cells a = some v ∧
      v.origRef = s.reg.origRef native ∧
      orb.createReferenceWithId ⟨m, outFacing⟩
        (inst.objectId outFacing index) native.typeId = .ok v.mappedRef
  live : ∀ poa oid native a, .mapped poa oid native a ∈ s.reg.history →
    .removed a ∉ s.reg.history →
    ∃ index, oid = inst.objectId poa.outFacing index ∧
      s.reg.slotOf poa.mapper index.toNat = some a
  once : ∀ poa oid native poa' oid' native' a,
    .mapped poa oid native a ∈ s.reg.history →
    .mapped poa' oid' native' a ∈ s.reg.history →
    poa = poa' ∧ oid = oid' ∧ native = native'
  past : ∀ poa oid native a, .mapped poa oid native a ∈ s.reg.history ∨
    .removed a ∈ s.reg.history → a < s.reg.values.fresh
  foreign : ∀ poa oid native a, .mapped poa oid native a ∈ s.reg.history →
    inst.ours native.key = false

section Safety

variable {s : RegistryState} {a : Nat} {v : ReferenceMapValue}

theorem bound_ledger : s.ledger.Bound a ↔ s.reg.Bound a := by
  constructor
  · rintro ⟨⟨m, i⟩, h⟩
    exact ⟨m, i, h⟩
  · rintro ⟨m, i, h⟩
    exact ⟨(m, i), h⟩

theorem Safe.injective (h : s.Safe) (m i m' i' a : Nat)
    (hslot : s.reg.slotOf m i = some a) (hslot' : s.reg.slotOf m' i' = some a) :
    m = m' ∧ i = i' :=
  Prod.mk.inj (h.balanced.injective (m, i) (m', i') a hslot hslot')

theorem Safe.counted (h : s.Safe) (a : Nat) (v : ReferenceMapValue)
    (hv : s.reg.values.cells a = some v) :
    v.refCount = s.ledger.owners a ∧ 1 ≤ v.refCount :=
  h.balanced.counted a _ (Heap.counts_eq hv)

theorem Safe.dead (h : s.Safe) (a : Nat) (hv : s.reg.values.cells a = none) :
    ¬ s.reg.Bound a ∧ a ∉ s.held := by
  rw [← bound_ledger]
  exact h.balanced.dead a (by simp [ledger, Heap.counts, hv])

theorem Safe.bound_cell (h : s.Safe) (hb : s.reg.Bound a) :
    ∃ v, s.reg.values.cells a = some v := by
  cases hv : s.reg.values.cells a with
  | none => exact absurd hb (h.dead a hv).1
  | some v => exact ⟨v, rfl⟩

theorem Safe.held_cell (h : s.Safe) (ha : a ∈ s.held) :
    ∃ v, s.reg.values.cells a = some v := by
  cases hv : s.reg.values.cells a with
  | none => exact absurd ha (h.dead a hv).2
  | some v => exact ⟨v, rfl⟩

end Safety

section Slots

variable {reg reg' : Registry} {m j a : Nat}

/-- Clearing the only slot that holds a value unbinds that value alone. -/
theorem bound_clear
    (hinj : ∀ k i k' i' b, reg.slotOf k i = some b → reg.slotOf k' i' = some b →
      k = k' ∧ i = i')
    (hslot : reg.slotOf m j = some a)
    (hclear : ∀ k i, reg'.slotOf k i =
      if k = m ∧ i = j then none else reg.slotOf k i) (b : Nat) :
    reg'.Bound b ↔ reg.Bound b ∧ b ≠ a := by
  constructor
  · rintro ⟨k, i, hki⟩
    rw [hclear] at hki
    split at hki
    · cases hki
    · next hne =>
        refine ⟨⟨k, i, hki⟩, ?_⟩
        rintro rfl
        exact hne (hinj _ _ _ _ _ hki hslot)
  · rintro ⟨⟨k, i, hki⟩, hne⟩
    refine ⟨k, i, ?_⟩
    rw [hclear, if_neg]
    · exact hki
    · rintro ⟨rfl, rfl⟩
      rw [hslot] at hki
      exact hne (Option.some.inj hki).symm

/-- The slots after a store at a 32-bit index of one table. -/
theorem slotOf_storeAt {t t' : RMVByMapped Nat} {index : UInt32}
    {content : Option Nat} (ht : reg.table m = some t) (hcover : t.PagesCover)
    (hindex : index < t.limit)
    (ht' : t'.slot = (t.storeAt index content).slot) (k i : Nat) :
    (reg.setTable m t').slotOf k i =
      if k = m ∧ i = index.toNat then content else reg.slotOf k i := by
  rw [Registry.slotOf_setTable ht, ht', RMVByMapped.storeAt_slot hcover hindex]
  by_cases hk : k = m
  · subst hk
    rw [Registry.slotOf_eq ht]
    by_cases hi : i = index.toNat
    · simp [hi]
    · simp [hi]
  · simp [hk]

/-- The slots after the collector cleared one. -/
theorem slotOf_reap {t : RMVByMapped Nat} {page offset : Nat}
    (ht : reg.table m = some t) (hoffset : offset < t.pageSize.toNat)
    (hpage : page < t.pages.length) (k i : Nat) :
    (reg.setTable m (t.reap page offset)).slotOf k i =
      if k = m ∧ i = page * t.pageSize.toNat + offset then none
      else reg.slotOf k i := by
  rw [Registry.slotOf_setTable ht, RMVByMapped.reap_slot t page offset hoffset
    hpage, Function.update_apply]
  by_cases hk : k = m
  · subst hk
    simp only [if_true, true_and, Registry.slotOf_eq ht]
  · simp [hk]

end Slots

section SafeMoves

variable {reg : Registry} {held : List Nat}

theorem cover_setTable {m : Nat} {t t' : RMVByMapped Nat}
    (hold : ∀ k u, reg.table k = some u → u.PagesCover)
    (ht : reg.table m = some t) (ht' : t'.PagesCover) (k : Nat)
    (u : RMVByMapped Nat) (hu : (reg.setTable m t').table k = some u) :
    u.PagesCover := by
  rw [Registry.table_setTable ht] at hu
  split at hu
  · exact Option.some.inj hu ▸ ht'
  · exact hold k u hu

theorem fresh_write {h : Heap} {a : Nat} {v : Option ReferenceMapValue}
    (hfresh : ∀ b, h.fresh ≤ b → h.cells b = none) (ha : a < h.fresh) (b : Nat)
    (hb : (h.write a v).fresh ≤ b) : (h.write a v).cells b = none := by
  rw [Heap.write_fresh] at hb
  rw [Heap.write_cells_of_ne _ (by omega)]
  exact hfresh b hb

/-- A living value lies below the next address. -/
theorem lt_fresh {h : Heap} {a : Nat} {v : ReferenceMapValue}
    (hfresh : ∀ b, h.fresh ≤ b → h.cells b = none) (hv : h.cells a = some v) :
    a < h.fresh := by
  by_contra hle
  rw [hfresh a (by omega)] at hv
  cases hv

theorem slots_update {reg' : Registry} {m j : Nat} {content : Option Nat}
    (h : ∀ k i, reg'.slotOf k i =
      if k = m ∧ i = j then content else reg.slotOf k i) :
    (fun p : Nat × Nat => reg'.slotOf p.1 p.2) =
      Function.update (fun p : Nat × Nat => reg.slotOf p.1 p.2) (m, j) content := by
  funext ⟨k, i⟩
  rw [h]
  by_cases hki : k = m ∧ i = j
  · rw [if_pos hki, hki.1, hki.2, Function.update_self]
  · rw [if_neg hki, Function.update_of_ne]
    exact fun heq => hki (Prod.mk.inj heq)

theorem Safe.issue (h : Safe ⟨reg, held⟩) {m : Nat} {t : RMVByMapped Nat}
    (ht : reg.table m = some t) :
    Safe ⟨reg.setTable m t.nextIndex.2, held⟩ := by
  refine ⟨cover_setTable h.cover ht (h.cover m t ht).nextIndex, ?_, h.fresh⟩
  refine h.balanced.congr ?_ rfl rfl
  funext ⟨k, i⟩
  change (reg.setTable m t.nextIndex.2).slotOf k i = reg.slotOf k i
  rw [Registry.slotOf_setTable ht, RMVByMapped.nextIndex_slot]
  split
  · next hk => rw [hk, Registry.slotOf_eq ht]
  · rfl

theorem fresh_alloc {h : Heap} {v : ReferenceMapValue}
    (hfresh : ∀ b, h.fresh ≤ b → h.cells b = none) (b : Nat)
    (hb : (h.alloc v).2.fresh ≤ b) : (h.alloc v).2.cells b = none := by
  simp only [Heap.alloc] at hb ⊢
  have hne : b ≠ h.fresh := by omega
  exact (Heap.write_cells_of_ne _ hne _).trans (hfresh b (by omega))

theorem Safe.alloc (h : Safe ⟨reg, held⟩) {v : ReferenceMapValue}
    (hv : v.refCount = 1) :
    Safe ⟨reg.setValues (reg.values.alloc v).2, reg.values.fresh :: held⟩ := by
  have hfree : (ledger ⟨reg, held⟩).counts reg.values.fresh = none := by
    simpa [ledger, Heap.counts] using h.fresh _ (le_refl _)
  refine ⟨h.cover, (h.balanced.make hfree).congr rfl rfl ?_, fresh_alloc h.fresh⟩
  refine (Heap.counts_write reg.values reg.values.fresh (some v)).trans ?_
  rw [Option.map_some, hv]
  rfl

theorem Safe.install (h : Safe ⟨reg, held⟩) {m : Nat} {index : UInt32}
    {t : RMVByMapped Nat} {v : ReferenceMapValue} {event : MapEvent}
    (ht : reg.table m = some t) (hindex : index < t.limit)
    (hslot : t.slot index.toNat = none) (hv : v.refCount = 2) :
    Safe ⟨((reg.setValues (reg.values.alloc v).2).setTable m
      (t.storeAt index (some reg.values.fresh))).log event,
      reg.values.fresh :: held⟩ := by
  have hcover := h.cover m t ht
  have hempty : reg.slotOf m index.toNat = none := by
    rw [Registry.slotOf_eq ht, hslot]
  have hfill : ∀ k i, ((reg.setValues (reg.values.alloc v).2).setTable m
      (t.storeAt index (some reg.values.fresh))).slotOf k i =
        if k = m ∧ i = index.toNat then some reg.values.fresh
        else reg.slotOf k i :=
    slotOf_storeAt ht hcover hindex rfl
  have hfree : (ledger ⟨reg, held⟩).counts reg.values.fresh = none := by
    simpa [ledger, Heap.counts] using h.fresh _ (le_refl _)
  -- the value is made by its caller and then placed with a second count
  have hmade := h.balanced.make hfree
  have hplaced := hmade.place (i := (m, index.toNat)) (a := reg.values.fresh)
    (n := 1) hempty (h.balanced.dead _ hfree).1 (Function.update_self _ _ _)
  refine ⟨cover_setTable h.cover ht (hcover.store _ _ _),
    hplaced.congr (slots_update hfill) rfl ?_, fresh_alloc h.fresh⟩
  refine (Heap.counts_write reg.values reg.values.fresh (some v)).trans ?_
  dsimp only
  rw [Option.map_some, hv, Function.update_idem]
  rfl

theorem Safe.take (h : Safe ⟨reg, held⟩) {a : Nat} {v : ReferenceMapValue}
    (hv : reg.values.cells a = some v) :
    Safe ⟨reg.setValues (reg.values.write a
      (some { v with refCount := v.refCount + 1 })), a :: held⟩ :=
  ⟨h.cover, (h.balanced.take (Heap.counts_eq hv)).congr rfl rfl
    (Heap.counts_write _ _ _), fresh_write h.fresh (lt_fresh h.fresh hv)⟩

theorem Safe.unbind (h : Safe ⟨reg, held⟩) {m a : Nat} {index : UInt32}
    {t : RMVByMapped Nat} {event : MapEvent} (ht : reg.table m = some t)
    (hindex : index < t.limit) (hslot : t.slot index.toNat = some a) :
    Safe ⟨(reg.setTable m { t.storeAt index none with
      freeStack := index :: t.freeStack }).log event, a :: held⟩ := by
  have hcover := h.cover m t ht
  have hfull : reg.slotOf m index.toNat = some a := by
    rw [Registry.slotOf_eq ht, hslot]
  have hclear : ∀ k i, (reg.setTable m { t.storeAt index none with
      freeStack := index :: t.freeStack }).slotOf k i =
        if k = m ∧ i = index.toNat then none else reg.slotOf k i :=
    slotOf_storeAt ht hcover hindex rfl
  have hlifted := h.balanced.lift (i := (m, index.toNat)) hfull
  exact ⟨cover_setTable h.cover ht (hcover.store _ _ _),
    hlifted.congr (slots_update hclear) rfl rfl, h.fresh⟩

theorem Safe.reap (h : Safe ⟨reg, held⟩) {m page offset a : Nat}
    {t : RMVByMapped Nat} {values : Heap} {event : MapEvent}
    (ht : reg.table m = some t) (hoffset : offset < t.pageSize.toNat)
    (hpage : page < t.pages.length)
    (hslot : t.slot (page * t.pageSize.toNat + offset) = some a)
    (hdecr : reg.values.decrRefcount a = .ok values) :
    Safe ⟨((reg.setValues values).setTable m (t.reap page offset)).log event,
      held⟩ := by
  have hfull : reg.slotOf m (page * t.pageSize.toNat + offset) = some a := by
    rw [Registry.slotOf_eq ht, hslot]
  have hclear : ∀ k i, ((reg.setValues values).setTable m
      (t.reap page offset)).slotOf k i =
        if k = m ∧ i = page * t.pageSize.toNat + offset then none
        else reg.slotOf k i :=
    slotOf_reap ht hoffset hpage
  obtain ⟨v, content, hv, rfl, hcount⟩ := Heap.decrRefcount_counts hdecr
  have hcleared := h.balanced.clear
    (i := (m, page * t.pageSize.toNat + offset)) hfull (Heap.counts_eq hv)
  refine ⟨cover_setTable h.cover ht ((h.cover m t ht).store _ _ _),
    hcleared.congr (slots_update hclear) rfl ?_,
    fresh_write h.fresh (lt_fresh h.fresh hv)⟩
  exact (Heap.counts_write _ _ _).trans (by rw [hcount]; rfl)

theorem Safe.drop (h : Safe ⟨reg, held⟩) {a : Nat} {values : Heap}
    (ha : a ∈ held) (hdecr : reg.values.decrRefcount a = .ok values) :
    Safe ⟨reg.setValues values, held.erase a⟩ := by
  obtain ⟨v, content, hv, rfl, hcount⟩ := Heap.decrRefcount_counts hdecr
  have hdropped := h.balanced.drop ha (Heap.counts_eq hv)
  refine ⟨h.cover, hdropped.congr rfl rfl ?_,
    fresh_write h.fresh (lt_fresh h.fresh hv)⟩
  exact (Heap.counts_write _ _ _).trans (by rw [hcount]; rfl)

theorem Safe.touch (h : Safe ⟨reg, held⟩) {a : Nat} {v v' : ReferenceMapValue}
    (hv : reg.values.cells a = some v) (hcount : v'.refCount = v.refCount) :
    Safe ⟨reg.setValues (reg.values.write a (some v')), held⟩ := by
  refine ⟨h.cover, h.balanced.congr rfl rfl ?_,
    fresh_write h.fresh (lt_fresh h.fresh hv)⟩
  refine (Heap.counts_write _ _ _).trans ?_
  rw [Option.map_some, hcount, ← Heap.counts_eq hv]
  exact Function.update_eq_self _ _

theorem Safe.evaluators (h : Safe ⟨reg, held⟩) (answers : Nat → String → Bool) :
    Safe ⟨reg.withEvaluators answers, held⟩ := by
  refine ⟨?_, h.balanced.congr ?_ rfl rfl, h.fresh⟩
  · intro m t ht
    rw [Registry.withEvaluators_table] at ht
    exact h.cover m t ht
  · funext p
    exact Registry.withEvaluators_slotOf answers p.1 p.2

/-- The counts add up after every move. -/
theorem Safe.move {orb : Orb} {inst : Instance} {s s' : RegistryState}
    (h : s.Safe) (hmove : Move orb inst s s') : s'.Safe := by
  cases hmove with
  | issue ht => exact h.issue ht
  | alloc v hv => exact h.alloc hv
  | install ht hindex hslot hv _ _ _ => exact h.install ht hindex hslot hv
  | take _ hv => exact h.take hv
  | unbind ht hindex hslot => exact h.unbind ht hindex hslot
  | reap ht hoffset hpage hslot hdecr => exact h.reap ht hoffset hpage hslot hdecr
  | drop ha hdecr => exact h.drop ha hdecr
  | touch _ hv _ _ hcount => exact h.touch hv hcount
  | evaluators answers => exact h.evaluators answers

end SafeMoves

section TracedMoves

variable {orb : Orb} {inst : Instance}

theorem origRef_congr {reg reg' : Registry}
    (h : reg'.hasSecurity = reg.hasSecurity) (native : ObjRef) :
    reg'.origRef native = reg.origRef native := by
  simp [Registry.origRef, Registry.supportsSecure, h]

/-- A step that leaves slots and history alone, and the references of every
bound value with them. -/
theorem Traced.of_same {s s' : RegistryState} (h : Traced orb inst s)
    (hslot : ∀ m i, s'.reg.slotOf m i = s.reg.slotOf m i)
    (hhistory : s'.reg.history = s.reg.history)
    (hsecurity : s'.reg.hasSecurity = s.reg.hasSecurity)
    (hfresh : s.reg.values.fresh ≤ s'.reg.values.fresh)
    (hcells : ∀ a v, s.reg.Bound a → s.reg.values.cells a = some v →
      ∃ v', s'.reg.values.cells a = some v' ∧ v'.origRef = v.origRef ∧
        v'.mappedRef = v.mappedRef) :
    Traced orb inst s' := by
  refine ⟨?_, ?_, ?_, ?_, fun poa oid native a hm =>
    h.foreign poa oid native a (hhistory ▸ hm)⟩
  · intro m i a ha
    rw [hslot] at ha
    obtain ⟨f, index, native, v, hi, hmapped, hremoved, hv, horig, href⟩ :=
      h.made m i a ha
    obtain ⟨v', hv', horig', hmapped'⟩ := hcells a v ⟨m, i, ha⟩ hv
    refine ⟨f, index, native, v', hi, ?_, ?_, hv', ?_, ?_⟩
    · rwa [hhistory]
    · rwa [hhistory]
    · rw [horig', horig, origRef_congr hsecurity]
    · rw [hmapped', href]
  · intro poa oid native a hm hr
    rw [hhistory] at hm hr
    simp only [hslot]
    exact h.live poa oid native a hm hr
  · intro poa oid native poa' oid' native' a hm hm'
    rw [hhistory] at hm hm'
    exact h.once poa oid native poa' oid' native' a hm hm'
  · intro poa oid native a hm
    rw [hhistory] at hm
    exact lt_of_lt_of_le (h.past poa oid native a hm) hfresh

/-- A step that clears the slot of one value and records its removal. -/
theorem Traced.of_removed {s s' : RegistryState} (h : Traced orb inst s)
    (hsafe : s.Safe) {m j a : Nat} (hfull : s.reg.slotOf m j = some a)
    (hclear : ∀ k i, s'.reg.slotOf k i =
      if k = m ∧ i = j then none else s.reg.slotOf k i)
    (hhistory : s'.reg.history = .removed a :: s.reg.history)
    (hsecurity : s'.reg.hasSecurity = s.reg.hasSecurity)
    (hfresh : s'.reg.values.fresh = s.reg.values.fresh)
    (hcells : ∀ b, b ≠ a → s'.reg.values.cells b = s.reg.values.cells b) :
    Traced orb inst s' := by
  have hother : ∀ k i b, s'.reg.slotOf k i = some b →
      s.reg.slotOf k i = some b ∧ b ≠ a := by
    intro k i b hb
    have hbound := (bound_clear hsafe.injective hfull hclear b).mp ⟨k, i, hb⟩
    rw [hclear] at hb
    split at hb
    · cases hb
    · exact ⟨hb, hbound.2⟩
  have ha : a < s.reg.values.fresh := by
    obtain ⟨v, hv⟩ := hsafe.bound_cell ⟨m, j, hfull⟩
    exact lt_fresh hsafe.fresh hv
  refine ⟨?_, ?_, ?_, ?_, ?_⟩
  · intro k i b hb
    obtain ⟨hold, hne⟩ := hother k i b hb
    obtain ⟨f, index, native, v, hi, hmapped, hremoved, hv, horig, href⟩ :=
      h.made k i b hold
    refine ⟨f, index, native, v, hi, ?_, ?_, ?_, ?_, href⟩
    · rw [hhistory]
      exact List.mem_cons_of_mem _ hmapped
    · rw [hhistory]
      simp [hne, hremoved]
    · rw [hcells b hne, hv]
    · rw [horig, origRef_congr hsecurity]
  · intro poa oid native b hm hr
    rw [hhistory] at hm hr
    simp only [List.mem_cons, reduceCtorEq, false_or, MapEvent.removed.injEq,
      not_or] at hm hr
    obtain ⟨index, hoid, hslot⟩ := h.live poa oid native b hm hr.2
    refine ⟨index, hoid, ?_⟩
    rw [hclear, if_neg]
    · exact hslot
    · rintro ⟨hk, hi⟩
      rw [hk, hi, hfull] at hslot
      exact hr.1 (Option.some.inj hslot).symm
  · intro poa oid native poa' oid' native' b hm hm'
    rw [hhistory] at hm hm'
    simp only [List.mem_cons, reduceCtorEq, false_or] at hm hm'
    exact h.once poa oid native poa' oid' native' b hm hm'
  · intro poa oid native b hm
    rw [hhistory] at hm
    rw [hfresh]
    simp only [List.mem_cons, reduceCtorEq, false_or, MapEvent.removed.injEq] at hm
    rcases hm with hm | rfl | hr
    · exact h.past poa oid native b (Or.inl hm)
    · exact ha
    · exact h.past poa oid native b (Or.inr hr)
  · intro poa oid native b hm
    rw [hhistory] at hm
    simp only [List.mem_cons, reduceCtorEq, false_or] at hm
    exact h.foreign poa oid native b hm

section Install

variable {reg : Registry} {poa p : Poa} {oid o : ObjectId} {native n : ObjRef} {a b : Nat}

theorem mapped_mem_log_mapped :
    .mapped p o n b ∈ (reg.log (.mapped poa oid native a)).history ↔
      (p = poa ∧ o = oid ∧ n = native ∧ b = a) ∨ .mapped p o n b ∈ reg.history := by
  rw [Registry.log_history, List.mem_cons, MapEvent.mapped.injEq]

theorem removed_mem_log_mapped :
    .removed b ∈ (reg.log (.mapped poa oid native a)).history ↔
      .removed b ∈ reg.history := by
  simp

/-- A new value goes into an empty slot. -/
theorem Traced.install {held : List Nat}
    (h : Traced orb inst ⟨reg, held⟩) (hsafe : Safe ⟨reg, held⟩)
    {index : UInt32} {t : RMVByMapped Nat}
    {v : ReferenceMapValue} (ht : reg.table poa.mapper = some t)
    (hindex : index < t.limit) (hslot : t.slot index.toNat = none)
    (horig : v.origRef = reg.origRef native)
    (href : orb.createReferenceWithId poa (inst.objectId poa.outFacing index)
      native.typeId = .ok v.mappedRef)
    (hforeign : inst.ours native.key = false) :
    Traced orb inst
      ⟨((reg.setValues (reg.values.alloc v).2).setTable poa.mapper
          (t.storeAt index (some reg.values.fresh))).log
        (.mapped poa (inst.objectId poa.outFacing index) native
          reg.values.fresh), reg.values.fresh :: held⟩ := by
  have hempty : reg.slotOf poa.mapper index.toNat = none := by
    rw [Registry.slotOf_eq ht, hslot]
  have hfill : ∀ k i, ((reg.setValues (reg.values.alloc v).2).setTable
      poa.mapper (t.storeAt index (some reg.values.fresh))).slotOf k i =
        if k = poa.mapper ∧ i = index.toNat then some reg.values.fresh
        else reg.slotOf k i :=
    slotOf_storeAt ht (hsafe.cover _ t ht) hindex rfl
  have hnever : ∀ p o n, .mapped p o n reg.values.fresh ∉ reg.history := by
    intro p o n hm
    exact lt_irrefl _ (h.past p o n _ (Or.inl hm))
  have hunremoved : .removed reg.values.fresh ∉ reg.history := by
    intro hr
    exact lt_irrefl _ (h.past poa [] native _ (Or.inr hr))
  have hcell : ∀ b, b ≠ reg.values.fresh →
      (reg.values.alloc v).2.cells b = reg.values.cells b :=
    fun b hb => Heap.write_cells_of_ne _ hb _
  constructor
  case made =>
    intro k i b hb
    simp only [Registry.log_slotOf, hfill] at hb
    split at hb
    · next hki =>
        obtain rfl := Option.some.inj hb
        obtain ⟨rfl, rfl⟩ := hki
        refine ⟨poa.outFacing, index, native, v, rfl, List.mem_cons_self, ?_,
          Heap.write_cells_self _ _ _, horig, href⟩
        rw [removed_mem_log_mapped]
        exact hunremoved
    · obtain ⟨f, j, n, w, hi, hmapped, hremoved, hw, horig', href'⟩ :=
        h.made k i b hb
      have hne : b ≠ reg.values.fresh := by
        have := lt_fresh hsafe.fresh hw
        dsimp only at this
        omega
      refine ⟨f, j, n, w, hi, List.mem_cons_of_mem _ hmapped, ?_, ?_, horig', href'⟩
      · rw [removed_mem_log_mapped]
        exact hremoved
      · exact (hcell b hne).trans hw
  case live =>
    intro p o n b hm hr
    rw [removed_mem_log_mapped] at hr
    rcases mapped_mem_log_mapped.mp hm with ⟨rfl, rfl, rfl, rfl⟩ | hm
    · refine ⟨index, rfl, ?_⟩
      rw [Registry.log_slotOf, hfill]
      simp
    · obtain ⟨j, ho, hj⟩ := h.live p o n b hm hr
      refine ⟨j, ho, ?_⟩
      rw [Registry.log_slotOf, hfill, if_neg]
      · exact hj
      · rintro ⟨hk, hi⟩
        dsimp only at hj
        rw [hk, hi, hempty] at hj
        cases hj
  case once =>
    intro p o n p' o' n' b hm hm'
    rcases mapped_mem_log_mapped.mp hm with ⟨rfl, rfl, rfl, rfl⟩ | hm
    · rcases mapped_mem_log_mapped.mp hm' with ⟨rfl, rfl, rfl, _⟩ | hm'
      · exact ⟨rfl, rfl, rfl⟩
      · exact absurd hm' (hnever _ _ _)
    · rcases mapped_mem_log_mapped.mp hm' with ⟨_, _, _, rfl⟩ | hm'
      · exact absurd hm (hnever _ _ _)
      · exact h.once p o n p' o' n' b hm hm'
  case past =>
    intro p o n b hm
    change b < reg.values.fresh + 1
    rw [mapped_mem_log_mapped, removed_mem_log_mapped] at hm
    rcases hm with (⟨_, _, _, rfl⟩ | hm) | hr
    · omega
    · exact Nat.lt_succ_of_lt (h.past p o n b (Or.inl hm))
    · exact Nat.lt_succ_of_lt (h.past p o n b (Or.inr hr))
  case foreign =>
    intro p o n b hm
    rcases mapped_mem_log_mapped.mp hm with ⟨_, _, rfl, _⟩ | hm
    · exact hforeign
    · exact h.foreign p o n b hm

end Install

/-- The history stays true to the tables along every move. -/
theorem Traced.move {s s' : RegistryState} (h : Traced orb inst s)
    (hsafe : s.Safe) (hmove : Move orb inst s s') : Traced orb inst s' := by
  cases hmove with
  | @issue reg held m t ht =>
      refine h.of_same ?_ rfl rfl (le_refl _) fun a v _ hv => ⟨v, hv, rfl, rfl⟩
      intro k i
      rw [Registry.slotOf_setTable ht, RMVByMapped.nextIndex_slot]
      split
      · next hk => rw [hk, Registry.slotOf_eq ht]
      · rfl
  | @alloc reg held v hv =>
      refine h.of_same (fun _ _ => rfl) rfl rfl (Nat.le_succ _) ?_
      intro a w _ hw
      refine ⟨w, ?_, rfl, rfl⟩
      have hne : a ≠ reg.values.fresh := (lt_fresh hsafe.fresh hw).ne
      exact (Heap.write_cells_of_ne _ hne _).trans hw
  | install ht hindex hslot _ horig href hforeign =>
      exact h.install hsafe ht hindex hslot horig href hforeign
  | @take reg held m i a v hslot hv =>
      refine h.of_same (fun _ _ => rfl) rfl rfl (le_refl _) ?_
      intro b w _ hw
      by_cases hb : b = a
      · subst hb
        obtain rfl := Option.some.inj (hv.symm.trans hw)
        exact ⟨_, Heap.write_cells_self _ _ _, rfl, rfl⟩
      · exact ⟨w, (Heap.write_cells_of_ne _ hb _).trans hw, rfl, rfl⟩
  | @unbind reg held m a index t ht hindex hslot =>
      refine h.of_removed hsafe (m := m) (j := index.toNat) (a := a) ?_ ?_
        rfl rfl rfl fun b _ => rfl
      · rw [Registry.slotOf_eq ht, hslot]
      · exact slotOf_storeAt ht (hsafe.cover m t ht) hindex rfl
  | @reap reg held m page offset a t values ht hoffset hpage hslot hdecr =>
      obtain ⟨v, hv, hcases⟩ := Heap.decrRefcount_cases hdecr
      have hclear : ∀ k i, ((reg.setValues values).setTable m
          (t.reap page offset)).slotOf k i =
            if k = m ∧ i = page * t.pageSize.toNat + offset then none
            else reg.slotOf k i :=
        slotOf_reap ht hoffset hpage
      refine h.of_removed hsafe (m := m)
        (j := page * t.pageSize.toNat + offset) (a := a) ?_ hclear rfl rfl ?_ ?_
      · rw [Registry.slotOf_eq ht, hslot]
      · rcases hcases with ⟨_, rfl⟩ | ⟨_, rfl⟩ <;> rfl
      · intro b hb
        rcases hcases with ⟨_, rfl⟩ | ⟨_, rfl⟩
        · exact Heap.write_cells_of_ne _ hb _
        · exact Heap.write_cells_of_ne _ hb _
  | @drop reg held a values ha hdecr =>
      obtain ⟨v, hv, hcases⟩ := Heap.decrRefcount_cases hdecr
      have hcount := (hsafe.counted a v hv).1
      have hheld : 0 < held.count a := List.count_pos_iff.mpr ha
      refine h.of_same (fun _ _ => rfl) rfl rfl ?_ ?_
      · rcases hcases with ⟨_, rfl⟩ | ⟨_, rfl⟩ <;> exact le_refl _
      · intro b w hbound hw
        by_cases hb : b = a
        · subst hb
          obtain rfl := Option.some.inj (hv.symm.trans hw)
          rw [Ledger.owners_bound (bound_ledger.mpr hbound)] at hcount
          rcases hcases with ⟨_, rfl⟩ | ⟨hone, _⟩
          · exact ⟨_, Heap.write_cells_self _ _ _, rfl, rfl⟩
          · change v.refCount = 1 + (held.count b : Int) at hcount
            omega
        · refine ⟨w, ?_, rfl, rfl⟩
          rcases hcases with ⟨_, rfl⟩ | ⟨_, rfl⟩
          · exact (Heap.write_cells_of_ne _ hb _).trans hw
          · exact (Heap.write_cells_of_ne _ hb _).trans hw
  | @touch reg held a v v' ha hv horig hmapped _ =>
      refine h.of_same (fun _ _ => rfl) rfl rfl (le_refl _) ?_
      intro b w _ hw
      by_cases hb : b = a
      · subst hb
        obtain rfl := Option.some.inj (hv.symm.trans hw)
        exact ⟨v', Heap.write_cells_self _ _ _, horig, hmapped⟩
      · exact ⟨w, (Heap.write_cells_of_ne _ hb _).trans hw, rfl, rfl⟩
  | evaluators answers =>
      exact h.of_same (fun _ _ => Registry.withEvaluators_slotOf _ _ _) rfl rfl
        (le_refl _) fun a v _ hv => ⟨v, hv, rfl, rfl⟩

end TracedMoves

end RegistryState

end Lorica
