import Lorica.FailedMapping

/-!
How long the indices of a table last. The bound that `find` and `unbind` test
against is a 32-bit product that grows by a page at a time and wraps around to
zero after the last one. Until then what is free or occupied lies below the
mark, the mark within the bound, and `bind` takes every index just issued.
-/

namespace Lorica

open Machine

namespace RMVByMapped

variable {V : Type} {t : RMVByMapped V}

/-- The table while its indices last: what is free or occupied is below the
mark, and the mark is within the bounds. -/
structure Snug (t : RMVByMapped V) : Prop where
  apart : t.Apart
  size : t.pageSize ≠ 0
  high : t.highIndex ≤ t.limit
  free : ∀ index ∈ t.freeStack, index < t.highIndex
  occupied : ∀ i, (t.slot i).isSome → i < t.highIndex.toNat

/-- The page that the next index may need does not take the bound past 2^32. -/
def Lasts (t : RMVByMapped V) : Prop :=
  t.limit ≤ t.nextIndex.2.limit

theorem nextIndex_limit :
    t.nextIndex.2.limit = if t.limit ≤ t.peekIndex then t.limit + t.pageSize else t.limit := by
  have hnum := congrArg Prod.fst t.nextIndex_grown
  rw [apply_ite Prod.fst] at hnum
  change t.nextIndex.2.numPages = _ at hnum
  rw [limit, nextIndex_pageSize, hnum]
  split
  · change (t.numPages + 1) * t.pageSize = t.numPages * t.pageSize + t.pageSize
    rw [UInt32.add_mul, UInt32.one_mul]
  · rfl

/-- The next index is within the bounds and its slot is empty. -/
theorem Snug.room (h : t.Snug) (hlasts : t.Lasts) :
    t.peekIndex < t.nextIndex.2.limit ∧ t.nextIndex.2.slot t.peekIndex.toNat = none := by
  rw [nextIndex_slot]
  unfold Lasts at hlasts
  cases hfree : t.freeStack with
  | nil =>
      have hpeek := t.peekIndex_nil hfree
      rw [hpeek]
      constructor
      · rw [nextIndex_limit, hpeek] at hlasts ⊢
        split at hlasts
        · next hfull =>
            have hsize := h.size
            have hhigh := h.high
            rw [UInt32.le_antisymm hhigh hfull, if_pos (UInt32.le_refl _)]
            -- the bound has moved, and not to below where it was
            have hne : t.limit ≠ t.limit + t.pageSize := by
              intro heq
              apply hsize
              have hsum : t.limit + t.pageSize = t.limit + 0 := by rw [← heq, UInt32.add_zero]
              exact (UInt32.add_right_inj _).mp hsum
            exact UInt32.lt_of_le_of_ne hlasts hne
        · next hfull =>
            rw [if_neg hfull]
            exact UInt32.not_le.mp hfull
      · by_contra hfull
        have hlt := h.occupied t.highIndex.toNat (Option.isSome_iff_ne_none.mpr hfull)
        omega
  | cons index rest =>
      have hpeek := t.peekIndex_cons hfree
      have hmem : index ∈ t.freeStack := hfree ▸ List.mem_cons_self
      rw [hpeek]
      exact ⟨UInt32.lt_of_lt_of_le (UInt32.lt_of_lt_of_le (h.free index hmem) h.high) hlasts,
        h.apart.empty index hmem⟩

theorem Snug.new {pageSize : UInt32} (hsize : pageSize ≠ 0) :
    (RMVByMapped.new pageSize : RMVByMapped V).Snug where
  apart := Apart.new pageSize
  size := hsize
  high := UInt32.zero_le
  free := nofun
  occupied i hfull := by
    rw [new_slot] at hfull
    cases hfull

/-- The mark does not wrap around. -/
theorem Snug.highIndex_le (h : t.Snug) (hlasts : t.Lasts) :
    t.highIndex ≤ t.nextIndex.2.highIndex ∧
      t.nextIndex.2.highIndex ≤ t.nextIndex.2.limit ∧
      t.peekIndex < t.nextIndex.2.highIndex := by
  obtain ⟨hroom, -⟩ := h.room hlasts
  have hhigh := h.high
  unfold Lasts at hlasts
  rw [nextIndex_highIndex]
  cases hfree : t.freeStack with
  | nil =>
      have hpeek := t.peekIndex_nil hfree
      rw [hpeek] at hroom ⊢
      rw [if_pos rfl]
      simp only [UInt32.le_iff_toNat_le, UInt32.lt_iff_toNat_lt, UInt32.toNat_add,
        UInt32.toNat_one] at hroom ⊢
      have hlt := t.nextIndex.2.limit.toNat_lt
      omega
  | cons index rest =>
      have hpeek := t.peekIndex_cons hfree
      rw [if_neg (List.cons_ne_nil _ _), hpeek]
      exact ⟨UInt32.le_refl _, UInt32.le_trans hhigh hlasts,
        h.free index (hfree ▸ List.mem_cons_self)⟩

theorem Snug.nextIndex (h : t.Snug) (hlasts : t.Lasts) : t.nextIndex.2.Snug := by
  obtain ⟨hle, hhigh, -⟩ := h.highIndex_le hlasts
  refine ⟨h.apart.nextIndex, ?_, hhigh, ?_, ?_⟩
  · rw [nextIndex_pageSize]
    exact h.size
  · intro index hindex
    rw [nextIndex_freeStack] at hindex
    exact UInt32.lt_of_lt_of_le (h.free index (List.mem_of_mem_tail hindex)) hle
  · intro i hfull
    rw [nextIndex_slot] at hfull
    exact lt_of_lt_of_le (h.occupied i hfull) (UInt32.le_iff_toNat_le.mp hle)

/-- The index just issued is bound. -/
theorem Snug.bind (h : t.Snug) (hlasts : t.Lasts) (hcover : t.PagesCover) (value : V) :
    (t.nextIndex.2.storeAt t.peekIndex (some value)).Snug := by
  obtain ⟨hroom, -⟩ := h.room hlasts
  obtain ⟨-, -, hissued⟩ := h.highIndex_le hlasts
  have hnext := h.nextIndex hlasts
  have hout : t.peekIndex ∉ t.nextIndex.2.freeStack := by
    rw [nextIndex_freeStack]
    exact h.apart.peekIndex_notMem
  refine ⟨hnext.apart.bind hcover.nextIndex hroom hout value, hnext.size, hnext.high,
    hnext.free, ?_⟩
  intro i hfull
  rw [storeAt_slot hcover.nextIndex hroom] at hfull
  by_cases hi : i = t.peekIndex.toNat
  · rw [hi]
    exact UInt32.lt_iff_toNat_lt.mp hissued
  · rw [Function.update_of_ne hi] at hfull
    exact hnext.occupied i hfull

theorem Snug.unbind (h : t.Snug) (hcover : t.PagesCover) {index : UInt32}
    (hindex : index < t.limit) (hfull : (t.slot index.toNat).isSome) :
    Snug { t.storeAt index none with freeStack := index :: t.freeStack } := by
  refine ⟨h.apart.unbind hcover hindex hfull, h.size, h.high, ?_, ?_⟩
  · intro other hother
    rcases List.mem_cons.mp hother with rfl | hold
    · exact UInt32.lt_iff_toNat_lt.mpr (h.occupied _ hfull)
    · exact h.free other hold
  · intro i hi
    change ((t.storeAt index none).slot i).isSome at hi
    rw [storeAt_slot hcover hindex] at hi
    by_cases hne : i = index.toNat
    · rw [hne, Function.update_self] at hi
      cases hi
    · rw [Function.update_of_ne hne] at hi
      exact h.occupied i hi

end RMVByMapped

namespace Registry

/-- Every table has indices left. -/
def Snug (reg : Registry) : Prop :=
  ∀ m t, reg.table m = some t → t.Snug

/-- If `map_reference` draws an index, the table it is drawn from lasts. -/
def Lasts (inst : Instance) (reg : Registry) (native : ObjRef) (outFacing : Bool) : Prop :=
  ∀ m t, reg.handler native.typeId = some m → reg.table m = some t →
    (inst.alreadyMapped native.key outFacing 0).1 = .notMapped → t.Lasts

section Keeping

variable {reg reg' : Registry} {held : List Nat} {m : Nat} {t t' : RMVByMapped Nat}

theorem Snug.congr (h : reg.Snug) (htable : ∀ m, reg'.table m = reg.table m) : reg'.Snug := by
  intro m t ht
  rw [htable] at ht
  exact h m t ht

variable (orb : Orb) (inst : Instance) (native : ObjRef) (outFacing requireSecure : Bool)

theorem mapReference_snug (hsafe : RegistryState.Safe ⟨reg, held⟩) (h : reg.Snug)
    (hlasts : reg.Lasts inst native outFacing) :
    ((mapReference orb inst native outFacing requireSecure).run reg).2.Snug := by
  apply mapReference_tables orb inst native outFacing requireSecure hsafe h
  intro m t hhandler ht hstatus
  have hroom := hlasts m t hhandler ht hstatus
  exact ⟨(h m t ht).nextIndex hroom,
    fun _ => (h m t ht).bind hroom (hsafe.cover m t ht) reg.values.fresh⟩

theorem removeReference_snug (hcover : ∀ m t, reg.table m = some t → t.PagesCover)
    (h : reg.Snug) (mapped : ObjRef) :
    ((removeReference orb mapped outFacing).run reg).2.Snug := by
  apply removeReference_tables orb outFacing hcover h mapped
  intro m t index ht hindex hfull
  exact (h m t ht).unbind (hcover m t ht) hindex hfull

/-- A full slot passes the bounds test. -/
theorem Snug.lookup_eq (h : reg.Snug) (ht : reg.table m = some t) {index : UInt32} {a : Nat}
    (hslot : reg.slotOf m index.toNat = some a) : lookup t index = some a := by
  rw [slotOf_eq ht] at hslot
  have hbelow := (h m t ht).occupied index.toNat (by rw [hslot]; rfl)
  exact lookup_eq_some.mpr
    ⟨UInt32.lt_of_lt_of_le (UInt32.lt_iff_toNat_lt.mpr hbelow) (h m t ht).high, hslot⟩

end Keeping

end Registry

end Lorica
