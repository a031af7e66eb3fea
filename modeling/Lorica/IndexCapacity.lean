import Lorica.Allocator
import Lorica.IndexSupply

/-!
"This gives array-like semantics for efficient lookup with an unlimited
capacity": how far the 32-bit product `num_pages_ * page_size_` and the mark
`high_index_` go without wrapping around. The product is a multiple of the page
size and meets 2^32 exactly, a page before the mark would.
-/

namespace Lorica

open Machine

namespace RMVByMapped

variable {V : Type} (t : RMVByMapped V)

theorem nextIndex_pages : t.nextIndex.2.pages =
    if t.limit ≤ t.peekIndex then t.pages ++ [fun _ => none] else t.pages := by
  have hpages := congrArg Prod.snd t.nextIndex_grown
  rwa [apply_ite Prod.snd] at hpages

/-- Another table of as many pages of the same size. -/
def SamePages (t' : RMVByMapped V) : Prop :=
  t'.pageSize = t.pageSize ∧ t'.pages.length = t.pages.length

variable {t}

theorem storeAt_samePages (index : UInt32) (value : Option V) :
    t.SamePages (t.storeAt index value) :=
  ⟨rfl, store_pages_length ..⟩

theorem bind_samePages {t' : RMVByMapped V} {index : UInt32} {value : V} {done : Bool}
    (h : t.bind index value = .ok (done, t')) : t.SamePages t' := by
  obtain ⟨found, -, h⟩ := ok_of_bind h
  match found with
  | none => cases h; exact ⟨rfl, rfl⟩
  | some (some _) => cases h; exact ⟨rfl, rfl⟩
  | some none => cases h; exact storeAt_samePages ..

theorem rebind_samePages {t' : RMVByMapped V} {index : UInt32} {value : V} {done : Bool}
    {old : Option V} (h : t.rebind index value = .ok (done, old, t')) : t.SamePages t' := by
  obtain ⟨found, -, h⟩ := ok_of_bind h
  match found with
  | none => cases h; exact ⟨rfl, rfl⟩
  | some _ => cases h; exact storeAt_samePages ..

theorem unbind_samePages {t' : RMVByMapped V} {index : UInt32} {old : Option V}
    (h : t.unbind index = .ok (old, t')) : t.SamePages t' := by
  obtain ⟨found, -, h⟩ := ok_of_bind h
  match found with
  | none => cases h; exact ⟨rfl, rfl⟩
  | some none => cases h; exact ⟨rfl, rfl⟩
  | some (some _) =>
      cases h
      exact ⟨rfl, (storeAt_samePages (t := t) index none).2⟩

end RMVByMapped

namespace AllocState

variable {V : Type}

/-- What the class promises. The tests of `next_index`, `bind`, `find` and
`unbind` decide as they would on the number of pages, the mark does not wrap
around, and `next_index` is about to return an index whose slot is not bound. -/
structure Unlimited (s : AllocState V) : Prop where
  tests : ∀ index : UInt32, s.table.limit ≤ index ↔
    s.table.pages.length * s.table.pageSize.toNat ≤ index.toNat
  rises : s.table.highIndex ≤ s.table.nextIndex.2.highIndex
  vacant : s.table.slot s.table.nextIndex.1.toNat = none

/-- A page is added only while `num_pages_ * page_size_` stays below 2^32. -/
def Fits (s : AllocState V) : TableOp V → Prop
  | .nextIndex => s.table.limit ≤ s.table.peekIndex → s.table.InRange
  | _ => True

instance (s : AllocState V) (op : TableOp V) : Decidable (s.Fits op) :=
  match op with
  | .nextIndex => inferInstanceAs (Decidable (_ → _))
  | .bind _ _ => isTrue trivial
  | .rebind _ _ => isTrue trivial
  | .find _ => isTrue trivial
  | .unbind _ => isTrue trivial
  | .reap _ _ => isTrue trivial

section Steps

variable {s s' : AllocState V} {op : TableOp V}

/-- Pages are never taken away. -/
theorem step_pages (hstep : s.step op = some s') :
    s'.table.pageSize = s.table.pageSize ∧ s.table.pages.length ≤ s'.table.pages.length := by
  have hsame : ∀ {t : RMVByMapped V}, s.table.SamePages t →
      t.pageSize = s.table.pageSize ∧ s.table.pages.length ≤ t.pages.length :=
    fun h => ⟨h.1, h.2.ge⟩
  cases op with
  | nextIndex =>
      obtain rfl := Option.some.inj hstep
      exact ⟨s.table.nextIndex_pageSize, s.table.nextIndex_pages_length⟩
  | bind index value =>
      simp only [step, Option.ite_none_right_eq_some] at hstep
      obtain ⟨-, hstep⟩ := hstep
      split at hstep
      · next hbind =>
          obtain rfl := Option.some.inj hstep
          exact hsame (RMVByMapped.bind_samePages hbind)
      · cases hstep
  | rebind index value =>
      simp only [step, Option.ite_none_right_eq_some] at hstep
      obtain ⟨-, hstep⟩ := hstep
      split at hstep
      · next hrebind =>
          obtain rfl := Option.some.inj hstep
          exact hsame (RMVByMapped.rebind_samePages hrebind)
      · cases hstep
  | find index =>
      simp only [step] at hstep
      split at hstep
      · obtain rfl := Option.some.inj hstep
        exact ⟨rfl, le_refl _⟩
      · cases hstep
  | unbind index =>
      simp only [step] at hstep
      split at hstep
      · next hunbind =>
          obtain rfl := Option.some.inj hstep
          exact hsame (RMVByMapped.unbind_samePages hunbind)
      · cases hstep
  | reap page offset =>
      simp only [step, Option.ite_none_right_eq_some] at hstep
      obtain ⟨-, hstep⟩ := hstep
      obtain rfl := Option.some.inj hstep
      exact hsame ⟨rfl, RMVByMapped.store_pages_length ..⟩

theorem represents_of_fits {pageSize : UInt32} (hsize : 1 ≤ pageSize.toNat)
    (h : (allocSystem V pageSize).Reach Fits s) : ∃ p, s.Represents p := by
  refine System.Reach.invariant (I := fun s => ∃ p, s.Represents p) ?_ ?_ h
  · rintro s rfl
    exact ⟨_, represents_new pageSize hsize⟩
  · rintro s op s' ⟨p, hp⟩ hfits hstep
    apply hp.step op _ hstep
    rintro rfl
    exact hfits

/-- The pool has a slot for the mark and an empty one for each free index. -/
theorem Represents.unlimited {p : IndexPool V} (h : s.Represents p)
    (hpageSize : s.table.pageSize = 1024) : s.Unlimited where
  tests index := by
    rw [UInt32.le_iff_toNat_le, h.limit, h.pages]
  rises := by
    have hsize : s.table.pageSize.toNat = 1024 := congrArg UInt32.toNat hpageSize
    have hhigh := h.high_le
    have hfits := h.fits
    rw [hsize] at hhigh hfits
    rw [RMVByMapped.nextIndex_highIndex]
    split
    · rw [UInt32.le_iff_toNat_le, UInt32.toNat_add, UInt32.toNat_one]
      omega
    · exact UInt32.le_refl _
  vacant := by
    rw [RMVByMapped.nextIndex_fst, ← h.bound]
    cases hfree : s.table.freeStack with
    | nil =>
        rw [s.table.peekIndex_nil hfree, ← h.high]
        by_contra hbound
        exact absurd (p.bound_lt _ (Option.isSome_iff_ne_none.mpr hbound)) (lt_irrefl _)
    | cons index rest =>
        have hmem : index.toNat ∈ p.free ++ p.issued := by simp [h.free, hfree]
        rw [s.table.peekIndex_cons hfree]
        exact (p.vacant _ hmem).2

/-- A page too many is there to stay. -/
theorem reach_fits_or {pageSize : UInt32} (hsize : 1 ≤ pageSize.toNat)
    (h : (allocSystem V pageSize).Reachable s) :
    s.table.pageSize = pageSize ∧
      ((allocSystem V pageSize).Reach Fits s ∨
        2 ^ 32 ≤ s.table.pages.length * pageSize.toNat) := by
  refine System.Reach.invariant (I := fun s => s.table.pageSize = pageSize ∧
    ((allocSystem V pageSize).Reach Fits s ∨
      2 ^ 32 ≤ s.table.pages.length * pageSize.toNat)) ?_ ?_ h
  · rintro s rfl
    exact ⟨rfl, .inl (.start rfl)⟩
  · rintro s op s' ⟨hpageSize, hs⟩ - hstep
    obtain ⟨hkept, hgrown⟩ := step_pages hstep
    refine ⟨hkept.trans hpageSize, ?_⟩
    rcases hs with hreach | hfull
    · by_cases hfits : s.Fits op
      · exact .inl (.next hreach hfits hstep)
      · right
        obtain ⟨p, hp⟩ := represents_of_fits hsize hreach
        cases op with
        | nextIndex =>
            obtain ⟨hlimit, hrange⟩ := Classical.not_imp.mp hfits
            obtain rfl := Option.some.inj hstep
            unfold RMVByMapped.InRange at hrange
            rw [RMVByMapped.nextIndex_pages, if_pos hlimit, List.length_append,
              List.length_singleton, hp.pages, ← hpageSize]
            exact not_lt.mp hrange
        | bind index value => exact absurd trivial hfits
        | rebind index value => exact absurd trivial hfits
        | find index => exact absurd trivial hfits
        | unbind index => exact absurd trivial hfits
        | reap page offset => exact absurd trivial hfits
    · exact .inr (hfull.trans (Nat.mul_le_mul_right _ hgrown))

end Steps

/-- The promise is kept in exactly those runs in which every page added leaves
`num_pages_ * page_size_` below 2^32. -/
theorem unlimited_iff_fits (V : Type) {s : AllocState V}
    (h : (allocSystem V 1024).Reachable s) :
    s.Unlimited ↔ (allocSystem V 1024).Reach Fits s := by
  obtain ⟨hpageSize, hs⟩ := reach_fits_or (by decide) h
  constructor
  · intro hunlimited
    refine hs.resolve_right fun hfull => ?_
    have hlast := (hunlimited.tests 0xffffffff).mp (UInt32.le_iff_toNat_le.mpr
      (Nat.le_of_lt_succ s.table.limit.toNat_lt))
    rw [hpageSize] at hlast
    exact absurd (hfull.trans hlast) (by decide)
  · intro hfits
    obtain ⟨p, hp⟩ := represents_of_fits (by decide) hfits
    exact hp.unlimited hpageSize

theorem unlimited_iff_fits_reissue :
    ∃ s : AllocState Nat, s.issued = [0] ∧ s.Unlimited := by
  obtain ⟨s, hs⟩ := Option.isSome_iff_exists.mp (show
    ((allocSystem Nat 1024).replay Fits ⟨RMVByMapped.new 1024, []⟩
      [.nextIndex, .bind 0 7, .find 0, .unbind 0, .nextIndex]).isSome by decide)
  have hreach := System.Reach.of_replay (.start rfl) _ hs
  have hissued : s.issued = [0] := System.replay_read (fun s => s.issued) hs (by decide)
  exact ⟨s, hissued,
    (unlimited_iff_fits Nat (hreach.mono fun _ _ _ => trivial)).mpr hreach⟩

/-! One index after the other, none given back. -/

def issue (s : AllocState V) : AllocState V :=
  ⟨s.table.nextIndex.2, s.table.nextIndex.1 :: s.issued⟩

def issues (V : Type) : Nat → AllocState V
  | 0 => ⟨RMVByMapped.new 1024, []⟩
  | n + 1 => (issues V n).issue

/-- Up to the last page each call finds its page below 2^32. -/
theorem issues_fits {n : Nat} (hn : n ≤ 2 ^ 32 - 1024) :
    (allocSystem V 1024).Reach Fits (issues V n) ∧ (issues V n).table.freeStack = [] ∧
      (issues V n).table.highIndex.toNat = n := by
  induction n with
  | zero => exact ⟨.start rfl, rfl, rfl⟩
  | succ n ih =>
      obtain ⟨hreach, hfree, hhigh⟩ := ih (by omega)
      obtain ⟨p, hp⟩ := represents_of_fits (by decide) hreach
      have hsize : (issues V n).table.pageSize.toNat = 1024 := congrArg UInt32.toNat
        (reach_fits_or (by decide) (hreach.mono fun _ _ _ => trivial)).1
      have hpeek := (issues V n).table.peekIndex_nil hfree
      have hfits : (issues V n).Fits .nextIndex := by
        intro hlimit
        rw [hpeek, UInt32.le_iff_toNat_le, hp.limit, hhigh, hsize] at hlimit
        unfold RMVByMapped.InRange
        rw [hsize]
        omega
      refine ⟨.next hreach hfits rfl, ?_, ?_⟩
      · change (issues V n).table.nextIndex.2.freeStack = []
        rw [RMVByMapped.nextIndex_freeStack, hfree, List.tail_nil]
      · change (issues V n).table.nextIndex.2.highIndex.toNat = n + 1
        rw [RMVByMapped.nextIndex_highIndex, if_pos hfree, UInt32.toNat_add, hhigh,
          UInt32.toNat_one]
        omega

/-- The page of the index 2^32 - 1024 makes the product 0. -/
theorem issues_limit {n : Nat} (hn : n = 2 ^ 32 - 1024) :
    (issues V (n + 1)).table.limit = 0 := by
  obtain ⟨hreach, hfree, hhigh⟩ := issues_fits (V := V) hn.le
  obtain ⟨p, hp⟩ := represents_of_fits (by decide) hreach
  have hpageSize : (issues V n).table.pageSize = 1024 :=
    (reach_fits_or (by decide) (hreach.mono fun _ _ _ => trivial)).1
  have hpeek := (issues V n).table.peekIndex_nil hfree
  have hle := hp.high_le
  have hfits := hp.fits
  have hlimit := hp.limit
  rw [hpageSize] at hle hfits hlimit
  change _ ≤ _ * 1024 at hle
  change _ * 1024 < _ at hfits
  change _ = _ * 1024 at hlimit
  change (issues V n).table.nextIndex.2.limit = 0
  have hfull : (issues V n).table.limit ≤ (issues V n).table.peekIndex := by
    rw [hpeek, UInt32.le_iff_toNat_le]
    omega
  rw [RMVByMapped.nextIndex_limit, if_pos hfull, hpageSize]
  apply UInt32.toNat_inj.mp
  rw [UInt32.toNat_add]
  change ((issues V n).table.limit.toNat + 1024) % 2 ^ 32 = 0
  omega

/-- After 2^32 - 1023 calls of `next_index`: every 32-bit test takes its index
for too great, on 2^22 pages, and the index just issued cannot be bound. -/
theorem not_unlimited_last_page :
    ∃ s : AllocState Nat, (allocSystem Nat 1024).Reachable s ∧ ¬ s.Unlimited ∧
      0xfffffc00 ∈ s.issued ∧ s.table.bind 0xfffffc00 7 = .ok (false, s.table) := by
  obtain ⟨n, hn⟩ : ∃ n, n = 2 ^ 32 - 1024 := ⟨_, rfl⟩
  obtain ⟨hreach, hfree, hhigh⟩ := issues_fits (V := Nat) hn.le
  have hlimit := issues_limit (V := Nat) hn
  have hlast : (allocSystem Nat 1024).Reachable (issues Nat (n + 1)) :=
    @System.Reach.next _ _ _ _ _ _ .nextIndex (hreach.mono fun _ _ _ => trivial) trivial rfl
  refine ⟨issues Nat (n + 1), hlast, ?_, ?_, ?_⟩
  · intro hunlimited
    obtain ⟨p, hp⟩ := represents_of_fits (by decide) hreach
    have hstep : (issues Nat n).step .nextIndex = some (issues Nat (n + 1)) := rfl
    have hgrown := (step_pages hstep).2
    have hnone := (hunlimited.tests 0).mp (hlimit ▸ UInt32.le_refl _)
    have hsize : (issues Nat (n + 1)).table.pageSize.toNat = 1024 :=
      congrArg UInt32.toNat (reach_fits_or (by decide) hlast).1
    have hempty : (issues Nat (n + 1)).table.pages.length = 0 := by
      rw [hsize] at hnone
      change _ ≤ 0 at hnone
      omega
    have hle := hp.high_le
    rw [hempty, hp.pages] at hgrown
    rw [Nat.le_zero.mp hgrown, hhigh] at hle
    omega
  · have hissued : (issues Nat n).table.nextIndex.1 = 0xfffffc00 := by
      rw [RMVByMapped.nextIndex_fst]
      apply UInt32.toNat_inj.mp
      rw [RMVByMapped.peekIndex, hfree, List.headD_nil, hhigh, hn]
      rfl
    change _ ∈ (issues Nat n).table.nextIndex.1 :: _
    rw [hissued]
    exact List.mem_cons_self ..
  · unfold RMVByMapped.bind RMVByMapped.locate
    rw [hlimit, if_pos (UInt32.zero_le)]
    rfl

end AllocState

end Lorica
