import Lorica.Lib.Ledger
import Lorica.RMVByMapped
import Lorica.ReferenceMapValue

/-!
The garbage collection loop of `RMVByMapped::svc` among the other threads.
The scan holds `gc_control_lock_` except while it waits and while it pings
one native; it takes a raw pointer before the ping and compares it with the
slot afterwards. A deleted value leaves its address free, and `new` may hand
out any free address, so the comparison is one of addresses and not of
values.

Three fields only record what happened: the number of mappings made so far,
the time at which the value at an address was last bound, and the removals.
-/

namespace Lorica

open Machine

/-- The collector between the release and the reacquisition of the lock. -/
structure Ping where
  page : Nat
  offset : Nat
  /-- `value`, the raw pointer -/
  value : Nat
  /-- `obj`, the native being pinged -/
  target : ObjRef
  /-- how many mappings had been made when the ping started -/
  since : Nat
deriving DecidableEq, Repr

inductive Scan where
  | waiting
  | looking (page offset : Nat)
  | pinging (ping : Ping)
deriving DecidableEq, Repr

/-- A removal by the scan: the ping behind it, the native of the entry removed
and the time its mapping was made. -/
structure Reaped where
  ping : Ping
  origRef : ObjRef
  boundAt : Nat
deriving DecidableEq, Repr

structure CollectorState where
  table : RMVByMapped Nat
  values : Heap
  scan : Scan
  /-- indices taken from `next_index` and not bound yet -/
  issued : List UInt32
  /-- values made by `add_native_unchecked` and not bound yet -/
  made : List Nat
  held : List Nat
  clock : Nat
  boundAt : Nat → Nat
  reaped : List Reaped

inductive CollectorOp where
  | nextIndex
  | make (a : Nat) (v : ReferenceMapValue)
  | bind (index : UInt32) (a : Nat)
  | find (index : UInt32)
  | unbind (index : UInt32)
  | drop (a : Nat)
  | wake
  | look
  | answer (expired : Bool)

/-- The global index of the slot a ping is about. -/
def CollectorState.pingedSlot (s : CollectorState) (ping : Ping) : Nat :=
  ping.page * s.table.pageSize.toNat + ping.offset

namespace CollectorState

/-- `gc_control_lock_` is free while the scan waits or pings. -/
def lockFree (s : CollectorState) : Bool :=
  match s.scan with
  | .looking _ _ => false
  | _ => true

/-- One turn of the inner loop, up to the release of the lock. -/
def look (s : CollectorState) (page offset : Nat) : Option CollectorState :=
  if s.table.pages.length ≤ page then some { s with scan := .waiting }
  else if s.table.pageSize.toNat ≤ offset then
    some { s with scan := .looking (page + 1) 0 }
  else
    match s.table.slot (page * s.table.pageSize.toNat + offset) with
    | none => some { s with scan := .looking page (offset + 1) }
    | some a =>
        match s.values.read a with
        | .ok v => some { s with scan := .pinging ⟨page, offset, a, v.origRef, s.clock⟩ }
        | .error _ => none

/-- The rest of the turn, from the reacquisition of the lock. -/
def answer (s : CollectorState) (ping : Ping) (expired : Bool) :
    Option CollectorState :=
  let next : Scan := .looking ping.page (ping.offset + 1)
  if expired ∧ s.table.slot (s.pingedSlot ping) = some ping.value then
    match s.values.read ping.value, s.values.decrRefcount ping.value with
    | .ok v, .ok values => some { s with
        table := s.table.reap ping.page ping.offset
        values := values
        scan := next
        reaped := ⟨ping, v.origRef, s.boundAt ping.value⟩ :: s.reaped }
    | _, _ => none
  else some { s with scan := next }

section Turns

variable {s s' : CollectorState} {page offset : Nat} {ping : Ping} {expired : Bool}

/-- A turn up to the release of the lock. -/
theorem look_cases (h : s.look page offset = some s') :
    (s.table.pages.length ≤ page ∧ s' = { s with scan := .waiting }) ∨
    (page < s.table.pages.length ∧ s.table.pageSize.toNat ≤ offset ∧
      s' = { s with scan := .looking (page + 1) 0 }) ∨
    (page < s.table.pages.length ∧ offset < s.table.pageSize.toNat ∧
      s.table.slot (page * s.table.pageSize.toNat + offset) = none ∧
      s' = { s with scan := .looking page (offset + 1) }) ∨
    ∃ a v, page < s.table.pages.length ∧ offset < s.table.pageSize.toNat ∧
      s.table.slot (page * s.table.pageSize.toNat + offset) = some a ∧
      s.values.read a = .ok v ∧
      s' = { s with scan := .pinging ⟨page, offset, a, v.origRef, s.clock⟩ } := by
  unfold look at h
  split at h
  · next hend => exact .inl ⟨hend, (Option.some.inj h).symm⟩
  · next hpage =>
      have hpage := Nat.lt_of_not_le hpage
      split at h
      · next hoffset => exact .inr (.inl ⟨hpage, hoffset, (Option.some.inj h).symm⟩)
      · next hoffset =>
          have hoffset := Nat.lt_of_not_le hoffset
          split at h
          · next hslot =>
              exact .inr (.inr (.inl ⟨hpage, hoffset, hslot, (Option.some.inj h).symm⟩))
          · next a hslot =>
              split at h
              · next v hread =>
                  exact .inr (.inr (.inr ⟨a, v, hpage, hoffset, hslot, hread,
                    (Option.some.inj h).symm⟩))
              · cases h

/-- The rest of the turn: the entry is removed, or only the cursor moves. -/
theorem answer_cases (h : s.answer ping expired = some s') :
    (expired = true ∧ s.table.slot (s.pingedSlot ping) = some ping.value ∧
      ∃ v values, s.values.read ping.value = .ok v ∧
        s.values.decrRefcount ping.value = .ok values ∧ s' = { s with
          table := s.table.reap ping.page ping.offset
          values := values
          scan := .looking ping.page (ping.offset + 1)
          reaped := ⟨ping, v.origRef, s.boundAt ping.value⟩ :: s.reaped }) ∨
    ((expired = true → s.table.slot (s.pingedSlot ping) ≠ some ping.value) ∧
      s' = { s with scan := .looking ping.page (ping.offset + 1) }) := by
  unfold answer at h
  dsimp only at h
  split at h
  · next hcheck =>
      split at h
      · next v values hread hdecr =>
          exact .inl ⟨hcheck.1, hcheck.2, v, values, hread, hdecr, (Option.some.inj h).symm⟩
      · cases h
  · next hcheck =>
      refine .inr ⟨fun hexpired hsame => hcheck ⟨hexpired, hsame⟩, (Option.some.inj h).symm⟩

end Turns

def step (s : CollectorState) : CollectorOp → Option CollectorState
  | .nextIndex => some { s with
      table := s.table.nextIndex.2
      issued := s.table.nextIndex.1 :: s.issued }
  | .make a v =>
      if (s.values.cells a).isNone then some { s with
        values := s.values.write a (some { v with refCount := 1 })
        made := a :: s.made
        held := a :: s.held }
      else none
  | .bind index a =>
      if s.lockFree ∧ index ∈ s.issued ∧ a ∈ s.made then
        match s.table.bind index a, s.values.incrRefcount a with
        | .ok (true, t), .ok values => some { s with
            table := t
            values := values
            issued := s.issued.erase index
            made := s.made.filter (· ≠ a)
            clock := s.clock + 1
            boundAt := Function.update s.boundAt a (s.clock + 1) }
        | .ok (false, _), _ => some { s with
            issued := s.issued.erase index
            made := s.made.filter (· ≠ a) }
        | _, _ => none
      else none
  | .find index =>
      if s.lockFree then
        match s.table.find index with
        | .ok none => some s
        | .ok (some a) =>
            match s.values.incrRefcount a with
            | .ok values => some { s with values := values, held := a :: s.held }
            | .error _ => none
        | .error _ => none
      else none
  | .unbind index =>
      if s.lockFree then
        match s.table.unbind index with
        | .ok (none, _) => some s
        | .ok (some a, t) => some { s with table := t, held := a :: s.held }
        | .error _ => none
      else none
  | .drop a =>
      if a ∈ s.held then
        match s.values.decrRefcount a with
        | .ok values => some { s with
            values := values
            made := s.made.filter (· ≠ a)
            held := s.held.erase a }
        | .error _ => none
      else none
  | .wake =>
      match s.scan with
      | .waiting => some { s with scan := .looking 0 0 }
      | _ => none
  | .look =>
      match s.scan with
      | .looking page offset => s.look page offset
      | _ => none
  | .answer expired =>
      match s.scan with
      | .pinging ping => s.answer ping expired
      | _ => none

section Scanning

variable {s s' : CollectorState} {expired : Bool}

theorem step_wake (h : s.step .wake = some s') :
    s.scan = .waiting ∧ s' = { s with scan := .looking 0 0 } := by
  simp only [step] at h
  split at h
  · next hscan => exact ⟨hscan, (Option.some.inj h).symm⟩
  · cases h

theorem step_look (h : s.step .look = some s') :
    ∃ page offset, s.scan = .looking page offset ∧ s.look page offset = some s' := by
  simp only [step] at h
  split at h
  · next page offset hscan => exact ⟨page, offset, hscan, h⟩
  · cases h

theorem step_answer (h : s.step (.answer expired) = some s') :
    ∃ ping, s.scan = .pinging ping ∧ s.answer ping expired = some s' := by
  simp only [step] at h
  split at h
  · next ping hscan => exact ⟨ping, hscan, h⟩
  · cases h

end Scanning

end CollectorState

def collectorSystem (pageSize : UInt32) : System CollectorState CollectorOp where
  init s := s =
    { table := RMVByMapped.new pageSize
      values := .empty
      scan := .waiting
      issued := []
      made := []
      held := []
      clock := 0
      boundAt := fun _ => 0
      reaped := [] }
  step := CollectorState.step

/-- The native removed is the one that was pinged, and its mapping is no
younger than the ping. -/
def Reaped.Sound (r : Reaped) : Prop :=
  r.origRef = r.ping.target ∧ r.boundAt ≤ r.ping.since

namespace CollectorState

/-- No `bind` puts a value at the saved address into the slot being pinged:
the address was not freed and handed out again for this very slot while the
lock was released. -/
def undisturbed (s : CollectorState) : CollectorOp → Bool
  | .bind index a =>
      match s.scan with
      | .pinging ping =>
          !(a = ping.value && index.toNat = s.pingedSlot ping)
      | _ => true
  | _ => true

def ledger (s : CollectorState) : Ledger Nat where
  slots := s.table.slot
  held := s.held
  counts := s.values.counts

/-- The slot being pinged, if it still holds the saved pointer, holds the value
whose native is pinged. -/
structure Watched (s : CollectorState) (ping : Ping) : Prop where
  page : ping.page < s.table.pages.length
  offset : ping.offset < s.table.pageSize.toNat
  same : s.table.slot (s.pingedSlot ping) = some ping.value →
    ∀ v, s.values.cells ping.value = some v →
      v.origRef = ping.target ∧ s.boundAt ping.value ≤ ping.since

structure Tracked (s : CollectorState) : Prop where
  cover : s.table.PagesCover
  balanced : s.ledger.Balanced
  made : ∀ a ∈ s.made, ¬ s.ledger.Bound a
  clock : ∀ a, s.boundAt a ≤ s.clock
  watched : ∀ ping, s.scan = .pinging ping → s.Watched ping
  sound : ∀ r ∈ s.reaped, r.Sound

section Steps

variable {s s' : CollectorState} {a : Nat} {v : ReferenceMapValue}
  {ping : Ping} {index : UInt32}

/-- A step that does not put the saved pointer back into the slot keeps the
watch. -/
theorem Watched.of_slot (h : s.Watched ping)
    (hsize : s'.table.pageSize = s.table.pageSize)
    (hpages : s.table.pages.length ≤ s'.table.pages.length)
    (hslot : s'.table.slot (s.pingedSlot ping) = some ping.value →
      s.table.slot (s.pingedSlot ping) = some ping.value ∧
      s'.boundAt ping.value = s.boundAt ping.value ∧
      ∀ v', s'.values.cells ping.value = some v' →
        ∃ v, s.values.cells ping.value = some v ∧ v'.origRef = v.origRef) :
    s'.Watched ping := by
  have hsame : s'.pingedSlot ping = s.pingedSlot ping := by
    unfold pingedSlot
    rw [hsize]
  refine ⟨lt_of_lt_of_le h.page hpages, hsize ▸ h.offset, ?_⟩
  intro hfull v' hv'
  rw [hsame] at hfull
  obtain ⟨hold, htime, hcell⟩ := hslot hfull
  obtain ⟨v, hv, horig⟩ := hcell v' hv'
  obtain ⟨htarget, hsince⟩ := h.same hold v hv
  exact ⟨horig.trans htarget, htime.trans_le hsince⟩

theorem Tracked.bound_cell (h : s.Tracked) {i : Nat}
    (hslot : s.table.slot i = some a) : ∃ v, s.values.cells a = some v := by
  obtain ⟨n, hn⟩ := h.balanced.bound_count ⟨i, hslot⟩
  obtain ⟨v, hv, -⟩ := Option.map_eq_some_iff.mp hn
  exact ⟨v, hv⟩

theorem Tracked.nextIndex (h : s.Tracked) :
    Tracked { s with
      table := s.table.nextIndex.2
      issued := s.table.nextIndex.1 :: s.issued } := by
  have hslots : s.table.nextIndex.2.slot = s.table.slot := s.table.nextIndex_slot
  have hbound : ∀ b, (ledger { s with
      table := s.table.nextIndex.2
      issued := s.table.nextIndex.1 :: s.issued }).Bound b → s.ledger.Bound b := by
    rintro b ⟨i, hi⟩
    exact ⟨i, (congrFun hslots i).symm.trans hi⟩
  refine ⟨h.cover.nextIndex, h.balanced.congr hslots rfl rfl,
    fun b hb hbound' => h.made b hb (hbound b hbound'), h.clock, ?_, h.sound⟩
  intro ping hscan
  refine (h.watched ping hscan).of_slot s.table.nextIndex_pageSize
    s.table.nextIndex_pages_length ?_
  intro hfull
  rw [hslots] at hfull
  exact ⟨hfull, rfl, fun v' hv' => ⟨v', hv', rfl⟩⟩

theorem Tracked.make (h : s.Tracked) (hfree : s.values.cells a = none) :
    Tracked { s with
      values := s.values.write a (some { v with refCount := 1 })
      made := a :: s.made
      held := a :: s.held } := by
  have hcount : s.ledger.counts a = none := by
    simp [ledger, Heap.counts, hfree]
  refine ⟨h.cover, (h.balanced.make hcount).congr rfl rfl
    (Heap.counts_write _ _ _), ?_, h.clock, ?_, h.sound⟩
  · intro b hb
    rcases List.mem_cons.mp hb with rfl | hb
    · exact (h.balanced.dead b hcount).1
    · exact h.made b hb
  · intro ping hscan
    refine (h.watched ping hscan).of_slot rfl (le_refl _) ?_
    intro hfull
    obtain ⟨v, hv⟩ := h.bound_cell hfull
    have hne : ping.value ≠ a := by
      rintro heq
      rw [heq, hfree] at hv
      cases hv
    refine ⟨hfull, rfl, fun v' hv' => ⟨v', ?_, rfl⟩⟩
    exact (Heap.write_cells_of_ne _ hne _).symm.trans hv'

theorem Tracked.bind (h : s.Tracked) (hmade : a ∈ s.made)
    (hindex : index < s.table.limit) (hempty : s.table.slot index.toNat = none)
    (hv : s.values.cells a = some v)
    (hcalm : s.undisturbed (.bind index a) = true) :
    Tracked { s with
      table := s.table.storeAt index (some a)
      values := s.values.write a (some { v with refCount := v.refCount + 1 })
      issued := s.issued.erase index
      made := s.made.filter (· ≠ a)
      clock := s.clock + 1
      boundAt := Function.update s.boundAt a (s.clock + 1) } := by
  have hslots := RMVByMapped.storeAt_slot h.cover hindex (some a)
  have hunbound := h.made a hmade
  have hplaced := h.balanced.place hempty hunbound (Heap.counts_eq hv)
  refine ⟨h.cover.store _ _ _, hplaced.congr hslots rfl
    (Heap.counts_write _ _ _), ?_, ?_, ?_, h.sound⟩
  · intro b hb
    simp only [List.mem_filter, decide_eq_true_eq] at hb
    rintro ⟨i, hi⟩
    change (s.table.storeAt index (some a)).slot i = some b at hi
    rw [hslots, Function.update_apply] at hi
    split at hi
    · exact hb.2 (Option.some.inj hi).symm
    · exact h.made b hb.1 ⟨i, hi⟩
  · intro b
    change Function.update s.boundAt a (s.clock + 1) b ≤ s.clock + 1
    rw [Function.update_apply]
    split
    · exact le_refl _
    · exact (h.clock b).trans (Nat.le_succ _)
  · intro ping hscan
    have hpages : s.table.pages.length ≤
        (s.table.storeAt index (some a)).pages.length := by
      simp [RMVByMapped.storeAt]
    refine (h.watched ping hscan).of_slot rfl hpages ?_
    intro hfull
    change (s.table.storeAt index (some a)).slot (s.pingedSlot ping) =
      some ping.value at hfull
    rw [hslots, Function.update_apply] at hfull
    split at hfull
    · next hsame =>
        change s.scan = _ at hscan
        simp only [undisturbed, hscan] at hcalm
        simp [Option.some.inj hfull, hsame] at hcalm
    · have hne : ping.value ≠ a := by
        rintro heq
        exact hunbound ⟨_, heq ▸ hfull⟩
      refine ⟨hfull, Function.update_of_ne hne _ _, fun v' hv' => ⟨v', ?_, rfl⟩⟩
      exact (Heap.write_cells_of_ne _ hne _).symm.trans hv'

theorem Tracked.find (h : s.Tracked) (hv : s.values.cells a = some v) :
    Tracked { s with
      values := s.values.write a (some { v with refCount := v.refCount + 1 })
      held := a :: s.held } := by
  refine ⟨h.cover, (h.balanced.take (Heap.counts_eq hv)).congr rfl rfl
    (Heap.counts_write _ _ _), h.made, h.clock, ?_, h.sound⟩
  intro ping hscan
  refine (h.watched ping hscan).of_slot rfl (le_refl _) ?_
  intro hfull
  refine ⟨hfull, rfl, ?_⟩
  intro v' hv'
  rcases eq_or_ne ping.value a with heq | hne
  · rw [heq] at hv' ⊢
    obtain rfl := Option.some.inj ((Heap.write_cells_self _ _ _).symm.trans hv')
    exact ⟨v, hv, rfl⟩
  · exact ⟨v', (Heap.write_cells_of_ne _ hne _).symm.trans hv', rfl⟩

/-- What a cleared slot leaves bound was bound before. -/
theorem bound_of_clear {slots : Nat → Option Nat} {held : List Nat}
    {counts : Nat → Option Int} {i b : Nat}
    (hslots : slots = Function.update s.table.slot i none)
    (hb : Ledger.Bound ⟨slots, held, counts⟩ b) : s.ledger.Bound b := by
  obtain ⟨j, hj⟩ := hb
  dsimp only at hj
  rw [hslots, Function.update_apply] at hj
  split at hj
  · cases hj
  · exact ⟨j, hj⟩

theorem Tracked.unbind (h : s.Tracked) (hindex : index < s.table.limit)
    (hfull : s.table.slot index.toNat = some a) :
    Tracked { s with
      table := { s.table.storeAt index none with
        freeStack := index :: s.table.freeStack }
      held := a :: s.held } := by
  have hslots : RMVByMapped.slot { s.table.storeAt index none with
      freeStack := index :: s.table.freeStack } =
      Function.update s.table.slot index.toNat none :=
    RMVByMapped.storeAt_slot h.cover hindex none
  have hpages : s.table.pages.length ≤
      (s.table.storeAt index none).pages.length := by
    simp [RMVByMapped.storeAt]
  refine ⟨h.cover.store _ _ _, (h.balanced.lift hfull).congr hslots rfl rfl,
    fun b hb hbound => h.made b hb (bound_of_clear hslots hbound), h.clock, ?_,
    h.sound⟩
  intro ping hscan
  refine (h.watched ping hscan).of_slot rfl hpages ?_
  intro hping
  dsimp only at hping
  rw [hslots, Function.update_apply] at hping
  split at hping
  · cases hping
  · exact ⟨hping, rfl, fun v' hv' => ⟨v', hv', rfl⟩⟩

theorem Tracked.drop (h : s.Tracked) (ha : a ∈ s.held) {values : Heap}
    (hdecr : s.values.decrRefcount a = .ok values) :
    Tracked { s with
      values := values
      made := s.made.filter (· ≠ a)
      held := s.held.erase a } := by
  obtain ⟨v, content, hv, rfl, hcount⟩ := Heap.decrRefcount_counts hdecr
  have hdropped := h.balanced.drop ha (Heap.counts_eq hv)
  refine ⟨h.cover, hdropped.congr rfl rfl
    ((Heap.counts_write _ _ _).trans (by rw [hcount]; rfl)),
    fun b hb => h.made b (List.mem_of_mem_filter hb), h.clock, ?_, h.sound⟩
  intro ping hscan
  refine (h.watched ping hscan).of_slot rfl (le_refl _) ?_
  intro hfull
  refine ⟨hfull, rfl, ?_⟩
  intro v' hv'
  rcases eq_or_ne ping.value a with heq | hne
  · obtain ⟨w, hw, hcases⟩ := Heap.decrRefcount_cases hdecr
    rw [heq] at hv' ⊢
    refine ⟨w, hw, ?_⟩
    rcases hcases with ⟨-, heq'⟩ | ⟨-, heq'⟩
    · dsimp only at hv'
      rw [heq', Heap.write_cells_self] at hv'
      exact (congrArg ReferenceMapValue.origRef (Option.some.inj hv')).symm
    · dsimp only at hv'
      rw [heq', Heap.write_cells_self] at hv'
      cases hv'
  · exact ⟨v', (Heap.write_cells_of_ne _ hne _).symm.trans hv', rfl⟩

theorem Tracked.rescan (h : s.Tracked) {scan : Scan}
    (hwatched : ∀ ping, scan = .pinging ping → s.Watched ping) :
    Tracked { s with scan := scan } := by
  refine ⟨h.cover, h.balanced, h.made, h.clock, ?_, h.sound⟩
  intro ping hscan
  have hold := hwatched ping hscan
  exact ⟨hold.page, hold.offset, hold.same⟩

theorem Tracked.look (h : s.Tracked) {page offset : Nat}
    (hstep : s.look page offset = some s') : s'.Tracked := by
  rcases look_cases hstep with ⟨-, rfl⟩ | ⟨-, -, rfl⟩ | ⟨-, -, -, rfl⟩ |
    ⟨a, v, hpage, hoffset, hslot, hread, rfl⟩
  · exact h.rescan nofun
  · exact h.rescan nofun
  · exact h.rescan nofun
  · apply h.rescan
    rintro ping ⟨⟩
    refine ⟨hpage, hoffset, ?_⟩
    intro _ w hw
    obtain rfl := Except.ok.inj (hread.symm.trans (Heap.read_eq hw))
    exact ⟨rfl, h.clock a⟩

/-- What the scan removes after the recheck is what it pinged. -/
theorem Tracked.answer (h : s.Tracked) {expired : Bool}
    (hscan : s.scan = .pinging ping) (hstep : s.answer ping expired = some s') :
    s'.Tracked := by
  have hwatched := h.watched ping hscan
  rcases answer_cases hstep with ⟨-, hfull, v, values, hread, hdecr, rfl⟩ | ⟨-, rfl⟩
  · obtain ⟨v', hv⟩ := h.bound_cell hfull
    obtain rfl := Except.ok.inj (hread.symm.trans (Heap.read_eq hv))
    have hslots := RMVByMapped.reap_slot s.table ping.page ping.offset
      hwatched.offset hwatched.page
    obtain ⟨w, content, hw, rfl, hcount⟩ := Heap.decrRefcount_counts hdecr
    have hcleared := h.balanced.clear hfull (Heap.counts_eq hw)
    refine ⟨h.cover.store _ _ _, hcleared.congr hslots rfl
      ((Heap.counts_write _ _ _).trans (by rw [hcount]; rfl)),
      fun b hb hbound => h.made b hb (bound_of_clear hslots hbound),
      h.clock, nofun, ?_⟩
    intro r hr
    rcases List.mem_cons.mp hr with rfl | hr
    · exact hwatched.same hfull v hv
    · exact h.sound r hr
  · exact h.rescan nofun

/-- Every step that does not disturb a ping keeps the invariant. -/
theorem Tracked.step (h : s.Tracked) {op : CollectorOp}
    (hcalm : s.undisturbed op = true) (hstep : s.step op = some s') :
    s'.Tracked := by
  cases op with
  | nextIndex =>
      obtain rfl := Option.some.inj hstep
      exact h.nextIndex
  | make a v =>
      obtain ⟨hfree, hstep⟩ := Option.ite_none_right_eq_some.mp hstep
      obtain rfl := Option.some.inj hstep
      exact h.make (Option.isNone_iff_eq_none.mp hfree)
  | bind index a =>
      obtain ⟨⟨-, -, hmade⟩, hstep⟩ := Option.ite_none_right_eq_some.mp hstep
      rw [h.cover.bind_eq] at hstep
      by_cases hfits : index < s.table.limit ∧ s.table.slot index.toNat = none
      · rw [if_pos hfits] at hstep
        cases hv : s.values.cells a with
        | none =>
            rw [Heap.incrRefcount_dead hv] at hstep
            cases hstep
        | some v =>
            rw [Heap.incrRefcount_eq hv] at hstep
            obtain rfl := Option.some.inj hstep
            exact h.bind hmade hfits.1 hfits.2 hv hcalm
      · rw [if_neg hfits] at hstep
        obtain rfl := Option.some.inj hstep
        refine ⟨h.cover, h.balanced,
          fun b hb => h.made b (List.mem_of_mem_filter hb), h.clock, ?_, h.sound⟩
        intro ping hscan
        have hold := h.watched ping hscan
        exact ⟨hold.page, hold.offset, hold.same⟩
  | find index =>
      obtain ⟨-, hstep⟩ := Option.ite_none_right_eq_some.mp hstep
      rw [h.cover.find_eq] at hstep
      split at hstep
      · next hmiss =>
          obtain rfl := Option.some.inj hstep
          exact h
      · next a hhit =>
          have hslot : s.table.slot index.toNat = some a := by
            have hcontent := Except.ok.inj hhit
            split at hcontent
            · cases hcontent
            · exact hcontent
          obtain ⟨v, hv⟩ := h.bound_cell hslot
          rw [Heap.incrRefcount_eq hv] at hstep
          obtain rfl := Option.some.inj hstep
          exact h.find hv
      · cases hstep
  | unbind index =>
      obtain ⟨-, hstep⟩ := Option.ite_none_right_eq_some.mp hstep
      rw [h.cover.unbind_eq] at hstep
      by_cases hfound : index < s.table.limit ∧
          (s.table.slot index.toNat).isSome
      · rw [if_pos hfound] at hstep
        obtain ⟨a, hslot⟩ := Option.isSome_iff_exists.mp hfound.2
        rw [hslot] at hstep
        obtain rfl := Option.some.inj hstep
        exact h.unbind hfound.1 hslot
      · rw [if_neg hfound] at hstep
        obtain rfl := Option.some.inj hstep
        exact h
  | drop a =>
      obtain ⟨ha, hstep⟩ := Option.ite_none_right_eq_some.mp hstep
      cases hdecr : s.values.decrRefcount a with
      | error cause =>
          rw [hdecr] at hstep
          cases hstep
      | ok values =>
          rw [hdecr] at hstep
          obtain rfl := Option.some.inj hstep
          exact h.drop ha hdecr
  | wake =>
      obtain ⟨-, rfl⟩ := step_wake hstep
      exact h.rescan nofun
  | look =>
      obtain ⟨_, _, -, hlook⟩ := step_look hstep
      exact h.look hlook
  | answer expired =>
      obtain ⟨ping, hscan, hanswer⟩ := step_answer hstep
      exact h.answer hscan hanswer

theorem tracked_initial (pageSize : UInt32) {s : CollectorState}
    (h : (collectorSystem pageSize).init s) : s.Tracked := by
  obtain rfl := h
  have hslot : ∀ i, (RMVByMapped.new pageSize : RMVByMapped Nat).slot i = none :=
    RMVByMapped.new_slot pageSize
  refine ⟨RMVByMapped.PagesCover.new pageSize, ⟨?_, ?_, ?_⟩, nofun, fun _ => le_refl _,
    nofun, nofun⟩
  · intro i j a hi
    exact absurd ((hslot i).symm.trans hi) nofun
  · intro a n hn
    cases hn
  · intro a _
    refine ⟨?_, List.not_mem_nil⟩
    rintro ⟨i, hi⟩
    exact absurd ((hslot i).symm.trans hi) nofun

theorem tracked_of_reach {pageSize : UInt32}
    (h : (collectorSystem pageSize).Reach (fun s op => s.undisturbed op = true) s) :
    s.Tracked := by
  refine h.invariant ?_ ?_
  · exact fun s hs => tracked_initial pageSize hs
  · exact fun s op s' hs hcalm hstep => hs.step hcalm hstep

/-- In every run in which no ping is disturbed, every entry the scan removes is
one whose own native was the object pinged, and its mapping is no younger than
the ping. -/
theorem reaped_sound (pageSize : UInt32) (s : CollectorState)
    (h : (collectorSystem pageSize).Reach
      (fun s op => s.undisturbed op = true) s) :
    ∀ r ∈ s.reaped, r.Sound :=
  (tracked_of_reach h).sound

/-- And it removes nothing else: a slot that the scan empties is the one that was
pinged, the ping said that the native is gone, and the removal is recorded. -/
theorem cleared_reaped {pageSize : UInt32} {s s' : CollectorState} {expired : Bool} {i a : Nat}
    (h : (collectorSystem pageSize).Reach (fun s op => s.undisturbed op = true) s)
    (hstep : s.step (.answer expired) = some s') (hfull : s.table.slot i = some a)
    (hcleared : s'.table.slot i = none) :
    expired = true ∧ ∃ r, s'.reaped = r :: s.reaped ∧ s.scan = .pinging r.ping ∧
      s.pingedSlot r.ping = i ∧ r.ping.value = a ∧ r.Sound := by
  have htracked := tracked_of_reach h
  have hsound := (htracked.step rfl hstep).sound
  obtain ⟨ping, hscan, hanswer⟩ := step_answer hstep
  have hwatched := htracked.watched ping hscan
  rcases answer_cases hanswer with ⟨hexpired, hsame, v, values, -, -, rfl⟩ | ⟨-, rfl⟩
  · have hslots : (s.table.reap ping.page ping.offset).slot =
        Function.update s.table.slot (s.pingedSlot ping) none :=
      s.table.reap_slot ping.page ping.offset hwatched.offset hwatched.page
    have hi : i = s.pingedSlot ping := by
      by_contra hne
      dsimp only at hcleared
      rw [hslots, Function.update_of_ne hne, hfull] at hcleared
      cases hcleared
    rw [hi, hsame] at hfull
    exact ⟨hexpired, _, rfl, hscan, hi.symm, Option.some.inj hfull,
      hsound _ List.mem_cons_self⟩
  · rw [hfull] at hcleared
    cases hcleared

end Steps

/-- Two natives of servers, for concrete runs. -/
def sampleValue (endpoint : String) : ReferenceMapValue where
  origRef := ⟨"IDL:Test/Hello:1.0", none, endpoint, false, false⟩
  mappedRef := ⟨"IDL:Test/Hello:1.0", none, "IOR:lorica", false, false⟩
  iorTableName := ""
  requireSecure := false
  agent := none
  refCount := 1

/-- A mapping made at address 0 and index 0 that only the table keeps, and the
start of its ping. -/
def pingFirst : List CollectorOp :=
  [.make 0 (sampleValue "IOR:first"), .nextIndex, .bind 0 0, .drop 0, .wake, .look]

def collectorRun (guard : CollectorState → CollectorOp → Bool)
    (ops : List CollectorOp) : Option CollectorState :=
  (collectorSystem 1024).replay (fun s op => guard s op = true)
    { table := RMVByMapped.new 1024
      values := .empty
      scan := .waiting
      issued := []
      made := []
      held := []
      clock := 0
      boundAt := fun _ => 0
      reaped := [] } ops

theorem reaped_sound_expired :
    ∃ s, collectorRun undisturbed (pingFirst ++ [.answer true]) = some s ∧
      s.reaped.length = 1 ∧ ∀ r ∈ s.reaped, r.Sound := by
  obtain ⟨s, hs⟩ := Option.isSome_iff_exists.mp (show
    (collectorRun undisturbed (pingFirst ++ [.answer true])).isSome by decide)
  have hcount : s.reaped.length = 1 :=
    System.replay_read (fun s => s.reaped.length) hs (by decide)
  exact ⟨s, hs, hcount, reaped_sound 1024 s
    (System.Reach.of_replay (.start rfl) _ hs)⟩

/-- During the ping the value is unbound and deleted, and a new mapping gets
its address and its index. -/
theorem reaped_not_sound :
    ¬ ∀ (pageSize : UInt32) (s : CollectorState),
      (collectorSystem pageSize).Reachable s → ∀ r ∈ s.reaped, r.Sound := by
  intro hall
  let ops := pingFirst ++ [.unbind 0, .drop 0, .nextIndex,
    .make 0 (sampleValue "IOR:second"), .bind 0 0, .answer true]
  obtain ⟨s, hs⟩ := Option.isSome_iff_exists.mp (show
    (collectorRun (fun _ _ => true) ops).isSome by decide)
  have hreach : (collectorSystem 1024).Reachable s :=
    (System.Reach.of_replay (.start rfl) _ hs).mono fun _ _ _ => trivial
  have hreaped : s.reaped = [⟨⟨0, 0, 0, (sampleValue "IOR:first").origRef, 1⟩,
      (sampleValue "IOR:second").origRef, 2⟩] :=
    System.replay_read (fun s => s.reaped) hs (by decide)
  obtain ⟨-, hage⟩ := hall 1024 s hreach _ (hreaped ▸ List.mem_cons_self)
  exact absurd hage (by decide)

end CollectorState

end Lorica
