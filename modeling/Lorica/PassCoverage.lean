import Lorica.Collector

/-!
One pass of `RMVByMapped::svc` among the other threads, from the end of a wait
to the next one. The lock is free during every ping, so entries come and go
while the cursor moves over the table; pages may be appended behind it. What
stays in its slot is met by the cursor once, and the pass comes to its end.
-/

namespace Lorica

open Machine

/-- The steps of the collector's own thread. -/
def CollectorOp.own : CollectorOp → Bool
  | .wake => true
  | .look => true
  | .answer _ => true
  | _ => false

namespace CollectorState

/-- The state after a list of steps; `none` if one of them is not possible. -/
def runSteps : CollectorState → List CollectorOp → Option CollectorState
  | s, [] => some s
  | s, op :: rest => (s.step op).bind fun s' => runSteps s' rest

/-- The answer to a ping of the slot with global index `i`, if the step is one. -/
def answerAt (i : Nat) (s : CollectorState) : CollectorOp → List Bool
  | .answer expired =>
      match s.scan with
      | .pinging ping => if s.pingedSlot ping = i then [expired] else []
      | _ => []
  | _ => []

/-- The answers to the pings of a slot, in their order. -/
def answersAt (i : Nat) : CollectorState → List CollectorOp → List Bool
  | _, [] => []
  | s, op :: rest => s.answerAt i op ++
      match s.step op with
      | none => []
      | some s' => answersAt i s' rest

/-- The turns of the collector. -/
def turns (ops : List CollectorOp) : Nat := ops.countP CollectorOp.own

/-! ## What a step of another thread does -/

section Aside

variable {s s' : CollectorState} {op : CollectorOp}

/-- Another thread does not move the cursor. A slot changes only by being
filled, or by an `unbind` of its index. -/
structure Aside (s : CollectorState) (op : CollectorOp) (s' : CollectorState) : Prop where
  scan : s'.scan = s.scan
  reaped : s'.reaped = s.reaped
  pageSize : s'.table.pageSize = s.table.pageSize
  pages : s.table.pages.length ≤ s'.table.pages.length
  cover : s'.table.PagesCover
  slots : ∀ i, s'.table.slot i = s.table.slot i ∨
    (s.table.slot i = none ∧ i < s.table.pages.length * s.table.pageSize.toNat) ∨
    ∃ index, op = .unbind index ∧ index.toNat = i ∧ s'.table.slot i = none

theorem Aside.of_table (hcover : s.table.PagesCover) (htable : s'.table = s.table)
    (hscan : s'.scan = s.scan) (hreaped : s'.reaped = s.reaped) : Aside s op s' := by
  refine ⟨hscan, hreaped, ?_, ?_, ?_, ?_⟩
  · rw [htable]
  · rw [htable]
  · rwa [htable]
  · intro i
    rw [htable]
    exact .inl rfl

theorem Aside.bind {t : RMVByMapped Nat} {index : UInt32} {a : Nat} (hcover : s.table.PagesCover)
    (hindex : index < s.table.limit) (hempty : s.table.slot index.toNat = none)
    (htable : t = s.table.storeAt index (some a)) (hscan : s'.scan = s.scan)
    (hreaped : s'.reaped = s.reaped) (ht : s'.table = t) : Aside s op s' := by
  subst htable
  have hslots := RMVByMapped.storeAt_slot hcover hindex (some a)
  refine ⟨hscan, hreaped, ?_, ?_, ?_, fun i => ?_⟩
  · rw [ht]
    rfl
  · rw [ht]
    simp [RMVByMapped.storeAt]
  · rw [ht]
    exact hcover.store _ _ _
  · rw [ht, hslots, Function.update_apply]
    split
    · next hi =>
        have hpage := hcover.locate_page hindex
        have hsize := RMVByMapped.pageSize_pos hindex
        rw [UInt32.toNat_div] at hpage
        rw [hi]
        exact .inr (.inl ⟨hempty, (Nat.div_lt_iff_lt_mul hsize).mp hpage⟩)
    · exact .inl rfl

theorem Aside.unbind {t : RMVByMapped Nat} {index : UInt32} (hcover : s.table.PagesCover)
    (hindex : index < s.table.limit)
    (htable : t = { s.table.storeAt index none with freeStack := index :: s.table.freeStack })
    (hscan : s'.scan = s.scan) (hreaped : s'.reaped = s.reaped) (ht : s'.table = t)
    (hop : op = .unbind index) : Aside s op s' := by
  subst htable
  have hslots : RMVByMapped.slot { s.table.storeAt index none with
      freeStack := index :: s.table.freeStack } =
      Function.update s.table.slot index.toNat none :=
    RMVByMapped.storeAt_slot hcover hindex none
  refine ⟨hscan, hreaped, ?_, ?_, ?_, fun i => ?_⟩
  · rw [ht]
    rfl
  · rw [ht]
    simp [RMVByMapped.storeAt]
  · rw [ht]
    exact hcover.store _ _ _
  · rw [ht, hslots, Function.update_apply]
    split
    · next hi => exact .inr (.inr ⟨index, hop, hi.symm, rfl⟩)
    · exact .inl rfl

theorem step_aside (hcover : s.table.PagesCover) (hop : op.own = false)
    (hstep : s.step op = some s') : Aside s op s' := by
  cases op with
  | nextIndex =>
      obtain rfl := Option.some.inj hstep
      refine ⟨rfl, rfl, s.table.nextIndex_pageSize, s.table.nextIndex_pages_length,
        hcover.nextIndex, fun i => .inl ?_⟩
      exact congrFun s.table.nextIndex_slot i
  | make a v =>
      obtain ⟨-, hstep⟩ := Option.ite_none_right_eq_some.mp hstep
      obtain rfl := Option.some.inj hstep
      exact .of_table hcover rfl rfl rfl
  | bind index a =>
      obtain ⟨-, hstep⟩ := Option.ite_none_right_eq_some.mp hstep
      rw [hcover.bind_eq] at hstep
      by_cases hfits : index < s.table.limit ∧ s.table.slot index.toNat = none
      · rw [if_pos hfits] at hstep
        cases hincr : s.values.incrRefcount a with
        | error cause =>
            rw [hincr] at hstep
            cases hstep
        | ok values =>
            rw [hincr] at hstep
            obtain rfl := Option.some.inj hstep
            exact .bind hcover hfits.1 hfits.2 rfl rfl rfl rfl
      · rw [if_neg hfits] at hstep
        obtain rfl := Option.some.inj hstep
        exact .of_table hcover rfl rfl rfl
  | find index =>
      obtain ⟨-, hstep⟩ := Option.ite_none_right_eq_some.mp hstep
      split at hstep
      · obtain rfl := Option.some.inj hstep
        exact .of_table hcover rfl rfl rfl
      · split at hstep
        · obtain rfl := Option.some.inj hstep
          exact .of_table hcover rfl rfl rfl
        · cases hstep
      · cases hstep
  | unbind index =>
      obtain ⟨-, hstep⟩ := Option.ite_none_right_eq_some.mp hstep
      rw [hcover.unbind_eq] at hstep
      by_cases hfound : index < s.table.limit ∧ (s.table.slot index.toNat).isSome
      · rw [if_pos hfound] at hstep
        obtain ⟨a, hslot⟩ := Option.isSome_iff_exists.mp hfound.2
        rw [hslot] at hstep
        obtain rfl := Option.some.inj hstep
        exact .unbind hcover hfound.1 rfl rfl rfl rfl rfl
      · rw [if_neg hfound] at hstep
        obtain rfl := Option.some.inj hstep
        exact .of_table hcover rfl rfl rfl
  | drop a =>
      obtain ⟨-, hstep⟩ := Option.ite_none_right_eq_some.mp hstep
      split at hstep
      · obtain rfl := Option.some.inj hstep
        exact .of_table hcover rfl rfl rfl
      · cases hstep
  | wake => cases hop
  | look => cases hop
  | answer expired => cases hop

end Aside

theorem looking_ne_pinging {page offset : Nat} {ping : Ping} :
    Scan.looking page offset ≠ .pinging ping := by
  intro h
  cases h

/-! ## Where the cursor is -/

/-- The table and the cursor fit together in every state of every run. -/
structure Placed (s : CollectorState) : Prop where
  cover : s.table.PagesCover
  slots : ∀ i a, s.table.slot i = some a → i < s.table.pages.length * s.table.pageSize.toNat
  looking : ∀ page offset, s.scan = .looking page offset →
    offset ≤ s.table.pageSize.toNat ∧
      (page < s.table.pages.length ∨ page = s.table.pages.length ∧ offset = 0)
  pinging : ∀ ping, s.scan = .pinging ping →
    ping.offset < s.table.pageSize.toNat ∧ ping.page < s.table.pages.length

section Placing

variable {s s' : CollectorState} {op : CollectorOp}

theorem Placed.aside (h : s.Placed) (haside : Aside s op s') : s'.Placed := by
  refine ⟨haside.cover, fun i a hslot => ?_, fun page offset hscan => ?_, fun ping hscan => ?_⟩
  · have hpages : s.table.pages.length * s.table.pageSize.toNat ≤
        s'.table.pages.length * s'.table.pageSize.toNat := by
      rw [haside.pageSize]
      exact Nat.mul_le_mul_right _ haside.pages
    rcases haside.slots i with hsame | ⟨-, hi⟩ | ⟨index, -, -, hnone⟩
    · exact lt_of_lt_of_le (h.slots i a (hsame.symm.trans hslot)) hpages
    · exact lt_of_lt_of_le hi hpages
    · rw [hnone] at hslot
      cases hslot
  · rw [haside.scan] at hscan
    obtain ⟨hoffset, hpage⟩ := h.looking page offset hscan
    have hgrown := haside.pages
    rw [haside.pageSize]
    exact ⟨hoffset, by omega⟩
  · rw [haside.scan] at hscan
    obtain ⟨hoffset, hpage⟩ := h.pinging ping hscan
    rw [haside.pageSize]
    exact ⟨hoffset, lt_of_lt_of_le hpage haside.pages⟩

theorem Placed.rescan (h : s.Placed) {scan : Scan}
    (hlooking : ∀ page offset, scan = .looking page offset →
      offset ≤ s.table.pageSize.toNat ∧
        (page < s.table.pages.length ∨ page = s.table.pages.length ∧ offset = 0))
    (hpinging : ∀ ping, scan = .pinging ping →
      ping.offset < s.table.pageSize.toNat ∧ ping.page < s.table.pages.length) :
    Placed { s with scan := scan } :=
  ⟨h.cover, h.slots, hlooking, hpinging⟩

theorem Placed.look (h : s.Placed) {page offset : Nat} (hlook : s.look page offset = some s') :
    s'.Placed := by
  rcases look_cases hlook with ⟨-, rfl⟩ | ⟨hpage, -, rfl⟩ | ⟨hpage, hoffset, -, rfl⟩ |
    ⟨a, v, hpage, hoffset, -, -, rfl⟩
  · exact h.rescan nofun nofun
  · refine h.rescan ?_ nofun
    rintro _ _ ⟨⟩
    exact ⟨Nat.zero_le _, by omega⟩
  · refine h.rescan ?_ nofun
    rintro _ _ ⟨⟩
    exact ⟨hoffset, .inl hpage⟩
  · refine h.rescan nofun ?_
    rintro _ ⟨⟩
    exact ⟨hoffset, hpage⟩

/-- The slots after the entry at the cursor has been removed. -/
theorem Placed.reap_slots (h : s.Placed) {ping : Ping} (hscan : s.scan = .pinging ping) :
    (s.table.reap ping.page ping.offset).slot =
      Function.update s.table.slot (s.pingedSlot ping) none :=
  s.table.reap_slot ping.page ping.offset (h.pinging ping hscan).1 (h.pinging ping hscan).2

theorem Placed.answer (h : s.Placed) {ping : Ping} {expired : Bool}
    (hscan : s.scan = .pinging ping) (hanswer : s.answer ping expired = some s') : s'.Placed := by
  obtain ⟨hoffset, hpage⟩ := h.pinging ping hscan
  rcases answer_cases hanswer with ⟨-, -, v, values, -, -, rfl⟩ | ⟨-, rfl⟩
  · have hpages : (s.table.reap ping.page ping.offset).pages.length = s.table.pages.length := by
      simp [RMVByMapped.reap]
    refine ⟨h.cover.store _ _ _, fun i a hslot => ?_, ?_, nofun⟩
    · dsimp only at hslot ⊢
      rw [h.reap_slots hscan, Function.update_apply] at hslot
      rw [hpages]
      split at hslot
      · cases hslot
      · exact h.slots i a hslot
    · rintro _ _ ⟨⟩
      dsimp only
      rw [hpages]
      exact ⟨hoffset, .inl hpage⟩
  · refine h.rescan ?_ nofun
    rintro _ _ ⟨⟩
    exact ⟨hoffset, .inl hpage⟩

theorem Placed.step (h : s.Placed) (hstep : s.step op = some s') : s'.Placed := by
  cases hop : op.own with
  | false => exact h.aside (step_aside h.cover hop hstep)
  | true =>
      cases op with
      | wake =>
          obtain ⟨-, rfl⟩ := step_wake hstep
          refine h.rescan ?_ fun ping hping => absurd hping looking_ne_pinging
          rintro _ _ ⟨⟩
          exact ⟨Nat.zero_le _, by omega⟩
      | look =>
          obtain ⟨_, _, -, hlook⟩ := step_look hstep
          exact h.look hlook
      | answer expired =>
          obtain ⟨ping, hscan, hanswer⟩ := step_answer hstep
          exact h.answer hscan hanswer
      | _ => cases hop

theorem placed_of_reach {pageSize : UInt32} {guard : CollectorState → CollectorOp → Prop}
    (hreach : (collectorSystem pageSize).Reach guard s) : s.Placed := by
  apply hreach.invariant
  · rintro _ rfl
    refine ⟨RMVByMapped.PagesCover.new pageSize, fun i a hslot => ?_, nofun, nofun⟩
    exact absurd ((RMVByMapped.new_slot pageSize i).symm.trans hslot) nofun
  · exact fun _ _ _ h _ hstep => h.step hstep

end Placing

/-! ## Before and after the turn of a slot -/

/-- The cursor has not come to the slot yet, or is at it. -/
def Before (i : Nat) (s : CollectorState) : Prop :=
  match s.scan with
  | .waiting => False
  | .looking page offset => page * s.table.pageSize.toNat + offset ≤ i
  | .pinging ping => s.pingedSlot ping ≤ i

/-- The cursor is behind the slot. -/
def Past (i : Nat) (s : CollectorState) : Prop :=
  match s.scan with
  | .waiting => True
  | .looking page offset => i < page * s.table.pageSize.toNat + offset
  | .pinging ping => i < s.pingedSlot ping

/-- The answer that takes an entry out: it empties the slot of the ping, and a
record of the removal is added. -/
structure TakesOut (i a : Nat) (s s' : CollectorState) (r : Reaped) : Prop where
  step : s.step (.answer true) = some s'
  pinging : s.scan = .pinging r.ping
  pinged : s.pingedSlot r.ping = i
  value : r.ping.value = a
  full : s.table.slot i = some a
  empty : s'.table.slot i = none
  reaped : s'.reaped = r :: s.reaped

/-- The entry that the cursor will meet. -/
structure Ahead (i a : Nat) (s : CollectorState) : Prop where
  before : Before i s
  slot : s.table.slot i = some a
  pinged : ∀ ping, s.scan = .pinging ping → s.pingedSlot ping = i → ping.value = a

section Turns

variable {s s' : CollectorState} {op : CollectorOp} {i a : Nat}

theorem Aside.past (haside : Aside s op s') : Past i s' ↔ Past i s := by
  unfold Past pingedSlot
  rw [haside.scan, haside.pageSize]

theorem Aside.before (haside : Aside s op s') : Before i s' ↔ Before i s := by
  unfold Before pingedSlot
  rw [haside.scan, haside.pageSize]

theorem answerAt_of_not_own (hop : op.own = false) : s.answerAt i op = [] := by
  cases op <;> first | rfl | cases hop

/-- Once the cursor is behind a slot it stays there till the next pass. -/
theorem Past.step (h : s.Placed) (hpast : Past i s) (hwake : op ≠ .wake)
    (hstep : s.step op = some s') : s.answerAt i op = [] ∧ Past i s' := by
  cases hop : op.own with
  | false => exact ⟨answerAt_of_not_own hop, (step_aside h.cover hop hstep).past.mpr hpast⟩
  | true =>
      cases op with
      | wake => exact absurd rfl hwake
      | look =>
          refine ⟨rfl, ?_⟩
          obtain ⟨page, offset, hscan, hlook⟩ := step_look hstep
          simp only [Past, hscan] at hpast
          obtain ⟨hoffset, -⟩ := h.looking page offset hscan
          rcases look_cases hlook with ⟨-, rfl⟩ | ⟨-, hend, rfl⟩ | ⟨-, -, -, rfl⟩ |
            ⟨b, v, -, -, -, -, rfl⟩
          · trivial
          · simp only [Past]
            rw [Nat.succ_mul]
            omega
          · simp only [Past]
            omega
          · simpa only [Past, pingedSlot] using hpast
      | answer expired =>
          obtain ⟨ping, hscan, hanswer⟩ := step_answer hstep
          simp only [Past, hscan] at hpast
          have hpos : Past i s' := by
            rcases answer_cases hanswer with ⟨-, -, v, values, -, -, rfl⟩ | ⟨-, rfl⟩
            · exact Nat.lt_succ_of_lt hpast
            · exact Nat.lt_succ_of_lt hpast
          refine ⟨?_, hpos⟩
          simp only [answerAt, hscan]
          rw [if_neg (by omega)]
      | _ => cases hop

/-- Before its turn a slot is not pinged; at its turn it is pinged or passed. -/
theorem Before.step (h : s.Placed) (hbefore : Before i s) (hwake : op ≠ .wake)
    (hstep : s.step op = some s') :
    (s.answerAt i op = [] ∧ (Before i s' ∨ Past i s')) ∨
      ∃ expired, s.answerAt i op = [expired] ∧ Past i s' := by
  cases hop : op.own with
  | false =>
      have haside := step_aside h.cover hop hstep
      exact .inl ⟨answerAt_of_not_own hop, .inl (haside.before.mpr hbefore)⟩
  | true =>
      cases op with
      | wake => exact absurd rfl hwake
      | look =>
          refine .inl ⟨rfl, ?_⟩
          obtain ⟨page, offset, hscan, hlook⟩ := step_look hstep
          simp only [Before, hscan] at hbefore
          obtain ⟨hoffset, -⟩ := h.looking page offset hscan
          rcases look_cases hlook with ⟨-, rfl⟩ | ⟨-, hend, rfl⟩ | ⟨-, -, -, rfl⟩ |
            ⟨b, v, -, -, -, -, rfl⟩
          · exact .inr trivial
          · refine .inl ?_
            simp only [Before]
            rw [Nat.succ_mul]
            omega
          · simp only [Before, Past]
            omega
          · exact .inl hbefore
      | answer expired =>
          obtain ⟨ping, hscan, hanswer⟩ := step_answer hstep
          simp only [Before, hscan, pingedSlot] at hbefore
          have hscan' : s'.scan = .looking ping.page (ping.offset + 1) ∧
              s'.table.pageSize = s.table.pageSize := by
            rcases answer_cases hanswer with ⟨-, -, v, values, -, -, rfl⟩ | ⟨-, rfl⟩
            · exact ⟨rfl, rfl⟩
            · exact ⟨rfl, rfl⟩
          simp only [answerAt, hscan, Before, Past, hscan'.1, hscan'.2]
          by_cases hi : s.pingedSlot ping = i
          · rw [if_pos hi]
            unfold pingedSlot at hi
            exact .inr ⟨expired, rfl, by omega⟩
          · rw [if_neg hi]
            unfold pingedSlot at hi
            exact .inl ⟨rfl, by omega⟩
      | _ => cases hop

/-- An entry that nobody unbinds. -/
theorem Aside.slot_kept (haside : Aside s op s') (hslot : s.table.slot i = some a)
    (hkept : ∀ index, op = .unbind index → index.toNat ≠ i) : s'.table.slot i = some a := by
  rcases haside.slots i with hsame | ⟨hnone, -⟩ | ⟨index, hop, hi, -⟩
  · exact hsame.trans hslot
  · rw [hnone] at hslot
    cases hslot
  · exact absurd hi (hkept index hop)

/-- A turn up to the ping does not pass an entry. -/
theorem Ahead.look (h : s.Placed) (hahead : Ahead i a s) {page offset : Nat}
    (hscan : s.scan = .looking page offset) (hlook : s.look page offset = some s') :
    Ahead i a s' := by
  obtain ⟨hbefore, hslot, -⟩ := hahead
  simp only [Before, hscan] at hbefore
  obtain ⟨hoffset, -⟩ := h.looking page offset hscan
  have hi := h.slots i a hslot
  rcases look_cases hlook with ⟨hend, rfl⟩ | ⟨-, hend, rfl⟩ | ⟨-, -, hnone, rfl⟩ |
    ⟨b, v, -, -, hfull, -, rfl⟩
  · -- the slot is on one of the pages, so that the pass cannot be over
    have hbehind := Nat.mul_le_mul_right s.table.pageSize.toNat hend
    exact absurd hi (by omega)
  · refine ⟨?_, hslot, fun ping hping => absurd hping looking_ne_pinging⟩
    simp only [Before]
    rw [Nat.succ_mul]
    omega
  · refine ⟨?_, hslot, fun ping hping => absurd hping looking_ne_pinging⟩
    simp only [Before]
    have hne : page * s.table.pageSize.toNat + offset ≠ i := by
      rintro rfl
      rw [hnone] at hslot
      cases hslot
    omega
  · refine ⟨hbefore, hslot, ?_⟩
    rintro _ ⟨⟩ hsame
    simp only [pingedSlot] at hsame
    rw [hsame] at hfull
    exact Option.some.inj (hfull.symm.trans hslot)

/-- The answer to a ping of another entry. -/
theorem Ahead.answer_other (h : s.Placed) (hahead : Ahead i a s) {ping : Ping} {expired : Bool}
    (hscan : s.scan = .pinging ping) (hi : s.pingedSlot ping ≠ i)
    (hanswer : s.answer ping expired = some s') : Ahead i a s' := by
  obtain ⟨hbefore, hslot, -⟩ := hahead
  simp only [Before, hscan, pingedSlot] at hbefore
  have hne : i ≠ s.pingedSlot ping := fun heq => hi heq.symm
  unfold pingedSlot at hi
  rcases answer_cases hanswer with ⟨-, -, v, values, -, -, rfl⟩ | ⟨-, rfl⟩
  · refine ⟨?_, ?_, fun ping hping => absurd hping looking_ne_pinging⟩
    · simp only [Before, RMVByMapped.reap, RMVByMapped.store]
      omega
    · dsimp only
      rw [h.reap_slots hscan, Function.update_of_ne hne]
      exact hslot
  · refine ⟨?_, hslot, fun ping hping => absurd hping looking_ne_pinging⟩
    simp only [Before]
    omega

/-- The answer to the ping of the entry decides about it. -/
theorem Ahead.answer_own (h : s.Placed) (hahead : Ahead i a s) {ping : Ping} {expired : Bool}
    (hscan : s.scan = .pinging ping) (hi : s.pingedSlot ping = i)
    (hanswer : s.answer ping expired = some s') :
    Past i s' ∧ (expired = true → ∃ r, TakesOut i a s s' r) ∧
      (expired = false → s'.table.slot i = some a) := by
  obtain ⟨-, hslot, hpinged⟩ := hahead
  have hvalue := hpinged ping hscan hi
  rcases answer_cases hanswer with ⟨rfl, -, v, values, -, -, rfl⟩ | ⟨hsame, rfl⟩
  · refine ⟨?_, fun _ => ?_, fun hnot => absurd hnot (by decide)⟩
    · unfold pingedSlot at hi
      simp only [Past, RMVByMapped.reap, RMVByMapped.store]
      omega
    · refine ⟨_, ?_, hscan, hi, hvalue, hslot, ?_, rfl⟩
      · simp only [CollectorState.step, hscan]
        exact hanswer
      · dsimp only
        rw [h.reap_slots hscan, hi, Function.update_self]
  · refine ⟨?_, fun hexpired => ?_, fun _ => hslot⟩
    · unfold pingedSlot at hi
      simp only [Past]
      omega
    · rw [hi, hvalue] at hsame
      exact absurd hslot (hsame hexpired)

/-- Its turn comes, and not before: the entry is pinged then. -/
theorem Ahead.step (h : s.Placed) (hahead : Ahead i a s) (hwake : op ≠ .wake)
    (hkept : ∀ index, op = .unbind index → index.toNat ≠ i) (hstep : s.step op = some s') :
    (s.answerAt i op = [] ∧ Ahead i a s') ∨
      ∃ expired, op = .answer expired ∧ s.answerAt i op = [expired] ∧ Past i s' ∧
        (expired = true → ∃ r, TakesOut i a s s' r) ∧
        (expired = false → s'.table.slot i = some a) := by
  cases hop : op.own with
  | false =>
      obtain ⟨hbefore, hslot, hpinged⟩ := hahead
      have haside := step_aside h.cover hop hstep
      refine .inl ⟨answerAt_of_not_own hop, haside.before.mpr hbefore,
        haside.slot_kept hslot hkept, fun ping hscan hi => ?_⟩
      rw [haside.scan] at hscan
      unfold pingedSlot at hi
      rw [haside.pageSize] at hi
      exact hpinged ping hscan hi
  | true =>
      cases op with
      | wake => exact absurd rfl hwake
      | look =>
          obtain ⟨page, offset, hscan, hlook⟩ := step_look hstep
          exact .inl ⟨rfl, hahead.look h hscan hlook⟩
      | answer expired =>
          obtain ⟨ping, hscan, hanswer⟩ := step_answer hstep
          simp only [answerAt, hscan]
          by_cases hi : s.pingedSlot ping = i
          · rw [if_pos hi]
            exact .inr ⟨expired, rfl, rfl, hahead.answer_own h hscan hi hanswer⟩
          · rw [if_neg hi]
            exact .inl ⟨rfl, hahead.answer_other h hscan hi hanswer⟩
      | _ => cases hop

/-- An entry behind the cursor that nobody unbinds. -/
theorem Past.slot_kept (h : s.Placed) (hpast : Past i s) (hslot : s.table.slot i = some a)
    (hkept : ∀ index, op = .unbind index → index.toNat ≠ i) (hstep : s.step op = some s') :
    s'.table.slot i = some a := by
  cases hop : op.own with
  | false => exact (step_aside h.cover hop hstep).slot_kept hslot hkept
  | true =>
      cases op with
      | wake =>
          obtain ⟨-, rfl⟩ := step_wake hstep
          exact hslot
      | look =>
          obtain ⟨_, _, -, hlook⟩ := step_look hstep
          rcases look_cases hlook with ⟨-, rfl⟩ | ⟨-, -, rfl⟩ | ⟨-, -, -, rfl⟩ |
            ⟨b, v, -, -, -, -, rfl⟩
          all_goals exact hslot
      | answer expired =>
          obtain ⟨ping, hscan, hanswer⟩ := step_answer hstep
          simp only [Past, hscan] at hpast
          rcases answer_cases hanswer with ⟨-, -, v, values, -, -, rfl⟩ | ⟨-, rfl⟩
          · dsimp only
            rw [h.reap_slots hscan, Function.update_of_ne hpast.ne]
            exact hslot
          · exact hslot
      | _ => cases hop

/-- Pages stay, and so do the records of removals. -/
structure Onwards (s s' : CollectorState) : Prop where
  pages : s.table.pages.length ≤ s'.table.pages.length
  reaped : s.reaped <:+ s'.reaped

theorem Onwards.refl (s : CollectorState) : Onwards s s := ⟨le_refl _, List.suffix_rfl⟩

theorem Onwards.trans {s'' : CollectorState} (h : Onwards s s') (h' : Onwards s' s'') :
    Onwards s s'' :=
  ⟨h.pages.trans h'.pages, h.reaped.trans h'.reaped⟩

theorem Placed.onwards (h : s.Placed) (hstep : s.step op = some s') : Onwards s s' := by
  cases hop : op.own with
  | false =>
      have haside := step_aside h.cover hop hstep
      exact ⟨haside.pages, haside.reaped ▸ List.suffix_rfl⟩
  | true =>
      cases op with
      | wake =>
          obtain ⟨-, rfl⟩ := step_wake hstep
          exact ⟨le_refl _, List.suffix_rfl⟩
      | look =>
          obtain ⟨_, _, -, hlook⟩ := step_look hstep
          rcases look_cases hlook with ⟨-, rfl⟩ | ⟨-, -, rfl⟩ | ⟨-, -, -, rfl⟩ |
            ⟨b, v, -, -, -, -, rfl⟩
          all_goals exact ⟨le_refl _, List.suffix_rfl⟩
      | answer expired =>
          obtain ⟨_, -, hanswer⟩ := step_answer hstep
          rcases answer_cases hanswer with ⟨-, -, v, values, -, -, rfl⟩ | ⟨-, rfl⟩
          · exact ⟨by simp [RMVByMapped.reap], List.suffix_cons _ _⟩
          · exact ⟨le_refl _, List.suffix_rfl⟩
      | _ => cases hop

end Turns

/-! ## The pass -/

section Pass

variable {s s' : CollectorState} {ops : List CollectorOp} {i a : Nat}

theorem runSteps_cons {op : CollectorOp} (h : s.runSteps (op :: ops) = some s') :
    ∃ s₁, s.step op = some s₁ ∧ s₁.runSteps ops = some s' :=
  Option.bind_eq_some_iff.mp h

theorem answersAt_cons {op : CollectorOp} {s₁ : CollectorState} (h : s.step op = some s₁) :
    s.answersAt i (op :: ops) = s.answerAt i op ++ s₁.answersAt i ops := by
  simp only [answersAt, h]

/-- Behind the cursor nothing is pinged any more. -/
theorem Past.run (h : s.Placed) (hpast : Past i s) (hwake : .wake ∉ ops)
    (hrun : s.runSteps ops = some s') : s.answersAt i ops = [] ∧ Past i s' := by
  induction ops generalizing s with
  | nil =>
      obtain rfl := Option.some.inj hrun
      exact ⟨rfl, hpast⟩
  | cons op rest ih =>
      obtain ⟨s₁, hstep, hrest⟩ := runSteps_cons hrun
      rw [List.mem_cons, not_or] at hwake
      obtain ⟨hanswer, hpast₁⟩ := hpast.step h (Ne.symm hwake.1) hstep
      obtain ⟨hanswers, hpast'⟩ := ih (h.step hstep) hpast₁ hwake.2 hrest
      rw [answersAt_cons hstep, hanswer, hanswers]
      exact ⟨rfl, hpast'⟩

theorem Past.run_kept (h : s.Placed) (hpast : Past i s) (hwake : .wake ∉ ops)
    (hslot : s.table.slot i = some a) (hkept : ∀ index, .unbind index ∈ ops → index.toNat ≠ i)
    (hrun : s.runSteps ops = some s') : s'.table.slot i = some a := by
  induction ops generalizing s with
  | nil =>
      obtain rfl := Option.some.inj hrun
      exact hslot
  | cons op rest ih =>
      obtain ⟨s₁, hstep, hrest⟩ := runSteps_cons hrun
      rw [List.mem_cons, not_or] at hwake
      have hslot₁ := hpast.slot_kept h hslot
        (fun index hop => hkept index (hop ▸ List.mem_cons_self)) hstep
      exact ih (h.step hstep) (hpast.step h (Ne.symm hwake.1) hstep).2 hwake.2 hslot₁
        (fun index hindex => hkept index (List.mem_cons_of_mem _ hindex)) hrest

theorem onwards_of_run (h : s.Placed) (hrun : s.runSteps ops = some s') : Onwards s s' := by
  induction ops generalizing s with
  | nil =>
      obtain rfl := Option.some.inj hrun
      exact .refl s
  | cons op rest ih =>
      obtain ⟨s₁, hstep, hrest⟩ := runSteps_cons hrun
      exact (h.onwards hstep).trans (ih (h.step hstep) hrest)

/-- No slot is pinged twice. -/
theorem Before.run (h : s.Placed) (hbefore : Before i s) (hwake : .wake ∉ ops)
    (hrun : s.runSteps ops = some s') : (s.answersAt i ops).length ≤ 1 := by
  induction ops generalizing s with
  | nil => exact Nat.zero_le _
  | cons op rest ih =>
      obtain ⟨s₁, hstep, hrest⟩ := runSteps_cons hrun
      rw [List.mem_cons, not_or] at hwake
      rw [answersAt_cons hstep]
      rcases hbefore.step h (Ne.symm hwake.1) hstep with
        ⟨hanswer, hbefore₁ | hpast₁⟩ | ⟨expired, hanswer, hpast₁⟩
      · rw [hanswer]
        exact ih (h.step hstep) hbefore₁ hwake.2 hrest
      · rw [hanswer, (hpast₁.run (h.step hstep) hwake.2 hrest).1]
        exact Nat.zero_le _
      · rw [hanswer, (hpast₁.run (h.step hstep) hwake.2 hrest).1]
        exact le_refl _

/-- One of the steps takes the entry out. The record it adds is behind those that
were there at the start, and stays. -/
def TakenOut (i a : Nat) (s : CollectorState) (ops : List CollectorOp) (s' : CollectorState) :
    Prop :=
  ∃ before after s₁ s₂ r, ops = before ++ .answer true :: after ∧
    s.runSteps before = some s₁ ∧ TakesOut i a s₁ s₂ r ∧ s₂.runSteps after = some s' ∧
    s.reaped <:+ s₁.reaped ∧ s₂.reaped <:+ s'.reaped

theorem TakenOut.cons {op : CollectorOp} {s₁ : CollectorState} (hstep : s.step op = some s₁)
    (hreaped : s.reaped <:+ s₁.reaped) (h : TakenOut i a s₁ ops s') :
    TakenOut i a s (op :: ops) s' := by
  obtain ⟨before, after, s₂, s₃, r, rfl, hbefore, htakes, hafter, hold, hnew⟩ := h
  refine ⟨op :: before, after, s₂, s₃, r, rfl, ?_, htakes, hafter, hreaped.trans hold, hnew⟩
  simp only [runSteps, hstep, Option.bind_some]
  exact hbefore

/-- What becomes of an entry that its own ping decides on: it is taken out in the
pass, or it is in its slot at the end. -/
def Decided (i a : Nat) (s : CollectorState) (ops : List CollectorOp) (s' : CollectorState)
    (expired : Bool) : Prop :=
  if expired then TakenOut i a s ops s' else s'.table.slot i = some a

/-- The induction is on the steps; the cursor starts before the slot and ends
behind it, so that the turn of the slot is one of them. -/
theorem Ahead.run (h : s.Placed) (hahead : Ahead i a s) (hwake : .wake ∉ ops)
    (hkept : ∀ index, .unbind index ∈ ops → index.toNat ≠ i)
    (hrun : s.runSteps ops = some s') (hend : s'.scan = .waiting) :
    ∃ expired, s.answersAt i ops = [expired] ∧ Decided i a s ops s' expired := by
  induction ops generalizing s with
  | nil =>
      obtain rfl := Option.some.inj hrun
      have hbefore := hahead.before
      simp only [Before, hend] at hbefore
  | cons op rest ih =>
      obtain ⟨s₁, hstep, hrest⟩ := runSteps_cons hrun
      rw [List.mem_cons, not_or] at hwake
      have hkept' : ∀ index, .unbind index ∈ rest → index.toNat ≠ i :=
        fun index hindex => hkept index (List.mem_cons_of_mem _ hindex)
      rw [answersAt_cons hstep]
      rcases hahead.step h (Ne.symm hwake.1)
          (fun index hop => hkept index (hop ▸ List.mem_cons_self)) hstep with
        ⟨hanswer, hahead₁⟩ | ⟨expired, rfl, hanswer, hpast₁, htaken, hstays⟩
      · rw [hanswer]
        obtain ⟨expired, hanswers, hdecided⟩ :=
          ih (h.step hstep) hahead₁ hwake.2 hkept' hrest
        refine ⟨expired, hanswers, ?_⟩
        cases expired with
        | true => exact TakenOut.cons hstep (h.onwards hstep).reaped hdecided
        | false => exact hdecided
      · rw [hanswer, (hpast₁.run (h.step hstep) hwake.2 hrest).1]
        refine ⟨expired, rfl, ?_⟩
        cases expired with
        | true =>
            obtain ⟨r, htakes⟩ := htaken rfl
            exact ⟨[], rest, s, s₁, r, rfl, rfl, htakes, hrest, List.suffix_rfl,
              (onwards_of_run (h.step hstep) hrest).reaped⟩
        | false =>
            exact hpast₁.run_kept (h.step hstep) hwake.2 (hstays rfl) hkept' hrest

/-- A pass over the table, whatever the other threads do in between: no slot is
pinged twice, and an entry that is there at the start and that nobody unbinds
is pinged once; if that ping says so the answer takes it out, and if not it
stays. -/
theorem pass_decides (pageSize : UInt32) (s s' : CollectorState) (ops : List CollectorOp)
    (hreach : (collectorSystem pageSize).Reachable s) (hstart : s.scan = .looking 0 0)
    (hrun : s.runSteps ops = some s') (hwake : .wake ∉ ops) (hend : s'.scan = .waiting) :
    (∀ i, (s.answersAt i ops).length ≤ 1) ∧
    ∀ i a, s.table.slot i = some a → (∀ index, .unbind index ∈ ops → index.toNat ≠ i) →
      ∃ expired, s.answersAt i ops = [expired] ∧ Decided i a s ops s' expired := by
  have hplaced := placed_of_reach hreach
  have hbefore : ∀ i, Before i s := by
    intro i
    simp only [Before, hstart]
    omega
  refine ⟨fun i => (hbefore i).run hplaced hwake hrun, fun i a hslot hkept => ?_⟩
  have hahead : Ahead i a s := by
    refine ⟨hbefore i, hslot, fun ping hscan => ?_⟩
    rw [hstart] at hscan
    cases hscan
  exact hahead.run hplaced hwake hkept hrun hend

theorem reach_of_runSteps {pageSize : UInt32}
    (hreach : (collectorSystem pageSize).Reachable s) (hrun : s.runSteps ops = some s') :
    (collectorSystem pageSize).Reachable s' := by
  induction ops generalizing s with
  | nil => exact Option.some.inj hrun ▸ hreach
  | cons op rest ih =>
      obtain ⟨s₁, hstep, hrest⟩ := runSteps_cons hrun
      exact ih (hreach.next trivial hstep) hrest

/-- The first state, with pages of two slots. -/
def emptyPair : CollectorState where
  table := RMVByMapped.new 2
  values := .empty
  scan := .waiting
  issued := []
  made := []
  held := []
  clock := 0
  boundAt := fun _ => 0
  reaped := []

/-- Two entries, and the start of a pass. -/
def bindTwo : List CollectorOp :=
  [.make 0 (sampleValue "IOR:first"), .nextIndex, .bind 0 0,
    .make 1 (sampleValue "IOR:second"), .nextIndex, .bind 1 1, .wake]

/-- The first native has gone. A third entry takes its slot during the ping of
the second. -/
def passTwo : List CollectorOp :=
  [.look, .find 1, .answer true, .look, .nextIndex, .make 2 (sampleValue "IOR:third"),
    .bind 0 2, .answer false, .look, .look]

theorem pass_decides_two : ∃ s s', emptyPair.runSteps bindTwo = some s ∧
    s.runSteps passTwo = some s' ∧ s'.table.slot 0 = some 2 ∧
    (∀ i, (s.answersAt i passTwo).length ≤ 1) ∧
    TakenOut 0 0 s passTwo s' ∧ s'.table.slot 1 = some 1 := by
  obtain ⟨s, hs⟩ := Option.isSome_iff_exists.mp (show (emptyPair.runSteps bindTwo).isSome by decide)
  have hread : ((emptyPair.runSteps bindTwo).map fun s =>
      (s.scan, s.table.slot 0, s.table.slot 1, ((s.runSteps passTwo).map fun s' =>
        (s'.scan, s'.table.slot 0)))) =
      some (.looking 0 0, some 0, some 1, some (.waiting, some 2)) := by decide
  have hanswers : ((emptyPair.runSteps bindTwo).map fun s =>
      (s.answersAt 0 passTwo, s.answersAt 1 passTwo)) = some ([true], [false]) := by decide
  rw [hs] at hread hanswers
  obtain ⟨hgone, hthere⟩ := Prod.mk.inj (Option.some.inj hanswers)
  obtain ⟨hstart, hread⟩ := Prod.mk.inj (Option.some.inj hread)
  obtain ⟨hfirst, hread⟩ := Prod.mk.inj hread
  obtain ⟨hsecond, hread⟩ := Prod.mk.inj hread
  obtain ⟨s', hs', hread⟩ := Option.map_eq_some_iff.mp hread
  obtain ⟨hend, hthird⟩ := Prod.mk.inj hread
  have hreach : (collectorSystem 2).Reachable s := reach_of_runSteps (.start rfl) hs
  have hkept : ∀ i index, .unbind index ∈ passTwo → index.toNat ≠ i :=
    fun i index hindex => absurd hindex (by simp [passTwo])
  obtain ⟨honce, hdecided⟩ := pass_decides 2 s s' passTwo hreach hstart hs'
    (by simp [passTwo]) hend
  obtain ⟨_, hanswer, htaken⟩ := hdecided 0 0 hfirst (hkept 0)
  obtain rfl := List.singleton_inj.mp (hgone.symm.trans hanswer)
  obtain ⟨_, hanswer, hstays⟩ := hdecided 1 1 hsecond (hkept 1)
  obtain rfl := List.singleton_inj.mp (hthere.symm.trans hanswer)
  exact ⟨s, s', hs, hs', hthird, honce, htaken, hstays⟩

end Pass

/-! ## The end of the pass -/

/-- The state as it would be between two passes. -/
def idle (s : CollectorState) : CollectorState := { s with scan := .waiting, reaped := [] }

section Progress

variable {s s' : CollectorState} {op : CollectorOp} {ops : List CollectorOp}

theorem Tracked.idle (h : s.Tracked) : s.idle.Tracked :=
  ⟨h.cover, h.balanced, h.made, h.clock, nofun, nofun⟩

/-- The other threads do what they would do between two passes. -/
theorem idle_step (hop : op.own = false) (hstep : s.step op = some s') :
    s.idle.step op = some s'.idle := by
  cases op with
  | nextIndex =>
      obtain rfl := Option.some.inj hstep
      rfl
  | make a v =>
      obtain ⟨hfree, hstep⟩ := Option.ite_none_right_eq_some.mp hstep
      obtain rfl := Option.some.inj hstep
      exact if_pos hfree
  | bind index a =>
      obtain ⟨⟨-, hissued, hmade⟩, hstep⟩ := Option.ite_none_right_eq_some.mp hstep
      have hguard : s.idle.lockFree ∧ index ∈ s.idle.issued ∧ a ∈ s.idle.made :=
        ⟨rfl, hissued, hmade⟩
      simp only [CollectorState.step, if_pos hguard]
      split at hstep
      · next hbind hincr =>
          obtain rfl := Option.some.inj hstep
          simp only [CollectorState.idle, hbind, hincr]
      · next hbind =>
          obtain rfl := Option.some.inj hstep
          simp only [CollectorState.idle, hbind]
      · cases hstep
  | find index =>
      obtain ⟨-, hstep⟩ := Option.ite_none_right_eq_some.mp hstep
      have hguard : s.idle.lockFree = true := rfl
      simp only [CollectorState.step, if_pos hguard]
      split at hstep
      · next hfind =>
          obtain rfl := Option.some.inj hstep
          simp only [CollectorState.idle, hfind]
      · next a hfind =>
          split at hstep
          · next hincr =>
              obtain rfl := Option.some.inj hstep
              simp only [CollectorState.idle, hfind, hincr]
          · cases hstep
      · cases hstep
  | unbind index =>
      obtain ⟨-, hstep⟩ := Option.ite_none_right_eq_some.mp hstep
      have hguard : s.idle.lockFree = true := rfl
      simp only [CollectorState.step, if_pos hguard]
      split at hstep
      · next hunbind =>
          obtain rfl := Option.some.inj hstep
          simp only [CollectorState.idle, hunbind]
      · next hunbind =>
          obtain rfl := Option.some.inj hstep
          simp only [CollectorState.idle, hunbind]
      · cases hstep
  | drop a =>
      obtain ⟨ha, hstep⟩ := Option.ite_none_right_eq_some.mp hstep
      have hheld : a ∈ s.idle.held := ha
      simp only [CollectorState.step, if_pos hheld]
      split at hstep
      · next hdecr =>
          obtain rfl := Option.some.inj hstep
          simp only [CollectorState.idle, hdecr]
      · cases hstep
  | wake => cases hop
  | look => cases hop
  | answer expired => cases hop

/-- A value in a slot has a count to give back. -/
theorem Tracked.give (h : s.Tracked) {i a : Nat} (hslot : s.table.slot i = some a) :
    ∃ v values, s.values.cells a = some v ∧ s.values.decrRefcount a = .ok values := by
  obtain ⟨v, hv⟩ := h.bound_cell hslot
  obtain ⟨-, hpos⟩ := h.balanced.counted a v.refCount (Heap.counts_eq hv)
  by_cases hmany : 1 < v.refCount
  · exact ⟨v, _, hv, Heap.decrRefcount_eq_of_lt hv hmany⟩
  · exact ⟨v, _, hv, Heap.decrRefcount_eq_of_one hv (by omega)⟩

/-- The removal at the cursor keeps the counts right, whatever was pinged. -/
theorem idle_answer (h : s.idle.Tracked) (hplaced : s.Placed) {ping : Ping} {expired : Bool}
    (hscan : s.scan = .pinging ping) (hanswer : s.answer ping expired = some s') :
    s'.idle.Tracked := by
  obtain ⟨hoffset, hpage⟩ := hplaced.pinging ping hscan
  unfold CollectorState.answer at hanswer
  dsimp only at hanswer
  split at hanswer
  · next hcheck =>
      obtain ⟨v, values, hv, hdecr⟩ := h.give (show s.idle.table.slot _ = _ from hcheck.2)
      have hread : s.values.read ping.value = .ok v := Heap.read_eq hv
      have hdecr' : s.values.decrRefcount ping.value = .ok values := hdecr
      rw [hread, hdecr'] at hanswer
      obtain rfl := Option.some.inj hanswer
      -- the same removal after a ping of the native that is in the slot now
      let again : Ping := ⟨ping.page, ping.offset, ping.value, v.origRef, s.clock⟩
      have hagain : Tracked { s.idle with scan := .pinging again } := by
        apply h.rescan
        rintro _ ⟨⟩
        refine ⟨hpage, hoffset, fun _ w hw => ?_⟩
        obtain rfl := Option.some.inj (hv.symm.trans hw)
        exact ⟨rfl, h.clock ping.value⟩
      have hremoved : CollectorState.answer { s.idle with scan := .pinging again } again true =
          some { s.idle with
            table := s.table.reap ping.page ping.offset
            values := values
            scan := .looking ping.page (ping.offset + 1)
            reaped := [⟨again, v.origRef, s.boundAt ping.value⟩] } := by
        have hslot : s.table.slot (s.pingedSlot again) = some again.value := hcheck.2
        simp only [CollectorState.answer, CollectorState.idle, pingedSlot] at hslot ⊢
        rw [if_pos ⟨trivial, hslot⟩, hread, hdecr']
      exact (hagain.answer rfl hremoved).idle
  · obtain rfl := Option.some.inj hanswer
    exact h

theorem idle_tracked_step (h : s.idle.Tracked) (hplaced : s.Placed)
    (hstep : s.step op = some s') : s'.idle.Tracked := by
  cases hop : op.own with
  | false =>
      have hcalm : s.idle.undisturbed op = true := by
        cases op <;> rfl
      exact (h.step hcalm (idle_step hop hstep)).idle
  | true =>
      cases op with
      | wake =>
          obtain ⟨-, rfl⟩ := step_wake hstep
          exact h
      | look =>
          obtain ⟨_, _, -, hlook⟩ := step_look hstep
          rcases look_cases hlook with ⟨-, rfl⟩ | ⟨-, -, rfl⟩ | ⟨-, -, -, rfl⟩ |
            ⟨b, v, -, -, -, -, rfl⟩
          all_goals exact h
      | answer expired =>
          obtain ⟨ping, hscan, hanswer⟩ := step_answer hstep
          exact idle_answer h hplaced hscan hanswer
      | _ => cases hop

theorem idle_tracked_of_reach {pageSize : UInt32}
    (hreach : (collectorSystem pageSize).Reachable s) : s.idle.Tracked := by
  have hboth : s.Placed ∧ s.idle.Tracked := by
    apply hreach.invariant (I := fun s => s.Placed ∧ s.idle.Tracked)
    · intro s hinit
      have hreach : (collectorSystem pageSize).Reachable s := .start hinit
      exact ⟨placed_of_reach hreach, (tracked_initial pageSize hinit).idle⟩
    · exact fun s op s' h _ hstep => ⟨h.1.step hstep, idle_tracked_step h.2 h.1 hstep⟩
  exact hboth.2

/-- The collector can take its next turn. -/
def CanGoOn (s : CollectorState) : Prop :=
  (∃ s', s.step .look = some s') ∨ ∀ expired, ∃ s', s.step (.answer expired) = some s'

theorem canGoOn_of_tracked (h : s.idle.Tracked) (hscan : s.scan ≠ .waiting) : s.CanGoOn := by
  cases hs : s.scan with
  | waiting => exact absurd hs hscan
  | looking page offset =>
      refine .inl ?_
      simp only [CollectorState.step, hs, CollectorState.look]
      split
      · exact ⟨_, rfl⟩
      · split
        · exact ⟨_, rfl⟩
        · split
          · exact ⟨_, rfl⟩
          · next a hslot =>
              obtain ⟨v, hv⟩ := h.bound_cell (show s.idle.table.slot _ = _ from hslot)
              have hread : s.values.read a = .ok v := Heap.read_eq hv
              rw [hread]
              exact ⟨_, rfl⟩
  | pinging ping =>
      refine .inr fun expired => ?_
      simp only [CollectorState.step, hs, CollectorState.answer]
      split
      · next hcheck =>
          obtain ⟨v, values, hv, hdecr⟩ := h.give (show s.idle.table.slot _ = _ from hcheck.2)
          have hread : s.values.read ping.value = .ok v := Heap.read_eq hv
          have hdecr' : s.values.decrRefcount ping.value = .ok values := hdecr
          rw [hread, hdecr']
          exact ⟨_, rfl⟩
      · exact ⟨_, rfl⟩

/-- How far the cursor has come, in turns; a slot takes two, the end of a page
one. -/
def covered (pages : Nat) (s : CollectorState) : Nat :=
  match s.scan with
  | .waiting => pages * (2 * s.table.pageSize.toNat + 1) + 1
  | .looking page offset => page * (2 * s.table.pageSize.toNat + 1) + 2 * offset
  | .pinging ping => ping.page * (2 * s.table.pageSize.toNat + 1) + 2 * ping.offset + 1

theorem Aside.covered_eq (haside : Aside s op s') (pages : Nat) :
    s'.covered pages = s.covered pages := by
  unfold covered
  rw [haside.scan, haside.pageSize]

/-- A turn of the collector takes the cursor on. -/
theorem Placed.covered_lt (h : s.Placed) (hop : op.own = true) (hwake : op ≠ .wake)
    (hstep : s.step op = some s') {pages : Nat} (hpages : s.table.pages.length ≤ pages) :
    s.covered pages < s'.covered pages := by
  cases op with
  | wake => exact absurd rfl hwake
  | look =>
      obtain ⟨page, offset, hscan, hlook⟩ := step_look hstep
      obtain ⟨hoffset, hrange⟩ := h.looking page offset hscan
      rcases look_cases hlook with ⟨hend, rfl⟩ | ⟨-, hend, rfl⟩ | ⟨-, -, -, rfl⟩ |
        ⟨b, v, -, -, -, -, rfl⟩
      · have hzero : page = s.table.pages.length ∧ offset = 0 := by omega
        have hle := Nat.mul_le_mul_right (2 * s.table.pageSize.toNat + 1) hpages
        simp only [covered, hscan, hzero.1, hzero.2]
        omega
      · have hnext : (page + 1) * (2 * s.table.pageSize.toNat + 1) =
            page * (2 * s.table.pageSize.toNat + 1) + (2 * s.table.pageSize.toNat + 1) :=
          Nat.succ_mul _ _
        simp only [covered, hscan]
        omega
      · simp only [covered, hscan]
        omega
      · simp only [covered, hscan]
        omega
  | answer expired =>
      obtain ⟨ping, hscan, hanswer⟩ := step_answer hstep
      rcases answer_cases hanswer with ⟨-, -, v, values, -, -, rfl⟩ | ⟨-, rfl⟩
      · simp only [covered, hscan, RMVByMapped.reap, RMVByMapped.store]
        omega
      · simp only [covered, hscan]
        omega
  | _ => cases hop

theorem turns_le_covered (h : s.Placed) (hwake : .wake ∉ ops)
    (hrun : s.runSteps ops = some s') {pages : Nat} (hpages : s'.table.pages.length ≤ pages) :
    s.covered pages + turns ops ≤ s'.covered pages := by
  induction ops generalizing s with
  | nil =>
      obtain rfl := Option.some.inj hrun
      exact le_refl _
  | cons op rest ih =>
      obtain ⟨s₁, hstep, hrest⟩ := runSteps_cons hrun
      rw [List.mem_cons, not_or] at hwake
      have hplaced₁ := h.step hstep
      have hgrown := (h.onwards hstep).pages.trans (onwards_of_run hplaced₁ hrest).pages
      have htail := ih hplaced₁ hwake.2 hrest
      unfold turns at htail ⊢
      rw [List.countP_cons]
      cases hop : op.own with
      | false =>
          rw [(step_aside h.cover hop hstep).covered_eq pages] at htail
          simpa using htail
      | true =>
          have hlt := h.covered_lt hop (Ne.symm hwake.1) hstep (hgrown.trans hpages)
          simp only [if_true]
          omega

/-- A pass never stands still for good. In every state in it the collector can
take its next turn, whatever the ping says, and however the other threads go
on, the pass is over after two turns for each slot and one for each page of
the table it ends with. -/
theorem pass_ends (pageSize : UInt32) (s : CollectorState)
    (hreach : (collectorSystem pageSize).Reachable s) (hstart : s.scan = .looking 0 0) :
    ∀ ops s', .wake ∉ ops → s.runSteps ops = some s' →
      (s'.scan ≠ .waiting → s'.CanGoOn) ∧
      turns ops ≤ s'.table.pages.length * (2 * s'.table.pageSize.toNat + 1) + 1 := by
  intro ops s' hwake hrun
  have hreach' := reach_of_runSteps hreach hrun
  refine ⟨canGoOn_of_tracked (idle_tracked_of_reach hreach'), ?_⟩
  have hturns := turns_le_covered (placed_of_reach hreach) hwake hrun (le_refl _)
  have hplaced' := placed_of_reach hreach'
  have hcovered : s'.covered s'.table.pages.length ≤
      s'.table.pages.length * (2 * s'.table.pageSize.toNat + 1) + 1 := by
    unfold covered
    split
    · exact le_refl _
    · next page offset hscan =>
        obtain ⟨hoffset, hpage | ⟨hpage, hzero⟩⟩ := hplaced'.looking page offset hscan
        · have hle := Nat.mul_le_mul_right (2 * s'.table.pageSize.toNat + 1)
            (Nat.succ_le_of_lt hpage)
          rw [Nat.succ_mul] at hle
          omega
        · rw [hpage, hzero]
          omega
    · next ping hscan =>
        obtain ⟨hoffset, hpage⟩ := hplaced'.pinging ping hscan
        have hle := Nat.mul_le_mul_right (2 * s'.table.pageSize.toNat + 1)
          (Nat.succ_le_of_lt hpage)
        rw [Nat.succ_mul] at hle
        omega
  have hzero : s.covered s'.table.pages.length = 0 := by
    simp [covered, hstart]
  omega

/-- The bound is met. -/
theorem pass_ends_two : ∃ s s', emptyPair.runSteps bindTwo = some s ∧
    s.runSteps passTwo = some s' ∧ turns passTwo = 6 ∧
    s'.table.pages.length * (2 * s'.table.pageSize.toNat + 1) + 1 = 6 ∧
    turns passTwo ≤ s'.table.pages.length * (2 * s'.table.pageSize.toNat + 1) + 1 := by
  obtain ⟨s, hs⟩ := Option.isSome_iff_exists.mp (show (emptyPair.runSteps bindTwo).isSome by decide)
  have hread : ((emptyPair.runSteps bindTwo).map fun s =>
      (s.scan, ((s.runSteps passTwo).map fun s' =>
        s'.table.pages.length * (2 * s'.table.pageSize.toNat + 1) + 1))) =
      some (.looking 0 0, some 6) := by decide
  rw [hs] at hread
  obtain ⟨hstart, hread⟩ := Prod.mk.inj (Option.some.inj hread)
  obtain ⟨s', hs', hbound⟩ := Option.map_eq_some_iff.mp hread
  have hreach : (collectorSystem 2).Reachable s := reach_of_runSteps (.start rfl) hs
  exact ⟨s, s', hs, hs', rfl, hbound,
    (pass_ends 2 s hreach hstart passTwo s' (by simp [passTwo]) hs').2⟩

end Progress

end CollectorState

end Lorica
