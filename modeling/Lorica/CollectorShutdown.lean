import Lorica.PassCoverage

/-!
The end of the collector's thread. `~RMVByMapped` sets a flag without a lock,
broadcasts, waits for the thread and frees the pages. `svc` tests the flag at
the head of each of its loops; the broadcast reaches it only while it waits,
and is lost when it comes between the test and the wait.
-/

namespace Lorica

open Machine

/-- Where the thread of `svc` is; in a pass the scan says more. -/
inductive SvcPc where
  /-- `while (!this->gc_terminated_)` -/
  | testing
  /-- on the way to `gc_terminate_.wait` -/
  | entering
  | waiting
  | passing
  | ended
deriving DecidableEq, Repr

/-- Where the thread of the destructor is. -/
inductive OwnerPc where
  | absent
  | flagged
  | joining
  | deleting
  | popping
  | gone
deriving DecidableEq, Repr

/-- The pages have not been deleted. -/
def OwnerPc.pagesThere : OwnerPc → Bool
  | .popping => false
  | .gone => false
  | _ => true

structure Lifetime where
  core : CollectorState
  svc : SvcPc
  /-- the broadcast has come while `svc` waited -/
  woken : Bool
  terminated : Bool
  owner : OwnerPc

inductive LifetimeOp where
  | other (op : CollectorOp)
  | test
  | enter
  /-- `wait` returns because the period is over -/
  | expire
  /-- `wait` returns because of a broadcast, of an error, or of nothing at all -/
  | leave
  | turn
  | answer (expired : Bool)
  | setFlag
  | broadcast
  | join
  | deletePages
  | pop

namespace LifetimeOp

/-- The steps of the collector's thread. -/
def ofSvc : LifetimeOp → Bool
  | .test => true
  | .enter => true
  | .expire => true
  | .leave => true
  | .turn => true
  | .answer _ => true
  | _ => false

def ofOthers : LifetimeOp → Bool
  | .other _ => true
  | _ => false

end LifetimeOp

namespace Lifetime

/-- The tests at the heads of the two inner loops, and the turn they let through. -/
def turn (s : Lifetime) (page offset : Nat) : Option Lifetime :=
  if s.terminated then
    some { s with core := { s.core with scan := .waiting }, svc := .testing }
  else
    (s.core.look page offset).map fun core =>
      { s with core := core, svc := if core.scan = .waiting then .testing else .passing }

def step (s : Lifetime) : LifetimeOp → Option Lifetime
  | .other op =>
      if op.own = false ∧ s.owner.pagesThere then
        (s.core.step op).map fun core => { s with core := core }
      else none
  | .test =>
      if s.svc = .testing then
        some { s with svc := if s.terminated then .ended else .entering }
      else none
  | .enter =>
      if s.svc = .entering then some { s with svc := .waiting, woken := false } else none
  | .expire =>
      if s.svc = .waiting ∧ s.woken = false then
        some { s with core := { s.core with scan := .looking 0 0 }, svc := .passing }
      else none
  | .leave => if s.svc = .waiting then some { s with svc := .ended } else none
  | .turn =>
      if s.svc = .passing then
        match s.core.scan with
        | .looking page offset => s.turn page offset
        | _ => none
      else none
  | .answer expired =>
      if s.svc = .passing then
        match s.core.scan with
        | .pinging ping =>
            (s.core.answer ping expired).map fun core => { s with core := core }
        | _ => none
      else none
  | .setFlag =>
      if s.owner = .absent then some { s with terminated := true, owner := .flagged } else none
  | .broadcast =>
      if s.owner = .flagged then
        some { s with woken := s.woken || s.svc = .waiting, owner := .joining }
      else none
  | .join =>
      if s.owner = .joining ∧ s.svc = .ended then some { s with owner := .deleting } else none
  | .deletePages =>
      if s.owner = .deleting then
        some { s with
          core := { s.core with table := { s.core.table with pages := [] } }
          owner := .popping }
      else none
  | .pop =>
      if s.owner = .popping then
        match s.core.table.freeStack with
        | [] => some { s with owner := .gone }
        | _ :: rest => some { s with
            core := { s.core with table := { s.core.table with freeStack := rest } } }
      else none

end Lifetime

/-- The constructor has started the thread. -/
def lifetimeSystem (pageSize : UInt32) : System Lifetime LifetimeOp where
  init s := (collectorSystem pageSize).init s.core ∧ s.svc = .testing ∧ s.woken = false ∧
    s.terminated = false ∧ s.owner = .absent
  step := Lifetime.step

namespace Lifetime

open CollectorState

/-! ## Who is where -/

/-- The two threads fit together in every state of every run. -/
structure Orderly (s : Lifetime) : Prop where
  there : s.owner.pagesThere = true → s.core.Placed ∧ s.core.idle.Tracked
  passing : s.svc = .passing ↔ s.core.scan ≠ .waiting
  alive : s.svc ≠ .ended → s.owner = .absent ∨ s.owner = .flagged ∨ s.owner = .joining
  flag : s.terminated = true ↔ s.owner ≠ .absent
  freed : s.owner.pagesThere = false → s.core.table.pages = []
  gone : s.owner = .gone → s.core.table.freeStack = []

section Steps

variable {s s' : Lifetime} {op : LifetimeOp}

theorem Orderly.pages (h : s.Orderly) (hsvc : s.svc ≠ .ended) : s.owner.pagesThere = true := by
  rcases h.alive hsvc with howner | howner | howner <;> rw [howner] <;> rfl

theorem Orderly.ended (h : s.Orderly)
    (hjoined : s.owner ≠ .absent ∧ s.owner ≠ .flagged ∧ s.owner ≠ .joining) :
    s.svc = .ended := by
  by_contra hne
  rcases h.alive hne with howner | howner | howner
  · exact hjoined.1 howner
  · exact hjoined.2.1 howner
  · exact hjoined.2.2 howner

theorem Orderly.rescan (h : s.core.Placed ∧ s.core.idle.Tracked) {scan : Scan}
    (hscan : scan = .waiting ∨ scan = .looking 0 0) :
    CollectorState.Placed { s.core with scan := scan } ∧
      (CollectorState.idle { s.core with scan := scan }).Tracked := by
  refine ⟨h.1.rescan ?_ ?_, h.2⟩
  · rintro page offset heq
    rcases hscan with hwaiting | hstart
    · rw [hwaiting] at heq
      cases heq
    · rw [hstart] at heq
      cases heq
      refine ⟨Nat.zero_le _, ?_⟩
      rcases Nat.eq_zero_or_pos s.core.table.pages.length with hzero | hpos
      · exact .inr ⟨hzero.symm, rfl⟩
      · exact .inl hpos
  · rintro ping heq
    rcases hscan with hscan | hscan <;> rw [hscan] at heq <;> cases heq

/-- What a turn of the thread in a pass can lead to. -/
theorem turn_cases {page offset : Nat} (h : s.turn page offset = some s') :
    (s.terminated = true ∧
      s' = { s with core := { s.core with scan := .waiting }, svc := .testing }) ∨
    ∃ core, s.terminated = false ∧ s.core.look page offset = some core ∧
      s' = { s with core := core, svc := if core.scan = .waiting then .testing else .passing } := by
  unfold turn at h
  split at h
  · next hflag => exact .inl ⟨hflag, (Option.some.inj h).symm⟩
  · next hflag =>
      obtain ⟨core, hlook, rfl⟩ := Option.map_eq_some_iff.mp h
      exact .inr ⟨core, by simpa using hflag, hlook, rfl⟩

theorem answer_scan {core core' : CollectorState} {ping : Ping} {expired : Bool}
    (h : core.answer ping expired = some core') :
    core'.scan = .looking ping.page (ping.offset + 1) := by
  rcases answer_cases h with ⟨-, -, v, values, -, -, rfl⟩ | ⟨-, rfl⟩ <;> rfl

theorem Orderly.of_alive (hthere : s.core.Placed ∧ s.core.idle.Tracked)
    (hpassing : s.svc = .passing ↔ s.core.scan ≠ .waiting)
    (howner : s.owner = .absent ∨ s.owner = .flagged ∨ s.owner = .joining)
    (hflag : s.terminated = true ↔ s.owner ≠ .absent) : s.Orderly := by
  refine ⟨fun _ => hthere, hpassing, fun _ => howner, hflag, fun hfreed => ?_, fun hgone => ?_⟩
  · rcases howner with howner | howner | howner <;> rw [howner] at hfreed <;> cases hfreed
  · rcases howner with howner | howner | howner <;> rw [howner] at hgone <;> cases hgone

theorem Orderly.turned (h : s.Orderly) (hnot : s.svc ≠ .ended) {page offset : Nat}
    (hscan : s.core.scan = .looking page offset) (hturn : s.turn page offset = some s') :
    s'.Orderly := by
  obtain ⟨hplaced, htracked⟩ := h.there (h.pages hnot)
  rcases turn_cases hturn with ⟨-, rfl⟩ | ⟨core, -, hlook, rfl⟩
  · exact .of_alive (Orderly.rescan ⟨hplaced, htracked⟩ (.inl rfl)) (by simp)
      (h.alive hnot) h.flag
  · have hcore : s.core.step .look = some core := by
      simp only [CollectorState.step, hscan]
      exact hlook
    refine .of_alive ⟨hplaced.step hcore, idle_tracked_step htracked hplaced hcore⟩ ?_
      (h.alive hnot) h.flag
    dsimp only
    split <;> simp [*]

theorem Orderly.answered (h : s.Orderly) (hsvc : s.svc = .passing) {ping : Ping} {expired : Bool}
    {core : CollectorState} (hscan : s.core.scan = .pinging ping)
    (hanswer : s.core.answer ping expired = some core) :
    Orderly { s with core := core } := by
  have hnot : s.svc ≠ .ended := by rw [hsvc]; decide
  obtain ⟨hplaced, htracked⟩ := h.there (h.pages hnot)
  have hcore : s.core.step (.answer expired) = some core := by
    simp only [CollectorState.step, hscan]
    exact hanswer
  refine .of_alive ⟨hplaced.step hcore, idle_tracked_step htracked hplaced hcore⟩ ?_
    (h.alive hnot) h.flag
  rw [answer_scan hanswer]
  simp [hsvc]

theorem Orderly.step (h : s.Orderly) (hstep : s.step op = some s') : s'.Orderly := by
  cases op with
  | other op =>
      obtain ⟨⟨hown, hthere⟩, hstep⟩ := Option.ite_none_right_eq_some.mp hstep
      obtain ⟨core, hcore, rfl⟩ := Option.map_eq_some_iff.mp hstep
      obtain ⟨hplaced, htracked⟩ := h.there hthere
      have hscan := (step_aside hplaced.cover hown hcore).scan
      refine ⟨fun _ => ⟨hplaced.step hcore, idle_tracked_step htracked hplaced hcore⟩, ?_,
        h.alive, h.flag, fun hfreed => absurd (hthere.symm.trans hfreed) (by decide),
        fun hgone => ?_⟩
      · rw [h.passing, hscan]
      · dsimp only at hgone
        rw [hgone] at hthere
        cases hthere
  | test =>
      obtain ⟨hsvc, hstep⟩ := Option.ite_none_right_eq_some.mp hstep
      obtain rfl := Option.some.inj hstep
      have hnot : s.svc ≠ .ended := by rw [hsvc]; decide
      have hscan : s.core.scan = .waiting := by
        by_contra hne
        rw [h.passing.mpr hne] at hsvc
        cases hsvc
      refine .of_alive (h.there (h.pages hnot)) ?_ (h.alive hnot) h.flag
      dsimp only
      rw [hscan]
      cases s.terminated <;> simp
  | enter =>
      obtain ⟨hsvc, hstep⟩ := Option.ite_none_right_eq_some.mp hstep
      obtain rfl := Option.some.inj hstep
      have hnot : s.svc ≠ .ended := by rw [hsvc]; decide
      have hscan := h.passing
      rw [hsvc] at hscan
      exact .of_alive (h.there (h.pages hnot)) (by simpa using hscan) (h.alive hnot) h.flag
  | expire =>
      obtain ⟨⟨hsvc, -⟩, hstep⟩ := Option.ite_none_right_eq_some.mp hstep
      obtain rfl := Option.some.inj hstep
      have hnot : s.svc ≠ .ended := by rw [hsvc]; decide
      exact .of_alive (Orderly.rescan (h.there (h.pages hnot)) (.inr rfl)) (by simp)
        (h.alive hnot) h.flag
  | leave =>
      obtain ⟨hsvc, hstep⟩ := Option.ite_none_right_eq_some.mp hstep
      obtain rfl := Option.some.inj hstep
      have hnot : s.svc ≠ .ended := by rw [hsvc]; decide
      have hscan := h.passing
      rw [hsvc] at hscan
      exact .of_alive (h.there (h.pages hnot)) (by simpa using hscan) (h.alive hnot) h.flag
  | turn =>
      obtain ⟨hsvc, hstep⟩ := Option.ite_none_right_eq_some.mp hstep
      split at hstep
      · next page offset hscan => exact h.turned (by rw [hsvc]; decide) hscan hstep
      · cases hstep
  | answer expired =>
      obtain ⟨hsvc, hstep⟩ := Option.ite_none_right_eq_some.mp hstep
      split at hstep
      · next ping hscan =>
          obtain ⟨core, hanswer, rfl⟩ := Option.map_eq_some_iff.mp hstep
          exact h.answered hsvc hscan hanswer
      · cases hstep
  | setFlag =>
      obtain ⟨howner, hstep⟩ := Option.ite_none_right_eq_some.mp hstep
      obtain rfl := Option.some.inj hstep
      exact .of_alive (h.there (by rw [howner]; rfl)) h.passing (.inr (.inl rfl)) (by simp)
  | broadcast =>
      obtain ⟨howner, hstep⟩ := Option.ite_none_right_eq_some.mp hstep
      obtain rfl := Option.some.inj hstep
      have hflag := h.flag.mpr (by rw [howner]; decide)
      exact .of_alive (h.there (by rw [howner]; rfl)) h.passing (.inr (.inr rfl)) (by simp [hflag])
  | join =>
      obtain ⟨⟨howner, hsvc⟩, hstep⟩ := Option.ite_none_right_eq_some.mp hstep
      obtain rfl := Option.some.inj hstep
      have hflag := h.flag.mpr (by rw [howner]; decide)
      exact ⟨fun _ => h.there (by rw [howner]; rfl), h.passing, fun hne => absurd hsvc hne,
        by simp [hflag], fun hfreed => (by cases hfreed),
        fun hgone => (by cases hgone)⟩
  | deletePages =>
      obtain ⟨howner, hstep⟩ := Option.ite_none_right_eq_some.mp hstep
      obtain rfl := Option.some.inj hstep
      have hflag := h.flag.mpr (by rw [howner]; decide)
      have hended := h.ended (by simp [howner])
      exact ⟨fun hthere => (by cases hthere), h.passing, fun hne => absurd hended hne,
        by simp [hflag], fun _ => rfl, fun hgone => (by cases hgone)⟩
  | pop =>
      obtain ⟨howner, hstep⟩ := Option.ite_none_right_eq_some.mp hstep
      have hflag := h.flag.mpr (by rw [howner]; decide)
      have hended := h.ended (by simp [howner])
      have hpages := h.freed (by rw [howner]; rfl)
      split at hstep
      · next hempty =>
          obtain rfl := Option.some.inj hstep
          exact ⟨fun hthere => (by cases hthere), h.passing, fun hne => absurd hended hne,
            by simp [hflag], fun _ => hpages, fun _ => hempty⟩
      · next i rest hrest =>
          obtain rfl := Option.some.inj hstep
          refine ⟨fun hthere => ?_, h.passing, fun hne => absurd hended hne, h.flag,
            fun _ => hpages, fun hgone => ?_⟩
          · dsimp only at hthere
            rw [howner] at hthere
            cases hthere
          · dsimp only at hgone
            rw [howner] at hgone
            cases hgone

theorem orderly_of_reach {pageSize : UInt32} (h : (lifetimeSystem pageSize).Reachable s) :
    s.Orderly := by
  refine h.invariant ?_ fun s op s' hs _ hstep => hs.step hstep
  rintro s ⟨hcore, hsvc, -, hflag, howner⟩
  have hreach : (collectorSystem pageSize).Reachable s.core := .start hcore
  refine .of_alive ⟨placed_of_reach hreach, idle_tracked_of_reach hreach⟩ ?_ (.inl howner) ?_
  · obtain hscan : s.core.scan = .waiting := congrArg CollectorState.scan hcore
    simp [hsvc, hscan]
  · simp [hflag, howner]

end Steps

/-! ## Nobody waits for nothing -/

section Progress

variable {s : Lifetime}

/-- The thread of `svc` can take its next step; in a ping that is its answer,
whatever it says. -/
structure SvcGoesOn (s : Lifetime) : Prop where
  next : ∃ op s', op.ofSvc = true ∧ s.step op = some s'
  answered : ∀ ping, s.core.scan = .pinging ping → ∀ expired, ∃ s',
    s.step (.answer expired) = some s'

theorem Orderly.svc_answered (h : s.Orderly) {ping : Ping} (hscan : s.core.scan = .pinging ping)
    (expired : Bool) : ∃ s', s.step (.answer expired) = some s' := by
  have hpassing : s.svc = .passing := by
    apply h.passing.mpr
    rw [hscan]
    exact fun heq => by cases heq
  have hended : s.svc ≠ .ended := by
    rw [hpassing]
    decide
  simp only [Lifetime.step, hpassing, hscan, if_true]
  rcases canGoOn_of_tracked (h.there (h.pages hended)).2 (h.passing.mp hpassing) with
    ⟨core, hlook⟩ | hanswer
  · simp only [CollectorState.step, hscan] at hlook
    cases hlook
  · obtain ⟨core, hanswer⟩ := hanswer expired
    simp only [CollectorState.step, hscan] at hanswer
    rw [hanswer]
    exact ⟨_, rfl⟩

theorem Orderly.svc_goes_on (h : s.Orderly) (hsvc : s.svc ≠ .ended) : s.SvcGoesOn := by
  refine ⟨?_, fun ping hscan expired => h.svc_answered hscan expired⟩
  cases hpc : s.svc with
  | testing => exact ⟨.test, _, rfl, if_pos hpc⟩
  | entering => exact ⟨.enter, _, rfl, if_pos hpc⟩
  | waiting =>
      cases hwoken : s.woken with
      | false => exact ⟨.expire, _, rfl, if_pos ⟨hpc, hwoken⟩⟩
      | true => exact ⟨.leave, _, rfl, if_pos hpc⟩
  | passing =>
      have hscan := h.passing.mp hpc
      have hcan := canGoOn_of_tracked (h.there (h.pages hsvc)).2 hscan
      cases hcursor : s.core.scan with
      | waiting => exact absurd hcursor hscan
      | looking page offset =>
          refine ⟨.turn, ?_⟩
          simp only [Lifetime.step, hpc, hcursor, if_true, turn]
          split
          · exact ⟨_, rfl, rfl⟩
          · rcases hcan with ⟨core, hlook⟩ | hanswer
            · simp only [CollectorState.step, hcursor] at hlook
              exact ⟨_, rfl, by rw [hlook]; rfl⟩
            · obtain ⟨core, hanswer⟩ := hanswer false
              simp only [CollectorState.step, hcursor] at hanswer
              cases hanswer
      | pinging ping =>
          obtain ⟨s', hstep⟩ := h.svc_answered hcursor false
          exact ⟨.answer false, s', rfl, hstep⟩
  | ended => exact absurd hpc hsvc

/-- The collector never meets a page that has been deleted, and is never stuck;
once the destructor has begun it or the collector can go on until it is through,
and then nothing is left. -/
theorem shutdown_safe (pageSize : UInt32) (s : Lifetime)
    (h : (lifetimeSystem pageSize).Reachable s) :
    (s.svc ≠ .ended → s.owner.pagesThere = true ∧ s.SvcGoesOn) ∧
    (s.owner ≠ .absent → s.owner ≠ .gone →
      ∃ op s', op.ofOthers = false ∧ s.step op = some s') ∧
    (s.owner = .gone →
      s.svc = .ended ∧ s.core.table.pages = [] ∧ s.core.table.freeStack = []) := by
  have horderly := orderly_of_reach h
  have hsvc : s.svc ≠ .ended → ∃ op s', op.ofOthers = false ∧ s.step op = some s' := by
    intro hne
    obtain ⟨op, s', hop, hstep⟩ := (horderly.svc_goes_on hne).next
    refine ⟨op, s', ?_, hstep⟩
    cases op <;> first | rfl | cases hop
  refine ⟨fun hne => ⟨horderly.pages hne, horderly.svc_goes_on hne⟩, ?_, ?_⟩
  · intro habsent hgone
    by_cases hended : s.svc = .ended
    · cases howner : s.owner with
      | absent => exact absurd howner habsent
      | flagged => exact ⟨.broadcast, _, rfl, if_pos howner⟩
      | joining => exact ⟨.join, _, rfl, if_pos ⟨howner, hended⟩⟩
      | deleting => exact ⟨.deletePages, _, rfl, if_pos howner⟩
      | popping =>
          refine ⟨.pop, ?_⟩
          simp only [Lifetime.step, howner, if_true]
          split
          · exact ⟨_, rfl, rfl⟩
          · exact ⟨_, rfl, rfl⟩
      | gone => exact absurd howner hgone
    · exact hsvc hended
  · intro hgone
    exact ⟨horderly.ended (by simp [hgone]), horderly.freed (by rw [hgone]; rfl),
      horderly.gone hgone⟩

end Progress

/-! ## The way to the end -/

/-- The turns the collector has left at most, once the flag is set. -/
def turnsLeft (s : Lifetime) : Nat :=
  match s.svc with
  | .testing => 1
  | .entering => 4
  | .waiting => 3
  | .passing =>
      match s.core.scan with
      | .pinging _ => 4
      | _ => 2
  | .ended => 0

/-- The steps the destructor has left. -/
def stepsLeft (s : Lifetime) : Nat :=
  match s.owner with
  | .absent => 0
  | .flagged => s.core.table.freeStack.length + 4
  | .joining => s.core.table.freeStack.length + 3
  | .deleting => s.core.table.freeStack.length + 2
  | .popping => s.core.table.freeStack.length + 1
  | .gone => 0

section Ending

variable {s s' : Lifetime} {op : LifetimeOp}

/-- What a step of the collector can do when the flag is set. -/
inductive LastTurn (s : Lifetime) : Lifetime → Prop where
  | test (hsvc : s.svc = .testing) : LastTurn s { s with svc := .ended }
  | enter (hsvc : s.svc = .entering) : LastTurn s { s with svc := .waiting, woken := false }
  | expire (hsvc : s.svc = .waiting) :
      LastTurn s { s with core := { s.core with scan := .looking 0 0 }, svc := .passing }
  | leave (hsvc : s.svc = .waiting) : LastTurn s { s with svc := .ended }
  | turn {page offset : Nat} (hsvc : s.svc = .passing) (hscan : s.core.scan = .looking page offset) :
      LastTurn s { s with core := { s.core with scan := .waiting }, svc := .testing }
  | answer {ping : Ping} {expired : Bool} {core : CollectorState} (hsvc : s.svc = .passing)
      (hscan : s.core.scan = .pinging ping) (hanswer : s.core.answer ping expired = some core) :
      LastTurn s { s with core := core }

theorem lastTurn_of_step (hflag : s.terminated = true) (hop : op.ofSvc = true)
    (hstep : s.step op = some s') : LastTurn s s' := by
  cases op with
  | test =>
      obtain ⟨hsvc, hstep⟩ := Option.ite_none_right_eq_some.mp hstep
      rw [if_pos hflag] at hstep
      obtain rfl := Option.some.inj hstep
      exact .test hsvc
  | enter =>
      obtain ⟨hsvc, hstep⟩ := Option.ite_none_right_eq_some.mp hstep
      obtain rfl := Option.some.inj hstep
      exact .enter hsvc
  | expire =>
      obtain ⟨hsvc, hstep⟩ := Option.ite_none_right_eq_some.mp hstep
      obtain rfl := Option.some.inj hstep
      exact .expire hsvc.1
  | leave =>
      obtain ⟨hsvc, hstep⟩ := Option.ite_none_right_eq_some.mp hstep
      obtain rfl := Option.some.inj hstep
      exact .leave hsvc
  | turn =>
      obtain ⟨hsvc, hstep⟩ := Option.ite_none_right_eq_some.mp hstep
      split at hstep
      · next page offset hscan =>
          rcases turn_cases hstep with ⟨-, rfl⟩ | ⟨core, hnot, -, -⟩
          · exact .turn hsvc hscan
          · rw [hflag] at hnot
            cases hnot
      · cases hstep
  | answer expired =>
      obtain ⟨hsvc, hstep⟩ := Option.ite_none_right_eq_some.mp hstep
      split at hstep
      · next ping hscan =>
          obtain ⟨core, hanswer, rfl⟩ := Option.map_eq_some_iff.mp hstep
          exact .answer hsvc hscan hanswer
      · cases hstep
  | other op => cases hop
  | setFlag => cases hop
  | broadcast => cases hop
  | join => cases hop
  | deletePages => cases hop
  | pop => cases hop

/-- The flag is never taken back. -/
theorem flag_stays (hflag : s.terminated = true) (hstep : s.step op = some s') :
    s'.terminated = true := by
  cases hop : op.ofSvc with
  | true => cases lastTurn_of_step hflag hop hstep <;> exact hflag
  | false =>
      cases op with
      | other op =>
          obtain ⟨-, hstep⟩ := Option.ite_none_right_eq_some.mp hstep
          obtain ⟨core, -, rfl⟩ := Option.map_eq_some_iff.mp hstep
          exact hflag
      | setFlag =>
          obtain ⟨-, hstep⟩ := Option.ite_none_right_eq_some.mp hstep
          obtain rfl := Option.some.inj hstep
          rfl
      | broadcast =>
          obtain ⟨-, hstep⟩ := Option.ite_none_right_eq_some.mp hstep
          obtain rfl := Option.some.inj hstep
          exact hflag
      | join =>
          obtain ⟨-, hstep⟩ := Option.ite_none_right_eq_some.mp hstep
          obtain rfl := Option.some.inj hstep
          exact hflag
      | deletePages =>
          obtain ⟨-, hstep⟩ := Option.ite_none_right_eq_some.mp hstep
          obtain rfl := Option.some.inj hstep
          exact hflag
      | pop =>
          obtain ⟨-, hstep⟩ := Option.ite_none_right_eq_some.mp hstep
          split at hstep <;>
            · obtain rfl := Option.some.inj hstep
              exact hflag
      | _ => cases hop

/-- Neither the other threads nor the destructor move the collector. -/
theorem beside_svc (h : s.Orderly) (hop : op.ofSvc = false) (hstep : s.step op = some s') :
    s'.svc = s.svc ∧ s'.core.scan = s.core.scan ∧ s'.core.reaped = s.core.reaped := by
  cases op with
  | other op =>
      obtain ⟨⟨hown, hthere⟩, hstep⟩ := Option.ite_none_right_eq_some.mp hstep
      obtain ⟨core, hcore, rfl⟩ := Option.map_eq_some_iff.mp hstep
      have haside := step_aside (h.there hthere).1.cover hown hcore
      exact ⟨rfl, haside.scan, haside.reaped⟩
  | setFlag | broadcast | join | deletePages =>
      obtain ⟨-, hstep⟩ := Option.ite_none_right_eq_some.mp hstep
      obtain rfl := Option.some.inj hstep
      exact ⟨rfl, rfl, rfl⟩
  | pop =>
      obtain ⟨-, hstep⟩ := Option.ite_none_right_eq_some.mp hstep
      split at hstep <;>
        · obtain rfl := Option.some.inj hstep
          exact ⟨rfl, rfl, rfl⟩
  | _ => cases hop

theorem turnsLeft_le (s : Lifetime) : s.turnsLeft ≤ 4 := by
  unfold turnsLeft
  split
  · omega
  · omega
  · omega
  · split <;> omega
  · omega

theorem turnsLeft_congr (hsvc : s'.svc = s.svc) (hscan : s'.core.scan = s.core.scan) :
    s'.turnsLeft = s.turnsLeft := by
  unfold turnsLeft
  rw [hsvc, hscan]

theorem LastTurn.lowers (h : LastTurn s s') : s'.turnsLeft < s.turnsLeft := by
  cases h with
  | test hsvc => simp [turnsLeft, hsvc]
  | enter hsvc => simp [turnsLeft, hsvc]
  | expire hsvc => simp [turnsLeft, hsvc]
  | leave hsvc => simp [turnsLeft, hsvc]
  | turn hsvc hscan => simp [turnsLeft, hsvc, hscan]
  | answer hsvc hscan hanswer => simp [turnsLeft, hsvc, hscan, answer_scan hanswer]

/-- A ping that is under way. -/
def underWay (s : Lifetime) : Nat :=
  match s.core.scan with
  | .pinging _ => 1
  | _ => 0

/-- No ping is begun, and only the one under way can lead to a removal. -/
structure Subsides (s s' : Lifetime) : Prop where
  pinging : ∀ ping, s'.core.scan = .pinging ping → s.core.scan = .pinging ping
  reaped : ∃ new, s'.core.reaped = new ++ s.core.reaped ∧
    new.length + s'.underWay ≤ s.underWay ∧ ∀ r ∈ new, s.core.scan = .pinging r.ping

theorem Subsides.of_same (hscan : s'.core.scan = s.core.scan)
    (hreaped : s'.core.reaped = s.core.reaped) : Subsides s s' := by
  refine ⟨fun ping hping => hscan ▸ hping, [], hreaped, ?_, nofun⟩
  unfold underWay
  rw [hscan, List.length_nil, Nat.zero_add]

theorem Subsides.of_quiet (hscan : ∀ ping, s'.core.scan ≠ .pinging ping)
    (hreaped : s'.core.reaped = s.core.reaped) : Subsides s s' := by
  refine ⟨fun ping hping => absurd hping (hscan ping), [], hreaped, ?_, nofun⟩
  have hnone : s'.underWay = 0 := by
    unfold underWay
    split
    · next ping hping => exact absurd hping (hscan ping)
    · rfl
  rw [hnone]
  exact Nat.zero_le _

instance : Std.Refl Subsides := ⟨fun _ => .of_same rfl rfl⟩

instance : IsTrans Lifetime Subsides where
  trans s s₁ s' h h' := by
    obtain ⟨new, hnew, hfew, hrecords⟩ := h.reaped
    obtain ⟨new', hnew', hfew', hrecords'⟩ := h'.reaped
    refine ⟨fun ping hping => h.pinging ping (h'.pinging ping hping), new' ++ new, ?_, ?_, ?_⟩
    · rw [hnew', hnew, List.append_assoc]
    · rw [List.length_append]
      omega
    · intro r hr
      rcases List.mem_append.mp hr with hr | hr
      · exact h.pinging _ (hrecords' r hr)
      · exact hrecords r hr

theorem LastTurn.subsides (h : LastTurn s s') : Subsides s s' := by
  cases h with
  | test hsvc => exact .of_same rfl rfl
  | enter hsvc => exact .of_same rfl rfl
  | expire hsvc => exact .of_quiet (fun ping => looking_ne_pinging) rfl
  | leave hsvc => exact .of_same rfl rfl
  | turn hsvc hscan =>
      refine .of_quiet (fun ping heq => ?_) rfl
      cases heq
  | @answer ping expired core hsvc hscan hanswer =>
      have hnext := answer_scan hanswer
      refine ⟨fun ping' heq => ?_, ?_⟩
      · rw [hnext] at heq
        cases heq
      · have hone : s.underWay = 1 := by simp [underWay, hscan]
        have hzero : Lifetime.underWay { s with core := core } = 0 := by simp [underWay, hnext]
        rw [hone, hzero]
        rcases answer_cases hanswer with ⟨-, -, v, values, -, -, rfl⟩ | ⟨-, rfl⟩
        · refine ⟨[⟨ping, v.origRef, s.core.boundAt ping.value⟩], rfl, le_refl _, ?_⟩
          intro r hr
          rw [List.mem_singleton.mp hr]
          exact hscan
        · exact ⟨[], rfl, Nat.zero_le _, nofun⟩

/-- Where the collector stands, the destructor has no fewer steps left than before
but for the index it finds on the stack. -/
theorem LastTurn.lowers_both (h : LastTurn s s') :
    s'.turnsLeft + s'.stepsLeft < s.turnsLeft + s.stepsLeft := by
  have hturns := h.lowers
  cases h with
  | @answer ping expired core hsvc hscan hanswer =>
      have hfour : s.turnsLeft = 4 := by simp [turnsLeft, hsvc, hscan]
      have htwo : Lifetime.turnsLeft { s with core := core } = 2 := by
        simp [turnsLeft, hsvc, answer_scan hanswer]
      have hstack : core.table.freeStack.length ≤ s.core.table.freeStack.length + 1 := by
        rcases answer_cases hanswer with ⟨-, -, v, values, -, -, rfl⟩ | ⟨-, rfl⟩
        · simp [RMVByMapped.reap, RMVByMapped.store]
        · simp
      have hsteps : Lifetime.stepsLeft { s with core := core } ≤ s.stepsLeft + 1 := by
        unfold stepsLeft
        dsimp only
        split <;> omega
      omega
  | test hsvc | enter hsvc | expire hsvc | leave hsvc | turn hsvc hscan =>
      exact Nat.add_lt_add_right hturns _

theorem owner_lowers (h : s.Orderly) (hflag : s.terminated = true) (hsvc : op.ofSvc = false)
    (hop : op.ofOthers = false) (hstep : s.step op = some s') : s'.stepsLeft < s.stepsLeft := by
  cases op with
  | setFlag =>
      obtain ⟨howner, -⟩ := Option.ite_none_right_eq_some.mp hstep
      exact absurd howner (h.flag.mp hflag)
  | broadcast =>
      obtain ⟨howner, hstep⟩ := Option.ite_none_right_eq_some.mp hstep
      obtain rfl := Option.some.inj hstep
      simp [stepsLeft, howner]
  | join =>
      obtain ⟨⟨howner, -⟩, hstep⟩ := Option.ite_none_right_eq_some.mp hstep
      obtain rfl := Option.some.inj hstep
      simp [stepsLeft, howner]
  | deletePages =>
      obtain ⟨howner, hstep⟩ := Option.ite_none_right_eq_some.mp hstep
      obtain rfl := Option.some.inj hstep
      simp [stepsLeft, howner]
  | pop =>
      obtain ⟨howner, hstep⟩ := Option.ite_none_right_eq_some.mp hstep
      split at hstep
      · next hempty =>
          obtain rfl := Option.some.inj hstep
          simp [stepsLeft, howner, hempty]
      · next i rest hrest =>
          obtain rfl := Option.some.inj hstep
          simp [stepsLeft, howner, hrest]
  | other op => cases hop
  | _ => cases hsvc

/-- Once the flag is set the collector takes at most four more turns, whatever the
other threads do; it begins no ping and removes at most the entry it was asking
for, and none when it was asking for none. When nobody else uses the table the
destructor comes to its end. -/
theorem shutdown_ends (pageSize : UInt32) (s : Lifetime)
    (h : (lifetimeSystem pageSize).Reachable s) (hflag : s.terminated = true) :
    (∀ ops s', (lifetimeSystem pageSize).replay (fun _ _ => True) s ops = some s' →
      ops.countP LifetimeOp.ofSvc ≤ 4 ∧
      (∀ ping, s'.core.scan = .pinging ping → s.core.scan = .pinging ping) ∧
      ∃ new, s'.core.reaped = new ++ s.core.reaped ∧ new.length ≤ 1 ∧
        ∀ r ∈ new, s.core.scan = .pinging r.ping) ∧
    ∀ ops s', (lifetimeSystem pageSize).replay (fun _ op => op.ofOthers = false) s ops = some s' →
      ops.length ≤ s.core.table.freeStack.length + 8 := by
  have hstart : s.Orderly ∧ s.terminated = true := ⟨orderly_of_reach h, hflag⟩
  have hkeep : ∀ s op s', (Orderly s ∧ s.terminated = true) →
      (lifetimeSystem pageSize).step s op = some s' → Orderly s' ∧ s'.terminated = true :=
    fun s op s' hs hstep => ⟨hs.1.step hstep, flag_stays hs.2 hstep⟩
  constructor
  · intro ops s' hrun
    have hturns := System.countP_le_rank LifetimeOp.ofSvc turnsLeft
      (fun s op s' hs _ hstep => hkeep s op s' hs hstep)
      (fun s op s' hs _ hop hstep => (lastTurn_of_step hs.2 hop hstep).lowers)
      (fun s op s' hs _ hop hstep =>
        (turnsLeft_congr (beside_svc hs.1 hop hstep).1 (beside_svc hs.1 hop hstep).2.1).le)
      hstart hrun
    have hsubsides : Subsides s s' := by
      refine (System.replay_relates (fun s op s' hs _ hstep => hkeep s op s' hs hstep)
        (fun s op s' hs _ hstep => ?_) hstart hrun).2
      cases hop : op.ofSvc with
      | true => exact (lastTurn_of_step hs.2 hop hstep).subsides
      | false =>
          obtain ⟨-, hscan, hreaped⟩ := beside_svc hs.1 hop hstep
          exact .of_same hscan hreaped
    have hleft := s.turnsLeft_le
    have hone : s.underWay ≤ 1 := by
      unfold underWay
      split <;> omega
    obtain ⟨new, hnew, hfew, hrecords⟩ := hsubsides.reaped
    exact ⟨by omega, hsubsides.pinging, new, hnew, by omega, hrecords⟩
  · intro ops s' hrun
    have hsteps := System.countP_le_rank (fun _ => true)
      (fun s => s.turnsLeft + s.stepsLeft)
      (fun s op s' hs _ hstep => hkeep s op s' hs hstep)
      (fun s op s' hs hguard _ hstep => ?_) (fun _ _ _ _ _ hop _ => by cases hop) hstart hrun
    · have hleft := s.turnsLeft_le
      have howner : s.stepsLeft ≤ s.core.table.freeStack.length + 4 := by
        unfold stepsLeft
        split <;> omega
      rw [List.countP_true] at hsteps
      omega
    · cases hop : op.ofSvc with
      | true => exact (lastTurn_of_step hs.2 hop hstep).lowers_both
      | false =>
          have hsame := turnsLeft_congr (beside_svc hs.1 hop hstep).1
            (beside_svc hs.1 hop hstep).2.1
          have hless := owner_lowers hs.1 hs.2 hop hguard hstep
          omega

end Ending

/-- An empty table with one slot, and nothing begun. -/
def begun : Lifetime where
  core :=
    { table := RMVByMapped.new 1
      values := .empty
      scan := .waiting
      issued := []
      made := []
      held := []
      clock := 0
      boundAt := fun _ => 0
      reaped := [] }
  svc := .testing
  woken := false
  terminated := false
  owner := .absent

theorem begun_reachable : (lifetimeSystem 1).Reachable begun :=
  .start ⟨rfl, rfl, rfl, rfl, rfl⟩

/-- An entry is being pinged when the flag is set. -/
def flaggedInPing : List LifetimeOp :=
  [.other .nextIndex, .other (.make 0 (sampleValue "IOR:first")), .other (.bind 0 0),
    .test, .enter, .expire, .turn, .setFlag]

theorem shutdown_safe_in_ping : ∃ s,
    (lifetimeSystem 1).replay (fun _ _ => True) begun flaggedInPing = some s ∧
    s.core.table.slot 0 = some 0 ∧ s.terminated = true ∧ s.owner.pagesThere = true ∧
    (∀ expired, ∃ s', s.step (.answer expired) = some s') ∧
    ∃ op s', op.ofOthers = false ∧ s.step op = some s' := by
  obtain ⟨s, hs⟩ := Option.isSome_iff_exists.mp (show
    ((lifetimeSystem 1).replay (fun _ _ => True) begun flaggedInPing).isSome by decide)
  have hscan : s.core.scan = .pinging ⟨0, 0, 0, (sampleValue "IOR:first").origRef, 1⟩ :=
    System.replay_read (fun s => s.core.scan) hs (by decide)
  obtain ⟨hslot, hflag⟩ := Prod.mk.inj
    (System.replay_read (fun s => (s.core.table.slot 0, s.terminated)) hs
      (show _ = some (some 0, true) by decide))
  obtain ⟨hsvc, howner⟩ := Prod.mk.inj
    (System.replay_read (fun s => (s.svc, s.owner)) hs
      (show _ = some (SvcPc.passing, OwnerPc.flagged) by decide))
  have hreach : (lifetimeSystem 1).Reachable s := System.Reach.of_replay begun_reachable _ hs
  obtain ⟨hsafe, hgoes, -⟩ := shutdown_safe 1 s hreach
  obtain ⟨hpages, hsvcGoes⟩ := hsafe (by rw [hsvc]; decide)
  exact ⟨s, hs, hslot, hflag, hpages, hsvcGoes.answered _ hscan,
    hgoes (by rw [howner]; decide) (by rw [howner]; decide)⟩

/-- An index is given back, and the flag is set behind the test at the head of the
loop. -/
def testedFirst : List LifetimeOp :=
  [.other .nextIndex, .other (.make 0 (sampleValue "IOR:first")), .other (.bind 0 0),
    .other (.unbind 0), .test, .setFlag]

/-- The broadcast is lost, as it comes before the wait; the wait ends with its period. -/
def broadcastLost : List LifetimeOp :=
  [.broadcast, .enter, .expire, .turn, .test, .join, .deletePages, .pop, .pop]

/-- The four turns are needed, and there is one step for each index on the stack. -/
theorem shutdown_ends_broadcast_lost : ∃ s s',
    (lifetimeSystem 1).replay (fun _ _ => True) begun testedFirst = some s ∧
    (lifetimeSystem 1).replay (fun _ op => op.ofOthers = false) s broadcastLost = some s' ∧
    s'.owner = .gone ∧ broadcastLost.countP LifetimeOp.ofSvc = 4 ∧
    s.core.table.freeStack.length = 1 ∧
    broadcastLost.length ≤ s.core.table.freeStack.length + 8 := by
  obtain ⟨s, hs⟩ := Option.isSome_iff_exists.mp (show
    ((lifetimeSystem 1).replay (fun _ _ => True) begun testedFirst).isSome by decide)
  have hread : ((lifetimeSystem 1).replay (fun _ _ => True) begun testedFirst).map (fun s =>
      (s.terminated, s.core.table.freeStack.length,
        ((lifetimeSystem 1).replay (fun _ op => op.ofOthers = false) s broadcastLost).map
          Lifetime.owner)) = some (true, 1, some .gone) := by decide
  rw [hs] at hread
  obtain ⟨hflag, hread⟩ := Prod.mk.inj (Option.some.inj hread)
  obtain ⟨hstack, hread⟩ := Prod.mk.inj hread
  obtain ⟨s', hs', hgone⟩ := Option.map_eq_some_iff.mp hread
  have hreach : (lifetimeSystem 1).Reachable s := System.Reach.of_replay begun_reachable _ hs
  exact ⟨s, s', hs, hs', hgone, rfl, hstack,
    (shutdown_ends 1 s hreach hflag).2 broadcastLost s' hs'⟩

end Lifetime

end Lorica
