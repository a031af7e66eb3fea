import Lorica.SharedTable

/-!
What holds in every run of the shared table, races or none: who has the lock, and
which pairs a call of `add_interface` has added when it returns.
-/

namespace Lorica

open Machine

/-! ## What a step does -/

namespace SharedTable

variable {ι T : Type} {cmp : Strcmp} {prims : OperationTable.Primitives T}
  {s s' : SharedTable T} {event : SharedEvent ι T} {t u : Nat}

variable (ι prims) in
/-- A call at its beginning. -/
def Begins (s : SharedTable T) : SharedCall T → Prop
  | .find opname repId due p => p = .head ∧ (due → (opname, repId) ∈ s.returned)
  | .addInterface c => c.added = [] ∧ c.pc = .between ∧
      ∃ (repo : Repository ι T) (intDef : ι),
        c.todo = OperationTable.registrations prims repo intDef

variable (cmp prims) in
inductive Does (s : SharedTable T) : SharedEvent ι T → SharedTable T → Prop where
  | calls (event : SharedEvent ι T) {call : SharedCall T} (hidle : s.threads event.thread = .idle)
      (hbegins : s.Begins ι prims call) (hcalls : event.advances event.thread = false) :
      Does s event (s.moveTo event.thread (.acquiring call))
  | acquires {t : Nat} {call : SharedCall T} {lock : RwLock}
      (hthread : s.threads t = .acquiring call)
      (hlock : s.lock.acquire call.exclusive = some lock) :
      Does s (.advance t) ({ s with lock }.moveTo t (.releasing call))
  | releases {t : Nat} {call : SharedCall T} (hthread : s.threads t = .releasing call) :
      Does s (.advance t)
        ({ s with lock := s.lock.release call.exclusive }.moveTo t (.running call))
  | finds {t : Nat} {opname repId : String} {due : Bool} {p : TablePointer}
      (hthread : s.threads t = .running (.find opname repId due p)) :
      Does s (.advance t) (s.advanceFind cmp t opname repId due p)
  | adds {t : Nat} {c : AddCall T} (hthread : s.threads t = .running (.addInterface c)) :
      Does s (.advance t) (s.advanceAdd cmp t c)
  | raises {t : Nat} {c : AddCall T} (hthread : s.threads t = .running (.addInterface c)) :
      Does s (.raise t) (s.moveTo t .idle)

theorem call_some {call : SharedCall T} (h : s.call t call = some s') :
    s.threads t = .idle ∧ s' = s.moveTo t (.acquiring call) := by
  unfold SharedTable.call at h
  split at h
  · next hidle => exact ⟨hidle, (Option.some.inj h).symm⟩
  · cases h

theorem does_of_step (hstep : s.step cmp prims event = some s') : Does cmp prims s event s' := by
  cases event with
  | find t opname repId =>
      obtain ⟨hidle, rfl⟩ := call_some hstep
      exact .calls (.find t opname repId) hidle ⟨rfl, by simp⟩ rfl
  | addInterface t repo intDef desired =>
      simp only [step] at hstep
      split at hstep
      · cases hstep
      · obtain ⟨hidle, rfl⟩ := call_some hstep
        exact .calls (.addInterface t repo intDef desired) hidle
          ⟨rfl, rfl, repo, intDef, rfl⟩ rfl
  | advance t =>
      simp only [step, advance] at hstep
      split at hstep
      · cases hstep
      · next call hthread =>
          obtain ⟨lock, hlock, rfl⟩ := Option.map_eq_some_iff.mp hstep
          exact .acquires hthread hlock
      · next call hthread =>
          obtain rfl := Option.some.inj hstep
          exact .releases hthread
      · next opname repId due p hthread =>
          obtain rfl := Option.some.inj hstep
          exact .finds hthread
      · next c hthread =>
          obtain rfl := Option.some.inj hstep
          exact .adds hthread
      · cases hstep
  | raise t =>
      simp only [step] at hstep
      split at hstep
      · next c hthread =>
          obtain ⟨-, hstep⟩ := Option.ite_none_right_eq_some.mp hstep
          obtain rfl := Option.some.inj hstep
          exact .raises hthread
      · cases hstep

theorem advanceAdd_memory (c : AddCall T) :
    (s.advanceAdd cmp t c).memory = s.memory.apply (c.step cmp s.memory).1 := by
  unfold advanceAdd
  dsimp only
  split <;> rfl

theorem advanceFind_memory (o r : String) (due : Bool) (p : TablePointer) :
    (s.advanceFind cmp t o r due p).memory = s.memory := by
  unfold advanceFind
  split <;> rfl

theorem moveTo_self (s : SharedTable T) (t : Nat) (thread : SharedThread T) :
    (s.moveTo t thread).threads t = thread := Function.update_self _ _ _

/-- A thread is left alone by the steps of the others. -/
theorem Does.frame (h : Does cmp prims s event s') (hne : u ≠ event.thread) :
    s'.threads u = s.threads u ∧ s'.answers u = s.answers u := by
  cases h with
  | calls | acquires | releases | raises => exact ⟨Function.update_of_ne hne _ _, rfl⟩
  | finds hthread =>
      unfold advanceFind
      split
      · exact ⟨Function.update_of_ne hne _ _, rfl⟩
      · exact ⟨Function.update_of_ne hne _ _, Function.update_of_ne hne _ _⟩
      · exact ⟨Function.update_of_ne hne _ _, rfl⟩
  | adds hthread =>
      unfold advanceAdd
      dsimp only
      split <;> exact ⟨Function.update_of_ne hne _ _, rfl⟩

/-- What has been answered stays answered. -/
theorem Does.answers (h : Does cmp prims s event s') (u : Nat) :
    (s.answers u).length ≤ (s'.answers u).length := by
  cases h with
  | calls | acquires | releases | raises => exact le_refl _
  | @finds t o r due p hthread =>
      unfold advanceFind
      split
      · exact le_refl _
      · by_cases hu : u = t
        · subst hu
          simp [moveTo, answer]
        · simp [moveTo, answer, hu]
      · exact le_refl _
  | adds hthread =>
      unfold advanceAdd
      dsimp only
      split <;> exact le_refl _

theorem advances_thread (h : event.advances t = true) : event.thread = t := by
  cases event with
  | advance u => exact eq_of_beq h
  | find u _ _ | addInterface u _ _ _ | raise u => cases h

/-! ## The lock -/

/-- The mode in which a thread has the lock: only between the two ends of the
guard. -/
def holds : SharedThread T → Option Bool
  | .releasing call => some call.exclusive
  | .idle | .acquiring _ | .running _ | .crashed => none

theorem holds_moveTo (s : SharedTable T) (t : Nat) (thread : SharedThread T) :
    (fun u => holds ((s.moveTo t thread).threads u)) =
      Function.update (fun u => holds (s.threads u)) t (holds thread) :=
  Function.comp_update holds s.threads t thread

/-- A step of a thread that neither has the lock nor takes it. -/
theorem heldBy_moveTo (h : s.lock.HeldBy fun u => holds (s.threads u)) {thread : SharedThread T}
    (hthread : holds thread = holds (s.threads t)) :
    s.lock.HeldBy fun u => holds ((s.moveTo t thread).threads u) := by
  rw [holds_moveTo, hthread, Function.update_eq_self (f := fun u => holds (s.threads u))]
  exact h

theorem Does.heldBy (h : Does cmp prims s event s')
    (hheld : s.lock.HeldBy fun u => holds (s.threads u)) :
    s'.lock.HeldBy fun u => holds (s'.threads u) := by
  cases h with
  | calls event hidle => exact heldBy_moveTo hheld (by rw [hidle]; rfl)
  | @acquires t call lock hthread hlock =>
      rw [holds_moveTo]
      exact hheld.acquire (by rw [hthread]; rfl) hlock
  | @releases t call hthread =>
      rw [holds_moveTo]
      exact hheld.release (by rw [hthread]; rfl)
  | finds hthread =>
      unfold advanceFind
      split <;> exact heldBy_moveTo hheld (by rw [hthread]; rfl)
  | adds hthread =>
      unfold advanceAdd
      dsimp only
      split <;> exact heldBy_moveTo hheld (by rw [hthread]; rfl)
  | raises hthread => exact heldBy_moveTo hheld (by rw [hthread]; rfl)

/-- In every run the lock is held by the threads that are at the end of their
guards: by none that reads the table or writes to it. -/
theorem heldBy_of_reachable (h : (system cmp prims ι).Reachable s) :
    s.lock.HeldBy fun u => holds (s.threads u) := by
  refine System.Reach.invariant (I := fun s => s.lock.HeldBy fun u => holds (s.threads u)) ?_ ?_ h
  · rintro s rfl
    exact RwLock.HeldBy.unheld
  · intro s event s' hheld _ hstep
    exact (does_of_step hstep).heldBy hheld

/-- Nobody waits for the lock for good: the threads that have it can go on and give
it back, and a thread that waits gets it when there are none. -/
theorem acquiring_goes_on (h : (system cmp prims ι).Reachable s) {call : SharedCall T}
    (hwaits : s.threads t = .acquiring call) :
    ∃ u, (u = t ∨ ∃ other, s.threads u = .releasing other) ∧ (s.advance cmp u).isSome := by
  by_cases hheld : ∃ u other, s.threads u = .releasing other
  · obtain ⟨u, other, hu⟩ := hheld
    refine ⟨u, .inr ⟨other, hu⟩, ?_⟩
    simp only [advance, hu, Option.isSome_some]
  · have hnone : ∀ u, holds (s.threads u) = none := by
      intro u
      cases hu : s.threads u with
      | releasing other => exact absurd ⟨u, other, hu⟩ hheld
      | _ => rfl
    obtain ⟨lock, hlock⟩ := (heldBy_of_reachable h).acquire_of_none hnone call.exclusive
    refine ⟨t, .inl rfl, ?_⟩
    simp only [advance, hwaits, hlock, Option.map_some, Option.isSome_some]

end SharedTable

/-! ## What a call adds -/

section Pairs

variable {ι T : Type} {cmp : Strcmp} {prims : OperationTable.Primitives T}

def OperationTable.Registration.pairs (r : OperationTable.Registration T) :
    List (String × String) :=
  r.ids.map (r.name, ·)

/-- The pairs of the registration at hand that are still to be added. -/
def AddPc.pending : AddPc T → List (String × String)
  | .between => []
  | .findOrAdd r _ | .returnHead r | .make r _ => r.pairs
  | .addSet r _ _ id ids _ => (id :: ids).map (r.name, ·)

/-- What a call has added and will add. -/
def AddCall.pairs (c : AddCall T) : List (String × String) :=
  c.added ++ (c.pc.pending ++ c.todo.flatMap (·.pairs))

theorem AddPc.nextSet_pending (r : OperationTable.Registration T) (op a : Nat)
    (ids : List String) : (AddPc.nextSet r op a ids).pending = ids.map (r.name, ·) := by
  cases ids <;> rfl

/-- A step leaves that as it is, and a call returns when there is nothing left to
add. -/
theorem AddCall.step_pairs (cmp : Strcmp) (m : TableMemory T) (c : AddCall T) :
    match (c.step cmp m).2 with
    | .go c' => c'.pairs = c.pairs
    | .back _ => c.added = c.pairs
    | .crash => True := by
  obtain ⟨desired, todo, result, added, pc⟩ := c
  cases pc with
  | between =>
      cases todo with
      | nil => simp [step, AddCall.pairs, AddPc.pending]
      | cons r todo => rfl
  | findOrAdd r cursor =>
      cases cursor with
      | test p => rfl
      | link p => by_cases hp : p = .head <;> simp [step, AddCall.pairs, AddPc.pending, hp]
      | follow p =>
          rcases step_followTree cmp m rfl with h | ⟨op, -, -, h⟩ | ⟨op, name, q, -, -, -, h⟩ <;>
            rw [h]
          · trivial
          · rfl
          · rfl
  | returnHead r =>
      rcases step_returnHead cmp m rfl with h | ⟨op, h⟩ <;> rw [h]
      · trivial
      · rfl
  | make r op =>
      simp only [step, AddCall.pairs, AddPc.nextSet_pending]
      rfl
  | addSet r op a id ids cursor =>
      cases cursor with
      | test p => rfl
      | link p =>
          simp only [step, AddCall.pairs, AddPc.nextSet_pending]
          simp [AddPc.pending]
      | follow p =>
          rcases step_followChain cmp m rfl with h | ⟨oa, -, h⟩ <;> rw [h]
          · trivial
          · rfl

end Pairs

namespace SharedTable

variable {ι T : Type} {cmp : Strcmp} {prims : OperationTable.Primitives T}
  {s s' : SharedTable T} {event : SharedEvent ι T} {t : Nat}

variable (ι prims) in
/-- The pairs of an interface. -/
def Interface (pairs : List (String × String)) : Prop :=
  ∃ (repo : Repository ι T) (intDef : ι),
    pairs = (OperationTable.registrations prims repo intDef).flatMap (·.pairs)

/-- The call a thread is in. -/
def inCall : SharedThread T → Option (SharedCall T)
  | .acquiring call | .releasing call | .running call => some call
  | .idle | .crashed => none

variable (ι prims) in
/-- Each call is to add the pairs of an interface, and those that have returned
have. -/
structure Whole (s : SharedTable T) : Prop where
  calls : ∀ t c, inCall (s.threads t) = some (.addInterface c) → Interface ι prims c.pairs
  returned : ∃ added : List (List (String × String)), (∀ pairs ∈ added, Interface ι prims pairs) ∧
    s.returned = added.flatten

theorem Whole.moveTo (h : s.Whole ι prims) {s₀ : SharedTable T}
    (hthreads : s₀.threads = s.threads) (hreturned : s₀.returned = s.returned)
    {thread : SharedThread T}
    (hthread : ∀ c, inCall thread = some (.addInterface c) → Interface ι prims c.pairs) :
    (s₀.moveTo t thread).Whole ι prims where
  calls := by
    refine (Function.forall_update_iff s₀.threads fun _ thread => ∀ c,
      inCall thread = some (.addInterface c) → Interface ι prims c.pairs).mpr
      ⟨hthread, fun u _ => ?_⟩
    rw [hthreads]
    exact h.calls u
  returned := by
    obtain ⟨added, hadded, heq⟩ := h.returned
    exact ⟨added, hadded, hreturned.trans heq⟩

theorem Whole.idle (h : s.Whole ι prims) {s₀ : SharedTable T} {thread : SharedThread T}
    (hthreads : s₀.threads = s.threads) (hreturned : s₀.returned = s.returned)
    (hthread : inCall thread = none) : (s₀.moveTo t thread).Whole ι prims := by
  refine h.moveTo hthreads hreturned fun c hc => ?_
  rw [hthread] at hc
  cases hc

theorem Whole.returns (h : s.Whole ι prims) {pairs : List (String × String)}
    (hpairs : Interface ι prims pairs) :
    { s with returned := s.returned ++ pairs }.Whole ι prims where
  calls := h.calls
  returned := by
    obtain ⟨added, hadded, hreturned⟩ := h.returned
    refine ⟨added ++ [pairs], fun l hl => ?_, by simp [hreturned]⟩
    rcases List.mem_append.mp hl with hold | hnew
    · exact hadded l hold
    · exact List.mem_singleton.mp hnew ▸ hpairs

theorem Whole.step (h : s.Whole ι prims) (hstep : s.step cmp prims event = some s') :
    s'.Whole ι prims := by
  cases does_of_step hstep with
  | calls event hidle hbegins =>
      refine h.moveTo (by rfl) (by rfl) fun c hc => ?_
      obtain rfl := Option.some.inj hc
      obtain ⟨hadded, hpc, repo, intDef, htodo⟩ := hbegins
      exact ⟨repo, intDef, by simp [AddCall.pairs, hadded, hpc, htodo, AddPc.pending]⟩
  | @acquires t call lock hthread hlock =>
      exact h.moveTo (by rfl) (by rfl) fun c hc => h.calls t c (by rw [hthread]; exact hc)
  | @releases t call hthread =>
      exact h.moveTo (by rfl) (by rfl) fun c hc => h.calls t c (by rw [hthread]; exact hc)
  | finds hthread =>
      unfold advanceFind
      split
      · exact h.moveTo (by rfl) (by rfl) fun c hc => by cases hc
      · exact h.idle (by rfl) (by rfl) rfl
      · exact h.idle (by rfl) (by rfl) rfl
  | @adds t c hthread =>
      have hcall := h.calls t c (by rw [hthread]; rfl)
      have hpairs := c.step_pairs cmp s.memory
      unfold advanceAdd
      dsimp only
      split
      · next c' hgo =>
          rw [hgo] at hpairs
          refine h.moveTo (by rfl) (by rfl) fun c'' hc => ?_
          cases hc
          exact hpairs.symm ▸ hcall
      · next result hback =>
          rw [hback] at hpairs
          exact (h.returns (hpairs.symm ▸ hcall)).idle (by rfl) (by rfl) rfl
      · exact h.idle (by rfl) (by rfl) rfl
  | raises hthread => exact h.idle (by rfl) (by rfl) rfl

/-- What has been added by the calls that have returned are the pairs of the
interfaces they were called for, whole interfaces each. -/
theorem whole_of_reachable (h : (system cmp prims ι).Reachable s) : s.Whole ι prims := by
  refine System.Reach.invariant (I := fun s => s.Whole ι prims) ?_ ?_ h
  · rintro s rfl
    exact ⟨fun t c hc => (by cases hc), [], by simp, rfl⟩
  · intro s event s' hwhole _ hstep
    exact hwhole.step hstep

end SharedTable

end Lorica
