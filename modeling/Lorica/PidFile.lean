import Lorica.Lib.LockFile
import Lorica.Lib.Runs

/-!
`UNIX_Service_Loader::run_i` in any number of processes that share a pid file.
Every system call on the file is one step, and between two calls of a process
any other may run. The record lock that `get_lock` takes is to keep a second
daemon out; `run_i` then opens the file again, and closing that stream gives the
lock up.
-/

namespace Lorica

open Machine Posix

/-- Where a process stands in `run_i`; `file` is what `lock_fd_` has open. -/
inductive Stage where
  /-- about to open the pid file for the lock -/
  | starting
  /-- about to call `lock_fd` -/
  | opened (file : Nat)
  /-- about to call `ftruncate` -/
  | locked (file : Nat)
  /-- about to write the pid -/
  | truncated (file : Nat)
  /-- about to call `fsync` -/
  | written (file : Nat)
  /-- `get_process_lock` has failed, `get_lock` is about to close -/
  | refused (file : Nat)
  /-- `get_lock` has returned true, `fopen` is next -/
  | entered (file : Nat)
  /-- about to print the pid to `output_file` and to close it -/
  | printing (file output : Nat)
  /-- in `activate`, `wait` or `destroy` of the proxy -/
  | serving (file : Nat)
  /-- has returned because `fopen` failed, `lock_fd_` still open -/
  | aborted (file : Nat)
  /-- has returned because the proxy failed, `lock_fd_` still open -/
  | failed (file : Nat)
  /-- about to call `unlock_fd` -/
  | served (file : Nat)
  /-- about to close `lock_fd_` -/
  | unlocked (file : Nat)
  /-- about to unlink the pid file -/
  | closed
  | returned (code : Nat)
  /-- the process is gone -/
  | gone
deriving DecidableEq, Repr

namespace Stage

/-- Between a successful `get_lock` and the process's own unlock. -/
def inside : Stage → Bool
  | entered _ => true
  | printing _ _ => true
  | serving _ => true
  | aborted _ => true
  | failed _ => true
  | served _ => true
  | _ => false

/-- What the process has of the pid file, from the `open` in
`get_process_lock` on. The stream that `fopen` made is closed from `serving`
on, and with it the lock is gone. -/
def claim : Stage → Claim
  | opened file => .seeking file
  | locked file => .holding file
  | truncated file => .holding file
  | written file => .holding file
  | entered file => .holding file
  | printing file _ => .holding file
  | aborted file => .holding file
  | serving file => .exposed file
  | failed file => .exposed file
  | served file => .exposed file
  | _ => .none

/-- Whether the next call of a process at this stage leaves another process
alone. -/
def tolerates : Stage → Claim → Bool
  | opened file, other => other ≠ .exposed file
  | closed, other => other.file.isNone
  | _, _ => true

theorem granted_of_inside {stage : Stage} (h : stage.inside) : stage.claim.granted := by
  cases stage <;> simp_all [inside, claim, Claim.granted]

end Stage

/-- What happens next to a process: its next system call, which may fail for
reasons of its own, or its end. -/
inductive StageEvent where
  | call (ok : Bool)
  | exit
deriving DecidableEq, Repr

structure Loaders (P : Type*) where
  files : FileSystem String P
  stage : P → Stage

namespace Loaders

variable {P : Type*} [DecidableEq P]

def moveTo (d : Loaders P) (p : P) (files : FileSystem String P) (stage : Stage) :
    Loaders P :=
  { files, stage := Function.update d.stage p stage }

/-- The next call of `run_i`. -/
def call (pidFile : String) (d : Loaders P) (p : P) (ok : Bool) : Option (Loaders P) :=
  match d.stage p with
  | .starting =>
      -- an empty path is refused without a call
      if ok = false ∨ pidFile = "" then some (d.moveTo p d.files (.returned 1))
      else
        let (file, files) := d.files.openFile pidFile
        some (d.moveTo p files (.opened file))
  | .opened file =>
      match if ok then d.files.lock file p else none with
      | some files => some (d.moveTo p files (.locked file))
      | none => some (d.moveTo p d.files (.refused file))
  | .locked file =>
      some (d.moveTo p d.files (if ok then .truncated file else .refused file))
  | .truncated file =>
      some (d.moveTo p d.files (if ok then .written file else .refused file))
  | .written file =>
      some (d.moveTo p d.files (if ok then .entered file else .refused file))
  | .refused file => some (d.moveTo p (d.files.close file p) (.returned 1))
  | .entered file =>
      if ok then
        let (output, files) := d.files.openFile pidFile
        some (d.moveTo p files (.printing file output))
      else some (d.moveTo p d.files (.aborted file))
  | .printing file output =>
      -- what `fprintf` and `fclose` return is not looked at
      some (d.moveTo p (d.files.close output p) (.serving file))
  | .serving file =>
      some (d.moveTo p d.files (if ok then .served file else .failed file))
  | .served file => some (d.moveTo p (d.files.unlock file p) (.unlocked file))
  | .unlocked file => some (d.moveTo p (d.files.close file p) .closed)
  | .closed =>
      some (d.moveTo p (if ok then d.files.unlink pidFile else d.files) (.returned 0))
  | .aborted _ => none
  | .failed _ => none
  | .returned _ => none
  | .gone => none

def step (pidFile : String) (d : Loaders P) : P × StageEvent → Option (Loaders P)
  | (p, .call ok) => d.call pidFile p ok
  | (p, .exit) => some (d.moveTo p (d.files.exit p) .gone)

/-- No process is inside twice: the daemon is one. -/
def SingleInstance (d : Loaders P) : Prop :=
  ∀ p q, (d.stage p).inside → (d.stage q).inside → p = q

/-- The two calls that let a second process in do not happen: the lock granted
while another process has closed its `output_file` on that file, and the name
taken away while another process has the file open for the lock. -/
def Keeps (d : Loaders P) (label : P × StageEvent) : Prop :=
  label.2 = .call true →
    ∀ q, q ≠ label.1 → (d.stage label.1).tolerates (d.stage q).claim

instance [Fintype P] (d : Loaders P) (label : P × StageEvent) : Decidable (d.Keeps label) :=
  inferInstanceAs (Decidable (_ → ∀ _, _ → _))

end Loaders

/-- Any number of loaders with one pid file, which may be there from an earlier
run. Nobody has locked anything yet. -/
def serviceLoaders (P : Type*) [DecidableEq P] (pidFile : String) :
    System (Loaders P) (P × StageEvent) where
  init d := (∀ p, d.stage p = .starting) ∧ ∀ file, d.files.holder file = none
  step d label := d.step pidFile label

namespace Loaders

variable {P : Type*} [DecidableEq P] {pidFile : String} {d d' : Loaders P} {p : P}
variable {files : FileSystem String P} {stage : Stage} {file : Nat}

/-- What the processes have of the pid file obeys the rules of a lock file. -/
def Kept (pidFile : String) (d : Loaders P) : Prop :=
  Exclusive d.files pidFile fun p => (d.stage p).claim

theorem kept_moveTo
    (h : Exclusive files pidFile
      (Function.update (fun q => (d.stage q).claim) p stage.claim)) :
    (d.moveTo p files stage).Kept pidFile := by
  have hclaim : (fun q => ((d.moveTo p files stage).stage q).claim) =
      Function.update (fun q => (d.stage q).claim) p stage.claim :=
    Function.comp_update Stage.claim d.stage p stage
  rw [Kept, hclaim]
  exact h

/-- A call that does nothing to the files, with the same claim afterwards. -/
theorem kept_stay (h : d.Kept pidFile) (hstage : stage.claim = (d.stage p).claim) :
    (d.moveTo p d.files stage).Kept pidFile := by
  apply kept_moveTo
  rw [hstage, Function.update_eq_self (f := fun q => (d.stage q).claim)]
  exact h

/-- A process gives its claim up without a call. -/
theorem kept_drop (h : d.Kept pidFile) (hstage : stage.claim = .none) :
    (d.moveTo p d.files stage).Kept pidFile := by
  apply kept_moveTo
  rw [hstage]
  exact Exclusive.leave h rfl fun _ _ _ hq => hq

/-- A process gives its claim up as it unlocks a file or closes it. -/
theorem kept_unlock (h : d.Kept pidFile) (hstage : stage.claim = .none) :
    (d.moveTo p (d.files.unlock file p) stage).Kept pidFile := by
  apply kept_moveTo
  rw [hstage]
  exact Exclusive.leave h FileSystem.unlock_entry fun _ _ hne hq =>
    FileSystem.unlock_keeps hne hq

theorem kept_exit (h : d.Kept pidFile) :
    (d.moveTo p (d.files.exit p) .gone).Kept pidFile := by
  apply kept_moveTo
  exact Exclusive.leave h FileSystem.exit_entry fun _ _ hne hq =>
    FileSystem.exit_keeps hne hq

/-- The outcome of a call that goes on with the same claim or gives up. -/
theorem kept_branch {stage' : Stage} (h : d.Kept pidFile) (ok : Bool)
    (hstage : stage.claim = (d.stage p).claim)
    (hstage' : stage'.claim = .none ∨ stage'.claim = (d.stage p).claim) :
    (d.moveTo p d.files (if ok then stage else stage')).Kept pidFile := by
  cases ok with
  | true => exact kept_stay h hstage
  | false =>
      rcases hstage' with hnone | hsame
      · exact kept_drop h hnone
      · exact kept_stay h hsame

/-- `lock_fd`, granted or not. -/
theorem kept_lock (h : d.Kept pidFile) {ok : Bool} (hkeeps : d.Keeps (p, .call ok))
    (hp : d.stage p = .opened file)
    (hcall : d.call pidFile p ok = some d') : d'.Kept pidFile := by
  have hclaim : (d.stage p).claim = .seeking file := by rw [hp, Stage.claim]
  rw [call, hp] at hcall
  cases ok with
  | false =>
      cases hcall
      exact kept_drop h (by rfl)
  | true =>
      cases hlock : d.files.lock file p with
      | none =>
          simp only [if_true, hlock, Option.some.injEq] at hcall
          subst hcall
          exact kept_drop h (by rfl)
      | some files =>
          simp only [if_true, hlock, Option.some.injEq] at hcall
          subst hcall
          apply kept_moveTo
          refine Exclusive.grant h hclaim ?_ hlock
          intro q hne
          have hspared := hkeeps rfl q hne
          simpa [hp, Stage.tolerates] using hspared

/-- Every call that keeps to the guard. -/
theorem kept_call (h : d.Kept pidFile) {ok : Bool} (hkeeps : d.Keeps (p, .call ok))
    (hcall : d.call pidFile p ok = some d') : d'.Kept pidFile := by
  cases hp : d.stage p with
  | opened file => exact kept_lock h hkeeps hp hcall
  | starting =>
      rw [call, hp] at hcall
      by_cases hfails : ok = false ∨ pidFile = ""
      · simp only [hfails, if_true, Option.some.injEq] at hcall
        subst hcall
        exact kept_drop h (by rfl)
      · simp only [hfails, if_false, Option.some.injEq] at hcall
        subst hcall
        exact kept_moveTo (Exclusive.seek h)
  | entered file =>
      have hclaim : (d.stage p).claim = .holding file := by rw [hp, Stage.claim]
      rw [call, hp] at hcall
      cases ok with
      | false =>
          cases hcall
          exact kept_stay h (by rw [hclaim, Stage.claim])
      | true =>
          simp only [if_true, Option.some.injEq] at hcall
          subst hcall
          exact kept_moveTo (Exclusive.reopen h hclaim)
  | printing file output =>
      have hclaim : (d.stage p).claim = .holding file := by rw [hp, Stage.claim]
      rw [call, hp] at hcall
      cases hcall
      exact kept_moveTo (Exclusive.expose h hclaim output)
  | closed =>
      rw [call, hp] at hcall
      cases ok with
      | false =>
          cases hcall
          exact kept_drop h (by rfl)
      | true =>
          cases hcall
          apply kept_moveTo
          refine Exclusive.unlink h ?_
          intro q hne
          have hspared := hkeeps rfl q hne
          simpa [hp, Stage.tolerates] using hspared
  | locked file | truncated file | written file =>
      rw [call, hp] at hcall
      cases hcall
      exact kept_branch h ok (by rw [hp]; rfl) (.inl (by rfl))
  | serving file =>
      rw [call, hp] at hcall
      cases hcall
      exact kept_branch h ok (by rw [hp]; rfl) (.inr (by rw [hp]; rfl))
  | refused file | served file | unlocked file =>
      rw [call, hp] at hcall
      cases hcall
      exact kept_unlock h (by rfl)
  | aborted _ | failed _ | returned _ | gone => simp [call, hp] at hcall

theorem kept_step (h : d.Kept pidFile) {label : P × StageEvent} (hkeeps : d.Keeps label)
    (hstep : d.step pidFile label = some d') : d'.Kept pidFile := by
  obtain ⟨p, event⟩ := label
  cases event with
  | call ok => exact kept_call h hkeeps hstep
  | exit =>
      cases hstep
      exact kept_exit h

theorem kept_of_reach
    (h : (serviceLoaders P pidFile).Reach (fun d label => d.Keeps label) d) :
    d.Kept pidFile := by
  refine h.invariant ?_ ?_
  · intro s hs
    exact Exclusive.start fun p => by rw [hs.1 p]; rfl
  · intro s label s' hs hkeeps hstep
    exact kept_step hs hkeeps hstep

/-- In a run that keeps to the guard at most one process is inside. -/
theorem single_of_reach
    (h : (serviceLoaders P pidFile).Reach (fun d label => d.Keeps label) d) :
    d.SingleInstance := by
  intro p q hp hq
  have hkept := kept_of_reach h
  exact hkept.alone p q (Stage.granted_of_inside hp) (Stage.granted_of_inside hq)

section Example

/-- Two loaders about to start, with no pid file. -/
def twoStarting : Loaders (Fin 2) where
  files := { entry := fun _ => none, fresh := 0, holder := fun _ => none }
  stage := fun _ => .starting

theorem twoStarting_init (pidFile : String) :
    (serviceLoaders (Fin 2) pidFile).init twoStarting :=
  ⟨fun _ => rfl, fun _ => rfl⟩

/-- A process gets the lock and writes its pid. -/
def enter (p : Fin 2) : List (Fin 2 × StageEvent) :=
  List.replicate 5 (p, .call true)

/-- It prints the pid file, serves and leaves. -/
def serve (p : Fin 2) : List (Fin 2 × StageEvent) :=
  List.replicate 6 (p, .call true)

/-- One daemon after the other. -/
theorem single_one_by_one : ∃ d : Loaders (Fin 2),
    (serviceLoaders (Fin 2) "lorica.pid").Reach (fun d label => d.Keeps label) d ∧
      (d.stage 1).inside ∧ d.SingleInstance := by
  obtain ⟨d, hrun⟩ := Option.isSome_iff_exists.mp (show
    ((serviceLoaders (Fin 2) "lorica.pid").replay (fun d label => d.Keeps label)
      twoStarting (enter 0 ++ serve 0 ++ enter 1)).isSome by decide +kernel)
  have hreach := System.Reach.of_replay (.start (twoStarting_init _)) _ hrun
  have hinside : (d.stage 1).inside = true :=
    System.replay_read (fun d => (d.stage 1).inside) hrun (by decide +kernel)
  exact ⟨d, hreach, hinside, single_of_reach hreach⟩

/-- The first process has printed the pid and waits; the second opens the file
and is granted the lock. -/
theorem not_single_after_fclose : ¬ ∀ d : Loaders (Fin 2),
    (serviceLoaders (Fin 2) "lorica.pid").Reachable d → d.SingleInstance := by
  intro h
  obtain ⟨d, hrun⟩ := Option.isSome_iff_exists.mp (show
    ((serviceLoaders (Fin 2) "lorica.pid").replay (fun _ _ => True)
      twoStarting (enter 0 ++ (serve 0).take 2 ++ enter 1)).isSome by decide +kernel)
  have hreach := System.Reach.of_replay (.start (twoStarting_init _)) _ hrun
  have hfirst : (d.stage 0).inside = true :=
    System.replay_read (fun d => (d.stage 0).inside) hrun (by decide +kernel)
  have hsecond : (d.stage 1).inside = true :=
    System.replay_read (fun d => (d.stage 1).inside) hrun (by decide +kernel)
  exact absurd (h d hreach 0 1 hfirst hsecond) (by decide)

end Example

/-- A process that is granted the lock gets in, whoever is inside already. -/
theorem second_enters {q : P} (hne : q ≠ p) (hp : (d.stage p).inside)
    (hq : d.stage q = .opened file) (hlock : d.files.lock file q = some files) :
    ∃ d', ((serviceLoaders P pidFile).restart d).Reachable d' ∧ ¬ d'.SingleInstance := by
  let at_ (stage : Stage) : Loaders P := d.moveTo q files stage
  let sys := (serviceLoaders P pidFile).restart d
  have call_at (stage next : Stage) (hreach : sys.Reachable (at_ stage))
      (hcall : (at_ stage).call pidFile q true = some ((at_ stage).moveTo q files next)) :
      sys.Reachable (at_ next) := by
    have hstep : sys.step (at_ stage) (q, .call true) = some (at_ next) := by
      change (at_ stage).call pidFile q true = some (at_ next)
      rw [hcall]
      simp [at_, moveTo]
    exact .next hreach trivial hstep
  have hlocked : sys.Reachable (at_ (.locked file)) := by
    have hstep : sys.step d (q, .call true) = some (at_ (.locked file)) := by
      change d.call pidFile q true = some (at_ (.locked file))
      simp [call, hq, hlock, at_]
    exact .next (.start rfl) trivial hstep
  have htruncated : sys.Reachable (at_ (.truncated file)) :=
    call_at _ _ hlocked (by simp [call, at_, moveTo])
  have hwritten : sys.Reachable (at_ (.written file)) :=
    call_at _ _ htruncated (by simp [call, at_, moveTo])
  have hentered : sys.Reachable (at_ (.entered file)) :=
    call_at _ _ hwritten (by simp [call, at_, moveTo])
  refine ⟨at_ (.entered file), hentered, ?_⟩
  intro h
  refine hne (h q p ?_ ?_)
  · simp [at_, moveTo, Stage.inside]
  · simpa [at_, moveTo, Function.update_of_ne hne.symm] using hp

/-- The guard on the lock cannot be done without: where a grant misses it, two
processes may end up inside. -/
theorem breaks_of_grant {q : P} (hq : d.stage q = .opened file)
    (hmisses : ¬ d.Keeps (q, .call true)) (hlock : d.files.lock file q = some files) :
    ∃ d', ((serviceLoaders P pidFile).restart d).Reachable d' ∧ ¬ d'.SingleInstance := by
  simp only [Keeps, forall_const, not_forall] at hmisses
  obtain ⟨p, hne, hmisses⟩ := hmisses
  have hexposed : (d.stage p).claim = .exposed file := by
    simpa [hq, Stage.tolerates] using hmisses
  have hinside : (d.stage p).inside := by
    cases hp : d.stage p <;> simp_all [Stage.claim, Stage.inside]
  exact second_enters (Ne.symm hne) hinside hq hlock

/-- Nor can the guard on `unlink`: with the name gone, a third process makes a
file of its own and is granted the lock of that. -/
theorem breaks_of_unlink {q r : P} (hp : d.stage p = .closed) (hq : (d.stage q).inside)
    (hr : d.stage r = .starting) (hpath : pidFile ≠ "")
    (hnew : d.files.holder d.files.fresh = none) :
    ∃ d', ((serviceLoaders P pidFile).restart d).Reachable d' ∧ ¬ d'.SingleInstance := by
  let sys := (serviceLoaders P pidFile).restart d
  let unlinked : Loaders P := d.moveTo p (d.files.unlink pidFile) (.returned 0)
  have hunlinked : sys.Reachable unlinked := by
    have hstep : sys.step d (p, .call true) = some unlinked := by
      change d.call pidFile p true = some unlinked
      simp [call, hp, unlinked]
    exact .next (.start rfl) trivial hstep
  have hqp : q ≠ p := by
    rintro rfl
    simp [hp, Stage.inside] at hq
  have hrp : r ≠ p := by
    rintro rfl
    simp [hp] at hr
  have hrq : r ≠ q := by
    rintro rfl
    simp [hr, Stage.inside] at hq
  obtain ⟨made, hmade⟩ : ∃ made, made = (d.files.unlink pidFile).openFile pidFile := ⟨_, rfl⟩
  have hfile : made.1 = d.files.fresh := by
    rw [hmade, FileSystem.openFile]
    simp [FileSystem.unlink]
  let opened : Loaders P := unlinked.moveTo r made.2 (.opened made.1)
  have hopened : sys.Reachable opened := by
    have hstep : sys.step unlinked (r, .call true) = some opened := by
      change unlinked.call pidFile r true = some opened
      have hstage : unlinked.stage r = .starting := by
        simpa [unlinked, moveTo, Function.update_of_ne hrp] using hr
      rw [call, hstage]
      simp [hpath, opened, hmade, unlinked, moveTo]
    exact .next hunlinked trivial hstep
  have hholder : opened.files.holder made.1 = none := by
    change made.2.holder made.1 = none
    rw [hfile, hmade, FileSystem.openFile_holder]
    exact hnew
  have hinside : (opened.stage q).inside := by
    simpa [opened, unlinked, moveTo, Function.update_of_ne hrq.symm,
      Function.update_of_ne hqp] using hq
  have hstage : opened.stage r = .opened made.1 := by simp [opened, moveTo]
  have hlock : opened.files.lock made.1 r = some { opened.files with
      holder := Function.update opened.files.holder made.1 (some r) } := by
    rw [FileSystem.lock, if_pos (.inl hholder)]
  obtain ⟨d', hreach, hsecond⟩ := second_enters hrq hinside hstage hlock
  exact ⟨d', hopened.trans hreach, hsecond⟩

end Loaders

end Lorica
