import Mathlib.Tactic

/-!
Files with names and exclusive locks on whole files, as POSIX record locks are.
A lock belongs to a process and a file, not to a descriptor: its holder may ask
for it again, and closing any descriptor of the file gives it up. A file lives
on after its name is taken away, so two processes may each hold the lock of
what was one name to them. `Exclusive` is the invariant of a protocol that lets
one process in at a time by locking a file it finds by name.
-/

namespace Posix

structure FileSystem (Path Proc : Type*) where
  entry : Path → Option Nat
  fresh : Nat
  holder : Nat → Option Proc

namespace FileSystem

variable {Path Proc : Type*} {fs fs' : FileSystem Path Proc} {path : Path} {file : Nat}

section Names

variable [DecidableEq Path]

/-- `open` with `O_CREAT`: the file of that name, a new one if there is none. -/
def openFile (fs : FileSystem Path Proc) (path : Path) : Nat × FileSystem Path Proc :=
  match fs.entry path with
  | some file => (file, fs)
  | none =>
      (fs.fresh, { fs with
        entry := Function.update fs.entry path (some fs.fresh)
        fresh := fs.fresh + 1 })

def unlink (fs : FileSystem Path Proc) (path : Path) : FileSystem Path Proc :=
  { fs with entry := Function.update fs.entry path none }

@[simp] theorem openFile_entry :
    (fs.openFile path).2.entry path = some (fs.openFile path).1 := by
  rw [openFile]
  cases hentry : fs.entry path with
  | none => simp
  | some file => simpa using hentry

theorem openFile_named (h : fs.entry path = some file) :
    fs.openFile path = (file, fs) := by
  rw [openFile, h]

@[simp] theorem openFile_holder : (fs.openFile path).2.holder = fs.holder := by
  rw [openFile]
  cases fs.entry path <;> rfl

@[simp] theorem unlink_holder : (fs.unlink path).holder = fs.holder := rfl

end Names

section Locks

variable [DecidableEq Proc] {p q : Proc}

/-- `fcntl` with `F_SETLK` and `F_WRLCK`: refused when another process has the
lock. -/
def lock (fs : FileSystem Path Proc) (file : Nat) (p : Proc) :
    Option (FileSystem Path Proc) :=
  if fs.holder file = none ∨ fs.holder file = some p then
    some { fs with holder := Function.update fs.holder file (some p) }
  else none

/-- `fcntl` with `F_UNLCK`. -/
def unlock (fs : FileSystem Path Proc) (file : Nat) (p : Proc) : FileSystem Path Proc :=
  if fs.holder file = some p then
    { fs with holder := Function.update fs.holder file none }
  else fs

/-- `close` of a descriptor of the file. -/
def close (fs : FileSystem Path Proc) (file : Nat) (p : Proc) : FileSystem Path Proc :=
  fs.unlock file p

/-- The end of a process: all its locks go. -/
def exit (fs : FileSystem Path Proc) (p : Proc) : FileSystem Path Proc :=
  { fs with
    holder := fun file => if fs.holder file = some p then none else fs.holder file }

@[simp] theorem unlock_entry : (fs.unlock file p).entry = fs.entry := by
  rw [unlock]
  split <;> rfl

@[simp] theorem close_entry : (fs.close file p).entry = fs.entry :=
  unlock_entry

@[simp] theorem exit_entry : (fs.exit p).entry = fs.entry := rfl

theorem lock_entry (h : fs.lock file p = some fs') : fs'.entry = fs.entry := by
  obtain ⟨-, h⟩ := Option.ite_none_right_eq_some.mp h
  cases h
  rfl

/-- The lock is granted when nobody else has it. -/
theorem lock_free (h : fs.lock file p = some fs') :
    fs.holder file = none ∨ fs.holder file = some p :=
  (Option.ite_none_right_eq_some.mp h).1

theorem lock_holder (h : fs.lock file p = some fs') : fs'.holder file = some p := by
  obtain ⟨-, h⟩ := Option.ite_none_right_eq_some.mp h
  cases h
  simp

/-! No call of a process takes a lock from another. -/

theorem lock_keeps (h : fs.lock file p = some fs') (hne : q ≠ p) {f : Nat}
    (hq : fs.holder f = some q) : fs'.holder f = some q := by
  have hfree := lock_free h
  obtain ⟨-, h⟩ := Option.ite_none_right_eq_some.mp h
  cases h
  have hf : f ≠ file := by
    rintro rfl
    rw [hq] at hfree
    simp [hne] at hfree
  simpa [Function.update_of_ne hf] using hq

theorem unlock_keeps (hne : q ≠ p) {f : Nat} (hq : fs.holder f = some q) :
    (fs.unlock file p).holder f = some q := by
  rw [unlock]
  split
  next hp =>
    have hf : f ≠ file := by
      rintro rfl
      rw [hq] at hp
      exact hne (Option.some.inj hp)
    simpa [Function.update_of_ne hf] using hq
  next => exact hq

theorem exit_keeps (hne : q ≠ p) {f : Nat} (hq : fs.holder f = some q) :
    (fs.exit p).holder f = some q := by
  simp [exit, hq, hne]

end Locks

end FileSystem

/-- What a process has of the file that keeps the others out. -/
inductive Claim where
  | none
  /-- the file is open, the lock not yet granted -/
  | seeking (file : Nat)
  /-- the lock was granted and is still there -/
  | holding (file : Nat)
  /-- the lock was granted, and a close has given it up since -/
  | exposed (file : Nat)
deriving DecidableEq, Repr

namespace Claim

def file : Claim → Option Nat
  | none => .none
  | seeking file => some file
  | holding file => some file
  | exposed file => some file

def granted : Claim → Bool
  | holding _ => true
  | exposed _ => true
  | _ => false

end Claim

/-- One process at a time was granted the lock: whoever looks for it or has had
it has the file that bears the name, and no lock is lost unnoticed. -/
structure Exclusive {Path Proc : Type*} (fs : FileSystem Path Proc) (path : Path)
    (claim : Proc → Claim) : Prop where
  named : ∀ p file, (claim p).file = some file → fs.entry path = some file
  held : ∀ p file, claim p = .holding file → fs.holder file = some p
  alone : ∀ p q, (claim p).granted → (claim q).granted → p = q

namespace Exclusive

open FileSystem

variable {Path Proc : Type*} {fs fs' : FileSystem Path Proc} {path : Path}
variable {claim : Proc → Claim} {p : Proc} {c : Claim} {file : Nat}

/-- At the start nobody has anything. -/
theorem start (hclaim : ∀ p, claim p = .none) : Exclusive fs path claim where
  named p file h := by simp [hclaim, Claim.file] at h
  held p file h := by simp [hclaim] at h
  alone p q h := by simp [hclaim, Claim.granted] at h

section

variable [DecidableEq Proc]

/-- A call of one process: what the others have must stay theirs, and the claim
of the process afterwards must be right. -/
theorem update (h : Exclusive fs path claim)
    (hentry : ∀ q file, q ≠ p → (claim q).file = some file →
      fs'.entry path = fs.entry path)
    (hholder : ∀ q f, q ≠ p → fs.holder f = some q → fs'.holder f = some q)
    (hnamed : ∀ file, c.file = some file → fs'.entry path = some file)
    (hheld : ∀ file, c = .holding file → fs'.holder file = some p)
    (halone : c.granted → (claim p).granted ∨ ∀ q, q ≠ p → ¬ (claim q).granted) :
    Exclusive fs' path (Function.update claim p c) where
  named q file hq := by
    by_cases hne : q = p
    · subst hne
      exact hnamed file (by simpa using hq)
    · rw [Function.update_of_ne hne] at hq
      rw [hentry q file hne hq]
      exact h.named q file hq
  held q file hq := by
    by_cases hne : q = p
    · subst hne
      exact hheld file (by simpa using hq)
    · rw [Function.update_of_ne hne] at hq
      exact hholder q file hne (h.held q file hq)
  alone q r hq hr := by
    -- a second process with a grant is `p`'s only if `p` had one before
    have others : ∀ q, q ≠ p → c.granted → (claim q).granted → False := by
      intro q hne hc hq
      rcases halone hc with hp | hp
      · exact hne (h.alone q p hq hp)
      · exact hp q hne hq
    by_cases hqp : q = p <;> by_cases hrp : r = p
    · rw [hqp, hrp]
    · subst hqp
      rw [Function.update_of_ne hrp] at hr
      exact (others r hrp (by simpa using hq) hr).elim
    · subst hrp
      rw [Function.update_of_ne hqp] at hq
      exact (others q hqp (by simpa using hr) hq).elim
    · rw [Function.update_of_ne hqp] at hq
      rw [Function.update_of_ne hrp] at hr
      exact h.alone q r hq hr

/-- The lock is granted while nobody else has the file without a lock. -/
theorem grant (h : Exclusive fs path claim) (hp : claim p = .seeking file)
    (hexposed : ∀ q, q ≠ p → claim q ≠ .exposed file)
    (hlock : fs.lock file p = some fs') :
    Exclusive fs' path (Function.update claim p (.holding file)) := by
  have hname : fs.entry path = some file := h.named p file (by simp [hp, Claim.file])
  refine h.update ?_ ?_ ?_ ?_ ?_
  · intro q _ _ _
    rw [lock_entry hlock]
  · intro q f hne hq
    exact lock_keeps hlock hne hq
  · rintro f hf
    simp only [Claim.file, Option.some.injEq] at hf
    rw [lock_entry hlock, hname, hf]
  · rintro f hf
    cases hf
    exact lock_holder hlock
  · intro _
    right
    intro q hne hq
    cases hclaim : claim q with
    | none => simp [hclaim, Claim.granted] at hq
    | seeking f => simp [hclaim, Claim.granted] at hq
    | holding f =>
        -- then the lock was not free
        have hf : some f = some file := by
          rw [← h.named q f (by simp [hclaim, Claim.file]), hname]
        cases hf
        have hfree := lock_free hlock
        rw [h.held q file hclaim] at hfree
        simp [hne] at hfree
    | exposed f =>
        have hf : some f = some file := by
          rw [← h.named q f (by simp [hclaim, Claim.file]), hname]
        cases hf
        exact hexposed q hne hclaim

/-- Closing or unlocking a file: a claim that was granted stays one, but no
lock can be counted on. -/
theorem expose (h : Exclusive fs path claim) (hp : claim p = .holding file) (f : Nat) :
    Exclusive (fs.close f p) path (Function.update claim p (.exposed file)) := by
  refine h.update ?_ ?_ ?_ ?_ ?_
  · simp
  · intro q f' hne hq
    exact unlock_keeps hne hq
  · rintro f' hf'
    simp only [Claim.file, Option.some.injEq] at hf'
    rw [close_entry, ← hf']
    exact h.named p file (by simp [hp, Claim.file])
  · simp
  · simp [hp, Claim.granted]

/-- A process that gives its claim up may do to its own locks what it likes. -/
theorem leave (h : Exclusive fs path claim) (hentry : fs'.entry = fs.entry)
    (hholder : ∀ q f, q ≠ p → fs.holder f = some q → fs'.holder f = some q) :
    Exclusive fs' path (Function.update claim p .none) := by
  refine h.update ?_ hholder ?_ ?_ ?_
  · simp [hentry]
  · simp [Claim.file]
  · simp
  · simp [Claim.granted]

variable [DecidableEq Path]

/-- Opening the file by its name, to ask for the lock. -/
theorem seek (h : Exclusive fs path claim) :
    Exclusive (fs.openFile path).2 path
      (Function.update claim p (.seeking (fs.openFile path).1)) := by
  refine h.update ?_ ?_ ?_ ?_ ?_
  · intro q file _ hq
    rw [openFile_named (h.named q file hq)]
  · intro q f _ hq
    simpa using hq
  · rintro file hfile
    simpa [Claim.file] using hfile
  · simp
  · simp [Claim.granted]

/-- The holder opens the file once more. -/
theorem reopen (h : Exclusive fs path claim) (hp : claim p = .holding file) :
    Exclusive (fs.openFile path).2 path (Function.update claim p (.holding file)) := by
  have hname : fs.entry path = some file := h.named p file (by simp [hp, Claim.file])
  rw [openFile_named hname, ← hp, Function.update_eq_self]
  exact h

/-- Taking the name away while nobody else has the file. -/
theorem unlink (h : Exclusive fs path claim)
    (hunused : ∀ q, q ≠ p → (claim q).file = none) :
    Exclusive (fs.unlink path) path (Function.update claim p .none) := by
  refine h.update ?_ ?_ ?_ ?_ ?_
  · intro q file hne hq
    simp [hunused q hne] at hq
  · simp
  · simp [Claim.file]
  · simp
  · simp [Claim.granted]

end

end Exclusive

end Posix
