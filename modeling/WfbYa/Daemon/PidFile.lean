/-
  WfbYa.Daemon.PidFile — the daemon's pid file (`daemon.c`).

  Starts (`create_pid_file`), `kill_daemon` and the unlinking at exit of any number of
  processes go in any interleaving, one call at a time. A process may die between two calls,
  which releases its lock. Files are numbered as they are created; one that is unlinked stays
  for those who have it open. Processes are numbered from 0, and a pid is the number plus one; a
  number is used again when its process is gone.

  `flock` from shared to exclusive may be one step (`convert`), or two (`release`, `acquire`).

  - `step`: one call of one process.
-/

import WfbYa.Lib.Machine

namespace WfbYa.Daemon

open WfbYa.Lib

/-- Where a process is. -/
inductive Proc where
  | absent
  /-- It has nothing to do with the file. -/
  | other
  /-- `create_pid_file` is called. -/
  | started
  | opened (f : Nat)
  | shared (f : Nat)
  /-- Behind `read_pid`. -/
  | read (f : Nat) (pid : Option Nat)
  /-- There was no such process. -/
  | checked (f : Nat)
  /-- Within `flock`: the shared lock is given back. -/
  | released (f : Nat)
  | exclusive (f : Nat)
  | truncated (f : Nat)
  | written (f : Nat)
  /-- `create_pid_file` has returned 0. -/
  | daemon (f : Nat)
  /-- Behind `cleanup_pid`. -/
  | leaving
  /-- In `read_pid_file`, for `kill_daemon`. -/
  | killOpened (f : Nat)
  | killShared (f : Nat)
  /-- With the pid it has read, and the file closed. -/
  | killing (pid : Option Nat)
  deriving DecidableEq

/-- The file it has open. -/
def Proc.file : Proc → Option Nat
  | .opened f | .shared f | .read f _ | .checked f | .released f | .exclusive f | .truncated f | .written f | .killOpened f
  | .killShared f => some f
  | _ => none

/-- It has a lock on the file. -/
def Proc.locks : Proc → Bool
  | .shared _ | .read _ _ | .checked _ | .exclusive _ | .truncated _ | .written _ | .killShared _ => true
  | _ => false

def Proc.excludes : Proc → Bool
  | .exclusive _ | .truncated _ | .written _ => true
  | _ => false

structure World where
  /-- The file at the path. -/
  path : Option Nat
  /-- The pid in each file, if there is one. -/
  files : List (Option Nat)
  procs : List Proc
  deriving DecidableEq

def World.proc (s : World) (p : Nat) : Proc := s.procs.getD p .absent

def World.pid (s : World) (f : Nat) : Option Nat := s.files.getD f none

def World.move (s : World) (p : Nat) (x : Proc) : World := { s with procs := s.procs.set p x }

/-- `ftruncate` and `write`. -/
def World.put (s : World) (f : Nat) (pid : Option Nat) : World := { s with files := s.files.set f pid }

/-- `open` with `O_CREAT`: the file. -/
def World.create (s : World) : Nat × World :=
  match s.path with
  | some f => (f, s)
  | none => (s.files.length, { s with path := some s.files.length, files := s.files ++ [none] })

/-- `kill(pid, 0) == 0`. -/
def World.alive (s : World) (p : Nat) : Bool := decide (s.proc p ≠ .absent)

/-- No other process has such a lock on the file. -/
def World.Unlocked (s : World) (p f : Nat) (lock : Proc → Bool) : Prop :=
  ∀ q < s.procs.length, q ≠ p → lock (s.proc q) = true → (s.proc q).file ≠ some f

instance (s : World) (p f : Nat) (lock : Proc → Bool) : Decidable (s.Unlocked p f lock) :=
  inferInstanceAs (Decidable (∀ q < s.procs.length, _))

inductive Act where
  | spawn (p : Nat)
  | start (p : Nat)
  | openFile (p : Nat)
  | lockShared (p : Nat)
  | readPid (p : Nat)
  | check (p : Nat)
  | convert (p : Nat)
  | release (p : Nat)
  | acquire (p : Nat)
  | truncate (p : Nat)
  | writePid (p : Nat)
  | closeFile (p : Nat)
  | cleanup (p : Nat)
  | killOpen (p : Nat)
  | killLock (p : Nat)
  | killRead (p : Nat)
  | killSignal (p : Nat)
  /-- Any other end of a process. -/
  | die (p : Nat)

inductive Ev where
  /-- `kill_daemon` sends `SIGTERM`. -/
  | signalled (pid : Nat)
  deriving DecidableEq

def blocked {α : Type} : Except Unit α := .error ()

def World.go (s : World) (p : Nat) (x : Proc) : Except Unit (World × List Ev) := .ok (s.move p x, [])

/-- `flock` with `LOCK_EX | LOCK_NB`: `create_pid_file` gives up if there is another lock. -/
def World.exclude (s : World) (p f : Nat) : Except Unit (World × List Ev) :=
  if s.Unlocked p f Proc.locks then s.go p (.exclusive f) else s.go p .absent

def step (s : World) : Act → Except Unit (World × List Ev)
  | .spawn p => if p < s.procs.length ∧ s.proc p = .absent then s.go p .other else blocked
  | .start p => if p < s.procs.length ∧ s.proc p = .absent then s.go p .started else blocked
  | .openFile p =>
    match s.proc p with
    | .started => s.create.2.go p (.opened s.create.1)
    | _ => blocked
  | .lockShared p =>
    match s.proc p with
    | .opened f => if s.Unlocked p f Proc.excludes then s.go p (.shared f) else blocked
    | _ => blocked
  | .readPid p =>
    match s.proc p with
    | .shared f => s.go p (.read f (s.pid f))
    | _ => blocked
  | .check p =>
    match s.proc p with
    | .read f pid => if pid.any s.alive then s.go p .absent else s.go p (.checked f)
    | _ => blocked
  | .convert p =>
    match s.proc p with
    | .checked f => s.exclude p f
    | _ => blocked
  | .release p =>
    match s.proc p with
    | .checked f => s.go p (.released f)
    | _ => blocked
  | .acquire p =>
    match s.proc p with
    | .released f => s.exclude p f
    | _ => blocked
  | .truncate p =>
    match s.proc p with
    | .exclusive f => (s.put f none).go p (.truncated f)
    | _ => blocked
  | .writePid p =>
    match s.proc p with
    | .truncated f => (s.put f (some p)).go p (.written f)
    | _ => blocked
  | .closeFile p =>
    match s.proc p with
    | .written f => s.go p (.daemon f)
    | _ => blocked
  | .cleanup p =>
    match s.proc p with
    | .daemon _ => ({ s with path := none } : World).go p .leaving
    | _ => blocked
  | .killOpen p =>
    match s.path with
    | some f => if p < s.procs.length ∧ s.proc p = .absent then s.go p (.killOpened f) else blocked
    | none => blocked
  | .killLock p =>
    match s.proc p with
    | .killOpened f => if s.Unlocked p f Proc.excludes then s.go p (.killShared f) else blocked
    | _ => blocked
  | .killRead p =>
    match s.proc p with
    | .killShared f => s.go p (.killing (s.pid f))
    | _ => blocked
  | .killSignal p =>
    match s.proc p with
    | .killing pid => .ok (s.move p .absent, (pid.toList.filter s.alive).map .signalled)
    | _ => blocked
  | .die p => s.go p .absent

/-- No process uses the file yet, which may be left from before. -/
def World.Fresh (s : World) : Prop := (∀ p, s.proc p = .absent ∨ s.proc p = .other) ∧ ∀ f, s.path = some f → f < s.files.length

end WfbYa.Daemon
