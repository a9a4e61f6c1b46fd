import Mathlib.Data.Fin.Basic
import Mathlib.Data.List.FinRange
import Nyan.Fs.Pipe
import Nyan.Library.Run

/-!
File descriptors (`fs/fd.cpp`, `task/tcb/file.cpp`, `task/mod.cpp`). Each task has a table
of sixteen references to `FdObj`s; an `FdObj` refers to a file object and tells it when it
is destroyed. Between two calls the only references to an `FdObj` are those in the tables.
A call has no result where it would follow a null reference or ends in `kfatal`.
-/

namespace Nyan.Fs

open Library

abbrev TaskId := Nat
abbrev FdId := Nat
abbrev PipeId := Nat

abbrev maxFd : Nat := 16

/-- The access mode `__mode & O_ACCMODE` of a file object. -/
inductive AccessMode where
  | O_RDONLY
  | O_WRONLY
  | O_RDWR
  deriving DecidableEq, Repr

/-- A file object. A pipe has one object for each of its ends, so that its state
and the mode identify it. -/
inductive FileObj where
  | pipe (state : PipeId) (mode : AccessMode)
  | other (mode : AccessMode)
  deriving DecidableEq, Repr

structure FdObj where
  refCount : Nat
  file : FileObj
  closeOnExec : Bool
  deriving DecidableEq, Repr

/-- A place in the descriptor table of a task. -/
abbrev Slot := TaskId × Fin maxFd

/-- The tables of all tasks, and the objects. Addresses are not used again;
those from `nextFd` and `nextPipe` on have not been used. -/
structure Descriptors where
  slots : Slot → Option FdId
  live : TaskId → Bool
  nextTask : TaskId
  fds : FdId → FdObj
  nextFd : FdId
  pipes : PipeId → PipeState
  nextPipe : PipeId

namespace Descriptors

/-- `FileObj::onFdClose`. -/
def onFdClose (s : Descriptors) : FileObj → Option Descriptors
  | .pipe p .O_RDONLY => some { s with pipes := Function.update s.pipes p (s.pipes p).onReadClosed }
  | .pipe p .O_WRONLY =>
      some { s with pipes := Function.update s.pipes p (s.pipes p).onWriteClosed }
  | .pipe _ .O_RDWR => none
  | .other _ => some s

/-- `Shared::unref` of an `FdObj`, whose destructor calls `onFdClose`. -/
def unref (s : Descriptors) (fd : FdId) : Option Descriptors :=
  let refCount := (s.fds fd).refCount - 1
  let s₁ := { s with fds := Function.update s.fds fd { s.fds fd with refCount } }
  if refCount = 0 then s₁.onFdClose (s.fds fd).file else some s₁

/-- `*slot = {}`. -/
def reset (s : Descriptors) (x : Slot) : Option Descriptors :=
  match s.slots x with
  | some fd => { s with slots := Function.update s.slots x none }.unref fd
  | none => some s

/-- `*slot = makeRef<FdObj>(file)`. The assignment lets go of the old reference
and takes over the new one. -/
def assignNew (s : Descriptors) (x : Slot) (file : FileObj) (closeOnExec : Bool) :
    Option Descriptors := do
  let s₁ ← s.reset x
  let fd := s₁.nextFd
  return { s₁ with
    slots := Function.update s₁.slots x (some fd)
    fds := Function.update s₁.fds fd { refCount := 1, file, closeOnExec }
    nextFd := fd + 1 }

/-- `findFileSlot`: the first empty slot from `hint` on. -/
def findFileSlot (s : Descriptors) (task : TaskId) (hint : Nat) : Except Errno (Fin maxFd) :=
  match (List.finRange maxFd).find? fun i =>
      decide (hint ≤ i.val) && (s.slots (task, i)).isNone with
  | some i => .ok i
  | none => .error .EMFILE

/-- The result of a system call: none where the kernel would stop. -/
abbrev CallResult := Option (Except Errno Int × Descriptors)

/-- `__try`: an error ends the call. -/
def attempt {α : Type} (s : Descriptors) (result : Except Errno α) (next : α → CallResult) :
    CallResult :=
  match result with
  | .ok a => next a
  | .error e => some (.error e, s)

/-- The end of `open`: `installFile` of a file that is not a pipe. -/
def «open» (s : Descriptors) (task : TaskId) (mode : AccessMode) (closeOnExec : Bool) :
    CallResult :=
  s.attempt (s.findFileSlot task 0) fun i => do
    return (.ok i.val, ← s.assignNew (task, i) (.other mode) closeOnExec)

/-- One task, no descriptors, no pipes. -/
def boot (pipes : PipeId → PipeState) : Descriptors where
  slots _ := none
  live task := task = 0
  nextTask := 1
  fds _ := { refCount := 0, file := .other .O_RDWR, closeOnExec := false }
  nextFd := 0
  pipes
  nextPipe := 0

end Descriptors

end Nyan.Fs
