import Mathlib.Data.BitVec
import Nyan.Library.Intrusive
import Nyan.Result

/-!
The scheduler (`task/scheduler.*.cpp`, `task/wait.cpp`, `task/pid.cpp`, the task
creation of `task/task.cpp` and `waitpid` of `task/mod.cpp`). A task is the
address of its control block; addresses are not used again. Every operation
runs with interrupts off, so it is one step.

A context switch ends the step of the task that leaves the processor. The code
the next task runs first, `__current->state = S_Running`, belongs to the switch;
the rest of its interrupted call is a later step. A call that waits in a loop is
one step for each check of its condition.

An operation stops with `fatal` where the source calls `kfatal`, and with
`corrupt` where it would follow a null pointer, leave an array, or link a list
node that is in use or unlink one from a list it is not in.
-/

namespace Nyan.Task

open Library

abbrev TaskId := Nat

inductive State where
  | ready
  | running
  | exited
  | blocked
  deriving DecidableEq, Repr

inductive BlockReason where
  | unknown
  | sleep
  | waitInput
  | waitTask
  deriving DecidableEq, Repr

inductive WakeReason where
  | normal
  | signal
  deriving DecidableEq, Repr

def KP_Invalid : Int := -1
def KP_Init : Int := 1
def KP_Idle : Int := 2
def KP_FirstUser : Nat := 16
def maxTask : Nat := 256

def SIGCHLD : Nat := 17
def WNOHANG : BitVec 32 := 1#32
def WUNTRACED : BitVec 32 := 2#32

/-- The wait lists: `__wait_childs` of a task, and those of pipes, terminals and
other objects. -/
inductive WaitId where
  | childs (task : TaskId)
  | other (object : Nat)
  deriving DecidableEq, Repr

/-- The lists that link `TaskControlBlockTag` nodes. -/
inductive Queue where
  | pending
  | sleeping
  | wait (list : WaitId)
  deriving DecidableEq, Repr

/-- The callbacks stored in `__request_detach`. -/
inductive Detach where
  | sleeping
  | wait (list : WaitId)
  deriving DecidableEq, Repr

/-- The list a callback erases its task from. -/
def Detach.queue : Detach → Queue
  | .sleeping => .sleeping
  | .wait list => .wait list

/-- The fields of a control block that scheduling and the process tree use. The
union of `exitInfo`, `sleepInfo` and `waitTaskInfo` is one field each. -/
structure TaskControlBlock where
  state : State
  blockReason : BlockReason := .unknown
  wakeReason : WakeReason := .normal
  pid : Int
  parentPid : Int := KP_Invalid
  groupPid : Int := KP_Invalid
  pendingSignals : BitVec 64 := 0#64
  signalMask : BitVec 64 := 0#64
  exitStat : BitVec 32 := 0#32
  sleepTime : BitVec 64 := 0#64
  waitPid : Int := 0
  requestDetach : Option Detach := none

def TaskControlBlock.ended (tcb : TaskControlBlock) : Bool := tcb.state == .exited

/-- The scheduler with `__all_tasks`, the clock and the control blocks. `live`
says which blocks have not been deleted; `handed` records which tasks were
passed to `addTask` (the source has no such field). Of `allTasks` only the
entries from 0 to 255 exist. -/
structure System where
  tasks : TaskId → TaskControlBlock
  live : TaskId → Bool
  handed : TaskId → Bool
  nextTask : TaskId
  allTasks : Int → Option TaskId
  current : TaskId
  disableYieldCounter : BitVec 32
  needYield : Bool
  queues : Intrusive Queue TaskId
  children : Intrusive TaskId TaskId
  msSinceBoot : BitVec 64

inductive Stop where
  | fatal
  | corrupt
  deriving DecidableEq, Repr

namespace System

def modify (s : System) (task : TaskId) (f : TaskControlBlock → TaskControlBlock) : System :=
  { s with tasks := Function.update s.tasks task (f (s.tasks task)) }

/-- `push_back` on a list of `TaskControlBlockTag` nodes. -/
def link (s : System) (queue : Queue) (task : TaskId) : Except Stop System :=
  match s.queues.pushBack queue task with
  | some queues => .ok { s with queues }
  | none => .error .corrupt

/-- `erase` and `pop_front` on such a list. -/
def unlink (s : System) (queue : Queue) (task : TaskId) : Except Stop System :=
  match s.queues.extract queue task with
  | some queues => .ok { s with queues }
  | none => .error .corrupt

def findTask (s : System) (pid : Int) : Option TaskId :=
  if pid < 0 ∨ (maxTask : Int) ≤ pid then none else s.allTasks pid

/-- `switchToTask`, and what the task does first when it runs again. -/
def switchToTask (s : System) (task : TaskId) : System :=
  { s with current := task }.modify task fun tcb => { tcb with state := .running }

/-- `switchToTask(__all_tasks[KP_Idle])`. -/
def switchToIdle (s : System) : Except Stop System :=
  match s.allTasks KP_Idle with
  | some idle => .ok (s.switchToTask idle)
  | none => .error .corrupt

def wake (s : System) (task : TaskId) (reason : WakeReason) : Except Stop System :=
  if (s.tasks task).state ≠ .blocked then
    .ok s
  else do
    let s₁ := s.modify task fun tcb =>
      { tcb with state := .ready, blockReason := .unknown, wakeReason := reason }
    let s₂ ← match (s.tasks task).requestDetach with
      | some detach =>
          (s₁.modify task fun tcb => { tcb with requestDetach := none }).unlink detach.queue task
      | none => .ok s₁
    s₂.link .pending task

/-- The part of `yield` that sends the running task to the end of the queue. -/
def requeueCurrent (s : System) : Except Stop System :=
  if (s.tasks s.current).state = .running then
    let s₁ := s.modify s.current fun tcb => { tcb with state := .ready }
    if (s.tasks s.current).pid ≠ KP_Idle then s₁.link .pending s.current else .ok s₁
  else
    .ok s

def yield (s : System) : Except Stop System :=
  if s.disableYieldCounter ≠ 0#32 then
    .ok { s with needYield := true }
  else
    match s.queues.items .pending with
    | next :: _ => do
        let s₁ ← s.unlink .pending next
        let s₂ ← s₁.requeueCurrent
        return s₂.switchToTask next
    | [] => if (s.tasks s.current).state ≠ .running then s.switchToIdle else .ok s

def disableYield (s : System) : System :=
  { s with disableYieldCounter := s.disableYieldCounter + 1#32 }

def enableYield (s : System) : Except Stop System :=
  let s₁ := { s with disableYieldCounter := s.disableYieldCounter - 1#32 }
  if s₁.disableYieldCounter = 0#32 ∧ s.needYield = true then
    { s₁ with needYield := false }.yield
  else
    .ok s₁

/-- `block`, up to the switch to another task. -/
def block (s : System) (reason : BlockReason) : Except Stop System :=
  if s.disableYieldCounter ≠ 0#32 then
    .error .fatal
  else
    (s.modify s.current fun tcb =>
      { tcb with state := .blocked, blockReason := reason, wakeReason := .normal }).yield

/-- The position `sleep` inserts at: before the first task that wakes up no
earlier. -/
def sleepPosition (s : System) (time : BitVec 64) : Nat :=
  (s.queues.items .sleeping).findIdx fun task => time ≤ (s.tasks task).sleepTime

def sleep (s : System) (ms : BitVec 64) : Except Stop System :=
  if s.disableYieldCounter ≠ 0#32 then
    .error .fatal
  else
    let currTs := s.msSinceBoot + ms
    let s₁ := s.modify s.current fun tcb => { tcb with sleepTime := currTs }
    match s₁.queues.insertAt .sleeping (s₁.sleepPosition currTs) s.current with
    | none => .error .corrupt
    | some queues =>
        ({ s₁ with queues }.modify s.current fun tcb =>
          { tcb with requestDetach := some .sleeping }).block .sleep

/-- `WaitList::wait`. -/
def wait (s : System) (list : WaitId) (reason : BlockReason) : Except Stop System := do
  let s₁ ← s.link (.wait list) s.current
  (s₁.modify s.current fun tcb => { tcb with requestDetach := some (.wait list) }).block reason

/-- The common body of `wakeOne`, `wakeAll` and `checkSleep`: the first task of
a list leaves it, forgets its callback and is woken. -/
def wakeFront (s : System) (queue : Queue) (task : TaskId) (reason : WakeReason) :
    Except Stop System := do
  let s₁ ← s.unlink queue task
  (s₁.modify task fun tcb => { tcb with requestDetach := none }).wake task reason

def wakeOne (s : System) (list : WaitId) (reason : WakeReason) : Except Stop System :=
  match s.queues.items (.wait list) with
  | task :: _ => s.wakeFront (.wait list) task reason
  | [] => .ok s

/-- The loop of `wakeAll`, for at most `n` rounds. -/
def wakeLoop (list : WaitId) (reason : WakeReason) : Nat → System → Except Stop System
  | 0, s => .ok s
  | n + 1, s =>
      match s.queues.items (.wait list) with
      | task :: _ => do wakeLoop list reason n (← s.wakeFront (.wait list) task reason)
      | [] => .ok s

/-- `wakeAll`; each round takes one task off the list, so there are as many
rounds as tasks. -/
def wakeAll (s : System) (list : WaitId) (reason : WakeReason) : Except Stop System :=
  wakeLoop list reason (s.queues.items (.wait list)).length s

/-- The loop of `checkSleep`, for at most `n` rounds. -/
def sleepLoop : Nat → System → Except Stop System
  | 0, s => .ok s
  | n + 1, s =>
      match s.queues.items .sleeping with
      | task :: _ =>
          if (s.tasks task).sleepTime < s.msSinceBoot then do
            sleepLoop n (← s.wakeFront .sleeping task .normal)
          else
            .ok s
      | [] => .ok s

def checkSleep (s : System) : Except Stop System := do
  let s₁ ← sleepLoop (s.queues.items .sleeping).length s
  if s₁.msSinceBoot % 10#64 = 0#64 then s₁.yield else .ok s₁

/-- `timer::hit`. -/
def tick (s : System) : Except Stop System :=
  { s with msSinceBoot := s.msSinceBoot + 1#64 }.checkSleep

def sendSignal (s : System) (task : TaskId) (sig : Nat) : Except Stop System :=
  if (s.tasks task).ended then
    .ok s
  else
    let s₁ := s.modify task fun tcb =>
      { tcb with pendingSignals := tcb.pendingSignals ||| (1#64 <<< (sig - 1)) }
    if (s.tasks task).signalMask &&& (1#64 <<< (sig - 1)) ≠ 0#64 then
      .ok s₁
    else if (s.tasks task).state = .blocked then
      s₁.wake task .signal
    else
      .ok s₁

/-- The end of `exit`: another task gets the processor. -/
def leave (s : System) : Except Stop System :=
  match s.queues.items .pending with
  | next :: _ => do
      let s₁ ← s.unlink .pending next
      return s₁.switchToTask next
  | [] => s.switchToIdle

/-- The re-parenting in `exit`. The children move to the list of `init`. -/
def adoptChildren (s : System) (task : TaskId) : Except Stop System :=
  if s.children.items task = [] then
    .ok s
  else
    match s.allTasks KP_Init with
    | some init => { s with children := s.children.splice task init }.sendSignal init SIGCHLD
    | none => .error .corrupt

/-- The notification of the parent in `exit`. -/
def notifyParent (s : System) (task : TaskId) : Except Stop System :=
  match s.findTask (s.tasks task).parentPid with
  | some parent => do
      let s₁ ← s.wakeAll (.childs parent) .normal
      s₁.sendSignal parent SIGCHLD
  | none => .ok s

/-- `exit`. The descriptors it closes first may wake tasks of other wait lists;
those wake-ups are steps of their own. -/
def exit (s : System) (code sig : BitVec 32) : Except Stop System :=
  if (s.tasks s.current).pid = KP_Init then
    .error .fatal
  else do
    let self := s.current
    let s₁ := s.modify self fun tcb =>
      { tcb with state := .exited, exitStat := (code <<< 8) ||| sig }
    let s₂ ← s₁.adoptChildren self
    let s₃ ← s₂.notifyParent self
    s₃.leave

/-- The fields `createTask` and `forkTask` set in a new control block. -/
def childBlock (parent : TaskControlBlock) (signalMask : BitVec 64) : TaskControlBlock where
  state := .ready
  pid := KP_Invalid
  parentPid := parent.pid
  groupPid := parent.groupPid
  signalMask := signalMask

/-- `new TaskControlBlock`; the new task is the last child of the current one. -/
def newTask (s : System) (signalMask : BitVec 64) : Except Stop System :=
  match s.children.pushBack s.current s.nextTask with
  | none => .error .corrupt
  | some children =>
      .ok { s with
        tasks := Function.update s.tasks s.nextTask (childBlock (s.tasks s.current) signalMask)
        live := Function.update s.live s.nextTask true
        nextTask := s.nextTask + 1
        children }

def createTask (s : System) : Except Stop System := s.newTask 0#64

/-- `allocPid`: the first free entry from `KP_FirstUser` on. -/
def allocPid (s : System) (task : TaskId) : System :=
  match (List.range' KP_FirstUser (maxTask - KP_FirstUser)).find?
      fun p : Nat => (s.allTasks (p : Int)).isNone with
  | some p =>
      { s with allTasks := Function.update s.allTasks (p : Int) (some task) }.modify task
        fun tcb => { tcb with pid := (p : Int) }
  | none => s

def addTask (s : System) (task : TaskId) : Except Stop System := do
  let s₁ ← s.link .pending task
  let s₂ := { s₁ with handed := Function.update s₁.handed task true }
  return if (s₂.tasks task).pid = KP_Invalid then s₂.allocPid task else s₂

/-- `forkTask`, apart from the address space and the descriptors. -/
def forkTask (s : System) : Except Stop System := do
  let task := s.nextTask
  let s₁ ← s.newTask (s.tasks s.current).signalMask
  let s₂ ← s₁.addTask task
  if (s₂.tasks task).pid = KP_Invalid then .error .fatal else .ok s₂

/-- `freeTask`, apart from the pages it frees. The task leaves the list of the
task that its `parentPid` names. The status is stored only on success. -/
def freeTask (s : System) (pid : Int) : Except Stop (Option (BitVec 32) × System) :=
  if pid < 0 ∨ (maxTask : Int) ≤ pid then
    .error .corrupt
  else
    match s.allTasks pid with
    | none => .ok (none, s)
    | some task =>
        if (s.tasks task).state ≠ .exited then
          .ok (none, s)
        else
          match s.findTask (s.tasks task).parentPid with
          | none => .error .corrupt
          | some parent =>
              match s.children.extract parent task with
              | none => .error .corrupt
              | some children =>
                  .ok (some (s.tasks task).exitStat, { s with
                    children
                    live := Function.update s.live task false
                    allTasks := Function.update s.allTasks pid none })

/-- The pid and status that `waitpid` returns. -/
abbrev WaitResult := Blocking (Except Errno (Int × Option (BitVec 32)))

/-- `waitpid` without an ended child: it returns zero or waits. -/
def waitForChild (s : System) (pid : Int) (options : BitVec 32) :
    Except Stop (WaitResult × System) :=
  if options &&& WNOHANG ≠ 0#32 then
    .ok (.returns (.ok (0, some 0#32)), s)
  else do
    let s₁ ← (s.modify s.current fun tcb => { tcb with waitPid := pid }).wait (.childs s.current)
      .waitTask
    return (.waits, s₁)

/-- `freeTask` at the end of `waitpid`. -/
def reap (s : System) (pid : Int) : Except Stop (WaitResult × System) := do
  let (stat, s₁) ← s.freeTask pid
  return (.returns (.ok (pid, stat)), s₁)

/-- One round of `waitpid`: it frees an ended child, returns without one, or
waits on `__wait_childs`. -/
def waitpid (s : System) (pid : Int) (options : BitVec 32) :
    Except Stop (WaitResult × System) :=
  if options &&& (WNOHANG ||| WUNTRACED) ≠ options then
    .ok (.returns (.error .EINVAL), s)
  else if pid < -1 then
    .ok (.returns (.error .ENOSYS), s)
  else if pid = -1 then
    if s.children.items s.current = [] then
      .ok (.returns (.error .ECHILD), s)
    else
      match (s.children.items s.current).find? fun task => (s.tasks task).ended with
      | some task => s.reap (s.tasks task).pid
      | none => s.waitForChild pid options
  else if pid = 0 then
    .ok (.returns (.error .ENOSYS), s)
  else
    match s.findTask pid with
    | none => .ok (.returns (.error .ECHILD), s)
    | some task =>
        if (s.tasks task).parentPid ≠ (s.tasks s.current).pid then
          .ok (.returns (.error .ECHILD), s)
        else if ¬ (s.tasks task).ended then
          s.waitForChild pid options
        else
          s.reap pid

/-- The state `setupKnownTasks` leaves: `init` runs, `idle` is in no list. -/
def boot : System where
  tasks := fun task =>
    if task = 0 then { state := .running, pid := KP_Init, groupPid := KP_Init }
    else if task = 1 then { state := .ready, pid := KP_Idle, groupPid := KP_Idle }
    else { state := .ready, pid := KP_Invalid }
  live := fun task => task < 2
  handed := fun task => task = 0
  nextTask := 2
  allTasks := fun pid => if pid = KP_Init then some 0 else if pid = KP_Idle then some 1 else none
  current := 0
  disableYieldCounter := 0#32
  needYield := false
  queues := Intrusive.empty
  children := Intrusive.empty
  msSinceBoot := 0#64

end System

end Nyan.Task
