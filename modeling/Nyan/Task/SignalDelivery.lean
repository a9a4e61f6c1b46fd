import Nyan.Library.Run
import Nyan.Paging.VMA
import Nyan.Task.Scheduler
import Nyan.Task.SignalFrame
import Nyan.Task.UserMemory

/-!
Signal delivery and return: `checkSignal` of `task/scheduler.self.cpp`, which runs
before the kernel returns to user code, and `sigreturn`, which the handler reaches
through the trampoline page. Handlers may nest to any depth, and user code may do
anything between the kernel's steps as long as it leaves the stored frames alone.

A frame comes back as it was if it was interrupted below `0xC0000000`. `sigreturn`
rejects every other address, the trampoline page included, so a signal that
arrives while a handler returns through the trampoline ends the task.

The kernel's own memory is not modelled: the stored frames lie in memory that user
code can read, or the handler could not return through them.
-/

namespace Nyan.Task

open Library Paging

def SIGSEGV : Nat := 11
def SIGURG : Nat := 23
def SIGWINCH : Nat := 28

def SIG_DFL : BitVec 32 := 0#32
def SIG_IGN : BitVec 32 := 1#32
def SA_RESTORER : BitVec 32 := 0x04000000#32

/-- The address of the trampoline in user memory. -/
def sigreturnTrampoline : VirtualAddress := 0xFFFFF000#32

structure SigAction where
  handler : BitVec 32
  flags : BitVec 32
  restorer : BitVec 32
  mask : BitVec 64

/-- `TaskSignalInfo`; the table of actions exists after the first `sigaction`. -/
structure TaskSignalInfo where
  pendingSignals : BitVec 64
  signalMask : BitVec 64
  signalActions : Option (Nat → SigAction)

def TaskSignalInfo.restSignals (info : TaskSignalInfo) : BitVec 64 :=
  info.pendingSignals &&& ~~~info.signalMask

/-- What signal delivery reads and writes of a task. -/
structure SignalTask where
  memory : Memory 32
  signal : TaskSignalInfo
  vmSpace : VMSpace
  stackLow : VirtualAddress

/-- How a task stops: it exits, or the kernel reads beyond a table. -/
inductive SignalStop where
  | exit (code sig : Nat)
  | undefined
  deriving DecidableEq

/-- `std::countr_zero`. -/
def countrZero (word : BitVec 64) : Nat := (List.range 64).findIdx fun pos => word.getLsbD pos

def isSignalDefaultIgnore (sig : Nat) : Bool := sig == SIGCHLD || sig == SIGURG || sig == SIGWINCH

/-- The handler branch of `checkSignal`. -/
def enterHandler (task : SignalTask) (frame : SyscallFrame) (sig : Nat) (entry : SigAction) :
    SignalTask × SyscallFrame :=
  let esp := frame.userEsp - BitVec.ofNat 32 SignalFrame.size
  let userFrame : SignalFrame := {
    retAddr := if entry.flags &&& SA_RESTORER ≠ 0#32 then entry.restorer else sigreturnTrampoline
    signal := BitVec.ofNat 32 sig
    oldMask := task.signal.signalMask
    frame }
  ({ task with
      memory := task.memory.store esp userFrame.encode
      signal := { task.signal with signalMask := task.signal.signalMask ||| entry.mask } },
    { frame with eip := entry.handler, userEsp := esp })

/-- `defaultSignalLogic`. -/
def defaultSignalLogic (sig : Nat) : Except SignalStop Unit :=
  if isSignalDefaultIgnore sig then .ok () else .error (.exit 255 sig)

/-- `checkSignal`, with the task and the frame it leaves. -/
def checkSignal (task : SignalTask) (frame : SyscallFrame) :
    Except SignalStop (Bool × SignalTask × SyscallFrame) :=
  let sigs := task.signal.restSignals
  if sigs = 0#64 then
    .ok (false, task, frame)
  else
    let sig := countrZero sigs + 1
    let task := { task with signal := { task.signal with
      pendingSignals := task.signal.pendingSignals ^^^ (1#64 <<< (sig - 1)) } }
    match task.signal.signalActions with
    | none => do
        defaultSignalLogic sig
        return (true, task, frame)
    | some actions =>
        let entry := actions sig
        if entry.handler = SIG_IGN then
          .ok (true, task, frame)
        else if entry.handler = SIG_DFL then do
          defaultSignalLogic sig
          return (true, task, frame)
        else
          .ok (true, enterHandler task frame sig entry)

/-- `checkStack` as far as the areas go; the pages are those of
`Machine.checkStack`. -/
def growStack (space : VMSpace) (stackLow targetAddr : VirtualAddress) :
    Option (Bool × VMSpace) := do
  let pos ← RangeManager.locate space targetAddr
  let vma ← space[pos]?
  if targetAddr < 0x00400000#32 ∨ 0xC0000000#32 ≤ targetAddr ∨ targetAddr < vma.endAddr then
    return (false, space)
  let stackVma ← space[pos + 1]?
  if targetAddr < stackVma.beginAddr ∧ stackVma.flags &&& MAP_GROWSDOWN ≠ 0#32 ∧
      stackLow ≤ targetAddr then
    return (true, space.set (pos + 1) { stackVma with beginAddr := thisPage targetAddr })
  return (false, space)

/-- `checkE`. -/
def checkE (task : SignalTask) (addr : VirtualAddress) : Option (Bool × SignalTask) := do
  if ← task.vmSpace.validate addr 1#32 PROT_EXEC then
    return (true, task)
  let (grown, vmSpace) ← growStack task.vmSpace task.stackLow addr
  return (grown, { task with vmSpace })

/-- `sigreturn`, with the task and the frame it leaves. -/
def sigreturn (task : SignalTask) (sysFrame : SyscallFrame) :
    Except SignalStop (SignalTask × SyscallFrame) :=
  let esp := sysFrame.userEsp
  let task := { task with signal := { task.signal with
    signalMask := fromBytes 64 (task.memory.load esp 8) } }
  match SyscallFrame.decode (task.memory.load (esp + 8#32) SyscallFrame.size) with
  | none => .error .undefined
  | some frame =>
      if 0xC0000000#32 ≤ frame.eip then
        .error (.exit 255 SIGSEGV)
      else
        match checkE task frame.eip with
        | none => .error .undefined
        | some (false, _) => .error (.exit 255 SIGSEGV)
        | some (true, task) => .ok (task, sanitise frame)

/-- The growth of the areas is that of `Machine.checkStack`. -/
theorem checkStack_grows {m m' : Machine} {k : Nat} {targetAddr : VirtualAddress} {grown : Bool}
    {process : Process} (hprocess : m.processes[k]? = some process)
    (h : m.checkStack k targetAddr = some (grown, m')) :
    ∃ process', m'.processes[k]? = some process' ∧
      growStack process.vmSpace process.stackRange.1 targetAddr =
        some (grown, process'.vmSpace) := by
  simp only [Machine.checkStack, hprocess, Option.bind_eq_bind, Option.bind_some,
    Option.bind_eq_some_iff] at h
  obtain ⟨pos, hpos, vma, hvma, h⟩ := h
  simp only [growStack, hpos, hvma, Option.bind_eq_bind, Option.bind_some]
  split at h
  · rename_i houtside
    obtain ⟨rfl, rfl⟩ := Prod.mk.inj (Option.some.inj h)
    exact ⟨process, hprocess, by rw [if_pos houtside]; rfl⟩
  rename_i hinside
  simp only [Option.bind_eq_some_iff] at h
  obtain ⟨stackVma, hstack, h⟩ := h
  rw [if_neg hinside, hstack, Option.bind_some]
  split at h
  · rename_i hgrows
    simp only [Option.bind_eq_some_iff] at h
    obtain ⟨pages, _, system, _, h⟩ := h
    obtain ⟨rfl, rfl⟩ := Prod.mk.inj (Option.some.inj h)
    have hk : k < m.processes.length := (List.getElem?_eq_some_iff.mp hprocess).1
    exact ⟨_, List.getElem?_set_self hk, by rw [if_pos hgrows]; rfl⟩
  · rename_i hstays
    obtain ⟨rfl, rfl⟩ := Prod.mk.inj (Option.some.inj h)
    exact ⟨process, hprocess, by rw [if_neg hstays]; rfl⟩

/-- `checkSignal` will enter a handler. -/
def SignalTask.enters (task : SignalTask) : Bool :=
  let sigs := task.signal.restSignals
  match task.signal.signalActions with
  | none => false
  | some actions =>
      let handler := (actions (countrZero sigs + 1)).handler
      sigs ≠ 0#64 && handler ≠ SIG_IGN && handler ≠ SIG_DFL

/-- `checkSignal` enters a handler with the mask and the memory of the task, or
changes only the pending signals. -/
theorem checkSignal_cases {task task' : SignalTask} {frame frame' : SyscallFrame} {handled : Bool}
    (h : checkSignal task frame = .ok (handled, task', frame')) :
    (task.enters = false ∧ frame' = frame ∧ task'.memory = task.memory) ∨
      task.enters = true ∧ ∃ before sig entry, before.memory = task.memory ∧
        before.signal.signalMask = task.signal.signalMask ∧
        (task', frame') = enterHandler before frame sig entry := by
  have hdefault : ∀ {sig : Nat} {task₁ : SignalTask},
      (do defaultSignalLogic sig; return (true, task₁, frame) : Except SignalStop _) =
        .ok (handled, task', frame') → frame' = frame ∧ task' = task₁ := by
    intro sig task₁ h
    unfold defaultSignalLogic at h
    split at h
    · obtain ⟨_, rfl, rfl⟩ : true = handled ∧ task₁ = task' ∧ frame = frame' := by
        simpa [bind, Except.bind, pure, Except.pure] using h
      exact ⟨rfl, rfl⟩
    · simp [bind, Except.bind] at h
  unfold checkSignal at h
  dsimp only at h
  unfold SignalTask.enters
  split at h
  · rename_i hnone
    obtain ⟨_, rfl, rfl⟩ : false = handled ∧ task = task' ∧ frame = frame' := by simpa using h
    refine Or.inl ⟨?_, rfl, rfl⟩
    split
    · rfl
    · simp [hnone]
  rename_i hsome
  split at h
  · obtain ⟨rfl, rfl⟩ := hdefault h
    exact Or.inl ⟨rfl, rfl, rfl⟩
  split at h
  · rename_i hign
    obtain ⟨_, hsame⟩ := Prod.mk.inj (Except.ok.inj h)
    obtain ⟨rfl, rfl⟩ := Prod.mk.inj hsame
    exact Or.inl ⟨by simp [hign], rfl, rfl⟩
  rename_i hnotIgn
  split at h
  · rename_i hdfl
    obtain ⟨rfl, rfl⟩ := hdefault h
    exact Or.inl ⟨by simp [hdfl], rfl, rfl⟩
  · rename_i hnotDfl
    obtain ⟨_, hentered⟩ := Prod.mk.inj (Except.ok.inj h)
    refine Or.inr ⟨by simp [hsome, hnotIgn, hnotDfl], _, _, _, ?_, ?_, hentered.symm⟩
    · rfl
    · rfl

/-- A handler that has not returned: where its stack frame begins, and the frame
and the mask it interrupted. -/
structure Saved where
  base : VirtualAddress
  frame : SyscallFrame
  mask : BitVec 64

/-- The part of a stack frame that `sigreturn` reads: the mask and the frame. -/
def Saved.stored (saved : Saved) (memory : Memory 32) : List Byte :=
  memory.load (saved.base + 8#32) (8 + SyscallFrame.size)

/-- A task, its frame when it last left user code, and the handlers it is in, the
innermost first. -/
structure SignalMachine where
  task : SignalTask
  frame : SyscallFrame
  saved : List Saved

/-- The steps. User code, and other system calls, may change everything. -/
inductive SignalEvent where
  | user (task : SignalTask) (frame : SyscallFrame)
  | deliver
  | sigreturn

namespace SignalMachine

def step (m : SignalMachine) : SignalEvent → Option SignalMachine
  | .user task frame => some { m with task, frame }
  | .deliver =>
      match checkSignal m.task m.frame with
      | .error _ => none
      | .ok (_, task, frame) =>
          let entered : Saved := ⟨frame.userEsp, m.frame, m.task.signal.signalMask⟩
          some { task, frame, saved := if m.task.enters then entered :: m.saved else m.saved }
  | .sigreturn =>
      match Task.sigreturn m.task m.frame with
      | .error _ => none
      | .ok (task, frame) => some { task, frame, saved := m.saved.tail }

/-- The innermost handler has returned to the trampoline, which has popped the
signal number. -/
def Returning (m : SignalMachine) : Prop :=
  ∃ top ∈ m.saved.head?, m.frame.userEsp = top.base + 8#32

/-- Handlers leave the stored frames alone: user code does not write to them, and
its stack is not in them when another signal arrives. They return through the
trampoline. -/
def Careful (m : SignalMachine) : SignalEvent → Prop
  | .user task frame => UserFrame frame ∧
      ∀ saved ∈ m.saved, saved.stored task.memory = saved.stored m.task.memory
  | .deliver => ∀ saved ∈ m.saved,
      Memory.Apart (m.frame.userEsp - BitVec.ofNat 32 SignalFrame.size) SignalFrame.size
        (saved.base + 8#32) (8 + SyscallFrame.size)
  | .sigreturn => m.Returning

/-- What the handlers leave alone is what delivery stored. -/
structure Kept (m : SignalMachine) : Prop where
  current : UserFrame m.frame
  saved : ∀ saved ∈ m.saved, UserFrame saved.frame ∧
    saved.stored m.task.memory = toBytes 8 saved.mask ++ saved.frame.encode

variable {m m' : SignalMachine}

/-- Delivery stores the mask and the frame where `sigreturn` reads them. -/
theorem enterHandler_stores (task : SignalTask) (frame : SyscallFrame) (sig : Nat)
    (entry : SigAction) :
    (Saved.mk (enterHandler task frame sig entry).2.userEsp frame task.signal.signalMask).stored
        (enterHandler task frame sig entry).1.memory =
      toBytes 8 task.signal.signalMask ++ frame.encode :=
  SignalFrame.load_store_encode _ task.memory _

/-- Delivery leaves what is apart from its frame. -/
theorem enterHandler_apart (task : SignalTask) (frame : SyscallFrame) (sig : Nat)
    (entry : SigAction) {saved : Saved}
    (h : Memory.Apart (frame.userEsp - BitVec.ofNat 32 SignalFrame.size) SignalFrame.size
      (saved.base + 8#32) (8 + SyscallFrame.size)) :
    saved.stored (enterHandler task frame sig entry).1.memory = saved.stored task.memory :=
  Memory.load_store_apart task.memory (by rwa [SignalFrame.length_encode])

theorem enterHandler_user (task : SignalTask) {frame : SyscallFrame} (sig : Nat)
    (entry : SigAction) (h : UserFrame frame) :
    UserFrame (enterHandler task frame sig entry).2 :=
  ⟨h.cs, h.ss, h.ds, h.es, h.fs, h.gs, h.interrupts, h.iopl⟩

theorem Kept.user (h : m.Kept) {task : SignalTask} {frame : SyscallFrame}
    (hok : m.Careful (.user task frame)) : Kept { m with task, frame } := by
  refine ⟨hok.1, fun saved hsaved => ⟨(h.saved saved hsaved).1, ?_⟩⟩
  exact (hok.2 saved hsaved).trans (h.saved saved hsaved).2

theorem Kept.deliver (h : m.Kept) (hok : m.Careful .deliver) (hstep : m.step .deliver = some m') :
    m'.Kept := by
  simp only [step] at hstep
  split at hstep
  · cases hstep
  rename_i handled task frame hcheck
  obtain rfl := Option.some.inj hstep
  rcases checkSignal_cases hcheck with ⟨hnone, rfl, hmemory⟩ |
    ⟨henters, before, sig, entry, hmemory, hmask, hentered⟩
  · refine ⟨h.current, fun saved hsaved => ?_⟩
    simp only [hnone, Bool.false_eq_true, if_false] at hsaved
    rw [hmemory]
    exact h.saved saved hsaved
  · obtain ⟨rfl, rfl⟩ := Prod.mk.inj hentered
    refine ⟨enterHandler_user before sig entry h.current, fun saved hsaved => ?_⟩
    simp only [henters, if_true, List.mem_cons] at hsaved
    rcases hsaved with rfl | hsaved
    · rw [← hmask]
      exact ⟨h.current, enterHandler_stores before m.frame sig entry⟩
    · refine ⟨(h.saved saved hsaved).1, ?_⟩
      have hapart := enterHandler_apart before m.frame sig entry (hok saved hsaved)
      rw [hmemory] at hapart
      exact hapart.trans (h.saved saved hsaved).2

/-- What `sigreturn` does with a frame that was left alone: it takes back the
mask, checks the address and gives back the frame. -/
theorem sigreturn_stored {task : SignalTask} {frame : SyscallFrame} {saved : Saved}
    (huser : UserFrame saved.frame)
    (hstored : saved.stored task.memory = toBytes 8 saved.mask ++ saved.frame.encode)
    (hesp : frame.userEsp = saved.base + 8#32) :
    Task.sigreturn task frame =
      if 0xC0000000#32 ≤ saved.frame.eip then
        .error (.exit 255 SIGSEGV)
      else
        match checkE { task with signal := { task.signal with signalMask := saved.mask } }
            saved.frame.eip with
        | none => .error .undefined
        | some (false, _) => .error (.exit 255 SIGSEGV)
        | some (true, task) => .ok (task, saved.frame) := by
  rw [Saved.stored, Memory.load_add] at hstored
  obtain ⟨hmask, hframe⟩ := List.append_inj hstored (by simp)
  rw [← hesp] at hmask hframe
  have hvalue : fromBytes 64 (toBytes 8 saved.mask) = saved.mask := fromBytes_toBytes (by decide) _
  unfold Task.sigreturn
  dsimp only
  rw [hmask, hvalue, hframe, SyscallFrame.decode_encode]
  dsimp only
  rw [huser.sanitise_eq]

theorem checkE_memory {task task' : SignalTask} {addr : VirtualAddress} {executable : Bool}
    (h : checkE task addr = some (executable, task')) :
    task'.memory = task.memory ∧ task'.signal = task.signal := by
  simp only [checkE, Option.bind_eq_bind, Option.bind_eq_some_iff] at h
  obtain ⟨valid, _, h⟩ := h
  split at h
  · obtain ⟨_, rfl⟩ := Prod.mk.inj (Option.some.inj h)
    exact ⟨rfl, rfl⟩
  · simp only [Option.bind_eq_some_iff] at h
    obtain ⟨grown, _, h⟩ := h
    obtain ⟨_, rfl⟩ := Prod.mk.inj (Option.some.inj h)
    exact ⟨rfl, rfl⟩

theorem Kept.sigreturn (h : m.Kept) (hok : m.Careful .sigreturn)
    (hstep : m.step .sigreturn = some m') : m'.Kept := by
  obtain ⟨top, htop, hesp⟩ := hok
  have hmem : top ∈ m.saved := List.mem_of_head? htop
  obtain ⟨huser, hstored⟩ := h.saved top hmem
  simp only [step] at hstep
  rw [sigreturn_stored huser hstored hesp] at hstep
  split at hstep
  · cases hstep
  rename_i task frame hreturn
  obtain rfl := Option.some.inj hstep
  split at hreturn
  · cases hreturn
  split at hreturn
  · cases hreturn
  · cases hreturn
  rename_i task' hcheck
  obtain ⟨rfl, rfl⟩ := Prod.mk.inj (Except.ok.inj hreturn)
  refine ⟨huser, fun saved hsaved => ?_⟩
  rw [(checkE_memory hcheck).1]
  exact h.saved saved (List.mem_of_mem_tail hsaved)

theorem Kept.step (h : m.Kept) {e : SignalEvent} (hok : m.Careful e)
    (hstep : m.step e = some m') : m'.Kept := by
  cases e with
  | user task frame =>
      obtain rfl := Option.some.inj hstep
      exact h.user hok
  | deliver => exact h.deliver hok hstep
  | sigreturn => exact h.sigreturn hok hstep

/-- The interrupted address is in an area that grants execution. -/
def Executable (task : SignalTask) (addr : VirtualAddress) : Prop :=
  task.vmSpace.validate addr 1#32 PROT_EXEC = some true

/-- Every address of an area that grants execution is accepted, while the areas
are in order. -/
theorem executable_of_area {task : SignalTask} {addr : VirtualAddress} {vma : VMA}
    (hspace : RangeManager.RepInv VMSpace.Base VMSpace.Top task.vmSpace) (hmem : vma ∈ task.vmSpace)
    (hbegin : vma.beginAddr ≤ addr) (hend : addr < vma.endAddr)
    (hexec : vma.protect &&& PROT_EXEC = PROT_EXEC) : Executable task addr := by
  obtain ⟨n, hn⟩ := hspace.locate_defined addr
  obtain ⟨i, hi⟩ := List.getElem?_of_mem hmem
  have hend := BitVec.lt_def.mp hend
  obtain rfl := RangeManager.locate_unique hspace.ordered hn hi (BitVec.le_def.mp hbegin) hend
  refine VMSpace.validate_eq_true.mpr ⟨i, vma, hn, hi, hexec, ?_⟩
  have hone : (1#32).toNat = 1 := rfl
  have hlast := vma.endAddr.isLt
  rw [BitVec.le_def, BitVec.toNat_add, hone]
  omega

theorem checkE_executable (task : SignalTask) {addr : VirtualAddress}
    (h : Executable task addr) : checkE task addr = some (true, task) := by
  rw [Executable] at h
  simp [checkE, h]

/-- The interrupted address is in the page of the trampoline. -/
def InTrampoline (addr : VirtualAddress) : Prop := sigreturnTrampoline ≤ addr

/-- The task goes on with the frame and the mask that the handler interrupted. -/
def Restores (m : SignalMachine) (saved : Saved) : Prop :=
  ∃ task, Task.sigreturn m.task m.frame = .ok (task, saved.frame) ∧
    task.signal.signalMask = saved.mask

theorem Kept.restores_iff (h : m.Kept) {top : Saved} (htop : top ∈ m.saved.head?)
    (hesp : m.frame.userEsp = top.base + 8#32)
    (heip : Executable m.task top.frame.eip ∨ InTrampoline top.frame.eip) :
    m.Restores top ↔ top.frame.eip < 0xC0000000#32 := by
  obtain ⟨huser, hstored⟩ := h.saved top (List.mem_of_head? htop)
  rw [Restores, sigreturn_stored huser hstored hesp]
  constructor
  · rintro ⟨task, hreturn, _⟩
    split at hreturn
    · cases hreturn
    · rename_i hlow
      exact BitVec.not_le.mp hlow
  · intro hlow
    have hexec : Executable m.task top.frame.eip := by
      refine heip.resolve_right fun htrampoline => ?_
      simp only [InTrampoline, sigreturnTrampoline] at htrampoline
      bv_omega
    have hcheck := checkE_executable { m.task with
      signal := { m.task.signal with signalMask := top.mask } } hexec
    rw [if_neg (BitVec.not_le.mpr hlow), hcheck]
    exact ⟨_, rfl, rfl⟩

/-- In every run, whatever happened before and however deep the handlers are
nested, the innermost handler gives back the frame and the mask it
interrupted exactly if it interrupted an address below `0xC0000000`. -/
theorem run_restores_iff {first : SignalMachine} {events : List SignalEvent}
    (hrun : Run SignalMachine.step Careful first events m) (hfirst : first.saved = [])
    (huser : UserFrame first.frame) {top : Saved} (htop : top ∈ m.saved.head?)
    (hesp : m.frame.userEsp = top.base + 8#32)
    (heip : Executable m.task top.frame.eip ∨ InTrampoline top.frame.eip) :
    m.Restores top ↔ top.frame.eip < 0xC0000000#32 := by
  have hkept : m.Kept :=
    hrun.invariant (fun _ _ _ h hok hstep => h.step hok hstep) ⟨huser, by simp [hfirst]⟩
  exact hkept.restores_iff htop hesp heip

instance (m : SignalMachine) : (e : SignalEvent) → Decidable (m.Careful e)
  | .user _ _ => inferInstanceAs (Decidable (_ ∧ ∀ saved ∈ m.saved, _))
  | .deliver => inferInstanceAs (Decidable (∀ saved ∈ m.saved, _))
  | .sigreturn => inferInstanceAs (Decidable (∃ top ∈ m.saved.head?, _))

/-- A task with a code page, a stack page and handlers. -/
def sampleTask (pending : BitVec 64) : SignalTask where
  memory := fun _ => 0#8
  signal := {
    pendingSignals := pending
    signalMask := 0#64
    signalActions := some fun _ => ⟨0x00401100#32, 0#32, 0#32, 0#64⟩ }
  vmSpace := [⟨0#32, 0x00400000#32, 0#32, 0#32, ""⟩,
    ⟨0x00401000#32, 0x00402000#32, 0#32, PROT_READ ||| PROT_EXEC, ""⟩, VMSpace.stackArea,
    ⟨0xC0000000#32, 0xFFFFF000#32, 0#32, 0#32, ""⟩]
  stackLow := 0xBFFF0000#32

/-- User code at an address with a stack pointer. -/
def sampleFrame (eip userEsp : BitVec 32) : SyscallFrame where
  effectiveEsp := userEsp
  userGs := 0x23#16
  userFs := 0x23#16
  userEs := 0x23#16
  userDs := 0x23#16
  edi := 1#32
  esi := 2#32
  ebp := 3#32
  pushedEsp := 4#32
  ebx := 5#32
  edx := 6#32
  ecx := 7#32
  eax := 8#32
  isrNum := 32#32
  errorCode := 0#32
  eip
  cs := 0x1b#32
  flags := 0x202#32
  userEsp
  userSs := 0x23#32

/-- The kernel interrupts user code; the handler returns at once. -/
theorem run_restores_iff_one_handler :
    ∃ (m : SignalMachine) (top : Saved), m.Returning ∧ top ∈ m.saved.head? ∧
      top.frame = sampleFrame 0x00401010#32 0xBFFFF800#32 ∧
      (m.Restores top ↔ top.frame.eip < 0xC0000000#32) := by
  let first : SignalMachine := ⟨sampleTask 1#64, sampleFrame 0x00401010#32 0xBFFFF800#32, []⟩
  obtain ⟨m₁, h₁, hok₁, m₂, h₂, hok₂, top, htop, hesp, hexec, hframe⟩ :
      ∃ m₁ ∈ first.step .deliver, first.Careful .deliver ∧
      ∃ m₂ ∈ m₁.step (.user m₁.task (sampleFrame 0xFFFFF008#32 0xBFFFF7B0#32)),
        m₁.Careful (.user m₁.task (sampleFrame 0xFFFFF008#32 0xBFFFF7B0#32)) ∧
        ∃ top ∈ m₂.saved.head?, m₂.frame.userEsp = top.base + 8#32 ∧
          m₂.task.vmSpace.validate top.frame.eip 1#32 PROT_EXEC = some true ∧
          top.frame = sampleFrame 0x00401010#32 0xBFFFF800#32 := by
    decide +kernel
  have hrun := Run.snoc (Run.snoc (Run.nil first) hok₁ h₁) hok₂ h₂
  exact ⟨m₂, top, ⟨top, htop, hesp⟩, htop, hframe,
    run_restores_iff hrun rfl (by decide) htop hesp (Or.inl hexec)⟩

/-- A signal arrives while a handler returns through the trampoline. Its own
handler returns in the same way, and `sigreturn` ends the task. -/
theorem signal_in_trampoline_ends_task :
    ∃ (first : SignalMachine) (events : List SignalEvent) (m : SignalMachine) (top : Saved),
      Run SignalMachine.step Careful first events m ∧ first.saved = [] ∧
      UserFrame first.frame ∧ top ∈ m.saved.head? ∧ m.frame.userEsp = top.base + 8#32 ∧
      InTrampoline top.frame.eip ∧ ¬ m.Restores top := by
  let first : SignalMachine := ⟨sampleTask 1#64, sampleFrame 0x00401010#32 0xBFFFF800#32, []⟩
  let popped := sampleFrame 0xFFFFF001#32 0xBFFFF7B0#32
  let returned := sampleFrame 0xFFFFF008#32 0xBFFFF760#32
  let raised (m : SignalMachine) : SignalEvent :=
    .user { m.task with signal := { m.task.signal with pendingSignals := 2#64 } } popped
  obtain ⟨m₁, h₁, hok₁, m₂, h₂, hok₂, m₃, h₃, hok₃, m₄, h₄, hok₄, top, htop, hesp, heip, hnone⟩ :
      ∃ m₁ ∈ first.step .deliver, first.Careful .deliver ∧
      ∃ m₂ ∈ m₁.step (raised m₁), m₁.Careful (raised m₁) ∧
      ∃ m₃ ∈ m₂.step .deliver, m₂.Careful .deliver ∧
      ∃ m₄ ∈ m₃.step (.user m₃.task returned), m₃.Careful (.user m₃.task returned) ∧
        ∃ top ∈ m₄.saved.head?, m₄.frame.userEsp = top.base + 8#32 ∧
          sigreturnTrampoline ≤ top.frame.eip ∧
          (Task.sigreturn m₄.task m₄.frame).toOption.isNone = true := by
    decide +kernel
  refine ⟨first, _, m₄, top, Run.snoc (Run.snoc (Run.snoc (Run.snoc (Run.nil first) hok₁ h₁) hok₂
    h₂) hok₃ h₃) hok₄ h₄, rfl, by decide, htop, hesp, heip, ?_⟩
  rintro ⟨task, hreturn, _⟩
  simp [hreturn, Except.toOption] at hnone

end SignalMachine

end Nyan.Task
