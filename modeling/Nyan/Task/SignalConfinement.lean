import Nyan.Task.SignalDelivery

/-!
What user code can make of signal delivery and return. All fields of the frame that
`sigreturn` loads come from user memory, and so does the stack pointer that both
`checkSignal` and `sigreturn` use as it is.

`sigreturn` clears the two bits of the I/O privilege level and no other bit, and it
takes an address for executable if the stack can grow down to it. Neither function
asks whether the memory at the stack pointer belongs to the task.
-/

namespace Nyan.Task

open Library Paging Paging.RangeManager

/-- The frame that `sigreturn` loads. -/
def storedFrame (task : SignalTask) (sysFrame : SyscallFrame) : Option SyscallFrame :=
  SyscallFrame.decode (task.memory.load (sysFrame.userEsp + 8#32) SyscallFrame.size)

/-- The mask that `sigreturn` loads. -/
def storedMask (task : SignalTask) (sysFrame : SyscallFrame) : BitVec 64 :=
  fromBytes 64 (task.memory.load sysFrame.userEsp 8)

def FL_NestedTask : BitVec 32 := 0x4000#32
def FL_Virtual8086 : BitVec 32 := 0x20000#32

/-- Some area holds an address and grants a protection. -/
def Protects (space : VMSpace) (prot : BitVec 32) (addr : VirtualAddress) : Prop :=
  ∃ vma ∈ space, vma.protect &&& prot = prot ∧ lo vma ≤ addr.toNat ∧ addr.toNat < hi vma

instance (space : VMSpace) (prot : BitVec 32) (addr : VirtualAddress) :
    Decidable (Protects space prot addr) :=
  inferInstanceAs (Decidable (∃ vma ∈ space, _))

/-- An ordinary frame of user code, which runs in an executable area. -/
structure RingThree (space : VMSpace) (f : SyscallFrame) : Prop extends UserFrame f where
  low : f.eip < 0xC0000000#32
  executable : Protects space PROT_EXEC f.eip
  virtual8086 : f.flags &&& FL_Virtual8086 = 0#32
  nestedTask : f.flags &&& FL_NestedTask = 0#32

/-- The area that `checkStack` makes grow down to an address: the next one above it, if
it may grow and the address is in the gap before it, not below the lowest stack
address. -/
structure GrowsTo (space : VMSpace) (stackLow addr : VirtualAddress) (vma : VMA) : Prop where
  gap : ∃ pos left, locate space addr = some pos ∧ space[pos]? = some left ∧
    space[pos + 1]? = some vma ∧ left.endAddr ≤ addr
  user : 0x00400000#32 ≤ addr ∧ addr < 0xC0000000#32
  below : addr < vma.beginAddr
  growsDown : vma.flags &&& MAP_GROWSDOWN ≠ 0#32
  stack : stackLow ≤ addr

section Grow

variable {space space' : VMSpace} {stackLow addr : VirtualAddress}

theorem growStack_true (h : growStack space stackLow addr = some (true, space')) :
    ∃ pos left vma, locate space addr = some pos ∧ space[pos]? = some left ∧
      space[pos + 1]? = some vma ∧ left.endAddr ≤ addr ∧ GrowsTo space stackLow addr vma ∧
      space' = space.set (pos + 1) { vma with beginAddr := thisPage addr } := by
  simp only [growStack, Option.bind_eq_bind, Option.bind_eq_some_iff] at h
  obtain ⟨pos, hpos, left, hleft, h⟩ := h
  split at h
  · cases h
  rename_i huser
  simp only [not_or, BitVec.not_lt, BitVec.not_le] at huser
  simp only [Option.bind_eq_some_iff] at h
  obtain ⟨vma, hvma, h⟩ := h
  split at h
  · rename_i hgrow
    obtain ⟨_, rfl⟩ := Prod.mk.inj (Option.some.inj h)
    exact ⟨pos, left, vma, hpos, hleft, hvma, huser.2.2,
      ⟨⟨pos, left, hpos, hleft, hvma, huser.2.2⟩, ⟨huser.1, huser.2.1⟩, hgrow.1, hgrow.2.1,
        hgrow.2.2⟩, rfl⟩
  · cases h

theorem GrowsTo.growStack {vma : VMA} (h : GrowsTo space stackLow addr vma) :
    ∃ space', growStack space stackLow addr = some (true, space') := by
  obtain ⟨⟨pos, left, hpos, hleft, hvma, hend⟩, huser, hbelow, hgrows, hstack⟩ := h
  have hinside : ¬ (addr < 0x00400000#32 ∨ 0xC0000000#32 ≤ addr ∨ addr < left.endAddr) := by
    simp only [not_or, BitVec.not_lt, BitVec.not_le]
    exact ⟨huser.1, huser.2, hend⟩
  refine ⟨space.set (pos + 1) { vma with beginAddr := thisPage addr }, ?_⟩
  simp [Task.growStack, hpos, hleft, hvma, hinside, hbelow, hgrows, hstack]

end Grow

section Return

variable {task task' : SignalTask} {sysFrame frame' : SyscallFrame} {addr : VirtualAddress}

/-- When `sigreturn` goes on, and with which frame. -/
theorem sigreturn_ok_iff :
    sigreturn task sysFrame = .ok (task', frame') ↔
      ∃ f, storedFrame task sysFrame = some f ∧ f.eip < 0xC0000000#32 ∧
        checkE { task with signal := { task.signal with
          signalMask := storedMask task sysFrame } } f.eip = some (true, task') ∧
        frame' = sanitise f := by
  unfold sigreturn storedFrame storedMask
  dsimp only
  cases SyscallFrame.decode (task.memory.load (sysFrame.userEsp + 8#32) SyscallFrame.size) with
  | none => simp
  | some f =>
      simp only [Option.some_inj, exists_eq_left']
      split
      · rename_i hhigh
        simp [BitVec.not_lt.mpr hhigh]
      · rename_i hlow
        rw [BitVec.not_le] at hlow
        split
        · rename_i hcheck
          simp [hcheck]
        · rename_i hcheck
          simp [hcheck]
        · rename_i task₁ hcheck
          simp [hcheck, hlow, eq_comm]

theorem validate_exec_iff (hspace : RepInv VMSpace.Base VMSpace.Top task.vmSpace)
    (hlow : addr < 0xC0000000#32) :
    task.vmSpace.validate addr 1#32 PROT_EXEC = some true ↔
      Protects task.vmSpace PROT_EXEC addr := by
  constructor
  · intro hvalid
    obtain ⟨pos, vma, hpos, hvma, hprot, hend⟩ := VMSpace.validate_eq_true.mp hvalid
    obtain ⟨⟨entry, hentry, hbegin⟩, _⟩ := locate_spec hpos
    obtain rfl := Option.some.inj (hentry.symm.trans hvma)
    refine ⟨entry, List.mem_of_getElem? hvma, hprot, BitVec.le_def.mp hbegin, ?_⟩
    rw [BitVec.le_def, BitVec.toNat_add] at hend
    rw [BitVec.lt_def] at hlow
    have hone : (1#32).toNat = 1 := rfl
    have htop : (0xC0000000#32).toNat = 0xC0000000 := rfl
    change addr.toNat < entry.endAddr.toNat
    omega
  · rintro ⟨vma, hmem, hprot, hbegin, hend⟩
    exact SignalMachine.executable_of_area hspace hmem (BitVec.le_def.mpr hbegin)
      (BitVec.lt_def.mpr hend) hprot

/-- An address in the gap below the stack is in no area. -/
theorem GrowsTo.not_protects {vma : VMA} {prot : BitVec 32}
    (hspace : RepInv VMSpace.Base VMSpace.Top task.vmSpace)
    (h : GrowsTo task.vmSpace task.stackLow addr vma) : ¬ Protects task.vmSpace prot addr := by
  rintro ⟨other, hmem, _, hbegin, hend⟩
  obtain ⟨pos, left, hpos, hleft, _, hgap⟩ := h.gap
  obtain ⟨i, hi'⟩ := List.getElem?_of_mem hmem
  obtain rfl := locate_unique hspace.ordered hpos hi' hbegin hend
  obtain rfl := Option.some.inj (hleft.symm.trans hi')
  exact absurd hend (Nat.not_lt.mpr (BitVec.le_def.mp hgap))

theorem checkE_true (h : checkE task addr = some (true, task')) :
    task.vmSpace.validate addr 1#32 PROT_EXEC = some true ∧ task' = task ∨
      ∃ space, growStack task.vmSpace task.stackLow addr = some (true, space) ∧
        task' = { task with vmSpace := space } := by
  simp only [checkE, Option.bind_eq_bind, Option.bind_eq_some_iff] at h
  obtain ⟨valid, hvalid, h⟩ := h
  split at h
  · rename_i hvalidated
    obtain ⟨_, rfl⟩ := Prod.mk.inj (Option.some.inj h)
    exact .inl ⟨by rw [hvalid, hvalidated], rfl⟩
  · simp only [Option.bind_eq_some_iff] at h
    obtain ⟨⟨grown, space⟩, hgrow, h⟩ := h
    obtain ⟨rfl, rfl⟩ := Prod.mk.inj (Option.some.inj h)
    exact .inr ⟨space, hgrow, rfl⟩

/-- In the gap below the stack `checkE` accepts what `checkStack` accepts. -/
theorem GrowsTo.checkE {vma : VMA} (hspace : RepInv VMSpace.Base VMSpace.Top task.vmSpace)
    (h : GrowsTo task.vmSpace task.stackLow addr vma) :
    ∃ task', checkE task addr = some (true, task') := by
  obtain ⟨space, hgrow⟩ := h.growStack
  obtain ⟨pos, left, hpos, hleft, _, _⟩ := h.gap
  have hinvalid : task.vmSpace.validate addr 1#32 PROT_EXEC = some false := by
    obtain ⟨valid, hvalid⟩ : ∃ valid, task.vmSpace.validate addr 1#32 PROT_EXEC = some valid := by
      simp only [VMSpace.validate, hpos, hleft, Option.bind_eq_bind, Option.bind_some]
      split
      · exact ⟨_, rfl⟩
      · split
        · exact ⟨_, rfl⟩
        · exact ⟨_, rfl⟩
    cases valid with
    | false => exact hvalid
    | true => exact absurd ((validate_exec_iff hspace h.user.2).mp hvalid) (h.not_protects hspace)
  exact ⟨_, by simp only [Task.checkE, hinvalid, hgrow, Option.bind_eq_bind, Option.bind_some,
    Bool.false_eq_true, if_false]; rfl⟩

/-- The address lies in the grown stack, so the stack must be executable. -/
theorem grown_protects_iff (hspace : RepInv VMSpace.Base VMSpace.Top task.vmSpace) {pos : Nat}
    {left vma : VMA} (hpos : locate task.vmSpace addr = some pos)
    (hleft : task.vmSpace[pos]? = some left) (hvma : task.vmSpace[pos + 1]? = some vma)
    (hgap : left.endAddr ≤ addr) (hbelow : addr < vma.beginAddr) (prot : BitVec 32) :
    Protects (task.vmSpace.set (pos + 1) { vma with beginAddr := thisPage addr }) prot addr ↔
      vma.protect &&& prot = prot := by
  constructor
  · rintro ⟨other, hmem, hprot, hbegin, hend⟩
    obtain rfl := mem_set_next hspace.ordered hpos hleft (BitVec.le_def.mp hgap) hmem hbegin hend
    exact hprot
  · intro hprot
    have hlt := (List.getElem?_eq_some_iff.mp hvma).1
    refine ⟨{ vma with beginAddr := thisPage addr }, ?_, hprot, ?_, ?_⟩
    · exact List.mem_of_getElem? (List.getElem?_set_self hlt)
    · change (thisPage addr).toNat ≤ addr.toNat
      rw [thisPage_toNat]
      exact Nat.sub_le _ _
    · have hproper := hspace.ordered.proper vma (List.mem_of_getElem? hvma)
      exact lt_of_lt_of_le (BitVec.lt_def.mp hbelow) hproper

/-- The repairs make a frame of user code, as far as `UserFrame` goes. -/
theorem sanitise_user (f : SyscallFrame) : UserFrame (sanitise f) where
  cs := rfl
  ss := rfl
  ds := rfl
  es := rfl
  fs := rfl
  gs := by
    simp only [sanitise]
    split
    · exact .inl rfl
    · rename_i hgs
      by_contra hne
      rw [not_or] at hne
      exact hgs hne
  interrupts := by
    simp only [sanitise]
    rw [BitVec.and_or_distrib_right]
    ext i hi
    simp +contextual
  iopl := by
    simp only [sanitise]
    rw [BitVec.and_or_distrib_right, BitVec.and_assoc]
    simp

/-- They leave the other flags as they are. -/
theorem sanitise_flags (f : SyscallFrame) {mask : BitVec 32}
    (hkept : ~~~0x3000#32 &&& mask = mask) (hset : 0x200#32 &&& mask = 0#32) :
    (sanitise f).flags &&& mask = f.flags &&& mask := by
  simp only [sanitise]
  rw [BitVec.and_or_distrib_right, BitVec.and_assoc, hkept, hset, BitVec.or_zero]

/-- `sigreturn` will go on at an address. -/
def Admitted (task : SignalTask) (addr : VirtualAddress) : Prop :=
  Protects task.vmSpace PROT_EXEC addr ∨ ∃ vma, GrowsTo task.vmSpace task.stackLow addr vma

/-- What `sigreturn` does not see to: the two flags, and that a stack which grows down to
the address is executable. -/
structure Ordinary (task : SignalTask) (f : SyscallFrame) : Prop where
  virtual8086 : f.flags &&& FL_Virtual8086 = 0#32
  nestedTask : f.flags &&& FL_NestedTask = 0#32
  stack : ∀ vma, GrowsTo task.vmSpace task.stackLow f.eip vma →
    vma.protect &&& PROT_EXEC = PROT_EXEC

/-- An admitted address makes `sigreturn` go on. -/
theorem sigreturn_admits (hspace : RepInv VMSpace.Base VMSpace.Top task.vmSpace)
    {f : SyscallFrame} (hstored : storedFrame task sysFrame = some f)
    (hlow : f.eip < 0xC0000000#32) (hadmitted : Admitted task f.eip) :
    ∃ task', sigreturn task sysFrame = .ok (task', sanitise f) := by
  obtain ⟨task', hcheck⟩ : ∃ task', checkE { task with signal := { task.signal with
      signalMask := storedMask task sysFrame } } f.eip = some (true, task') := by
    rcases hadmitted with hprotects | ⟨vma, hgrows⟩
    · exact ⟨_, SignalMachine.checkE_executable _ ((validate_exec_iff hspace hlow).mpr hprotects)⟩
    · have hgrows' : GrowsTo ({ task with signal := { task.signal with
          signalMask := storedMask task sysFrame } } : SignalTask).vmSpace task.stackLow
          f.eip vma := hgrows
      exact hgrows'.checkE hspace
  exact ⟨task', sigreturn_ok_iff.mpr ⟨f, hstored, hlow, hcheck, rfl⟩⟩

/-- `sigreturn` leaves only frames of user code exactly if the stored frame, should its
address be admitted, has the two flags clear and does not make a stack grow that is not
executable. -/
theorem sigreturn_ringThree_iff (hspace : RepInv VMSpace.Base VMSpace.Top task.vmSpace)
    (sysFrame : SyscallFrame) :
    (∀ task' frame', sigreturn task sysFrame = .ok (task', frame') →
        RingThree task'.vmSpace frame') ↔
      ∀ f, storedFrame task sysFrame = some f → f.eip < 0xC0000000#32 →
        Admitted task f.eip → Ordinary task f := by
  have hvirtual : ∀ f, (sanitise f).flags &&& FL_Virtual8086 = f.flags &&& FL_Virtual8086 :=
    fun f => sanitise_flags f (by decide) (by decide)
  have hnested : ∀ f, (sanitise f).flags &&& FL_NestedTask = f.flags &&& FL_NestedTask :=
    fun f => sanitise_flags f (by decide) (by decide)
  constructor
  · intro hring f hstored hlow hadmitted
    obtain ⟨task', hreturn⟩ := sigreturn_admits hspace hstored hlow hadmitted
    have hframe := hring task' _ hreturn
    refine ⟨(hvirtual f).symm.trans hframe.virtual8086, (hnested f).symm.trans hframe.nestedTask,
      fun vma hgrows => ?_⟩
    obtain ⟨f', hstored', _, hcheck, _⟩ := sigreturn_ok_iff.mp hreturn
    obtain rfl := Option.some.inj (hstored.symm.trans hstored')
    rcases checkE_true hcheck with ⟨hvalid, _⟩ | ⟨space, hgrow, rfl⟩
    · exact absurd ((validate_exec_iff hspace hlow).mp hvalid) (hgrows.not_protects hspace)
    · obtain ⟨pos, left, grown, hpos, hleft, hvma, hgap, hgrown, rfl⟩ := growStack_true hgrow
      obtain ⟨pos', _, hpos', _, hvma', _⟩ := hgrows.gap
      obtain rfl := Option.some.inj (hpos.symm.trans hpos')
      obtain rfl := Option.some.inj (hvma.symm.trans hvma')
      exact (grown_protects_iff hspace hpos hleft hvma hgap hgrown.below _).mp hframe.executable
  · intro hordinary task' frame' hreturn
    obtain ⟨f, hstored, hlow, hcheck, rfl⟩ := sigreturn_ok_iff.mp hreturn
    have hframe : Admitted task f.eip → Protects task'.vmSpace PROT_EXEC f.eip →
        RingThree task'.vmSpace (sanitise f) := by
      intro hadmitted hprotects
      have hclear := hordinary f hstored hlow hadmitted
      exact ⟨sanitise_user f, hlow, hprotects, (hvirtual f).trans hclear.virtual8086,
        (hnested f).trans hclear.nestedTask⟩
    rcases checkE_true hcheck with ⟨hvalid, rfl⟩ | ⟨space, hgrow, rfl⟩
    · have hprotects := (validate_exec_iff hspace hlow).mp hvalid
      exact hframe (.inl hprotects) hprotects
    · obtain ⟨pos, left, grown, hpos, hleft, hvma, hgap, hgrown, rfl⟩ := growStack_true hgrow
      have hadmitted : Admitted task f.eip := .inr ⟨grown, hgrown⟩
      have hexec := (hordinary f hstored hlow hadmitted).stack grown hgrown
      exact hframe hadmitted
        ((grown_protects_iff hspace hpos hleft hvma hgap hgrown.below _).mpr hexec)

end Return

/-- A task with a frame of its own making on its stack. -/
def forgedTask (eip flags : BitVec 32) : SignalTask :=
  { SignalMachine.sampleTask 0#64 with
    memory := Memory.store (fun _ => 0#8) 0xBFFFF808#32
      { SignalMachine.sampleFrame eip 0xBFFFF900#32 with flags }.encode }

/-- The task calls `sigreturn` with the stack pointer below that frame. -/
def forgedCall : SyscallFrame := SignalMachine.sampleFrame 0x00401010#32 0xBFFFF800#32

theorem forgedTask_space (eip flags : BitVec 32) :
    RepInv VMSpace.Base VMSpace.Top (forgedTask eip flags).vmSpace := by
  change RepInv VMSpace.Base VMSpace.Top (SignalMachine.sampleTask 0#64).vmSpace
  refine ⟨⟨by decide, ?_⟩, (SignalMachine.sampleTask 0#64).vmSpace.tail.dropLast, rfl⟩
  unfold SignalMachine.sampleTask
  decide

theorem forgedTask_stored (eip flags : BitVec 32) :
    storedFrame (forgedTask eip flags) forgedCall =
      some { SignalMachine.sampleFrame eip 0xBFFFF900#32 with flags } := by
  have haddr : forgedCall.userEsp + 8#32 = 0xBFFFF808#32 + BitVec.ofNat 32 0 := by decide
  have hfit : SyscallFrame.size ≤ 2 ^ 32 := by decide
  rw [storedFrame, forgedTask, haddr, Memory.load_store _ _ (by simp) (by simpa using hfit),
    List.drop_zero, List.take_of_length_le (by simp), SyscallFrame.decode_encode]

/-- A frame that a handler has not touched is taken back as one of user code. -/
theorem sigreturn_ringThree_iff_code_page :
    ∃ task' frame', sigreturn (forgedTask 0x00401010#32 0x202#32) forgedCall =
      .ok (task', frame') ∧ RingThree task'.vmSpace frame' := by
  have hspace := forgedTask_space 0x00401010#32 0x202#32
  have hstored := forgedTask_stored 0x00401010#32 0x202#32
  have hprotects : Protects (forgedTask 0x00401010#32 0x202#32).vmSpace PROT_EXEC 0x00401010#32 :=
    ⟨⟨0x00401000#32, 0x00402000#32, 0#32, PROT_READ ||| PROT_EXEC, ""⟩,
      by simp [forgedTask, SignalMachine.sampleTask], by decide, by decide, by decide⟩
  obtain ⟨task', hreturn⟩ := sigreturn_admits hspace hstored (by decide) (.inl hprotects)
  refine ⟨task', _, hreturn, (sigreturn_ringThree_iff hspace forgedCall).mpr ?_ _ _ hreturn⟩
  intro f hf _ _
  obtain rfl := Option.some.inj (hstored.symm.trans hf)
  exact ⟨by decide, by decide, fun vma hgrows => absurd hprotects (hgrows.not_protects hspace)⟩

theorem ok_of_toOption {ε α : Type} {result : Except ε α} {value : α}
    (h : value ∈ result.toOption) : result = .ok value := by
  cases result with
  | error e => cases h
  | ok x =>
      cases h
      rfl

/-- A forged frame keeps the flags of virtual 8086 mode and of a nested task, and one whose
address is below the stack page is taken back although no executable area has it. -/
theorem sigreturn_takes_forged_frames :
    (∃ task' frame', sigreturn (forgedTask 0x00401010#32 0x24202#32) forgedCall =
        .ok (task', frame') ∧ frame'.flags &&& FL_Virtual8086 ≠ 0#32 ∧
        frame'.flags &&& FL_NestedTask ≠ 0#32) ∧
      ∃ task' frame', sigreturn (forgedTask 0xBFFFE010#32 0x202#32) forgedCall =
        .ok (task', frame') ∧ frame'.eip = 0xBFFFE010#32 ∧
        ¬ Protects task'.vmSpace PROT_EXEC frame'.eip := by
  obtain ⟨⟨task₁, frame₁⟩, hreturn₁, hvirtual, hnested⟩ :
      ∃ result ∈ (sigreturn (forgedTask 0x00401010#32 0x24202#32) forgedCall).toOption,
        result.2.flags &&& FL_Virtual8086 ≠ 0#32 ∧ result.2.flags &&& FL_NestedTask ≠ 0#32 := by
    decide +kernel
  obtain ⟨⟨task₂, frame₂⟩, hreturn₂, heip, hprotects⟩ :
      ∃ result ∈ (sigreturn (forgedTask 0xBFFFE010#32 0x202#32) forgedCall).toOption,
        result.2.eip = 0xBFFFE010#32 ∧ ¬ Protects result.1.vmSpace PROT_EXEC result.2.eip := by
    decide +kernel
  exact ⟨⟨task₁, frame₁, ok_of_toOption hreturn₁, hvirtual, hnested⟩,
    task₂, frame₂, ok_of_toOption hreturn₂, heip, hprotects⟩

section Access

variable {task : SignalTask} {frame : SyscallFrame}

end Access

end Nyan.Task
