import Nyan.Library.Outcome
import Nyan.Library.Run
import Nyan.Task.Scheduler

/-!
The invariant of the scheduler, and what each of its operations does. The
invariant ties together, for each task, its state, the list its node is linked
into and the callback stored in `__request_detach`. Every operation keeps it, so
none ever links a node twice or unlinks one from the wrong list.
-/

namespace Nyan.Task

open Library

/-- The callback that belongs to a list. -/
def detachFor : Option Queue → Option Detach
  | some .sleeping => some .sleeping
  | some (.wait list) => some (.wait list)
  | some .pending => none
  | none => none

/-- What holds of one task, given whether it was handed over and whether it is
the current and the idle task, its control block, and the list its node is in. -/
structure TaskOk (handed isCurrent isIdle : Prop) (tcb : TaskControlBlock)
    (owner : Option Queue) : Prop where
  detach : tcb.requestDetach = detachFor owner
  pending : owner = some .pending ↔ handed ∧ tcb.state = .ready ∧ tcb.pid ≠ KP_Idle
  waiting : ∀ queue, owner = some queue → queue ≠ .pending → tcb.state = .blocked
  running : tcb.state = .running → isCurrent
  unhanded : ¬ handed → tcb.pid ≠ KP_Idle → tcb.state = .ready ∧ tcb.pid = KP_Invalid
  idle : tcb.pid = KP_Idle → isIdle ∧ (tcb.state = .ready ∨ tcb.state = .running)

/-- The invariant of the scheduler between and inside its operations. -/
structure Core (s : System) : Prop where
  task : ∀ t, TaskOk (s.handed t = true) (t = s.current) (s.allTasks KP_Idle = some t)
    (s.tasks t) (s.queues.owner t)
  idle : ∃ t, s.allTasks KP_Idle = some t ∧ (s.tasks t).pid = KP_Idle ∧ t < s.nextTask
  init : ∃ t, s.allTasks KP_Init = some t
  fresh : ∀ t, s.nextTask ≤ t → s.handed t = false ∧ s.children.owner t = none
  currentOld : s.current < s.nextTask
  currentHanded : s.handed s.current = true ∨ (s.tasks s.current).pid = KP_Idle

/-- The invariant between operations, when the current task is running. -/
structure Inv (s : System) : Prop extends Core s where
  current : (s.tasks s.current).state = .running

/-- The errors an operation may end with. -/
def Fatal (stop : Stop) : Prop := stop = .fatal

variable {s s' : System} {t : TaskId}

theorem Core.owner_of_not_blocked (h : Core s) (hblocked : (s.tasks t).state ≠ .blocked)
    (hready : (s.tasks t).state ≠ .ready) : s.queues.owner t = none := by
  have htask := h.task t
  cases howner : s.queues.owner t with
  | none => rfl
  | some queue =>
      rw [howner] at htask
      by_cases hpending : queue = .pending
      · subst hpending
        exact absurd (htask.pending.mp rfl).2.1 hready
      · exact absurd (htask.waiting queue rfl hpending) hblocked

theorem Core.detach_of_not_blocked (h : Core s) (hblocked : (s.tasks t).state ≠ .blocked) :
    (s.tasks t).requestDetach = none := by
  have htask := h.task t
  rw [htask.detach]
  cases howner : s.queues.owner t with
  | none => rfl
  | some queue =>
      cases queue with
      | pending => rfl
      | sleeping => exact absurd (htask.waiting _ howner (by simp)) hblocked
      | wait list => exact absurd (htask.waiting _ howner (by simp)) hblocked

theorem Inv.owner_current (h : Inv s) : s.queues.owner s.current = none :=
  h.owner_of_not_blocked (by simp [h.current]) (by simp [h.current])

theorem Core.not_idle_of_blocked (h : Core s) (hblocked : (s.tasks t).state = .blocked) :
    (s.tasks t).pid ≠ KP_Idle := by
  intro hpid
  rcases ((h.task t).idle hpid).2 with hstate | hstate <;> simp [hstate] at hblocked

theorem Core.handed_of_blocked (h : Core s) (hblocked : (s.tasks t).state = .blocked) :
    s.handed t = true := by
  by_contra hhanded
  have hready := ((h.task t).unhanded hhanded (h.not_idle_of_blocked hblocked)).1
  simp [hready] at hblocked

theorem Core.owner_of_unhanded (h : Core s) (hhanded : s.handed t = false) :
    s.queues.owner t = none := by
  have htask := h.task t
  cases howner : s.queues.owner t with
  | none => rfl
  | some queue =>
      by_cases hpending : queue = .pending
      · subst hpending
        simp [hhanded] at htask
        exact absurd (htask.pending.mp howner).1 (by simp)
      · have hhanded' := h.handed_of_blocked (htask.waiting queue howner hpending)
        simp [hhanded] at hhanded'

/-- A step that changes one task and the list its node is in. -/
theorem Core.update (h : Core s) {tcb : TaskControlBlock} {owner : Option Queue}
    {queues : Intrusive Queue TaskId}
    (hok : TaskOk (s.handed t = true) (t = s.current) (s.allTasks KP_Idle = some t) tcb owner)
    (hpid : tcb.pid = (s.tasks t).pid)
    (howner : queues.owner = Function.update s.queues.owner t owner) :
    Core { s with tasks := Function.update s.tasks t tcb, queues } := by
  have hpids : ∀ u, (Function.update s.tasks t tcb u).pid = (s.tasks u).pid := by
    intro u
    by_cases hu : u = t
    · subst hu
      simpa using hpid
    · simp [Function.update_of_ne hu]
  refine ⟨?_, ?_, h.init, h.fresh, h.currentOld, ?_⟩
  · intro u
    change TaskOk (s.handed u = true) (u = s.current) (s.allTasks KP_Idle = some u)
      (Function.update s.tasks t tcb u) (queues.owner u)
    rw [howner]
    by_cases hu : u = t
    · subst hu
      rwa [Function.update_self, Function.update_self]
    · rw [Function.update_of_ne hu, Function.update_of_ne hu]
      exact h.task u
  · obtain ⟨i, hi, hipid, hiold⟩ := h.idle
    exact ⟨i, hi, (hpids i).trans hipid, hiold⟩
  · rcases h.currentHanded with hhanded | hidle
    · exact Or.inl hhanded
    · exact Or.inr ((hpids s.current).trans hidle)

theorem Core.modify (h : Core s) {f : TaskControlBlock → TaskControlBlock}
    (hok : TaskOk (s.handed t = true) (t = s.current) (s.allTasks KP_Idle = some t)
      (f (s.tasks t)) (s.queues.owner t))
    (hpid : (f (s.tasks t)).pid = (s.tasks t).pid) : Core (s.modify t f) :=
  h.update hok hpid (Function.update_eq_self t s.queues.owner).symm

/-- What scheduling never changes: the process tree, the pid table, and which
tasks have ended. -/
structure Kin (s s' : System) : Prop where
  nextTask : s'.nextTask = s.nextTask
  allTasks : s'.allTasks = s.allTasks
  handed : s'.handed = s.handed
  live : s'.live = s.live
  children : s'.children = s.children
  pid : ∀ t, (s'.tasks t).pid = (s.tasks t).pid
  parentPid : ∀ t, (s'.tasks t).parentPid = (s.tasks t).parentPid
  ended : ∀ t, (s'.tasks t).state = .exited ↔ (s.tasks t).state = .exited

theorem Kin.refl (s : System) : Kin s s :=
  ⟨rfl, rfl, rfl, rfl, rfl, fun _ => rfl, fun _ => rfl, fun _ => Iff.rfl⟩

theorem Kin.trans {s₁ s₂ s₃ : System} (h : Kin s₁ s₂) (h' : Kin s₂ s₃) : Kin s₁ s₃ where
  nextTask := h'.nextTask.trans h.nextTask
  allTasks := h'.allTasks.trans h.allTasks
  handed := h'.handed.trans h.handed
  live := h'.live.trans h.live
  children := h'.children.trans h.children
  pid t := (h'.pid t).trans (h.pid t)
  parentPid t := (h'.parentPid t).trans (h.parentPid t)
  ended t := (h'.ended t).trans (h.ended t)

/-- A change of one task that keeps its pids and whether it has ended. -/
theorem Kin.update {tcb : TaskControlBlock} (queues : Intrusive Queue TaskId) (current : TaskId)
    (hpid : tcb.pid = (s.tasks t).pid) (hparent : tcb.parentPid = (s.tasks t).parentPid)
    (hended : tcb.state = .exited ↔ (s.tasks t).state = .exited) :
    Kin s { s with tasks := Function.update s.tasks t tcb, queues, current } := by
  refine ⟨rfl, rfl, rfl, rfl, rfl, fun u => ?_, fun u => ?_, fun u => ?_⟩
  all_goals
    by_cases hu : u = t
    · subst hu
      simpa using by assumption
    · simp [Function.update_of_ne hu]

/-- An operation that only wakes other tasks also keeps the current task and
every state other than `blocked`. -/
structure Frame (s s' : System) : Prop extends Kin s s' where
  current : s'.current = s.current
  disableYieldCounter : s'.disableYieldCounter = s.disableYieldCounter
  state : ∀ t, (s.tasks t).state ≠ .blocked → (s'.tasks t).state = (s.tasks t).state

theorem Frame.refl (s : System) : Frame s s := ⟨Kin.refl s, rfl, rfl, fun _ _ => rfl⟩

theorem Frame.trans {s₁ s₂ s₃ : System} (h : Frame s₁ s₂) (h' : Frame s₂ s₃) : Frame s₁ s₃ where
  toKin := h.toKin.trans h'.toKin
  current := h'.current.trans h.current
  disableYieldCounter := h'.disableYieldCounter.trans h.disableYieldCounter
  state t ht := by
    have hstate := h.state t ht
    rw [h'.state t (by rwa [hstate]), hstate]

/-- A change of one task whose state stays, or goes from blocked to ready. -/
theorem Frame.update {tcb : TaskControlBlock} (queues : Intrusive Queue TaskId)
    (hpid : tcb.pid = (s.tasks t).pid) (hparent : tcb.parentPid = (s.tasks t).parentPid)
    (hstate : tcb.state = (s.tasks t).state ∨
      (s.tasks t).state = .blocked ∧ tcb.state = .ready) :
    Frame s { s with tasks := Function.update s.tasks t tcb, queues } := by
  refine ⟨Kin.update queues s.current hpid hparent ?_, rfl, rfl, fun u hu => ?_⟩
  · rcases hstate with hsame | ⟨hblocked, hready⟩
    · rw [hsame]
    · simp [hblocked, hready]
  · by_cases hut : u = t
    · subst hut
      simpa using hstate.resolve_right fun hboth => hu hboth.1
    · simp [Function.update_of_ne hut]

/-- The operation keeps the invariant and wakes tasks at most. -/
def Wakes (s : System) (r : Except Stop System) : Prop :=
  Ensures Fatal (fun s' => Core s' ∧ Frame s s') r

theorem Wakes.nothing (h : Core s) : Wakes s (.ok s) := ⟨h, Frame.refl s⟩

theorem Wakes.after {r : Except Stop System} (hframe : Frame s s') (h : Wakes s' r) :
    Wakes s r :=
  h.mono fun _ hs => ⟨hs.1, hframe.trans hs.2⟩

theorem Wakes.bind {r : Except Stop System} {next : System → Except Stop System}
    (h : Wakes s r) (hnext : ∀ s₁, Core s₁ → Wakes s₁ (next s₁)) : Wakes s (r >>= next) :=
  Ensures.bind h fun s₁ hs₁ => (hnext s₁ hs₁.1).after hs₁.2

/-- Waking a blocked task moves its node to the end of the ready queue. -/
theorem wake_blocked (h : Core s) (hblocked : (s.tasks t).state = .blocked)
    (reason : WakeReason) :
    ∃ queues, s.wake t reason = .ok { s with
        tasks := Function.update s.tasks t { s.tasks t with
          state := .ready, blockReason := .unknown, wakeReason := reason, requestDetach := none }
        queues } ∧
      queues.owner = Function.update s.queues.owner t (some .pending) ∧
      queues.items .sleeping = (s.queues.items .sleeping).erase t := by
  have hok := h.task t
  have hnotIn : ∀ {owner : Option Queue}, s.queues.owner t = owner → owner ≠ some .sleeping →
      (s.queues.items .sleeping).erase t = s.queues.items .sleeping := by
    rintro owner rfl hne
    exact List.erase_of_not_mem fun hmem => hne ((s.queues.mem_iff .sleeping t).mp hmem)
  cases howner : s.queues.owner t with
  | none =>
      have hdetach : (s.tasks t).requestDetach = none := by
        rw [hok.detach, howner, detachFor]
      obtain ⟨queues, hpush, hqueues, hitems⟩ := Intrusive.pushBack_eq howner .pending
      refine ⟨queues, ?_, hqueues, ?_⟩
      · simp [System.wake, hblocked, hdetach, System.modify, System.link, hpush, bind, Except.bind]
      · simp [hitems, hnotIn howner]
  | some queue =>
      have hne : queue ≠ .pending := by
        rintro rfl
        have hready := (hok.pending.mp howner).2.1
        simp [hready] at hblocked
      obtain ⟨detach, hdetach, hqueue⟩ : ∃ detach, (s.tasks t).requestDetach = some detach ∧
          detach.queue = queue := by
        rw [hok.detach, howner]
        cases queue with
        | pending => exact absurd rfl hne
        | sleeping => exact ⟨.sleeping, rfl, rfl⟩
        | wait list => exact ⟨.wait list, rfl, rfl⟩
      obtain ⟨queues₁, hextract, howner₁, hitems₁⟩ := Intrusive.extract_eq howner
      have hnone : queues₁.owner t = none := by rw [howner₁, Function.update_self]
      obtain ⟨queues, hpush, hqueues, hitems⟩ := Intrusive.pushBack_eq hnone .pending
      refine ⟨queues, ?_, by rw [hqueues, howner₁, Function.update_idem], ?_⟩
      · simp [System.wake, hblocked, hdetach, hqueue, System.modify, System.link, System.unlink,
          hextract, hpush, bind, Except.bind]
      · by_cases hsleeping : queue = .sleeping
        · subst hsleeping
          simp [hitems, hitems₁]
        · have hsame := hnotIn howner (by simpa using hsleeping)
          simp [hitems, hitems₁, Function.update_of_ne (Ne.symm hsleeping), hsame]

theorem wake_wakes (h : Core s) (t : TaskId) (reason : WakeReason) :
    Wakes s (s.wake t reason) := by
  by_cases hblocked : (s.tasks t).state = .blocked
  · obtain ⟨queues, hwake, howner, _⟩ := wake_blocked h hblocked reason
    rw [hwake]
    refine ⟨h.update ?_ rfl howner, Frame.update queues rfl rfl (Or.inr ⟨hblocked, rfl⟩)⟩
    have hpid := h.not_idle_of_blocked hblocked
    have hhanded := h.handed_of_blocked hblocked
    refine ⟨rfl, ?_, ?_, by simp, fun hnot => absurd hhanded hnot,
      fun hidle => absurd hidle hpid⟩
    · simp [hhanded, hpid]
    · simp
  · rw [System.wake, if_pos hblocked]
    exact Wakes.nothing h

/-- The first task of a wait list or of the sleepers moves to the ready queue. -/
theorem wakeFront_spec (h : Core s) {queue : Queue} (howner : s.queues.owner t = some queue)
    (hqueue : queue ≠ .pending) (reason : WakeReason) :
    ∃ s', s.wakeFront queue t reason = .ok s' ∧ Core s' ∧ Frame s s' ∧
      s'.queues.owner = Function.update s.queues.owner t (some .pending) ∧
      s'.tasks = Function.update s.tasks t { s.tasks t with
        state := .ready, blockReason := .unknown, wakeReason := reason, requestDetach := none } ∧
      s'.queues.items .sleeping = (s.queues.items .sleeping).erase t := by
  have hok := h.task t
  have hblocked := hok.waiting queue howner hqueue
  obtain ⟨queues, hextract, howner', hitems⟩ := Intrusive.extract_eq howner
  let detached : System := { s with
    tasks := Function.update s.tasks t { s.tasks t with requestDetach := none }, queues }
  have hcore : Core detached := by
    refine h.update ?_ rfl howner'
    exact ⟨rfl, by simp [hblocked], by simp, hok.running, hok.unhanded, hok.idle⟩
  have hframe : Frame s detached := Frame.update queues rfl rfl (Or.inl rfl)
  have hwakes := wake_wakes hcore t reason
  obtain ⟨queues', hwake, hqueues', hitems'⟩ :=
    wake_blocked hcore (t := t) (by simpa [detached]) reason
  rw [hwake] at hwakes
  refine ⟨_, ?_, hwakes.1, hframe.trans hwakes.2, ?_, ?_, ?_⟩
  · rw [← hwake]
    simp [System.wakeFront, System.unlink, hextract, System.modify, bind, Except.bind, detached]
  · change queues'.owner = _
    rw [hqueues']
    change Function.update queues.owner t _ = _
    rw [howner', Function.update_idem]
  · simp only [detached, Function.update_self, Function.update_idem]
  · have hgone : t ∉ queues.items .sleeping := by
      refine Intrusive.not_mem_of_owner_none ?_ _
      rw [howner', Function.update_self]
    have hsame : queues'.items .sleeping = queues.items .sleeping := by
      rw [hitems', List.erase_of_not_mem hgone]
    change queues'.items .sleeping = _
    rw [hsame]
    by_cases hsleeping : queue = .sleeping
    · subst hsleeping
      simp [hitems]
    · have hnotIn : t ∉ s.queues.items .sleeping := fun hmem => by
        rw [s.queues.mem_iff, howner] at hmem
        exact hsleeping (Option.some.inj hmem)
      simp [hitems, Function.update_of_ne (Ne.symm hsleeping), List.erase_of_not_mem hnotIn]

theorem wakeFront_wakes (h : Core s) {queue : Queue} (howner : s.queues.owner t = some queue)
    (hqueue : queue ≠ .pending) (reason : WakeReason) :
    Wakes s (s.wakeFront queue t reason) := by
  obtain ⟨s', hfront, hcore, hframe, _⟩ := wakeFront_spec h howner hqueue reason
  rw [hfront]
  exact ⟨hcore, hframe⟩

theorem wakeOne_wakes (h : Core s) (list : WaitId) (reason : WakeReason) :
    Wakes s (s.wakeOne list reason) := by
  unfold System.wakeOne
  split
  · rename_i task rest hitems
    have howner := (s.queues.mem_iff (.wait list) task).mp (by simp [hitems])
    exact wakeFront_wakes h howner (by simp) reason
  · exact Wakes.nothing h

theorem wakeLoop_wakes (h : Core s) (list : WaitId) (reason : WakeReason) (n : Nat) :
    Wakes s (System.wakeLoop list reason n s) := by
  induction n generalizing s with
  | zero => exact Wakes.nothing h
  | succ n ih =>
      unfold System.wakeLoop
      split
      · rename_i task rest hitems
        have howner := (s.queues.mem_iff (.wait list) task).mp (by simp [hitems])
        exact (wakeFront_wakes h howner (by simp) reason).bind fun _ hcore => ih hcore
      · exact Wakes.nothing h

theorem sleepLoop_wakes (h : Core s) (n : Nat) : Wakes s (System.sleepLoop n s) := by
  induction n generalizing s with
  | zero => exact Wakes.nothing h
  | succ n ih =>
      unfold System.sleepLoop
      split
      · rename_i task rest hitems
        split
        · have howner := (s.queues.mem_iff .sleeping task).mp (by simp [hitems])
          exact (wakeFront_wakes h howner (by simp) .normal).bind fun _ hcore => ih hcore
        · exact Wakes.nothing h
      · exact Wakes.nothing h

theorem sendSignal_wakes (h : Core s) (t : TaskId) (sig : Nat) :
    Wakes s (s.sendSignal t sig) := by
  have hok := h.task t
  let signalled : System := s.modify t fun tcb =>
    { tcb with pendingSignals := tcb.pendingSignals ||| (1#64 <<< (sig - 1)) }
  have hcore : Core signalled :=
    h.modify ⟨hok.detach, hok.pending, hok.waiting, hok.running, hok.unhanded, hok.idle⟩ rfl
  have hframe : Frame s signalled := Frame.update s.queues rfl rfl (Or.inl rfl)
  unfold System.sendSignal
  split
  · exact Wakes.nothing h
  split
  · exact (Wakes.nothing hcore).after hframe
  split
  · exact (wake_wakes hcore t .signal).after hframe
  · exact (Wakes.nothing hcore).after hframe

/-- The operation ends with some task running, and changes nothing but queues
and states. -/
def Schedules (s : System) (r : Except Stop System) : Prop :=
  Ensures Fatal (fun s' => Inv s' ∧ Kin s s') r

theorem Schedules.after {r : Except Stop System} (hkin : Kin s s') (h : Schedules s' r) :
    Schedules s r :=
  h.mono fun _ hs => ⟨hs.1, hkin.trans hs.2⟩

theorem Wakes.schedules (h : Inv s) {r : Except Stop System} (hwakes : Wakes s r) :
    Schedules s r := by
  refine hwakes.mono fun s' hs' => ⟨⟨hs'.1, ?_⟩, hs'.2.toKin⟩
  rw [hs'.2.current, hs'.2.state _ (by simp [h.current]), h.current]

/-- Giving the processor to a ready task when no task is running. -/
theorem dispatch_inv (h : Core s) (hcurrent : (s.tasks s.current).state ≠ .running)
    (next : TaskId) {queues : Intrusive Queue TaskId}
    (howner : queues.owner = Function.update s.queues.owner next none)
    (hready : (s.tasks next).state = .ready) (hold : next < s.nextTask)
    (hnext : s.handed next = true ∨ (s.tasks next).pid = KP_Idle) :
    Inv ({ s with queues }.switchToTask next) ∧ Kin s ({ s with queues }.switchToTask next) := by
  have hkin : Kin s ({ s with queues }.switchToTask next) :=
    Kin.update queues next rfl rfl (by simp [hready])
  refine ⟨⟨⟨?_, ?_, h.init, h.fresh, hold, ?_⟩, ?_⟩, hkin⟩
  · intro u
    change TaskOk (s.handed u = true) (u = next) (s.allTasks KP_Idle = some u)
      (Function.update s.tasks next { s.tasks next with state := .running } u) (queues.owner u)
    rw [howner]
    by_cases hu : u = next
    · subst hu
      rw [Function.update_self, Function.update_self]
      have hok := h.task u
      refine ⟨?_, by simp, by simp, by simp, ?_, fun hidle => ⟨(hok.idle hidle).1, by simp⟩⟩
      · exact h.detach_of_not_blocked (by simp [hready])
      · exact fun hhanded hidle => absurd hnext (not_or.mpr ⟨hhanded, hidle⟩)
    · rw [Function.update_of_ne hu, Function.update_of_ne hu]
      have hok := h.task u
      refine ⟨hok.detach, hok.pending, hok.waiting, ?_, hok.unhanded, hok.idle⟩
      intro hrunning
      rw [← hok.running hrunning] at hcurrent
      exact absurd hrunning hcurrent
  · obtain ⟨i, hi, hpid, hiold⟩ := h.idle
    exact ⟨i, hi, (hkin.pid i).trans hpid, hiold⟩
  · exact hnext.imp id fun hidle => (hkin.pid next).trans hidle
  · simp [System.switchToTask, System.modify]

theorem Core.pending_spec (h : Core s) (howner : s.queues.owner t = some .pending) :
    s.handed t = true ∧ (s.tasks t).state = .ready ∧ (s.tasks t).pid ≠ KP_Idle ∧
      t < s.nextTask := by
  obtain ⟨hhanded, hready, hpid⟩ := (h.task t).pending.mp howner
  refine ⟨hhanded, hready, hpid, ?_⟩
  by_contra hold
  have hfresh := (h.fresh t (Nat.not_lt.mp hold)).1
  simp [hhanded] at hfresh

theorem switchToIdle_schedules (h : Core s) (hcurrent : (s.tasks s.current).state ≠ .running) :
    Schedules s s.switchToIdle := by
  obtain ⟨i, hi, hpid, hold⟩ := h.idle
  have hready : (s.tasks i).state = .ready := by
    have hok := h.task i
    refine (hok.idle hpid).2.resolve_right fun hrunning => ?_
    rw [← hok.running hrunning] at hcurrent
    exact hcurrent hrunning
  have howner : s.queues.owner i = none := by
    have hok := h.task i
    cases hqueue : s.queues.owner i with
    | none => rfl
    | some queue =>
        by_cases hpending : queue = .pending
        · subst hpending
          exact absurd hpid (hok.pending.mp hqueue).2.2
        · have hblocked := hok.waiting queue hqueue hpending
          simp [hready] at hblocked
  unfold System.switchToIdle
  rw [hi]
  refine dispatch_inv h hcurrent i ?_ hready hold (Or.inr hpid)
  rw [← howner, Function.update_eq_self]

/-- The end of `exit`, and of `yield` for a task that is not running any more. -/
theorem leave_schedules (h : Core s) (hcurrent : (s.tasks s.current).state ≠ .running) :
    Schedules s s.leave := by
  unfold System.leave
  split
  · rename_i next rest hitems
    have hpending := (s.queues.mem_iff .pending next).mp (by simp [hitems])
    obtain ⟨hhanded, hready, _, hold⟩ := h.pending_spec hpending
    obtain ⟨queues, hextract, howner, _⟩ := Intrusive.extract_eq hpending
    simp only [System.unlink, hextract]
    exact dispatch_inv h hcurrent next howner hready hold (Or.inl hhanded)
  · exact switchToIdle_schedules h hcurrent

/-- `yield` by a task that has just blocked. -/
theorem yield_blocked (h : Core s) (hcurrent : (s.tasks s.current).state = .blocked)
    (henabled : s.disableYieldCounter = 0#32) : Schedules s s.yield := by
  have hleave : s.yield = s.leave := by
    unfold System.yield System.leave
    rw [if_neg (by simp [henabled])]
    split
    · rename_i next rest hitems
      have hpending := (s.queues.mem_iff .pending next).mp (by simp [hitems])
      obtain ⟨queues, hextract, _⟩ := Intrusive.extract_eq hpending
      simp [System.unlink, hextract, System.requeueCurrent, hcurrent, bind, Except.bind]
    · rw [if_pos (by simp [hcurrent])]
  rw [hleave]
  exact leave_schedules h (by simp [hcurrent])

/-- `yield` by the running task when another one is ready: the running task
goes to the end of the queue, unless it is the idle task. -/
theorem yield_next (h : Inv s) {next : TaskId} {queues₁ : Intrusive Queue TaskId}
    (hpending : s.queues.owner next = some .pending)
    (howner₁ : queues₁.owner = Function.update s.queues.owner next none) :
    Schedules s (do
      let s₂ ← ({ s with queues := queues₁ } : System).requeueCurrent
      return s₂.switchToTask next) := by
  obtain ⟨hhanded, hready, _, hold⟩ := h.pending_spec hpending
  have hok := h.task s.current
  have hnone := h.owner_current
  have hne : next ≠ s.current := by
    rintro rfl
    simp [hnone] at hpending
  have hdetach := h.detach_of_not_blocked (t := s.current) (by simp [h.current])
  by_cases hidle : (s.tasks s.current).pid = KP_Idle
  · let waiting : System := s.modify s.current fun tcb => { tcb with state := .ready }
    have hcore : Core waiting := by
      refine h.modify ?_ rfl
      rw [hnone]
      exact ⟨hdetach, by simp [hidle], by simp, by simp, fun _ hne => absurd hidle hne,
        fun _ => ⟨(hok.idle hidle).1, Or.inl rfl⟩⟩
    have hkin : Kin s waiting := Kin.update s.queues s.current rfl rfl (by simp [h.current])
    simp only [System.requeueCurrent, h.current, hidle]
    have hdispatch := dispatch_inv hcore (by simp [waiting, System.modify]) next howner₁
      (by simpa [waiting, System.modify, Function.update_of_ne hne] using hready) hold
      (Or.inl hhanded)
    exact ⟨hdispatch.1, hkin.trans hdispatch.2⟩
  · obtain ⟨queues, _, howner, _⟩ := Intrusive.pushBack_eq hnone .pending
    have hnone₁ : queues₁.owner s.current = none := by
      rw [howner₁, Function.update_of_ne hne.symm, hnone]
    obtain ⟨queues₂, hpush, howner₂, _⟩ := Intrusive.pushBack_eq hnone₁ .pending
    let requeued : System := { s with
      tasks := Function.update s.tasks s.current { s.tasks s.current with state := .ready }
      queues }
    have hcore : Core requeued := by
      refine h.update ?_ rfl howner
      have hhanded' := h.currentHanded.resolve_right hidle
      exact ⟨hdetach, by simp [hidle, hhanded'], by simp, by simp,
        fun hnot => absurd hhanded' hnot, fun hpid => absurd hpid hidle⟩
    have hkin : Kin s requeued := Kin.update queues s.current rfl rfl (by simp [h.current])
    have hswap : queues₂.owner = Function.update requeued.queues.owner next none := by
      rw [howner₂, howner₁]
      change _ = Function.update queues.owner next none
      rw [howner, Function.update_comm hne]
    have hdispatch := dispatch_inv hcore (by simp [requeued]) next hswap
      (by simpa [requeued, Function.update_of_ne hne] using hready) hold (Or.inl hhanded)
    simp only [System.requeueCurrent, h.current, if_true, ne_eq, hidle, not_false_eq_true,
      System.link, System.modify, hpush]
    exact ⟨hdispatch.1, hkin.trans hdispatch.2⟩

/-- The counters and the clock play no part in the invariant. -/
theorem Inv.setCounters (h : Inv s) (disableYieldCounter : BitVec 32) (needYield : Bool)
    (msSinceBoot : BitVec 64) :
    Inv { s with disableYieldCounter, needYield, msSinceBoot } ∧
      Kin s { s with disableYieldCounter, needYield, msSinceBoot } :=
  ⟨⟨⟨h.task, h.idle, h.init, h.fresh, h.currentOld, h.currentHanded⟩, h.current⟩,
    ⟨rfl, rfl, rfl, rfl, rfl, fun _ => rfl, fun _ => rfl, fun _ => Iff.rfl⟩⟩

theorem yield_schedules (h : Inv s) : Schedules s s.yield := by
  unfold System.yield
  split
  · exact h.setCounters s.disableYieldCounter true s.msSinceBoot
  split
  · rename_i next rest hitems
    have hpending := (s.queues.mem_iff .pending next).mp (by simp [hitems])
    obtain ⟨queues, hextract, howner, _⟩ := Intrusive.extract_eq hpending
    simp only [System.unlink, hextract]
    exact yield_next h hpending howner
  · rw [if_neg (by simp [h.current])]
    exact ⟨h, Kin.refl s⟩

/-- The state in which `block` yields, after the current task has linked its node into a
list and stored the callback for it, or has done neither. -/
theorem Inv.core_blocked (h : Inv s) (hidle : (s.tasks s.current).pid ≠ KP_Idle)
    (tcb : TaskControlBlock) (queues : Intrusive Queue TaskId) {owner : Option Queue}
    (howner : queues.owner = Function.update s.queues.owner s.current owner)
    (hpending : owner ≠ some .pending) (hdetach : tcb.requestDetach = detachFor owner)
    (hpid : tcb.pid = (s.tasks s.current).pid) (reason : BlockReason) :
    Core { s with
      tasks := Function.update s.tasks s.current
        { tcb with state := .blocked, blockReason := reason, wakeReason := .normal }
      queues } := by
  refine h.update ?_ hpid howner
  have hhanded := h.currentHanded.resolve_right hidle
  exact ⟨hdetach, by simp [hpending], by simp, by simp,
    fun hnot => absurd hhanded hnot, fun hpid' => absurd (hpid ▸ hpid') hidle⟩

/-- `block` from there. -/
theorem block_schedules (h : Inv s) (hidle : (s.tasks s.current).pid ≠ KP_Idle)
    (tcb : TaskControlBlock) (queues : Intrusive Queue TaskId) {owner : Option Queue}
    (howner : queues.owner = Function.update s.queues.owner s.current owner)
    (hpending : owner ≠ some .pending) (hdetach : tcb.requestDetach = detachFor owner)
    (hpid : tcb.pid = (s.tasks s.current).pid)
    (hparent : tcb.parentPid = (s.tasks s.current).parentPid) (reason : BlockReason) :
    Schedules s
      ({ s with tasks := Function.update s.tasks s.current tcb, queues }.block reason) := by
  unfold System.block
  split
  · rfl
  rename_i henabled
  let blocked : TaskControlBlock :=
    { tcb with state := .blocked, blockReason := reason, wakeReason := .normal }
  have hcore : Core { s with tasks := Function.update s.tasks s.current blocked, queues } :=
    h.core_blocked hidle tcb queues howner hpending hdetach hpid reason
  have hkin : Kin s { s with tasks := Function.update s.tasks s.current blocked, queues } :=
    Kin.update queues s.current hpid hparent (by simp [blocked, h.current])
  simp only [System.modify, Function.update_self, Function.update_idem]
  exact (yield_blocked hcore (by simp [blocked]) (by simpa using henabled)).after hkin

theorem block_plain (h : Inv s) (hidle : (s.tasks s.current).pid ≠ KP_Idle)
    (reason : BlockReason) : Schedules s (s.block reason) := by
  have howner : s.queues.owner = Function.update s.queues.owner s.current none := by
    rw [← h.owner_current, Function.update_eq_self]
  have hblock := block_schedules h hidle (s.tasks s.current) s.queues howner (by simp)
    (h.detach_of_not_blocked (by simp [h.current])) rfl rfl reason
  rwa [Function.update_eq_self] at hblock

theorem wait_schedules (h : Inv s) (hidle : (s.tasks s.current).pid ≠ KP_Idle) (list : WaitId)
    (reason : BlockReason) : Schedules s (s.wait list reason) := by
  obtain ⟨queues, hpush, howner, _⟩ := Intrusive.pushBack_eq h.owner_current (.wait list)
  have hwait : s.wait list reason = ({ s with
      tasks := Function.update s.tasks s.current
        { s.tasks s.current with requestDetach := some (.wait list) }
      queues } : System).block reason := by
    simp [System.wait, System.link, hpush, System.modify, bind, Except.bind]
  rw [hwait]
  exact block_schedules h hidle { s.tasks s.current with requestDetach := some (.wait list) }
    queues howner (by simp) rfl rfl rfl reason

theorem sleep_schedules (h : Inv s) (hidle : (s.tasks s.current).pid ≠ KP_Idle)
    (ms : BitVec 64) : Schedules s (s.sleep ms) := by
  unfold System.sleep
  split
  · rfl
  let timed : System := s.modify s.current fun tcb =>
    { tcb with sleepTime := s.msSinceBoot + ms }
  obtain ⟨queues, hinsert, howner, _⟩ := Intrusive.insertAt_eq h.owner_current .sleeping
    (timed.sleepPosition (s.msSinceBoot + ms))
  have hinsert' : timed.queues.insertAt .sleeping (timed.sleepPosition (s.msSinceBoot + ms))
      s.current = some queues := hinsert
  simp only [timed] at hinsert'
  simp only [hinsert']
  simp only [System.modify, Function.update_self, Function.update_idem]
  exact block_schedules h hidle
    { s.tasks s.current with
      sleepTime := s.msSinceBoot + ms, requestDetach := some .sleeping }
    queues howner (by simp) rfl rfl rfl .sleep

theorem checkSleep_schedules (h : Inv s) : Schedules s s.checkSleep := by
  unfold System.checkSleep
  refine Ensures.bind ((sleepLoop_wakes h.toCore _).schedules h) ?_
  rintro s₁ ⟨hinv, hkin⟩
  split
  · exact (yield_schedules hinv).after hkin
  · exact ⟨hinv, hkin⟩

theorem tick_schedules (h : Inv s) : Schedules s s.tick := by
  obtain ⟨hinv, hkin⟩ := h.setCounters s.disableYieldCounter s.needYield (s.msSinceBoot + 1#64)
  exact Schedules.after hkin (checkSleep_schedules hinv)

theorem enableYield_schedules (h : Inv s) : Schedules s s.enableYield := by
  unfold System.enableYield
  dsimp only
  split
  · obtain ⟨hinv, hkin⟩ := h.setCounters (s.disableYieldCounter - 1#32) false s.msSinceBoot
    exact Schedules.after hkin (yield_schedules hinv)
  · exact h.setCounters (s.disableYieldCounter - 1#32) s.needYield s.msSinceBoot

/-- What `exit` does besides scheduling: the current task has ended, and its
children, if it has any, are on the list of `init`. -/
structure Exits (s s' : System) : Prop where
  notInit : (s.tasks s.current).pid ≠ KP_Init
  nextTask : s'.nextTask = s.nextTask
  allTasks : s'.allTasks = s.allTasks
  handed : s'.handed = s.handed
  live : s'.live = s.live
  children : (s.children.items s.current = [] ∧ s'.children = s.children) ∨
    s.children.items s.current ≠ [] ∧ ∃ init, s.allTasks KP_Init = some init ∧
      s'.children = s.children.splice s.current init
  pid : ∀ t, (s'.tasks t).pid = (s.tasks t).pid
  parentPid : ∀ t, (s'.tasks t).parentPid = (s.tasks t).parentPid
  ended : ∀ t, (s'.tasks t).state = .exited ↔ (s.tasks t).state = .exited ∨ t = s.current

theorem Core.splice (h : Core s) (source target : TaskId) :
    Core { s with children := s.children.splice source target } := by
  refine ⟨h.task, h.idle, h.init, fun u hu => ⟨(h.fresh u hu).1, ?_⟩, h.currentOld,
    h.currentHanded⟩
  rw [Intrusive.splice_owner, (h.fresh u hu).2]
  simp

theorem adoptChildren_spec (h : Core s) (t : TaskId) :
    Ensures Fatal (fun s' => Core s' ∧ ∃ children, Frame { s with children } s' ∧
      ((s.children.items t = [] ∧ children = s.children) ∨
        s.children.items t ≠ [] ∧ ∃ init, s.allTasks KP_Init = some init ∧
          children = s.children.splice t init)) (s.adoptChildren t) := by
  unfold System.adoptChildren
  split
  · rename_i hnone
    exact ⟨h, s.children, Frame.refl s, Or.inl ⟨hnone, rfl⟩⟩
  · rename_i hsome
    obtain ⟨init, hinit⟩ := h.init
    rw [hinit]
    exact (sendSignal_wakes (h.splice t init) init SIGCHLD).mono fun s' hs' =>
      ⟨hs'.1, _, hs'.2, Or.inr ⟨hsome, init, rfl, rfl⟩⟩

theorem notifyParent_wakes (h : Core s) (t : TaskId) : Wakes s (s.notifyParent t) := by
  unfold System.notifyParent
  split
  · exact (wakeLoop_wakes h _ _ _).bind fun _ hcore => sendSignal_wakes hcore _ _
  · exact Wakes.nothing h

/-- The state inside `exit`, when the current task has ended and still runs. -/
theorem Inv.core_ended (h : Inv s) (hidle : (s.tasks s.current).pid ≠ KP_Idle)
    (exitStat : BitVec 32) :
    Core (s.modify s.current fun tcb => { tcb with state := .exited, exitStat }) := by
  refine h.modify ?_ rfl
  rw [h.owner_current]
  have hhanded := h.currentHanded.resolve_right hidle
  exact ⟨h.detach_of_not_blocked (by simp [h.current]), by simp, by simp, by simp,
    fun hnot => absurd hhanded hnot, fun hpid => absurd hpid hidle⟩

theorem exit_spec (h : Inv s) (hidle : (s.tasks s.current).pid ≠ KP_Idle)
    (code sig : BitVec 32) :
    Ensures Fatal (fun s' => Inv s' ∧ Exits s s') (s.exit code sig) := by
  unfold System.exit
  split
  · rfl
  rename_i hnotInit
  let ended : System := s.modify s.current fun tcb =>
    { tcb with state := .exited, exitStat := (code <<< 8) ||| sig }
  refine Ensures.bind (adoptChildren_spec (h.core_ended hidle _) s.current) ?_
  rintro s₂ ⟨hcore₂, children, hframe₂, hchildren⟩
  refine Ensures.bind (notifyParent_wakes hcore₂ s.current) ?_
  rintro s₃ ⟨hcore₃, hframe₃⟩
  have hframe : Frame { ended with children } s₃ := hframe₂.trans hframe₃
  have hself : (ended.tasks s.current).state = .exited := by simp [ended, System.modify]
  have hcurrent : (s₃.tasks s₃.current).state = .exited := by
    rw [show s₃.current = s.current from hframe.current]
    exact (hframe.state s.current (by simp [hself])).trans hself
  refine (leave_schedules hcore₃ (by simp [hcurrent])).mono ?_
  rintro s' ⟨hinv, hkin⟩
  have hall := hframe.toKin.trans hkin
  refine ⟨hinv, hnotInit, hall.nextTask, hall.allTasks, hall.handed, hall.live, ?_, ?_, ?_, ?_⟩
  · rw [hall.children]
    exact hchildren
  · intro u
    rw [hall.pid u]
    by_cases hu : u = s.current
    · simp [ended, System.modify, hu]
    · simp [ended, System.modify, Function.update_of_ne hu]
  · intro u
    rw [hall.parentPid u]
    by_cases hu : u = s.current
    · simp [ended, System.modify, hu]
    · simp [ended, System.modify, Function.update_of_ne hu]
  · intro u
    rw [hall.ended u]
    by_cases hu : u = s.current
    · simp [ended, System.modify, hu]
    · simp [ended, System.modify, hu]

/-- What `newTask` does: the next address becomes a task that is ready, has no
pid, and is the last child of the current task. -/
structure Creates (s s' : System) : Prop where
  nextTask : s'.nextTask = s.nextTask + 1
  allTasks : s'.allTasks = s.allTasks
  handed : s'.handed = s.handed
  current : s'.current = s.current
  live : s'.live = Function.update s.live s.nextTask true
  children : s'.children.owner = Function.update s.children.owner s.nextTask (some s.current)
  tasks : ∀ t, t ≠ s.nextTask → s'.tasks t = s.tasks t
  pid : (s'.tasks s.nextTask).pid = KP_Invalid
  parentPid : (s'.tasks s.nextTask).parentPid = (s.tasks s.current).pid
  state : (s'.tasks s.nextTask).state = .ready

theorem newTask_spec (h : Inv s) (mask : BitVec 64) :
    Ensures Fatal (fun s' => Inv s' ∧ Creates s s') (s.newTask mask) := by
  obtain ⟨hunhanded, hnoparent⟩ := h.fresh s.nextTask le_rfl
  obtain ⟨children, hpush, howner, _⟩ := Intrusive.pushBack_eq hnoparent s.current
  have hcurrentNe : s.current ≠ s.nextTask := Nat.ne_of_lt h.currentOld
  simp only [System.newTask, hpush]
  let block := System.childBlock (s.tasks s.current) mask
  refine ⟨⟨⟨fun u => ?_, ?_, h.init, ?_, Nat.lt_succ_of_lt h.currentOld, ?_⟩, ?_⟩, ?_⟩
  · change TaskOk (s.handed u = true) (u = s.current) (s.allTasks KP_Idle = some u)
      (Function.update s.tasks s.nextTask block u) (s.queues.owner u)
    by_cases hu : u = s.nextTask
    · subst hu
      rw [Function.update_self, h.owner_of_unhanded hunhanded]
      exact ⟨rfl, by simp [hunhanded], by simp, by simp [block, System.childBlock],
        fun _ _ => ⟨rfl, rfl⟩, fun hpid => absurd hpid (show KP_Invalid ≠ KP_Idle by decide)⟩
    · rw [Function.update_of_ne hu]
      exact h.task u
  · obtain ⟨i, hi, hpid, hold⟩ := h.idle
    refine ⟨i, hi, ?_, Nat.lt_succ_of_lt hold⟩
    change (Function.update s.tasks s.nextTask block i).pid = KP_Idle
    rwa [Function.update_of_ne (Nat.ne_of_lt hold)]
  · intro u hu
    have hlt : s.nextTask < u := hu
    refine ⟨(h.fresh u hlt.le).1, ?_⟩
    change children.owner u = none
    rw [howner, Function.update_of_ne (Nat.ne_of_gt hlt)]
    exact (h.fresh u hlt.le).2
  · change s.handed s.current = true ∨
      (Function.update s.tasks s.nextTask block s.current).pid = KP_Idle
    rw [Function.update_of_ne hcurrentNe]
    exact h.currentHanded
  · change (Function.update s.tasks s.nextTask block s.current).state = .running
    rw [Function.update_of_ne hcurrentNe]
    exact h.current
  · refine ⟨rfl, rfl, rfl, rfl, rfl, howner, ?_, ?_, ?_, ?_⟩
    · exact fun u hu => Function.update_of_ne hu ..
    all_goals simp [System.childBlock]

/-- `allocPid` takes a free entry of the table if there is one. -/
theorem allocPid_spec (s : System) (t : TaskId) :
    (∃ p : Nat, KP_FirstUser ≤ p ∧ p < maxTask ∧ s.allTasks (p : Int) = none ∧
      s.allocPid t = { s with
        allTasks := Function.update s.allTasks (p : Int) (some t)
        tasks := Function.update s.tasks t { s.tasks t with pid := (p : Int) } }) ∨
    (∀ p : Nat, KP_FirstUser ≤ p → p < maxTask → s.allTasks (p : Int) ≠ none) ∧
      s.allocPid t = s := by
  unfold System.allocPid
  split
  · rename_i p hfind
    have hnone : s.allTasks (p : Int) = none := by simpa using List.find?_some hfind
    have hmem := List.mem_of_find?_eq_some hfind
    rw [List.mem_range'_1] at hmem
    exact Or.inl ⟨p, hmem.1, hmem.2, hnone, rfl⟩
  · rename_i hfind
    refine Or.inr ⟨fun p hfirst hmax hnone => ?_, rfl⟩
    have hused := List.find?_eq_none.mp hfind p (List.mem_range'_1.mpr ⟨hfirst, hmax⟩)
    simp [hnone] at hused

/-- Queueing a task that was not handed over before, under any pid but that of
the idle task. -/
theorem enqueue_inv (h : Inv s) (hhanded : s.handed t = false) (hold : t < s.nextTask)
    (hidle : (s.tasks t).pid ≠ KP_Idle) {queues : Intrusive Queue TaskId}
    (howner : queues.owner = Function.update s.queues.owner t (some .pending))
    (pid : Int) (hpid : pid ≠ KP_Idle) (allTasks : Int → Option TaskId)
    (hall : ∀ k, k = KP_Idle ∨ k = KP_Init → allTasks k = s.allTasks k) :
    Inv { s with
      tasks := Function.update s.tasks t { s.tasks t with pid }
      handed := Function.update s.handed t true
      allTasks
      queues } := by
  have hready := ((h.task t).unhanded (by simp [hhanded]) hidle).1
  have hcurrent : s.current ≠ t := by
    rintro rfl
    have hrunning := h.current
    simp [hready] at hrunning
  have hidleTask : allTasks KP_Idle = s.allTasks KP_Idle := hall _ (Or.inl rfl)
  refine ⟨⟨fun u => ?_, ?_, ?_, fun u hu => ⟨?_, (h.fresh u hu).2⟩, h.currentOld, ?_⟩, ?_⟩
  · change TaskOk (Function.update s.handed t true u = true) (u = s.current)
      (allTasks KP_Idle = some u) (Function.update s.tasks t { s.tasks t with pid } u)
      (queues.owner u)
    rw [howner, hidleTask]
    by_cases hu : u = t
    · subst hu
      simp only [Function.update_self]
      exact ⟨h.detach_of_not_blocked (by simp [hready]), by simp [hready, hpid], by simp,
        by simp [hready], fun hnot => absurd trivial hnot, fun hpid' => absurd hpid' hpid⟩
    · simp only [Function.update_of_ne hu]
      exact h.task u
  · obtain ⟨i, hi, hipid, hiold⟩ := h.idle
    have hne : i ≠ t := by
      rintro rfl
      exact hidle hipid
    refine ⟨i, hidleTask.trans hi, ?_, hiold⟩
    change (Function.update s.tasks t { s.tasks t with pid } i).pid = KP_Idle
    rwa [Function.update_of_ne hne]
  · obtain ⟨i, hi⟩ := h.init
    exact ⟨i, (hall _ (Or.inr rfl)).trans hi⟩
  · change Function.update s.handed t true u = false
    rw [Function.update_of_ne (Nat.ne_of_gt (Nat.lt_of_lt_of_le hold hu))]
    exact (h.fresh u hu).1
  · change Function.update s.handed t true s.current = true ∨
      (Function.update s.tasks t { s.tasks t with pid } s.current).pid = KP_Idle
    rw [Function.update_of_ne hcurrent, Function.update_of_ne hcurrent]
    exact h.currentHanded
  · change (Function.update s.tasks t { s.tasks t with pid } s.current).state = .running
    rw [Function.update_of_ne hcurrent]
    exact h.current

/-- What `addTask` does: the task is handed over, and gets a pid if there is a
free one. -/
structure Adds (s s' : System) (t : TaskId) : Prop where
  nextTask : s'.nextTask = s.nextTask
  current : s'.current = s.current
  live : s'.live = s.live
  children : s'.children = s.children
  handed : s'.handed = Function.update s.handed t true
  ready : (s.tasks t).state = .ready
  unnamed : (s.tasks t).pid = KP_Invalid
  tasks : ∀ u, u ≠ t → s'.tasks u = s.tasks u
  parentPid : (s'.tasks t).parentPid = (s.tasks t).parentPid
  state : (s'.tasks t).state = (s.tasks t).state
  pid : (∃ p : Nat, KP_FirstUser ≤ p ∧ p < maxTask ∧ s.allTasks (p : Int) = none ∧
      s'.allTasks = Function.update s.allTasks (p : Int) (some t) ∧ (s'.tasks t).pid = (p : Int)) ∨
    (∀ p : Nat, KP_FirstUser ≤ p → p < maxTask → s.allTasks (p : Int) ≠ none) ∧
      s'.allTasks = s.allTasks ∧ (s'.tasks t).pid = KP_Invalid

theorem addTask_spec (h : Inv s) (hhanded : s.handed t = false) (hold : t < s.nextTask)
    (hidle : (s.tasks t).pid ≠ KP_Idle) :
    Ensures Fatal (fun s' => Inv s' ∧ Adds s s' t) (s.addTask t) := by
  obtain ⟨queues, hpush, howner, _⟩ :=
    Intrusive.pushBack_eq (h.owner_of_unhanded hhanded) .pending
  obtain ⟨hready, hinvalid⟩ := (h.task t).unhanded (by simp [hhanded]) hidle
  let queued : System := { s with handed := Function.update s.handed t true, queues }
  have hadd : s.addTask t = .ok (queued.allocPid t) := by
    simp [System.addTask, System.link, hpush, bind, Except.bind, queued, hinvalid, pure,
      Except.pure]
  rw [hadd, ensures_ok]
  rcases allocPid_spec queued t with ⟨p, hfirst, hmax, hfree, halloc⟩ | ⟨hfull, halloc⟩
  · rw [halloc]
    have hne : ∀ k, k = KP_Idle ∨ k = KP_Init → k ≠ (p : Int) := by
      simp only [KP_Idle, KP_Init, KP_FirstUser] at *
      omega
    refine ⟨enqueue_inv h hhanded hold hidle howner (p : Int) (hne _ (Or.inl rfl)).symm
      (Function.update s.allTasks (p : Int) (some t))
      fun k hk => Function.update_of_ne (hne k hk) .., ?_⟩
    exact ⟨rfl, rfl, rfl, rfl, rfl, hready, hinvalid, fun u hu => Function.update_of_ne hu ..,
      by simp [queued], by simp [queued], Or.inl ⟨p, hfirst, hmax, hfree, rfl, by simp⟩⟩
  · rw [halloc]
    have hinv := enqueue_inv h hhanded hold hidle howner (s.tasks t).pid hidle s.allTasks
      fun _ _ => rfl
    rw [show { s.tasks t with pid := (s.tasks t).pid } = s.tasks t from rfl,
      Function.update_eq_self] at hinv
    exact ⟨hinv, rfl, rfl, rfl, rfl, rfl, hready, hinvalid, fun _ _ => rfl, rfl, rfl,
      Or.inr ⟨hfull, rfl, hinvalid⟩⟩

/-- `forkTask` creates a child of the current task and hands it over, under a
pid that was free. -/
theorem forkTask_spec (h : Inv s) :
    Ensures Fatal (fun s' => Inv s' ∧ ∃ s₁, Inv s₁ ∧ Creates s s₁ ∧ Adds s₁ s' s.nextTask ∧
      (s'.tasks s.nextTask).pid ≠ KP_Invalid) s.forkTask := by
  unfold System.forkTask
  refine Ensures.bind (newTask_spec h _) ?_
  rintro s₁ ⟨hinv₁, hcreates⟩
  have hhanded : s₁.handed s.nextTask = false := by
    rw [hcreates.handed]
    exact (h.fresh s.nextTask le_rfl).1
  have hold : s.nextTask < s₁.nextTask := by
    rw [hcreates.nextTask]
    exact Nat.lt_succ_self _
  have hidle : (s₁.tasks s.nextTask).pid ≠ KP_Idle := by
    rw [hcreates.pid]
    decide
  refine Ensures.bind (addTask_spec hinv₁ hhanded hold hidle) ?_
  rintro s₂ ⟨hinv₂, hadds⟩
  split
  · rfl
  · rename_i hpid
    exact ⟨hinv₂, s₁, hinv₁, hcreates, hadds, hpid⟩

/-- `init` is in the table under its pid and has not ended. -/
def InitAlive (s : System) : Prop :=
  ∃ init, s.allTasks KP_Init = some init ∧ (s.tasks init).pid = KP_Init ∧
    (s.tasks init).state ≠ .exited ∧ init < s.nextTask

/-- What `freeTask` does when it frees the task under a pid: the task leaves the
list of the task its `parentPid` names. -/
structure Frees (s s' : System) (pid : Int) (task : TaskId) : Prop where
  nextTask : s'.nextTask = s.nextTask
  handed : s'.handed = s.handed
  current : s'.current = s.current
  tasks : s'.tasks = s.tasks
  entry : s.allTasks pid = some task
  ended : (s.tasks task).state = .exited
  live : s'.live = Function.update s.live task false
  allTasks : s'.allTasks = Function.update s.allTasks pid none
  children : s'.children.owner = Function.update s.children.owner task none

theorem freeTask_spec (h : Inv s) (hinit : InitAlive s) (pid : Int) :
    Ensures (fun _ => True)
      (fun r => Inv r.2 ∧ (r.2 = s ∨ ∃ task, Frees s r.2 pid task)) (s.freeTask pid) := by
  unfold System.freeTask
  split
  · trivial
  split
  · exact ⟨h, Or.inl rfl⟩
  rename_i task hentry
  split
  · exact ⟨h, Or.inl rfl⟩
  rename_i hended
  have hended : (s.tasks task).state = .exited := not_not.mp hended
  split
  · trivial
  rename_i parent _
  by_cases howner : s.children.owner task = some parent
  · obtain ⟨children, hextract, hchildren, _⟩ := Intrusive.extract_eq howner
    rw [hextract]
    obtain ⟨i, hi, hipid, hiold⟩ := h.idle
    obtain ⟨init, hinit, _, hinitState, _⟩ := hinit
    have hpidIdle : KP_Idle ≠ pid := by
      rintro rfl
      obtain rfl : i = task := Option.some.inj (hi.symm.trans hentry)
      rcases ((h.task i).idle hipid).2 with hstate | hstate <;> simp [hstate] at hended
    have hpidInit : KP_Init ≠ pid := by
      rintro rfl
      obtain rfl : init = task := Option.some.inj (hinit.symm.trans hentry)
      exact hinitState hended
    have hidle : Function.update s.allTasks pid none KP_Idle = s.allTasks KP_Idle :=
      Function.update_of_ne hpidIdle ..
    refine ⟨⟨⟨fun u => ?_, ⟨i, hidle.trans hi, hipid, hiold⟩,
      ⟨init, (Function.update_of_ne hpidInit ..).trans hinit⟩,
      fun u hu => ⟨(h.fresh u hu).1, ?_⟩, h.currentOld, h.currentHanded⟩, h.current⟩,
      Or.inr ⟨task, rfl, rfl, rfl, rfl, hentry, hended, rfl, rfl, hchildren⟩⟩
    · change TaskOk (s.handed u = true) (u = s.current)
        (Function.update s.allTasks pid none KP_Idle = some u) (s.tasks u) (s.queues.owner u)
      rw [hidle]
      exact h.task u
    · change children.owner u = none
      rw [hchildren]
      by_cases hu' : u = task
      · rw [hu', Function.update_self]
      · rw [Function.update_of_ne hu']
        exact (h.fresh u hu).2
  · simp [Intrusive.extract, howner]

/-- The state in which `waitpid` waits. -/
theorem Inv.noteWait (h : Inv s) (pid : Int) :
    Inv (s.modify s.current fun tcb => { tcb with waitPid := pid }) ∧
      Kin s (s.modify s.current fun tcb => { tcb with waitPid := pid }) := by
  have hok := h.task s.current
  have hcore : Core (s.modify s.current fun tcb => { tcb with waitPid := pid }) :=
    h.modify ⟨hok.detach, hok.pending, hok.waiting, hok.running, hok.unhanded, hok.idle⟩ rfl
  exact ⟨⟨hcore, by simpa [System.modify] using h.current⟩,
    Kin.update s.queues s.current rfl rfl Iff.rfl⟩

theorem waitForChild_spec (h : Inv s) (hidle : (s.tasks s.current).pid ≠ KP_Idle) (pid : Int)
    (options : BitVec 32) :
    Ensures Fatal (fun r => Inv r.2 ∧ Kin s r.2) (s.waitForChild pid options) := by
  unfold System.waitForChild
  split
  · exact ⟨h, Kin.refl s⟩
  obtain ⟨hinv, hkin⟩ := h.noteWait pid
  have hidle' := (hkin.pid s.current).trans_ne hidle
  refine Ensures.bind ((wait_schedules hinv hidle' (.childs s.current) .waitTask).after hkin) ?_
  intro s' hs'
  exact hs'

/-- The tasks that `waitpid` of `w` with this `pid` is about. -/
def Expects (s : System) (w : TaskId) (pid : Int) (c : TaskId) : Prop :=
  if pid = -1 then c ∈ s.children.items w
  else s.findTask pid = some c ∧ (s.tasks c).parentPid = (s.tasks w).pid

/-- The ways a round of `waitpid` ends: at once, waiting when no child has
ended, or with a child that has ended. -/
theorem waitpid_cases (s : System) (pid : Int) (options : BitVec 32) :
    (∃ result, s.waitpid pid options = .ok (.returns result, s)) ∨
    ((∀ c, Expects s s.current pid c → (s.tasks c).state ≠ .exited) ∧
      s.waitpid pid options = s.waitForChild pid options) ∨
    (∃ task ∈ s.children.items s.current, (s.tasks task).state = .exited ∧
      s.waitpid pid options = s.reap (s.tasks task).pid) ∨
    ∃ task, s.findTask pid = some task ∧
      (s.tasks task).parentPid = (s.tasks s.current).pid ∧ (s.tasks task).state = .exited ∧
      s.waitpid pid options = s.reap pid := by
  unfold System.waitpid
  split
  · exact Or.inl ⟨_, rfl⟩
  split
  · exact Or.inl ⟨_, rfl⟩
  split
  · rename_i hany
    split
    · exact Or.inl ⟨_, rfl⟩
    split
    · rename_i task hfind
      have hended := List.find?_some hfind
      simp only [TaskControlBlock.ended, beq_iff_eq] at hended
      exact Or.inr (Or.inr (Or.inl ⟨task, List.mem_of_find?_eq_some hfind, hended, rfl⟩))
    · rename_i hfind
      refine Or.inr (Or.inl ⟨fun c hc hended => ?_, rfl⟩)
      rw [Expects, if_pos hany] at hc
      have hnot := List.find?_eq_none.mp hfind c hc
      simp [TaskControlBlock.ended, hended] at hnot
  rename_i hany
  split
  · exact Or.inl ⟨_, rfl⟩
  split
  · exact Or.inl ⟨_, rfl⟩
  rename_i task hfind
  split
  · exact Or.inl ⟨_, rfl⟩
  rename_i hparent
  split
  · rename_i hrunning
    simp only [TaskControlBlock.ended, beq_iff_eq] at hrunning
    refine Or.inr (Or.inl ⟨fun c hc => ?_, rfl⟩)
    rw [Expects, if_neg hany] at hc
    obtain rfl := Option.some.inj (hc.1.symm.trans hfind)
    exact hrunning
  · rename_i hended
    simp only [TaskControlBlock.ended, beq_iff_eq, not_not] at hended
    exact Or.inr (Or.inr (Or.inr ⟨task, hfind, not_not.mp hparent, hended, rfl⟩))

theorem reap_spec (h : Inv s) (hinit : InitAlive s) (pid : Int) :
    Ensures (fun _ => True)
      (fun r => Inv r.2 ∧ (r.2 = s ∨ ∃ task, Frees s r.2 pid task)) (s.reap pid) :=
  Ensures.bind (freeTask_spec h hinit pid) fun _ hr => hr

/-- `waitpid` schedules, or frees one task. -/
theorem waitpid_spec (h : Inv s) (hinit : InitAlive s)
    (hidle : (s.tasks s.current).pid ≠ KP_Idle) (pid : Int) (options : BitVec 32) :
    Ensures (fun _ => True)
      (fun r => Inv r.2 ∧ (Kin s r.2 ∨ ∃ pid task, Frees s r.2 pid task))
      (s.waitpid pid options) := by
  have hreap : ∀ pid, Ensures (fun _ => True)
      (fun r => Inv r.2 ∧ (Kin s r.2 ∨ ∃ pid task, Frees s r.2 pid task)) (s.reap pid) := by
    intro pid
    refine (reap_spec h hinit pid).mono ?_
    rintro ⟨result, s₁⟩ ⟨hinv, hsame | hfrees⟩
    · obtain rfl : s₁ = s := hsame
      exact ⟨hinv, Or.inl (Kin.refl s₁)⟩
    · exact ⟨hinv, Or.inr ⟨pid, hfrees⟩⟩
  rcases waitpid_cases s pid options with ⟨result, hround⟩ | ⟨_, hround⟩ |
    ⟨task, _, _, hround⟩ | ⟨task, _, _, _, hround⟩
  · rw [hround]
    exact ⟨h, Or.inl (Kin.refl s)⟩
  · rw [hround]
    exact ((waitForChild_spec h hidle pid options).allow fun _ _ => trivial).mono
      fun _ hr => ⟨hr.1, Or.inl hr.2⟩
  · rw [hround]
    exact hreap _
  · rw [hround]
    exact hreap _

end Nyan.Task
