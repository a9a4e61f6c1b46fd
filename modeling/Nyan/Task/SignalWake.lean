import Nyan.Task.WaitLists
import Nyan.Task.SignalCalls

/-!
Waits that end by a signal. `sendSignal` wakes a blocked task for every signal that
is not masked, also for one that the task ignores, so its wait ends with
`WR_Signal` and the call returns `EINTR` for nothing. In every run in which each
signal sent to a blocked task is one that it does not ignore, a wait that ends so
has a reason.

A task that was woken first goes on at the end of `block`, which takes the reason
and resets it; only then does it act or change its signal state.
-/

namespace Nyan.Task

open Library

/-- Some signal that is pending and not masked is not ignored. -/
def TaskSignalInfo.Interrupted (info : TaskSignalInfo) : Prop :=
  ∃ sig, 1 ≤ sig ∧ info.restSignals.getLsbD (sig - 1) = true ∧ info.isInterrupted sig = true

/-- The tables of actions, which no operation of the scheduler looks at. -/
abbrev ActionTables := TaskId → Option (Nat → SigAction)

namespace ActionTables

def info (tables : ActionTables) (s : System) (t : TaskId) : TaskSignalInfo :=
  ⟨(s.tasks t).pendingSignals, (s.tasks t).signalMask, tables t⟩

/-- A signal for a blocked task is masked, or the task has one to wake up for. -/
def Heeds (tables : ActionTables) (s : System) (t : TaskId) (sig : Nat) : Prop :=
  (s.tasks t).state = .blocked → (s.tasks t).signalMask &&& (1#64 <<< (sig - 1)) = 0#64 →
    (tables.info s t).isInterrupted sig = true ∨ (tables.info s t).Interrupted

/-- Every task that was woken by a signal has one to wake up for. -/
def Excused (tables : ActionTables) (s : System) : Prop :=
  ∀ t, (s.tasks t).wakeReason = .signal → (tables.info s t).Interrupted

end ActionTables

/-- No task is woken by a signal, and those that were keep their signals. -/
def Calm (s s' : System) : Prop :=
  ∀ t, (s'.tasks t).wakeReason = .signal → (s.tasks t).wakeReason = .signal ∧
    (s'.tasks t).signalMask = (s.tasks t).signalMask ∧
    ∀ pos, (s.tasks t).pendingSignals.getLsbD pos = true →
      (s'.tasks t).pendingSignals.getLsbD pos = true

theorem Calm.refl (s : System) : Calm s s := fun _ hreason => ⟨hreason, rfl, fun _ => id⟩

theorem Calm.trans {s₁ s₂ s₃ : System} (h : Calm s₁ s₂) (h' : Calm s₂ s₃) : Calm s₁ s₃ := by
  intro t hreason
  obtain ⟨hreason₂, hmask₂, hpending₂⟩ := h' t hreason
  obtain ⟨hreason₁, hmask₁, hpending₁⟩ := h t hreason₂
  exact ⟨hreason₁, hmask₂.trans hmask₁, fun pos hpos => hpending₂ pos (hpending₁ pos hpos)⟩

theorem Calm.of_tasks {s s' : System} (h : s'.tasks = s.tasks) : Calm s s' := by
  intro t hreason
  rw [h] at hreason ⊢
  exact ⟨hreason, rfl, fun _ => id⟩

/-- A change of one task that keeps its signals, or sets the reason to normal. -/
theorem Calm.modify {s : System} {t : TaskId} {f : TaskControlBlock → TaskControlBlock}
    (hmask : (f (s.tasks t)).signalMask = (s.tasks t).signalMask)
    (hpending : (f (s.tasks t)).pendingSignals = (s.tasks t).pendingSignals)
    (hreason : (f (s.tasks t)).wakeReason = .signal → (s.tasks t).wakeReason = .signal) :
    Calm s (s.modify t f) := by
  intro u hwoken
  by_cases hu : u = t
  · subst hu
    simp only [System.modify, Function.update_self] at hwoken ⊢
    exact ⟨hreason hwoken, hmask, fun pos hpos => hpending ▸ hpos⟩
  · have hother : (s.modify t f).tasks u = s.tasks u := Function.update_of_ne hu ..
    rw [hother] at hwoken ⊢
    exact ⟨hwoken, rfl, fun _ => id⟩

theorem TaskSignalInfo.Interrupted.mono {info info' : TaskSignalInfo} (h : info.Interrupted)
    (hmask : info'.signalMask = info.signalMask)
    (hactions : info'.signalActions = info.signalActions)
    (hpending : ∀ pos, info.pendingSignals.getLsbD pos = true →
      info'.pendingSignals.getLsbD pos = true) : info'.Interrupted := by
  obtain ⟨sig, hsig, hrest, hinterrupted⟩ := h
  refine ⟨sig, hsig, ?_, ?_⟩
  · simp only [restSignals, BitVec.getLsbD_and, Bool.and_eq_true] at hrest ⊢
    rw [hmask]
    exact ⟨hpending _ hrest.1, hrest.2⟩
  · simpa only [isInterrupted, hactions] using hinterrupted

namespace ActionTables

variable {tables : ActionTables} {s s' : System}

theorem Excused.calm (h : tables.Excused s) (hcalm : Calm s s') : tables.Excused s' := by
  intro t hreason
  obtain ⟨hold, hmask, hpending⟩ := hcalm t hreason
  exact (h t hold).mono hmask rfl hpending

end ActionTables

/-- Operations that wake nobody by a signal, unless they fail. -/
def Calms (s : System) (r : Except Stop System) : Prop := Ensures (fun _ => True) (Calm s) r

namespace Calms

variable {s s' : System} {r : Except Stop System} {next : System → Except Stop System}

theorem same (h : Calm s s') : Calms s (.ok s') := h

theorem after (h : Calm s s') (hr : Calms s' r) : Calms s r := hr.mono fun _ h' => h.trans h'

theorem bind (h : Calms s r) (hnext : ∀ s₁, Calms s₁ (next s₁)) : Calms s (r >>= next) :=
  Ensures.bind h fun s₁ hs₁ => (hnext s₁).mono fun _ h' => hs₁.trans h'

end Calms

section Operations

variable (s : System) (t : TaskId)

theorem link_calms (queue : Queue) : Calms s (s.link queue t) := by
  unfold System.link
  split
  · exact Calms.same (.of_tasks rfl)
  · trivial

theorem unlink_calms (queue : Queue) : Calms s (s.unlink queue t) := by
  unfold System.unlink
  split
  · exact Calms.same (.of_tasks rfl)
  · trivial

theorem calm_switchToTask : Calm s (s.switchToTask t) := by
  have hcurrent : Calm s { s with current := t } := .of_tasks rfl
  exact hcurrent.trans (.modify rfl rfl id)

theorem switchToIdle_calms : Calms s s.switchToIdle := by
  unfold System.switchToIdle
  split
  · exact Calms.same (calm_switchToTask s _)
  · trivial

theorem wake_calms : Calms s (s.wake t .normal) := by
  have hwoken : Calm s (s.modify t fun tcb =>
      { tcb with state := .ready, blockReason := .unknown, wakeReason := .normal }) :=
    .modify rfl rfl nofun
  unfold System.wake
  split
  · exact Calms.same (.refl s)
  · dsimp only
    split
    · refine Calms.bind ((unlink_calms _ t _).after (hwoken.trans (.modify rfl rfl id))) ?_
      exact fun s₂ => link_calms s₂ t .pending
    · exact (link_calms _ t .pending).after hwoken

theorem requeueCurrent_calms : Calms s s.requeueCurrent := by
  have hready : Calm s (s.modify s.current fun tcb => { tcb with state := .ready }) :=
    .modify rfl rfl id
  simp only [System.requeueCurrent]
  split
  · split
    · exact (link_calms _ _ _).after hready
    · exact Calms.same hready
  · exact Calms.same (.refl s)

theorem yield_calms : Calms s s.yield := by
  unfold System.yield
  split
  · exact Calms.same (.of_tasks rfl)
  split
  · exact (unlink_calms s _ _).bind fun s₁ =>
      (requeueCurrent_calms s₁).bind fun s₂ => Calms.same (calm_switchToTask s₂ _)
  · split
    · exact switchToIdle_calms s
    · exact Calms.same (.refl s)

theorem enableYield_calms : Calms s s.enableYield := by
  simp only [System.enableYield]
  split
  · exact (yield_calms _).after (.of_tasks rfl)
  · exact Calms.same (.of_tasks rfl)

theorem block_calms (reason : BlockReason) : Calms s (s.block reason) := by
  unfold System.block
  split
  · trivial
  · have hblocked : Calm s (s.modify s.current fun tcb =>
        { tcb with state := .blocked, blockReason := reason, wakeReason := .normal }) :=
      .modify rfl rfl nofun
    exact (yield_calms _).after hblocked

theorem sleep_calms (ms : BitVec 64) : Calms s (s.sleep ms) := by
  simp only [System.sleep]
  split
  · trivial
  split
  · trivial
  · rename_i queues _
    let timed := s.modify s.current fun tcb => { tcb with sleepTime := s.msSinceBoot + ms }
    have htimed : Calm s timed := .modify rfl rfl id
    have hlinked : Calm timed { timed with queues } := .of_tasks rfl
    exact (block_calms _ .sleep).after ((htimed.trans hlinked).trans (.modify rfl rfl id))

theorem wait_calms (list : WaitId) (reason : BlockReason) : Calms s (s.wait list reason) :=
  (link_calms s _ _).bind fun _ => (block_calms _ reason).after (.modify rfl rfl id)

theorem wakeFront_calms (queue : Queue) : Calms s (s.wakeFront queue t .normal) :=
  (unlink_calms s t queue).bind fun _ => (wake_calms _ t).after (.modify rfl rfl id)

theorem wakeOne_calms (list : WaitId) : Calms s (s.wakeOne list .normal) := by
  unfold System.wakeOne
  split
  · exact wakeFront_calms s _ _
  · exact Calms.same (.refl s)

theorem wakeLoop_calms (list : WaitId) (n : Nat) :
    Calms s (System.wakeLoop list .normal n s) := by
  induction n generalizing s with
  | zero => exact Calms.same (.refl s)
  | succ n ih =>
      unfold System.wakeLoop
      split
      · exact (wakeFront_calms s _ _).bind ih
      · exact Calms.same (.refl s)

theorem sleepLoop_calms (n : Nat) : Calms s (System.sleepLoop n s) := by
  induction n generalizing s with
  | zero => exact Calms.same (.refl s)
  | succ n ih =>
      unfold System.sleepLoop
      split
      · split
        · exact (wakeFront_calms s _ _).bind ih
        · exact Calms.same (.refl s)
      · exact Calms.same (.refl s)

theorem checkSleep_calms : Calms s s.checkSleep := by
  unfold System.checkSleep
  refine (sleepLoop_calms s _).bind fun s₁ => ?_
  split
  · exact yield_calms s₁
  · exact Calms.same (.refl s₁)

theorem leave_calms : Calms s s.leave := by
  unfold System.leave
  split
  · exact (unlink_calms s _ _).bind fun s₁ => Calms.same (calm_switchToTask s₁ _)
  · exact switchToIdle_calms s

theorem newTask_normal (mask : BitVec 64) :
    Ensures (fun _ => True) (fun s' => (s'.tasks s.nextTask).wakeReason = .normal)
      (s.newTask mask) := by
  unfold System.newTask
  split
  · trivial
  · simp [System.childBlock]

/-- A new task was not woken by a signal. -/
theorem newTask_calms (mask : BitVec 64) : Calms s (s.newTask mask) := by
  unfold System.newTask
  split
  · trivial
  · intro u hwoken
    by_cases hu : u = s.nextTask
    · subst hu
      simp [System.childBlock] at hwoken
    · simpa [Function.update_of_ne hu] using hwoken

theorem calm_allocPid : Calm s (s.allocPid t) := by
  unfold System.allocPid
  split
  · rename_i p _
    have hpid : Calm s { s with allTasks := Function.update s.allTasks (p : Int) (some t) } :=
      .of_tasks rfl
    exact hpid.trans (.modify rfl rfl id)
  · exact .refl s

theorem addTask_calms : Calms s (s.addTask t) := by
  unfold System.addTask
  refine (link_calms s t .pending).bind fun s₁ => Calms.same ?_
  have hhanded : Calm s₁ { s₁ with handed := Function.update s₁.handed t true } := .of_tasks rfl
  split
  · exact hhanded.trans (calm_allocPid _ t)
  · exact hhanded

theorem forkTask_calms : Calms s s.forkTask := by
  unfold System.forkTask
  refine (newTask_calms s _).bind fun s₁ => (addTask_calms s₁ _).bind fun s₂ => ?_
  split
  · trivial
  · exact Calms.same (.refl s₂)

theorem forkTask_normal :
    Ensures (fun _ => True) (fun s' => (s'.tasks s.nextTask).wakeReason = .normal)
      s.forkTask := by
  unfold System.forkTask
  refine Ensures.bind (newTask_normal s _) fun s₁ hs₁ => ?_
  refine Ensures.bind (addTask_calms s₁ _) fun s₂ hs₂ => ?_
  split
  · trivial
  · change (s₂.tasks s.nextTask).wakeReason = .normal
    cases hreason : (s₂.tasks s.nextTask).wakeReason with
    | normal => rfl
    | signal =>
        rw [(hs₂ s.nextTask hreason).1] at hs₁
        cases hs₁

theorem freeTask_tasks (pid : Int) :
    Ensures (fun _ => True) (fun r => r.2.tasks = s.tasks) (s.freeTask pid) := by
  unfold System.freeTask
  split
  · trivial
  split
  · rfl
  split
  · rfl
  split
  · trivial
  split
  · trivial
  · rfl

theorem waitpid_calms (pid : Int) (options : BitVec 32) :
    Ensures (fun _ => True) (fun r => Calm s r.2) (s.waitpid pid options) := by
  have hreap : ∀ pid, Ensures (fun _ => True) (fun r => Calm s r.2) (s.reap pid) := fun pid =>
    Ensures.bind (freeTask_tasks s pid) fun r htasks => Calm.of_tasks htasks
  have hwait : Ensures (fun _ => True) (fun r => Calm s r.2) (s.waitForChild pid options) := by
    unfold System.waitForChild
    split
    · exact Calm.refl s
    · refine Ensures.bind ((wait_calms _ _ _).after ?_) fun s' hs' => hs'
      exact .modify rfl rfl id
  rcases waitpid_cases s pid options with ⟨result, hround⟩ | ⟨_, hround⟩ |
    ⟨task, _, _, hround⟩ | ⟨task, _, _, _, hround⟩
  · rw [hround]
    exact Calm.refl s
  · rw [hround]
    exact hwait
  · rw [hround]
    exact hreap _
  · rw [hround]
    exact hreap _

end Operations

/-- Operations that wake tasks: the masks stay, signals are added, and a task that
is still blocked was so before and still waits. -/
structure Rouses (s s' : System) : Prop where
  allTasks : s'.allTasks = s.allTasks
  parentPid : ∀ t, (s'.tasks t).parentPid = (s.tasks t).parentPid
  mask : ∀ t, (s'.tasks t).signalMask = (s.tasks t).signalMask
  pending : ∀ t pos, (s.tasks t).pendingSignals.getLsbD pos = true →
    (s'.tasks t).pendingSignals.getLsbD pos = true
  blocked : ∀ t, (s'.tasks t).state = .blocked → (s.tasks t).state = .blocked
  waits : ∀ t list, (s'.tasks t).state = .blocked → Waiting s t list → Waiting s' t list

section Rouses

variable {s s' : System} {t : TaskId}

theorem Rouses.refl (s : System) : Rouses s s :=
  ⟨rfl, fun _ => rfl, fun _ => rfl, fun _ _ => id, fun _ => id, fun _ _ _ => id⟩

theorem Rouses.trans {s₁ s₂ s₃ : System} (h : Rouses s₁ s₂) (h' : Rouses s₂ s₃) : Rouses s₁ s₃ where
  allTasks := h'.allTasks.trans h.allTasks
  parentPid t := (h'.parentPid t).trans (h.parentPid t)
  mask t := (h'.mask t).trans (h.mask t)
  pending t pos hpos := h'.pending t pos (h.pending t pos hpos)
  blocked t hblocked := h.blocked t (h'.blocked t hblocked)
  waits t list hblocked hwaiting :=
    h'.waits t list hblocked (h.waits t list (h'.blocked t hblocked) hwaiting)

/-- A change of one task. -/
theorem Rouses.modify {f : TaskControlBlock → TaskControlBlock}
    (hparent : (f (s.tasks t)).parentPid = (s.tasks t).parentPid)
    (hmask : (f (s.tasks t)).signalMask = (s.tasks t).signalMask)
    (hpending : ∀ pos, (s.tasks t).pendingSignals.getLsbD pos = true →
      (f (s.tasks t)).pendingSignals.getLsbD pos = true)
    (hblocked : (f (s.tasks t)).state = .blocked → (s.tasks t).state = .blocked) :
    Rouses s (s.modify t f) := by
  have hself : (s.modify t f).tasks t = f (s.tasks t) := Function.update_self ..
  have hother : ∀ u, u ≠ t → (s.modify t f).tasks u = s.tasks u := fun u hu =>
    Function.update_of_ne hu ..
  refine ⟨rfl, fun u => ?_, fun u => ?_, fun u pos hpos => ?_, fun u hu => ?_, fun _ _ _ => id⟩
  · by_cases hut : u = t
    · rw [hut, hself, hparent]
    · rw [hother u hut]
  · by_cases hut : u = t
    · rw [hut, hself, hmask]
    · rw [hother u hut]
  · by_cases hut : u = t
    · rw [hut] at hpos ⊢
      rw [hself]
      exact hpending pos hpos
    · rwa [hother u hut]
  · by_cases hut : u = t
    · rw [hut] at hu ⊢
      rw [hself] at hu
      exact hblocked hu
    · rwa [hother u hut] at hu

/-- A change of the lists that concerns one task, which is not blocked. -/
theorem Rouses.queues {queues : Intrusive Queue TaskId} (hready : (s.tasks t).state ≠ .blocked)
    (howner : ∀ u, u ≠ t → queues.owner u = s.queues.owner u) : Rouses s { s with queues } := by
  refine ⟨rfl, fun _ => rfl, fun _ => rfl, fun _ _ => id, fun _ => id,
    fun u list hblocked hwaiting => ?_⟩
  have hu : u ≠ t := by
    rintro rfl
    exact hready hblocked
  exact (howner u hu).trans hwaiting

theorem link_rouses (queue : Queue) (hready : (s.tasks t).state ≠ .blocked) :
    Ensures (fun _ => True) (fun s' => Rouses s s' ∧ s'.tasks = s.tasks) (s.link queue t) := by
  unfold System.link
  cases howner : s.queues.owner t with
  | none =>
      obtain ⟨queues, hpush, howner', _⟩ := Intrusive.pushBack_eq howner queue
      rw [hpush]
      refine ⟨.queues hready fun u hu => ?_, rfl⟩
      rw [howner', Function.update_of_ne hu]
  | some other =>
      have hnone : s.queues.pushBack queue t = none := by
        simp [Intrusive.pushBack, Intrusive.insertAt, howner]
      rw [hnone]
      trivial

theorem unlink_others (queue : Queue) :
    Ensures (fun _ => True) (fun s' => ∃ queues, s' = { s with queues } ∧
      ∀ u, u ≠ t → queues.owner u = s.queues.owner u) (s.unlink queue t) := by
  unfold System.unlink
  by_cases howner : s.queues.owner t = some queue
  · obtain ⟨queues, hextract, howner', _⟩ := Intrusive.extract_eq howner
    rw [hextract]
    refine ⟨queues, rfl, fun u hu => ?_⟩
    rw [howner', Function.update_of_ne hu]
  · have hnone : s.queues.extract queue t = none := by simp [Intrusive.extract, howner]
    rw [hnone]
    trivial

theorem unlink_rouses (queue : Queue) (hready : (s.tasks t).state ≠ .blocked) :
    Ensures (fun _ => True) (fun s' => Rouses s s' ∧ s'.tasks = s.tasks) (s.unlink queue t) := by
  refine (unlink_others queue).mono fun s' hs' => ?_
  obtain ⟨queues, rfl, hothers⟩ := hs'
  exact ⟨.queues hready hothers, rfl⟩

/-- A task that was to be woken is not blocked any more. -/
theorem wake_rouses (reason : WakeReason) :
    Ensures (fun _ => True) (fun s' => Rouses s s' ∧ (s'.tasks t).state ≠ .blocked ∧
      ∀ u, (s'.tasks u).wakeReason = .signal → (s.tasks u).wakeReason = .signal ∨ u = t)
      (s.wake t reason) := by
  unfold System.wake
  split
  · rename_i hstate
    exact ⟨.refl s, hstate, fun _ => Or.inl⟩
  dsimp only
  let s₁ := s.modify t fun tcb =>
    { tcb with state := .ready, blockReason := .unknown, wakeReason := reason }
  have hrouses₁ : Rouses s s₁ := .modify rfl rfl (fun _ => id) nofun
  have hready₁ : (s₁.tasks t).state ≠ .blocked := by simp [s₁, System.modify]
  have hreason₁ : ∀ u, (s₁.tasks u).wakeReason = .signal →
      (s.tasks u).wakeReason = .signal ∨ u = t := by
    intro u hwoken
    by_cases hu : u = t
    · exact Or.inr hu
    · simp only [s₁, System.modify, Function.update_of_ne hu] at hwoken
      exact Or.inl hwoken
  have hlink : ∀ s₂ : System, (s₂.tasks t).state ≠ .blocked → Rouses s s₂ →
      (∀ u, (s₂.tasks u).wakeReason = .signal → (s.tasks u).wakeReason = .signal ∨ u = t) →
      Ensures (fun _ => True) (fun s' => Rouses s s' ∧ (s'.tasks t).state ≠ .blocked ∧
        ∀ u, (s'.tasks u).wakeReason = .signal → (s.tasks u).wakeReason = .signal ∨ u = t)
        (s₂.link .pending t) := by
    intro s₂ hready₂ hrouses₂ hreason₂
    refine (link_rouses .pending hready₂).mono fun s' hs' => ⟨hrouses₂.trans hs'.1, ?_, ?_⟩
    · rw [hs'.2]
      exact hready₂
    · rw [hs'.2]
      exact hreason₂
  split
  · let s₂ := s₁.modify t fun tcb => { tcb with requestDetach := none }
    have hrouses₂ : Rouses s₁ s₂ := .modify rfl rfl (fun _ => id) id
    have htasks : ∀ u, (s₂.tasks u).state = (s₁.tasks u).state ∧
        (s₂.tasks u).wakeReason = (s₁.tasks u).wakeReason := by
      intro u
      by_cases hu : u = t
      · simp [s₂, System.modify, hu]
      · simp [s₂, System.modify, Function.update_of_ne hu]
    have hready₂ : (s₂.tasks t).state ≠ .blocked := by
      rw [(htasks t).1]
      exact hready₁
    refine Ensures.bind (unlink_rouses _ hready₂) fun s₃ hs₃ => hlink s₃ ?_ ?_ ?_
    · rw [hs₃.2]
      exact hready₂
    · exact (hrouses₁.trans hrouses₂).trans hs₃.1
    · intro u hwoken
      rw [hs₃.2, (htasks u).2] at hwoken
      exact hreason₁ u hwoken
  · exact hlink s₁ hready₁ hrouses₁ hreason₁

theorem wakeFront_rouses (queue : Queue) (reason : WakeReason) :
    Ensures (fun _ => True) (Rouses s) (s.wakeFront queue t reason) := by
  unfold System.wakeFront
  refine Ensures.bind (unlink_others queue) fun s₁ hs₁ => ?_
  obtain ⟨queues, rfl, hothers⟩ := hs₁
  let s₂ := { s with queues }.modify t fun tcb => { tcb with requestDetach := none }
  have hrouses₂ : Rouses { s with queues } s₂ := .modify rfl rfl (fun _ => id) id
  refine (wake_rouses reason).mono fun s' hs' => ?_
  obtain ⟨hrouses, hready, _⟩ := hs'
  have hall := hrouses₂.trans hrouses
  refine ⟨hall.allTasks, hall.parentPid, hall.mask, hall.pending, hall.blocked, fun u list hblocked hwaiting => ?_⟩
  have hu : u ≠ t := by
    rintro rfl
    exact hready hblocked
  exact hall.waits u list hblocked ((hothers u hu).trans hwaiting)

theorem wakeLoop_rouses (list : WaitId) (reason : WakeReason) (n : Nat) :
    Ensures (fun _ => True) (Rouses s) (System.wakeLoop list reason n s) := by
  induction n generalizing s with
  | zero => exact Rouses.refl s
  | succ n ih =>
      unfold System.wakeLoop
      split
      · exact Ensures.bind (wakeFront_rouses _ reason) fun s₁ hs₁ =>
          ih.mono fun _ hs' => hs₁.trans hs'
      · exact Rouses.refl s

/-- `wakeAll` leaves no task of the list blocked. -/
theorem wakeAll_rouses (list : WaitId) (reason : WakeReason) :
    Ensures (fun _ => True) (fun s' => Rouses s s' ∧
      ∀ u, Waiting s u list → (s'.tasks u).state ≠ .blocked) (s.wakeAll list reason) := by
  refine Ensures.mono (Ensures.and (wakeLoop_rouses list reason _) (wakeAll_clears s list reason))
    fun s' hs' => ⟨hs'.1, fun u hwaiting hblocked => ?_⟩
  exact hs'.2 u (hs'.1.waits u list hblocked hwaiting)

/-- `sendSignal` adds a signal, and wakes at most its task by it. -/
theorem sendSignal_cases (sig : Nat) :
    Ensures (fun _ => True) (fun s' => Rouses s s' ∧
      ∀ u, (s'.tasks u).wakeReason = .signal → (s.tasks u).wakeReason = .signal ∨
        u = t ∧ (s.tasks t).state = .blocked ∧
          (s.tasks t).signalMask &&& (1#64 <<< (sig - 1)) = 0#64 ∧
          ∀ pos, (1#64 <<< (sig - 1)).getLsbD pos = true →
            (s'.tasks t).pendingSignals.getLsbD pos = true) (s.sendSignal t sig) := by
  let s₁ := s.modify t fun tcb =>
    { tcb with pendingSignals := tcb.pendingSignals ||| (1#64 <<< (sig - 1)) }
  have hrouses₁ : Rouses s s₁ :=
    .modify rfl rfl (fun pos hpos => by simp [hpos]) id
  have hreason₁ : ∀ u, (s₁.tasks u).wakeReason = (s.tasks u).wakeReason := by
    intro u
    by_cases hu : u = t
    · simp [s₁, System.modify, hu]
    · simp [s₁, System.modify, Function.update_of_ne hu]
  have hsame : Rouses s s₁ ∧ ∀ u, (s₁.tasks u).wakeReason = .signal →
      (s.tasks u).wakeReason = .signal ∨ u = t ∧ (s.tasks t).state = .blocked ∧
        (s.tasks t).signalMask &&& (1#64 <<< (sig - 1)) = 0#64 ∧
        ∀ pos, (1#64 <<< (sig - 1)).getLsbD pos = true →
          (s₁.tasks t).pendingSignals.getLsbD pos = true :=
    ⟨hrouses₁, fun u hwoken => Or.inl (hreason₁ u ▸ hwoken)⟩
  unfold System.sendSignal
  split
  · exact ⟨.refl s, fun _ => Or.inl⟩
  dsimp only
  split
  · exact hsame
  rename_i hunmasked
  split
  · rename_i hblocked
    refine (wake_rouses .signal).mono fun s' hs' => ⟨hrouses₁.trans hs'.1, fun u hwoken => ?_⟩
    rcases hs'.2.2 u hwoken with hold | rfl
    · exact Or.inl (hreason₁ u ▸ hold)
    · refine Or.inr ⟨rfl, hblocked, not_not.mp hunmasked, fun pos hpos => hs'.1.pending u pos ?_⟩
      simp only [System.modify, Function.update_self, BitVec.getLsbD_or, hpos, Bool.or_true]
  · exact hsame

end Rouses

namespace ActionTables

variable {tables : ActionTables} {s s' : System} {t : TaskId} {sig : Nat}

theorem Heeds.rouses (h : tables.Heeds s t sig) (hrouses : Rouses s s') :
    tables.Heeds s' t sig := by
  intro hblocked hmask
  rw [hrouses.mask] at hmask
  refine (h (hrouses.blocked t hblocked) hmask).imp id fun hinterrupted => ?_
  exact hinterrupted.mono (hrouses.mask t) rfl (hrouses.pending t)

theorem Excused.rouses_of (h : tables.Excused s) (hrouses : Rouses s s')
    (hreason : (s.tasks t).wakeReason = .signal) : (tables.info s' t).Interrupted :=
  (h t hreason).mono (hrouses.mask t) rfl (hrouses.pending t)

/-- A signal that its task heeds leaves everyone excused. -/
theorem Excused.sendSignal (h : tables.Excused s) (hheeds : tables.Heeds s t sig)
    (hpos : 1 ≤ sig) (hsig : sig < NSIG) :
    Ensures (fun _ => True) (fun s' => Rouses s s' ∧ tables.Excused s') (s.sendSignal t sig) := by
  refine (sendSignal_cases sig).mono fun s' hs' => ⟨hs'.1, fun u hwoken => ?_⟩
  rcases hs'.2 u hwoken with hold | ⟨rfl, hblocked, hunmasked, hadded⟩
  · exact h.rouses_of hs'.1 hold
  rcases hheeds hblocked hunmasked with hinterrupts | hinterrupted
  · have hbit : (1#64 <<< (sig - 1)).getLsbD (sig - 1) = true := by
      unfold NSIG at hsig
      rw [BitVec.getLsbD_shiftLeft]
      simp only [Nat.sub_self, Nat.lt_irrefl, decide_false, Bool.not_false, Bool.and_true]
      have hlt : sig - 1 < 64 := by omega
      simp [hlt]
    have hclear : (s.tasks u).signalMask.getLsbD (sig - 1) = false := by
      have hand := congrArg (fun word => BitVec.getLsbD word (sig - 1)) hunmasked
      simpa [hbit] using hand
    refine ⟨sig, hpos, ?_, hinterrupts⟩
    simp only [TaskSignalInfo.restSignals, info, BitVec.getLsbD_and, BitVec.getLsbD_not,
      hs'.1.mask u, hclear, hadded _ hbit]
    have hlt : sig - 1 < 64 := BitVec.lt_of_getLsbD hbit
    simp [hlt]
  · exact hinterrupted.mono (hs'.1.mask u) rfl (hs'.1.pending u)

/-- What an exit asks of the tasks that get `SIGCHLD`. The parent is first woken
from `waitpid`, if it is there. -/
structure ExitHeeds (tables : ActionTables) (s : System) : Prop where
  init : s.children.items s.current ≠ [] → ∀ init, s.allTasks KP_Init = some init →
    tables.Heeds s init SIGCHLD
  parent : ∀ parent, s.findTask (s.tasks s.current).parentPid = some parent →
    ¬ Waiting s parent (.childs parent) → tables.Heeds s parent SIGCHLD

theorem Excused.adoptChildren (h : tables.Excused s)
    (hinit : s.children.items t ≠ [] → ∀ init, s.allTasks KP_Init = some init →
      tables.Heeds s init SIGCHLD) :
    Ensures (fun _ => True) (fun s' => Rouses s s' ∧ tables.Excused s') (s.adoptChildren t) := by
  unfold System.adoptChildren
  split
  · exact ⟨.refl s, h⟩
  rename_i hchildren
  split
  · rename_i init hfound
    let s₁ := { s with children := s.children.splice t init }
    have hrouses₁ : Rouses s s₁ :=
      ⟨rfl, fun _ => rfl, fun _ => rfl, fun _ _ => id, fun _ => id, fun _ _ _ => id⟩
    have hexcused₁ : tables.Excused s₁ := h
    have hheeds₁ : tables.Heeds s₁ init SIGCHLD := hinit hchildren init hfound
    exact (hexcused₁.sendSignal hheeds₁ (by decide) (by decide)).mono fun _ hs' =>
      ⟨hrouses₁.trans hs'.1, hs'.2⟩
  · trivial

theorem Excused.notifyParent (h : tables.Excused s)
    (hparent : ∀ parent, s.findTask (s.tasks t).parentPid = some parent →
      (s.tasks parent).state = .blocked → ¬ Waiting s parent (.childs parent) →
      tables.Heeds s parent SIGCHLD) :
    Ensures (fun _ => True) (tables.Excused ·) (s.notifyParent t) := by
  unfold System.notifyParent
  split
  · rename_i parent hfound
    refine Ensures.bind (Ensures.and (wakeAll_rouses (.childs parent) .normal)
      (wakeLoop_calms s (.childs parent) _)) fun s₁ hs₁ => ?_
    obtain ⟨⟨hrouses, hwoken⟩, hcalm⟩ := hs₁
    have hheeds : tables.Heeds s₁ parent SIGCHLD := by
      intro hblocked
      have hnotWaiting : ¬ Waiting s parent (.childs parent) := fun hwaiting =>
        hwoken parent hwaiting hblocked
      exact (hparent parent hfound (hrouses.blocked parent hblocked) hnotWaiting).rouses hrouses
        hblocked
    exact (Excused.sendSignal (h.calm hcalm) hheeds (by decide) (by decide)).mono fun _ hs' => hs'.2
  · exact h

theorem Excused.exit (h : tables.Excused s) (hheeds : tables.ExitHeeds s) (code sig : BitVec 32) :
    Ensures (fun _ => True) (tables.Excused ·) (s.exit code sig) := by
  simp only [System.exit]
  split
  · trivial
  let s₁ := s.modify s.current fun tcb =>
    { tcb with state := .exited, exitStat := (code <<< 8) ||| sig }
  have hrouses₁ : Rouses s s₁ := .modify rfl rfl (fun _ => id) (by simp)
  have hcalm₁ : Calm s s₁ := .modify rfl rfl id
  have hinit : s₁.children.items s.current ≠ [] → ∀ init, s₁.allTasks KP_Init = some init →
      tables.Heeds s₁ init SIGCHLD :=
    fun hchildren init hfound => (hheeds.init hchildren init hfound).rouses hrouses₁
  refine Ensures.bind (Excused.adoptChildren (h.calm hcalm₁) hinit) fun s₂ hs₂ => ?_
  have hrouses₂ := hrouses₁.trans hs₂.1
  refine Ensures.bind (Excused.notifyParent hs₂.2 ?_) fun s₃ hs₃ =>
    (leave_calms s₃).mono fun _ hcalm => hs₃.calm hcalm
  intro parent hfound hblocked hnotWaiting
  have hfound' : s.findTask (s.tasks s.current).parentPid = some parent := by
    rw [← hfound, hrouses₂.parentPid]
    unfold System.findTask
    rw [hrouses₂.allTasks]
  refine (hheeds.parent parent hfound' fun hwaiting => hnotWaiting ?_).rouses hrouses₂
  exact hrouses₂.waits parent _ hblocked hwaiting

end ActionTables

/-- The scheduler and the tables of actions. -/
structure Sleepers where
  sys : System
  tables : ActionTables

/-- The steps: an operation of the scheduler, the end of the `block` that the
current task is in, and a change of its signal state by `rt_sigprocmask`,
`rt_sigaction`, `checkSignal`, `sigreturn` or `execve`. -/
inductive WaitMove where
  | act (a : Action)
  | endWait
  | setSignals (info : TaskSignalInfo)

namespace Sleepers

/-- The table of a new task. -/
def newTable (m : Sleepers) : Action → ActionTables
  | .createTask => Function.update m.tables m.sys.nextTask none
  | .fork => Function.update m.tables m.sys.nextTask (m.tables m.sys.current)
  | _ => m.tables

def move (m : Sleepers) : WaitMove → Except Stop Sleepers
  | .act a => do return ⟨← Task.act m.sys a, m.newTable a⟩
  | .endWait => .ok { m with sys := m.sys.modify m.sys.current fun tcb =>
      { tcb with wakeReason := .normal } }
  | .setSignals info => .ok {
      sys := m.sys.modify m.sys.current fun tcb =>
        { tcb with pendingSignals := info.pendingSignals, signalMask := info.signalMask }
      tables := Function.update m.tables m.sys.current info.signalActions }

def step (m : Sleepers) (move : WaitMove) : Option Sleepers := (m.move move).toOption

/-- The reason that an action wakes tasks with, other than `sendSignal`. -/
def wakesNormally : Action → Prop
  | .wakeOne _ reason | .wakeAll _ reason | .wake _ reason => reason = .normal
  | _ => True

/-- The steps that can happen: only `sendSignal`, for a signal that exists, wakes
with `WR_Signal`, and a task that was woken so first ends its wait. -/
def Possible (m : Sleepers) : WaitMove → Prop
  | .act a => wakesNormally a ∧
      (match a with | .sendSignal _ sig => 1 ≤ sig ∧ sig < NSIG | _ => True) ∧
      (a.own = true → (m.sys.tasks m.sys.current).wakeReason = .normal)
  | .endWait => True
  | .setSignals _ => (m.sys.tasks m.sys.current).wakeReason = .normal

/-- The signals that are sent are heeded by the tasks that they wake. -/
def Heeded (m : Sleepers) : WaitMove → Prop
  | .act (.sendSignal t sig) => m.tables.Heeds m.sys t sig
  | .act (.exit _ _) => m.tables.ExitHeeds m.sys
  | _ => True

/-- The signal state of a task. -/
def info (m : Sleepers) (t : TaskId) : TaskSignalInfo := m.tables.info m.sys t

def boot : Sleepers := ⟨System.boot, fun _ => none⟩

variable {m m' : Sleepers}

theorem excused_act (h : m.tables.Excused m.sys) {a : Action} (hpossible : m.Possible (.act a))
    (hheeded : m.Heeded (.act a)) :
    Ensures (fun _ => True) (m.tables.Excused ·) (Task.act m.sys a) := by
  have hcalms : ∀ {r : Except Stop System}, Calms m.sys r →
      Ensures (fun _ => True) (m.tables.Excused ·) r :=
    fun hr => hr.mono fun _ hcalm => h.calm hcalm
  cases a with
  | createTask => exact hcalms (newTask_calms m.sys _)
  | addTask task => exact hcalms (addTask_calms m.sys task)
  | fork => exact hcalms (forkTask_calms m.sys)
  | yield => exact hcalms (yield_calms m.sys)
  | disableYield => exact hcalms (Calms.same (.of_tasks rfl))
  | enableYield => exact hcalms (enableYield_calms m.sys)
  | block reason => exact hcalms (block_calms m.sys reason)
  | sleep ms => exact hcalms (sleep_calms m.sys ms)
  | wait list reason => exact hcalms (wait_calms m.sys list reason)
  | wakeOne list reason =>
      obtain rfl : reason = .normal := hpossible.1
      exact hcalms (wakeOne_calms m.sys list)
  | wakeAll list reason =>
      obtain rfl : reason = .normal := hpossible.1
      exact hcalms (wakeLoop_calms m.sys list _)
  | wake task reason =>
      obtain rfl : reason = .normal := hpossible.1
      exact hcalms (wake_calms m.sys task)
  | checkSleep => exact hcalms (checkSleep_calms m.sys)
  | tick => exact hcalms ((checkSleep_calms _).after (.of_tasks rfl))
  | sendSignal task sig =>
      exact (h.sendSignal hheeded hpossible.2.1.1 hpossible.2.1.2).mono fun _ hs' => hs'.2
  | exit code sig => exact h.exit hheeded code sig
  | waitpid pid options =>
      exact Ensures.bind (waitpid_calms m.sys pid options) fun r hcalm => h.calm hcalm

/-- The new table belongs to a task that was not woken by a signal. -/
theorem newTable_excused (m : Sleepers) (a : Action) :
    Ensures (fun _ => True) (fun s' => m.tables.Excused s' → (m.newTable a).Excused s')
      (Task.act m.sys a) := by
  have hfresh : ∀ {r : Except Stop System} (table : Option (Nat → SigAction)),
      Ensures (fun _ => True) (fun s' => (s'.tasks m.sys.nextTask).wakeReason = .normal) r →
      Ensures (fun _ => True) (fun s' => m.tables.Excused s' →
        ActionTables.Excused (Function.update m.tables m.sys.nextTask table) s') r := by
    intro r table hr
    refine hr.mono fun s' hnormal hexcused t hreason => ?_
    have ht : t ≠ m.sys.nextTask := by
      rintro rfl
      rw [hnormal] at hreason
      cases hreason
    exact (hexcused t hreason).mono rfl (Function.update_of_ne ht ..) fun _ => id
  have hsame : ∀ {r : Except Stop System},
      Ensures (fun _ => True) (fun s' => m.tables.Excused s' → m.tables.Excused s') r := by
    intro r
    cases r with
    | ok s' => exact id
    | error e => trivial
  cases a with
  | createTask => exact hfresh none (newTask_normal m.sys _)
  | fork => exact hfresh _ (forkTask_normal m.sys)
  | _ => exact hsame

theorem excused_step (h : m.tables.Excused m.sys) {move : WaitMove} (hpossible : m.Possible move)
    (hheeded : m.Heeded move) (heq : m.step move = some m') : m'.tables.Excused m'.sys := by
  cases move with
  | act a =>
      have hboth := Ensures.and (excused_act h hpossible hheeded) (newTable_excused m a)
      simp only [step, Sleepers.move] at heq
      cases hact : Task.act m.sys a with
      | error e =>
          rw [hact] at heq
          cases heq
      | ok s' =>
          rw [hact] at heq hboth
          obtain rfl := Option.some.inj heq
          exact hboth.2 hboth.1
  | endWait =>
      obtain rfl := Option.some.inj heq
      have hcalm : Calm m.sys (m.sys.modify m.sys.current fun tcb =>
          { tcb with wakeReason := .normal }) := .modify rfl rfl nofun
      exact h.calm hcalm
  | setSignals info =>
      obtain rfl := Option.some.inj heq
      intro t hreason
      have ht : t ≠ m.sys.current := by
        rintro rfl
        have hnormal : (m.sys.tasks m.sys.current).wakeReason = .normal := hpossible
        simp [System.modify, hnormal] at hreason
      simp only [System.modify, Function.update_of_ne ht] at hreason
      simpa [ActionTables.info, System.modify, Function.update_of_ne ht] using h t hreason

/-- In every run in which each signal sent to a blocked task is one that it heeds,
a task that is woken from a wait with `WR_Signal` has a signal that is pending, not
masked and not ignored. -/
theorem run_wake_interrupted {moves : List WaitMove}
    (hrun : Run step (fun m move => m.Possible move ∧ m.Heeded move) boot moves m) {t : TaskId}
    (hreason : (m.sys.tasks t).wakeReason = .signal) : (m.info t).Interrupted := by
  have hexcused : m.tables.Excused m.sys := by
    refine hrun.invariant (P := fun m => m.tables.Excused m.sys) ?_ ?_
    · intro m move m' h hok heq
      exact excused_step h hok.1 hok.2 heq
    · intro t hboot
      simp only [boot, System.boot] at hboot
      split_ifs at hboot
  exact hexcused t hreason

/-- `init` starts a task and waits on a pipe, and the task gets the processor. -/
theorem boot_waits_on_pipe : ∃ m, Run step (fun m move => m.Possible move ∧ m.Heeded move) boot
      [.act .createTask, .act (.addTask 2), .act (.wait (.other 0) .waitInput)] m ∧
    (m.tables 0).isNone = true ∧
    (m.sys.tasks m.sys.current).wakeReason = .normal ∧
    (∃ m' ∈ m.step (.act (.sendSignal 0 15)), (m'.sys.tasks 0).wakeReason = .signal) ∧
    ∃ m' ∈ m.step (.act (.exit 0#32 0#32)), m'.sys.current = 0 ∧
      (m'.sys.tasks 0).wakeReason = .signal ∧ (m'.sys.tasks 0).pendingSignals = sigBit SIGCHLD ∧
      (m'.tables 0).isNone = true := by
  obtain ⟨m₁, h₁, hnormal₁, m₂, h₂, hnormal₂, m₃, h₃, hfacts⟩ :
      ∃ m₁ ∈ boot.step (.act .createTask), (m₁.sys.tasks m₁.sys.current).wakeReason = .normal ∧
      ∃ m₂ ∈ m₁.step (.act (.addTask 2)), (m₂.sys.tasks m₂.sys.current).wakeReason = .normal ∧
      ∃ m₃ ∈ m₂.step (.act (.wait (.other 0) .waitInput)), (m₃.tables 0).isNone = true ∧
        (m₃.sys.tasks m₃.sys.current).wakeReason = .normal ∧
        (∃ m' ∈ m₃.step (.act (.sendSignal 0 15)), (m'.sys.tasks 0).wakeReason = .signal) ∧
        ∃ m' ∈ m₃.step (.act (.exit 0#32 0#32)), m'.sys.current = 0 ∧
          (m'.sys.tasks 0).wakeReason = .signal ∧
          (m'.sys.tasks 0).pendingSignals = sigBit SIGCHLD ∧ (m'.tables 0).isNone = true := by
    decide +kernel
  have hempty : Run step (fun m move => m.Possible move ∧ m.Heeded move) boot [] boot := Run.nil _
  have hcreated := hempty.snoc (a := WaitMove.act .createTask)
    ⟨⟨trivial, trivial, fun _ => rfl⟩, trivial⟩ h₁
  have hadded := hcreated.snoc (a := WaitMove.act (.addTask 2))
    ⟨⟨trivial, trivial, fun _ => hnormal₁⟩, trivial⟩ h₂
  have hwaits := hadded.snoc (a := WaitMove.act (.wait (.other 0) .waitInput))
    ⟨⟨trivial, trivial, fun _ => hnormal₂⟩, trivial⟩ h₃
  exact ⟨m₃, hwaits, hfacts⟩

/-- `init` is woken by `SIGTERM`, which it does not ignore. -/
theorem run_wake_interrupted_by_term :
    ∃ moves m, moves.length = 4 ∧
      Run step (fun m move => m.Possible move ∧ m.Heeded move) boot moves m ∧
      (m.sys.tasks 0).wakeReason = .signal ∧ (m.info 0).Interrupted := by
  obtain ⟨m, hrun, htable, hnormal, ⟨m', hsent, hreason⟩, _⟩ := boot_waits_on_pipe
  have hnone : m.tables 0 = none := Option.isNone_iff_eq_none.mp htable
  have hheeds : m.tables.Heeds m.sys 0 15 := by
    intro _ _
    left
    simp only [TaskSignalInfo.isInterrupted, ActionTables.info, hnone]
    decide
  have hall := hrun.snoc (a := WaitMove.act (.sendSignal 0 15))
    ⟨⟨trivial, ⟨by decide, by decide⟩, fun _ => hnormal⟩, hheeds⟩ hsent
  exact ⟨_, m', rfl, hall, hreason, run_wake_interrupted hall hreason⟩

/-- The task exits while `init` waits on the pipe. The wait ends with `WR_Signal`,
and the only signal that is pending is `SIGCHLD`, which `init` ignores. -/
theorem child_exit_interrupts_pipe_read :
    ∃ moves m, Run step Possible boot moves m ∧ m.sys.current = 0 ∧
      (m.sys.tasks 0).wakeReason = .signal ∧ ¬ (m.info 0).Interrupted := by
  obtain ⟨m, hrun, _, hnormal, _, m', hexit, hcurrent, hreason, hpending, htable⟩ :=
    boot_waits_on_pipe
  have hpossible : Run step Possible boot _ m := hrun.mono fun _ _ hok => hok.1
  have hexited := hpossible.snoc (a := WaitMove.act (.exit 0#32 0#32))
    ⟨trivial, trivial, fun _ => hnormal⟩ hexit
  refine ⟨_, m', hexited, hcurrent, hreason, ?_⟩
  rintro ⟨sig, hpos, hrest, hinterrupted⟩
  have hbit : (sigBit SIGCHLD).getLsbD (sig - 1) = true := by
    simp only [info, ActionTables.info, TaskSignalInfo.restSignals, BitVec.getLsbD_and,
      Bool.and_eq_true, hpending] at hrest
    exact hrest.1
  obtain rfl : sig = SIGCHLD := by
    rw [getLsbD_sigBit] at hbit
    simp only [Bool.and_eq_true, decide_eq_true_eq] at hbit
    unfold SIGCHLD at hbit ⊢
    omega
  have hnone : m'.tables 0 = none := Option.isNone_iff_eq_none.mp htable
  simp [TaskSignalInfo.isInterrupted, info, ActionTables.info, hnone, isSignalDefaultIgnore,
    SIGCHLD] at hinterrupted

end Sleepers

end Nyan.Task
