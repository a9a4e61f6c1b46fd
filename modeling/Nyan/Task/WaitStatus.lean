import Nyan.Task.Lineage
import Nyan.Task.SignalCalls

/-!
The status of a task that has ended, from `exit` to what the caller of `waitpid` makes of
it with the macros of `sys/wait.h`. A task that a signal ends is stored with the exit code
255 beside the signal, and for the macros such a status is neither that of a task that
exited nor that of one that a signal ended.
-/

namespace Nyan.Task

open Library

/-- Every status that was there is still there. -/
structure Recorded (s s' : System) : Prop where
  nextTask : s.nextTask ≤ s'.nextTask
  exitStat : ∀ t, t < s.nextTask → (s'.tasks t).exitStat = (s.tasks t).exitStat

/-- An operation leaves the statuses alone, unless it fails. -/
def Records (s : System) (r : Except Stop System) : Prop :=
  Ensures (fun _ => True) (Recorded s) r

variable {s s₁ s' : System} {t : TaskId}

theorem Recorded.refl (s : System) : Recorded s s := ⟨le_rfl, fun _ _ => rfl⟩

theorem Recorded.trans (h : Recorded s s₁) (h' : Recorded s₁ s') : Recorded s s' where
  nextTask := h.nextTask.trans h'.nextTask
  exitStat t ht := (h'.exitStat t (Nat.lt_of_lt_of_le ht h.nextTask)).trans (h.exitStat t ht)

theorem Recorded.modify {f : TaskControlBlock → TaskControlBlock}
    (h : ∀ tcb, (f tcb).exitStat = tcb.exitStat) : Recorded s (s.modify t f) := by
  refine ⟨le_rfl, fun u _ => ?_⟩
  by_cases hu : u = t
  · subst hu
    simp [System.modify, h]
  · simp [System.modify, Function.update_of_ne hu]

namespace Records

variable {r : Except Stop System} {next : System → Except Stop System}

theorem after (h : Recorded s s₁) (hr : Records s₁ r) : Records s r :=
  hr.mono fun _ hs => h.trans hs

theorem of_modify {f : TaskControlBlock → TaskControlBlock} (hr : Records (s.modify t f) r)
    (h : ∀ tcb, (f tcb).exitStat = tcb.exitStat) : Records s r :=
  hr.after (Recorded.modify h)

theorem of_same (hr : Records s₁ r) (hnext : s₁.nextTask = s.nextTask)
    (htasks : s₁.tasks = s.tasks) : Records s r :=
  hr.after ⟨hnext.ge, fun _ _ => by rw [htasks]⟩

theorem bind (h : Records s r) (hnext : ∀ s₁, Records s₁ (next s₁)) : Records s (r >>= next) :=
  Ensures.bind h fun s₁ hs₁ => (hnext s₁).after hs₁

end Records

variable (s t)

theorem link_records (queue : Queue) : Records s (s.link queue t) := by
  unfold System.link
  split
  · exact ⟨le_rfl, fun _ _ => rfl⟩
  · trivial

theorem unlink_records (queue : Queue) : Records s (s.unlink queue t) := by
  unfold System.unlink
  split
  · exact ⟨le_rfl, fun _ _ => rfl⟩
  · trivial

theorem switchToTask_recorded : Recorded s (s.switchToTask t) := by
  have hmodify : Recorded { s with current := t } (s.switchToTask t) := Recorded.modify fun _ => rfl
  exact ⟨hmodify.nextTask, hmodify.exitStat⟩

theorem wake_records (reason : WakeReason) : Records s (s.wake t reason) := by
  have hpending : ∀ s₂ : System, Records s₂ (s₂.link .pending t) := fun s₂ => link_records s₂ t _
  unfold System.wake
  split
  · exact Recorded.refl s
  split
  · refine Records.bind ?_ hpending
    refine Records.of_modify (t := t) (Records.of_modify (unlink_records _ t _) ?_) ?_
    · exact fun _ => rfl
    · exact fun _ => rfl
  · exact Records.of_modify (hpending _) fun _ => rfl

theorem requeueCurrent_records : Records s s.requeueCurrent := by
  unfold System.requeueCurrent
  split
  · split
    · exact (link_records _ _ _).of_modify fun _ => rfl
    · exact Recorded.modify fun _ => rfl
  · exact Recorded.refl s

theorem switchToIdle_records : Records s s.switchToIdle := by
  unfold System.switchToIdle
  split
  · exact switchToTask_recorded s _
  · trivial

theorem yield_records : Records s s.yield := by
  unfold System.yield
  split
  · exact ⟨le_rfl, fun _ _ => rfl⟩
  split
  · exact (unlink_records s _ _).bind fun s₁ =>
      (requeueCurrent_records s₁).bind fun s₂ => switchToTask_recorded s₂ _
  · split
    · exact switchToIdle_records s
    · exact Recorded.refl s

theorem block_records (reason : BlockReason) : Records s (s.block reason) := by
  unfold System.block
  split
  · trivial
  · exact (yield_records _).of_modify fun _ => rfl

theorem enableYield_records : Records s s.enableYield := by
  simp only [System.enableYield]
  split
  · exact (yield_records _).of_same rfl rfl
  · exact ⟨le_rfl, fun _ _ => rfl⟩

theorem sleep_records (ms : BitVec 64) : Records s (s.sleep ms) := by
  simp only [System.sleep]
  split
  · trivial
  split
  · trivial
  · rename_i queues _
    let timed := s.modify s.current fun tcb => { tcb with sleepTime := s.msSinceBoot + ms }
    have htimed : Recorded s timed := Recorded.modify fun _ => rfl
    have hlinked : Recorded s { timed with queues } := ⟨htimed.nextTask, htimed.exitStat⟩
    exact Records.after hlinked (Records.of_modify (block_records _ _) fun _ => rfl)

theorem wait_records (list : WaitId) (reason : BlockReason) : Records s (s.wait list reason) := by
  unfold System.wait
  exact (link_records s _ _).bind fun s₁ => Records.of_modify (block_records _ _) fun _ => rfl

theorem wakeFront_records (queue : Queue) (reason : WakeReason) :
    Records s (s.wakeFront queue t reason) := by
  unfold System.wakeFront
  exact (unlink_records s t _).bind fun s₁ => Records.of_modify (wake_records _ t _) fun _ => rfl

theorem wakeOne_records (list : WaitId) (reason : WakeReason) :
    Records s (s.wakeOne list reason) := by
  unfold System.wakeOne
  split
  · exact wakeFront_records s _ _ reason
  · exact Recorded.refl s

theorem wakeLoop_records (list : WaitId) (reason : WakeReason) (n : Nat) :
    Records s (System.wakeLoop list reason n s) := by
  induction n generalizing s with
  | zero => exact Recorded.refl s
  | succ n ih =>
      unfold System.wakeLoop
      split
      · exact (wakeFront_records s _ _ reason).bind ih
      · exact Recorded.refl s

theorem sleepLoop_records (n : Nat) : Records s (System.sleepLoop n s) := by
  induction n generalizing s with
  | zero => exact Recorded.refl s
  | succ n ih =>
      unfold System.sleepLoop
      split
      · split
        · exact (wakeFront_records s _ _ .normal).bind ih
        · exact Recorded.refl s
      · exact Recorded.refl s

theorem checkSleep_records : Records s s.checkSleep := by
  unfold System.checkSleep
  refine (sleepLoop_records s _).bind fun s₁ => ?_
  split
  · exact yield_records s₁
  · exact Recorded.refl s₁

theorem sendSignal_records (sig : Nat) : Records s (s.sendSignal t sig) := by
  simp only [System.sendSignal]
  split
  · exact Recorded.refl s
  split
  · exact Recorded.modify fun _ => rfl
  split
  · exact Records.of_modify (wake_records _ t _) fun _ => rfl
  · exact Recorded.modify fun _ => rfl

theorem leave_records : Records s s.leave := by
  unfold System.leave
  split
  · exact (unlink_records s _ _).bind fun s₁ => switchToTask_recorded s₁ _
  · exact switchToIdle_records s

theorem adoptChildren_records : Records s (s.adoptChildren t) := by
  unfold System.adoptChildren
  split
  · exact Recorded.refl s
  split
  · exact (sendSignal_records _ _ _).of_same rfl rfl
  · trivial

theorem notifyParent_records : Records s (s.notifyParent t) := by
  unfold System.notifyParent
  split
  · exact (wakeLoop_records s _ _ _).bind fun s₁ => sendSignal_records s₁ _ _
  · exact Recorded.refl s

theorem newTask_records (mask : BitVec 64) : Records s (s.newTask mask) := by
  unfold System.newTask
  split
  · trivial
  · refine ⟨Nat.le_succ _, fun u hu => ?_⟩
    simp [Function.update_of_ne (Nat.ne_of_lt hu)]

theorem allocPid_recorded : Recorded s (s.allocPid t) := by
  unfold System.allocPid
  split
  · rename_i p _
    have hmodify : Recorded { s with allTasks := Function.update s.allTasks (p : Int) (some t) }
        (System.modify { s with allTasks := Function.update s.allTasks (p : Int) (some t) } t
          fun tcb => { tcb with pid := (p : Int) }) := Recorded.modify fun _ => rfl
    exact ⟨hmodify.nextTask, hmodify.exitStat⟩
  · exact Recorded.refl s

theorem addTask_records : Records s (s.addTask t) := by
  unfold System.addTask
  refine (link_records s t _).bind fun s₁ => ?_
  have hhanded : Recorded s₁ { s₁ with handed := Function.update s₁.handed t true } :=
    ⟨le_rfl, fun _ _ => rfl⟩
  refine hhanded.trans ?_
  split
  · exact allocPid_recorded _ t
  · exact Recorded.refl _

theorem forkTask_records : Records s s.forkTask := by
  unfold System.forkTask
  refine (newTask_records s _).bind fun s₁ => (addTask_records s₁ _).bind fun s₂ => ?_
  split
  · trivial
  · exact Recorded.refl s₂

/-- What a free returns is the status that the task was stored with. -/
theorem freeTask_stat (pid : Int) :
    Ensures (fun _ => True) (fun r => Recorded s r.2 ∧ ∀ stat, r.1 = some stat →
      ∃ task, s.allTasks pid = some task ∧ (s.tasks task).state = .exited ∧
        stat = (s.tasks task).exitStat) (s.freeTask pid) := by
  unfold System.freeTask
  split
  · trivial
  split
  · exact ⟨Recorded.refl s, by simp⟩
  rename_i task htask
  split
  · exact ⟨Recorded.refl s, by simp⟩
  rename_i hexited
  split
  · trivial
  split
  · trivial
  · refine ⟨⟨le_rfl, fun _ _ => rfl⟩, fun stat hstat => ?_⟩
    exact ⟨task, htask, by simpa using hexited, (Option.some.inj hstat).symm⟩

/-- A result of `waitpid` for a child is the status that the child was stored with. -/
structure Returned (s : System) (r : System.WaitResult × System) : Prop where
  recorded : Recorded s r.2
  stored : ∀ p stat, r.1 = .returns (.ok (p, some stat)) → p ≠ 0 → ∃ task,
    s.allTasks p = some task ∧ (s.tasks task).state = .exited ∧ stat = (s.tasks task).exitStat

theorem reap_returned (pid : Int) :
    Ensures (fun _ => True) (Returned s) (s.reap pid) := by
  unfold System.reap
  refine Ensures.bind (freeTask_stat s pid) ?_
  rintro ⟨freed, s₁⟩ ⟨hrecorded, hstat⟩
  refine ⟨hrecorded, fun p stat hreturns _ => ?_⟩
  obtain ⟨rfl, rfl⟩ : pid = p ∧ freed = some stat := by simpa using hreturns
  exact hstat stat rfl

theorem waitForChild_returned (pid : Int) (options : BitVec 32) :
    Ensures (fun _ => True) (Returned s) (s.waitForChild pid options) := by
  unfold System.waitForChild
  split
  · exact ⟨Recorded.refl s, by simp⟩
  · have hwait : Records s ((s.modify s.current fun tcb => { tcb with waitPid := pid }).wait
        (.childs s.current) .waitTask) := Records.of_modify (wait_records _ _ _) fun _ => rfl
    exact Ensures.bind hwait fun _ hs => ⟨hs, by simp⟩

theorem waitpid_returned (pid : Int) (options : BitVec 32) :
    Ensures (fun _ => True) (Returned s) (s.waitpid pid options) := by
  have herror : ∀ err : Errno, Returned s (.returns (.error err), s) :=
    fun _ => ⟨Recorded.refl s, by simp⟩
  unfold System.waitpid
  split
  · exact herror _
  split
  · exact herror _
  split
  · split
    · exact herror _
    split
    · exact reap_returned s _
    · exact waitForChild_returned s pid options
  split
  · exact herror _
  split
  · exact herror _
  split
  · exact herror _
  split
  · exact waitForChild_returned s pid options
  · exact reap_returned s _

/-- `exit` stores the status of the current task. -/
theorem exit_stat (code sig : BitVec 32) :
    Ensures (fun _ => True) (fun s' => s.nextTask ≤ s'.nextTask ∧ ∀ t, t < s.nextTask →
      (s'.tasks t).exitStat = if t = s.current then (code <<< 8) ||| sig
        else (s.tasks t).exitStat) (s.exit code sig) := by
  simp only [System.exit]
  split
  · trivial
  · have hrest : ∀ s₁ : System, Records s₁ (do
        let s₂ ← s₁.adoptChildren s.current
        let s₃ ← s₂.notifyParent s.current
        s₃.leave) := fun s₁ =>
      (adoptChildren_records s₁ _).bind fun s₂ =>
        (notifyParent_records s₂ _).bind fun s₃ => leave_records s₃
    refine Ensures.mono (hrest _) fun s' hs' => ⟨hs'.nextTask, fun u hu => ?_⟩
    rw [hs'.exitStat u hu]
    by_cases hcurrent : u = s.current
    · subst hcurrent
      simp [System.modify]
    · simp [System.modify, hcurrent]

def Action.isExit : Action → Bool
  | .exit _ _ => true
  | _ => false

/-- No action but `exit` touches a status. -/
theorem act_records {a : Action} (ha : a.isExit = false) : Records s (act s a) := by
  cases a with
  | createTask => exact newTask_records s _
  | addTask task => exact addTask_records s task
  | fork => exact forkTask_records s
  | yield => exact yield_records s
  | disableYield => exact ⟨le_rfl, fun _ _ => rfl⟩
  | enableYield => exact enableYield_records s
  | block reason => exact block_records s reason
  | sleep ms => exact sleep_records s ms
  | wait list reason => exact wait_records s list reason
  | wakeOne list reason => exact wakeOne_records s list reason
  | wakeAll list reason => exact wakeLoop_records s list reason _
  | wake task reason => exact wake_records s task reason
  | checkSleep => exact checkSleep_records s
  | tick => exact (checkSleep_records _).of_same rfl rfl
  | sendSignal task sig => exact sendSignal_records s task sig
  | exit code sig => cases ha
  | waitpid pid options =>
      exact Ensures.bind (waitpid_returned s pid options) fun _ hr => hr.recorded

/-! ### The macros of `sys/wait.h` -/

def WEXITSTATUS (s : BitVec 32) : BitVec 32 := (s &&& 0xff00#32) >>> 8

def WTERMSIG (s : BitVec 32) : BitVec 32 := s &&& 0x7f#32

def WIFEXITED (s : BitVec 32) : Bool := WTERMSIG s == 0#32

def WIFSIGNALED (s : BitVec 32) : Bool := (s &&& 0xffff#32) - 1#32 < 0xff#32

/-- How a task ends: by `exit` or `exit_group`, by the default action of a signal, or by a
frame that `sigreturn` rejects. -/
inductive Ending where
  | exit (code : BitVec 32)
  | signal (sig : Nat)
  | rejected
  deriving DecidableEq, Repr

namespace Ending

/-- The code and the signal that `Scheduler::exit` is called with. -/
def call : Ending → BitVec 32 × BitVec 32
  | .exit code => (code, 0#32)
  | .signal sig => (255#32, BitVec.ofNat 32 sig)
  | .rejected => (255#32, BitVec.ofNat 32 SIGSEGV)

/-- The signals that end a task by their default action. -/
def Happens : Ending → Prop
  | .signal sig => 1 ≤ sig ∧ sig ≤ 64 ∧ isSignalDefaultIgnore sig = false
  | .exit _ | .rejected => True

instance : (e : Ending) → Decidable e.Happens
  | .signal _ => inferInstanceAs (Decidable (_ ∧ _ ∧ _))
  | .exit _ | .rejected => inferInstanceAs (Decidable True)

def isExit : Ending → Bool
  | .exit _ => true
  | .signal _ | .rejected => false

/-- The macros tell what happened. -/
def Decodes (stat : BitVec 32) : Ending → Prop
  | .exit code => WIFEXITED stat = true ∧ WIFSIGNALED stat = false ∧
      WEXITSTATUS stat = code % 256#32
  | .signal sig => WIFSIGNALED stat = true ∧ WIFEXITED stat = false ∧
      WTERMSIG stat = BitVec.ofNat 32 sig
  | .rejected => WIFSIGNALED stat = true ∧ WIFEXITED stat = false ∧
      WTERMSIG stat = BitVec.ofNat 32 SIGSEGV

def status (e : Ending) : BitVec 32 := (e.call.1 <<< 8) ||| e.call.2

theorem toNat_WTERMSIG (stat : BitVec 32) : (WTERMSIG stat).toNat = stat.toNat % 128 := by
  rw [WTERMSIG, BitVec.toNat_and]
  exact Nat.and_two_pow_sub_one_eq_mod stat.toNat 7

theorem toNat_WEXITSTATUS (stat : BitVec 32) :
    (WEXITSTATUS stat).toNat = stat.toNat / 256 % 256 := by
  rw [WEXITSTATUS, BitVec.toNat_ushiftRight, BitVec.toNat_and, Nat.shiftRight_and_distrib,
    Nat.shiftRight_eq_div_pow]
  exact Nat.and_two_pow_sub_one_eq_mod (stat.toNat / 256) 8

theorem WIFSIGNALED_iff (stat : BitVec 32) :
    WIFSIGNALED stat = true ↔ 1 ≤ stat.toNat % 65536 ∧ stat.toNat % 65536 ≤ 255 := by
  have hlow : (stat &&& 0xffff#32).toNat = stat.toNat % 65536 := by
    rw [BitVec.toNat_and]
    exact Nat.and_two_pow_sub_one_eq_mod stat.toNat 16
  rw [WIFSIGNALED, decide_eq_true_iff, BitVec.lt_def, BitVec.toNat_sub, hlow]
  simp only [BitVec.toNat_ofNat]
  omega

/-- The code is in the second byte, and the byte of the signal is empty. -/
theorem decodes_exit (code : BitVec 32) : (Ending.exit code).Decodes (Ending.exit code).status := by
  have hstat : ((Ending.exit code).status).toNat = code.toNat * 256 % 2 ^ 32 := by
    simp only [status, call, BitVec.or_zero, BitVec.toNat_shiftLeft, Nat.shiftLeft_eq]
  refine ⟨?_, ?_, ?_⟩
  · rw [WIFEXITED, beq_iff_eq]
    refine BitVec.eq_of_toNat_eq ?_
    rw [toNat_WTERMSIG, hstat, BitVec.toNat_ofNat]
    omega
  · rw [← Bool.not_eq_true, WIFSIGNALED_iff, hstat]
    omega
  · refine BitVec.eq_of_toNat_eq ?_
    rw [toNat_WEXITSTATUS, hstat, BitVec.toNat_umod, show (256#32).toNat = 256 from rfl]
    omega

/-- With the code 255 in the second byte, no status is that of a signal. -/
theorem not_WIFSIGNALED : ∀ sig ≤ 64, WIFSIGNALED ((255#32 <<< 8) ||| BitVec.ofNat 32 sig) = false := by
  decide +kernel

theorem decodes_iff {e : Ending} (h : e.Happens) : e.Decodes e.status ↔ e.isExit = true := by
  cases e with
  | exit code => exact iff_of_true (decodes_exit code) rfl
  | signal sig =>
      refine iff_of_false (fun hdecodes => ?_) (by simp [isExit])
      have hnot := not_WIFSIGNALED sig h.2.1
      exact absurd hdecodes.1 (by simpa [status, call] using hnot)
  | rejected =>
      refine iff_of_false (fun hdecodes => ?_) (by simp [isExit])
      exact absurd hdecodes.1 (by decide)

theorem of_sigreturn {task : SignalTask} {frame : SyscallFrame} {code sig : Nat}
    (h : sigreturn task frame = .error (.exit code sig)) :
    Ending.rejected.call = (BitVec.ofNat 32 code, BitVec.ofNat 32 sig) := by
  have hcall : ∀ {stop : SignalStop}, stop = .exit 255 SIGSEGV → stop = .exit code sig →
      Ending.rejected.call = (BitVec.ofNat 32 code, BitVec.ofNat 32 sig) := by
    rintro _ rfl heq
    obtain ⟨rfl, rfl⟩ := SignalStop.exit.inj heq
    rfl
  unfold sigreturn at h
  dsimp only at h
  split at h
  · simp at h
  split at h
  · exact hcall rfl (Except.error.inj h)
  split at h
  · simp at h
  · exact hcall rfl (Except.error.inj h)
  · simp at h

end Ending

/-- The scheduler, and how the tasks that have ended did so. -/
structure EndingSystem where
  sys : System
  endings : TaskId → Option Ending

/-- The current task ends, or any other operation. -/
inductive EndingMove where
  | finish (e : Ending)
  | other (a : Action)

namespace EndingSystem

def move (m : EndingSystem) : EndingMove → Except Stop EndingSystem
  | .finish e => do
      return ⟨← m.sys.exit e.call.1 e.call.2, Function.update m.endings m.sys.current (some e)⟩
  | .other a => do return { m with sys := ← act m.sys a }

def step (m : EndingSystem) (a : EndingMove) : Option EndingSystem := (m.move a).toOption

def boot : EndingSystem := ⟨System.boot, fun _ => none⟩

/-- The steps that can happen; `exit` is called in the ways that have names. -/
def Possible (m : EndingSystem) : EndingMove → Prop
  | .finish e => e.Happens ∧ (m.sys.tasks m.sys.current).pid ≠ KP_Idle
  | .other a => Permitted m.sys a ∧ a.isExit = false

instance (m : EndingSystem) : (a : EndingMove) → Decidable (m.Possible a)
  | .finish _ => inferInstanceAs (Decidable (_ ∧ _))
  | .other _ => inferInstanceAs (Decidable (_ ∧ _))

/-- The invariant: the status of every task that has ended is that of its ending. -/
structure Sound (m : EndingSystem) : Prop where
  inv : Inv m.sys
  init : InitAlive m.sys
  ended : ∀ t, (m.sys.tasks t).state = .exited → t < m.sys.nextTask ∧ ∃ e,
    m.endings t = some e ∧ e.Happens ∧ (m.sys.tasks t).exitStat = e.status

end EndingSystem

/-- No action but `exit` ends a task. -/
theorem Effect.exited_before {s s' : System} {a : Action} {t : TaskId} (h : Effect s a s')
    (ha : a.isExit = false) (hexited : (s'.tasks t).state = .exited) :
    (s.tasks t).state = .exited := by
  cases h with
  | schedules hkin => exact (hkin.ended t).mp hexited
  | exits code sig hexits => cases ha
  | creates hcreates =>
      have hne : t ≠ s.nextTask := by
        rintro rfl
        simp [hcreates.state] at hexited
      rwa [hcreates.tasks t hne] at hexited
  | adds task _ hadds =>
      have hne : t ≠ task := by
        rintro rfl
        simp [hadds.state, hadds.ready] at hexited
      rwa [hadds.tasks t hne] at hexited
  | forks s₁ _ hcreates hadds _ =>
      have hne : t ≠ s.nextTask := by
        rintro rfl
        simp [hadds.state, hadds.ready] at hexited
      rwa [hadds.tasks t hne, hcreates.tasks t hne] at hexited
  | frees pid task hfrees => rwa [hfrees.tasks] at hexited

namespace EndingSystem

variable {m m' : EndingSystem}

theorem boot_sound : Sound boot where
  inv := boot_inv
  init := boot_initAlive
  ended t hexited := by
    exfalso
    revert hexited
    simp only [boot, System.boot]
    split
    · simp
    · split <;> simp

theorem Sound.finish (h : Sound m) {e : Ending} (hok : m.Possible (.finish e)) {sys : System}
    (hexit : m.sys.exit e.call.1 e.call.2 = .ok sys) :
    Sound ⟨sys, Function.update m.endings m.sys.current (some e)⟩ := by
  obtain ⟨hhappens, hidle⟩ := hok
  obtain ⟨hinv, hexits⟩ := (exit_spec h.inv hidle e.call.1 e.call.2).of_ok hexit
  obtain ⟨_, hstat⟩ := (exit_stat m.sys e.call.1 e.call.2).of_ok hexit
  refine ⟨hinv, (Effect.exits e.call.1 e.call.2 hexits).initAlive h.init, fun t hexited => ?_⟩
  rw [hexits.nextTask]
  by_cases ht : t = m.sys.current
  · subst ht
    refine ⟨h.inv.currentOld, e, Function.update_self .., hhappens, ?_⟩
    rw [hstat _ h.inv.currentOld, if_pos rfl]
    rfl
  · obtain ⟨hold, e', he', hhappens', hstat'⟩ :=
      h.ended t (((hexits.ended t).mp hexited).resolve_right ht)
    refine ⟨hold, e', ?_, hhappens', ?_⟩
    · exact (Function.update_of_ne ht ..).trans he'
    · rw [hstat t hold, if_neg ht, hstat']

theorem Sound.other (h : Sound m) {a : Action} (hok : m.Possible (.other a)) {sys : System}
    (hact : act m.sys a = .ok sys) : Sound { m with sys } := by
  obtain ⟨hpermitted, ha⟩ := hok
  obtain ⟨hinv, heffect⟩ := (act_spec h.inv h.init hpermitted).of_ok hact
  have hrecorded := (act_records m.sys ha).of_ok hact
  refine ⟨hinv, heffect.initAlive h.init, fun t hexited => ?_⟩
  obtain ⟨hold, e, he, hhappens, hstat⟩ := h.ended t (heffect.exited_before ha hexited)
  exact ⟨Nat.lt_of_lt_of_le hold hrecorded.nextTask, e, he, hhappens,
    (hrecorded.exitStat t hold).trans hstat⟩

theorem Sound.step {a : EndingMove} (h : Sound m) (hok : m.Possible a)
    (hstep : m.step a = some m') : Sound m' := by
  unfold EndingSystem.step EndingSystem.move at hstep
  cases a with
  | finish e =>
      cases hexit : m.sys.exit e.call.1 e.call.2 with
      | error stop => simp [hexit, bind, Except.bind, Except.toOption] at hstep
      | ok sys =>
          obtain rfl : _ = m' := by
            simpa [hexit, bind, Except.bind, pure, Except.pure, Except.toOption] using hstep
          exact h.finish hok hexit
  | other a =>
      cases hact : act m.sys a with
      | error stop => simp [hact, bind, Except.bind, Except.toOption] at hstep
      | ok sys =>
          obtain rfl : _ = m' := by
            simpa [hact, bind, Except.bind, pure, Except.pure, Except.toOption] using hstep
          exact h.other hok hact

/-- In every run, the status that `waitpid` returns for a child tells how the child has ended
iff it has ended by `exit`. -/
theorem run_waitStatus_iff {moves : List EndingMove} (hrun : Run step Possible boot moves m)
    {pid p : Int} {options stat : BitVec 32} {s' : System}
    (hwait : m.sys.waitpid pid options = .ok (.returns (.ok (p, some stat)), s')) (hp : p ≠ 0) :
    ∃ t e, m.sys.allTasks p = some t ∧ m.endings t = some e ∧
      (e.Decodes stat ↔ e.isExit = true) := by
  have hsound : Sound m := hrun.invariant (fun _ _ _ h hok hstep => h.step hok hstep) boot_sound
  obtain ⟨t, ht, hexited, rfl⟩ :=
    ((waitpid_returned m.sys pid options).of_ok hwait).stored p stat rfl hp
  obtain ⟨_, e, he, hhappens, hstat⟩ := hsound.ended t hexited
  refine ⟨t, e, ht, he, ?_⟩
  rw [hstat]
  exact Ending.decodes_iff hhappens

/-- `init` forks and waits, and the child ends. -/
def childEnds (e : Ending) : List EndingMove :=
  [.other .fork, .other (.waitpid (-1) 0#32), .finish e]

/-- What `waitpid` for any child returns, if it does. -/
def collected (m : EndingSystem) : Option (Int × BitVec 32) :=
  match m.sys.waitpid (-1) 0#32 with
  | .ok (.returns (.ok (p, some stat)), _) => some (p, stat)
  | _ => none

theorem waitpid_of_collected {p : Int} {stat : BitVec 32} (h : m.collected = some (p, stat)) :
    ∃ s', m.sys.waitpid (-1) 0#32 = .ok (.returns (.ok (p, some stat)), s') := by
  unfold collected at h
  split at h
  · rename_i p' stat' s' hwait
    obtain ⟨rfl, rfl⟩ := Prod.mk.inj (Option.some.inj h)
    exact ⟨s', hwait⟩
  · simp at h

theorem run_waitStatus_iff_exit : ∃ m s', Run step Possible boot (childEnds (.exit 3#32)) m ∧
    m.sys.waitpid (-1) 0#32 = .ok (.returns (.ok (16, some 0x300#32)), s') ∧
    ∃ t e, m.sys.allTasks 16 = some t ∧ m.endings t = some e ∧
      (e.Decodes 0x300#32 ↔ e.isExit = true) := by
  have hend : ∃ m ∈ (childEnds (.exit 3#32)).foldlM (guardedStep step Possible) boot,
      m.collected = some (16, 0x300#32) := by decide +kernel
  obtain ⟨m, hm, hcollected⟩ := hend
  obtain ⟨s', hwait⟩ := waitpid_of_collected hcollected
  exact ⟨m, s', Run.of_foldlM hm, hwait, run_waitStatus_iff (Run.of_foldlM hm) hwait (by decide)⟩

/-- The status of a task that SIGKILL has ended. -/
theorem killed_not_WIFSIGNALED : ∃ m s' stat,
    Run step Possible boot (childEnds (.signal 9)) m ∧
    m.sys.waitpid (-1) 0#32 = .ok (.returns (.ok (16, some stat)), s') ∧
    WIFSIGNALED stat = false ∧ WIFEXITED stat = false := by
  have hend : ∃ m ∈ (childEnds (.signal 9)).foldlM (guardedStep step Possible) boot,
      m.collected = some (16, 0xFF09#32) := by decide +kernel
  obtain ⟨m, hm, hcollected⟩ := hend
  obtain ⟨s', hwait⟩ := waitpid_of_collected hcollected
  exact ⟨m, s', 0xFF09#32, Run.of_foldlM hm, hwait, by decide, by decide⟩

end EndingSystem

end Nyan.Task

