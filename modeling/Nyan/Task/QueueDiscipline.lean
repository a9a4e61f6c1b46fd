import Nyan.Task.SchedulerInvariant

/-!
The scheduler as a machine: any operation by the current task, by an interrupt
or on behalf of another task is one step. In every state of every run, the
lists of the scheduler, the states of the tasks and the stored callbacks agree.
-/

namespace Nyan.Task

open Library

/-- The operations on the scheduler. -/
inductive Action where
  | createTask
  | addTask (task : TaskId)
  | fork
  | yield
  | disableYield
  | enableYield
  | block (reason : BlockReason)
  | sleep (ms : BitVec 64)
  | wait (list : WaitId) (reason : BlockReason)
  | wakeOne (list : WaitId) (reason : WakeReason)
  | wakeAll (list : WaitId) (reason : WakeReason)
  | wake (task : TaskId) (reason : WakeReason)
  | checkSleep
  | tick
  | sendSignal (task : TaskId) (sig : Nat)
  | exit (code sig : BitVec 32)
  | waitpid (pid : Int) (options : BitVec 32)

def act (s : System) : Action → Except Stop System
  | .createTask => s.createTask
  | .addTask task => s.addTask task
  | .fork => s.forkTask
  | .yield => s.yield
  | .disableYield => .ok s.disableYield
  | .enableYield => s.enableYield
  | .block reason => s.block reason
  | .sleep ms => s.sleep ms
  | .wait list reason => s.wait list reason
  | .wakeOne list reason => s.wakeOne list reason
  | .wakeAll list reason => s.wakeAll list reason
  | .wake task reason => s.wake task reason
  | .checkSleep => s.checkSleep
  | .tick => s.tick
  | .sendSignal task sig => s.sendSignal task sig
  | .exit code sig => s.exit code sig
  | .waitpid pid options => do return (← s.waitpid pid options).2

/-- The step of a run; a machine that has stopped has no next state. -/
def step (s : System) (a : Action) : Option System := (act s a).toOption

/-- What the callers promise. The idle task only halts and yields, so what
interrupts it only yields, wakes tasks and sends signals; `addTask` is called
once for each task that `createTask` returns. -/
def Permitted (s : System) : Action → Prop
  | .addTask task => (s.tasks s.current).pid ≠ KP_Idle ∧ task < s.nextTask ∧
      s.handed task = false ∧ (s.tasks task).pid ≠ KP_Idle
  | .createTask | .fork | .block _ | .sleep _ | .wait _ _ | .exit _ _ | .waitpid _ _ =>
      (s.tasks s.current).pid ≠ KP_Idle
  | .yield | .disableYield | .enableYield | .wakeOne _ _ | .wakeAll _ _ | .wake _ _
  | .checkSleep | .tick | .sendSignal _ _ => True

instance (s : System) : (a : Action) → Decidable (Permitted s a)
  | .addTask _ => inferInstanceAs (Decidable (_ ∧ _ ∧ _ ∧ _))
  | .createTask | .fork | .block _ | .sleep _ | .wait _ _ | .exit _ _ | .waitpid _ _ =>
      inferInstanceAs (Decidable (_ ≠ _))
  | .yield | .disableYield | .enableYield | .wakeOne _ _ | .wakeAll _ _ | .wake _ _
  | .checkSleep | .tick | .sendSignal _ _ => inferInstanceAs (Decidable True)

/-- The lists of the scheduler agree with the states of the tasks. -/
structure QueueDiscipline (s : System) : Prop where
  oneList : ∀ t queue queue', t ∈ s.queues.items queue → t ∈ s.queues.items queue' →
    queue = queue'
  once : ∀ queue, (s.queues.items queue).Nodup
  ready : ∀ t, s.handed t = true →
    (t ∈ s.queues.items .pending ↔ (s.tasks t).state = .ready ∧ (s.tasks t).pid ≠ KP_Idle)
  blocked : ∀ t queue, (s.tasks t).state = .blocked → t ∈ s.queues.items queue →
    queue ≠ .pending ∧ ∃ detach, (s.tasks t).requestDetach = some detach ∧ detach.queue = queue
  unlinked : ∀ t queue, t = s.current ∨ (s.tasks t).state = .exited → t ∉ s.queues.items queue

variable {s s' : System} {t : TaskId}

theorem Inv.discipline (h : Inv s) : QueueDiscipline s where
  oneList _ _ _ := Intrusive.eq_of_mem
  once := s.queues.nodup
  ready t hhanded := by
    rw [s.queues.mem_iff, (h.task t).pending]
    simp [hhanded]
  blocked t queue hblocked hmem := by
    have howner := (s.queues.mem_iff queue t).mp hmem
    have hok := h.task t
    rw [hok.detach, howner]
    cases queue with
    | pending =>
        have hready := (hok.pending.mp howner).2.1
        simp [hready] at hblocked
    | sleeping => exact ⟨by simp, .sleeping, rfl, rfl⟩
    | wait list => exact ⟨by simp, .wait list, rfl, rfl⟩
  unlinked t queue hgone := by
    refine Intrusive.not_mem_of_owner_none ?_ queue
    rcases hgone with rfl | hexited
    · exact h.owner_current
    · exact h.owner_of_not_blocked (by simp [hexited]) (by simp [hexited])

/-- What a step does to the process tree and the pid table. -/
inductive Effect (s : System) : Action → System → Prop where
  | schedules {a : Action} {s' : System} (kin : Kin s s') : Effect s a s'
  | exits {s' : System} (code sig : BitVec 32) (h : Exits s s') : Effect s (.exit code sig) s'
  | creates {s' : System} (h : Creates s s') : Effect s .createTask s'
  | adds {s' : System} (t : TaskId) (hold : t < s.nextTask) (h : Adds s s' t) :
      Effect s (.addTask t) s'
  | forks {s' : System} (s₁ : System) (hinv : Inv s₁) (hcreates : Creates s s₁)
      (hadds : Adds s₁ s' s.nextTask) (hpid : (s'.tasks s.nextTask).pid ≠ KP_Invalid) :
      Effect s .fork s'
  | frees {a : Action} {s' : System} (pid : Int) (t : TaskId) (h : Frees s s' pid t) :
      Effect s a s'

theorem Schedules.effect {r : Except Stop System} (h : Schedules s r) (a : Action) :
    Ensures Fatal (fun s' => Inv s' ∧ Effect s a s') r :=
  h.mono fun _ hs => ⟨hs.1, .schedules hs.2⟩

/-- The operations that change the process tree or the pid table. -/
def Action.reshapes : Action → Bool
  | .createTask | .addTask _ | .fork | .exit _ _ | .waitpid _ _ => true
  | .yield | .disableYield | .enableYield | .block _ | .sleep _ | .wait _ _ | .wakeOne _ _
  | .wakeAll _ _ | .wake _ _ | .checkSleep | .tick | .sendSignal _ _ => false

theorem act_schedules (h : Inv s) {a : Action} (hok : Permitted s a) (ha : a.reshapes = false) :
    Schedules s (act s a) := by
  cases a with
  | createTask | addTask | fork | exit | waitpid => cases ha
  | yield => exact yield_schedules h
  | disableYield => exact h.setCounters (s.disableYieldCounter + 1#32) s.needYield s.msSinceBoot
  | enableYield => exact enableYield_schedules h
  | block reason => exact block_plain h hok reason
  | sleep ms => exact sleep_schedules h hok ms
  | wait list reason => exact wait_schedules h hok list reason
  | wakeOne list reason => exact (wakeOne_wakes h.toCore list reason).schedules h
  | wakeAll list reason => exact (wakeLoop_wakes h.toCore list reason _).schedules h
  | wake task reason => exact (wake_wakes h.toCore task reason).schedules h
  | checkSleep => exact checkSleep_schedules h
  | tick => exact tick_schedules h
  | sendSignal task sig => exact (sendSignal_wakes h.toCore task sig).schedules h

/-- A permitted step keeps the invariant. No step but `waitpid` can find a list
node in a place where the operation does not expect it. -/
theorem act_spec (h : Inv s) (hinit : InitAlive s) {a : Action} (hok : Permitted s a) :
    Ensures (fun stop => stop = .corrupt → ∃ pid options, a = .waitpid pid options)
      (fun s' => Inv s' ∧ Effect s a s') (act s a) := by
  have hfatal : ∀ {r : Except Stop System},
      Ensures Fatal (fun s' => Inv s' ∧ Effect s a s') r →
      Ensures (fun stop => stop = .corrupt → ∃ pid options, a = .waitpid pid options)
        (fun s' => Inv s' ∧ Effect s a s') r := by
    intro r hr
    refine hr.allow fun stop hstop hcorrupt => ?_
    rw [show stop = .fatal from hstop] at hcorrupt
    cases hcorrupt
  cases a with
  | createTask => exact hfatal ((newTask_spec h _).mono fun _ hs => ⟨hs.1, .creates hs.2⟩)
  | addTask task =>
      obtain ⟨_, hold, hhanded, hidle⟩ := hok
      exact hfatal ((addTask_spec h hhanded hold hidle).mono fun _ hs =>
        ⟨hs.1, .adds task hold hs.2⟩)
  | fork =>
      refine hfatal ((forkTask_spec h).mono ?_)
      rintro s' ⟨hinv, s₁, hinv₁, hcreates, hadds, hpid⟩
      exact ⟨hinv, .forks s₁ hinv₁ hcreates hadds hpid⟩
  | yield | disableYield | enableYield | block | sleep | wait | wakeOne | wakeAll | wake
  | checkSleep | tick | sendSignal => exact hfatal ((act_schedules h hok rfl).effect _)
  | exit code sig => exact hfatal ((exit_spec h hok code sig).mono fun _ hs => ⟨hs.1, .exits code sig hs.2⟩)
  | waitpid pid options =>
      refine Ensures.bind ((waitpid_spec h hinit hok pid options).allow ?_) ?_
      · exact fun _ _ _ => ⟨pid, options, rfl⟩
      · rintro ⟨result, s'⟩ ⟨hinv, hkin | ⟨freed, task, hfrees⟩⟩
        · exact ⟨hinv, .schedules hkin⟩
        · exact ⟨hinv, .frees freed task hfrees⟩

theorem step_spec (h : Inv s) (hinit : InitAlive s) {a : Action} (hok : Permitted s a)
    (hstep : step s a = some s') : Inv s' ∧ Effect s a s' := by
  have hact : act s a = .ok s' := by
    unfold step at hstep
    cases hact : act s a with
    | ok s₁ => simpa [hact, Except.toOption] using hstep
    | error stop => simp [hact, Except.toOption] at hstep
  exact (act_spec h hinit hok).of_ok hact

theorem Creates.initAlive (h : Creates s s') (hinit : InitAlive s) : InitAlive s' := by
  obtain ⟨init, hentry, hpid, hstate, hold⟩ := hinit
  have htask := h.tasks init (Nat.ne_of_lt hold)
  refine ⟨init, by rw [h.allTasks, hentry], by rw [htask, hpid], by rwa [htask], ?_⟩
  rw [h.nextTask]
  exact Nat.lt_succ_of_lt hold

theorem Adds.initAlive (h : Adds s s' t) (hinit : InitAlive s) : InitAlive s' := by
  obtain ⟨init, hentry, hinitPid, hstate, hold⟩ := hinit
  have hne : init ≠ t := by
    rintro rfl
    exact absurd (hinitPid.symm.trans h.unnamed) (by decide)
  have htask := h.tasks init hne
  refine ⟨init, ?_, by rw [htask, hinitPid], by rwa [htask], by rwa [h.nextTask]⟩
  rcases h.pid with ⟨p, hfirst, _, _, halloc, _⟩ | ⟨_, halloc, _⟩
  · have hp : KP_Init ≠ (p : Int) := by
      simp only [KP_Init, KP_FirstUser] at *
      omega
    rw [halloc, Function.update_of_ne hp, hentry]
  · rw [halloc, hentry]

/-- No step ends `init` or takes it out of the table. -/
theorem Effect.initAlive {a : Action} (h : Effect s a s') (hinit : InitAlive s) : InitAlive s' := by
  cases h with
  | schedules hkin =>
      obtain ⟨init, hentry, hpid, hstate, hold⟩ := hinit
      refine ⟨init, by rw [hkin.allTasks, hentry], by rw [hkin.pid, hpid], ?_,
        by rwa [hkin.nextTask]⟩
      rwa [Ne, hkin.ended]
  | exits code sig hexits =>
      obtain ⟨init, hentry, hpid, hstate, hold⟩ := hinit
      refine ⟨init, by rw [hexits.allTasks, hentry], by rw [hexits.pid, hpid], ?_,
        by rwa [hexits.nextTask]⟩
      rw [Ne, hexits.ended, not_or]
      refine ⟨hstate, ?_⟩
      rintro rfl
      exact hexits.notInit hpid
  | creates hcreates => exact hcreates.initAlive hinit
  | adds t _ hadds => exact hadds.initAlive hinit
  | forks s₁ _ hcreates hadds _ => exact hadds.initAlive (hcreates.initAlive hinit)
  | frees pid t hfrees =>
      obtain ⟨init, hentry, hpid, hstate, hold⟩ := hinit
      have hne : KP_Init ≠ pid := by
        rintro rfl
        obtain rfl : init = t := Option.some.inj (hentry.symm.trans hfrees.entry)
        exact hstate hfrees.ended
      refine ⟨init, ?_, by rw [hfrees.tasks, hpid], by rwa [hfrees.tasks],
        by rwa [hfrees.nextTask]⟩
      rw [hfrees.allTasks, Function.update_of_ne hne, hentry]

theorem boot_inv : Inv System.boot := by
  refine ⟨⟨fun t => ?_, ⟨1, by decide, by decide, by decide⟩, ⟨0, by decide⟩,
    fun t ht => ⟨?_, rfl⟩, by decide, Or.inl (by decide)⟩, by decide⟩
  · rcases t with _ | _ | t
    · exact ⟨rfl, by decide, by decide, by decide, by decide, by decide⟩
    · exact ⟨rfl, by decide, by decide, by decide, by decide, by decide⟩
    · exact ⟨rfl, by simp [System.boot, Intrusive.empty], by simp [System.boot, Intrusive.empty],
        by simp [System.boot], by simp [System.boot],
        by simp [System.boot, KP_Invalid, KP_Idle]⟩
  · have hne : t ≠ 0 := Nat.ne_of_gt (Nat.lt_of_lt_of_le Nat.zero_lt_two ht)
    simp [System.boot, hne]

theorem boot_initAlive : InitAlive System.boot :=
  ⟨0, by decide, by decide, by decide, by decide⟩

/-- The state that `setupKnownTasks` leaves and every state that permitted steps
lead to from it. -/
theorem run_inv {acts : List Action} (hrun : Run step Permitted System.boot acts s) :
    Inv s ∧ InitAlive s :=
  hrun.invariant (P := fun s => Inv s ∧ InitAlive s)
    (fun _ _ _ hs hok hstep => by
      obtain ⟨hinv, heffect⟩ := step_spec hs.1 hs.2 hok hstep
      exact ⟨hinv, heffect.initAlive hs.2⟩)
    ⟨boot_inv, boot_initAlive⟩

/-- In every state of every run the lists of the scheduler agree with the states
of the tasks, and the next operation finds every list node where it expects it. -/
theorem run_queueDiscipline {acts : List Action}
    (hrun : Run step Permitted System.boot acts s) :
    QueueDiscipline s ∧ ∀ a, Permitted s a → (∀ pid options, a ≠ .waitpid pid options) →
      act s a ≠ .error .corrupt := by
  obtain ⟨hinv, hinit⟩ := run_inv hrun
  refine ⟨hinv.discipline, fun a hok hnotWait hcorrupt => ?_⟩
  have hspec := act_spec hinv hinit hok
  rw [hcorrupt, ensures_error] at hspec
  obtain ⟨pid, options, rfl⟩ := hspec rfl
  exact hnotWait pid options rfl

theorem run_queueDiscipline_sleeping_parent :
    ∃ s, Run step Permitted System.boot [.fork, .sleep 5#64] s ∧
      s.queues.items .sleeping = [0] ∧ s.current = 2 ∧ QueueDiscipline s := by
  obtain ⟨s, hfold, hsleeping, hcurrent⟩ :
      ∃ s ∈ [.fork, .sleep 5#64].foldlM (guardedStep step Permitted) System.boot,
        s.queues.items .sleeping = [0] ∧ s.current = 2 := by
    decide
  have hrun := Run.of_foldlM hfold
  exact ⟨s, hrun, hsleeping, hcurrent, (run_queueDiscipline hrun).1⟩

end Nyan.Task
