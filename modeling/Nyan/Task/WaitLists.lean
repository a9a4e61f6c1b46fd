import Nyan.Task.QueueDiscipline

/-!
Who waits on which list. Only `WaitList::wait` puts a task on a wait list; every
other operation of the scheduler can only take tasks off, whatever the state it
starts from. `wakeAll` leaves nobody on its list.
-/

namespace Nyan.Task

open Library

/-- The node of a task is linked into a wait list. -/
def Waiting (s : System) (t : TaskId) (list : WaitId) : Prop :=
  s.queues.owner t = some (.wait list)

theorem waiting_iff_mem {s : System} {t : TaskId} {list : WaitId} :
    Waiting s t list ↔ t ∈ s.queues.items (.wait list) := (s.queues.mem_iff _ _).symm

/-- Nobody comes to wait. -/
def NoNewWaits (s s' : System) : Prop := ∀ t list, Waiting s' t list → Waiting s t list

/-- Nobody comes to wait by an operation, unless it fails. -/
def Quiet (s : System) (r : Except Stop System) : Prop :=
  Ensures (fun _ => True) (NoNewWaits s) r

namespace Quiet

variable {s s' : System} {r : Except Stop System} {next : System → Except Stop System}

theorem same (h : s'.queues = s.queues) : Quiet s (.ok s') := by
  intro t list hwaiting
  rwa [Waiting, h] at hwaiting

theorem after (hqueues : s'.queues = s.queues) (h : Quiet s' r) : Quiet s r := by
  refine h.mono fun s'' hs t list hwaiting => ?_
  have hwaiting' := hs t list hwaiting
  rwa [Waiting, hqueues] at hwaiting'

theorem bind (h : Quiet s r) (hnext : ∀ s₁, Quiet s₁ (next s₁)) : Quiet s (r >>= next) :=
  Ensures.bind h fun s₁ hs₁ => (hnext s₁).mono fun _ hs t list hwaiting =>
    hs₁ t list (hs t list hwaiting)

end Quiet

section Operations

variable (s : System) (t : TaskId)

theorem link_quiet {queue : Queue} (hqueue : ∀ list, queue ≠ .wait list) :
    Quiet s (s.link queue t) := by
  unfold System.link
  cases howner : s.queues.owner t with
  | none =>
      obtain ⟨queues, hpush, howner', _⟩ := Intrusive.pushBack_eq howner queue
      rw [hpush]
      intro u list hwaiting
      change queues.owner u = _ at hwaiting
      rw [howner'] at hwaiting
      by_cases hu : u = t
      · subst hu
        rw [Function.update_self, Option.some_inj] at hwaiting
        exact absurd hwaiting (hqueue list)
      · rwa [Function.update_of_ne hu] at hwaiting
  | some other =>
      have hnone : s.queues.pushBack queue t = none := by
        simp [Intrusive.pushBack, Intrusive.insertAt, howner]
      rw [hnone]
      trivial

theorem unlink_spec (queue : Queue) :
    Ensures (fun _ => True) (fun s' => ∀ u list, Waiting s' u list → Waiting s u list ∧ u ≠ t)
      (s.unlink queue t) := by
  unfold System.unlink
  by_cases howner : s.queues.owner t = some queue
  · obtain ⟨queues, hextract, howner', _⟩ := Intrusive.extract_eq howner
    rw [hextract]
    intro u list hwaiting
    change queues.owner u = _ at hwaiting
    rw [howner'] at hwaiting
    by_cases hu : u = t
    · subst hu
      simp at hwaiting
    · rw [Function.update_of_ne hu] at hwaiting
      exact ⟨hwaiting, hu⟩
  · have hnone : s.queues.extract queue t = none := by simp [Intrusive.extract, howner]
    rw [hnone]
    trivial

theorem unlink_quiet (queue : Queue) : Quiet s (s.unlink queue t) :=
  (unlink_spec s t queue).mono fun _ h u list hwaiting => (h u list hwaiting).1

theorem wake_quiet (reason : WakeReason) : Quiet s (s.wake t reason) := by
  have hpending : ∀ s₂ : System, Quiet s₂ (s₂.link .pending t) := fun s₂ =>
    link_quiet s₂ t (by simp)
  unfold System.wake
  split
  · exact Quiet.same rfl
  · dsimp only
    split
    · exact ((unlink_quiet _ t _).after rfl).bind hpending
    · exact (hpending _).after rfl

theorem requeueCurrent_quiet : Quiet s s.requeueCurrent := by
  unfold System.requeueCurrent
  split
  · split
    · exact (link_quiet _ _ (by simp)).after rfl
    · exact Quiet.same rfl
  · exact Quiet.same rfl

theorem switchToIdle_quiet : Quiet s s.switchToIdle := by
  unfold System.switchToIdle
  split
  · exact Quiet.same rfl
  · trivial

theorem yield_quiet : Quiet s s.yield := by
  unfold System.yield
  split
  · exact Quiet.same rfl
  split
  · exact (unlink_quiet s _ _).bind fun s₁ =>
      (requeueCurrent_quiet s₁).bind fun _ => Quiet.same rfl
  · split
    · exact switchToIdle_quiet s
    · exact Quiet.same rfl

theorem block_quiet (reason : BlockReason) : Quiet s (s.block reason) := by
  unfold System.block
  split
  · trivial
  · exact (yield_quiet _).after rfl

theorem enableYield_quiet : Quiet s s.enableYield := by
  simp only [System.enableYield]
  split
  · exact (yield_quiet _).after rfl
  · exact Quiet.same rfl

theorem sleep_quiet (ms : BitVec 64) : Quiet s (s.sleep ms) := by
  simp only [System.sleep]
  split
  · trivial
  split
  · trivial
  · rename_i queues hinsert
    refine Ensures.mono (block_quiet _ .sleep) fun s' hs u list hwaiting => ?_
    have hwaiting' : queues.owner u = some (.wait list) := hs u list hwaiting
    by_cases howner : s.queues.owner s.current = none
    · obtain ⟨queues', hinsert', howner', _⟩ := Intrusive.insertAt_eq howner .sleeping
        (System.sleepPosition (s.modify s.current fun tcb =>
          { tcb with sleepTime := s.msSinceBoot + ms }) (s.msSinceBoot + ms))
      obtain rfl := Option.some.inj (hinsert.symm.trans hinsert')
      rw [howner'] at hwaiting'
      by_cases hu : u = s.current
      · subst hu
        simp at hwaiting'
      · rwa [Function.update_of_ne hu] at hwaiting'
    · simp [Intrusive.insertAt, System.modify, howner] at hinsert

/-- `WaitList::wait` puts the current task on the list, and no other task anywhere. -/
theorem wait_joins (list : WaitId) (reason : BlockReason) :
    Ensures (fun _ => True) (fun s' => ∀ u l, Waiting s' u l →
      Waiting s u l ∨ u = s.current ∧ l = list) (s.wait list reason) := by
  have hlink : Ensures (fun _ => True) (fun s' => ∀ u l, Waiting s' u l →
      Waiting s u l ∨ u = s.current ∧ l = list) (s.link (.wait list) s.current) := by
    unfold System.link
    cases howner : s.queues.owner s.current with
    | none =>
        obtain ⟨queues, hpush, howner', _⟩ := Intrusive.pushBack_eq howner (.wait list)
        rw [hpush]
        intro u l hwaiting
        change queues.owner u = _ at hwaiting
        rw [howner'] at hwaiting
        by_cases hu : u = s.current
        · subst hu
          rw [Function.update_self, Option.some_inj, Queue.wait.injEq] at hwaiting
          exact Or.inr ⟨rfl, hwaiting.symm⟩
        · rw [Function.update_of_ne hu] at hwaiting
          exact Or.inl hwaiting
    | some other =>
        have hnone : s.queues.pushBack (.wait list) s.current = none := by
          simp [Intrusive.pushBack, Intrusive.insertAt, howner]
        rw [hnone]
        trivial
  unfold System.wait
  refine Ensures.bind hlink fun s₁ hs₁ => ?_
  exact Ensures.mono (block_quiet _ reason) fun s' hs u l hwaiting =>
    hs₁ u l (hs u l hwaiting)

/-- The task at the front leaves all lists. -/
theorem wakeFront_leaves (queue : Queue) (reason : WakeReason) :
    Ensures (fun _ => True) (fun s' => ∀ u list, Waiting s' u list → Waiting s u list ∧ u ≠ t)
      (s.wakeFront queue t reason) := by
  unfold System.wakeFront
  refine Ensures.bind (unlink_spec s t queue) fun s₁ hs₁ => ?_
  exact Ensures.mono (wake_quiet _ t reason) fun s' hs u list hwaiting =>
    hs₁ u list (hs u list hwaiting)

theorem wakeFront_quiet (queue : Queue) (reason : WakeReason) :
    Quiet s (s.wakeFront queue t reason) :=
  (wakeFront_leaves s t queue reason).mono fun _ h u list hwaiting => (h u list hwaiting).1

theorem wakeOne_quiet (list : WaitId) (reason : WakeReason) : Quiet s (s.wakeOne list reason) := by
  unfold System.wakeOne
  split
  · exact wakeFront_quiet s _ _ reason
  · exact Quiet.same rfl

theorem wakeLoop_quiet (list : WaitId) (reason : WakeReason) (n : Nat) :
    Quiet s (System.wakeLoop list reason n s) := by
  induction n generalizing s with
  | zero => exact Quiet.same rfl
  | succ n ih =>
      unfold System.wakeLoop
      split
      · exact (wakeFront_quiet s _ _ reason).bind ih
      · exact Quiet.same rfl

theorem wakeAll_quiet (list : WaitId) (reason : WakeReason) : Quiet s (s.wakeAll list reason) :=
  wakeLoop_quiet s list reason _

theorem wakeLoop_clears (list : WaitId) (reason : WakeReason) {n : Nat}
    (hn : (s.queues.items (.wait list)).length ≤ n) :
    Ensures (fun _ => True) (fun s' => ∀ u, ¬ Waiting s' u list)
      (System.wakeLoop list reason n s) := by
  induction n generalizing s with
  | zero =>
      have hnil := List.length_eq_zero_iff.mp (Nat.le_zero.mp hn)
      intro u hwaiting
      rw [waiting_iff_mem, hnil] at hwaiting
      cases hwaiting
  | succ n ih =>
      unfold System.wakeLoop
      split
      · rename_i task rest hitems
        refine Ensures.bind (wakeFront_leaves s task _ reason) fun s₁ hs₁ => ih s₁ ?_
        have hlt : (s₁.queues.items (.wait list)).length <
            (s.queues.items (.wait list)).length := by
          refine Intrusive.length_lt (t := task) (by simp [hitems]) fun u hu => ?_
          rw [← waiting_iff_mem] at hu ⊢
          exact hs₁ u list hu
        omega
      · rename_i hitems
        intro u hwaiting
        rw [waiting_iff_mem, hitems] at hwaiting
        cases hwaiting

/-- Nobody waits on a list after `wakeAll`. -/
theorem wakeAll_clears (list : WaitId) (reason : WakeReason) :
    Ensures (fun _ => True) (fun s' => ∀ u, ¬ Waiting s' u list) (s.wakeAll list reason) :=
  wakeLoop_clears s list reason le_rfl

theorem sleepLoop_quiet (n : Nat) : Quiet s (System.sleepLoop n s) := by
  induction n generalizing s with
  | zero => exact Quiet.same rfl
  | succ n ih =>
      unfold System.sleepLoop
      split
      · split
        · exact (wakeFront_quiet s _ _ _).bind ih
        · exact Quiet.same rfl
      · exact Quiet.same rfl

theorem checkSleep_quiet : Quiet s s.checkSleep := by
  unfold System.checkSleep
  refine (sleepLoop_quiet s _).bind fun s₁ => ?_
  split
  · exact yield_quiet s₁
  · exact Quiet.same rfl

theorem sendSignal_quiet (sig : Nat) : Quiet s (s.sendSignal t sig) := by
  simp only [System.sendSignal]
  split
  · exact Quiet.same rfl
  split
  · exact Quiet.same rfl
  split
  · exact (wake_quiet _ t _).after rfl
  · exact Quiet.same rfl

theorem leave_quiet : Quiet s s.leave := by
  unfold System.leave
  split
  · exact (unlink_quiet s _ _).bind fun _ => Quiet.same rfl
  · exact switchToIdle_quiet s

theorem adoptChildren_quiet : Quiet s (s.adoptChildren t) := by
  unfold System.adoptChildren
  split
  · exact Quiet.same rfl
  split
  · exact (sendSignal_quiet _ _ _).after rfl
  · trivial

theorem notifyParent_quiet : Quiet s (s.notifyParent t) := by
  unfold System.notifyParent
  split
  · exact (wakeAll_quiet s _ _).bind fun s₁ => sendSignal_quiet s₁ _ _
  · exact Quiet.same rfl

theorem exit_quiet (code sig : BitVec 32) : Quiet s (s.exit code sig) := by
  simp only [System.exit]
  split
  · trivial
  · exact ((adoptChildren_quiet _ _).after rfl).bind fun s₁ =>
      (notifyParent_quiet s₁ _).bind leave_quiet

theorem newTask_quiet (mask : BitVec 64) : Quiet s (s.newTask mask) := by
  unfold System.newTask
  split
  · trivial
  · exact Quiet.same rfl

theorem allocPid_queues : (s.allocPid t).queues = s.queues := by
  unfold System.allocPid
  split <;> rfl

theorem addTask_quiet : Quiet s (s.addTask t) := by
  unfold System.addTask
  refine (link_quiet s t (by simp)).bind fun s₁ => ?_
  refine Quiet.same ?_
  split
  · rw [allocPid_queues]
  · rfl

theorem forkTask_quiet : Quiet s s.forkTask := by
  unfold System.forkTask
  refine (newTask_quiet s _).bind fun s₁ => (addTask_quiet s₁ _).bind fun s₂ => ?_
  split
  · trivial
  · exact Quiet.same rfl

theorem freeTask_queues (pid : Int) :
    Ensures (fun _ => True) (fun r => r.2.queues = s.queues) (s.freeTask pid) := by
  unfold System.freeTask
  split
  · trivial
  split
  · rfl
  split
  · rfl
  split
  · trivial
  split
  · trivial
  · rfl

theorem waitForChild_joins (pid : Int) (options : BitVec 32) :
    Ensures (fun _ => True) (fun r => ∀ u l, Waiting r.2 u l →
      Waiting s u l ∨ u = s.current ∧ l = .childs s.current) (s.waitForChild pid options) := by
  unfold System.waitForChild
  split
  · exact fun u l hwaiting => Or.inl hwaiting
  · refine Ensures.bind (wait_joins _ (.childs s.current) .waitTask) fun s' hs u l hwaiting => ?_
    exact hs u l hwaiting

theorem waitpid_joins (pid : Int) (options : BitVec 32) :
    Ensures (fun _ => True) (fun r => ∀ u l, Waiting r.2 u l →
      Waiting s u l ∨ u = s.current ∧ l = .childs s.current) (s.waitpid pid options) := by
  have hreap : ∀ pid, Ensures (fun _ => True) (fun r => ∀ u l, Waiting r.2 u l →
      Waiting s u l ∨ u = s.current ∧ l = .childs s.current) (s.reap pid) := by
    intro pid
    refine Ensures.bind (freeTask_queues s pid) fun r hqueues u l hwaiting => ?_
    rw [Waiting, hqueues] at hwaiting
    exact Or.inl hwaiting
  rcases waitpid_cases s pid options with ⟨result, hround⟩ | ⟨_, hround⟩ |
    ⟨task, _, _, hround⟩ | ⟨task, _, _, _, hround⟩
  · rw [hround]
    exact fun u l hwaiting => Or.inl hwaiting
  · rw [hround]
    exact waitForChild_joins s pid options
  · rw [hround]
    exact hreap _
  · rw [hround]
    exact hreap _

/-- The list that an action makes the current task wait on, if it does. -/
def Action.list (s : System) : Action → Option WaitId
  | .wait list _ => some list
  | .waitpid _ _ => some (.childs s.current)
  | _ => none

/-- A task comes to wait only by an action of its own, on the list of that action. -/
theorem act_joins (a : Action) :
    Ensures (fun _ => True) (fun s' => ∀ u l, Waiting s' u l →
      Waiting s u l ∨ u = s.current ∧ a.list s = some l) (act s a) := by
  have hquiet : ∀ {r : Except Stop System}, Quiet s r →
      Ensures (fun _ => True) (fun s' => ∀ u l, Waiting s' u l →
        Waiting s u l ∨ u = s.current ∧ a.list s = some l) r :=
    fun h => h.mono fun _ hs u l hwaiting => Or.inl (hs u l hwaiting)
  cases a with
  | createTask => exact hquiet (newTask_quiet s _)
  | addTask task => exact hquiet (addTask_quiet s task)
  | fork => exact hquiet (forkTask_quiet s)
  | yield => exact hquiet (yield_quiet s)
  | disableYield => exact hquiet (Quiet.same rfl)
  | enableYield => exact hquiet (enableYield_quiet s)
  | block reason => exact hquiet (block_quiet s reason)
  | sleep ms => exact hquiet (sleep_quiet s ms)
  | wait list reason =>
      exact (wait_joins s list reason).mono fun _ hs u l hwaiting =>
        (hs u l hwaiting).imp id fun hjoin => ⟨hjoin.1, by rw [hjoin.2]; rfl⟩
  | wakeOne list reason => exact hquiet (wakeOne_quiet s list reason)
  | wakeAll list reason => exact hquiet (wakeAll_quiet s list reason)
  | wake task reason => exact hquiet (wake_quiet s task reason)
  | checkSleep => exact hquiet (checkSleep_quiet s)
  | tick => exact hquiet ((checkSleep_quiet _).after rfl)
  | sendSignal task sig => exact hquiet (sendSignal_quiet s task sig)
  | exit code sig => exact hquiet (exit_quiet s code sig)
  | waitpid pid options =>
      refine Ensures.bind (waitpid_joins s pid options) fun r hs u l hwaiting => ?_
      exact (hs u l hwaiting).imp id fun hjoin => ⟨hjoin.1, by rw [hjoin.2]; rfl⟩

end Operations

/-- The operations of the current task itself, which it cannot perform while it
is in a call; all others may come from an interrupt. -/
def Action.own : Action → Bool
  | .createTask | .addTask _ | .fork | .block _ | .sleep _ | .wait _ _ | .exit _ _
  | .waitpid _ _ => true
  | .yield | .disableYield | .enableYield | .wakeOne _ _ | .wakeAll _ _ | .wake _ _
  | .checkSleep | .tick | .sendSignal _ _ => false

end Nyan.Task
