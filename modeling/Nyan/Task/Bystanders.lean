import Nyan.Task.WaitLists

/-!
What an operation of the scheduler does to the tasks that do not perform it. A task that is
not blocked is not blocked afterwards and keeps the reason it was woken for; of a task that
stays blocked only the pending signals change, so nothing is written to the union that its
time is in; a sleeper that is woken without a signal was due. The queue of the sleepers only
loses tasks.
-/

namespace Nyan.Task

open Library

/-- What may happen to the block of such a task at a given time. -/
structure Passive (now : BitVec 64) (tcb tcb' : TaskControlBlock) : Prop where
  awake : tcb.state ≠ .blocked → tcb'.state ≠ .blocked ∧ tcb'.wakeReason = tcb.wakeReason
  asleep : tcb'.state = .blocked →
    ∃ pending pid, tcb' = { tcb with pendingSignals := pending, pid := pid }
  due : tcb.state = .blocked → tcb'.state ≠ .blocked → tcb.requestDetach = some .sleeping →
    tcb'.wakeReason = .normal → tcb.sleepTime < now

namespace Passive

variable {now : BitVec 64} {tcb tcb₁ tcb₂ : TaskControlBlock}

theorem refl (now : BitVec 64) (tcb : TaskControlBlock) : Passive now tcb tcb :=
  ⟨fun h => ⟨h, rfl⟩, fun _ => ⟨_, _, rfl⟩, fun h h' => absurd h h'⟩

/-- A task that stays blocked was blocked. -/
theorem blocked (h : Passive now tcb tcb₁) (hblocked : tcb₁.state = .blocked) :
    tcb.state = .blocked := by
  obtain ⟨_, _, rfl⟩ := h.asleep hblocked
  exact hblocked

theorem trans (h : Passive now tcb tcb₁) (h' : Passive now tcb₁ tcb₂) : Passive now tcb tcb₂ := by
  refine ⟨fun hawake => ?_, fun hblocked => ?_, fun hblocked hawake hdetach hreason => ?_⟩
  · obtain ⟨hawake₁, hreason₁⟩ := h.awake hawake
    obtain ⟨hawake₂, hreason₂⟩ := h'.awake hawake₁
    exact ⟨hawake₂, hreason₂.trans hreason₁⟩
  · have hblocked₁ := h'.blocked hblocked
    obtain ⟨_, _, rfl⟩ := h.asleep hblocked₁
    obtain ⟨pending, pid, rfl⟩ := h'.asleep hblocked
    exact ⟨pending, pid, rfl⟩
  · by_cases hblocked₁ : tcb₁.state = .blocked
    · obtain ⟨_, _, rfl⟩ := h.asleep hblocked₁
      exact h'.due hblocked₁ hawake hdetach hreason
    · exact h.due hblocked hblocked₁ hdetach ((h'.awake hblocked₁).2 ▸ hreason)

/-- A change that is not one of scheduling. -/
theorem noted (now : BitVec 64) (tcb : TaskControlBlock) (pending : BitVec 64) (pid : Int) :
    Passive now tcb { tcb with pendingSignals := pending, pid := pid } :=
  ⟨fun h => ⟨h, rfl⟩, fun _ => ⟨pending, pid, rfl⟩, fun h h' => absurd h h'⟩

/-- A task that was not blocked gets another such state. -/
theorem of_awake (hawake : tcb.state ≠ .blocked) (hawake₁ : tcb₁.state ≠ .blocked)
    (hwake : tcb₁.wakeReason = tcb.wakeReason) : Passive now tcb tcb₁ :=
  ⟨fun _ => ⟨hawake₁, hwake⟩, fun h => absurd h hawake₁, fun h => absurd h hawake⟩

end Passive

/-- An operation by the tasks in `own`, for all other tasks that were handed over. -/
structure Passes (own : TaskId → Prop) (s s' : System) : Prop where
  clock : s'.msSinceBoot = s.msSinceBoot
  handed : ∀ u, s.handed u = true → s'.handed u = true
  sleeping : (s'.queues.items .sleeping).Sublist (s.queues.items .sleeping)
  task : ∀ u, s.handed u = true → ¬ own u → Passive s.msSinceBoot (s.tasks u) (s'.tasks u)

/-- It does so, unless it fails. -/
def Spares (own : TaskId → Prop) (s : System) (r : Except Stop System) : Prop :=
  Ensures (fun _ => True) (Passes own s) r

variable {own : TaskId → Prop} {s s' s₁ s₂ : System} {t : TaskId}

theorem Passes.refl (own : TaskId → Prop) (s : System) : Passes own s s :=
  ⟨rfl, fun _ => id, List.Sublist.refl _, fun _ _ _ => .refl ..⟩

theorem Passes.trans (h : Passes own s s₁) (h' : Passes own s₁ s₂) : Passes own s s₂ where
  clock := h'.clock.trans h.clock
  handed u hu := h'.handed u (h.handed u hu)
  sleeping := h'.sleeping.trans h.sleeping
  task u hu hown := by
    have hnext := h'.task u (h.handed u hu) hown
    rw [h.clock] at hnext
    exact (h.task u hu hown).trans hnext

theorem Passes.modify {f : TaskControlBlock → TaskControlBlock}
    (h : ¬ own t → Passive s.msSinceBoot (s.tasks t) (f (s.tasks t))) :
    Passes own s (s.modify t f) := by
  refine ⟨rfl, fun _ => id, List.Sublist.refl _, fun u _ hown => ?_⟩
  by_cases hu : u = t
  · subst hu
    simpa [System.modify] using h hown
  · simpa [System.modify, Function.update_of_ne hu] using Passive.refl ..

/-- A task of its own changes its block and the lists. -/
theorem Passes.of_own (hown : own t) (tcb : TaskControlBlock) {queues : Intrusive Queue TaskId}
    (hitems : (queues.items .sleeping).Sublist (s.queues.items .sleeping)) :
    Passes own s { s with tasks := Function.update s.tasks t tcb, queues } := by
  refine ⟨rfl, fun _ => id, hitems, fun u _ hnot => ?_⟩
  have hu : u ≠ t := by
    rintro rfl
    exact hnot hown
  simpa [Function.update_of_ne hu] using Passive.refl ..

namespace Spares

variable {r : Except Stop System} {next : System → Except Stop System}

theorem same (own : TaskId → Prop) (s : System) : Spares own s (.ok s) := Passes.refl own s

theorem after (h : Passes own s s₁) (hr : Spares own s₁ r) : Spares own s r :=
  hr.mono fun _ hs => h.trans hs

theorem bind (h : Spares own s r) (hnext : ∀ s₁, Passes own s s₁ → Spares own s₁ (next s₁)) :
    Spares own s (r >>= next) :=
  Ensures.bind h fun s₁ hs₁ => (hnext s₁ hs₁).after hs₁

/-- The next operation may rely on what else the first one ensures. -/
theorem bind_ensures {allowed : Stop → Prop} {post : System → Prop} (h : Spares own s r)
    (hpost : Ensures allowed post r) (hnext : ∀ s₁, post s₁ → Spares own s₁ (next s₁)) :
    Spares own s (r >>= next) :=
  Ensures.bind (Ensures.and h hpost) fun s₁ hs₁ => (hnext s₁ hs₁.2).after hs₁.1

end Spares

theorem link_spares {queue : Queue} (hqueue : queue ≠ .sleeping) :
    Spares own s (s.link queue t) := by
  unfold System.link
  cases howner : s.queues.owner t with
  | none =>
      obtain ⟨queues, hpush, _, hitems⟩ := Intrusive.pushBack_eq howner queue
      rw [hpush]
      refine ⟨rfl, fun _ => id, ?_, fun _ _ _ => .refl ..⟩
      simp [hitems, Function.update_of_ne hqueue.symm]
  | some other =>
      have hnone : s.queues.pushBack queue t = none := by
        simp [Intrusive.pushBack, Intrusive.insertAt, howner]
      rw [hnone]
      trivial

theorem unlink_spares (queue : Queue) : Spares own s (s.unlink queue t) := by
  unfold System.unlink
  by_cases howner : s.queues.owner t = some queue
  · obtain ⟨queues, hextract, _, hitems⟩ := Intrusive.extract_eq howner
    rw [hextract]
    refine ⟨rfl, fun _ => id, ?_, fun _ _ _ => .refl ..⟩
    by_cases hqueue : queue = .sleeping
    · subst hqueue
      simp [hitems, List.erase_sublist]
    · simp [hitems, Function.update_of_ne (Ne.symm hqueue)]
  · have hnone : s.queues.extract queue t = none := by simp [Intrusive.extract, howner]
    rw [hnone]
    trivial

theorem wake_spares {reason : WakeReason}
    (hdue : ¬ own t → (s.tasks t).requestDetach = some .sleeping → reason = .normal →
      (s.tasks t).sleepTime < s.msSinceBoot) : Spares own s (s.wake t reason) := by
  unfold System.wake
  split
  · exact Spares.same own s
  rename_i hstate
  have hblocked : (s.tasks t).state = .blocked := not_not.mp hstate
  have hwoken : Passes own s (s.modify t fun tcb =>
      { tcb with state := .ready, blockReason := .unknown, wakeReason := reason }) := by
    refine Passes.modify fun hown => ⟨fun h => absurd hblocked h, by simp, ?_⟩
    exact fun _ _ hdetach hreason => hdue hown hdetach hreason
  have hpending : ∀ s₂, Spares own s₂ (s₂.link .pending t) := fun _ => link_spares (by simp)
  dsimp only
  split
  · refine Spares.after hwoken (Spares.bind (Spares.after (Passes.modify fun _ => ?_)
      (unlink_spares _)) fun s₂ _ => hpending s₂)
    exact .of_awake (by simp [System.modify]) (by simp [System.modify]) rfl
  · exact Spares.after hwoken (hpending _)

/-- The first task of a list is woken, and if it sleeps it was due. -/
theorem wakeFront_spares (h : Core s) {queue : Queue} (howner : s.queues.owner t = some queue)
    (hqueue : queue ≠ .pending) {reason : WakeReason}
    (hdue : queue = .sleeping → reason = .normal → (s.tasks t).sleepTime < s.msSinceBoot) :
    Spares own s (s.wakeFront queue t reason) := by
  have hany : Spares (fun _ => True) s (s.wakeFront queue t reason) := by
    unfold System.wakeFront
    exact Spares.bind (unlink_spares queue) fun s₁ _ =>
      Spares.after (Passes.modify fun hown => absurd trivial hown)
        (wake_spares fun hown => absurd trivial hown)
  obtain ⟨s', hfront, _, _, _, htasks, _⟩ := wakeFront_spec h howner hqueue reason
  rw [hfront] at hany ⊢
  refine ⟨hany.clock, hany.handed, hany.sleeping, fun u _ _ => ?_⟩
  rw [htasks]
  by_cases hu : u = t
  · subst hu
    rw [Function.update_self]
    have hok := h.task u
    have hblocked := hok.waiting queue howner hqueue
    refine ⟨fun hawake => absurd hblocked hawake, by simp, fun _ _ hdetach hreason => ?_⟩
    refine hdue ?_ hreason
    rw [hok.detach, howner] at hdetach
    cases queue with
    | pending => exact absurd rfl hqueue
    | sleeping => rfl
    | wait list => simp [detachFor] at hdetach
  · rw [Function.update_of_ne hu]
    exact .refl ..

theorem wakeOne_spares (h : Core s) (list : WaitId) (reason : WakeReason) :
    Spares own s (s.wakeOne list reason) := by
  unfold System.wakeOne
  split
  · rename_i task rest hitems
    have howner := (s.queues.mem_iff (.wait list) task).mp (by simp [hitems])
    exact wakeFront_spares h howner (by simp) (by simp)
  · exact Spares.same own s

theorem wakeLoop_spares (h : Core s) (list : WaitId) (reason : WakeReason) (n : Nat) :
    Spares own s (System.wakeLoop list reason n s) := by
  induction n generalizing s with
  | zero => exact Spares.same own s
  | succ n ih =>
      unfold System.wakeLoop
      split
      · rename_i task rest hitems
        have howner := (s.queues.mem_iff (.wait list) task).mp (by simp [hitems])
        exact (wakeFront_spares h howner (by simp) (by simp)).bind_ensures
          (wakeFront_wakes h howner (by simp) reason) fun _ hs => ih hs.1
      · exact Spares.same own s

theorem sleepLoop_spares (h : Core s) (n : Nat) : Spares own s (System.sleepLoop n s) := by
  induction n generalizing s with
  | zero => exact Spares.same own s
  | succ n ih =>
      unfold System.sleepLoop
      split
      · rename_i task rest hitems
        split
        · rename_i hdue
          have howner := (s.queues.mem_iff .sleeping task).mp (by simp [hitems])
          exact (wakeFront_spares h howner (by simp) fun _ _ => hdue).bind_ensures
            (wakeFront_wakes h howner (by simp) .normal) fun _ hs => ih hs.1
        · exact Spares.same own s
      · exact Spares.same own s

theorem sendSignal_spares (sig : Nat) : Spares own s (s.sendSignal t sig) := by
  have hsignalled : Passes own s (s.modify t fun tcb =>
      { tcb with pendingSignals := tcb.pendingSignals ||| (1#64 <<< (sig - 1)) }) :=
    Passes.modify fun _ => .noted ..
  unfold System.sendSignal
  split
  · exact Spares.same own s
  dsimp only
  split
  · exact hsignalled
  split
  · exact Spares.after hsignalled (wake_spares (by simp))
  · exact hsignalled

/-- A task that is not blocked gets the processor. -/
theorem switchToTask_passes (h : (s.tasks t).state ≠ .blocked) :
    Passes own s (s.switchToTask t) := by
  have hmodify : Passes own { s with current := t } (s.switchToTask t) :=
    Passes.modify fun _ => .of_awake h (by simp) rfl
  exact ⟨hmodify.clock, hmodify.handed, hmodify.sleeping, hmodify.task⟩

theorem requeueCurrent_spares : Spares own s s.requeueCurrent := by
  unfold System.requeueCurrent
  split
  · rename_i hrunning
    have hready : Passes own s (s.modify s.current fun tcb => { tcb with state := .ready }) :=
      Passes.modify fun _ => .of_awake (by simp [hrunning]) (by simp) rfl
    dsimp only
    split
    · exact Spares.after hready (link_spares (by simp))
    · exact hready
  · exact Spares.same own s

theorem switchToIdle_spares (h : Core s) : Spares own s s.switchToIdle := by
  obtain ⟨i, hi, hpid, _⟩ := h.idle
  have hawake : (s.tasks i).state ≠ .blocked := by
    rcases ((h.task i).idle hpid).2 with hstate | hstate <;> simp [hstate]
  unfold System.switchToIdle
  rw [hi]
  exact switchToTask_passes hawake

/-- The front of the ready queue gets the processor. -/
theorem leave_spares (h : Core s) : Spares own s s.leave := by
  unfold System.leave
  split
  · rename_i next rest hitems
    have hpending := (s.queues.mem_iff .pending next).mp (by simp [hitems])
    obtain ⟨hhanded, hready, _, _⟩ := h.pending_spec hpending
    have hunlink : Spares (fun _ => False) s (s.unlink .pending next) := unlink_spares .pending
    refine (unlink_spares .pending).bind_ensures hunlink fun s₁ hs₁ => switchToTask_passes ?_
    exact ((hs₁.task next hhanded id).awake (by simp [hready])).1
  · exact switchToIdle_spares h

theorem yield_spares (h : Core s) : Spares own s s.yield := by
  unfold System.yield
  split
  · exact ⟨rfl, fun _ => id, List.Sublist.refl _, fun _ _ _ => .refl ..⟩
  split
  · rename_i next rest hitems
    have hpending := (s.queues.mem_iff .pending next).mp (by simp [hitems])
    obtain ⟨hhanded, hready, _, _⟩ := h.pending_spec hpending
    have hunlink : Spares (fun _ => False) s (s.unlink .pending next) := unlink_spares .pending
    refine (unlink_spares .pending).bind_ensures hunlink fun s₁ hs₁ => ?_
    have hrequeue : Spares (fun _ => False) s₁ s₁.requeueCurrent := requeueCurrent_spares
    refine requeueCurrent_spares.bind_ensures hrequeue fun s₂ hs₂ => switchToTask_passes ?_
    exact (((hs₁.trans hs₂).task next hhanded id).awake (by simp [hready])).1
  · split
    · exact switchToIdle_spares h
    · exact Spares.same own s

theorem enableYield_spares (h : Inv s) : Spares own s s.enableYield := by
  unfold System.enableYield
  dsimp only
  split
  · obtain ⟨hinv, _⟩ := h.setCounters (s.disableYieldCounter - 1#32) false s.msSinceBoot
    refine Spares.after ?_ (yield_spares hinv.toCore)
    exact ⟨rfl, fun _ => id, List.Sublist.refl _, fun _ _ _ => .refl ..⟩
  · exact ⟨rfl, fun _ => id, List.Sublist.refl _, fun _ _ _ => .refl ..⟩

theorem checkSleep_spares (h : Inv s) : Spares own s s.checkSleep := by
  unfold System.checkSleep
  refine (sleepLoop_spares h.toCore _).bind_ensures (sleepLoop_wakes h.toCore _) fun s₁ hs₁ => ?_
  split
  · exact yield_spares hs₁.1
  · exact Spares.same own s₁

/-- The current task has blocked, with its block and the lists as given. -/
def System.parked (s : System) (tcb : TaskControlBlock) (queues : Intrusive Queue TaskId)
    (reason : BlockReason) : System :=
  { s with
    tasks := Function.update s.tasks s.current
      { tcb with state := .blocked, blockReason := reason, wakeReason := .normal }
    queues }

/-- `block` gives the processor away after that, and spares the task that has blocked too. -/
theorem block_settles (h : Inv s) (hidle : (s.tasks s.current).pid ≠ KP_Idle)
    (tcb : TaskControlBlock) (queues : Intrusive Queue TaskId) {owner : Option Queue}
    (howner : queues.owner = Function.update s.queues.owner s.current owner)
    (hpending : owner ≠ some .pending) (hdetach : tcb.requestDetach = detachFor owner)
    (hpid : tcb.pid = (s.tasks s.current).pid) (reason : BlockReason) :
    Spares (fun _ => False) (s.parked tcb queues reason)
      ({ s with tasks := Function.update s.tasks s.current tcb, queues }.block reason) := by
  have hcore := h.core_blocked hidle tcb queues howner hpending hdetach hpid reason
  unfold System.block
  split
  · trivial
  · simp only [System.modify, Function.update_self, Function.update_idem]
    exact yield_spares hcore

theorem block_plain_settles (h : Inv s) (hidle : (s.tasks s.current).pid ≠ KP_Idle)
    (reason : BlockReason) :
    Spares (fun _ => False) (s.parked (s.tasks s.current) s.queues reason) (s.block reason) := by
  have howner : s.queues.owner = Function.update s.queues.owner s.current none := by
    rw [← h.owner_current, Function.update_eq_self]
  have hblock := block_settles h hidle (s.tasks s.current) s.queues howner (by simp)
    (h.detach_of_not_blocked (by simp [h.current])) rfl reason
  rwa [Function.update_eq_self] at hblock

theorem wait_settles (h : Inv s) (hidle : (s.tasks s.current).pid ≠ KP_Idle) (list : WaitId)
    (reason : BlockReason) :
    Ensures (fun _ => True) (fun s' => ∃ queues,
        queues.items .sleeping = s.queues.items .sleeping ∧ Passes (fun _ => False)
          (s.parked { s.tasks s.current with requestDetach := some (.wait list) } queues reason) s')
      (s.wait list reason) := by
  obtain ⟨queues, hpush, howner, hitems⟩ := Intrusive.pushBack_eq h.owner_current (.wait list)
  have hwait : s.wait list reason = ({ s with
      tasks := Function.update s.tasks s.current
        { s.tasks s.current with requestDetach := some (.wait list) }
      queues } : System).block reason := by
    simp [System.wait, System.link, hpush, System.modify, bind, Except.bind]
  rw [hwait]
  have hsettles := block_settles h hidle
    { s.tasks s.current with requestDetach := some (.wait list) } queues howner (by simp) rfl rfl
    reason
  exact hsettles.mono fun s' hs' => ⟨queues, by simp [hitems], hs'⟩

/-- The task that blocked stays as it was then, unless it has been woken since. -/
theorem Passes.parked {tcb : TaskControlBlock} {queues : Intrusive Queue TaskId}
    {reason : BlockReason} (h : Passes (fun _ => False) (s.parked tcb queues reason) s')
    (hhanded : s.handed s.current = true) (hblocked : (s'.tasks s.current).state = .blocked) :
    ∃ pending pid, s'.tasks s.current = { tcb with
      state := .blocked, blockReason := reason, wakeReason := .normal, pendingSignals := pending,
      pid := pid } := by
  obtain ⟨pending, pid, heq⟩ := (h.task s.current hhanded id).asleep hblocked
  refine ⟨pending, pid, ?_⟩
  simpa [System.parked] using heq

/-- Seen by the others. -/
theorem Passes.of_parked {tcb : TaskControlBlock} {queues : Intrusive Queue TaskId}
    {reason : BlockReason} (h : Passes (fun _ => False) (s.parked tcb queues reason) s')
    (hitems : queues.items .sleeping = s.queues.items .sleeping) (hown : own s.current) :
    Passes own s s' := by
  have hparked : Passes own s (s.parked tcb queues reason) :=
    Passes.of_own hown _ (by rw [hitems])
  exact hparked.trans ⟨h.clock, h.handed, h.sleeping, fun u hu _ => h.task u hu id⟩

theorem adoptChildren_spares : Spares own s (s.adoptChildren t) := by
  unfold System.adoptChildren
  split
  · exact Spares.same own s
  split
  · refine Spares.after ?_ (sendSignal_spares _)
    exact ⟨rfl, fun _ => id, List.Sublist.refl _, fun _ _ _ => .refl ..⟩
  · trivial

theorem notifyParent_spares (h : Core s) : Spares own s (s.notifyParent t) := by
  unfold System.notifyParent
  split
  · exact (wakeLoop_spares h _ _ _).bind fun _ _ => sendSignal_spares _
  · exact Spares.same own s

theorem exit_spares (h : Inv s) (hidle : (s.tasks s.current).pid ≠ KP_Idle) (code sig : BitVec 32)
    (hown : own s.current) : Spares own s (s.exit code sig) := by
  unfold System.exit
  split
  · trivial
  have hended : Passes own s (s.modify s.current fun tcb =>
      { tcb with state := .exited, exitStat := (code <<< 8) ||| sig }) :=
    Passes.of_own hown _ (List.Sublist.refl _)
  refine Spares.after hended ?_
  refine adoptChildren_spares.bind_ensures (adoptChildren_spec (h.core_ended hidle _) s.current)
    fun s₂ hs₂ => ?_
  exact (notifyParent_spares hs₂.1).bind_ensures (notifyParent_wakes hs₂.1 s.current)
    fun s₃ hs₃ => leave_spares hs₃.1

theorem newTask_spares (h : Inv s) (mask : BitVec 64) : Spares own s (s.newTask mask) := by
  unfold System.newTask
  split
  · trivial
  · refine ⟨rfl, fun _ => id, List.Sublist.refl _, fun u hhanded _ => ?_⟩
    have hu : u ≠ s.nextTask := by
      rintro rfl
      simp [(h.fresh s.nextTask le_rfl).1] at hhanded
    simpa [Function.update_of_ne hu] using Passive.refl ..

theorem allocPid_passes : Passes own s (s.allocPid t) := by
  unfold System.allocPid
  split
  · rename_i p _
    have hmodify : Passes own s (s.modify t fun tcb => { tcb with pid := (p : Int) }) :=
      Passes.modify fun _ => .noted ..
    exact ⟨hmodify.clock, hmodify.handed, hmodify.sleeping, hmodify.task⟩
  · exact Passes.refl own s

theorem addTask_spares : Spares own s (s.addTask t) := by
  unfold System.addTask
  refine Spares.bind (link_spares (by simp)) fun s₁ _ => ?_
  have hhanded : Passes own s₁ { s₁ with handed := Function.update s₁.handed t true } := by
    refine ⟨rfl, fun u hu => ?_, List.Sublist.refl _, fun _ _ _ => .refl ..⟩
    by_cases hut : u = t
    · simp [hut]
    · simpa [Function.update_of_ne hut] using hu
  refine hhanded.trans ?_
  split
  · exact allocPid_passes
  · exact Passes.refl own _

theorem forkTask_spares (h : Inv s) : Spares own s s.forkTask := by
  unfold System.forkTask
  refine (newTask_spares h _).bind fun s₁ _ => addTask_spares.bind fun s₂ _ => ?_
  split
  · trivial
  · exact Spares.same own s₂

theorem reap_spares (pid : Int) : Ensures (fun _ => True) (fun r => Passes own s r.2) (s.reap pid) := by
  have hfree : Ensures (fun _ => True) (fun r => Passes own s r.2) (s.freeTask pid) := by
    unfold System.freeTask
    split
    · trivial
    split
    · exact Passes.refl own s
    split
    · exact Passes.refl own s
    split
    · trivial
    split
    · trivial
    · exact ⟨rfl, fun _ => id, List.Sublist.refl _, fun _ _ _ => .refl ..⟩
  exact Ensures.bind hfree fun _ hr => hr

theorem waitForChild_spares (h : Inv s) (hidle : (s.tasks s.current).pid ≠ KP_Idle) (pid : Int)
    (options : BitVec 32) (hown : own s.current) :
    Ensures (fun _ => True) (fun r => Passes own s r.2) (s.waitForChild pid options) := by
  unfold System.waitForChild
  split
  · exact Passes.refl own s
  obtain ⟨hinv, hkin⟩ := h.noteWait pid
  have hidle' := (hkin.pid s.current).trans_ne hidle
  have hnoted : Passes own s (s.modify s.current fun tcb => { tcb with waitPid := pid }) :=
    Passes.of_own hown _ (List.Sublist.refl _)
  refine Ensures.bind (wait_settles hinv hidle' (.childs s.current) .waitTask) ?_
  rintro s' ⟨queues, hitems, hs'⟩
  exact hnoted.trans (hs'.of_parked hitems hown)

theorem waitpid_spares (h : Inv s) (hidle : (s.tasks s.current).pid ≠ KP_Idle) (pid : Int)
    (options : BitVec 32) (hown : own s.current) :
    Ensures (fun _ => True) (fun r => Passes own s r.2) (s.waitpid pid options) := by
  rcases waitpid_cases s pid options with ⟨result, hround⟩ | ⟨_, hround⟩ |
    ⟨task, _, _, hround⟩ | ⟨task, _, _, _, hround⟩
  · rw [hround]
    exact Passes.refl own s
  · rw [hround]
    exact waitForChild_spares h hidle pid options hown
  · rw [hround]
    exact reap_spares _
  · rw [hround]
    exact reap_spares _

/-- The actions by which the current task may leave the processor for longer. -/
def Action.parks : Action → Bool
  | .block _ | .sleep _ | .wait _ _ | .exit _ _ | .waitpid _ _ => true
  | _ => false

def Action.mover (s : System) (a : Action) (u : TaskId) : Prop := a.parks = true ∧ u = s.current

/-- The actions that set the clock, the queue of the sleepers or a task of their choice. -/
def Action.special : Action → Bool
  | .sleep _ | .tick | .wake _ _ => true
  | _ => false

theorem act_spares (h : Inv s) {a : Action} (hok : Permitted s a) (ha : a.special = false) :
    Spares (a.mover s) s (act s a) := by
  cases a with
  | createTask => exact newTask_spares h _
  | addTask task => exact addTask_spares
  | fork => exact forkTask_spares h
  | yield => exact yield_spares h.toCore
  | disableYield => exact ⟨rfl, fun _ => id, List.Sublist.refl _, fun _ _ _ => .refl ..⟩
  | enableYield => exact enableYield_spares h
  | block reason =>
      exact (block_plain_settles h hok reason).mono fun _ hs => hs.of_parked rfl ⟨rfl, rfl⟩
  | sleep ms => cases ha
  | wait list reason =>
      refine (wait_settles h hok list reason).mono ?_
      rintro s' ⟨queues, hitems, hs⟩
      exact hs.of_parked hitems ⟨rfl, rfl⟩
  | wakeOne list reason => exact wakeOne_spares h.toCore list reason
  | wakeAll list reason => exact wakeLoop_spares h.toCore list reason _
  | wake task reason => cases ha
  | checkSleep => exact checkSleep_spares h
  | tick => cases ha
  | sendSignal task sig => exact sendSignal_spares sig
  | exit code sig => exact exit_spares h hok code sig ⟨rfl, rfl⟩
  | waitpid pid options =>
      exact Ensures.bind (waitpid_spares h hok pid options ⟨rfl, rfl⟩) fun _ hr => hr

/-- Blocking without `sleep` is for another reason, and stores another callback. -/
def NotAsleep (tcb : TaskControlBlock) : Prop :=
  tcb.state = .blocked → tcb.blockReason ≠ .sleep ∧ tcb.requestDetach ≠ some .sleeping

/-- The reasons that the callers of `block` and `wait` give. -/
def Action.notForSleep : Action → Prop
  | .block reason | .wait _ reason => reason ≠ .sleep
  | _ => True

theorem wait_notAsleep (h : Inv s) (hidle : (s.tasks s.current).pid ≠ KP_Idle) (list : WaitId)
    {reason : BlockReason} (hreason : reason ≠ .sleep) :
    Ensures (fun _ => True) (fun s' => NotAsleep (s'.tasks s.current)) (s.wait list reason) := by
  refine (wait_settles h hidle list reason).mono ?_
  rintro s' ⟨queues, _, hs'⟩ hblocked
  obtain ⟨_, _, heq⟩ := hs'.parked (h.currentHanded.resolve_right hidle) hblocked
  rw [heq]
  exact ⟨hreason, by simp⟩

theorem waitpid_notAsleep (h : Inv s) (hidle : (s.tasks s.current).pid ≠ KP_Idle) (pid : Int)
    (options : BitVec 32) :
    Ensures (fun _ => True) (fun r => NotAsleep (r.2.tasks s.current)) (s.waitpid pid options) := by
  have hawake : (s.tasks s.current).state ≠ .blocked := by simp [h.current]
  have hreap : ∀ pid, Ensures (fun _ => True) (fun r => NotAsleep (r.2.tasks s.current))
      (s.reap pid) := by
    intro pid
    have hpasses : Ensures (fun _ => True) (fun r => Passes (fun _ => False) s r.2) (s.reap pid) :=
      reap_spares pid
    refine hpasses.mono fun r hr hblocked => ?_
    have hpassive := hr.task s.current (h.currentHanded.resolve_right hidle) id
    exact absurd hblocked (hpassive.awake hawake).1
  rcases waitpid_cases s pid options with ⟨result, hround⟩ | ⟨_, hround⟩ |
    ⟨task, _, _, hround⟩ | ⟨task, _, _, _, hround⟩
  · rw [hround]
    exact fun hblocked => absurd hblocked hawake
  · rw [hround]
    unfold System.waitForChild
    split
    · exact fun hblocked => absurd hblocked hawake
    · obtain ⟨hinv, hkin⟩ := h.noteWait pid
      have hidle' := (hkin.pid s.current).trans_ne hidle
      exact Ensures.bind (wait_notAsleep hinv hidle' (.childs s.current) (by simp)) fun _ hs => hs
  · rw [hround]
    exact hreap _
  · rw [hround]
    exact hreap _

/-- The task that performs an action other than `sleep` is not asleep after it. -/
theorem act_notAsleep (h : Inv s) {a : Action} (hok : Permitted s a) (ha : a.special = false)
    (hparks : a.parks = true) (hreason : a.notForSleep) :
    Ensures (fun _ => True) (fun s' => NotAsleep (s'.tasks s.current)) (act s a) := by
  cases a with
  | block reason =>
      refine (block_plain_settles h hok reason).mono fun s' hs' hblocked => ?_
      obtain ⟨_, _, heq⟩ := hs'.parked (h.currentHanded.resolve_right hok) hblocked
      rw [heq]
      have hdetach := h.detach_of_not_blocked (t := s.current) (by simp [h.current])
      exact ⟨hreason, by simp [hdetach]⟩
  | wait list reason => exact wait_notAsleep h hok list hreason
  | exit code sig =>
      refine Ensures.mono ((exit_spec h hok code sig).allow fun _ _ => trivial) ?_
      rintro s' ⟨_, hexits⟩ hblocked
      have hended := (hexits.ended s.current).mpr (Or.inr rfl)
      simp [hended] at hblocked
  | waitpid pid options =>
      exact Ensures.bind (waitpid_notAsleep h hok pid options) fun _ hr => hr
  | sleep ms => cases ha
  | createTask | addTask | fork | yield | disableYield | enableYield | wakeOne | wakeAll | wake
  | checkSleep | tick | sendSignal => cases hparks

/-- A task that is blocked afterwards was handed over before. -/
theorem Effect.handed_of_blocked {a : Action} (h : Effect s a s') (hinv : Inv s')
    (hblocked : (s'.tasks t).state = .blocked) : s.handed t = true := by
  have hhanded := hinv.handed_of_blocked hblocked
  cases h with
  | schedules hkin => rwa [hkin.handed] at hhanded
  | exits code sig hexits => rwa [hexits.handed] at hhanded
  | creates hcreates => rwa [hcreates.handed] at hhanded
  | adds task _ hadds =>
      have hne : t ≠ task := by
        rintro rfl
        simp [hadds.state, hadds.ready] at hblocked
      rwa [hadds.handed, Function.update_of_ne hne] at hhanded
  | forks s₁ _ hcreates hadds _ =>
      have hne : t ≠ s.nextTask := by
        rintro rfl
        simp [hadds.state, hadds.ready] at hblocked
      rwa [hadds.handed, Function.update_of_ne hne, hcreates.handed] at hhanded
  | frees pid task hfrees => rwa [hfrees.handed] at hhanded

/-- A task that returns from a wait forgets why it was woken. -/
theorem Inv.endWait (h : Inv s) :
    Inv (s.modify s.current fun tcb => { tcb with wakeReason := .normal }) ∧
      Kin s (s.modify s.current fun tcb => { tcb with wakeReason := .normal }) := by
  have hok := h.task s.current
  have hcore : Core (s.modify s.current fun tcb => { tcb with wakeReason := .normal }) :=
    h.modify ⟨hok.detach, hok.pending, hok.waiting, hok.running, hok.unhanded, hok.idle⟩ rfl
  exact ⟨⟨hcore, by simpa [System.modify] using h.current⟩,
    Kin.update s.queues s.current rfl rfl Iff.rfl⟩

end Nyan.Task
