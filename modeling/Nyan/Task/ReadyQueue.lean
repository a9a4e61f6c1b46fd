import Nyan.Task.QueueDiscipline

/-!
Who gets the processor. Tasks come to the end of the ready queue and only its front is
taken, whatever the operation: a task that is ready waits for the tasks before it and for
nobody else, and each of them is on the processor once before it is. While yielding is
disabled nobody gets it but after an exit; a `yield` meanwhile is made up for at the end.
-/

namespace Nyan.Task

open Library

/-- What decides who runs next. -/
structure Cpu where
  current : TaskId
  ready : List TaskId
  disableYieldCounter : BitVec 32
  needYield : Bool

def System.cpu (s : System) : Cpu :=
  ⟨s.current, s.queues.items .pending, s.disableYieldCounter, s.needYield⟩

/-- The current task keeps the processor, and tasks only come to the end of the queue. -/
structure Keeps (c c' : Cpu) : Prop where
  current : c'.current = c.current
  ready : c.ready <+: c'.ready
  needYield : c.needYield = true → c'.needYield = true

structure Joins (c c' : Cpu) : Prop extends Keeps c c' where
  counter : c'.disableYieldCounter = c.disableYieldCounter

/-- The front of the queue gets the processor; if the queue is empty, anyone may. -/
def Switches (c c' : Cpu) : Prop :=
  c.ready.tail <+: c'.ready ∧ ∀ next ∈ c.ready.head?, c'.current = next

/-- The processor changes hands only if the counter of `disableYield` is `free`. -/
def Advances (free : BitVec 32 → Bool) (c c' : Cpu) : Prop :=
  Keeps c c' ∨ free c.disableYieldCounter = true ∧ Switches c c'

/-- Where an operation succeeds, the processor changes in this way. -/
def Moves (how : Cpu → Cpu → Prop) (s : System) (r : Except Stop System) : Prop :=
  Ensures (fun _ => True) (fun s' => how s.cpu s'.cpu) r

theorem Keeps.refl (c : Cpu) : Keeps c c := ⟨rfl, List.prefix_rfl, id⟩

theorem Keeps.trans {c c₁ c' : Cpu} (h : Keeps c c₁) (h' : Keeps c₁ c') : Keeps c c' :=
  ⟨h'.current.trans h.current, h.ready.trans h'.ready, h'.needYield ∘ h.needYield⟩

theorem Joins.refl (c : Cpu) : Joins c c := ⟨.refl c, rfl⟩

variable {free : BitVec 32 → Bool}

theorem Advances.after {c c₁ c' : Cpu} (h : Advances free c₁ c') (hc : Joins c c₁) :
    Advances free c c' := by
  rcases h with hkeeps | ⟨hfree, hrest, hnext⟩
  · exact Or.inl (hc.trans hkeeps)
  · refine Or.inr ⟨hc.counter ▸ hfree, ?_⟩
    obtain ⟨joined, hjoined⟩ := hc.ready
    unfold Switches
    rw [← hjoined] at hrest hnext
    cases hready : c.ready with
    | nil => simp
    | cons next rest =>
        rw [hready] at hrest hnext
        exact ⟨(List.prefix_append rest joined).trans hrest, hnext⟩

variable {s s₁ s' : System} {t : TaskId} {queue : Queue} {r : Except Stop System}

theorem Moves.after (h : Moves Joins s₁ r) (hs : Joins s.cpu s₁.cpu) : Moves Joins s r :=
  h.mono fun _ h' => ⟨hs.trans h'.toKeeps, h'.counter.trans hs.counter⟩

theorem Moves.bind {next : System → Except Stop System} (h : Moves Joins s r)
    (hnext : ∀ s₁, Moves Joins s₁ (next s₁)) : Moves Joins s (r >>= next) :=
  Ensures.bind h fun s₁ hs => (hnext s₁).after hs

theorem Moves.advances (h : Moves Joins s r) : Moves (Advances free) s r :=
  h.mono fun _ hs => Or.inl hs.toKeeps

theorem Moves.advances_after (h : Moves (Advances free) s₁ r) (hs : Joins s.cpu s₁.cpu) :
    Moves (Advances free) s r :=
  h.mono fun _ hadvances => hadvances.after hs

theorem unlink_joins (hqueue : queue ≠ .pending) : Moves Joins s (s.unlink queue t) := by
  unfold System.unlink
  split
  · rename_i queues hextract
    refine ⟨⟨rfl, ?_, id⟩, rfl⟩
    change s.queues.items .pending <+: queues.items .pending
    rw [Intrusive.items_of_extract hextract, Function.update_of_ne hqueue.symm]
  · trivial

variable (s) (t) (queue) (reason : WakeReason)

theorem link_joins : Moves Joins s (s.link queue t) := by
  unfold System.link
  split
  · rename_i queues hpush
    refine ⟨⟨rfl, ?_, id⟩, rfl⟩
    change s.queues.items .pending <+: queues.items .pending
    rw [Intrusive.items_of_insertAt hpush]
    by_cases hqueue : queue = .pending
    · subst hqueue
      simp
    · rw [Function.update_of_ne (Ne.symm hqueue)]
  · trivial

theorem wake_joins : Moves Joins s (s.wake t reason) := by
  unfold System.wake
  split
  · exact Joins.refl _
  dsimp only
  split
  · rename_i detach _
    have hqueue : detach.queue ≠ .pending := by cases detach <;> simp [Detach.queue]
    exact ((unlink_joins hqueue).after (.refl _)).bind fun s₂ => link_joins s₂ t _
  · exact (link_joins _ t _).after (.refl _)

variable {queue} in
theorem wakeFront_joins (hqueue : queue ≠ .pending) :
    Moves Joins s (s.wakeFront queue t reason) :=
  (unlink_joins hqueue).bind fun _ => (wake_joins _ t reason).after (.refl _)

theorem wakeOne_joins (list : WaitId) : Moves Joins s (s.wakeOne list reason) := by
  unfold System.wakeOne
  split
  · exact wakeFront_joins _ _ reason (by simp)
  · exact Joins.refl _

theorem wakeLoop_joins (list : WaitId) (n : Nat) :
    Moves Joins s (System.wakeLoop list reason n s) := by
  induction n generalizing s with
  | zero => exact Joins.refl _
  | succ n ih =>
      unfold System.wakeLoop
      split
      · exact (wakeFront_joins _ _ reason (by simp)).bind ih
      · exact Joins.refl _

theorem sleepLoop_joins (n : Nat) : Moves Joins s (System.sleepLoop n s) := by
  induction n generalizing s with
  | zero => exact Joins.refl _
  | succ n ih =>
      unfold System.sleepLoop
      split
      · split
        · exact (wakeFront_joins _ _ .normal (by simp)).bind ih
        · exact Joins.refl _
      · exact Joins.refl _

theorem sendSignal_joins (sig : Nat) : Moves Joins s (s.sendSignal t sig) := by
  simp only [System.sendSignal]
  split
  · exact Joins.refl _
  split
  · exact Joins.refl _
  split
  · exact (wake_joins _ t .signal).after (.refl _)
  · exact Joins.refl _

theorem newTask_joins (mask : BitVec 64) : Moves Joins s (s.newTask mask) := by
  unfold System.newTask
  split
  · trivial
  · exact Joins.refl _

theorem addTask_joins : Moves Joins s (s.addTask t) := by
  refine (link_joins s t .pending).bind fun s₁ => ?_
  change Joins s₁.cpu _
  split
  · unfold System.allocPid
    split <;> exact Joins.refl _
  · exact Joins.refl _

theorem forkTask_joins : Moves Joins s s.forkTask := by
  refine (newTask_joins s _).bind fun s₁ => (addTask_joins s₁ _).bind fun s₂ => ?_
  split
  · trivial
  · exact Joins.refl _

theorem reap_joins (pid : Int) :
    Ensures (fun _ => True) (fun r => Joins s.cpu r.2.cpu) (s.reap pid) := by
  unfold System.reap System.freeTask
  split
  · trivial
  split
  · exact Joins.refl _
  split
  · exact Joins.refl _
  split
  · trivial
  split
  · trivial
  · exact Joins.refl _

theorem requeueCurrent_joins : Moves Joins s s.requeueCurrent := by
  simp only [System.requeueCurrent]
  split
  · split
    · exact (link_joins _ _ _).after (.refl _)
    · exact Joins.refl _
  · exact Joins.refl _

theorem adoptChildren_joins : Moves Joins s (s.adoptChildren t) := by
  unfold System.adoptChildren
  split
  · exact Joins.refl _
  split
  · exact (sendSignal_joins _ _ _).after (.refl _)
  · trivial

theorem notifyParent_joins : Moves Joins s (s.notifyParent t) := by
  unfold System.notifyParent
  split
  · exact (wakeLoop_joins s _ _ _).bind fun s₁ => sendSignal_joins s₁ _ _
  · exact Joins.refl _

variable {s}

theorem moves_of_front (h : ∀ next rest, s.queues.items .pending = next :: rest →
    Ensures (fun _ => True) (fun s' => s'.current = next ∧ rest <+: s'.cpu.ready) r) :
    Moves Switches s r := by
  unfold Moves Switches System.cpu
  cases hready : s.queues.items .pending with
  | nil => cases r <;> simp [Ensures]
  | cons next rest =>
      refine (h next rest hready).mono fun s' hs' => ⟨hs'.2, ?_⟩
      simpa using hs'.1

theorem unlink_front {next : TaskId} {rest : List TaskId}
    (hready : s.queues.items .pending = next :: rest) :
    Ensures (fun _ => True) (fun s' => s'.cpu.ready = rest) (s.unlink .pending next) := by
  unfold System.unlink
  split
  · rename_i queues hextract
    change queues.items .pending = rest
    rw [Intrusive.items_of_extract hextract, Function.update_self, hready, List.erase_cons_head]
  · trivial

theorem yield_switches (hcounter : s.disableYieldCounter = 0#32) : Moves Switches s s.yield := by
  refine moves_of_front fun next rest hready => ?_
  rw [System.yield, if_neg (not_not.mpr hcounter), hready]
  refine Ensures.bind (unlink_front hready) fun s₁ hrest => ?_
  exact Ensures.bind (requeueCurrent_joins s₁) fun s₂ hs₂ => ⟨rfl, hrest ▸ hs₂.ready⟩

theorem enableYield_switches (hlast : s.disableYieldCounter - 1#32 = 0#32 ∧ s.needYield = true) :
    Moves Switches s s.enableYield := by
  rw [System.enableYield, if_pos hlast]
  exact (yield_switches hlast.1).mono fun _ hs => hs

variable (s)

theorem leave_switches : Moves Switches s s.leave := by
  refine moves_of_front fun next rest hready => ?_
  rw [System.leave, hready]
  exact Ensures.bind (unlink_front hready) fun s₁ hrest => ⟨rfl, hrest ▸ List.prefix_rfl⟩

theorem yield_advances : Moves (Advances (· == 0#32)) s s.yield := by
  by_cases hcounter : s.disableYieldCounter = 0#32
  · exact (yield_switches hcounter).mono fun _ hs => Or.inr ⟨beq_iff_eq.mpr hcounter, hs⟩
  · rw [System.yield, if_pos hcounter]
    exact Or.inl ⟨rfl, List.prefix_rfl, fun _ => rfl⟩

theorem enableYield_advances : Moves (Advances (· == 1#32)) s s.enableYield := by
  by_cases hlast : s.disableYieldCounter - 1#32 = 0#32 ∧ s.needYield = true
  · refine (enableYield_switches hlast).mono fun s' hs => Or.inr ⟨?_, hs⟩
    exact beq_iff_eq.mpr (sub_eq_zero.mp hlast.1)
  · rw [System.enableYield, if_neg hlast]
    exact Or.inl ⟨rfl, List.prefix_rfl, id⟩

theorem block_advances (reason : BlockReason) :
    Moves (Advances (· == 0#32)) s (s.block reason) := by
  unfold System.block
  split
  · trivial
  · exact (yield_advances _).advances_after (.refl _)

theorem sleep_advances (ms : BitVec 64) : Moves (Advances (· == 0#32)) s (s.sleep ms) := by
  simp only [System.sleep]
  split
  · trivial
  split
  · trivial
  · rename_i queues hinsert
    refine (block_advances _ _).advances_after ⟨⟨rfl, ?_, id⟩, rfl⟩
    change s.queues.items .pending <+: queues.items .pending
    rw [Intrusive.items_of_insertAt hinsert, Function.update_of_ne (by simp)]
    rfl

theorem wait_advances (list : WaitId) (reason : BlockReason) :
    Moves (Advances (· == 0#32)) s (s.wait list reason) :=
  Ensures.bind (link_joins s _ _) fun _ hs => (block_advances _ _).advances_after hs

theorem checkSleep_advances : Moves (Advances (· == 0#32)) s s.checkSleep := by
  refine Ensures.bind (sleepLoop_joins s _) fun s₁ hs => ?_
  split
  · exact (yield_advances s₁).advances_after hs
  · exact Or.inl hs.toKeeps

theorem waitpid_advances (pid : Int) (options : BitVec 32) :
    Ensures (fun _ => True) (fun r => Advances (· == 0#32) s.cpu r.2.cpu)
      (s.waitpid pid options) := by
  rcases waitpid_cases s pid options with ⟨result, hround⟩ | ⟨_, hround⟩ |
    ⟨task, _, _, hround⟩ | ⟨task, _, _, _, hround⟩ <;> rw [hround]
  · exact Or.inl (.refl _)
  · unfold System.waitForChild
    split
    · exact Or.inl (.refl _)
    · exact Ensures.bind ((wait_advances _ _ _).advances_after (.refl _)) fun _ hs => hs
  · exact (reap_joins s _).mono fun _ hs => Or.inl hs.toKeeps
  · exact (reap_joins s _).mono fun _ hs => Or.inl hs.toKeeps

theorem exit_advances (code sig : BitVec 32) :
    Moves (Advances fun _ => true) s (s.exit code sig) := by
  unfold System.exit
  split
  · trivial
  refine Ensures.bind (adoptChildren_joins _ _) fun s₂ hs₂ => ?_
  refine Ensures.bind ((notifyParent_joins s₂ _).after hs₂) fun s₃ hs₃ => ?_
  exact (leave_switches s₃).mono fun s' hs' => Advances.after (Or.inr ⟨rfl, hs'⟩) hs₃

/-- The counter with which a call may end with another task on the processor. -/
def maySwitch : Action → BitVec 32 → Bool
  | .exit _ _, _ => true
  | .enableYield, counter => counter == 1#32
  | _, counter => counter == 0#32

theorem act_advances : (a : Action) → Moves (Advances (maySwitch a)) s (act s a)
  | .createTask => (newTask_joins s _).advances
  | .addTask task => (addTask_joins s task).advances
  | .fork => (forkTask_joins s).advances
  | .yield => yield_advances s
  | .disableYield => Or.inl ⟨rfl, List.prefix_rfl, id⟩
  | .enableYield => enableYield_advances s
  | .block reason => block_advances s reason
  | .sleep ms => sleep_advances s ms
  | .wait list reason => wait_advances s list reason
  | .wakeOne list reason => (wakeOne_joins s reason list).advances
  | .wakeAll list reason => (wakeLoop_joins s reason list _).advances
  | .wake task reason => (wake_joins s task reason).advances
  | .checkSleep => checkSleep_advances s
  | .tick => (checkSleep_advances _).advances_after (.refl _)
  | .sendSignal task sig => (sendSignal_joins s task sig).advances
  | .exit code sig => exit_advances s code sig
  | .waitpid pid options => Ensures.bind (waitpid_advances s pid options) fun _ hs => hs

variable {s} {a : Action}

theorem act_of_step (hstep : step s a = some s') : act s a = .ok s' := by
  unfold step at hstep
  cases hact : act s a with
  | ok s₁ => simpa [hact, Except.toOption] using hstep
  | error stop => simp [hact, Except.toOption] at hstep

theorem step_advances (hstep : step s a = some s') : Advances (maySwitch a) s.cpu s'.cpu :=
  (act_advances s a).of_ok (act_of_step hstep)

/-- A step, with the tasks that have got the processor so far, in this order. -/
def logged (p : System × List TaskId) (a : Action) : Option (System × List TaskId) :=
  (step p.1 a).map fun s => (s, if s.current = p.1.current then p.2 else p.2 ++ [s.current])

theorem logged_step {p p' : System × List TaskId} {ready : List TaskId}
    (hcurrent : p.1.current ∉ p.1.cpu.ready) (hp : ready <+: p.2 ++ p.1.cpu.ready)
    (hstep : logged p a = some p') : ready <+: p'.2 ++ p'.1.cpu.ready := by
  obtain ⟨s, served⟩ := p
  obtain ⟨s', hs', rfl⟩ := Option.map_eq_some_iff.mp hstep
  refine hp.trans ?_
  rcases step_advances hs' with hkeeps | ⟨_, hrest, hnext⟩
  · rw [if_pos (show s'.current = s.current from hkeeps.current)]
    exact (List.prefix_append_right_inj served).mpr hkeeps.ready
  cases hready : s.cpu.ready with
  | nil =>
      dsimp only
      split <;> simp
  | cons next rest =>
      rw [hready] at hrest hnext hcurrent
      obtain rfl : s'.current = next := hnext next rfl
      have hchanges : s'.current ≠ s.current := fun heq => hcurrent (heq ▸ List.mem_cons_self)
      rw [if_neg hchanges]
      simpa using hrest

/-- The tasks that are ready get the processor in the order of the queue, before any that
become ready later. -/
theorem run_firstComeFirstServed {acts acts' : List Action} {served : List TaskId}
    (hs : Run step Permitted System.boot acts s)
    (hrun : Run logged (fun p => Permitted p.1) (s, []) acts' (s', served)) :
    s.cpu.ready <+: served ++ s'.cpu.ready := by
  refine (hrun.invariant (P := fun p => (Inv p.1 ∧ InitAlive p.1) ∧
    s.cpu.ready <+: p.2 ++ p.1.cpu.ready) ?_ ⟨run_inv hs, List.prefix_rfl⟩).2
  rintro p a p' ⟨⟨hinv, hinit⟩, hp⟩ hok hstep
  obtain ⟨s₁, hs₁, rfl⟩ := Option.map_eq_some_iff.mp hstep
  obtain ⟨hinv', heffect⟩ := step_spec hinv hinit hok hs₁
  refine ⟨⟨hinv', heffect.initAlive hinit⟩, logged_step ?_ hp hstep⟩
  exact hinv.discipline.unlinked _ .pending (Or.inl rfl)

theorem run_firstComeFirstServed_two_children :
    ∃ s s' : System, Run logged (fun p => Permitted p.1) (s, []) [.yield] (s', [2]) ∧
      s.cpu.ready = [2, 3] ∧ s.cpu.ready <+: [2] ++ s'.cpu.ready := by
  obtain ⟨s, hs, hready, ⟨s', served⟩, hfold, rfl⟩ :
      ∃ s ∈ [.fork, .fork].foldlM (guardedStep step Permitted) System.boot,
        s.cpu.ready = [2, 3] ∧ ∃ p ∈ [.yield].foldlM (guardedStep logged
          fun p => Permitted p.1) (s, []), p.2 = [2] := by
    decide
  have hrun := Run.of_foldlM hfold
  exact ⟨s, s', hrun, hready, run_firstComeFirstServed (Run.of_foldlM hs) hrun⟩

/-- The steps of a section in which yielding is disabled. -/
abbrev Inside (s : System) (a : Action) : Prop := maySwitch a s.disableYieldCounter = false

end Nyan.Task
