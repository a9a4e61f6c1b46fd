import Nyan.Fs.Pipe
import Nyan.Task.WaitLists

/-!
Readers and writers that wait on pipes. A pipe has two wait lists. A reader waits
while the pipe is empty and a writer may still come, a writer while it is full and a
reader may still come; every operation that ends such a condition wakes the whole
list. So nobody is left on a list after the condition has ended, in any interleaving
of transfers, closes, signals and the other operations of the scheduler.

A step is what a task does until interrupts are on again or it blocks. A task that is
woken checks its condition again, which is a step of its own; if a signal woke it, it
returns `EINTR` and does nothing more.
-/

namespace Nyan.Fs

open Nyan.Library Nyan.Task

def SIGPIPE : Nat := 13

namespace PipeState

variable {pipe pipe' : PipeState} {sz : BitVec 32}

theorem read_waits (h : pipe.read sz = some (.waits, pipe')) :
    pipe.empty = true ∧ pipe.writeAlive = true := by
  unfold read at h
  split at h
  · rename_i hwaits
    simpa using hwaits
  split at h
  · cases h
  · simp only [Option.bind_eq_bind, Option.bind_eq_some_iff, Option.pure_def] at h
    obtain ⟨_, _, h⟩ := h
    cases h

theorem read_returns {bytes : List Byte} (h : pipe.read sz = some (.returns bytes, pipe')) :
    ¬ (pipe.empty = true ∧ pipe.writeAlive = true) := by
  rintro hboth
  unfold read at h
  rw [if_pos (by simpa using hboth)] at h
  cases h

theorem write_waits {cur : Nat → Byte} (h : pipe.write cur sz = some (.waits, pipe')) :
    pipe.full = true ∧ pipe.readAlive = true := by
  unfold write at h
  split at h
  · rename_i hwaits
    simpa using hwaits
  split at h
  · cases h
  · simp only [Option.bind_eq_bind, Option.bind_eq_some_iff, Option.pure_def] at h
    obtain ⟨_, _, h⟩ := h
    cases h

theorem write_returns {cur : Nat → Byte} {result : Except Errno (BitVec 32)}
    (h : pipe.write cur sz = some (.returns result, pipe')) :
    ¬ (pipe.full = true ∧ pipe.readAlive = true) := by
  rintro hboth
  unfold write at h
  rw [if_pos (by simpa using hboth)] at h
  cases h

end PipeState

/-- The scheduler and the pipes, by number. -/
structure PipeSystem where
  tasks : System
  pipe : Nat → PipeState

namespace PipeSystem

/-- `__read_wait` of a pipe. -/
def readWait (p : Nat) : WaitId := .other (3 * p)

/-- `__write_wait` of a pipe. -/
def writeWait (p : Nat) : WaitId := .other (3 * p + 1)

variable (s : PipeSystem) (p : Nat)

def setPipe (tasks : System) (pipe : PipeState) : PipeSystem :=
  { tasks, pipe := Function.update s.pipe p pipe }

/-- `PipeState::read` by the current task. Nobody is woken at the end of the file. -/
def read (sz : BitVec 32) : Except Stop (Blocking (List Byte) × PipeSystem) :=
  match (s.pipe p).read sz with
  | none => .error .corrupt
  | some (.waits, _) => do
      let tasks ← s.tasks.wait (readWait p) .waitInput
      return (.waits, { s with tasks })
  | some (.returns bytes, pipe) =>
      if (s.pipe p).empty && !(s.pipe p).writeAlive then
        .ok (.returns bytes, s)
      else do
        let tasks ← s.tasks.wakeAll (writeWait p) .normal
        return (.returns bytes, s.setPipe p tasks pipe)

/-- `PipeState::write` by the current task. -/
def write (cur : Nat → Byte) (sz : BitVec 32) :
    Except Stop (Blocking (Except Errno (BitVec 32)) × PipeSystem) :=
  match (s.pipe p).write cur sz with
  | none => .error .corrupt
  | some (.waits, _) => do
      let tasks ← s.tasks.wait (writeWait p) .waitInput
      return (.waits, { s with tasks })
  | some (.returns (.error err), _) => do
      let tasks ← s.tasks.sendSignal s.tasks.current SIGPIPE
      return (.returns (.error err), { s with tasks })
  | some (.returns (.ok len), pipe) => do
      let tasks ← s.tasks.wakeAll (readWait p) .normal
      return (.returns (.ok len), s.setPipe p tasks pipe)

/-- `onReadClosed`, with its wake-up. -/
def closeRead : Except Stop PipeSystem := do
  let tasks ← s.tasks.wakeAll (writeWait p) .normal
  return s.setPipe p tasks (s.pipe p).onReadClosed

def closeWrite : Except Stop PipeSystem := do
  let tasks ← s.tasks.wakeAll (readWait p) .normal
  return s.setPipe p tasks (s.pipe p).onWriteClosed

end PipeSystem

/-- What the current task or an interrupt does. A signal is an action of the
scheduler. -/
inductive PipeAction where
  | read (p : Nat) (sz : BitVec 32)
  | write (p : Nat) (cur : Nat → Byte) (sz : BitVec 32)
  | closeRead (p : Nat)
  | closeWrite (p : Nat)
  | other (a : Action)

namespace PipeSystem

def act (s : PipeSystem) : PipeAction → Except Stop PipeSystem
  | .read p sz => do return (← s.read p sz).2
  | .write p cur sz => do return (← s.write p cur sz).2
  | .closeRead p => s.closeRead p
  | .closeWrite p => s.closeWrite p
  | .other a => do return { s with tasks := ← Task.act s.tasks a }

def step (s : PipeSystem) (a : PipeAction) : Option PipeSystem := (s.act a).toOption

/-- Only the code of the pipe waits on the lists of a pipe. -/
def Private (s : PipeSystem) : PipeAction → Prop
  | .other a => ∀ p, a.list s.tasks ≠ some (readWait p) ∧ a.list s.tasks ≠ some (writeWait p)
  | _ => True

def boot (buffer : Nat → List.Vector Byte 0x1000) : PipeSystem where
  tasks := System.boot
  pipe p := PipeState.new (buffer p)

/-- Whoever is on a list of a pipe has a reason to be there. -/
structure NoLostWakeup (s : PipeSystem) : Prop where
  readers : ∀ p t, t ∈ s.tasks.queues.items (.wait (readWait p)) →
    (s.pipe p).empty = true ∧ (s.pipe p).writeAlive = true
  writers : ∀ p t, t ∈ s.tasks.queues.items (.wait (writeWait p)) →
    (s.pipe p).full = true ∧ (s.pipe p).readAlive = true

variable {s s' : PipeSystem} {p : Nat}

theorem readWait_inj {q : Nat} (h : readWait p = readWait q) : p = q := by
  simpa [readWait] using h

theorem writeWait_inj {q : Nat} (h : writeWait p = writeWait q) : p = q := by
  simpa [writeWait] using h

theorem readWait_ne_writeWait (p q : Nat) : readWait p ≠ writeWait q := by
  simp only [readWait, writeWait, ne_eq, WaitId.other.injEq]
  omega

/-- The invariant in terms of `Waiting`. -/
theorem noLostWakeup_iff : NoLostWakeup s ↔
    (∀ p t, Waiting s.tasks t (readWait p) →
      (s.pipe p).empty = true ∧ (s.pipe p).writeAlive = true) ∧
    ∀ p t, Waiting s.tasks t (writeWait p) →
      (s.pipe p).full = true ∧ (s.pipe p).readAlive = true := by
  simp only [waiting_iff_mem]
  exact ⟨fun h => ⟨h.readers, h.writers⟩, fun h => ⟨h.1, h.2⟩⟩

theorem NoLostWakeup.quiet (h : NoLostWakeup s) {tasks : System} (hquiet : NoNewWaits s.tasks tasks) :
    NoLostWakeup { s with tasks } := by
  obtain ⟨hreaders, hwriters⟩ := noLostWakeup_iff.mp h
  exact noLostWakeup_iff.mpr ⟨fun p t hwaiting => hreaders p t (hquiet _ _ hwaiting),
    fun p t hwaiting => hwriters p t (hquiet _ _ hwaiting)⟩

/-- A task joins a list whose condition holds. -/
theorem NoLostWakeup.join (h : NoLostWakeup s) {tasks : System} {joined : Task.TaskId}
    {list : WaitId}
    (hjoins : ∀ u l, Waiting tasks u l → Waiting s.tasks u l ∨ u = joined ∧ l = list)
    (hreader : ∀ q, list = readWait q →
      (s.pipe q).empty = true ∧ (s.pipe q).writeAlive = true)
    (hwriter : ∀ q, list = writeWait q →
      (s.pipe q).full = true ∧ (s.pipe q).readAlive = true) :
    NoLostWakeup { s with tasks } := by
  obtain ⟨hreaders, hwriters⟩ := noLostWakeup_iff.mp h
  refine noLostWakeup_iff.mpr ⟨fun q t hwaiting => ?_, fun q t hwaiting => ?_⟩
  · rcases hjoins t _ hwaiting with hold | ⟨_, heq⟩
    · exact hreaders q t hold
    · exact hreader q heq.symm
  · rcases hjoins t _ hwaiting with hold | ⟨_, heq⟩
    · exact hwriters q t hold
    · exact hwriter q heq.symm

/-- A pipe changes, and nobody waits for what has changed. -/
theorem NoLostWakeup.setPipe (h : NoLostWakeup s) {tasks : System} {pipe : PipeState}
    (hquiet : NoNewWaits s.tasks tasks)
    (hreader : ∀ t, Waiting tasks t (readWait p) → pipe.empty = true ∧ pipe.writeAlive = true)
    (hwriter : ∀ t, Waiting tasks t (writeWait p) → pipe.full = true ∧ pipe.readAlive = true) :
    NoLostWakeup (s.setPipe p tasks pipe) := by
  obtain ⟨hreaders, hwriters⟩ := noLostWakeup_iff.mp h
  refine noLostWakeup_iff.mpr ⟨fun q t hwaiting => ?_, fun q t hwaiting => ?_⟩
  · by_cases hq : q = p
    · subst hq
      simpa [PipeSystem.setPipe] using hreader t hwaiting
    · simpa [PipeSystem.setPipe, Function.update_of_ne hq] using
        hreaders q t (hquiet _ _ hwaiting)
  · by_cases hq : q = p
    · subst hq
      simpa [PipeSystem.setPipe] using hwriter t hwaiting
    · simpa [PipeSystem.setPipe, Function.update_of_ne hq] using
        hwriters q t (hquiet _ _ hwaiting)

/-- `wakeAll` as the pipe uses it. -/
theorem wakeAll_spec (tasks : System) (list : WaitId) :
    Ensures (fun _ => True) (fun tasks' => NoNewWaits tasks tasks' ∧ ∀ t, ¬ Waiting tasks' t list)
      (tasks.wakeAll list .normal) := by
  have hquiet := wakeAll_quiet tasks list .normal
  have hclears := wakeAll_clears tasks list .normal
  cases hresult : tasks.wakeAll list .normal with
  | ok tasks' =>
      rw [hresult] at hquiet hclears
      exact ⟨hquiet, hclears⟩
  | error stop => trivial

theorem read_keeps (h : NoLostWakeup s) (sz : BitVec 32) :
    Ensures (fun _ => True) (fun r => NoLostWakeup r.2) (s.read p sz) := by
  obtain ⟨hreaders, hwriters⟩ := noLostWakeup_iff.mp h
  unfold PipeSystem.read
  split
  · trivial
  · rename_i pipe hround
    refine Ensures.bind (wait_joins s.tasks (readWait p) .waitInput) fun tasks hjoins => ?_
    refine h.join hjoins ?_ fun q heq => absurd heq (readWait_ne_writeWait p q)
    rintro q heq
    obtain rfl := readWait_inj heq
    exact PipeState.read_waits hround
  · rename_i bytes pipe hround
    split
    · exact h
    · refine Ensures.bind (wakeAll_spec s.tasks (writeWait p)) fun tasks htasks => ?_
      refine h.setPipe htasks.1 (fun t hwaiting => ?_) fun t hwaiting =>
        absurd hwaiting (htasks.2 t)
      exact absurd (hreaders p t (htasks.1 _ _ hwaiting)) (PipeState.read_returns hround)

theorem write_keeps (h : NoLostWakeup s) (cur : Nat → Byte) (sz : BitVec 32) :
    Ensures (fun _ => True) (fun r => NoLostWakeup r.2) (s.write p cur sz) := by
  obtain ⟨hreaders, hwriters⟩ := noLostWakeup_iff.mp h
  unfold PipeSystem.write
  split
  · trivial
  · rename_i pipe hround
    refine Ensures.bind (wait_joins s.tasks (writeWait p) .waitInput) fun tasks hjoins => ?_
    refine h.join hjoins (fun q heq => absurd heq.symm (readWait_ne_writeWait q p)) ?_
    rintro q heq
    obtain rfl := writeWait_inj heq
    exact PipeState.write_waits hround
  · exact Ensures.bind (sendSignal_quiet s.tasks _ SIGPIPE) fun tasks htasks => h.quiet htasks
  · rename_i len pipe hround
    refine Ensures.bind (wakeAll_spec s.tasks (readWait p)) fun tasks htasks => ?_
    refine h.setPipe htasks.1 (fun t hwaiting => absurd hwaiting (htasks.2 t)) fun t hwaiting => ?_
    exact absurd (hwriters p t (htasks.1 _ _ hwaiting)) (PipeState.write_returns hround)

/-- The reader's end is closed: the writers are woken, the readers stay. -/
theorem closeRead_keeps (h : NoLostWakeup s) :
    Ensures (fun _ => True) NoLostWakeup (s.closeRead p) := by
  obtain ⟨hreaders, _⟩ := noLostWakeup_iff.mp h
  refine Ensures.bind (wakeAll_spec s.tasks (writeWait p)) fun tasks htasks => ?_
  refine h.setPipe htasks.1 (fun t hwaiting => ?_) fun t hwaiting => absurd hwaiting (htasks.2 t)
  exact hreaders p t (htasks.1 _ _ hwaiting)

theorem closeWrite_keeps (h : NoLostWakeup s) :
    Ensures (fun _ => True) NoLostWakeup (s.closeWrite p) := by
  obtain ⟨_, hwriters⟩ := noLostWakeup_iff.mp h
  refine Ensures.bind (wakeAll_spec s.tasks (readWait p)) fun tasks htasks => ?_
  refine h.setPipe htasks.1 (fun t hwaiting => absurd hwaiting (htasks.2 t)) fun t hwaiting => ?_
  exact hwriters p t (htasks.1 _ _ hwaiting)

theorem act_keeps (h : NoLostWakeup s) {a : PipeAction} (hprivate : s.Private a) :
    Ensures (fun _ => True) NoLostWakeup (s.act a) := by
  cases a with
  | read p sz => exact Ensures.bind (read_keeps h sz) fun _ hr => hr
  | write p cur sz => exact Ensures.bind (write_keeps h cur sz) fun _ hr => hr
  | closeRead p => exact closeRead_keeps h
  | closeWrite p => exact closeWrite_keeps h
  | other a =>
      obtain ⟨hreaders, hwriters⟩ := noLostWakeup_iff.mp h
      refine Ensures.bind (act_joins s.tasks a) fun tasks hjoins => noLostWakeup_iff.mpr ?_
      refine ⟨fun p t hwaiting => ?_, fun p t hwaiting => ?_⟩
      · rcases hjoins t _ hwaiting with hold | ⟨_, hlist⟩
        · exact hreaders p t hold
        · exact absurd hlist (hprivate p).1
      · rcases hjoins t _ hwaiting with hold | ⟨_, hlist⟩
        · exact hwriters p t hold
        · exact absurd hlist (hprivate p).2

/-- In every state that the tasks reach, a task on `__read_wait` of a pipe finds it
empty with its writers' end open, and a task on `__write_wait` finds it full with its
readers' end open. -/
theorem run_noLostWakeup {buffer : Nat → List.Vector Byte 0x1000} {acts : List PipeAction}
    (hrun : Run step Private (boot buffer) acts s) : NoLostWakeup s := by
  refine hrun.invariant (fun s a s' hs hprivate hstep => ?_) ?_
  · have hspec := act_keeps hs hprivate
    cases hact : s.act a with
    | ok next =>
        obtain rfl : next = s' := by simpa [step, hact, Except.toOption] using hstep
        rwa [hact] at hspec
    | error stop => simp [step, hact, Except.toOption] at hstep
  · exact ⟨by simp [boot, System.boot, Intrusive.empty], by simp [boot, System.boot, Intrusive.empty]⟩

/-- A reader waits on an empty pipe. -/
theorem run_noLostWakeup_one_reader :
    ∃ s, Run step Private (boot fun _ => List.Vector.replicate 0x1000 0#8)
        [.other .fork, .read 0 1#32] s ∧
      s.tasks.queues.items (.wait (readWait 0)) = [0] ∧ NoLostWakeup s := by
  obtain ⟨s₁, hfork, s₂, hread, hitems⟩ :
      ∃ s₁ ∈ step (boot fun _ => List.Vector.replicate 0x1000 0#8) (.other .fork),
        ∃ s₂ ∈ step s₁ (.read 0 1#32), s₂.tasks.queues.items (.wait (readWait 0)) = [0] := by
    decide
  have hprivate : Private (boot fun _ => List.Vector.replicate 0x1000 0#8) (.other .fork) := by
    intro p
    simp [Action.list]
  have hrun := Run.snoc (Run.snoc (Run.nil _) hprivate hfork)
    (show Private s₁ (.read 0 1#32) from trivial) hread
  exact ⟨s₂, hrun, hitems, run_noLostWakeup hrun⟩

end PipeSystem

end Nyan.Fs
