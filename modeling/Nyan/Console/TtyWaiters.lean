import Nyan.Console.TtyInput
import Nyan.Keyboard.Message
import Nyan.Task.SleepQueue

/-!
The tasks that wait for the input of a terminal. `input` wakes one of them for every
message of the keyboard that is not ignored, and a reader that has waited checks again
when it runs. A reader that leaves something behind wakes nobody, so another one may go on
waiting beside the input.
-/

namespace Nyan.Console

open Nyan.Library Nyan.Task Nyan.Keyboard

def asciiKeys (text : String) : List (BitVec 8) :=
  text.toList.map fun c => BitVec.ofNat 8 c.toNat

/-- The codes that `input` does not take as keys. -/
def ignoredCodes : List (BitVec 16) :=
  [SC_LCTRL, SC_RCTRL, SC_LSHIFT, SC_RSHIFT, SC_LALT, SC_RALT, SC_CAPLOCKS, SC_NUMLOCK,
    SC_SCROLLLOCK]

/-- The sequences of the keys that have no character. -/
def keySequences : List (BitVec 16 × String) :=
  [(SC_UP, "\x1b[A"), (SC_DOWN, "\x1b[B"), (SC_LEFT, "\x1b[D"), (SC_RIGHT, "\x1b[C"),
    (SC_HOME, "\x1b[H"), (SC_END, "\x1b[F"), (SC_DELETE, "\x1b[3~"), (SC_INSERT, "\x1b[2~"),
    (SC_PAGEUP, "\x1b[5~"), (SC_PAGEDOWN, "\x1b[6~"), (SC_F1, "\x1bOP"), (SC_F2, "\x1bOQ"),
    (SC_F3, "\x1bOR"), (SC_F4, "\x1bOS")]

def translateMsg (msg : Message) : List (BitVec 8) :=
  match keySequences.lookup msg.code with
  | some keys => asciiKeys keys
  | none =>
      if msg.ch = 0#8 then []
      else if msg.flag &&& F_Alt ≠ 0#8 then [0x1B#8, msg.ch]
      else [msg.ch]

/-- The scheduler, the terminals, and for every task that is in a read of a terminal which
one, and the size it asked for. -/
structure TtySystem where
  tasks : System
  tty : Nat → Tty
  reading : TaskId → Option (Nat × BitVec 32)

/-- The list of a terminal. -/
def ttyWait (i : Nat) : WaitId := .other (3 * i + 2)

def isTtyWait : WaitId → Bool
  | .other n => n % 3 == 2
  | .childs _ => false

/-- `kill` of the foreground group. -/
def killGroup (group : List TaskId) (signal : Nat) (tasks : System) : Except Stop System :=
  group.foldlM (fun tasks task => tasks.sendSignal task signal) tasks

/-- The keys of one message, one after the other. -/
def processKeys (group : List TaskId) :
    List (BitVec 8) → System → Tty → Except Stop (System × Tty)
  | [], tasks, tty => .ok (tasks, tty)
  | key :: keys, tasks, tty =>
      match tty.processKey key with
      | (some signal, tty') => do processKeys group keys (← killGroup group signal tasks) tty'
      | (none, tty') => processKeys group keys tasks tty'

namespace TtySystem

/-- `Tty::input`, with the tasks of the foreground group. -/
def input (s : TtySystem) (i : Nat) (msg : Message) (group : List TaskId) :
    Except Stop TtySystem :=
  if msg.flag &&& F_Release ≠ 0#8 ∨ msg.code ∈ ignoredCodes ∨ translateMsg msg = [] then
    .ok s
  else do
    let (tasks, tty) ← processKeys group (translateMsg msg) s.tasks (s.tty i)
    let tasks ← tasks.wakeOne (ttyWait i) .normal
    return { s with tasks, tty := Function.update s.tty i tty }

/-- One round of the loop in `syncWaitInput`, and the end of the read if it is the last. -/
def check (s : TtySystem) (i : Nat) (size : BitVec 32) : Except Stop TtySystem :=
  match (s.tty i).read size with
  | (.returns _, tty) => .ok { s with
      tty := Function.update s.tty i tty
      reading := Function.update s.reading s.tasks.current none }
  | (.waits, _) => do
      let tasks ← s.tasks.wait (ttyWait i) .waitInput
      return { s with
        tasks, reading := Function.update s.reading s.tasks.current (some (i, size)) }

/-- The end of `block`, which hands out the reason of the wake-up and resets it. -/
def endWait (s : TtySystem) : TtySystem :=
  { s with tasks := s.tasks.modify s.tasks.current fun tcb => { tcb with wakeReason := .normal } }

/-- The current task returns from `wait`. -/
def resume (s : TtySystem) : Except Stop TtySystem :=
  match s.reading s.tasks.current with
  | none => .ok s
  | some (i, size) =>
      if (s.tasks.tasks s.tasks.current).wakeReason = .signal then
        .ok { s.endWait with reading := Function.update s.reading s.tasks.current none }
      else
        s.endWait.check i size

/-- A message of the keyboard, a read, its going on after a wait, a change of the settings,
and any other operation of the scheduler. -/
inductive TtyMove where
  | input (i : Nat) (msg : Message) (group : List TaskId)
  | read (i : Nat) (size : BitVec 32)
  | resume
  | setConfig (i : Nat) (config : Termios)
  | other (a : Action)

def move (s : TtySystem) : TtyMove → Except Stop TtySystem
  | .input i msg group => s.input i msg group
  | .read i size => s.check i size
  | .resume => s.resume
  | .setConfig i config => .ok { s with tty := Function.update s.tty i { s.tty i with config } }
  | .other a => do return { s with tasks := ← Task.act s.tasks a }

def step (s : TtySystem) (a : TtyMove) : Option TtySystem := (s.move a).toOption

def boot : TtySystem := ⟨System.boot, fun _ => Tty.new Termios.default, fun _ => none⟩

/-- The steps that can happen. A task in a read does nothing else, nothing else waits on
the lists of the terminals, and `wake` is not called by itself. -/
def Possible (s : TtySystem) : TtyMove → Prop
  | .input .. | .setConfig .. => True
  | .read .. => (s.tasks.tasks s.tasks.current).pid ≠ KP_Idle ∧
      s.reading s.tasks.current = none
  | .resume => s.reading s.tasks.current ≠ none
  | .other a => Permitted s.tasks a ∧ (a.own = true → s.reading s.tasks.current = none) ∧
      (a.list s.tasks).any isTtyWait = false ∧ a.isWake = false

instance (s : TtySystem) : (a : TtyMove) → Decidable (s.Possible a)
  | .input .. | .setConfig .. => inferInstanceAs (Decidable True)
  | .read .. => inferInstanceAs (Decidable (_ ∧ _))
  | .resume => inferInstanceAs (Decidable (_ ≠ _))
  | .other _ => inferInstanceAs (Decidable (_ ∧ _ ∧ _ ∧ _))

/-- A task that was woken from the list of a terminal and has not checked again. -/
def Woken (s : TtySystem) (i : Nat) (t : TaskId) : Prop :=
  (∃ size, s.reading t = some (i, size)) ∧ (s.tasks.tasks t).state ≠ .blocked ∧
    (s.tasks.tasks t).wakeReason = .normal

/-- Nobody sleeps beside available input. -/
def Attended (s : TtySystem) : Prop :=
  ∀ i t, t ∈ s.tasks.queues.items (.wait (ttyWait i)) →
    (s.tty i).inputBuffer = [] ∧ (s.tty i).pendingEof = false ∨ ∃ u, s.Woken i u

/-- The read takes all there is, or those who wait are looked after. -/
def TakesAll (s : TtySystem) (i : Nat) (size : BitVec 32) : Prop :=
  ((s.tty i).inputBuffer.length ≤ size.toNat ∧
      ((s.tty i).inputBuffer ≠ [] → (s.tty i).pendingEof = false)) ∨
    s.tasks.queues.items (.wait (ttyWait i)) = [] ∨
    ∃ u, u ≠ s.tasks.current ∧ s.Woken i u

/-- The condition on a step. -/
def Careful (s : TtySystem) : TtyMove → Prop
  | .read i size => s.TakesAll i size
  | .resume => ∀ i size, s.reading s.tasks.current = some (i, size) →
      (s.tasks.tasks s.tasks.current).wakeReason ≠ .signal → s.TakesAll i size
  | _ => True

end TtySystem

/-- The scheduler goes on. Tasks that do not act and are not blocked stay so, and keep the
reason for which they were woken. -/
structure Onward (own : TaskId → Prop) (tasks tasks' : System) : Prop where
  inv : Inv tasks'
  init : InitAlive tasks'
  handed : ∀ u, tasks.handed u = true → tasks'.handed u = true
  notIdle : ∀ u, (tasks.tasks u).pid ≠ KP_Idle → (tasks'.tasks u).pid ≠ KP_Idle
  awake : ∀ u, tasks.handed u = true → ¬ own u → (tasks.tasks u).state ≠ .blocked →
    (tasks'.tasks u).state ≠ .blocked ∧
      (tasks'.tasks u).wakeReason = (tasks.tasks u).wakeReason

section Onward

variable {own : TaskId → Prop} {tasks tasks₁ tasks₂ : System}

theorem Onward.refl (hinv : Inv tasks) (hinit : InitAlive tasks) : Onward own tasks tasks :=
  ⟨hinv, hinit, fun _ => id, fun _ => id, fun _ _ _ hawake => ⟨hawake, rfl⟩⟩

theorem Onward.trans (h : Onward own tasks tasks₁) (h' : Onward own tasks₁ tasks₂) :
    Onward own tasks tasks₂ where
  inv := h'.inv
  init := h'.init
  handed u hu := h'.handed u (h.handed u hu)
  notIdle u hu := h'.notIdle u (h.notIdle u hu)
  awake u hu hown hawake := by
    obtain ⟨hawake₁, hreason₁⟩ := h.awake u hu hown hawake
    obtain ⟨hawake₂, hreason₂⟩ := h'.awake u (h.handed u hu) hown hawake₁
    exact ⟨hawake₂, hreason₂.trans hreason₁⟩

theorem act_onward (hinv : Inv tasks) (hinit : InitAlive tasks) {a : Action}
    (hok : Permitted tasks a) (ha : a.isWake = false) (hact : Task.act tasks a = .ok tasks₁) :
    Onward (a.mover tasks) tasks tasks₁ := by
  obtain ⟨hinv₁, heffect⟩ := (act_spec hinv hinit hok).of_ok hact
  obtain ⟨hhanded, hpassive⟩ := act_passive hinv hok ha hact
  exact ⟨hinv₁, heffect.initAlive hinit, hhanded, fun _ => heffect.not_idle,
    fun u hu hown => (hpassive u hu hown).awake⟩

/-- An operation by which nobody blocks. -/
theorem act_onward_quiet (hinv : Inv tasks) (hinit : InitAlive tasks) {a : Action}
    (hok : Permitted tasks a) (ha : a.isWake = false) (hparks : a.parks = false)
    (hlist : a.list tasks = none) :
    Ensures (fun _ => True)
      (fun tasks₁ => Onward (fun _ => False) tasks tasks₁ ∧ NoNewWaits tasks tasks₁)
      (Task.act tasks a) := by
  have hjoins := act_joins tasks a
  cases hact : Task.act tasks a with
  | error stop => trivial
  | ok tasks₁ =>
      rw [hact] at hjoins
      have honward := act_onward hinv hinit hok ha hact
      refine ⟨⟨honward.inv, honward.init, honward.handed, honward.notIdle, ?_⟩, ?_⟩
      · exact fun u hu _ => honward.awake u hu fun ⟨hmover, _⟩ => by simp [hparks] at hmover
      · intro u l hwaiting
        rcases hjoins u l hwaiting with hold | ⟨_, heq⟩
        · exact hold
        · simp [hlist] at heq

theorem killGroup_onward (hinv : Inv tasks) (hinit : InitAlive tasks) (group : List TaskId)
    (signal : Nat) :
    Ensures (fun _ => True)
      (fun tasks₁ => Onward (fun _ => False) tasks tasks₁ ∧ NoNewWaits tasks tasks₁)
      (killGroup group signal tasks) := by
  unfold killGroup
  induction group generalizing tasks with
  | nil => exact ⟨Onward.refl hinv hinit, fun _ _ => id⟩
  | cons task rest ih =>
      rw [List.foldlM_cons]
      have hsend := act_onward_quiet hinv hinit (a := .sendSignal task signal) trivial rfl rfl rfl
      refine Ensures.bind hsend ?_
      rintro tasks₁ ⟨honward, hquiet⟩
      refine (ih honward.inv honward.init).mono ?_
      rintro tasks₂ ⟨honward', hquiet'⟩
      exact ⟨honward.trans honward', fun u l hwaiting => hquiet u l (hquiet' u l hwaiting)⟩

theorem processKeys_onward (hinv : Inv tasks) (hinit : InitAlive tasks) (group : List TaskId)
    (keys : List (BitVec 8)) (tty : Tty) :
    Ensures (fun _ => True)
      (fun r => Onward (fun _ => False) tasks r.1 ∧ NoNewWaits tasks r.1)
      (processKeys group keys tasks tty) := by
  induction keys generalizing tasks tty with
  | nil => exact ⟨Onward.refl hinv hinit, fun _ _ => id⟩
  | cons key keys ih =>
      unfold processKeys
      split
      · rename_i signal tty' _
        refine Ensures.bind (killGroup_onward hinv hinit group signal) ?_
        rintro tasks₁ ⟨honward, hquiet⟩
        refine (ih honward.inv honward.init tty').mono ?_
        rintro r ⟨honward', hquiet'⟩
        exact ⟨honward.trans honward', fun u l hwaiting => hquiet u l (hquiet' u l hwaiting)⟩
      · exact ih hinv hinit _

/-- `wakeOne` wakes a task of the list, if there is one. -/
theorem wakeOne_onward (hinv : Inv tasks) (hinit : InitAlive tasks) (list : WaitId) :
    Ensures (fun _ => True)
      (fun tasks₁ => Onward (fun _ => False) tasks tasks₁ ∧ NoNewWaits tasks tasks₁ ∧
        (tasks.queues.items (.wait list) = [] ∨ ∃ u, Waiting tasks u list ∧
          (tasks₁.tasks u).state ≠ .blocked ∧ (tasks₁.tasks u).wakeReason = .normal))
      (tasks.wakeOne list .normal) := by
  have hact := act_onward_quiet hinv hinit (a := .wakeOne list .normal) trivial rfl rfl rfl
  change Ensures _ _ (tasks.wakeOne list .normal) at hact
  cases hitems : tasks.queues.items (.wait list) with
  | nil => exact hact.mono fun tasks₁ h => ⟨h.1, h.2, Or.inl rfl⟩
  | cons front rest =>
      have hwaiting : Waiting tasks front list := waiting_iff_mem.mpr (by simp [hitems])
      obtain ⟨tasks₁, hfront, _, _, _, htasks, _⟩ :=
        wakeFront_spec hinv.toCore hwaiting (by simp) .normal
      have hwake : tasks.wakeOne list .normal = .ok tasks₁ := by
        simp only [System.wakeOne, hitems]
        exact hfront
      rw [hwake] at hact ⊢
      refine ⟨hact.1, hact.2, Or.inr ⟨front, hwaiting, ?_⟩⟩
      rw [htasks, Function.update_self]
      exact ⟨by simp, rfl⟩

end Onward

theorem isTtyWait_ttyWait (i : Nat) : isTtyWait (ttyWait i) = true := by
  simp only [isTtyWait, ttyWait, beq_iff_eq]
  omega

theorem ttyWait_injective {i j : Nat} (h : ttyWait i = ttyWait j) : i = j := by
  simpa [ttyWait] using h

namespace TtySystem

variable {s s' : TtySystem} {i : Nat} {size : BitVec 32}

/-- The invariant: whoever is on the list of a terminal is in a read of it. -/
structure Sound (s : TtySystem) : Prop where
  inv : Inv s.tasks
  init : InitAlive s.tasks
  reader : ∀ u i size, s.reading u = some (i, size) →
    s.tasks.handed u = true ∧ (s.tasks.tasks u).pid ≠ KP_Idle
  listed : ∀ u i, Waiting s.tasks u (ttyWait i) → ∃ size, s.reading u = some (i, size)

theorem boot_sound : Sound boot where
  inv := boot_inv
  init := boot_initAlive
  reader := by simp [boot]
  listed := by simp [boot, System.boot, Waiting, Intrusive.empty]

theorem boot_attended : Attended boot := by
  simp [Attended, boot, System.boot, Intrusive.empty]

theorem Sound.not_waiting (h : Sound s) (l : WaitId) : ¬ Waiting s.tasks s.tasks.current l := by
  simp [Waiting, h.inv.owner_current]

/-- The scheduler goes on, and nobody comes to wait for a terminal. -/
theorem Sound.onward (h : Sound s) {own : TaskId → Prop} {tasks : System} {tty : Nat → Tty}
    (honward : Onward own s.tasks tasks)
    (hwaits : ∀ u j, Waiting tasks u (ttyWait j) → Waiting s.tasks u (ttyWait j)) :
    Sound ⟨tasks, tty, s.reading⟩ where
  inv := honward.inv
  init := honward.init
  reader u j size hreading := by
    obtain ⟨hhanded, hidle⟩ := h.reader u j size hreading
    exact ⟨honward.handed u hhanded, honward.notIdle u hidle⟩
  listed u j hwaiting := h.listed u j (hwaits u j hwaiting)

theorem Woken.onward (h : Sound s) {own : TaskId → Prop} {tasks : System} {tty : Nat → Tty}
    {u : TaskId} (hwoken : s.Woken i u) (honward : Onward own s.tasks tasks) (hown : ¬ own u) :
    Woken ⟨tasks, tty, s.reading⟩ i u := by
  obtain ⟨⟨size, hreading⟩, hawake, hreason⟩ := hwoken
  obtain ⟨hawake', hreason'⟩ := honward.awake u (h.reader u i size hreading).1 hown hawake
  exact ⟨⟨size, hreading⟩, hawake', hreason'.trans hreason⟩

/-- At a terminal whose input has not changed. -/
theorem Attended.onward (h : Attended s) (hsound : Sound s) {own : TaskId → Prop}
    {tasks : System} {tty : Nat → Tty} (honward : Onward own s.tasks tasks)
    (hown : ∀ u, own u → s.reading u = none) {t : TaskId}
    (hwaits : Waiting tasks t (ttyWait i) → Waiting s.tasks t (ttyWait i))
    (hinput : (tty i).inputBuffer = (s.tty i).inputBuffer)
    (heof : (tty i).pendingEof = (s.tty i).pendingEof)
    (ht : t ∈ tasks.queues.items (.wait (ttyWait i))) :
    (tty i).inputBuffer = [] ∧ (tty i).pendingEof = false ∨
      ∃ u, Woken ⟨tasks, tty, s.reading⟩ i u := by
  rw [hinput, heof]
  refine (h i t (waiting_iff_mem.mp (hwaits (waiting_iff_mem.mpr ht)))).imp_right ?_
  rintro ⟨u, hwoken⟩
  refine ⟨u, hwoken.onward hsound honward fun hmine => ?_⟩
  obtain ⟨⟨size, hreading⟩, _⟩ := hwoken
  simp [hown u hmine] at hreading

theorem input_keeps (h : Sound s) (msg : Message) (group : List TaskId) :
    Ensures (fun _ => True) (fun s' => Sound s' ∧ (Attended s → Attended s'))
      (s.input i msg group) := by
  unfold input
  split
  · exact ⟨h, id⟩
  refine Ensures.bind (processKeys_onward h.inv h.init group _ (s.tty i)) ?_
  rintro ⟨tasks₁, tty₁⟩ ⟨honward₁, hquiet₁⟩
  refine Ensures.bind (wakeOne_onward honward₁.inv honward₁.init (ttyWait i)) ?_
  rintro tasks₂ ⟨honward₂, hquiet₂, hwoken⟩
  have honward := honward₁.trans honward₂
  have hquiet : ∀ u l, Waiting tasks₂ u l → Waiting s.tasks u l :=
    fun u l hwaiting => hquiet₁ u l (hquiet₂ u l hwaiting)
  refine ⟨h.onward honward fun u j => hquiet u _, fun hattended j t ht => ?_⟩
  by_cases hj : j = i
  · subst hj
    right
    rcases hwoken with hempty | ⟨u, hwaiting, hawake, hreason⟩
    · have hwaiting := waiting_iff_mem.mp (hquiet₂ t _ (waiting_iff_mem.mpr ht))
      rw [hempty] at hwaiting
      cases hwaiting
    · exact ⟨u, h.listed u j (hquiet₁ u _ hwaiting), hawake, hreason⟩
  · exact hattended.onward h honward (fun _ hfalse => hfalse.elim) (hquiet t _)
      (by simp [Function.update_of_ne hj]) (by simp [Function.update_of_ne hj]) ht

/-- A round of the loop ends the read, or makes the task wait where there is nothing. -/
theorem check_cases (h : Sound s) (hidle : (s.tasks.tasks s.tasks.current).pid ≠ KP_Idle)
    (hcheck : s.check i size = .ok s') :
    (∃ bytes tty, (s.tty i).read size = (.returns bytes, tty) ∧
      s' = { s with
        tty := Function.update s.tty i tty
        reading := Function.update s.reading s.tasks.current none }) ∨
    (s.tty i).inputBuffer = [] ∧ (s.tty i).pendingEof = false ∧
      ∃ tasks, s' = { s with
          tasks, reading := Function.update s.reading s.tasks.current (some (i, size)) } ∧
        Onward (fun u => u = s.tasks.current) s.tasks tasks ∧
        ∀ u l, Waiting tasks u l → Waiting s.tasks u l ∨ u = s.tasks.current ∧ l = ttyWait i := by
  unfold check at hcheck
  split at hcheck
  · rename_i bytes tty hread
    exact Or.inl ⟨bytes, tty, hread, (Except.ok.inj hcheck).symm⟩
  · rename_i hread
    right
    have hnothing : (s.tty i).inputBuffer = [] ∧ (s.tty i).pendingEof = false := by
      unfold Tty.read at hread
      split at hread
      · simp at hread
      split at hread
      · simp at hread
      · rename_i hinput heof
        exact ⟨by simpa using hinput, by simpa using heof⟩
    have hjoins := wait_joins s.tasks (ttyWait i) .waitInput
    cases hwait : s.tasks.wait (ttyWait i) .waitInput with
    | error stop => simp [hwait, bind, Except.bind] at hcheck
    | ok tasks =>
        rw [hwait] at hjoins hcheck
        have honward := act_onward h.inv h.init (a := .wait (ttyWait i) .waitInput) hidle rfl hwait
        refine ⟨hnothing.1, hnothing.2, tasks, (Except.ok.inj hcheck).symm, ?_, hjoins⟩
        exact ⟨honward.inv, honward.init, honward.handed, honward.notIdle,
          fun u hu hne => honward.awake u hu fun hmover => hne hmover.2⟩

theorem Sound.returned (h : Sound s) (tty : Nat → Tty) :
    Sound { s with tty, reading := Function.update s.reading s.tasks.current none } where
  inv := h.inv
  init := h.init
  reader u j size hreading := by
    have hne : u ≠ s.tasks.current := by
      rintro rfl
      simp at hreading
    simp only [Function.update_of_ne hne] at hreading
    exact h.reader u j size hreading
  listed u j hwaiting := by
    have hne : u ≠ s.tasks.current := by
      rintro rfl
      exact h.not_waiting _ hwaiting
    simp only [Function.update_of_ne hne]
    exact h.listed u j hwaiting

theorem Sound.check (h : Sound s) (hidle : (s.tasks.tasks s.tasks.current).pid ≠ KP_Idle)
    (hcheck : s.check i size = .ok s') : Sound s' := by
  rcases check_cases h hidle hcheck with ⟨_, tty, _, rfl⟩ | ⟨_, _, tasks, rfl, honward, hjoins⟩
  · exact h.returned _
  · refine ⟨honward.inv, honward.init, fun u j size' hreading => ?_, fun u j hwaiting => ?_⟩
    · by_cases hu : u = s.tasks.current
      · subst hu
        exact ⟨honward.handed _ (h.inv.currentHanded.resolve_right hidle),
          honward.notIdle _ hidle⟩
      · simp only [Function.update_of_ne hu] at hreading
        obtain ⟨hhanded, hpid⟩ := h.reader u j size' hreading
        exact ⟨honward.handed u hhanded, honward.notIdle u hpid⟩
    · rcases hjoins u _ hwaiting with hold | ⟨rfl, heq⟩
      · have hne : u ≠ s.tasks.current := by
          rintro rfl
          exact h.not_waiting _ hold
        simp only [Function.update_of_ne hne]
        exact h.listed u j hold
      · exact ⟨size, by simp [ttyWait_injective heq]⟩

/-- What a read leaves behind when it returns. -/
theorem read_leaves_nothing_iff {bytes : Except Errno (List (BitVec 8))} {tty tty' : Tty}
    (hread : tty.read size = (.returns bytes, tty')) :
    tty'.inputBuffer = [] ∧ tty'.pendingEof = false ↔
      tty.inputBuffer.length ≤ size.toNat ∧ (tty.inputBuffer ≠ [] → tty.pendingEof = false) := by
  unfold Tty.read at hread
  split at hread
  · rename_i hinput
    obtain ⟨-, rfl⟩ := Prod.mk.inj hread
    simp [List.drop_eq_nil_iff, hinput]
  split at hread
  · rename_i hinput heof
    obtain ⟨-, rfl⟩ := Prod.mk.inj hread
    have hempty : tty.inputBuffer = [] := by simpa using hinput
    simp [hempty]
  · simp at hread

/-- Another task is woken, after a read has returned, as it was before. -/
theorem woken_returned {tty : Nat → Tty} {j : Nat} {u : TaskId} :
    Woken { s with tty, reading := Function.update s.reading s.tasks.current none } j u ↔
      u ≠ s.tasks.current ∧ s.Woken j u := by
  unfold Woken
  by_cases hu : u = s.tasks.current
  · simp [hu]
  · simp [hu]

/-- The end of a read leaves nobody alone with input iff it takes all of it, or somebody
else is about to look. -/
theorem Attended.returned_iff (h : Attended s) {bytes : Except Errno (List (BitVec 8))}
    {tty : Tty} (hread : (s.tty i).read size = (.returns bytes, tty))
    (hreading : ∀ j size', s.reading s.tasks.current = some (j, size') → j = i) :
    Attended { s with
        tty := Function.update s.tty i tty
        reading := Function.update s.reading s.tasks.current none } ↔ s.TakesAll i size := by
  have hleaves := read_leaves_nothing_iff hread
  constructor
  · intro hafter
    by_cases hempty : s.tasks.queues.items (.wait (ttyWait i)) = []
    · exact Or.inr (Or.inl hempty)
    obtain ⟨t, ht⟩ := List.exists_mem_of_ne_nil _ hempty
    rcases hafter i t ht with hnothing | ⟨u, hwoken⟩
    · simp only [Function.update_self] at hnothing
      exact Or.inl (hleaves.mp hnothing)
    · exact Or.inr (Or.inr ⟨u, woken_returned.mp hwoken⟩)
  · intro htakes j t ht
    by_cases hj : j = i
    · subst hj
      rcases htakes with hall | hempty | ⟨u, hwoken⟩
      · left
        simpa only [Function.update_self] using hleaves.mpr hall
      · change t ∈ s.tasks.queues.items _ at ht
        rw [hempty] at ht
        cases ht
      · exact Or.inr ⟨u, woken_returned.mpr hwoken⟩
    · simp only [Function.update_of_ne hj]
      refine (h j t ht).imp_right ?_
      rintro ⟨u, hwoken⟩
      refine ⟨u, woken_returned.mpr ⟨?_, hwoken⟩⟩
      rintro rfl
      obtain ⟨⟨size', hsize⟩, _⟩ := hwoken
      exact hj (hreading j size' hsize)

theorem Attended.check_iff (h : Attended s) (hsound : Sound s)
    (hidle : (s.tasks.tasks s.tasks.current).pid ≠ KP_Idle)
    (hreading : ∀ j size', s.reading s.tasks.current = some (j, size') → j = i)
    (hcheck : s.check i size = .ok s') : Attended s' ↔ s.TakesAll i size := by
  rcases check_cases hsound hidle hcheck with
    ⟨bytes, tty, hread, rfl⟩ | ⟨hinput, heof, tasks, rfl, honward, hjoins⟩
  · exact h.returned_iff hread hreading
  · have htakes : s.TakesAll i size := by simp [TakesAll, hinput]
    refine iff_of_true (fun j t ht => ?_) htakes
    by_cases hj : j = i
    · subst hj
      exact Or.inl ⟨hinput, heof⟩
    · have hwaits : Waiting s.tasks t (ttyWait j) := by
        rcases hjoins t _ (waiting_iff_mem.mpr ht) with hold | ⟨_, heq⟩
        · exact hold
        · exact absurd (ttyWait_injective heq) hj
      refine (h j t (waiting_iff_mem.mp hwaits)).imp_right ?_
      rintro ⟨u, hwoken⟩
      have hne : u ≠ s.tasks.current := by
        rintro rfl
        obtain ⟨⟨size', hsize⟩, _⟩ := hwoken
        exact hj (hreading j size' hsize)
      have hwoken' : Woken ⟨tasks, s.tty, s.reading⟩ j u := hwoken.onward hsound honward hne
      obtain ⟨⟨size', hsize⟩, hawake⟩ := hwoken'
      exact ⟨u, ⟨size', by simpa [hne] using hsize⟩, hawake⟩

theorem Sound.endWait (h : Sound s) : Sound s.endWait := by
  obtain ⟨hinv, hkin⟩ := h.inv.endWait
  have honward : Onward (fun u => u = s.tasks.current) s.tasks s.endWait.tasks := by
    refine ⟨hinv, hkin.initAlive h.init, fun _ => id, fun u hu => (hkin.pid u).trans_ne hu, ?_⟩
    intro u _ hne hawake
    simpa [TtySystem.endWait, System.modify, Function.update_of_ne hne] using hawake
  exact h.onward honward fun _ _ => id

theorem woken_endWait {j : Nat} {u : TaskId} (hu : u ≠ s.tasks.current) :
    s.endWait.Woken j u ↔ s.Woken j u := by
  simp [Woken, endWait, System.modify, Function.update_of_ne hu]

theorem Attended.endWait (h : Attended s) : Attended s.endWait := by
  intro j t ht
  refine (h j t ht).imp_right ?_
  rintro ⟨u, hreading, hawake, hreason⟩
  by_cases hu : u = s.tasks.current
  · subst hu
    exact ⟨s.tasks.current, hreading, by simpa [TtySystem.endWait, System.modify] using hawake,
      by simp [TtySystem.endWait, System.modify]⟩
  · exact ⟨u, (woken_endWait hu).mpr ⟨hreading, hawake, hreason⟩⟩

theorem takesAll_endWait : s.endWait.TakesAll i size ↔ s.TakesAll i size := by
  have hwoken : (∃ u, u ≠ s.tasks.current ∧ s.endWait.Woken i u) ↔
      ∃ u, u ≠ s.tasks.current ∧ s.Woken i u :=
    exists_congr fun u => and_congr_right fun hu => woken_endWait hu
  exact or_congr Iff.rfl (or_congr Iff.rfl hwoken)

/-- A task that was woken by a signal leaves the read to the others. -/
theorem Attended.interrupted (h : Attended s)
    (hsignal : (s.tasks.tasks s.tasks.current).wakeReason = .signal) :
    Attended { s.endWait with reading := Function.update s.reading s.tasks.current none } := by
  intro j t ht
  refine (h j t ht).imp_right ?_
  rintro ⟨u, hwoken⟩
  have hne : u ≠ s.tasks.current := by
    rintro rfl
    simp [Woken, hsignal] at hwoken
  exact ⟨u, (woken_returned (s := s.endWait)).mpr ⟨hne, (woken_endWait hne).mpr hwoken⟩⟩

theorem resume_keeps (h : Sound s) (hreading : s.reading s.tasks.current ≠ none)
    (hresume : s.resume = .ok s') :
    Sound s' ∧ (Attended s → (Attended s' ↔ s.Careful .resume)) := by
  unfold resume at hresume
  split at hresume
  · rename_i hnone
    exact absurd hnone hreading
  rename_i i size hsome
  split at hresume
  · rename_i hsignal
    obtain rfl := Except.ok.inj hresume
    refine ⟨h.endWait.returned _, fun hattended =>
      iff_of_true (hattended.interrupted hsignal) ?_⟩
    exact fun _ _ _ hnot => absurd hsignal hnot
  · rename_i hsignal
    have hidle : (s.endWait.tasks.tasks s.endWait.tasks.current).pid ≠ KP_Idle :=
      (h.endWait.reader _ i size hsome).2
    have honly : ∀ j size', s.endWait.reading s.endWait.tasks.current = some (j, size') → j = i := by
      intro j size' hj
      exact (Prod.mk.inj (Option.some.inj (hj.symm.trans hsome))).1
    refine ⟨h.endWait.check hidle hresume, fun hattended => ?_⟩
    rw [hattended.endWait.check_iff h.endWait hidle honly hresume, takesAll_endWait]
    simp [Careful, hsome, hsignal]

theorem other_keeps (h : Sound s) {a : Action} (hok : s.Possible (.other a)) {tasks : System}
    (hact : Task.act s.tasks a = .ok tasks) :
    Sound { s with tasks } ∧ (Attended s → Attended { s with tasks }) := by
  obtain ⟨hpermitted, hown, hlist, hwake⟩ := hok
  have honward := act_onward h.inv h.init hpermitted hwake hact
  have hwaits : ∀ u j, Waiting tasks u (ttyWait j) → Waiting s.tasks u (ttyWait j) := by
    intro u j hwaiting
    have hjoins := (act_joins s.tasks a).of_ok hact
    rcases hjoins u _ hwaiting with hold | ⟨_, heq⟩
    · exact hold
    · rw [heq, Option.any_some, isTtyWait_ttyWait] at hlist
      cases hlist
  refine ⟨h.onward honward hwaits, fun hattended j t ht => ?_⟩
  refine hattended.onward h honward (fun u hmover => ?_) (hwaits t j) rfl rfl ht
  obtain ⟨hparks, rfl⟩ := hmover
  refine hown ?_
  cases a <;> first | rfl | cases hparks

theorem step_keeps {a : TtyMove} (h : Sound s) (hok : s.Possible a)
    (hstep : s.step a = some s') :
    Sound s' ∧ (Attended s → (Attended s' ↔ s.Careful a)) := by
  have hmove : s.move a = .ok s' := by
    unfold step at hstep
    cases hmove : s.move a with
    | ok s₁ => simpa [hmove, Except.toOption] using hstep
    | error stop => simp [hmove, Except.toOption] at hstep
  cases a with
  | input i msg group =>
      obtain ⟨hsound, hkeeps⟩ := (input_keeps h msg group).of_ok hmove
      exact ⟨hsound, fun hattended => iff_of_true (hkeeps hattended) trivial⟩
  | read i size =>
      obtain ⟨hidle, hnone⟩ := hok
      refine ⟨h.check hidle hmove, fun hattended => ?_⟩
      exact hattended.check_iff h hidle (by simp [hnone]) hmove
  | resume => exact resume_keeps h hok hmove
  | setConfig i config =>
      obtain rfl := Except.ok.inj hmove
      refine ⟨⟨h.inv, h.init, h.reader, h.listed⟩, fun hattended => iff_of_true ?_ trivial⟩
      have hkept : Onward (fun _ => False) s.tasks s.tasks := Onward.refl h.inv h.init
      intro j t ht
      refine hattended.onward h hkept (fun _ hfalse => hfalse.elim) id ?_ ?_ ht
      all_goals
        by_cases hj : j = i
        · subst hj
          simp
        · simp [Function.update_of_ne hj]
  | other a =>
      cases hact : Task.act s.tasks a with
      | error stop => simp [move, hact, bind, Except.bind] at hmove
      | ok tasks =>
          have heq : s' = { s with tasks } := by
            simpa [move, hact, bind, Except.bind, pure, Except.pure] using hmove.symm
          subst heq
          obtain ⟨hsound, hkeeps⟩ := other_keeps h hok hact
          exact ⟨hsound, fun hattended => iff_of_true (hkeeps hattended) trivial⟩

/-- No state of a run has a task asleep beside available input iff every read that returns
takes all there is, while others wait and nobody else is about to look. -/
theorem run_attended_iff {moves : List TtyMove} (hrun : Run step Possible boot moves s) :
    (∀ n u, Run step Possible boot (moves.take n) u → Attended u) ↔
      Run step (fun s a => s.Possible a ∧ s.Careful a) boot moves s :=
  hrun.good_iff (fun _ _ _ h hok _ hstep => (step_keeps h hok hstep).1)
    (fun _ _ _ h hattended hok hstep => (step_keeps h hok hstep).2 hattended)
    boot_sound boot_attended

def pressA : Message := ⟨0x1E#16, 0x1E#16, 0#8, 0x61#8⟩

def pressEnter : Message := ⟨0x1C#16, 0x1C#16, 0#8, 0x0D#8⟩

/-- A character is typed, two tasks read one byte each, the line is ended, and the first of
them goes on. -/
def twoReaders : List TtyMove :=
  [.other .fork, .input 0 pressA [], .read 0 1#32, .read 0 1#32, .input 0 pressEnter [],
    .other .yield, .resume]

theorem run_attended_iff_twoReaders : ∃ s, Run step Possible boot twoReaders s ∧
    ((∀ n u, Run step Possible boot (twoReaders.take n) u → Attended u) ↔
      Run step (fun s a => s.Possible a ∧ s.Careful a) boot twoReaders s) := by
  have hsome : (twoReaders.foldlM (guardedStep step Possible) boot).isSome = true := by
    decide +kernel
  obtain ⟨s, hs⟩ := Option.isSome_iff_exists.mp hsome
  exact ⟨s, Run.of_foldlM hs, run_attended_iff (Run.of_foldlM hs)⟩

/-- The second reader stays on the list beside the end of the line. -/
theorem reader_asleep_beside_input : ∃ s, Run step Possible boot twoReaders s ∧
    2 ∈ s.tasks.queues.items (.wait (ttyWait 0)) ∧ (s.tty 0).inputBuffer = [10#8] ∧
    ∀ u, ¬ s.Woken 0 u := by
  have hend : ∃ s ∈ twoReaders.foldlM (guardedStep step Possible) boot,
      s.tasks.queues.items (.wait (ttyWait 0)) = [2] ∧ (s.tty 0).inputBuffer = [10#8] ∧
      s.tasks.nextTask = 3 ∧
      ∀ u < 3, s.reading u = none ∨ (s.tasks.tasks u).state = .blocked := by
    decide +kernel
  obtain ⟨s, hs, hlist, hinput, hnext, hreaders⟩ := hend
  have hrun : Run step Possible boot twoReaders s := Run.of_foldlM hs
  have hsound : Sound s := hrun.invariant (fun _ _ _ h hok hstep => (step_keeps h hok hstep).1)
    boot_sound
  refine ⟨s, hrun, by simp [hlist], hinput, ?_⟩
  rintro u ⟨⟨size, hreading⟩, hawake, _⟩
  have hold : u < 3 := by
    rw [← hnext]
    by_contra hnew
    have hhanded := (hsound.reader u 0 size hreading).1
    rw [(hsound.inv.fresh u (Nat.le_of_not_lt hnew)).1] at hhanded
    cases hhanded
  rcases hreaders u hold with hnone | hblocked
  · simp [hnone] at hreading
  · exact hawake hblocked

end TtySystem

end Nyan.Console
