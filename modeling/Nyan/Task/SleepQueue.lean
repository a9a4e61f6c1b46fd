import Mathlib.Data.List.Sort
import Nyan.Task.Bystanders
import Nyan.Task.Lineage

/-!
The queue of the sleepers. `sleep` inserts the current task in front of the first one that
is to wake up no earlier, `checkSleep` wakes from the front, and signals take tasks out of
the middle. The queue stays sorted and holds exactly the tasks that are blocked in `sleep`,
so `checkSleep` may stop at the first task that is not due.

The time to wake up is a sum of 64 bits. A task sleeps long enough as long as the clock has
not passed half of its range.
-/

namespace Nyan.Task

open Library

/-- Inserting in front of the first element with no smaller key keeps a list sorted. -/
theorem pairwise_insert_findIdx {α : Type} (key : α → Nat) {l : List α}
    (h : l.Pairwise fun a b => key a ≤ key b) (x : α) :
    (l.take (l.findIdx fun b => key x ≤ key b) ++
      x :: l.drop (l.findIdx fun b => key x ≤ key b)).Pairwise fun a b => key a ≤ key b := by
  have : Std.Total fun a b => key a ≤ key b := ⟨fun a b => Nat.le_total (key a) (key b)⟩
  have : IsTrans α fun a b => key a ≤ key b := ⟨fun _ _ _ => Nat.le_trans⟩
  have hinsert := List.Pairwise.orderedInsert x l h
  rw [List.orderedInsert_eq_take_drop] at hinsert
  simpa only [List.takeWhile_eq_take_findIdx_not, List.dropWhile_eq_drop_findIdx_not, decide_not,
    Bool.not_not] using hinsert

/-- The first position is the same for two conditions that agree on the list. -/
theorem findIdx_eq_of_agree {α : Type} {p q : α → Bool} {l : List α} (h : ∀ x ∈ l, p x = q x) :
    l.findIdx p = l.findIdx q := by
  induction l with
  | nil => rfl
  | cons x rest ih =>
      rw [List.findIdx_cons, List.findIdx_cons, h x List.mem_cons_self,
        ih fun y hy => h y (List.mem_cons_of_mem x hy)]

variable {s s' : System}

/-- The block of a task that `checkSleep` has woken. -/
def TaskControlBlock.woken (tcb : TaskControlBlock) : TaskControlBlock :=
  { tcb with
    state := .ready, blockReason := .unknown, wakeReason := .normal, requestDetach := none }

/-- The loop of `checkSleep` wakes the tasks at the front of the queue that are due. -/
theorem sleepLoop_spec (h : Core s) {n : Nat} (hn : (s.queues.items .sleeping).length ≤ n) :
    ∃ s', System.sleepLoop n s = .ok s' ∧ Core s' ∧ s'.msSinceBoot = s.msSinceBoot ∧
      ∃ due rest, s.queues.items .sleeping = due ++ rest ∧
        (∀ t ∈ due, (s.tasks t).sleepTime < s.msSinceBoot) ∧
        (∀ t, rest.head? = some t → ¬ (s.tasks t).sleepTime < s.msSinceBoot) ∧
        ∀ t, s'.tasks t = if t ∈ due then (s.tasks t).woken else s.tasks t := by
  induction n generalizing s with
  | zero =>
      have hnil := List.length_eq_zero_iff.mp (Nat.le_zero.mp hn)
      exact ⟨s, rfl, h, rfl, [], [], by simp [hnil]⟩
  | succ n ih =>
      unfold System.sleepLoop
      split
      · rename_i task rest hitems
        split
        · rename_i hdue
          have howner := (s.queues.mem_iff .sleeping task).mp (by simp [hitems])
          obtain ⟨s₁, hfront, hcore, hframe, _, htasks, hitems₁⟩ :=
            wakeFront_spec h howner (by simp) .normal
          have hclock : s₁.msSinceBoot = s.msSinceBoot := by
            have hspares : Spares (fun _ => True) s (s.wakeFront .sleeping task .normal) :=
              wakeFront_spares h howner (by simp) fun _ _ => hdue
            rw [hfront] at hspares
            exact hspares.clock
          rw [hitems, List.erase_cons_head] at hitems₁
          have hnotIn : task ∉ rest := by
            have hnodup := s.queues.nodup .sleeping
            rw [hitems] at hnodup
            exact (List.nodup_cons.mp hnodup).1
          have hsame : ∀ t, t ≠ task → s₁.tasks t = s.tasks t := by
            intro t ht
            rw [htasks, Function.update_of_ne ht]
          obtain ⟨s', hloop, hcore', hclock', due, later, hsplit, hdueAll, hlater, htasks'⟩ :=
            ih hcore (by rw [hitems₁]; simpa [hitems] using hn)
          rw [hitems₁] at hsplit
          have hne : ∀ t ∈ rest, t ≠ task := fun t ht heq => hnotIn (heq ▸ ht)
          rw [hfront]
          refine ⟨s', hloop, hcore', hclock'.trans hclock, task :: due, later, ?_, ?_, ?_, ?_⟩
          · rw [hitems, hsplit, List.cons_append]
          · intro t ht
            rcases List.mem_cons.mp ht with rfl | ht
            · exact hdue
            · have hin : t ∈ rest := hsplit ▸ List.mem_append_left _ ht
              simpa [hsame t (hne t hin), hclock] using hdueAll t ht
          · intro t ht
            have hin : t ∈ rest := hsplit ▸ List.mem_append_right _ (List.mem_of_mem_head? ht)
            simpa [hsame t (hne t hin), hclock] using hlater t ht
          · intro t
            rw [htasks']
            by_cases ht : t = task
            · subst ht
              have hnot : t ∉ due := fun hin => hnotIn (hsplit ▸ List.mem_append_left _ hin)
              rw [if_neg hnot, if_pos List.mem_cons_self, htasks, Function.update_self]
              rfl
            · simp [hsame t ht, ht]
        · rename_i hdue
          exact ⟨s, rfl, h, rfl, [], task :: rest, by simp [hitems], by simp, by simpa using hdue,
            by simp⟩
      · rename_i hitems
        exact ⟨s, rfl, h, rfl, [], [], by simp [hitems]⟩

/-- The current task gives the processor away, or keeps it, and nobody is woken. -/
theorem yield_returns (h : Inv s) : ∃ s', s.yield = .ok s' ∧
    ∀ t, (s.tasks t).state = .blocked → (s'.tasks t).state = .blocked := by
  unfold System.yield
  split
  · exact ⟨_, rfl, fun _ => id⟩
  split
  · rename_i next rest hitems
    have hpending := (s.queues.mem_iff .pending next).mp (by simp [hitems])
    have hready := ((h.task next).pending.mp hpending).2.1
    obtain ⟨queues₁, hextract, howner, _⟩ := Intrusive.extract_eq hpending
    have hfree : queues₁.owner s.current = none := by
      rw [howner, Function.update_apply, h.owner_current, ite_self]
    obtain ⟨queues₂, hpush, _⟩ := Intrusive.pushBack_eq hfree .pending
    have hkept : ∀ t, (s.tasks t).state = .blocked → t ≠ next ∧ t ≠ s.current := by
      intro t hblocked
      constructor
      · rintro rfl
        simp [hready] at hblocked
      · rintro rfl
        simp [h.current] at hblocked
    simp only [System.unlink, hextract, System.requeueCurrent, h.current, if_true, System.link,
      System.modify, hpush, bind, Except.bind]
    by_cases hidle : (s.tasks s.current).pid = KP_Idle
    all_goals
      simp only [hidle, ne_eq, not_true_eq_false, not_false_eq_true, if_true, if_false]
      refine ⟨_, rfl, fun t hblocked => ?_⟩
      obtain ⟨hnext, hcurrent⟩ := hkept t hblocked
      simpa [System.switchToTask, System.modify, hnext, hcurrent] using hblocked
  · rw [if_neg (by simp [h.current])]
    exact ⟨s, rfl, fun _ => id⟩

/-- `sleep` puts the current task into the queue and gives the processor away. -/
theorem sleep_settles (h : Inv s) (hidle : (s.tasks s.current).pid ≠ KP_Idle) (ms : BitVec 64) :
    Ensures (fun _ => True) (fun s' => ∃ queues,
        queues.items .sleeping =
          (s.queues.items .sleeping).take (s.sleepPosition (s.msSinceBoot + ms)) ++
            s.current :: (s.queues.items .sleeping).drop (s.sleepPosition (s.msSinceBoot + ms)) ∧
        Core (s.parked { s.tasks s.current with
          sleepTime := s.msSinceBoot + ms, requestDetach := some .sleeping } queues .sleep) ∧
        Passes (fun _ => False) (s.parked { s.tasks s.current with
          sleepTime := s.msSinceBoot + ms, requestDetach := some .sleeping } queues .sleep) s')
      (s.sleep ms) := by
  unfold System.sleep
  split
  · trivial
  have hnotIn : s.current ∉ s.queues.items .sleeping :=
    Intrusive.not_mem_of_owner_none h.owner_current _
  let timed : System := s.modify s.current fun tcb =>
    { tcb with sleepTime := s.msSinceBoot + ms }
  have hposition : timed.sleepPosition (s.msSinceBoot + ms) =
      s.sleepPosition (s.msSinceBoot + ms) := by
    refine findIdx_eq_of_agree fun t ht => ?_
    have hne : t ≠ s.current := fun heq => hnotIn (heq ▸ ht)
    simp [timed, System.modify, Function.update_of_ne hne]
  obtain ⟨queues, hinsert, howner, hitems⟩ := Intrusive.insertAt_eq h.owner_current .sleeping
    (timed.sleepPosition (s.msSinceBoot + ms))
  have hinsert' : timed.queues.insertAt .sleeping (timed.sleepPosition (s.msSinceBoot + ms))
      s.current = some queues := hinsert
  simp only [timed] at hinsert'
  simp only [hinsert']
  simp only [System.modify, Function.update_self, Function.update_idem]
  let asleep : TaskControlBlock := { s.tasks s.current with
    sleepTime := s.msSinceBoot + ms, requestDetach := some .sleeping }
  have hcore := h.core_blocked hidle asleep queues howner (by simp) rfl rfl .sleep
  have hsettles := block_settles h hidle asleep queues howner (by simp) rfl rfl .sleep
  refine hsettles.mono fun s' hs' => ⟨queues, ?_, hcore, hs'⟩
  rw [hitems, Function.update_self, hposition]

/-- A call of `sleep` that has not returned. -/
structure SleepCall where
  started : BitVec 64
  ms : BitVec 64
  deriving DecidableEq

namespace SleepCall

/-- `currTs`. -/
def deadline (call : SleepCall) : BitVec 64 := call.started + call.ms

/-- What `sleep` stores in `*rest` when it returns at the given time. -/
def rest (call : SleepCall) (now : BitVec 64) : BitVec 64 :=
  if call.deadline ≤ now then 0#64 else call.deadline - now

end SleepCall

/-- The scheduler, and the calls of `sleep` that the tasks are in. -/
structure SleepSystem where
  sys : System
  calls : TaskId → Option SleepCall

/-- The steps: a call of `sleep` up to the switch to another task, its return, and any other
operation of the scheduler. -/
inductive SleepMove where
  | sleep (ms : BitVec 64)
  | wakeUp
  | other (a : Action)

/-- The operations that are steps of their own here, or only parts of others. -/
def Action.inner : Action → Bool
  | .sleep _ | .wake _ _ => true
  | _ => false

instance : (a : Action) → Decidable a.notForSleep
  | .block _ | .wait _ _ => inferInstanceAs (Decidable (_ ≠ _))
  | .createTask | .addTask _ | .fork | .yield | .disableYield | .enableYield | .sleep _
  | .wakeOne _ _ | .wakeAll _ _ | .wake _ _ | .checkSleep | .tick | .sendSignal _ _ | .exit _ _
  | .waitpid _ _ => inferInstanceAs (Decidable True)

def SleepMove.isShort : SleepMove → Prop
  | .sleep ms => ms.toNat < 2 ^ 63
  | .wakeUp | .other _ => True

instance : (a : SleepMove) → Decidable a.isShort
  | .sleep _ => inferInstanceAs (Decidable (_ < _))
  | .wakeUp | .other _ => inferInstanceAs (Decidable True)

def SleepMove.isTick : SleepMove → Bool
  | .other .tick => true
  | _ => false

namespace SleepSystem

def move (m : SleepSystem) : SleepMove → Except Stop SleepSystem
  | .sleep ms => do
      let sys ← m.sys.sleep ms
      return ⟨sys, Function.update m.calls m.sys.current (some ⟨m.sys.msSinceBoot, ms⟩)⟩
  | .wakeUp => .ok {
      sys := m.sys.modify m.sys.current fun tcb => { tcb with wakeReason := .normal }
      calls := Function.update m.calls m.sys.current none }
  | .other a => do return { m with sys := ← act m.sys a }

def step (m : SleepSystem) (a : SleepMove) : Option SleepSystem := (m.move a).toOption

def boot : SleepSystem := ⟨System.boot, fun _ => none⟩

/-- The steps that can happen. A task in `sleep` does nothing else; only `sleep` blocks
for the reason of sleep; `wake` is not called by itself. -/
def Allowed (m : SleepSystem) : SleepMove → Prop
  | .sleep _ => (m.sys.tasks m.sys.current).pid ≠ KP_Idle ∧ m.calls m.sys.current = none
  | .wakeUp => m.calls m.sys.current ≠ none
  | .other a => Permitted m.sys a ∧ a.notForSleep ∧ (a.own = true → m.calls m.sys.current = none) ∧
      a.inner = false

/-- Those of them in which nobody sleeps for `2 ^ 63` ticks or more. -/
def Possible (m : SleepSystem) (a : SleepMove) : Prop := m.Allowed a ∧ a.isShort

instance (m : SleepSystem) : (a : SleepMove) → Decidable (m.Allowed a)
  | .sleep _ => inferInstanceAs (Decidable (_ ∧ _))
  | .wakeUp => inferInstanceAs (Decidable (_ ≠ _))
  | .other _ => inferInstanceAs (Decidable (_ ∧ _ ∧ _ ∧ _))

instance (m : SleepSystem) (a : SleepMove) : Decidable (m.Possible a) :=
  inferInstanceAs (Decidable (_ ∧ _))

/-- What holds of the queue in every state. -/
structure Ordered (m : SleepSystem) : Prop where
  sorted : (m.sys.queues.items .sleeping).Pairwise fun t u =>
    (m.sys.tasks t).sleepTime ≤ (m.sys.tasks u).sleepTime
  members : ∀ t, t ∈ m.sys.queues.items .sleeping ↔
    (m.sys.tasks t).state = .blocked ∧ (m.sys.tasks t).blockReason = .sleep
  deadline : ∀ t call, m.calls t = some call → (m.sys.tasks t).state = .blocked →
    (m.sys.tasks t).sleepTime = call.deadline
  checkSleep : ∀ now, ∃ s', { m.sys with msSinceBoot := now }.checkSleep = .ok s' ∧
    ∀ t, (m.sys.tasks t).state = .blocked → ((s'.tasks t).state ≠ .blocked ↔
      t ∈ m.sys.queues.items .sleeping ∧ (m.sys.tasks t).sleepTime < now)

/-- What holds of the times, as numbers. -/
structure Timely (m : SleepSystem) : Prop where
  slept : ∀ t call, m.calls t = some call → (m.sys.tasks t).state ≠ .blocked →
    (m.sys.tasks t).wakeReason = .normal →
    call.started.toNat + call.ms.toNat < m.sys.msSinceBoot.toNat
  rest : ∀ t call, m.calls t = some call →
    (call.rest m.sys.msSinceBoot).toNat =
      call.started.toNat + call.ms.toNat - m.sys.msSinceBoot.toNat

end SleepSystem

/-- The invariant of the queue, for the calls that have not returned. -/
structure Queued (calls : TaskId → Option SleepCall) (s : System) : Prop where
  core : Core s
  sorted : (s.queues.items .sleeping).Pairwise fun t u =>
    (s.tasks t).sleepTime.toNat ≤ (s.tasks u).sleepTime.toNat
  reason : ∀ t, (s.tasks t).state = .blocked →
    ((s.tasks t).blockReason = .sleep ↔ (s.tasks t).requestDetach = some .sleeping)
  calls : ∀ t call, calls t = some call → s.handed t = true ∧
    ((s.tasks t).state = .blocked → (s.tasks t).requestDetach = some .sleeping ∧
      (s.tasks t).sleepTime = call.deadline)

theorem Core.mem_sleeping (h : Core s) {t : TaskId} :
    t ∈ s.queues.items .sleeping ↔ (s.tasks t).state = .blocked ∧
      (s.tasks t).requestDetach = some .sleeping := by
  have hok := h.task t
  rw [s.queues.mem_iff, hok.detach]
  constructor
  · intro howner
    exact ⟨hok.waiting _ howner (by simp), by rw [howner]; rfl⟩
  · rintro ⟨_, hdetach⟩
    cases howner : s.queues.owner t with
    | none => simp [howner, detachFor] at hdetach
    | some queue => cases queue <;> simp_all [detachFor]

namespace Queued

variable {calls : TaskId → Option SleepCall} {own : TaskId → Prop}

/-- The tasks that act leave the queue and the sleepers alone, and are not asleep themselves. -/
theorem passes (h : Queued calls s) (hcore : Core s') (hp : Passes own s s')
    (hold : ∀ u, (s'.tasks u).state = .blocked → s.handed u = true)
    (hown : ∀ u, own u → NotAsleep (s'.tasks u) ∧ calls u = none) : Queued calls s' where
  core := hcore
  sorted := by
    have hkept : ∀ u ∈ s'.queues.items .sleeping, (s'.tasks u).sleepTime = (s.tasks u).sleepTime := by
      intro u hu
      obtain ⟨hblocked, hdetach⟩ := hcore.mem_sleeping.mp hu
      have hnot : ¬ own u := fun hmine => ((hown u hmine).1 hblocked).2 hdetach
      obtain ⟨_, _, heq⟩ := (hp.task u (hold u hblocked) hnot).asleep hblocked
      rw [heq]
    refine (h.sorted.sublist hp.sleeping).imp_of_mem fun {t u} ht hu hle => ?_
    rwa [hkept t ht, hkept u hu]
  reason t hblocked := by
    by_cases hmine : own t
    · obtain ⟨hreason, hdetach⟩ := (hown t hmine).1 hblocked
      simp [hreason, hdetach]
    · obtain ⟨_, _, heq⟩ := (hp.task t (hold t hblocked) hmine).asleep hblocked
      rw [heq] at hblocked ⊢
      exact h.reason t hblocked
  calls t call hcall := by
    obtain ⟨hhanded, hasleep⟩ := h.calls t call hcall
    refine ⟨hp.handed t hhanded, fun hblocked => ?_⟩
    have hnot : ¬ own t := fun hmine => by simp [(hown t hmine).2] at hcall
    obtain ⟨_, _, heq⟩ := (hp.task t hhanded hnot).asleep hblocked
    rw [heq] at hblocked ⊢
    exact hasleep hblocked

/-- The task that calls `sleep` is inserted at its place. -/
theorem parked (h : Queued calls s) {queues : Intrusive Queue TaskId} {ms : BitVec 64}
    (hhanded : s.handed s.current = true)
    (hnotIn : s.current ∉ s.queues.items .sleeping)
    (hitems : queues.items .sleeping =
      (s.queues.items .sleeping).take (s.sleepPosition (s.msSinceBoot + ms)) ++
        s.current :: (s.queues.items .sleeping).drop (s.sleepPosition (s.msSinceBoot + ms)))
    (hcore : Core (s.parked { s.tasks s.current with
      sleepTime := s.msSinceBoot + ms, requestDetach := some .sleeping } queues .sleep)) :
    Queued (Function.update calls s.current (some ⟨s.msSinceBoot, ms⟩))
      (s.parked { s.tasks s.current with
        sleepTime := s.msSinceBoot + ms, requestDetach := some .sleeping } queues .sleep) := by
  let s₁ := s.parked { s.tasks s.current with
    sleepTime := s.msSinceBoot + ms, requestDetach := some .sleeping } queues .sleep
  have hself : s₁.tasks s.current = { s.tasks s.current with
      sleepTime := s.msSinceBoot + ms, requestDetach := some .sleeping, state := .blocked,
      blockReason := .sleep, wakeReason := .normal } := by
    simp [s₁, System.parked]
  have hothers : ∀ t, t ≠ s.current → s₁.tasks t = s.tasks t := by
    intro t ht
    simp [s₁, System.parked, Function.update_of_ne ht]
  have hmembers : ∀ t ∈ s.queues.items .sleeping, s₁.tasks t = s.tasks t :=
    fun t ht => hothers t fun heq => hnotIn (heq ▸ ht)
  have hposition : s.sleepPosition (s.msSinceBoot + ms) =
      (s.queues.items .sleeping).findIdx fun t =>
        (s₁.tasks s.current).sleepTime.toNat ≤ (s₁.tasks t).sleepTime.toNat := by
    refine findIdx_eq_of_agree fun t ht => ?_
    simp [hself, hmembers t ht, BitVec.le_def]
  refine ⟨hcore, ?_, fun t hblocked => ?_, fun t call hcall => ?_⟩
  · have hsorted : (s.queues.items .sleeping).Pairwise fun t u =>
        (s₁.tasks t).sleepTime.toNat ≤ (s₁.tasks u).sleepTime.toNat := by
      refine h.sorted.imp_of_mem fun {t u} ht hu hle => ?_
      rwa [hmembers t ht, hmembers u hu]
    have hinsert := pairwise_insert_findIdx (fun t => (s₁.tasks t).sleepTime.toNat) hsorted s.current
    rw [← hposition, ← hitems] at hinsert
    exact hinsert
  · by_cases ht : t = s.current
    · subst ht
      simp [s₁, hself]
    · rw [hothers t ht] at hblocked ⊢
      exact h.reason t hblocked
  · by_cases ht : t = s.current
    · subst ht
      obtain rfl : ⟨s.msSinceBoot, ms⟩ = call := by simpa using hcall
      refine ⟨hhanded, fun _ => ?_⟩
      rw [hself]
      exact ⟨rfl, rfl⟩
    · rw [Function.update_of_ne ht] at hcall
      rw [hothers t ht]
      exact h.calls t call hcall

/-- The clock plays no part in it. -/
theorem setClock (h : Queued calls s) (now : BitVec 64) :
    Queued calls { s with msSinceBoot := now } :=
  ⟨⟨h.core.task, h.core.idle, h.core.init, h.core.fresh, h.core.currentOld, h.core.currentHanded⟩,
    h.sorted, h.reason, h.calls⟩

/-- A call has returned. -/
theorem drop (h : Queued calls s) (t : TaskId) : Queued (Function.update calls t none) s where
  core := h.core
  sorted := h.sorted
  reason := h.reason
  calls u call hcall := by
    have hne : u ≠ t := by
      rintro rfl
      simp at hcall
    rw [Function.update_of_ne hne] at hcall
    exact h.calls u call hcall

/-- As the queue is sorted, the loop that stops at the first task that is not due wakes all
that are. -/
theorem checkSleep (h : Queued calls s) (hinv : Inv s) :
    ∃ s', s.checkSleep = .ok s' ∧ ∀ t, (s.tasks t).state = .blocked →
      ((s'.tasks t).state ≠ .blocked ↔
        t ∈ s.queues.items .sleeping ∧ (s.tasks t).sleepTime < s.msSinceBoot) := by
  obtain ⟨s₁, hloop, hcore, hclock, due, later, hsplit, hdue, hlater, htasks⟩ :=
    sleepLoop_spec h.core le_rfl
  have hwoken : ∀ t, (s.tasks t).state = .blocked → ((s₁.tasks t).state ≠ .blocked ↔
      t ∈ s.queues.items .sleeping ∧ (s.tasks t).sleepTime < s.msSinceBoot) := by
    intro t hblocked
    rw [htasks]
    by_cases ht : t ∈ due
    · rw [if_pos ht, hsplit]
      simp [TaskControlBlock.woken, ht, hdue t ht]
    · rw [if_neg ht, hsplit]
      refine ⟨fun hawake => absurd hblocked hawake, ?_⟩
      rintro ⟨hmem, hsoon⟩
      have hin : t ∈ later := (List.mem_append.mp hmem).resolve_left ht
      cases later with
      | nil => simp at hin
      | cons first others =>
          have hfirst := hlater first rfl
          have hsorted := h.sorted
          rw [hsplit, List.pairwise_append] at hsorted
          have hle : (s.tasks first).sleepTime.toNat ≤ (s.tasks t).sleepTime.toNat := by
            rcases List.mem_cons.mp hin with rfl | hin
            · exact le_rfl
            · exact (List.pairwise_cons.mp hsorted.2.1).1 t hin
          rw [BitVec.lt_def] at hfirst hsoon
          exact absurd (Nat.lt_of_le_of_lt hle hsoon) hfirst
  have hinv₁ : Inv s₁ := (((sleepLoop_wakes hinv.toCore _).schedules hinv).of_ok hloop).1
  unfold System.checkSleep
  simp only [hloop, bind, Except.bind]
  split
  · obtain ⟨s', hyield, hstays⟩ := yield_returns hinv₁
    refine ⟨s', hyield, fun t hblocked => ?_⟩
    have hspares : Spares (fun _ => False) s₁ s₁.yield := yield_spares hcore
    have hhanded : s₁.handed t = true := by
      have hkin := (sleepLoop_wakes hinv.toCore (s.queues.items .sleeping).length).of_ok hloop
      rw [hkin.2.handed]
      exact h.core.handed_of_blocked hblocked
    have hpassive := (hspares.of_ok hyield).task t hhanded id
    rw [← hwoken t hblocked]
    exact ⟨mt (hstays t), fun hawake => (hpassive.awake hawake).1⟩
  · exact ⟨s₁, rfl, hwoken⟩

end Queued

/-- The invariant of the times, while the clock has not wrapped around. -/
structure Punctual (calls : TaskId → Option SleepCall) (s : System) : Prop where
  clock : s.msSinceBoot.toNat ≤ 2 ^ 63
  started : ∀ t call, calls t = some call → call.started.toNat ≤ s.msSinceBoot.toNat
  slept : ∀ t call, calls t = some call → call.ms.toNat < 2 ^ 63 →
    (s.tasks t).state ≠ .blocked → (s.tasks t).wakeReason = .normal →
    call.started.toNat + call.ms.toNat < s.msSinceBoot.toNat

theorem SleepCall.deadline_toNat {call : SleepCall}
    (h : call.started.toNat + call.ms.toNat < 2 ^ 64) :
    call.deadline.toNat = call.started.toNat + call.ms.toNat := by
  rw [SleepCall.deadline, BitVec.toNat_add, Nat.mod_eq_of_lt h]

theorem SleepCall.rest_toNat {call : SleepCall} {now : BitVec 64}
    (h : call.started.toNat + call.ms.toNat < 2 ^ 64) :
    (call.rest now).toNat = call.started.toNat + call.ms.toNat - now.toNat := by
  unfold SleepCall.rest
  split
  · rename_i hle
    rw [BitVec.le_def, deadline_toNat h] at hle
    rw [Nat.sub_eq_zero_of_le hle]
    rfl
  · rename_i hlt
    rw [BitVec.le_def, deadline_toNat h, Nat.not_le] at hlt
    rw [BitVec.toNat_sub_of_le (by rw [BitVec.le_def, deadline_toNat h]; exact hlt.le),
      deadline_toNat h]

namespace Punctual

variable {calls : TaskId → Option SleepCall} {own : TaskId → Prop}

/-- The sum of a call does not wrap around. -/
theorem fits (h : Punctual calls s) {t : TaskId} {call : SleepCall} (hcall : calls t = some call)
    (hms : call.ms.toNat < 2 ^ 63) : call.started.toNat + call.ms.toNat < 2 ^ 64 := by
  have hstarted := h.started t call hcall
  have hclock := h.clock
  omega

/-- A sleeper that is woken without a signal was due. -/
theorem passes (h : Punctual calls s) (hqueued : Queued calls s) (hp : Passes own s s')
    (hown : ∀ u, own u → calls u = none) : Punctual calls s' where
  clock := by rw [hp.clock]; exact h.clock
  started t call hcall := by rw [hp.clock]; exact h.started t call hcall
  slept t call hcall hms hawake hnormal := by
    obtain ⟨hhanded, hasleep⟩ := hqueued.calls t call hcall
    have hnot : ¬ own t := fun hmine => by simp [hown t hmine] at hcall
    have hpassive := hp.task t hhanded hnot
    rw [hp.clock]
    by_cases hblocked : (s.tasks t).state = .blocked
    · obtain ⟨hdetach, htime⟩ := hasleep hblocked
      have hdue := hpassive.due hblocked hawake hdetach hnormal
      rwa [htime, BitVec.lt_def, SleepCall.deadline_toNat (h.fits hcall hms)] at hdue
    · exact h.slept t call hcall hms hblocked ((hpassive.awake hblocked).2 ▸ hnormal)

/-- The clock goes on. -/
theorem setClock (h : Punctual calls s) {now : BitVec 64}
    (hle : s.msSinceBoot.toNat ≤ now.toNat) (hnow : now.toNat ≤ 2 ^ 63) :
    Punctual calls { s with msSinceBoot := now } where
  clock := hnow
  started t call hcall := (h.started t call hcall).trans hle
  slept t call hcall hms hawake hnormal :=
    Nat.lt_of_lt_of_le (h.slept t call hcall hms hawake hnormal) hle

theorem drop (h : Punctual calls s) (t : TaskId) : Punctual (Function.update calls t none) s := by
  have hcalls : ∀ u call, Function.update calls t none u = some call → calls u = some call := by
    intro u call hcall
    have hne : u ≠ t := by
      rintro rfl
      simp at hcall
    rwa [Function.update_of_ne hne] at hcall
  exact ⟨h.clock, fun u call hcall => h.started u call (hcalls u call hcall),
    fun u call hcall => h.slept u call (hcalls u call hcall)⟩

/-- The task that calls `sleep` is blocked. -/
theorem parked (h : Punctual calls s) (tcb : TaskControlBlock) (queues : Intrusive Queue TaskId)
    (ms : BitVec 64) (reason : BlockReason) :
    Punctual (Function.update calls s.current (some ⟨s.msSinceBoot, ms⟩))
      (s.parked tcb queues reason) where
  clock := h.clock
  started t call hcall := by
    by_cases ht : t = s.current
    · obtain rfl : ⟨s.msSinceBoot, ms⟩ = call := by simpa [ht] using hcall
      exact le_rfl
    · rw [Function.update_of_ne ht] at hcall
      exact h.started t call hcall
  slept t call hcall hms hawake hnormal := by
    by_cases ht : t = s.current
    · simp [System.parked, ht] at hawake
    · rw [Function.update_of_ne ht] at hcall
      simp only [System.parked, Function.update_of_ne ht] at hawake hnormal
      exact h.slept t call hcall hms hawake hnormal

end Punctual

/-- The time at which an operation acts. -/
def Action.clock (s : System) : Action → BitVec 64
  | .tick => s.msSinceBoot + 1#64
  | _ => s.msSinceBoot

def Action.isWake : Action → Bool
  | .wake _ _ => true
  | _ => false

/-- What an operation does to the tasks that do not block by it. -/
theorem act_passive (h : Inv s) {a : Action} (hok : Permitted s a) (ha : a.isWake = false)
    (hact : act s a = .ok s') :
    (∀ u, s.handed u = true → s'.handed u = true) ∧
      ∀ u, s.handed u = true → ¬ a.mover s u → Passive (a.clock s) (s.tasks u) (s'.tasks u) := by
  by_cases hspecial : a.special = true
  · cases a with
    | tick =>
        obtain ⟨hinv, _⟩ := h.setCounters s.disableYieldCounter s.needYield (s.msSinceBoot + 1#64)
        have hspares : Spares (fun _ => False) { s with msSinceBoot := s.msSinceBoot + 1#64 }
            (act s .tick) := checkSleep_spares hinv
        have hpasses := hspares.of_ok hact
        exact ⟨hpasses.handed, fun u hu _ => hpasses.task u hu id⟩
    | sleep ms =>
        obtain ⟨queues, _, _, hpasses⟩ := (sleep_settles h hok ms).of_ok hact
        refine ⟨hpasses.handed, fun u hu hnot => ?_⟩
        have hne : u ≠ s.current := fun heq => hnot ⟨rfl, heq⟩
        have hpassive := hpasses.task u hu id
        simp only [System.parked, Function.update_of_ne hne] at hpassive
        exact hpassive
    | wake => cases ha
    | createTask | addTask | fork | yield | disableYield | enableYield | block | wait | wakeOne
    | wakeAll | checkSleep | sendSignal | exit | waitpid => cases hspecial
  · have hordinary : a.special = false := by simpa using hspecial
    have hclock : a.clock s = s.msSinceBoot := by
      cases a <;> first | rfl | cases hordinary
    have hpasses := (act_spares h hok hordinary).of_ok hact
    rw [hclock]
    exact ⟨hpasses.handed, hpasses.task⟩

/-- No task becomes the idle task. -/
theorem Effect.not_idle {a : Action} {u : TaskId} (h : Effect s a s')
    (hidle : (s.tasks u).pid ≠ KP_Idle) : (s'.tasks u).pid ≠ KP_Idle := by
  have hcreates : ∀ {s s' : System}, Creates s s' → (s.tasks u).pid ≠ KP_Idle →
      (s'.tasks u).pid ≠ KP_Idle := by
    intro s s' h hidle
    by_cases hu : u = s.nextTask
    · rw [hu, h.pid]
      decide
    · rwa [h.tasks u hu]
  have hadds : ∀ {s s' : System} {t : TaskId}, Adds s s' t → (s.tasks u).pid ≠ KP_Idle →
      (s'.tasks u).pid ≠ KP_Idle := by
    intro s s' t h hidle
    by_cases hu : u = t
    · subst hu
      rcases h.pid with ⟨p, hp, _, _, _, hpid⟩ | ⟨_, _, hpid⟩
      · rw [hpid]
        simp only [KP_Idle, KP_FirstUser] at hp ⊢
        omega
      · rw [hpid]
        decide
    · rwa [h.tasks u hu]
  cases h with
  | schedules hkin => rwa [hkin.pid]
  | exits code sig hexits => rwa [hexits.pid]
  | creates h => exact hcreates h hidle
  | adds task _ h => exact hadds h hidle
  | forks s₁ _ h₁ h₂ _ => exact hadds h₂ (hcreates h₁ hidle)
  | frees pid task hfrees => rwa [hfrees.tasks]

namespace SleepSystem

variable {m m' : SleepSystem}

/-- An operation other than `sleep` leaves the calls alone. -/
theorem other_passes (h : Inv m.sys) {a : Action} (hok : m.Allowed (.other a))
    (hact : act m.sys a = .ok s') :
    ∃ own, Passes own { m.sys with msSinceBoot := a.clock m.sys } s' ∧
      ∀ u, own u → NotAsleep (s'.tasks u) ∧ m.calls u = none := by
  obtain ⟨hpermitted, hreason, hown, hkind⟩ := hok
  by_cases ha : a.special = true
  · cases a with
    | tick =>
        obtain ⟨hinv, _⟩ := h.setCounters m.sys.disableYieldCounter m.sys.needYield
          (m.sys.msSinceBoot + 1#64)
        have hspares : Spares (fun _ => False) { m.sys with msSinceBoot := m.sys.msSinceBoot + 1#64 }
            (act m.sys .tick) := checkSleep_spares hinv
        exact ⟨_, hspares.of_ok hact, fun _ hfalse => hfalse.elim⟩
    | sleep | wake => cases hkind
    | createTask | addTask | fork | yield | disableYield | enableYield | block | wait | wakeOne
    | wakeAll | checkSleep | sendSignal | exit | waitpid => cases ha
  · have hordinary : a.special = false := by simpa using ha
    have hclock : a.clock m.sys = m.sys.msSinceBoot := by
      cases a <;> first | rfl | cases hordinary
    refine ⟨a.mover m.sys, ?_, ?_⟩
    · rw [hclock]
      exact (act_spares h hpermitted hordinary).of_ok hact
    · rintro u ⟨hparks, rfl⟩
      have hmine : a.own = true := by
        cases a <;> first | rfl | cases hparks
      exact ⟨(act_notAsleep h hpermitted hordinary hparks hreason).of_ok hact, hown hmine⟩

/-- The invariant of the system. -/
structure Sound (m : SleepSystem) : Prop where
  inv : Inv m.sys
  init : InitAlive m.sys
  queued : Queued m.calls m.sys

theorem boot_sound : Sound boot where
  inv := boot_inv
  init := boot_initAlive
  queued := by
    refine ⟨boot_inv.toCore, List.Pairwise.nil, fun t hblocked => ?_, by simp [boot]⟩
    exfalso
    revert hblocked
    simp only [boot, System.boot]
    split
    · simp
    · split <;> simp

theorem sleep_ok {ms : BitVec 64} (hstep : m.step (.sleep ms) = some m') :
    ∃ s', m.sys.sleep ms = .ok s' ∧
      m' = ⟨s', Function.update m.calls m.sys.current (some ⟨m.sys.msSinceBoot, ms⟩)⟩ := by
  unfold step move at hstep
  cases hsleep : m.sys.sleep ms with
  | ok s' => exact ⟨s', rfl, by simpa [hsleep, Except.toOption, bind, Except.bind, pure,
      Except.pure] using hstep.symm⟩
  | error stop => simp [hsleep, Except.toOption, bind, Except.bind] at hstep

theorem other_ok {a : Action} (hstep : m.step (.other a) = some m') :
    ∃ s', act m.sys a = .ok s' ∧ m' = { m with sys := s' } := by
  unfold step move at hstep
  cases hact : act m.sys a with
  | ok s' => exact ⟨s', rfl, by simpa [hact, Except.toOption, bind, Except.bind, pure,
      Except.pure] using hstep.symm⟩
  | error stop => simp [hact, Except.toOption, bind, Except.bind] at hstep

theorem Sound.sleep (h : Sound m) {ms : BitVec 64} (hok : m.Allowed (.sleep ms))
    (hsleep : m.sys.sleep ms = .ok s') :
    Sound ⟨s', Function.update m.calls m.sys.current (some ⟨m.sys.msSinceBoot, ms⟩)⟩ := by
  obtain ⟨hidle, hnone⟩ := hok
  obtain ⟨hinv, hkin⟩ := (sleep_schedules h.inv hidle ms).of_ok hsleep
  obtain ⟨queues, hitems, hcore, hpasses⟩ := (sleep_settles h.inv hidle ms).of_ok hsleep
  have hparked := h.queued.parked (h.inv.currentHanded.resolve_right hidle)
    (Intrusive.not_mem_of_owner_none h.inv.owner_current _) hitems hcore
  refine ⟨hinv, hkin.initAlive h.init, hparked.passes hinv.toCore hpasses ?_ ?_⟩
  · intro u hblocked
    have hhanded := hinv.handed_of_blocked hblocked
    rwa [hkin.handed] at hhanded
  · exact fun _ hfalse => hfalse.elim

theorem Sound.other (h : Sound m) {a : Action} (hok : m.Allowed (.other a))
    (hact : act m.sys a = .ok s') : Sound { m with sys := s' } := by
  obtain ⟨hinv, heffect⟩ := (act_spec h.inv h.init hok.1).of_ok hact
  obtain ⟨own, hpasses, hown⟩ := other_passes h.inv hok hact
  refine ⟨hinv, heffect.initAlive h.init, ?_⟩
  exact (h.queued.setClock _).passes hinv.toCore hpasses
    (fun u hblocked => heffect.handed_of_blocked hinv hblocked) hown

theorem Sound.wakeUp (h : Sound m) :
    Sound {
      sys := m.sys.modify m.sys.current fun tcb => { tcb with wakeReason := .normal }
      calls := Function.update m.calls m.sys.current none } := by
  obtain ⟨hinv, hkin⟩ := h.inv.endWait
  refine ⟨hinv, hkin.initAlive h.init, ?_⟩
  have hpasses : Passes (fun u => u = m.sys.current) m.sys
      (m.sys.modify m.sys.current fun tcb => { tcb with wakeReason := .normal }) :=
    Passes.modify fun hnot => absurd rfl hnot
  refine (h.queued.drop m.sys.current).passes hinv.toCore hpasses ?_ ?_
  · intro u hblocked
    have hhanded := hinv.handed_of_blocked hblocked
    rwa [hkin.handed] at hhanded
  · rintro u rfl
    refine ⟨fun hblocked => ?_, Function.update_self ..⟩
    simp [System.modify, h.inv.current] at hblocked

theorem Sound.step {a : SleepMove} (h : Sound m) (hok : m.Allowed a)
    (hstep : m.step a = some m') : Sound m' := by
  cases a with
  | sleep ms =>
      obtain ⟨s', hsleep, rfl⟩ := sleep_ok hstep
      exact h.sleep hok hsleep
  | wakeUp =>
      obtain rfl := Option.some.inj hstep
      exact h.wakeUp
  | other a =>
      obtain ⟨s', hact, rfl⟩ := other_ok hstep
      exact h.other hok hact

theorem run_sound {moves : List SleepMove} (hrun : Run step Allowed boot moves m) : Sound m :=
  hrun.invariant (fun _ _ _ hs hok hstep => hs.step hok hstep) boot_sound

theorem Sound.ordered (h : Sound m) : Ordered m where
  sorted := h.queued.sorted.imp fun hle => BitVec.le_def.mpr hle
  members t := by
    rw [h.queued.core.mem_sleeping]
    exact and_congr_right fun hblocked => (h.queued.reason t hblocked).symm
  deadline t call hcall hblocked := ((h.queued.calls t call hcall).2 hblocked).2
  checkSleep now := by
    obtain ⟨hinv, _⟩ := h.inv.setCounters m.sys.disableYieldCounter m.sys.needYield now
    exact (h.queued.setClock now).checkSleep hinv

/-- The clock counts the ticks, as long as they are few enough for the sums not to wrap around. -/
theorem run_punctual {moves : List SleepMove} (hrun : Run step Allowed boot moves m)
    (hticks : moves.countP SleepMove.isTick ≤ 2 ^ 63) :
    m.sys.msSinceBoot.toNat = moves.countP SleepMove.isTick ∧ Punctual m.calls m.sys := by
  induction hrun with
  | nil => exact ⟨rfl, ⟨by simp [boot, System.boot], by simp [boot], by simp [boot]⟩⟩
  | @snoc m m' moves a hrun hok hstep ih =>
      have hsound := run_sound hrun
      rw [List.countP_append] at hticks ⊢
      obtain ⟨hclock, hpunctual⟩ := ih (by omega)
      cases a with
      | sleep ms =>
          obtain ⟨s', hsleep, rfl⟩ := sleep_ok hstep
          obtain ⟨hidle, _⟩ := hok
          obtain ⟨queues, hitems, hcore, hpasses⟩ :=
            (sleep_settles hsound.inv hidle ms).of_ok hsleep
          have hparked := hsound.queued.parked (hsound.inv.currentHanded.resolve_right hidle)
            (Intrusive.not_mem_of_owner_none hsound.inv.owner_current _) hitems hcore
          refine ⟨?_, (hpunctual.parked _ queues ms .sleep).passes hparked hpasses fun _ h => h.elim⟩
          rw [hpasses.clock]
          exact hclock
      | wakeUp =>
          obtain rfl := Option.some.inj hstep
          refine ⟨hclock, ?_⟩
          have hpasses : Passes (fun u => u = m.sys.current) m.sys
              (m.sys.modify m.sys.current fun tcb => { tcb with wakeReason := .normal }) :=
            Passes.modify fun hnot => absurd rfl hnot
          refine (hpunctual.drop m.sys.current).passes (hsound.queued.drop _) hpasses ?_
          rintro u rfl
          exact Function.update_self ..
      | other a =>
          obtain ⟨s', hact, rfl⟩ := other_ok hstep
          obtain ⟨own, hpasses, hown⟩ := other_passes hsound.inv hok hact
          have hadvance : (a.clock m.sys).toNat =
              m.sys.msSinceBoot.toNat + [SleepMove.other a].countP SleepMove.isTick := by
            have hle := hpunctual.clock
            cases a with
            | tick =>
                simp only [Action.clock, SleepMove.isTick, BitVec.toNat_add, List.countP_singleton,
                  if_true]
                exact Nat.mod_eq_of_lt (by simp only [BitVec.toNat_ofNat]; omega)
            | _ => simp [Action.clock, SleepMove.isTick]
          refine ⟨?_, ?_⟩
          · rw [hpasses.clock]
            dsimp only
            omega
          · exact (hpunctual.setClock (by omega) (by omega)).passes (hsound.queued.setClock _) hpasses
              fun u hu => (hown u hu).2

/-- Nobody sleeps for `2 ^ 63` ticks or more. -/
structure Short (m : SleepSystem) : Prop where
  ms : ∀ t call, m.calls t = some call → call.ms.toNat < 2 ^ 63

theorem Short.step {a : SleepMove} (h : Short m) (hok : m.Possible a)
    (hstep : m.step a = some m') : Short m' := by
  cases a with
  | sleep ms =>
      obtain ⟨s', _, rfl⟩ := sleep_ok hstep
      refine ⟨fun t call hcall => ?_⟩
      by_cases ht : t = m.sys.current
      · obtain rfl : ⟨m.sys.msSinceBoot, ms⟩ = call := by simpa [ht] using hcall
        exact hok.2
      · simp only [Function.update_of_ne ht] at hcall
        exact h.ms t call hcall
  | wakeUp =>
      obtain rfl := Option.some.inj hstep
      refine ⟨fun t call hcall => ?_⟩
      by_cases ht : t = m.sys.current
      · simp [ht] at hcall
      · simp only [Function.update_of_ne ht] at hcall
        exact h.ms t call hcall
  | other a =>
      obtain ⟨s', _, rfl⟩ := other_ok hstep
      exact ⟨h.ms⟩

theorem run_short {moves : List SleepMove} (hrun : Run step Possible boot moves m) : Short m :=
  hrun.invariant (fun _ _ _ hs hok hstep => hs.step hok hstep) ⟨by simp [boot]⟩

/-- In every state of every run the queue is sorted and holds the tasks that are blocked in
`sleep`, and `checkSleep` wakes those that are due. As long as the timer has not ticked more
than `2 ^ 63` times, a task that was woken without a signal has slept for longer than it
asked for, and the rest of a sleep that was cut short is what is left of it. -/
theorem run_sleepQueue {moves : List SleepMove} (hrun : Run step Possible boot moves m) :
    Ordered m ∧ (moves.countP SleepMove.isTick ≤ 2 ^ 63 → Timely m) := by
  have hallowed : Run step Allowed boot moves m := hrun.mono fun _ _ hok => hok.1
  have hshort := run_short hrun
  refine ⟨(run_sound hallowed).ordered, fun hticks => ?_⟩
  obtain ⟨_, hpunctual⟩ := run_punctual hallowed hticks
  exact ⟨fun t call hcall => hpunctual.slept t call hcall (hshort.ms t call hcall),
    fun t call hcall => SleepCall.rest_toNat (hpunctual.fits hcall (hshort.ms t call hcall))⟩

/-- `init` sleeps for two ticks. -/
theorem run_sleepQueue_nap : ∃ m, Run step Possible boot
      [.sleep 2#64, .other .tick, .other .tick, .other .tick] m ∧ Ordered m ∧ Timely m := by
  have hsome : ([SleepMove.sleep 2#64, .other .tick, .other .tick, .other .tick].foldlM
      (guardedStep step Possible) boot).isSome = true := by decide +kernel
  obtain ⟨m, hm⟩ := Option.isSome_iff_exists.mp hsome
  have hrun := Run.of_foldlM hm
  obtain ⟨hordered, htimely⟩ := run_sleepQueue hrun
  exact ⟨m, hrun, hordered, htimely (by decide)⟩

/-- The state after some ticks in which nothing else has happened. -/
def clocked (n : Nat) : SleepSystem :=
  { boot with sys := { System.boot with msSinceBoot := BitVec.ofNat 64 n } }

theorem clocked_tick (n : Nat) :
    guardedStep step Possible (clocked n) (.other .tick) = some (clocked (n + 1)) := by
  have hclock : BitVec.ofNat 64 n + 1#64 = BitVec.ofNat 64 (n + 1) := (BitVec.ofNat_add n 1).symm
  have hyield : ({ System.boot with msSinceBoot := BitVec.ofNat 64 (n + 1) } : System).yield =
      .ok { System.boot with msSinceBoot := BitVec.ofNat 64 (n + 1) } := rfl
  have htick : act (clocked n).sys .tick = .ok (clocked (n + 1)).sys := by
    have hloop : System.sleepLoop 0 { System.boot with msSinceBoot := BitVec.ofNat 64 (n + 1) } =
        .ok { System.boot with msSinceBoot := BitVec.ofNat 64 (n + 1) } := rfl
    change System.checkSleep { System.boot with msSinceBoot := BitVec.ofNat 64 n + 1#64 } = _
    rw [hclock]
    change (System.sleepLoop 0 _ >>= _) = _
    rw [hloop]
    change (if _ then _ else _) = _
    rw [hyield]
    exact ite_self _
  have hpossible : (clocked n).Possible (.other .tick) :=
    ⟨⟨trivial, trivial, by simp [Action.own], rfl⟩, trivial⟩
  rw [guardedStep, if_pos hpossible]
  simp only [step, move, htick]
  rfl

theorem ticks_run (n k : Nat) : (List.replicate n (SleepMove.other .tick)).foldlM
    (guardedStep step Possible) (clocked k) = some (clocked (k + n)) := by
  induction n generalizing k with
  | zero => rfl
  | succ n ih =>
      rw [List.replicate_succ, List.foldlM_cons, clocked_tick]
      simpa [Nat.add_assoc, Nat.add_comm 1 n] using ih (k + 1)

/-- The sum of the clock and the duration wraps around, and the next tick wakes the task. -/
theorem sleep_wraps_around : ∃ moves m call, Run step Possible boot moves m ∧
    m.calls 0 = some call ∧ call.ms = 0x7FFFFFFFFFFFFFFF#64 ∧ (m.sys.tasks 0).state ≠ .blocked ∧
    (m.sys.tasks 0).wakeReason = .normal ∧
    m.sys.msSinceBoot.toNat = call.started.toNat + 1 := by
  let late : List SleepMove := [.sleep 0x7FFFFFFFFFFFFFFF#64, .other .tick]
  have hlate : ∃ m ∈ late.foldlM (guardedStep step Possible) (clocked (2 ^ 63 + 1)),
      m.calls 0 = some ⟨0x8000000000000001#64, 0x7FFFFFFFFFFFFFFF#64⟩ ∧
      (m.sys.tasks 0).state ≠ .blocked ∧ (m.sys.tasks 0).wakeReason = .normal ∧
      m.sys.msSinceBoot = 0x8000000000000002#64 := by decide +kernel
  obtain ⟨m, hm, hcall, hstate, hreason, hclock⟩ := hlate
  refine ⟨List.replicate (2 ^ 63 + 1) (.other .tick) ++ late, m, _, Run.of_foldlM ?_, hcall, rfl,
    hstate, hreason, by rw [hclock]; rfl⟩
  have hticks := ticks_run (2 ^ 63 + 1) 0
  rw [List.foldlM_append, show boot = clocked 0 from rfl, hticks]
  simpa using hm

end SleepSystem

end Nyan.Task
