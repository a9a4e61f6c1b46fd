import Nyan.Result
import Nyan.Task.SleepQueue

/-!
`nanosleep` (`syscall/nanosleep.cpp`). The duration in milliseconds is computed in 32 bits
with a sign before it is widened to the 64 bits of `sleep`. A duration of `2 ^ 31`
milliseconds or more wraps around, and the call returns far too early.
-/

namespace Nyan.Syscall

open Nyan.Library Nyan.Task

/-- `__nyan_timespec32`. -/
structure Timespec32 where
  tv_sec : BitVec 32
  tv_nsec : BitVec 32
  deriving DecidableEq, Repr

namespace Timespec32

/-- The check of the request. -/
def rejected (rqtp : Timespec32) : Bool :=
  rqtp.tv_sec.slt 0#32 || rqtp.tv_nsec.slt 0#32 || (1000000000#32).sle rqtp.tv_nsec

/-- `msec`, as `sleep` gets it. -/
def msec (rqtp : Timespec32) : BitVec 64 :=
  (rqtp.tv_sec * 1000#32 + rqtp.tv_nsec.sdiv 1000000#32).signExtend 64

/-- What is stored in `*rmtp`. -/
def ofRest (rest : BitVec 64) : Timespec32 where
  tv_sec := (rest / 1000#64).setWidth 32
  tv_nsec := ((rest % 1000#64) * 1000000#64).setWidth 32

/-- The milliseconds that are asked for. -/
def duration (rqtp : Timespec32) : Nat :=
  rqtp.tv_sec.toNat * 1000 + rqtp.tv_nsec.toNat / 1000000

/-- The milliseconds that a remainder stands for. -/
def milliseconds (rmtp : Timespec32) : Int :=
  rmtp.tv_sec.toInt * 1000 + rmtp.tv_nsec.toInt / 1000000

variable {rqtp : Timespec32}

theorem not_rejected_iff : rqtp.rejected = false ↔
    rqtp.tv_sec.toNat < 2 ^ 31 ∧ rqtp.tv_nsec.toNat < 1000000000 := by
  simp only [rejected, Bool.or_eq_false_iff, BitVec.slt_eq_decide, BitVec.sle_eq_decide,
    decide_eq_false_iff_not, BitVec.toInt_zero]
  have hsec := rqtp.tv_sec.isLt
  have hnsec := rqtp.tv_nsec.isLt
  have hmillion : (1000000000#32).toInt = 1000000000 := rfl
  rw [hmillion, BitVec.toInt_eq_toNat_cond, BitVec.toInt_eq_toNat_cond]
  split <;> split <;> omega

/-- The sum wraps around at `2 ^ 32`. -/
theorem toNat_sum (h : rqtp.rejected = false) :
    (rqtp.tv_sec * 1000#32 + rqtp.tv_nsec.sdiv 1000000#32).toNat = rqtp.duration % 2 ^ 32 := by
  obtain ⟨_, hnsec⟩ := not_rejected_iff.mp h
  have hmsb : rqtp.tv_nsec.msb = false := by
    rw [BitVec.msb_eq_false_iff_two_mul_lt]
    omega
  have hdiv : rqtp.tv_nsec.sdiv 1000000#32 = rqtp.tv_nsec / 1000000#32 := by
    rw [BitVec.sdiv_eq, hmsb]
    rfl
  rw [hdiv, BitVec.toNat_add, BitVec.toNat_mul, BitVec.toNat_udiv, duration,
    show (1000#32).toNat = 1000 from rfl, show (1000000#32).toNat = 1000000 from rfl]
  omega

/-- The sum is widened with its sign. -/
theorem toNat_msec (h : rqtp.rejected = false) :
    rqtp.msec.toNat = if rqtp.duration % 2 ^ 32 < 2 ^ 31 then rqtp.duration % 2 ^ 32
      else 2 ^ 64 - 2 ^ 32 + rqtp.duration % 2 ^ 32 := by
  have hsum := toNat_sum h
  rw [msec, BitVec.toNat_signExtend, BitVec.toNat_setWidth, hsum, BitVec.msb_eq_decide, hsum]
  split <;> split <;> simp_all <;> omega

/-- A remainder below `2 ^ 31` milliseconds is stored as it is. -/
theorem milliseconds_ofRest {rest : BitVec 64} (h : rest.toNat < 2 ^ 31) :
    (ofRest rest).milliseconds = rest.toNat := by
  have hsec : (ofRest rest).tv_sec.toNat = rest.toNat / 1000 := by
    rw [ofRest, BitVec.toNat_setWidth, BitVec.toNat_udiv, show (1000#64).toNat = 1000 from rfl]
    omega
  have hnsec : (ofRest rest).tv_nsec.toNat = rest.toNat % 1000 * 1000000 := by
    rw [ofRest, BitVec.toNat_setWidth, BitVec.toNat_mul, BitVec.toNat_umod,
      show (1000#64).toNat = 1000 from rfl, show (1000000#64).toNat = 1000000 from rfl]
    omega
  rw [milliseconds, BitVec.toInt_eq_toNat_of_lt (by omega), BitVec.toInt_eq_toNat_of_lt (by omega),
    hsec, hnsec]
  omega

end Timespec32

/-- `nanosleep`, up to its call of `sleep`. -/
def nanosleep (rqtp : Timespec32) : Except Errno SleepMove :=
  if rqtp.rejected then .error .EINVAL else .ok (.sleep rqtp.msec)

/-- The rest of `nanosleep`, when its task runs again: what it returns, and what it stores in
`*rmtp`. -/
def nanosleepReturn (m : SleepSystem) (call : SleepCall) : Except Errno Unit × Timespec32 :=
  (if (m.sys.tasks m.sys.current).wakeReason = .signal then .error .EINTR else .ok (),
    Timespec32.ofRest (call.rest m.sys.msSinceBoot))

/-- What the caller may expect when its call returns: without a signal the whole duration has
passed, and with one the remainder is what has not. -/
def Kept (m : SleepSystem) (rqtp : Timespec32) (call : SleepCall) : Prop :=
  let elapsed : Int := m.sys.msSinceBoot.toNat - call.started.toNat
  match nanosleepReturn m call with
  | (.ok _, _) => rqtp.duration ≤ elapsed
  | (.error _, rmtp) => |rmtp.milliseconds + elapsed - rqtp.duration| ≤ 1

/-- The current task is about to return from a call of `nanosleep`. -/
structure Returning (m : SleepSystem) (rqtp : Timespec32) (call : SleepCall) : Prop where
  inside : m.calls m.sys.current = some call
  asked : nanosleep rqtp = .ok (.sleep call.ms)

theorem nanosleep_eq {rqtp : Timespec32} (hvalid : rqtp.rejected = false) :
    nanosleep rqtp = .ok (.sleep rqtp.msec) := by
  simp [nanosleep, hvalid]

theorem Returning.msec {m : SleepSystem} {rqtp : Timespec32} {call : SleepCall}
    (h : Returning m rqtp call) (hvalid : rqtp.rejected = false) : call.ms = rqtp.msec := by
  have hasked := h.asked
  rw [nanosleep_eq hvalid] at hasked
  injection hasked with hsleep
  injection hsleep with hms
  exact hms.symm

/-- A task that a signal has woken gets the processor at most a millisecond after its
deadline. -/
def InTime (m : SleepSystem) (rqtp : Timespec32) (call : SleepCall) : Prop :=
  (m.sys.tasks m.sys.current).wakeReason = .signal →
    m.sys.msSinceBoot.toNat ≤ call.started.toNat + rqtp.duration + 1

theorem kept_iff_of_fits {rqtp : Timespec32} (hvalid : rqtp.rejected = false)
    (hfits : rqtp.duration < 2 ^ 31) {moves : List SleepMove} {m : SleepSystem}
    (hrun : Run SleepSystem.step SleepSystem.Allowed SleepSystem.boot moves m)
    (hticks : moves.countP SleepMove.isTick ≤ 2 ^ 63) {call : SleepCall}
    (hreturning : Returning m rqtp call) :
    Kept m rqtp call ↔ InTime m rqtp call := by
  obtain ⟨_, hpunctual⟩ := SleepSystem.run_punctual hrun hticks
  have hms : call.ms.toNat = rqtp.duration := by
    rw [hreturning.msec hvalid, Timespec32.toNat_msec hvalid, if_pos (by omega)]
    omega
  have hshort : call.ms.toNat < 2 ^ 63 := by omega
  have hstarted := hpunctual.started _ call hreturning.inside
  unfold Kept InTime nanosleepReturn
  cases hreason : (m.sys.tasks m.sys.current).wakeReason with
  | normal =>
      have hawake : (m.sys.tasks m.sys.current).state ≠ .blocked := by
        simp [(SleepSystem.run_sound hrun).inv.current]
      have hslept := hpunctual.slept _ call hreturning.inside hshort hawake hreason
      simp only [reduceCtorEq, if_false, false_imp_iff, iff_true]
      omega
  | signal =>
      have hrest : (call.rest m.sys.msSinceBoot).toNat =
          call.started.toNat + call.ms.toNat - m.sys.msSinceBoot.toNat :=
        SleepCall.rest_toNat (hpunctual.fits hreturning.inside hshort)
      simp only [if_true, true_imp_iff]
      rw [Timespec32.milliseconds_ofRest (by omega), hrest, abs_le]
      omega

/-! ### A sleep of `init` on an idle machine -/

section Nap

variable {start : Nat} {ms now : BitVec 64}

/-- The scheduler after `init` has called `sleep`. -/
def asleepSince (start : Nat) (ms : BitVec 64) : System :=
  ((SleepSystem.clocked start).sys.sleep ms).toOption.getD System.boot

def napping (start : Nat) (ms now : BitVec 64) : SleepSystem where
  sys := { asleepSince start ms with msSinceBoot := now }
  calls := Function.update (fun _ => none) 0 (some ⟨BitVec.ofNat 64 start, ms⟩)

/-- `init` has been woken, and is ready. -/
def woken (start : Nat) (ms now : BitVec 64) : System :=
  ((napping start ms now).sys.wakeFront .sleeping 0 .normal).toOption.getD System.boot

theorem clocked_sleep : (SleepSystem.clocked start).step (.sleep ms) =
    some (napping start ms (BitVec.ofNat 64 start)) := rfl

theorem napping_tick_early (h : ¬ BitVec.ofNat 64 start + ms < now + 1#64) :
    (napping start ms now).step (.other .tick) = some (napping start ms (now + 1#64)) := by
  have hloop : System.sleepLoop 1 (napping start ms (now + 1#64)).sys =
      .ok (napping start ms (now + 1#64)).sys := if_neg h
  have hyield : (napping start ms (now + 1#64)).sys.yield =
      .ok (napping start ms (now + 1#64)).sys := rfl
  have htick : act (napping start ms now).sys .tick = .ok (napping start ms (now + 1#64)).sys := by
    change (System.sleepLoop 1 (napping start ms (now + 1#64)).sys >>= _) = _
    rw [hloop]
    change (if _ then _ else _) = _
    rw [hyield]
    exact ite_self _
  simp only [SleepSystem.step, SleepSystem.move, htick]
  rfl

/-- The idle task gives the processor to the first task of the queue. -/
theorem yield_to_first {s : System} {next : TaskId} {rest : List TaskId}
    (hcounter : s.disableYieldCounter = 0#32) (hitems : s.queues.items .pending = next :: rest)
    (hrunning : (s.tasks s.current).state = .running) (hidle : (s.tasks s.current).pid = KP_Idle)
    (hne : next ≠ s.current) : ∃ s', s.yield = .ok s' ∧ s'.current = next ∧
      (s'.tasks next).wakeReason = (s.tasks next).wakeReason ∧
      s'.msSinceBoot = s.msSinceBoot := by
  have hpending := (s.queues.mem_iff .pending next).mp (by simp [hitems])
  obtain ⟨queues, hextract, _⟩ := Intrusive.extract_eq hpending
  have hyield : s.yield = .ok (({ s with queues }.modify s.current fun tcb =>
      { tcb with state := .ready }).switchToTask next) := by
    simp [System.yield, hcounter, hitems, System.unlink, hextract, System.requeueCurrent, hrunning,
      hidle, System.modify, bind, Except.bind, pure, Except.pure]
  exact ⟨_, hyield, rfl, by simp [System.switchToTask, System.modify, hne], rfl⟩

theorem woken_yield (start : Nat) (ms now : BitVec 64) : ∃ s,
    (woken start ms now).yield = .ok s ∧ s.current = 0 ∧ (s.tasks 0).wakeReason = .normal ∧
      s.msSinceBoot = now :=
  yield_to_first (s := woken start ms now) rfl rfl rfl rfl (show (0 : Nat) ≠ 1 by decide)

theorem napping_tick_due (h : BitVec.ofNat 64 start + ms < now + 1#64) :
    act (napping start ms now).sys .tick =
      if (now + 1#64) % 10#64 = 0#64 then (woken start ms (now + 1#64)).yield
      else .ok (woken start ms (now + 1#64)) := by
  have hloop : System.sleepLoop 1 (napping start ms (now + 1#64)).sys =
      .ok (woken start ms (now + 1#64)) := if_pos h
  change (System.sleepLoop 1 (napping start ms (now + 1#64)).sys >>= _) = _
  rw [hloop]
  rfl

theorem step_other {m : SleepSystem} {a : Action} {s : System} (h : act m.sys a = .ok s) :
    m.step (.other a) = some { m with sys := s } := by
  simp [SleepSystem.step, SleepSystem.move, h, bind, Except.bind, pure, Except.pure,
    Except.toOption]

/-- `init` has been woken by the clock and runs again. -/
structure Resumed (start : Nat) (ms now : BitVec 64) (m : SleepSystem) : Prop where
  current : m.sys.current = 0
  inside : m.calls 0 = some ⟨BitVec.ofNat 64 start, ms⟩
  reason : (m.sys.tasks 0).wakeReason = .normal
  clock : m.sys.msSinceBoot = now

variable {moves : List SleepMove}

/-- The next tick wakes `init`, which gets the processor with it or with a `yield`. -/
theorem resumed_of_due
    (hrun : Run SleepSystem.step SleepSystem.Allowed SleepSystem.boot moves (napping start ms now))
    (h : BitVec.ofNat 64 start + ms < now + 1#64) :
    ∃ moves' m, Run SleepSystem.step SleepSystem.Allowed SleepSystem.boot moves' m ∧
      moves'.countP SleepMove.isTick = moves.countP SleepMove.isTick + 1 ∧
      Resumed start ms (now + 1#64) m := by
  have htick := napping_tick_due h
  have hallowed : (napping start ms now).Allowed (.other .tick) :=
    ⟨trivial, trivial, Bool.noConfusion, rfl⟩
  obtain ⟨s, hyield, hcurrent, hreason, hclock⟩ := woken_yield start ms (now + 1#64)
  split at htick
  · rw [hyield] at htick
    refine ⟨_, _, hrun.snoc hallowed (step_other htick), ?_, hcurrent, rfl, hreason, hclock⟩
    simp [SleepMove.isTick]
  · have hyielding : ({ napping start ms now with sys := woken start ms (now + 1#64) }).Allowed
        (.other .yield) := ⟨trivial, trivial, fun _ => rfl, rfl⟩
    have hturn : act (woken start ms (now + 1#64)) .yield = .ok s := hyield
    refine ⟨_, _, (hrun.snoc hallowed (step_other htick)).snoc hyielding (step_other hturn), ?_,
      hcurrent, rfl, hreason, hclock⟩
    simp
    rfl

theorem napping_ticks {clock : Nat} (k : Nat)
    (hrun : Run SleepSystem.step SleepSystem.Allowed SleepSystem.boot moves
      (napping start ms (BitVec.ofNat 64 clock)))
    (hearly : clock + k ≤ (BitVec.ofNat 64 start + ms).toNat) :
    Run SleepSystem.step SleepSystem.Allowed SleepSystem.boot
      (moves ++ List.replicate k (.other .tick))
      (napping start ms (BitVec.ofNat 64 (clock + k))) := by
  induction k with
  | zero => simpa using hrun
  | succ k ih =>
      have hclock : BitVec.ofNat 64 (clock + k) + 1#64 = BitVec.ofNat 64 (clock + (k + 1)) :=
        (BitVec.ofNat_add (clock + k) 1).symm
      have hyet : ¬ BitVec.ofNat 64 start + ms < BitVec.ofNat 64 (clock + k) + 1#64 := by
        bv_omega
      have htick := napping_tick_early hyet
      rw [hclock] at htick
      rw [List.replicate_succ', ← List.append_assoc]
      exact (ih (by omega)).snoc ⟨trivial, trivial, Bool.noConfusion, rfl⟩ htick

/-- `init` calls `sleep` at a given time. -/
theorem napping_run (start : Nat) (ms : BitVec 64) : ∃ moves,
    Run SleepSystem.step SleepSystem.Allowed SleepSystem.boot moves
      (napping start ms (BitVec.ofNat 64 start)) ∧
    moves.countP SleepMove.isTick = start := by
  have hticks := (Run.of_foldlM (SleepSystem.ticks_run start 0)).mono fun _ _ hok => hok.1
  rw [Nat.zero_add] at hticks
  have hinit : KP_Init ≠ KP_Idle := by decide
  have hallowed : (SleepSystem.clocked start).Allowed (.sleep ms) := ⟨hinit, rfl⟩
  refine ⟨_, hticks.snoc hallowed clocked_sleep, ?_⟩
  simp [List.countP_replicate, SleepMove.isTick]

end Nap

variable {rqtp : Timespec32}

theorem broken_of_resumed (hvalid : rqtp.rejected = false) {start : Nat} {now : BitVec 64}
    {m : SleepSystem}
    (h : Resumed start rqtp.msec now m) (hstart : start < 2 ^ 64)
    (hsoon : now.toNat < start + rqtp.duration) :
    Returning m rqtp ⟨BitVec.ofNat 64 start, rqtp.msec⟩ ∧
      InTime m rqtp ⟨BitVec.ofNat 64 start, rqtp.msec⟩ ∧
      ¬ Kept m rqtp ⟨BitVec.ofNat 64 start, rqtp.msec⟩ := by
  refine ⟨⟨h.current ▸ h.inside, nanosleep_eq hvalid⟩, ?_, ?_⟩
  · intro hsignal
    rw [h.current, h.reason] at hsignal
    cases hsignal
  · simp only [Kept, nanosleepReturn, h.current, h.reason, h.clock, BitVec.toNat_ofNat,
      Nat.mod_eq_of_lt hstart, reduceCtorEq, if_false]
    omega

/-- A duration whose milliseconds do not fit in an `int` is cut short. -/
theorem broken_of_long (hvalid : rqtp.rejected = false) (hlong : 2 ^ 31 ≤ rqtp.duration) :
    ∃ moves m call, Run SleepSystem.step SleepSystem.Allowed SleepSystem.boot moves m ∧
      moves.countP SleepMove.isTick ≤ 2 ^ 63 ∧ Returning m rqtp call ∧ InTime m rqtp call ∧
      ¬ Kept m rqtp call := by
  have hmsec := Timespec32.toNat_msec hvalid
  by_cases hsmall : rqtp.duration % 2 ^ 32 < 2 ^ 31
  · rw [if_pos hsmall] at hmsec
    obtain ⟨moves, hrun, hcount⟩ := napping_run 0 rqtp.msec
    have hearly := napping_ticks rqtp.msec.toNat hrun (by simp)
    obtain ⟨moves', m, hrun', hcount', hresumed⟩ := resumed_of_due hearly (by bv_omega)
    refine ⟨moves', m, _, hrun', ?_, broken_of_resumed hvalid hresumed (by omega) (by bv_omega)⟩
    have htick : (SleepMove.other .tick).isTick = true := rfl
    rw [hcount', List.countP_append, hcount, List.countP_replicate, if_pos htick]
    omega
  · rw [if_neg hsmall] at hmsec
    obtain ⟨moves, hrun, hcount⟩ := napping_run (2 ^ 32 - rqtp.duration % 2 ^ 32) rqtp.msec
    obtain ⟨moves', m, hrun', hcount', hresumed⟩ := resumed_of_due hrun (by bv_omega)
    refine ⟨moves', m, _, hrun', by omega, broken_of_resumed hvalid hresumed (by omega) ?_⟩
    bv_omega

/-- Wherever in a run a call of `nanosleep` with this request returns, it keeps its duration
exactly if the task was not late after a signal; this holds if and only if the milliseconds of
the request fit in an `int`. -/
theorem nanosleep_kept_iff (hvalid : rqtp.rejected = false) :
    (∀ moves m call, Run SleepSystem.step SleepSystem.Allowed SleepSystem.boot moves m →
      moves.countP SleepMove.isTick ≤ 2 ^ 63 → Returning m rqtp call →
      (Kept m rqtp call ↔ InTime m rqtp call)) ↔
    rqtp.duration < 2 ^ 31 := by
  constructor
  · intro hkept
    by_contra hlong
    obtain ⟨moves, m, call, hrun, hticks, hreturning, hinTime, hbroken⟩ :=
      broken_of_long hvalid (by omega)
    exact hbroken ((hkept moves m call hrun hticks hreturning).mpr hinTime)
  · intro hfits moves m call hrun hticks hreturning
    exact kept_iff_of_fits hvalid hfits hrun hticks hreturning

/-- A request of a second and a half. -/
theorem nanosleep_kept_iff_short : (⟨1#32, 500000000#32⟩ : Timespec32).rejected = false ∧
    ∀ moves m call, Run SleepSystem.step SleepSystem.Allowed SleepSystem.boot moves m →
      moves.countP SleepMove.isTick ≤ 2 ^ 63 → Returning m ⟨1#32, 500000000#32⟩ call →
      (Kept m ⟨1#32, 500000000#32⟩ call ↔ InTime m ⟨1#32, 500000000#32⟩ call) :=
  ⟨by decide, (nanosleep_kept_iff (by decide)).mpr (by decide)⟩

/-- The milliseconds of 4294968 seconds are 704 to an `int`: the call returns after less than a
second. -/
theorem long_sleep_cut_short : ∃ moves m call,
    Run SleepSystem.step SleepSystem.Allowed SleepSystem.boot moves m ∧
    Returning m ⟨4294968#32, 0#32⟩ call ∧ (nanosleepReturn m call).1 = .ok () ∧
    m.sys.msSinceBoot.toNat - call.started.toNat = 705 := by
  obtain ⟨moves, hrun, _⟩ := napping_run 0 704#64
  have hearly := napping_ticks 704 hrun (by decide)
  obtain ⟨moves', m, hrun', _, hresumed⟩ := resumed_of_due hearly (by decide)
  refine ⟨moves', m, ⟨0#64, 704#64⟩, hrun', ⟨hresumed.current ▸ hresumed.inside, by rfl⟩, ?_,
    by rw [hresumed.clock]; rfl⟩
  simp [nanosleepReturn, hresumed.current, hresumed.reason]

end Nyan.Syscall
