import Nyan.Result
import Nyan.Task.SignalDelivery

/-!
Sets of signals, and the signals that a task does not ignore (`task/tcb/signal.cpp`).
-/

namespace Nyan.Task

open Library Paging

def NSIG : Nat := 65

/-- The set with one signal. -/
def sigBit (sig : Nat) : BitVec 64 := 1#64 <<< (sig - 1)

theorem getLsbD_sigBit (sig k : Nat) :
    (sigBit sig).getLsbD k = (decide (k < 64) && decide (k = sig - 1)) := by
  unfold sigBit
  rw [BitVec.getLsbD_shiftLeft]
  by_cases hk : k = sig - 1
  · simp [hk]
  · by_cases hlt : k < sig - 1
    · simp [hk, hlt]
    · have hpos : k - (sig - 1) ≠ 0 := by omega
      simp [hk, hpos]

namespace TaskSignalInfo

/-- A signal that the task does not ignore. -/
def isInterrupted (info : TaskSignalInfo) (sig : Nat) : Bool :=
  match info.signalActions with
  | none => !isSignalDefaultIgnore sig
  | some actions =>
      if (actions sig).handler = SIG_IGN then
        false
      else if (actions sig).handler = SIG_DFL then
        !isSignalDefaultIgnore sig
      else
        true

end TaskSignalInfo

end Nyan.Task
