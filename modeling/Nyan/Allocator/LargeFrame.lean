import Nyan.Allocator.Frame
import Nyan.Paging.Entry
import Nyan.Paging.RangeInvariant

/-!
The large frames (`allocator/large_frame.cpp`): ranges of pages between `0xD0000000`
and `0xFFFFF000`, kept by a `RangeManager`. The vector of the ranges is a list here,
and does not lie in the heap.
-/

namespace Nyan.Allocator

open Paging Library RangeManager

structure LFEntry where
  beginAddr : VirtualAddress
  endAddr : VirtualAddress
  deriving DecidableEq

instance : RangeEntry LFEntry where
  beginAddr := LFEntry.beginAddr
  endAddr := LFEntry.endAddr
  make lower upper := ⟨lower, upper⟩
  setBegin entry lower := { entry with beginAddr := lower }
  setEnd entry upper := { entry with endAddr := upper }
  beginAddr_make _ _ := rfl
  endAddr_make _ _ := rfl
  beginAddr_setBegin _ _ := rfl
  endAddr_setBegin _ _ := rfl
  beginAddr_setEnd _ _ := rfl
  endAddr_setEnd _ _ := rfl

/-- The vector `__addrs` of the `LargeFrameManager`. -/
abbrev LargeFrameManager := List LFEntry

namespace LargeFrameManager

def Base : VirtualAddress := 0xD0000000#32
def Top : VirtualAddress := 0xFFFFF000#32

def init : LargeFrameManager := RangeManager.init Base Top

/-- `alloc`. The outer option is the undefined access of `__locate`, the inner one the
`std::optional` the source returns. -/
def alloc (m : LargeFrameManager) (page : Nat) :
    Option (Option (VirtualAddress × LargeFrameManager)) := do
  let length := BitVec.ofNat 32 (page <<< 12)
  match ← findFree Base Top m length Base with
  | some addr =>
      let (ok, m) ← RangeManager.insert m (⟨addr, addr + length⟩ : LFEntry)
      return if ok then some (addr, m) else none
  | none => return none

/-- `free`: the number of pages. It is fatal if the address is no page, or not the
beginning of a range. -/
def free (m : LargeFrameManager) (addr : VirtualAddress) : Option (Nat × LargeFrameManager) :=
  if thisPage addr ≠ addr then
    none
  else do
    let loc ← locate m addr
    let entry ← m[loc]?
    if entry.beginAddr ≠ addr then
      none
    else
      return (((entry.endAddr - entry.beginAddr) >>> 12).toNat, m.eraseIdx loc)

end LargeFrameManager

end Nyan.Allocator
