import Nyan.Allocator.LargeFrame

/-!
Which allocator `autoAlloc` (`allocator/mod.cpp`) asks: chunks of slabs, single frames or
large frames, by the size of the request.
-/

namespace Nyan.Allocator

/-- `(size + 0xFFF) >> 12`, in 32 bits. -/
def Heap.pageCount (size : Nat) : Nat := ((size + 0xFFF) % 2 ^ 32) >>> 12

/-- The three allocators. -/
inductive SubAllocator where
  | slab
  | frame
  | largeFrame
  deriving DecidableEq

/-- The allocator that serves a request of `size` bytes. -/
def subAllocator (size : Nat) : SubAllocator :=
  if size ≤ 512 then .slab else if size ≤ 4096 then .frame else .largeFrame

theorem subAllocator_large {size : Nat} : subAllocator size = .largeFrame ↔ 4096 < size := by
  unfold subAllocator
  split
  · simp
    omega
  · split
    · simp
      omega
    · simp
      omega

end Nyan.Allocator
