import Nyan.Allocator.PhysicalFrame

/-!
The bitmap of the kernel's own pages (`allocator/frame.cpp`), from `0xC0800000` up to
`0xD0000000`. It is searched and cleared by the same code as that of the pool.
-/

namespace Nyan.Allocator

open Paging Library

/-- The bitmap of the pages from `0xC0800000` up to `0xD0000000`. -/
structure FrameManager where
  bitmap : Nat → BitVec 32

namespace FrameManager

/-- The bitmap as one of the same kind as the pool's; both are searched and cleared by
the same code. -/
def words (m : FrameManager) : PoolManager := ⟨m.bitmap, 0x7C0, by decide⟩

def init : FrameManager := ⟨fun _ => 0#32⟩

def frameAt (offset : Nat) : VirtualAddress := 0xC0800000#32 + BitVec.ofNat 32 offset <<< 12

def frameFor (addr : VirtualAddress) : Nat := ((addr - 0xC0800000#32) >>> 12).toNat

/-- `none` is the fatal error "frame not enough!". -/
def alloc (m : FrameManager) : Option (Nat × FrameManager) := do
  let (offset, words) ← m.words.alloc
  return (offset, ⟨words.bitmap⟩)

def free (m : FrameManager) (offset : Nat) : FrameManager := ⟨(m.words.free offset).bitmap⟩

def frameCount : Nat := 0xF800

variable {offset : Nat}

theorem frameAt_toNat (h : offset < frameCount) :
    (frameAt offset).toNat = 0xC0800000 + offset * 0x1000 := by
  unfold frameCount at h
  simp only [frameAt, BitVec.toNat_add, BitVec.toNat_shiftLeft, BitVec.toNat_ofNat,
    Nat.shiftLeft_eq]
  omega

end FrameManager

end Nyan.Allocator
