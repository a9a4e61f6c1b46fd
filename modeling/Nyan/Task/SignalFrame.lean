import Nyan.Library.ByteMemory

/-!
The frames that signal delivery stores on the user stack (`interrupt/isr.hpp`,
`task/signal.hpp`), byte by byte as the compiler lays them out for i386, and the
repairs that `sigreturn` makes to a frame it finds there.
-/

namespace Nyan.Task

open Library

def userCs : BitVec 32 := 0x18#32 ||| 0x3#32
def userDs : BitVec 32 := 0x20#32 ||| 0x3#32
def userTls : BitVec 32 := 0x30#32 ||| 0x3#32

/-- What an interrupt pushes, from the lowest address up. The field `_esp` of the
source, which `popal` ignores, is `pushedEsp`. -/
structure SyscallFrame where
  effectiveEsp : BitVec 32
  userGs : BitVec 16
  userFs : BitVec 16
  userEs : BitVec 16
  userDs : BitVec 16
  edi : BitVec 32
  esi : BitVec 32
  ebp : BitVec 32
  pushedEsp : BitVec 32
  ebx : BitVec 32
  edx : BitVec 32
  ecx : BitVec 32
  eax : BitVec 32
  isrNum : BitVec 32
  errorCode : BitVec 32
  eip : BitVec 32
  cs : BitVec 32
  flags : BitVec 32
  userEsp : BitVec 32
  userSs : BitVec 32
  deriving DecidableEq

namespace SyscallFrame

/-- The bytes of the fields, in their order in memory. -/
def fields (f : SyscallFrame) : List (List Byte) :=
  [toBytes 4 f.effectiveEsp, toBytes 2 f.userGs, toBytes 2 f.userFs, toBytes 2 f.userEs,
    toBytes 2 f.userDs, toBytes 4 f.edi, toBytes 4 f.esi, toBytes 4 f.ebp, toBytes 4 f.pushedEsp,
    toBytes 4 f.ebx, toBytes 4 f.edx, toBytes 4 f.ecx, toBytes 4 f.eax, toBytes 4 f.isrNum,
    toBytes 4 f.errorCode, toBytes 4 f.eip, toBytes 4 f.cs, toBytes 4 f.flags,
    toBytes 4 f.userEsp, toBytes 4 f.userSs]

/-- The sizes of the fields. -/
def sizes : List Nat := [4, 2, 2, 2, 2, 4, 4, 4, 4, 4, 4, 4, 4, 4, 4, 4, 4, 4, 4, 4]

def size : Nat := sizes.sum

def encode (f : SyscallFrame) : List Byte := f.fields.flatten

/-- The frame at `size` bytes of memory. -/
def decode (bytes : List Byte) : Option SyscallFrame :=
  match sizes.splitLengths bytes with
  | [effectiveEsp, gs, fs, es, ds, edi, esi, ebp, esp, ebx, edx, ecx, eax, isrNum, errorCode, eip,
      cs, flags, userEsp, ss] => some {
        effectiveEsp := fromBytes 32 effectiveEsp
        userGs := fromBytes 16 gs
        userFs := fromBytes 16 fs
        userEs := fromBytes 16 es
        userDs := fromBytes 16 ds
        edi := fromBytes 32 edi
        esi := fromBytes 32 esi
        ebp := fromBytes 32 ebp
        pushedEsp := fromBytes 32 esp
        ebx := fromBytes 32 ebx
        edx := fromBytes 32 edx
        ecx := fromBytes 32 ecx
        eax := fromBytes 32 eax
        isrNum := fromBytes 32 isrNum
        errorCode := fromBytes 32 errorCode
        eip := fromBytes 32 eip
        cs := fromBytes 32 cs
        flags := fromBytes 32 flags
        userEsp := fromBytes 32 userEsp
        userSs := fromBytes 32 ss }
  | _ => none

theorem map_length_fields (f : SyscallFrame) : f.fields.map List.length = sizes := by
  simp [fields, sizes]

@[simp] theorem length_encode (f : SyscallFrame) : f.encode.length = size := by
  rw [encode, List.length_flatten, map_length_fields, size]

/-- The layout loses nothing: every field is read where it was written. -/
theorem decode_encode (f : SyscallFrame) : decode f.encode = some f := by
  have hword : ∀ v : BitVec 32, fromBytes 32 (toBytes 4 v) = v := fromBytes_toBytes (by decide)
  have hhalf : ∀ v : BitVec 16, fromBytes 16 (toBytes 2 v) = v := fromBytes_toBytes (by decide)
  rw [decode, ← map_length_fields f, encode, splitLengths_flatten]
  simp [fields, hword, hhalf]

end SyscallFrame

/-- A frame of user code: the selectors are those of user code, interrupts are
on, and the I/O privilege level is zero. -/
structure UserFrame (f : SyscallFrame) : Prop where
  cs : f.cs = userCs
  ss : f.userSs = userDs
  ds : f.userDs = userDs.setWidth 16
  es : f.userEs = userDs.setWidth 16
  fs : f.userFs = userDs.setWidth 16
  gs : f.userGs = userDs.setWidth 16 ∨ f.userGs = userTls.setWidth 16
  interrupts : f.flags &&& 0x200#32 = 0x200#32
  iopl : f.flags &&& 0x3000#32 = 0#32

instance (f : SyscallFrame) : Decidable (UserFrame f) :=
  decidable_of_iff (f.cs = userCs ∧ f.userSs = userDs ∧ f.userDs = userDs.setWidth 16 ∧
      f.userEs = userDs.setWidth 16 ∧ f.userFs = userDs.setWidth 16 ∧
      (f.userGs = userDs.setWidth 16 ∨ f.userGs = userTls.setWidth 16) ∧
      f.flags &&& 0x200#32 = 0x200#32 ∧ f.flags &&& 0x3000#32 = 0#32)
    ⟨fun ⟨hcs, hss, hds, hes, hfs, hgs, hif, hiopl⟩ => ⟨hcs, hss, hds, hes, hfs, hgs, hif, hiopl⟩,
      fun h => ⟨h.cs, h.ss, h.ds, h.es, h.fs, h.gs, h.interrupts, h.iopl⟩⟩

/-- What `sigreturn` does to the fields that user code must not choose. -/
def sanitise (f : SyscallFrame) : SyscallFrame :=
  { f with
    cs := userCs
    userSs := userDs
    userDs := userDs.setWidth 16
    userEs := userDs.setWidth 16
    userFs := userDs.setWidth 16
    userGs := if f.userGs ≠ userDs.setWidth 16 ∧ f.userGs ≠ userTls.setWidth 16 then
      userDs.setWidth 16 else f.userGs
    flags := (f.flags &&& ~~~0x3000#32) ||| 0x200#32 }

/-- The repairs leave a frame of user code as it is. -/
theorem UserFrame.sanitise_eq {f : SyscallFrame} (h : UserFrame f) : sanitise f = f := by
  have hflags : (f.flags &&& ~~~0x3000#32) ||| 0x200#32 = f.flags :=
    (clear_set_eq_self (by decide)).mpr ⟨h.interrupts, h.iopl⟩
  have hgs : ¬ (f.userGs ≠ userDs.setWidth 16 ∧ f.userGs ≠ userTls.setWidth 16) := by
    rintro ⟨hds, htls⟩
    rcases h.gs with hgs | hgs
    · exact hds hgs
    · exact htls hgs
  obtain ⟨hcs, hss, hds, hes, hfs, _, _, _⟩ := h
  rw [sanitise, if_neg hgs, hflags]
  cases f
  simp only at hcs hss hds hes hfs
  subst hcs hss hds hes hfs
  rfl

/-- What signal delivery puts on the user stack. -/
structure SignalFrame where
  retAddr : BitVec 32
  signal : BitVec 32
  oldMask : BitVec 64
  frame : SyscallFrame

namespace SignalFrame

def size : Nat := 88

def encode (f : SignalFrame) : List Byte :=
  toBytes 4 f.retAddr ++ toBytes 4 f.signal ++ toBytes 8 f.oldMask ++ f.frame.encode

@[simp] theorem length_encode (f : SignalFrame) : f.encode.length = size := by
  simp [encode, size, SyscallFrame.size, SyscallFrame.sizes]

/-- Behind the return address and the signal number, which are popped, lie the
mask and the frame. -/
theorem load_store_encode (f : SignalFrame) (memory : Memory 32) (esp : BitVec 32) :
    (memory.store esp f.encode).load (esp + 8#32) (8 + SyscallFrame.size) =
      toBytes 8 f.oldMask ++ f.frame.encode := by
  have hlen : 8 + (8 + SyscallFrame.size) ≤ f.encode.length := by
    rw [length_encode]
    decide
  have hfit : f.encode.length ≤ 2 ^ 32 := by
    rw [length_encode]
    decide
  have hdrop : f.encode.drop 8 = toBytes 8 f.oldMask ++ f.frame.encode := by
    rw [encode, List.append_assoc, List.drop_left' (by simp)]
  rw [Memory.load_store memory esp hlen hfit, hdrop, List.take_of_length_le (by simp)]

end SignalFrame

end Nyan.Task
