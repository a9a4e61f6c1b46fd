import Nyan.Fs.Pipe
import Nyan.Fs.Vfs
import Nyan.Library.Simulation

/-!
Regular files (`RamFSFileVNode` in `fs/fs/ramfs.cpp`, `fs/vnode_file.cpp`). The
contents are a vector of bytes, and each open file has a 64-bit offset of its own.
Sizes and pointers have 32 bits: a vector holds at most `max_size` bytes, and a
longer one ends in `__libcpp_verbose_abort`. The memory for a vector is taken to be
there.

An operation has no result where the kernel would stop, where it would write
outside of the vector or where a signed sum overflows.
-/

namespace Nyan.Fs

open Library

/-- `off_t`. -/
abbrev Offset := BitVec 64

/-- `__builtin_add_overflow` of two offsets. -/
def Offset.add (x y : Offset) : Option Offset :=
  if -2 ^ 63 ≤ x.toInt + y.toInt ∧ x.toInt + y.toInt < 2 ^ 63 then
    some (BitVec.ofInt 64 (x.toInt + y.toInt))
  else
    none

/-- The `max_size()` of a vector of bytes. -/
def maxSize : Nat := 0x7FFFFFFF

/-- `RamFSFileVNode`, with its `__data`. -/
structure RamFSFile where
  data : List Byte
  fits : data.length ≤ maxSize
  deriving DecidableEq

namespace RamFSFile

def size (file : RamFSFile) : Nat := file.data.length

/-- `__data.resize(newSize, 0)`. -/
def resize (file : RamFSFile) (newSize : BitVec 32) : Option RamFSFile :=
  if h : newSize.toNat ≤ maxSize then
    some ⟨file.data.takeD newSize.toNat 0#8, by rwa [List.takeD_length]⟩
  else
    none

/-- `memcpy(__data.data() + position, buf, size)`. -/
def store (file : RamFSFile) (position : Nat) (bytes : List Byte) : Option RamFSFile :=
  if h : position + bytes.length ≤ file.size then
    some ⟨file.data.take position ++ bytes ++ file.data.drop (position + bytes.length), by
      have := file.fits
      unfold size at h
      simp only [List.length_append, List.length_take, List.length_drop]
      omega⟩
  else
    none

/-- `read`, with the bytes that it copies. -/
def read (file : RamFSFile) (size : BitVec 32) (offset : Offset) : Except Errno (List Byte) :=
  if offset.toInt < 0 then
    .error .EINVAL
  else if file.size ≤ offset.toInt then
    .ok []
  else
    .ok ((file.data.drop offset.toNat).take (min (file.size - offset.toNat) size.toNat))

/-- The vector of a file that is too short for a write is resized. -/
def grow (file : RamFSFile) (newSize : Offset) : Option RamFSFile :=
  if file.size ≤ newSize.toInt then file.resize (newSize.setWidth 32) else some file

/-- `write` of `size` bytes from `buf`, with the `ssize_t` that it returns. The sum
has 64 bits; the size of the vector and the place of the copy keep the lower 32. -/
def write (file : RamFSFile) (buf : Nat → Byte) (size : BitVec 32) (offset : Offset) :
    Option (Int × RamFSFile) := do
  let newSize ← Offset.add (size.setWidth 64) offset
  let resized ← file.grow newSize
  let written ← resized.store (offset.setWidth 32).toNat ((List.range size.toNat).map buf)
  return (size.toInt, written)

/-- `truncate(0)`. -/
def truncate (file : RamFSFile) : Option RamFSFile :=
  if 0 < file.size then file.resize 0#32 else some file

end RamFSFile

def SEEK_SET : Int := 0
def SEEK_CUR : Int := 1
def SEEK_END : Int := 2

/-- `VNodeFileObj`: whether `__mode` has `O_APPEND`, and `__offset`. -/
structure VNodeFileObj where
  append : Bool
  offset : Offset
  deriving DecidableEq

namespace VNodeFileObj

/-- `seek` of a node of the given kind, where `stSize` is the size that `stat`
reports. The answer is the value returned. No node is a pipe. -/
def seek (obj : VNodeFileObj) (vnode : VNode) (stSize : Nat) (offset : Offset) (whence : Int) :
    Except Errno Offset × VNodeFileObj :=
  let newOff : Except Errno Offset :=
    if whence = SEEK_SET then
      .ok 0#64
    else if whence = SEEK_CUR then
      (Offset.add obj.offset offset).elim (.error .EOVERFLOW) .ok
    else if whence = SEEK_END then
      if vnode.isDirectory then
        .error .EINVAL
      else
        (Offset.add (BitVec.ofNat 64 stSize) offset).elim (.error .EOVERFLOW) .ok
    else
      .error .EINVAL
  match newOff with
  | .error e => (.error e, obj)
  | .ok newOff =>
      if newOff.toInt < 0 then
        (.error .EINVAL, obj)
      else
        (.ok 0#64, { obj with offset := newOff })

/-- `llseek`, after the checks of the descriptor and of the pointer `result`. The
answer is what it stores in `*result`. -/
def llseek (obj : VNodeFileObj) (vnode : VNode) (stSize : Nat) (offsetHigh offsetLow : BitVec 32)
    (whence : Int) : Except Errno Offset × VNodeFileObj :=
  if 0x80000000#32 ≤ offsetHigh then
    (.error .EINVAL, obj)
  else
    obj.seek vnode stSize (offsetHigh ++ offsetLow) whence

/-- `read` of a regular file. -/
def read (obj : VNodeFileObj) (file : RamFSFile) (size : BitVec 32) :
    Except Errno (List Byte) × VNodeFileObj :=
  match file.read size obj.offset with
  | .error e => (.error e, obj)
  | .ok bytes => (.ok bytes, { obj with offset := obj.offset + BitVec.ofNat 64 bytes.length })

/-- `write` to a regular file. -/
def write (obj : VNodeFileObj) (file : RamFSFile) (buf : Nat → Byte) (size : BitVec 32) :
    Option (Except Errno Int × VNodeFileObj × RamFSFile) :=
  let (sought, obj) :=
    if obj.append then obj.seek .regular file.size 0#64 SEEK_END else (.ok 0#64, obj)
  match sought with
  | .error e => some (.error e, obj, file)
  | .ok _ => do
      let (ret, file) ← file.write buf size obj.offset
      return (.ok ret, { obj with offset := obj.offset + BitVec.ofInt 64 ret }, file)

end VNodeFileObj

/-- One file and the file objects open on it. -/
structure OpenFiles where
  file : RamFSFile
  objs : Nat → VNodeFileObj

/-- The operations on the file objects; `truncate` is what `O_TRUNC` does. -/
inductive FileOp where
  | read (obj : Nat) (size : BitVec 32)
  | write (obj : Nat) (buf : Nat → Byte) (size : BitVec 32)
  | seek (obj : Nat) (offset : Offset) (whence : Int)
  | truncate

/-- What an operation returns. -/
inductive FileAnswer where
  | bytes (result : Except Errno (List Byte))
  | count (result : Except Errno Int)
  | position (result : Except Errno Offset)
  | done
  deriving DecidableEq

namespace OpenFiles

def setObj (s : OpenFiles) (i : Nat) (obj : VNodeFileObj) : OpenFiles :=
  { s with objs := Function.update s.objs i obj }

def step (s : OpenFiles) : FileOp → Option (FileAnswer × OpenFiles)
  | .read i size =>
      let (result, obj) := (s.objs i).read s.file size
      some (.bytes result, s.setObj i obj)
  | .write i buf size => do
      let (result, obj, file) ← (s.objs i).write s.file buf size
      return (.count result, { s with file }.setObj i obj)
  | .seek i offset whence =>
      let (result, obj) := (s.objs i).seek .regular s.file.size offset whence
      some (.position result, s.setObj i obj)
  | .truncate => do
      let file ← s.file.truncate
      return (.done, { s with file })

end OpenFiles

end Nyan.Fs
