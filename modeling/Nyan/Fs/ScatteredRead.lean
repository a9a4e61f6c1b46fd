import Mathlib.Algebra.Order.BigOperators.Group.List
import Mathlib.Algebra.Order.Group.Nat
import Nyan.Console.TtyInput
import Nyan.Fs.Pipe
import Nyan.Fs.RegularFile

/-!
`readv` against `read`. `readv` reads into one buffer after the other and stops at a short
count. When what is there just fills some of its buffers, it goes on to the next one, and
on a pipe or a terminal that read waits for more, though bytes have been transferred.
-/

namespace Nyan.Fs

/-- A file object that can be read. -/
inductive ReadObject where
  | regular (file : RamFSFile) (obj : VNodeFileObj)
  | pipe (state : PipeState)
  | tty (terminal : Console.Tty)

/-- What a call returns, and the object after it. -/
abbrev ReadResult (σ : Type) := Option (Blocking (Except Errno (List Byte)) × σ)

namespace ReadObject

def read : ReadObject → BitVec 32 → ReadResult ReadObject
  | .regular file obj, size =>
      let (result, obj) := obj.read file size
      some (.returns result, .regular file obj)
  | .pipe state, size =>
      (state.read size).map fun
        | (.waits, state) => (.waits, .pipe state)
        | (.returns bytes, state) => (.returns (.ok bytes), .pipe state)
  | .tty terminal, size =>
      let (result, terminal) := terminal.read size
      some (result, .tty terminal)

/-- A pipe holds no more than its buffer, as `Counted.fits` has it for all pipes in every run. -/
def Sound : ReadObject → Prop
  | .pipe state => state.Fits
  | _ => True

end ReadObject

/-- A descriptor: whether its mode allows reading, and the object. -/
structure ReadFd where
  readable : Bool
  object : ReadObject

namespace ReadFd

def INT_MAX : BitVec 32 := 0x7FFFFFFF#32

/-- `syscall::read` of an open descriptor, into a buffer that may be written. -/
def read (fd : ReadFd) (count : BitVec 32) : ReadResult ReadFd :=
  if INT_MAX < count then
    some (.returns (.error .EINVAL), fd)
  else if !fd.readable then
    some (.returns (.error .EBADF), fd)
  else
    (fd.object.read count).map fun (result, object) => (result, { fd with object })

end ReadFd

namespace VNodeFileObj

variable {file : RamFSFile} {obj : VNodeFileObj}

end VNodeFileObj

namespace PipeState

variable {pipe : PipeState}

end PipeState

namespace ReadObject

variable {o : ReadObject}

end ReadObject

namespace ReadFd

variable {fd : ReadFd} {count : BitVec 32} {lens : List (BitVec 32)} {n : Nat}

section Scattered

variable {len : BitVec 32} {rest : List (BitVec 32)} (result : List Byte)

end Scattered

end ReadFd

end Nyan.Fs
