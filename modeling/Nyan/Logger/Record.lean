import Nyan.Library.ByteMemory

/-!
The records of the kernel log (`logger/types.hpp`, `logger/print.cpp`): a header of
twenty bytes and a content whose length stands in the header. `kwrite` sends bytes
to the debug port one by one, so a record is the sequence of its bytes.
-/

namespace Nyan.Logger

open Library

/-- `Type`. -/
inductive RecordType where
  | log
  | syscall
  | exception
  | fatal
  deriving DecidableEq, Repr

def RecordType.code : RecordType → Byte
  | .log => 0
  | .syscall => 1
  | .exception => 2
  | .fatal => 3

inductive LogLevel where
  | debug
  | info
  | warn
  | error
  | fatal
  deriving DecidableEq, Repr

def LogLevel.code : LogLevel → Byte
  | .debug => 0
  | .info => 1
  | .warn => 2
  | .error => 3
  | .fatal => 4

inductive SyscallRole where
  | enter
  | leave
  deriving DecidableEq, Repr

def SyscallRole.code : SyscallRole → Byte
  | .enter => 0
  | .leave => 1

/-- The header. The union of the level and the role is `ext`. -/
structure Payload where
  ts : BitVec 32
  eip : BitVec 32
  pid : BitVec 32
  pgid : BitVec 32
  len : BitVec 16
  type : RecordType
  ext : Byte
  deriving DecidableEq

/-- Consecutive fields of four bytes. -/
def encodeWords (words : List (BitVec 32)) : List Byte := words.flatMap (toBytes 4)

def Payload.encode (p : Payload) : List Byte :=
  encodeWords [p.ts, p.eip, p.pid, p.pgid] ++ toBytes 2 p.len ++ [p.type.code, p.ext]

structure SyscallContent where
  ret : BitVec 32
  id : BitVec 32
  ebx : BitVec 32
  ecx : BitVec 32
  edx : BitVec 32
  esi : BitVec 32
  edi : BitVec 32
  ebp : BitVec 32
  deriving DecidableEq

def SyscallContent.encode (c : SyscallContent) : List Byte :=
  encodeWords [c.ret, c.id, c.ebx, c.ecx, c.edx, c.esi, c.edi, c.ebp]

structure ExceptionContent where
  num : BitVec 32
  errcode : BitVec 32
  cs : BitVec 32
  eip : BitVec 32
  cr2 : BitVec 32
  deriving DecidableEq

def ExceptionContent.encode (c : ExceptionContent) : List Byte :=
  encodeWords [c.num, c.errcode, c.cs, c.eip, c.cr2]

/-- What a record takes from the kernel: the clock, and `pid` and `groupPid` of the
running task, if there is one. -/
structure Kernel where
  msSinceBoot : BitVec 64
  current : Option (BitVec 32 × BitVec 32)

/-- The header of a record, as each function fills it in. -/
def Kernel.payload (kernel : Kernel) (eip : BitVec 32) (len : BitVec 16) (type : RecordType)
    (ext : Byte) : Payload where
  ts := kernel.msSinceBoot.setWidth 32
  eip := eip
  pid := (kernel.current.map Prod.fst).getD 0
  pgid := (kernel.current.map Prod.snd).getD 0
  len := len
  type := type
  ext := ext

/-- Lengths are cut to sixteen bits, in the header and for the text itself. -/
def emitLog (kernel : Kernel) (eip : BitVec 32) (level : LogLevel) (log : List Byte) : List Byte :=
  let len := BitVec.ofNat 16 log.length
  (kernel.payload eip len .log level.code).encode ++ log.take len.toNat

def emitSyscall (kernel : Kernel) (eip : BitVec 32) (role : SyscallRole)
    (content : SyscallContent) : List Byte :=
  (kernel.payload eip 32 .syscall role.code).encode ++ content.encode

def emitException (kernel : Kernel) (eip : BitVec 32) (content : ExceptionContent) : List Byte :=
  (kernel.payload eip 20 .exception 0).encode ++ content.encode

def emitFatal (kernel : Kernel) (eip : BitVec 32) : List Byte :=
  (kernel.payload eip 0 .fatal 0).encode

/-- A text whose length fits the header. -/
abbrev Text := { bytes : List Byte // bytes.length ≤ 65535 }

/-- A call of one of the four functions. -/
inductive Call where
  | log (eip : BitVec 32) (level : LogLevel) (text : Text)
  | syscall (eip : BitVec 32) (role : SyscallRole) (content : SyscallContent)
  | exception (eip : BitVec 32) (content : ExceptionContent)
  | fatal (eip : BitVec 32)

structure Record where
  kernel : Kernel
  call : Call

namespace Record

def emit (r : Record) : List Byte :=
  match r.call with
  | .log eip level text => emitLog r.kernel eip level text
  | .syscall eip role content => emitSyscall r.kernel eip role content
  | .exception eip content => emitException r.kernel eip content
  | .fatal eip => emitFatal r.kernel eip

/-- The header of a record. -/
def header (r : Record) : Payload :=
  match r.call with
  | .log eip level text =>
      r.kernel.payload eip (BitVec.ofNat 16 text.val.length) .log level.code
  | .syscall eip role _ => r.kernel.payload eip 32 .syscall role.code
  | .exception eip _ => r.kernel.payload eip 20 .exception 0
  | .fatal eip => r.kernel.payload eip 0 .fatal 0

def content (r : Record) : List Byte :=
  match r.call with
  | .log _ _ text => text
  | .syscall _ _ content => content.encode
  | .exception _ content => content.encode
  | .fatal _ => []

end Record

/-- The bytes of a sequence of records. -/
def stream (records : List Record) : List Byte := records.flatMap Record.emit

@[simp] theorem length_encodeWords (words : List (BitVec 32)) :
    (encodeWords words).length = 4 * words.length := by
  induction words with
  | nil => rfl
  | cons word rest ih =>
      rw [encodeWords, List.flatMap_cons, List.length_append, length_toBytes, ← encodeWords, ih,
        List.length_cons]
      omega

@[simp] theorem Payload.length_encode (p : Payload) : p.encode.length = 20 := by
  simp [Payload.encode]

theorem Record.emit_eq (r : Record) : r.emit = r.header.encode ++ r.content := by
  unfold emit header content
  cases r.call with
  | log eip level text =>
      have hlen : (BitVec.ofNat 16 text.val.length).toNat = text.val.length := by
        have hfits := text.property
        rw [BitVec.toNat_ofNat, Nat.mod_eq_of_lt (by omega)]
      simp [emitLog, hlen]
  | syscall => rfl
  | exception => rfl
  | fatal => simp [emitFatal]

/-- The length in the header is the length of the content. -/
theorem Record.length_content (r : Record) : r.content.length = r.header.len.toNat := by
  unfold header content
  cases r.call with
  | log eip level text =>
      have hfits := text.property
      simp only [Kernel.payload, BitVec.toNat_ofNat]
      rw [Nat.mod_eq_of_lt (by omega)]
  | syscall => simp [SyscallContent.encode, Kernel.payload]
  | exception => simp [ExceptionContent.encode, Kernel.payload]
  | fatal => rfl

theorem Record.length_emit (r : Record) : r.emit.length = 20 + r.header.len.toNat := by
  rw [r.emit_eq, List.length_append, Payload.length_encode, r.length_content]

end Nyan.Logger
