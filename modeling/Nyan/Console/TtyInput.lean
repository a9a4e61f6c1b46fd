import Mathlib.Data.BitVec
import Nyan.Result

/-!
The input side of a terminal (`console/tty.cpp`, `console/device.cpp`). `processKey` edits
the line that is being typed and moves completed lines to the input buffer, from which
`TtyDevice::read` takes bytes; an end of file is a flag beside that buffer. The echo to the
screen is left out, since nothing here reads it.
-/

namespace Nyan.Console

/-- The control characters in `c_cc` that the input looks at. -/
inductive ControlChar where
  | VINTR
  | VQUIT
  | VERASE
  | VEOF
  | VSUSP
  deriving DecidableEq, Repr

def ICRNL : BitVec 32 := 0o400#32
def ISIG : BitVec 32 := 0o1#32
def ICANON : BitVec 32 := 0o2#32

def SIGINT : Nat := 2
def SIGQUIT : Nat := 3
def SIGTSTP : Nat := 20

/-- The input part of `struct termios`. -/
structure Termios where
  c_iflag : BitVec 32
  c_lflag : BitVec 32
  c_cc : ControlChar → BitVec 8

namespace Termios

/-- The configuration that a terminal starts with. -/
def default : Termios where
  c_iflag := ICRNL
  c_lflag := ICANON ||| 0o10#32 ||| 0o20#32 ||| ISIG
  c_cc
    | .VINTR => 0x03#8
    | .VQUIT => 0x1c#8
    | .VERASE => 0x7f#8
    | .VEOF => 0x04#8
    | .VSUSP => 0x1a#8

/-- `ch == c_cc[control]`. A `char` is signed, the control characters are not. -/
def isControl (config : Termios) (control : ControlChar) (ch : BitVec 8) : Bool :=
  ch.toInt = (config.c_cc control).toNat

/-- The character that is processed. -/
def mapReturn (config : Termios) (ch : BitVec 8) : BitVec 8 :=
  if config.c_iflag &&& ICRNL ≠ 0#32 ∧ ch = 13#8 then 10#8 else ch

/-- The signal that a character sends to the foreground group. -/
def signalOf (config : Termios) (ch : BitVec 8) : Option Nat :=
  if config.c_lflag &&& ISIG ≠ 0#32 then
    if config.isControl .VINTR ch then some SIGINT
    else if config.isControl .VSUSP ch then some SIGTSTP
    else if config.isControl .VQUIT ch then some SIGQUIT
    else none
  else
    none

end Termios

/-- `Tty`, as far as its input goes. -/
structure Tty where
  config : Termios
  lineBuffer : List (BitVec 8)
  inputBuffer : List (BitVec 8)
  pendingEof : Bool

namespace Tty

/-- A terminal on which nothing has been typed. -/
def new (config : Termios) : Tty where
  config
  lineBuffer := []
  inputBuffer := []
  pendingEof := false

/-- `processKey` in `ICANON` mode, for a character that sends no signal. -/
def editLine (tty : Tty) (ch : BitVec 8) : Tty :=
  if tty.config.isControl .VERASE ch then
    { tty with lineBuffer := tty.lineBuffer.dropLast }
  else if tty.config.isControl .VEOF ch then
    { tty with
      inputBuffer := tty.inputBuffer ++ tty.lineBuffer
      lineBuffer := []
      pendingEof := true }
  else if ch = 10#8 then
    { tty with
      inputBuffer := tty.inputBuffer ++ (tty.lineBuffer ++ [10#8])
      lineBuffer := [] }
  else
    { tty with lineBuffer := tty.lineBuffer ++ [ch] }

/-- `processKey`, with the signal that it sends. -/
def processKey (tty : Tty) (key : BitVec 8) : Option Nat × Tty :=
  let ch := tty.config.mapReturn key
  match tty.config.signalOf ch with
  | some signal => (some signal, { tty with lineBuffer := [] })
  | none =>
      if tty.config.c_lflag &&& ICANON ≠ 0#32 then
        (none, tty.editLine ch)
      else
        (none, { tty with inputBuffer := tty.inputBuffer ++ [ch] })

/-- `TtyDevice::read`, with the bytes that it copies. A read that finds neither input nor
an end of file waits and checks again when it is woken, as a read of its own. -/
def read (tty : Tty) (size : BitVec 32) : Blocking (Except Errno (List (BitVec 8))) × Tty :=
  if tty.inputBuffer ≠ [] then
    (.returns (.ok (tty.inputBuffer.take size.toNat)),
      { tty with inputBuffer := tty.inputBuffer.drop size.toNat })
  else if tty.pendingEof then
    (.returns (.ok []), { tty with pendingEof := false })
  else
    (.waits, tty)

end Tty

end Nyan.Console
