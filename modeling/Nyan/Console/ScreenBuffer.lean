import Mathlib.Data.BitVec
import Mathlib.Logic.Function.Basic

/-!
The text terminal (`console/buffer.cpp`, `vga/entry.hpp`, `vga/cursor.hpp`). A
`ScreenBuffer` is the content of one terminal with its cursor and the parser for
control sequences; while it is active, it also writes to the memory of the VGA.

The cursor is a natural number, since nothing makes it negative. A store outside
the cells has no result. Numbers in control sequences wrap around at 32 bits. The
message about an unknown sequence goes to the log and is left out.
-/

namespace Nyan.Console

abbrev Byte := BitVec 8

def width : Nat := 80

def height : Nat := 25

def chr (c : Char) : Byte := BitVec.ofNat 8 c.toNat

/-- A cell of the screen. -/
structure Entry where
  ch : Byte
  attr : Byte
  deriving DecidableEq, Repr

abbrev Cells := Fin (width * height) → Entry

def C_Black : Byte := 0

def C_LightGray : Byte := 7

def makeAttr (fg bg : Byte) : Byte := (bg <<< 4) ||| fg

structure Flags where
  F_Active : Bool
  F_ShowCursor : Bool
  deriving DecidableEq, Repr

inductive VTState where
  | VTS_Idle
  | VTS_Esc
  | VTS_EscBrc
  deriving DecidableEq, Repr

/-- The output flags of `termios` that the terminal looks at. -/
structure OutputFlags where
  OPOST : Bool
  ONLCR : Bool
  OCRNL : Bool
  deriving DecidableEq, Repr

structure ScreenBuffer where
  buffer : Cells
  rowPtr : Nat := 0
  colPtr : Nat := 0
  currentAttr : Byte := makeAttr C_LightGray C_Black
  flags : Flags := ⟨false, true⟩
  config : OutputFlags := ⟨true, true, false⟩
  vtstate : VTState := .VTS_Idle
  vtarg : BitVec 32 := 0
  vtargs : List (BitVec 32) := []

/-- The cursor of the VGA. Hiding it leaves the position as it was. -/
structure Cursor where
  shown : Bool
  position : BitVec 16
  deriving DecidableEq, Repr

/-- The memory and the cursor of the VGA. -/
structure Vga where
  buffer : Cells
  cursor : Cursor

/-- A terminal together with the VGA that it may write to. -/
structure Screen where
  tty : ScreenBuffer
  vga : Vga

/-- `std::fill_n`, within an array of cells. -/
def fillN (cells : Cells) (start count : Nat) (entry : Entry) : Option Cells :=
  if start + count ≤ width * height then
    some fun i => if start ≤ i ∧ i < start + count then entry else cells i
  else
    none

namespace ScreenBuffer

def clear (tty : ScreenBuffer) : ScreenBuffer :=
  { tty with buffer := fun _ => ⟨0, tty.currentAttr⟩ }

def scroll (tty : ScreenBuffer) (row : Nat) : ScreenBuffer :=
  let offset := row * width
  { tty with
    buffer := fun i =>
      if h : i + offset < width * height then tty.buffer ⟨i + offset, h⟩ else ⟨0, tty.currentAttr⟩ }

/-- The cell under the cursor. -/
def curr (tty : ScreenBuffer) : Nat := tty.rowPtr * width + tty.colPtr

end ScreenBuffer

/-- The colors of a control sequence in the order of the VGA. -/
def ansiToVga (color : Nat) : Byte := [0, 4, 2, 6, 1, 5, 3, 7].getD color 0

/-- One parameter of `m`. -/
def selectAttr (attr : Byte) (param : BitVec 32) : Byte :=
  let n := param.toInt
  if n = 0 then
    makeAttr C_LightGray C_Black
  else if n = 1 then
    attr ||| 0x08
  else if n = 22 then
    attr &&& ~~~0x08
  else if 30 ≤ n ∧ n ≤ 37 then
    (attr &&& 0xF0) ||| (attr &&& 0x08) ||| ansiToVga (n - 30).toNat
  else if n = 39 then
    (attr &&& 0xF0) ||| C_LightGray
  else if 40 ≤ n ∧ n ≤ 47 then
    (ansiToVga (n - 40).toNat <<< 4) ||| (attr &&& 0x0F)
  else if n = 49 then
    attr &&& 0x0F
  else if 90 ≤ n ∧ n ≤ 97 then
    (attr &&& 0xF0) ||| 0x08 ||| ansiToVga (n - 90).toNat
  else if 100 ≤ n ∧ n ≤ 107 then
    ((ansiToVga (n - 100).toNat ||| 0x08) <<< 4) ||| (attr &&& 0x0F)
  else
    attr

/-- `std::clamp<int>(arg, 1, bound) - 1`. -/
def clampedIndex (arg : BitVec 32) (bound : Nat) : Nat := (max 1 (min arg.toInt bound) - 1).toNat

/-- The cells that `J` fills: the first and how many. -/
def fillRange (arg : BitVec 32) (curr : Nat) : Nat × Nat :=
  if arg = 0 then
    (curr, width * height - curr)
  else if arg = 1 then
    (0, curr)
  else if arg = 2 then
    (0, width * height)
  else
    (0, 0)

namespace Screen

def flushBuffer (s : Screen) : Screen :=
  if s.tty.flags.F_Active then { s with vga.buffer := s.tty.buffer } else s

/-- `showCursor` and `updateCursor`, or `hideCursor`. -/
def flushCursor (s : Screen) : Screen :=
  if s.tty.flags.F_Active then
    if s.tty.flags.F_ShowCursor then
      { s with vga.cursor := ⟨true, BitVec.ofNat 16 s.tty.curr⟩ }
    else
      { s with vga.cursor.shown := false }
  else
    s

def flush (s : Screen) : Screen := s.flushBuffer.flushCursor

/-- The store of a character in the cell under the cursor. -/
def store (s : Screen) (ch : Byte) : Option Screen :=
  if h : s.tty.curr < width * height then
    let entry : Entry := ⟨ch, s.tty.currentAttr⟩
    some {
      tty := { s.tty with buffer := Function.update s.tty.buffer ⟨s.tty.curr, h⟩ entry }
      vga := if s.tty.flags.F_Active then
          { s.vga with buffer := Function.update s.vga.buffer ⟨s.tty.curr, h⟩ entry }
        else
          s.vga }
  else
    none

/-- The label `putLF` of `renderChar`. -/
def putLF (s : Screen) : Screen :=
  if s.tty.rowPtr + 1 = height then
    { s with tty := { s.tty.scroll 1 with rowPtr := height - 1 } }.flushBuffer
  else
    { s with tty.rowPtr := s.tty.rowPtr + 1 }

def renderChar (s : Screen) (ch : Byte) : Option Screen :=
  if ch = chr '\n' then
    some s.putLF
  else if ch = chr '\r' then
    some { s with tty.colPtr := 0 }
  else if ch = chr '\x08' then
    some { s with tty.colPtr := s.tty.colPtr - 1 }
  else if ch = chr '\t' then
    let col := s.tty.colPtr + (4 - s.tty.colPtr % 4)
    let moved := { s with tty.colPtr := col }
    some (if col = width then moved.putLF else moved)
  else
    (s.store ch).map fun s₁ =>
      if s₁.tty.colPtr + 1 = width then
        { s₁ with tty.colPtr := 0 }.putLF
      else
        { s₁ with tty.colPtr := s₁.tty.colPtr + 1 }

/-- `J`, in the terminal and in the VGA if it is active. -/
def eraseDisplay (s : Screen) (arg : BitVec 32) : Option Screen := do
  let (start, count) := fillRange arg s.tty.curr
  let fill : Entry := ⟨chr ' ', s.tty.currentAttr⟩
  let buffer ← fillN s.tty.buffer start count fill
  if s.tty.flags.F_Active then
    let shown ← fillN s.vga.buffer start count fill
    return { s with tty.buffer := buffer, vga.buffer := shown }
  else
    return { s with tty.buffer := buffer }

/-- `flushCSI`, when at least one number was read. -/
def flushCSI (s : Screen) (cmd : Byte) : Option Screen := do
  let arg0 ← s.tty.vtargs[0]?
  let arg1 := s.tty.vtargs[1]?.getD 0
  if cmd = chr 'm' then
    return { s with tty.currentAttr := s.tty.vtargs.foldl selectAttr s.tty.currentAttr }
  else if cmd = chr 'H' then
    return { s with
      tty.rowPtr := clampedIndex arg0 height
      tty.colPtr := clampedIndex arg1 width }
  else if cmd = chr 'J' then
    s.eraseDisplay arg0
  else
    return s

/-- The carriage return that `ONLCR` puts before a line feed. -/
def returnFirst (s : Screen) (ch : Byte) : Option Screen :=
  if s.tty.config.OPOST ∧ s.tty.config.ONLCR ∧ ch = chr '\n' then
    s.renderChar (chr '\r')
  else
    some s

/-- A line feed in place of a carriage return, with `OCRNL`. -/
def mapped (config : OutputFlags) (ch : Byte) : Byte :=
  if config.OPOST ∧ config.OCRNL ∧ ch = chr '\r' then chr '\n' else ch

def putcImpl (s : Screen) (ch : Byte) : Option Screen :=
  match s.tty.vtstate with
  | .VTS_Idle =>
      if ch = chr '\x1b' then
        some { s with tty.vtstate := .VTS_Esc }
      else do
        let s₁ ← s.returnFirst ch
        s₁.renderChar (mapped s.tty.config ch)
  | .VTS_Esc =>
      if ch = chr '[' then
        some { s with tty.vtstate := .VTS_EscBrc, tty.vtarg := 0, tty.vtargs := [] }
      else
        { s with tty.vtstate := .VTS_Idle }.renderChar ch
  | .VTS_EscBrc =>
      if chr '0' ≤ ch ∧ ch ≤ chr '9' then
        some { s with tty.vtarg := s.tty.vtarg * 10 + (ch - chr '0').setWidth 32 }
      else
        let pushed := { s with tty.vtargs := s.tty.vtargs ++ [s.tty.vtarg] }
        if ch = chr ';' then
          some { pushed with tty.vtarg := 0 }
        else do
          let s₁ ← pushed.flushCSI ch
          return { s₁ with tty.vtstate := .VTS_Idle }

def putc (s : Screen) (ch : Byte) : Option Screen := (s.putcImpl ch).map flushCursor

/-- The three overloads of `puts`, for the bytes up to the end of the string. -/
def puts (s : Screen) (str : List Byte) : Option Screen :=
  (str.foldlM putcImpl s).map flushCursor

/-- The formatted text goes through `putcImpl`, as in `puts`. -/
def print (s : Screen) (text : List Byte) : Option Screen :=
  (text.foldlM putcImpl s).map flushCursor

end Screen

end Nyan.Console
