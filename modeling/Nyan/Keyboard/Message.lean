import Mathlib.Data.BitVec

/-!
The keyboard (`keyboard/message.cpp`, `keyboard/mod.cpp`). `push` takes the bytes of the
controller one by one, and `merge` makes a message of every scan code. The modifiers that
are held are bits of `__flags`, one bit for both keys of a modifier.
-/

namespace Nyan.Keyboard

def F_Ctrl : BitVec 8 := 1#8 <<< 0
def F_Shift : BitVec 8 := 1#8 <<< 1
def F_Alt : BitVec 8 := 1#8 <<< 2
def F_Release : BitVec 8 := 1#8 <<< 7

def SC_LCTRL : BitVec 16 := 0x1D#16
def SC_LSHIFT : BitVec 16 := 0x2A#16
def SC_RSHIFT : BitVec 16 := 0x36#16
def SC_LALT : BitVec 16 := 0x38#16
def SC_CAPLOCKS : BitVec 16 := 0x3A#16
def SC_F1 : BitVec 16 := 0x3B#16
def SC_F2 : BitVec 16 := 0x3C#16
def SC_F3 : BitVec 16 := 0x3D#16
def SC_F4 : BitVec 16 := 0x3E#16
def SC_NUMLOCK : BitVec 16 := 0x45#16
def SC_SCROLLLOCK : BitVec 16 := 0x46#16
def SC_RCTRL : BitVec 16 := 0xE01D#16
def SC_KP_SLASH : BitVec 16 := 0xE035#16
def SC_RALT : BitVec 16 := 0xE038#16
def SC_HOME : BitVec 16 := 0xE047#16
def SC_UP : BitVec 16 := 0xE048#16
def SC_PAGEUP : BitVec 16 := 0xE049#16
def SC_LEFT : BitVec 16 := 0xE04B#16
def SC_RIGHT : BitVec 16 := 0xE04D#16
def SC_END : BitVec 16 := 0xE04F#16
def SC_DOWN : BitVec 16 := 0xE050#16
def SC_PAGEDOWN : BitVec 16 := 0xE051#16
def SC_INSERT : BitVec 16 := 0xE052#16
def SC_DELETE : BitVec 16 := 0xE053#16

structure Message where
  code : BitVec 16
  key : BitVec 16
  flag : BitVec 8
  ch : BitVec 8
  deriving DecidableEq, Repr

/-- The characters of every scan code, without and with shift, and the final zero. -/
def SC_to_char : List (BitVec 8) :=
  ("\x00\x00\x00\x001!2@3#4$5%6^7&8*9(0)-_=+\x7f\x7f".toList ++
    "\x09\x09qQwWeErRtTyYuUiIoOpP[\x7b]\x7d\x0d\x0d".toList ++
    "\x00\x00aAsSdDfFgGhHjJkKlL;:'\"`~\x00\x00\\|".toList ++
    "zZxXcCvVbBnNmM,<.>/?\x00\x00**".toList ++
    "\x00\x00  ".toList ++ List.replicate 26 '\x00' ++
    "778899--445566++11223300..\x00\x00".toList).map fun c => BitVec.ofNat 8 c.toNat

/-- The character of a scan code. -/
def charOf (flags : BitVec 8) (scan : BitVec 16) : BitVec 8 :=
  if scan >>> 8 = 0xE0#16 then
    if scan = SC_KP_SLASH then 0x2F#8 else 0#8
  else if scan.toNat < SC_to_char.length / 2 then
    SC_to_char.getD (2 * scan.toNat + if flags &&& F_Shift ≠ 0#8 then 1 else 0) 0#8
  else
    0#8

/-- The character that it is while a control key is held. -/
def withControl (ch : BitVec 8) : BitVec 8 :=
  if (0x61#8 ≤ ch ∧ ch ≤ 0x7A#8) ∨ (0x40#8 ≤ ch ∧ ch ≤ 0x5F#8) then ch &&& 0x1F#8
  else if ch = 0x3F#8 then 0x7F#8
  else ch

/-- The flag of a modifier key, or zero. -/
def modifierOf (scan : BitVec 16) : BitVec 8 :=
  if scan = SC_LCTRL ∨ scan = SC_RCTRL then F_Ctrl
  else if scan = SC_LSHIFT ∨ scan = SC_RSHIFT then F_Shift
  else if scan = SC_LALT ∨ scan = SC_RALT then F_Alt
  else 0#8

/-- `merge`, with `__flags` before and after it. -/
def merge (flags : BitVec 8) (code : BitVec 16) : Message × BitVec 8 :=
  let released := code &&& 0x80#16 ≠ 0#16
  let scan := if released then code - 0x80#16 else code
  let ch := charOf flags scan
  let mod := modifierOf scan
  let flags' :=
    if mod = 0#8 then flags else if released then flags &&& ~~~mod else flags ||| mod
  ({ code
     key := code &&& ~~~0x80#16
     flag := (if released then F_Release else 0#8) ||| flags'
     ch := if flags &&& F_Ctrl ≠ 0#8 then withControl ch else ch }, flags')

/-- What the driver keeps: whether the last byte was the `0xE0` in front of a code
(`state`), and `__flags`. -/
structure Driver where
  extended : Bool
  flags : BitVec 8
  deriving DecidableEq, Repr

def Driver.new : Driver := ⟨false, 0#8⟩

/-- `push`, with the message that it hands on. -/
def Driver.push (kb : Driver) (dat : BitVec 8) : Option Message × Driver :=
  if kb.extended then
    let (msg, flags) := merge kb.flags (0xE000#16 ||| dat.setWidth 16)
    (some msg, ⟨false, flags⟩)
  else if dat = 0xE0#8 then
    (none, { kb with extended := true })
  else
    let (msg, flags) := merge kb.flags (dat.setWidth 16)
    (some msg, { kb with flags })

end Nyan.Keyboard
