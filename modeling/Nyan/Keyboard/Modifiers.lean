import Nyan.Keyboard.Message
import Nyan.Library.Run

/-!
The modifier flags against the keys that are held. The flag of a modifier is set by a press
of either of its keys and cleared by a release of either, so it is wrong after one of two
held keys is released.
-/

namespace Nyan.Keyboard

open Library

/-- A key is pressed, or held so long that it repeats, or released. A code of its own byte
is not the byte `0xE0`. -/
structure KeyEvent where
  extended : Bool
  key : BitVec 7
  release : Bool
  code : ¬ (extended = false ∧ release = true ∧ key = 0x60#7)

namespace KeyEvent

/-- The last byte of an event. -/
def byte (e : KeyEvent) : BitVec 8 :=
  e.key.setWidth 8 ||| if e.release then 0x80#8 else 0#8

/-- The bytes that the controller sends. -/
def bytes (e : KeyEvent) : List (BitVec 8) :=
  if e.extended then [0xE0#8, e.byte] else [e.byte]

/-- The key, as the scan code of its press. -/
def scan (e : KeyEvent) : BitVec 16 :=
  if e.extended then 0xE000#16 ||| e.key.setWidth 16 else e.key.setWidth 16

end KeyEvent

inductive Modifier where
  | ctrl
  | shift
  | alt
  deriving DecidableEq, Repr

namespace Modifier

def flag : Modifier → BitVec 8
  | .ctrl => F_Ctrl
  | .shift => F_Shift
  | .alt => F_Alt

def left : Modifier → BitVec 16
  | .ctrl => SC_LCTRL
  | .shift => SC_LSHIFT
  | .alt => SC_LALT

def right : Modifier → BitVec 16
  | .ctrl => SC_RCTRL
  | .shift => SC_RSHIFT
  | .alt => SC_RALT

def keys (m : Modifier) (scan : BitVec 16) : Prop := scan = m.left ∨ scan = m.right

instance (m : Modifier) (scan : BitVec 16) : Decidable (m.keys scan) :=
  inferInstanceAs (Decidable (_ ∨ _))

variable {m m' : Modifier} {scan : BitVec 16}

theorem keys_unique (h : m.keys scan) (h' : m'.keys scan) : m = m' := by
  rcases h with rfl | rfl <;> rcases h' with h' | h' <;> revert h' <;> cases m <;> cases m' <;> decide

/-- The modifier that a code belongs to, if it belongs to one. -/
theorem modifierOf_cases (scan : BitVec 16) :
    (∃ m : Modifier, modifierOf scan = m.flag ∧ m.keys scan) ∨
      modifierOf scan = 0#8 ∧ ∀ m : Modifier, ¬ m.keys scan := by
  unfold modifierOf
  split
  · exact Or.inl ⟨.ctrl, rfl, by assumption⟩
  split
  · exact Or.inl ⟨.shift, rfl, by assumption⟩
  split
  · exact Or.inl ⟨.alt, rfl, by assumption⟩
  · refine Or.inr ⟨rfl, fun m => ?_⟩
    cases m <;> assumption

theorem flag_ne_zero (m : Modifier) : m.flag ≠ 0#8 := by
  cases m <;> decide

theorem set_flag (flags : BitVec 8) (m m' : Modifier) :
    (flags ||| m'.flag) &&& m.flag ≠ 0#8 ↔ m = m' ∨ flags &&& m.flag ≠ 0#8 := by
  revert flags
  cases m <;> cases m' <;> decide +kernel

theorem clear_flag (flags : BitVec 8) (m m' : Modifier) :
    (flags &&& ~~~m'.flag) &&& m.flag ≠ 0#8 ↔ m ≠ m' ∧ flags &&& m.flag ≠ 0#8 := by
  revert flags
  cases m <;> cases m' <;> decide +kernel

end Modifier

namespace KeyEvent

/-- The code that is merged. -/
def merged (e : KeyEvent) : BitVec 16 :=
  (if e.extended then 0xE000#16 else 0#16) ||| e.byte.setWidth 16

theorem merged_scan (e : KeyEvent) :
    (e.merged &&& 0x80#16 ≠ 0#16 ↔ e.release = true) ∧
      (if e.merged &&& 0x80#16 ≠ 0#16 then e.merged - 0x80#16 else e.merged) = e.scan := by
  obtain ⟨extended, key, release, _⟩ := e
  simp only [merged, byte, scan]
  revert key
  cases extended <;> cases release <;> decide +kernel

/-- A code of its own byte is not the first byte of another one. -/
theorem byte_ne (e : KeyEvent) (h : e.extended = false) : e.byte ≠ 0xE0#8 := by
  obtain ⟨extended, key, release, hcode⟩ := e
  subst h
  simp only [byte]
  revert key
  cases release <;> decide +kernel

/-- The flags after an event. -/
theorem merge_flag (e : KeyEvent) (flags : BitVec 8) (m : Modifier) :
    (merge flags e.merged).2 &&& m.flag ≠ 0#8 ↔
      if m.keys e.scan then e.release = false else flags &&& m.flag ≠ 0#8 := by
  obtain ⟨hrelease, hscan⟩ := e.merged_scan
  simp only [merge, hscan]
  rcases Modifier.modifierOf_cases e.scan with ⟨m', hmod, hkeys⟩ | ⟨hmod, hnone⟩
  · rw [hmod, if_neg m'.flag_ne_zero]
    by_cases hm : m = m'
    · subst hm
      rw [if_pos hkeys]
      cases hr : e.release with
      | true => simp [hrelease.mpr hr, Modifier.clear_flag]
      | false => simp [mt hrelease.mp (by simp [hr]), Modifier.set_flag]
    · rw [if_neg fun h => hm (Modifier.keys_unique h hkeys)]
      cases hr : e.release with
      | true => simp [hrelease.mpr hr, Modifier.clear_flag, hm]
      | false => simp [mt hrelease.mp (by simp [hr]), Modifier.set_flag, hm]
  · rw [hmod, if_pos rfl, if_neg (hnone m)]

end KeyEvent

/-- The driver, the keys that are held, and the messages so far. -/
structure Typing where
  driver : Driver
  held : BitVec 16 → Bool
  messages : List Message

namespace Typing

def start : Typing := ⟨.new, fun _ => false, []⟩

def pushByte (t : Typing) (dat : BitVec 8) : Typing :=
  { t with
    driver := (t.driver.push dat).2
    messages := t.messages ++ (t.driver.push dat).1.toList }

/-- The bytes of an event are pushed. -/
def feed (t : Typing) (e : KeyEvent) : Typing :=
  { e.bytes.foldl pushByte t with held := Function.update t.held e.scan (!e.release) }

/-- Between events, each flag is set exactly if a key of its modifier is held. -/
structure Tracks (t : Typing) : Prop where
  between : t.driver.extended = false
  flag : ∀ m : Modifier, t.driver.flags &&& m.flag ≠ 0#8 ↔ t.held m.left ∨ t.held m.right

/-- No key of a modifier is released while the other one is held. -/
def ReleasedAlone (t : Typing) (e : KeyEvent) : Prop :=
  e.release = true → ∀ m : Modifier,
    (e.scan = m.left → t.held m.right = false) ∧ (e.scan = m.right → t.held m.left = false)

variable {t : Typing}

/-- The bytes of an event make one message and the flags that `merge` leaves. -/
theorem feed_between (h : t.driver.extended = false) (e : KeyEvent) :
    (t.feed e).driver = ⟨false, (merge t.driver.flags e.merged).2⟩ ∧
      (t.feed e).messages = t.messages ++ [(merge t.driver.flags e.merged).1] := by
  obtain ⟨⟨extended, flags⟩, held, messages⟩ := t
  obtain rfl : extended = false := h
  cases hext : e.extended with
  | true => simp [feed, KeyEvent.bytes, hext, pushByte, Driver.push, KeyEvent.merged]
  | false =>
      simp [feed, KeyEvent.bytes, hext, pushByte, Driver.push, KeyEvent.merged, e.byte_ne hext]

theorem left_ne_right (m : Modifier) : m.left ≠ m.right := by
  cases m <;> decide

/-- An event leaves every flag right exactly if it releases no key beside the other one. -/
theorem releasedAlone_iff (h : Tracks t) (e : KeyEvent) :
    t.ReleasedAlone e ↔ Tracks (t.feed e) := by
  obtain ⟨hdriver, _⟩ := feed_between h.between e
  have hheld : (t.feed e).held = Function.update t.held e.scan (!e.release) := rfl
  have hflag : ∀ m : Modifier, ((t.feed e).driver.flags &&& m.flag ≠ 0#8 ↔
      (t.feed e).held m.left ∨ (t.feed e).held m.right) ↔
      (e.release = true → (e.scan = m.left → t.held m.right = false) ∧
        (e.scan = m.right → t.held m.left = false)) := by
    intro m
    have hne := left_ne_right m
    rw [hdriver, KeyEvent.merge_flag, hheld]
    by_cases hleft : e.scan = m.left
    · have hkeys : m.keys e.scan := Or.inl hleft
      rw [if_pos hkeys]
      cases hr : e.release <;> simp [hleft, hne, hne.symm]
    by_cases hright : e.scan = m.right
    · have hkeys : m.keys e.scan := Or.inr hright
      rw [if_pos hkeys]
      cases hr : e.release <;> simp [hright, hne, hne.symm]
    · have hkeys : ¬ m.keys e.scan := not_or.mpr ⟨hleft, hright⟩
      simp [hkeys, hleft, hright, Function.update_of_ne (Ne.symm hleft),
        Function.update_of_ne (Ne.symm hright), h.flag m]
  constructor
  · intro halone
    exact ⟨by rw [hdriver], fun m => (hflag m).mpr fun hr => halone hr m⟩
  · intro htracks hr m
    exact (hflag m).mp (htracks.flag m) hr

theorem messages_foldl (h : t.driver.extended = false) (events : List KeyEvent) :
    (events.foldl feed t).messages.length = t.messages.length + events.length := by
  induction events generalizing t with
  | nil => rfl
  | cons e rest ih =>
      obtain ⟨hdriver, hmessages⟩ := feed_between h e
      rw [List.foldl_cons, ih (by rw [hdriver]), hmessages, List.length_append,
        List.length_singleton, List.length_cons]
      omega

/-- For every sequence of events: each event makes one message, and each flag is set
exactly while a key of its modifier is held, throughout, exactly if no key of a modifier is
released while the other one is held. -/
theorem modifiers_track_iff (events : List KeyEvent) :
    (∀ n, ((events.take n).foldl feed start).messages.length = (events.take n).length) ∧
      ((∀ n, Tracks ((events.take n).foldl feed start)) ↔
        ∀ n e, events[n]? = some e → ((events.take n).foldl feed start).ReleasedAlone e) := by
  have hstart : Tracks start := ⟨rfl, fun m => by cases m <;> decide⟩
  have hstep : ∀ t e, Tracks t → (ReleasedAlone t e ↔ Tracks (t.feed e)) :=
    fun _ e h => releasedAlone_iff h e
  refine ⟨fun n => ?_, foldl_good_iff_guarded hstep hstart events⟩
  simpa [start] using messages_foldl hstart.between (events.take n)

/-- Both shift keys are pressed and one of them is released. -/
def bothShifts : List KeyEvent :=
  [⟨false, 0x2A#7, false, by simp⟩, ⟨false, 0x36#7, false, by simp⟩, ⟨false, 0x2A#7, true, by simp⟩]

/-- The right shift key is held, and the flag is not set. -/
theorem shift_released_beside_held :
    (bothShifts.foldl feed start).held SC_RSHIFT = true ∧
      (bothShifts.foldl feed start).driver.flags &&& F_Shift = 0#8 := by
  decide +kernel

end Typing

end Nyan.Keyboard
