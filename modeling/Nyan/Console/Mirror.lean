import Nyan.Console.ScreenBuffer
import Nyan.Library.Run

/-!
The terminals of the console and the VGA (`console/load.cpp`, `console/tty.cpp`).
Every writer of a terminal makes the same change in the VGA if the terminal is
active and none otherwise, and a switch copies the whole buffer. So exactly one
terminal is active in every state of every run, and the VGA shows its cells.
-/

namespace Nyan.Console

open Library

namespace Screen

variable {s s' s'' : Screen} {ch : Byte}

/-- What output does: the flags stay, the VGA of an inactive terminal stays, and
a VGA that shows the terminal still does. -/
structure Follows (s s' : Screen) : Prop where
  flags : s'.tty.flags = s.tty.flags
  inactive : s.tty.flags.F_Active = false → s'.vga = s.vga
  shows : s.tty.flags.F_Active = true → s.vga.buffer = s.tty.buffer →
    s'.vga.buffer = s'.tty.buffer

theorem Follows.refl (s : Screen) : s.Follows s := ⟨rfl, fun _ => rfl, fun _ => id⟩

theorem Follows.trans (h : s.Follows s') (h' : s'.Follows s'') : s.Follows s'' := by
  refine ⟨h'.flags.trans h.flags, fun hinactive => ?_, fun hactive hshows => ?_⟩
  · exact (h'.inactive (h.flags ▸ hinactive)).trans (h.inactive hinactive)
  · exact h'.shows (h.flags ▸ hactive) (h.shows hactive hshows)

/-- A change of the terminal other than to its flags and cells. -/
theorem Follows.of_eq (hflags : s'.tty.flags = s.tty.flags)
    (hbuffer : s'.tty.buffer = s.tty.buffer) (hvga : s'.vga = s.vga) : s.Follows s' := by
  refine ⟨hflags, fun _ => hvga, fun _ hshows => ?_⟩
  rw [hvga, hbuffer, hshows]

theorem flushCursor_follows (s : Screen) : s.Follows s.flushCursor := by
  unfold flushCursor
  split
  · rename_i hactive
    have hshown : ∀ cursor, s.Follows { s with vga.cursor := cursor } := by
      intro cursor
      exact ⟨rfl, fun hinactive => absurd (hactive.symm.trans hinactive) (by simp), fun _ => id⟩
    split
    · exact hshown _
    · exact hshown _
  · exact .refl s

/-- Flushing the whole buffer makes up for any change of the cells. -/
theorem Follows.flushBuffer {tty : ScreenBuffer} (hflags : tty.flags = s.tty.flags) :
    s.Follows { s with tty := tty }.flushBuffer := by
  unfold Screen.flushBuffer
  split
  · rename_i hactive
    have hactive' : s.tty.flags.F_Active = true := hflags ▸ hactive
    exact ⟨hflags, fun hinactive => absurd (hactive'.symm.trans hinactive) (by simp),
      fun _ _ => rfl⟩
  · rename_i hinactive
    have hinactive' : ¬ s.tty.flags.F_Active = true := hflags ▸ hinactive
    exact ⟨hflags, fun _ => rfl, fun hactive => absurd hactive hinactive'⟩

theorem putLF_follows (s : Screen) : s.Follows s.putLF := by
  unfold putLF
  split
  · exact .flushBuffer rfl
  · exact .of_eq rfl rfl rfl

theorem store_follows (h : s.store ch = some s') : s.Follows s' := by
  unfold store at h
  split at h
  · obtain rfl := Option.some.inj h
    refine ⟨rfl, fun hinactive => ?_, fun hactive hshows => ?_⟩
    · simp [hinactive]
    · simp [hactive, hshows]
  · cases h

theorem renderChar_follows (h : s.renderChar ch = some s') : s.Follows s' := by
  have hcol : ∀ (t : Screen) col, t.Follows { t with tty.colPtr := col } :=
    fun t col => .of_eq rfl rfl rfl
  unfold renderChar at h
  split at h
  · obtain rfl := Option.some.inj h
    exact putLF_follows s
  split at h
  · obtain rfl := Option.some.inj h
    exact hcol s 0
  split at h
  · obtain rfl := Option.some.inj h
    exact hcol s _
  split at h
  · obtain rfl := Option.some.inj h
    split
    · exact (hcol s _).trans (putLF_follows _)
    · exact hcol s _
  · obtain ⟨s₁, hstore, rfl⟩ := Option.map_eq_some_iff.mp h
    refine (store_follows hstore).trans ?_
    split
    · exact (hcol s₁ 0).trans (putLF_follows _)
    · exact hcol s₁ _

theorem eraseDisplay_follows {arg : BitVec 32} (h : s.eraseDisplay arg = some s') :
    s.Follows s' := by
  simp only [eraseDisplay, Option.bind_eq_bind, Option.bind_eq_some_iff] at h
  obtain ⟨buffer, hbuffer, h⟩ := h
  split at h
  · rename_i hactive
    obtain ⟨shown, hshown, h⟩ := Option.bind_eq_some_iff.mp h
    obtain rfl := Option.some.inj h
    refine ⟨rfl, fun hinactive => absurd (hactive.symm.trans hinactive) (by simp), ?_⟩
    intro _ hshows
    rw [hshows, hbuffer] at hshown
    exact (Option.some.inj hshown).symm
  · rename_i hinactive
    obtain rfl := Option.some.inj h
    exact ⟨rfl, fun _ => rfl, fun hactive => absurd hactive hinactive⟩

theorem flushCSI_follows (h : s.flushCSI ch = some s') : s.Follows s' := by
  simp only [flushCSI, Option.bind_eq_bind, Option.bind_eq_some_iff] at h
  obtain ⟨arg0, _, h⟩ := h
  split at h
  · obtain rfl := Option.some.inj h
    exact .of_eq rfl rfl rfl
  split at h
  · obtain rfl := Option.some.inj h
    exact .of_eq rfl rfl rfl
  split at h
  · exact eraseDisplay_follows h
  · obtain rfl := Option.some.inj h
    exact .refl s

theorem putcImpl_follows (h : s.putcImpl ch = some s') : s.Follows s' := by
  unfold putcImpl at h
  split at h
  · split at h
    · obtain rfl := Option.some.inj h
      exact .of_eq rfl rfl rfl
    · obtain ⟨s₁, hfirst, hrender⟩ := Option.bind_eq_some_iff.mp h
      refine Follows.trans ?_ (renderChar_follows hrender)
      unfold returnFirst at hfirst
      split at hfirst
      · exact renderChar_follows hfirst
      · obtain rfl := Option.some.inj hfirst
        exact .refl s
  · split at h
    · obtain rfl := Option.some.inj h
      exact .of_eq rfl rfl rfl
    · have hidle : s.Follows { s with tty.vtstate := .VTS_Idle } := .of_eq rfl rfl rfl
      exact hidle.trans (renderChar_follows h)
  · split at h
    · obtain rfl := Option.some.inj h
      exact .of_eq rfl rfl rfl
    split at h
    · obtain rfl := Option.some.inj h
      exact .of_eq rfl rfl rfl
    · obtain ⟨s₁, hcsi, h⟩ := Option.bind_eq_some_iff.mp h
      obtain rfl := Option.some.inj h
      have hpushed : s.Follows { s with tty.vtargs := s.tty.vtargs ++ [s.tty.vtarg] } :=
        .of_eq rfl rfl rfl
      exact (hpushed.trans (flushCSI_follows hcsi)).trans (.of_eq rfl rfl rfl)

theorem putcs_follows {bytes : List Byte} (h : bytes.foldlM putcImpl s = some s') :
    s.Follows s' := by
  induction bytes generalizing s with
  | nil =>
      obtain rfl := Option.some.inj h
      exact .refl s
  | cons ch rest ih =>
      obtain ⟨s₁, hch, hrest⟩ := Option.bind_eq_some_iff.mp h
      exact (putcImpl_follows hch).trans (ih hrest)

/-- The cursor is on the screen. -/
def OnScreen (s : Screen) : Prop := s.tty.rowPtr < height ∧ s.tty.colPtr < width

theorem OnScreen.curr_lt (h : s.OnScreen) : s.tty.curr < width * height := by
  obtain ⟨hrow, hcol⟩ := h
  unfold ScreenBuffer.curr
  simp only [width, height] at hrow hcol ⊢
  omega

theorem renderChar_isSome (h : s.OnScreen) (ch : Byte) : (s.renderChar ch).isSome := by
  unfold renderChar store
  have hcurr := h.curr_lt
  split_ifs <;> simp

theorem fillRange_le (arg : BitVec 32) {curr : Nat} (h : curr < width * height) :
    (fillRange arg curr).1 + (fillRange arg curr).2 ≤ width * height := by
  unfold fillRange
  split_ifs <;> simp only <;> omega

theorem eraseDisplay_isSome (h : s.OnScreen) (arg : BitVec 32) : (s.eraseDisplay arg).isSome := by
  have hrange := fillRange_le arg h.curr_lt
  simp only [eraseDisplay, fillN, if_pos hrange]
  split <;> rfl

theorem flushCSI_isSome (h : s.OnScreen) (hargs : s.tty.vtargs ≠ []) (cmd : Byte) :
    (s.flushCSI cmd).isSome := by
  obtain ⟨arg0, rest, hcons⟩ := List.exists_cons_of_ne_nil hargs
  simp only [flushCSI, hcons, List.getElem?_cons_zero]
  split_ifs
  · rfl
  · rfl
  · exact eraseDisplay_isSome h arg0
  · rfl

/-- Every byte is taken while the cursor is on the screen. -/
theorem putcImpl_isSome (h : s.OnScreen) (ch : Byte) : (s.putcImpl ch).isSome := by
  unfold putcImpl
  split
  · split
    · rfl
    · have hfirst : ∃ s₁, s.returnFirst ch = some s₁ ∧ s₁.OnScreen := by
        unfold returnFirst
        split
        · exact ⟨{ s with tty.colPtr := 0 }, rfl, h.1, Nat.succ_pos 79⟩
        · exact ⟨s, rfl, h⟩
      obtain ⟨s₁, hs₁, hscreen⟩ := hfirst
      simpa [hs₁] using renderChar_isSome hscreen _
  · split
    · rfl
    · exact renderChar_isSome (s := { s with tty.vtstate := .VTS_Idle }) h ch
  · dsimp only
    split
    · rfl
    split
    · rfl
    · have hcsi := flushCSI_isSome
        (s := { s with tty.vtargs := s.tty.vtargs ++ [s.tty.vtarg] }) h (by simp) ch
      obtain ⟨s₁, hs₁⟩ := Option.isSome_iff_exists.mp hcsi
      simp [hs₁]

/-- The cursor stays on the screen while the bytes are written, until before the
last one. -/
def StaysOnScreen (s : Screen) (bytes : List Byte) : Prop :=
  ∀ before ch after, bytes = before ++ ch :: after →
    ∀ s', before.foldlM putcImpl s = some s' → s'.OnScreen

theorem putcs_isSome {bytes : List Byte} (h : s.StaysOnScreen bytes) :
    (bytes.foldlM putcImpl s).isSome := by
  induction bytes generalizing s with
  | nil => rfl
  | cons ch rest ih =>
      have hfirst : s.OnScreen := h [] ch rest rfl s rfl
      obtain ⟨s₁, hs₁⟩ := Option.isSome_iff_exists.mp (putcImpl_isSome hfirst ch)
      have hrest : s₁.StaysOnScreen rest := by
        intro before ch' after hsplit s' hbefore
        refine h (ch :: before) ch' after (by rw [hsplit]; rfl) s' ?_
        simp [List.foldlM_cons, hs₁, hbefore]
      simpa [List.foldlM_cons, hs₁] using ih hrest

theorem flushBuffer_active {s : Screen} (h : s.tty.flags.F_Active = true) :
    s.flushBuffer = { s with vga.buffer := s.tty.buffer } := by
  simp [Screen.flushBuffer, h]

end Screen

abbrev ttyCount : Nat := 2

/-- The terminals, the one that `__active_tty` points to, and the VGA. -/
structure Terminals where
  ttys : Fin ttyCount → ScreenBuffer
  activeTty : Fin ttyCount
  vga : Vga

/-- Output to a terminal. -/
inductive Output where
  | putc (ch : Byte)
  | puts (str : List Byte)
  | print (text : List Byte)

/-- The bytes of an output, in order. -/
def Output.bytes : Output → List Byte
  | .putc ch => [ch]
  | .puts str => str
  | .print text => text

/-- Output to a terminal, a change of its output flags (`TCSETS`), and the keys
that switch terminals. -/
inductive ConsoleAction where
  | write (tty : Fin ttyCount) (output : Output)
  | setConfig (tty : Fin ttyCount) (config : OutputFlags)
  | switchTo (tty : Fin ttyCount)

namespace Terminals

def screen (s : Terminals) (tty : Fin ttyCount) : Screen := ⟨s.ttys tty, s.vga⟩

/-- The console after one terminal has written. -/
def put (s : Terminals) (tty : Fin ttyCount) (screen : Screen) : Terminals :=
  { s with ttys := Function.update s.ttys tty screen.tty, vga := screen.vga }

/-- `Tty::activate`. -/
def activate (s : Terminals) (tty : Fin ttyCount) : Terminals :=
  s.put tty { s.screen tty with tty.flags.F_Active := true }.flush

/-- `Tty::deactivate`. -/
def deactivate (s : Terminals) (tty : Fin ttyCount) : Terminals :=
  s.put tty { s.screen tty with tty.flags.F_Active := false }

/-- `load`, with terminals allocated in any memory. -/
def load (memory : Fin ttyCount → Cells) (vga : Vga) : Terminals :=
  let s : Terminals := {
    ttys := fun tty => ScreenBuffer.clear { buffer := memory tty }
    activeTty := 0
    vga }
  s.activate s.activeTty

def switchTo (s : Terminals) (tty : Fin ttyCount) : Terminals :=
  if (s.ttys tty).flags.F_Active then
    s
  else
    { s.deactivate s.activeTty with activeTty := tty }.activate tty

def write (s : Terminals) (tty : Fin ttyCount) (output : Output) : Option Terminals :=
  let written :=
    match output with
    | .putc ch => (s.screen tty).putc ch
    | .puts str => (s.screen tty).puts str
    | .print text => (s.screen tty).print text
  written.map (s.put tty)

def step (s : Terminals) : ConsoleAction → Option Terminals
  | .write tty output => s.write tty output
  | .setConfig tty config => some (s.put tty { s.screen tty with tty.config := config })
  | .switchTo tty => some (s.switchTo tty)

variable {s s' : Terminals} {tty : Fin ttyCount} {output : Output}

theorem write_cases (h : s.write tty output = some s') :
    ∃ screen, output.bytes.foldlM Screen.putcImpl (s.screen tty) = some screen ∧
      s' = s.put tty screen.flushCursor := by
  obtain ⟨flushed, hwritten, rfl⟩ := Option.map_eq_some_iff.mp h
  cases output with
  | putc ch =>
      obtain ⟨screen, hscreen, rfl⟩ := Option.map_eq_some_iff.mp hwritten
      exact ⟨screen, by simpa [Output.bytes] using hscreen, rfl⟩
  | puts str =>
      obtain ⟨screen, hscreen, rfl⟩ := Option.map_eq_some_iff.mp hwritten
      exact ⟨screen, hscreen, rfl⟩
  | print text =>
      obtain ⟨screen, hscreen, rfl⟩ := Option.map_eq_some_iff.mp hwritten
      exact ⟨screen, hscreen, rfl⟩

theorem write_isSome (h : (s.screen tty).StaysOnScreen output.bytes) :
    (s.write tty output).isSome := by
  obtain ⟨screen, hscreen⟩ := Option.isSome_iff_exists.mp (Screen.putcs_isSome h)
  cases output with
  | putc ch =>
      have hch : (s.screen tty).putcImpl ch = some screen := by
        simpa [Output.bytes] using hscreen
      simp [write, Screen.putc, hch]
  | puts str =>
      have hstr : str.foldlM Screen.putcImpl (s.screen tty) = some screen := hscreen
      simp [write, Screen.puts, hstr]
  | print text =>
      have htext : text.foldlM Screen.putcImpl (s.screen tty) = some screen := hscreen
      simp [write, Screen.print, htext]

/-- The VGA shows the cells of the terminal that `__active_tty` points to, which
is the only active one. -/
structure Mirrors (s : Terminals) : Prop where
  active : ∀ tty, (s.ttys tty).flags.F_Active = true ↔ tty = s.activeTty
  cells : s.vga.buffer = (s.ttys s.activeTty).buffer

theorem Mirrors.one (h : s.Mirrors) : ∃! tty, (s.ttys tty).flags.F_Active = true :=
  ⟨s.activeTty, (h.active _).mpr rfl, fun tty hactive => (h.active tty).mp hactive⟩

theorem Mirrors.put (h : s.Mirrors) {screen : Screen} (hfollows : (s.screen tty).Follows screen) :
    (s.put tty screen).Mirrors := by
  refine ⟨fun other => ?_, ?_⟩
  · refine Iff.trans ?_ (h.active other)
    by_cases hsame : other = tty
    · subst hsame
      simp only [Terminals.put, Function.update_self, hfollows.flags]
      rfl
    · simp only [Terminals.put, Function.update_of_ne hsame]
  · by_cases hsame : s.activeTty = tty
    · subst hsame
      simp only [Terminals.put, Function.update_self]
      exact hfollows.shows ((h.active _).mpr rfl) h.cells
    · have hinactive : (s.screen tty).tty.flags.F_Active = false := by
        rw [← Bool.not_eq_true]
        exact fun hactive => hsame ((h.active tty).mp hactive).symm
      simp only [Terminals.put, Function.update_of_ne hsame, hfollows.inactive hinactive]
      exact h.cells

/-- Activating a terminal when no other is active. -/
theorem mirrors_activate (hactive : s.activeTty = tty)
    (hothers : ∀ other, other ≠ tty → (s.ttys other).flags.F_Active = false) :
    (s.activate tty).Mirrors := by
  subst hactive
  have hflush : ∀ screen : Screen, screen.tty.flags.F_Active = true →
      screen.flush.tty = screen.tty ∧ screen.flush.vga.buffer = screen.tty.buffer := by
    intro screen hon
    simp only [Screen.flush, Screen.flushBuffer_active hon, Screen.flushCursor, hon, if_true]
    split
    · exact ⟨rfl, rfl⟩
    · exact ⟨rfl, rfl⟩
  obtain ⟨htty, hcells⟩ := hflush { s.screen s.activeTty with tty.flags.F_Active := true } rfl
  refine ⟨fun other => ?_, ?_⟩
  · by_cases hsame : other = s.activeTty
    · subst hsame
      simp [activate, Terminals.put, htty]
    · simp [activate, Terminals.put, hsame, hothers other hsame]
  · simp only [activate, Terminals.put, Function.update_self, htty]
    exact hcells

theorem load_mirrors (memory : Fin ttyCount → Cells) (vga : Vga) : (load memory vga).Mirrors :=
  mirrors_activate rfl fun _ _ => rfl

theorem Mirrors.switchTo (h : s.Mirrors) (tty : Fin ttyCount) : (s.switchTo tty).Mirrors := by
  unfold Terminals.switchTo
  split
  · exact h
  · refine mirrors_activate rfl fun other _ => ?_
    simp only [deactivate, Terminals.put]
    by_cases hsame : other = s.activeTty
    · subst hsame
      simp
    · rw [Function.update_of_ne hsame, ← Bool.not_eq_true, h.active other]
      exact hsame

theorem Mirrors.step (h : s.Mirrors) {action : ConsoleAction} (heq : s.step action = some s') :
    s'.Mirrors := by
  cases action with
  | write tty output =>
      obtain ⟨screen, hscreen, rfl⟩ := write_cases heq
      exact h.put ((Screen.putcs_follows hscreen).trans (Screen.flushCursor_follows screen))
  | setConfig tty config =>
      obtain rfl := Option.some.inj heq
      exact h.put (.of_eq rfl rfl rfl)
  | switchTo tty =>
      obtain rfl := Option.some.inj heq
      exact h.switchTo tty

theorem write_frame (h : s.write tty output = some s') :
    ((s.ttys tty).flags.F_Active = false → s'.vga = s.vga) ∧
      ∀ other, other ≠ tty → s'.ttys other = s.ttys other := by
  obtain ⟨screen, hscreen, rfl⟩ := write_cases h
  have hfollows := (Screen.putcs_follows hscreen).trans (Screen.flushCursor_follows screen)
  exact ⟨hfollows.inactive, fun other hother => Function.update_of_ne hother ..⟩

/-- In every state of every run from `load` one terminal is active and the VGA has
its cells; output to an inactive terminal changes neither the VGA nor the other
terminal; and all output is taken while the cursor stays on the screen. -/
theorem run_mirrors {memory : Fin ttyCount → Cells} {vga : Vga} {actions : List ConsoleAction}
    (hrun : Run step anyStep (load memory vga) actions s) :
    (∃! tty, (s.ttys tty).flags.F_Active = true) ∧
    (∀ tty, (s.ttys tty).flags.F_Active = true →
      ∀ cell, s.vga.buffer cell = (s.ttys tty).buffer cell) ∧
    (∀ tty output s', s.step (.write tty output) = some s' →
      ((s.ttys tty).flags.F_Active = false → s'.vga = s.vga) ∧
      ∀ other, other ≠ tty → s'.ttys other = s.ttys other) ∧
    ∀ tty output, (s.screen tty).StaysOnScreen output.bytes →
      (s.step (.write tty output)).isSome := by
  have hmirrors : s.Mirrors := hrun.invariant (fun s action s' h _ heq => h.step heq)
    (load_mirrors memory vga)
  refine ⟨hmirrors.one, fun tty hactive cell => ?_, fun tty output s' heq => write_frame heq,
    fun tty output hstays => write_isSome hstays⟩
  rw [(hmirrors.active tty).mp hactive, hmirrors.cells]

/-- Output to the second terminal while the first is active, a switch, and a screen
that is erased by a control sequence. -/
theorem run_mirrors_two_terminals :
    ∃ memory vga s, Run step anyStep (load memory vga) [
        .write 1 (.putc (chr 'a')), .switchTo 1,
        .write 1 (.puts [chr '\x1b', chr '[', chr '2', chr 'J'])] s ∧
      (∃! tty, (s.ttys tty).flags.F_Active = true) ∧
      ∀ cell, s.vga.buffer cell = (s.ttys 1).buffer cell := by
  let memory : Fin ttyCount → Cells := fun _ _ => ⟨0, 0⟩
  let vga : Vga := ⟨fun _ => ⟨0, 0⟩, false, 0⟩
  have hempty : Run step anyStep (load memory vga) [] (load memory vga) := Run.nil _
  have hwritten := hempty.snoc (a := .write 1 (.putc (chr 'a'))) trivial rfl
  have hswitched := hwritten.snoc (a := .switchTo 1) trivial rfl
  have hrun := hswitched.snoc
    (a := .write 1 (.puts [chr '\x1b', chr '[', chr '2', chr 'J'])) trivial rfl
  obtain ⟨hone, hcells, _⟩ := run_mirrors hrun
  exact ⟨memory, vga, _, hrun, hone, hcells 1 rfl⟩

end Terminals

end Nyan.Console
