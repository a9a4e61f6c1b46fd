import Nyan.Console.Mirror

/-!
The cursor of a terminal. Printing, line feeds, backspaces and control sequences
keep it on the screen, whatever the output flags are. A tab in the last four columns
does not: it jumps to the line feed past the assignment that returns to the first
column, and leaves the cursor behind the right edge.
-/

namespace Nyan.Console

open Library

/-- What happens to a terminal: a byte of output, a change of its output flags
(`TCSETS`), and a switch to it or away from it. -/
inductive TtyEvent where
  | output (ch : Byte)
  | setConfig (config : OutputFlags)
  | activate
  | deactivate

namespace Screen

variable {s s' : Screen} {ch : Byte}

def step (s : Screen) : TtyEvent → Option Screen
  | .output ch => s.putcImpl ch
  | .setConfig config => some { s with tty.config := config }
  | .activate => some { s with tty.flags.F_Active := true }.flush
  | .deactivate => some { s with tty.flags.F_Active := false }

/-- A new terminal, in any memory. -/
def fresh (memory : Cells) (vga : Vga) : Screen := ⟨{ buffer := memory }, vga⟩

/-- The cursor is on the screen; so is the cell that a character is stored in, and
so are the cells that `J` fills. -/
structure Contained (s : Screen) : Prop where
  cursor : s.OnScreen
  cell : s.tty.curr < width * height
  filled : ∀ arg, (fillRange arg s.tty.curr).1 + (fillRange arg s.tty.curr).2 ≤ width * height

/-- A tab is rendered in one of the last four columns. -/
def TabAtEdge (s : Screen) (event : TtyEvent) : Prop :=
  event = .output (chr '\t') ∧ s.tty.vtstate ≠ .VTS_EscBrc ∧ width ≤ s.tty.colPtr + 4

theorem contained_iff_onScreen : s.Contained ↔ s.OnScreen :=
  ⟨Contained.cursor, fun h => ⟨h, h.curr_lt, fun arg => fillRange_le arg h.curr_lt⟩⟩

theorem clampedIndex_lt (arg : BitVec 32) {bound : Nat} (h : 0 < bound) :
    clampedIndex arg bound < bound := by
  unfold clampedIndex
  omega

@[simp]
theorem flushBuffer_tty (s : Screen) : s.flushBuffer.tty = s.tty := by
  unfold flushBuffer
  split <;> rfl

@[simp]
theorem flushCursor_tty (s : Screen) : s.flushCursor.tty = s.tty := by
  unfold flushCursor
  split
  · split <;> rfl
  · rfl

/-- A line feed scrolls on the last row, and leaves the column alone. -/
theorem putLF_cursor (h : s.tty.rowPtr < height) :
    s.putLF.tty.rowPtr < height ∧ s.putLF.tty.colPtr = s.tty.colPtr := by
  unfold putLF
  split
  · rw [flushBuffer_tty]
    exact ⟨Nat.lt_succ_self 24, rfl⟩
  · rename_i hlast
    exact ⟨Nat.lt_of_le_of_ne h hlast, rfl⟩

theorem OnScreen.putLF (h : s.OnScreen) : s.putLF.OnScreen := by
  obtain ⟨hrow, hcol⟩ := putLF_cursor h.1
  exact ⟨hrow, by rw [hcol]; exact h.2⟩

theorem store_cursor (h : s.store ch = some s') :
    s'.tty.rowPtr = s.tty.rowPtr ∧ s'.tty.colPtr = s.tty.colPtr := by
  unfold store at h
  split at h
  · obtain rfl := Option.some.inj h
    exact ⟨rfl, rfl⟩
  · cases h

/-- Rendering a character other than a tab keeps the cursor on the screen. -/
theorem OnScreen.renderChar (h : s.OnScreen) (hplain : ch ≠ chr '\t')
    (hrender : s.renderChar ch = some s') : s'.OnScreen := by
  obtain ⟨hrow, hcol⟩ := h
  unfold Screen.renderChar at hrender
  split at hrender
  · obtain rfl := Option.some.inj hrender
    exact OnScreen.putLF ⟨hrow, hcol⟩
  split at hrender
  · obtain rfl := Option.some.inj hrender
    exact ⟨hrow, Nat.zero_lt_succ 79⟩
  split at hrender
  · obtain rfl := Option.some.inj hrender
    exact ⟨hrow, Nat.lt_of_le_of_lt (Nat.sub_le _ _) hcol⟩
  obtain ⟨s₁, hstore, rfl⟩ := Option.map_eq_some_iff.mp hrender
  obtain ⟨hrow₁, hcol₁⟩ := store_cursor hstore
  rw [← hrow₁] at hrow
  rw [← hcol₁] at hcol
  split
  · exact OnScreen.putLF ⟨hrow, Nat.zero_lt_succ 79⟩
  · rename_i hlast
    exact ⟨hrow, Nat.lt_of_le_of_ne hcol hlast⟩

/-- A tab keeps it there except in the last four columns. -/
theorem renderChar_tab (h : s.OnScreen) (hrender : s.renderChar (chr '\t') = some s') :
    s'.OnScreen ↔ ¬ width ≤ s.tty.colPtr + 4 := by
  obtain ⟨hrow, hcol⟩ := h
  have htab : s.renderChar (chr '\t') =
      some (if s.tty.colPtr + (4 - s.tty.colPtr % 4) = width then
        { s with tty.colPtr := s.tty.colPtr + (4 - s.tty.colPtr % 4) }.putLF
      else { s with tty.colPtr := s.tty.colPtr + (4 - s.tty.colPtr % 4) }) := rfl
  rw [htab] at hrender
  obtain rfl := Option.some.inj hrender
  have hwidth : width = 80 := rfl
  split
  · rename_i hedge
    have hafter := (putLF_cursor
      (s := { s with tty.colPtr := s.tty.colPtr + (4 - s.tty.colPtr % 4) }) hrow).2
    refine iff_of_false (fun honScreen => ?_) (by omega)
    rw [OnScreen, hafter] at honScreen
    exact absurd hedge (Nat.ne_of_lt honScreen.2)
  · rename_i hinside
    refine iff_of_true ⟨hrow, ?_⟩ ?_
    · simp only
      omega
    · omega

/-- What is rendered keeps the cursor on the screen exactly if it is no tab in the
last four columns. -/
theorem renderChar_onScreen_iff (h : s.OnScreen) (ch : Byte) :
    (∃ s', s.renderChar ch = some s' ∧ s'.OnScreen) ↔
      ¬ (ch = chr '\t' ∧ width ≤ s.tty.colPtr + 4) := by
  obtain ⟨s', hrender⟩ := Option.isSome_iff_exists.mp (renderChar_isSome h ch)
  simp only [hrender, Option.some_inj, exists_eq_left']
  by_cases htab : ch = chr '\t'
  · subst htab
    simpa using renderChar_tab h hrender
  · exact iff_of_true (h.renderChar htab hrender) (by simp [htab])

/-- Control sequences keep the cursor on the screen. -/
theorem OnScreen.flushCSI (h : s.OnScreen) (hcsi : s.flushCSI ch = some s') : s'.OnScreen := by
  simp only [Screen.flushCSI, Option.bind_eq_bind, Option.bind_eq_some_iff] at hcsi
  obtain ⟨arg0, _, hcsi⟩ := hcsi
  split at hcsi
  · obtain rfl := Option.some.inj hcsi
    exact h
  split at hcsi
  · obtain rfl := Option.some.inj hcsi
    exact ⟨clampedIndex_lt arg0 (Nat.zero_lt_succ 24), clampedIndex_lt _ (Nat.zero_lt_succ 79)⟩
  split at hcsi
  · simp only [eraseDisplay, Option.bind_eq_bind, Option.bind_eq_some_iff] at hcsi
    obtain ⟨buffer, _, hcsi⟩ := hcsi
    split at hcsi
    · obtain ⟨shown, _, hcsi⟩ := Option.bind_eq_some_iff.mp hcsi
      obtain rfl := Option.some.inj hcsi
      exact h
    · obtain rfl := Option.some.inj hcsi
      exact h
  · obtain rfl := Option.some.inj hcsi
    exact h

/-- The carriage return before a line feed is taken, and moves to the left only. -/
theorem returnFirst_onScreen (h : s.OnScreen) (ch : Byte) : ∃ s₁, s.returnFirst ch = some s₁ ∧
    s₁.OnScreen ∧ (ch = chr '\t' → s₁.tty.colPtr = s.tty.colPtr) := by
  unfold returnFirst
  split
  · rename_i hfeed
    refine ⟨{ s with tty.colPtr := 0 }, rfl, ⟨h.1, Nat.zero_lt_succ 79⟩, fun htab => ?_⟩
    exact absurd (hfeed.2.2.symm.trans htab) (by decide)
  · exact ⟨s, rfl, h, fun _ => rfl⟩

theorem mapped_tab {config : OutputFlags} : mapped config ch = chr '\t' ↔ ch = chr '\t' := by
  unfold mapped
  split
  · rename_i hreturn
    rw [hreturn.2.2]
    decide
  · rfl

/-- A byte keeps the cursor on the screen exactly if it is not rendered as a tab in
the last four columns. -/
theorem putcImpl_onScreen_iff (h : s.OnScreen) (ch : Byte) :
    (∃ s', s.putcImpl ch = some s' ∧ s'.OnScreen) ↔
      ¬ (ch = chr '\t' ∧ s.tty.vtstate ≠ .VTS_EscBrc ∧ width ≤ s.tty.colPtr + 4) := by
  unfold putcImpl
  split
  · rename_i hidle
    by_cases hescape : ch = chr '\x1b'
    · subst hescape
      exact iff_of_true ⟨_, rfl, h⟩ (fun htab => absurd htab.1 (by decide))
    · obtain ⟨s₁, hfirst, honScreen, hcol⟩ := returnFirst_onScreen h ch
      simp only [if_neg hescape, hfirst, Option.bind_eq_bind, Option.bind_some]
      rw [renderChar_onScreen_iff honScreen, mapped_tab, hidle]
      refine not_congr (and_congr_right fun htab => ?_)
      rw [hcol htab]
      simp
  · rename_i hesc
    split
    · rename_i hbracket
      exact iff_of_true ⟨_, rfl, h⟩ (fun htab => absurd (hbracket.symm.trans htab.1) (by decide))
    · have hidle : OnScreen { s with tty.vtstate := .VTS_Idle } := h
      rw [renderChar_onScreen_iff hidle, hesc]
      simp
  · rename_i hcsi
    refine iff_of_true ?_ (fun htab => htab.2.1 hcsi)
    split
    · exact ⟨_, rfl, h⟩
    dsimp only
    split
    · exact ⟨_, rfl, h⟩
    · have hpushed : OnScreen { s with tty.vtargs := s.tty.vtargs ++ [s.tty.vtarg] } := h
      obtain ⟨s₁, hs₁⟩ := Option.isSome_iff_exists.mp (flushCSI_isSome hpushed (by simp) ch)
      have honScreen := hpushed.flushCSI hs₁
      exact ⟨{ s₁ with tty.vtstate := .VTS_Idle }, by simp [hs₁], honScreen⟩

/-- Every event keeps the cursor on the screen, except for a tab at the edge. -/
theorem step_contained_iff (h : s.Contained) (event : TtyEvent) :
    ¬ s.TabAtEdge event ↔ ∃ s', s.step event = some s' ∧ s'.Contained := by
  rw [contained_iff_onScreen] at h
  simp only [contained_iff_onScreen]
  cases event with
  | output ch =>
      simp only [TabAtEdge, TtyEvent.output.injEq]
      exact (putcImpl_onScreen_iff h ch).symm
  | setConfig config => exact iff_of_true (fun htab => by cases htab.1) ⟨_, rfl, h⟩
  | activate =>
      refine iff_of_true (fun htab => by cases htab.1) ⟨_, rfl, ?_⟩
      rw [flush, OnScreen, flushCursor_tty, flushBuffer_tty]
      exact h
  | deactivate => exact iff_of_true (fun htab => by cases htab.1) ⟨_, rfl, h⟩

/-- For every new terminal and every sequence of output bytes, changes of the output
flags and switches, all of them are taken with the cursor on the screen after each
exactly if none is a tab in the last four columns. -/
theorem cursor_contained_iff (memory : Cells) (vga : Vga) (events : List TtyEvent) :
    (∀ n, ∃ s, (events.take n).foldlM step (fresh memory vga) = some s ∧ s.Contained) ↔
      ∀ n event s, events[n]? = some event →
        (events.take n).foldlM step (fresh memory vga) = some s → ¬ s.TabAtEdge event :=
  execution_good_iff_guarded (fun _ event h => step_contained_iff h event)
    (contained_iff_onScreen.mpr ⟨Nat.zero_lt_succ 24, Nat.zero_lt_succ 79⟩) events

/-- A tab in the last cell of the screen leaves the cursor in column 80, and the next
character is stored outside the cells. -/
theorem tab_leaves_screen :
    let start := fresh (fun _ => ⟨0, 0⟩) ⟨fun _ => ⟨0, 0⟩, false, 0⟩
    ∃ s, ([chr '\x1b', chr '[', chr '2', chr '5', chr ';', chr '8', chr '0', chr 'H',
        chr '\t'].map TtyEvent.output).foldlM step start = some s ∧
      s.tty.rowPtr = 24 ∧ s.tty.colPtr = 80 ∧ ¬ s.Contained ∧
      s.step (.output (chr 'x')) = none := by
  refine ⟨_, rfl, rfl, rfl, ?_, rfl⟩
  rintro ⟨⟨_, hcol⟩, _⟩
  exact absurd hcol (by decide)

end Screen

end Nyan.Console
