import Nyan.Console.TtyInput
import Nyan.Library.MarkedQueue
import Nyan.Library.Simulation

/-!
Canonical input against a line discipline that keeps the order of what was typed: a queue
of the bytes of completed lines, with a mark for every end of file typed on an empty line.
The code keeps the bytes and the end of file apart, so a mark does not hold its place: it
is delivered after all bytes, several are one, and an end of file that ends a line leaves
a mark behind.
-/

namespace Nyan.Console

open Library

/-- Something typed, or a read of the device. -/
inductive TtyAction where
  | key (ch : BitVec 8)
  | read (size : BitVec 32)

/-- The signal that a key sent, or what a read returned. -/
inductive TtyAnswer where
  | sent (signal : Option Nat)
  | got (result : Blocking (Except Errno (List (BitVec 8))))

def Tty.perform (tty : Tty) : TtyAction → TtyAnswer × Tty
  | .key ch => (.sent (tty.processKey ch).1, (tty.processKey ch).2)
  | .read size => (.got (tty.read size).1, (tty.read size).2)

/-- The line that is being typed, and what is completed but not read. -/
structure LineDiscipline where
  line : List (BitVec 8)
  queue : List (Marked (BitVec 8))

namespace LineDiscipline

def new : LineDiscipline := ⟨[], []⟩

/-- The line is completed, with what comes at its end. -/
def complete (d : LineDiscipline) (last : List (BitVec 8)) : LineDiscipline :=
  ⟨[], d.queue ++ (d.line ++ last).map .item⟩

def editLine (config : Termios) (d : LineDiscipline) (ch : BitVec 8) : LineDiscipline :=
  if config.isControl .VERASE ch then
    { d with line := d.line.dropLast }
  else if config.isControl .VEOF ch then
    if d.line = [] then { d with queue := d.queue ++ [.mark] } else d.complete []
  else if ch = 10#8 then
    d.complete [10#8]
  else
    { d with line := d.line ++ [ch] }

def processKey (config : Termios) (d : LineDiscipline) (key : BitVec 8) :
    Option Nat × LineDiscipline :=
  match config.signalOf (config.mapReturn key) with
  | some signal => (some signal, { d with line := [] })
  | none => (none, d.editLine config (config.mapReturn key))

/-- What a read returns; without a result it waits. -/
def ofResult : Option (List (BitVec 8)) → Blocking (Except Errno (List (BitVec 8)))
  | none => .waits
  | some bytes => .returns (.ok bytes)

/-- A read takes bytes in their order, over the ends of lines but not past a mark. It
returns no byte where the next item is a mark, which it takes. -/
def read (d : LineDiscipline) (size : BitVec 32) :
    Blocking (Except Errno (List (BitVec 8))) × LineDiscipline :=
  (ofResult (Marked.take size.toNat d.queue).1,
    { d with queue := (Marked.take size.toNat d.queue).2 })

def perform (config : Termios) (d : LineDiscipline) : TtyAction → TtyAnswer × LineDiscipline
  | .key ch => (.sent (d.processKey config ch).1, (d.processKey config ch).2)
  | .read size => (.got (d.read size).1, (d.read size).2)

theorem ofResult_injective : Function.Injective ofResult := by
  intro result result' h
  cases result <;> cases result' <;> simp_all [ofResult]

end LineDiscipline

/-- Where every read takes from a queue, reads return what the queue gives. -/
theorem answers_reads {σ : Type} (step : σ → TtyAction → TtyAnswer × σ)
    (queue : σ → List (Marked (BitVec 8)))
    (hread : ∀ s size,
      (step s (.read size)).1 =
          .got (LineDiscipline.ofResult (Marked.take size.toNat (queue s)).1) ∧
        queue (step s (.read size)).2 = (Marked.take size.toNat (queue s)).2)
    (s : σ) (sizes : List (BitVec 32)) :
    (answers (always step) s (sizes.map .read)).map Prod.fst =
      some ((Marked.results (sizes.map BitVec.toNat) (queue s)).map
        fun result => .got (LineDiscipline.ofResult result)) := by
  induction sizes generalizing s with
  | nil => rfl
  | cons size rest ih =>
      obtain ⟨hanswer, hqueue⟩ := hread s size
      have hstep : always step s (.read size) =
        some ((step s (.read size)).1, (step s (.read size)).2) := rfl
      have hrest := ih (step s (.read size)).2
      rw [List.map_cons, List.map_cons, Marked.results, ← hqueue, List.map_cons, ← hanswer,
        answers_cons hstep, Option.map_map]
      cases hrun : answers (always step) (step s (.read size)).2 (rest.map .read) with
      | none => simp [hrun] at hrest
      | some out => simpa [hrun] using hrest

namespace Tty

variable {tty : Tty} {d : LineDiscipline} {config : Termios}

/-- The queue that the code keeps: an end of file is behind all bytes. -/
def pending (tty : Tty) : List (Marked (BitVec 8)) :=
  tty.inputBuffer.map .item ++ if tty.pendingEof then [.mark] else []

theorem read_pending (size : BitVec 32) :
    (tty.read size).1 = LineDiscipline.ofResult (Marked.take size.toNat tty.pending).1 ∧
      (tty.read size).2.pending = (Marked.take size.toNat tty.pending).2 := by
  have hlast : Marked.leading
      (if tty.pendingEof then [.mark] else [] : List (Marked (BitVec 8))) = [] := by
    split <;> rfl
  unfold read
  by_cases hinput : tty.inputBuffer = []
  · cases heof : tty.pendingEof with
    | true => simp [hinput, heof, pending, Marked.take, LineDiscipline.ofResult]
    | false => simp [hinput, heof, pending, Marked.take, LineDiscipline.ofResult]
  · rw [if_pos hinput, pending, Marked.take_items hinput hlast]
    exact ⟨rfl, rfl⟩

/-- The same line is being typed. -/
structure SameLine (config : Termios) (tty : Tty) (d : LineDiscipline) : Prop where
  config : tty.config = config
  line : d.line = tty.lineBuffer

/-- The terminal is in the state of the discipline. -/
structure Represents (config : Termios) (tty : Tty) (d : LineDiscipline) : Prop
    extends SameLine config tty d where
  queue : d.queue = tty.pending

/-- The end of a line comes while no end of file is pending, and an end of file on an empty
line. -/
def InOrder (tty : Tty) : TtyAction → Prop
  | .read _ => True
  | .key key =>
      let ch := tty.config.mapReturn key
      if (tty.config.signalOf ch).isSome ∨ tty.config.isControl .VERASE ch then
        True
      else if tty.config.isControl .VEOF ch then
        tty.lineBuffer = [] ∧ tty.pendingEof = false
      else
        ch = 10#8 → tty.pendingEof = false

section Key

variable {key : BitVec 8} {signal : Nat}

theorem processKey_signal
    (hsignal : tty.config.signalOf (tty.config.mapReturn key) = some signal) :
    tty.processKey key = (some signal, { tty with lineBuffer := [] }) := by
  simp [processKey, hsignal]

theorem processKey_edit (hcanon : tty.config.c_lflag &&& ICANON ≠ 0#32)
    (hsignal : tty.config.signalOf (tty.config.mapReturn key) = none) :
    tty.processKey key = (none, tty.editLine (tty.config.mapReturn key)) := by
  simp [processKey, hsignal, hcanon]

end Key

/-- The line is edited as the discipline edits it. -/
theorem SameLine.perform (hcanon : config.c_lflag &&& ICANON ≠ 0#32)
    (h : SameLine config tty d) (act : TtyAction) :
    SameLine config (tty.perform act).2 (d.perform config act).2 := by
  obtain ⟨rfl, hline⟩ := h
  cases act with
  | read size =>
      have hkept : (tty.read size).2.config = tty.config ∧
          (tty.read size).2.lineBuffer = tty.lineBuffer := by
        unfold Tty.read
        split_ifs <;> exact ⟨rfl, rfl⟩
      exact ⟨hkept.1, hline.trans hkept.2.symm⟩
  | key key =>
      rw [Tty.perform, LineDiscipline.perform, LineDiscipline.processKey]
      cases hsignal : tty.config.signalOf (tty.config.mapReturn key) with
      | some signal =>
          rw [processKey_signal hsignal]
          exact ⟨rfl, rfl⟩
      | none =>
          rw [processKey_edit hcanon hsignal]
          dsimp only
          unfold Tty.editLine LineDiscipline.editLine
          split_ifs with herase heof hempty hnewline
          · exact ⟨rfl, congrArg List.dropLast hline⟩
          · exact ⟨rfl, hempty⟩
          · exact ⟨rfl, rfl⟩
          · exact ⟨rfl, rfl⟩
          · exact ⟨rfl, congrArg (· ++ _) hline⟩

/-- An end of file has the place of its mark exactly if it is the first one pending, on an
empty line. -/
theorem eof_pending_iff (h : Represents config tty d) :
    (if d.line = [] then { d with queue := d.queue ++ [.mark] } else d.complete []).queue =
        (tty.inputBuffer ++ tty.lineBuffer).map .item ++ [.mark] ↔
      tty.lineBuffer = [] ∧ tty.pendingEof = false := by
  rw [h.line]
  by_cases hline : tty.lineBuffer = []
  · cases heof : tty.pendingEof <;> simp [hline, h.queue, pending, heof]
  · cases heof : tty.pendingEof with
    | false => simp [hline, LineDiscipline.complete, h.queue, h.line, pending, heof]
    | true => simp [hline, LineDiscipline.complete, h.queue, h.line, pending, heof,
        Marked.mark_items_comm]

/-- A line comes before the end of file that is pending, where its place is behind it. -/
theorem newline_pending_iff (h : Represents config tty d) :
    (d.complete [10#8]).queue = (tty.inputBuffer ++ (tty.lineBuffer ++ [10#8])).map .item ++
        (if tty.pendingEof then [.mark] else []) ↔
      tty.pendingEof = false := by
  have hmove : .mark :: (tty.lineBuffer ++ [10#8]).map Marked.item =
      (tty.lineBuffer ++ [10#8]).map .item ++ [.mark] ↔ tty.lineBuffer ++ [10#8] = [] :=
    Marked.mark_items_comm
  rw [LineDiscipline.complete, h.queue, h.line, pending]
  cases heof : tty.pendingEof with
  | false => simp
  | true => simpa using hmove

theorem editLine_pending_iff (h : Represents config tty d) (ch : BitVec 8) :
    (d.editLine config ch).queue = (tty.editLine ch).pending ↔
      (config.isControl .VERASE ch ∨
        if config.isControl .VEOF ch then tty.lineBuffer = [] ∧ tty.pendingEof = false
        else ch = 10#8 → tty.pendingEof = false) := by
  unfold editLine LineDiscipline.editLine
  rw [h.config]
  by_cases herase : config.isControl .VERASE ch
  · simp [herase, h.queue, pending]
  by_cases heof : config.isControl .VEOF ch
  · simp [herase, heof, pending, ← eof_pending_iff h]
  by_cases hnewline : ch = 10#8
  · subst hnewline
    simp [herase, heof, pending, ← newline_pending_iff h]
  · simp [herase, heof, hnewline, h.queue, pending]

/-- One action is answered as by the discipline, and leaves the terminal in its state,
exactly if it is in order. -/
theorem inOrder_iff (hcanon : config.c_lflag &&& ICANON ≠ 0#32) (h : Represents config tty d)
    (act : TtyAction) :
    tty.InOrder act ↔
      ConformsStep (always perform) (LineDiscipline.perform config) (Represents config) tty d
        act := by
  have hsame := h.toSameLine.perform hcanon act
  have hrep : Represents config (tty.perform act).2 (d.perform config act).2 ↔
      (d.perform config act).2.queue = (tty.perform act).2.pending :=
    ⟨fun h => h.queue, fun h => ⟨hsame, h⟩⟩
  rw [conformsStep_always, hrep]
  cases act with
  | read size =>
      obtain ⟨hresult, hpending⟩ := tty.read_pending size
      simp only [InOrder, perform, LineDiscipline.perform, LineDiscipline.read, hresult, hpending,
        h.queue, and_self]
  | key key =>
      obtain rfl := h.config
      rw [InOrder, perform, LineDiscipline.perform, LineDiscipline.processKey]
      cases hsignal : tty.config.signalOf (tty.config.mapReturn key) with
      | some signal =>
          rw [processKey_signal hsignal]
          exact iff_of_true (by simp) ⟨rfl, h.queue⟩
      | none =>
          rw [processKey_edit hcanon hsignal]
          simp only [editLine_pending_iff h]
          by_cases herase : tty.config.isControl .VERASE (tty.config.mapReturn key) <;>
            simp [herase]

/-- After any actions, reads of all sizes return the same exactly if the terminal has
answered as the discipline and is in its state. -/
theorem conforms_iff_reads (hcanon : config.c_lflag &&& ICANON ≠ 0#32)
    (h : SameLine config tty d) (acts : List TtyAction) :
    (∀ sizes : List (BitVec 32),
      (answers (always perform) tty (acts ++ sizes.map .read)).map Prod.fst =
        (answers (always (LineDiscipline.perform config)) d (acts ++ sizes.map .read)).map
          Prod.fst) ↔
      Conforms (always perform) (LineDiscipline.perform config) (Represents config) tty d acts := by
  have hstep : ∀ s d act, SameLine config s d →
      SameLine config (s.perform act).2 (d.perform config act).2 :=
    fun _ _ act h => h.perform hcanon act
  obtain ⟨rs, t, rs', t', hrun, hrun', hsame⟩ :=
    answers_related hstep h acts
  have hcode := answers_reads perform pending
    (fun s size => ⟨congrArg TtyAnswer.got (s.read_pending size).1, (s.read_pending size).2⟩) t
  have href := answers_reads (LineDiscipline.perform config) LineDiscipline.queue
    (fun _ _ => ⟨rfl, rfl⟩) t'
  simp only [answers_append_fst hrun, answers_append_fst hrun', hcode, href, Option.map_some,
    Option.some_inj]
  constructor
  · intro hreads
    obtain rfl : rs = rs' := by simpa [Marked.results] using hreads []
    refine ⟨rs, t, t', hrun, hrun', hsame, (Marked.eq_of_results fun k => ?_).symm⟩
    have hone := List.append_cancel_left (hreads (List.replicate k 1#32))
    rw [List.map_replicate] at hone
    refine List.map_injective_iff.mpr (fun result result' heq => ?_) hone
    exact LineDiscipline.ofResult_injective (TtyAnswer.got.inj heq)
  · rintro ⟨_, _, _, hrun₁, hrun₂, hrep⟩ sizes
    obtain ⟨rfl, rfl⟩ := Prod.mk.inj (Option.some.inj (hrun.symm.trans hrun₁))
    obtain ⟨rfl, rfl⟩ := Prod.mk.inj (Option.some.inj (hrun'.symm.trans hrun₂))
    rw [hrep.queue]

/-- In canonical mode, for every sequence of keys and reads: at each point of it all reads
return what they return from the queue of completed lines and marks, exactly if every line
and every end of file was completed in order. -/
theorem canonical_input_ordered_iff (hcanon : config.c_lflag &&& ICANON ≠ 0#32)
    (acts : List TtyAction) :
    (∀ n, ∀ sizes : List (BitVec 32),
      (answers (always perform) (Tty.new config) (acts.take n ++ sizes.map .read)).map Prod.fst =
        (answers (always (LineDiscipline.perform config)) .new
          (acts.take n ++ sizes.map .read)).map Prod.fst) ↔
      Guarded (always perform) InOrder (Tty.new config) acts := by
  have hnew : Represents config (Tty.new config) .new := ⟨⟨rfl, rfl⟩, rfl⟩
  simp only [conforms_iff_reads hcanon hnew.toSameLine]
  have hstep : ∀ s d act, Represents config s d → (InOrder s act ↔ ConformsStep _ _ _ s d act) :=
    fun _ _ act h => inOrder_iff hcanon h act
  exact conforms_iff hstep hnew acts

/-- An end of file, a read, and a line. -/
def orderedInput : List TtyAction := [.key 4, .read 8, .key 0x61, .key 10]

theorem canonical_input_ordered_default :
    Termios.default.c_lflag &&& ICANON ≠ 0#32 ∧ ∀ n, ∀ sizes : List (BitVec 32),
      (answers (always perform) (Tty.new .default) (orderedInput.take n ++ sizes.map .read)).map
          Prod.fst =
        (answers (always (LineDiscipline.perform .default)) .new
          (orderedInput.take n ++ sizes.map .read)).map Prod.fst := by
  refine ⟨by decide, (canonical_input_ordered_iff (by decide) orderedInput).mpr ?_⟩
  simp only [orderedInput, guarded_always, InOrder]
  refine ⟨by decide, trivial, by decide, by decide, trivial⟩

/-- After `abc` and an end of file, the second read returns no byte where the discipline
waits for more. -/
theorem eof_after_text_returned :
    (answers (always perform) (Tty.new .default)
        [.key 0x61, .key 0x62, .key 4, .read 8, .read 8]).map (fun out => out.1.drop 3) =
      some [.got (.returns (.ok [0x61, 0x62])), .got (.returns (.ok []))] ∧
    (answers (always (LineDiscipline.perform .default)) .new
        [.key 0x61, .key 0x62, .key 4, .read 8, .read 8]).map (fun out => out.1.drop 3) =
      some [.got (.returns (.ok [0x61, 0x62])), .got .waits] :=
  ⟨rfl, rfl⟩

end Tty

end Nyan.Console
