import Nyan.Lib.FormatParse

/-!
`mesure` and `formatter::format` (`lib/format/mesure.hpp`, `lib/format/formatter.hpp`). The
padding is computed from `mesure`, which repeats the case analysis of `emit` without writing. The
two count the digits with the same loop, and differ for the presentation type `P`, whose mark is
not measured.
-/

namespace Nyan.Lib

open Library

/-- `do { len++; uval = … } while (uval)`. -/
def countDigits {w : Nat} (next : BitVec w → BitVec w)
    (hnext : ∀ u, next u ≠ 0 → (next u).toNat < u.toNat) (uval : BitVec w) : Nat :=
  if _h : next uval = 0 then 1 else countDigits next hnext (next uval) + 1
termination_by uval.toNat
decreasing_by exact hnext uval _h

theorem toNat_lt_of_div {w base : Nat} {u v : BitVec w} (hbase : 1 < base)
    (hdiv : v.toNat = u.toNat / base) (hv : v ≠ 0) : v.toNat < u.toNat := by
  have hne : v.toNat ≠ 0 := fun h => hv (BitVec.eq_of_toNat_eq h)
  rw [hdiv] at hne ⊢
  refine Nat.div_lt_self (Nat.pos_of_ne_zero fun h => hne ?_) hbase
  rw [h, Nat.zero_div]

theorem udiv_ten_lt (T : IntType) (u : T.Value) : u / 10#_ ≠ 0 → (u / 10#_).toNat < u.toNat := by
  have hten : (10#T.width.bits).toNat = 10 := toNat_literal T (by decide)
  have hdiv : (u / 10#T.width.bits).toNat = u.toNat / 10 := by rw [BitVec.toNat_udiv, hten]
  exact toNat_lt_of_div (by decide) hdiv

theorem ushiftRight_lt {w k : Nat} (hk : 0 < k) (u : BitVec w) :
    u >>> k ≠ 0 → (u >>> k).toNat < u.toNat := by
  refine toNat_lt_of_div (Nat.one_lt_two_pow hk.ne') ?_
  rw [BitVec.toNat_ushiftRight, Nat.shiftRight_eq_div_pow]

/-- How many digits are counted. -/
def IntType.digitCount (T : IntType) (uval : T.Value) : FormatType → Nat
  | .c | .s => 0
  | .d => countDigits (· / 10#_) (udiv_ten_lt T) uval
  | .b | .B => max 1 uval.toNat.size
  | .o => countDigits (· >>> 3) (ushiftRight_lt (by decide)) uval
  | .x | .X | .p | .P => countDigits (· >>> 4) (ushiftRight_lt (by decide)) uval

namespace FormatSpec

def signLength (spec : FormatSpec) (negative : Bool) : Nat :=
  if negative then 1 else if spec.sign ≠ .minus then 1 else 0

def markLength (spec : FormatSpec) : Nat :=
  match spec.type with
  | .c | .s | .d => 0
  | .b | .B => if spec.sharp then 2 else 0
  | .o => if spec.sharp then 1 else 0
  | .x | .X | .p | .P => if spec.sharp || spec.type = .p then 2 else 0

/-- The length with the zeros that fill the width. -/
def zeroFilled (spec : FormatSpec) (len : Nat) : Nat :=
  if spec.zero then max len spec.width.toNat else len

end FormatSpec

/-- `mesure` for an integer. -/
def mesure (T : IntType) (val : T.Value) (spec : FormatSpec) : Nat :=
  match spec.type with
  | .c => 1
  | .s => 0
  | _ => spec.zeroFilled (spec.signLength (T.negative val) + spec.markLength +
      T.digitCount (T.magnitude val) spec.type)

/-- The kinds of strings: cells that end with a zero somewhere, a text with its length, and an
array, in which a zero may end the text. -/
inductive StringValue where
  | terminated (cells : List Char) (hend : '\x00' ∈ cells)
  | view (text : List Char)
  | array (cells : List Char)

namespace StringValue

def cells : StringValue → List Char
  | .terminated cells _ | .view cells | .array cells => cells

def length : StringValue → Nat
  | .terminated cells _ | .array cells => cells.findIdx (· == '\x00')
  | .view text => text.length

theorem length_le (val : StringValue) : val.length ≤ val.cells.length := by
  cases val with
  | terminated cells _ => exact cells.findIdx_le_length
  | array cells => exact cells.findIdx_le_length
  | view text => exact le_rfl

end StringValue

/-- `char`, which is signed. -/
def charType : IntType := ⟨.w8, true⟩

/-- `uintptr_t`. -/
def pointerType : IntType := ⟨.w32, false⟩

/-- A value that can be formatted. -/
inductive Argument where
  | string (val : StringValue)
  | integer (T : IntType) (val : T.Value)
  | char (val : charType.Value)
  | pointer (val : pointerType.Value)

namespace Argument

def target : Argument → Target
  | .string _ => .string
  | .integer _ _ => .integral
  | .char _ => .char
  | .pointer _ => .pointer

def mesure (arg : Argument) (spec : ParsedSpec) : Nat :=
  match arg with
  | .string val => min val.length spec.precision.toNat
  | .integer T val => Lib.mesure T val spec.toFormatSpec
  | .char val => Lib.mesure charType val spec.toFormatSpec
  | .pointer val => Lib.mesure pointerType val spec.toFormatSpec

def emit (arg : Argument) (spec : ParsedSpec) (mesureWidth : Nat) :
    Except EmitFault (List Char) :=
  match arg with
  | .string val => .ok (val.cells.take mesureWidth)
  | .integer T val => Lib.emit T val spec.toFormatSpec
  | .char val => Lib.emit charType val spec.toFormatSpec
  | .pointer val => Lib.emit pointerType val spec.toFormatSpec

/-- `formatter::format`. -/
def format (arg : Argument) (spec : ParsedSpec) : Except EmitFault (List Char) := do
  let mesureWidth := arg.mesure spec
  let text ← arg.emit spec mesureWidth
  if mesureWidth < spec.width.toNat then
    let padding := spec.width.toNat - mesureWidth
    match spec.align with
    | .left => return text ++ List.replicate padding spec.fill
    | .right => return List.replicate padding spec.fill ++ text
    | .center =>
        let leftPad := padding / 2
        let rightPad := padding - leftPad
        return List.replicate leftPad spec.fill ++ text ++ List.replicate rightPad spec.fill
  else
    return text

end Argument

/-- How the padding is split. -/
def Align.split (align : Align) (padding : Nat) : Nat × Nat :=
  match align with
  | .left => (0, padding)
  | .right => (padding, 0)
  | .center => (padding / 2, padding - padding / 2)

/-- A text in a field of the width. -/
def ParsedSpec.padded (spec : ParsedSpec) (text : List Char) : List Char :=
  let pads := spec.align.split (spec.width.toNat - text.length)
  List.replicate pads.1 spec.fill ++ text ++ List.replicate pads.2 spec.fill

/-- `mesure` is the number of characters that `emit` writes, and the field has the text in one
piece, with the fill around it and the width that is asked for. -/
def WidthHonoured (arg : Argument) (spec : ParsedSpec) : Prop :=
  ∃ text, arg.emit spec (arg.mesure spec) = .ok text ∧ text.length = arg.mesure spec ∧
    arg.format spec = .ok (spec.padded text) ∧
    (spec.padded text).length = max spec.width.toNat (arg.mesure spec)

section Lengths

variable {T : IntType} {val : T.Value} {spec : FormatSpec}

theorem fillDigits_length {w : Nat} {digit : BitVec w → Char} {next : BitVec w → BitVec w}
    (hnext : ∀ u, next u ≠ 0 → (next u).toNat < u.toNat) {room : Nat} {uval : BitVec w}
    {text : List Char} (h : fillDigits digit next room uval = .ok text) :
    text.length = countDigits next hnext uval := by
  induction room generalizing uval text with
  | zero => cases h
  | succ room ih =>
      rw [countDigits]
      rw [fillDigits] at h
      split at h
      · rename_i hlast
        cases h
        rw [dif_pos hlast]
        rfl
      · rename_i hmore
        obtain ⟨rest, hrest, hcons⟩ := bind_eq_ok.mp h
        cases hcons
        rw [dif_neg hmore, List.length_cons, ih hrest]

theorem binaryDigits_length {n : Nat} {text : List Char} (h : T.binaryDigits val n = .ok text) :
    text.length = n := by
  induction n generalizing text with
  | zero =>
      cases h
      rfl
  | succ n ih =>
      rw [IntType.binaryDigits] at h
      split at h
      · cases h
      · obtain ⟨rest, hrest, hcons⟩ := bind_eq_ok.mp h
        cases hcons
        rw [List.length_cons, ih hrest]

theorem length_of_map_reverse {written : Except EmitFault (List Char)} {text : List Char}
    (h : written.map List.reverse = .ok text) :
    ∃ digits, written = .ok digits ∧ digits.length = text.length := by
  cases written with
  | error fault => cases h
  | ok digits =>
      cases h
      exact ⟨digits, rfl, List.length_reverse.symm⟩

/-- As many digits are written as are counted. -/
theorem digitsOf_length {type : FormatType} {digits : List Char}
    (h : T.digitsOf val type = .ok digits) :
    digits.length = T.digitCount (T.magnitude val) type := by
  cases type with
  | c | s =>
      cases h
      rfl
  | b | B => exact binaryDigits_length h
  | d | o | x | X | p | P =>
      obtain ⟨stored, hstored, hlength⟩ := length_of_map_reverse h
      rw [← hlength]
      exact fillDigits_length _ hstored

theorem signText_length (negative : Bool) :
    (spec.signText negative).length = spec.signLength negative := by
  unfold FormatSpec.signText FormatSpec.signLength
  cases negative with
  | true => rfl
  | false => cases spec.sign <;> rfl

theorem mark_length (h : spec.type = .P → spec.sharp = true) :
    spec.mark.length = spec.markLength := by
  unfold FormatSpec.mark FormatSpec.markLength
  cases htype : spec.type <;> cases hsharp : spec.sharp <;> simp_all

theorem zeroFill_length (len : Nat) :
    (spec.zeroFill len).length + len = spec.zeroFilled len := by
  unfold FormatSpec.zeroFill FormatSpec.zeroFilled
  split
  · rw [List.length_replicate]
    omega
  · rw [List.length_nil, Nat.zero_add]

/-- The loop counts the digits of the number. -/
theorem countDigits_eq {w base : Nat} {next : BitVec w → BitVec w}
    (hnext : ∀ u, next u ≠ 0 → (next u).toNat < u.toNat) (hbase : 1 < base)
    (hdiv : ∀ u, (next u).toNat = u.toNat / base) (uval : BitVec w) :
    countDigits next hnext uval = (Numeral.digits base uval.toNat).length := by
  have hzero : ∀ u, next u = 0 ↔ u.toNat / base = 0 := by
    intro u
    rw [← hdiv, ← BitVec.toNat_inj]
    rfl
  induction uval using countDigits.induct next hnext with
  | case1 u hlast =>
      have hlt : u.toNat < base := by
        rcases Nat.div_eq_zero_iff.mp ((hzero u).mp hlast) with h | h <;> omega
      rw [countDigits, dif_pos hlast, Numeral.digits_of_lt hlt]
      rfl
  | case2 u hmore ih =>
      rw [countDigits, dif_neg hmore, ih, hdiv,
        Numeral.digits_step hbase fun h => hmore ((hzero u).mpr h), List.length_cons]

theorem emit_length {base : Nat} (hbase : spec.type.base = some base) {out : List Char}
    (hout : emit T val spec = .ok out) :
    out.length = spec.zeroFilled (spec.signLength (T.negative val) + spec.mark.length +
      T.digitCount (T.magnitude val) spec.type) := by
  rw [emit_eq T val hbase] at hout
  obtain ⟨digits, hdigits, hwritten⟩ := bind_eq_ok.mp hout
  cases hwritten
  rw [← zeroFill_length, ← digitsOf_length hdigits, ← signText_length]
  simp only [List.length_append]
  omega

theorem mesure_eq {base : Nat} (hbase : spec.type.base = some base) :
    mesure T val spec = spec.zeroFilled (spec.signLength (T.negative val) + spec.markLength +
      T.digitCount (T.magnitude val) spec.type) := by
  unfold mesure
  split
  · rename_i htype
    rw [htype] at hbase
    cases hbase
  · rename_i htype
    rw [htype] at hbase
    cases hbase
  · rfl

/-- `emit` returns unless a mask is shifted too far. -/
theorem emit_returns_iff {base : Nat} (hbase : spec.type.base = some base) :
    (∃ out, emit T val spec = .ok out) ↔
      (spec.type.Binary → (T.value val).natAbs < 2 ^ 32) := by
  have hdigits : (∃ digits, T.digitsOf val spec.type = .ok digits) ↔
      (spec.type.Binary → (T.value val).natAbs < 2 ^ 32) := by
    by_cases htype : spec.type.Binary
    · have hsize : max 1 (T.magnitude val).toNat.size ≤ 32 ↔ (T.value val).natAbs < 2 ^ 32 := by
        rw [← IntType.magnitude_toNat, ← Nat.size_le]
        omega
      simp only [htype, forall_const, digitsOf_binary T val htype, ← hsize]
      constructor
      · rintro ⟨digits, hdigits⟩
        by_contra hlarge
        rw [binaryDigits_of_gt (by omega)] at hdigits
        cases hdigits
      · intro hle
        exact ⟨_, binaryDigits_of_le hle⟩
    · obtain ⟨digits, hdigits, _⟩ := digitsOf_reads T val hbase htype
      exact iff_of_true ⟨digits, hdigits⟩ fun h => absurd h htype
  rw [← hdigits, emit_eq T val hbase]
  constructor
  · rintro ⟨out, hout⟩
    obtain ⟨digits, hdigits, _⟩ := bind_eq_ok.mp hout
    exact ⟨digits, hdigits⟩
  · rintro ⟨digits, hdigits⟩
    rw [hdigits]
    exact ⟨_, rfl⟩

/-- The condition under which an integer is measured right. No mask of a binary digit is shifted
too far, and the mark that is not measured disappears in the zeros that fill the width. -/
def IntType.Measurable (T : IntType) (val : T.Value) (spec : FormatSpec) : Prop :=
  (spec.type.Binary → (T.value val).natAbs < 2 ^ 32) ∧
    (spec.type = .P → spec.sharp = false →
      spec.zero = true ∧ (if T.value val < 0 ∨ spec.sign ≠ .minus then 1 else 0) + 2 +
        (Numeral.digits 16 (T.value val).natAbs).length ≤ spec.width.toNat)

theorem signLength_eq : spec.signLength (T.negative val) =
    if T.value val < 0 ∨ spec.sign ≠ .minus then 1 else 0 := by
  unfold FormatSpec.signLength
  simp only [← IntType.negative_iff]
  cases T.negative val <;> simp

theorem digitCount_hex : T.digitCount (T.magnitude val) .P =
    (Numeral.digits 16 (T.value val).natAbs).length := by
  rw [← IntType.magnitude_toNat]
  refine countDigits_eq _ (by decide) (fun u => ?_) _
  rw [BitVec.toNat_ushiftRight, Nat.shiftRight_eq_div_pow]

/-- The length that is measured is the one that is written, with the mark of `P` as the only
difference. -/
theorem mesure_eq_emit_iff {base : Nat} (hbase : spec.type.base = some base) {out : List Char}
    (hout : emit T val spec = .ok out) :
    out.length = mesure T val spec ↔ (spec.type = .P → spec.sharp = false →
      spec.zero = true ∧ (if T.value val < 0 ∨ spec.sign ≠ .minus then 1 else 0) + 2 +
        (Numeral.digits 16 (T.value val).natAbs).length ≤ spec.width.toNat) := by
  rw [emit_length hbase hout, mesure_eq hbase]
  by_cases hmark : spec.type = .P → spec.sharp = true
  · rw [mark_length hmark]
    refine iff_of_true rfl fun htype hsharp => ?_
    rw [hmark htype] at hsharp
    cases hsharp
  · push Not at hmark
    obtain ⟨htype, hsharp⟩ := hmark
    have hwritten : spec.mark.length = 2 := by simp [FormatSpec.mark, htype]
    have hmeasured : spec.markLength = 0 := by simp [FormatSpec.markLength, htype, hsharp]
    have hsharp' : spec.sharp = false := by simpa using hsharp
    rw [hwritten, hmeasured, signLength_eq, htype, digitCount_hex]
    simp only [FormatSpec.zeroFilled, hsharp', forall_const]
    generalize (if T.value val < 0 ∨ spec.sign ≠ .minus then 1 else 0) = sign
    cases spec.zero with
    | false =>
        simp only [Bool.false_eq_true, if_false, false_and, iff_false]
        omega
    | true =>
        have hpos : 0 < (Numeral.digits 16 (T.value val).natAbs).length := by
          unfold Numeral.digits
          split
          · simp
          · rename_i hne
            exact List.length_pos_of_ne_nil (Nat.digits_ne_nil_iff_ne_zero.mpr hne)
        simp only [if_true, true_and]
        omega

theorem measurable_iff :
    (∃ out, emit T val spec = .ok out ∧ out.length = mesure T val spec) ↔
      T.Measurable val spec := by
  cases hbase : spec.type.base with
  | none =>
      have htype : spec.type = .c ∨ spec.type = .s := by
        cases h : spec.type <;> simp_all [FormatType.base]
      have hright : T.Measurable val spec := by
        unfold IntType.Measurable FormatType.Binary
        rw [hbase]
        rcases htype with h | h <;> simp [h]
      refine iff_of_true ?_ hright
      rcases htype with h | h <;> simp [emit, mesure, h]
  | some base =>
      unfold IntType.Measurable
      rw [← emit_returns_iff hbase]
      constructor
      · rintro ⟨out, hout, hlength⟩
        exact ⟨⟨out, hout⟩, (mesure_eq_emit_iff hbase hout).mp hlength⟩
      · rintro ⟨⟨out, hout⟩, hmark⟩
        exact ⟨out, hout, (mesure_eq_emit_iff hbase hout).mpr hmark⟩

end Lengths

namespace Argument

variable {arg : Argument} {spec : ParsedSpec}

/-- The condition for any argument. -/
def Measurable (arg : Argument) (spec : ParsedSpec) : Prop :=
  match arg with
  | .string _ => True
  | .integer T val => T.Measurable val spec.toFormatSpec
  | .char val => charType.Measurable val spec.toFormatSpec
  | .pointer val => pointerType.Measurable val spec.toFormatSpec

theorem measured_iff :
    (∃ text, arg.emit spec (arg.mesure spec) = .ok text ∧ text.length = arg.mesure spec) ↔
      arg.Measurable spec := by
  cases arg with
  | string val =>
      refine iff_of_true ⟨_, rfl, ?_⟩ trivial
      have hle := val.length_le
      simp only [mesure, List.length_take]
      omega
  | integer T val => exact measurable_iff
  | char val => exact measurable_iff
  | pointer val => exact measurable_iff

/-- The padding completes a text that was measured right. -/
theorem format_eq_padded {text : List Char} (hemit : arg.emit spec (arg.mesure spec) = .ok text)
    (hlength : text.length = arg.mesure spec) : arg.format spec = .ok (spec.padded text) := by
  unfold format ParsedSpec.padded Align.split
  rw [hlength]
  simp only [hemit, bind, Except.bind, pure, Except.pure]
  split
  · cases spec.align <;> simp
  · rename_i hwide
    rw [Nat.sub_eq_zero_of_le (by omega)]
    cases spec.align <;> simp

theorem padded_length (text : List Char) :
    (spec.padded text).length = max spec.width.toNat text.length := by
  unfold ParsedSpec.padded Align.split
  cases spec.align with
  | left | right =>
      simp
      omega
  | center =>
      simp
      omega

end Argument

/-- The width of a field is honoured for a value and a parsed specification exactly if the value
is measured right: no binary digit lies beyond the bits of an `int`, and the mark of the
presentation type `P` is also asked for by `#` or disappears in the zero fill. -/
theorem width_honoured_iff (arg : Argument) (text : List Char) :
    WidthHonoured arg (parse arg.target text).1 ↔ arg.Measurable (parse arg.target text).1 := by
  rw [← Argument.measured_iff]
  constructor
  · rintro ⟨out, hemit, hlength, _⟩
    exact ⟨out, hemit, hlength⟩
  · rintro ⟨out, hemit, hlength⟩
    refine ⟨out, hemit, hlength, Argument.format_eq_padded hemit hlength, ?_⟩
    rw [Argument.padded_length, hlength]

/-- The null pointer in the format `5P` takes seven characters, not five. -/
theorem width_not_honoured :
    ¬ ∀ (arg : Argument) (text : List Char), WidthHonoured arg (parse arg.target text).1 := by
  intro hall
  obtain ⟨out, hemit, hlength, _⟩ := hall (.pointer 0#32) ['5', 'P']
  have hmeasured := Argument.measured_iff.mp ⟨out, hemit, hlength⟩
  obtain ⟨hzero, _⟩ := hmeasured.2 rfl rfl
  exact absurd hzero (by decide)

end Nyan.Lib
