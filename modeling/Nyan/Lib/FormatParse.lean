import Nyan.Lib.FormatEmit

/-!
`format_spec::parse` (`lib/format/spec.hpp`). Each stage takes its part off the front of what is
left of the text. The alignment is looked for at the first character before it is looked for
behind a fill character, and the precision is accumulated over its default, which is not zero.
-/

namespace Nyan.Lib

open Library

inductive Align where
  | left
  | right
  | center
  deriving DecidableEq, Repr

/-- What a field is formatted from. -/
inductive Target where
  | string
  | integral
  | char
  | bool
  | pointer
  deriving DecidableEq, Repr

/-- A `format_spec` after `parse`. -/
structure ParsedSpec extends FormatSpec where
  fill : Char
  align : Align
  precision : BitVec 16
  deriving DecidableEq, Repr

def Align.symbol : Align → Char
  | .left => '<'
  | .right => '>'
  | .center => '^'

def Sign.symbol : Sign → Char
  | .plus => '+'
  | .minus => '-'
  | .space => ' '

def FormatType.letter : FormatType → Char
  | .c => 'c'
  | .s => 's'
  | .b => 'b'
  | .B => 'B'
  | .d => 'd'
  | .o => 'o'
  | .x => 'x'
  | .X => 'X'
  | .p => 'p'
  | .P => 'P'

/-- The member of a list that a character stands for. -/
def bySymbol {α : Type} (symbol : α → Char) (known : List α) (c : Char) : Option α :=
  known.find? fun a => symbol a == c

/-- `is_align`. -/
def isAlign : Char → Option Align := bySymbol Align.symbol [.left, .right, .center]

/-- `is_sign`. -/
def isSign : Char → Option Sign := bySymbol Sign.symbol [.plus, .minus, .space]

def isDigit (c : Char) : Bool := '0' ≤ c && c ≤ '9'

def isChar (expected c : Char) : Option Unit := if c = expected then some () else none

namespace Target

/-- Whether the target is numeric or a pointer. -/
def hasFlags (target : Target) : Bool := target ≠ .string

/-- The presentation types that `parse_type` knows. -/
def types : Target → List FormatType
  | .string => [.s]
  | .integral | .char => [.c, .b, .B, .d, .o, .x, .X]
  | .bool => [.b, .B, .d, .o, .x, .X, .s]
  | .pointer => [.p, .P]

def defaultType : Target → FormatType
  | .string | .bool => .s
  | .integral => .d
  | .char => .c
  | .pointer => .p

end Target

/-- The alignment for a presentation type when none is given. -/
def defaultAlign (type : FormatType) : Align :=
  if type ∈ [.b, .B, .d, .o, .x, .X, .p, .P] then .right else .left

/-- `if (it != ctx.end() && …)`, where the character that is looked at is also taken. -/
def takeIf {α : Type} (accept : Char → Option α) : List Char → Option α × List Char
  | [] => (none, [])
  | c :: rest =>
      match accept c with
      | some a => (some a, rest)
      | none => (none, c :: rest)

def parseFillAlign : List Char → (Char × Option Align) × List Char
  | [] => ((' ', none), [])
  | c :: rest =>
      match isAlign c with
      | some align => ((' ', some align), rest)
      | none =>
          match takeIf isAlign rest with
          | (some align, behind) => ((c, some align), behind)
          | (none, _) => ((' ', none), c :: rest)

def parseSignSharpZero (align : Option Align) (text : List Char) :
    (Sign × Bool × Bool) × List Char :=
  let (sign, text) := takeIf isSign text
  let (sharp, text) := takeIf (isChar '#') text
  let (zero, text) := takeIf (isChar '0') text
  ((sign.getD .minus, sharp.isSome, zero.isSome && align.isNone), text)

/-- The loop that takes digits into a number of 16 bits. -/
def takeDigits (number : BitVec 16) : List Char → BitVec 16 × List Char
  | [] => (number, [])
  | c :: rest =>
      if isDigit c then
        takeDigits (number * 10 + BitVec.ofNat 16 (c.toNat - '0'.toNat)) rest
      else
        (number, c :: rest)

def parseWidthPrecision (text : List Char) : (BitVec 16 × BitVec 16) × List Char :=
  let (width, text) := takeDigits 0 text
  match text with
  | '.' :: digit :: rest =>
      if isDigit digit then
        let (precision, text) := takeDigits 0xFFFF#16 (digit :: rest)
        ((width, precision), text)
      else
        ((width, 0xFFFF#16), text)
  | text => ((width, 0xFFFF#16), text)

def parseType (target : Target) (text : List Char) : FormatType × List Char :=
  let (type, text) := takeIf (bySymbol FormatType.letter target.types) text
  (type.getD target.defaultType, text)

def parse (target : Target) (text : List Char) : ParsedSpec × List Char :=
  let ((fill, align), text) := parseFillAlign text
  let ((sign, sharp, zero), text) :=
    if target.hasFlags then parseSignSharpZero align text else ((.minus, false, false), text)
  let ((width, precision), text) := parseWidthPrecision text
  let (type, text) := parseType target text
  ({ sign, sharp, zero, width, type, fill, align := align.getD (defaultAlign type), precision },
    text)

/-! ### The texts of the documented form -/

/-- A decimal numeral below 65536. -/
structure SpecNumeral where
  digits : List (Fin 10)
  nonempty : digits ≠ []
  small : digits.foldl (fun n d => n * 10 + d.val) 0 < 65536

namespace SpecNumeral

def value (n : SpecNumeral) : Nat := n.digits.foldl (fun n d => n * 10 + d.val) 0

def text (n : SpecNumeral) : List Char := n.digits.map fun d => decimalDigit d.val

end SpecNumeral

/-- `[[fill]align][sign][#][0][width][.precision][type]`. A zero in front of the width is the flag
where there are flags. -/
structure SpecForm (target : Target) where
  align : Option (Option Char × Align)
  sign : Option Sign
  sharp : Bool
  zero : Bool
  width : Option SpecNumeral
  precision : Option SpecNumeral
  type : Option FormatType
  flags : target.hasFlags = false → sign = none ∧ sharp = false ∧ zero = false
  width_begins : target.hasFlags = true → zero = false → ∀ n ∈ width, n.digits.head? ≠ some 0
  type_known : ∀ t ∈ type, t ∈ target.types

namespace SpecForm

variable {target : Target}

def fill (form : SpecForm target) : Option Char := form.align.bind Prod.fst

def widthText (form : SpecForm target) : List Char := (form.width.map SpecNumeral.text).getD []

def precisionText (form : SpecForm target) : List Char :=
  match form.precision with
  | none => []
  | some n => '.' :: n.text

def typeText (form : SpecForm target) : List Char := (form.type.map FormatType.letter).toList

def flagText (form : SpecForm target) : List Char :=
  (form.sign.map Sign.symbol).toList ++
    (if form.sharp then ['#'] else []) ++ if form.zero then ['0'] else []

/-- What stands behind the alignment. -/
def body (form : SpecForm target) : List Char :=
  form.flagText ++ (form.widthText ++ (form.precisionText ++ form.typeText))

def text (form : SpecForm target) : List Char :=
  match form.align with
  | none => form.body
  | some (none, align) => align.symbol :: form.body
  | some (some fill, align) => fill :: align.symbol :: form.body

/-- The fields that a text of the form denotes. -/
def denoted (form : SpecForm target) : ParsedSpec where
  fill := form.fill.getD ' '
  align := (form.align.map Prod.snd).getD
    (defaultAlign (form.type.getD target.defaultType))
  sign := form.sign.getD .minus
  sharp := form.sharp
  zero := form.zero && form.align.isNone
  width := BitVec.ofNat 16 ((form.width.map SpecNumeral.value).getD 0)
  precision := BitVec.ofNat 16 ((form.precision.map SpecNumeral.value).getD 0xFFFF)
  type := form.type.getD target.defaultType

end SpecForm

section Stages

variable {α : Type} {p : Char → Prop} {xs ys rest : List Char}

/-- A text is empty or its first character has a property. -/
def Begins (p : Char → Prop) (text : List Char) : Prop := ∀ c ∈ text.head?, p c

theorem begins_cons {c : Char} : Begins p (c :: rest) ↔ p c := by
  simp [Begins]

theorem begins_nil : Begins p [] := by
  simp [Begins]

theorem Begins.append (hxs : Begins p xs) (hys : Begins p ys) : Begins p (xs ++ ys) := by
  cases xs with
  | nil => exact hys
  | cons c xs => exact begins_cons.mpr (begins_cons.mp hxs)

theorem Begins.of_forall (h : ∀ c ∈ xs, p c) : Begins p xs := by
  intro c hc
  exact h c (List.mem_of_mem_head? hc)

theorem takeIf_refused {accept : Char → Option α} (h : Begins (accept · = none) rest) :
    takeIf accept rest = (none, rest) := by
  cases rest with
  | nil => rfl
  | cons c rest => simp [takeIf, begins_cons.mp h]

/-- A part that may be missing is taken if it is there. -/
theorem takeIf_optional {accept : Char → Option α} {symbol : α → Char} {part : Option α}
    (hpart : ∀ a ∈ part, accept (symbol a) = some a) (hrest : Begins (accept · = none) rest) :
    takeIf accept ((part.map symbol).toList ++ rest) = (part, rest) := by
  cases part with
  | none => exact takeIf_refused hrest
  | some a => simp [takeIf, hpart a rfl]

theorem takeIf_flag {symbol : Char} {flag : Bool}
    (hrest : flag = false → Begins (isChar symbol · = none) rest) :
    takeIf (isChar symbol) ((if flag then [symbol] else []) ++ rest) =
      (if flag then some () else none, rest) := by
  cases flag with
  | false => exact takeIf_refused (hrest rfl)
  | true => simp [takeIf, isChar]

theorem isDigit_decimalDigit : ∀ d : Fin 10, isDigit (decimalDigit d.val) = true := by
  decide

theorem decimalDigit_sub : ∀ d : Fin 10, (decimalDigit d.val).toNat - '0'.toNat = d.val := by
  decide

/-- The loop reads a numeral over the number it starts with, modulo `2 ^ 16`. -/
theorem takeDigits_numeral (digits : List (Fin 10)) (start : Nat)
    (hrest : Begins (isDigit · = false) rest) :
    takeDigits (BitVec.ofNat 16 start) (digits.map (fun d => decimalDigit d.val) ++ rest) =
      (BitVec.ofNat 16 (digits.foldl (fun n d => n * 10 + d.val) start), rest) := by
  induction digits generalizing start with
  | nil =>
      cases rest with
      | nil => rfl
      | cons c rest => simp [takeDigits, begins_cons.mp hrest]
  | cons d digits ih =>
      have hstep : BitVec.ofNat 16 start * 10 + BitVec.ofNat 16 d.val =
          BitVec.ofNat 16 (start * 10 + d.val) := by
        rw [BitVec.ofNat_add, BitVec.ofNat_mul]
        rfl
      simp only [List.map_cons, List.cons_append, takeDigits, isDigit_decimalDigit,
        decimalDigit_sub, hstep, if_true, List.foldl_cons]
      exact ih _

theorem foldl_digits (digits : List (Fin 10)) (start : Nat) :
    digits.foldl (fun n d => n * 10 + d.val) start =
      start * 10 ^ digits.length + digits.foldl (fun n d => n * 10 + d.val) 0 := by
  induction digits generalizing start with
  | nil => simp
  | cons d digits ih =>
      rw [List.foldl_cons, List.foldl_cons, ih, ih (0 * 10 + d.val), List.length_cons, pow_succ']
      ring

/-- What is left of the default is shifted out by sixteen digits, and by no fewer. -/
theorem precision_eq_iff (n : SpecNumeral) :
    BitVec.ofNat 16 (n.digits.foldl (fun n d => n * 10 + d.val) 0xFFFF) =
      BitVec.ofNat 16 n.value ↔ 16 ≤ n.digits.length := by
  have hdvd : 2 ^ 16 ∣ 0xFFFF * 10 ^ n.digits.length ↔ 16 ≤ n.digits.length := by
    have hten : 10 ^ n.digits.length = 2 ^ n.digits.length * 5 ^ n.digits.length :=
      Nat.mul_pow 2 5 _
    have hfive : Nat.Coprime (2 ^ 16) (5 ^ n.digits.length) := by
      apply Nat.Coprime.pow
      decide
    rw [Nat.Coprime.dvd_mul_left (by decide), hten, hfive.dvd_mul_right,
      Nat.pow_dvd_pow_iff_le_right (by decide)]
  rw [foldl_digits, ← hdvd, ← BitVec.toNat_inj, BitVec.toNat_ofNat, BitVec.toNat_ofNat]
  unfold SpecNumeral.value
  omega

theorem bySymbol_eq_some {symbol : α → Char} {known : List α} {a : α}
    (hinj : Function.Injective symbol) (ha : a ∈ known) :
    bySymbol symbol known (symbol a) = some a := by
  have hsome : (known.find? fun b => symbol b == symbol a).isSome := by
    rw [List.find?_isSome]
    exact ⟨a, ha, by simp⟩
  obtain ⟨b, hb⟩ := Option.isSome_iff_exists.mp hsome
  have heq : symbol b = symbol a := by simpa using List.find?_some hb
  rw [bySymbol, hb, hinj heq]

theorem letter_injective : Function.Injective FormatType.letter := by
  intro type other
  cases type <;> cases other <;> decide

theorem isSign_symbol : ∀ sign : Sign, isSign sign.symbol = some sign := by
  intro sign
  cases sign <;> rfl

theorem isAlign_symbol : ∀ align : Align, isAlign align.symbol = some align := by
  intro align
  cases align <;> rfl

end Stages

section Forms

variable {target : Target} (form : SpecForm target) {p : Char → Prop}

namespace SpecForm

theorem forall_typeText (h : ∀ type : FormatType, p type.letter) :
    ∀ c ∈ form.typeText, p c := by
  intro c hc
  obtain ⟨type, _, rfl⟩ : ∃ type, form.type = some type ∧ type.letter = c := by
    simpa [typeText] using hc
  exact h type

theorem forall_widthText (h : ∀ d : Fin 10, p (decimalDigit d.val)) :
    ∀ c ∈ form.widthText, p c := by
  unfold widthText
  cases form.width with
  | none => simp
  | some n => simpa [SpecNumeral.text] using fun d _ => h d

theorem forall_precisionText (hdot : p '.') (h : ∀ d : Fin 10, p (decimalDigit d.val)) :
    ∀ c ∈ form.precisionText, p c := by
  unfold precisionText
  cases form.precision with
  | none => simp
  | some n => simpa [SpecNumeral.text, hdot] using fun d _ => h d

theorem begins_precision_type (hdot : p '.') (htype : ∀ type : FormatType, p type.letter) :
    Begins p (form.precisionText ++ form.typeText) := by
  refine Begins.append ?_ (Begins.of_forall (form.forall_typeText htype))
  unfold precisionText
  cases form.precision with
  | none => exact begins_nil
  | some n => exact begins_cons.mpr hdot

theorem begins_width (hdot : p '.') (htype : ∀ type : FormatType, p type.letter)
    (hdigit : ∀ d : Fin 10, p (decimalDigit d.val)) :
    Begins p (form.widthText ++ (form.precisionText ++ form.typeText)) :=
  Begins.append (Begins.of_forall (form.forall_widthText hdigit))
    (form.begins_precision_type hdot htype)

theorem isAlign_body : ∀ c ∈ form.body, isAlign c = none := by
  have hdigit : ∀ d : Fin 10, isAlign (decimalDigit d.val) = none := by decide
  have hsign : ∀ sign : Sign, isAlign sign.symbol = none := by
    intro sign
    cases sign <;> rfl
  have htype : ∀ type : FormatType, isAlign type.letter = none := by
    intro type
    cases type <;> rfl
  intro c hc
  simp only [body, flagText, List.mem_append] at hc
  rcases hc with ((hc | hc) | hc) | hc | hc | hc
  · obtain ⟨sign, _, rfl⟩ : ∃ sign, form.sign = some sign ∧ sign.symbol = c := by
      simpa using hc
    exact hsign sign
  · obtain ⟨_, rfl⟩ : form.sharp = true ∧ c = '#' := by simpa using hc
    rfl
  · obtain ⟨_, rfl⟩ : form.zero = true ∧ c = '0' := by simpa using hc
    rfl
  · exact form.forall_widthText (p := (isAlign · = none)) hdigit c hc
  · exact form.forall_precisionText (p := (isAlign · = none)) rfl hdigit c hc
  · exact form.forall_typeText (p := (isAlign · = none)) htype c hc

/-- The fill and the alignment are found, unless the fill is itself an alignment. -/
theorem parseFillAlign_text (hfill : ∀ c ∈ form.fill, isAlign c = none) :
    parseFillAlign form.text =
      ((form.fill.getD ' ', form.align.map Prod.snd), form.body) := by
  have hbody := form.isAlign_body
  unfold fill at hfill ⊢
  unfold text
  match halign : form.align with
  | none =>
      cases hcs : form.body with
      | nil => rfl
      | cons c rest =>
          rw [hcs] at hbody
          obtain ⟨hc, hrest⟩ := List.forall_mem_cons.mp hbody
          have hnone : takeIf isAlign rest = (none, rest) :=
            takeIf_refused (Begins.of_forall hrest)
          simp [parseFillAlign, hc, hnone]
  | some (none, align) => simp [parseFillAlign, isAlign_symbol]
  | some (some c, align) =>
      have hc : isAlign c = none := hfill c (by rw [halign]; rfl)
      simp [parseFillAlign, hc, takeIf, isAlign_symbol]

/-- No stage of the grammar begins with a letter, but the last. -/
theorem letter_refused (type : FormatType) :
    isSign type.letter = none ∧ isChar '#' type.letter = none ∧ isChar '0' type.letter = none ∧
      isDigit type.letter = false := by
  cases type <;> decide

theorem parseSignSharpZero_body (htarget : target.hasFlags = true) (align : Option Align) :
    parseSignSharpZero align form.body =
      ((form.sign.getD .minus, form.sharp, form.zero && align.isNone),
        form.widthText ++ (form.precisionText ++ form.typeText)) := by
  have hwidth : form.zero = false →
      Begins (isChar '0' · = none)
        (form.widthText ++ (form.precisionText ++ form.typeText)) := by
    intro hzero
    refine Begins.append ?_
      (form.begins_precision_type rfl fun type => (letter_refused type).2.2.1)
    have hhead := form.width_begins htarget hzero
    unfold widthText
    cases hform : form.width with
    | none => exact begins_nil
    | some n =>
        intro c hc
        obtain ⟨d, hd, rfl⟩ : ∃ d, n.digits.head? = some d ∧ decimalDigit d.val = c := by
          simpa [SpecNumeral.text] using hc
        have hne : d ≠ 0 := fun h => hhead n hform (h ▸ hd)
        have hdigit : ∀ d : Fin 10, d ≠ 0 → isChar '0' (decimalDigit d.val) = none := by decide
        exact hdigit d hne
  have hzero := takeIf_flag hwidth
  have hafter : Begins (isChar '#' · = none) ((if form.zero then ['0'] else []) ++
      (form.widthText ++ (form.precisionText ++ form.typeText))) := by
    refine Begins.append ?_ (form.begins_width rfl (fun type => (letter_refused type).2.1)
      (by decide))
    cases form.zero with
    | false => exact begins_nil
    | true => exact begins_cons.mpr rfl
  have hsharp : takeIf (isChar '#') ((if form.sharp then ['#'] else []) ++ _) = _ :=
    takeIf_flag fun _ => hafter
  have hflags : Begins (isSign · = none) ((if form.sharp then ['#'] else []) ++
      ((if form.zero then ['0'] else []) ++
        (form.widthText ++ (form.precisionText ++ form.typeText)))) := by
    refine Begins.append ?_ (Begins.append ?_
      (form.begins_width rfl (fun type => (letter_refused type).1) (by decide)))
    · cases form.sharp with
      | false => exact begins_nil
      | true => exact begins_cons.mpr rfl
    · cases form.zero with
      | false => exact begins_nil
      | true => exact begins_cons.mpr rfl
  have hsign : takeIf isSign ((form.sign.map Sign.symbol).toList ++ _) = _ :=
    takeIf_optional (fun sign _ => isSign_symbol sign) hflags
  unfold parseSignSharpZero body flagText
  simp only [List.append_assoc, hsign, hsharp, hzero]
  cases form.sharp <;> cases form.zero <;> rfl

/-- The precision that is stored. -/
def storedPrecision : BitVec 16 :=
  match form.precision with
  | none => 0xFFFF#16
  | some n => BitVec.ofNat 16 (n.digits.foldl (fun n d => n * 10 + d.val) 0xFFFF)

theorem parseWidthPrecision_text :
    parseWidthPrecision (form.widthText ++ (form.precisionText ++ form.typeText)) =
      ((form.denoted.width, form.storedPrecision), form.typeText) := by
  have htype : Begins (isDigit · = false) form.typeText :=
    Begins.of_forall (form.forall_typeText fun type => (letter_refused type).2.2.2)
  have hbehind : Begins (isDigit · = false) (form.precisionText ++ form.typeText) :=
    form.begins_precision_type rfl fun type => (letter_refused type).2.2.2
  have hwidth : takeDigits 0 (form.widthText ++ (form.precisionText ++ form.typeText)) =
      (form.denoted.width, form.precisionText ++ form.typeText) := by
    unfold widthText denoted
    cases form.width with
    | none => exact takeDigits_numeral [] 0 hbehind
    | some n => exact takeDigits_numeral n.digits 0 hbehind
  unfold parseWidthPrecision
  rw [hwidth]
  unfold precisionText storedPrecision
  cases form.precision with
  | none =>
      unfold typeText
      cases form.type with
      | none => rfl
      | some type => cases type <;> rfl
  | some n =>
      have hdigits := takeDigits_numeral n.digits 0xFFFF htype
      obtain ⟨d, rest, hn⟩ := List.exists_cons_of_ne_nil n.nonempty
      rw [hn] at hdigits
      simp only [SpecNumeral.text, hn, List.map_cons, List.cons_append, isDigit_decimalDigit,
        if_true] at hdigits ⊢
      rw [hdigits]

theorem parseType_text :
    parseType target form.typeText = (form.type.getD target.defaultType, []) := by
  have htake : takeIf (bySymbol FormatType.letter target.types)
      ((form.type.map FormatType.letter).toList ++ []) = (form.type, []) :=
    takeIf_optional
      (fun type htype => bySymbol_eq_some letter_injective (form.type_known type htype)) begins_nil
  rw [List.append_nil] at htake
  rw [parseType, typeText, htake]

/-- What the parse gives when the fill is no alignment: all is as denoted, but the precision. -/
theorem parse_text (hfill : ∀ c ∈ form.fill, isAlign c = none) :
    parse target form.text = ({ form.denoted with precision := form.storedPrecision }, []) := by
  unfold parse
  rw [form.parseFillAlign_text hfill]
  have hflags : (if target.hasFlags then
        parseSignSharpZero (form.align.map Prod.snd) form.body
      else ((.minus, false, false), form.body)) =
      ((form.sign.getD .minus, form.sharp, form.zero && form.align.isNone),
        form.widthText ++ (form.precisionText ++ form.typeText)) := by
    split
    · rename_i htarget
      rw [form.parseSignSharpZero_body htarget, Option.isNone_map]
    · rename_i htarget
      obtain ⟨hsign, hsharp, hzero⟩ := form.flags (by simpa using htarget)
      simp [body, flagText, hsign, hsharp, hzero]
  simp only [hflags, form.parseWidthPrecision_text, form.parseType_text]
  rfl

/-- An alignment in the place of the fill ends the parse before the alignment. -/
theorem parse_rest_of_fill {c : Char} (hfill : form.fill = some c) (hc : isAlign c ≠ none) :
    (parse target form.text).2 ≠ [] := by
  obtain ⟨first, hfirst⟩ := Option.ne_none_iff_exists'.mp hc
  obtain ⟨align, halign⟩ : ∃ align, form.align = some (some c, align) := by
    obtain ⟨⟨first, align⟩, halign, hfirst⟩ := Option.bind_eq_some_iff.mp hfill
    cases hfirst
    exact ⟨align, halign⟩
  have hrefused : isSign align.symbol = none ∧ isChar '#' align.symbol = none ∧
      isChar '0' align.symbol = none ∧ isDigit align.symbol = false ∧ align.symbol ≠ '.' ∧
      bySymbol FormatType.letter target.types align.symbol = none := by
    cases align <;> cases target <;> decide
  obtain ⟨hsign, hsharp, hzero, hdigit, hdot, htype⟩ := hrefused
  have hfront : parseFillAlign form.text =
      ((' ', some first), align.symbol :: form.body) := by
    simp [text, halign, parseFillAlign, hfirst]
  have hwidth : parseWidthPrecision (align.symbol :: form.body) =
      ((0, 0xFFFF#16), align.symbol :: form.body) := by
    cases align <;> rfl
  have hflags : (if target.hasFlags then
        parseSignSharpZero (some first) (align.symbol :: form.body)
      else ((.minus, false, false), align.symbol :: form.body)) =
      ((.minus, false, false), align.symbol :: form.body) := by
    simp [parseSignSharpZero, takeIf, hsign, hsharp, hzero]
  simp [parse, hfront, hflags, hwidth, parseType, takeIf, htype]

theorem storedPrecision_eq_iff :
    form.storedPrecision = form.denoted.precision ↔
      ∀ n ∈ form.precision, 16 ≤ n.digits.length := by
  unfold storedPrecision denoted
  cases form.precision with
  | none => simp
  | some n => simpa using precision_eq_iff n

end SpecForm

/-- A text of the documented form parses to what it denotes exactly if the fill is not itself an
alignment, and the precision, if there is one, has at least sixteen digits. -/
theorem parse_denoted_iff :
    parse target form.text = (form.denoted, []) ↔
      (∀ c ∈ form.fill, isAlign c = none) ∧ ∀ n ∈ form.precision, 16 ≤ n.digits.length := by
  by_cases hfill : ∀ c ∈ form.fill, isAlign c = none
  · rw [form.parse_text hfill, ← form.storedPrecision_eq_iff, Prod.mk.injEq]
    simp only [and_true]
    constructor
    · intro heq
      exact ⟨hfill, congrArg ParsedSpec.precision heq⟩
    · rintro ⟨_, hprecision⟩
      rw [hprecision]
  · refine iff_of_false (fun heq => ?_) (fun h => hfill h.1)
    push Not at hfill
    obtain ⟨c, hc, halign⟩ := hfill
    exact form.parse_rest_of_fill hc halign (congrArg Prod.snd heq)

end Forms

/-- The text ".5" for a string: the field is cut off after 65531 characters, not after five. -/
theorem parse_precision_wrong :
    ¬ ∀ (target : Target) (form : SpecForm target),
      parse target form.text = (form.denoted, []) := by
  intro hall
  let five : SpecNumeral := ⟨[5], by decide, by decide⟩
  let form : SpecForm .string :=
    ⟨none, none, false, false, none, some five, none, by decide, by decide, by simp⟩
  have hprecision := congrArg (fun result => result.1.precision) (hall .string form)
  exact absurd hprecision (by decide)

end Nyan.Lib
