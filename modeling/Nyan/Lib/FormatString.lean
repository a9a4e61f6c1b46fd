import Mathlib.Tactic
import Nyan.Library.Outcome

/-!
Format strings (`lib/format.hpp`). The same little language is scanned twice: by `check`, when
a format string is compiled, and by `format_to`. Both replace fields and know the two doubled
braces, but `format_to` does not step over the second of two closing braces: what it then sees
is a closing brace of its own.
-/

namespace Nyan.Lib

open Library

/-- The calls of `__throw_format_error`. -/
inductive FormatError where
  | missingBrace
  | missingSecondBrace
  | specNotConsumed
  | notEnoughArgs
  deriving DecidableEq, Repr

variable {F : Type}

/-- The scan for the closing brace of a field: what stands before it and behind it. -/
def splitField : List Char → Option (List Char × List Char)
  | [] => none
  | c :: rest =>
      if c = '\x7d' then some ([], rest)
      else (splitField rest).map fun (spec, behind) => (c :: spec, behind)

theorem splitField_eq_some {sv spec behind : List Char}
    (h : splitField sv = some (spec, behind)) :
    sv = spec ++ '\x7d' :: behind ∧ '\x7d' ∉ spec := by
  induction sv generalizing spec with
  | nil => cases h
  | cons c rest ih =>
      unfold splitField at h
      split at h
      · rename_i hc
        obtain ⟨rfl, rfl⟩ := Prod.mk.inj (Option.some.inj h)
        simp [hc]
      · rename_i hc
        obtain ⟨⟨spec', behind'⟩, hrest, heq⟩ := Option.map_eq_some_iff.mp h
        obtain ⟨rfl, rfl⟩ := Prod.mk.inj heq
        obtain ⟨rfl, hspec⟩ := ih hrest
        exact ⟨rfl, by simp [hspec, Ne.symm hc]⟩

theorem splitField_append {spec behind : List Char} (h : '\x7d' ∉ spec) :
    splitField (spec ++ '\x7d' :: behind) = some (spec, behind) := by
  induction spec with
  | nil => simp [splitField]
  | cons c rest ih =>
      simp only [List.mem_cons, not_or] at h
      simp [splitField, Ne.symm h.1, ih h.2]

theorem splitField_length {sv spec behind : List Char}
    (h : splitField sv = some (spec, behind)) : behind.length < sv.length := by
  obtain ⟨rfl, _⟩ := splitField_eq_some h
  simp
  omega

/-- `check_arg`, for the argument with the given index. A formatter that does not consume all
of the specification has no value. -/
def checkArg (parse : Nat → List Char → Option F) (args index : Nat) (spec : List Char) :
    Except FormatError F :=
  if index < args then
    match parse index spec with
    | some formatter => .ok formatter
    | none => .error .specNotConsumed
  else
    .error .notEnoughArgs

/-- `check`: the formatters of the arguments that have a field. -/
def check (parse : Nat → List Char → Option F) (args : Nat) :
    Nat → List Char → Except FormatError (List F)
  | index, [] => if args < index then .error .notEnoughArgs else .ok []
  | index, c :: rest =>
      if args < index then
        .error .notEnoughArgs
      else if c = '\x7b' then
        match rest with
        | [] => .error .missingBrace
        | next :: rest' =>
            if next = '\x7b' then
              check parse args index rest'
            else
              match _h : splitField (next :: rest') with
              | none => .error .missingBrace
              | some (spec, behind) => do
                  let formatter ← checkArg parse args index spec
                  let formatters ← check parse args (index + 1) behind
                  return formatter :: formatters
      else if c = '\x7d' then
        match rest with
        | [] => .error .missingSecondBrace
        | next :: rest' =>
            if next = '\x7d' then check parse args index rest' else .error .missingSecondBrace
      else
        check parse args index rest
termination_by _ sv => sv.length
decreasing_by
  · simp
  · have hshort := splitField_length _h
    simp only [List.length_cons] at hshort ⊢
    omega
  · simp
  · simp

/-- `format_to`, from the field with the given number on. After two closing braces the loop
goes on with the second of them. -/
def formatTo (render : Nat → F → List Char) (formatters : List F) :
    Nat → List Char → Except FormatError (List Char)
  | _, [] => .ok []
  | count, c :: rest =>
      if c = '\x7b' then
        match rest with
        | [] => .error .missingBrace
        | next :: rest' =>
            if next = '\x7b' then do
              return '\x7b' :: (← formatTo render formatters count rest')
            else
              match _h : splitField (next :: rest') with
              | none => .error .missingBrace
              | some (_, behind) => do
                  let text := (formatters[count]?.map (render count)).getD []
                  return text ++ (← formatTo render formatters (count + 1) behind)
      else if c = '\x7d' then
        match rest with
        | [] => .error .missingSecondBrace
        | next :: rest' =>
            if next = '\x7d' then do
              return '\x7d' :: (← formatTo render formatters count (next :: rest'))
            else
              .error .missingSecondBrace
      else do
        return c :: (← formatTo render formatters count rest)
termination_by _ sv => sv.length
decreasing_by
  · simp
  · have hshort := splitField_length _h
    simp only [List.length_cons] at hshort ⊢
    omega
  · simp
  · simp

/-! ### The language of format strings -/

/-- What a format string consists of. -/
inductive Piece where
  | char (c : Char)
  | openBrace
  | closeBrace
  | field (spec : List Char)
  deriving DecidableEq, Repr

namespace Piece

/-- How a piece is written. -/
def text : Piece → List Char
  | .char c => [c]
  | .openBrace => ['\x7b', '\x7b']
  | .closeBrace => ['\x7d', '\x7d']
  | .field spec => '\x7b' :: spec ++ ['\x7d']

/-- A character that is copied is no brace; a field ends at the first closing brace and does
not begin with an opening one. -/
def Proper : Piece → Prop
  | .char c => c ≠ '\x7b' ∧ c ≠ '\x7d'
  | .openBrace | .closeBrace => True
  | .field spec => '\x7d' ∉ spec ∧ spec.head? ≠ some '\x7b'

end Piece

def write (pieces : List Piece) : List Char := pieces.flatMap Piece.text

/-- What the output should be, from the field with the given number on: each field is the text
of the argument that its own specification gives. -/
def expected (parse : Nat → List Char → Option F) (render : Nat → F → List Char) :
    Nat → List Piece → List Char
  | _, [] => []
  | count, .char c :: rest => c :: expected parse render count rest
  | count, .openBrace :: rest => '\x7b' :: expected parse render count rest
  | count, .closeBrace :: rest => '\x7d' :: expected parse render count rest
  | count, .field spec :: rest =>
      ((parse count spec).map (render count)).getD [] ++ expected parse render (count + 1) rest

section Scans

variable {parse : Nat → List Char → Option F} {render : Nat → F → List Char} {args index : Nat}
  {formatters : List F} {sv : List Char}

/-- What a scanner sees behind the opening brace of a field. -/
theorem field_begins {spec : List Char} (hspec : (Piece.field spec).Proper) (rest : List Char) :
    ∃ next rest', (Piece.field spec).text ++ rest = '\x7b' :: next :: rest' ∧ next ≠ '\x7b' ∧
      splitField (next :: rest') = some (spec, rest) := by
  obtain ⟨hclose, hopen⟩ := hspec
  have hsplit : splitField (spec ++ '\x7d' :: rest) = some (spec, rest) := splitField_append hclose
  cases spec with
  | nil => exact ⟨'\x7d', rest, rfl, by decide, hsplit⟩
  | cons c spec =>
      exact ⟨c, spec ++ '\x7d' :: rest, by simp [Piece.text], by simpa using hopen, hsplit⟩

/-- What `check` accepts is made of pieces. -/
theorem check_pieces (h : check parse args index sv = .ok formatters) :
    ∃ pieces, (∀ p ∈ pieces, p.Proper) ∧ sv = write pieces := by
  have hcons : ∀ {p : Piece} {rest : List Char}, p.Proper →
      (∃ pieces, (∀ p ∈ pieces, p.Proper) ∧ rest = write pieces) →
      ∃ pieces, (∀ p ∈ pieces, p.Proper) ∧ p.text ++ rest = write pieces := by
    rintro p rest hp ⟨pieces, hproper, rfl⟩
    exact ⟨p :: pieces, List.forall_mem_cons.mpr ⟨hp, hproper⟩, by simp [write]⟩
  fun_induction check parse args index sv generalizing formatters with
  | case1 | case3 | case4 | case6 | case8 | case10 => cases h
  | case2 => exact ⟨[], by simp, rfl⟩
  | case5 index hindex rest ih => exact hcons (p := .openBrace) trivial (ih h)
  | case7 index hindex c rest hc spec behind hsplit ih =>
      obtain ⟨formatter, _, h⟩ := bind_eq_ok.mp h
      obtain ⟨formatters, hbehind, _⟩ := bind_eq_ok.mp h
      obtain ⟨htext, hclose⟩ := splitField_eq_some hsplit
      have hopen : spec.head? ≠ some '\x7b' := by
        cases spec with
        | nil => simp
        | cons d spec =>
            obtain rfl : c = d := (List.cons.inj htext).1
            simpa using hc
      have hfield := hcons (p := .field spec) ⟨hclose, hopen⟩ (ih hbehind)
      rw [htext]
      simpa [Piece.text] using hfield
  | case9 index hindex rest _ ih => exact hcons (p := .closeBrace) trivial (ih h)
  | case11 index c rest hindex hopen hclose ih => exact hcons (p := .char c) ⟨hopen, hclose⟩ (ih h)

theorem check_field {spec rest : List Char} (hspec : (Piece.field spec).Proper)
    (hindex : ¬ args < index) :
    check parse args index ((Piece.field spec).text ++ rest) = do
      let formatter ← checkArg parse args index spec
      let formatters ← check parse args (index + 1) rest
      return formatter :: formatters := by
  obtain ⟨next, rest', htext, hnext, hsplit⟩ := field_begins hspec rest
  rw [htext, check, if_neg hindex, if_pos rfl]
  simp only [if_neg hnext]
  split
  · rename_i hnone
    cases hnone.symm.trans hsplit
  · rename_i spec' behind hsome
    obtain ⟨rfl, rfl⟩ := Prod.mk.inj (Option.some.inj (hsome.symm.trans hsplit))
    rfl

theorem formatTo_field {spec rest : List Char} (hspec : (Piece.field spec).Proper) (count : Nat) :
    formatTo render formatters count ((Piece.field spec).text ++ rest) = do
      return (formatters[count]?.map (render count)).getD [] ++
        (← formatTo render formatters (count + 1) rest) := by
  obtain ⟨next, rest', htext, hnext, hsplit⟩ := field_begins hspec rest
  rw [htext, formatTo, if_pos rfl]
  simp only [if_neg hnext]
  split
  · rename_i hnone
    cases hnone.symm.trans hsplit
  · rename_i spec' behind hsome
    obtain ⟨rfl, rfl⟩ := Prod.mk.inj (Option.some.inj (hsome.symm.trans hsplit))
    rfl

theorem not_lt_of_check (h : check parse args index sv = .ok formatters) : ¬ args < index := by
  intro hlt
  rw [check.eq_def] at h
  cases sv <;> simp [hlt] at h

theorem check_char {c : Char} (hc : (Piece.char c).Proper) (hindex : ¬ args < index) :
    check parse args index (c :: sv) = check parse args index sv := by
  rw [check.eq_def]
  simp only [if_neg hindex, if_neg hc.1, if_neg hc.2]

theorem check_open (hindex : ¬ args < index) :
    check parse args index ('\x7b' :: '\x7b' :: sv) = check parse args index sv := by
  simp [check, hindex]

theorem formatTo_char {c : Char} (hc : (Piece.char c).Proper) (count : Nat) :
    formatTo render formatters count (c :: sv) = do
      return c :: (← formatTo render formatters count sv) := by
  rw [formatTo.eq_def]
  simp only [if_neg hc.1, if_neg hc.2]

theorem formatTo_open (count : Nat) :
    formatTo render formatters count ('\x7b' :: '\x7b' :: sv) = do
      return '\x7b' :: (← formatTo render formatters count sv) := by
  simp [formatTo]

/-- The second closing brace is scanned again. -/
theorem formatTo_close (count : Nat) :
    formatTo render formatters count ('\x7d' :: '\x7d' :: sv) = do
      return '\x7d' :: (← formatTo render formatters count ('\x7d' :: sv)) := by
  rw [formatTo]
  simp

variable {pieces : List Piece}

/-- Without a closing escape the output is as expected. -/
theorem formatTo_eq_expected (hproper : ∀ p ∈ pieces, p.Proper) (hnone : .closeBrace ∉ pieces)
    {parsed : List F} (hcheck : check parse args index (write pieces) = .ok parsed)
    (hparsed : ∀ k, formatters[index + k]? = parsed[k]?) :
    formatTo render formatters index (write pieces) = .ok (expected parse render index pieces) := by
  have hindex := not_lt_of_check hcheck
  induction pieces generalizing index parsed with
  | nil => simp [write, formatTo, expected]
  | cons p pieces ih =>
      obtain ⟨hp, hrest⟩ := List.forall_mem_cons.mp hproper
      simp only [List.mem_cons, not_or] at hnone
      have hwrite : write (p :: pieces) = p.text ++ write pieces := by simp [write]
      rw [hwrite] at hcheck ⊢
      cases p with
      | char c =>
          have hcheck' : check parse args index (c :: write pieces) = .ok parsed := hcheck
          rw [check_char hp hindex] at hcheck'
          have htail := ih hrest hnone.2 hcheck' hparsed hindex
          change formatTo render formatters index (c :: write pieces) = _
          rw [formatTo_char hp, htail]
          rfl
      | openBrace =>
          have hcheck' : check parse args index ('\x7b' :: '\x7b' :: write pieces) = .ok parsed :=
            hcheck
          rw [check_open hindex] at hcheck'
          have htail := ih hrest hnone.2 hcheck' hparsed hindex
          change formatTo render formatters index ('\x7b' :: '\x7b' :: write pieces) = _
          rw [formatTo_open, htail]
          rfl
      | closeBrace => exact absurd rfl hnone.1
      | field spec =>
          rw [check_field hp hindex] at hcheck
          obtain ⟨formatter, harg, hcheck⟩ := bind_eq_ok.mp hcheck
          obtain ⟨behind, hbehind, hcheck⟩ := bind_eq_ok.mp hcheck
          obtain rfl : formatter :: behind = parsed := Except.ok.inj hcheck
          have hparse : parse index spec = some formatter := by
            unfold checkArg at harg
            split at harg
            · split at harg
              · rename_i hparse
                rw [hparse, Except.ok.inj harg]
              · cases harg
            · cases harg
          have hfirst : formatters[index]? = some formatter := hparsed 0
          have htail := ih hrest hnone.2 hbehind (fun k => by
            have hk := hparsed (k + 1)
            rwa [List.getElem?_cons_succ, ← Nat.add_assoc, Nat.add_right_comm] at hk)
            (not_lt_of_check hbehind)
          rw [formatTo_field hp, htail, hfirst, expected, hparse]
          rfl

variable (render formatters) in
/-- A closing brace in front of pieces has no second one, or leaves one behind. -/
theorem formatTo_closing (hproper : ∀ p ∈ pieces, p.Proper) (count : Nat) :
    ∃ e, formatTo render formatters count ('\x7d' :: write pieces) = .error e := by
  induction pieces with
  | nil => exact ⟨.missingSecondBrace, by simp [write, formatTo]⟩
  | cons p pieces ih =>
      obtain ⟨hp, hrest⟩ := List.forall_mem_cons.mp hproper
      have hwrite : write (p :: pieces) = p.text ++ write pieces := by simp [write]
      rw [hwrite]
      cases p with
      | char c =>
          refine ⟨.missingSecondBrace, ?_⟩
          simp [Piece.text, formatTo, hp.2]
      | openBrace => exact ⟨.missingSecondBrace, by simp [Piece.text, formatTo]⟩
      | closeBrace =>
          obtain ⟨e, he⟩ := ih hrest
          refine ⟨e, ?_⟩
          change formatTo render formatters count ('\x7d' :: '\x7d' :: '\x7d' :: write pieces) = _
          rw [formatTo_close, formatTo_close, he]
          rfl
      | field spec => exact ⟨.missingSecondBrace, by simp [Piece.text, formatTo]⟩

variable (render formatters) in
theorem formatTo_fails (hproper : ∀ p ∈ pieces, p.Proper) (hclose : .closeBrace ∈ pieces)
    (count : Nat) : ∃ e, formatTo render formatters count (write pieces) = .error e := by
  induction pieces generalizing count with
  | nil => cases hclose
  | cons p pieces ih =>
      obtain ⟨hp, hrest⟩ := List.forall_mem_cons.mp hproper
      have hwrite : write (p :: pieces) = p.text ++ write pieces := by simp [write]
      rw [hwrite]
      cases p with
      | char c =>
          obtain ⟨e, he⟩ := ih hrest (by simpa using hclose) count
          refine ⟨e, ?_⟩
          change formatTo render formatters count (c :: write pieces) = _
          rw [formatTo_char hp, he]
          rfl
      | openBrace =>
          obtain ⟨e, he⟩ := ih hrest (by simpa using hclose) count
          refine ⟨e, ?_⟩
          change formatTo render formatters count ('\x7b' :: '\x7b' :: write pieces) = _
          rw [formatTo_open, he]
          rfl
      | closeBrace =>
          obtain ⟨e, he⟩ := formatTo_closing render formatters hrest count
          refine ⟨e, ?_⟩
          change formatTo render formatters count ('\x7d' :: '\x7d' :: write pieces) = _
          rw [formatTo_close, he]
          rfl
      | field spec =>
          obtain ⟨e, he⟩ := ih hrest (by simpa using hclose) (count + 1)
          refine ⟨e, ?_⟩
          rw [formatTo_field hp, he]
          rfl

/-- A format string that `check` accepts is made of pieces, and `format_to` writes what is
expected of them exactly when no piece is an escaped closing brace. -/
theorem formatTo_expected_iff (hcheck : check parse args 0 sv = .ok formatters) :
    (∃ pieces, (∀ p ∈ pieces, p.Proper) ∧ sv = write pieces) ∧
      ∀ pieces, (∀ p ∈ pieces, p.Proper) → sv = write pieces →
        (formatTo render formatters 0 sv = .ok (expected parse render 0 pieces) ↔
          .closeBrace ∉ pieces) := by
  refine ⟨check_pieces hcheck, ?_⟩
  rintro pieces hproper rfl
  constructor
  · intro hok hclose
    obtain ⟨e, he⟩ := formatTo_fails render formatters hproper hclose 0
    cases he.symm.trans hok
  · intro hnone
    exact formatTo_eq_expected hproper hnone hcheck (fun k => by rw [Nat.zero_add])

end Scans

/-- A formatter that only accepts an empty specification or a type. -/
def fieldLetter (_ : Nat) : List Char → Option Char
  | [] => some 'd'
  | ['x'] => some 'x'
  | _ => none

/-- The argument's number, with the type behind it. -/
def renderType (index : Nat) (type : Char) : List Char := [Nat.digitChar index, type]

theorem formatTo_expected_two_fields :
    check fieldLetter 2 0 "\x7b\x7b\x7bx\x7d-\x7b\x7d".toList = .ok ['x', 'd'] ∧
      formatTo renderType ['x', 'd'] 0 "\x7b\x7b\x7bx\x7d-\x7b\x7d".toList =
        .ok "\x7b0x-1d".toList := by
  have hcheck : check fieldLetter 2 0 "\x7b\x7b\x7bx\x7d-\x7b\x7d".toList = .ok ['x', 'd'] := by
    simp [check, splitField, checkArg, fieldLetter]
    rfl
  refine ⟨hcheck, ?_⟩
  exact ((formatTo_expected_iff hcheck).2
    [.openBrace, .field ['x'], .char '-', .field []] (by simp [Piece.Proper]) rfl).mpr (by decide)

/-- `check` accepts two closing braces, and `format_to` throws at the second of them. -/
theorem formatTo_throws_on_escape :
    check fieldLetter 0 0 "\x7d\x7d".toList = .ok [] ∧
      write [.closeBrace] = "\x7d\x7d".toList ∧
      expected fieldLetter renderType 0 [.closeBrace] = "\x7d".toList ∧
      formatTo renderType [] 0 "\x7d\x7d".toList = .error .missingSecondBrace := by
  exact ⟨by simp [check], rfl, rfl, by simp [formatTo]⟩

end Nyan.Lib
