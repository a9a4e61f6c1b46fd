import Nyan.Console.Mirror

/-!
Control sequences. `putcImpl` recognises `ESC [`, reads numbers separated by `;`, and takes
any other byte for the end of the sequence. The grammar has more parameter bytes than
digits and `;`, and bytes between the parameters and the final one, and at the first of
those the sequence ends too early: the rest of it goes to the screen as text.
-/

namespace Nyan.Console

/-- The calls by which `putcImpl` acts on the screen. -/
inductive Call where
  | renderChar (ch : Byte)
  | flushCSI (cmd : Byte) (args : List (BitVec 32))
  deriving DecidableEq, Repr

/-- What `putcImpl` remembers of a sequence. -/
structure VtParser where
  state : VTState
  arg : BitVec 32
  args : List (BitVec 32)
  deriving DecidableEq, Repr

def isDigit (ch : Byte) : Bool := chr '0' ≤ ch ∧ ch ≤ chr '9'

/-- The bytes after which a sequence goes on. -/
def goesOn (ch : Byte) : Bool := isDigit ch || ch == chr ';'

namespace VtParser

def next (p : VtParser) (ch : Byte) : VtParser :=
  match p.state with
  | .VTS_Idle => if ch = chr '\x1b' then { p with state := .VTS_Esc } else p
  | .VTS_Esc => if ch = chr '[' then ⟨.VTS_EscBrc, 0, []⟩ else { p with state := .VTS_Idle }
  | .VTS_EscBrc =>
      if isDigit ch then { p with arg := p.arg * 10 + (ch - chr '0').setWidth 32 }
      else if ch = chr ';' then { p with args := p.args ++ [p.arg], arg := 0 }
      else { p with args := p.args ++ [p.arg], state := .VTS_Idle }

end VtParser

namespace Screen

def vt (s : Screen) : VtParser := ⟨s.tty.vtstate, s.tty.vtarg, s.tty.vtargs⟩

def setVt (s : Screen) (p : VtParser) : Screen :=
  { s with tty.vtstate := p.state, tty.vtarg := p.arg, tty.vtargs := p.args }

/-- The calls for one byte. -/
def callsOf (s : Screen) (ch : Byte) : List Call :=
  match s.tty.vtstate with
  | .VTS_Idle =>
      if ch = chr '\x1b' then []
      else if s.tty.config.OPOST ∧ s.tty.config.ONLCR ∧ ch = chr '\n' then
        [.renderChar (chr '\r'), .renderChar (mapped s.tty.config ch)]
      else [.renderChar (mapped s.tty.config ch)]
  | .VTS_Esc => if ch = chr '[' then [] else [.renderChar ch]
  | .VTS_EscBrc => if goesOn ch then [] else [.flushCSI ch (s.tty.vtargs ++ [s.tty.vtarg])]

def perform (s : Screen) : Call → Option Screen
  | .renderChar ch => s.renderChar ch
  | .flushCSI cmd args => { s with tty.vtargs := args }.flushCSI cmd

variable {s s' : Screen} {ch : Byte}

theorem setVt_vt (s : Screen) : s.setVt s.vt = s := rfl

/-- Text does not touch what is remembered of a sequence. -/
theorem renderChar_setVt (p : VtParser) :
    (s.setVt p).renderChar ch = (s.renderChar ch).map fun s₁ => s₁.setVt p := by
  have hputLF : ∀ s : Screen, (s.setVt p).putLF = s.putLF.setVt p := by
    intro s
    unfold putLF flushBuffer
    rw [apply_ite fun s : Screen => s.setVt p, apply_ite fun s : Screen => s.setVt p]
    rfl
  have hstore : (s.setVt p).store ch = (s.store ch).map fun s₁ => s₁.setVt p := by
    by_cases hcurr : s.tty.curr < width * height
    · have hcurr' : (s.setVt p).tty.curr < width * height := hcurr
      rw [store, store, dif_pos hcurr, dif_pos hcurr']
      rfl
    · have hcurr' : ¬ (s.setVt p).tty.curr < width * height := hcurr
      rw [store, store, dif_neg hcurr, dif_neg hcurr']
      rfl
  unfold renderChar
  split_ifs
  · exact congrArg some (hputLF s)
  · rfl
  · rfl
  · refine congrArg some ?_
    dsimp only
    rw [apply_ite fun s : Screen => s.setVt p, ← hputLF]
    rfl
  · rw [hstore, Option.map_map, Option.map_map]
    refine congrArg (fun f => Option.map f (s.store ch)) (funext fun s₁ => ?_)
    rw [Function.comp_apply, Function.comp_apply, apply_ite fun s : Screen => s.setVt p, ← hputLF]
    rfl

theorem eraseDisplay_vt {arg : BitVec 32} (h : s.eraseDisplay arg = some s') : s'.vt = s.vt := by
  simp only [eraseDisplay, Option.bind_eq_bind, Option.bind_eq_some_iff] at h
  obtain ⟨buffer, _, h⟩ := h
  split at h
  · obtain ⟨shown, _, h⟩ := Option.bind_eq_some_iff.mp h
    obtain rfl := Option.some.inj h
    rfl
  · obtain rfl := Option.some.inj h
    rfl

theorem flushCSI_vt {cmd : Byte} (h : s.flushCSI cmd = some s') : s'.vt = s.vt := by
  simp only [flushCSI, Option.bind_eq_bind, Option.bind_eq_some_iff] at h
  obtain ⟨arg0, _, h⟩ := h
  split at h
  · obtain rfl := Option.some.inj h
    rfl
  split at h
  · obtain rfl := Option.some.inj h
    rfl
  split at h
  · exact eraseDisplay_vt h
  · obtain rfl := Option.some.inj h
    rfl

theorem renderChar_vt (h : s.renderChar ch = some s') : s'.vt = s.vt := by
  have hset : (s.setVt s.vt).renderChar ch = (s.renderChar ch).map fun s₁ => s₁.setVt s.vt :=
    renderChar_setVt s.vt
  rw [setVt_vt, h] at hset
  rw [Option.some.inj hset]
  rfl

theorem map_setVt {r : Option Screen} {p : VtParser} (h : ∀ s₁, r = some s₁ → s₁.vt = p) :
    (r.map fun s₁ => s₁.setVt p) = r := by
  cases r with
  | none => rfl
  | some s₁ =>
      obtain rfl := h s₁ rfl
      rfl

/-- `putcImpl` makes these calls, and remembers what the parser does. -/
theorem putcImpl_eq_calls (s : Screen) (ch : Byte) :
    s.putcImpl ch =
      ((s.callsOf ch).foldlM perform s).map fun s₁ => s₁.setVt (s.vt.next ch) := by
  have hone : ∀ call, [call].foldlM perform s = s.perform call := by simp
  unfold putcImpl callsOf VtParser.next
  cases hstate : s.tty.vtstate with
  | VTS_Idle =>
      have hvt : s.vt.state = .VTS_Idle := hstate
      simp only [hvt]
      by_cases hesc : ch = chr '\x1b'
      · simp only [if_pos hesc]
        rfl
      simp only [if_neg hesc, returnFirst]
      by_cases hreturn : s.tty.config.OPOST ∧ s.tty.config.ONLCR ∧ ch = chr '\n'
      · rw [if_pos hreturn, if_pos hreturn, map_setVt]
        · simp [perform]
        · intro s₂ hs₂
          simp only [List.foldlM_cons, List.foldlM_nil, Option.bind_eq_bind,
            Option.bind_eq_some_iff, perform] at hs₂
          obtain ⟨s₁, hs₁, s₂', hs₂', heq⟩ := hs₂
          obtain rfl := Option.some.inj heq
          rw [renderChar_vt hs₂', renderChar_vt hs₁]
      · rw [if_neg hreturn, if_neg hreturn, hone, map_setVt]
        · rfl
        · exact fun s₁ hs₁ => renderChar_vt hs₁
  | VTS_Esc =>
      have hvt : s.vt.state = .VTS_Esc := hstate
      simp only [hvt]
      by_cases hbracket : ch = chr '['
      · simp only [if_pos hbracket]
        rfl
      · rw [if_neg hbracket, if_neg hbracket, if_neg hbracket, hone]
        exact renderChar_setVt (s := s) { s.vt with state := .VTS_Idle }
  | VTS_EscBrc =>
      have hvt : s.vt.state = .VTS_EscBrc := hstate
      simp only [hvt]
      by_cases hdigit : chr '0' ≤ ch ∧ ch ≤ chr '9'
      · have hgoes : goesOn ch = true := by simp [goesOn, isDigit, hdigit]
        rw [if_pos hdigit, if_pos hgoes, if_pos (by simpa [isDigit] using hdigit)]
        simp [setVt, vt, hstate]
      have hdigit' : ¬ isDigit ch = true := by simpa [isDigit] using hdigit
      by_cases hnext : ch = chr ';'
      · have hgoes : goesOn ch = true := by simp [goesOn, hnext]
        rw [if_neg hdigit, if_pos hnext, if_pos hgoes, if_neg hdigit', if_pos hnext]
        simp [setVt, vt, hstate]
      · have hends : ¬ goesOn ch = true := by simp [goesOn, hdigit', hnext]
        rw [if_neg hdigit, if_neg hnext, if_neg hends, if_neg hdigit', if_neg hnext, hone, perform]
        cases hcsi : flushCSI { s with tty.vtargs := s.tty.vtargs ++ [s.tty.vtarg] } ch with
        | none => rfl
        | some s₁ =>
            have hkept := flushCSI_vt hcsi
            obtain ⟨_, harg, hargs⟩ := VtParser.mk.inj hkept
            simp only [Option.bind_eq_bind, Option.bind_some, Option.map_some, setVt, vt]
            rw [← show s₁.tty.vtargs = s.tty.vtargs ++ [s.tty.vtarg] from hargs,
              ← show s₁.tty.vtarg = s.tty.vtarg from harg]
            rfl

/-- The calls for the bytes of a text. -/
def calls (s : Screen) : List Byte → List Call
  | [] => []
  | ch :: rest => s.callsOf ch ++ ((s.putcImpl ch).map fun s₁ => s₁.calls rest).getD []

end Screen

/-- `ESC [`, parameter bytes, intermediate bytes, and the final byte. -/
def controlSequence (params inter : List Byte) (final : Byte) : List Byte :=
  chr '\x1b' :: chr '[' :: (params ++ inter ++ [final])

/-- The number that digits are written for. -/
def decimal (digits : List Byte) : Nat :=
  digits.foldl (fun n d => n * 10 + (d - chr '0').toNat) 0

/-- The parameters are numbers, or missing, with `;` between them. -/
structure Numbers (params : List Byte) (numbers : List (List Byte)) : Prop where
  nonempty : numbers ≠ []
  digits : ∀ digits ∈ numbers, ∀ d ∈ digits, isDigit d = true
  bound : ∀ digits ∈ numbers, decimal digits < 2 ^ 31
  params : params = [chr ';'].intercalate numbers

namespace Screen

/-- A sequence is consumed as a whole. -/
structure Consumes (s : Screen) (params inter : List Byte) (final : Byte) : Prop where
  taken : s.OnScreen → ((controlSequence params inter final).foldlM putcImpl s).isSome
  idle : ∀ n s', 0 < n → n ≤ (controlSequence params inter final).length →
    ((controlSequence params inter final).take n).foldlM putcImpl s = some s' →
    (s'.tty.vtstate = .VTS_Idle ↔ n = (controlSequence params inter final).length)
  silent : ∀ ch, .renderChar ch ∉ s.calls (controlSequence params inter final)
  flushed : ∀ numbers, Numbers params numbers → ∃ args,
    s.calls (controlSequence params inter final) = [.flushCSI final args] ∧
      args.map BitVec.toInt = numbers.map fun digits => (decimal digits : Int)

variable {s s' : Screen} {ch : Byte}

@[simp] theorem vt_setVt (p : VtParser) : (s.setVt p).vt = p := rfl

@[simp] theorem setVt_setVt (p q : VtParser) : (s.setVt p).setVt q = s.setVt q := rfl

theorem putcImpl_silent (h : s.callsOf ch = []) : s.putcImpl ch = some (s.setVt (s.vt.next ch)) := by
  rw [putcImpl_eq_calls, h]
  rfl

theorem vt_putcImpl (h : s.putcImpl ch = some s') : s'.vt = s.vt.next ch := by
  rw [putcImpl_eq_calls] at h
  obtain ⟨s₁, _, rfl⟩ := Option.map_eq_some_iff.mp h
  rfl

theorem calls_cons {s₁ : Screen} (h : s.putcImpl ch = some s₁) (rest : List Byte) :
    s.calls (ch :: rest) = s.callsOf ch ++ s₁.calls rest := by
  simp [calls, h]

/-- What begins a sequence. -/
theorem putcs_open (h : s.tty.vtstate = .VTS_Idle) (rest : List Byte) :
    (chr '\x1b' :: chr '[' :: rest).foldlM putcImpl s =
        rest.foldlM putcImpl (s.setVt ⟨.VTS_EscBrc, 0, []⟩) ∧
      s.calls (chr '\x1b' :: chr '[' :: rest) = (s.setVt ⟨.VTS_EscBrc, 0, []⟩).calls rest := by
  let escaped := s.setVt { s.vt with state := .VTS_Esc }
  have hesc : s.putcImpl (chr '\x1b') = some escaped := by
    simp [putcImpl, h, escaped, setVt, vt]
  have hbracket : escaped.putcImpl (chr '[') = some (s.setVt ⟨.VTS_EscBrc, 0, []⟩) := rfl
  have hcalls : s.callsOf (chr '\x1b') = [] := by simp [callsOf, h]
  have hcalls' : escaped.callsOf (chr '[') = [] := rfl
  constructor
  · simp [List.foldlM_cons, hesc, hbracket]
  · rw [calls_cons hesc, calls_cons hbracket, hcalls, hcalls']
    rfl

theorem callsOf_goesOn (hstate : s.vt.state = .VTS_EscBrc) (h : goesOn ch = true) :
    s.callsOf ch = [] := by
  have htty : s.tty.vtstate = .VTS_EscBrc := hstate
  simp [callsOf, htty, h]

theorem next_goesOn {p : VtParser} (hstate : p.state = .VTS_EscBrc) (h : goesOn ch = true) :
    (p.next ch).state = .VTS_EscBrc := by
  unfold VtParser.next
  simp only [hstate]
  split_ifs with hdigit hnext
  · rfl
  · rfl
  · simp [goesOn, hdigit, hnext] at h

/-- Digits and `;` are taken in without a call. -/
theorem putcs_goesOn {bytes : List Byte} (hstate : s.vt.state = .VTS_EscBrc)
    (h : ∀ ch ∈ bytes, goesOn ch = true) (rest : List Byte) :
    (bytes ++ rest).foldlM putcImpl s =
        rest.foldlM putcImpl (s.setVt (bytes.foldl VtParser.next s.vt)) ∧
      s.calls (bytes ++ rest) = (s.setVt (bytes.foldl VtParser.next s.vt)).calls rest ∧
      (bytes.foldl VtParser.next s.vt).state = .VTS_EscBrc := by
  induction bytes generalizing s with
  | nil => exact ⟨rfl, rfl, hstate⟩
  | cons ch bytes ih =>
      have hch := h ch List.mem_cons_self
      have hcalls := callsOf_goesOn hstate hch
      have hput := putcImpl_silent hcalls
      obtain ⟨hputs, hrest, hend⟩ := ih (s := s.setVt (s.vt.next ch)) (next_goesOn hstate hch)
        fun ch' hch' => h ch' (List.mem_cons_of_mem ch hch')
      refine ⟨?_, ?_, hend⟩
      · rw [List.cons_append, List.foldlM_cons, hput]
        exact hputs
      · rw [List.cons_append, calls_cons hput, hcalls]
        exact hrest

/-- Any other byte ends the sequence. -/
theorem callsOf_ends (hstate : s.vt.state = .VTS_EscBrc) (h : goesOn ch = false) :
    s.callsOf ch = [.flushCSI ch (s.vt.args ++ [s.vt.arg])] := by
  have htty : s.tty.vtstate = .VTS_EscBrc := hstate
  simp [callsOf, htty, h, vt]

theorem next_ends {p : VtParser} (hstate : p.state = .VTS_EscBrc) (h : goesOn ch = false) :
    (p.next ch).state = .VTS_Idle := by
  simp only [goesOn, Bool.or_eq_false_iff, beq_eq_false_iff_ne] at h
  simp [VtParser.next, hstate, h.1, h.2]

/-- A byte that is not a command of the code ends the sequence without any effect. -/
theorem putcImpl_unknown (hstate : s.vt.state = .VTS_EscBrc) (h : goesOn ch = false)
    (hch : ch < 0x40#8) : (s.putcImpl ch).isSome := by
  have hunknown : ∀ b : Byte, b < 0x40#8 → b ≠ chr 'm' ∧ b ≠ chr 'H' ∧ b ≠ chr 'J' := by
    decide +kernel
  obtain ⟨hm, hH, hJ⟩ := hunknown ch hch
  obtain ⟨arg0, rest, hcons⟩ := List.exists_cons_of_ne_nil
    (List.append_ne_nil_of_right_ne_nil s.vt.args (List.cons_ne_nil s.vt.arg []))
  rw [putcImpl_eq_calls, callsOf_ends hstate h]
  simp [perform, flushCSI, hcons, hm, hH, hJ]

/-- The final byte calls `flushCSI`, with the number that was being read. -/
theorem calls_ends (hstate : s.vt.state = .VTS_EscBrc) (h : goesOn ch = false) :
    s.calls [ch] = [.flushCSI ch (s.vt.args ++ [s.vt.arg])] := by
  unfold calls
  rw [callsOf_ends hstate h]
  cases s.putcImpl ch <;> simp [calls]

/-- The state after a part of a sequence with such parameters. -/
theorem inside_sequence {params rest : List Byte} (hidle : s.tty.vtstate = .VTS_Idle)
    (hparams : ∀ b ∈ params, goesOn b = true) {n : Nat} (hpos : 0 < n)
    (hn : n ≤ params.length + 2)
    (hput : ((chr '\x1b' :: chr '[' :: (params ++ rest)).take n).foldlM putcImpl s = some s') :
    s'.tty.vtstate ≠ .VTS_Idle := by
  rcases n with _ | _ | m
  · simp at hpos
  · have hesc : s.putcImpl (chr '\x1b') = some s' := by simpa using hput
    have hvt := congrArg VtParser.state (vt_putcImpl hesc)
    have hstate : s'.tty.vtstate = .VTS_Esc := by
      simpa [vt, VtParser.next, hidle] using hvt
    simp [hstate]
  · have htake : (chr '\x1b' :: chr '[' :: (params ++ rest)).take (m + 2) =
        chr '\x1b' :: chr '[' :: (params.take m ++ []) := by
      simp [List.take_append_of_le_length (show m ≤ params.length by omega)]
    have hfirst : ∀ b ∈ params.take m, goesOn b = true :=
      fun b hb => hparams b (List.mem_of_mem_take hb)
    obtain ⟨hgoes, _, hbrc⟩ := putcs_goesOn (s := s.setVt ⟨.VTS_EscBrc, 0, []⟩) rfl hfirst []
    rw [htake, (putcs_open hidle _).1, hgoes] at hput
    obtain rfl := Option.some.inj hput
    intro hstate
    have hidle' : (List.foldl VtParser.next ⟨.VTS_EscBrc, 0, []⟩ (params.take m)).state =
      .VTS_Idle := hstate
    rw [vt_setVt, hidle'] at hbrc
    cases hbrc

/-- A sequence with such parameters and nothing between them and the final byte. -/
theorem calls_sequence {params : List Byte} {final : Byte} (hidle : s.tty.vtstate = .VTS_Idle)
    (hparams : ∀ b ∈ params, goesOn b = true) (hfinal : goesOn final = false) :
    s.calls (controlSequence params [] final) = [.flushCSI final
      ((params.foldl VtParser.next ⟨.VTS_EscBrc, 0, []⟩).args ++
        [(params.foldl VtParser.next ⟨.VTS_EscBrc, 0, []⟩).arg])] := by
  obtain ⟨_, hcalls, hbrc⟩ :=
    putcs_goesOn (s := s.setVt ⟨.VTS_EscBrc, 0, []⟩) rfl hparams [final]
  rw [controlSequence, List.append_nil, (putcs_open hidle _).2, hcalls]
  exact calls_ends hbrc hfinal

/-- A sequence that goes on to a byte that the code takes for the final one. -/
theorem ends_early {params rest : List Byte} {bad : Byte} (hidle : s.tty.vtstate = .VTS_Idle)
    (hparams : ∀ b ∈ params, goesOn b = true) (hbad : goesOn bad = false) (hlt : bad < 0x40#8) :
    ∃ s', ((chr '\x1b' :: chr '[' :: (params ++ bad :: rest)).take (params.length + 3)).foldlM
      putcImpl s = some s' ∧ s'.tty.vtstate = .VTS_Idle := by
  obtain ⟨hputs, _, hbrc⟩ :=
    putcs_goesOn (s := s.setVt ⟨.VTS_EscBrc, 0, []⟩) rfl hparams [bad]
  obtain ⟨s', hs'⟩ := Option.isSome_iff_exists.mp
    (putcImpl_unknown (s := s.setVt (params.foldl VtParser.next ⟨.VTS_EscBrc, 0, []⟩)) hbrc hbad hlt)
  have htake : (chr '\x1b' :: chr '[' :: (params ++ bad :: rest)).take (params.length + 3) =
      chr '\x1b' :: chr '[' :: (params ++ [bad]) := by
    simp [List.take_append]
  refine ⟨s', ?_, ?_⟩
  · rw [htake, (putcs_open hidle _).1, hputs]
    simpa using hs'
  · have hvt := congrArg VtParser.state (vt_putcImpl hs')
    exact hvt.trans (next_ends hbrc hbad)

end Screen

/-- The number as it is computed. -/
def numberFrom (n : BitVec 32) (digits : List Byte) : BitVec 32 :=
  digits.foldl (fun n d => n * 10 + (d - chr '0').setWidth 32) n

theorem numberFrom_ofNat (n : Nat) (digits : List Byte) :
    numberFrom (BitVec.ofNat 32 n) digits =
      BitVec.ofNat 32 (digits.foldl (fun n d => n * 10 + (d - chr '0').toNat) n) := by
  induction digits generalizing n with
  | nil => rfl
  | cons d rest ih =>
      have hstep : BitVec.ofNat 32 n * 10 + (d - chr '0').setWidth 32 =
          BitVec.ofNat 32 (n * 10 + (d - chr '0').toNat) := by
        rw [BitVec.ofNat_add, BitVec.ofNat_mul, BitVec.ofNat_toNat]
        rfl
      simp only [numberFrom, List.foldl_cons, hstep]
      exact ih _

/-- No number below `2 ^ 31` is changed by the computation. -/
theorem numberFrom_toInt {digits : List Byte} (h : decimal digits < 2 ^ 31) :
    (numberFrom 0 digits).toInt = decimal digits := by
  have hnumber : numberFrom 0 digits = BitVec.ofNat 32 (decimal digits) := numberFrom_ofNat 0 digits
  rw [hnumber, BitVec.toInt_eq_toNat_of_lt]
  · rw [BitVec.toNat_ofNat, Nat.mod_eq_of_lt (by omega)]
  · rw [BitVec.toNat_ofNat, Nat.mod_eq_of_lt (by omega)]
    omega

namespace VtParser

theorem foldl_digits {digits : List Byte} (h : ∀ d ∈ digits, isDigit d = true) (n : BitVec 32)
    (args : List (BitVec 32)) :
    digits.foldl next ⟨.VTS_EscBrc, n, args⟩ = ⟨.VTS_EscBrc, numberFrom n digits, args⟩ := by
  induction digits generalizing n with
  | nil => rfl
  | cons d rest ih =>
      have hstep : next ⟨.VTS_EscBrc, n, args⟩ d =
          ⟨.VTS_EscBrc, n * 10 + (d - chr '0').setWidth 32, args⟩ := by
        simp [next, h d List.mem_cons_self]
      rw [List.foldl_cons, hstep, ih fun d' hd' => h d' (List.mem_cons_of_mem d hd')]
      rfl

/-- The numbers of a list of parameters. -/
theorem foldl_numbers {numbers : List (List Byte)} (hne : numbers ≠ [])
    (h : ∀ digits ∈ numbers, ∀ d ∈ digits, isDigit d = true) (args : List (BitVec 32)) :
    (([chr ';'].intercalate numbers).foldl next ⟨.VTS_EscBrc, 0, args⟩).args ++
        [(([chr ';'].intercalate numbers).foldl next ⟨.VTS_EscBrc, 0, args⟩).arg] =
      args ++ numbers.map (numberFrom 0) := by
  induction numbers generalizing args with
  | nil => exact absurd rfl hne
  | cons digits rest ih =>
      have hdigits := foldl_digits (h digits List.mem_cons_self) 0 args
      cases rest with
      | nil =>
          rw [List.intercalate_singleton, hdigits]
          rfl
      | cons digits' rest =>
          have hnext : next ⟨.VTS_EscBrc, numberFrom 0 digits, args⟩ (chr ';') =
              ⟨.VTS_EscBrc, 0, args ++ [numberFrom 0 digits]⟩ := rfl
          have hrest := ih (by simp) (fun ds hds => h ds (List.mem_cons_of_mem digits hds))
            (args ++ [numberFrom 0 digits])
          rw [List.intercalate_cons_cons, List.foldl_append, List.foldl_append, hdigits,
            List.foldl_cons, List.foldl_nil, hnext, hrest]
          simp

end VtParser

namespace Screen

variable {s : Screen} {params inter : List Byte} {final : Byte}

theorem consumes_of_goesOn (hidle : s.tty.vtstate = .VTS_Idle)
    (hparams : ∀ b ∈ params, goesOn b = true) (hfinal : goesOn final = false) :
    s.Consumes params [] final := by
  have hcalls := calls_sequence hidle hparams hfinal
  obtain ⟨hputs, _, hbrc⟩ :=
    putcs_goesOn (s := s.setVt ⟨.VTS_EscBrc, 0, []⟩) rfl hparams [final]
  have hfull : (controlSequence params [] final).foldlM putcImpl s =
      (s.setVt (params.foldl VtParser.next ⟨.VTS_EscBrc, 0, []⟩)).putcImpl final := by
    rw [controlSequence, List.append_nil, (putcs_open hidle _).1, hputs]
    simp
  have hlength : (controlSequence params [] final).length = params.length + 3 := by
    simp [controlSequence]
  refine ⟨fun hscreen => ?_, fun n s' hpos hn hput => ?_, fun ch hmem => ?_, fun numbers hnumbers => ?_⟩
  · rw [hfull]
    exact putcImpl_isSome (s := s.setVt _) hscreen final
  · by_cases hend : n = (controlSequence params [] final).length
    · rw [hend, List.take_length, hfull] at hput
      have hvt := congrArg VtParser.state (vt_putcImpl hput)
      exact iff_of_true (hvt.trans (next_ends hbrc hfinal)) hend
    · have hput' : ((chr '\x1b' :: chr '[' :: (params ++ [final])).take n).foldlM putcImpl s =
          some s' := by
        simpa [controlSequence] using hput
      exact iff_of_false (inside_sequence hidle hparams hpos (by omega) hput') hend
  · rw [hcalls] at hmem
    simp at hmem
  · refine ⟨_, hcalls, ?_⟩
    rw [hnumbers.params, VtParser.foldl_numbers hnumbers.nonempty hnumbers.digits, List.nil_append,
      List.map_map]
    exact List.map_congr_left fun digits hdigits => numberFrom_toInt (hnumbers.bound digits hdigits)

/-- A sequence is consumed as a whole iff its parameter bytes are digits and `;` and no
bytes are between them and the final one. -/
theorem consumes_iff (hidle : s.tty.vtstate = .VTS_Idle)
    (hparams : ∀ b ∈ params, 0x30#8 ≤ b ∧ b ≤ 0x3F#8)
    (hinter : ∀ b ∈ inter, 0x20#8 ≤ b ∧ b ≤ 0x2F#8)
    (hfinal : 0x40#8 ≤ final ∧ final ≤ 0x7E#8) :
    s.Consumes params inter final ↔ (∀ b ∈ params, goesOn b = true) ∧ inter = [] := by
  have hends : ∀ b : Byte, 0x40#8 ≤ b → goesOn b = false := by decide +kernel
  have hbetween : ∀ b : Byte, b ≤ 0x2F#8 → goesOn b = false := by decide +kernel
  constructor
  · intro h
    have hall : ∀ b ∈ params ++ inter, goesOn b = true := by
      have hsplit := List.takeWhile_append_dropWhile (p := goesOn) (l := params ++ inter)
      have hgood : ∀ b ∈ (params ++ inter).takeWhile goesOn, goesOn b = true :=
        List.all_eq_true.mp (List.all_takeWhile ..)
      cases hrest : (params ++ inter).dropWhile goesOn with
      | nil =>
          rw [hrest, List.append_nil] at hsplit
          rwa [hsplit] at hgood
      | cons bad after =>
          have hbad : goesOn bad = false := by
            have hhead := List.head_dropWhile_not goesOn (l := params ++ inter) (by simp [hrest])
            simpa [hrest] using hhead
          have hmem : bad ∈ params ++ inter := by
            rw [← hsplit, hrest]
            simp
          have hlt : bad < 0x40#8 := by
            rcases List.mem_append.mp hmem with hb | hb
            · have hle := (hparams bad hb).2
              bv_omega
            · have hle := (hinter bad hb).2
              bv_omega
          let good := (params ++ inter).takeWhile goesOn
          have hsequence : controlSequence params inter final =
              chr '\x1b' :: chr '[' :: (good ++ bad :: (after ++ [final])) := by
            rw [controlSequence, ← hsplit, hrest]
            simp [good]
          obtain ⟨s', hput, hstate⟩ : ∃ s', ((controlSequence params inter final).take
              (good.length + 3)).foldlM putcImpl s = some s' ∧ s'.tty.vtstate = .VTS_Idle := by
            rw [hsequence]
            exact ends_early hidle hgood hbad hlt
          have hlength : (controlSequence params inter final).length =
              good.length + after.length + 4 := by
            rw [hsequence]
            simp
            omega
          have hend := (h.idle (good.length + 3) s' (by omega) (by omega) hput).mp hstate
          omega
    refine ⟨fun b hb => hall b (List.mem_append_left _ hb), ?_⟩
    refine List.eq_nil_iff_forall_not_mem.mpr fun b hb => ?_
    have hgoes := hall b (List.mem_append_right _ hb)
    rw [hbetween b (hinter b hb).2] at hgoes
    cases hgoes
  · rintro ⟨hgoes, rfl⟩
    exact consumes_of_goesOn hidle hgoes (hends final hfinal.1)

/-- A terminal on which nothing has been written. -/
def blank : Screen := ⟨{ buffer := fun _ => ⟨0, 0⟩ }, ⟨fun _ => ⟨0, 0⟩, ⟨false, 0⟩⟩⟩

/-- `ESC [ 3 1 ; 1 m`. -/
theorem consumes_iff_bold :
    blank.Consumes [chr '3', chr '1', chr ';', chr '1'] [] (chr 'm') ↔
      (∀ b ∈ [chr '3', chr '1', chr ';', chr '1'], goesOn b = true) ∧ ([] : List Byte) = [] :=
  consumes_iff rfl (by decide) (by decide) (by decide)

/-- `ESC [ ? 2 5 h` ends at the question mark, and its rest is written to the screen. -/
theorem private_mode_printed :
    blank.calls (controlSequence [chr '?', chr '2', chr '5'] [] (chr 'h')) =
      [.flushCSI (chr '?') [0], .renderChar (chr '2'), .renderChar (chr '5'),
        .renderChar (chr 'h')] ∧
      ¬ blank.Consumes [chr '?', chr '2', chr '5'] [] (chr 'h') := by
  have hcalls : blank.calls (controlSequence [chr '?', chr '2', chr '5'] [] (chr 'h')) =
      [.flushCSI (chr '?') [0], .renderChar (chr '2'), .renderChar (chr '5'),
        .renderChar (chr 'h')] := by decide +kernel
  refine ⟨hcalls, fun h => h.silent (chr 'h') ?_⟩
  rw [hcalls]
  simp

end Screen

end Nyan.Console
