import Nyan.Task.ArgumentStack

/-!
What is written when the arguments do not fit the stack page. The pushes go on below
the page: the first one that does not fit writes to the byte just before the window,
and nothing that comes after takes that back. `Filled` counts the bytes that were
pushed and follows both cases at once.
-/

namespace Nyan.Task

open Paging

namespace Stack

/-- After `n` bytes the page holds them, or the byte before the window was written. -/
structure Filled (stack : Stack) (window : VirtualAddress) (n : Nat) : Prop where
  fits : n ≤ 4096 → ∃ bytes : List (BitVec 8), bytes.length = n ∧ stack.Holds window bytes
  spilled : 4096 < n → window - 1#32 ∈ stack.written

variable {stack stack' : Stack} {window : VirtualAddress} {n : Nat} {bytes : List (BitVec 8)}

theorem make_filled (haligned : PageAligned window) (userTop : VirtualAddress)
    (memory : VirtualAddress → BitVec 8) : (make window userTop memory).Filled window 0 :=
  ⟨fun _ => ⟨[], rfl, make_holds haligned userTop memory⟩, fun hlt => absurd hlt (by decide)⟩

theorem Holds.spills (h : stack.Holds window bytes) {more : List (BitVec 8)}
    (hspill : 4096 < bytes.length + more.length) :
    window - 1#32 ∈ (stack.store more).written := by
  have hsmall := h.small
  refine List.mem_append_right _ (List.mem_map.mpr
    ⟨more.length - (4096 - bytes.length) - 1, List.mem_range.mpr (by omega), ?_⟩)
  have hsplit : more.length =
      4096 - bytes.length + (more.length - (4096 - bytes.length) - 1) + 1 := by
    omega
  change stack.current - BitVec.ofNat 32 more.length + BitVec.ofNat 32 _ = _
  rw [h.current]
  nth_rewrite 1 [hsplit]
  rw [BitVec.ofNat_add, BitVec.ofNat_add]
  ring

theorem Filled.store (h : stack.Filled window n) (more : List (BitVec 8)) :
    (stack.store more).Filled window (n + more.length) := by
  refine ⟨fun hfits => ?_, fun hspill => ?_⟩
  · obtain ⟨bytes, rfl, hholds⟩ := h.fits (by omega)
    exact ⟨more ++ bytes, by simp [Nat.add_comm], hholds.store (by omega)⟩
  · by_cases hbefore : n ≤ 4096
    · obtain ⟨bytes, rfl, hholds⟩ := h.fits hbefore
      exact hholds.spills hspill
    · exact List.mem_append_left _ (h.spilled (by omega))

theorem Filled.pushVal (h : stack.Filled window n) (value : BitVec 32) :
    (stack.pushVal value).Filled window (n + 4) := h.store _

theorem Filled.pushVals (h : stack.Filled window n) (values : List (BitVec 32)) :
    (stack.pushVals values).Filled window (n + 4 * values.length) := by
  induction values generalizing stack n with
  | nil => exact h
  | cons value rest ih =>
      have hrest := ih (h.pushVal value)
      rw [List.length_cons, show n + 4 * (rest.length + 1) = n + 4 + 4 * rest.length by omega]
      exact hrest

theorem Filled.pushTables (h : stack.Filled window n) (args envs : List VirtualAddress) :
    (stack.pushTables args envs).Filled window (n + 4 * (args.length + envs.length + 7)) := by
  have hauxv := h.pushVals [0#32, AT_NULL, 4096#32, AT_PAGESZ]
  have hargs := (((hauxv.pushVal 0#32).pushVals envs.reverse).pushVal 0#32).pushVals args.reverse
  have hcount := hargs.pushVal (BitVec.ofNat 32 args.length)
  have htotal : n + 4 * [0#32, AT_NULL, 4096#32, AT_PAGESZ].length + 4 + 4 * envs.reverse.length +
      4 + 4 * args.reverse.length + 4 = n + 4 * (args.length + envs.length + 7) := by
    simp only [List.length_reverse, List.length_cons, List.length_nil]
    omega
  rw [← htotal]
  exact hcount

theorem toUser_error {addr : VirtualAddress} (herror : stack.toUser addr = .error stack') :
    stack' = stack := by
  unfold toUser at herror
  split at herror
  · cases herror
  · exact (Except.error.inj herror).symm

/-- Only an address below the page is not translated. -/
theorem Filled.spilled_of_toUser (h : stack.Filled window n) (hpos : 0 < n)
    (herror : stack.toUser stack.current = .error stack') : stack' = stack ∧ 4096 < n := by
  refine ⟨toUser_error herror, ?_⟩
  by_contra hfits
  obtain ⟨bytes, rfl, hholds⟩ := h.fits (by omega)
  rw [hholds.current, hholds.toUser (by omega)] at herror
  cases herror

/-- The strings are pushed, or the attempt has ended below the page. -/
def PushedStrings (window : VirtualAddress) (n : Nat) (strs : List (List (BitVec 8))) :
    Except Stack (List VirtualAddress × Stack) → Prop
  | .ok (users, stack) =>
      users.length = strs.length ∧ stack.Filled window (n + stringsBytes strs)
  | .error stack => 4096 < n + stringsBytes strs ∧ window - 1#32 ∈ stack.written

theorem pushStrings_cons (stack : Stack) (str : List (BitVec 8)) (rest : List (List (BitVec 8))) :
    stack.pushStrings (str :: rest) =
      ((stack.store (padded str)).toUser (stack.store (padded str)).current).bind fun user =>
        ((stack.store (padded str)).pushStrings rest).bind fun out =>
          .ok (user :: out.1, out.2) := rfl

theorem Filled.pushStrings (h : stack.Filled window n) (strs : List (List (BitVec 8))) :
    PushedStrings window n strs (stack.pushStrings strs) := by
  induction strs generalizing stack n with
  | nil => exact ⟨rfl, h⟩
  | cons str rest ih =>
      have hstore : (stack.store (padded str)).Filled window (n + stringBytes str) := by
        rw [← length_padded]
        exact h.store _
      have hpos := stringBytes_pos str
      have hrest := ih hstore
      rw [pushStrings_cons]
      cases huser : (stack.store (padded str)).toUser (stack.store (padded str)).current with
      | error failed =>
          obtain ⟨rfl, hspilled⟩ := hstore.spilled_of_toUser (by omega) huser
          refine ⟨?_, hstore.spilled hspilled⟩
          rw [stringsBytes_cons]
          omega
      | ok user =>
          cases hout : (stack.store (padded str)).pushStrings rest with
          | error failed =>
              rw [hout] at hrest
              refine ⟨?_, hrest.2⟩
              rw [stringsBytes_cons, ← Nat.add_assoc]
              exact hrest.1
          | ok out =>
              rw [hout] at hrest
              refine ⟨by simp [hrest.1], ?_⟩
              rw [stringsBytes_cons, ← Nat.add_assoc]
              exact hrest.2

/-- All bytes of the image are pushed, or the attempt has ended below the page. -/
def Outcome (window : VirtualAddress) (n : Nat) : Except Stack Stack → Prop
  | .ok stack => stack.Filled window n
  | .error stack => 4096 < n ∧ window - 1#32 ∈ stack.written

theorem loadArgv_eq (stack : Stack) (argv envp : List (List (BitVec 8))) :
    stack.loadArgv argv envp = (stack.pushStrings argv).bind fun args =>
      (args.2.pushStrings envp).bind fun envs => .ok (envs.2.pushTables args.1 envs.1) := rfl

theorem Filled.loadArgv (h : stack.Filled window 0) (argv envp : List (List (BitVec 8))) :
    Outcome window (imageBytes argv envp) (stack.loadArgv argv envp) := by
  rw [loadArgv_eq]
  have hargs := h.pushStrings argv
  cases hfirst : stack.pushStrings argv with
  | error failed =>
      rw [hfirst] at hargs
      refine ⟨?_, hargs.2⟩
      have hlt := hargs.1
      unfold imageBytes
      omega
  | ok args =>
      rw [hfirst] at hargs
      obtain ⟨hargc, hfilled⟩ := hargs
      have henvs := hfilled.pushStrings envp
      change Outcome window _ ((args.2.pushStrings envp).bind fun envs =>
        .ok (envs.2.pushTables args.1 envs.1))
      cases hsecond : args.2.pushStrings envp with
      | error failed =>
          rw [hsecond] at henvs
          refine ⟨?_, henvs.2⟩
          have hlt := henvs.1
          unfold imageBytes
          omega
      | ok envs =>
          rw [hsecond] at henvs
          obtain ⟨henvc, hfilled'⟩ := henvs
          have htables := hfilled'.pushTables args.1 envs.1
          rw [hargc, henvc, Nat.zero_add] at htables
          exact htables

/-- The stack that an attempt ends with. -/
def last : Except Stack StackLoad → Stack
  | .ok load => load.stack
  | .error stack => stack

end Stack

open Stack

variable {s : Paging.System} {k : Nat} {window : VirtualAddress} {memory : VirtualAddress → BitVec 8}
  {argv envp : List (List (BitVec 8))} {out : Except Stack StackLoad}

/-- What was written is what `loadArgv` has written. -/
theorem loadStack_last (heq : loadStack s k window memory argv envp = some out) :
    last out = match (make window 0xC0000000#32 memory).loadArgv argv envp with
      | .ok stack => stack
      | .error stack => stack := by
  simp only [loadStack, Option.bind_eq_bind, Option.bind_eq_some_iff, Option.pure_def,
    Option.some_inj, Prod.exists] at heq
  obtain ⟨_, _, _, _, _, rfl⟩ := heq
  cases hload : (make window 0xC0000000#32 memory).loadArgv argv envp with
  | error failed => rfl
  | ok stack =>
      cases hesp : stack.userEsp with
      | error failed =>
          obtain rfl := toUser_error hesp
          simp [bind, Except.bind, hesp, last]
      | ok userEsp => simp [bind, Except.bind, hesp, last, pure, Except.pure]

/-- An image that fits is written to the page only. -/
theorem loadStack_within (hwindow : PageAligned window) (hfits : imageBytes argv envp ≤ 4096)
    (heq : loadStack s k window memory argv envp = some out) :
    ∀ addr ∈ (last out).written, thisPage addr = window := by
  have houtcome := (make_filled hwindow 0xC0000000#32 memory).loadArgv argv envp
  have hends := loadStack_last heq
  cases hload : (make window 0xC0000000#32 memory).loadArgv argv envp with
  | error failed =>
      rw [hload] at houtcome
      exact absurd houtcome.1 (by omega)
  | ok stack =>
      rw [hload] at houtcome hends
      obtain ⟨bytes, _, hholds⟩ := houtcome.fits hfits
      rw [hends]
      exact hholds.within

/-- One that does not is written to the byte before the page, at the least. -/
theorem loadStack_spills (hwindow : PageAligned window) (hlarge : 4096 < imageBytes argv envp)
    (heq : loadStack s k window memory argv envp = some out) :
    window - 1#32 ∈ (last out).written := by
  have houtcome := (make_filled hwindow 0xC0000000#32 memory).loadArgv argv envp
  have hends := loadStack_last heq
  cases hload : (make window 0xC0000000#32 memory).loadArgv argv envp with
  | error failed =>
      rw [hload] at houtcome hends
      rw [hends]
      exact houtcome.2
  | ok stack =>
      rw [hload] at houtcome hends
      rw [hends]
      exact houtcome.spilled hlarge

end Nyan.Task
