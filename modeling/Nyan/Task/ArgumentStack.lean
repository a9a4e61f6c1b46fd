import Nyan.Paging.ReadonlyRange
import Nyan.Task.UserBytes

/-!
The first page of a new program's stack (`task/stack.hpp`, `task/stack.cpp`,
`paging/translator.hpp`). The kernel maps the page into its own space at a window,
pushes the strings and the tables downwards through the window, and translates what
it has pushed to the addresses that the program will see.

Nothing compares `current` with the window before a push. A stack therefore carries
the kernel memory that it writes to and the addresses that it has written, and an
attempt that ends in `kfatal` carries the stack as it was then.
-/

namespace Nyan.Task

open Paging

def pageOffset (addr : VirtualAddress) : BitVec 32 := addr &&& 0xFFF#32

def AT_NULL : BitVec 32 := 0#32
def AT_PAGESZ : BitVec 32 := 6#32

/-- `Translator::toUser` for entries of a kernel and a user address. -/
def translate (entries : List (VirtualAddress × VirtualAddress)) (addr : VirtualAddress) :
    Option VirtualAddress :=
  (entries.find? fun entry => entry.1 == thisPage addr).map fun entry =>
    entry.2 + pageOffset addr

structure Stack where
  userBase : VirtualAddress
  current : VirtualAddress
  translator : List (VirtualAddress × VirtualAddress)
  memory : VirtualAddress → BitVec 8
  written : List VirtualAddress

namespace Stack

/-- `Stack(pageDir, userTop)`, whose new page is zeroed through the window. -/
def make (window userTop : VirtualAddress) (memory : VirtualAddress → BitVec 8) : Stack where
  userBase := prevPage userTop
  current := nextPage window
  translator := [(window, prevPage userTop)]
  memory := fun addr => if thisPage addr = window then 0#8 else memory addr
  written := []

/-- The bytes that are put below `current`, which moves down to them. -/
def store (stack : Stack) (bytes : List (BitVec 8)) : Stack :=
  let current := stack.current - BitVec.ofNat 32 bytes.length
  { stack with
    current
    memory := fun addr => bytes[(addr - current).toNat]?.getD (stack.memory addr)
    written := stack.written ++
      (List.range bytes.length).map fun i => current + BitVec.ofNat 32 i }

/-- A string with the zeros up to the end of its last word. -/
def padded (str : List (BitVec 8)) : List (BitVec 8) :=
  let size := (str.length + 1 + 3) >>> 2
  str ++ List.replicate ((size <<< 2) - str.length) 0#8

def pushString (stack : Stack) (str : List (BitVec 8)) : VirtualAddress × Stack :=
  let stack := stack.store (padded str)
  (stack.current, stack)

/-- The bytes of a word, least significant first. -/
def wordBytes (value : BitVec 32) : List (BitVec 8) :=
  (List.range 4).map fun i => value.extractLsb' (8 * i) 8

def pushVal (stack : Stack) (value : BitVec 32) : Stack := stack.store (wordBytes value)

def pushVals (stack : Stack) (values : List (BitVec 32)) : Stack := values.foldl pushVal stack

def toUser (stack : Stack) (addr : VirtualAddress) : Except Stack VirtualAddress :=
  match translate stack.translator addr with
  | some user => .ok user
  | none => .error stack

def userEsp (stack : Stack) : Except Stack VirtualAddress := stack.toUser stack.current

/-- The two loops of `loadArgv` that push the strings and keep where the program will
find them. -/
def pushStrings (stack : Stack) :
    List (List (BitVec 8)) → Except Stack (List VirtualAddress × Stack)
  | [] => .ok ([], stack)
  | str :: rest => do
      let (addr, stack) := stack.pushString str
      let user ← stack.toUser addr
      let (users, stack) ← pushStrings stack rest
      return (user :: users, stack)

/-- The rest of `loadArgv`: the auxiliary vector, the two tables and the count. -/
def pushTables (stack : Stack) (args envs : List VirtualAddress) : Stack :=
  let stack := stack.pushVals [0#32, AT_NULL, 4096#32, AT_PAGESZ]
  let stack := (stack.pushVal 0#32).pushVals envs.reverse
  let stack := (stack.pushVal 0#32).pushVals args.reverse
  stack.pushVal (BitVec.ofNat 32 args.length)

def loadArgv (stack : Stack) (argv envp : List (List (BitVec 8))) : Except Stack Stack := do
  let (args, stack) ← stack.pushStrings argv
  let (envs, stack) ← stack.pushStrings envp
  return stack.pushTables args envs

/-- The frame behind the window. -/
def page (stack : Stack) (window : VirtualAddress) : Page := fun i =>
  VMSpace.wordAt stack.memory (window + BitVec.ofNat 32 (4 * i.val))

end Stack

/-- What `execTask` has when the stack is made. -/
structure StackLoad where
  system : Paging.System
  userEsp : VirtualAddress
  stack : Stack

/-- The part of `execTask` that makes the stack of the directory `k`. The window is
where the kernel maps the new page. -/
def loadStack (s : Paging.System) (k : Nat) (window : VirtualAddress)
    (memory : VirtualAddress → BitVec 8) (argv envp : List (List (BitVec 8))) :
    Option (Except Stack StackLoad) := do
  let dir ← s.dir k
  let (frame, pages) ← UserDirectory.alloc s.memory dir (prevPage 0xC0000000#32) true
  return do
    let stack ← (Stack.make window 0xC0000000#32 memory).loadArgv argv envp
    let userEsp ← stack.userEsp
    return { system := { s with memory := pages.setPage frame (stack.page window) }
             userEsp, stack }

/-- The bytes that a string takes on the stack. -/
def stringBytes (str : List (BitVec 8)) : Nat := 4 * ((str.length + 4) / 4)

/-- The bytes that the strings take, and those that everything takes: a word for each
pointer, the count, the two nulls and the two entries of the auxiliary vector. -/
def stringsBytes (strs : List (List (BitVec 8))) : Nat := (strs.map stringBytes).sum

def imageBytes (argv envp : List (List (BitVec 8))) : Nat :=
  stringsBytes argv + stringsBytes envp + 4 * (argv.length + envp.length + 7)

@[simp] theorem stringsBytes_nil : stringsBytes [] = 0 := rfl

@[simp] theorem stringsBytes_cons (str : List (BitVec 8)) (rest : List (List (BitVec 8))) :
    stringsBytes (str :: rest) = stringBytes str + stringsBytes rest := by
  simp [stringsBytes]

namespace Stack

variable {stack stack' : Stack} {window : VirtualAddress} {bytes below : List (BitVec 8)}

@[simp] theorem length_padded (str : List (BitVec 8)) :
    (padded str).length = stringBytes str := by
  simp only [padded, List.length_append, List.length_replicate, Nat.shiftRight_eq_div_pow,
    Nat.shiftLeft_eq, stringBytes]
  omega

@[simp] theorem length_wordBytes (value : BitVec 32) : (wordBytes value).length = 4 := rfl

/-- The string and its terminating zero are the first bytes of what is pushed. -/
theorem padded_getElem? {str : List (BitVec 8)} {i : Nat} (hi : i ≤ str.length) :
    (padded str)[i]? = some (str.getD i 0#8) := by
  unfold padded
  rcases Nat.lt_or_eq_of_le hi with hlt | rfl
  · rw [List.getElem?_append_left hlt]
    simp [List.getD, hlt]
  · have hpos : 0 < ((str.length + 1 + 3) >>> 2) <<< 2 - str.length := by
      simp only [Nat.shiftRight_eq_div_pow, Nat.shiftLeft_eq]
      omega
    rw [List.getElem?_append_right (Nat.le_refl _)]
    simp [List.getD, hpos]

/-- What the stack holds: the page is filled from its end down to `current` with the
bytes, and nothing was written elsewhere. -/
structure Holds (stack : Stack) (window : VirtualAddress) (bytes : List (BitVec 8)) : Prop where
  aligned : PageAligned window
  small : bytes.length ≤ 4096
  current : stack.current = window + BitVec.ofNat 32 (4096 - bytes.length)
  translator : stack.translator = [(window, stack.userBase)]
  content : ∀ i < bytes.length,
    some (stack.memory (stack.current + BitVec.ofNat 32 i)) = bytes[i]?
  within : ∀ addr ∈ stack.written, thisPage addr = window

/-- Offsets below 4096 stay on the page. -/
theorem thisPage_window (haligned : PageAligned window) {n : Nat} (hn : n < 4096) :
    thisPage (window + BitVec.ofNat 32 n) = window := by
  rw [pageAligned_iff] at haligned
  apply BitVec.eq_of_toNat_eq
  rw [thisPage_toNat, BitVec.toNat_add, BitVec.toNat_ofNat]
  have := window.isLt
  omega

theorem thisPage_before (haligned : PageAligned window) : thisPage (window - 1#32) ≠ window := by
  rw [pageAligned_iff] at haligned
  intro h
  have hnat := congrArg BitVec.toNat h
  rw [thisPage_toNat, BitVec.toNat_sub, BitVec.toNat_ofNat] at hnat
  have := window.isLt
  omega

theorem make_holds (haligned : PageAligned window) (userTop : VirtualAddress)
    (memory : VirtualAddress → BitVec 8) : (make window userTop memory).Holds window [] where
  aligned := haligned
  small := by simp
  current := by
    have hpage : window &&& ~~~0xFFF#32 = window := haligned
    change nextPage window = window + 0x1000#32
    rw [nextPage, hpage]
  translator := rfl
  content := by simp
  within := by simp [make]

@[simp] theorem store_userBase (stack : Stack) (bytes : List (BitVec 8)) :
    (stack.store bytes).userBase = stack.userBase := rfl

@[simp] theorem store_written (stack : Stack) (bytes : List (BitVec 8)) :
    (stack.store bytes).written = stack.written ++ (List.range bytes.length).map fun i =>
      (stack.store bytes).current + BitVec.ofNat 32 i := rfl

theorem Holds.store_current (h : stack.Holds window below)
    (hfits : bytes.length + below.length ≤ 4096) :
    (stack.store bytes).current =
      window + BitVec.ofNat 32 (4096 - (bytes ++ below).length) := by
  simp only [store, h.current, List.length_append]
  apply BitVec.eq_of_toNat_eq
  simp only [BitVec.toNat_sub, BitVec.toNat_add, BitVec.toNat_ofNat]
  omega

/-- A push that fits leaves what was there and puts its bytes below it. -/
theorem Holds.store (h : stack.Holds window below)
    (hfits : bytes.length + below.length ≤ 4096) :
    (stack.store bytes).Holds window (bytes ++ below) := by
  have hcurrent := h.store_current hfits
  refine ⟨h.aligned, by simpa using hfits, hcurrent, h.translator, fun i hi => ?_,
    fun addr haddr => ?_⟩
  · rw [List.length_append] at hi
    have hindex : ((stack.store bytes).current + BitVec.ofNat 32 i -
        (stack.store bytes).current).toNat = i := by
      rw [BitVec.add_comm, BitVec.add_sub_cancel, BitVec.toNat_ofNat]
      omega
    change some (bytes[((stack.store bytes).current + BitVec.ofNat 32 i -
      (stack.store bytes).current).toNat]?.getD _) = _
    rw [hindex]
    by_cases hlt : i < bytes.length
    · rw [List.getElem?_append_left hlt]
      simp [hlt]
    · have hplace : (stack.store bytes).current + BitVec.ofNat 32 i =
          stack.current + BitVec.ofNat 32 (i - bytes.length) := by
        rw [hcurrent, h.current]
        apply BitVec.eq_of_toNat_eq
        simp only [BitVec.toNat_add, BitVec.toNat_ofNat, List.length_append]
        omega
      rw [List.getElem?_append_right (by omega), ← h.content _ (by omega), ← hplace]
      simp [hlt]
  · rw [store_written, List.mem_append, List.mem_map] at haddr
    rcases haddr with hold | ⟨i, hi, rfl⟩
    · exact h.within addr hold
    · rw [List.mem_range] at hi
      have hplace : (stack.store bytes).current + BitVec.ofNat 32 i =
          window + BitVec.ofNat 32 (4096 - (bytes ++ below).length + i) := by
        rw [hcurrent, BitVec.add_assoc, ← BitVec.ofNat_add]
      rw [hplace]
      exact thisPage_window h.aligned (by simp only [List.length_append]; omega)

theorem pageOffset_toNat (addr : VirtualAddress) : (pageOffset addr).toNat = addr.toNat % 4096 := by
  rw [pageOffset, BitVec.toNat_and]
  exact Nat.and_two_pow_sub_one_eq_mod addr.toNat 12

/-- What lies on the page is translated to the same offset of the user page. -/
theorem Holds.toUser (h : stack.Holds window bytes) {n : Nat} (hn : n < 4096) :
    stack.toUser (window + BitVec.ofNat 32 n) = .ok (stack.userBase + BitVec.ofNat 32 n) := by
  have hoffset : pageOffset (window + BitVec.ofNat 32 n) = BitVec.ofNat 32 n := by
    have haligned := (pageAligned_iff window).mp h.aligned
    apply BitVec.eq_of_toNat_eq
    rw [pageOffset_toNat, BitVec.toNat_add, BitVec.toNat_ofNat]
    omega
  simp [Stack.toUser, translate, h.translator, thisPage_window h.aligned hn, hoffset]

/-- Where strings lie on the page that are pushed when `n` bytes are in use. -/
def stringOffsets (n : Nat) : List (List (BitVec 8)) → List Nat
  | [] => []
  | str :: rest => (4096 - (n + stringBytes str)) :: stringOffsets (n + stringBytes str) rest

/-- Their addresses in a page at `base`. -/
def stringAddrs (base : VirtualAddress) (n : Nat) (strs : List (List (BitVec 8))) :
    List VirtualAddress :=
  (stringOffsets n strs).map fun offset => base + BitVec.ofNat 32 offset

/-- The bytes of strings that are pushed one after the other. -/
def stringImage : List (List (BitVec 8)) → List (BitVec 8)
  | [] => []
  | str :: rest => stringImage rest ++ padded str

@[simp] theorem length_stringImage (strs : List (List (BitVec 8))) :
    (stringImage strs).length = stringsBytes strs := by
  induction strs with
  | nil => rfl
  | cons str rest ih => simp [stringImage, ih, Nat.add_comm]

theorem stringBytes_pos (str : List (BitVec 8)) : str.length + 1 ≤ stringBytes str := by
  unfold stringBytes
  omega

theorem Holds.pushString (h : stack.Holds window below) (str : List (BitVec 8))
    (hfits : stringBytes str + below.length ≤ 4096) :
    (stack.store (padded str)).Holds window (padded str ++ below) ∧
      (stack.store (padded str)).toUser (stack.store (padded str)).current =
        .ok (stack.userBase + BitVec.ofNat 32 (4096 - (below.length + stringBytes str))) := by
  have hstore : (stack.store (padded str)).Holds window (padded str ++ below) :=
    h.store (by simpa using hfits)
  have hpos := stringBytes_pos str
  have hoffset : 4096 - (padded str ++ below).length = 4096 - (below.length + stringBytes str) := by
    rw [List.length_append, length_padded, Nat.add_comm]
  refine ⟨hstore, ?_⟩
  rw [hstore.current, hoffset]
  exact hstore.toUser (by omega)

/-- Strings that fit are pushed, and their addresses are those of the offsets. -/
theorem Holds.pushStrings (strs : List (List (BitVec 8))) (h : stack.Holds window below)
    (hfits : stringsBytes strs + below.length ≤ 4096) :
    ∃ stack', stack.pushStrings strs = .ok (stringAddrs stack.userBase below.length strs, stack') ∧
      stack'.userBase = stack.userBase ∧ stack'.Holds window (stringImage strs ++ below) := by
  induction strs generalizing stack below with
  | nil => exact ⟨stack, rfl, rfl, h⟩
  | cons str rest ih =>
      rw [stringsBytes_cons] at hfits
      obtain ⟨hstore, huser⟩ := h.pushString str (by omega)
      obtain ⟨stack', heq, hbase, hholds⟩ := ih hstore (by simp; omega)
      have hlength : (padded str ++ below).length = below.length + stringBytes str := by
        rw [List.length_append, length_padded, Nat.add_comm]
      refine ⟨stack', ?_, hbase, ?_⟩
      · rw [hlength] at heq
        simp only [Stack.pushStrings, Stack.pushString, huser, heq]
        rfl
      · simpa [stringImage] using hholds

theorem Holds.pushVal (h : stack.Holds window below) (value : BitVec 32)
    (hfits : 4 + below.length ≤ 4096) :
    (stack.pushVal value).Holds window (wordBytes value ++ below) :=
  h.store (by simpa using hfits)

theorem Holds.pushVals (values : List (BitVec 32)) (h : stack.Holds window below)
    (hfits : 4 * values.length + below.length ≤ 4096) :
    (stack.pushVals values).Holds window (values.reverse.flatMap wordBytes ++ below) := by
  induction values generalizing stack below with
  | nil => exact h
  | cons value rest ih =>
      rw [List.length_cons] at hfits
      have hrest := ih (h.pushVal value (by omega)) (by simp; omega)
      simpa [Stack.pushVals] using hrest

@[simp] theorem pushVals_userBase (stack : Stack) (values : List (BitVec 32)) :
    (stack.pushVals values).userBase = stack.userBase := by
  induction values generalizing stack with
  | nil => rfl
  | cons value rest ih => exact ih (stack.pushVal value)

end Stack

/-- The words that a program finds on its stack when it starts. -/
def entryWords (args envs : List VirtualAddress) (auxv : List (BitVec 32 × BitVec 32)) :
    List (BitVec 32) :=
  BitVec.ofNat 32 args.length :: args ++ 0#32 :: envs ++ 0#32 ::
    auxv.flatMap fun entry => [entry.1, entry.2]

def auxiliaryVector : List (BitVec 32 × BitVec 32) := [(AT_PAGESZ, 4096#32), (AT_NULL, 0#32)]

namespace Stack

variable {stack : Stack} {window : VirtualAddress} {below : List (BitVec 8)}
  {argv envp : List (List (BitVec 8))}

@[simp] theorem length_stringOffsets (n : Nat) (strs : List (List (BitVec 8))) :
    (stringOffsets n strs).length = strs.length := by
  induction strs generalizing n with
  | nil => rfl
  | cons str rest ih => simp [stringOffsets, ih]

@[simp] theorem pushTables_userBase (stack : Stack) (args envs : List VirtualAddress) :
    (stack.pushTables args envs).userBase = stack.userBase := by
  simp [pushTables, pushVal]

theorem Holds.pushTables (h : stack.Holds window below) (args envs : List VirtualAddress)
    (hfits : 4 * (args.length + envs.length + 7) + below.length ≤ 4096) :
    (stack.pushTables args envs).Holds window
      ((entryWords args envs auxiliaryVector).flatMap wordBytes ++ below) := by
  have hauxv := h.pushVals [0#32, AT_NULL, 4096#32, AT_PAGESZ] (by simp; omega)
  have hnull := hauxv.pushVal 0#32 (by simp; omega)
  have henvs := hnull.pushVals envs.reverse (by simp; omega)
  have hnull' := henvs.pushVal 0#32 (by simp; omega)
  have hargs := hnull'.pushVals args.reverse (by simp; omega)
  have hcount := hargs.pushVal (BitVec.ofNat 32 args.length) (by simp; omega)
  have hwords : wordBytes (BitVec.ofNat 32 args.length) ++
      (args.flatMap wordBytes ++ (wordBytes 0#32 ++ (envs.flatMap wordBytes ++
        (wordBytes 0#32 ++
          ([AT_PAGESZ, 4096#32, AT_NULL, 0#32].flatMap wordBytes ++ below))))) =
      (entryWords args envs auxiliaryVector).flatMap wordBytes ++ below := by
    simp [entryWords, auxiliaryVector]
  rw [← hwords]
  simp only [List.reverse_reverse] at hcount
  exact hcount

@[simp] theorem length_stringAddrs (base : VirtualAddress) (n : Nat)
    (strs : List (List (BitVec 8))) : (stringAddrs base n strs).length = strs.length := by
  simp [stringAddrs]

/-- The words for some arguments and an environment on a page at `base`. -/
def argumentWords (base : VirtualAddress) (argv envp : List (List (BitVec 8))) :
    List (BitVec 32) :=
  entryWords (stringAddrs base 0 argv) (stringAddrs base (stringsBytes argv) envp) auxiliaryVector

/-- The words and above them the strings. -/
def argumentImage (base : VirtualAddress) (argv envp : List (List (BitVec 8))) :
    List (BitVec 8) :=
  (argumentWords base argv envp).flatMap wordBytes ++ (stringImage envp ++ stringImage argv)

@[simp] theorem length_argumentWords (base : VirtualAddress) (argv envp : List (List (BitVec 8))) :
    (argumentWords base argv envp).length = argv.length + envp.length + 7 := by
  simp [argumentWords, entryWords, auxiliaryVector]
  omega

@[simp] theorem length_argumentImage (base : VirtualAddress) (argv envp : List (List (BitVec 8))) :
    (argumentImage base argv envp).length = imageBytes argv envp := by
  simp only [argumentImage, List.length_append, List.length_flatMap, length_wordBytes,
    List.map_const', List.sum_replicate, length_argumentWords, length_stringImage, imageBytes,
    smul_eq_mul]
  omega

/-- An image that fits is stored whole. -/
theorem Holds.loadArgv (h : stack.Holds window []) (hfits : imageBytes argv envp ≤ 4096) :
    ∃ stack', stack.loadArgv argv envp = .ok stack' ∧ stack'.userBase = stack.userBase ∧
      stack'.Holds window (argumentImage stack.userBase argv envp) := by
  unfold imageBytes at hfits
  obtain ⟨first, hargs, hbase, hfirst⟩ := h.pushStrings argv (by simp; omega)
  obtain ⟨second, henvs, hbase', hsecond⟩ := hfirst.pushStrings envp (by simp; omega)
  simp only [List.append_nil, length_stringImage, hbase] at henvs hsecond
  refine ⟨second.pushTables _ _, ?_, ?_, hsecond.pushTables _ _ ?_⟩
  · rw [Stack.loadArgv, hargs]
    change (first.pushStrings envp >>= fun p => pure (p.2.pushTables _ p.1)) = _
    rw [henvs]
    rfl
  · rw [pushTables_userBase, hbase', hbase]
  · simp
    omega

end Stack

end Nyan.Task
