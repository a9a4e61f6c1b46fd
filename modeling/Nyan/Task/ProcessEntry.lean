import Nyan.Paging.FrameAccounting
import Nyan.Paging.FreshPages
import Nyan.Task.ArgumentStack

/-!
What a program finds on its stack when it starts, by the System V i386 layout: from
the stack pointer upwards the count of arguments, their addresses, a null, the
addresses of the environment, a null, and the auxiliary vector. `ProcessEntry` says
this of any memory, without a word about how it got there, and `loadStack_decodes`
says it of the memory of the new program after `loadArgv`.
-/

namespace Nyan.Task

open Paging

/-- A string and its terminating zero lie at an address. -/
structure StringAt (memory : VirtualAddress → BitVec 8) (addr : VirtualAddress)
    (str : List (BitVec 8)) : Prop where
  nulFree : 0#8 ∉ str
  bytes : ∀ i ≤ str.length, memory (addr + BitVec.ofNat 32 i) = str.getD i 0#8

/-- The objects on the stack, each with its first address and its size: the words from
the stack pointer on, and the strings. -/
def entryObjects (esp : VirtualAddress) (words : Nat) (ptrs : List VirtualAddress)
    (strs : List (List (BitVec 8))) : List (Nat × Nat) :=
  ((List.range words).map fun i => (esp.toNat + 4 * i, 4)) ++
    (ptrs.zip strs).map fun p => (p.1.toNat, p.2.length + 1)

def Apart (first second : Nat × Nat) : Prop :=
  first.1 + first.2 ≤ second.1 ∨ second.1 + second.2 ≤ first.1

/-- The memory from `esp` on is read as these arguments, this environment and this
auxiliary vector. -/
structure ProcessEntry (memory : VirtualAddress → BitVec 8) (esp : VirtualAddress)
    (argv envp : List (List (BitVec 8))) (auxv : List (BitVec 32 × BitVec 32))
    (args envs : List VirtualAddress) : Prop where
  argc : (VMSpace.wordAt memory esp).toNat = argv.length
  words : ∀ i < (entryWords args envs auxv).length,
    some (VMSpace.wordAt memory (esp + BitVec.ofNat 32 (4 * i))) =
      (entryWords args envs auxv)[i]?
  argStrings : List.Forall₂ (StringAt memory) args argv
  envStrings : List.Forall₂ (StringAt memory) envs envp
  user : ∀ object ∈ entryObjects esp (entryWords args envs auxv).length (args ++ envs)
    (argv ++ envp), 0xBFFFF000 ≤ object.1 ∧ object.1 + object.2 ≤ 0xC0000000
  apart : (entryObjects esp (entryWords args envs auxv).length (args ++ envs)
    (argv ++ envp)).Pairwise Apart

namespace Stack

variable {stack : Stack} {window base : VirtualAddress} {bytes below : List (BitVec 8)}
  {memory : VirtualAddress → BitVec 8} {words : List (BitVec 32)}

/-- A word is put together again from its bytes. -/
theorem word_of_bytes (value : BitVec 32) :
    value.extractLsb' 24 8 ++ value.extractLsb' 16 8 ++ value.extractLsb' 8 8 ++
      value.extractLsb' 0 8 = value := by
  ext i hi
  simp only [BitVec.getElem_append, BitVec.getElem_extractLsb']
  split
  · simp [BitVec.getLsbD_eq_getElem hi]
  · split
    · rw [show 8 + (i - 8) = i by omega, BitVec.getLsbD_eq_getElem hi]
    · split
      · rw [show 16 + (i - 8 - 8) = i by omega, BitVec.getLsbD_eq_getElem hi]
      · rw [show 24 + (i - 8 - 8 - 8) = i by omega, BitVec.getLsbD_eq_getElem hi]

theorem wordBytes_getElem? (value : BitVec 32) {j : Nat} (hj : j < 4) :
    (wordBytes value)[j]? = some (value.extractLsb' (8 * j) 8) := by
  simp [wordBytes, hj]

theorem flatMap_wordBytes_getElem? {i j : Nat} (hi : i < words.length) (hj : j < 4) :
    (words.flatMap wordBytes ++ below)[4 * i + j]? =
      some ((words.getD i 0#32).extractLsb' (8 * j) 8) := by
  induction words generalizing i with
  | nil => simp at hi
  | cons word rest ih =>
      rw [List.flatMap_cons, List.append_assoc]
      cases i with
      | zero =>
          rw [List.getElem?_append_left (by simpa using hj)]
          simpa using wordBytes_getElem? word hj
      | succ i =>
          rw [List.getElem?_append_right (by simp; omega), length_wordBytes,
            show 4 * (i + 1) + j - 4 = 4 * i + j by omega]
          simpa using ih (by simpa using hi)

/-- A memory shows the page of the stack at another address. -/
def ShownAt (stack : Stack) (window base : VirtualAddress)
    (memory : VirtualAddress → BitVec 8) : Prop :=
  ∀ n < 4096, memory (base + BitVec.ofNat 32 n) = stack.memory (window + BitVec.ofNat 32 n)

/-- What the memory that shows a page has at an offset. -/
theorem Holds.shown (h : stack.Holds window bytes) (hshown : stack.ShownAt window base memory)
    {i : Nat} (hi : i < bytes.length) :
    some (memory (base + BitVec.ofNat 32 (4096 - bytes.length + i))) = bytes[i]? := by
  have hsmall := h.small
  rw [hshown _ (by omega), BitVec.ofNat_add, ← BitVec.add_assoc, ← h.current]
  exact h.content i hi

theorem Holds.word (h : stack.Holds window (words.flatMap wordBytes ++ below))
    (hshown : stack.ShownAt window base memory) {i : Nat} (hi : i < words.length) :
    some (VMSpace.wordAt memory (base + BitVec.ofNat 32
      (4096 - (words.flatMap wordBytes ++ below).length) + BitVec.ofNat 32 (4 * i))) =
      words[i]? := by
  have hlength : (words.flatMap wordBytes).length = 4 * words.length := by
    simp [List.length_flatMap, Nat.mul_comm]
  have hbyte : ∀ j < 4, memory (base + BitVec.ofNat 32
      (4096 - (words.flatMap wordBytes ++ below).length) + BitVec.ofNat 32 (4 * i) +
        BitVec.ofNat 32 j) = (words.getD i 0#32).extractLsb' (8 * j) 8 := by
    intro j hj
    have hshow := h.shown hshown (i := 4 * i + j) (by
      rw [List.length_append]
      omega)
    rw [flatMap_wordBytes_getElem? hi hj, Option.some_inj] at hshow
    rw [BitVec.add_assoc, BitVec.add_assoc, ← BitVec.ofNat_add, ← BitVec.ofNat_add]
    exact hshow
  have hlow := hbyte 0 (by omega)
  rw [BitVec.add_zero] at hlow
  rw [VMSpace.wordAt, hlow, hbyte 1 (by omega), hbyte 2 (by omega), hbyte 3 (by omega),
    word_of_bytes]
  simp [List.getD, hi]

/-- A string that was pushed lies among the bytes at an offset of the page. -/
def Placed (bytes : List (BitVec 8)) (offset : Nat) (str : List (BitVec 8)) : Prop :=
  ∃ above below, bytes = above ++ (padded str ++ below) ∧
    offset + (padded str ++ below).length = 4096

theorem placed_stringImage (strs : List (List (BitVec 8))) (above below : List (BitVec 8))
    (hfits : stringsBytes strs + below.length ≤ 4096) :
    List.Forall₂ (Placed (above ++ (stringImage strs ++ below)))
      (stringOffsets below.length strs) strs := by
  induction strs generalizing below with
  | nil => exact .nil
  | cons str rest ih =>
      rw [stringsBytes_cons] at hfits
      have hlength : (padded str ++ below).length = below.length + stringBytes str := by
        rw [List.length_append, length_padded, Nat.add_comm]
      have hrest := ih (padded str ++ below) (by omega)
      rw [hlength, ← List.append_assoc (stringImage rest)] at hrest
      refine .cons ⟨above ++ stringImage rest, below, ?_, ?_⟩ hrest
      · simp [stringImage]
      · omega

theorem Placed.stringAt {offset : Nat} {str : List (BitVec 8)} (h : Placed bytes offset str)
    (hholds : stack.Holds window bytes) (hshown : stack.ShownAt window base memory)
    (hstr : 0#8 ∉ str) : StringAt memory (base + BitVec.ofNat 32 offset) str := by
  obtain ⟨above, below, rfl, hoffset⟩ := h
  refine ⟨hstr, fun i hi => ?_⟩
  have hpos := stringBytes_pos str
  simp only [List.length_append, length_padded] at hoffset
  have hshow := hholds.shown hshown (i := above.length + i) (by
    simp only [List.length_append, length_padded]
    omega)
  have hsmall := hholds.small
  simp only [List.length_append, length_padded] at hsmall hshow
  rw [List.getElem?_append_right (by omega), Nat.add_sub_cancel_left,
    List.getElem?_append_left (by rw [length_padded]; omega), padded_getElem? hi,
    Option.some_inj] at hshow
  rw [BitVec.add_assoc, ← BitVec.ofNat_add, ← hshow]
  congr 3
  omega

theorem stringsAt {offsets : List Nat} {strs : List (List (BitVec 8))}
    (h : List.Forall₂ (Placed bytes) offsets strs) (hholds : stack.Holds window bytes)
    (hshown : stack.ShownAt window base memory) (hstrs : ∀ str ∈ strs, 0#8 ∉ str) :
    List.Forall₂ (StringAt memory) (offsets.map fun n => base + BitVec.ofNat 32 n) strs := by
  induction h with
  | nil => exact .nil
  | cons hplaced _ ih =>
      obtain ⟨hstr, hrest⟩ := List.forall_mem_cons.mp hstrs
      exact .cons (hplaced.stringAt hholds hshown hstr) (ih hrest)

/-- Strings lie between the bytes that were in use before and those that come after. -/
theorem stringOffsets_bounds {n : Nat} (strs : List (List (BitVec 8)))
    (hfits : n + stringsBytes strs ≤ 4096) :
    ∀ p ∈ (stringOffsets n strs).zip strs,
      4096 - (n + stringsBytes strs) ≤ p.1 ∧ p.1 + (p.2.length + 1) ≤ 4096 - n := by
  induction strs generalizing n with
  | nil => simp [stringOffsets]
  | cons str rest ih =>
      rw [stringsBytes_cons] at hfits ⊢
      have hpos := stringBytes_pos str
      intro p hp
      rw [stringOffsets, List.zip_cons_cons, List.mem_cons] at hp
      rcases hp with rfl | hp
      · exact ⟨by simp only; omega, by simp only; omega⟩
      · have hbounds := ih (n := n + stringBytes str) (by omega) p hp
        omega

theorem stringOffsets_apart {n : Nat} (strs : List (List (BitVec 8)))
    (hfits : n + stringsBytes strs ≤ 4096) :
    ((stringOffsets n strs).zip strs).Pairwise fun first second =>
      second.1 + (second.2.length + 1) ≤ first.1 := by
  induction strs generalizing n with
  | nil => exact .nil
  | cons str rest ih =>
      rw [stringsBytes_cons] at hfits
      rw [stringOffsets, List.zip_cons_cons, List.pairwise_cons]
      refine ⟨fun p hp => ?_, ih (by omega)⟩
      exact (stringOffsets_bounds (n := n + stringBytes str) rest (by omega) p hp).2

theorem stringOffsets_append (n : Nat) (first second : List (List (BitVec 8))) :
    stringOffsets n (first ++ second) =
      stringOffsets n first ++ stringOffsets (n + stringsBytes first) second := by
  induction first generalizing n with
  | nil => simp [stringOffsets]
  | cons str rest ih => simp [stringOffsets, ih, Nat.add_assoc]

theorem stringsBytes_append (first second : List (List (BitVec 8))) :
    stringsBytes (first ++ second) = stringsBytes first + stringsBytes second := by
  simp [stringsBytes]

end Stack

/-- The objects of a stack page, by their offsets. -/
def offsetObjects (lower words : Nat) (strs : List (List (BitVec 8))) : List (Nat × Nat) :=
  ((List.range words).map fun i => (lower + 4 * i, 4)) ++
    ((Stack.stringOffsets 0 strs).zip strs).map fun p => (p.1, p.2.length + 1)

section Objects

variable {lower words : Nat} {strs : List (List (BitVec 8))}

theorem offsetObjects_bounds (hfits : lower + 4 * words + stringsBytes strs = 4096) :
    ∀ object ∈ offsetObjects lower words strs,
      lower ≤ object.1 ∧ object.1 + object.2 ≤ 4096 := by
  intro object hobject
  rcases List.mem_append.mp hobject with hword | hstr
  · obtain ⟨i, hi, rfl⟩ := List.mem_map.mp hword
    rw [List.mem_range] at hi
    exact ⟨by simp, by simp only; omega⟩
  · obtain ⟨p, hp, rfl⟩ := List.mem_map.mp hstr
    have hbounds := Stack.stringOffsets_bounds (n := 0) strs (by omega) p hp
    exact ⟨by simp only; omega, by simp only; omega⟩

theorem offsetObjects_apart (hfits : lower + 4 * words + stringsBytes strs = 4096) :
    (offsetObjects lower words strs).Pairwise Apart := by
  refine List.pairwise_append.mpr ⟨?_, ?_, ?_⟩
  · refine List.pairwise_map.mpr (List.pairwise_lt_range.imp fun hlt => .inl ?_)
    simp only
    omega
  · exact List.pairwise_map.mpr
      ((Stack.stringOffsets_apart (n := 0) strs (by omega)).imp fun h => .inr h)
  · intro word hword str hstr
    obtain ⟨i, hi, rfl⟩ := List.mem_map.mp hword
    obtain ⟨p, hp, rfl⟩ := List.mem_map.mp hstr
    rw [List.mem_range] at hi
    have hbounds := Stack.stringOffsets_bounds (n := 0) strs (by omega) p hp
    refine .inl ?_
    simp only
    omega

theorem user_toNat {n : Nat} (hn : n < 4096) :
    (0xBFFFF000#32 + BitVec.ofNat 32 n).toNat = 0xBFFFF000 + n := by
  rw [BitVec.toNat_add, BitVec.toNat_ofNat, BitVec.toNat_ofNat]
  omega

theorem entryObjects_eq (hfits : lower + 4 * words + stringsBytes strs = 4096)
    (hwords : 0 < words) :
    entryObjects (0xBFFFF000#32 + BitVec.ofNat 32 lower) words
        ((Stack.stringOffsets 0 strs).map fun n => 0xBFFFF000#32 + BitVec.ofNat 32 n) strs =
      (offsetObjects lower words strs).map fun object => (0xBFFFF000 + object.1, object.2) := by
  rw [entryObjects, offsetObjects, List.map_append, List.zip_map_left, List.map_map, List.map_map,
    List.map_map, user_toNat (by omega)]
  congr 1
  · refine List.map_congr_left fun i _ => ?_
    simp [Nat.add_assoc]
  · refine List.map_congr_left fun p hp => ?_
    have hbounds := Stack.stringOffsets_bounds (n := 0) strs (by omega) p hp
    have huser := user_toNat (n := p.1) (by omega)
    simp [huser]

end Objects

/-- The bytes of a program's memory, with zeros where no page is. -/
def userBytes (s : Paging.System) (k : Nat) (addr : VirtualAddress) : BitVec 8 :=
  (userByte s k addr).getD 0#8

section User

variable {s : Paging.System} {k : Nat} {window : VirtualAddress} {memory : VirtualAddress → BitVec 8}
  {dir frame : PhysicalAddress} {pages : Memory} {argv envp : List (List (BitVec 8))}

/-- The frame has at an offset what the window has there. -/
theorem byteIn_page (stack : Stack) (window : VirtualAddress) {n : Nat} (hn : n < 4096) :
    byteIn (stack.page window) (0xBFFFF000#32 + BitVec.ofNat 32 n) =
      stack.memory (window + BitVec.ofNat 32 n) := by
  have hbytes := extract_append (fun j => stack.memory
    (window + BitVec.ofNat 32 (4 * (n / 4)) + BitVec.ofNat 32 j)) (Nat.mod_lt n (by decide : 0 < 4))
  have hplace : window + BitVec.ofNat 32 (4 * (n / 4)) + BitVec.ofNat 32 (n % 4) =
      window + BitVec.ofNat 32 n := by
    rw [BitVec.add_assoc, ← BitVec.ofNat_add, Nat.div_add_mod]
  have hword : (0xBFFFF000 + n) % 4096 / 4 = n / 4 := by omega
  have hbyte : (0xBFFFF000 + n) % 4 = n % 4 := by omega
  simp only [BitVec.add_zero, hplace] at hbytes
  simp only [byteIn, Stack.page, user_toNat hn, hword, hbyte, VMSpace.wordAt]
  exact hbytes

/-- The program sees the page of the stack. -/
theorem userByte_filled (hsafe : s.Safe) (hk : s.dir k = some dir)
    (halloc : UserDirectory.alloc s.memory dir 0xBFFFF000#32 true = some (frame, pages))
    (stack : Stack) (window : VirtualAddress) {n : Nat} (hn : n < 4096) :
    userByte { s with memory := pages.setPage frame (stack.page window) } k
        (0xBFFFF000#32 + BitVec.ofNat 32 n) =
      some (stack.memory (window + BitVec.ofNat 32 n)) := by
  have huser : UserPageAddr 0xBFFFF000#32 := ⟨by decide, by decide⟩
  obtain ⟨place, hplace⟩ := userPlace_of_user huser
  obtain ⟨_, hmapping⟩ := hsafe.allocFilled hplace hk halloc (stack.page window)
  have hpage : thisPage (0xBFFFF000#32 + BitVec.ofNat 32 n) = 0xBFFFF000#32 :=
    Stack.thisPage_window (by decide) hn
  have hplace' : userPlace (0xBFFFF000#32 + BitVec.ofNat 32 n) = some place := by
    rw [← userPlace_thisPage, hpage, hplace]
  have hself := congrFun hmapping (k, place)
  rw [Function.update_self] at hself
  rw [userByte_of_mapping hplace' hself, byteIn_page stack window hn]

/-- A page that holds the image is read as the arguments, wherever it is shown. -/
theorem processEntry_of_holds {stack : Stack} {shown : VirtualAddress → BitVec 8}
    (hstrings : ∀ str ∈ argv ++ envp, 0#8 ∉ str) (hfits : imageBytes argv envp ≤ 4096)
    (hholds : stack.Holds window (Stack.argumentImage 0xBFFFF000#32 argv envp))
    (hshown : stack.ShownAt window 0xBFFFF000#32 shown) :
    ProcessEntry shown (0xBFFFF000#32 + BitVec.ofNat 32 (4096 - imageBytes argv envp)) argv envp
      auxiliaryVector (Stack.stringAddrs 0xBFFFF000#32 0 argv)
        (Stack.stringAddrs 0xBFFFF000#32 (stringsBytes argv) envp) := by
  have hwords := fun i hi => hholds.word hshown (i := i) hi
  change ∀ i < (Stack.argumentWords 0xBFFFF000#32 argv envp).length,
    some (VMSpace.wordAt shown (0xBFFFF000#32 +
      BitVec.ofNat 32 (4096 - (Stack.argumentImage 0xBFFFF000#32 argv envp).length) +
        BitVec.ofNat 32 (4 * i))) = (Stack.argumentWords 0xBFFFF000#32 argv envp)[i]? at hwords
  rw [Stack.length_argumentImage] at hwords
  have hcount := Stack.length_argumentWords 0xBFFFF000#32 argv envp
  have hlower : 4096 - imageBytes argv envp +
      4 * (Stack.argumentWords 0xBFFFF000#32 argv envp).length +
        stringsBytes (argv ++ envp) = 4096 := by
    rw [Stack.stringsBytes_append, hcount]
    unfold imageBytes at hfits ⊢
    omega
  have hobjects : entryObjects
      (0xBFFFF000#32 + BitVec.ofNat 32 (4096 - imageBytes argv envp))
      (entryWords (Stack.stringAddrs 0xBFFFF000#32 0 argv)
        (Stack.stringAddrs 0xBFFFF000#32 (stringsBytes argv) envp) auxiliaryVector).length
      (Stack.stringAddrs 0xBFFFF000#32 0 argv ++
        Stack.stringAddrs 0xBFFFF000#32 (stringsBytes argv) envp) (argv ++ envp) =
      (offsetObjects (4096 - imageBytes argv envp)
        (Stack.argumentWords 0xBFFFF000#32 argv envp).length (argv ++ envp)).map
          fun object => (0xBFFFF000 + object.1, object.2) := by
    have heq := entryObjects_eq hlower (by omega)
    rw [Stack.stringOffsets_append, List.map_append, Nat.zero_add] at heq
    exact heq
  have hplacedArgs := Stack.placed_stringImage argv
    ((Stack.argumentWords 0xBFFFF000#32 argv envp).flatMap Stack.wordBytes ++
      Stack.stringImage envp) [] (by simp; unfold imageBytes at hfits; omega)
  rw [List.append_nil, List.append_assoc] at hplacedArgs
  have hplacedEnvs := Stack.placed_stringImage envp
    ((Stack.argumentWords 0xBFFFF000#32 argv envp).flatMap Stack.wordBytes)
    (Stack.stringImage argv) (by simp; unfold imageBytes at hfits; omega)
  rw [Stack.length_stringImage] at hplacedEnvs
  refine ⟨?_, hwords, ?_, ?_, ?_, ?_⟩
  · have hfirst := hwords 0 (by omega)
    rw [Nat.mul_zero, BitVec.add_zero, Stack.argumentWords, entryWords] at hfirst
    have hargc := Option.some.inj hfirst
    rw [Stack.length_stringAddrs] at hargc
    rw [hargc, BitVec.toNat_ofNat]
    unfold imageBytes at hfits
    omega
  · exact Stack.stringsAt hplacedArgs hholds hshown fun str hstr =>
      hstrings str (List.mem_append_left _ hstr)
  · exact Stack.stringsAt hplacedEnvs hholds hshown fun str hstr =>
      hstrings str (List.mem_append_right _ hstr)
  · intro object hobject
    rw [hobjects] at hobject
    obtain ⟨inner, hinner, rfl⟩ := List.mem_map.mp hobject
    have hbounds := offsetObjects_bounds hlower inner hinner
    exact ⟨by simp, by simp only; omega⟩
  · rw [hobjects]
    refine List.pairwise_map.mpr ((offsetObjects_apart hlower).imp fun hapart => ?_)
    rcases hapart with hbefore | hafter
    · exact .inl (by simp only; omega)
    · exact .inr (by simp only; omega)

variable (window memory argv envp) in
/-- **The argument stack.** If the image fits the page, `loadArgv` returns, and what the
new program has from its stack pointer on is its arguments and its environment. -/
theorem loadStack_decodes (hsafe : s.Safe) (hk : s.dir k = some dir)
    (halloc : UserDirectory.alloc s.memory dir 0xBFFFF000#32 true = some (frame, pages))
    (hwindow : PageAligned window) (hstrings : ∀ str ∈ argv ++ envp, 0#8 ∉ str)
    (hfits : imageBytes argv envp ≤ 4096) :
    ∃ load args envs, loadStack s k window memory argv envp = some (.ok load) ∧
      (∀ n < 4096, (userByte load.system k (0xBFFFF000#32 + BitVec.ofNat 32 n)).isSome) ∧
      ProcessEntry (userBytes load.system k) load.userEsp argv envp auxiliaryVector args envs := by
  have hprev : prevPage 0xC0000000#32 = 0xBFFFF000#32 := by decide
  have hmake := Stack.make_holds hwindow 0xC0000000#32 memory
  obtain ⟨stack, hload, hbase, hholds⟩ := hmake.loadArgv hfits
  have hmakeBase : (Stack.make window 0xC0000000#32 memory).userBase = 0xBFFFF000#32 := hprev
  rw [hmakeBase] at hbase hholds
  have hesp : stack.userEsp =
      .ok (0xBFFFF000#32 + BitVec.ofNat 32 (4096 - imageBytes argv envp)) := by
    have hpos : 0 < imageBytes argv envp := by
      unfold imageBytes
      omega
    rw [Stack.userEsp, hholds.current, Stack.length_argumentImage, hholds.toUser (by omega), hbase]
  have hbyte := fun n hn => userByte_filled hsafe hk halloc stack window (n := n) hn
  refine ⟨{ system := { s with memory := pages.setPage frame (stack.page window) }
            userEsp := 0xBFFFF000#32 + BitVec.ofNat 32 (4096 - imageBytes argv envp), stack },
    _, _, ?_, fun n hn => ?_, processEntry_of_holds hstrings hfits hholds fun n hn => ?_⟩
  · simp only [loadStack, hk, hprev, halloc, hload, Option.bind_eq_bind, Option.bind_some]
    change some (Stack.userEsp stack >>= _) = _
    rw [hesp]
    rfl
  · rw [hbyte n hn]
    rfl
  · rw [userBytes, hbyte n hn]
    rfl

end User

theorem fresh_frames_le : 0x40 ≤ 0x7FC0 := by decide

/-- The directory of a program without pages. -/
def freshDirectory : Option Paging.System :=
  (Paging.System.boot 0x40 fresh_frames_le (fun _ _ => 0#32) fun _ => 0x101003#32).step .fork

/-- The arguments `ls` and `-l` and an environment of one empty string. -/
theorem loadStack_decodes_two_arguments :
    ∃ s load args envs, freshDirectory = some s ∧
      loadStack s 0 0xF0000000#32 (fun _ => 0xFF#8) [[0x6C#8, 0x73#8], [0x2D#8, 0x6C#8]] [[]] =
        some (.ok load) ∧
      ProcessEntry (userBytes load.system 0) load.userEsp [[0x6C#8, 0x73#8], [0x2D#8, 0x6C#8]]
        [[]] auxiliaryVector args envs := by
  obtain ⟨s, hs, hlive, hsome, hfree⟩ : ∃ s ∈ freshDirectory, s.live.length ≤ 1 ∧
      (s.dir 0).isSome ∧ 1 < UserDirectory.free s.memory := by
    decide +kernel
  obtain ⟨dir, hk⟩ := Option.isSome_iff_exists.mp hsome
  obtain ⟨frame, pages, halloc, _⟩ :=
    UserDirectory.alloc_defined dir hfree 0xBFFFF000#32 true
  have hgood := (Paging.System.fork_spec (Paging.System.boot_good ..) hs).1
  have hsafe := hgood.safe (Paging.System.bounded_of_live (hlive.trans (by decide)))
  obtain ⟨load, args, envs, hload, _, hentry⟩ :=
    loadStack_decodes 0xF0000000#32 (fun _ => 0xFF#8) [[0x6C#8, 0x73#8], [0x2D#8, 0x6C#8]] [[]]
      hsafe hk halloc (by decide) (by decide) (by decide)
  exact ⟨s, load, args, envs, hs, hload, hentry⟩

end Nyan.Task
