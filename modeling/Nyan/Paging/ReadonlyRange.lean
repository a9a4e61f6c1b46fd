import Nyan.Paging.RangeExact

/-!
The scan by which the kernel copies in strings and argument vectors
(`validateReadonlyRange` in `paging/vma.hpp`). It reads element after element from
an address on until one is the last, and goes on from an area to the next one as
long as that area is readable and begins where the one before it ends.

The model keeps the addresses of the elements it has read, in order. It is generic
in the element: `size` is both `sizeof(T)` and `alignof(T)`, and `read` gives the
element that user memory holds at an address.
-/

namespace Nyan.Paging.VMSpace

open RangeManager Library

/-- What a scan returns, as the two ends of the span, and what it has read. -/
structure ReadonlyRange where
  span : Option (VirtualAddress × VirtualAddress)
  inspected : List VirtualAddress
  deriving DecidableEq, Repr

/-- The address of the `i`-th element from an address on. -/
def element (size : Nat) (addr : VirtualAddress) (i : Nat) : VirtualAddress :=
  addr + BitVec.ofNat 32 (i * size)

section Scan

variable {α : Type} (size : Nat) (read : VirtualAddress → α) (isLast : α → Bool)

/-- The inner loop: whether it has met a last element, where it stopped, and what
it has read. -/
def scanElements : Nat → VirtualAddress → Bool × VirtualAddress × List VirtualAddress
  | 0, curr => (false, curr, [])
  | maxSize + 1, curr =>
      if isLast (read curr) then
        (true, curr, [curr])
      else
        let (found, stop, seen) := scanElements maxSize (curr + BitVec.ofNat 32 size)
        (found, stop, curr :: seen)

/-- The outer loop, at the area `pos` with the areas after it. The vector ends with
the sentinel that `end()` names; reading past it is undefined. -/
def scanAreas (start : VirtualAddress) :
    VirtualAddress → VMA → List VMA → Option ReadonlyRange
  | curr, pos, rest =>
      if pos.protect &&& PROT_READ = 0#32 then
        some ⟨none, []⟩
      else
        let maxSize := (pos.endAddr.toNat - curr.toNat) / size
        match scanElements size read isLast maxSize curr with
        | (true, stop, seen) => some ⟨some (start, stop), seen⟩
        | (false, stop, seen) =>
            match rest with
            | [] => none
            | [_] => some ⟨none, seen⟩
            | next :: after :: rest =>
                if pos.endAddr ≠ next.beginAddr then
                  some ⟨none, seen⟩
                else
                  (scanAreas start stop next (after :: rest)).map fun out =>
                    { out with inspected := seen ++ out.inspected }

def validateReadonlyRange (space : VMSpace) (addr : VirtualAddress) : Option ReadonlyRange := do
  let n ← locate space addr
  let pos ← space[n]?
  if ¬ Contains pos addr then
    return ⟨none, []⟩
  if addr.toNat % size ≠ 0 then
    return ⟨none, []⟩
  scanAreas size read isLast addr addr pos (space.drop (n + 1))

/-- The elements of a span. -/
def elements (span : VirtualAddress × VirtualAddress) : List α :=
  (List.range ((span.2.toNat - span.1.toNat) / size)).map fun i => read (element size span.1 i)

end Scan

/-- The word that four bytes hold, least significant first. -/
def wordAt (memory : VirtualAddress → BitVec 8) (addr : VirtualAddress) : BitVec 32 :=
  memory (addr + 3#32) ++ memory (addr + 2#32) ++ memory (addr + 1#32) ++ memory addr

/-- `validateReadonlyString`; the inner `none` is the missing string. -/
def validateReadonlyString (memory : VirtualAddress → BitVec 8) (space : VMSpace)
    (addr : VirtualAddress) : Option (Option (List (BitVec 8))) :=
  (validateReadonlyRange 1 memory (· == 0#8) space addr).map fun out =>
    out.span.map (elements 1 memory)

/-- The loop of `validateReadonlyStringArray` over the pointers it has found. -/
def readStrings (memory : VirtualAddress → BitVec 8) (space : VMSpace) :
    List VirtualAddress → Option (Option (List (List (BitVec 8))))
  | [] => some (some [])
  | ptr :: rest => do
      match ← validateReadonlyString memory space ptr with
      | none => return none
      | some str => return (← readStrings memory space rest).map (str :: ·)

def validateReadonlyStringArray (memory : VirtualAddress → BitVec 8) (space : VMSpace)
    (addr : VirtualAddress) : Option (Option (List (List (BitVec 8)))) := do
  let out ← validateReadonlyRange 4 (wordAt memory) (· == 0#32) space addr
  match out.span with
  | none => return none
  | some span => readStrings memory space (elements 4 (wordAt memory) span)

/-- Every address of the range lies in a readable area, and none in kernel space. -/
structure ReadableRange (space : VMSpace) (lower upper : Nat) : Prop where
  user : upper ≤ Top.toNat
  readable : ∀ x, lower ≤ x → x < upper →
    ∃ vma ∈ space, vma.protect &&& PROT_READ ≠ 0#32 ∧ lo vma ≤ x ∧ x < hi vma

/-- One readable area holds the whole element. -/
def ReadableElement (space : VMSpace) (size : Nat) (addr : VirtualAddress) : Prop :=
  ∃ vma ∈ space, vma.protect &&& PROT_READ ≠ 0#32 ∧ lo vma ≤ addr.toNat ∧
    addr.toNat + size ≤ hi vma

/-- The `n`-th element from `addr` on is the first that ends the scan, and all
elements up to it can be read. -/
structure FirstLast {α : Type} (size : Nat) (read : VirtualAddress → α) (isLast : α → Bool)
    (space : VMSpace) (addr : VirtualAddress) (n : Nat) : Prop where
  last : isLast (read (element size addr n)) = true
  before : ∀ i < n, isLast (read (element size addr i)) = false
  readable : ReadableRange space addr.toNat (addr.toNat + (n + 1) * size)

@[simp] theorem element_zero (size : Nat) (addr : VirtualAddress) : element size addr 0 = addr := by
  simp [element]

theorem element_add (size : Nat) (addr : VirtualAddress) (k i : Nat) :
    element size (element size addr k) i = element size addr (k + i) := by
  simp only [element, BitVec.add_assoc, ← BitVec.ofNat_add, Nat.add_mul]

theorem element_succ (size : Nat) (addr : VirtualAddress) (i : Nat) :
    element size (addr + BitVec.ofNat 32 size) i = element size addr (i + 1) := by
  have hone : addr + BitVec.ofNat 32 size = element size addr 1 := by simp [element]
  rw [hone, element_add, Nat.add_comm]

theorem element_toNat {size : Nat} {addr : VirtualAddress} {i : Nat}
    (h : addr.toNat + i * size < 2 ^ 32) :
    (element size addr i).toNat = addr.toNat + i * size := by
  have hsmall : i * size < 2 ^ 32 := by omega
  rw [element, BitVec.toNat_add, BitVec.toNat_ofNat, Nat.mod_eq_of_lt hsmall, Nat.mod_eq_of_lt h]

section Scan

variable {α : Type} {size : Nat} {read : VirtualAddress → α} {isLast : α → Bool}

variable (size read isLast) in
/-- The inner loop stops at the first last element among the `maxSize` it may read,
or has read them all. -/
theorem scanElements_spec (maxSize : Nat) (curr : VirtualAddress) :
    ∃ seen : List VirtualAddress, (∀ x ∈ seen, ∃ i < maxSize, x = element size curr i) ∧
      ((∃ n < maxSize, scanElements size read isLast maxSize curr =
            (true, element size curr n, seen) ∧
          isLast (read (element size curr n)) = true ∧
          ∀ i < n, isLast (read (element size curr i)) = false) ∨
        (scanElements size read isLast maxSize curr =
            (false, element size curr maxSize, seen) ∧
          ∀ i < maxSize, isLast (read (element size curr i)) = false)) := by
  induction maxSize generalizing curr with
  | zero => exact ⟨[], by simp, Or.inr ⟨by simp [scanElements], by simp⟩⟩
  | succ maxSize ih =>
      by_cases hlast : isLast (read curr) = true
      · refine ⟨[curr], ?_, Or.inl ⟨0, Nat.succ_pos _, ?_, ?_, by simp⟩⟩
        · intro x hx
          obtain rfl := List.mem_singleton.mp hx
          exact ⟨0, Nat.succ_pos _, by simp⟩
        · simp [scanElements, hlast]
        · simpa using hlast
      · have hfirst : isLast (read (element size curr 0)) = false := by simpa using hlast
        obtain ⟨seen, hseen, hstop⟩ := ih (curr + BitVec.ofNat 32 size)
        simp only [element_succ] at hseen hstop
        have hbefore : ∀ m, (∀ i < m, isLast (read (element size curr (i + 1))) = false) →
            ∀ i < m + 1, isLast (read (element size curr i)) = false := by
          intro m hm i hi
          cases i with
          | zero => exact hfirst
          | succ i => exact hm i (by omega)
        refine ⟨curr :: seen, ?_, ?_⟩
        · intro x hx
          rcases List.mem_cons.mp hx with rfl | hx
          · exact ⟨0, Nat.succ_pos _, by simp⟩
          · obtain ⟨i, hi, rfl⟩ := hseen x hx
            exact ⟨i + 1, by omega, rfl⟩
        · rcases hstop with ⟨n, hn, heq, hlastn, hrest⟩ | ⟨heq, hrest⟩
          · refine Or.inl ⟨n + 1, by omega, ?_, hlastn, hbefore n hrest⟩
            simp [scanElements, hlast, heq]
          · refine Or.inr ⟨?_, hbefore maxSize hrest⟩
            simp [scanElements, hlast, heq]

/-- The elements before the `k`-th can be read and do not end the scan: it goes on
as if it had begun at the `k`-th. -/
theorem firstLast_add_iff {space : VMSpace} {curr : VirtualAddress} {k : Nat}
    (hwrap : curr.toNat + k * size < 2 ^ 32)
    (hnone : ∀ i < k, isLast (read (element size curr i)) = false)
    (hreadable : ∀ x, curr.toNat ≤ x → x < curr.toNat + k * size →
      ∃ vma ∈ space, vma.protect &&& PROT_READ ≠ 0#32 ∧ lo vma ≤ x ∧ x < hi vma) (m : Nat) :
    FirstLast size read isLast space curr (k + m) ↔
      FirstLast size read isLast space (element size curr k) m := by
  have hbound : curr.toNat + (k + m + 1) * size =
      (element size curr k).toNat + (m + 1) * size := by
    rw [element_toNat hwrap, Nat.add_assoc k m 1, Nat.add_mul, Nat.add_assoc]
  constructor
  · rintro ⟨hlast, hbefore, huser, hrange⟩
    rw [hbound] at huser hrange
    refine ⟨by rwa [element_add], ?_, huser, ?_⟩
    · intro i hi
      rw [element_add]
      exact hbefore (k + i) (by omega)
    · intro x hlow hhigh
      rw [element_toNat hwrap] at hlow
      exact hrange x (by omega) hhigh
  · rintro ⟨hlast, hbefore, huser, hrange⟩
    rw [← hbound] at huser hrange
    refine ⟨by rwa [element_add] at hlast, ?_, huser, ?_⟩
    · intro i hi
      by_cases hik : i < k
      · exact hnone i hik
      · have hrest := hbefore (i - k) (by omega)
        rwa [element_add, Nat.add_sub_of_le (Nat.le_of_not_lt hik)] at hrest
    · intro x hlow hhigh
      by_cases hx : x < curr.toNat + k * size
      · exact hreadable x hlow hx
      · rw [element_toNat hwrap] at hrange
        exact hrange x (by omega) hhigh

/-- What a scan from `curr` on answers. -/
structure Scans (size : Nat) (read : VirtualAddress → α) (isLast : α → Bool) (space : VMSpace)
    (start curr : VirtualAddress) (out : ReadonlyRange) : Prop where
  found : ∀ n, FirstLast size read isLast space curr n →
    out.span = some (start, element size curr n)
  sound : ∀ span, out.span = some span → ∃ n, FirstLast size read isLast space curr n ∧
    span = (start, element size curr n)
  inspected : ∀ x ∈ out.inspected, ReadableElement space size x

/-- A scan that gives up is right to if nothing from `curr` on ends it. -/
theorem Scans.missing {space : VMSpace} {start curr : VirtualAddress} {seen : List VirtualAddress}
    (hnone : ∀ n, ¬ FirstLast size read isLast space curr n)
    (hseen : ∀ x ∈ seen, ReadableElement space size x) :
    Scans size read isLast space start curr ⟨none, seen⟩ where
  found n hn := absurd hn (hnone n)
  sound _ h := by cases h
  inspected := hseen

theorem FirstLast.le_of_none {space : VMSpace} {curr : VirtualAddress} {k n : Nat}
    (h : FirstLast size read isLast space curr n)
    (hnone : ∀ i < k, isLast (read (element size curr i)) = false) : k ≤ n := by
  by_contra hlt
  have hfalse := hnone n (by omega)
  rw [h.last] at hfalse
  cases hfalse

theorem FirstLast.unique {space : VMSpace} {curr : VirtualAddress} {m n : Nat}
    (hm : FirstLast size read isLast space curr m)
    (hn : FirstLast size read isLast space curr n) : m = n :=
  Nat.le_antisymm (hn.le_of_none hm.before) (hm.le_of_none hn.before)

/-- The scan has met the element that ends it. -/
theorem Scans.hit {space : VMSpace} {start curr : VirtualAddress} {seen : List VirtualAddress}
    {n : Nat} (hfirst : FirstLast size read isLast space curr n)
    (hseen : ∀ x ∈ seen, ReadableElement space size x) :
    Scans size read isLast space start curr ⟨some (start, element size curr n), seen⟩ where
  found m hm := by rw [hm.unique hfirst]
  sound span hspan := ⟨n, hfirst, (Option.some.inj hspan).symm⟩
  inspected := hseen

/-- The scan has read the first `k` elements and goes on after them. -/
theorem Scans.onward {space : VMSpace} {start curr : VirtualAddress} {out : ReadonlyRange}
    {seen : List VirtualAddress} {k : Nat} (hwrap : curr.toNat + k * size < 2 ^ 32)
    (hnone : ∀ i < k, isLast (read (element size curr i)) = false)
    (hreadable : ∀ x, curr.toNat ≤ x → x < curr.toNat + k * size →
      ∃ vma ∈ space, vma.protect &&& PROT_READ ≠ 0#32 ∧ lo vma ≤ x ∧ x < hi vma)
    (hseen : ∀ x ∈ seen, ReadableElement space size x)
    (hout : Scans size read isLast space start (element size curr k) out) :
    Scans size read isLast space start curr
      { out with inspected := seen ++ out.inspected } where
  found n hn := by
    obtain ⟨m, rfl⟩ := Nat.exists_eq_add_of_le (hn.le_of_none hnone)
    rw [← element_add]
    exact hout.found m ((firstLast_add_iff hwrap hnone hreadable m).mp hn)
  sound span hspan := by
    obtain ⟨m, hm, heq⟩ := hout.sound span hspan
    rw [element_add] at heq
    exact ⟨k + m, (firstLast_add_iff hwrap hnone hreadable m).mpr hm, heq⟩
  inspected x hx := by
    rcases List.mem_append.mp hx with h | h
    · exact hseen x h
    · exact hout.inspected x h

section Regular

variable {space : VMSpace} (hspace : Regular Base Top space)
include hspace

theorem Regular.wellFormed : WellFormed space :=
  ⟨hspace.ordered.sorted, hspace.ordered.disjoint, hspace.getLast?⟩

/-- An area at an address that `pos` does not reach comes after `pos`. -/
theorem mem_after {before rest : List VMA} {pos vma : VMA} {x : Nat}
    (hsplit : space = before ++ pos :: rest) (hvma : vma ∈ space) (hx : x < hi vma)
    (hpos : hi pos ≤ x) : vma ∈ rest := by
  have hordered := hspace.ordered
  rw [hsplit] at hvma hordered
  obtain ⟨_, hafter, hcross⟩ := Interval.ordered_append.mp hordered
  rcases List.mem_append.mp hvma with hbefore | hmem
  · have hle := hcross vma hbefore pos List.mem_cons_self
    have hproper := hafter.proper pos List.mem_cons_self
    omega
  · rcases List.mem_cons.mp hmem with rfl | hmem
    · omega
    · exact hmem

/-- The last entry is the sentinel, which cannot be read. -/
theorem last_unreadable {before : List VMA} {pos : VMA} (hsplit : space = before ++ [pos]) :
    pos.protect &&& PROT_READ = 0#32 := by
  have hlast := hspace.getLast?
  rw [hsplit, List.getLast?_concat] at hlast
  obtain rfl := Option.some.inj hlast
  rfl

/-- No element from `curr` on can end the scan if `curr` cannot be read. -/
theorem not_firstLast_of_unreadable (hpositive : 0 < size) {pos : VMA} {curr : VirtualAddress}
    (hpos : pos ∈ space) (hlow : lo pos ≤ curr.toNat) (hhigh : curr.toNat < hi pos)
    (hprot : pos.protect &&& PROT_READ = 0#32) (n : Nat) :
    ¬ FirstLast size read isLast space curr n := by
  rintro ⟨_, _, _, hrange⟩
  have hfirst : size ≤ (n + 1) * size := Nat.le_mul_of_pos_left size (Nat.succ_pos n)
  obtain ⟨vma, hvma, hreads, hx⟩ := hrange curr.toNat (Nat.le_refl _) (by omega)
  obtain rfl := hspace.ordered.eq_of_mem hpos hvma ⟨hlow, hhigh⟩ hx
  exact hreads hprot

/-- A first last element that is not in `pos` makes the next area readable, and
begin where `pos` ends: no area is empty. -/
theorem FirstLast.next {before rest : List VMA} {pos next : VMA} {curr : VirtualAddress}
    {k n : Nat} (hlast : FirstLast size read isLast space curr n) (hpositive : 0 < size)
    (hsplit : space = before ++ pos :: next :: rest) (hend : curr.toNat + k * size = hi pos)
    (hnone : ∀ i < k, isLast (read (element size curr i)) = false) :
    next.protect &&& PROT_READ ≠ 0#32 ∧ pos.endAddr = next.beginAddr := by
  have hkn : k ≤ n := hlast.le_of_none hnone
  have hreach : (k + 1) * size ≤ (n + 1) * size := Nat.mul_le_mul_right size (by omega)
  rw [Nat.add_mul] at hreach
  obtain ⟨vma, hvma, hreads, hlow, hhigh⟩ :=
    hlast.readable.readable (hi pos) (by omega) (by omega)
  have hafter := mem_after hspace hsplit hvma hhigh (Nat.le_refl _)
  have hordered := hspace.ordered
  rw [hsplit] at hordered
  obtain ⟨_, hrest, hpos⟩ := Interval.ordered_cons.mp (Interval.ordered_append.mp hordered).2.1
  have hgap : hi pos ≤ lo next := hpos next List.mem_cons_self
  rcases List.mem_cons.mp hafter with rfl | hmem
  · exact ⟨hreads, BitVec.eq_of_toNat_eq (Nat.le_antisymm hgap hlow)⟩
  · have hbeyond := (Interval.ordered_cons.mp hrest).2.2 vma hmem
    have hnonempty : lo next < hi next :=
      hspace.lo_lt_hi (by decide) (by decide) (by simp [hsplit])
    omega

variable (haligned : ∀ vma ∈ space, PageAligned vma.beginAddr ∧ PageAligned vma.endAddr)
  (hsize : size ∣ 4096)
include haligned hsize

omit hspace in
/-- A readable area holds whole elements from `curr` to its end. -/
theorem elements_fill {pos : VMA} {curr : VirtualAddress} (hpos : pos ∈ space)
    (hcurr : size ∣ curr.toNat) (hhigh : curr.toNat < hi pos) :
    curr.toNat + (pos.endAddr.toNat - curr.toNat) / size * size = hi pos := by
  have hend : pos.endAddr.toNat % 4096 = 0 := (pageAligned_iff _).mp (haligned pos hpos).2
  have hdvd : size ∣ pos.endAddr.toNat - curr.toNat :=
    Nat.dvd_sub (hsize.trans (Nat.dvd_of_mod_eq_zero hend)) hcurr
  rw [Nat.div_mul_cancel hdvd]
  exact Nat.add_sub_of_le hhigh.le

theorem scanAreas_scans {start curr : VirtualAddress} {before rest : List VMA} {pos : VMA}
    (hsplit : space = before ++ pos :: rest) (hcurr : size ∣ curr.toNat)
    (hlow : lo pos ≤ curr.toNat) (hhigh : curr.toNat < hi pos) :
    ∃ out, scanAreas size read isLast start curr pos rest = some out ∧
      Scans size read isLast space start curr out := by
  have hpositive : 0 < size := Nat.pos_of_dvd_of_pos hsize (by decide)
  induction rest generalizing before pos curr with
  | nil =>
      have hprot := last_unreadable hspace hsplit
      have hpos : pos ∈ space := by simp [hsplit]
      refine ⟨⟨none, []⟩, by simp [scanAreas, hprot], Scans.missing ?_ (by simp)⟩
      exact not_firstLast_of_unreadable hspace hpositive hpos hlow hhigh hprot
  | cons next rest ih =>
      have hpos : pos ∈ space := by simp [hsplit]
      by_cases hprot : pos.protect &&& PROT_READ = 0#32
      · refine ⟨⟨none, []⟩, by simp [scanAreas, hprot], Scans.missing ?_ (by simp)⟩
        exact not_firstLast_of_unreadable hspace hpositive hpos hlow hhigh hprot
      set k := (pos.endAddr.toNat - curr.toNat) / size with hk
      have hend : curr.toNat + k * size = hi pos :=
        elements_fill haligned hsize hpos hcurr hhigh
      have hwrap : curr.toNat + k * size < 2 ^ 32 := by
        rw [hend]
        exact pos.endAddr.isLt
      have htop : hi pos ≤ Top.toNat := by
        refine (Regular.wellFormed hspace).hi_le_top hpos ?_
        intro hzero
        exact hprot (by rw [hzero, BitVec.zero_and])
      have hinside : ∀ x, curr.toNat ≤ x → x < curr.toNat + k * size →
          ∃ vma ∈ space, vma.protect &&& PROT_READ ≠ 0#32 ∧ lo vma ≤ x ∧ x < hi vma :=
        fun x hx hx' => ⟨pos, hpos, hprot, by omega, by omega⟩
      have hwhole : ∀ i < k, curr.toNat + (i + 1) * size ≤ hi pos := by
        intro i hi'
        have hle : (i + 1) * size ≤ k * size := Nat.mul_le_mul_right size hi'
        omega
      obtain ⟨seen, hseen, hstop⟩ := scanElements_spec size read isLast k curr
      have hread : ∀ x ∈ seen, ReadableElement space size x := by
        intro x hx
        obtain ⟨i, hi', rfl⟩ := hseen x hx
        have hle := hwhole i hi'
        rw [Nat.add_mul, Nat.one_mul] at hle
        refine ⟨pos, hpos, hprot, ?_⟩
        rw [element_toNat (by omega)]
        omega
      rcases hstop with ⟨n, hn, heq, hlast, hbefore⟩ | ⟨heq, hnone⟩
      · have hfirst : FirstLast size read isLast space curr n := by
          have hle := hwhole n hn
          exact ⟨hlast, hbefore, by omega, fun x hx hx' => hinside x hx (by omega)⟩
        refine ⟨⟨some (start, element size curr n), seen⟩, ?_, Scans.hit hfirst hread⟩
        unfold scanAreas
        simp only [hprot, if_false, ← hk, heq]
      cases rest with
      | nil =>
          refine ⟨⟨none, seen⟩, ?_, Scans.missing ?_ hread⟩
          · unfold scanAreas
            simp only [hprot, if_false, ← hk, heq]
          · intro n hn
            have hlast : space = (before ++ [pos]) ++ [next] := by simpa using hsplit
            exact (hn.next hspace hpositive hsplit hend hnone).1 (last_unreadable hspace hlast)
      | cons after rest =>
          by_cases hbesides : pos.endAddr = next.beginAddr
          · have hrest : space = (before ++ [pos]) ++ next :: after :: rest := by
              simpa using hsplit
            have hstart : (element size curr k).toNat = lo next := by
              rw [element_toNat hwrap, hend]
              exact congrArg BitVec.toNat hbesides
            have hnonempty : lo next < hi next :=
              hspace.lo_lt_hi (by decide) (by decide) (by simp [hsplit])
            have hdvd : size ∣ (element size curr k).toNat := by
              rw [element_toNat hwrap]
              exact Nat.dvd_add hcurr (Nat.dvd_mul_left size k)
            obtain ⟨out, hout, hscans⟩ := ih hrest hdvd hstart.ge (by omega)
            refine ⟨_, ?_, hscans.onward hwrap hnone hinside hread⟩
            unfold scanAreas
            simp only [hprot, if_false, ← hk, heq]
            rw [if_neg (not_not.mpr hbesides), hout]
            rfl
          · refine ⟨⟨none, seen⟩, ?_, Scans.missing ?_ hread⟩
            · unfold scanAreas
              simp only [hprot, if_false, ← hk, heq, ne_eq, hbesides, not_false_iff, if_true]
            · intro n hn
              exact hbesides (hn.next hspace hpositive hsplit hend hnone).2

/-- The scan that `validateReadonlyRange` makes from an aligned address on. -/
theorem validateReadonlyRange_scans {addr : VirtualAddress} (hdvd : size ∣ addr.toNat) :
    ∃ out, validateReadonlyRange size read isLast space addr = some out ∧
      Scans size read isLast space addr addr out := by
  have hpositive : 0 < size := Nat.pos_of_dvd_of_pos hsize (by decide)
  obtain ⟨n, hn⟩ := hspace.locate_defined addr
  have hlt := locate_lt hn
  have hpos := List.getElem?_eq_getElem hlt
  set pos := space[n]
  by_cases hcontains : Contains pos addr
  · have hsplit : space = space.take n ++ pos :: space.drop (n + 1) := by
      rw [← List.drop_eq_getElem_cons hlt, List.take_append_drop]
    have hareas : ∃ out,
        scanAreas size read isLast addr addr pos (space.drop (n + 1)) = some out ∧
          Scans size read isLast space addr addr out :=
      scanAreas_scans hspace haligned hsize hsplit hdvd (BitVec.le_def.mp hcontains.1)
        (BitVec.lt_def.mp hcontains.2)
    obtain ⟨out, hout, hscans⟩ := hareas
    refine ⟨out, ?_, hscans⟩
    simp [validateReadonlyRange, hn, hpos, hcontains, Nat.mod_eq_zero_of_dvd hdvd, hout]
  · refine ⟨⟨none, []⟩, ?_, Scans.missing ?_ (by simp)⟩
    · simp [validateReadonlyRange, hn, hpos, hcontains]
    · rintro m ⟨_, _, _, hrange⟩
      have hfirst : size ≤ (m + 1) * size := Nat.le_mul_of_pos_left size (Nat.succ_pos m)
      obtain ⟨vma, hvma, _, hlow, hhigh⟩ := hrange addr.toNat (Nat.le_refl _) (by omega)
      obtain ⟨i, hi'⟩ := List.mem_iff_getElem?.mp hvma
      obtain rfl := locate_unique hspace.ordered hn hi' hlow hhigh
      obtain rfl := Option.some.inj (hpos.symm.trans hi')
      exact hcontains ⟨BitVec.le_def.mpr hlow, BitVec.lt_def.mpr hhigh⟩

omit haligned hsize in
/-- A misaligned address is refused before anything is read. -/
theorem validateReadonlyRange_misaligned {addr : VirtualAddress} (h : ¬ size ∣ addr.toNat) :
    validateReadonlyRange size read isLast space addr = some ⟨none, []⟩ := by
  obtain ⟨n, hn⟩ := hspace.locate_defined addr
  have hpos := List.getElem?_eq_getElem (locate_lt hn)
  have hmod : addr.toNat % size ≠ 0 := fun hzero => h (Nat.dvd_of_mod_eq_zero hzero)
  simp [validateReadonlyRange, hn, hpos, hmod]

end Regular

/-- The span up to the `n`-th element holds the elements before it. -/
theorem FirstLast.elements_eq {space : VMSpace} {addr : VirtualAddress} {n : Nat}
    (h : FirstLast size read isLast space addr n) (hpositive : 0 < size) :
    elements size read (addr, element size addr n) =
      (List.range n).map fun i => read (element size addr i) := by
  have huser := h.readable.user
  have htop : Top.toNat < 2 ^ 32 := Top.isLt
  rw [Nat.add_mul] at huser
  have hcount : ((element size addr n).toNat - addr.toNat) / size = n := by
    rw [element_toNat (by omega), Nat.add_sub_cancel_left, Nat.mul_div_cancel n hpositive]
  rw [elements, hcount]

end Scan

/-- The scan ends, it finds a span exactly if the address is aligned and a first last
element can be reached through readable areas without a gap, the span holds the
elements before that one, and whatever it reads lies in one readable area. -/
theorem validateReadonlyRange_exact {α : Type} {size : Nat} (hsize : size = 1 ∨ size = 4)
    (read : VirtualAddress → α) (isLast : α → Bool) {space : VMSpace}
    (hspace : Regular Base Top space)
    (haligned : ∀ vma ∈ space, PageAligned vma.beginAddr ∧ PageAligned vma.endAddr)
    (addr : VirtualAddress) :
    ∃ out, validateReadonlyRange size read isLast space addr = some out ∧
      (out.span.isSome ↔
        size ∣ addr.toNat ∧ ∃ n, FirstLast size read isLast space addr n) ∧
      (∀ span, out.span = some span → ∃ n, FirstLast size read isLast space addr n ∧
        span = (addr, element size addr n) ∧
        elements size read span = (List.range n).map fun i => read (element size addr i)) ∧
      ∀ x ∈ out.inspected, ReadableElement space size x := by
  have hpage : size ∣ 4096 := by rcases hsize with rfl | rfl <;> decide
  have hpositive : 0 < size := Nat.pos_of_dvd_of_pos hpage (by decide)
  by_cases hdvd : size ∣ addr.toNat
  · have hfound : ∃ out, validateReadonlyRange size read isLast space addr = some out ∧
        Scans size read isLast space addr addr out :=
      validateReadonlyRange_scans hspace haligned hpage hdvd
    obtain ⟨out, hout, hscans⟩ := hfound
    refine ⟨out, hout, ⟨?_, ?_⟩, ?_, hscans.inspected⟩
    · intro hsome
      obtain ⟨span, hspan⟩ := Option.isSome_iff_exists.mp hsome
      obtain ⟨n, hn, _⟩ := hscans.sound span hspan
      exact ⟨hdvd, n, hn⟩
    · rintro ⟨_, n, hn⟩
      rw [hscans.found n hn]
      rfl
    · intro span hspan
      obtain ⟨n, hn, rfl⟩ := hscans.sound span hspan
      exact ⟨n, hn, rfl, hn.elements_eq hpositive⟩
  · refine ⟨⟨none, []⟩, validateReadonlyRange_misaligned hspace hdvd, ?_, by simp, by simp⟩
    simp [hdvd]

/-- Two readable areas side by side. -/
def twoAreas : VMSpace :=
  [RangeEntry.make 0#32 Base,
    { beginAddr := 0x400000#32, endAddr := 0x401000#32, protect := PROT_READ },
    { beginAddr := 0x401000#32, endAddr := 0x402000#32, protect := PROT_READ ||| PROT_WRITE },
    RangeEntry.make Top 0xFFFFF000#32]

theorem twoAreas_regular : Regular Base Top twoAreas := by
  refine ⟨⟨⟨by decide, ?_⟩, twoAreas.tail.dropLast, rfl⟩, by decide⟩
  unfold twoAreas
  decide

/-- A string of three bytes that begins in one area and ends in the next. -/
theorem validateReadonlyRange_exact_across :
    let memory : VirtualAddress → BitVec 8 := fun x => if x = 0x401001#32 then 0#8 else 0x61#8
    validateReadonlyString memory twoAreas 0x400FFE#32 =
        some (some [0x61#8, 0x61#8, 0x61#8]) ∧
      ∃ out, validateReadonlyRange 1 memory (· == 0#8) twoAreas 0x400FFE#32 = some out ∧
        ∀ x ∈ out.inspected, ReadableElement twoAreas 1 x := by
  intro memory
  have haligned : ∀ vma ∈ twoAreas, PageAligned vma.beginAddr ∧ PageAligned vma.endAddr := by
    decide
  obtain ⟨out, hout, _, _, hinspected⟩ := validateReadonlyRange_exact (Or.inl rfl) memory
    (· == 0#8) twoAreas_regular haligned 0x400FFE#32
  exact ⟨by decide +kernel, out, hout, hinspected⟩

end Nyan.Paging.VMSpace
