import Nyan.Library.Run
import Nyan.Paging.VMA
import Nyan.Result

/-!
`munmap` and `mmap_pgoff` (`syscall/munmap.cpp`, `syscall/mmap_pgoff.cpp`). Both
act on the areas of the calling process and on its page directory. The model
computes the new areas and says which pages the call frees and which area it
then fills; the process model applies these to the directory.

A request that removes addresses below `Base` damages the first sentinel, as
`__erase` compares nothing with `Base`. `requests_intact_iff` says that no other
request does any harm.
-/

namespace Nyan.Syscall

open Paging Paging.RangeManager Library

/-- What a call returns, the areas it leaves, the ranges it passes to
`__release_range`, and the area it passes to `VMA::alloc`. -/
structure MapOutcome where
  result : Except Errno VirtualAddress
  space : VMSpace
  released : List (VirtualAddress × VirtualAddress) := []
  fresh : Option VMA := none

def munmap (space : VMSpace) (addr : VirtualAddress) (len : BitVec 32) : Option MapOutcome :=
  if ¬ PageAligned addr then
    some { result := .error .EINVAL, space }
  else do
    let erased ← space.erase addr (alignUp len)
    if erased.ok then
      return { result := .ok 0#32, space := erased.addrs, released := erased.released }
    else
      return { result := .error .EINVAL, space := erased.addrs, released := erased.released }

/-- The area a successful `mmap_pgoff` inserts. -/
def mmapArea (place : VirtualAddress) (length prot flags : BitVec 32) : VMA where
  beginAddr := place
  endAddr := place + length
  flags := flags
  protect := prot
  name := "mmap"

/-- The common end of the two mapping branches: the new area is inserted, and
its pages are allocated when there was room. -/
def insertMapping (space : VMSpace) (released : List (VirtualAddress × VirtualAddress))
    (place : VirtualAddress) (length prot flags : BitVec 32) : Option MapOutcome := do
  let vma := mmapArea place length prot flags
  let (ok, space) ← insert space vma
  if ok then
    return { result := .ok place, space, released, fresh := some vma }
  else
    return { result := .error .ENOMEM, space, released }

def mmapPgoff (space : VMSpace) (addr : VirtualAddress) (length prot flags : BitVec 32) :
    Option MapOutcome :=
  if flags &&& MAP_FILE ≠ 0#32 then
    some { result := .error .ENOSYS, space }
  else if flags &&& MAP_FIXED ≠ 0#32 then
    if length = 0#32 then
      some { result := .error .EINVAL, space }
    else if ¬ PageAligned addr then
      some { result := .error .EINVAL, space }
    else do
      let length := alignUp length
      let erased ← space.erase addr length
      let place ← VMSpace.findFree erased.addrs length addr
      if place = some addr then
        insertMapping erased.addrs erased.released addr length prot flags
      else
        return { result := .error .ENOMEM, space := erased.addrs, released := erased.released }
  else if flags &&& MAP_PRIVATE ≠ 0#32 then
    if length = 0#32 then
      some { result := .error .EINVAL, space }
    else do
      let length := alignUp length
      match ← space.findFree length addr with
      | none => return { result := .error .ENOMEM, space }
      | some place => insertMapping space [] place length prot flags
  else if flags &&& MAP_SHARED ≠ 0#32 then
    some { result := .error .ENOSYS, space }
  else
    some { result := .error .EINVAL, space }

/-- The two calls, with the arguments user code chooses. -/
inductive Request where
  | munmap (addr : VirtualAddress) (len : BitVec 32)
  | mmap (addr : VirtualAddress) (length prot flags : BitVec 32)
  deriving DecidableEq, Repr

def Request.perform (space : VMSpace) : Request → Option MapOutcome
  | .munmap addr len => Syscall.munmap space addr len
  | .mmap addr length prot flags => mmapPgoff space addr length prot flags

/-- The areas after a request. -/
def request (space : VMSpace) (r : Request) : Option VMSpace :=
  (r.perform space).map MapOutcome.space

/-- The range a request passes to `VMSpace::erase`, if it gets that far. -/
def Request.erases : Request → Option (VirtualAddress × BitVec 32)
  | .munmap addr len => if PageAligned addr then some (addr, alignUp len) else none
  | .mmap addr length _ flags =>
      if flags &&& MAP_FIXED ≠ 0#32 ∧ length ≠ 0#32 ∧ PageAligned addr then
        some (addr, alignUp length)
      else
        none

/-- What follows the erasure: nothing more, or a mapping at the place that
`find_free` returned, which for a fixed mapping is the address asked for. -/
def Extends (fixed : Option VirtualAddress) (space : VMSpace)
    (released : List (VirtualAddress × VirtualAddress)) (out : MapOutcome) : Prop :=
  (out.space = space ∧ out.released = released ∧ out.fresh = none) ∨
    ∃ hint place length prot flags, space.findFree (alignUp length) hint = some (some place) ∧
      (∀ addr, fixed = some addr → place = addr) ∧
      insertMapping space released place (alignUp length) prot flags = some out

theorem insertMapping_spec {space : VMSpace}
    {released : List (VirtualAddress × VirtualAddress)} {place : VirtualAddress}
    {length prot flags : BitVec 32} {out : MapOutcome}
    (h : insertMapping space released place length prot flags = some out) :
    ∃ ok, insert space (mmapArea place length prot flags) = some (ok, out.space) ∧
      out.released = released ∧
      out.fresh = if ok then some (mmapArea place length prot flags) else none := by
  simp only [insertMapping, Option.bind_eq_bind, Option.bind_eq_some_iff] at h
  obtain ⟨⟨ok, space'⟩, hinsert, h⟩ := h
  refine ⟨ok, ?_⟩
  cases ok <;>
  · obtain rfl := Option.some.inj h
    exact ⟨hinsert, rfl, rfl⟩

theorem perform_spec {space : VMSpace} {r : Request} {out : MapOutcome}
    (h : r.perform space = some out) :
    (r.erases = none ∧ Extends none space [] out) ∨
      ∃ addr size erased, r.erases = some (addr, size) ∧ space.erase addr size = some erased ∧
        Extends (some addr) erased.addrs erased.released out := by
  cases r with
  | munmap addr len =>
      simp only [Request.perform, munmap] at h
      split at h
      · rename_i halign
        obtain rfl := Option.some.inj h
        exact Or.inl ⟨if_neg halign, Or.inl ⟨rfl, rfl, rfl⟩⟩
      · rename_i halign
        simp only [Option.bind_eq_bind, Option.bind_eq_some_iff] at h
        obtain ⟨erased, herase, h⟩ := h
        refine Or.inr ⟨addr, alignUp len, erased, if_pos (not_not.mp halign), herase, Or.inl ?_⟩
        split at h <;>
        · obtain rfl := Option.some.inj h
          exact ⟨rfl, rfl, rfl⟩
  | mmap addr length prot flags =>
      have hfile : ¬ flags &&& MAP_FILE ≠ 0#32 := by simp [MAP_FILE]
      simp only [Request.perform, mmapPgoff, if_neg hfile] at h
      simp only [Request.erases]
      by_cases hfixed : flags &&& MAP_FIXED ≠ 0#32
      · rw [if_pos hfixed] at h
        split at h
        · rename_i hlength
          obtain rfl := Option.some.inj h
          exact Or.inl ⟨if_neg (by simp [hlength]), Or.inl ⟨rfl, rfl, rfl⟩⟩
        rename_i hlength
        split at h
        · rename_i halign
          obtain rfl := Option.some.inj h
          exact Or.inl ⟨if_neg (by simp [halign]), Or.inl ⟨rfl, rfl, rfl⟩⟩
        rename_i halign
        simp only [Option.bind_eq_bind, Option.bind_eq_some_iff] at h
        obtain ⟨erased, herase, place, hplace, h⟩ := h
        refine Or.inr ⟨addr, alignUp length, erased,
          if_pos ⟨hfixed, hlength, not_not.mp halign⟩, herase, ?_⟩
        split at h
        · rename_i hsame
          rw [hsame] at hplace
          exact Or.inr ⟨addr, addr, length, prot, flags, hplace, fun _ => Option.some.inj, h⟩
        · obtain rfl := Option.some.inj h
          exact Or.inl ⟨rfl, rfl, rfl⟩
      · rw [if_neg hfixed] at h
        refine Or.inl ⟨if_neg fun hall => hfixed hall.1, ?_⟩
        split at h
        · split at h
          · obtain rfl := Option.some.inj h
            exact Or.inl ⟨rfl, rfl, rfl⟩
          simp only [Option.bind_eq_bind, Option.bind_eq_some_iff] at h
          obtain ⟨place, hplace, h⟩ := h
          cases place with
          | none =>
              obtain rfl := Option.some.inj h
              exact Or.inl ⟨rfl, rfl, rfl⟩
          | some place =>
              exact Or.inr ⟨addr, place, length, prot, flags, hplace, by simp, h⟩
        · split at h <;>
          · obtain rfl := Option.some.inj h
            exact Or.inl ⟨rfl, rfl, rfl⟩

/-- Where a new area comes to lie. -/
theorem perform_place {space : VMSpace} {r : Request} {out : MapOutcome} {vma : VMA}
    (h : r.perform space = some out) (hfresh : out.fresh = some vma) :
    ∃ addr length prot flags place, r = .mmap addr length prot flags ∧ length ≠ 0#32 ∧
      vma = mmapArea place (alignUp length) prot flags ∧
      (place = addr ∧ PageAligned addr ∨
        (flags &&& MAP_FIXED = 0#32 ∧ flags &&& MAP_PRIVATE ≠ 0#32) ∧
          space.findFree (alignUp length) addr = some (some place)) := by
  cases r with
  | munmap addr len =>
      simp only [Request.perform, munmap] at h
      split at h
      · obtain rfl := Option.some.inj h
        cases hfresh
      · simp only [Option.bind_eq_bind, Option.bind_eq_some_iff] at h
        obtain ⟨erased, _, h⟩ := h
        split at h <;>
        · obtain rfl := Option.some.inj h
          cases hfresh
  | mmap addr length prot flags =>
      have hplaced : ∀ {space : VMSpace} {released} {place : VirtualAddress},
          insertMapping space released place (alignUp length) prot flags = some out →
          vma = mmapArea place (alignUp length) prot flags := by
        intro space released place hmapping
        obtain ⟨ok, _, _, hout⟩ := insertMapping_spec hmapping
        cases ok with
        | false => simp [hout] at hfresh
        | true => simpa [hout] using hfresh.symm
      simp only [Request.perform, mmapPgoff] at h
      split at h
      · obtain rfl := Option.some.inj h
        cases hfresh
      split at h
      · split at h
        · obtain rfl := Option.some.inj h
          cases hfresh
        rename_i hlength
        split at h
        · obtain rfl := Option.some.inj h
          cases hfresh
        rename_i halign
        simp only [Option.bind_eq_bind, Option.bind_eq_some_iff] at h
        obtain ⟨erased, _, place, _, h⟩ := h
        split at h
        · exact ⟨addr, length, prot, flags, addr, rfl, hlength, hplaced h,
            Or.inl ⟨rfl, not_not.mp halign⟩⟩
        · obtain rfl := Option.some.inj h
          cases hfresh
      · rename_i hfixed
        split at h
        · rename_i hprivate
          split at h
          · obtain rfl := Option.some.inj h
            cases hfresh
          rename_i hlength
          simp only [Option.bind_eq_bind, Option.bind_eq_some_iff] at h
          obtain ⟨place, hplace, h⟩ := h
          cases place with
          | none =>
              obtain rfl := Option.some.inj h
              cases hfresh
          | some place =>
              exact ⟨addr, length, prot, flags, place, rfl, hlength, hplaced h,
                Or.inr ⟨⟨not_not.mp hfixed, hprivate⟩, hplace⟩⟩
        · split at h <;>
          · obtain rfl := Option.some.inj h
            cases hfresh

theorem mmapArea_proper {space : VMSpace} {hint place : VirtualAddress}
    {length prot flags : BitVec 32}
    (hplace : space.findFree (alignUp length) hint = some (some place)) :
    lo (mmapArea place (alignUp length) prot flags) ≤
      hi (mmapArea place (alignUp length) prot flags) := by
  have hend := findFree_end_toNat hplace
  change place.toNat ≤ (place + alignUp length).toNat
  omega

theorem Extends.released {fixed : Option VirtualAddress} {space : VMSpace}
    {released : List (VirtualAddress × VirtualAddress)} {out : MapOutcome}
    (h : Extends fixed space released out) : out.released = released := by
  rcases h with ⟨_, hreleased, _⟩ | ⟨_, _, _, _, _, _, _, h⟩
  · exact hreleased
  · obtain ⟨_, _, hreleased, _⟩ := insertMapping_spec h
    exact hreleased

/-- Whole pages are erased. -/
theorem erases_aligned {r : Request} {addr : VirtualAddress} {size : BitVec 32}
    (h : r.erases = some (addr, size)) : PageAligned addr ∧ size.toNat % 4096 = 0 := by
  cases r with
  | munmap addr' len =>
      simp only [Request.erases] at h
      split at h
      · rename_i halign
        obtain ⟨rfl, rfl⟩ := Prod.ext_iff.mp (Option.some.inj h)
        exact ⟨halign, alignUp_aligned len⟩
      · cases h
  | mmap addr' length prot flags =>
      simp only [Request.erases] at h
      split at h
      · rename_i hall
        obtain ⟨rfl, rfl⟩ := Prod.ext_iff.mp (Option.some.inj h)
        exact ⟨hall.2.2, alignUp_aligned length⟩
      · cases h

theorem Extends.ordered {fixed : Option VirtualAddress} {space : VMSpace}
    {released : List (VirtualAddress × VirtualAddress)} {out : MapOutcome}
    (h : Extends fixed space released out) (hordered : Interval.Ordered lo hi space) :
    Interval.Ordered lo hi out.space := by
  rcases h with ⟨hspace, _, _⟩ | ⟨hint, place, length, prot, flags, hplace, _, h⟩
  · rwa [hspace]
  · obtain ⟨ok, hinsert, _, _⟩ := insertMapping_spec h
    exact insert_ordered hordered (mmapArea_proper hplace) hinsert

theorem Extends.repInv {fixed : Option VirtualAddress} {space : VMSpace}
    {released : List (VirtualAddress × VirtualAddress)} {out : MapOutcome}
    (h : Extends fixed space released out) (hinv : RepInv VMSpace.Base VMSpace.Top space) :
    RepInv VMSpace.Base VMSpace.Top out.space := by
  rcases h with ⟨hspace, _, _⟩ | ⟨hint, place, length, prot, flags, hplace, _, h⟩
  · rwa [hspace]
  · obtain ⟨ok, hinsert, _, _⟩ := insertMapping_spec h
    exact insert_repInv hinv (mmapArea_proper hplace) hinsert

/-- Nothing is mapped at an address below `Base`. -/
theorem Extends.below_base {addr : VirtualAddress} {space : VMSpace}
    {released : List (VirtualAddress × VirtualAddress)} {out : MapOutcome}
    (h : Extends (some addr) space released out) (hlow : addr < VMSpace.Base) :
    out.space = space := by
  rcases h with ⟨hspace, _, _⟩ | ⟨hint, place, length, prot, flags, hplace, hfixed, _⟩
  · exact hspace
  · obtain ⟨hbase, _, _⟩ := findFree_spec hplace
    rw [hfixed addr rfl] at hbase
    rw [BitVec.lt_def] at hlow
    omega

/-- Requests keep the areas sorted and disjoint, whatever they ask for. -/
theorem request_ordered {space space' : VMSpace} {r : Request}
    (hordered : Interval.Ordered lo hi space) (h : request space r = some space') :
    Interval.Ordered lo hi space' := by
  obtain ⟨out, hout, rfl⟩ := Option.map_eq_some_iff.mp h
  rcases perform_spec hout with ⟨_, hextends⟩ | ⟨addr, size, erased, _, herase, hextends⟩
  · exact hextends.ordered hordered
  · exact hextends.ordered (erase_ordered VMSpace.splitRange_keepsBounds hordered herase)

theorem init_space_repInv : RepInv VMSpace.Base VMSpace.Top VMSpace.init :=
  init_repInv (by decide) (by decide)

/-- A range whose removal leaves the first sentinel alone: it does not start
below `Base`, or it is rejected, or it is the empty range at zero. -/
def SparesSentinel (addr : VirtualAddress) (size : BitVec 32) : Prop :=
  VMSpace.Base ≤ addr ∨ ¬ Accepts VMSpace.Top addr size ∨ addr = 0#32 ∧ size = 0#32

def Harmless (r : Request) : Prop :=
  ∀ addr size, r.erases = some (addr, size) → SparesSentinel addr size

instance (addr : VirtualAddress) (size : BitVec 32) : Decidable (SparesSentinel addr size) :=
  inferInstanceAs (Decidable (_ ∨ ¬ (_ ∧ _) ∨ _))

instance (r : Request) : Decidable (Harmless r) :=
  @decidable_of_iff _ (∀ range ∈ r.erases, SparesSentinel range.1 range.2)
    ⟨fun h addr size herases => h (addr, size) herases, fun h _ hrange => h _ _ hrange⟩
    (Option.decidableForallMem _)

theorem erase_repInv_iff {space : VMSpace} {addr : VirtualAddress} {size : BitVec 32}
    {erased : RangeManager.Erased VMA} (hinv : RepInv VMSpace.Base VMSpace.Top space)
    (h : space.erase addr size = some erased) :
    RepInv VMSpace.Base VMSpace.Top erased.addrs ↔ SparesSentinel addr size := by
  constructor
  · intro hinv'
    by_contra hspares
    simp only [SparesSentinel, not_or, not_not, BitVec.not_le] at hspares
    obtain ⟨hlow, haccept, hnonzero⟩ := hspares
    exact erase_not_repInv VMSpace.splitRange_keepsBounds hinv haccept hlow hnonzero h hinv'
  · rintro (hbase | hharmless)
    · exact erase_repInv VMSpace.splitRange_keepsBounds (by decide) (by decide) hinv hbase h
    · rwa [erase_unchanged hharmless h]

theorem insertMapping_defined {space : VMSpace} {hint place : VirtualAddress}
    (hinv : RepInv VMSpace.Base VMSpace.Top space) {length : BitVec 32}
    (hplace : space.findFree length hint = some (some place))
    (released : List (VirtualAddress × VirtualAddress)) (prot flags : BitVec 32) :
    ∃ out, insertMapping space released place length prot flags = some out := by
  have hbelow : place < 0xFFFFF000#32 := by
    have hle := hinv.findFree_le_top hplace
    have htop : VMSpace.Top.toNat < (0xFFFFF000#32).toNat := by decide
    rw [BitVec.lt_def]
    omega
  obtain ⟨⟨ok, space'⟩, hinsert⟩ :=
    insert_defined hinv (mmapArea place length prot flags) hbelow
  simp only [insertMapping, hinsert, Option.bind_eq_bind, Option.bind_some]
  cases ok <;> exact ⟨_, rfl⟩

/-- A harmless request makes no undefined access. -/
theorem perform_defined {space : VMSpace} (hinv : RepInv VMSpace.Base VMSpace.Top space)
    {r : Request} (hharmless : Harmless r) : ∃ out, r.perform space = some out := by
  cases r with
  | munmap addr len =>
      simp only [Request.perform, munmap]
      split
      · exact ⟨_, rfl⟩
      · obtain ⟨erased, herase⟩ := erase_defined hinv.locate_defined VMSpace.splitRange addr
          (alignUp len)
        rw [show space.erase addr (alignUp len) = some erased from herase]
        cases hok : erased.ok <;> simp [hok]
  | mmap addr length prot flags =>
      simp only [Request.perform, mmapPgoff]
      split
      · exact ⟨_, rfl⟩
      split
      · rename_i hfixed
        split
        · exact ⟨_, rfl⟩
        rename_i hlength
        split
        · exact ⟨_, rfl⟩
        rename_i halign
        obtain ⟨erased, herase⟩ := erase_defined hinv.locate_defined VMSpace.splitRange addr
          (alignUp length)
        have hspares : SparesSentinel addr (alignUp length) :=
          hharmless _ _ (if_pos ⟨hfixed, hlength, not_not.mp halign⟩)
        have hinv' := (erase_repInv_iff hinv herase).mpr hspares
        obtain ⟨place, hplace⟩ := findFree_defined hinv' (alignUp length) addr
        simp only [show space.erase addr (alignUp length) = some erased from herase,
          show VMSpace.findFree erased.addrs (alignUp length) addr = some place from hplace,
          Option.bind_eq_bind, Option.bind_some]
        split
        · rename_i hsame
          rw [hsame] at hplace
          exact insertMapping_defined hinv' hplace erased.released prot flags
        · exact ⟨_, rfl⟩
      · split
        · split
          · exact ⟨_, rfl⟩
          obtain ⟨place, hplace⟩ := findFree_defined hinv (alignUp length) addr
          simp only [show space.findFree (alignUp length) addr = some place from hplace,
            Option.bind_eq_bind, Option.bind_some]
          cases place with
          | none => exact ⟨_, rfl⟩
          | some place => exact insertMapping_defined hinv hplace [] prot flags
        · split <;> exact ⟨_, rfl⟩

theorem request_repInv_iff {space : VMSpace} (hinv : RepInv VMSpace.Base VMSpace.Top space)
    (r : Request) :
    Harmless r ↔
      ∃ space', request space r = some space' ∧ RepInv VMSpace.Base VMSpace.Top space' := by
  constructor
  · intro hharmless
    obtain ⟨out, hout⟩ := perform_defined hinv hharmless
    refine ⟨out.space, by simp [request, hout], ?_⟩
    rcases perform_spec hout with ⟨_, hextends⟩ | ⟨addr, size, erased, herases, herase, hextends⟩
    · exact hextends.repInv hinv
    · exact hextends.repInv ((erase_repInv_iff hinv herase).mpr (hharmless addr size herases))
  · rintro ⟨space', hrequest, hinv'⟩ addr size herases
    obtain ⟨out, hout, rfl⟩ := Option.map_eq_some_iff.mp hrequest
    by_contra hspares
    have hlow : addr < VMSpace.Base := BitVec.not_le.mp fun hbase => hspares (Or.inl hbase)
    rcases perform_spec hout with ⟨hnone, _⟩ | ⟨addr', size', erased, hsome, herase, hextends⟩
    · rw [herases] at hnone
      cases hnone
    · obtain ⟨rfl, rfl⟩ : addr = addr' ∧ size = size' := by
        simpa [herases] using hsome
      rw [hextends.below_base hlow] at hinv'
      exact hspares ((erase_repInv_iff hinv herase).mp hinv')

/-- The state of the vector that the kernel relies on everywhere: both sentinels
in place, the entries sorted and disjoint, `__locate` inside the vector for
every address, and `begin()`, `end()` around exactly the entries between the
sentinels. -/
structure Intact (space : VMSpace) : Prop where
  first : space.head? = some (RangeEntry.make 0#32 VMSpace.Base)
  last : space.getLast?.map VMA.beginAddr = some VMSpace.Top
  sorted : Interval.Sorted lo space
  disjoint : Interval.Disjoint lo hi space
  located : ∀ addr, ∃ n, locate space addr = some n
  iterated : space = RangeEntry.make 0#32 VMSpace.Base :: VMSpace.iterated space ++
    [RangeEntry.make VMSpace.Top 0xFFFFF000#32]

theorem intact_of_repInv {space : VMSpace} (hinv : RepInv VMSpace.Base VMSpace.Top space) :
    Intact space := by
  have hlast := hinv.getLast?
  have hlocated := hinv.locate_defined
  have hsorted := hinv.ordered.sorted
  have hdisjoint := hinv.ordered.disjoint
  obtain ⟨interior, rfl⟩ := hinv.sentinels
  refine ⟨rfl, ?_, hsorted, hdisjoint, hlocated, ?_⟩
  · rw [hlast]
    rfl
  · simp [VMSpace.iterated]

theorem Intact.repInv {space : VMSpace} (h : Intact space)
    (hordered : Interval.Ordered lo hi space) : RepInv VMSpace.Base VMSpace.Top space :=
  ⟨hordered, VMSpace.iterated space, h.iterated⟩

theorem requests_ordered {space space' : VMSpace} {requests : List Request}
    (hordered : Interval.Ordered lo hi space)
    (h : requests.foldlM request space = some space') : Interval.Ordered lo hi space' :=
  execution_invariant (fun _ _ _ => request_ordered) h hordered

/-- From any space that satisfies the invariant, every state that a sequence of
calls goes through is reached without undefined access and is intact, iff none
of the calls removes a range that cuts the first sentinel. -/
theorem requests_intact_iff {space : VMSpace} (hstart : RepInv VMSpace.Base VMSpace.Top space)
    (requests : List Request) :
    (∀ n, ∃ space', (requests.take n).foldlM request space = some space' ∧ Intact space') ↔
      ∀ r ∈ requests, Harmless r := by
  rw [← execution_good_iff (fun _ r hinv => request_repInv_iff hinv r) hstart]
  refine forall_congr' fun n => exists_congr fun space' => and_congr_right fun hrun => ?_
  exact ⟨fun h => h.repInv (requests_ordered hstart.ordered hrun), intact_of_repInv⟩

/-- Mapping two pages and unmapping the second keeps a fresh space intact. -/
theorem requests_intact_map_unmap :
    RepInv VMSpace.Base VMSpace.Top VMSpace.init ∧ ∀ n, ∃ space,
      (([.mmap 0#32 0x2000#32 PROT_READ MAP_PRIVATE, .munmap 0x401000#32 0x1000#32] :
        List Request).take n).foldlM request VMSpace.init = some space ∧ Intact space := by
  refine ⟨init_space_repInv, (requests_intact_iff init_space_repInv _).mpr ?_⟩
  simp only [List.mem_cons, List.not_mem_nil, or_false, forall_eq_or_imp, forall_eq]
  refine ⟨?_, ?_⟩
  · intro addr size h
    simp [Request.erases, MAP_FIXED, MAP_PRIVATE] at h
  · intro addr size h
    obtain ⟨rfl, rfl⟩ : 0x401000#32 = addr ∧ alignUp 0x1000#32 = size := by
      simpa [Request.erases, show PageAligned 0x401000#32 by decide] using h
    exact Or.inl (by decide)

/-- Unmapping everything below `Base` removes the first sentinel of a fresh
space; a fault at address zero then reads before the vector. -/
theorem munmap_below_base_removes_sentinel :
    request VMSpace.init (.munmap 0#32 0x400000#32) =
        some [RangeEntry.make VMSpace.Top 0xFFFFF000#32] ∧
      ¬ Intact [RangeEntry.make VMSpace.Top 0xFFFFF000#32] ∧
      locate ([RangeEntry.make VMSpace.Top 0xFFFFF000#32] : VMSpace) 0#32 = none := by
  refine ⟨by decide, ?_, by decide⟩
  intro h
  exact absurd h.first (by decide)

end Nyan.Syscall
