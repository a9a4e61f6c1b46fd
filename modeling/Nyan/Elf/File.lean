import Nyan.Paging.ReadonlyRange
import Nyan.Task.PageView

/-!
Program files (`elf/entry.hpp`, `elf/mod.cpp`). The loader reads the file where
`execve` has put it, at offsets that the file itself contains, and never compares an
offset with the size. A file is therefore given by the byte at every offset; what its
size is matters only for what is asked of the loader.

`accesses` lists what the loader does with the file and with the page tables, in the
order of the source, and `loadFile_eq` says that to load a file is to perform them.
-/

namespace Nyan.Elf

open Paging Paging.RangeManager Nyan.Task

/-- The memory from `file.data()` on. -/
abbrev Bytes := BitVec 32 → BitVec 8

def halfAt (file : Bytes) (offset : BitVec 32) : BitVec 16 := file (offset + 1#32) ++ file offset

/-- The fields of the file header that the loader reads. -/
structure Header where
  entryOffset : BitVec 32
  programHeaderTableOffset : BitVec 32
  programHeaderEntrySize : BitVec 16
  programHeaderEntryCount : BitVec 16

def header (file : Bytes) : Header where
  entryOffset := VMSpace.wordAt file 24#32
  programHeaderTableOffset := VMSpace.wordAt file 28#32
  programHeaderEntrySize := halfAt file 42#32
  programHeaderEntryCount := halfAt file 44#32

/-- The program header at an offset. -/
def programHeader (file : Bytes) (offset : BitVec 32) : ProgramHeader where
  type := VMSpace.wordAt file offset
  offset := VMSpace.wordAt file (offset + 4#32)
  vaddr := VMSpace.wordAt file (offset + 8#32)
  filesz := VMSpace.wordAt file (offset + 16#32)
  memsz := VMSpace.wordAt file (offset + 20#32)
  flags := VMSpace.wordAt file (offset + 24#32)
  align := VMSpace.wordAt file (offset + 28#32)

/-- The value of `offset` in each round of the loop. -/
def headerOffsets (file : Bytes) : List (BitVec 32) :=
  (List.range (header file).programHeaderEntryCount.toNat).map fun i =>
    (header file).programHeaderTableOffset +
      BitVec.ofNat 32 (i * (header file).programHeaderEntrySize.toNat)

def programHeaders (file : Bytes) : List ProgramHeader :=
  (headerOffsets file).map (programHeader file)

/-- `loadElf` for the bytes of a file: the image, and where the program starts. -/
def loadFile (s : Paging.System) (file : Bytes) : Option (Image × VirtualAddress) :=
  (loadElf s file (programHeaders file)).map fun image => (image, (header file).entryOffset)

/-- The bounds of what is copied to a page. -/
def lowerBound (h : ProgramHeader) (page : VirtualAddress) : VirtualAddress :=
  if h.vaddr < page then page else h.vaddr

def upperBound (h : ProgramHeader) (page : VirtualAddress) : VirtualAddress :=
  if nextPage page < h.vaddr + h.filesz then nextPage page else h.vaddr + h.filesz

/-- What the loader does: it reads some bytes of the file, it maps a page and fills it,
or it records an area and moves the break. -/
inductive Access where
  | read (offset : BitVec 32) (count : Nat)
  | map (h : ProgramHeader) (page : VirtualAddress)
  | insert (h : ProgramHeader)

/-- The round of the page loop for one page, of the segment whose header is at `offset`. -/
def pageAccesses (offset : BitVec 32) (h : ProgramHeader) (page : VirtualAddress) : List Access :=
  [.read (offset + 24#32) 4, .map h page] ++
    if lowerBound h page < upperBound h page then
      [.read (offset + 4#32) 4,
        .read (h.offset + (lowerBound h page - h.vaddr))
          ((upperBound h page).toNat - (lowerBound h page).toNat)]
    else
      []

/-- The pages of a segment. -/
def segmentPages (h : ProgramHeader) : List VirtualAddress :=
  (pagesBetween h.lowerPage h.upperPage).getD []

/-- The round of the header loop for the header at `offset`. -/
def segmentAccesses (file : Bytes) (offset : BitVec 32) : List Access :=
  let h := programHeader file offset
  [.read 44#32 2, .read 42#32 2, .read offset 4] ++
    if h.type ≠ PHT_Load then
      []
    else
      .read (offset + 28#32) 4 ::
        if h.align ≠ 0x1000#32 then
          []
        else
          [.read (offset + 8#32) 4, .read (offset + 20#32) 4, .read (offset + 16#32) 4] ++
            (segmentPages h).flatMap (pageAccesses offset h) ++
            [.read (offset + 24#32) 4, .insert h]

def accesses (file : Bytes) : List Access :=
  .read 28#32 4 :: (headerOffsets file).flatMap (segmentAccesses file) ++
    [.read 44#32 2, .read 24#32 4]

def perform (file : Bytes) (k : Nat) (image : Image) : Access → Option Image
  | .read _ _ => some image
  | .map h page => (loadPage file h k image.system page).map fun system => { image with system }
  | .insert h => do
      let (_, vmSpace) ← insert image.vmSpace h.area
      let brkAddr := if image.brkAddr < h.upperPage then h.upperPage else image.brkAddr
      return { image with vmSpace, brkAddr }

/-- What there is before the first access: a new space without pages and areas. -/
def start (s : Paging.System) : Option Image :=
  (s.step .fork).map fun system => { system, vmSpace := VMSpace.init, brkAddr := 0x400000#32 }

/-- The loop over the pages from one page to another ends, also if it runs through the
end of the address space. -/
theorem walk_aligned_defined {lower upper : VirtualAddress} {fuel : Nat}
    (hlower : PageAligned lower) (hupper : PageAligned upper)
    (hfuel : (upper - lower).toNat / 4096 < fuel) :
    ∃ pages, walk nextPage (· == upper) fuel lower = some pages := by
  induction fuel generalizing lower with
  | zero => omega
  | succ fuel ih =>
      by_cases hdone : lower = upper
      · exact ⟨[], by simp [walk, hdone]⟩
      · have hlower' := (pageAligned_iff lower).mp hlower
        have hupper' := (pageAligned_iff upper).mp hupper
        have hne : lower.toNat ≠ upper.toNat := fun heq => hdone (BitVec.eq_of_toNat_eq heq)
        have hnext := nextPage_toNat lower
        have hmax := lower.isLt
        have hmax' := upper.isLt
        rw [BitVec.toNat_sub] at hfuel
        have haligned : PageAligned (nextPage lower) := by
          rw [pageAligned_iff, hnext]
          omega
        have hfuel' : (upper - nextPage lower).toNat / 4096 < fuel := by
          rw [BitVec.toNat_sub, hnext]
          omega
        obtain ⟨rest, hrest⟩ := ih haligned hfuel'
        exact ⟨lower :: rest, by simp [walk, hdone, hrest]⟩

theorem lowerPage_aligned (h : ProgramHeader) : PageAligned h.lowerPage := by
  rw [pageAligned_iff, ProgramHeader.lowerPage, alignDown_toNat]
  omega

theorem lowerPage_le (h : ProgramHeader) : h.lowerPage ≤ 0xFFFFF000#32 := by
  have haligned := (pageAligned_iff _).mp (lowerPage_aligned h)
  have hmax := h.lowerPage.isLt
  have hlast : (0xFFFFF000#32).toNat = 0xFFFFF000 := rfl
  rw [BitVec.le_def]
  omega

theorem upperPage_aligned (h : ProgramHeader) : PageAligned h.upperPage :=
  (pageAligned_iff _).mpr (alignUp_aligned _)

theorem pagesBetween_segment (h : ProgramHeader) :
    pagesBetween h.lowerPage h.upperPage = some (segmentPages h) := by
  have hlimit : walkLimit = 2 ^ 20 + 1 := rfl
  have hmax := (h.upperPage - h.lowerPage).isLt
  obtain ⟨pages, hpages⟩ : ∃ pages, pagesBetween h.lowerPage h.upperPage = some pages :=
    walk_aligned_defined (lowerPage_aligned h) (upperPage_aligned h) (by omega)
  rw [segmentPages, hpages, Option.getD_some]

section Perform

variable {file : Bytes} {k : Nat} {image : Image}

theorem performAll_append (first second : List Access) :
    (first ++ second).foldlM (perform file k) image =
      (first.foldlM (perform file k) image).bind (second.foldlM (perform file k)) :=
  List.foldlM_append

/-- The accesses for one page fill it. -/
theorem perform_page (offset : BitVec 32) (h : ProgramHeader) (page : VirtualAddress) :
    (pageAccesses offset h page).foldlM (perform file k) image =
      (loadPage file h k image.system page).map fun system => { image with system } := by
  unfold pageAccesses
  split <;> cases hpage : loadPage file h k image.system page <;> simp [perform, hpage]

theorem perform_pages (offset : BitVec 32) (h : ProgramHeader) (pages : List VirtualAddress) :
    (pages.flatMap (pageAccesses offset h)).foldlM (perform file k) image =
      (pages.foldlM (loadPage file h k) image.system).map fun system => { image with system } := by
  induction pages generalizing image with
  | nil => simp
  | cons page rest ih =>
      rw [List.flatMap_cons, performAll_append, perform_page, List.foldlM_cons]
      cases hpage : loadPage file h k image.system page with
      | none => simp
      | some system => simp [ih]

theorem perform_segment (offset : BitVec 32) :
    (segmentAccesses file offset).foldlM (perform file k) image =
      loadSegment file k image (programHeader file offset) := by
  set h := programHeader file offset
  by_cases htype : h.type = PHT_Load
  · by_cases halign : h.align = 0x1000#32
    · have hloads : h.Loads := ⟨htype, halign⟩
      have hexpand : segmentAccesses file offset =
          [.read 44#32 2, .read 42#32 2, .read offset 4, .read (offset + 28#32) 4,
            .read (offset + 8#32) 4, .read (offset + 20#32) 4, .read (offset + 16#32) 4] ++
          ((segmentPages h).flatMap (pageAccesses offset h) ++
            [.read (offset + 24#32) 4, .insert h]) := by
        simp [segmentAccesses, h, htype, halign]
      have hreads : [Access.read 44#32 2, .read 42#32 2, .read offset 4,
          .read (offset + 28#32) 4, .read (offset + 8#32) 4, .read (offset + 20#32) 4,
          .read (offset + 16#32) 4].foldlM (perform file k) image = some image := by
        simp [perform]
      rw [hexpand, performAll_append, hreads, Option.bind_some, performAll_append, perform_pages,
        loadSegment, if_neg (not_not.mpr hloads), pagesBetween_segment]
      cases hfold : (segmentPages h).foldlM (loadPage file h k) image.system with
      | none => simp [hfold]
      | some system =>
          cases hinsert : RangeManager.insert image.vmSpace h.area <;>
            simp [perform, hfold, hinsert]
    · simp [segmentAccesses, loadSegment, ProgramHeader.Loads, h, htype, halign, perform]
  · simp [segmentAccesses, loadSegment, ProgramHeader.Loads, h, htype, perform]

theorem perform_segments (offsets : List (BitVec 32)) :
    (offsets.flatMap (segmentAccesses file)).foldlM (perform file k) image =
      (offsets.map (programHeader file)).foldlM (loadSegment file k) image := by
  induction offsets generalizing image with
  | nil => simp
  | cons offset rest ih =>
      rw [List.flatMap_cons, performAll_append, perform_segment, List.map_cons, List.foldlM_cons]
      cases loadSegment file k image (programHeader file offset) with
      | none => rfl
      | some image' => exact ih

end Perform

/-- To load a file is to perform its accesses, from a new space on. -/
theorem loadFile_eq (s : Paging.System) (file : Bytes) :
    loadFile s file =
      ((start s).bind fun image => (accesses file).foldlM (perform file s.spaces.length) image).map
        fun image => (image, (header file).entryOffset) := by
  have hlist : ∀ image : Image, (accesses file).foldlM (perform file s.spaces.length) image =
      (programHeaders file).foldlM (loadSegment file s.spaces.length) image := by
    intro image
    have hfirst : ([.read 28#32 4] : List Access).foldlM (perform file s.spaces.length) image =
        some image := by simp [perform]
    have hsplit : accesses file = [.read 28#32 4] ++
        ((headerOffsets file).flatMap (segmentAccesses file) ++
          [.read 44#32 2, .read 24#32 4]) := rfl
    rw [hsplit, performAll_append, hfirst, Option.bind_some, performAll_append, perform_segments]
    simp [perform, programHeaders]
  unfold loadFile loadElf start
  cases s.step .fork with
  | none => rfl
  | some system => simp [hlist]

end Nyan.Elf
