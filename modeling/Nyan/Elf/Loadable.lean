import Nyan.Elf.Containment

/-!
Files that can be loaded: their headers and the bytes of their segments are inside, and
the segments are in user space, without a page in common. The loader then maps the pages
of the segments, in their order, and every access it makes is inside.
-/

namespace Nyan.Elf

open Paging Paging.RangeManager Nyan.Task Allocator

/-- The address lies in a page that the segment touches. -/
def OnPage (h : ProgramHeader) (addr : VirtualAddress) : Prop :=
  h.vaddr.toNat / 4096 ≤ addr.toNat / 4096 ∧
    addr.toNat / 4096 ≤ (h.vaddr.toNat + h.memsz.toNat - 1) / 4096

/-- A segment with its bytes in the file and its pages in user space. -/
structure Fits (size : BitVec 32) (h : ProgramHeader) : Prop where
  filed : h.offset.toNat + h.filesz.toNat ≤ size.toNat
  sized : h.filesz.toNat ≤ h.memsz.toNat
  nonempty : 0 < h.memsz.toNat
  low : VMSpace.Base.toNat ≤ h.vaddr.toNat
  high : h.vaddr.toNat + h.memsz.toNat ≤ VMSpace.Top.toNat

/-- A file of `size` bytes with its headers inside, and with segments that fit and
have no page in common. -/
structure Loadable (file : Bytes) (size : BitVec 32) : Prop where
  headed : 52 ≤ size.toNat
  table : ∀ i < (header file).programHeaderEntryCount.toNat,
    (header file).programHeaderTableOffset.toNat +
      i * (header file).programHeaderEntrySize.toNat + 32 ≤ size.toNat
  fits : ∀ h ∈ programHeaders file, h.Loads → Fits size h
  apart : (programHeaders file).Pairwise fun h h' =>
    h.Loads → h'.Loads → ∀ addr, ¬ (OnPage h addr ∧ OnPage h' addr)

theorem lowerPage_toNat (h : ProgramHeader) :
    h.lowerPage.toNat = h.vaddr.toNat / 4096 * 4096 := by
  rw [ProgramHeader.lowerPage, alignDown_toNat]
  omega

namespace Fits

variable {size : BitVec 32} {h : ProgramHeader} (hfits : Fits size h)
include hfits

theorem upperPage_toNat :
    h.upperPage.toNat = (h.vaddr.toNat + h.memsz.toNat - 1) / 4096 * 4096 + 4096 := by
  have hhigh := hfits.high
  have hnonempty := hfits.nonempty
  have htop : VMSpace.Top.toNat = 0xC0000000 := rfl
  have hsum : (h.vaddr + h.memsz).toNat = h.vaddr.toNat + h.memsz.toNat := by
    rw [BitVec.toNat_add, Nat.mod_eq_of_lt (by omega)]
  rw [ProgramHeader.upperPage, alignUp_toNat _ (by omega), hsum]
  omega

theorem fileUpper_toNat : (h.vaddr + h.filesz).toNat = h.vaddr.toNat + h.filesz.toNat := by
  have hhigh := hfits.high
  have hsized := hfits.sized
  have htop : VMSpace.Top.toNat = 0xC0000000 := rfl
  rw [BitVec.toNat_add, Nat.mod_eq_of_lt (by omega)]

theorem onPage_iff (addr : VirtualAddress) :
    OnPage h addr ↔ h.lowerPage.toNat ≤ addr.toNat ∧ addr.toNat < h.upperPage.toNat := by
  rw [OnPage, lowerPage_toNat, hfits.upperPage_toNat]
  omega

theorem lowerPage_lt : h.lowerPage.toNat < h.upperPage.toNat := by
  have hnonempty := hfits.nonempty
  rw [lowerPage_toNat, hfits.upperPage_toNat]
  omega

theorem bounds : VMSpace.Base.toNat ≤ h.lowerPage.toNat ∧
    h.upperPage.toNat ≤ VMSpace.Top.toNat := by
  have hlow := hfits.low
  have hhigh := hfits.high
  have hnonempty := hfits.nonempty
  have hbase : VMSpace.Base.toNat = 0x400000 := rfl
  have htop : VMSpace.Top.toNat = 0xC0000000 := rfl
  rw [lowerPage_toNat, hfits.upperPage_toNat]
  omega

theorem segmentPages_spec : (segmentPages h).Nodup ∧
    ∀ page, page ∈ segmentPages h ↔ PageAligned page ∧ OnPage h page := by
  obtain ⟨hnodup, hmem⟩ := walk_up (lowerPage_aligned h) (upperPage_aligned h)
    hfits.lowerPage_lt.le (pagesBetween_segment h)
  exact ⟨hnodup, fun page => by rw [hmem, hfits.onPage_iff]⟩

theorem contains_area (addr : VirtualAddress) : Contains h.area addr ↔ OnPage h addr := by
  rw [hfits.onPage_iff, Contains, BitVec.le_def, BitVec.lt_def]
  rfl

end Fits

def Access.inserted? : Access → Option ProgramHeader
  | .insert h => some h
  | _ => none

/-- The segments whose areas accesses record, in order. -/
def insertedOf (done : List Access) : List ProgramHeader := done.filterMap Access.inserted?

/-- The headers that the loader does not skip. -/
def loadHeaders (file : Bytes) : List ProgramHeader :=
  (programHeaders file).filter fun h => h.Loads

@[simp] theorem insertedOf_nil : insertedOf [] = [] := rfl

@[simp] theorem insertedOf_append (first second : List Access) :
    insertedOf (first ++ second) = insertedOf first ++ insertedOf second :=
  List.filterMap_append ..

@[simp] theorem insertedOf_read (offset : BitVec 32) (count : Nat) (rest : List Access) :
    insertedOf (.read offset count :: rest) = insertedOf rest := rfl

@[simp] theorem insertedOf_map (h : ProgramHeader) (page : VirtualAddress)
    (rest : List Access) : insertedOf (.map h page :: rest) = insertedOf rest := rfl

@[simp] theorem insertedOf_insert (h : ProgramHeader) (rest : List Access) :
    insertedOf (.insert h :: rest) = h :: insertedOf rest := rfl

theorem pagesOf_pageAccesses (offset : BitVec 32) (h : ProgramHeader) (page : VirtualAddress) :
    pagesOf (pageAccesses offset h page) = [page] ∧
      insertedOf (pageAccesses offset h page) = [] := by
  unfold pageAccesses
  split <;> exact ⟨rfl, rfl⟩

theorem pagesOf_pages (offset : BitVec 32) (h : ProgramHeader) (pages : List VirtualAddress) :
    pagesOf (pages.flatMap (pageAccesses offset h)) = pages ∧
      insertedOf (pages.flatMap (pageAccesses offset h)) = [] := by
  induction pages with
  | nil => exact ⟨rfl, rfl⟩
  | cons page rest ih =>
      obtain ⟨hpages, hinserted⟩ := pagesOf_pageAccesses offset h page
      rw [List.flatMap_cons, pagesOf_append, insertedOf_append, hpages, ih.1, hinserted, ih.2]
      exact ⟨rfl, rfl⟩

/-- What one header contributes. -/
theorem pagesOf_segment (file : Bytes) (offset : BitVec 32) :
    pagesOf (segmentAccesses file offset) =
        (if (programHeader file offset).Loads then segmentPages (programHeader file offset)
          else []) ∧
      insertedOf (segmentAccesses file offset) =
        if (programHeader file offset).Loads then [programHeader file offset] else [] := by
  set h := programHeader file offset
  obtain ⟨hpages, hinserted⟩ := pagesOf_pages offset h (segmentPages h)
  by_cases htype : h.type = PHT_Load
  · by_cases halign : h.align = 0x1000#32
    · have hloads : h.Loads := ⟨htype, halign⟩
      rw [if_pos hloads, if_pos hloads]
      constructor
      · simp [segmentAccesses, h, htype, halign, hpages]
      · simp [segmentAccesses, h, htype, halign, hinserted]
    · have hloads : ¬ h.Loads := fun hloads => halign hloads.2
      rw [if_neg hloads, if_neg hloads]
      constructor
      · simp [segmentAccesses, h, htype, halign]
      · simp [segmentAccesses, h, htype, halign]
  · have hloads : ¬ h.Loads := fun hloads => htype hloads.1
    rw [if_neg hloads, if_neg hloads]
    constructor
    · simp [segmentAccesses, h, htype]
    · simp [segmentAccesses, h, htype]

theorem pagesOf_segments (file : Bytes) (offsets : List (BitVec 32)) :
    pagesOf (offsets.flatMap (segmentAccesses file)) =
        ((offsets.map (programHeader file)).filter fun h => h.Loads).flatMap segmentPages ∧
      insertedOf (offsets.flatMap (segmentAccesses file)) =
        (offsets.map (programHeader file)).filter fun h => h.Loads := by
  induction offsets with
  | nil => exact ⟨rfl, rfl⟩
  | cons offset rest ih =>
      obtain ⟨hpages, hinserted⟩ := pagesOf_segment file offset
      rw [List.flatMap_cons, pagesOf_append, insertedOf_append, hpages, hinserted, ih.1, ih.2,
        List.map_cons, List.filter_cons]
      by_cases hloads : (programHeader file offset).Loads <;> simp [hloads]

theorem pagesOf_accesses (file : Bytes) :
    pagesOf (accesses file) = (loadHeaders file).flatMap segmentPages ∧
      insertedOf (accesses file) = loadHeaders file := by
  obtain ⟨hpages, hinserted⟩ := pagesOf_segments file (headerOffsets file)
  constructor
  · simp [accesses, hpages, loadHeaders, programHeaders]
  · simp [accesses, hinserted, loadHeaders, programHeaders]

theorem mem_pageAccesses {offset : BitVec 32} {h : ProgramHeader} {page : VirtualAddress}
    {a : Access} (ha : a ∈ pageAccesses offset h page) :
    (∃ n, n ≤ 28 ∧ a = .read (offset + BitVec.ofNat 32 n) 4) ∨ a = .map h page ∨
      lowerBound h page < upperBound h page ∧
        a = .read (h.offset + (lowerBound h page - h.vaddr))
          ((upperBound h page).toNat - (lowerBound h page).toNat) := by
  unfold pageAccesses at ha
  split at ha
  · rename_i hcopies
    simp only [List.cons_append, List.nil_append, List.mem_cons, List.not_mem_nil,
      or_false] at ha
    rcases ha with rfl | rfl | rfl | rfl
    · exact Or.inl ⟨24, by omega, rfl⟩
    · exact Or.inr (Or.inl rfl)
    · exact Or.inl ⟨4, by omega, rfl⟩
    · exact Or.inr (Or.inr ⟨hcopies, rfl⟩)
  · simp only [List.append_nil, List.mem_cons, List.not_mem_nil, or_false] at ha
    rcases ha with rfl | rfl
    · exact Or.inl ⟨24, by omega, rfl⟩
    · exact Or.inr (Or.inl rfl)

/-- What an access of the header at `offset` is. -/
theorem mem_segmentAccesses {file : Bytes} {offset : BitVec 32} {a : Access}
    (ha : a ∈ segmentAccesses file offset) :
    a = .read 44#32 2 ∨ a = .read 42#32 2 ∨
      (∃ n, n ≤ 28 ∧ a = .read (offset + BitVec.ofNat 32 n) 4) ∨
      (programHeader file offset).Loads ∧
        (a = .insert (programHeader file offset) ∨
          ∃ page ∈ segmentPages (programHeader file offset),
            a ∈ pageAccesses offset (programHeader file offset) page) := by
  set h := programHeader file offset with hh
  have hfield : ∀ n : Nat, n ≤ 28 → a = .read (offset + BitVec.ofNat 32 n) 4 →
      ∃ n, n ≤ 28 ∧ a = .read (offset + BitVec.ofNat 32 n) 4 := fun n hn heq => ⟨n, hn, heq⟩
  unfold segmentAccesses at ha
  simp only [← hh, List.cons_append, List.nil_append, List.mem_cons] at ha
  rcases ha with rfl | rfl | rfl | ha
  · exact Or.inl rfl
  · exact Or.inr (Or.inl rfl)
  · exact Or.inr (Or.inr (Or.inl ⟨0, by omega, by simp⟩))
  split at ha
  · simp at ha
  rename_i htype
  rw [not_not] at htype
  rcases List.mem_cons.mp ha with rfl | ha
  · exact Or.inr (Or.inr (Or.inl (hfield 28 (by omega) rfl)))
  split at ha
  · simp at ha
  rename_i halign
  rw [not_not] at halign
  simp only [List.mem_cons, List.mem_append, List.mem_flatMap, List.not_mem_nil, or_false] at ha
  rcases ha with rfl | rfl | rfl | hpage | rfl | rfl
  · exact Or.inr (Or.inr (Or.inl (hfield 8 (by omega) rfl)))
  · exact Or.inr (Or.inr (Or.inl (hfield 20 (by omega) rfl)))
  · exact Or.inr (Or.inr (Or.inl (hfield 16 (by omega) rfl)))
  · exact Or.inr (Or.inr (Or.inr ⟨⟨htype, halign⟩, Or.inr hpage⟩))
  · exact Or.inr (Or.inr (Or.inl (hfield 24 (by omega) rfl)))
  · exact Or.inr (Or.inr (Or.inr ⟨⟨htype, halign⟩, Or.inl rfl⟩))

/-- The bytes copied to a page are in the file. -/
theorem Fits.copy_inside {size : BitVec 32} {h : ProgramHeader} (hfits : Fits size h)
    {page : VirtualAddress} (hcopies : lowerBound h page < upperBound h page) :
    Inside size (.read (h.offset + (lowerBound h page - h.vaddr))
      ((upperBound h page).toNat - (lowerBound h page).toNat)) := by
  have hupper : (upperBound h page).toNat ≤ h.vaddr.toNat + h.filesz.toNat := by
    rw [← hfits.fileUpper_toNat]
    unfold upperBound
    split
    · rename_i hlt
      exact (BitVec.lt_def.mp hlt).le
    · exact le_rfl
  have hlower : h.vaddr.toNat ≤ (lowerBound h page).toNat := by
    unfold lowerBound
    split
    · rename_i hlt
      exact (BitVec.lt_def.mp hlt).le
    · exact le_rfl
  have hlt := BitVec.lt_def.mp hcopies
  have hfiled := hfits.filed
  have hmax := size.isLt
  have hdiff : (lowerBound h page - h.vaddr).toNat =
      (lowerBound h page).toNat - h.vaddr.toNat := by
    rw [BitVec.toNat_sub]
    have hpage := (lowerBound h page).isLt
    omega
  change (h.offset + (lowerBound h page - h.vaddr)).toNat + _ ≤ _
  rw [BitVec.toNat_add, hdiff, Nat.mod_eq_of_lt (by omega)]
  omega

namespace Loadable

variable {file : Bytes} {size : BitVec 32} (hfile : Loadable file size)
include hfile

theorem mem_headerOffsets {offset : BitVec 32} (h : offset ∈ headerOffsets file) :
    offset.toNat + 32 ≤ size.toNat := by
  obtain ⟨i, hi, rfl⟩ := List.mem_map.mp h
  have hle := hfile.table i (List.mem_range.mp hi)
  have hmax := size.isLt
  rw [BitVec.toNat_add, BitVec.toNat_ofNat, Nat.add_mod_mod, Nat.mod_eq_of_lt (by omega)]
  exact hle

theorem mem_loadHeaders {h : ProgramHeader} (hmem : h ∈ loadHeaders file) : Fits size h := by
  obtain ⟨hheader, hloads⟩ := List.mem_filter.mp hmem
  exact hfile.fits h hheader (of_decide_eq_true hloads)

/-- Every access of such a file is inside. -/
theorem inside {a : Access} (ha : a ∈ accesses file) : Inside size a ∧ ¬ PastAreas a := by
  have hheaded := hfile.headed
  have hfixed : ∀ n count : Nat, n + count ≤ 52 →
      Inside size (.read (BitVec.ofNat 32 n) count) ∧
        ¬ PastAreas (.read (BitVec.ofNat 32 n) count) := by
    intro n count hle
    refine ⟨?_, id⟩
    change (BitVec.ofNat 32 n).toNat + count ≤ _
    rw [BitVec.toNat_ofNat, Nat.mod_eq_of_lt (by omega)]
    omega
  rw [accesses, List.mem_append, List.mem_cons, List.mem_flatMap] at ha
  rcases ha with (rfl | ⟨offset, hoffset, ha⟩) | ha
  · exact hfixed 28 4 (by omega)
  · have htable := hfile.mem_headerOffsets hoffset
    have hmax := size.isLt
    have hfield : ∀ n ≤ 28, Inside size (.read (offset + BitVec.ofNat 32 n) 4) ∧
        ¬ PastAreas (.read (offset + BitVec.ofNat 32 n) 4) := by
      intro n hn
      refine ⟨?_, id⟩
      change (offset + BitVec.ofNat 32 n).toNat + 4 ≤ _
      rw [BitVec.toNat_add, BitVec.toNat_ofNat, Nat.add_mod_mod, Nat.mod_eq_of_lt (by omega)]
      omega
    have hfits : (programHeader file offset).Loads → Fits size (programHeader file offset) :=
      hfile.fits _ (List.mem_map_of_mem hoffset)
    rcases mem_segmentAccesses ha with rfl | rfl | ⟨n, hn, rfl⟩ | ⟨hloads, hsegment⟩
    · exact hfixed 44 2 (by omega)
    · exact hfixed 42 2 (by omega)
    · exact hfield n hn
    obtain ⟨hlow, hhigh⟩ := (hfits hloads).bounds
    have htop : VMSpace.Top.toNat = 0xC0000000 := rfl
    rcases hsegment with rfl | ⟨page, hpage, ha⟩
    · refine ⟨trivial, fun hpast => ?_⟩
      have hlt := (hfits hloads).lowerPage_lt
      have hpast' := congrArg BitVec.toNat hpast
      have hlast : (0xFFFFF000#32).toNat = 0xFFFFF000 := rfl
      omega
    · rcases mem_pageAccesses ha with ⟨n, hn, rfl⟩ | rfl | ⟨hcopies, rfl⟩
      · exact hfield n hn
      · have honPage := (((hfits hloads).segmentPages_spec.2 page).mp hpage).2
        rw [(hfits hloads).onPage_iff] at honPage
        refine ⟨⟨BitVec.le_def.mpr (by omega), BitVec.lt_def.mpr (by omega)⟩, id⟩
      · exact ⟨(hfits hloads).copy_inside hcopies, id⟩
  · simp only [List.mem_cons, List.not_mem_nil, or_false] at ha
    rcases ha with rfl | rfl
    · exact hfixed 44 2 (by omega)
    · exact hfixed 24 4 (by omega)

end Loadable

end Nyan.Elf
