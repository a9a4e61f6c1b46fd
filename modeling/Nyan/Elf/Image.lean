import Nyan.Elf.Loadable
import Nyan.Task.UserBytes

/-!
The image that the loader builds of a loadable file. Every segment lies in pages of
its own, which hold its bytes of the file and zeros around them; there is one area for
each segment, and nothing else is mapped.
-/

namespace Nyan.Elf

open Paging Paging.RangeManager Nyan.Task Allocator

/-- Segments without a common page follow each other. -/
theorem Fits.apart {size : BitVec 32} {h h' : ProgramHeader} (hfits : Fits size h)
    (hfits' : Fits size h') (hapart : ∀ addr, ¬ (OnPage h addr ∧ OnPage h' addr)) :
    hi h.area ≤ lo h'.area ∨ hi h'.area ≤ lo h.area := by
  have hlt := hfits.lowerPage_lt
  have hlt' := hfits'.lowerPage_lt
  change h.upperPage.toNat ≤ h'.lowerPage.toNat ∨ h'.upperPage.toNat ≤ h.lowerPage.toNat
  by_contra hmeet
  rw [not_or] at hmeet
  by_cases hle : h.lowerPage.toNat ≤ h'.lowerPage.toNat
  · refine hapart h'.lowerPage ⟨?_, ?_⟩
    · rw [hfits.onPage_iff]
      omega
    · rw [hfits'.onPage_iff]
      omega
  · refine hapart h.lowerPage ⟨?_, ?_⟩
    · rw [hfits.onPage_iff]
      omega
    · rw [hfits'.onPage_iff]
      omega

/-- The entries between the sentinels after an insertion that succeeds. -/
theorem iterated_insert {space space' : VMSpace} {vma : VMA}
    (hends : ∃ interior, space = RangeEntry.make 0#32 VMSpace.Base :: interior ++
      [RangeEntry.make VMSpace.Top 0xFFFFF000#32])
    (h : RangeManager.insert space vma = some (true, space')) :
    (VMSpace.iterated space').Perm (vma :: VMSpace.iterated space) := by
  obtain ⟨interior', hends'⟩ := insert_sentinels hends h
  obtain ⟨interior, hends⟩ := hends
  have hperm : space'.Perm (vma :: space) := by
    rcases insert_spec h with ⟨hfalse, _⟩ | ⟨_, before, left, right, after, rfl, rfl, _⟩
    · cases hfalse
    · exact List.perm_middle
  subst hends hends'
  simp only [VMSpace.iterated, List.cons_append, List.tail_cons, List.dropLast_concat]
  have hswap := hperm.trans (List.Perm.swap _ _ _)
  have hcut : (interior' ++ [RangeEntry.make VMSpace.Top 0xFFFFF000#32]).Perm
      ((vma :: interior) ++ [RangeEntry.make VMSpace.Top 0xFFFFF000#32]) := hswap.cons_inv
  exact (List.perm_append_right_iff _).mp hcut

/-- The areas and the break after the segments that accesses have recorded. -/
structure Recorded (done : List Access) (image : Image) : Prop where
  repInv : RepInv VMSpace.Base VMSpace.Top image.vmSpace
  areas : (VMSpace.iterated image.vmSpace).Perm ((insertedOf done).map ProgramHeader.area)
  brk : image.brkAddr.toNat =
    ((insertedOf done).map fun h => h.upperPage.toNat).foldl max 0x400000

/-- A segment more, apart from those there are. -/
theorem Recorded.segment {size : BitVec 32} {done : List Access} {image image' : Image}
    {h : ProgramHeader} {file : Bytes} {k : Nat} (hrecorded : Recorded done image)
    (hfits : Fits size h) (hold : ∀ h' ∈ insertedOf done, Fits size h')
    (hapart : ∀ h' ∈ insertedOf done, ∀ addr, ¬ (OnPage h' addr ∧ OnPage h addr))
    (heq : perform file k image (.insert h) = some image') :
    Recorded (done ++ [.insert h]) image' := by
  simp only [perform, Option.bind_eq_bind, Option.bind_eq_some_iff, Option.pure_def,
    Prod.exists] at heq
  obtain ⟨ok, vmSpace, hinsert, heq⟩ := heq
  obtain rfl := Option.some.inj heq
  obtain ⟨hlow, hhigh⟩ := hfits.bounds
  have hproper : lo h.area < hi h.area := hfits.lowerPage_lt
  have hbetween : ∀ e ∈ image.vmSpace, hi e ≤ lo h.area ∨ hi h.area ≤ lo e := by
    obtain ⟨interior, hends⟩ := hrecorded.repInv.sentinels
    have hareas := hrecorded.areas
    rw [hends] at hareas
    simp only [VMSpace.iterated, List.cons_append, List.tail_cons,
      List.dropLast_concat] at hareas
    intro e he
    rw [hends] at he
    simp only [List.cons_append, List.mem_cons, List.mem_append, List.not_mem_nil,
      or_false] at he
    rcases he with rfl | he | rfl
    · exact Or.inl hlow
    · obtain ⟨h', hmem, rfl⟩ := List.mem_map.mp (hareas.mem_iff.mp he)
      exact (hold h' hmem).apart hfits (hapart h' hmem)
    · exact Or.inr hhigh
  obtain rfl := insert_ok hrecorded.repInv.ordered hproper hbetween hinsert
  refine ⟨insert_repInv hrecorded.repInv hproper.le hinsert, ?_, ?_⟩
  · rw [insertedOf_append, insertedOf_insert, insertedOf_nil, List.map_append, List.map_singleton]
    refine (iterated_insert hrecorded.repInv.sentinels hinsert).trans ?_
    exact (hrecorded.areas.cons _).trans (List.perm_append_singleton _ _).symm
  · rw [insertedOf_append, insertedOf_insert, insertedOf_nil, List.map_append, List.map_singleton,
      List.foldl_append, ← hrecorded.brk]
    dsimp only [List.foldl_cons, List.foldl_nil]
    split
    · rename_i hlt
      rw [BitVec.lt_def] at hlt
      omega
    · rename_i hge
      rw [BitVec.lt_def] at hge
      omega

/-- In every run whose segments fit and have no page in common. -/
theorem Reaches.recorded {size : BitVec 32} {s : Paging.System} {file : Bytes} {done : List Access}
    {image : Image} (hfits : ∀ h ∈ insertedOf done, Fits size h)
    (hapart : (insertedOf done).Pairwise fun h h' => ∀ addr, ¬ (OnPage h addr ∧ OnPage h' addr))
    (hreaches : Reaches s file done image) : Recorded done image := by
  induction done using List.reverseRecOn generalizing image with
  | nil =>
      obtain ⟨first, hstart, hrun⟩ := hreaches
      obtain rfl : first = image := by simpa using hrun
      obtain ⟨system, _, rfl⟩ := Option.map_eq_some_iff.mp hstart
      exact ⟨init_repInv (by decide) (by decide), List.Perm.refl _, rfl⟩
  | append_singleton done a ih =>
      obtain ⟨before, hbefore, heq⟩ := hreaches.last
      have hrecorded := ih (fun h hh => hfits h (by simp [hh]))
        (by rw [insertedOf_append] at hapart; exact (List.pairwise_append.mp hapart).1) hbefore
      have hsame : a.inserted? = none → image.vmSpace = before.vmSpace →
          image.brkAddr = before.brkAddr → Recorded (done ++ [a]) image := by
        intro hnone hspace hbrk
        have hinserted : insertedOf (done ++ [a]) = insertedOf done := by simp [insertedOf, hnone]
        exact ⟨hspace ▸ hrecorded.repInv, by rw [hspace, hinserted]; exact hrecorded.areas,
          by rw [hbrk, hinserted]; exact hrecorded.brk⟩
      cases a with
      | read offset count =>
          obtain rfl := Option.some.inj heq
          exact hsame rfl rfl rfl
      | map h page =>
          obtain ⟨system, _, rfl⟩ := Option.map_eq_some_iff.mp heq
          exact hsame rfl rfl rfl
      | insert h =>
          rw [insertedOf_append, List.pairwise_append] at hapart
          refine hrecorded.segment (hfits h (by simp)) (fun h' hh' => hfits h' (by simp [hh']))
            (fun h' hh' => hapart.2.2 h' hh' h (by simp)) heq

/-- The page-rounded end of a segment. -/
def segmentEnd (h : ProgramHeader) : Nat := (h.vaddr.toNat + h.memsz.toNat + 4095) / 4096 * 4096

/-- Space `k` holds what the segments of the file say, and nothing else, and the areas
and the break fit them. -/
structure Describes (file : Bytes) (k : Nat) (image : Image) : Prop where
  filed : ∀ h ∈ programHeaders file, h.Loads → ∀ i < h.filesz.toNat,
    userByte image.system k (h.vaddr + BitVec.ofNat 32 i) =
      some (file (h.offset + BitVec.ofNat 32 i))
  zeroed : ∀ h ∈ programHeaders file, h.Loads → ∀ addr, OnPage h addr →
    (addr.toNat < h.vaddr.toNat ∨ h.vaddr.toNat + h.filesz.toNat ≤ addr.toNat) →
    userByte image.system k addr = some 0#8
  writable : ∀ h ∈ programHeaders file, h.Loads → ∀ addr, OnPage h addr →
    flag image.system k addr = some (decide (h.flags &&& PHF_Writable ≠ 0#32))
  only : ∀ addr, addr < VMSpace.Top → (pte image.system k addr).isSome →
    ∃ h ∈ programHeaders file, h.Loads ∧ OnPage h addr
  areas : (VMSpace.iterated image.vmSpace).Perm ((loadHeaders file).map ProgramHeader.area)
  covers : ∀ h ∈ loadHeaders file, ∀ addr, Contains h.area addr ↔ OnPage h addr
  protect : ∀ h ∈ loadHeaders file,
    (h.area.protect &&& PROT_READ ≠ 0#32 ↔ h.flags &&& PHF_Readable ≠ 0#32) ∧
    (h.area.protect &&& PROT_WRITE ≠ 0#32 ↔ h.flags &&& PHF_Writable ≠ 0#32) ∧
    (h.area.protect &&& PROT_EXEC ≠ 0#32 ↔ h.flags &&& PHF_Executable ≠ 0#32)
  brk : image.brkAddr.toNat = ((loadHeaders file).map segmentEnd).foldl max 0x400000

theorem protect_area (h : ProgramHeader) :
    (h.area.protect &&& PROT_READ ≠ 0#32 ↔ h.flags &&& PHF_Readable ≠ 0#32) ∧
    (h.area.protect &&& PROT_WRITE ≠ 0#32 ↔ h.flags &&& PHF_Writable ≠ 0#32) ∧
    (h.area.protect &&& PROT_EXEC ≠ 0#32 ↔ h.flags &&& PHF_Executable ≠ 0#32) := by
  by_cases hexec : h.flags &&& PHF_Executable = 0#32 <;>
    by_cases hwrite : h.flags &&& PHF_Writable = 0#32 <;>
    by_cases hread : h.flags &&& PHF_Readable = 0#32 <;>
    simp [ProgramHeader.area, hexec, hwrite, hread, PROT_EXEC, PROT_WRITE, PROT_READ]

theorem mem_loadHeaders_iff {file : Bytes} {h : ProgramHeader} :
    h ∈ loadHeaders file ↔ h ∈ programHeaders file ∧ h.Loads := by
  rw [loadHeaders, List.mem_filter, decide_eq_true_eq]

namespace Loadable

variable {file : Bytes} {size : BitVec 32} (hfile : Loadable file size)
include hfile

theorem pairwise : (loadHeaders file).Pairwise fun h h' =>
    ∀ addr, ¬ (OnPage h addr ∧ OnPage h' addr) := by
  rw [loadHeaders, List.pairwise_filter]
  refine hfile.apart.imp fun {h h'} hapart hloads hloads' => ?_
  exact hapart (of_decide_eq_true hloads) (of_decide_eq_true hloads')

/-- No page is mapped twice. -/
theorem pages_nodup : (pagesOf (accesses file)).Nodup := by
  rw [(pagesOf_accesses file).1, List.nodup_flatMap]
  constructor
  · exact fun h hh => (hfile.mem_loadHeaders hh).segmentPages_spec.1
  · refine hfile.pairwise.imp_of_mem fun {h h'} hh hh' hapart => ?_
    intro page hpage hpage'
    refine hapart page ⟨?_, ?_⟩
    · exact (((hfile.mem_loadHeaders hh).segmentPages_spec.2 page).mp hpage).2
    · exact (((hfile.mem_loadHeaders hh').segmentPages_spec.2 page).mp hpage').2

theorem mem_pages {page : VirtualAddress} :
    page ∈ pagesOf (accesses file) ↔
      PageAligned page ∧ ∃ h ∈ loadHeaders file, OnPage h page := by
  rw [(pagesOf_accesses file).1, List.mem_flatMap]
  constructor
  · rintro ⟨h, hh, hpage⟩
    obtain ⟨haligned, honPage⟩ := ((hfile.mem_loadHeaders hh).segmentPages_spec.2 page).mp hpage
    exact ⟨haligned, h, hh, honPage⟩
  · rintro ⟨haligned, h, hh, honPage⟩
    exact ⟨h, hh, ((hfile.mem_loadHeaders hh).segmentPages_spec.2 page).mpr
      ⟨haligned, honPage⟩⟩

end Loadable

theorem map_mem_accesses {file : Bytes} {h : ProgramHeader} {page : VirtualAddress}
    (hh : h ∈ loadHeaders file) (hpage : page ∈ segmentPages h) :
    .map h page ∈ accesses file := by
  obtain ⟨hheader, hloads⟩ := mem_loadHeaders_iff.mp hh
  obtain ⟨offset, hoffset, rfl⟩ := List.mem_map.mp hheader
  have hmap : .map (programHeader file offset) page ∈
      pageAccesses offset (programHeader file offset) page := by
    simp [pageAccesses]
  have hsegment : .map (programHeader file offset) page ∈ segmentAccesses file offset := by
    simp only [segmentAccesses, hloads.1, hloads.2, ne_eq, not_true, if_false, List.mem_append,
      List.mem_cons, List.mem_flatMap]
    exact Or.inr (Or.inr (Or.inl (Or.inr ⟨page, hpage, hmap⟩)))
  rw [accesses, List.mem_append, List.mem_cons, List.mem_flatMap]
  exact Or.inl (Or.inr ⟨offset, hoffset, hsegment⟩)

/-- The bytes of the file are where they belong, and around them are zeros. -/
theorem Fits.byteAt_eq {size : BitVec 32} {h : ProgramHeader} (hfits : Fits size h)
    (file : Bytes) {addr : VirtualAddress} (haddr : OnPage h addr) :
    h.byteAt file (thisPage addr) addr =
      if h.vaddr.toNat ≤ addr.toNat ∧ addr.toNat < h.vaddr.toNat + h.filesz.toNat then
        file (h.offset + (addr - h.vaddr))
      else
        0#8 := by
  have hthis := thisPage_toNat addr
  obtain ⟨_, hbelow⟩ := (hfits.onPage_iff addr).mp haddr
  have hhigh := hfits.bounds.2
  have htop : VMSpace.Top.toNat = 0xC0000000 := rfl
  have hnext : (nextPage (thisPage addr)).toNat = (thisPage addr).toNat + 4096 := by
    rw [nextPage_toNat]
    omega
  have hfile := hfits.fileUpper_toNat
  have hiff : ((if h.vaddr < thisPage addr then thisPage addr else h.vaddr) ≤ addr ∧
      addr < if nextPage (thisPage addr) < h.vaddr + h.filesz then nextPage (thisPage addr)
        else h.vaddr + h.filesz) ↔
      h.vaddr.toNat ≤ addr.toNat ∧ addr.toNat < h.vaddr.toNat + h.filesz.toNat := by
    split <;> rename_i hlower <;> split <;> rename_i hupper <;>
      simp only [BitVec.le_def, BitVec.lt_def] at hlower hupper ⊢ <;> omega
  simp only [ProgramHeader.byteAt, hiff]

namespace Loadable

variable {file : Bytes} {size : BitVec 32} (hfile : Loadable file size) {s : Paging.System}
  {image : Image} (h : Underway s file (accesses file) image)
include hfile h

/-- The page of a segment is there, with the contents of that segment. -/
theorem mapping_eq {hd : ProgramHeader} (hhd : hd ∈ loadHeaders file) {addr : VirtualAddress}
    (haddr : OnPage hd addr) :
    ∃ place frame, userPlace addr = some place ∧
      image.system.mapping (s.spaces.length, place) =
        some (frame, loadedPage file hd (thisPage addr)) := by
  have hfits := hfile.mem_loadHeaders hhd
  have hthis := thisPage_toNat addr
  have haligned : PageAligned (thisPage addr) := (pageAligned_iff _).mpr (by omega)
  have honPage : OnPage hd (thisPage addr) := by
    unfold OnPage at haddr ⊢
    omega
  have hpage := (hfits.segmentPages_spec.2 _).mpr ⟨haligned, honPage⟩
  obtain ⟨before, after, hsplit⟩ := List.append_of_mem (map_mem_accesses hhd hpage)
  have hlt : addr.toNat < VMSpace.Top.toNat :=
    ((hfits.onPage_iff addr).mp haddr).2.trans_le hfits.bounds.2
  obtain ⟨place, hplace⟩ := Option.ne_none_iff_exists'.mp (userPlace_of_lt hlt)
  have hplace' : userPlace (thisPage addr) = some place := by rw [userPlace_thisPage, hplace]
  have honce : thisPage addr ∉ pagesOf after := by
    have hnodup := hfile.pages_nodup
    rw [hsplit, pagesOf_append, pagesOf_map] at hnodup
    exact (List.nodup_cons.mp (List.nodup_append.mp hnodup).2.1).1
  obtain ⟨frame, hmapping⟩ := h.loaded before hd (thisPage addr) after place hsplit hplace'
    fun other hother hsame => by
      have hmem : other ∈ pagesOf (accesses file) := by simp [hsplit, hother]
      have haligned' := (hfile.mem_pages.mp hmem).1
      obtain rfl := userPlace_inj haligned' haligned hsame hplace'
      exact honce hother
  exact ⟨place, frame, hplace, hmapping⟩

theorem userByte_eq {hd : ProgramHeader} (hhd : hd ∈ loadHeaders file) {addr : VirtualAddress}
    (haddr : OnPage hd addr) :
    userByte image.system s.spaces.length addr =
      some (if hd.vaddr.toNat ≤ addr.toNat ∧ addr.toNat < hd.vaddr.toNat + hd.filesz.toNat then
        file (hd.offset + (addr - hd.vaddr)) else 0#8) := by
  obtain ⟨place, frame, hplace, hmapping⟩ := hfile.mapping_eq h hhd haddr
  rw [userByte_of_mapping hplace hmapping, loadedPage, byteIn_pageAt,
    (hfile.mem_loadHeaders hhd).byteAt_eq file haddr]

/-- Nothing but the pages of the segments is mapped. -/
theorem pte_only {addr : VirtualAddress} (haddr : addr < VMSpace.Top)
    (hpte : (pte image.system s.spaces.length addr).isSome) :
    ∃ hd ∈ programHeaders file, hd.Loads ∧ OnPage hd addr := by
  obtain ⟨place, hplace⟩ :=
    Option.ne_none_iff_exists'.mp (userPlace_of_lt (BitVec.lt_def.mp haddr))
  by_contra hnone
  have habsent := h.absent place fun page hpage hsame => by
    obtain ⟨haligned, hd, hhd, honPage⟩ := hfile.mem_pages.mp hpage
    have hthis := thisPage_toNat addr
    obtain rfl := userPlace_inj haligned ((pageAligned_iff (thisPage addr)).mpr (by omega)) hsame
      (by rw [userPlace_thisPage, hplace])
    obtain ⟨hheader, hloads⟩ := mem_loadHeaders_iff.mp hhd
    refine hnone ⟨hd, hheader, hloads, ?_⟩
    unfold OnPage at honPage ⊢
    omega
  have hentry : image.system.layout.entry (s.spaces.length, place) = none := by
    simpa [Paging.System.mapping, Memory.mapping] using habsent
  rw [pte_eq hplace, hentry] at hpte
  cases hpte

theorem describes (hrecorded : Recorded (accesses file) image) :
    Describes file s.spaces.length image where
  filed hd hheader hloads i hi := by
    have hhd := mem_loadHeaders_iff.mpr ⟨hheader, hloads⟩
    have hfits := hfile.mem_loadHeaders hhd
    have hsized := hfits.sized
    have hhigh := hfits.high
    have htop : VMSpace.Top.toNat = 0xC0000000 := rfl
    have haddr : (hd.vaddr + BitVec.ofNat 32 i).toNat = hd.vaddr.toNat + i := by
      rw [BitVec.toNat_add, BitVec.toNat_ofNat, Nat.add_mod_mod, Nat.mod_eq_of_lt (by omega)]
    have honPage : OnPage hd (hd.vaddr + BitVec.ofNat 32 i) := by
      rw [OnPage, haddr]
      omega
    have hdiff : hd.vaddr + BitVec.ofNat 32 i - hd.vaddr = BitVec.ofNat 32 i := by
      rw [BitVec.add_comm, BitVec.add_sub_cancel]
    rw [hfile.userByte_eq h hhd honPage, if_pos (by omega), hdiff]
  zeroed hd hheader hloads addr honPage hout := by
    have hhd := mem_loadHeaders_iff.mpr ⟨hheader, hloads⟩
    rw [hfile.userByte_eq h hhd honPage, if_neg (by omega)]
  writable hd hheader hloads addr honPage := by
    have hhd := mem_loadHeaders_iff.mpr ⟨hheader, hloads⟩
    obtain ⟨place, frame, hplace, hmapping⟩ := hfile.mapping_eq h hhd honPage
    rw [flag_eq hplace, hmapping]
    rfl
  only addr haddr hpte := hfile.pte_only h haddr hpte
  areas := by
    rw [← (pagesOf_accesses file).2]
    exact hrecorded.areas
  covers hd hhd := (hfile.mem_loadHeaders hhd).contains_area
  protect hd _ := protect_area hd
  brk := by
    have hends : ∀ hd ∈ loadHeaders file, hd.upperPage.toNat = segmentEnd hd := by
      intro hd hhd
      have hfits := hfile.mem_loadHeaders hhd
      have hnonempty := hfits.nonempty
      rw [hfits.upperPage_toNat, segmentEnd]
      omega
    rw [hrecorded.brk, (pagesOf_accesses file).2, List.map_congr_left hends]

end Loadable

/-- A loadable file is loaded if there are frames for its pages, and then the image is
what the file describes. -/
theorem loadFile_describes {s : Paging.System} (hgood : s.Good)
    (hlive : s.live.length < PhysicalFrames.maxRef) {file : Bytes} {size : BitVec 32}
    (hfile : Loadable file size) :
    ((loadFile s file).isSome ↔
        framesFor ((loadHeaders file).flatMap segmentPages) < UserDirectory.free s.memory) ∧
      ∀ image entry, loadFile s file = some (image, entry) →
        entry = (header file).entryOffset ∧ Describes file s.spaces.length image := by
  have hinside : ∀ a ∈ accesses file, Inside size a ∧ ¬ PastAreas a := fun a ha =>
    hfile.inside ha
  have hunderway : ∀ image, Reaches s file (accesses file) image →
      Underway s file (accesses file) image := fun image hreaches =>
    hreaches.underway hgood hlive fun page hpage =>
      (user_of_inside (fun b hb => (hinside b hb).1) page hpage).2
  have hload : ∀ image entry, loadFile s file = some (image, entry) ↔
      Reaches s file (accesses file) image ∧ (header file).entryOffset = entry := by
    intro image entry
    rw [loadFile_eq, Option.map_eq_some_iff]
    constructor
    · rintro ⟨image', hrun, heq⟩
      obtain ⟨rfl, hentry⟩ := Prod.mk.inj heq
      exact ⟨Option.bind_eq_some_iff.mp hrun, hentry⟩
    · rintro ⟨hreaches, rfl⟩
      exact ⟨image, Option.bind_eq_some_iff.mpr hreaches, rfl⟩
  refine ⟨?_, ?_⟩
  · rw [← (pagesOf_accesses file).1]
    constructor
    · intro hsome
      obtain ⟨⟨image, entry⟩, heq⟩ := Option.isSome_iff_exists.mp hsome
      have hcount := (hunderway image ((hload image entry).mp heq).1).count
      omega
    · intro hfree
      obtain ⟨image, hreaches⟩ := reaches_of_affordable file hgood hlive hinside hfree
      rw [(hload image _).mpr ⟨hreaches, rfl⟩]
      rfl
  · intro image entry heq
    obtain ⟨hreaches, hentry⟩ := (hload image entry).mp heq
    have hfits : ∀ h ∈ insertedOf (accesses file), Fits size h := by
      rw [(pagesOf_accesses file).2]
      exact fun h hh => hfile.mem_loadHeaders hh
    have hapart : (insertedOf (accesses file)).Pairwise fun h h' =>
        ∀ addr, ¬ (OnPage h addr ∧ OnPage h' addr) := by
      rw [(pagesOf_accesses file).2]
      exact hfile.pairwise
    exact ⟨hentry.symm, hfile.describes (hunderway image hreaches)
      (hreaches.recorded hfits hapart)⟩

/-- One segment, of the last two of 86 bytes and with more zeros than its page holds. -/
def oneSegment : Bytes := fun offset =>
  if offset = 28#32 then 52#8
  else if offset = 42#32 then 32#8
  else if offset = 44#32 then 1#8
  else if offset = 52#32 then 1#8
  else if offset = 56#32 then 84#8
  else if offset = 60#32 then 0x10#8
  else if offset = 62#32 then 0x40#8
  else if offset = 68#32 then 2#8
  else if offset = 73#32 then 0x10#8
  else if offset = 76#32 then 6#8
  else if offset = 81#32 then 0x10#8
  else if offset = 84#32 then 0xAA#8
  else if offset = 85#32 then 0xBB#8
  else 0#8

theorem oneSegment_headers : programHeaders oneSegment =
    [{ type := PHT_Load, offset := 84#32, vaddr := 0x400010#32, filesz := 2#32
       memsz := 0x1000#32, flags := 6#32, align := 0x1000#32 }] := rfl

theorem oneSegment_loadable : Loadable oneSegment 86#32 := by
  refine ⟨by decide, by decide, ?_, ?_⟩
  · rw [oneSegment_headers]
    intro h hh _
    obtain rfl := List.mem_singleton.mp hh
    exact ⟨by decide, by decide, by decide, by decide, by decide⟩
  · rw [oneSegment_headers]
    exact List.pairwise_singleton _ _

theorem loadFile_describes_two_pages :
    ∃ image entry, loadFile emptySystem oneSegment = some (image, entry) ∧
      userByte image.system 0 0x400011#32 = some 0xBB#8 ∧
      flag image.system 0 0x401000#32 = some true ∧ image.brkAddr = 0x402000#32 ∧
      Describes oneSegment 0 image := by
  obtain ⟨⟨image, entry⟩, hload, hbyte, hflag, hbrk⟩ :
      ∃ result ∈ loadFile emptySystem oneSegment,
        userByte result.1.system 0 0x400011#32 = some 0xBB#8 ∧
        flag result.1.system 0 0x401000#32 = some true ∧ result.1.brkAddr = 0x402000#32 := by
    decide +kernel
  exact ⟨image, entry, hload, hbyte, hflag, hbrk, ((loadFile_describes (Paging.System.boot_good ..)
    (by decide) oneSegment_loadable).2 image entry hload).2⟩

end Nyan.Elf
