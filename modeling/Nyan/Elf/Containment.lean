import Nyan.Elf.Loading
import Nyan.Paging.FrameAccounting

/-!
What a hostile file can make the loader do. The offsets and addresses in a file are
used as they are: a header beyond the end of the file is read from whatever lies
behind it, and a segment of kernel addresses is mapped over the kernel, in the page
tables that all spaces share. The loader stays inside the file and inside user space
exactly if the first access that would leave them is one for which the frames do not
last.
-/

namespace Nyan.Elf

open Paging Paging.RangeManager Nyan.Task Allocator

/-- An access inside a file of `size` bytes, or to a page of user space. -/
def Inside (size : BitVec 32) : Access → Prop
  | .read offset count => offset.toNat + count ≤ size.toNat
  | .map _ page => VMSpace.Base ≤ page ∧ page < VMSpace.Top
  | .insert _ => True

/-- The area of an empty segment at the last page, for which `insert` reads past the
vector of the areas. -/
def PastAreas : Access → Prop
  | .insert h => h.lowerPage = 0xFFFFF000#32
  | _ => False

instance (size : BitVec 32) : (a : Access) → Decidable (Inside size a)
  | .read _ _ => inferInstanceAs (Decidable (_ ≤ _))
  | .map _ _ => inferInstanceAs (Decidable (_ ∧ _))
  | .insert _ => isTrue trivial

/-- The kernel half of a new space is that of the kernel, the tables of the kernel are
as they were, and nothing is mapped below user space. -/
structure KernelKept (s : Paging.System) (image : Image) : Prop where
  directory : ∃ dir, image.system.dir s.spaces.length = some dir ∧
    ∀ loc : Fin 1024, 768 ≤ loc.val → image.system.memory.page dir loc = s.kernel loc
  tables : ∀ loc : Fin 1024, 768 ≤ loc.val →
    image.system.memory.page (entryAt (s.kernel loc)) = s.memory.page (entryAt (s.kernel loc))
  low : ∀ addr, addr < VMSpace.Base → pte image.system s.spaces.length addr = none

/-- At every point the loader reaches, what it does next is inside, and the mappings
of the kernel are unchanged. -/
structure Contained (s : Paging.System) (file : Bytes) (size : BitVec 32) : Prop where
  inside : ∀ done a rest image image', accesses file = done ++ a :: rest →
    Reaches s file done image → perform file s.spaces.length image a = some image' →
    Inside size a
  kernel : ∀ done rest image, accesses file = done ++ rest → Reaches s file done image →
    KernelKept s image

variable {s : Paging.System} {file : Bytes} {size : BitVec 32} {done : List Access} {image : Image}

theorem user_of_inside (h : ∀ b ∈ done, Inside size b) :
    ∀ page ∈ pagesOf done, VMSpace.Base ≤ page ∧ userPlace page ≠ none := by
  intro page hpage
  obtain ⟨a, ha, hsome⟩ := List.mem_filterMap.mp hpage
  cases a with
  | map hd other =>
      obtain rfl := Option.some.inj hsome
      obtain ⟨hlow, hhigh⟩ := h _ ha
      exact ⟨hlow, userPlace_of_lt (BitVec.lt_def.mp hhigh)⟩
  | read _ _ => cases hsome
  | insert _ => cases hsome

theorem framesFor_le (pages : List VirtualAddress) (page : VirtualAddress) :
    framesFor pages ≤ framesFor (pages ++ [page]) := by
  rw [framesFor_concat]
  omega

theorem framesFor_le_concat (done : List Access) (a : Access) :
    framesFor (pagesOf done) ≤ framesFor (pagesOf (done ++ [a])) := by
  cases a with
  | map hd page => simpa using framesFor_le (pagesOf done) page
  | read _ _ => simp
  | insert _ => simp

variable (file) in
/-- Accesses that are inside are done, if there are frames for them. -/
theorem reaches_of_affordable (hgood : s.Good) (hlive : s.live.length < PhysicalFrames.maxRef)
    (hinside : ∀ b ∈ done, Inside size b ∧ ¬ PastAreas b)
    (hfree : framesFor (pagesOf done) < UserDirectory.free s.memory) :
    ∃ image, Reaches s file done image := by
  induction done using List.reverseRecOn with
  | nil =>
      obtain ⟨addr, memory, hfork, _⟩ :=
        UserDirectory.fork_defined (Nat.zero_lt_of_lt hfree) s.kernel
      let first : Image :=
        { system := { s with memory, spaces := s.spaces ++ [some addr] }
          vmSpace := VMSpace.init, brkAddr := 0x400000#32 }
      refine ⟨first, first, ?_, rfl⟩
      simp only [start, Paging.System.step, hfork, Option.bind_eq_bind, Option.bind_some,
        Option.pure_def, Option.map_some, first]
  | append_singleton done a ih =>
      obtain ⟨image, hreaches⟩ := ih (fun b hb => hinside b (by simp [hb]))
        ((framesFor_le_concat done a).trans_lt hfree)
      have hunderway := hreaches.underway hgood hlive fun page hpage =>
        (user_of_inside (fun b hb => (hinside b (by simp [hb])).1) page hpage).2
      have hends : ∀ hd, a = .insert hd → hd.lowerPage ≠ 0xFFFFF000#32 := by
        rintro hd rfl
        exact (hinside (.insert hd) (by simp)).2
      have huser : ∀ page ∈ a.page?,
          (tableLoc page).val < 768 ∨ isPresent (s.kernel (tableLoc page)) = true := by
        intro page hpage
        have hmem : page ∈ pagesOf (done ++ [a]) := by
          simp [pagesOf, Option.mem_def.mp hpage]
        have hplace := (user_of_inside (fun b hb => (hinside b hb).1) page hmem).2
        obtain ⟨place, hplace⟩ := Option.ne_none_iff_exists'.mp hplace
        rw [(Paging.System.userPlace_eq hplace).1]
        exact Or.inl place.1.isLt
      obtain ⟨image', heq⟩ := hunderway.affordable huser hends hfree
      exact ⟨image', hreaches.snoc heq⟩

/-- A machine without processes, and with one table for all slots of the kernel. -/
def emptySystem : Paging.System :=
  Paging.System.boot 0x40 (by decide) (fun _ _ => 0#32) fun _ => 0x101003#32

end Nyan.Elf
