import Nyan.Task.ImageAgreement
import Nyan.Task.PageFill
import Nyan.Task.ProcessImage

/-!
Buffers below the stack. `checkAddr` accepts a buffer that `validate` rejects if
`checkStack` can grow the stack down to its first byte. The growth gives the buffer
all pages up to the old begin of the stack; but nobody looks at the size of the
buffer and the protection asked for again, so both are right only if the stack area
was large enough and allowed the access from the start.
-/

namespace Nyan.Task

open Paging Paging.RangeManager

namespace Machine

variable (m : Machine) (k : Nat)

/-- `checkAddr`. -/
def checkAddr (ptr : VirtualAddress) (size prot : BitVec 32) :
    Option (Except Errno Unit × Machine) := do
  let process ← m.processes[k]?
  if ← process.vmSpace.validate ptr size prot then
    return (.ok (), m)
  let (grown, m) ← m.checkStack k ptr
  return (if grown then .ok () else .error .EFAULT, m)

end Machine

/-- The area right above an address, which `checkStack` takes for the stack. -/
def areaAbove (space : VMSpace) (addr : VirtualAddress) : Option VMA := do
  let pos ← locate space addr
  space[pos + 1]?

/-- The whole pages from one address up to another are present. -/
def Present (s : Paging.System) (k : Nat) (lower upper : Nat) : Prop :=
  ∀ page, PageAligned page → lower ≤ page.toNat → page.toNat + 4096 ≤ upper →
    pte s k page ≠ none

/-- A buffer lies in one area that grants a protection, without a wrap, and the pages
of that area below the old begin of the stack are present. -/
structure Covered (m : Machine) (k : Nat) (ptr : VirtualAddress) (size prot : BitVec 32)
    (stackBegin : VirtualAddress) : Prop where
  nowrap : ptr.toNat + size.toNat ≤ 2 ^ 32
  inside : ∃ process vma, m.processes[k]? = some process ∧ vma ∈ process.vmSpace ∧
    vma.protect &&& prot = prot ∧
    (∀ x, ptr.toNat ≤ x → x < ptr.toNat + size.toNat → lo vma ≤ x ∧ x < hi vma) ∧
    Present m.system k (lo vma) stackBegin.toNat

/-- An area grants a protection and reaches to the end of a buffer. -/
def Reaches (vma : VMA) (ptr : VirtualAddress) (size prot : BitVec 32) : Prop :=
  vma.protect &&& prot = prot ∧ ptr.toNat + size.toNat ≤ hi vma

instance (vma : VMA) (ptr : VirtualAddress) (size prot : BitVec 32) :
    Decidable (Reaches vma ptr size prot) := inferInstanceAs (Decidable (_ ∧ _))

namespace Machine

variable {m m' : Machine} {k : Nat} {process : Process} {ptr : VirtualAddress}
  {size prot : BitVec 32}

/-- A buffer that `validate` rejects is accepted exactly if the stack grows. -/
theorem checkAddr_invalid (hprocess : m.processes[k]? = some process)
    (hinvalid : process.vmSpace.validate ptr size prot = some false) :
    m.checkAddr k ptr size prot = some (.ok (), m') ↔ m.checkStack k ptr = some (true, m') := by
  simp only [checkAddr, hprocess, hinvalid, Option.bind_eq_bind, Option.bind_some,
    Bool.false_eq_true, if_false, Option.bind_eq_some_iff, Option.pure_def, Option.some_inj,
    Prod.exists, Prod.mk.injEq]
  constructor
  · rintro ⟨grown, m₁, hstack, hresult, rfl⟩
    cases grown with
    | true => exact hstack
    | false => simp at hresult
  · intro hstack
    exact ⟨true, m', hstack, rfl, rfl⟩

/-- What a growth of the stack finds, and what it leaves. -/
theorem checkStack_true (hprocess : m.processes[k]? = some process)
    (h : m.checkStack k ptr = some (true, m')) :
    ∃ pos left vma pages system, locate process.vmSpace ptr = some pos ∧
      process.vmSpace[pos]? = some left ∧ process.vmSpace[pos + 1]? = some vma ∧
      0x400000 ≤ ptr.toNat ∧ hi left ≤ ptr.toNat ∧ ptr.toNat < lo vma ∧
      walk prevPage (fun addr => addr ≤ ptr) walkLimit vma.beginAddr = some pages ∧
      allocAll m.system k true (pages.map prevPage) = some system ∧
      m' = { system, processes := m.processes.set k { process with
        vmSpace := process.vmSpace.set (pos + 1) { vma with beginAddr := thisPage ptr } } } := by
  simp only [checkStack, hprocess, Option.bind_eq_bind, Option.bind_some,
    Option.bind_eq_some_iff] at h
  obtain ⟨pos, hpos, left, hleft, h⟩ := h
  split at h
  · cases h
  rename_i huser
  simp only [not_or, BitVec.not_lt, BitVec.not_le] at huser
  simp only [Option.bind_eq_some_iff] at h
  obtain ⟨vma, hvma, h⟩ := h
  split at h
  · rename_i hgrow
    simp only [Option.bind_eq_some_iff] at h
    obtain ⟨pages, hpages, system, halloc, h⟩ := h
    obtain ⟨_, rfl⟩ := Prod.mk.inj (Option.some.inj h)
    exact ⟨pos, left, vma, pages, system, hpos, hleft, hvma, BitVec.le_def.mp huser.1,
      BitVec.le_def.mp huser.2.2, BitVec.lt_def.mp hgrow.1, hpages, halloc, rfl⟩
  · cases h

/-- All pages between the page of the target and the old begin are present. -/
theorem present_of_growth {system : Paging.System} {pages : List VirtualAddress} {vma : VMA}
    (hsafe : m.system.Safe) (htarget : 0x400000 ≤ ptr.toNat) (hbelow : ptr.toNat < lo vma)
    (htop : lo vma ≤ VMSpace.Top.toNat)
    (hpages : walk prevPage (fun addr => addr ≤ ptr) walkLimit vma.beginAddr = some pages)
    (halloc : allocAll m.system k true (pages.map prevPage) = some system) :
    Present system k (thisPage ptr).toNat vma.beginAddr.toNat := by
  obtain ⟨hwithin, hall⟩ := walk_below (by omega) hbelow hpages
  have huser : ∀ page ∈ pages.map prevPage, ∃ place, userPlace page = some place := by
    intro page hpage
    obtain ⟨haligned, hlow⟩ := hwithin page hpage
    exact userPlace_of_user ⟨haligned, BitVec.lt_def.mpr (lt_of_lt_of_le hlow htop)⟩
  obtain ⟨_, hfills⟩ := allocAll_fills hsafe
    (fun page hpage => Option.ne_none_iff_exists'.mpr (huser page hpage)) halloc
  intro page haligned hlow hhigh habsent
  have hmem := hall page haligned hlow hhigh
  obtain ⟨place, hplace⟩ := huser page hmem
  obtain ⟨frame, _, hnew⟩ := hfills.fresh page hmem place hplace
  have hflag := flag_eq (s := system) (k := k) hplace
  rw [flag, habsent, hnew] at hflag
  cases hflag

/-- After the stack has grown for a buffer, the buffer is covered exactly if the stack
area granted the protection and reached to the end of the buffer before. -/
theorem covered_iff_of_growth (hsafe : m.system.Safe)
    (hprocess : m.processes[k]? = some process)
    (hspace : RepInv VMSpace.Base VMSpace.Top process.vmSpace) {stackVma : VMA}
    (habove : areaAbove process.vmSpace ptr = some stackVma)
    (h : m.checkStack k ptr = some (true, m')) (size prot : BitVec 32) :
    Present m'.system k (thisPage ptr).toNat stackVma.beginAddr.toNat ∧
      (size ≠ 0#32 →
        (Covered m' k ptr size prot stackVma.beginAddr ↔ Reaches stackVma ptr size prot)) := by
  obtain ⟨pos, left, vma, pages, system, hpos, hleft, hvma, htarget, hend, hbelow, hpages, halloc,
    rfl⟩ := checkStack_true hprocess h
  obtain rfl : vma = stackVma := by
    simpa [areaAbove, hpos, hvma] using habove
  have hpresent := present_of_growth hsafe htarget hbelow
    (hspace.lo_le_top (List.mem_of_getElem? hvma)) hpages halloc
  have hk : k < m.processes.length := (List.getElem?_eq_some_iff.mp hprocess).1
  have hthis := thisPage_toNat ptr
  refine ⟨hpresent, fun hsize => ?_⟩
  have hpositive : 0 < size.toNat := by
    rw [Nat.pos_iff_ne_zero]
    exact fun hzero => hsize (BitVec.eq_of_toNat_eq hzero)
  constructor
  · rintro ⟨_, process', other, hprocess', hother, hprot, hcover, _⟩
    rw [List.getElem?_set_self hk, Option.some_inj] at hprocess'
    subst hprocess'
    have hfirst := hcover ptr.toNat le_rfl (by omega)
    have hlast := hcover (ptr.toNat + size.toNat - 1) (by omega) (by omega)
    have hgrown := mem_set_next hspace.ordered hpos hleft hend hother hfirst.1 hfirst.2
    subst hgrown
    have hreach : ptr.toNat + size.toNat - 1 < hi vma := hlast.2
    exact ⟨hprot, by omega⟩
  · rintro ⟨hprot, hreach⟩
    have hmax : hi vma < 2 ^ 32 := vma.endAddr.isLt
    refine ⟨by omega, _, { vma with beginAddr := thisPage ptr }, List.getElem?_set_self hk, ?_,
      hprot, fun x hx hx' => ⟨?_, lt_of_lt_of_le hx' hreach⟩, hpresent⟩
    · exact List.mem_of_getElem? (List.getElem?_set_self (List.getElem?_eq_some_iff.mp hvma).1)
    · change (thisPage ptr).toNat ≤ x
      omega

/-- A buffer that is accepted because the stack grew has all pages of the grown area
below the old stack. The whole buffer lies in one area with the protection asked for
if and only if it is empty, or the area right above its first byte granted that
protection and reached to the end of the buffer before the call. -/
theorem checkAddr_covered_iff (hsafe : m.system.Safe)
    (hprocess : m.processes[k]? = some process)
    (hspace : RepInv VMSpace.Base VMSpace.Top process.vmSpace) {stackVma : VMA}
    (habove : areaAbove process.vmSpace ptr = some stackVma)
    (hinvalid : process.vmSpace.validate ptr size prot = some false)
    (hcheck : m.checkAddr k ptr size prot = some (.ok (), m')) :
    Present m'.system k (thisPage ptr).toNat stackVma.beginAddr.toNat ∧
      ((size ≠ 0#32 → Covered m' k ptr size prot stackVma.beginAddr) ↔
        (size = 0#32 ∨ Reaches stackVma ptr size prot)) := by
  obtain ⟨hpresent, hiff⟩ := covered_iff_of_growth hsafe hprocess hspace habove
    ((checkAddr_invalid hprocess hinvalid).mp hcheck) size prot
  refine ⟨hpresent, ?_⟩
  by_cases hsize : size = 0#32
  · simp [hsize]
  · simp only [hsize, not_false_eq_true, forall_const, false_or, ne_eq]
    exact hiff hsize

/-- A process that has nothing but its stack page, for which the stack can grow by a
page. -/
theorem stackOnly_machine :
    ∃ (m m' : Machine) (process : Process), m.processes[0]? = some process ∧ m.system.Safe ∧
      process.vmSpace = VMSpace.stackOnly ∧
      RepInv VMSpace.Base VMSpace.Top process.vmSpace ∧
      m.checkStack 0 0xBFFFE000#32 = some (true, m') := by
  obtain ⟨m, hexec, process, hprocess, hspace, ⟨grown, m'⟩, hcheck, hgrown⟩ :
      ∃ m ∈ (boot 0x40 (by decide) (fun _ _ => 0#32) fun _ => 0#32).step
          (.exec (fun _ => 0#8) []),
        ∃ process ∈ m.processes[0]?, process.vmSpace = VMSpace.stackOnly ∧
          ∃ out ∈ m.checkStack 0 0xBFFFE000#32, out.1 = true := by
    decide
  have hproper : (boot 0x40 (by decide) (fun _ _ => 0#32) fun _ => 0#32).Proper
      (.exec (fun _ => 0#8) []) := by decide
  have hsound := step_sound (boot_sound 0x40 (by decide) (fun _ _ => 0#32) fun _ => 0#32)
    hproper hexec
  obtain rfl : grown = true := hgrown
  exact ⟨m, m', process, hprocess, hsound.good.safe hsound.bounded, hspace,
    (hsound.agree 0 process hprocess).repInv, hcheck⟩

theorem checkAddr_covered_iff_one_page :
    ∃ (m m' : Machine), m.checkAddr 0 0xBFFFE000#32 0x1000#32 PROT_WRITE = some (.ok (), m') ∧
      Covered m' 0 0xBFFFE000#32 0x1000#32 PROT_WRITE 0xBFFFF000#32 := by
  obtain ⟨m, m', process, hprocess, hsafe, hspace, hinv, hstack⟩ := stackOnly_machine
  have hinvalid : process.vmSpace.validate 0xBFFFE000#32 0x1000#32 PROT_WRITE = some false := by
    rw [hspace]
    decide
  have habove : areaAbove process.vmSpace 0xBFFFE000#32 = some VMSpace.stackArea := by
    rw [hspace]
    decide
  have hcheck := (checkAddr_invalid hprocess hinvalid).mpr hstack
  refine ⟨m, m', hcheck, ?_⟩
  exact (checkAddr_covered_iff hsafe hprocess hinv habove hinvalid hcheck).2.mpr
    (by decide) (by decide)

/-- A buffer of three pages is accepted, of which only two are the stack's: the third
is the first page of the kernel. -/
theorem checkAddr_accepts_past_stack :
    ∃ (m m' : Machine) (process : Process), m.processes[0]? = some process ∧
      RepInv VMSpace.Base VMSpace.Top process.vmSpace ∧
      process.vmSpace.validate 0xBFFFE000#32 0x3000#32 PROT_WRITE = some false ∧
      m.checkAddr 0 0xBFFFE000#32 0x3000#32 PROT_WRITE = some (.ok (), m') ∧
      ¬ Covered m' 0 0xBFFFE000#32 0x3000#32 PROT_WRITE 0xBFFFF000#32 := by
  obtain ⟨m, m', process, hprocess, hsafe, hspace, hinv, hstack⟩ := stackOnly_machine
  have hinvalid : process.vmSpace.validate 0xBFFFE000#32 0x3000#32 PROT_WRITE = some false := by
    rw [hspace]
    decide
  have habove : areaAbove process.vmSpace 0xBFFFE000#32 = some VMSpace.stackArea := by
    rw [hspace]
    decide
  refine ⟨m, m', process, hprocess, hinv, hinvalid,
    (checkAddr_invalid hprocess hinvalid).mpr hstack, fun hcovered => ?_⟩
  have hreaches := ((covered_iff_of_growth hsafe hprocess hinv habove hstack 0x3000#32
    PROT_WRITE).2 (by decide)).mp hcovered
  exact absurd hreaches (by decide)

end Machine

end Nyan.Task
