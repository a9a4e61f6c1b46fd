import Nyan.Task.AreaAgreement

/-!
The calls of user processes keep the areas and the page tables in agreement, with
these exceptions, which `Machine.Proper` rules out. `brk` goes wrong when the heap is
no longer the area that ends at the break, when another area is in the way, or
beyond `Top`. `checkStack` maps writable pages below an area that need not be
writable. A mapping of more than `0xFFFFF000` bytes is empty and may begin inside a
page. A request may remove the first sentinel, an image may have segments that
overlap, and a reference counter has only sixteen bits.
-/

namespace Nyan.Task

open Paging Paging.RangeManager Syscall Library Allocator

/-- The segments to load are in pages of their own, below the stack. -/
def Placed (headers : List ProgramHeader) : Prop :=
  (∀ header ∈ headers, header.Loads → VMSpace.Base ≤ header.lowerPage ∧
    header.lowerPage ≤ header.upperPage ∧ header.upperPage ≤ 0xBFFFF000#32) ∧
  headers.Pairwise fun a b => a.Loads → b.Loads →
    a.upperPage ≤ b.lowerPage ∨ b.upperPage ≤ a.lowerPage

instance (headers : List ProgramHeader) : Decidable (Placed headers) :=
  inferInstanceAs (Decidable (_ ∧ _))

/-- The page of the last byte below an address. -/
def lastPage (addr : VirtualAddress) : VirtualAddress := thisPage (addr - 1#32)

/-- The heap is area `i`. It ends at the page after the break and the next area is far
enough away, or there is no room but none is needed. -/
def HeapExtends (process : Process) (addr : VirtualAddress) (i : Nat) : Prop :=
  ∃ vma ∈ process.vmSpace[i]?, ∃ next ∈ process.vmSpace[i + 1]?,
    vma.endAddr = nextPage (lastPage process.brkAddr) ∧
        nextPage (lastPage addr) ≤ next.beginAddr ∨
      lastPage process.brkAddr = lastPage addr ∧ next.beginAddr < nextPage (lastPage addr)

/-- There is no heap yet, it begins at the page after the break, and the room for it
is free. -/
def HeapFits (process : Process) (addr : VirtualAddress) : Prop :=
  process.brkBase = nextPage (lastPage process.brkAddr) ∧
    ∀ vma ∈ process.vmSpace,
      vma.endAddr ≤ process.brkBase ∨ nextPage (lastPage addr) ≤ vma.beginAddr

/-- The break may be moved to `addr`. -/
def HeapReady (process : Process) (addr : VirtualAddress) : Prop :=
  addr = 0#32 ∨ addr ≤ process.brkAddr ∨ addr ≤ VMSpace.Top ∧
    (∀ i ∈ process.vmSpace.findName "brk", HeapExtends process addr i) ∧
    (process.vmSpace.findName "brk" = none → HeapFits process addr)

instance (process : Process) (addr : VirtualAddress) (i : Nat) :
    Decidable (HeapExtends process addr i) :=
  inferInstanceAs (Decidable (∃ vma ∈ process.vmSpace[i]?, ∃ next ∈ process.vmSpace[i + 1]?, _))

instance (process : Process) (addr : VirtualAddress) : Decidable (HeapFits process addr) :=
  inferInstanceAs (Decidable (_ ∧ _))

instance (process : Process) (addr : VirtualAddress) : Decidable (HeapReady process addr) :=
  inferInstanceAs (Decidable (_ ∨ _ ∨ _ ∧ _ ∧ _))

/-- If the stack is to grow down to an address, its area is writable. -/
def StackWritable (process : Process) (targetAddr : VirtualAddress) : Prop :=
  ∀ pos ∈ locate process.vmSpace targetAddr, ∀ next ∈ process.vmSpace[pos + 1]?,
    targetAddr < next.beginAddr → next.flags &&& MAP_GROWSDOWN ≠ 0#32 →
      process.stackRange.1 ≤ targetAddr → writes next = true

/-- A mapping that is empty after rounding starts at a page. -/
def PlacedRequest : Request → Prop
  | .munmap _ _ => True
  | .mmap addr length _ _ => PageAligned addr ∨ length ≤ 0xFFFFF000#32

instance (process : Process) (targetAddr : VirtualAddress) :
    Decidable (StackWritable process targetAddr) :=
  inferInstanceAs (Decidable (∀ pos ∈ locate process.vmSpace targetAddr,
    ∀ next ∈ process.vmSpace[pos + 1]?, _))

instance (r : Request) : Decidable (PlacedRequest r) :=
  match r with
  | .munmap _ _ => isTrue trivial
  | .mmap _ _ _ _ => inferInstanceAs (Decidable (_ ∨ _))

def Machine.Proper (m : Machine) : Call → Prop
  | .exec _ headers => m.system.live.length < PhysicalFrames.maxRef ∧ Placed headers
  | .brk k addr => ∀ process ∈ m.processes[k]?, HeapReady process addr
  | .request _ r => Harmless r ∧ PlacedRequest r
  | .checkStack k targetAddr => ∀ process ∈ m.processes[k]?, StackWritable process targetAddr
  | .fork _ => m.system.live.length < PhysicalFrames.maxRef

structure Machine.Sound (m : Machine) : Prop where
  good : m.system.Good
  few : m.system.live.length ≤ PhysicalFrames.maxRef
  count : m.processes.length = m.system.spaces.length
  agree : ∀ k process, m.processes[k]? = some process → Agree m.system k process.vmSpace

namespace Machine

variable {m m' : Machine} {k : Nat} {process : Process}

theorem Sound.bounded (h : m.Sound) : Bounded m.system.dir := Paging.System.bounded_of_live h.few

/-- The call of one process. -/
theorem Sound.update (h : m.Sound) (hprocess : m.processes[k]? = some process)
    {system : Paging.System} {process' : Process} (hgood : system.Good)
    (htouches : Touches k m.system system) (hagree : Agree system k process'.vmSpace) :
    Sound { system, processes := m.processes.set k process' } := by
  obtain ⟨hk, _⟩ := List.getElem?_eq_some_iff.mp hprocess
  refine ⟨hgood, ?_, ?_, ?_⟩
  · rw [Paging.System.live_congr htouches.spaces]
    exact h.few
  · rw [List.length_set, htouches.spaces]
    exact h.count
  · intro l other hother
    by_cases hl : l = k
    · subst hl
      rw [List.getElem?_set_self hk] at hother
      obtain rfl := Option.some.inj hother
      exact hagree
    · rw [List.getElem?_set_ne (Ne.symm hl)] at hother
      exact (h.agree l other hother).transfer fun addr haddr => htouches.kept l addr hl haddr

section Brk

theorem lastPage_toNat {addr : VirtualAddress} (h : addr ≠ 0#32) :
    (lastPage addr).toNat = (addr.toNat - 1) - (addr.toNat - 1) % 4096 := by
  have hpos : addr.toNat ≠ 0 := fun hzero => h (BitVec.eq_of_toNat_eq hzero)
  have hsub : (addr - 1#32).toNat = addr.toNat - 1 := by
    rw [BitVec.toNat_sub]
    have := addr.isLt
    have hone : (1#32).toNat = 1 := rfl
    omega
  rw [lastPage, thisPage_toNat, hsub]

theorem lastPage_aligned (addr : VirtualAddress) : PageAligned (lastPage addr) := by
  rw [pageAligned_iff, lastPage, thisPage_toNat]
  omega

/-- The pages that `brk` allocates begin where the page of the old break ends. -/
theorem heap_pages {addr brkAddr base : VirtualAddress} {pages : List VirtualAddress}
    (hbase : base = nextPage (lastPage brkAddr)) (hlow : VMSpace.Base.toNat ≤ base.toNat)
    (hmore : brkAddr < addr) (htop : addr ≤ VMSpace.Top)
    (h : pagesBetween (lastPage brkAddr) (lastPage addr) = some pages) :
    (base.toNat ≤ (nextPage (lastPage addr)).toNat ∧
        (nextPage (lastPage addr)).toNat ≤ VMSpace.Top.toNat ∧
        PageAligned (nextPage (lastPage addr))) ∧
      (pages.map nextPage).Nodup ∧ ∀ page, page ∈ pages.map nextPage ↔
        PageAligned page ∧ base.toNat ≤ page.toNat ∧
          page.toNat < (nextPage (lastPage addr)).toNat := by
  have hBase : VMSpace.Base.toNat = 0x400000 := by decide
  have hTop : VMSpace.Top.toNat = 0xC0000000 := by decide
  rw [BitVec.lt_def] at hmore
  rw [BitVec.le_def] at htop
  have hcurrent := lastPage_aligned brkAddr
  have hwant := lastPage_aligned addr
  have hcurrent' := (pageAligned_iff _).mp hcurrent
  have hwant' := (pageAligned_iff _).mp hwant
  have hnonzero : addr ≠ 0#32 := by
    rintro rfl
    simp at hmore
  have hwantValue := lastPage_toNat hnonzero
  have hnextCurrent : base.toNat = (lastPage brkAddr).toNat + 4096 := by
    have hvalue := congrArg BitVec.toNat hbase
    rw [nextPage_toNat] at hvalue
    have := (lastPage brkAddr).isLt
    omega
  have hbreak : brkAddr ≠ 0#32 := by
    rintro rfl
    have hzero : (lastPage 0#32).toNat = 0xFFFFF000 := by decide
    have := base.isLt
    omega
  have hcurrentValue := lastPage_toNat hbreak
  have hnextWant : (nextPage (lastPage addr)).toNat = (lastPage addr).toNat + 4096 := by
    rw [nextPage_toNat]
    omega
  have hle : (lastPage brkAddr).toNat ≤ (lastPage addr).toNat := by omega
  obtain ⟨hnodup, hmem⟩ := pagesBetween_after hcurrent hwant hle h
  refine ⟨⟨by omega, by omega, (pageAligned_iff _).mpr (by omega)⟩, hnodup, fun page => ?_⟩
  rw [hmem]
  constructor
  · rintro ⟨haligned, hlow, hhigh⟩
    have := (pageAligned_iff page).mp haligned
    exact ⟨haligned, by omega, by omega⟩
  · rintro ⟨haligned, hlow, hhigh⟩
    have := (pageAligned_iff page).mp haligned
    exact ⟨haligned, by omega, by omega⟩

/-- The pages of the heap that grows are allocated. -/
theorem Sound.allocHeap (h : m.Sound) (hprocess : m.processes[k]? = some process)
    {addr base : VirtualAddress} {pages : List VirtualAddress} {system : Paging.System}
    (hbase : base = nextPage (lastPage process.brkAddr))
    (hlow : VMSpace.Base.toNat ≤ base.toNat) (hmore : process.brkAddr < addr)
    (htop : addr ≤ VMSpace.Top)
    (hfree : ∀ e ∈ process.vmSpace,
      hi e ≤ base.toNat ∨ (nextPage (lastPage addr)).toNat ≤ lo e)
    (hpages : pagesBetween (lastPage process.brkAddr) (lastPage addr) = some pages)
    (halloc : allocAll m.system k true (pages.map nextPage) = some system) :
    system.Good ∧ Assigns k (fun page => base.toNat ≤ page.toNat ∧
      page.toNat < (nextPage (lastPage addr)).toNat) (some true) m.system system := by
  obtain ⟨⟨_, hend, _⟩, hnodup, hmem⟩ := heap_pages hbase hlow hmore htop hpages
  have huser : ∀ page ∈ pages.map nextPage, UserPageAddr page := by
    intro page hpage
    obtain ⟨haligned, _, hhigh⟩ := (hmem page).mp hpage
    exact ⟨haligned, BitVec.lt_def.mpr (by omega)⟩
  obtain ⟨hgood, hassigns⟩ := allocAll_assigns h.good h.bounded huser hnodup
    (fun page hpage => by
      obtain ⟨_, hpageLow, hpageHigh⟩ := (hmem page).mp hpage
      refine (h.agree k process hprocess).absent (huser page hpage) (by omega) fun e he => ?_
      rcases hfree e he with hle | hle <;> omega) halloc
  exact ⟨hgood, hassigns.congr fun page hpage => by simp [hmem, hpage.1]⟩

theorem sentinel_mem {space : VMSpace} (h : RepInv VMSpace.Base VMSpace.Top space) :
    RangeEntry.make 0#32 VMSpace.Base ∈ space := by
  obtain ⟨interior, rfl⟩ := h.sentinels
  simp

/-- An area after the first sentinel. -/
theorem base_le_of_after {before after : VMSpace} {vma : VMA}
    (h : RepInv VMSpace.Base VMSpace.Top (before ++ vma :: after)) (hbefore : before ≠ []) :
    VMSpace.Base.toNat ≤ lo vma := by
  obtain ⟨interior, hshape⟩ := h.sentinels
  obtain ⟨first, rest, rfl⟩ := List.exists_cons_of_ne_nil hbefore
  obtain rfl : first = RangeEntry.make 0#32 VMSpace.Base := by
    simpa using congrArg List.head? hshape
  obtain ⟨_, _, hcross⟩ := Interval.ordered_append.mp h.ordered
  simpa [hi] using hcross _ List.mem_cons_self vma List.mem_cons_self

theorem writes_brkArea (lower upper : VirtualAddress) : writes (brkArea lower upper) = true := by
  simp [writes, brkArea, PROT_READ, PROT_WRITE]

section Grow

variable {addr : VirtualAddress} {pages : List VirtualAddress} {system : Paging.System}

/-- The first `brk` inserts the area of the heap. -/
theorem Sound.insertHeap (h : m.Sound) (hprocess : m.processes[k]? = some process)
    (hmore : process.brkAddr < addr) (htop : addr ≤ VMSpace.Top) (hfits : HeapFits process addr)
    (hpages : pagesBetween (lastPage process.brkAddr) (lastPage addr) = some pages)
    (halloc : allocAll m.system k true (pages.map nextPage) = some system)
    {ok : Bool} {vmSpace : VMSpace}
    (hinsert : insert process.vmSpace (brkArea process.brkBase (nextPage (lastPage addr))) =
      some (ok, vmSpace)) :
    Sound { system, processes := m.processes.set k { process with vmSpace, brkAddr := addr } } := by
  obtain ⟨hbase, hfree⟩ := hfits
  have hagree := h.agree k process hprocess
  have hfree' : ∀ e ∈ process.vmSpace,
      hi e ≤ process.brkBase.toNat ∨ (nextPage (lastPage addr)).toNat ≤ lo e := by
    intro e he
    exact (hfree e he).imp BitVec.le_def.mp BitVec.le_def.mp
  have hlow : VMSpace.Base.toNat ≤ process.brkBase.toNat := by
    rcases hfree' _ (sentinel_mem hagree.repInv) with hle | hle
    · simpa [hi] using hle
    · have hnonzero : addr ≠ 0#32 := by
        rintro rfl
        simp [BitVec.lt_def] at hmore
      have hwant := lastPage_toNat hnonzero
      have hTop : VMSpace.Top.toNat = 0xC0000000 := by decide
      rw [BitVec.le_def] at htop
      simp only [nextPage_toNat, lo, RangeEntry.beginAddr_make, BitVec.toNat_ofNat] at hle
      omega
  obtain ⟨⟨hle, _, halignEnd⟩, _⟩ := heap_pages hbase hlow hmore htop hpages
  obtain ⟨hgood, hassigns⟩ :=
    h.allocHeap hprocess hbase hlow hmore htop hfree' hpages halloc
  have halignBase : PageAligned process.brkBase := by
    rw [hbase, pageAligned_iff, nextPage_toNat]
    omega
  have haligned : PageAligned (brkArea process.brkBase (nextPage (lastPage addr))).beginAddr ∧
      PageAligned (brkArea process.brkBase (nextPage (lastPage addr))).endAddr :=
    ⟨halignBase, halignEnd⟩
  have hwrites := writes_brkArea process.brkBase (nextPage (lastPage addr))
  refine h.update hprocess hgood hassigns.touches
    (hagree.add haligned hle (fun _ => hwrites) hfree' ?_ hinsert)
  rw [hwrites]
  exact hassigns

/-- A later `brk` moves the end of the heap. -/
theorem Sound.extendHeap (h : m.Sound) (hprocess : m.processes[k]? = some process)
    (hmore : process.brkAddr < addr) (htop : addr ≤ VMSpace.Top) {i : Nat} {vma next : VMA}
    (hname : process.vmSpace.findName "brk" = some i) (hvma : process.vmSpace[i]? = some vma)
    (hnext : process.vmSpace[i + 1]? = some next)
    (hend : vma.endAddr = nextPage (lastPage process.brkAddr))
    (hroom : nextPage (lastPage addr) ≤ next.beginAddr)
    (hpages : pagesBetween (lastPage process.brkAddr) (lastPage addr) = some pages)
    (halloc : allocAll m.system k true (pages.map nextPage) = some system) :
    Sound { system, processes := m.processes.set k { process with
      vmSpace := process.vmSpace.set i { vma with endAddr := nextPage (lastPage addr) }
      brkAddr := addr } } := by
  have hagree := h.agree k process hprocess
  have hbrk : vma.name = "brk" := by
    obtain ⟨hi, hfound, _⟩ := List.findIdx?_eq_some_iff_getElem.mp hname
    rw [List.getElem?_eq_getElem hi] at hvma
    obtain rfl := Option.some.inj hvma
    simpa using hfound
  obtain ⟨before, rest, hsplit, hlength⟩ := Interval.split_at hvma
  obtain ⟨after, rfl⟩ : ∃ after, rest = next :: after := by
    rw [hsplit, List.getElem?_append_right (by omega), hlength] at hnext
    cases rest with
    | nil => simp at hnext
    | cons x after => exact ⟨after, by simpa using hnext⟩
  rw [hsplit] at hagree
  have hbefore : before ≠ [] := by
    rintro rfl
    obtain ⟨interior, hshape⟩ := hagree.repInv.sentinels
    obtain rfl : vma = RangeEntry.make 0#32 VMSpace.Base := by
      simpa using congrArg List.head? hshape
    simp [RangeEntry.make] at hbrk
  have hordered := hagree.repInv.ordered
  obtain ⟨_, hordered', hcross⟩ := Interval.ordered_append.mp hordered
  obtain ⟨hproper, hordered', _⟩ := Interval.ordered_cons.mp hordered'
  obtain ⟨hproperNext, _, hcrossNext⟩ := Interval.ordered_cons.mp hordered'
  have hbase : VMSpace.Base.toNat ≤ lo vma := base_le_of_after hagree.repInv hbefore
  have hroom' : (nextPage (lastPage addr)).toNat ≤ lo next := BitVec.le_def.mp hroom
  have hleft : ∀ e ∈ before, hi e ≤ lo vma := fun e he => hcross e he vma (by simp)
  have hright : ∀ e ∈ next :: after, (nextPage (lastPage addr)).toNat ≤ lo e := by
    intro e he
    rcases List.mem_cons.mp he with rfl | he
    · exact hroom'
    · have := hcrossNext e he
      omega
  have hlow : VMSpace.Base.toNat ≤ vma.endAddr.toNat := hbase.trans hproper
  obtain ⟨⟨hle, _, halignEnd⟩, _⟩ := heap_pages hend hlow hmore htop hpages
  have hfree : ∀ e ∈ process.vmSpace,
      hi e ≤ vma.endAddr.toNat ∨ (nextPage (lastPage addr)).toNat ≤ lo e := by
    intro e he
    rw [hsplit, List.mem_append, List.mem_cons] at he
    rcases he with he | rfl | he
    · exact Or.inl ((hleft e he).trans hproper)
    · exact Or.inl le_rfl
    · exact Or.inr (hright e he)
  obtain ⟨hgood, hassigns⟩ :=
    h.allocHeap hprocess hend hlow hmore htop hfree hpages halloc
  refine h.update hprocess hgood hassigns.touches ?_
  have hset : process.vmSpace.set i { vma with endAddr := nextPage (lastPage addr) } =
      before ++ { vma with endAddr := nextPage (lastPage addr) } :: next :: after := by
    rw [hsplit, ← hlength, List.set_append_right _ _ le_rfl]
    simp
  rw [hset]
  have hwrites : writes vma = true := hagree.heap vma (by simp) hbrk
  obtain ⟨vma', hnew⟩ : ∃ vma' : VMA, vma' = { vma with endAddr := nextPage (lastPage addr) } :=
    ⟨_, rfl⟩
  have hattr : writes vma' = writes vma := by simp only [writes, hnew]
  have hlo : lo vma' = lo vma := by simp only [lo, RangeEntry.beginAddr, hnew]
  have hhi : hi vma' = (nextPage (lastPage addr)).toNat := by
    simp only [hi, RangeEntry.endAddr, hnew]
  have haligned : PageAligned vma'.beginAddr ∧ PageAligned vma'.endAddr := by
    rw [hnew]
    exact ⟨(hagree.aligned vma (by simp)).1, halignEnd⟩
  rw [← hnew]
  refine hagree.widen hbefore (by simp) hattr (by rw [hnew]) haligned hlo.le
    (by rw [hhi]; exact hle) (by rwa [hlo]) (by rwa [hhi]) ?_
  rw [hwrites, hlo, hhi]
  refine hassigns.congr fun page _ => ?_
  have hproper' : lo vma ≤ vma.endAddr.toNat := hproper
  have hend' : hi vma = vma.endAddr.toNat := rfl
  omega

end Grow

theorem brk_sound (h : m.Sound) {addr : VirtualAddress} {result : Except Errno VirtualAddress}
    (hproper : m.Proper (.brk k addr)) (heq : m.brk k addr = some (result, m')) : m'.Sound := by
  simp only [brk, Option.bind_eq_bind, Option.bind_eq_some_iff] at heq
  obtain ⟨process, hprocess, heq⟩ := heq
  split at heq
  · obtain ⟨_, rfl⟩ := Prod.ext_iff.mp (Option.some.inj heq)
    exact h
  rename_i hearly
  rw [not_or, BitVec.not_le] at hearly
  obtain ⟨htop, hextends, hfits⟩ := ((hproper process hprocess).resolve_left hearly.1).resolve_left
    (BitVec.not_le.mpr hearly.2)
  have hagree := h.agree k process hprocess
  simp only [← show ∀ a, lastPage a = thisPage (a - 1#32) from fun _ => rfl,
    Option.bind_eq_some_iff] at heq
  obtain ⟨pages, hpages, system, halloc, heq⟩ := heq
  cases hname : process.vmSpace.findName "brk" with
  | none =>
      simp only [hname, Option.bind_eq_some_iff, Option.pure_def, Prod.exists] at heq
      obtain ⟨ok, vmSpace, hinsert, heq⟩ := heq
      obtain ⟨_, rfl⟩ := Prod.ext_iff.mp (Option.some.inj heq)
      exact h.insertHeap hprocess hearly.2 htop (hfits hname) hpages halloc hinsert
  | some i =>
      simp only [hname, Option.bind_eq_some_iff] at heq
      obtain ⟨vma, hvma, heq⟩ := heq
      obtain ⟨vma', hvma', next, hnext, hcase⟩ := hextends i hname
      obtain rfl := Option.some.inj (hvma.symm.trans hvma')
      rw [Option.mem_def] at hnext
      simp only [hnext, Option.any_some, decide_eq_true_eq] at heq
      rcases hcase with ⟨hend, hroom⟩ | ⟨hsame, hroom⟩
      · rw [if_neg (BitVec.not_lt.mpr hroom)] at heq
        obtain ⟨_, rfl⟩ := Prod.ext_iff.mp (Option.some.inj heq)
        exact h.extendHeap hprocess hearly.2 htop hname hvma hnext hend hroom hpages halloc
      · rw [if_pos hroom] at heq
        obtain ⟨_, rfl⟩ := Prod.ext_iff.mp (Option.some.inj heq)
        rw [hsame, pagesBetween_self] at hpages
        obtain rfl := Option.some.inj hpages
        obtain rfl : m.system = system := by simpa [allocAll] using halloc
        exact h

end Brk

section Stack

variable {targetAddr : VirtualAddress}

/-- The stack takes in the pages down to an address. -/
theorem Sound.growStack (h : m.Sound) (hprocess : m.processes[k]? = some process) {pos : Nat}
    {left vma : VMA} (hleft : process.vmSpace[pos]? = some left)
    (hvma : process.vmSpace[pos + 1]? = some vma) (hbase : 0x00400000#32 ≤ targetAddr)
    (hend : left.endAddr ≤ targetAddr) (hbelow : targetAddr < vma.beginAddr)
    (hgrows : vma.flags &&& MAP_GROWSDOWN ≠ 0#32) (hwrites : writes vma = true)
    {pages : List VirtualAddress} {system : Paging.System}
    (hpages : walk prevPage (fun addr => addr ≤ targetAddr) walkLimit vma.beginAddr = some pages)
    (halloc : allocAll m.system k true (pages.map prevPage) = some system) :
    Sound { system, processes := m.processes.set k { process with
      vmSpace := process.vmSpace.set (pos + 1)
        { vma with beginAddr := thisPage targetAddr } } } := by
  have hagree := h.agree k process hprocess
  have hBase : VMSpace.Base.toNat = 0x400000 := by decide
  have htarget := thisPage_toNat targetAddr
  have hthis : PageAligned (thisPage targetAddr) := by
    rw [pageAligned_iff]
    omega
  rw [BitVec.lt_def] at hbelow
  have hbase' : 0x400000 ≤ targetAddr.toNat := BitVec.le_def.mp hbase
  have halignVma := hagree.aligned vma (List.mem_of_getElem? hvma)
  have halignLeft := (pageAligned_iff _).mp
    (hagree.aligned left (List.mem_of_getElem? hleft)).2
  have hleftEnd : hi left ≤ (thisPage targetAddr).toNat := by
    have hle : left.endAddr.toNat ≤ targetAddr.toNat := BitVec.le_def.mp hend
    change left.endAddr.toNat ≤ _
    omega
  obtain ⟨before, after, hsplit, hlength⟩ := Interval.split_at hvma
  have hlast : before.getLast? = some left := by
    rw [hsplit, List.getElem?_append_left (by omega)] at hleft
    rw [List.getLast?_eq_getElem?, hlength]
    exact hleft
  obtain ⟨front, rfl⟩ := List.getLast?_eq_some_iff.mp hlast
  rw [hsplit] at hagree
  have hafter : after ≠ [] := by
    rintro rfl
    have hlast := hagree.repInv.getLast?
    obtain rfl : vma = RangeEntry.make VMSpace.Top 0xFFFFF000#32 := by simpa using hlast
    exact hgrows (by decide)
  obtain ⟨hfront, hordered, _⟩ := Interval.ordered_append.mp hagree.repInv.ordered
  obtain ⟨_, hlastOrdered, hcross⟩ := Interval.ordered_append.mp hfront
  have hproperLeft := hlastOrdered.proper left (by simp)
  obtain ⟨hproper, _, hright⟩ := Interval.ordered_cons.mp hordered
  have hlow : ∀ e ∈ front ++ [left], hi e ≤ (thisPage targetAddr).toNat := by
    intro e he
    rcases List.mem_append.mp he with he | he
    · have := hcross e he left (by simp)
      omega
    · rw [List.mem_singleton.mp he]
      exact hleftEnd
  have htop : lo vma ≤ VMSpace.Top.toNat := hagree.repInv.lo_le_top (by simp)
  have hloVma : lo vma = vma.beginAddr.toNat := rfl
  obtain ⟨hnodup, hmem⟩ := walk_down halignVma.1 (by omega) hpages
  have huser : ∀ page ∈ pages.map prevPage, UserPageAddr page := by
    intro page hpage
    obtain ⟨haligned, _, hhigh⟩ := (hmem page).mp hpage
    exact ⟨haligned, BitVec.lt_def.mpr (by omega)⟩
  obtain ⟨hgood, hassigns⟩ := allocAll_assigns h.good h.bounded huser hnodup
    (fun page hpage => by
      obtain ⟨_, hpageLow, hpageHigh⟩ := (hmem page).mp hpage
      refine hagree.absent (huser page hpage) (by omega) fun e he => ?_
      rcases List.mem_append.mp he with he | he
      · have := hlow e he
        omega
      · rcases List.mem_cons.mp he with rfl | he
        · omega
        · have := hright e he
          omega) halloc
  refine h.update hprocess hgood hassigns.touches ?_
  obtain ⟨vma', hnew⟩ : ∃ vma' : VMA, vma' = { vma with beginAddr := thisPage targetAddr } :=
    ⟨_, rfl⟩
  have hset : process.vmSpace.set (pos + 1) vma' = (front ++ [left]) ++ vma' :: after := by
    rw [hsplit, ← hlength, List.set_append_right _ _ le_rfl]
    simp
  have hlo : lo vma' = (thisPage targetAddr).toNat := by
    simp only [lo, RangeEntry.beginAddr, hnew]
  have hhi : hi vma' = hi vma := by simp only [hi, RangeEntry.endAddr, hnew]
  have haligned : PageAligned vma'.beginAddr ∧ PageAligned vma'.endAddr := by
    rw [hnew]
    exact ⟨hthis, halignVma.2⟩
  simp only [← hnew, hset]
  refine hagree.widen (by simp) hafter (by simp only [writes, hnew]) (by rw [hnew]) haligned
    (by omega) hhi.ge (by rwa [hlo]) (by rwa [hhi]) ?_
  rw [hwrites, hlo, hhi]
  refine hassigns.congr fun page hpage => ?_
  rw [hmem]
  constructor
  · rintro ⟨⟨hpageLow, hpageHigh⟩, hout⟩
    exact ⟨hpage.1, hpageLow, by omega⟩
  · rintro ⟨_, hpageLow, hpageHigh⟩
    exact ⟨⟨hpageLow, by omega⟩, by omega⟩

theorem checkStack_sound (h : m.Sound) {grown : Bool}
    (hproper : m.Proper (.checkStack k targetAddr))
    (heq : m.checkStack k targetAddr = some (grown, m')) : m'.Sound := by
  simp only [checkStack, Option.bind_eq_bind, Option.bind_eq_some_iff] at heq
  obtain ⟨process, hprocess, pos, hpos, left, hleft, heq⟩ := heq
  split at heq
  · obtain ⟨_, rfl⟩ := Prod.ext_iff.mp (Option.some.inj heq)
    exact h
  rename_i huser
  simp only [not_or, BitVec.not_lt, BitVec.not_le] at huser
  simp only [Option.bind_eq_some_iff] at heq
  obtain ⟨vma, hvma, heq⟩ := heq
  split at heq
  · rename_i hgrow
    simp only [Option.bind_eq_some_iff] at heq
    obtain ⟨pages, hpages, system, halloc, heq⟩ := heq
    obtain ⟨_, rfl⟩ := Prod.ext_iff.mp (Option.some.inj heq)
    have hwrites := hproper process hprocess pos hpos vma hvma hgrow.1 hgrow.2.1 hgrow.2.2
    exact h.growStack hprocess hleft hvma huser.1 huser.2.2 hgrow.1 hgrow.2.1 hwrites hpages halloc
  · obtain ⟨_, rfl⟩ := Prod.ext_iff.mp (Option.some.inj heq)
    exact h

end Stack

section Requests

variable {r : Request} {out : MapOutcome} {s s' : Paging.System} {space : VMSpace} {vma : VMA}

/-- A new area whose pages can be enumerated begins and ends at a page. -/
theorem fresh_aligned (haligned : ∀ e ∈ space, PageAligned e.beginAddr ∧ PageAligned e.endAddr)
    (hplaced : PlacedRequest r) (hout : r.perform space = some out)
    (hfresh : out.fresh = some vma) {pages : List VirtualAddress}
    (hpages : pagesBetween vma.beginAddr vma.endAddr = some pages) :
    PageAligned vma.beginAddr ∧ PageAligned vma.endAddr := by
  obtain ⟨addr, length, prot, flags, place, rfl, hlength, rfl, hplace⟩ :=
    perform_place hout hfresh
  have hsize := alignUp_aligned length
  suffices hbegin : PageAligned place from ⟨hbegin, PageAligned.add hbegin hsize⟩
  rcases hplace with ⟨rfl, haddr⟩ | ⟨_, hfind⟩
  · exact haddr
  rcases findFree_place hfind with rfl | rfl | ⟨e, he, rfl⟩
  · decide
  · rcases hplaced with haddr | hshort
    · exact haddr
    · -- a mapping that is not empty ends inside a page if it begins inside one
      by_contra hbegin
      have hnonzero : (alignUp length).toNat ≠ 0 := by
        rw [BitVec.le_def] at hshort
        have hbound : (0xFFFFF000#32).toNat = 0xFFFFF000 := rfl
        have hpos : length.toNat ≠ 0 := fun hzero => hlength (BitVec.eq_of_toNat_eq hzero)
        rw [alignUp_toNat length (by omega)]
        omega
      have hend : ¬ PageAligned (place + alignUp length) := by
        rw [pageAligned_iff] at hbegin ⊢
        rw [BitVec.toNat_add]
        omega
      have hsame : place = place + alignUp length := eq_of_walk hend hpages
      have hvalue := congrArg BitVec.toNat hsame
      rw [BitVec.toNat_add] at hvalue
      have := place.isLt
      have := (alignUp length).isLt
      omega
  · exact (haligned e he).2

/-- What follows the erasure of a request. -/
theorem extend_agree {fixed : Option VirtualAddress}
    {released : List (VirtualAddress × VirtualAddress)} (hgood : s.Good) (hbound : Bounded s.dir)
    (hagree : Agree s k space) (hextends : Extends fixed space released out)
    (haligned : ∀ vma pages, out.fresh = some vma →
      pagesBetween vma.beginAddr vma.endAddr = some pages →
      PageAligned vma.beginAddr ∧ PageAligned vma.endAddr)
    (hfill : fillFresh s k out.fresh = some s') :
    s'.Good ∧ Agree s' k out.space ∧ Touches k s s' := by
  rcases hextends with ⟨hspace, _, hfresh⟩ | ⟨hint, place, length, prot, flags, hplace, _, hmap⟩
  · rw [hfresh] at hfill
    obtain rfl := Option.some.inj hfill
    rw [hspace]
    exact ⟨hgood, hagree, Touches.refl k s⟩
  · obtain ⟨ok, hinsert, _, hfresh⟩ := insertMapping_spec hmap
    cases ok with
    | false =>
        rw [hfresh] at hfill
        obtain rfl : s = s' := Option.some.inj hfill
        rcases insert_spec hinsert with ⟨_, hspace⟩ | ⟨hok, _⟩
        · rw [hspace]
          exact ⟨hgood, hagree, Touches.refl k s⟩
        · cases hok
    | true =>
        rw [if_pos rfl] at hfresh
        simp only [hfresh, fillFresh, vmaAlloc, Option.bind_eq_bind, Option.bind_eq_some_iff] at hfill
        obtain ⟨pages, hpages, halloc⟩ := hfill
        obtain ⟨hbase, _⟩ := findFree_spec hplace
        have htop := hagree.repInv.findFree_le_top hplace
        have hend := findFree_end_toNat hplace
        have hapart := insert_apart hagree.repInv.ordered hinsert
        have hproper : lo (mmapArea place (alignUp length) prot flags) ≤
            hi (mmapArea place (alignUp length) prot flags) := mmapArea_proper hplace
        have halign := haligned _ pages hfresh hpages
        obtain ⟨hgood', hassigns⟩ := hagree.fill hgood hbound halign hproper hbase
          (hend.trans_le htop) hapart (fun _ _ _ hgood haddr habsent => alloc_assigns hgood haddr
            habsent) hpages halloc
        exact ⟨hgood', hagree.add halign hproper (by simp [mmapArea]) hapart hassigns
          hinsert, hassigns.touches⟩

theorem mapRequest_sound (h : m.Sound) {result : Except Errno VirtualAddress}
    (hproper : m.Proper (.request k r)) (heq : m.mapRequest k r = some (result, m')) :
    m'.Sound := by
  simp only [mapRequest, Option.bind_eq_bind, Option.bind_eq_some_iff] at heq
  obtain ⟨process, hprocess, out, hout, s₁, hfree, s₂, hfill, heq⟩ := heq
  obtain ⟨_, rfl⟩ := Prod.ext_iff.mp (Option.some.inj heq)
  have hagree := h.agree k process hprocess
  have haligned : ∀ vma pages, out.fresh = some vma →
      pagesBetween vma.beginAddr vma.endAddr = some pages →
      PageAligned vma.beginAddr ∧ PageAligned vma.endAddr :=
    fun vma pages hfresh hpages => fresh_aligned hagree.aligned hproper.2 hout hfresh hpages
  rcases perform_spec hout with ⟨_, hextends⟩ | ⟨addr, size, erased, herases, herase, hextends⟩
  · have hreleased := hextends.released
    rw [hreleased] at hfree
    obtain rfl : m.system = s₁ := by simpa using hfree
    obtain ⟨hgood, hagree', htouches⟩ :=
      extend_agree h.good h.bounded hagree hextends haligned hfill
    exact h.update hprocess hgood htouches hagree'
  · have hreleased := hextends.released
    rw [hreleased] at hfree
    obtain ⟨hround, hsize⟩ := erases_aligned herases
    obtain ⟨hgood₁, hagree₁, htouches₁⟩ := hagree.erase h.good h.bounded hround hsize
      (hproper.1 addr size herases) herase hfree
    have hbound₁ : Bounded s₁.dir := by
      rw [Paging.System.dir_congr htouches₁.spaces]
      exact h.bounded
    obtain ⟨hgood, hagree', htouches⟩ :=
      extend_agree hgood₁ hbound₁ hagree₁ hextends haligned hfill
    exact h.update hprocess hgood (htouches₁.trans htouches) hagree'

end Requests

end Machine

end Nyan.Task
