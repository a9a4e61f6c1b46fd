import Nyan.Task.PageView

/-!
The areas of a process compared with its page tables. `Agree` says that a page is
present exactly if it lies in an area, and writable exactly if the area is. It is
kept when an area is inserted or widened together with its pages, and when a range
is erased together with them.
-/

namespace Nyan.Task

open Paging Paging.RangeManager Syscall Library Allocator

/-- Some area covers the point and says `w` about writing. -/
def Grants (space : VMSpace) (x : Nat) (w : Bool) : Prop :=
  ∃ vma ∈ space, (lo vma ≤ x ∧ x < hi vma) ∧ writes vma = w

structure Agree (s : Paging.System) (k : Nat) (space : VMSpace) : Prop where
  repInv : RepInv VMSpace.Base VMSpace.Top space
  aligned : ∀ vma ∈ space, PageAligned vma.beginAddr ∧ PageAligned vma.endAddr
  heap : ∀ vma ∈ space, vma.name = "brk" → writes vma = true
  pages : ∀ addr, UserPageAddr addr → VMSpace.Base.toNat ≤ addr.toNat → ∀ w,
    flag s k addr = some w ↔ Grants space addr.toNat w

namespace Agree

variable {s s' : Paging.System} {k : Nat} {space space' : VMSpace} {vma : VMA}

theorem transfer (h : Agree s k space) {l : Nat}
    (hflag : ∀ addr, UserPageAddr addr → flag s' l addr = flag s k addr) : Agree s' l space :=
  ⟨h.repInv, h.aligned, h.heap, fun addr haddr hlow w => by
    rw [hflag addr haddr]
    exact h.pages addr haddr hlow w⟩

theorem absent (h : Agree s k space) {addr : VirtualAddress} (haddr : UserPageAddr addr)
    (hlow : VMSpace.Base.toNat ≤ addr.toNat)
    (hout : ∀ e ∈ space, ¬ (lo e ≤ addr.toNat ∧ addr.toNat < hi e)) : flag s k addr = none := by
  cases hflag : flag s k addr with
  | none => rfl
  | some w =>
      obtain ⟨e, he, hin, _⟩ := (h.pages addr haddr hlow w).mp hflag
      exact absurd hin (hout e he)

/-- An area is inserted and its pages are mapped. An area that is not inserted must
be empty. -/
theorem add (h : Agree s k space) {ok : Bool}
    (haligned : PageAligned vma.beginAddr ∧ PageAligned vma.endAddr) (hproper : lo vma ≤ hi vma)
    (hheap : vma.name = "brk" → writes vma = true)
    (hapart : ∀ e ∈ space, hi e ≤ lo vma ∨ hi vma ≤ lo e)
    (hassigns : Assigns k (fun addr => lo vma ≤ addr.toNat ∧ addr.toNat < hi vma)
      (some (writes vma)) s s')
    (hinsert : insert space vma = some (ok, space')) : Agree s' k space' := by
  have hmem := mem_of_insert hinsert
  refine ⟨insert_repInv h.repInv hproper hinsert, ?_, ?_, ?_⟩
  · intro e he
    rcases (hmem e).mp he with he | ⟨_, rfl⟩
    · exact h.aligned e he
    · exact haligned
  · intro e he
    rcases (hmem e).mp he with he | ⟨_, rfl⟩
    · exact h.heap e he
    · exact hheap
  · intro addr haddr hlow w
    by_cases hin : lo vma ≤ addr.toNat ∧ addr.toNat < hi vma
    · have hok : ok = true := insert_ok h.repInv.ordered (by omega) hapart hinsert
      rw [hassigns.assigned addr haddr hin]
      constructor
      · intro heq
        exact ⟨vma, (hmem vma).mpr (Or.inr ⟨hok, rfl⟩), hin, Option.some.inj heq⟩
      · rintro ⟨e, he, hin', rfl⟩
        rcases (hmem e).mp he with he | ⟨_, rfl⟩
        · rcases hapart e he with hle | hle <;> omega
        · rfl
    · rw [hassigns.kept k addr haddr fun _ => hin, h.pages addr haddr hlow w]
      constructor
      · rintro ⟨e, he, hrest⟩
        exact ⟨e, (hmem e).mpr (Or.inl he), hrest⟩
      · rintro ⟨e, he, hin', hrest⟩
        rcases (hmem e).mp he with he | ⟨_, rfl⟩
        · exact ⟨e, he, hin', hrest⟩
        · exact absurd hin' hin

/-- An area between others takes in free addresses on either side, and the pages
there are mapped as its own are. -/
theorem widen {before after : VMSpace} {vma' : VMA}
    (h : Agree s k (before ++ vma :: after)) (hbefore : before ≠ []) (hafter : after ≠ [])
    (hattr : writes vma' = writes vma) (hname : vma'.name = vma.name)
    (haligned : PageAligned vma'.beginAddr ∧ PageAligned vma'.endAddr)
    (hlo : lo vma' ≤ lo vma) (hhi : hi vma ≤ hi vma')
    (hleft : ∀ e ∈ before, hi e ≤ lo vma') (hright : ∀ e ∈ after, hi vma' ≤ lo e)
    (hassigns : Assigns k (fun addr => (lo vma' ≤ addr.toNat ∧ addr.toNat < hi vma') ∧
      ¬ (lo vma ≤ addr.toNat ∧ addr.toNat < hi vma)) (some (writes vma)) s s') :
    Agree s' k (before ++ vma' :: after) := by
  have hproper := h.repInv.ordered.proper vma (by simp)
  have hordered : Interval.Ordered lo hi (before ++ [vma'] ++ after) := by
    obtain ⟨hl, hr, hcross⟩ := Interval.ordered_append.mp h.repInv.ordered
    obtain ⟨_, hr, _⟩ := Interval.ordered_cons.mp hr
    have hrest : Interval.Ordered lo hi (before ++ after) :=
      Interval.ordered_append.mpr ⟨hl, hr, fun a ha b hb => hcross a ha b (by simp [hb])⟩
    simpa using hrest.insert (by omega) hleft hright
  have hrepInv : RepInv VMSpace.Base VMSpace.Top (before ++ [vma] ++ after) := by
    simpa using h.repInv
  have hmem : ∀ {e : VMA} {x : VMA}, e ∈ before ++ x :: after ↔ e = x ∨ e ∈ before ++ after := by
    intro e x
    simp only [List.mem_append, List.mem_cons]
    tauto
  refine ⟨by simpa using hrepInv.replace hbefore hafter hordered, ?_, ?_, ?_⟩
  · intro e he
    rcases hmem.mp he with rfl | he
    · exact haligned
    · exact h.aligned e (hmem.mpr (Or.inr he))
  · intro e he
    rcases hmem.mp he with rfl | he
    · rw [hname, hattr]
      exact h.heap vma (by simp)
    · exact h.heap e (hmem.mpr (Or.inr he))
  · intro addr haddr hlow w
    by_cases hin : (lo vma' ≤ addr.toNat ∧ addr.toNat < hi vma') ∧
        ¬ (lo vma ≤ addr.toNat ∧ addr.toNat < hi vma)
    · rw [hassigns.assigned addr haddr hin]
      constructor
      · intro heq
        exact ⟨vma', hmem.mpr (Or.inl rfl), hin.1, hattr.trans (Option.some.inj heq)⟩
      · rintro ⟨e, he, hin', rfl⟩
        rcases hmem.mp he with rfl | he
        · rw [hattr]
        · rcases List.mem_append.mp he with he | he
          · have hle := hleft e he
            omega
          · have hle := hright e he
            omega
    · rw [hassigns.kept k addr haddr fun _ => hin, h.pages addr haddr hlow w]
      constructor
      · rintro ⟨e, he, hin', hw⟩
        rcases hmem.mp he with rfl | he
        · exact ⟨vma', hmem.mpr (Or.inl rfl), by omega, hattr.trans hw⟩
        · exact ⟨e, hmem.mpr (Or.inr he), hin', hw⟩
      · rintro ⟨e, he, hin', hw⟩
        rcases hmem.mp he with rfl | he
        · exact ⟨vma, hmem.mpr (Or.inl rfl), by omega, hattr.symm.trans hw⟩
        · exact ⟨e, hmem.mpr (Or.inr he), hin', hw⟩

end Agree

section Loops

variable {s s' : Paging.System} {k : Nat}

theorem allocAll_assigns {writable : Bool} {pages : List VirtualAddress} (hgood : s.Good)
    (hbound : Bounded s.dir) (huser : ∀ addr ∈ pages, UserPageAddr addr) (hnodup : pages.Nodup)
    (habsent : ∀ addr ∈ pages, flag s k addr = none)
    (h : allocAll s k writable pages = some s') :
    s'.Good ∧ Assigns k (· ∈ pages) (some writable) s s' :=
  foldlM_assigns (fun _ _ _ hgood _ haddr hvalue hstep =>
      alloc_assigns hgood haddr (by simpa using hvalue) hstep)
    hgood hbound huser hnodup (fun addr haddr => Or.inr (habsent addr haddr)) h

/-- The pages of a free range are mapped one after the other. -/
theorem Agree.fill {space : VMSpace} {vma : VMA} (h : Agree s k space) (hgood : s.Good)
    (hbound : Bounded s.dir) (haligned : PageAligned vma.beginAddr ∧ PageAligned vma.endAddr)
    (hproper : lo vma ≤ hi vma) (hlow : VMSpace.Base.toNat ≤ lo vma)
    (htop : hi vma ≤ VMSpace.Top.toNat)
    (hapart : ∀ e ∈ space, hi e ≤ lo vma ∨ hi vma ≤ lo e)
    {step : Paging.System → VirtualAddress → Option Paging.System}
    (hstep : ∀ s s' addr, s.Good → UserPageAddr addr → flag s k addr = none →
      step s addr = some s' → s'.Good ∧ Assigns k (· = addr) (some (writes vma)) s s')
    {pages : List VirtualAddress} (hpages : pagesBetween vma.beginAddr vma.endAddr = some pages)
    (hfold : pages.foldlM step s = some s') :
    s'.Good ∧ Assigns k (fun addr => lo vma ≤ addr.toNat ∧ addr.toNat < hi vma)
      (some (writes vma)) s s' := by
  obtain ⟨hnodup, hmem⟩ := walk_up haligned.1 haligned.2 hproper hpages
  have hrange : ∀ addr ∈ pages, UserPageAddr addr ∧ lo vma ≤ addr.toNat ∧ addr.toNat < hi vma := by
    intro addr haddr
    obtain ⟨halign, hpageLow, hpageHigh⟩ := (hmem addr).mp haddr
    have hpageHigh' : addr.toNat < hi vma := hpageHigh
    exact ⟨⟨halign, BitVec.lt_def.mpr (by omega)⟩, hpageLow, hpageHigh⟩
  obtain ⟨hgood', hassigns⟩ := foldlM_assigns (fun s s' addr hgood _ haddr hvalue =>
      hstep s s' addr hgood haddr (by simpa using hvalue)) hgood hbound
    (fun addr haddr => (hrange addr haddr).1) hnodup
    (fun addr haddr => by
      obtain ⟨huser, hpageLow, hpageHigh⟩ := hrange addr haddr
      refine Or.inr (h.absent huser (by omega) fun e he => ?_)
      rcases hapart e he with hle | hle <;> omega) hfold
  refine ⟨hgood', hassigns.congr fun addr haddr => ?_⟩
  rw [hmem]
  exact ⟨fun hin => ⟨haddr.1, hin⟩, And.right⟩

theorem releaseRange_assigns {range : VirtualAddress × VirtualAddress} (hgood : s.Good)
    (hbound : Bounded s.dir) (haligned : PageAligned range.1 ∧ PageAligned range.2)
    (hle : range.1.toNat ≤ range.2.toNat) (htop : range.2.toNat ≤ VMSpace.Top.toNat)
    (h : releaseRange s k range = some s') :
    s'.Good ∧ Assigns k
      (fun addr => range.1.toNat ≤ addr.toNat ∧ addr.toNat < range.2.toNat) none s s' := by
  simp only [releaseRange, Option.bind_eq_bind, Option.bind_eq_some_iff] at h
  obtain ⟨pages, hpages, h⟩ := h
  obtain ⟨hnodup, hmem⟩ := walk_up haligned.1 haligned.2 hle hpages
  have huser : ∀ addr ∈ pages, UserPageAddr addr := by
    intro addr haddr
    obtain ⟨halign, _, hhigh⟩ := (hmem addr).mp haddr
    exact ⟨halign, BitVec.lt_def.mpr (by omega)⟩
  obtain ⟨hgood', hassigns⟩ := foldlM_assigns (fun _ _ _ hgood hbound haddr _ hstep =>
    freePage_assigns hgood hbound haddr hstep) hgood hbound huser hnodup
    (fun _ _ => Or.inl rfl) h
  exact ⟨hgood', hassigns.congr fun addr haddr => by simp [hmem, haddr.1]⟩

/-- The callbacks of one erasure. -/
theorem release_assigns {released : List (VirtualAddress × VirtualAddress)} (hgood : s.Good)
    (hbound : Bounded s.dir)
    (hranges : ∀ range ∈ released, (PageAligned range.1 ∧ PageAligned range.2) ∧
      range.1.toNat ≤ range.2.toNat ∧ range.2.toNat ≤ VMSpace.Top.toNat)
    (h : released.foldlM (fun s range => releaseRange s k range) s = some s') :
    s'.Good ∧ Assigns k (fun addr => ∃ range ∈ released,
      range.1.toNat ≤ addr.toNat ∧ addr.toNat < range.2.toNat) none s s' := by
  induction released generalizing s with
  | nil =>
      obtain rfl : s = s' := by simpa using h
      exact ⟨hgood, Assigns.refl (by simp)⟩
  | cons range rest ih =>
      simp only [List.foldlM_cons, Option.bind_eq_bind, Option.bind_eq_some_iff] at h
      obtain ⟨s₁, hfirst, h⟩ := h
      obtain ⟨haligned, hle, htop⟩ := hranges range (by simp)
      obtain ⟨hgood₁, hassigns⟩ := releaseRange_assigns hgood hbound haligned hle htop hfirst
      obtain ⟨hgood', hassigns'⟩ := ih hgood₁ (by rwa [Paging.System.dir_congr hassigns.spaces])
        (fun r hr => hranges r (by simp [hr])) h
      exact ⟨hgood', hassigns.trans hassigns' fun addr _ => by simp⟩

end Loops

section Erase

variable {s s' : Paging.System} {k : Nat} {space : VMSpace} {addr : VirtualAddress} {size : BitVec 32}
  {erased : RangeManager.Erased VMA}

/-- What remains of an area keeps its protection and name, and is cut at the bounds
of the range. -/
theorem cut_part {lower upper : VirtualAddress} {e p : VMA} {parts : List VMA}
    (hcut : CutOrDrop VMSpace.splitRange lower upper e parts) (hp : p ∈ parts) :
    (writes p = writes e ∧ p.name = e.name) ∧
      (p.beginAddr = e.beginAddr ∨ p.beginAddr = upper) ∧
      (p.endAddr = e.endAddr ∨ p.endAddr = lower) := by
  rcases hcut with rfl | ⟨_, rfl⟩
  · unfold cutEntry at hp
    split_ifs at hp <;> simp only [List.mem_cons, List.not_mem_nil, or_false] at hp
    · simp [hp]
    · simp [hp, RangeEntry.setBegin, writes]
    · simp [hp, RangeEntry.setEnd, writes]
    · rcases hp with rfl | rfl
      · exact ⟨⟨rfl, rfl⟩, Or.inl rfl, Or.inr rfl⟩
      · simp [RangeEntry.setBegin, writes]
  · cases hp

theorem overlap_toNat (lower upper : VirtualAddress) (e : VMA) :
    (overlap lower upper e).1.toNat = max lower.toNat (lo e) ∧
      (overlap lower upper e).2.toNat = min upper.toNat (hi e) := by
  unfold overlap lo hi
  constructor <;> dsimp only <;> split <;> rename_i hlt <;> rw [BitVec.lt_def] at hlt <;>
    simp <;> omega

/-- Erasing whole pages leaves areas of whole pages, each a part of an area of the
same name, and releases whole pages of areas. -/
theorem erase_aligned (hordered : Interval.Ordered lo hi space)
    (haligned : ∀ e ∈ space, PageAligned e.beginAddr ∧ PageAligned e.endAddr)
    (haddr : PageAligned addr) (hsize : size.toNat % 4096 = 0)
    (herase : space.erase addr size = some erased) :
    (∀ p ∈ erased.addrs, (PageAligned p.beginAddr ∧ PageAligned p.endAddr) ∧
      ∃ e ∈ space, p.name = e.name ∧ hi p ≤ hi e) ∧
    ∀ range ∈ erased.released, (PageAligned range.1 ∧ PageAligned range.2) ∧
      range.1.toNat ≤ range.2.toNat ∧ range.2.toNat ≤ VMSpace.Top.toNat ∧
      ∃ e ∈ space, lo e ≤ range.1.toNat ∧ range.2.toNat ≤ hi e := by
  by_cases haccept : Accepts VMSpace.Top addr size
  swap
  · rw [VMSpace.erase, erase_rejected haccept] at herase
    obtain rfl := Option.some.inj herase
    exact ⟨fun p hp => ⟨haligned p hp, p, hp, rfl, le_rfl⟩, nofun⟩
  have hupper := haccept.upper_toNat
  have hbelow := haccept.2
  have halignUpper : PageAligned (addr + size) := by
    rw [pageAligned_iff] at haddr ⊢
    omega
  constructor
  · intro p hp
    obtain ⟨e, he, parts, hcut, hpart⟩ := (erase_pieces hordered haccept herase).origin p hp
    obtain ⟨⟨_, hname⟩, hbegin, hend⟩ := cut_part hcut hpart
    obtain ⟨hbegin', hend'⟩ := haligned e he
    have hwithin := hcut.within VMSpace.splitRange_keepsBounds (by omega)
      (hordered.proper e he)
    exact ⟨⟨by rcases hbegin with heq | heq <;> rw [heq] <;> assumption,
      by rcases hend with heq | heq <;> rw [heq] <;> assumption⟩, e, he, hname,
      (hwithin.inside p hpart).2⟩
  · intro range hrange
    obtain ⟨e, he, rfl, hlow, hhigh⟩ :=
      (erase_releases hordered haccept herase).sound range hrange
    obtain ⟨hbegin, hend⟩ := haligned e he
    obtain ⟨hfirst, hsecond⟩ := overlap_toNat addr (addr + size) e
    have hproper := hordered.proper e he
    refine ⟨⟨?_, ?_⟩, by omega, by omega, e, he, by omega, by omega⟩
    · simp only [overlap]
      split
      · exact haddr
      · exact hbegin
    · simp only [overlap]
      split
      · exact halignUpper
      · exact hend

theorem Agree.erase_accepted (h : Agree s k space) (hgood : s.Good) (hbound : Bounded s.dir)
    (haddr : PageAligned addr) (hsize : size.toNat % 4096 = 0)
    (haccept : Accepts VMSpace.Top addr size)
    (hrepInv : RepInv VMSpace.Base VMSpace.Top erased.addrs)
    (herase : space.erase addr size = some erased)
    (hfree : erased.released.foldlM (fun s range => releaseRange s k range) s = some s') :
    s'.Good ∧ Agree s' k erased.addrs ∧ Touches k s s' := by
  have hordered := h.repInv.ordered
  have hupper := haccept.upper_toNat
  have hpieces := erase_pieces hordered haccept herase
  have hreleases := erase_releases hordered haccept herase
  obtain ⟨hparts, hranges⟩ := erase_aligned hordered h.aligned haddr hsize herase
  obtain ⟨hgood', hassigns⟩ := release_assigns hgood hbound (fun range hrange => by
    obtain ⟨haligned, hle, htop, _⟩ := hranges range hrange
    exact ⟨haligned, hle, htop⟩) hfree
  refine ⟨hgood', ⟨hrepInv, fun p hp => (hparts p hp).1, ?_, ?_⟩, hassigns.touches⟩
  · intro p hp
    obtain ⟨e, he, parts, hcut, hpart⟩ := hpieces.origin p hp
    obtain ⟨⟨hwrites, hname⟩, _⟩ := cut_part hcut hpart
    rw [hwrites, hname]
    exact h.heap e he
  · intro page hpage hlow w
    have hcovered : Grants erased.addrs page.toNat w ↔ Grants space page.toNat w ∧
        ¬ (addr.toNat ≤ page.toNat ∧ page.toNat < (addr + size).toNat) :=
      hpieces.covered (fun e _ parts hcut => ⟨fun p hp => (cut_part hcut hp).1.1,
        hcut.covers VMSpace.splitRange_keepsBounds⟩) page.toNat w
    rw [hcovered]
    by_cases hin : ∃ range ∈ erased.released,
        range.1.toNat ≤ page.toNat ∧ page.toNat < range.2.toNat
    · rw [hassigns.assigned page hpage hin]
      obtain ⟨range, hrange, hrangeLow, hrangeHigh⟩ := hin
      obtain ⟨e, he, rfl, _⟩ := hreleases.sound range hrange
      obtain ⟨hfirst, hsecond⟩ := overlap_toNat addr (addr + size) e
      refine iff_of_false (by simp) ?_
      rintro ⟨_, hkeep⟩
      exact hkeep ⟨by omega, by omega⟩
    · rw [hassigns.kept k page hpage fun _ => hin, h.pages page hpage hlow w]
      refine ⟨fun hgrants => ⟨hgrants, fun hrange => ?_⟩, And.left⟩
      obtain ⟨e, he, hcontains, _⟩ := hgrants
      obtain ⟨hfirst, hsecond⟩ := overlap_toNat addr (addr + size) e
      exact hin ⟨_, hreleases.complete e he (by omega) (by omega), by omega, by omega⟩

/-- A range is erased, and the pages of what it overlaps are freed. -/
theorem Agree.erase (h : Agree s k space) (hgood : s.Good) (hbound : Bounded s.dir)
    (haddr : PageAligned addr) (hsize : size.toNat % 4096 = 0)
    (hspares : SparesSentinel addr size) (herase : space.erase addr size = some erased)
    (hfree : erased.released.foldlM (fun s range => releaseRange s k range) s = some s') :
    s'.Good ∧ Agree s' k erased.addrs ∧ Touches k s s' := by
  have hrepInv := (erase_repInv_iff h.repInv herase).mpr hspares
  by_cases haccept : Accepts VMSpace.Top addr size
  · exact h.erase_accepted hgood hbound haddr hsize haccept hrepInv herase hfree
  · rw [VMSpace.erase, erase_rejected haccept] at herase
    obtain rfl := Option.some.inj herase
    obtain rfl : s = s' := by simpa using hfree
    exact ⟨hgood, h, Touches.refl k s⟩

end Erase

end Nyan.Task
