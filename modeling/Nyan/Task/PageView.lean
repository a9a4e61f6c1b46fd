import Nyan.Task.UserMemory

/-!
The pages of user processes as the page tables show them. `flag` says of a page
whether it is present and, if so, whether it may be written, now or after it has
been copied. The loops of the kernel over pages assign one value to the pages of
a range and leave all others alone, in every space.
-/

namespace Nyan.Task

open Paging Paging.RangeManager Allocator

/-- The page table entry of an address, if it is present. -/
def pte (s : Paging.System) (k : Nat) (addr : VirtualAddress) : Option (BitVec 32) :=
  (s.dir k).bind fun dir => Paging.System.lookup s.memory dir addr

def flag (s : Paging.System) (k : Nat) (addr : VirtualAddress) : Option Bool :=
  (pte s k addr).map fun word => isReadWrite word || isCOW word

/-- The addresses of the pages below `Top`. -/
def UserPageAddr (addr : VirtualAddress) : Prop := PageAligned addr ∧ addr < VMSpace.Top

theorem userPlace_of_user {addr : VirtualAddress} (h : UserPageAddr addr) :
    ∃ place, userPlace addr = some place := by
  have hlt : (tableLoc addr).val < 768 := by
    have hbelow := BitVec.lt_def.mp h.2
    have htop : VMSpace.Top.toNat = 768 * 0x400000 := by decide
    rw [tableLoc_val]
    omega
  exact ⟨_, dif_pos hlt⟩

theorem userPlace_inj {addr other : VirtualAddress} {place : UserLoc × Fin 1024}
    (haddr : PageAligned addr) (hother : PageAligned other)
    (h : userPlace addr = some place) (h' : userPlace other = some place) : addr = other := by
  obtain ⟨htable, hpage⟩ := Paging.System.userPlace_eq h
  obtain ⟨htable', hpage'⟩ := Paging.System.userPlace_eq h'
  have hdir : (tableLoc addr).val = (tableLoc other).val := by rw [htable, htable']
  have hloc : (tablePageLoc addr).val = (tablePageLoc other).val := by rw [hpage, hpage']
  rw [tableLoc_val, tableLoc_val] at hdir
  rw [tablePageLoc_val, tablePageLoc_val] at hloc
  rw [pageAligned_iff] at haddr hother
  apply BitVec.eq_of_toNat_eq
  omega

/-- All addresses of a page have the place of the page. -/
theorem userPlace_thisPage (addr : VirtualAddress) :
    userPlace (thisPage addr) = userPlace addr := by
  have hthis := thisPage_toNat addr
  have htable : tableLoc (thisPage addr) = tableLoc addr := by
    apply Fin.ext
    rw [tableLoc_val, tableLoc_val]
    omega
  have hpage : tablePageLoc (thisPage addr) = tablePageLoc addr := by
    apply Fin.ext
    rw [tablePageLoc_val, tablePageLoc_val]
    omega
  simp only [userPlace, htable, hpage]

theorem userPlace_of_lt {addr : VirtualAddress} (h : addr.toNat < VMSpace.Top.toNat) :
    userPlace addr ≠ none := by
  have hthis := thisPage_toNat addr
  have huser : UserPageAddr (thisPage addr) :=
    ⟨(pageAligned_iff _).mpr (by omega), BitVec.lt_def.mpr (by omega)⟩
  rw [← userPlace_thisPage]
  exact Option.ne_none_iff_exists'.mpr (userPlace_of_user huser)

theorem pte_eq {s : Paging.System} {k : Nat} {addr : VirtualAddress} {place : UserLoc × Fin 1024}
    (h : userPlace addr = some place) : pte s k addr = s.layout.entry (k, place) := by
  obtain ⟨htable, hpage⟩ := Paging.System.userPlace_eq h
  cases hk : s.dir k <;> simp [pte, Paging.System.lookup, Paging.System.layout, hk, htable, hpage]

theorem flag_eq {s : Paging.System} {k : Nat} {addr : VirtualAddress} {place : UserLoc × Fin 1024}
    (h : userPlace addr = some place) :
    flag s k addr = (s.mapping (k, place)).map fun page => page.2.writable := by
  rw [flag, pte_eq h]
  cases hentry : s.layout.entry (k, place) <;>
    simp [Paging.System.mapping, Memory.mapping, Memory.userPage, hentry]

theorem flag_of_mapping {s s' : Paging.System} (h : s'.mapping = s.mapping) (k : Nat)
    {addr : VirtualAddress} (haddr : UserPageAddr addr) : flag s' k addr = flag s k addr := by
  obtain ⟨place, hplace⟩ := userPlace_of_user haddr
  rw [flag_eq hplace, flag_eq hplace, h]

/-- A space that is not there has no pages. -/
theorem flag_no_dir {s : Paging.System} {k : Nat} (h : s.dir k = none) (addr : VirtualAddress) :
    flag s k addr = none := by
  simp [flag, pte, h]

/-- In space `k` the pages `P` get the value `value`; all else stays. -/
structure Assigns (k : Nat) (P : VirtualAddress → Prop) (value : Option Bool) (s s' : Paging.System) :
    Prop where
  spaces : s'.spaces = s.spaces
  assigned : ∀ addr, UserPageAddr addr → P addr → flag s' k addr = value
  kept : ∀ l addr, UserPageAddr addr → (l = k → ¬ P addr) → flag s' l addr = flag s l addr

/-- Nothing but the pages of space `k` is different. -/
structure Touches (k : Nat) (s s' : Paging.System) : Prop where
  spaces : s'.spaces = s.spaces
  kept : ∀ l addr, l ≠ k → UserPageAddr addr → flag s' l addr = flag s l addr

theorem Touches.refl (k : Nat) (s : Paging.System) : Touches k s s := ⟨rfl, fun _ _ _ _ => rfl⟩

theorem Touches.trans {k : Nat} {s s' s'' : Paging.System} (h : Touches k s s') (h' : Touches k s' s'') :
    Touches k s s'' :=
  ⟨h'.spaces.trans h.spaces, fun l addr hl haddr =>
    (h'.kept l addr hl haddr).trans (h.kept l addr hl haddr)⟩

namespace Assigns

variable {k : Nat} {P Q R : VirtualAddress → Prop} {value : Option Bool} {s s' s'' : Paging.System}

theorem refl (hP : ∀ addr, ¬ P addr) : Assigns k P value s s :=
  ⟨rfl, fun _ _ h => absurd h (hP _), fun _ _ _ _ => rfl⟩

theorem trans (h : Assigns k P value s s') (h' : Assigns k Q value s' s'')
    (hR : ∀ addr, UserPageAddr addr → (R addr ↔ P addr ∨ Q addr)) : Assigns k R value s s'' := by
  refine ⟨h'.spaces.trans h.spaces, ?_, ?_⟩
  · intro addr haddr hmem
    by_cases hQ : Q addr
    · exact h'.assigned addr haddr hQ
    · rw [h'.kept k addr haddr fun _ => hQ]
      exact h.assigned addr haddr (((hR addr haddr).mp hmem).resolve_right hQ)
  · intro l addr haddr hout
    rw [h'.kept l addr haddr fun hl hQ => hout hl ((hR addr haddr).mpr (Or.inr hQ))]
    exact h.kept l addr haddr fun hl hP => hout hl ((hR addr haddr).mpr (Or.inl hP))

theorem congr (h : Assigns k P value s s') (hQ : ∀ addr, UserPageAddr addr → (Q addr ↔ P addr)) :
    Assigns k Q value s s' :=
  ⟨h.spaces, fun addr haddr hmem => h.assigned addr haddr ((hQ addr haddr).mp hmem),
    fun l addr haddr hout => h.kept l addr haddr fun hl hP =>
      hout hl ((hQ addr haddr).mpr hP)⟩

theorem touches (h : Assigns k P value s s') : Touches k s s' :=
  ⟨h.spaces, fun l addr hl haddr => h.kept l addr haddr fun heq => absurd heq hl⟩

/-- One entry of the page tables is replaced. -/
theorem of_update {addr : VirtualAddress} {place : UserLoc × Fin 1024}
    {page : Option (PhysicalAddress × UserPage)} (haddr : PageAligned addr)
    (hplace : userPlace addr = some place) (hspaces : s'.spaces = s.spaces)
    (hmapping : ∀ q, (s'.mapping q).map (fun page => page.2.writable) =
      (Function.update s.mapping (k, place) page q).map fun page => page.2.writable) :
    Assigns k (· = addr) (page.map fun page => page.2.writable) s s' := by
  refine ⟨hspaces, ?_, ?_⟩
  · rintro _ _ rfl
    rw [flag_eq hplace, hmapping, Function.update_self]
  · intro l other hother hout
    obtain ⟨place', hplace'⟩ := userPlace_of_user hother
    have hne : ((l, place') : Spot) ≠ (k, place) := by
      rintro ⟨⟩
      exact hout rfl (userPlace_inj hother.1 haddr hplace' hplace)
    rw [flag_eq hplace', flag_eq hplace', hmapping, Function.update_of_ne hne]

end Assigns

section Steps

variable {s s' : Paging.System} {k : Nat} {addr : VirtualAddress} {writable : Bool}

theorem entry_none (haddr : UserPageAddr addr) (h : flag s k addr = none) :
    ∃ place, userPlace addr = some place ∧ s.layout.entry (k, place) = none := by
  obtain ⟨place, hplace⟩ := userPlace_of_user haddr
  rw [flag, Option.map_eq_none_iff, pte_eq hplace] at h
  exact ⟨place, hplace, h⟩

theorem alloc_assigns (hgood : s.Good) (haddr : UserPageAddr addr) (habsent : flag s k addr = none)
    (h : s.step (.alloc k addr writable) = some s') :
    s'.Good ∧ Assigns k (· = addr) (some writable) s s' := by
  obtain ⟨hgood', hspaces, place, frame, hplace, hmapping⟩ :=
    Paging.System.alloc_spec hgood (entry_none haddr habsent) h
  exact ⟨hgood', Assigns.of_update haddr.1 hplace hspaces fun q => by rw [hmapping]⟩

theorem freePage_assigns (hgood : s.Good) (hbound : Bounded s.dir) (haddr : UserPageAddr addr)
    (h : s.step (.freePage k addr) = some s') :
    s'.Good ∧ Assigns k (· = addr) none s s' := by
  obtain ⟨place, hplace⟩ := userPlace_of_user haddr
  obtain ⟨hgood', hspaces, place', hplace', hmapping⟩ :=
    Paging.System.freePage_spec hgood hbound (by simp [hplace]) h
  exact ⟨hgood', Assigns.of_update haddr.1 hplace' hspaces fun q => by rw [hmapping]⟩

/-- A page of a segment gets its contents after it has been mapped. -/
theorem loadPage_assigns {file : BitVec 32 → BitVec 8} {header : ProgramHeader}
    (hgood : s.Good) (haddr : UserPageAddr addr) (habsent : flag s k addr = none)
    (h : loadPage file header k s addr = some s') :
    s'.Good ∧ Assigns k (· = addr) (some (header.flags &&& PHF_Writable ≠ 0#32)) s s' := by
  simp only [loadPage, Option.bind_eq_bind, Option.bind_eq_some_iff, Option.pure_def,
    Option.some_inj, Prod.exists] at h
  obtain ⟨dir, hk, frame, memory, halloc, rfl⟩ := h
  obtain ⟨place, hplace, hnone⟩ := entry_none haddr habsent
  obtain ⟨htable, hpage⟩ := Paging.System.userPlace_eq hplace
  obtain ⟨L', hinv, hdir, _, hmapping⟩ :=
    UserDirectory.alloc_spec hgood hk htable (by rw [hpage]; exact hnone) halloc
  rw [hpage] at hmapping
  have hself := congrFun hmapping (k, place)
  rw [Function.update_self] at hself
  obtain ⟨word, hentry, hword⟩ := Option.map_eq_some_iff.mp hself
  obtain ⟨hframe, hnew⟩ := Prod.ext_iff.mp hword
  have hrep := hinv.setPage (fun l hl => hinv.separate.dir_ne_page hl hentry hframe.symm)
    (fun p hp => hinv.separate.table_ne_page hp hentry hframe.symm) (header.pageAt file addr)
  obtain ⟨hgood', hmapping'⟩ := Paging.System.good_keep hrep hdir
  refine ⟨hgood', ?_⟩
  have hflags : ∀ q, (({ s with memory := memory.setPage frame (header.pageAt file addr) } :
      Paging.System).mapping q).map (fun page => page.2.writable) =
      (Function.update s.mapping (k, place) (some (frame, { content := fun _ => 0#32, writable :=
        header.flags &&& PHF_Writable ≠ 0#32 })) q).map fun page => page.2.writable := by
    intro q
    have hsame := congrFun hmapping q
    rw [hmapping', show s.mapping = s.memory.mapping s.layout from rfl, ← hsame]
    simp [Memory.mapping, Memory.userPage, Function.comp_def]
  exact Assigns.of_update haddr.1 hplace (by rfl) hflags

/-- A loop over pages, each of which it may change. An absent page stays absent
until the loop comes to it. -/
theorem foldlM_assigns {step : Paging.System → VirtualAddress → Option Paging.System} {value : Option Bool}
    (hstep : ∀ s s' addr, s.Good → Bounded s.dir → UserPageAddr addr →
      (value = none ∨ flag s k addr = none) → step s addr = some s' →
      s'.Good ∧ Assigns k (· = addr) value s s')
    {pages : List VirtualAddress} (hgood : s.Good) (hbound : Bounded s.dir)
    (huser : ∀ addr ∈ pages, UserPageAddr addr) (hnodup : pages.Nodup)
    (habsent : ∀ addr ∈ pages, value = none ∨ flag s k addr = none)
    (h : pages.foldlM step s = some s') :
    s'.Good ∧ Assigns k (· ∈ pages) value s s' := by
  induction pages generalizing s with
  | nil =>
      obtain rfl : s = s' := by simpa using h
      exact ⟨hgood, Assigns.refl (by simp)⟩
  | cons page rest ih =>
      simp only [List.foldlM_cons, Option.bind_eq_bind, Option.bind_eq_some_iff] at h
      obtain ⟨s₁, hfirst, h⟩ := h
      obtain ⟨hpage, hrest⟩ := List.nodup_cons.mp hnodup
      obtain ⟨hgood₁, hassigns⟩ := hstep s s₁ page hgood hbound (huser page (by simp))
        (habsent page (by simp)) hfirst
      obtain ⟨hgood', hassigns'⟩ := ih hgood₁ (by rwa [Paging.System.dir_congr hassigns.spaces])
        (fun addr haddr => huser addr (by simp [haddr])) hrest
        (fun addr haddr => by
          rw [hassigns.kept k addr (huser addr (by simp [haddr]))
            fun _ heq => hpage (heq ▸ haddr)]
          exact habsent addr (by simp [haddr])) h
      exact ⟨hgood', hassigns.trans hassigns' fun addr _ => by simp⟩

end Steps

section Walks

variable {lower upper target : VirtualAddress} {pages : List VirtualAddress}

theorem walk_up {fuel : Nat} (hlower : PageAligned lower) (hupper : PageAligned upper)
    (hle : lower.toNat ≤ upper.toNat) (h : walk nextPage (· == upper) fuel lower = some pages) :
    pages.Nodup ∧ ∀ addr, addr ∈ pages ↔
      PageAligned addr ∧ lower.toNat ≤ addr.toNat ∧ addr.toNat < upper.toNat := by
  induction fuel generalizing lower pages with
  | zero => cases h
  | succ fuel ih =>
      simp only [walk, beq_iff_eq] at h
      split at h
      · rename_i hdone
        obtain rfl := Option.some.inj h
        refine ⟨List.nodup_nil, fun addr => ?_⟩
        simp only [List.not_mem_nil, false_iff, hdone]
        omega
      · rename_i hmore
        obtain ⟨rest, hrest, rfl⟩ := Option.map_eq_some_iff.mp h
        have hlower' := (pageAligned_iff lower).mp hlower
        have hupper' := (pageAligned_iff upper).mp hupper
        have hlt : lower.toNat ≠ upper.toNat := fun heq => hmore (BitVec.eq_of_toNat_eq heq)
        have hnext : (nextPage lower).toNat = lower.toNat + 4096 := by
          rw [nextPage_toNat]
          have := upper.isLt
          omega
        obtain ⟨hnodup, hmem⟩ := ih ((pageAligned_iff _).mpr (by omega)) (by omega) hrest
        refine ⟨List.nodup_cons.mpr ⟨fun hin => ?_, hnodup⟩, fun addr => ?_⟩
        · have := (hmem lower).mp hin
          omega
        · rw [List.mem_cons, hmem, ← BitVec.toNat_inj]
          constructor
          · rintro (heq | ⟨haligned, hlow, hhigh⟩)
            · exact ⟨(pageAligned_iff _).mpr (by omega), by omega, by omega⟩
            · exact ⟨haligned, by omega, hhigh⟩
          · rintro ⟨haligned, hlow, hhigh⟩
            have haligned' := (pageAligned_iff addr).mp haligned
            by_cases heq : addr.toNat = lower.toNat
            · exact Or.inl heq
            · exact Or.inr ⟨haligned, by omega, hhigh⟩

/-- The loop over the pages between two pages ends, after one round for each of them. -/
theorem walk_defined {fuel : Nat} (hlower : PageAligned lower) (hupper : PageAligned upper)
    (hle : lower.toNat ≤ upper.toNat) (hfuel : (upper.toNat - lower.toNat) / 4096 < fuel) :
    ∃ pages, walk nextPage (· == upper) fuel lower = some pages ∧
      pages.length = (upper.toNat - lower.toNat) / 4096 := by
  induction fuel generalizing lower with
  | zero => omega
  | succ fuel ih =>
      by_cases hdone : lower = upper
      · refine ⟨[], by simp [walk, hdone], ?_⟩
        simp [hdone]
      · have hlower' := (pageAligned_iff lower).mp hlower
        have hupper' := (pageAligned_iff upper).mp hupper
        have hlt : lower.toNat ≠ upper.toNat := fun heq => hdone (BitVec.eq_of_toNat_eq heq)
        have hnext : (nextPage lower).toNat = lower.toNat + 4096 := by
          rw [nextPage_toNat]
          have := upper.isLt
          omega
        have haligned : PageAligned (nextPage lower) := (pageAligned_iff _).mpr (by omega)
        obtain ⟨rest, hrest, hlength⟩ := ih haligned (by omega) (by omega)
        refine ⟨lower :: rest, by simp [walk, hdone, hrest], ?_⟩
        rw [List.length_cons, hlength]
        omega

theorem pagesBetween_defined (hlower : PageAligned lower) (hupper : PageAligned upper)
    (hle : lower.toNat ≤ upper.toNat) :
    ∃ pages, pagesBetween lower upper = some pages ∧
      pages.length = (upper.toNat - lower.toNat) / 4096 := by
  refine walk_defined hlower hupper hle ?_
  have hlimit : walkLimit = 2 ^ 20 + 1 := rfl
  have hmax := upper.isLt
  omega

theorem pagesBetween_self (page : VirtualAddress) : pagesBetween page page = some [] := by
  have hwalk (fuel : Nat) : walk nextPage (· == page) (fuel + 1) page = some [] := by
    simp [walk]
  exact hwalk (2 ^ 20)

theorem pagesBetween_nil (h : pagesBetween lower upper = some []) : lower = upper := by
  have hwalk (fuel : Nat) (hne : lower ≠ upper) :
      walk nextPage (· == upper) (fuel + 1) lower ≠ some [] := by
    simp [walk, hne]
  by_contra hne
  exact hwalk (2 ^ 20) hne h

/-- A loop that compares pages with an address inside a page does not end. -/
theorem walk_unaligned {fuel : Nat} (hupper : ¬ PageAligned upper) (hlower : PageAligned lower) :
    walk nextPage (· == upper) fuel lower = none := by
  induction fuel generalizing lower with
  | zero => rfl
  | succ fuel ih =>
      have hne : lower ≠ upper := fun heq => hupper (heq ▸ hlower)
      have hnext : PageAligned (nextPage lower) := by
        rw [pageAligned_iff, nextPage_toNat]
        omega
      simp [walk, hne, ih hnext]

theorem eq_of_walk {fuel : Nat} (hupper : ¬ PageAligned upper)
    (h : walk nextPage (· == upper) fuel lower = some pages) : lower = upper := by
  by_contra hne
  cases fuel with
  | zero => cases h
  | succ fuel =>
      have hnext : PageAligned (nextPage lower) := by
        rw [pageAligned_iff, nextPage_toNat]
        omega
      simp [walk, hne, walk_unaligned hupper hnext] at h

/-- The pages that come next in a loop. -/
theorem walk_after {fuel : Nat} (hlower : PageAligned lower) (hupper : PageAligned upper)
    (hle : lower.toNat ≤ upper.toNat) (h : walk nextPage (· == upper) fuel lower = some pages) :
    (pages.map nextPage).Nodup ∧ ∀ addr, addr ∈ pages.map nextPage ↔
      PageAligned addr ∧ lower.toNat < addr.toNat ∧ addr.toNat ≤ upper.toNat := by
  obtain ⟨hnodup, hmem⟩ := walk_up hlower hupper hle h
  have hlower' := (pageAligned_iff lower).mp hlower
  have hupper' := (pageAligned_iff upper).mp hupper
  have hnext : ∀ page ∈ pages, (nextPage page).toNat = page.toNat + 4096 := by
    intro page hpage
    obtain ⟨haligned, _, hhigh⟩ := (hmem page).mp hpage
    rw [pageAligned_iff] at haligned
    rw [nextPage_toNat]
    have := upper.isLt
    omega
  constructor
  · refine hnodup.map_on fun page hpage other hother heq => BitVec.eq_of_toNat_eq ?_
    have hsame := congrArg BitVec.toNat heq
    rw [hnext page hpage, hnext other hother] at hsame
    omega
  · intro addr
    rw [List.mem_map]
    constructor
    · rintro ⟨page, hpage, rfl⟩
      have hvalue := hnext page hpage
      obtain ⟨haligned, hlow, hhigh⟩ := (hmem page).mp hpage
      rw [pageAligned_iff] at haligned
      exact ⟨(pageAligned_iff _).mpr (by omega), by omega, by omega⟩
    · rintro ⟨haligned, hlow, hhigh⟩
      rw [pageAligned_iff] at haligned
      have hprev : (prevPage addr).toNat = addr.toNat - 4096 := by
        rw [prevPage_toNat]
        have := addr.isLt
        omega
      have hpage : prevPage addr ∈ pages :=
        (hmem _).mpr ⟨(pageAligned_iff _).mpr (by omega), by omega, by omega⟩
      refine ⟨prevPage addr, hpage, BitVec.eq_of_toNat_eq ?_⟩
      rw [hnext _ hpage]
      omega

/-- The pages that `brk` allocates: those after the page of the old break. -/
theorem pagesBetween_after (hlower : PageAligned lower) (hupper : PageAligned upper)
    (hle : lower.toNat ≤ upper.toNat) (h : pagesBetween lower upper = some pages) :
    (pages.map nextPage).Nodup ∧ ∀ addr, addr ∈ pages.map nextPage ↔
      PageAligned addr ∧ lower.toNat < addr.toNat ∧ addr.toNat ≤ upper.toNat :=
  walk_after hlower hupper hle h

/-- The pages that `checkStack` allocates. -/
theorem walk_down {fuel : Nat} (hupper : PageAligned upper)
    (hle : (thisPage target).toNat ≤ upper.toNat)
    (h : walk prevPage (fun addr => addr ≤ target) fuel upper = some pages) :
    (pages.map prevPage).Nodup ∧ ∀ addr, addr ∈ pages.map prevPage ↔
      PageAligned addr ∧ (thisPage target).toNat ≤ addr.toNat ∧ addr.toNat < upper.toNat := by
  induction fuel generalizing upper pages with
  | zero => cases h
  | succ fuel ih =>
      have htarget := thisPage_toNat target
      have hupper' := (pageAligned_iff upper).mp hupper
      simp only [walk, decide_eq_true_eq] at h
      split at h
      · rename_i hdone
        rw [BitVec.le_def] at hdone
        obtain rfl := Option.some.inj h
        refine ⟨List.nodup_nil, fun addr => ?_⟩
        simp only [List.map_nil, List.not_mem_nil, false_iff]
        omega
      · rename_i hmore
        rw [BitVec.le_def] at hmore
        obtain ⟨rest, hrest, rfl⟩ := Option.map_eq_some_iff.mp h
        have hprev : (prevPage upper).toNat = upper.toNat - 4096 := by
          rw [prevPage_toNat]
          have := upper.isLt
          omega
        obtain ⟨hnodup, hmem⟩ := ih ((pageAligned_iff _).mpr (by omega)) (by omega) hrest
        rw [List.map_cons]
        refine ⟨List.nodup_cons.mpr ⟨fun hin => ?_, hnodup⟩, fun addr => ?_⟩
        · have := (hmem _).mp hin
          omega
        · rw [List.mem_cons, hmem, ← BitVec.toNat_inj]
          constructor
          · rintro (heq | ⟨haligned, hlow, hhigh⟩)
            · exact ⟨(pageAligned_iff _).mpr (by omega), by omega, by omega⟩
            · exact ⟨haligned, hlow, by omega⟩
          · rintro ⟨haligned, hlow, hhigh⟩
            have haligned' := (pageAligned_iff addr).mp haligned
            by_cases heq : addr.toNat = (prevPage upper).toNat
            · exact Or.inl heq
            · exact Or.inr ⟨haligned, hlow, by omega⟩

end Walks

end Nyan.Task
