import Nyan.Paging.FrameAccounting

/-!
Copy on write against copying at once. The reference machine has no frames and no
counters: each address space is a set of pages, and a fork copies them all. The
kernel's machine reads the same bytes everywhere, as long as there are at most
`2 ^ 16` live address spaces. With one more the 16-bit counter of a page that all
of them share is one again, and `handleCOW` gives the shared frame away.
-/

namespace Nyan.Paging

open Allocator Library

/-- The pages of one address space. -/
abbrev Pages := UserLoc × Fin 1024 → Option UserPage

/-- The reference machine. Spaces are numbered as in `System`. -/
structure Eager where
  spaces : List (Option Pages)

namespace Eager

def space (r : Eager) (k : Nat) : Option Pages := r.spaces[k]?.join

/-- A change of one space. -/
def modify (r : Eager) (k : Nat) (f : Pages → Pages) : Option Eager :=
  (r.space k).map fun pages => ⟨r.spaces.set k (some (f pages))⟩

def init : Eager := ⟨[]⟩

def step (r : Eager) : Action → Option Eager
  | .fork => some ⟨r.spaces ++ [some (fun _ => none : Pages)]⟩
  | .forkCOW k => (r.space k).map fun pages => ⟨r.spaces ++ [some pages]⟩
  | .ensure k _ _ | .handleCOW k _ => r.modify k id
  | .alloc k addr writable =>
      (userPlace addr).bind fun place => r.modify k fun pages =>
        Function.update pages place (some { content := fun _ => 0#32, writable })
  | .write k addr offset value mask =>
      (userPlace addr).bind fun place => r.modify k fun pages =>
        Function.update pages place ((pages place).map fun page =>
          if page.writable then { page with content := page.content.store offset value mask }
          else page)
  | .freePage k addr =>
      (userPlace addr).bind fun place => r.modify k fun pages => Function.update pages place none
  | .freePageTables k => r.modify k fun _ _ => none
  | .release k => (r.space k).map fun _ => ⟨r.spaces.set k none⟩

end Eager

namespace System

variable {s s' : System} {r : Eager} {k : Nat}

/-- Both machines have the same live spaces, with the same pages: the same bytes,
and writable or not. -/
structure Refines (s : System) (r : Eager) : Prop where
  length : r.spaces.length = s.spaces.length
  space : ∀ k, r.space k = (s.dir k).map fun _ place => s.page (k, place)

namespace Refines

/-- A new space. -/
theorem append (h : Refines s r) {addr : PhysicalAddress}
    (hspaces : s'.spaces = s.spaces ++ [some addr])
    (hold : ∀ l place, l ≠ s.spaces.length → s'.page (l, place) = s.page (l, place)) :
    Refines s' ⟨r.spaces ++ [some fun place => s'.page (s.spaces.length, place)]⟩ := by
  refine ⟨by simp [hspaces, h.length], fun l => ?_⟩
  rw [dir_append hspaces]
  by_cases hl : l = s.spaces.length
  · subst hl
    simp [Eager.space, h.length]
  · rw [Function.update_of_ne hl]
    have hspace := h.space l
    have hlist : (r.spaces ++ [some fun place => s'.page (s.spaces.length, place)])[l]? =
        r.spaces[l]? := by
      rcases Nat.lt_or_gt_of_ne hl with hlt | hgt
      · exact List.getElem?_append_left (by rwa [h.length])
      · rw [List.getElem?_eq_none, List.getElem?_eq_none]
        · rw [h.length]
          omega
        · rw [List.length_append, h.length, List.length_singleton]
          omega
    rw [Eager.space, hlist]
    refine hspace.trans ?_
    congr 1
    funext _ place
    exact (hold l place hl).symm

/-- A change of the pages of one space. -/
theorem modify (h : Refines s r) (hspaces : s'.spaces = s.spaces) (hk : s.dir k ≠ none)
    {f : Pages → Pages}
    (hnew : (fun place => s'.page (k, place)) = f fun place => s.page (k, place))
    (hold : ∀ l place, l ≠ k → s'.page (l, place) = s.page (l, place)) :
    ∃ r', r.modify k f = some r' ∧ Refines s' r' := by
  obtain ⟨dir, hdir⟩ := Option.ne_none_iff_exists'.mp hk
  have hspace : r.space k = some fun place => s.page (k, place) := by rw [h.space k, hdir]; rfl
  refine ⟨_, by simp only [Eager.modify, hspace, Option.map_some]; rfl, by simp [hspaces, h.length],
    fun l => ?_⟩
  rw [dir_congr hspaces]
  by_cases hl : l = k
  · subst hl
    have hlt : l < r.spaces.length := by
      by_contra hge
      simp [Eager.space, List.getElem?_eq_none (Nat.not_lt.mp hge)] at hspace
    simp [Eager.space, List.getElem?_set_self hlt, hdir, hnew]
  · rw [Eager.space, List.getElem?_set_ne (Ne.symm hl)]
    refine (h.space l).trans ?_
    congr 1
    funext _ place
    exact (hold l place hl).symm

/-- A space that is given up. -/
theorem release (h : Refines s r) (hspaces : s'.spaces = s.spaces.set k none)
    (hpage : s'.page = s.page) : Refines s' ⟨r.spaces.set k none⟩ := by
  refine ⟨by simp [hspaces, h.length], fun l => ?_⟩
  rw [dir_set hspaces, hpage]
  by_cases hl : l = k
  · subst hl
    simp only [Eager.space, List.getElem?_set_self', Function.update_self, Option.map_none]
    cases r.spaces[l]? <;> rfl
  · rw [Function.update_of_ne hl, ← h.space l, Eager.space, Eager.space,
      List.getElem?_set_ne (Ne.symm hl)]

theorem update_page {q : Spot} {v : Option UserPage} (h : s'.page = Function.update s.page q v) :
    ((fun place => s'.page (q.1, place)) =
      Function.update (fun place => s.page (q.1, place)) q.2 v) ∧
    ∀ l place, l ≠ q.1 → s'.page (l, place) = s.page (l, place) := by
  constructor
  · funext place
    rw [h]
    by_cases hplace : place = q.2
    · subst hplace
      simp
    · rw [Function.update_of_ne hplace, Function.update_of_ne]
      exact fun heq => hplace (congrArg Prod.snd heq)
  · intro l place hl
    rw [h, Function.update_of_ne]
    exact fun heq => hl (congrArg Prod.fst heq)

theorem page_update {q : Spot} {v : Option (PhysicalAddress × UserPage)}
    (h : s'.mapping = Function.update s.mapping q v) :
    s'.page = Function.update s.page q (v.map Prod.snd) := by
  funext p
  unfold page
  rw [h]
  by_cases hp : p = q
  · subst hp
    simp
  · rw [Function.update_of_ne hp, Function.update_of_ne hp]

end Refines

/-- An action that is done is for a live space. -/
theorem dir_of_step {a : Action} (heq : s.step a = some s') :
    match a with
    | .fork => True
    | .forkCOW k | .ensure k _ _ | .alloc k _ _ | .handleCOW k _ | .write k _ _ _ _
    | .freePage k _ | .freePageTables k | .release k => s.dir k ≠ none := by
  cases a <;> simp only [step, Option.bind_eq_bind, Option.bind_eq_some_iff, Option.pure_def,
    Option.some_inj] at heq ⊢
  all_goals
    obtain ⟨dir, hk, _⟩ := heq
    exact Option.ne_none_iff_exists'.mpr ⟨dir, hk⟩

/-- The reference machine follows every step. -/
theorem Refines.step (h : Refines s r) {a : Action} (heq : s.step a = some s')
    (heffect : Effect s s' a) : ∃ r', r.step a = some r' ∧ Refines s' r' := by
  have hdir := dir_of_step heq
  cases a with
  | fork =>
      obtain ⟨⟨addr, hspaces⟩, hmapping⟩ := heffect
      have hpage : s'.page = s.page := by unfold page; rw [hmapping]
      have hnone : (fun place => s'.page (s.spaces.length, place)) = fun _ => none := by
        rw [hpage]
        funext place
        simp [page, mapping, Memory.mapping, layout, dir_length]
      refine ⟨_, rfl, ?_⟩
      rw [← hnone]
      exact h.append hspaces fun l place _ => by rw [hpage]
  | forkCOW k =>
      obtain ⟨⟨addr, hspaces⟩, hcopies⟩ := heffect
      obtain ⟨dir, hk⟩ := Option.ne_none_iff_exists'.mp hdir
      have hnew : (fun place => s'.page (s.spaces.length, place)) = fun place => s.page (k, place) := by
        funext place
        unfold page
        rw [hcopies.copied place (Set.mem_univ _)]
      refine ⟨⟨r.spaces ++ [some fun place => s.page (k, place)]⟩, ?_, ?_⟩
      · simp only [Eager.step, h.space k, hk, Option.map_some]
      · rw [← hnew]
        refine h.append hspaces fun l place hl => ?_
        unfold page
        rw [hcopies.kept (l, place) fun heq => absurd heq hl]
  | ensure k =>
      have hpage : s'.page = s.page := by unfold page; rw [heffect.2]
      exact h.modify (f := id) heffect.1 hdir (by rw [hpage]; rfl) fun l place _ => by rw [hpage]
  | handleCOW k =>
      exact h.modify (f := id) heffect.1 hdir (by rw [heffect.2]; rfl)
        fun l place _ => by rw [heffect.2]
  | alloc k addr writable =>
      obtain ⟨hspaces, place, frame, hplace, hmapping⟩ := heffect
      obtain ⟨hnew, hold⟩ := update_page (page_update hmapping)
      simp only [Eager.step, hplace, Option.bind_some]
      exact h.modify hspaces hdir hnew hold
  | write k addr offset value mask =>
      obtain ⟨hspaces, place, hplace, hpage⟩ := heffect
      obtain ⟨hnew, hold⟩ := update_page hpage
      simp only [Eager.step, hplace, Option.bind_some]
      exact h.modify hspaces hdir hnew hold
  | freePage k addr =>
      obtain ⟨hspaces, place, hplace, hmapping⟩ := heffect
      obtain ⟨hnew, hold⟩ := update_page (page_update hmapping)
      simp only [Eager.step, hplace, Option.bind_some]
      exact h.modify hspaces hdir hnew hold
  | freePageTables k =>
      obtain ⟨hspaces, hmapping⟩ := heffect
      refine h.modify hspaces hdir ?_ fun l place hl => ?_
      · funext place
        simp [page, hmapping]
      · simp [page, hmapping, hl]
  | release k =>
      obtain ⟨dir, hk⟩ := Option.ne_none_iff_exists'.mp hdir
      refine ⟨⟨r.spaces.set k none⟩, ?_, h.release heffect.1 (by unfold page; rw [heffect.2])⟩
      simp only [Eager.step, h.space k, hk, Option.map_some]

/-- `handleCOW` says yes for the writable pages that the entry does not let the
program write to, if there is a frame for the copy, and no for the others. -/
theorem Good.handleCOW (h : s.Good) {dir : PhysicalAddress} (hk : s.dir k = some dir)
    {addr : VirtualAddress} {place : UserLoc × Fin 1024} (hplace : userPlace addr = some place)
    {word : BitVec 32} (hentry : s.layout.entry (k, place) = some word) :
    (isCOW word = true →
      (∀ owned m, UserDirectory.handleCOW s.memory dir addr = some (owned, m) → owned = true) ∧
      (s.memory.frames.pool.alloc.isSome →
        (UserDirectory.handleCOW s.memory dir addr).isSome)) ∧
    (isCOW word = false → UserDirectory.handleCOW s.memory dir addr = some (false, s.memory)) := by
  obtain ⟨hloc, hpage⟩ := userPlace_eq hplace
  have hentry' : s.layout.entry (k, place.1, tablePageLoc addr) = some word := by
    rw [hpage]
    exact hentry
  constructor
  · intro hcow
    obtain ⟨table, _, hhandle⟩ := UserDirectory.handleCOW_cow h hk hloc hentry' hcow
    rw [hhandle]
    constructor
    · intro owned m heq
      split at heq
      · exact (Prod.mk.inj (Option.some.inj heq)).1.symm
      · simp only [Option.bind_eq_bind, Option.bind_eq_some_iff, Option.pure_def, Option.some_inj,
          Prod.exists, Prod.mk.injEq] at heq
        obtain ⟨_, _, _, rfl, _⟩ := heq
        rfl
    · intro hfree
      obtain ⟨⟨offset, pool⟩, halloc⟩ := Option.isSome_iff_exists.mp hfree
      split
      · rfl
      · simp [Memory.physicalFrameAlloc, PhysicalFrames.physicalFrameAlloc, halloc]
  · intro hcow
    refine UserDirectory.handleCOW_false h hk hloc fun w hw => ?_
    rwa [← Option.some.inj (hentry'.symm.trans hw)]

/-- The page that the runs below share. -/
def sharedAddr : VirtualAddress := 0x400000#32

def sharedPlace : UserLoc × Fin 1024 := (1, 0)

/-- `n` spaces were forked from space 0, which has one page of zeros, and there are
frames for all that will be forked. -/
structure Sharing (n : Nat) (s : System) : Prop where
  good : s.Good
  length : s.spaces.length = n + 1
  live : ∀ k ≤ n, s.dir k ≠ none
  frame : ∃ frame, ∀ k ≤ n, s.mapping (k, sharedPlace) =
    some (frame, { content := fun _ => 0#32, writable := true })
  tables : ∀ i, i ≠ sharedPlace.1 → s.layout.table (0, i) = none
  free : 2 * (PhysicalFrames.maxRef - n) ≤ UserDirectory.free s.memory

theorem userPlace_shared : userPlace sharedAddr = some sharedPlace := by decide

/-- The first space and its page. -/
theorem sharing_zero (kernel : Page) :
    ∃ s₁ s₂ : System, (boot 0x7FC0 le_rfl (fun _ _ => 0#32) kernel).step .fork = some s₁ ∧
      s₁.step (.alloc 0 sharedAddr true) = some s₂ ∧ Sharing 0 s₂ ∧
      (∃ addr, s₁.spaces = [some addr]) ∧ s₁.layout.entry (0, sharedPlace) = none := by
  let s₀ : System := boot 0x7FC0 le_rfl (fun _ _ => 0#32) kernel
  have hboot : s₀.Good := boot_good 0x7FC0 le_rfl (fun _ _ => 0#32) kernel
  have hfree : UserDirectory.free s₀.memory = 32 * 0x7FC0 :=
    PhysicalFrames.freeFrames_load 0x7FC0 le_rfl
  obtain ⟨dir, m₁, hfork, hfree₁⟩ := UserDirectory.fork_defined (by rw [hfree]; decide) kernel
  let s₁ : System := ⟨m₁, kernel, [some dir]⟩
  have hstep₁ : s₀.step .fork = some s₁ := by
    simp only [step, s₀, boot] at hfork ⊢
    rw [hfork]
    rfl
  obtain ⟨hinv₁, _⟩ := UserDirectory.fork_spec hboot (dir_length s₀) hfork
  have hspaces₁ : s₁.spaces = s₀.spaces ++ [some dir] := rfl
  have hlayout₁ : s₀.layout.setDir 0 (some dir) = s₁.layout :=
    eq_layout hinv₁.represents (dir_append hspaces₁).symm
  have hgood₁ : s₁.Good := by
    unfold Good
    rw [← hlayout₁]
    exact hinv₁
  have htables₁ : ∀ i, s₁.layout.table (0, i) = none := fun i => by rw [← hlayout₁]; rfl
  have hnone₁ : s₁.layout.entry (0, sharedPlace) = none :=
    hgood₁.represents.noTable 0 sharedPlace.1 sharedPlace.2 (htables₁ _)
  obtain ⟨frame, m₂, halloc, hfree₂⟩ :=
    UserDirectory.alloc_defined (m := m₁) dir (by omega) sharedAddr true
  obtain ⟨hloc, hpage⟩ := userPlace_eq userPlace_shared
  obtain ⟨L, hinv₂, hdir₂, htables₂, hmapping₂⟩ := UserDirectory.alloc_spec hgood₁
    (show s₁.layout.dir 0 = some dir from rfl) hloc (by rw [hpage]; exact hnone₁) halloc
  have hlayout₂ := layout_keep hinv₂ hdir₂
  obtain ⟨hgood₂, hnew⟩ := good_keep hinv₂ hdir₂
  refine ⟨s₁, { s₁ with memory := m₂ }, hstep₁, ?_, ⟨hgood₂, rfl, ?_, ⟨frame, ?_⟩, ?_, ?_⟩,
    ⟨dir, rfl⟩, hnone₁⟩
  · have hk : s₁.dir 0 = some dir := rfl
    simp only [step, hk, Option.bind_eq_bind, Option.bind_some, Option.pure_def]
    rw [show s₁.memory = m₁ from rfl, halloc]
    rfl
  · intro k hk
    obtain rfl : k = 0 := Nat.le_zero.mp hk
    exact Option.ne_none_iff_exists'.mpr ⟨dir, rfl⟩
  · intro k hk
    obtain rfl : k = 0 := Nat.le_zero.mp hk
    rw [hnew, hmapping₂, hpage]
    exact Function.update_self ..
  · intro i hi
    rw [hlayout₂, htables₂ (0, i) fun heq => hi (Prod.mk.inj heq).2]
    exact htables₁ i
  · show 2 * (PhysicalFrames.maxRef - 0) ≤ UserDirectory.free m₂
    have hbound : PhysicalFrames.maxRef = 65536 := rfl
    omega

/-- A list without repetition that has only one value. -/
theorem length_le_one {α : Type} {xs : List α} (hnodup : xs.Nodup) (a : α)
    (hall : ∀ x ∈ xs, x = a) : xs.length ≤ 1 := by
  match xs, hnodup, hall with
  | [], _, _ => exact Nat.zero_le 1
  | [_], _, _ => exact le_rfl
  | x :: y :: rest, hnodup, hall =>
      have hx := hall x (by simp)
      have hy := hall y (by simp)
      simp [hx, hy] at hnodup

/-- One more space is forked from space 0. -/
theorem Sharing.step {n : Nat} (h : Sharing n s) (hn : n < PhysicalFrames.maxRef) :
    ∃ s', s.step (.forkCOW 0) = some s' ∧ Sharing (n + 1) s' := by
  obtain ⟨dir, hdir⟩ := Option.ne_none_iff_exists'.mp (h.live 0 (Nat.zero_le n))
  have htables : ((List.finRange 768).filter fun i => (s.layout.table (0, i)).isSome).length ≤ 1 := by
    refine length_le_one ((List.nodup_finRange 768).filter _) sharedPlace.1 fun i hi => ?_
    by_contra hne
    rw [List.mem_filter, h.tables i hne] at hi
    exact absurd hi.2 (by simp)
  have hfree := h.free
  obtain ⟨newDir, m', hfork, hcost⟩ :=
    UserDirectory.forkCOW_defined h.good hdir (dir_length s) (by omega)
  obtain ⟨L, hinv, hdir', htable, hcopies⟩ :=
    UserDirectory.forkCOW_spec h.good hdir (dir_length s) hfork
  let s' : System := { s with memory := m', spaces := s.spaces ++ [some newDir] }
  have hspaces : s'.spaces = s.spaces ++ [some newDir] := rfl
  have hnewdir := dir_append hspaces
  have hLdir : L.dir = s'.dir := hdir'.trans hnewdir.symm
  have hlayout : L = s'.layout := eq_layout (s := s') hinv.represents hLdir
  obtain ⟨hgood, hmapping⟩ := good_of (s := s') hinv hLdir
  obtain ⟨frame, hframe⟩ := h.frame
  have hlast : ∀ k ≤ n + 1, k ≠ s.spaces.length → k ≤ n := by
    intro k hk hne
    rw [h.length] at hne
    omega
  refine ⟨s', ?_, hgood, ?_, ?_, ⟨frame, ?_⟩, ?_, ?_⟩
  · simp only [System.step, hdir, Option.bind_eq_bind, Option.bind_some, hfork, Option.pure_def, s']
  · rw [hspaces, List.length_append, h.length, List.length_singleton]
  · intro k hk
    rw [hnewdir]
    by_cases hlen : k = s.spaces.length
    · rw [hlen, Function.update_self]
      exact Option.some_ne_none _
    · rw [Function.update_of_ne hlen]
      exact h.live k (hlast k hk hlen)
  · intro k hk
    rw [hmapping]
    by_cases hlen : k = s.spaces.length
    · rw [hlen]
      exact (hcopies.copied sharedPlace (Set.mem_univ _)).trans (hframe 0 (Nat.zero_le n))
    · exact (hcopies.kept (k, sharedPlace) fun heq => absurd heq hlen).trans
        (hframe k (hlast k hk hlen))
  · intro i hi
    rw [← hlayout, htable (0, i) (by rw [h.length]; exact Nat.zero_ne_add_one n)]
    exact h.tables i hi
  · show _ ≤ UserDirectory.free m'
    omega

/-- `n` forks of a space with one page. -/
def forks (n : Nat) : List Action :=
  [.fork, .alloc 0 sharedAddr true] ++ List.replicate n (.forkCOW 0)

/-- The forks can be done, and the reference machine follows. -/
theorem forks_run {n limit : Nat} (hn : n ≤ PhysicalFrames.maxRef) (hlimit : n < limit)
    (kernel : Page) :
    ∃ s r, Run System.step (Allowed limit) (boot 0x7FC0 le_rfl (fun _ _ => 0#32) kernel)
      (forks n) s ∧ Sharing n s ∧ (forks n).foldlM Eager.step Eager.init = some r ∧ Refines s r := by
  induction n with
  | zero =>
      obtain ⟨s₁, s₂, hstep₁, hstep₂, hsharing, ⟨addr, hspaces⟩, hnone⟩ := sharing_zero kernel
      have hboot := boot_good 0x7FC0 le_rfl (fun _ _ => 0#32) kernel
      obtain ⟨hgood₁, heffect₁⟩ := fork_spec hboot hstep₁
      have hallowed : ∃ place, userPlace sharedAddr = some place ∧
          s₁.layout.entry (0, place) = none := ⟨sharedPlace, userPlace_shared, hnone⟩
      obtain ⟨_, heffect₂⟩ := alloc_spec hgood₁ hallowed hstep₂
      have hinit : Refines (boot 0x7FC0 le_rfl (fun _ _ => 0#32) kernel) Eager.init :=
        ⟨rfl, fun k => by simp [Eager.space, Eager.init, System.dir, boot]⟩
      obtain ⟨r₁, hr₁, hrefines₁⟩ := hinit.step hstep₁ heffect₁
      obtain ⟨r₂, hr₂, hrefines₂⟩ := hrefines₁.step hstep₂ heffect₂
      refine ⟨s₂, r₂, ?_, hsharing, by simp [forks, hr₁, hr₂], hrefines₂⟩
      have hfork : Allowed limit (boot 0x7FC0 le_rfl (fun _ _ => 0#32) kernel) .fork := by
        unfold Allowed
        rw [show (boot 0x7FC0 le_rfl (fun _ _ => 0#32) kernel).live = [] by simp [live, boot]]
        exact hlimit
      have halloc : Allowed limit s₁ (.alloc 0 sharedAddr true) := hallowed
      exact Run.snoc (Run.snoc (Run.nil _) hfork hstep₁) halloc hstep₂
  | succ n ih =>
      obtain ⟨s, r, hrun, hsharing, hr, hrefines⟩ := ih (by omega) (by omega)
      obtain ⟨s', hstep, hsharing'⟩ := hsharing.step (by omega)
      obtain ⟨_, heffect⟩ := forkCOW_spec hsharing.good hstep
      obtain ⟨r', hr', hrefines'⟩ := hrefines.step hstep heffect
      have hacts : forks (n + 1) = forks n ++ [.forkCOW 0] := by
        rw [forks, List.replicate_succ', ← List.append_assoc, forks]
      have hlive : s.live.length < limit := by
        have hle : s.live.length ≤ s.spaces.length := by
          rw [System.live]
          exact (List.length_filter_le _ _).trans (List.length_range ..).le
        rw [hsharing.length] at hle
        omega
      rw [hacts]
      exact ⟨s', r', Run.snoc hrun hlive hstep, hsharing', by simp [List.foldlM_append, hr, hr'],
        hrefines'⟩

/-- In every run with at most `2 ^ 16` live spaces, the reference machine can do the
same actions, and every space reads the same bytes at the same pages. There
`handleCOW` says yes for every page that is writable in the reference machine and
not yet in the page table, and no for every page that was made read-only. -/
theorem run_refines {size : Nat} {hsize : size ≤ 0x7FC0} {page : PhysicalAddress → Page}
    {kernel : Page} {acts : List Action}
    (hrun : Run step (Allowed PhysicalFrames.maxRef) (boot size hsize page kernel) acts s) :
    ∃ r, acts.foldlM Eager.step Eager.init = some r ∧ Refines s r ∧
      ∀ k dir addr place word, s.dir k = some dir → userPlace addr = some place →
        s.layout.entry (k, place) = some word →
        ∃ pages userPage, r.space k = some pages ∧ pages place = some userPage ∧
          (userPage.writable = true → isReadWrite word = false →
            (∀ owned m, UserDirectory.handleCOW s.memory dir addr = some (owned, m) →
              owned = true) ∧
            (s.memory.frames.pool.alloc.isSome →
              (UserDirectory.handleCOW s.memory dir addr).isSome)) ∧
          (userPage.writable = false →
            UserDirectory.handleCOW s.memory dir addr = some (false, s.memory)) := by
  have hgood := (run_good le_rfl hrun).1
  obtain ⟨r, hfold, hrefines⟩ : ∃ r, acts.foldlM Eager.step Eager.init = some r ∧ Refines s r := by
    generalize hboot : boot size hsize page kernel = s₀ at hrun
    induction hrun with
    | nil =>
        subst hboot
        exact ⟨Eager.init, rfl, rfl, fun k => by simp [Eager.space, Eager.init, System.dir, boot]⟩
    | snoc hprev hallowed hnext ih =>
        subst hboot
        obtain ⟨hbefore, hlive⟩ := run_good le_rfl hprev
        obtain ⟨r, hr, hrefines⟩ := ih hbefore
        obtain ⟨_, heffect⟩ := step_spec hbefore le_rfl hlive hallowed hnext
        obtain ⟨r', hstep, hrefines'⟩ := hrefines.step hnext heffect
        exact ⟨r', by simp [List.foldlM_append, hr, hstep], hrefines'⟩
  refine ⟨r, hfold, hrefines, fun k dir addr place word hk hplace hentry => ?_⟩
  obtain ⟨hyes, hno⟩ := hgood.handleCOW hk hplace hentry
  refine ⟨fun place => s.page (k, place), s.memory.userPage word, ?_, page_eq hentry, ?_, ?_⟩
  · rw [hrefines.space k, hk]
    rfl
  · intro hwritable hrw
    exact hyes (by simpa [Memory.userPage, hrw] using hwritable)
  · intro hreadonly
    exact hno (Bool.or_eq_false_iff.mp hreadonly).2

/-- Two spaces share a page. -/
theorem run_refines_one_fork :
    ∃ s r, Run step (Allowed PhysicalFrames.maxRef)
        (boot 0x7FC0 le_rfl (fun _ _ => 0#32) fun _ => 0#32) (forks 1) s ∧
      s.mapping (0, sharedPlace) = s.mapping (1, sharedPlace) ∧
      s.mapping (0, sharedPlace) ≠ none ∧
      (forks 1).foldlM Eager.step Eager.init = some r ∧ Refines s r := by
  obtain ⟨s, _, hrun, hsharing, _⟩ :=
    forks_run (n := 1) (by decide) (show 1 < PhysicalFrames.maxRef by decide) fun _ => 0#32
  obtain ⟨frame, hframe⟩ := hsharing.frame
  obtain ⟨r, hr, hrefines, _⟩ := run_refines hrun
  exact ⟨s, r, hrun, (hframe 0 (by decide)).trans (hframe 1 le_rfl).symm,
    by rw [hframe 0 (by decide)]; exact Option.some_ne_none _, hr, hrefines⟩

/-- With `2 ^ 16 + 1` spaces that share a page, its counter is one. -/
theorem Sharing.getRef (h : Sharing PhysicalFrames.maxRef s) {frame : PhysicalAddress}
    (hframe : ∀ k ≤ PhysicalFrames.maxRef, s.layout.slots (.page (k, sharedPlace)) = some frame) :
    s.memory.frames.physicalFrameGetRef frame = 1#16 := by
  obtain ⟨count, htracks, hexact⟩ := h.good.counted
  have hupper : count frame ≤ PhysicalFrames.maxRef + 1 := by
    refine (hexact.count_le Slot.space s.live.toFinset (fun x hx => List.mem_toFinset.mpr
      (mem_live.mpr (h.good.represents.dir_of_slot hx))) fun x y hx hy hspace =>
        (h.good.shared x y frame hx hy).eq_of_space hspace).trans ?_
    refine (List.toFinset_card_le _).trans ?_
    rw [System.live, ← h.length]
    exact (List.length_filter_le _ _).trans (List.length_range ..).le
  have hlower : PhysicalFrames.maxRef + 1 ≤ count frame := by
    have hinj : Set.InjOn (fun k => Slot.page (k, sharedPlace))
        (Finset.range (PhysicalFrames.maxRef + 1) : Set Nat) := by
      intro k _ l _ heq
      exact (Prod.mk.inj (Slot.page.inj heq)).1
    have hsub : Set.image (fun k => Slot.page (k, sharedPlace))
        (Finset.range (PhysicalFrames.maxRef + 1) : Set Nat) ⊆ holders s.layout.slots frame := by
      rintro _ ⟨k, hk, rfl⟩
      exact hframe k (Nat.le_of_lt_succ (Finset.mem_range.mp hk))
    have hle := Set.encard_le_encard hsub
    rw [hinj.encard_image, Set.encard_coe_eq_coe_finsetCard, Finset.card_range,
      hexact frame] at hle
    exact_mod_cast hle
  have hcount : count frame = PhysicalFrames.maxRef + 1 := Nat.le_antisymm hupper hlower
  rw [htracks.getRef (by rw [hcount]; exact Nat.succ_ne_zero _), hcount]
  rfl

/-- A write to the page then goes to the frame of all the spaces. -/
theorem Sharing.write (h : Sharing PhysicalFrames.maxRef s) :
    ∃ s', s.step (.write 0 sharedAddr 0 1#32 1#32) = some s' ∧ s'.spaces = s.spaces ∧
      s'.page (1, sharedPlace) ≠ s.page (1, sharedPlace) := by
  obtain ⟨dir, hdir⟩ := Option.ne_none_iff_exists'.mp (h.live 0 (Nat.zero_le _))
  obtain ⟨hloc, hpage⟩ := userPlace_eq userPlace_shared
  obtain ⟨frame, hframe⟩ := h.frame
  have hword : ∀ k ≤ PhysicalFrames.maxRef, ∃ w, s.layout.entry (k, sharedPlace) = some w ∧
      entryAt w = frame ∧ (isReadWrite w || isCOW w) = true ∧ s.memory.page frame = fun _ => 0#32 := by
    intro k hk
    obtain ⟨w, hw, heq⟩ := Option.map_eq_some_iff.mp (hframe k hk)
    obtain ⟨hat, huser⟩ := Prod.mk.inj heq
    obtain ⟨hcontent, hwritable⟩ := UserPage.mk.inj huser
    exact ⟨w, hw, hat, hwritable, hat ▸ hcontent⟩
  obtain ⟨w, hentry, hat, hwritable, hzero⟩ := hword 0 (Nat.zero_le _)
  obtain ⟨w₁, hentry₁, hat₁, _, _⟩ := hword 1 (by decide)
  have hrw : isReadWrite w = false := by
    by_contra hne
    have hsame := h.good.exclusive _ _ w w₁ hentry hentry₁ (by simpa using hne)
      (hat₁.trans hat.symm)
    cases hsame
  have hcow : isCOW w = true := by simpa [hrw] using hwritable
  have hslots : ∀ k ≤ PhysicalFrames.maxRef,
      s.layout.slots (.page (k, sharedPlace)) = some frame := by
    intro k hk
    obtain ⟨w', hw', hat', _⟩ := hword k hk
    simp [Layout.slots, hw', hat']
  obtain ⟨table, htable, hhandle⟩ := UserDirectory.handleCOW_cow h.good hdir hloc
    (show s.layout.entry (0, sharedPlace.1, tablePageLoc sharedAddr) = some w by
      rw [hpage]; exact hentry) hcow
  rw [hat, if_pos (h.getRef hslots), hpage] at hhandle
  -- the fast path: the entry of space 0 may write to the shared frame
  let owned := ownedWord frame w
  let m₁ := s.memory.setWord table sharedPlace.2 owned
  have haligned : PageAligned frame := hat ▸ entryAt_aligned w
  have hrep₁ : m₁.Represents (s.layout.setEntry (0, sharedPlace) (presentWord owned)) :=
    h.good.separate.represents_setEntry htable sharedPlace.2 owned
  have hpresent : presentWord owned = some owned :=
    presentWord_of_present ((ownedWord_flags haligned w).1.trans (h.good.present htable hentry))
  have hlayout₁ := eq_layout (s := { s with memory := m₁ }) hrep₁ rfl
  have hlookup : lookup s.memory dir sharedAddr = some w := by
    rw [← hentry]
    simp [lookup, layout, hdir, hloc, hpage]
  have hlookup₁ : lookup m₁ dir sharedAddr = some owned := by
    have hnew : ({ s with memory := m₁ } : System).layout.entry (0, sharedPlace) = some owned := by
      rw [← hlayout₁, hpresent]
      simp only [Layout.setEntry, Function.update_self]
    rw [← hnew]
    simp [lookup, layout, show ({ s with memory := m₁ } : System).dir 0 = some dir from hdir,
      hloc, hpage]
  have hframe₁ : m₁.page frame = fun _ => 0#32 := by
    rw [Memory.setWord_of_ne, hzero]
    exact hat ▸ (h.good.separate.table_ne_page htable hentry).symm
  let m₂ := store m₁ owned 0 1#32 1#32
  have hat₂ : entryAt owned = frame := entryAt_ownedWord haligned
  refine ⟨{ s with memory := m₂ }, ?_, rfl, ?_⟩
  · simp only [System.step, hdir, Option.bind_eq_bind, Option.bind_some, System.write, hlookup, hrw,
      hhandle, Bool.false_eq_true, if_false, if_true, Option.pure_def]
    rw [show s.memory.setWord table sharedPlace.2 (ownedWord frame w) = m₁ from rfl, hlookup₁]
    rfl
  · have hrep₂ : m₂.Represents (s.layout.setEntry (0, sharedPlace) (presentWord owned)) :=
      hrep₁.setPage (fun k hk => h.good.separate.dir_ne_page hk hentry (hat₂.trans hat.symm))
        (fun p hp => h.good.separate.table_ne_page hp hentry (hat₂.trans hat.symm)) _
    have hother : ((1, sharedPlace) : Spot) ≠ (0, sharedPlace) := by decide
    have hentry₂ : ({ s with memory := m₂ } : System).layout.entry (1, sharedPlace) = some w₁ := by
      rw [← eq_layout (s := { s with memory := m₂ }) hrep₂ rfl]
      simpa only [Layout.setEntry, Function.update_of_ne hother] using hentry₁
    rw [page_eq hentry₁, page_eq hentry₂]
    intro heq
    have hcontent := congrArg UserPage.content (Option.some.inj heq)
    have hzero' := congrFun hcontent 0
    simp only [Memory.userPage, hat₁, hzero, m₂, store, hat₂, Memory.setPage_self, hframe₁,
      Page.store, Function.update_self] at hzero'
    exact absurd hzero' (by decide)

/-- A page is shared by `2 ^ 16 + 1` spaces, and space 0 writes to it: the other
spaces see the write. -/
theorem wrapped_counter_leaks_write :
    ∃ acts s r, Run step (Allowed (PhysicalFrames.maxRef + 1))
        (boot 0x7FC0 le_rfl (fun _ _ => 0#32) fun _ => 0#32) acts s ∧
      acts.foldlM Eager.step Eager.init = some r ∧ ¬ Refines s r := by
  obtain ⟨s, r, hrun, hsharing, hr, hrefines⟩ :=
    forks_run le_rfl (Nat.lt_succ_self PhysicalFrames.maxRef) fun _ => 0#32
  obtain ⟨s', hstep, hspaces, hleak⟩ := hsharing.write
  obtain ⟨dir₀, hdir₀⟩ := Option.ne_none_iff_exists'.mp (hsharing.live 0 (Nat.zero_le _))
  obtain ⟨dir₁, hdir₁⟩ := Option.ne_none_iff_exists'.mp (hsharing.live 1 (by decide))
  have hallowed : Allowed (PhysicalFrames.maxRef + 1) s (.write 0 sharedAddr 0 1#32 1#32) := by
    show userPlace sharedAddr ≠ none
    rw [userPlace_shared]
    exact Option.some_ne_none _
  obtain ⟨r', hr', hspace⟩ : ∃ r', r.step (.write 0 sharedAddr 0 1#32 1#32) = some r' ∧
      r'.space 1 = r.space 1 := by
    simp only [Eager.step, userPlace_shared, Option.bind_some, Eager.modify, hrefines.space 0,
      hdir₀, Option.map_some]
    exact ⟨_, rfl, by simp [Eager.space]⟩
  refine ⟨forks PhysicalFrames.maxRef ++ [.write 0 sharedAddr 0 1#32 1#32], s', r',
    Run.snoc hrun hallowed hstep, by simp [List.foldlM_append, hr, hr'], fun hrefines' => ?_⟩
  have hsame := hrefines'.space 1
  rw [hspace, hrefines.space 1, dir_congr hspaces, hdir₁] at hsame
  exact hleak (congrFun (Option.some.inj hsame) sharedPlace).symm

end System

end Nyan.Paging
