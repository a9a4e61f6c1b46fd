import Nyan.Fs.DentryCache

/-!
What a path leads to, as a relation on places: dentries without their numbers.
From a place, a name leads to what the cache holds for it or else to what the
directory holds; a symbolic link is followed from the place it stands in, as long
as links are not nested too deeply. `resolve` finds exactly what a path leads to,
whether or not the cache still agrees with the directories.
-/

namespace Nyan.Fs

open Library

theorem DEntry.erase_erase (d : DEntry) : d.erase.erase = d.erase := by
  induction d with
  | root => rfl
  | child id parent node name ih => simp [DEntry.erase, ih]

theorem DEntry.id_child (id : Nat) (parent : DEntry) (node : Option VNodeId) (name : Name) :
    (DEntry.child id parent node name).id = id :=
  rfl

theorem DEntry.erase_up (d : DEntry) : d.up.erase = d.erase.up := by
  cases d <;> rfl

/-- Where a path starts. -/
def Path.origin (path : Path) (start : Option DEntry) : Option DEntry :=
  if path.relative then start else some .root

namespace FileSystem

variable {s s' : FileSystem} {d d' : DEntry} {name : Name}

@[simp]
theorem effectiveVNode_erase (d : DEntry) : s.effectiveVNode d.erase = s.effectiveVNode d :=
  effectiveVNode_eq ⟨rfl, rfl⟩ d.erase_erase.symm

@[simp]
theorem lookupNode_erase (d : DEntry) (name : Name) :
    s.lookupNode d.erase name = s.lookupNode d name :=
  lookupNode_eq ⟨rfl, rfl⟩ d.erase_erase.symm name

/-- The cache is an index of dentries: each stands under the number of its parent
and its own name, parents have a node, and numbers are unique. Unlike `CacheOk`,
nothing is said about the directories. -/
structure CacheShape (s : FileSystem) : Prop where
  entry : ∀ i name d, s.cache (i, name) = some d → ∃ id parent next node,
    d = .child id parent next name ∧ parent.id = i ∧ s.Known parent ∧
    s.effectiveVNode parent = some node
  unique : ∀ d d', s.Known d → s.Known d' → d.id = d'.id → d = d'
  bound : ∀ d, s.Known d → d.id ≤ s.counter

/-- What a name shows at a place: the node in the cache, or what the directory
answers. -/
inductive Sees (s : FileSystem) (place : DEntry) (name : Name) :
    Except Errno (Option VNodeId) → Prop where
  | cached {d c : DEntry} (known : s.Known d) (here : d.erase = place)
      (hit : s.cache (d.id, name) = some c) : Sees s place name (.ok (s.effectiveVNode c))
  | directory {found : Except Errno (Option VNodeId)}
      (miss : ∀ d, s.Known d → d.erase = place → s.cache (d.id, name) = none)
      (held : s.lookupNode place name = some found) : Sees s place name found

/-- The portions of a path lead from one place to another, with at most `n`
symbolic links nested in each other. -/
inductive Leads (s : FileSystem) (tty : Except Errno Name) :
    Nat → DEntry → List Name → DEntry → Prop where
  | here {n : Nat} {place : DEntry} : Leads s tty n place [] place
  | up {n : Nat} {place goal : DEntry} {rest : List Name}
      (next : Leads s tty n place.up rest goal) : Leads s tty n place (['.', '.'] :: rest) goal
  | entry {n : Nat} {place goal : DEntry} {name : Name} {rest : List Name} {node : VNodeId}
      (named : name ≠ ['.', '.']) (sees : s.Sees place name (.ok (some node)))
      (plain : (s.nodes node).isSymlink = false)
      (next : Leads s tty n (.child 0 place (some node) name) rest goal) :
      Leads s tty n place (name :: rest) goal
  | link {n : Nat} {place origin middle goal : DEntry} {name target : Name} {rest : List Name}
      {node : VNodeId} (named : name ≠ ['.', '.']) (sees : s.Sees place name (.ok (some node)))
      (link : (s.nodes node).isSymlink = true) (read : (s.nodes node).readlink tty = .ok target)
      (valid : (Path.ofName target).invalid = false)
      (start : (Path.ofName target).origin (some place) = some origin)
      (inner : Leads s tty n origin (Path.ofName target).portions middle)
      (next : Leads s tty (n + 1) middle rest goal) : Leads s tty (n + 1) place (name :: rest) goal

/-- A path leads to a place. -/
def Denotes (s : FileSystem) (tty : Except Errno Name) (n : Nat) (path : Path)
    (start : Option DEntry) (goal : DEntry) : Prop :=
  path.invalid = false ∧ ∃ origin, path.origin start = some origin ∧
    s.Leads tty n origin path.portions goal

theorem CacheShape.known_up (h : s.CacheShape) (hd : s.Known d) : s.Known d.up := by
  rcases hd with rfl | ⟨⟨i, name⟩, hcache⟩
  · exact Or.inl rfl
  · obtain ⟨id, parent, next, node, rfl, _, hparent, _⟩ := h.entry i name d hcache
    exact hparent

/-- A dentry in use below another one is what the cache holds there. -/
theorem CacheShape.cache_of_known (h : s.CacheShape) {id : Nat} {parent : DEntry}
    {next : Option VNodeId} (hd : s.Known (.child id parent next name)) :
    s.Known parent ∧ s.cache (parent.id, name) = some (.child id parent next name) := by
  rcases hd with hroot | ⟨⟨i, key⟩, hcache⟩
  · cases hroot
  · obtain ⟨_, _, _, _, hchild, rfl, hparent, _⟩ := h.entry i key _ hcache
    cases hchild
    exact ⟨hparent, hcache⟩

/-- Dentries in use at one place are the same. -/
theorem CacheShape.erase_injective (h : s.CacheShape) (hd : s.Known d) (hd' : s.Known d')
    (herase : d.erase = d'.erase) : d = d' := by
  induction d generalizing d' with
  | root =>
      cases d' with
      | root => rfl
      | child => cases herase
  | child id parent next name ih =>
      cases d' with
      | root => cases herase
      | child id' parent' next' name' =>
          simp only [DEntry.erase, DEntry.child.injEq, true_and] at herase
          obtain ⟨hparents, _, rfl⟩ := herase
          obtain ⟨hparent, hcache⟩ := h.cache_of_known hd
          obtain ⟨hparent', hcache'⟩ := h.cache_of_known hd'
          obtain rfl := ih hparent hparent' hparents
          exact Option.some.inj (hcache.symm.trans hcache')

/-- A hit in the cache is for the dentry that was asked about. -/
theorem CacheShape.hit (h : s.CacheShape) (hd : s.Known d) {c : DEntry}
    (hcache : s.cache (d.id, name) = some c) :
    ∃ id, c = .child id d (s.effectiveVNode c) name := by
  obtain ⟨id, parent, next, _, rfl, hid, hparent, _⟩ := h.entry d.id name c hcache
  obtain rfl := h.unique parent d hparent hd hid
  exact ⟨id, rfl⟩

theorem CacheShape.sees_hit (h : s.CacheShape) (hd : s.Known d) {c : DEntry}
    (hcache : s.cache (d.id, name) = some c) {found : Except Errno (Option VNodeId)} :
    s.Sees d.erase name found ↔ found = .ok (s.effectiveVNode c) := by
  constructor
  · intro hsees
    cases hsees with
    | cached hknown hhere hhit =>
        obtain rfl := h.erase_injective hknown hd hhere
        rw [Option.some.inj (hcache.symm.trans hhit)]
    | directory hmiss =>
        rw [hmiss d hd rfl] at hcache
        cases hcache
  · rintro rfl
    exact .cached hd rfl hcache

theorem CacheShape.sees_miss (h : s.CacheShape) (hd : s.Known d)
    (hcache : s.cache (d.id, name) = none) {found : Except Errno (Option VNodeId)} :
    s.Sees d.erase name found ↔ s.lookupNode d name = some found := by
  constructor
  · intro hsees
    cases hsees with
    | cached hknown hhere hhit =>
        obtain rfl := h.erase_injective hknown hd hhere
        rw [hhit] at hcache
        cases hcache
    | directory _ hheld => rwa [lookupNode_erase] at hheld
  · intro hlookup
    refine .directory ?_ (by rwa [lookupNode_erase])
    intro e he herase
    rwa [h.erase_injective he hd herase]

/-- The state after a lookup that found `next` and put it in the cache. -/
def remember (s : FileSystem) (d : DEntry) (next : Option VNodeId) (name : Name) : FileSystem :=
  { s with
    cache := Function.update s.cache (d.id, name) (some (.child (s.counter + 1) d next name))
    counter := s.counter + 1 }

theorem known_remember {next : Option VNodeId} (hcache : s.cache (d.id, name) = none)
    {e : DEntry} : (s.remember d next name).Known e ↔
      s.Known e ∨ e = .child (s.counter + 1) d next name := by
  constructor
  · rintro (rfl | ⟨key, hkey⟩)
    · exact Or.inl (Or.inl rfl)
    · by_cases hne : key = (d.id, name)
      · subst hne
        exact Or.inr (by simpa [remember] using hkey.symm)
      · exact Or.inl (Or.inr ⟨key, by simpa [remember, hne] using hkey⟩)
  · rintro ((rfl | ⟨key, hkey⟩) | rfl)
    · exact Or.inl rfl
    · refine Or.inr ⟨key, ?_⟩
      have hne : key ≠ (d.id, name) := by
        rintro rfl
        simp [hcache] at hkey
      simpa [remember, hne] using hkey
    · exact Or.inr ⟨(d.id, name), by simp [remember]⟩

theorem CacheShape.remember (h : s.CacheShape) (hd : s.Known d) {next : Option VNodeId}
    {node : VNodeId} (hnode : s.effectiveVNode d = some node)
    (hcache : s.cache (d.id, name) = none) : (s.remember d next name).CacheShape := by
  have hknown : ∀ e, (s.remember d next name).Known e ↔ _ := fun e => known_remember hcache
  refine ⟨?_, ?_, ?_⟩
  · intro i key e he
    by_cases hne : (i, key) = (d.id, name)
    · obtain ⟨rfl, rfl⟩ := Prod.mk.inj hne
      obtain rfl : DEntry.child (s.counter + 1) d next key = e := by
        simpa [FileSystem.remember] using he
      exact ⟨_, d, next, node, rfl, rfl, (hknown d).mpr (Or.inl hd), by cases d <;> exact hnode⟩
    · have he' : s.cache (i, key) = some e := by simpa [FileSystem.remember, hne] using he
      obtain ⟨id, parent, next', node', rfl, rfl, hparent, hnode'⟩ := h.entry i key e he'
      exact ⟨id, parent, next', node', rfl, rfl, (hknown parent).mpr (Or.inl hparent),
        by cases parent <;> exact hnode'⟩
  · intro e e' he he' hid
    rcases (hknown e).mp he with he | rfl
    · rcases (hknown e').mp he' with he' | rfl
      · exact h.unique e e' he he' hid
      · have hbound := h.bound e he
        rw [DEntry.id_child] at hid
        omega
    · rcases (hknown e').mp he' with he' | rfl
      · have hbound := h.bound e' he'
        rw [DEntry.id_child] at hid
        omega
      · rfl
  · intro e he
    rcases (hknown e).mp he with he | rfl
    · exact Nat.le_succ_of_le (h.bound e he)
    · exact Nat.le_refl _

/-- What the cache of the larger state holds was there before, or is the new
entry. -/
theorem CacheShape.remember_hit (h : s.CacheShape) (hd : s.Known d) {next : Option VNodeId}
    (hcache : s.cache (d.id, name) = none) {e c : DEntry} {key : Name}
    (he : (s.remember d next name).Known e)
    (hhit : (s.remember d next name).cache (e.id, key) = some c) :
    s.Known e ∧ (s.cache (e.id, key) = some c ∨
      e = d ∧ key = name ∧ c = .child (s.counter + 1) d next name) := by
  by_cases hne : (e.id, key) = (d.id, name)
  · obtain ⟨hid, rfl⟩ := Prod.mk.inj hne
    have hc : c = .child (s.counter + 1) d next key := by
      simpa [FileSystem.remember, hid] using hhit.symm
    rcases (known_remember hcache).mp he with he | rfl
    · exact ⟨he, Or.inr ⟨h.unique e d he hd hid, rfl, hc⟩⟩
    · have hbound := h.bound d hd
      rw [DEntry.id_child] at hid
      omega
  · have hhit' : s.cache (e.id, key) = some c := by
      simpa [FileSystem.remember, hne] using hhit
    rcases (known_remember hcache).mp he with he | rfl
    · exact ⟨he, Or.inl hhit'⟩
    · obtain ⟨_, parent, _, _, _, hid, hparent, _⟩ := h.entry _ _ _ hhit'
      have hbound := h.bound parent hparent
      rw [DEntry.id_child] at hid
      omega

/-- Remembering what a lookup found shows nothing new. -/
theorem CacheShape.sees_remember (h : s.CacheShape) (hd : s.Known d) {next : Option VNodeId}
    (hlookup : s.lookupNode d name = some (.ok next)) (hcache : s.cache (d.id, name) = none)
    {place : DEntry} {key : Name} {found : Except Errno (Option VNodeId)} :
    (s.remember d next name).Sees place key found ↔ s.Sees place key found := by
  have hsame : s.SameNodes (s.remember d next name) := ⟨rfl, rfl⟩
  have hold : ∀ {key c}, s.cache key = some c → (s.remember d next name).cache key = some c := by
    intro key c hkey
    have hne : key ≠ (d.id, name) := by
      rintro rfl
      simp [hcache] at hkey
    simpa [FileSystem.remember, hne] using hkey
  constructor
  · intro hsees
    cases hsees with
    | @cached e c hknown hhere hhit =>
        subst hhere
        rw [effectiveVNode_eq hsame rfl]
        obtain ⟨he, hhit | ⟨rfl, rfl, rfl⟩⟩ := h.remember_hit hd hcache hknown hhit
        · exact .cached he rfl hhit
        · exact (h.sees_miss he hcache).mpr hlookup
    | directory hmiss hheld =>
        refine .directory ?_ (by rwa [lookupNode_eq hsame rfl] at hheld)
        intro e he hhere
        have hnone := hmiss e ((known_remember hcache).mpr (Or.inl he)) hhere
        cases hhit : s.cache (e.id, key) with
        | none => rfl
        | some c => rw [hold hhit] at hnone; cases hnone
  · intro hsees
    have hshown : ∀ {e}, s.Known e → e.erase = place →
        ∀ {c}, (s.remember d next name).cache (e.id, key) = some c →
        found = .ok ((s.remember d next name).effectiveVNode c) := by
      rintro e he rfl c hhit
      have he' : (s.remember d next name).Known e := (known_remember hcache).mpr (Or.inl he)
      rw [effectiveVNode_eq hsame rfl]
      obtain ⟨_, hhit | ⟨rfl, rfl, rfl⟩⟩ := h.remember_hit hd hcache he' hhit
      · exact (h.sees_hit he hhit).mp hsees
      · exact Option.some.inj (((h.sees_miss he hcache).mp hsees).symm.trans hlookup)
    by_cases hcached : ∃ e, s.Known e ∧ e.erase = place ∧
        (s.remember d next name).cache (e.id, key) ≠ none
    · obtain ⟨e, he, hhere, hsome⟩ := hcached
      obtain ⟨c, hhit⟩ := Option.ne_none_iff_exists'.mp hsome
      rw [hshown he hhere hhit]
      exact .cached ((known_remember hcache).mpr (Or.inl he)) hhere hhit
    · cases hsees with
      | cached hknown hhere hhit =>
          exact absurd ⟨_, hknown, hhere, by rw [hold hhit]; exact Option.some_ne_none _⟩ hcached
      | directory _ hheld =>
          refine .directory ?_ (by rwa [lookupNode_eq hsame rfl])
          intro e he hhere
          cases hhit : (s.remember d next name).cache (e.id, key) with
          | none => rfl
          | some c =>
              have hknown := (h.remember_hit hd hcache he hhit).1
              exact absurd ⟨e, hknown, hhere, by simp [hhit]⟩ hcached

/-- Lookups change the cache only, and nothing that a name shows. -/
structure Extends (s s' : FileSystem) : Prop where
  nodes : s'.nodes = s.nodes
  nextNode : s'.nextNode = s.nextNode
  rootNode : s'.rootNode = s.rootNode
  shape : s'.CacheShape
  known : ∀ d, s.Known d → s'.Known d
  sees : ∀ place name found, s'.Sees place name found ↔ s.Sees place name found

theorem Extends.refl (h : s.CacheShape) : s.Extends s :=
  ⟨rfl, rfl, rfl, h, fun _ => id, fun _ _ _ => Iff.rfl⟩

theorem Extends.trans {s'' : FileSystem} (h : s.Extends s') (h' : s'.Extends s'') :
    s.Extends s'' :=
  ⟨h'.nodes.trans h.nodes, h'.nextNode.trans h.nextNode, h'.rootNode.trans h.rootNode,
    h'.shape, fun d hd => h'.known d (h.known d hd),
    fun place name found => (h'.sees place name found).trans (h.sees place name found)⟩

theorem Extends.effectiveVNode (h : s.Extends s') (d : DEntry) :
    s'.effectiveVNode d = s.effectiveVNode d :=
  effectiveVNode_eq ⟨h.nodes, h.rootNode⟩ rfl

theorem Extends.lookupNode (h : s.Extends s') (d : DEntry) (name : Name) :
    s'.lookupNode d name = s.lookupNode d name :=
  lookupNode_eq ⟨h.nodes, h.rootNode⟩ rfl name

theorem lookupNode_some {found : Except Errno (Option VNodeId)}
    (h : s.lookupNode d name = some found) : ∃ node, s.effectiveVNode d = some node := by
  simp only [FileSystem.lookupNode, Option.bind_eq_bind, Option.bind_eq_some_iff] at h
  obtain ⟨node, hnode, _⟩ := h
  exact ⟨node, hnode⟩

theorem CacheShape.extends_remember (h : s.CacheShape) (hd : s.Known d) {next : Option VNodeId}
    (hlookup : s.lookupNode d name = some (.ok next)) (hcache : s.cache (d.id, name) = none) :
    s.Extends (s.remember d next name) := by
  obtain ⟨node, hnode⟩ := lookupNode_some hlookup
  exact ⟨rfl, rfl, rfl, h.remember hd hnode hcache,
    fun e he => (known_remember hcache).mpr (Or.inl he),
    fun _ _ _ => h.sees_remember hd hlookup hcache⟩

/-- A name shows a node at a place exactly if the lookup there finds it. -/
theorem CacheShape.lookup_sees (h : s.CacheShape) (hd : s.Known d) {next : Option VNodeId}
    (hsees : s.Sees d.erase name (.ok next)) : ∃ c s', s.lookup d name = some (.ok c, s') ∧
      s.Extends s' ∧ s'.Known c ∧ c.erase = .child 0 d.erase next name ∧
      s'.effectiveVNode c = next := by
  unfold lookup
  cases hcache : s.cache (d.id, name) with
  | some c =>
      obtain ⟨id, hc⟩ := h.hit hd hcache
      obtain rfl := Except.ok.inj ((h.sees_hit hd hcache).mp hsees)
      refine ⟨c, s, rfl, .refl h, Or.inr ⟨_, hcache⟩, ?_, rfl⟩
      rw [hc, DEntry.erase]
      rfl
  | none =>
      have hlookup := (h.sees_miss hd hcache).mp hsees
      refine ⟨.child (s.counter + 1) d next name, s.remember d next name, ?_,
        h.extends_remember hd hlookup hcache, (known_remember hcache).mpr (Or.inr rfl), rfl, rfl⟩
      simp only [hlookup, Option.bind_some]
      rfl

/-- The states that a lookup can lead to. -/
theorem CacheShape.lookup_cases (h : s.CacheShape) (hd : s.Known d) {r : Except Errno DEntry}
    (heq : s.lookup d name = some (r, s')) :
    (∃ next, s.Sees d.erase name (.ok next)) ∨ ∃ e, r = .error e ∧ s' = s := by
  unfold lookup at heq
  cases hcache : s.cache (d.id, name) with
  | some c => exact Or.inl ⟨_, .cached hd rfl hcache⟩
  | none =>
      simp only [hcache] at heq
      obtain ⟨found, hlookup, heq⟩ := Option.bind_eq_some_iff.mp heq
      cases found with
      | error e =>
          obtain ⟨rfl, rfl⟩ := Prod.mk.inj (Option.some.inj heq)
          exact Or.inr ⟨e, rfl, rfl⟩
      | ok next => exact Or.inl ⟨next, (h.sees_miss hd hcache).mpr hlookup⟩

/-- A resolution extends the cache, and the dentry it finds is in use. -/
def Finds (s : FileSystem) (out : Outcome DEntry) : Prop :=
  ∀ r s', out = some (r, s') → s.Extends s' ∧ ∀ d, r = .ok d → s'.Known d

theorem Finds.done (h : s.CacheShape) {r : Except Errno DEntry} (hr : ∀ d, r = .ok d → s.Known d) :
    s.Finds (some (r, s)) := by
  intro r' s' heq
  obtain ⟨rfl, rfl⟩ := Prod.mk.inj (Option.some.inj heq)
  exact ⟨.refl h, hr⟩

theorem Finds.error (h : s.CacheShape) (e : Errno) : s.Finds (some (.error e, s)) :=
  .done h (by simp)

theorem Finds.andThen {out : Outcome DEntry} {next : DEntry → FileSystem → Outcome DEntry}
    (h : s.Finds out)
    (hnext : ∀ d s', s.Extends s' → s'.Known d → s'.Finds (next d s')) :
    s.Finds (out.andThen next) := by
  intro r s'' heq
  cases out with
  | none => cases heq
  | some result =>
      obtain ⟨result, s'⟩ := result
      obtain ⟨hextends, hknown⟩ := h result s' rfl
      cases result with
      | error e =>
          obtain ⟨rfl, rfl⟩ := Prod.mk.inj (Option.some.inj heq)
          exact ⟨hextends, by simp⟩
      | ok d =>
          obtain ⟨hextends', hfound⟩ := hnext d s' hextends (hknown d rfl) r s'' heq
          exact ⟨hextends.trans hextends', hfound⟩

theorem lookup_finds (h : s.CacheShape) (hd : s.Known d) (name : Name) :
    s.Finds (s.lookup d name) := by
  intro r s' heq
  rcases h.lookup_cases hd heq with ⟨next, hsees⟩ | ⟨e, rfl, rfl⟩
  · obtain ⟨c, s₁, hlookup, hextends, hknown, _⟩ := h.lookup_sees hd hsees
    obtain ⟨rfl, rfl⟩ := Prod.mk.inj (Option.some.inj (hlookup.symm.trans heq))
    exact ⟨hextends, fun d hd => Except.ok.inj hd ▸ hknown⟩
  · exact ⟨.refl h, by simp⟩

section Resolve

variable {tty : Except Errno Name} {follow : Bool} {n : Nat} {goal : DEntry}
  {inner : FileSystem → DEntry → Name → Outcome DEntry}

theorem walk_finds
    (hinner : ∀ (s : FileSystem) d target, s.CacheShape → s.Known d → s.Finds (inner s d target))
    (portions : List Name) (h : s.CacheShape) (hd : s.Known d) :
    s.Finds (walk lookup tty inner follow portions d s) := by
  induction portions generalizing s d with
  | nil => exact .done h fun e he => Except.ok.inj he ▸ hd
  | cons portion rest ih =>
      unfold walk
      split
      · exact ih h (h.known_up hd)
      refine (lookup_finds h hd portion).andThen ?_
      intro next s₁ hextends hnext
      split
      · cases s₁.effectiveVNode next with
        | none => intro r s' heq; cases heq
        | some node =>
            simp only [Option.bind_some]
            split
            · split
              · exact .error hextends.shape _
              · refine (hinner s₁ d _ hextends.shape (hextends.known d hd)).andThen ?_
                intro resolved s₂ hextends₂ hresolved
                exact ih hextends₂.shape hresolved
            · exact ih hextends.shape hnext
      · exact ih hextends.shape hnext

theorem resolveLoop_finds (n : Nat) (path : Path) (h : s.CacheShape) {start : Option DEntry}
    (hstart : ∀ d, start = some d → s.Known d) :
    s.Finds (resolveLoop lookup tty n s path follow start) := by
  induction n generalizing s path follow start with
  | zero => exact .error h _
  | succ n ih =>
      have hinner : ∀ (s : FileSystem) d target, s.CacheShape → s.Known d →
          s.Finds (resolveLoop lookup tty n s (Path.ofName target) true (some d)) :=
        fun s d target h hd => ih _ h fun e he => Option.some.inj he ▸ hd
      unfold resolveLoop
      split
      · exact .error h _
      dsimp only
      split
      · cases start with
        | none => exact .error h _
        | some d => exact walk_finds hinner path.portions h (hstart d rfl)
      · exact walk_finds hinner path.portions h (Or.inl rfl)

/-- Nothing but the nodes and what names show decides where a path leads. -/
theorem Leads.mono {place : DEntry} {portions : List Name} (hnodes : s'.nodes = s.nodes)
    (hsees : ∀ place name found, s.Sees place name found → s'.Sees place name found)
    (h : s.Leads tty n place portions goal) : s'.Leads tty n place portions goal := by
  induction h with
  | here => exact .here
  | up _ ih => exact .up ih
  | entry hname hfound hplain _ ih =>
      exact .entry hname (hsees _ _ _ hfound) (hnodes ▸ hplain) ih
  | link hname hfound hlink hread hvalid hstart _ _ ihInner ih =>
      exact .link hname (hsees _ _ _ hfound) (hnodes ▸ hlink) (hnodes ▸ hread) hvalid hstart
        ihInner ih

theorem Extends.leads (h : s.Extends s') {place : DEntry} {portions : List Name} :
    s'.Leads tty n place portions goal ↔ s.Leads tty n place portions goal :=
  ⟨.mono h.nodes.symm fun place name found => (h.sees place name found).mp,
    .mono h.nodes fun place name found => (h.sees place name found).mpr⟩

theorem Extends.denotes (h : s.Extends s') {path : Path} {start : Option DEntry} :
    s'.Denotes tty n path start goal ↔ s.Denotes tty n path start goal := by
  simp only [Denotes, h.leads]

theorem leads_nil {place : DEntry} : s.Leads tty n place [] goal ↔ place = goal := by
  constructor
  · intro h
    cases h
    rfl
  · rintro rfl
    exact .here

theorem leads_up {place : DEntry} {rest : List Name} :
    s.Leads tty n place (['.', '.'] :: rest) goal ↔ s.Leads tty n place.up rest goal := by
  constructor
  · intro h
    cases h with
    | up hnext => exact hnext
    | entry hname => exact absurd rfl hname
    | link hname => exact absurd rfl hname
  · exact .up

/-- A symbolic link leads on from its target, one level deeper. -/
def LinkLeads (s : FileSystem) (tty : Except Errno Name) (n : Nat) (place : DEntry)
    (node : VNodeId) (middle : DEntry) : Prop :=
  ∃ m target, n = m + 1 ∧ (s.nodes node).readlink tty = .ok target ∧
    s.Denotes tty m (Path.ofName target) (some place) middle

theorem leads_name {place : DEntry} {rest : List Name} (hname : name ≠ ['.', '.']) :
    s.Leads tty n place (name :: rest) goal ↔
      ∃ node, s.Sees place name (.ok (some node)) ∧
        if (s.nodes node).isSymlink then
          ∃ middle, s.LinkLeads tty n place node middle ∧ s.Leads tty n middle rest goal
        else
          s.Leads tty n (.child 0 place (some node) name) rest goal := by
  constructor
  · intro h
    cases h with
    | up => exact absurd rfl hname
    | entry _ hsees hplain hnext => exact ⟨_, hsees, by rwa [if_neg (by simp [hplain])]⟩
    | link _ hsees hlink hread hvalid hstart hinner hnext =>
        refine ⟨_, hsees, ?_⟩
        rw [if_pos hlink]
        exact ⟨_, ⟨_, _, rfl, hread, hvalid, _, hstart, hinner⟩, hnext⟩
  · rintro ⟨node, hsees, hnext⟩
    split at hnext
    · rename_i hlink
      obtain ⟨middle, ⟨m, target, rfl, hread, hvalid, origin, hstart, hinner⟩, hnext⟩ := hnext
      exact .link hname hsees hlink hread hvalid hstart hinner hnext
    · rename_i hplain
      exact .entry hname hsees (by simpa using hplain) hnext

theorem andThen_ok {α β : Type} {out : Outcome α} {next : α → FileSystem → Outcome β} {b : β} :
    out.andThen next = some (.ok b, s) ↔
      ∃ a s₁, out = some (.ok a, s₁) ∧ next a s₁ = some (.ok b, s) := by
  cases out with
  | none => simp [Outcome.andThen]
  | some result =>
      obtain ⟨result, s'⟩ := result
      cases result <;> simp [Outcome.andThen]

/-- A computation that ends at a place. -/
def EndsAt (out : Outcome DEntry) (goal : DEntry) : Prop :=
  ∃ d s', out = some (.ok d, s') ∧ d.erase = goal

theorem endsAt_andThen {out : Outcome DEntry} {next : DEntry → FileSystem → Outcome DEntry} :
    EndsAt (out.andThen next) goal ↔ ∃ d s', out = some (.ok d, s') ∧ EndsAt (next d s') goal := by
  constructor
  · rintro ⟨e, s'', heq, herase⟩
    obtain ⟨d, s', hout, hnext⟩ := andThen_ok.mp heq
    exact ⟨d, s', hout, e, s'', hnext, herase⟩
  · rintro ⟨d, s', hout, e, s'', hnext, herase⟩
    exact ⟨e, s'', andThen_ok.mpr ⟨d, s', hout, hnext⟩, herase⟩

/-- A lookup that succeeds, by what the name shows. -/
theorem lookup_endsAt (h : s.CacheShape) (hd : s.Known d)
    {next : DEntry → FileSystem → Outcome DEntry} :
    EndsAt ((s.lookup d name).andThen next) goal ↔
      ∃ found c s', s.Sees d.erase name (.ok found) ∧ s.lookup d name = some (.ok c, s') ∧
        s.Extends s' ∧ s'.Known c ∧ c.erase = .child 0 d.erase found name ∧
        s'.effectiveVNode c = found ∧ EndsAt (next c s') goal := by
  rw [endsAt_andThen]
  constructor
  · rintro ⟨c, s', hlookup, hends⟩
    rcases h.lookup_cases hd hlookup with ⟨found, hsees⟩ | ⟨e, he, _⟩
    · obtain ⟨c', s₁, hlookup', hextends, hknown, herase, hnode⟩ := h.lookup_sees hd hsees
      obtain ⟨hc, rfl⟩ := Prod.mk.inj (Option.some.inj (hlookup.symm.trans hlookup'))
      obtain rfl := Except.ok.inj hc
      exact ⟨found, c, s', hsees, hlookup, hextends, hknown, herase, hnode, hends⟩
    · cases he
  · rintro ⟨_, c, s', _, hlookup, _, _, _, _, hends⟩
    exact ⟨c, s', hlookup, hends⟩

/-- The rest of the loop body, after a lookup that found `c`. -/
theorem follow_endsAt {c : DEntry} {rest : List Name} :
    EndsAt ((s.effectiveVNode c).bind fun node =>
      if (s.nodes node).isSymlink then
        match (s.nodes node).readlink tty with
        | .error e => some (.error e, s)
        | .ok target => (inner s d target).andThen fun resolved s₂ =>
            walk lookup tty inner true rest resolved s₂
      else
        walk lookup tty inner true rest c s) goal ↔
    ∃ node, s.effectiveVNode c = some node ∧
      if (s.nodes node).isSymlink then
        ∃ target resolved s₂, (s.nodes node).readlink tty = .ok target ∧
          inner s d target = some (.ok resolved, s₂) ∧
          EndsAt (walk lookup tty inner true rest resolved s₂) goal
      else
        EndsAt (walk lookup tty inner true rest c s) goal := by
  cases s.effectiveVNode c with
  | none => simp [EndsAt]
  | some node =>
      simp only [Option.bind_some, Option.some_inj, exists_eq_left']
      split
      · cases (s.nodes node).readlink tty with
        | error e => simp [EndsAt]
        | ok target => simp [endsAt_andThen]
      · rfl

/-- The induction is on the portions. `inner` resolves a link target one level
deeper, where it ends at what the target denotes. -/
theorem walk_endsAt
    (hfinds : ∀ (s : FileSystem) d target, s.CacheShape → s.Known d → s.Finds (inner s d target))
    (hinner : ∀ (s : FileSystem) d target goal, s.CacheShape → s.Known d →
      (EndsAt (inner s d target) goal ↔
        ∃ m, n = m + 1 ∧ s.Denotes tty m (Path.ofName target) (some d.erase) goal))
    (portions : List Name) (h : s.CacheShape) (hd : s.Known d) :
    EndsAt (walk lookup tty inner true portions d s) goal ↔
      s.Leads tty n d.erase portions goal := by
  induction portions generalizing s d with
  | nil => simp [walk, leads_nil, EndsAt]
  | cons portion rest ih =>
      unfold walk
      by_cases hup : portion = ['.', '.']
      · rw [if_pos hup, hup, leads_up, ih h (h.known_up hd), DEntry.erase_up]
      simp only [if_neg hup, Bool.true_or, if_true]
      rw [lookup_endsAt h hd, leads_name hup]
      constructor
      · rintro ⟨found, c, s₁, hsees, _, hextends, hknown, herase, rfl, hends⟩
        obtain ⟨node, hnode, hends⟩ := follow_endsAt.mp hends
        rw [hnode] at hsees herase
        refine ⟨node, hsees, ?_⟩
        rw [hextends.nodes] at hends
        by_cases hlink : (s.nodes node).isSymlink = true
        · rw [if_pos hlink] at hends ⊢
          obtain ⟨target, resolved, s₂, hread, hresolved, hends⟩ := hends
          obtain ⟨hextends₂, hknown₂⟩ :=
            hfinds s₁ d target hextends.shape (hextends.known d hd) _ _ hresolved
          rw [ih hextends₂.shape (hknown₂ resolved rfl), hextends₂.leads, hextends.leads] at hends
          obtain ⟨m, hn, hdenotes⟩ := (hinner s₁ d target resolved.erase hextends.shape
            (hextends.known d hd)).mp ⟨resolved, s₂, hresolved, rfl⟩
          exact ⟨resolved.erase, ⟨m, target, hn, hread, hextends.denotes.mp hdenotes⟩, hends⟩
        · rw [if_neg hlink] at hends ⊢
          rwa [ih hextends.shape hknown, herase, hextends.leads] at hends
      · rintro ⟨node, hsees, hleads⟩
        obtain ⟨c, s₁, hlookup, hextends, hknown, herase, hnode⟩ := h.lookup_sees hd hsees
        refine ⟨some node, c, s₁, hsees, hlookup, hextends, hknown, herase, hnode,
          follow_endsAt.mpr ⟨node, hnode, ?_⟩⟩
        rw [hextends.nodes]
        by_cases hlink : (s.nodes node).isSymlink = true
        · rw [if_pos hlink] at hleads ⊢
          obtain ⟨middle, ⟨m, target, hn, hread, hdenotes⟩, hleads⟩ := hleads
          obtain ⟨resolved, s₂, hresolved, rfl⟩ := (hinner s₁ d target middle hextends.shape
            (hextends.known d hd)).mpr ⟨m, hn, hextends.denotes.mpr hdenotes⟩
          obtain ⟨hextends₂, hknown₂⟩ :=
            hfinds s₁ d target hextends.shape (hextends.known d hd) _ _ hresolved
          refine ⟨target, resolved, s₂, hread, hresolved, ?_⟩
          rw [ih hextends₂.shape (hknown₂ resolved rfl), hextends₂.leads, hextends.leads]
          exact hleads
        · rw [if_neg hlink] at hleads ⊢
          rwa [ih hextends.shape hknown, herase, hextends.leads]

/-- `resolve` ends at the place its path denotes, and nowhere else. -/
theorem resolveLoop_endsAt (n : Nat) (path : Path) (h : s.CacheShape) {start : Option DEntry}
    (hstart : ∀ d, start = some d → s.Known d) :
    EndsAt (resolveLoop lookup tty n s path true start) goal ↔
      ∃ m, n = m + 1 ∧ s.Denotes tty m path (start.map DEntry.erase) goal := by
  induction n generalizing s path start goal with
  | zero => simp [resolveLoop, EndsAt]
  | succ n ih =>
      have hfinds : ∀ (s : FileSystem) d target, s.CacheShape → s.Known d →
          s.Finds (resolveLoop lookup tty n s (Path.ofName target) true (some d)) :=
        fun s d target h hd => resolveLoop_finds n _ h fun e he => Option.some.inj he ▸ hd
      have hwalk : ∀ d, s.Known d → (EndsAt (walk lookup tty (fun s current target =>
          resolveLoop lookup tty n s (Path.ofName target) true (some current)) true
          path.portions d s) goal ↔ s.Leads tty n d.erase path.portions goal) :=
        fun d hd => walk_endsAt hfinds (fun s d target goal h hd =>
          ih (Path.ofName target) h fun e he => Option.some.inj he ▸ hd) path.portions h hd
      simp only [Nat.add_right_cancel_iff, exists_eq_left', Denotes, Path.origin]
      unfold resolveLoop
      cases hinvalid : path.invalid with
      | true => simp [EndsAt]
      | false =>
          cases hrelative : path.relative with
          | true =>
              cases start with
              | none => simp [EndsAt]
              | some d => simpa using hwalk d (hstart d rfl)
          | false => simpa [DEntry.erase] using hwalk .root (Or.inl rfl)

theorem resolve_endsAt (h : s.CacheShape) {caller : Caller} (hcaller : s.KnownCaller caller)
    (path : Path) : EndsAt (s.resolve caller path true) goal ↔
      s.Denotes caller.tty 9 path (caller.cwd.map DEntry.erase) goal := by
  rw [resolve, resolveLoop_endsAt 10 path h hcaller]
  simp

theorem resolve_finds (h : s.CacheShape) {caller : Caller} (hcaller : s.KnownCaller caller)
    (path : Path) (follow : Bool) : s.Finds (s.resolve caller path follow) :=
  resolveLoop_finds 10 path h hcaller

end Resolve

end FileSystem

end Nyan.Fs
