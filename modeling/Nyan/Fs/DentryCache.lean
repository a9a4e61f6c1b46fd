import Nyan.Fs.Vfs

/-!
The dentry cache against the directories. The cache is right as long as every
entry in it is what a lookup in the directory would find. Lookups and new names
keep that; `resolve` then gives the same node or error as without the cache.
`unlink` takes the name out of the directory and leaves it in the cache.
-/

namespace Nyan.Fs

open Library

namespace FileSystem

variable {s s' u : FileSystem} {d d' : DEntry} {name : Name}

/-- A dentry in use: the root, or one from the cache. -/
def Known (s : FileSystem) (d : DEntry) : Prop := d = .root ∨ ∃ key, s.cache key = some d

/-- Every entry of the cache is a lookup in the current directories, and the
numbers of dentries are unique. -/
structure CacheOk (s : FileSystem) : Prop where
  entry : ∀ i name d, s.cache (i, name) = some d → ∃ id parent next node,
    d = .child id parent next name ∧ parent.id = i ∧ s.Known parent ∧
    s.effectiveVNode parent = some node ∧ (s.nodes node).lookup name = .ok next
  unique : ∀ d d', s.Known d → s.Known d' → d.id = d'.id → d = d'
  bound : ∀ d, s.Known d → d.id ≤ s.counter

/-- The root is a directory, entries are for existing nodes, and no directory has
two entries of one name. -/
structure NodesOk (s : FileSystem) : Prop where
  root : (s.nodes s.rootNode).isDirectory = true ∧ s.rootNode < s.nextNode
  old : ∀ node entries, s.nodes node = .directory entries →
    ∀ entry ∈ entries, entry.2 < s.nextNode
  unique : ∀ node entries, s.nodes node = .directory entries → (entries.map Prod.fst).Nodup

/-- The cached lookup agrees with the directory, from every dentry in use. -/
def Transparent (s : FileSystem) : Prop :=
  ∀ parent name found, s.Known parent → s.lookupNode parent name = some found →
    match found with
    | .ok node => ∃ d s', s.lookup parent name = some (.ok d, s') ∧ s'.effectiveVNode d = node
    | .error e => s.lookup parent name = some (.error e, s)

/-- The node or error that a resolution ends with. -/
def answer (outcome : Outcome DEntry) : Option (Except Errno (Option VNodeId)) :=
  outcome.map fun (result, s) => result.map s.effectiveVNode

/-- Lookups change nothing but the cache, which grows. -/
structure Grows (s s' : FileSystem) : Prop where
  nodes : s'.nodes = s.nodes
  nextNode : s'.nextNode = s.nextNode
  rootNode : s'.rootNode = s.rootNode
  cacheOk : s'.CacheOk
  known : ∀ d, s.Known d → s'.Known d

theorem Grows.refl (h : s.CacheOk) : s.Grows s := ⟨rfl, rfl, rfl, h, fun _ => id⟩

theorem Grows.trans {s'' : FileSystem} (h : s.Grows s') (h' : s'.Grows s'') : s.Grows s'' :=
  ⟨h'.nodes.trans h.nodes, h'.nextNode.trans h.nextNode, h'.rootNode.trans h.rootNode,
    h'.cacheOk, fun d hd => h'.known d (h.known d hd)⟩

/-- The directories are the same in two states. -/
structure SameNodes (s u : FileSystem) : Prop where
  nodes : u.nodes = s.nodes
  rootNode : u.rootNode = s.rootNode

theorem Grows.sameNodes (h : s.Grows s') : s.SameNodes s' := ⟨h.nodes, h.rootNode⟩

theorem SameNodes.trans {u' : FileSystem} (h : s.SameNodes s') (h' : s'.SameNodes u') :
    s.SameNodes u' :=
  ⟨h'.nodes.trans h.nodes, h'.rootNode.trans h.rootNode⟩

theorem SameNodes.symm (h : s.SameNodes u) : u.SameNodes s := ⟨h.nodes.symm, h.rootNode.symm⟩

end FileSystem

/-- A dentry without its number. -/
def DEntry.erase : DEntry → DEntry
  | .root => .root
  | .child _ parent node name => .child 0 parent.erase node name

namespace FileSystem

variable {s s' u : FileSystem} {d d' : DEntry} {name : Name}

theorem effectiveVNode_eq (hnodes : s.SameNodes u) (h : d.erase = d'.erase) :
    u.effectiveVNode d' = s.effectiveVNode d := by
  cases d with
  | root =>
      cases d' with
      | root => exact congrArg some hnodes.rootNode
      | child => cases h
  | child id parent node name =>
      cases d' with
      | root => cases h
      | child id' parent' node' name' =>
          simp only [DEntry.erase, DEntry.child.injEq] at h
          exact h.2.2.1.symm

theorem up_erase (h : d.erase = d'.erase) : d.up.erase = d'.up.erase := by
  cases d with
  | root =>
      cases d' with
      | root => rfl
      | child => cases h
  | child id parent node name =>
      cases d' with
      | root => cases h
      | child id' parent' node' name' =>
          simp only [DEntry.erase, DEntry.child.injEq] at h
          exact h.2.1

theorem CacheOk.known_up (h : s.CacheOk) (hd : s.Known d) : s.Known d.up := by
  rcases hd with rfl | ⟨⟨i, name⟩, hcache⟩
  · exact Or.inl rfl
  · obtain ⟨id, parent, next, node, rfl, _, hparent, _⟩ := h.entry i name d hcache
    exact hparent

/-- A hit in the cache is for the very dentry that was asked about. -/
theorem CacheOk.hit (h : s.CacheOk) {parent : DEntry} (hparent : s.Known parent)
    (hcache : s.cache (parent.id, name) = some d) :
    ∃ id next, d = .child id parent next name ∧
      s.lookupNode parent name = some (.ok next) := by
  obtain ⟨id, parent', next, node, rfl, hid, hparent', hnode, hlookup⟩ :=
    h.entry parent.id name d hcache
  obtain rfl := h.unique parent' parent hparent' hparent hid
  exact ⟨id, next, rfl, by simp [lookupNode, hnode, hlookup]⟩

/-- What a lookup adds to the cache after a miss. -/
theorem CacheOk.miss (h : s.CacheOk) {parent : DEntry} (hparent : s.Known parent)
    (hcache : s.cache (parent.id, name) = none) {next : Option VNodeId}
    (hlookup : s.lookupNode parent name = some (.ok next)) :
    let d := DEntry.child (s.counter + 1) parent next name
    s.Grows { s with
      cache := Function.update s.cache (parent.id, name) (some d)
      counter := s.counter + 1 } := by
  intro d
  let s' : FileSystem := { s with
    cache := Function.update s.cache (parent.id, name) (some d)
    counter := s.counter + 1 }
  have hnew : s'.cache (parent.id, name) = some d := Function.update_self ..
  have hnewId : d.id = s.counter + 1 := rfl
  have hold : ∀ {key e}, s.cache key = some e → s'.cache key = some e := by
    intro key e hkey
    have hne : key ≠ (parent.id, name) := by
      rintro rfl
      simp [hcache] at hkey
    exact (Function.update_of_ne hne ..).trans hkey
  have hknown : ∀ e, s.Known e → s'.Known e := by
    rintro e (rfl | ⟨key, hkey⟩)
    · exact Or.inl rfl
    · exact Or.inr ⟨key, hold hkey⟩
  have hinv : ∀ e, s'.Known e → s.Known e ∨ e = d := by
    rintro e (rfl | ⟨key, hkey⟩)
    · exact Or.inl (Or.inl rfl)
    · by_cases hne : key = (parent.id, name)
      · subst hne
        exact Or.inr (Option.some.inj (hnew.symm.trans hkey)).symm
      · exact Or.inl (Or.inr ⟨key, (Function.update_of_ne hne ..).symm.trans hkey⟩)
  refine ⟨rfl, rfl, rfl, ⟨?_, ?_, ?_⟩, hknown⟩
  · intro i name' e hkey
    by_cases hne : (i, name') = (parent.id, name)
    · obtain ⟨rfl, rfl⟩ := Prod.mk.inj hne
      obtain rfl := Option.some.inj (hnew.symm.trans hkey)
      simp only [lookupNode, Option.bind_eq_bind, Option.bind_eq_some_iff, Option.pure_def,
        Option.some_inj] at hlookup
      obtain ⟨node, hnode, hlookup⟩ := hlookup
      exact ⟨_, parent, next, node, rfl, rfl, hknown parent hparent, hnode, hlookup⟩
    · have hkey' := (Function.update_of_ne hne ..).symm.trans hkey
      obtain ⟨id, parent', next', node, he, hid, hparent', hnode, hfound⟩ :=
        h.entry i name' e hkey'
      exact ⟨id, parent', next', node, he, hid, hknown parent' hparent', hnode, hfound⟩
  · intro e e' he he' hid
    rcases hinv e he with he | rfl
    · rcases hinv e' he' with he' | rfl
      · exact h.unique e e' he he' hid
      · have hbound := h.bound e he
        omega
    · rcases hinv e' he' with he' | rfl
      · have hbound := h.bound e' he'
        omega
      · rfl
  · intro e he
    rcases hinv e he with he | rfl
    · exact Nat.le_succ_of_le (h.bound e he)
    · exact Nat.le_refl _

/-- A cached and a direct computation end the same way: both stop, fail with the
same error, or reach dentries that differ in their numbers only. -/
inductive Agree (s : FileSystem) : Outcome DEntry → Outcome DEntry → Prop where
  | undefined : Agree s none none
  | error (e : Errno) {s' u' : FileSystem} (grows : s.Grows s') (same : s.SameNodes u') :
      Agree s (some (.error e, s')) (some (.error e, u'))
  | ok {d d' : DEntry} {s' u' : FileSystem} (grows : s.Grows s') (same : s.SameNodes u')
      (known : s'.Known d) (erase : d.erase = d'.erase) :
      Agree s (some (.ok d, s')) (some (.ok d', u'))

theorem Agree.after {out out' : Outcome DEntry} (hgrows : s.Grows s') (h : s'.Agree out out') :
    s.Agree out out' := by
  cases h with
  | undefined => exact .undefined
  | error e hgrows' hsame => exact .error e (hgrows.trans hgrows') (hgrows.sameNodes.trans hsame)
  | ok hgrows' hsame hknown herase =>
      exact .ok (hgrows.trans hgrows') (hgrows.sameNodes.trans hsame) hknown herase

theorem Agree.andThen {out out' : Outcome DEntry}
    {next next' : DEntry → FileSystem → Outcome DEntry} (h : s.Agree out out')
    (hnext : ∀ d d' s' u', s.Grows s' → s'.SameNodes u' → s'.Known d → d.erase = d'.erase →
      s'.Agree (next d s') (next' d' u')) :
    s.Agree (out.andThen next) (out'.andThen next') := by
  cases h with
  | undefined => exact .undefined
  | error e hgrows hsame => exact .error e hgrows hsame
  | ok hgrows hsame hknown herase =>
      exact (hnext _ _ _ _ hgrows (hgrows.sameNodes.symm.trans hsame) hknown herase).after hgrows

theorem lookupNode_eq (hsame : s.SameNodes u) (h : d.erase = d'.erase) (name : Name) :
    u.lookupNode d' name = s.lookupNode d name := by
  rw [lookupNode, lookupNode, effectiveVNode_eq hsame h, hsame.nodes]

theorem lookup_agree (h : s.CacheOk) (hsame : s.SameNodes u) (hknown : s.Known d)
    (herase : d.erase = d'.erase) (name : Name) :
    s.Agree (s.lookup d name) (u.lookupDirect d' name) := by
  have hnode := lookupNode_eq hsame herase name
  unfold lookup lookupDirect
  rw [hnode]
  split
  · rename_i e hcache
    obtain ⟨id, next, rfl, hlookup⟩ := h.hit hknown hcache
    rw [hlookup]
    exact .ok (Grows.refl h) ⟨hsame.nodes, hsame.rootNode⟩ (Or.inr ⟨_, hcache⟩)
      (by simp [DEntry.erase, herase])
  · rename_i hcache
    cases hlookup : s.lookupNode d name with
    | none => exact .undefined
    | some found =>
        cases found with
        | error e => exact .error e (Grows.refl h) hsame
        | ok next =>
            refine .ok (h.miss hknown hcache hlookup) ⟨hsame.nodes, hsame.rootNode⟩
              (Or.inr ⟨(d.id, name), Function.update_self ..⟩) ?_
            simp [DEntry.erase, herase]

section Resolve

variable {tty : Except Errno Name} {follow : Bool}
  {inner inner' : FileSystem → DEntry → Name → Outcome DEntry}

/-- The induction is on the portions; `inner` is the resolution of links, which
agrees by the induction on the number of links. -/
theorem walk_agree
    (hinner : ∀ (s u : FileSystem) d d' target, s.CacheOk → s.SameNodes u → s.Known d →
      d.erase = d'.erase → s.Agree (inner s d target) (inner' u d' target))
    (portions : List Name) (h : s.CacheOk) (hsame : s.SameNodes u) (hknown : s.Known d)
    (herase : d.erase = d'.erase) :
    s.Agree (walk lookup tty inner follow portions d s)
      (walk lookupDirect tty inner' follow portions d' u) := by
  induction portions generalizing s u d d' with
  | nil => exact .ok (Grows.refl h) hsame hknown herase
  | cons portion rest ih =>
      unfold walk
      split
      · exact ih h hsame (h.known_up hknown) (up_erase herase)
      refine (lookup_agree h hsame hknown herase portion).andThen ?_
      intro next next' s₁ u₁ hgrows hsame₁ hnext hnextErase
      have hnode := effectiveVNode_eq hsame₁ hnextErase
      split
      · rw [hnode, hsame₁.nodes]
        cases hvnode : s₁.effectiveVNode next with
        | none => exact .undefined
        | some node =>
            simp only [Option.bind_some]
            split
            · split
              · exact .error _ (Grows.refl hgrows.cacheOk) hsame₁
              · refine (hinner s₁ u₁ d d' _ hgrows.cacheOk hsame₁ (hgrows.known d hknown)
                  herase).andThen ?_
                intro resolved resolved' s₂ u₂ hgrows₂ hsame₂ hresolved hresolvedErase
                exact ih hgrows₂.cacheOk hsame₂ hresolved hresolvedErase
            · exact ih hgrows.cacheOk hsame₁ hnext hnextErase
      · exact ih hgrows.cacheOk hsame₁ hnext hnextErase

theorem resolveLoop_agree (n : Nat) (path : Path) (h : s.CacheOk) (hsame : s.SameNodes u)
    {start start' : Option DEntry}
    (hstart : ∀ d, start = some d → s.Known d ∧ ∃ d', start' = some d' ∧ d.erase = d'.erase)
    (hnone : start = none → start' = none) :
    s.Agree (resolveLoop lookup tty n s path follow start)
      (resolveLoop lookupDirect tty n u path follow start') := by
  induction n generalizing s u path follow start start' with
  | zero => exact .error _ (Grows.refl h) hsame
  | succ n ih =>
      have hinner : ∀ (s u : FileSystem) d d' target, s.CacheOk → s.SameNodes u → s.Known d →
          d.erase = d'.erase →
          s.Agree (resolveLoop lookup tty n s (Path.ofName target) true (some d))
            (resolveLoop lookupDirect tty n u (Path.ofName target) true (some d')) := by
        intro s u d d' target h hsame hknown herase
        refine ih (Path.ofName target) h hsame ?_ (by simp)
        intro e he
        obtain rfl := Option.some.inj he
        exact ⟨hknown, d', rfl, herase⟩
      unfold resolveLoop
      split
      · exact .error _ (Grows.refl h) hsame
      dsimp only
      split
      · cases start with
        | none =>
            rw [hnone rfl]
            exact .error _ (Grows.refl h) hsame
        | some d =>
            obtain ⟨hknown, d', rfl, herase⟩ := hstart d rfl
            exact walk_agree hinner path.portions h hsame hknown herase
      · exact walk_agree hinner path.portions h hsame (Or.inl rfl) rfl

end Resolve

/-- The working directory of a caller is in use. -/
def KnownCaller (s : FileSystem) (caller : Caller) : Prop := ∀ d, caller.cwd = some d → s.Known d

theorem resolve_agree (h : s.CacheOk) {caller : Caller} (hcaller : s.KnownCaller caller)
    (path : Path) (follow : Bool) :
    s.Agree (s.resolve caller path follow) (s.resolveDirect caller path follow) :=
  resolveLoop_agree 10 path h ⟨rfl, rfl⟩ (fun d hd => ⟨hcaller d hd, d, hd, rfl⟩) id

/-- With a correct cache, resolving a path ends as without one. -/
theorem resolve_answer (h : s.CacheOk) {caller : Caller} (hcaller : s.KnownCaller caller)
    (path : Path) (follow : Bool) :
    answer (s.resolve caller path follow) = answer (s.resolveDirect caller path follow) := by
  have hagree := resolve_agree h hcaller path follow
  generalize s.resolve caller path follow = out at hagree
  generalize s.resolveDirect caller path follow = out' at hagree
  cases hagree with
  | undefined => rfl
  | error e => rfl
  | ok hgrows hsame hknown herase =>
      simp only [answer, Option.map_some, Except.map]
      rw [effectiveVNode_eq (hgrows.sameNodes.symm.trans hsame) herase]

theorem CacheOk.transparent (h : s.CacheOk) : s.Transparent := by
  intro parent name found hknown hfound
  unfold lookup
  cases hcache : s.cache (parent.id, name) with
  | some d =>
      obtain ⟨id, next, rfl, hlookup⟩ := h.hit hknown hcache
      obtain rfl := Option.some.inj (hlookup.symm.trans hfound)
      exact ⟨_, s, rfl, rfl⟩
  | none =>
      cases found with
      | error e => simp [hfound]
      | ok next => exact ⟨_, _, by simp [hfound]; exact ⟨rfl, rfl⟩, rfl⟩

end FileSystem

end Nyan.Fs
