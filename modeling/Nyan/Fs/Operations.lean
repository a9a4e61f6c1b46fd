import Nyan.Fs.PathMeaning

/-!
What the file operations do to the file system, one lemma for each operation. Every
operation keeps the shape of the cache, the root and the dentries in use. A further
property of the file system is kept too if lookups keep it and the one change of a
directory that the operation makes does.
-/

namespace Nyan.Fs

open Library

namespace FileSystem

variable {s s' : FileSystem} {d : DEntry} {caller : Caller}

/-- What every operation keeps. -/
structure Outlasts (s s' : FileSystem) : Prop where
  shape : s'.CacheShape
  rootNode : s'.rootNode = s.rootNode
  known : ∀ d, s.Known d → s'.Known d

theorem Outlasts.refl (h : s.CacheShape) : s.Outlasts s := ⟨h, rfl, fun _ => id⟩

theorem Outlasts.trans {s'' : FileSystem} (h : s.Outlasts s') (h' : s'.Outlasts s'') :
    s.Outlasts s'' :=
  ⟨h'.shape, h'.rootNode.trans h.rootNode, fun d hd => h'.known d (h.known d hd)⟩

theorem Extends.outlasts (h : s.Extends s') : s.Outlasts s' := ⟨h.shape, h.rootNode, h.known⟩

theorem Outlasts.effectiveVNode (h : s.Outlasts s') (d : DEntry) :
    s'.effectiveVNode d = s.effectiveVNode d := by
  cases d with
  | root => exact congrArg some h.rootNode
  | child => rfl

theorem Outlasts.knownCaller (h : s.Outlasts s') (hcaller : s.KnownCaller caller) :
    s'.KnownCaller caller :=
  fun d hd => h.known d (hcaller d hd)

/-- A change of the directories does not touch the cache. -/
theorem CacheShape.outlasts (h : s.CacheShape) (nodes : VNodeId → VNode) (nextNode : VNodeId) :
    s.Outlasts { s with nodes, nextNode } := by
  refine ⟨⟨?_, h.unique, h.bound⟩, rfl, fun _ => id⟩
  intro i name d hcache
  obtain ⟨id, parent, next, node, hd, hid, hparent, hnode⟩ := h.entry i name d hcache
  exact ⟨id, parent, next, node, hd, hid, hparent, by cases parent <;> exact hnode⟩

/-- Whatever an operation answers, its state outlasts and has the property `I`. -/
def Leaves {α : Type} (I : FileSystem → Prop) (s : FileSystem) (out : Outcome α) : Prop :=
  ∀ r s', out = some (r, s') → s.Outlasts s' ∧ I s'

section Leaves

variable {I : FileSystem → Prop} {α β : Type}

theorem Leaves.done (h : s.Outlasts s') (hs : I s') (r : Except Errno α) :
    s.Leaves I (some (r, s')) := by
  intro r' s'' heq
  obtain ⟨_, rfl⟩ := Prod.mk.inj (Option.some.inj heq)
  exact ⟨h, hs⟩

theorem Leaves.same (h : s.CacheShape) (hs : I s) (r : Except Errno α) : s.Leaves I (some (r, s)) :=
  .done (.refl h) hs r

theorem Leaves.andThen {out : Outcome α} {next : α → FileSystem → Outcome β} (h : s.Leaves I out)
    (hnext : ∀ a s', out = some (.ok a, s') → s.Outlasts s' → I s' → s'.Leaves I (next a s')) :
    s.Leaves I (out.andThen next) := by
  intro r s'' heq
  cases out with
  | none => cases heq
  | some result =>
      obtain ⟨result, s'⟩ := result
      obtain ⟨houtlasts, hs'⟩ := h result s' rfl
      cases result with
      | error e =>
          obtain ⟨_, rfl⟩ := Prod.mk.inj (Option.some.inj heq)
          exact ⟨houtlasts, hs'⟩
      | ok a =>
          obtain ⟨houtlasts', hs''⟩ := hnext a s' rfl houtlasts hs' r s'' heq
          exact ⟨houtlasts.trans houtlasts', hs''⟩

theorem Leaves.bind {ref : Option α} {next : α → Outcome β}
    (h : ∀ a, ref = some a → s.Leaves I (next a)) : s.Leaves I (ref.bind next) := by
  cases ref with
  | none => intro r s' heq; cases heq
  | some a => exact h a rfl

theorem Leaves.map (h : s.CacheShape) (hs : I s) {ref : Option α} (f : α → Except Errno β) :
    s.Leaves I (ref.map fun a => (f a, s)) := by
  cases ref with
  | none => intro r s' heq; cases heq
  | some a => exact .same h hs (f a)

/-- Lookups keep the property. -/
def Lookable (I : FileSystem → Prop) : Prop := ∀ s s', FileSystem.Extends s s' → I s → I s'

variable (hI : Lookable I)

theorem resolve_finds_known (h : s.CacheShape) (hcaller : s.KnownCaller caller) {path : Path}
    {follow : Bool} (heq : s.resolve caller path follow = some (.ok d, s')) : s'.Known d :=
  (resolve_finds h hcaller path follow _ _ heq).2 d rfl

include hI

theorem resolve_leaves (h : s.CacheShape) (hs : I s) (hcaller : s.KnownCaller caller)
    (path : Path) (follow : Bool) : s.Leaves I (s.resolve caller path follow) := by
  intro r s' heq
  have hextends := (resolve_finds h hcaller path follow r s' heq).1
  exact ⟨hextends.outlasts, hI s s' hextends hs⟩

theorem openNode_leaves (h : s.CacheShape) (hs : I s) (hcaller : s.KnownCaller caller)
    (path : Path) (flags : OpenFlags) (directory : VNodeId) :
    s.Leaves I (s.openNode caller path flags directory) := by
  unfold openNode
  split
  · exact .same h hs _
  refine .bind fun node _ => .andThen ?_ ?_
  · split
    · split
      · exact .same h hs _
      · refine (resolve_leaves hI h hs hcaller _ _).andThen ?_
        intro entry s₁ _ houtlasts hs₁
        exact .map houtlasts.shape hs₁ _
    · exact .same h hs _
  · intro node s₁ _ houtlasts hs₁
    split
    · exact .same houtlasts.shape hs₁ _
    · exact .same houtlasts.shape hs₁ _

/-- `open` changes the directory of the new file, if it creates one. -/
theorem open_leaves (h : s.CacheShape) (hs : I s) (hcaller : s.KnownCaller caller) (name : Name)
    (flags : OpenFlags)
    (hadd : ∀ (s₁ : FileSystem) parent directory, flags.O_CREAT = true → s.Outlasts s₁ → I s₁ →
      s₁.Known parent → s₁.effectiveVNode parent = some directory →
      (Path.ofName name).portions ≠ [] →
      s₁.Leaves I (s₁.addNode directory (Path.ofName name).last .regular)) :
    s.Leaves I (s.open caller name flags) := by
  unfold FileSystem.open
  dsimp only
  split
  · exact .same h hs _
  split
  · refine (resolve_leaves hI h hs hcaller _ _).andThen ?_
    intro entry s₁ _ houtlasts hs₁
    split
    · exact .same houtlasts.shape hs₁ _
    · exact .map houtlasts.shape hs₁ _
  rename_i hportions
  refine (resolve_leaves hI h hs hcaller _ _).andThen ?_
  intro parent s₁ hresolve houtlasts hs₁
  refine .bind fun directory hdirectory => ?_
  have hparent := resolve_finds_known h hcaller hresolve
  have hcaller₁ := houtlasts.knownCaller hcaller
  split
  · split
    · exact .same houtlasts.shape hs₁ _
    split
    · rename_i hcreate
      have hflag : flags.O_CREAT = true := (Bool.and_eq_true _ _ ▸ hcreate).1
      refine (hadd s₁ parent directory hflag houtlasts hs₁ hparent hdirectory hportions).andThen ?_
      intro _ s₂ _ houtlasts₂ hs₂
      exact openNode_leaves hI houtlasts₂.shape hs₂ (houtlasts₂.knownCaller hcaller₁) _ _ _
    · exact .same houtlasts.shape hs₁ _
  · split
    · exact .same houtlasts.shape hs₁ _
    · exact openNode_leaves hI houtlasts.shape hs₁ hcaller₁ _ _ _

/-- `link` and `symlink` change the directory of the new name. -/
theorem newEntry_leaves (h : s.CacheShape) (hs : I s) (hcaller : s.KnownCaller caller)
    (newname : Name) {add : FileSystem → VNodeId → Name → Outcome Unit}
    (hadd : ∀ (s₁ : FileSystem) parent directory,
      s.resolve caller (Path.ofName newname).parent true = some (.ok parent, s₁) →
      s.Outlasts s₁ → I s₁ → s₁.Known parent → s₁.effectiveVNode parent = some directory →
      (Path.ofName newname).portions ≠ [] →
      s₁.Leaves I (add s₁ directory (Path.ofName newname).last)) :
    s.Leaves I (s.newEntry caller newname add) := by
  unfold newEntry
  dsimp only
  split
  · exact .same h hs _
  split
  · exact .same h hs _
  rename_i hportions
  refine (resolve_leaves hI h hs hcaller _ _).andThen ?_
  intro parent s₁ hresolve houtlasts hs₁
  refine .bind fun directory hdirectory => ?_
  split
  · exact .same houtlasts.shape hs₁ _
  · split
    · exact .same houtlasts.shape hs₁ _
    · exact hadd s₁ parent directory hresolve houtlasts hs₁
        (resolve_finds_known h hcaller hresolve) hdirectory hportions

/-- `unlink` changes the directory of the entry that its path leads to. -/
theorem unlink_leaves (h : s.CacheShape) (hs : I s) (hcaller : s.KnownCaller caller)
    (pathname : Name)
    (hremove : ∀ entry s₁ node,
      s.resolve caller (Path.ofName pathname) true = some (.ok entry, s₁) →
      s.Outlasts s₁ → I s₁ → s₁.effectiveVNode entry = some node →
      (s₁.nodes node).isDirectory = false → s₁.Leaves I (s₁.removeEntry entry)) :
    s.Leaves I (s.unlink caller pathname) := by
  refine (resolve_leaves hI h hs hcaller _ _).andThen ?_
  intro entry s₁ hresolve houtlasts hs₁
  refine .bind fun node hnode => ?_
  split
  · exact .same houtlasts.shape hs₁ _
  · rename_i hfile
    exact hremove entry s₁ node hresolve houtlasts hs₁ hnode (by simpa using hfile)

end Leaves

end FileSystem

end Nyan.Fs
