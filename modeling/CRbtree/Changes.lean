import CRbtree.Calls
import CRbtree.Potential
import CRbtree.Unlinking

set_option autoImplicit false

/-!
What each call does to the coloured tree it works on.
-/

namespace CRbtree
open RedBlack TaggedPointers PointerGraphs Programs

variable {w : ℕ}

/-- The call turns tree `t` from the first coloured tree into the second, and the turns
of its loops weigh so much. -/
inductive Change (t : Address w) :
    Call w → ColorTree (Address w) → ColorTree (Address w) → ℕ → Prop
  | plant (n : Address w) : Change t (.add t none (.root t) n) .nil (insertAt [] n) 0
  | add (t' : Address w) (f : Frame (Address w)) (ctx : Context (Address w)) (n : Address w) :
    Change t (.add t' (some f.label) (.child f.side f.label) n) (fill (f :: ctx) .nil)
      (insertAt (f :: ctx) n) (repaintTurns (f :: ctx) (leaf n))
  | link (f : Frame (Address w)) (ctx : Context (Address w)) (n : Address w) :
    Change t (.link f.label (.child f.side f.label) n) (fill (f :: ctx) .nil)
      (insertAt (f :: ctx) n) (repaintTurns (f :: ctx) (leaf n))
  | unlink (ctx : Context (Address w)) (c : Color) (l : ColorTree (Address w)) (n : Address w)
      (r : ColorTree (Address w)) :
    Change t (.unlink n) (fill ctx (.node c l n r)) (unlinkAt ctx (.node c l n r))
      (2 * unlinkTurns ctx (.node c l n r))
  | unlinkStale (ctx : Context (Address w)) (c : Color) (l : ColorTree (Address w))
      (n : Address w) (r : ColorTree (Address w)) :
    Change t (.unlinkStale n) (fill ctx (.node c l n r)) (unlinkAt ctx (.node c l n r))
      (2 * unlinkTurns ctx (.node c l n r))

/-- c_rbtree_add() at the hole of a context. -/
theorem Change.hole (t : Address w) (ctx : Context (Address w)) (n : Address w) :
    ∃ k, Change t (.add t (hole (.root t) ctx).holder (hole (.root t) ctx) n) (fill ctx .nil)
      (insertAt ctx n) k := by
  cases ctx with
  | nil => exact ⟨_, .plant n⟩
  | cons f ctx =>
    rw [hole_cons, Slot.holder_child]
    exact ⟨_, .add t f ctx n⟩

/-- The list of the tree that the call works on, before and after. -/
def Call.onList : Call w → List (Address w) → List (Address w)
  | add _ none _ n, _ => [n]
  | add _ (some p) l n, k | link p l n, k => insertBeside (sideOf l) p n k
  | unlink n, k | unlinkStale n, k => k.erase n
  | treeInit _, k | nodeInit _, k | move _ _, k => k

section Lists

variable {f : Frame (Address w)} {ctx : Context (Address w)} {n : Address w}

theorem inorder_insertAt_cons
    (hnd : (fill (f :: ctx) (.nil : ColorTree (Address w))).inorder.Nodup) :
    (insertAt (f :: ctx) n).inorder =
      insertBeside f.side f.label n (fill (f :: ctx) .nil).inorder := by
  obtain ⟨d, c, p, u⟩ := f
  rw [inorder_fill] at hnd
  rw [inorder_insertAt, inorder_fill]
  cases d with
  | left =>
    simp only [before, after, ColorTree.inorder, List.append_nil, List.cons_append] at hnd ⊢
    rw [insertBeside_left]
    intro hp
    exact (List.nodup_append.mp hnd).2.2 p hp p (by simp) rfl
  | right =>
    simp only [before, after, ColorTree.inorder, List.append_nil, List.append_assoc,
      List.singleton_append] at hnd ⊢
    rw [← List.append_assoc] at hnd
    rw [← List.append_assoc (before ctx), ← List.append_assoc (before ctx), insertBeside_right]
    intro hp
    exact (List.nodup_append.mp hnd).2.2 p hp p (by simp) rfl

theorem inorder_unlinkAt_erase {c : Color} {l r : ColorTree (Address w)}
    (h : (fill ctx (.node c l n r)).IsRedBlack) (hnd : (fill ctx (.node c l n r)).inorder.Nodup) :
    (unlinkAt ctx (.node c l n r)).inorder = (fill ctx (.node c l n r)).inorder.erase n := by
  rw [inorder_unlinkAt h]
  rw [inorder_fill] at hnd ⊢
  have hn : n ∉ before ctx ++ l.inorder := by
    intro hn
    simp only [ColorTree.inorder, List.append_assoc, List.cons_append] at hnd
    rw [← List.append_assoc] at hnd
    exact (List.nodup_append.mp hnd).2.2 n hn n (by simp) rfl
  simp only [ColorTree.inorder, List.append_assoc, List.cons_append]
  rw [← List.append_assoc (before ctx) l.inorder (n :: _), List.erase_append_right _ hn,
    List.erase_cons_head, List.append_assoc]

/-- A leaf brings its label into the context. -/
theorem perm_leaf (ctx : Context (Address w)) (n : Address w) :
    (fill ctx (leaf n)).inorder.Perm ((fill ctx .nil).inorder ++ [n]) := by
  refine (fill_perm _ _).trans (.trans ?_ (List.Perm.append_right _ (fill_perm _ _).symm))
  simp only [leaf, ColorTree.inorder, List.nil_append]
  exact List.perm_append_comm

end Lists

namespace Change

variable {c : Call w} {t : Address w} {T T' : ColorTree (Address w)} {k : ℕ}

theorem changes (h : Change t c T T' k) : c.Changes = true := by cases h <;> rfl

theorem redBlack (h : Change t c T T' k) (hT : T.IsRedBlack) : T'.IsRedBlack := by
  cases h with
  | plant n => exact @isRedBlack_insertAt _ [] hT n
  | add t' f ctx n => exact isRedBlack_insertAt hT n
  | link f ctx n => exact isRedBlack_insertAt hT n
  | unlink ctx c l n r => exact isRedBlack_unlinkAt hT
  | unlinkStale ctx c l n r => exact isRedBlack_unlinkAt hT

theorem inorder (h : Change t c T T' k) (hT : T.IsRedBlack) (hnd : T.inorder.Nodup) :
    T'.inorder = c.onList T.inorder := by
  cases h with
  | plant n => exact inorder_insertAt [] n
  | add t' f ctx n =>
    rw [inorder_insertAt_cons hnd]
    obtain ⟨d, c, p, u⟩ := f
    cases d <;> rfl
  | link f ctx n =>
    rw [inorder_insertAt_cons hnd]
    obtain ⟨d, c, p, u⟩ := f
    cases d <;> rfl
  | unlink ctx c l n r => exact inorder_unlinkAt_erase hT hnd
  | unlinkStale ctx c l n r => exact inorder_unlinkAt_erase hT hnd

theorem potential_le (h : Change t c T T' k) (hT : T.IsRedBlack) :
    k + potential T' ≤ potential T + 2 := by
  cases h with
  | plant n => exact @potential_insertAt _ [] hT n
  | add t' f ctx n => exact potential_insertAt hT n
  | link f ctx n => exact potential_insertAt hT n
  | unlink ctx c l n r => exact potential_unlinkAt hT
  | unlinkStale ctx c l n r => exact potential_unlinkAt hT

/-- Nothing but the added node enters the tree, and only removed nodes leave it. -/
theorem mem_inorder (h : Change t c T T' k) (hT : T.IsRedBlack) (hnd : T.inorder.Nodup)
    {a : Address w} (ha : a ∈ T'.inorder) : a ∈ T.inorder ++ c.added := by
  cases h with
  | plant n =>
    rw [inorder_insertAt] at ha
    exact List.mem_append.mpr (.inr (by simpa [before, after, Call.added] using ha))
  | add t' f ctx n | link f ctx n =>
    rw [inorder_insertAt] at ha
    simp only [inorder_fill, Call.added, ColorTree.inorder, List.mem_append, List.mem_cons] at ha ⊢
    tauto
  | unlink ctx c l n r | unlinkStale ctx c l n r =>
    rw [inorder_unlinkAt_erase hT hnd] at ha
    exact List.mem_append.mpr (.inl (List.mem_of_mem_erase ha))

theorem added_mem (h : Change t c T T' k) {a : Address w} (ha : a ∈ c.added) : a ∈ T'.inorder := by
  cases h with
  | plant n | add t' f ctx n | link f ctx n =>
    obtain rfl : a = n := by simpa [Call.added] using ha
    simp [inorder_insertAt]
  | unlink ctx c l n r | unlinkStale ctx c l n r => cases ha

theorem nodup (h : Change t c T T' k) (hT : T.IsRedBlack) (hnd : (T.inorder ++ c.added).Nodup) :
    T'.inorder.Nodup := by
  cases h with
  | plant n => exact hnd
  | add t' f ctx n | link f ctx n =>
    rw [insertAt, inorder_repaint _ (by simp [leaf])]
    exact (perm_leaf _ n).nodup_iff.mpr hnd
  | unlink ctx c l n r | unlinkStale ctx c l n r =>
    rw [inorder_unlinkAt_erase hT (List.nodup_append.mp hnd).1]
    exact (List.nodup_append.mp hnd).1.erase n

end Change

section Exec

variable {M : Region w} {m : FieldHeap w} {top : Address w}

theorem exec_rbnodeInit {k : Unit → Prog w Unit} {Q : Unit → FieldHeap w → ℕ → Prop}
    {n : Address w} (hl : n ∈ M.links) (he : n ∈ M.edges) :
    Exec M (rbnodeInit (some n) >>= k) Q m ↔ Exec M (k ()) Q
      (((m.setLink n .unlinked).store (.left n) none).store (.right n) none) := by
  have hnil : ∀ g d, M.Allows g (.store (.child d n) none) := fun g d =>
    ⟨covers_child.mpr he, .nil, rfl, by simp [ColorTree.inorder], by simp [ColorTree.inorder]⟩
  have hw : separate.write n (some n) 0#(w + 2) = .ok .unlinked := by
    rw [← flagWord_black]
    simp [separate, decodeFlags_flagWord]
  have hset : Exec M (rbnodeSetParentAndFlags (some n) (some n) 0#(w + 2) >>= fun _ =>
        storeLeft (some n) none >>= fun _ => storeRight (some n) none >>= k) Q m ↔
      Exec M (storeLeft (some n) none >>= fun _ => storeRight (some n) none >>= k) Q
        (m.setLink n .unlinked) := by
    refine exec_writeLink.trans ?_
    simp [hw, hl]
  unfold rbnodeInit
  simp only [bind_assoc]
  rw [hset, exec_storeLeft (hnil _ .left), exec_storeRight (hnil _ .right)]
  rfl

/-- The call is c_rbnode_unlink() only if its node is marked as unlinked. -/
def Call.Marks (c : Call w) (m : FieldHeap w) : Prop := ∀ n, c = .unlink n → m.link n = .unlinked

theorem marks_of_ne {c : Call w} (h : ∀ n, c ≠ .unlink n) : c.Marks m := fun n hn => absurd hn (h n)

theorem exec_rbnodeUnlink {ctx : Context (Address w)} {c : Color} {l r : ColorTree (Address w)}
    {n : Address w} (h : TreeAt m (.root top) (fill ctx (.node c l n r)))
    (hrb : (fill ctx (.node c l n r)).IsRedBlack) (hnd : (fill ctx (.node c l n r)).inorder.Nodup)
    (hM : M.Owns top (fill ctx (.node c l n r)).inorder) :
    Exec M (rbnodeUnlink (some n)) (fun _ m' i =>
      (TreeAt m' (.root top) (unlinkAt ctx (.node c l n r)) ∧ (Call.unlink n).Marks m') ∧
        i = 2 * unlinkTurns ctx (.node c l n r)) m := by
  have hn : n ∈ (fill ctx (.node c l n r)).inorder := by simp [mem_fill, ColorTree.inorder]
  have hctx : n ∉ elems ctx :=
    (List.nodup_append'.mp (nodup_fill.mp hnd)).2.2 (by simp [ColorTree.inorder])
  have hgone : n ∉ (unlinkAt ctx (.node c l n r)).inorder := by
    rw [inorder_unlinkAt_erase hrb hnd]
    exact hnd.not_mem_erase
  unfold rbnodeUnlink
  rw [exec_isLinked (treeAt_fill.mp h).1.2.1 hctx, if_pos rfl, exec_bind]
  refine exec_mono ?_ (exec_rbnodeUnlinkStale h hrb hnd
    (hM.mono fun a ha => List.mem_of_mem_erase ha) (hM.link n hn))
  rintro _ m' i ⟨⟨hm', -⟩, rfl⟩
  refine exec_last ((exec_rbnodeInit (hM.link n hn) (hM.edge n hn)).mpr ⟨⟨?_, ?_⟩, rfl⟩)
  · refine (treeAt_store (by simp) (clear_child (d := .right).mpr hgone)).mpr ?_
    refine (treeAt_store (by simp) (clear_child (d := .left).mpr hgone)).mpr ?_
    exact (treeAt_setLink hgone).mpr hm'
  · rintro _ h
    cases h
    simp

theorem exec_change {c : Call w} {T T' : ColorTree (Address w)} {k : ℕ} (h : Change top c T T' k)
    (hm : TreeAt m (.root top) T) (hT : T.IsRedBlack) (hnd : (T.inorder ++ c.added).Nodup)
    (hM : M.Owns top (T.inorder ++ c.added)) :
    Exec M c.code (fun _ m' i => (TreeAt m' (.root top) T' ∧ c.Marks m') ∧ i = k) m := by
  cases h with
  | plant n =>
    refine exec_mono ?_ (@exec_rbtreeAdd w M m top [] n top (fun _ => rfl) hm hT hnd hM)
    rintro _ m' i ⟨hm', rfl⟩
    exact ⟨⟨hm', marks_of_ne (by simp)⟩, rfl⟩
  | add t' f ctx n =>
    have hadd := @exec_rbtreeAdd w M m top (f :: ctx) n t' (by simp) hm hT
      ((perm_leaf _ n).nodup_iff.mpr hnd) (hM.mono fun a ha => (perm_leaf _ n).mem_iff.mp ha)
    rw [hole_cons, Slot.holder_child] at hadd
    refine exec_mono ?_ hadd
    rintro _ m' i ⟨hm', rfl⟩
    exact ⟨⟨hm', marks_of_ne (by simp)⟩, rfl⟩
  | link f ctx n =>
    refine exec_mono ?_ (exec_rbnodeLink hm hT ((perm_leaf _ n).nodup_iff.mpr hnd)
      (hM.mono fun a ha => (perm_leaf _ n).mem_iff.mp ha))
    rintro _ m' i ⟨hm', rfl⟩
    exact ⟨⟨hm', marks_of_ne (by simp)⟩, rfl⟩
  | unlink ctx c l n r =>
    simp only [Call.added, List.append_nil] at hnd hM
    exact exec_rbnodeUnlink hm hT hnd hM
  | unlinkStale ctx c l n r =>
    simp only [Call.added, List.append_nil] at hnd hM
    refine exec_mono ?_ (exec_rbnodeUnlinkStale hm hT hnd
      (hM.mono fun a ha => List.mem_of_mem_erase ha)
      (hM.link n (by simp [mem_fill, ColorTree.inorder])))
    rintro _ m' i ⟨⟨hm', -⟩, rfl⟩
    exact ⟨⟨hm', marks_of_ne (by simp)⟩, rfl⟩

theorem exec_rbtreeInit {t : Address w} (ht : t ∈ M.roots) :
    Exec M (rbtreeInit (some t)) (fun _ m' i => m'.load (.root t) = none ∧ i = 0) m := by
  have hA : M.Allows m.load (.store (.root t) none) :=
    ⟨covers_root.mpr ht, .nil, rfl, by simp, by simp [ColorTree.inorder]⟩
  exact exec_last (exec_store.mpr ⟨hA, Memory.load_store_self _ _ _, rfl⟩)

theorem exec_loadRoot {β : Type} {k : Pointer w → Prog w β} {Q : β → FieldHeap w → ℕ → Prop}
    {t : Address w} :
    Exec M (loadRoot (some t) >>= k) Q m ↔ Exec M (k (m.load (.root t))) Q m :=
  exec_load

theorem exec_storeRoot {β : Type} {k : Unit → Prog w β} {Q : β → FieldHeap w → ℕ → Prop}
    {t : Address w} {p : Pointer w} (hA : M.Allows m.load (.store (.root t) p)) :
    Exec M (storeRoot (some t) p >>= k) Q m ↔ Exec M (k ()) Q (m.store (.root t) p) :=
  exec_store.trans (and_iff_right hA)

theorem exec_rbtreeMove {dst src : Address w} {T : ColorTree (Address w)}
    (h : TreeAt m (.root src) T) (hd : m.load (.root dst) = none) (hnd : T.inorder.Nodup)
    (hM : M.Owns src T.inorder) (hdst : dst ∈ M.roots) :
    Exec M (rbtreeMove (some dst) (some src)) (fun _ m' i =>
      (TreeAt m' (.root dst) T ∧ m'.load (.root src) = none) ∧ i = 0) m := by
  unfold rbtreeMove
  rw [exec_loadRoot, exec_assert (by rw [hd]; rfl), exec_loadRoot, h.load]
  cases T with
  | nil => exact ⟨⟨hd, h⟩, rfl⟩
  | node c l r u =>
    have hne : dst ≠ src := by
      rintro rfl
      rw [h.1] at hd
      cases hd
    obtain ⟨hl, hk, htl, htu⟩ := h
    have hr : r ∈ (ColorTree.node c l r u).inorder := by simp [ColorTree.inorder]
    have hA : ∀ t ∈ M.roots, ∀ g : FieldHeap w, (∀ a, g.load (.left a) = m.load (.left a) ∧
        g.load (.right a) = m.load (.right a)) → M.Allows g.load (.store (.root t) (some r)) := by
      intro t ht g hg
      refine ⟨covers_root.mpr ht, .node c l r u, ?_, by simp,
        fun a ha => hM.member a ha⟩
      exact (unfolds_congr fun a _ => hg a).mpr ⟨rfl, htl.unfolds, htu.unfolds⟩
    have hnil : ∀ g, M.Allows g (.store (.root src) none) := fun g =>
      ⟨covers_root.mpr hM.root, .nil, rfl, by simp, by simp [ColorTree.inorder]⟩
    have hndr : r ∉ l.inorder ∧ r ∉ u.inorder := by
      simp [ColorTree.inorder, List.nodup_append'] at hnd
      simp [hnd]
    rw [ColorTree.root?, whenSet_some, exec_loadRoot, hl,
      exec_popRoot (s := .root src) hk (by simp [Slot.holder]) (hM.link r hr)]
    rw [exec_assert (by simp [treeOf]), exec_loadRoot, Memory.load_setLink, hl,
      exec_storeRoot (hA dst hdst _ (by simp)), exec_storeRoot (hnil _), exec_loadRoot,
      Memory.load_store_of_ne _ (by simpa using hne), Memory.load_store_self]
    refine (exec_pushRoot (s := .root dst) (k := fun _ => pure ()) (c := c) (by simp [Slot.holder])
      (hM.link r hr) fun _ => hA dst hdst _ (by simp)).mpr ⟨⟨⟨?_, ?_, ?_, ?_⟩, ?_⟩, rfl⟩
    · simp [crown, Slot.holder]
    · simp [crown, Slot.holder]
    · simp [crown, Slot.holder, hndr, htl]
    · simp [crown, Slot.holder, hndr, htu]
    · simp [crown, Slot.holder, Ne.symm hne]

end Exec

end CRbtree
