import CRbtree.Rebalancing
import CRbtree.Walking

set_option autoImplicit false

/-!
c_rbnode_unlink_stale() in memory: the removal of a node with no child, one child or two, and
the rebalancing after it.
-/

namespace CRbtree
open RedBlack TaggedPointers PointerGraphs Programs

variable {w : ℕ} {M : Region w} {m : FieldHeap w} {top : Address w} {ctx : Context (Address w)}

attribute [local simp] List.disjoint_comm address_comm

theorem Region.Owns.mono {l l' : List (Address w)} (h : M.Owns top l) (hl : ∀ a ∈ l', a ∈ l) :
    M.Owns top l' :=
  ⟨fun a ha => h.member a (hl a ha), fun a ha => h.edge a (hl a ha),
    fun a ha => h.link a (hl a ha), h.root⟩

theorem Region.Owns.covers_outer (ctx' : Context (Address w)) {t : ColorTree (Address w)}
    (h : M.Owns top (fill (ctx' ++ ctx) t).inorder) : M.Covers (hole (.root top) ctx) := by
  rw [fill_append] at h
  exact h.covers_hole

/-- The region without the `__parent_and_flags` field of `n`. -/
def Region.freeze (M : Region w) (n : Address w) : Region w := { M with links := M.links \ {n} }

theorem Region.Owns.freeze {l : List (Address w)} {n : Address w} (h : M.Owns top l) (hn : n ∉ l) :
    (M.freeze n).Owns top l :=
  ⟨h.member, h.edge, fun a ha => ⟨h.link a ha, fun he => hn (he ▸ ha)⟩, h.root⟩

theorem Region.allows_freeze {g : PointerGraphs.Graph (Address w) (Address w)} {n : Address w}
    {c : Command w} (h : (M.freeze n).Allows g c) : M.Allows g c := by
  cases c with
  | write a p f => exact h.1
  | load s | store s v | raw a | flags a | parent a | turn k | crash e => exact h

theorem exec_freeze {α : Type} {p : Prog w α} {Q : α → FieldHeap w → ℕ → Prop} {n : Address w}
    (hp : Exec (M.freeze n) p Q m) :
    Exec M p (fun a m' i => Q a m' i ∧ m'.link n = m.link n) m := by
  have hkeep : ∀ (c : Command w) (m₁ : FieldHeap w) (r : Answer c) (m₂ : FieldHeap w),
      m₁.link n = m.link n → (M.freeze n).Allows m₁.load c →
      machine separate c m₁ = .ok (r, m₂) → m₂.link n = m.link n := by
    intro c m₁ r m₂ hI hg hm
    rcases machine_cases hm with ⟨s, v, -, rfl⟩ | ⟨a, q, x, l, rfl, -, rfl⟩ | ⟨-, rfl⟩
    · rw [Memory.link_store, hI]
    · rw [Memory.link_setLink_of_ne _ fun he => hg.2 he.symm, hI]
    · exact hI
  exact wp_guard (fun _ _ => Region.allows_freeze) (wp_invariant hkeep hp rfl)

/-- Cases 1.1 and 1.2: the only child moves up. -/
theorem exec_unlinkOnly (d : Side) {c : Color} (ct : Color) {a b : ColorTree (Address w)}
    {n v : Address w} (h : TreeAt m (.root top) (fill ctx (.join d c (.join d ct a v b) n .nil)))
    (hnd : (fill ctx (.join d c (.join d ct a v b) n .nil)).inorder.Nodup)
    (hM : M.Owns top (fill ctx (.join d ct a v b)).inorder) (hn : n ∈ M.links) :
    Exec M (unlinkOnly d (some n)) (fun _ m' i =>
      (TreeAt m' (.root top) (fill ctx (.join d .black a v b)) ∧
        m'.link n = .linked (hole (.root top) ctx).holder c none) ∧ i = 0) m := by
  obtain ⟨⟨hctx, hl, hk, -⟩, ht⟩ := stem_of_treeAt h
  obtain ⟨hvl, hvk, ha, hb⟩ := treeAt_join.mp ht
  have hcov := hM.covers_hole
  simp [nodup_fill, List.nodup_append', ColorTree.inorder] at hnd
  have hin : ∀ z ∈ (ColorTree.join d ct a v b).inorder, z ∈ (fill ctx (.join d ct a v b)).inorder :=
    fun z hz => mem_fill.mpr (.inl hz)
  have hA : M.Allows m.load (.store (hole (.root top) ctx) (some v)) := by
    refine ⟨hcov, .join d ct a v b, ?_, clear_hole clear_root (by simp [hnd]), fun x hx => ?_⟩
    · rw [← hvl]
      exact ht.unfolds
    · exact hM.member x (hin x hx)
  unfold unlinkOnly
  rw [exec_popRoot hk (holder_hole_ne (by simp [hnd])) hn, exec_loadChild,
    Memory.load_setLink, hvl,
    exec_swapHole top ctx (c := c) (by simp) (by simpa [hnd] using hl) (by simp [hnd, hctx])
      (by simp [hnd]) (by simpa using hA), exec_loadChild, load_swap_of_ne (by simp [hnd]),
    Memory.load_setLink, hvl, exec_parent_linked (p := (hole (.root top) ctx).holder) (c := c)
      (by simp), exec_loadChild, load_swap_of_ne (by simp [hnd]), Memory.load_setLink, hvl,
    exec_flags_linked (q := some n) (c := ct) (by simp [hnd, hvk]), flagWord_clear_red,
    exec_setLink (n := v) (holder_hole_ne (by simp [hnd])) (hM.link v (hin v (by simp))),
    exec_loadChild, Memory.load_setLink, load_swap_of_ne (by simp [hnd]), Memory.load_setLink, hvl,
    exec_pushRoot (c := .black) (by simp) (hM.link v (hin v (by simp)))
      (fun h => by simpa [swap, h] using hA), exec_pure]
  refine ⟨⟨treeAt_fill.mpr ⟨?_, ?_⟩, ?_⟩, rfl⟩
  · simp [hnd, ha, hb]
  · simp [hnd, hctx]
  · simp [hnd]

/-- Case 1.0: a leaf. -/
theorem exec_unlinkLeaf {c : Color} {n : Address w}
    (h : TreeAt m (.root top) (fill ctx (.node c .nil n .nil)))
    (hdef : c = .black → Deficit ctx .nil)
    (hnd : (fill ctx (.node c .nil n .nil)).inorder.Nodup)
    (hM : M.Owns top (fill ctx .nil).inorder) (hn : n ∈ M.links) :
    Exec M (unlinkLeaf (some n)) (fun _ m' i =>
      (TreeAt m' (.root top) (close ctx c .nil) ∧
        m'.link n = .linked (hole (.root top) ctx).holder c none) ∧
        i = 2 * closeTurns ctx c .nil) m := by
  obtain ⟨⟨hctx, hl, hk, -⟩, -⟩ := stem_of_treeAt (d := .left) h
  have hcov := hM.covers_hole
  have hndn : (fill ctx .nil).inorder.Nodup := by
    rw [nodup_fill] at hnd ⊢
    exact (List.nodup_append'.mp hnd).2.1
  simp [nodup_fill, ColorTree.inorder] at hnd
  have hA : M.Allows m.load (.store (hole (.root top) ctx) none) :=
    ⟨hcov, .nil, rfl, clear_hole clear_root (by simp [ColorTree.inorder]),
      by simp [ColorTree.inorder]⟩
  unfold unlinkLeaf
  rw [exec_popRoot hk (holder_hole_ne hnd.1) hn,
    exec_swapHole top ctx (c := c) (by simp) (by simpa [hnd] using hl) (by simp [hnd, hctx])
      (by simp [hnd]) (by simpa using hA),
    exec_pushRoot_none (fun h => by simpa [swap, h] using hA)]
  simp only [swap_setLink, crown_setLink, crown_swap]
  have hm : TreeAt ((m.store (hole (.root top) ctx) none).setLink n
      (.linked (hole (.root top) ctx).holder c none)) (.root top) (fill ctx .nil) := by
    refine treeAt_fill.mpr ⟨?_, ?_⟩
    · simp [TreeAt]
    · simp [hnd, hctx]
  rw [exec_isBlack (q := (hole (.root top) ctx).holder) (c := c) (t := none) (by simp)]
  cases c with
  | red => exact ⟨⟨hm, by simp⟩, rfl⟩
  | black =>
    rw [if_pos (by simp), exec_parent_linked (p := (hole (.root top) ctx).holder) (c := .black)
      (by simp)]
    have hfrozen : n ∉ (fill ctx .nil).inorder := by simp [mem_fill, ColorTree.inorder, hnd]
    refine exec_mono ?_ (exec_freeze (exec_rebalance hm (hdef rfl) hndn (hM.freeze hfrozen)))
    rintro _ m' i ⟨⟨hm', rfl⟩, hlink⟩
    exact ⟨⟨hm', hlink.trans (by simp)⟩, rfl⟩

/-- The successor `s` of `n` is cut out of the right subtree of `n` and holds what is left
of it: a path with `child` in its hole. -/
structure Spliced (m : FieldHeap w) (top : Address w) (ctx : Context (Address w)) (c : Color)
    (l : ColorTree (Address w)) (n s : Address w) (path : Context (Address w)) (cs : Color)
    (child : ColorTree (Address w)) : Prop where
  context : ContextAt m (.root top) ctx
  load : m.load (hole (.root top) ctx) = some n
  link : m.link n = .linked (hole (.root top) ctx).holder c none
  left : TreeAt m (.child .left n) l
  succ : ∃ q, m.link s = .linked (some q) cs none
  spine : ContextAt m (.child .right s) path
  below : m.load (hole (.child .right s) path) = child.root?
  loose : Loose m child

section Successor

variable {c cs cq : Color} {l u child : ColorTree (Address w)} {n s p q : Address w}
  {path inner : Context (Address w)}

/-- A path that only goes left ends in a left field. -/
theorem exists_hole_left (q : Address w) (hinner : ∀ f ∈ inner, f.side = .left) :
    ∃ p, hole (.child .left q) inner = .child .left p ∧ p ∈ q :: elems inner := by
  cases inner with
  | nil => exact ⟨q, rfl, by simp⟩
  | cons g inner => exact ⟨g.label, by rw [hole_cons, hinner g (by simp)], by simp [elems]⟩

/-- Storing the right subtree of `s` in the field that held `s` cuts `s` out. -/
theorem cut_leftmost (hP : hole (.child .left q) inner = .child .left p)
    (hpath : ContextAt m (.child .right n) (inner ++ [⟨.left, cq, q, u⟩]))
    (hs : TreeAt m (.child .right s) child) (hp : p ∉ child.inorder)
    (hnd : (fill (inner ++ [⟨.left, cq, q, u⟩]) (.node cs .nil s child)).inorder.Nodup) :
    ContextAt (m.store (.child .left p) child.root?) (.child .left q) inner ∧
      TreeAt (m.store (.child .left p) child.root?) (.child (Side.left).flip q) u ∧
      Unfolds (m.store (.child .left p) child.root?).load (some q)
        (fill (inner ++ [⟨.left, cq, q, u⟩]) child) := by
  obtain ⟨hinner, hq, hqk, hu, -⟩ := contextAt_append.mp hpath
  simp only [hole_cons, hole_nil] at hinner hq hqk
  simp [nodup_fill, List.nodup_append', elems_append, elems, ColorTree.inorder] at hnd
  have hinner₁ : ContextAt (m.store (.child .left p) child.root?) (.child .left q) inner := by
    rw [← hP]
    exact (contextAt_store_hole hnd.2.2.1.1 (clear_child.mpr hnd.2.2.1.2.2.1)).mpr hinner
  have hu₁ : TreeAt (m.store (.child .left p) child.root?) (.child (Side.left).flip q) u := by
    rw [← hP]
    refine (treeAt_store (child_ne_hole (by simp) ?_) (clear_hole ?_ ?_)).mpr hu
    · simp [hnd]
    · simp [hnd]
    · simp [hnd]
  have hq₁ : (m.store (.child .left p) child.root?).load (.child .right n) = some q := by
    simp [hq]
  refine ⟨hinner₁, hu₁, ?_⟩
  rw [← hq₁]
  refine ContextAt.unfolds (contextAt_append.mpr ⟨hinner₁, hq₁, by simp [hqk], hu₁, trivial⟩) ?_
  rw [hole_append, hole_cons, hP, Memory.load_store_self, Memory.load_store]
  exact (unfolds_update (by simp [hp])).mpr (hs.load ▸ hs.unfolds)

/-- The successor of `n` is its right child. -/
theorem exec_unlinkSuccessor_child (hctx : ContextAt m (.root top) ctx)
    (hl : m.load (hole (.root top) ctx) = some n)
    (hk : m.link n = .linked (hole (.root top) ctx).holder c none)
    (htl : TreeAt m (.child .left n) l) (htr : TreeAt m (.child .right n) (.node cs .nil s child)) :
    Exec M (unlinkSuccessor (some n)) (fun r m' i => (∃ p, r = (some s, some p, child.root?) ∧
      (hole (.child .right s) []).holder = some p ∧
      Spliced m' top ctx c l n s [] cs child) ∧ i = 0) m := by
  obtain ⟨hnl, hsk, hsn, hsc⟩ := htr
  have hnr : m.load (.child .right n) = some s := hnl
  have hsl : m.load (.child .left s) = none := hsn
  have hsr : m.load (.child .right s) = child.root? := hsc.load
  unfold unlinkSuccessor
  rw [exec_loadRight, hnr, exec_loadLeft, hsl, if_pos (by simp), exec_loadRight, hsr, exec_pure]
  refine ⟨⟨s, rfl, by simp, hctx, hl, hk, htl, ⟨n, hsk⟩, trivial, hsr, ?_⟩, rfl⟩
  exact TreeAt.loose (d := .right) hsc

/-- The successor of `n` is the leftmost node below its right child `q`. -/
theorem exec_unlinkSuccessor_leftmost (hctx : ContextAt m (.root top) ctx)
    (hl : m.load (hole (.root top) ctx) = some n)
    (hk : m.link n = .linked (hole (.root top) ctx).holder c none)
    (htl : TreeAt m (.child .left n) l)
    (htr : TreeAt m (.child .right n)
      (fill (inner ++ [⟨.left, cq, q, u⟩]) (.node cs .nil s child)))
    (hleft : ∀ f ∈ inner, f.side = .left)
    (hnd : (fill ((inner ++ [⟨.left, cq, q, u⟩]) ++ ⟨.right, c, n, l⟩ :: ctx)
      (.node cs .nil s child)).inorder.Nodup)
    (hM : M.Owns top
      (fill ((inner ++ [⟨.left, cq, q, u⟩]) ++ ⟨.right, c, s, l⟩ :: ctx) child).inorder) :
    Exec M (unlinkSuccessor (some n)) (fun r m' i => (∃ p, r = (some s, some p, child.root?) ∧
      (hole (.child .right s) (inner ++ [⟨.left, cq, q, u⟩])).holder = some p ∧
      Spliced m' top ctx c l n s (inner ++ [⟨.left, cq, q, u⟩]) cs child) ∧ i = 0) m := by
  obtain ⟨⟨hsl, hsk, hsnil, hsc⟩, hpath⟩ := treeAt_fill.mp htr
  obtain ⟨p, hP, hpm⟩ := exists_hole_left q hleft
  obtain ⟨hinner, hql, hqk, -, -⟩ := contextAt_append.mp hpath
  simp only [hole_append, hole_cons, hole_nil] at hsl hsk hinner hql hqk
  have hin : ∀ x ∈ (fill (inner ++ [⟨.left, cq, q, u⟩]) child).inorder,
      x ∈ (fill ((inner ++ [⟨.left, cq, q, u⟩]) ++ ⟨.right, c, s, l⟩ :: ctx) child).inorder := by
    simp [mem_fill, elems_append, elems]
    grind
  have htq : TreeAt m (.child .left q) (fill inner (.node cs .nil s child)) :=
    treeAt_fill.mpr ⟨⟨hsl, hsk, hsnil, hsc⟩, hinner⟩
  have hqne : (m.load (.child .left q)).isNone = false := by
    rw [htq.load]
    cases hr : (fill inner (.node cs .nil s child)).root? with
    | none => exact absurd (ColorTree.root?_eq_none.mp hr) (fill_ne_nil inner (by simp))
    | some x => rfl
  have hndr : (fill (inner ++ [⟨.left, cq, q, u⟩]) (.node cs .nil s child)).inorder.Nodup := by
    rw [fill_append, nodup_fill] at hnd
    exact (List.nodup_append'.mp hnd).1
  have hroot : (fill (inner ++ [⟨.left, cq, q, u⟩]) (.node cs .nil s child)).root? = some q := by
    simp [fill_append, fill, Frame.wrap]
  have hsr : m.load (.child .right s) = child.root? := hsc.load
  simp [nodup_fill, List.nodup_append', elems_append, elems, ColorTree.inorder] at hnd
  have hpc : p ∉ child.inorder ∧ p ∉ l.inorder ∧ p ∉ elems ctx ∧ n ≠ p ∧ s ≠ p := by
    have hdis : (q :: elems inner).Disjoint child.inorder ∧
        (q :: elems inner).Disjoint l.inorder ∧ (q :: elems inner).Disjoint (elems ctx) ∧
        n ∉ q :: elems inner ∧ s ∉ q :: elems inner := by
      simp [hnd]
    exact ⟨hdis.1 hpm, hdis.2.1 hpm, hdis.2.2.1 hpm, fun h => hdis.2.2.2.1 (h ▸ hpm),
      fun h => hdis.2.2.2.2 (h ▸ hpm)⟩
  have hpin : p ∈ (fill (inner ++ [⟨.left, cq, q, u⟩]) child).inorder := by
    simp only [mem_fill, elems_append, elems, List.mem_append, List.mem_cons] at hpm ⊢
    grind
  obtain ⟨hinner₁, hu₁, hsub⟩ := cut_leftmost hP hpath hsc hpc.1 hndr
  have hA : M.Allows m.load (.store (.child .left p) child.root?) :=
    ⟨covers_child.mpr (hM.edge p (hin p hpin)), child, hsr ▸ TreeAt.unfolds hsc, by simp [hpc],
      fun x hx => hM.member x (hin x (mem_fill.mpr (.inl hx)))⟩
  have hA' : M.Allows (m.store (.child .left p) child.root?).load
      (.store (.child .right s) (some q)) := by
    refine ⟨covers_child.mpr (hM.edge s ?_), _, hsub, ?_, fun x hx => hM.member x (hin x hx)⟩
    · simp [mem_fill, elems_append, elems]
    · simp [mem_fill, elems_append, elems, hnd]
  unfold unlinkSuccessor
  rw [exec_loadRight, hql, exec_loadLeft, if_neg (by simp [hqne]), ← hroot,
    exec_rbnodeLeftmost htr hndr,
    extreme_fill (a := s) (by simpa [or_imp, forall_and] using hleft) rfl,
    exec_parent hsk, hP, Slot.holder_child, exec_loadRight, hsr, exec_storeLeft hA,
    exec_loadRight, Memory.load_store_of_ne _ (by simp), hql, exec_storeRight hA', exec_loadRight,
    Memory.load_store_of_ne _ (by simp [hnd]), Memory.load_store_of_ne _ (by simp), hql,
    exec_loadRight, Memory.load_store_of_ne _ (by simp [hnd]),
    Memory.load_store_of_ne _ (by simp), hql,
    exec_flags_linked (q := some n) (c := cq) (by simpa using hqk),
    exec_setLink (n := q) (p := some s) (by simp [hnd])
      (hM.link q (hin q (by simp [mem_fill, elems_append, elems]))), exec_pure]
  refine ⟨⟨p, rfl, ?_, ?_, ?_, ?_, ?_, ?_, ?_, ?_, ?_⟩, rfl⟩
  · rw [hole_append, hole_cons, hP, Slot.holder_child]
  · simp [hnd, hpc, hctx]
  · simp [hnd, hpc, hl]
  · simp [hnd, hk]
  · simp [hnd, hpc, htl]
  · exact ⟨p, by simp [hnd, hsk, hP]⟩
  · refine contextAt_append.mpr ⟨?_, ?_, ?_, ?_, trivial⟩
    · simp [hnd, hinner₁]
    · simp
    · simp
    · simp [hnd, hu₁]
  · rw [hole_append, hole_cons, hP]
    simp [hpc]
  · simp [hnd, hpc, TreeAt.loose (d := .right) hsc]

theorem exec_unlinkSuccessor (hctx : ContextAt m (.root top) ctx)
    (hl : m.load (hole (.root top) ctx) = some n)
    (hk : m.link n = .linked (hole (.root top) ctx).holder c none)
    (htl : TreeAt m (.child .left n) l)
    (htr : TreeAt m (.child .right n) (fill path (.node cs .nil s child)))
    (hpath : ∀ f ∈ path, f.side = .left)
    (hnd : (fill (path ++ ⟨.right, c, n, l⟩ :: ctx) (.node cs .nil s child)).inorder.Nodup)
    (hM : M.Owns top (fill (path ++ ⟨.right, c, s, l⟩ :: ctx) child).inorder) :
    Exec M (unlinkSuccessor (some n)) (fun r m' i => (∃ p, r = (some s, some p, child.root?) ∧
      (hole (.child .right s) path).holder = some p ∧
      Spliced m' top ctx c l n s path cs child) ∧ i = 0) m := by
  rcases List.eq_nil_or_concat' path with rfl | ⟨inner, ⟨d, cq, q, u⟩, rfl⟩
  · exact exec_unlinkSuccessor_child hctx hl hk htl htr
  · obtain rfl : d = .left := hpath ⟨d, cq, q, u⟩ (by simp)
    exact exec_unlinkSuccessor_leftmost hctx hl hk htl htr
      (fun f hf => hpath f (List.mem_append_left _ hf)) hnd hM

end Successor

section Replace

variable {c cs : Color} {l child : ColorTree (Address w)} {n s p : Address w}
  {path : Context (Address w)}

theorem exec_unlinkChild {k : Pointer w → Prog w Unit} {Q : Unit → FieldHeap w → ℕ → Prop}
    {q : Pointer w} (d : Side) (cs : Color) (hs : m.link s = .linked q cs none) (hc : Loose m child)
    (hp : p ∉ child.inorder) (hM : ∀ a ∈ child.root?, a ∈ M.links) :
    Exec M (unlinkChild (some s) (some p) child.root? >>= k) Q m ↔
      Exec M (k (if child = .nil ∧ cs = .black then some p else none)) Q
        (adopt m (child.paint .black) (.child d p)) := by
  unfold unlinkChild
  cases child with
  | nil =>
    simp only [ColorTree.root?, Option.isSome_none, Bool.false_eq_true, if_false, bind_assoc]
    rw [exec_isBlack hs]
    cases cs <;> rfl
  | node cc a v b =>
    simp only [ColorTree.root?, Option.isSome_some, if_true, bind_assoc, pure_bind]
    rw [exec_adopt_black_some d hc rfl hp (hM v rfl), if_neg (by simp)]

theorem exec_unlinkInherit {k : Unit → Prog w Unit} {Q : Unit → FieldHeap w → ℕ → Prop}
    {q : Pointer w} (c cs : Color) (hn : m.link n = .linked q c none)
    (hs : ∃ q', m.link s = .linked q' cs none)
    (hq : q ≠ some s) (hM : s ∈ M.links) :
    Exec M (unlinkInherit (some n) (some s) >>= k) Q m ↔
      Exec M (k ()) Q (m.setLink s (.linked q c none)) := by
  obtain ⟨q', hs⟩ := hs
  unfold unlinkInherit
  rw [bind_assoc, exec_isRed hn]
  cases c with
  | red =>
    simp only [decide_true, if_true, bind_assoc]
    rw [exec_parent_linked hn, exec_flags_linked hs, flagWord_set_red, exec_setLink hq hM]
  | black =>
    simp only [reduceCtorEq, decide_false, Bool.false_eq_true, if_false, bind_assoc]
    rw [exec_parent_linked hn, exec_flags_linked hs, flagWord_clear_red, exec_setLink hq hM]

/-- `if (next) c_rbnode_rebalance(next);` -/
theorem exec_rebalanceNext {k : Link w} (h : TreeAt m (.root top) (fill ctx (child.paint .black)))
    (hp : (hole (.root top) ctx).holder = some p)
    (hdef : child = .nil → cs = .black → Deficit ctx .nil)
    (hnd : (fill ctx child).inorder.Nodup) (hM : M.Owns top (fill ctx child).inorder)
    (hn : n ∉ (fill ctx child).inorder) (hk : m.link n = k) :
    Exec M (whenSet (if child = .nil ∧ cs = .black then some p else none)
        (rbnodeRebalance (if child = .nil ∧ cs = .black then some p else none)))
      (fun _ m' i => (TreeAt m' (.root top) (close ctx cs child) ∧ m'.link n = k) ∧
        i = 2 * closeTurns ctx cs child) m := by
  by_cases hc : child = .nil ∧ cs = .black
  · obtain ⟨rfl, rfl⟩ := hc
    rw [if_pos ⟨rfl, rfl⟩, whenSet_some, ← hp]
    refine exec_mono ?_ (exec_freeze (exec_rebalance h (hdef rfl rfl) hnd (hM.freeze hn)))
    rintro _ m' i ⟨⟨hm', rfl⟩, hlink⟩
    exact ⟨⟨hm', hlink.trans hk⟩, rfl⟩
  · rw [if_neg hc, whenSet_none]
    cases child with
    | nil =>
      have hcs : ¬cs = .black := fun hcs => hc ⟨rfl, hcs⟩
      exact ⟨⟨by simpa [close, hcs, ColorTree.paint] using h, hk⟩, by simp [closeTurns, hcs]⟩
    | node cc a v b => exact ⟨⟨h, hk⟩, rfl⟩

/-- With the left subtree of `n` below it, `s` is the root of what was below `n`. -/
theorem Spliced.unfolds (h : Spliced m top ctx c l n s path cs child)
    (hnd : (fill (path ++ ⟨.right, c, n, l⟩ :: ctx) (.node cs .nil s child)).inorder.Nodup) :
    Unfolds (m.store (.child .left s) l.root?).load (some s) (.node c l s (fill path child)) := by
  have hnl : m.load (.child .left n) = l.root? := h.left.load
  simp [nodup_fill, List.nodup_append', elems_append, elems, ColorTree.inorder] at hnd
  refine ⟨rfl, ?_, ?_⟩
  · have hs : (m.store (.child .left s) l.root?).load (.left s) = l.root? :=
      Memory.load_store_self _ _ _
    rw [hs, Memory.load_store]
    exact (unfolds_update (by simp [hnd])).mpr (hnl ▸ h.left.unfolds)
  · have hspine : ContextAt (m.store (.child .left s) l.root?) (.child .right s) path := by
      simp [hnd, h.spine]
    refine hspine.unfolds ?_
    rw [Memory.load_store_of_ne _ (by simp [hnd]), h.below, Memory.load_store]
    exact (unfolds_update (by simp [hnd])).mpr h.loose.unfolds

theorem exec_unlinkReplace (h : Spliced m top ctx c l n s path cs child)
    (hp : (hole (.child .right s) path).holder = some p) (hl : l ≠ .nil)
    (hdef : child = .nil → cs = .black → Deficit (path ++ ⟨.right, c, s, l⟩ :: ctx) .nil)
    (hnd : (fill (path ++ ⟨.right, c, n, l⟩ :: ctx) (.node cs .nil s child)).inorder.Nodup)
    (hM : M.Owns top (fill (path ++ ⟨.right, c, s, l⟩ :: ctx) child).inorder) :
    Exec M (unlinkReplace (some n) (treeOf (hole (.root top) ctx)) (some s) (some p) child.root?)
      (fun _ m' i => (TreeAt m' (.root top) (close (path ++ ⟨.right, c, s, l⟩ :: ctx) cs child) ∧
        m'.link n = .linked (hole (.root top) ctx).holder c none) ∧
        i = 2 * closeTurns (path ++ ⟨.right, c, s, l⟩ :: ctx) cs child) m := by
  have hlifted := h.unfolds hnd
  obtain ⟨hctx, hln, hk, htl, ⟨q, hsk⟩, hspine, hbelow, hloose⟩ := h
  obtain ⟨v, hv⟩ := Option.ne_none_iff_exists'.mp (mt ColorTree.root?_eq_none.mp hl)
  obtain ⟨e, hP, hpm⟩ : ∃ e, hole (.child .right s) path = .child e p ∧ p ∈ s :: elems path := by
    cases path with
    | nil =>
      obtain rfl : s = p := by simpa using hp
      exact ⟨.right, rfl, by simp⟩
    | cons f path =>
      obtain rfl : f.label = p := by simpa using hp
      exact ⟨f.side, rfl, by simp [elems]⟩
  have hnl : m.load (.child .left n) = some v := by rw [htl.load, hv]
  have hin : ∀ x, (x = s ∨ x ∈ l.inorder ∨ x ∈ child.inorder ∨ x ∈ elems path ∨ x ∈ elems ctx) →
      x ∈ (fill (path ++ ⟨.right, c, s, l⟩ :: ctx) child).inorder := by
    simp [mem_fill, elems_append, elems]
    grind
  have hcov : M.Covers (hole (.root top) ctx) :=
    Region.Owns.covers_outer (path ++ [⟨.right, c, s, l⟩]) (by simpa using hM)
  simp [nodup_fill, List.nodup_append', elems_append, elems, ColorTree.inorder] at hnd
  have hpc : p ∉ child.inorder ∧ p ∉ l.inorder ∧ p ∉ elems ctx := by
    have hdis : (s :: elems path).Disjoint child.inorder ∧ (s :: elems path).Disjoint l.inorder ∧
        (s :: elems path).Disjoint (elems ctx) := by simp [hnd]
    exact ⟨hdis.1 hpm, hdis.2.1 hpm, hdis.2.2 hpm⟩
  have hvm := ColorTree.mem_of_root? hv
  have hA : M.Allows m.load (.store (.child .left s) (some v)) :=
    ⟨covers_child.mpr (hM.edge s (hin s (by simp))), l, hnl ▸ htl.unfolds, by simp [hnd],
      fun x hx => hM.member x (hin x (by simp [hx]))⟩
  have hA' : M.Allows (m.store (.child .left s) (some v)).load
      (.store (hole (.root top) ctx) (some s)) := by
    refine ⟨hcov, .node c l s (fill path child), hv ▸ hlifted, ?_,
      fun x hx => hM.member x (hin x ?_)⟩
    · exact clear_hole clear_root (by simp [hnd, ColorTree.inorder])
    · simp [mem_fill, ColorTree.inorder] at hx
      grind
  unfold unlinkReplace
  rw [exec_loadLeft, hnl, exec_storeLeft hA, exec_loadLeft,
    Memory.load_store_of_ne _ (by simp [hnd]),
    hnl, exec_loadLeft, Memory.load_store_of_ne _ (by simp [hnd]), hnl,
    exec_adopt_some (t := l) .left (by simp [hnd, htl.loose]) hv (by simp [hnd])
      (hM.link v (hin v (by simp [hvm]))),
    exec_unlinkChild (p := p) (q := some q) e cs (by simp [hnd, hsk])
      (by simp [hnd, hloose]) hpc.1 (hM.root_link fun x hx => hin x (by simp [hx])),
    exec_unlinkInherit (q := (hole (.root top) ctx).holder) c cs (by simp [hnd, hk])
      ⟨some q, by simp [hnd, hsk]⟩ (holder_hole_ne (by simp [hnd]))
      (hM.link s (hin s (by simp))),
    exec_swapHole top ctx (c := c) (by simp [hnd, hk]) (by simp [hnd, hln])
      (by simp [hnd, hctx]) (by simp [hnd]) (by simpa using hA'),
    exec_pushRoot (c := c) (by simp) (hM.link s (hin s (by simp)))
      (fun h => by simpa [swap, h] using hA')]
  refine exec_rebalanceNext
    (treeAt_fill.mpr ⟨?_, contextAt_append.mpr ⟨?_, ?_, ?_, ?_, ?_⟩⟩) ?_ hdef
    ?_ hM ?_ ?_
  · rw [hole_append, hole_cons, ← hP]
    simp [hnd]
    refine treeAt_adopt_paint (by simp [hnd]) (by simp [hnd, hloose]) ?_
    rw [load_adopt, Memory.load_store_of_ne _ (by rw [hP]; exact child_ne_hole (by simp) hpc.2.2),
      Memory.load_store_of_ne _ (by simp [hnd]), hbelow]
  · simp [hnd, hspine]
  · simp
  · simp
  · simp [hnd]
    exact treeAt_adopt_self (by simp [hnd]) (by simp [hnd, htl.loose]) (by simp [hnd, hv])
  · simp [hnd, hctx]
  · rw [hole_append, hole_cons, hp]
  · simp [nodup_fill, List.nodup_append', elems_append, elems, hnd]
  · simp [mem_fill, elems_append, elems, hnd]
  · simp [hnd, hk]

/-- Cases 2 and 3: the successor of a node with two children takes its place. -/
theorem exec_unlinkTwo
    (h : TreeAt m (.root top) (fill (path ++ ⟨.right, c, n, l⟩ :: ctx) (.node cs .nil s child)))
    (hl : l ≠ .nil) (hpath : ∀ f ∈ path, f.side = .left)
    (hrb : (fill (path ++ ⟨.right, c, n, l⟩ :: ctx) (.node cs .nil s child)).IsRedBlack)
    (hnd : (fill (path ++ ⟨.right, c, n, l⟩ :: ctx) (.node cs .nil s child)).inorder.Nodup)
    (hM : M.Owns top (fill (path ++ ⟨.right, c, s, l⟩ :: ctx) child).inorder) (hn : n ∈ M.links) :
    Exec M (unlinkTwo (some n))
      (fun _ m' i => (TreeAt m' (.root top) (close (path ++ ⟨.right, c, s, l⟩ :: ctx) cs child) ∧
        m'.link n = .linked (hole (.root top) ctx).holder c none) ∧
        i = 2 * closeTurns (path ++ ⟨.right, c, s, l⟩ :: ctx) cs child) m := by
  obtain ⟨hs, hctx⟩ := treeAt_fill.mp h
  obtain ⟨hp, hln, hk, htl, hctx⟩ := contextAt_append.mp hctx
  rw [hole_append, hole_cons] at hs
  have htr : TreeAt m (.child .right n) (fill path (.node cs .nil s child)) :=
    treeAt_fill.mpr ⟨hs, hp⟩
  have hout : n ∉ elems ctx ∧ n ∉ l.inorder ∧ n ∉ (fill path (.node cs .nil s child)).inorder := by
    simp [nodup_fill, List.nodup_append', elems_append, elems, ColorTree.inorder] at hnd
    simp [mem_fill, ColorTree.inorder, hnd]
  unfold unlinkTwo
  rw [exec_popRoot hk (holder_hole_ne hout.1) hn]
  have hctx₁ : ContextAt (m.setLink n (.linked (hole (.root top) ctx).holder c none))
      (.root top) ctx := by simpa [hout] using hctx
  have hln₁ : (m.setLink n (.linked (hole (.root top) ctx).holder c none)).load
      (hole (.root top) ctx) = some n := by simpa using hln
  refine exec_seq (exec_unlinkSuccessor hctx₁ hln₁ (by simp) ((treeAt_setLink hout.2.1).mpr htl)
    ((treeAt_setLink hout.2.2).mpr htr) hpath hnd hM) ?_
  rintro r m' ⟨p, rfl, hp, hs⟩
  refine exec_unlinkReplace hs hp hl ?_ hnd hM
  rintro rfl rfl
  exact Deficit.of_leaf (hrb.of_shape (shape_relabel _ _ _ _ _ _ _ _))

end Replace

/-- c_rbnode_is_linked() of a member. -/
theorem exec_isLinked {β : Type} {k : Bool → Prog w β} {Q : β → FieldHeap w → ℕ → Prop}
    {n : Address w} {c : Color} (hk : m.link n = linkAt (hole (.root top) ctx) c)
    (hn : n ∉ elems ctx) :
    Exec M (rbnodeIsLinked (some n) >>= k) Q m ↔ Exec M (k true) Q m := by
  unfold rbnodeIsLinked
  simp only [Option.isSome_some, if_true, bind_assoc, pure_bind]
  rw [exec_parent hk, bne_iff_ne.mpr (holder_hole_ne hn)]

section Tests

variable {β : Type} {n : Address w} {l r : ColorTree (Address w)} {k : Bool → Prog w β}
  {Q : β → FieldHeap w → ℕ → Prop} (hl : TreeAt m (.child .left n) l)
  (hr : TreeAt m (.child .right n) r)
include hl hr

theorem exec_hasNoChild : Exec M (hasNoChild (some n) >>= k) Q m ↔
    Exec M (k (l.root?.isNone && r.root?.isNone)) Q m := by
  unfold hasNoChild
  rw [bind_assoc, exec_loadLeft, hl.load]
  cases l with
  | nil =>
    refine exec_loadRight.trans ?_
    rw [hr.load]
    rfl
  | node c a b d => rfl

theorem exec_hasRightOnly : Exec M (hasRightOnly (some n) >>= k) Q m ↔
    Exec M (k (l.root?.isNone && r.root?.isSome)) Q m := by
  unfold hasRightOnly
  rw [bind_assoc, exec_loadLeft, hl.load]
  cases l with
  | nil =>
    refine exec_loadRight.trans ?_
    rw [hr.load]
    rfl
  | node c a b d => rfl

theorem exec_hasLeftOnly : Exec M (hasLeftOnly (some n) >>= k) Q m ↔
    Exec M (k (l.root?.isSome && r.root?.isNone)) Q m := by
  unfold hasLeftOnly
  rw [bind_assoc, exec_loadLeft, hl.load]
  cases l with
  | nil => rfl
  | node c a b d =>
    refine exec_loadRight.trans ?_
    rw [hr.load]
    rfl

end Tests

/-- c_rbnode_unlink_stale() writes no child field of its node, and leaves it the colour and
the parent that it had. -/
theorem exec_rbnodeUnlinkStale {c : Color} {l r : ColorTree (Address w)} {n : Address w}
    (h : TreeAt m (.root top) (fill ctx (.node c l n r)))
    (hrb : (fill ctx (.node c l n r)).IsRedBlack) (hnd : (fill ctx (.node c l n r)).inorder.Nodup)
    (hM : M.Owns top ((fill ctx (.node c l n r)).inorder.erase n)) (hnM : n ∈ M.links) :
    Exec M (rbnodeUnlinkStale (some n)) (fun _ m' i =>
      (TreeAt m' (.root top) (unlinkAt ctx (.node c l n r)) ∧
        m'.link n = .linked (hole (.root top) ctx).holder c none) ∧
        i = 2 * unlinkTurns ctx (.node c l n r)) m := by
  obtain ⟨⟨hl, hk, htl, htr⟩, hctx⟩ := treeAt_fill.mp h
  have hn : n ∉ elems ctx ∧ n ∉ l.inorder ∧ n ∉ r.inorder := by
    simp [nodup_fill, ColorTree.inorder, List.nodup_middle] at hnd
    simp [hnd]
  have hrest : ∀ {u : ColorTree (Address w)} {ctx'}, (∀ a ∈ (fill ctx' u).inorder,
      a ∈ elems ctx ∨ a ∈ l.inorder ∨ a ∈ r.inorder) → M.Owns top (fill ctx' u).inorder := by
    intro u ctx' hsub
    refine hM.mono fun a ha => (List.mem_erase_of_ne ?_).mpr ?_
    · rintro rfl
      have := hsub a ha
      grind
    · simp only [mem_fill, ColorTree.inorder, List.mem_append, List.mem_cons]
      have := hsub a ha
      grind
  unfold rbnodeUnlinkStale
  refine (exec_assert rfl).mpr ?_
  rw [exec_isLinked hk hn.1, exec_assert rfl, exec_hasNoChild htl htr]
  cases l with
  | nil =>
    cases r with
    | nil =>
      refine exec_unlinkLeaf h (fun hc => ?_) hnd (hrest ?_) hnM
      · change c = .black at hc
        exact Deficit.of_leaf (hc ▸ hrb)
      · simp [unlinkHole, mem_fill, ColorTree.inorder]
    | node cr a v b =>
      rw [if_neg (by simp [ColorTree.root?]), exec_hasRightOnly htl htr,
        if_pos (by simp [ColorTree.root?]), unlinkRightOnly_eq]
      refine exec_mono ?_ (exec_unlinkOnly .right cr h hnd (hrest ?_) hnM)
      · rintro _ m' i ⟨hm', rfl⟩
        exact ⟨hm', rfl⟩
      · simp [mem_fill, ColorTree.inorder]
        grind
  | node cl a v b =>
    cases r with
    | nil =>
      rw [if_neg (by simp [ColorTree.root?]), exec_hasRightOnly htl htr,
        if_neg (by simp [ColorTree.root?]), exec_hasLeftOnly htl htr,
        if_pos (by simp [ColorTree.root?]), unlinkLeftOnly_eq]
      refine exec_mono ?_ (exec_unlinkOnly .left cl h hnd (hrest ?_) hnM)
      · rintro _ m' i ⟨hm', rfl⟩
        exact ⟨hm', rfl⟩
      · simp [mem_fill, ColorTree.inorder]
        grind
    | node cr a' v' b' =>
      rw [if_neg (by simp [ColorTree.root?]), exec_hasRightOnly htl htr,
        if_neg (by simp [ColorTree.root?]), exec_hasLeftOnly htl htr,
        if_neg (by simp [ColorTree.root?])]
      obtain ⟨path, cs, s, child, heq, hfill, hleft⟩ :=
        descend_eq [] (t := .node cr a' v' b') (by simp)
      rw [List.append_nil] at heq
      simp only [unlinkAt, unlinkTurns, unlinkHole, heq]
      have hfull : fill ctx (.node c (.node cl a v b) n (.node cr a' v' b')) =
          fill (path ++ ⟨.right, c, n, .node cl a v b⟩ :: ctx) (.node cs .nil s child) := by
        rw [fill_append, hfill]
        rfl
      have hsub : ∀ x, (x = s ∨ x ∈ child.inorder ∨ x ∈ elems path) ↔
          x ∈ (ColorTree.node cr a' v' b').inorder := by
        intro x
        rw [← hfill]
        simp [mem_fill, ColorTree.inorder, or_assoc]
      rw [hfull] at h hnd hrb
      refine exec_unlinkTwo h (by simp) hleft hrb hnd (hrest fun x hx => ?_) hnM
      simp only [mem_fill, elems_append, elems, List.mem_append, List.mem_cons] at hx
      have := hsub x
      grind

end CRbtree
