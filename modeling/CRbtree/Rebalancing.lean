import CRbtree.Painting

set_option autoImplicit false

/-!
c_rbnode_rebalance() in memory: what its steps make of the tree that a region holds, and how
many turns its loop takes.
-/

namespace CRbtree
open RedBlack TaggedPointers PointerGraphs Programs

variable {w : ℕ} {M : Region w} {m : FieldHeap w} {top : Address w} {ctx : Context (Address w)}
  {d : Side} {t : ColorTree (Address w)} {p s : Address w}

attribute [local simp] List.disjoint_comm address_comm

theorem exec_rebalanceRed {x o : ColorTree (Address w)} {v : Address w}
    (h : TreeAt m (.root top) (fill ctx (.join d .black t p (.join d .red x s o))))
    (hv : x.root? = some v) (hx : x.isRed = false)
    (hnd : (fill ctx (.join d .black t p (.join d .red x s o))).inorder.Nodup)
    (hM : M.Owns top (fill ctx (.join d .black t p (.join d .red x s o))).inorder) :
    Exec M (rebalanceRed d (some p) (some s)) (fun r m' i => (r = some v ∧
      TreeAt m' (.root top) (fill ctx (.join d .black (.join d .red t p x) s o))) ∧ i = 0) m := by
  obtain ⟨⟨hctx, hl, hk, hs⟩, ht⟩ := stem_of_treeAt h
  obtain ⟨hsl, hsk, hx', ho⟩ := treeAt_join.mp hs
  have hcov := hM.covers_hole
  simp [nodup_fill, List.nodup_append'] at hnd
  have hin : ∀ y ∈ (ColorTree.join d.flip .black (.join d.flip .black o s x) p t).inorder,
      y ∈ (fill ctx (.join d .black t p (.join d .red x s o))).inorder := by
    simp only [mem_fill, ColorTree.mem_join]
    grind
  have hturn : Turnable m.load d.flip p s o x t := by
    refine ⟨ho.unfolds, ?_, ?_, by simp [hnd]⟩
    · rw [← hx'.load]
      exact hx'.unfolds
    · rw [Side.flip_flip]
      exact ht.unfolds
  have hmem := fun y hy => hM.member y (hin y hy)
  have hA := allows_lower hturn hmem (hM.edge p (hin p (by simp)))
  have hA' := allows_upper hturn hmem (hM.edge s (hin s (by simp)))
  have hA'' := allows_above hturn hmem hcov (clear_hole clear_root (by simp [hnd]))
  rw [Side.flip_flip] at hA' hA''
  unfold rebalanceRed
  rw [exec_popRoot hk (holder_hole_ne (by simp [hnd])) (hM.link p (hin p (by simp))),
    exec_parent_linked (p := (hole (.root top) ctx).holder) (c := .black) (by simp),
    exec_loadChild, Memory.load_setLink, hx'.load,
    exec_storeChild (by simpa using hA), exec_storeChild (by simpa using hA'),
    exec_swapHole top ctx (c := .black) (by simp) (by simpa [hnd] using hl) (by simp [hnd, hctx])
      (by simp [hnd]) (by simpa using hA''), hv,
    exec_adopt_black_some d.flip (by simp [hnd, hx'.loose]) hv (by simp [hnd])
      (hM.link v (hin v (by simp [ColorTree.mem_of_root? hv]))),
    exec_flags_linked (q := some p) (c := .red) (by simp [hnd, hsk]), flagWord_clear_red,
    exec_setLink (n := s) (holder_hole_ne (by simp [hnd])) (hM.link s (hin s (by simp))),
    exec_flags_linked (q := (hole (.root top) ctx).holder) (c := .black) (by simp [hnd]),
    flagWord_set_red,
    exec_setLink (n := p) (p := some s) (by simp [hnd]) (hM.link p (hin p (by simp))),
    exec_pushRoot (c := .black) (by simp [hnd]) (hM.link s (hin s (by simp)))
      (fun h => by simpa [swap, h, hv] using hA''), exec_pure, ColorTree.paint_black_of_not_red hx]
  refine ⟨⟨rfl, treeAt_fill.mpr ⟨?_, ?_⟩⟩, rfl⟩
  · simp [hnd, ht, ho]
    exact treeAt_adopt_self (by simp [hnd]) (by simp [hnd, hx'.loose]) (by simp [hnd, hv])
  · simp [hnd, hctx]

/-- Case 5 moves `y` between `p` and `s`, and leaves the parents of `y` and `s` for Case 6. -/
theorem exec_rebalanceInner {c cs : Color} {b x o : ColorTree (Address w)} {y : Address w}
    (h : TreeAt m (.root top) (fill ctx (.join d c t p (.join d cs (.join d .red b y x) s o))))
    (hnd : (fill ctx (.join d c t p (.join d cs (.join d .red b y x) s o))).inorder.Nodup)
    (hM : M.Owns top (fill ctx (.join d c t p (.join d cs (.join d .red b y x) s o))).inorder) :
    Exec M (rebalanceInner d (some p) (some s) (some y)) (fun _ m' i =>
      (Stem m' top ctx d.flip c p t ∧ m'.link y = .linked (some s) .red none ∧
        TreeAt m' (.child d y) b ∧ m'.load (.child d.flip y) = some s ∧
        Loose m' (.join d cs (x.paint .black) s o)) ∧ i = 0) m := by
  obtain ⟨⟨hctx, hl, hk, hs⟩, ht⟩ := stem_of_treeAt h
  obtain ⟨hsl, hsk, hy, ho⟩ := treeAt_join.mp hs
  obtain ⟨hyl, hyk, hb, hx⟩ := treeAt_join.mp hy
  simp [nodup_fill, List.nodup_append'] at hnd
  have hin : ∀ z ∈ (ColorTree.join d .black (.join d .black b y x) s o).inorder,
      z ∈ (fill ctx (.join d c t p (.join d cs (.join d .red b y x) s o))).inorder := by
    simp only [mem_fill, ColorTree.mem_join]
    grind
  have hp : p ∈ (fill ctx (.join d c t p (.join d cs (.join d .red b y x) s o))).inorder := by
    simp [mem_fill]
  have hturn : Turnable m.load d s y b x o := by
    refine ⟨hb.unfolds, ?_, ho.unfolds, by simp [hnd]⟩
    rw [← hx.load]
    exact hx.unfolds
  have hmem := fun z hz => hM.member z (hin z hz)
  have hA := allows_lower hturn hmem (hM.edge s (hin s (by simp)))
  have hA' := allows_upper hturn hmem (hM.edge y (hin y (by simp)))
  have hA'' := allows_above hturn hmem (s := .child d.flip p) (covers_child.mpr (hM.edge p hp))
    (by simp [hnd])
  unfold rebalanceInner
  rw [exec_loadChild, exec_loadChild, hx.load, exec_storeChild hA, exec_storeChild hA',
    exec_storeChild hA'']
  refine exec_last ?_
  rw [exec_adopt_black d (by simp [hnd, hx.loose]) (by simp [hnd])
    (hM.root_link fun z hz => hin z (by simp [hz])), exec_pure]
  refine ⟨⟨⟨?_, ?_, ?_, ?_⟩, ?_, ?_, ?_, ?_⟩, rfl⟩
  · simp [hnd, hctx]
  · simp [hnd, hl]
  · simp [hnd, hk]
  · simp [hnd, ht]
  · simp [hnd, hyk]
  · simp [hnd, hb]
  · simp [hnd]
  · simp [hnd, hsk, ho]
    exact treeAt_adopt_paint (by simp [hnd]) (by simp [hnd, hx.loose]) (by simp [hnd])

/-- Case 6, on what Case 5 has left or on a laid out tree. -/
theorem exec_rebalanceOuter {c cs : Color} {b o : ColorTree (Address w)} {q x : Address w}
    (hst : Stem m top ctx d.flip c p t) (hsk : m.link s = .linked (some q) cs none)
    (hb : TreeAt m (.child d s) b) (hol : m.load (.child d.flip s) = o.root?) (ho : Loose m o)
    (hx : o.root? = some x)
    (hnd : (fill ctx (.join d c t p (.join d cs b s o))).inorder.Nodup)
    (hM : M.Owns top (fill ctx (.join d c t p (.join d cs b s o))).inorder) :
    Exec M (rebalanceOuter d (some p) (some s) (some x)) (fun _ m' i =>
      TreeAt m' (.root top)
        (fill ctx (.join d c (.join d .black t p b) s (o.paint .black))) ∧ i = 0) m := by
  obtain ⟨hctx, hl, hk, ht⟩ := hst
  rw [Side.flip_flip] at ht
  have hcov := hM.covers_hole
  simp [nodup_fill, List.nodup_append'] at hnd
  have hin : ∀ z ∈ (ColorTree.join d.flip .black (.join d.flip .black o s b) p t).inorder,
      z ∈ (fill ctx (.join d c t p (.join d cs b s o))).inorder := by
    simp only [mem_fill, ColorTree.mem_join]
    grind
  have hturn : Turnable m.load d.flip p s o b t := by
    refine ⟨?_, ?_, ?_, by simp [hnd]⟩
    · rw [hol]
      exact ho.unfolds
    · rw [← hb.load]
      exact hb.unfolds
    · rw [Side.flip_flip]
      exact ht.unfolds
  have hmem := fun z hz => hM.member z (hin z hz)
  have hA := allows_lower hturn hmem (hM.edge p (hin p (by simp)))
  have hA' := allows_upper hturn hmem (hM.edge s (hin s (by simp)))
  have hA'' := allows_above hturn hmem hcov (clear_hole clear_root (by simp [hnd]))
  rw [Side.flip_flip] at hA' hA''
  have hxm := ColorTree.mem_of_root? hx
  have hxp : x ≠ p := by rintro rfl; simp [hnd] at hxm
  have hxs : x ≠ s := by rintro rfl; simp [hnd] at hxm
  unfold rebalanceOuter
  rw [exec_popRoot hk (holder_hole_ne (by simp [hnd])) (hM.link p (hin p (by simp))),
    exec_parent_linked (p := (hole (.root top) ctx).holder) (c := c) (by simp),
    exec_loadChild, Memory.load_setLink, hb.load,
    exec_storeChild (by simpa using hA), exec_storeChild (by simpa using hA'),
    exec_swapHole top ctx (c := c) (by simp) (by simpa [hnd] using hl) (by simp [hnd, hctx])
      (by simp [hnd]) (by simpa using hA''),
    exec_adopt_black_some d.flip (by simp [hnd, ho]) hx (by simp [hnd])
      (hM.link x (hin x (by simp [hxm]))),
    exec_adopt d.flip (by simp [hnd, hb.loose]) (by simp [hnd])
      (hM.root_link fun z hz => hin z (by simp [hz])),
    exec_flags_linked (q := (hole (.root top) ctx).holder) (c := c) (by simp [hnd]),
    exec_setLink (n := s) (holder_hole_ne (by simp [hnd])) (hM.link s (hin s (by simp))),
    exec_flags_linked (q := (hole (.root top) ctx).holder) (c := c) (by simp [hnd]),
    flagWord_clear_red,
    exec_setLink (n := p) (p := some s) (by simp [hnd]) (hM.link p (hin p (by simp))),
    exec_pushRoot (c := c) (by simp [hnd]) (hM.link s (hin s (by simp)))
      (fun h => by simpa [swap, h] using hA''), exec_pure]
  refine ⟨treeAt_fill.mpr ⟨?_, ?_⟩, rfl⟩
  · simp [hnd, ht]
    refine ⟨treeAt_adopt_self (by simp [hnd]) ?_ (by simp [hnd]),
      treeAt_adopt_paint (by simp [hnd]) ?_ (by simp [hnd, hol])⟩
    · simp [hnd, hb.loose]
    · simp [hnd, ho]
  · simp [hnd, hctx]

/-- Blackens a red node that is not the root. -/
theorem exec_blacken {β : Type} {k : Unit → Prog w β} {Q : β → FieldHeap w → ℕ → Prop}
    (hk : m.link p = linkAt (hole (.root top) ctx) .red) (hr : treeOf (hole (.root top) ctx) = none)
    (hp : p ∉ elems ctx) (hl : p ∈ M.links) :
    Exec M (rbnodeParent (some p) >>= fun q => rbnodeFlags (some p) >>= fun f =>
        rbnodeSetParentAndFlags (some p) q (f &&& ~~~rbnodeRed) >>= k) Q m ↔
      Exec M (k ()) Q (m.setLink p (linkAt (hole (.root top) ctx) .black)) := by
  have hk' : m.link p = .linked (hole (.root top) ctx).holder .red none := by rw [hk, linkAt, hr]
  rw [exec_parent hk, exec_flags_linked hk', flagWord_clear_red,
    exec_setLink (holder_hole_ne hp) hl, linkAt, hr]

/-- Case 3+4 at a red node. -/
theorem exec_rebalanceFlip {cs : Color} {x o : ColorTree (Address w)}
    (h : TreeAt m (.root top) (fill ctx (.join d .red t p (.join d cs x s o))))
    (hr : treeOf (hole (.root top) ctx) = none)
    (hnd : (fill ctx (.join d .red t p (.join d cs x s o))).inorder.Nodup)
    (hM : M.Owns top (fill ctx (.join d .red t p (.join d cs x s o))).inorder) :
    Exec M (rebalanceFlip (some p) (some s)) (fun _ m' i =>
      TreeAt m' (.root top) (fill ctx (.join d .black t p (.join d .red x s o))) ∧ i = 0) m := by
  obtain ⟨⟨hctx, hl, hk, hs⟩, ht⟩ := stem_of_treeAt h
  obtain ⟨hsl, hsk, hx, ho⟩ := treeAt_join.mp hs
  simp [nodup_fill, List.nodup_append'] at hnd
  unfold rebalanceFlip
  rw [exec_isRed hk, exec_assert (by simp),
    exec_flags_linked (q := some p) (c := cs) (by simp [hsk]),
    flagWord_set_red, exec_setLink (n := s) (p := some p) (by simp [hnd])
      (hM.link s (by simp [mem_fill]))]
  refine exec_last ?_
  have hk' : (m.setLink s (.linked (some p) .red none)).link p =
      linkAt (hole (.root top) ctx) .red := by simp [hnd, hk]
  simp only [bind_assoc]
  rw [exec_blacken hk' hr (by simp [hnd]) (hM.link p (by simp [mem_fill])), exec_pure]
  refine ⟨treeAt_fill.mpr ⟨?_, ?_⟩, rfl⟩
  · simp [hnd, hl, ht, hsl, hx, ho]
  · simp [hnd, hctx]

theorem exec_rebalanceBlack {c cs : Color} {x o : ColorTree (Address w)}
    (h : TreeAt m (.root top) (fill ctx (.join d c t p (.join d cs x s o))))
    (hflip : o.isRed = false → x.isRed = false → c = .red ∧ treeOf (hole (.root top) ctx) = none)
    (hnd : (fill ctx (.join d c t p (.join d cs x s o))).inorder.Nodup)
    (hM : M.Owns top (fill ctx (.join d c t p (.join d cs x s o))).inorder) :
    Exec M (rebalanceBlack d (some p) (some s)) (fun _ m' i => TreeAt m' (.root top)
      (fill ctx (levelled d c t p (.join d cs x s o))) ∧ i = 0) m := by
  obtain ⟨hst, ht⟩ := stem_of_treeAt h
  obtain ⟨-, hsk, hx, ho⟩ := treeAt_join.mp hst.other
  unfold rebalanceBlack
  rw [levelled_join, exec_loadChild, ho.load, exec_unsetOrBlack ho]
  by_cases hor : o.isRed = true
  · obtain ⟨v, hv⟩ : ∃ v, o.root? = some v := ColorTree.root?_of_isRed hor
    rw [if_neg (by simp [hor]), if_pos hor, hv]
    exact exec_rebalanceOuter (stem_flip_of_treeAt h) (by simpa using hsk) hx ho.load ho.loose
      hv hnd hM
  · rw [Bool.not_eq_true] at hor
    rw [if_pos (by simp [hor]), if_neg (by simp [hor]), exec_loadChild, hx.load,
      exec_unsetOrBlack hx]
    by_cases hxr : x.isRed = true
    · obtain ⟨cy, b, y, x', rfl⟩ := ColorTree.exists_join d (t := x) (by rintro rfl; cases hxr)
      obtain rfl : cy = .red := by simpa using hxr
      have hin : (fill ctx
          (.join d c t p (.join d .red b y (.join d cs (x'.paint .black) s o)))).inorder =
          (fill ctx (.join d c t p (.join d cs (.join d .red b y x') s o))).inorder := by
        apply inorder_fill_congr
        cases d <;> simp [ColorTree.join, ColorTree.inorder]
      rw [if_neg (by simp), if_pos (by simp), straightened_join, hoisted_join, ColorTree.root?_join]
      refine exec_seq (exec_rebalanceInner h hnd hM) ?_
      rintro - m' ⟨hst', hyk, hb, hys, hsl⟩
      exact exec_rebalanceOuter hst' hyk hb (by simpa using hys) hsl (by simp) (by rwa [hin])
        (by rwa [hin])
    · rw [Bool.not_eq_true] at hxr
      obtain ⟨rfl, hr⟩ := hflip hor hxr
      rw [if_pos (by simp [hxr]), if_neg (by simp [hxr])]
      exact exec_rebalanceFlip h hr hnd hM

theorem exec_rebalanceHalf {c cs : Color} {x o : ColorTree (Address w)}
    (h : TreeAt m (.root top) (fill (⟨d, c, p, .join d cs x s o⟩ :: ctx) t))
    (hdef : Deficit (⟨d, c, p, .join d cs x s o⟩ :: ctx) t)
    (hred : redNear (.join d cs x s o) = true)
    (hnd : (fill (⟨d, c, p, .join d cs x s o⟩ :: ctx) t).inorder.Nodup)
    (hM : M.Owns top (fill (⟨d, c, p, .join d cs x s o⟩ :: ctx) t).inorder) :
    Exec M (rebalanceHalf d (some p)) (fun _ m' i => TreeAt m' (.root top)
      (fill ctx (rebalanced ⟨d, c, p, .join d cs x s o⟩ t)) ∧ i = 0) m := by
  obtain ⟨hst, -⟩ := @stem_of_treeAt w m top ctx _ _ _ _ _ h
  obtain ⟨hsl, hsk, -⟩ := treeAt_join.mp hst.other
  unfold rebalanceHalf rebalanceSibling
  rw [exec_loadChild, hsl, bind_assoc, exec_isRed hsk]
  cases cs with
  | red =>
    obtain ⟨rfl, hx, hxr⟩ := hdef.red_sibling
    obtain ⟨cx, y, v, z, rfl⟩ := ColorTree.exists_join d hx
    have hin : (fill (⟨d, .black, s, o⟩ :: ctx) (.join d .red t p (.join d cx y v z))).inorder =
        (fill (⟨d, .black, p, .join d .red (.join d cx y v z) s o⟩ :: ctx) t).inorder :=
      inorder_fill_congr ctx (ColorTree.inorder_turn _ _ _ _ _ _ _ _ _ _)
    rw [if_pos (by simp), rebalanced_red]
    refine exec_seq (exec_rebalanceRed (v := v) h (by simp) hxr hnd hM) ?_
    rintro _ m' ⟨rfl, hm'⟩
    exact @exec_rebalanceBlack w M m' top (⟨d, .black, s, o⟩ :: ctx) _ _ _ _ _ _ _ _ hm'
      (fun _ _ => by simp) (by rwa [hin]) (by rwa [hin])
  | black =>
    rw [if_neg (by simp), rebalanced_black, pure_bind]
    refine exec_rebalanceBlack h (fun ho hx => ?_) hnd hM
    simp [redNear_join, ho, hx] at hred

theorem exec_rebalanceTerminal {f : Frame (Address w)}
    (h : TreeAt m (.root top) (fill (f :: ctx) t)) (hdef : Deficit (f :: ctx) t)
    (hred : redNear f.sibling = true) (hnd : (fill (f :: ctx) t).inorder.Nodup)
    (hM : M.Owns top (fill (f :: ctx) t).inorder) :
    Exec M (rbnodeRebalanceTerminal (some f.label) t.root?) (fun _ m' i =>
      TreeAt m' (.root top) (fill ctx (rebalanced f t)) ∧ i = 0) m := by
  have hj := treeAt_wrap h
  obtain ⟨d, c, p, sib⟩ := f
  obtain ⟨cs, x, s, o, rfl⟩ := ColorTree.exists_join d hdef.sibling_ne_nil
  have hhalf := exec_rebalanceHalf h hdef hred hnd hM
  unfold rbnodeRebalanceTerminal
  refine (exec_loadChild (d := .left)).mpr ?_
  cases d with
  | left =>
    rw [if_pos (treeAt_join.mp hj).2.2.1.load.symm, rebalanceTerminalLeft_eq]
    exact hhalf
  | right =>
    have hl : m.load (.child .left p) = some s := by
      have hs := (treeAt_join.mp hj).2.2.2.load
      simpa [Side.flip] using hs
    rw [hl, if_neg ?_, rebalanceTerminalRight_eq]
    · exact hhalf
    · intro ht
      have hnj := (@nodup_wrap _ _ ctx _ hnd).1
      exact hj.load_flip_ne hnj ht hl

theorem exec_anyRed {β : Type} {k : Bool → Prog w β} {Q : β → FieldHeap w → ℕ → Prop} {c : Color}
    {l r : ColorTree (Address w)} {q : Slot w} (h : TreeAt m q (.node c l s r)) :
    Exec M (loadLeft (some s) >>= fun nl => loadRight (some s) >>= fun nr =>
        anyRed (some s) nl nr >>= k) Q m ↔ Exec M (k (redNear (.node c l s r))) Q m := by
  obtain ⟨-, hk, hl, hr⟩ := h
  refine (exec_loadChild (d := .left)).trans ((exec_loadChild (d := .right)).trans ?_)
  have hll : m.load (.child .left s) = l.root? := hl.load
  have hrl : m.load (.child .right s) = r.root? := hr.load
  unfold anyRed
  rw [bind_assoc, exec_isRed hk, hll, hrl]
  cases c with
  | red => simp [redNear]
  | black =>
    rw [if_neg (by simp), bind_assoc, exec_setAndRed hl]
    cases hlr : l.isRed with
    | true => simp [redNear, ColorTree.child, hlr]
    | false =>
      rw [if_neg (by simp), exec_setAndRed hr]
      simp [redNear, ColorTree.child, hlr]

theorem inorder_redden (ctx : Context (Address w)) (d : Side) (c c' : Color)
    (t l : ColorTree (Address w)) (p s : Address w) (r : ColorTree (Address w)) :
    (fill ctx (.join d c' t p ((ColorTree.node .black l s r).paint .red))).inorder =
      (fill (⟨d, c, p, .node .black l s r⟩ :: ctx) t).inorder := by
  apply inorder_fill_congr
  cases d <;> simp [Frame.wrap, ColorTree.join, ColorTree.inorder]

/-- Case 2: the black sibling turns red. -/
theorem treeAt_redden {d : Side} {c : Color} {l r : ColorTree (Address w)} {p s : Address w}
    (h : TreeAt m (.root top) (fill (⟨d, c, p, .node .black l s r⟩ :: ctx) t))
    (hnd : (fill (⟨d, c, p, .node .black l s r⟩ :: ctx) t).inorder.Nodup) :
    TreeAt (m.setLink s (.linked (some p) .red none)) (.root top)
      (fill ctx (.join d c t p ((ColorTree.node .black l s r).paint .red))) := by
  have hsib : ∀ x, (fill (⟨d.flip, c, p, t⟩ :: ctx) x) = fill ctx (.join d c t p x) :=
    fun x => by simp [fill, Frame.wrap, ColorTree.join_flip]
  have hm := @treeAt_fill_paint w m top (⟨d.flip, c, p, t⟩ :: ctx) (.node .black l s r) _
    (by rwa [hsib]) (by rwa [hsib]) rfl .red
  rwa [hsib, hole_cons, linkAt_child] at hm

/-- The loop of c_rbnode_rebalance_path(), with what c_rbnode_rebalance() does after it. -/
theorem exec_rebalanceLoop {turns : ℕ} (h : TreeAt m (.root top) (fill ctx t))
    (hdef : Deficit ctx t) (hnd : (fill ctx t).inorder.Nodup)
    (hM : M.Owns top (fill ctx t).inorder) (hturns : ctx.length < turns) :
    Exec M (rbnodeRebalancePath turns (hole (.root top) ctx).holder t.root? >>= fun r =>
        whenSet r.1 (rbnodeRebalanceTerminal r.1 r.2))
      (fun _ m' i => TreeAt m' (.root top) (rebalance ctx t) ∧ i = 2 * rebalanceTurns ctx t) m := by
  induction turns generalizing ctx t m with
  | zero => omega
  | succ turns ih =>
    cases ctx with
    | nil => exact ⟨h, rfl⟩
    | cons f ctx =>
      have hj := treeAt_wrap h
      obtain ⟨hfl, hfk, ht, hs⟩ := treeAt_join.mp hj
      have hne := hdef.sibling_ne_nil
      have hterm := fun hred => exec_rebalanceTerminal h hdef hred hnd hM
      obtain ⟨d, c, p, sib⟩ := f
      cases sib with
      | nil => contradiction
      | node cs l s r =>
        have hnj := (@nodup_wrap _ _ ctx _ hnd).1
        have hs' : m.load (.child d.flip p) = some s := hs.load
        have hflip : some s ≠ t.root? := fun heq => hj.load_flip_ne hnj heq.symm hs'
        rw [rbnodeRebalancePath, hole_cons, Slot.holder_child, if_neg (by simp), bind_assoc,
          exec_otherChild ht.load (by rwa [hs']), hs']
        simp only [bind_assoc]
        rw [exec_anyRed hs, rebalance, rebalanceTurns]
        by_cases hred : redNear (.node cs l s r) = true
        · simp only [hred, if_true]
          exact hterm hred
        · simp only [if_neg hred, bind_assoc]
          obtain rfl : cs = .black := by
            cases cs with
            | red => simp [redNear] at hred
            | black => rfl
          have hm₁ := treeAt_redden h hnd
          have hin := fun c' => inorder_redden ctx d c c' t l p s r
          have hps : p ≠ s := by
            rintro rfl
            simp [Frame.wrap, ColorTree.inorder] at hnj
          have hmem : s ∈ (fill (⟨d, c, p, .node .black l s r⟩ :: ctx) t).inorder ∧
              p ∈ (fill (⟨d, c, p, .node .black l s r⟩ :: ctx) t).inorder := by
            simp [mem_fill, elems, ColorTree.inorder]
          have hp : p ∉ elems ctx :=
            (@nodup_wrap _ _ ctx _ hnd).2 (by simp [Frame.wrap])
          have hfk' : (m.setLink s (.linked (some p) .red none)).link p =
              linkAt (hole (.root top) ctx) c := by simp [hps, hfk]
          rw [exec_flags_linked (q := some p) (c := .black) (by simpa using hs.2.1),
            flagWord_set_red,
            exec_setLink (n := s) (p := some p) (by simpa using hps) (hM.link s hmem.1),
            exec_isRed hfk']
          by_cases hc : c = .red
          · subst hc
            have hr : treeOf (hole (.root top) ctx) = none := by
              cases ctx with
              | nil => simpa [topRed] using hdef.top
              | cons g ctx => simp
            rw [if_pos (by simp), if_pos rfl]
            simp only [bind_assoc]
            rw [exec_blacken hfk' hr hp (hM.link p hmem.2)]
            refine ⟨?_, rfl⟩
            simpa using treeAt_fill_paint (n := p) hm₁ (by rwa [hin]) (by simp) .black
          · have hc := Color.not_red.mp hc
            subst hc
            rw [if_neg (by simp), if_neg (by simp), bind_assoc, exec_countTurn, bind_assoc,
              exec_parent hfk']
            have hloop := ih hm₁ (hdef.up (by simpa using hred) rfl) (by rwa [hin]) (by rwa [hin])
              (by simp at hturns; omega)
            rw [ColorTree.root?_join] at hloop
            refine exec_mono ?_ hloop
            rintro _ m' i ⟨hm', rfl⟩
            exact ⟨hm', by simp [turnCost]; omega⟩

theorem exec_rebalance (h : TreeAt m (.root top) (fill ctx .nil)) (hdef : Deficit ctx .nil)
    (hnd : (fill ctx .nil).inorder.Nodup) (hM : M.Owns top (fill ctx .nil).inorder) :
    Exec M (rbnodeRebalance (hole (.root top) ctx).holder) (fun _ m' i =>
      TreeAt m' (.root top) (rebalance ctx .nil) ∧ i = 2 * rebalanceTurns ctx .nil) m :=
  exec_rebalanceLoop h hdef hnd hM (length_lt_of_nodup hnd)

end CRbtree
