import CRbtree.Rules
import CRbtree.Repairs

set_option autoImplicit false

/-!
c_rbtree_paint() in memory: what its steps make of the tree that a region holds, and how many
turns its loop takes.
-/

namespace CRbtree
open RedBlack TaggedPointers PointerGraphs Programs

variable {w : ℕ} {M : Region w} {m : FieldHeap w} {top : Address w} {ctx : Context (Address w)}

attribute [local simp] List.disjoint_comm address_comm

/-- The region holds the nodes of the list, and the slot the context hangs from. -/
structure Region.Owns (M : Region w) (top : Address w) (l : List (Address w)) : Prop where
  member : ∀ a ∈ l, a ∈ M.members
  edge : ∀ a ∈ l, a ∈ M.edges
  link : ∀ a ∈ l, a ∈ M.links
  root : top ∈ M.roots

theorem Region.Owns.root_link {l : List (Address w)} (h : M.Owns top l)
    {t : ColorTree (Address w)} (ht : ∀ x ∈ t.inorder, x ∈ l) : ∀ a ∈ t.root?, a ∈ M.links :=
  fun a ha => h.link a (ht a (ColorTree.mem_of_root? ha))

theorem Region.Owns.covers_hole {t : ColorTree (Address w)}
    (h : M.Owns top (fill ctx t).inorder) : M.Covers (hole (.root top) ctx) := by
  constructor
  · intro a ha
    exact h.edge a (mem_fill.mpr (.inr (mem_of_holder_hole ha)))
  · cases ctx with
    | nil => simpa [treeOf] using h.root
    | cons f ctx => simp

theorem exec_paintInner {d : Side} {cg : Color} {a b c u : ColorTree (Address w)}
    {n p g : Address w} (hst : Stem m top ctx d cg g u)
    (ht : TreeAt m (.child d g) (.join d .red a p (.join d .red b n c)))
    (hnd : (fill ctx (.join d cg (.join d .red a p (.join d .red b n c)) g u)).inorder.Nodup)
    (hM : M.Owns top (fill ctx (.join d cg (.join d .red a p (.join d .red b n c)) g u)).inorder) :
    Exec M (paintInner d (some n) (some p)) (fun r m' i => (r = some n ∧
      Stem m' top ctx d cg g u ∧ Loose m' (.join d .red (.join d .red a p b) n c)) ∧ i = 0) m := by
  obtain ⟨hctx, hl, hk, hu⟩ := hst
  obtain ⟨hp, hpl, ha, hn⟩ := treeAt_join.mp ht
  obtain ⟨hnp, hnl, hb, hc⟩ := treeAt_join.mp hn
  simp [nodup_fill, List.nodup_append'] at hnd
  have hin : ∀ x ∈ (ColorTree.join d.flip .black (.join d.flip .black c n b) p a).inorder,
      x ∈ (fill ctx (.join d cg (.join d .red a p (.join d .red b n c)) g u)).inorder := by
    simp only [mem_fill, ColorTree.mem_join]
    grind
  have hturn : Turnable m.load d.flip p n c b a := by
    refine ⟨hc.unfolds, ?_, ?_, ?_⟩
    · rw [← hb.load]
      exact hb.unfolds
    · rw [Side.flip_flip]
      exact ha.unfolds
    · simp [hnd]
  have hA := allows_lower hturn (fun x hx => hM.member x (hin x hx))
    (hM.edge p (hin p (by simp)))
  have hA' := allows_upper hturn (fun x hx => hM.member x (hin x hx))
    (hM.edge n (hin n (by simp)))
  rw [Side.flip_flip] at hA'
  unfold paintInner
  rw [exec_loadChild, hn.load, ColorTree.root?_join, if_pos rfl, exec_loadChild, hb.load,
    exec_storeChild hA, exec_storeChild hA']
  rw [exec_adopt d.flip (by simp [hnd, hb.loose]) (by simp [hnd])
      (hM.root_link fun x hx => hin x (by simp [hx])),
    exec_flags_linked (q := some g) (c := .red) (by simp [hnd, hpl]),
    exec_setLink (n := p) (p := some n) (by simp [hnd]) (hM.link p (hin p (by simp))), exec_pure]
  refine ⟨⟨rfl, ⟨?_, ?_, ?_, ?_⟩, ?_⟩, rfl⟩
  · simpa [hnd] using hctx
  · simpa [hnd] using hl
  · simpa [hnd] using hk
  · simpa [hnd] using hu
  · simp [hnd, hb.loose, hc, hnl, ha]

theorem exec_paintOuter {d : Side} {a b u : ColorTree (Address w)} {p g : Address w}
    (hst : Stem m top ctx d .black g u) (ht : Loose m (.join d .red a p b)) (hbr : b.isRed = false)
    (hnd : (fill ctx (.join d .black (.join d .red a p b) g u)).inorder.Nodup)
    (hM : M.Owns top (fill ctx (.join d .black (.join d .red a p b) g u)).inorder) :
    Exec M (paintOuter d (some p) (some g) (hole (.root top) ctx).holder)
      (fun _ m' i =>
        TreeAt m' (.root top) (fill ctx (.join d .black a p (.join d .red b g u))) ∧ i = 0) m := by
  obtain ⟨hctx, hl, hk, hu⟩ := hst
  obtain ⟨⟨q, hq⟩, ha, hb⟩ := loose_join.mp ht
  have hcov := hM.covers_hole
  simp [nodup_fill, List.nodup_append'] at hnd
  have hin : ∀ x ∈ (ColorTree.join d .black (.join d .black a p b) g u).inorder,
      x ∈ (fill ctx (.join d .black (.join d .red a p b) g u)).inorder := by
    simp only [mem_fill, ColorTree.mem_join]
    grind
  have hturn : Turnable m.load d g p a b u := by
    refine ⟨ha.unfolds, ?_, hu.unfolds, by simp [hnd]⟩
    rw [← hb.load]
    exact hb.unfolds
  have hA := allows_lower hturn (fun x hx => hM.member x (hin x hx)) (hM.edge g (hin g (by simp)))
  have hA' := allows_upper hturn (fun x hx => hM.member x (hin x hx))
    (hM.edge p (hin p (by simp)))
  have hA'' := allows_above hturn (fun x hx => hM.member x (hin x hx)) hcov
    (clear_hole clear_root (by simp [hnd]))
  unfold paintOuter
  rw [exec_loadChild, hb.load, exec_popRoot hk (holder_hole_ne (by simp [hnd]))
    (hM.link g (hin g (by simp))), exec_storeChild (by simpa using hA),
    exec_storeChild (by simpa using hA')]
  rw [exec_swapHole top ctx (c := .black) (by simp) (by simpa [hnd] using hl) (by simp [hnd, hctx])
      (by simp [hnd]) (by simpa using hA''),
    exec_adopt_black d (by simp [hnd, hb.loose]) (by simp [hnd])
      (hM.root_link fun x hx => hin x (by simp [hx])),
    exec_flags_linked (q := some q) (c := .red) (by simp [hnd, hq]), flagWord_clear_red,
    exec_setLink (n := p) (holder_hole_ne (by simp [hnd])) (hM.link p (hin p (by simp))),
    exec_flags_linked (q := (hole (.root top) ctx).holder) (c := .black) (by simp [hnd]),
    flagWord_set_red,
    exec_setLink (n := g) (p := some p) (by simp [hnd]) (hM.link g (hin g (by simp))),
    exec_pushRoot (c := .black) (by simp [hnd]) (hM.link p (hin p (by simp)))
      (fun h => by simpa [swap, h] using hA''), exec_pure, ColorTree.paint_black_of_not_red hbr]
  refine ⟨treeAt_fill.mpr ⟨?_, ?_⟩, rfl⟩
  · simp [hnd, ha, hu]
    exact treeAt_adopt_self (by simp [hnd]) (by simp [hnd, hb.loose]) (by simp [hnd])
  · simp [hnd, hctx]

theorem exec_paintAsserts {d : Side} {k : Unit → Prog w Unit} {Q : Unit → FieldHeap w → ℕ → Prop}
    {p g : Address w} {t u : ColorTree (Address w)} {s : Slot w}
    (h : TreeAt m s (.join d .black t g u)) (hp : t.root? = some p) (hr : t.isRed = true)
    (hu : u.isRed = false) :
    Exec M (rbtreePaintTerminalAsserts (some p) (some g) >>= k) Q m ↔ Exec M (k ()) Q m := by
  obtain ⟨-, hg, ht, hu'⟩ := treeAt_join.mp h
  have hpl : ∃ q t, m.link p = .linked q .red t := by
    cases t with
    | nil => simp [ColorTree.root?] at hp
    | node c l a r =>
      obtain rfl : a = p := by simpa [ColorTree.root?] using hp
      obtain rfl : c = .red := by simpa [ColorTree.isRed] using hr
      exact ⟨_, _, ht.2.1⟩
  obtain ⟨q, t', hpl⟩ := hpl
  unfold rbtreePaintTerminalAsserts
  simp only [bind_assoc]
  rw [exec_isRed hpl, exec_assert (by simp), exec_isBlack hg, exec_assert (by simp)]
  cases d with
  | left =>
    refine (exec_uncleNotRed (d := .left) ht (.inl hp.symm)).trans ((exec_assert rfl).trans ?_)
    exact (exec_uncleNotRed (d := .right) hu' (.inr hu)).trans (exec_assert rfl)
  | right =>
    refine (exec_uncleNotRed (d := .left) hu' (.inr hu)).trans ((exec_assert rfl).trans ?_)
    exact (exec_uncleNotRed (d := .right) ht (.inl hp.symm)).trans (exec_assert rfl)

/-- The right half reads `n->right` once more than the left half reads `n->left`. -/
theorem exec_rbtreePaintInnerRight {β : Type} {k : Pointer w → Prog w β}
    {Q : β → FieldHeap w → ℕ → Prop} {n p : Address w} :
    Exec M (rbtreePaintInnerRight (some n) (some p) >>= k) Q m ↔
      Exec M (paintInner .right (some n) (some p) >>= k) Q m := by
  unfold rbtreePaintInnerRight paintInner
  simp only [bind_assoc]
  refine (exec_loadChild (d := .left)).trans (Iff.trans ?_ (exec_loadChild (d := .left)).symm)
  by_cases h : some n = m.load (.child .left p)
  · simp only [if_pos h, bind_assoc]
    refine (exec_loadChild (d := .right)).trans (Iff.trans ?_ (exec_loadChild (d := .right)).symm)
    exact exec_loadChild (d := .right)
  · simp only [if_neg h]

theorem exec_paintHalf_straight {d : Side} {t a u : ColorTree (Address w)} {n p g : Address w}
    (h : TreeAt m (.root top) (fill ctx (.join d .black (.join d .red t p a) g u)))
    (hn : t.root? = some n) (ha : a.isRed = false)
    (hnd : (fill ctx (.join d .black (.join d .red t p a) g u)).inorder.Nodup)
    (hM : M.Owns top (fill ctx (.join d .black (.join d .red t p a) g u)).inorder) :
    Exec M (paintHalf d (some n) (some p) (some g) (hole (.root top) ctx).holder)
      (fun _ m' i =>
        TreeAt m' (.root top) (fill ctx (.join d .black t p (.join d .red a g u))) ∧ i = 0) m := by
  obtain ⟨hst, hp⟩ := stem_of_treeAt h
  have hne : some n ≠ m.load (.child d.flip p) := by
    have hnp := (List.nodup_append'.mp (nodup_fill.mp hnd)).1
    rw [ColorTree.nodup_join] at hnp
    exact (hp.load_flip_ne hnp.2.2.1 hn).symm
  unfold paintHalf paintInner
  rw [bind_assoc, exec_loadChild, if_neg hne]
  exact exec_paintOuter hst hp.loose ha hnd hM

theorem exec_paintHalf_bent {d : Side} {a b c u : ColorTree (Address w)} {n p g : Address w}
    (h : TreeAt m (.root top)
      (fill ctx (.join d .black (.join d .red a p (.join d .red b n c)) g u)))
    (hc : c.isRed = false)
    (hnd : (fill ctx (.join d .black (.join d .red a p (.join d .red b n c)) g u)).inorder.Nodup)
    (hM : M.Owns top
      (fill ctx (.join d .black (.join d .red a p (.join d .red b n c)) g u)).inorder) :
    Exec M (paintHalf d (some n) (some p) (some g) (hole (.root top) ctx).holder) (fun _ m' i =>
      TreeAt m' (.root top)
        (fill ctx (.join d .black (.join d .red a p b) n (.join d .red c g u))) ∧ i = 0) m := by
  obtain ⟨hst, hp⟩ := stem_of_treeAt h
  have hin : (fill ctx (.join d .black (.join d .red (.join d .red a p b) n c) g u)).inorder =
      (fill ctx (.join d .black (.join d .red a p (.join d .red b n c)) g u)).inorder := by
    apply inorder_fill_congr
    cases d <;> simp [ColorTree.join, ColorTree.inorder]
  unfold paintHalf
  refine exec_seq (exec_paintInner hst hp hnd hM) ?_
  rintro r m' ⟨rfl, hst', hn⟩
  refine exec_paintOuter hst' hn hc ?_ ?_
  · rwa [hin]
  · rwa [hin]

theorem exec_paintTerminal {f g : Frame (Address w)} {t : ColorTree (Address w)} {n : Address w}
    (h : TreeAt m (.root top) (fill (f :: g :: ctx) t)) (hn : t.root? = some n)
    (hdef : RedDefect (f :: g :: ctx) t) (hf : f.color = .red) (hu : g.sibling.isRed = false)
    (hnd : (fill (f :: g :: ctx) t).inorder.Nodup)
    (hM : M.Owns top (fill (f :: g :: ctx) t).inorder) :
    Exec M (rbtreePaintTerminal (some n)) (fun _ m' i =>
      TreeAt m' (.root top) (fill ctx (turned f g t)) ∧ i = 0) m := by
  have hg := hdef.grandparent hf
  have hnt := hdef.ne_nil
  obtain ⟨e, cf, p, a⟩ := f
  obtain ⟨d, cg, g, u⟩ := g
  simp only at hf hg
  subst hf hg
  simp only [fill, Frame.wrap] at h hnd hM
  obtain ⟨hj, -⟩ := treeAt_fill.mp h
  obtain ⟨-, hgk, hp, -⟩ := treeAt_join.mp hj
  obtain ⟨hpl, hpk, hta, -⟩ := treeAt_join.mp hp
  have hnk := hta.link_red hn hdef.red
  unfold rbtreePaintTerminal
  rw [exec_parent hnk, Slot.holder_child, exec_parent hpk, Slot.holder_child, exec_parent hgk]
  refine (exec_paintAsserts hj (by simp) (by simp) hu).mpr ?_
  have hhalf : Exec M (paintHalf d (some n) (some p) (some g) (hole (.root top) ctx).holder)
      (fun _ m' i => TreeAt m' (.root top)
        (fill ctx (turned ⟨e, .red, p, a⟩ ⟨d, .black, g, u⟩ t)) ∧ i = 0) m := by
    by_cases hed : e = d
    · subst hed
      rw [turned_straight e .black p g hnt]
      exact exec_paintHalf_straight h hn (hdef.above.1 rfl).2 hnd hM
    · obtain rfl := Side.eq_flip hed
      obtain ⟨c, b, k, b', rfl⟩ := ColorTree.exists_join d hnt
      obtain rfl : k = n := by simpa using hn
      obtain rfl : c = .red := by simpa using hdef.red
      rw [turned_bent]
      rw [ColorTree.join_flip] at h hnd hM
      exact exec_paintHalf_bent h (((ColorTree.noRedRed_join _ _ _ _ _).mp hdef.below).1 rfl).2
        hnd hM
  cases d with
  | left =>
    refine (exec_loadChild (d := .left)).mpr ?_
    rw [if_pos hpl.symm]
    simp only [rbtreePaintInnerLeft_eq, rbtreePaintOuterLeft_eq]
    exact hhalf
  | right =>
    have hne : some p ≠ m.load (.child .left g) :=
      (hj.load_flip_ne (List.nodup_append'.mp (nodup_fill.mp hnd)).1 (by simp)).symm
    refine (exec_loadChild (d := .left)).mpr ?_
    rw [if_neg hne]
    simp only [rbtreePaintOuterRight_eq]
    exact exec_rbtreePaintInnerRight.mpr hhalf

/-- The recolouring of Case 3, with `v` the uncle. -/
theorem exec_recolor {β : Type} {k : Prog w β} {Q : β → FieldHeap w → ℕ → Prop} {d e : Side}
    {t a b c : ColorTree (Address w)} {p v g : Address w}
    (h : TreeAt m (.root top)
      (fill ctx (.join d .black (.join e .red t p a) g (.join d .red b v c))))
    (hnd : (fill ctx (.join d .black (.join e .red t p a) g (.join d .red b v c))).inorder.Nodup)
    (hM : M.Owns top
      (fill ctx (.join d .black (.join e .red t p a) g (.join d .red b v c))).inorder)
    (hk : ∀ m', TreeAt m' (.root top)
        (fill ctx (.join d .red (.join e .black t p a) g (.join d .black b v c))) → Exec M k Q m') :
    Exec M (do
      rbnodeSetParentAndFlags (some p) (some g) ((← rbnodeFlags (some p)) &&& ~~~rbnodeRed)
      rbnodeSetParentAndFlags (some v) (some g) ((← rbnodeFlags (some v)) &&& ~~~rbnodeRed)
      rbnodeSetParentAndFlags (some g) (← rbnodeRaw (some g))
        ((← rbnodeFlags (some g)) ||| rbnodeRed)
      k) Q m := by
  simp [nodup_fill, List.nodup_append'] at hnd
  obtain ⟨hj, hctx⟩ := treeAt_fill.mp h
  simp at hj
  obtain ⟨hgl, hgk, ⟨hpl, hpk, ht, ha⟩, hvl, hvk, hb, hc⟩ := hj
  rw [exec_flags_linked (q := some g) (c := .red) hpk, flagWord_clear_red,
    exec_setLink (n := p) (p := some g) (by simp [hnd]) (hM.link p (by simp [mem_fill])),
    exec_flags_linked (q := some g) (c := .red) (by simpa [hnd] using hvk),
    flagWord_clear_red,
    exec_setLink (n := v) (p := some g) (by simp [hnd]) (hM.link v (by simp [mem_fill])),
    exec_raw (s := hole (.root top) ctx) (c := .black) (by simpa [hnd] using hgk),
    exec_flags (c := .black) (by simpa [hnd, linkAt] using hgk), flagWord_set_red,
    exec_setLinkAt (holder_hole_ne (by simp [hnd])) (hM.link g (by simp [mem_fill]))]
  refine hk _ (treeAt_fill.mpr ⟨?_, ?_⟩)
  · simp [hnd, hgl, hpl, ht, ha, hvl, hb, hc]
  · simp [hnd, hctx]

/-- The loop of c_rbtree_paint_path(), with what c_rbtree_paint() does after it. -/
theorem exec_paintLoop {turns : ℕ} {t : ColorTree (Address w)} {n : Address w}
    (h : TreeAt m (.root top) (fill ctx t)) (hn : t.root? = some n) (hdef : RedDefect ctx t)
    (hnd : (fill ctx t).inorder.Nodup) (hM : M.Owns top (fill ctx t).inorder)
    (hturns : ctx.length < turns) :
    Exec M (rbtreePaintPath turns (some n) >>= fun n => whenSet n (rbtreePaintTerminal n))
      (fun _ m' i => TreeAt m' (.root top) (repaint ctx t) ∧ i = repaintTurns ctx t) m := by
  induction turns generalizing ctx t n m with
  | zero => omega
  | succ turns ih =>
    have hnk := (treeAt_fill.mp h).1.link_red hn hdef.red
    rw [rbtreePaintPath, bind_assoc, exec_parent hnk]
    match ctx, h, hdef, hnd, hM, hturns, hnk with
    | [], h, _, hnd, hM, _, hnk =>
      -- Case 1
      simp only [hole_nil, Slot.holder, Option.isNone_none, if_true, bind_assoc]
      rw [exec_raw hnk, exec_flags hnk, flagWord_clear_red,
        exec_setLinkAt (by simp [Slot.holder]) (hM.link n (ColorTree.mem_of_root? hn))]
      exact ⟨TreeAt.paint h hnd hn .black, rfl⟩
    | [f], h, hdef, _, _, _, hnk =>
      -- Case 2, below the root
      have hf : f.color = .black := by simpa [topRed] using hdef.top
      have hfk := (treeAt_join.mp h).2.1
      simp only [hole_cons, Slot.holder_child, Option.isNone_some, Bool.false_eq_true, if_false,
        bind_assoc]
      rw [exec_isBlack hfk, if_pos (by simp [hf])]
      exact ⟨h, rfl⟩
    | f :: g :: ctx, h, hdef, hnd, hM, hturns, hnk =>
      obtain ⟨-, -, hfk, -⟩ := treeAt_fill.mp h
      simp only [hole_cons, Slot.holder_child, Option.isNone_some, Bool.false_eq_true, if_false,
        bind_assoc]
      rw [exec_isBlack hfk]
      by_cases hf : f.color = .black
      · -- Case 2
        rw [if_pos (by simp [hf])]
        simp only [repaint, repaintTurns, if_pos hf]
        exact ⟨h, rfl⟩
      · replace hf := Color.not_black.mp hf
        have hj := @treeAt_wrap w _ _ g ctx _ h
        obtain ⟨-, -, hp, hu⟩ := treeAt_join.mp hj
        have hne := hj.load_flip_ne (@nodup_wrap _ g ctx _ hnd).1 (ColorTree.root?_join _ _ _ _ _)
        rw [if_neg (by simp [hf]), bind_assoc, exec_parent hfk, hole_cons, Slot.holder_child,
          bind_assoc, exec_otherChild (treeAt_join.mp hp).1 hne, hu.load, bind_assoc,
          exec_unsetOrNotRed hu]
        by_cases hur : g.sibling.isRed = true
        · -- Case 3
          have hin : (fill ctx (recolored f g t)).inorder = (fill (f :: g :: ctx) t).inorder :=
            inorder_fill_congr ctx (inorder_recolored f g t)
          have hdef' := hdef.recolor hf
          have hg := hdef.grandparent hf
          simp only [repaint, repaintTurns, hur, if_true, hf]
          obtain ⟨e, cf, p, a⟩ := f
          obtain ⟨d, cg, g, u⟩ := g
          simp only at hf hg hur
          subst hf hg
          obtain ⟨cu, b, v, c, rfl⟩ := ColorTree.exists_join d (t := u) (by rintro rfl; cases hur)
          obtain rfl : cu = .red := by simpa using hur
          simp only [recolored, ColorTree.paint_join] at hdef' hin ⊢
          rw [if_neg (by simp)]
          simp only [ColorTree.root?_join, bind_assoc]
          refine exec_recolor h hnd hM fun m' hm' => ?_
          rw [exec_countTurn]
          refine exec_mono ?_ (ih hm' (by simp) hdef' (by rwa [hin]) (by rwa [hin]) ?_)
          · rintro _ m'' i ⟨hm'', rfl⟩
            exact ⟨hm'', Nat.add_comm _ _⟩
          · simp at hturns
            omega
        · -- Case 4
          rw [Bool.not_eq_true] at hur
          have hterm := exec_paintTerminal h hn hdef hf hur hnd hM
          simpa [hur, repaint, repaintTurns, hf] using hterm

/-- A context has fewer frames than there are addresses. -/
theorem length_lt_of_nodup {t : ColorTree (Address w)} (hnd : (fill ctx t).inorder.Nodup) :
    ctx.length < 2 ^ w := by
  have hlen := nodup_length_lt hnd
  rw [(fill_perm ctx t).length_eq, List.length_append] at hlen
  have hctx := length_le_elems ctx
  omega

theorem exec_paint {t : ColorTree (Address w)} {n : Address w}
    (h : TreeAt m (.root top) (fill ctx t)) (hn : t.root? = some n) (hdef : RedDefect ctx t)
    (hnd : (fill ctx t).inorder.Nodup) (hM : M.Owns top (fill ctx t).inorder) :
    Exec M (rbtreePaint (some n))
      (fun _ m' i => TreeAt m' (.root top) (repaint ctx t) ∧ i = repaintTurns ctx t) m :=
  exec_paintLoop h hn hdef hnd hM (length_lt_of_nodup hnd)

theorem exec_storeOrPushRoot {k : Unit → Prog w Unit} {Q : Unit → FieldHeap w → ℕ → Prop}
    {n : Address w} {c : Color} (hk : m.link n = .linked (hole (.root top) ctx).holder c none)
    (hn : n ∈ M.links) (hA : M.Allows m.load (.store (hole (.root top) ctx) (some n))) :
    Exec M (storeOrPushRoot (some top) (hole (.root top) ctx).holder
        (some (hole (.root top) ctx)) (some n) >>= k) Q m ↔
      Exec M (k ()) Q
        ((m.store (hole (.root top) ctx) (some n)).setLink n
          (linkAt (hole (.root top) ctx) c)) := by
  cases ctx with
  | nil =>
    have hpush := exec_pushRoot (s := .root top) (k := fun _ => k ()) (Q := Q) hk hn fun _ => hA
    simpa [storeOrPushRoot, treeOf, Slot.holder, crown] using hpush
  | cons f ctx =>
    have hm := (m.store (.child f.side f.label) (some n)).setLink_link n
    rw [Memory.link_store, hk, hole_cons, Slot.holder_child, ← linkAt_child f.side] at hm
    simp only [storeOrPushRoot, hole_cons, Slot.holder_child, Option.isSome_some, if_true]
    rw [hm]
    exact exec_store.trans (and_iff_right hA)

/-- What c_rbnode_link() and c_rbtree_add() share. -/
theorem exec_hang {n : Address w} (h : TreeAt m (.root top) (fill ctx .nil))
    (hrb : (fill ctx .nil).IsRedBlack) (hnd : (fill ctx (leaf n)).inorder.Nodup)
    (hM : M.Owns top (fill ctx (leaf n)).inorder) :
    Exec M (do
      rbnodeSetParentAndFlags (some n) (hole (.root top) ctx).holder rbnodeRed
      storeLeft (some n) none
      storeRight (some n) none
      storeOrPushRoot (some top) (hole (.root top) ctx).holder (some (hole (.root top) ctx))
        (some n)
      rbtreePaint (some n))
      (fun _ m' i => TreeAt m' (.root top) (insertAt ctx n) ∧ i = repaintTurns ctx (leaf n)) m := by
  obtain ⟨hs, hctx⟩ := treeAt_fill.mp h
  have hn : n ∈ (fill ctx (leaf n)).inorder := by simp [mem_fill, leaf, ColorTree.inorder]
  have hcov := hM.covers_hole
  have hndl := hnd
  simp [nodup_fill, leaf, ColorTree.inorder] at hnd
  have hnil : ∀ g d, M.Allows g (.store (.child d n) none) := fun g d =>
    ⟨covers_child.mpr (hM.edge n hn), .nil, rfl, by simp [ColorTree.inorder],
      by simp [ColorTree.inorder]⟩
  rw [← flagWord_red, exec_setLink (n := n) (holder_hole_ne hnd.1) (hM.link n hn)]
  refine (exec_storeChild (hnil _ .left)).mpr ((exec_storeChild (hnil _ .right)).mpr ?_)
  rw [exec_storeOrPushRoot (c := .red) (by simp) (hM.link n hn)
    ⟨hcov, leaf n, ⟨rfl, ?_, ?_⟩, ?_, fun a ha => hM.member a (mem_fill.mpr (.inl ha))⟩]
  · refine exec_paint (treeAt_fill.mpr ⟨?_, ?_⟩) rfl (RedDefect.leaf hrb n) hndl hM
    · change TreeAt _ _ (.join .left .red .nil n .nil)
      simp [TreeAt, hnd, Side.flip]
    · simp [hnd, hctx]
  · simp [Slot.child, Unfolds]
  · simp [Slot.child, Unfolds]
  · intro a ha hl
    obtain rfl : a = n := by simpa [leaf, ColorTree.inorder] using hl
    exact holder_hole_ne hnd.1 ha

/-- The tree argument only matters where there is no parent. -/
theorem exec_rbtreeAdd {n t : Address w} (ht : ctx = [] → t = top)
    (h : TreeAt m (.root top) (fill ctx .nil)) (hrb : (fill ctx .nil).IsRedBlack)
    (hnd : (fill ctx (leaf n)).inorder.Nodup) (hM : M.Owns top (fill ctx (leaf n)).inorder) :
    Exec M (rbtreeAdd (some t) (hole (.root top) ctx).holder (some (hole (.root top) ctx)) (some n))
      (fun _ m' i => TreeAt m' (.root top) (insertAt ctx n) ∧ i = repaintTurns ctx (leaf n)) m := by
  have hhang := exec_hang h hrb hnd hM
  unfold rbtreeAdd
  refine (exec_assert rfl).mpr ((exec_assert rfl).mpr ((exec_assert rfl).mpr ?_))
  cases ctx with
  | nil =>
    obtain rfl := ht rfl
    exact (exec_assert rfl).mpr ((exec_assert (by simp)).mpr hhang)
  | cons f ctx =>
    have hp : isChildSlot (some f.label) (some (.child f.side f.label)) = true := by
      cases f.side <;> simp [isChildSlot, Slot.child]
    simp only [hole_cons, Slot.holder_child] at hhang ⊢
    exact (exec_assert (by simp [hp])).mpr ((exec_assert rfl).mpr hhang)

theorem exec_rbnodeLink {n : Address w} {f : Frame (Address w)}
    (h : TreeAt m (.root top) (fill (f :: ctx) .nil)) (hrb : (fill (f :: ctx) .nil).IsRedBlack)
    (hnd : (fill (f :: ctx) (leaf n)).inorder.Nodup)
    (hM : M.Owns top (fill (f :: ctx) (leaf n)).inorder) :
    Exec M (rbnodeLink (some f.label) (some (.child f.side f.label)) (some n)) (fun _ m' i =>
      TreeAt m' (.root top) (insertAt (f :: ctx) n) ∧ i = repaintTurns (f :: ctx) (leaf n)) m := by
  have hp : isChildSlot (some f.label) (some (.child f.side f.label)) = true := by
    cases f.side <;> simp [isChildSlot, Slot.child]
  have hhang := exec_hang h hrb hnd hM
  unfold rbnodeLink
  refine (exec_assert rfl).mpr ((exec_assert rfl).mpr ((exec_assert rfl).mpr ?_))
  refine (exec_assert hp).mpr ?_
  simpa [storeOrPushRoot] using hhang

end CRbtree
