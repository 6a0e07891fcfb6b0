import CRbtree.Placement
import CRbtree.Trails

set_option autoImplicit false

/-!
The two loops that repair a tree, from any place in it.
-/

namespace CRbtree
open RedBlack TaggedPointers PointerGraphs Programs

section Trees

variable {α : Type} {t : ColorTree α} {a : α}

theorem exists_redDefect (h : OnlyDefect t a) (hnd : t.inorder.Nodup) :
    ∃ ctx u, t = fill ctx u ∧ u.root? = some a ∧ RedDefect ctx u := by
  obtain ⟨ds, hroot, hred⟩ := h.red
  have hmem := ColorTree.mem_of_mem_sub (ColorTree.mem_of_root? hroot)
  obtain ⟨ctx, c, l, r, rfl⟩ := exists_fill_of_mem hmem
  have hsub := sub_trail ctx (.node c l a r)
  obtain rfl := ColorTree.eq_of_sub hnd hroot
    (show ((fill ctx (.node c l a r)).sub (trail ctx)).root? = _
    by rw [hsub]; rfl)
  rw [hsub, ColorTree.isRed_node, decide_eq_true_eq] at hred
  subst hred
  obtain ⟨hndn, -, hdis⟩ := List.nodup_append'.mp (nodup_fill.mp hnd)
  have hctx : a ∉ elems ctx := hdis (by simp [ColorTree.inorder])
  rw [ColorTree.inorder, List.nodup_middle, List.nodup_cons, List.mem_append, not_or] at hndn
  obtain ⟨htop, hn⟩ := h.sound (blackened_fill hctx (blackened_paint hndn.1.1 hndn.1.2))
  rw [isRed_fill] at htop
  obtain ⟨⟨-, hl, hr⟩, halt⟩ := noRedRed_fill.mp hn
  have hchild : ∀ d, ((ColorTree.node .red l a r).child d).isRed = false := by
    intro d
    by_contra hc
    have hedge := h.edge (trail ctx) d
    rw [hsub] at hedge
    have hroot := ColorTree.mem_of_root? (hedge rfl (by simpa using hc))
    cases d with
    | left => exact hndn.1.1 hroot
    | right => exact hndn.1.2 hroot
  exact ⟨ctx, _, rfl, rfl, rfl, ⟨fun _ => ⟨hchild .left, hchild .right⟩, hl, hr⟩, halt, htop⟩

theorem exists_deficit {ds : List Side} {d : Side} {k : ℕ}
    (h : ShortBelow t (ds ++ [d]) k) (hroot : t.isRed = false) (hn : t.NoRedRed)
    (hp : (t.sub ds).root? = some a) (hblack : ((t.sub ds).child d).isRed = false) :
    ∃ f ctx, t = fill (f :: ctx) ((t.sub ds).child d) ∧ f.label = a ∧
      Deficit (f :: ctx) ((t.sub ds).child d) := by
  have hne : t.sub ds ≠ .nil := by
    intro hnil
    rw [hnil] at hp
    cases hp
  obtain ⟨ctx, hfill, htrail⟩ := exists_fill_of_sub hne
  obtain ⟨c, u, b, v, hsub⟩ := ColorTree.exists_join d hne
  rw [hsub, ColorTree.child_join] at hblack ⊢
  rw [hsub] at hfill
  rw [hsub, ColorTree.root?_join, Option.some.injEq] at hp
  subst hp
  have hfill' : t = fill (⟨d, c, b, v⟩ :: ctx) u := hfill
  have hshort : ShortBelow (fill (⟨d, c, b, v⟩ :: ctx) u) (trail (⟨d, c, b, v⟩ :: ctx)) k := by
    rwa [← hfill', trail, htrail]
  obtain ⟨hb, hlevel⟩ := hshort.balanced
  rw [hfill', noRedRed_fill] at hn
  rw [hfill', isRed_fill] at hroot
  exact ⟨⟨d, c, b, v⟩, ctx, hfill', rfl, hblack, hn.1, hb, hlevel, hn.2.black, hroot⟩

end Trees

section Samples

/-- A black root over two red nodes in a row. -/
def redPair : ColorTree (Address 6) :=
  .node .black (.node .red (.node .red .nil (cell 1) .nil) (cell 2) .nil) (cell 3) .nil

theorem uniform_redPair : Uniform redPair 1 :=
  .node (.node (.node uniform_nil uniform_nil) uniform_nil) uniform_nil

theorem onlyDefect_redPair : OnlyDefect redPair (cell 1) where
  red := ⟨[.left, .left], rfl, rfl⟩
  root := by decide
  edge := by
    rintro (- | ⟨⟨⟩, - | ⟨⟨⟩, - | ⟨⟨⟩, ds⟩⟩⟩) (- | -) <;>
      simp [redPair, ColorTree.sub, ColorTree.child, ColorTree.root?]

/-- One black node too few on the left. -/
def lopsided : ColorTree (Address 6) :=
  .node .black .nil (cell 1) (.node .black .nil (cell 2) .nil)

theorem shortBelow_lopsided : ShortBelow lopsided ([] ++ [.left]) 2 :=
  uniform_nil.shortBelow.join (d := .left) (uniform_nil.node uniform_nil)

end Samples

section Memory

variable {w : ℕ} {h : Heap w} {t n : Address w} {T : ColorTree (Address w)}

/-- c_rbtree_paint() repairs the one defect that its red node may have. -/
theorem paint_repairs {k : ℕ} (hT : Laid h t T) (hnd : T.inorder.Nodup) (hb : Uniform T k)
    (hn : OnlyDefect T n) : ∃ h' tr T',
      run (machine packed) (rbtreePaint (some n)) h = .ok ((), h', tr) ∧
      Laid h' t T' ∧ T'.IsRedBlack ∧ T'.inorder = T.inorder := by
  obtain ⟨ctx, u, rfl, hu, hdef⟩ := exists_redDefect hn hnd
  obtain ⟨m, hm, hT⟩ := hT
  obtain ⟨⟨⟩, m', tr, hrun, ⟨hm', -⟩, -⟩ :=
    wp_sound (exec_paint hT hu hdef hnd (owns_regionOf (List.mem_singleton_self t)))
  obtain ⟨h', hrun', href⟩ := run_packed hm hrun
  exact ⟨h', tr, _, hrun', ⟨m', href, hm'⟩, isRedBlack_repaint ctx hdef hb.balanced,
    inorder_repaint ctx hdef.ne_nil⟩

theorem paint_repairs_sample : ∃ h' tr T', run (machine packed) (rbtreePaint (some (cell 1)))
    (layOut (cell 0) redPair) = .ok ((), h', tr) ∧
      Laid h' (cell 0) T' ∧ T'.IsRedBlack ∧ T'.inorder = redPair.inorder :=
  paint_repairs (laid_layOut _ (by decide)) (by decide) uniform_redPair onlyDefect_redPair

/-- c_rbnode_rebalance_path() and c_rbnode_rebalance_terminal() repair a place that misses one
black node. -/
theorem rebalance_repairs {k : ℕ} {ds : List Side} {d : Side} {p : Address w} (hT : Laid h t T)
    (hnd : T.inorder.Nodup) (hroot : T.isRed = false) (hrr : T.NoRedRed)
    (hp : (T.sub ds).root? = some p) (hblack : ((T.sub ds).child d).isRed = false)
    (hshort : ShortBelow T (ds ++ [d]) k) :
    ∃ q previous h₁ tr₁ h' tr' T',
      run (machine packed) (rbnodeRebalancePath (2 ^ w) (some p) ((T.sub ds).child d).root?) h =
          .ok ((q, previous), h₁, tr₁) ∧
        run (machine packed) (whenSet q (rbnodeRebalanceTerminal q previous)) h₁ =
          .ok ((), h', tr') ∧
        Laid h' t T' ∧ T'.IsRedBlack ∧ T'.inorder = T.inorder := by
  obtain ⟨f, ctx, hfill, rfl, hdef⟩ := exists_deficit hshort hroot hrr hp hblack
  generalize (T.sub ds).child d = u at hfill hdef hblack ⊢
  subst hfill
  obtain ⟨m, hm, hT⟩ := hT
  have hloop := exec_rebalanceLoop hT hdef hnd (owns_regionOf (List.mem_singleton_self t))
    (length_lt_of_nodup hnd)
  rw [hole_cons, Slot.holder_child] at hloop
  obtain ⟨⟨⟩, m', tr, hrun, ⟨hm', -⟩, -⟩ := wp_sound hloop
  obtain ⟨h', hrun', href⟩ := run_packed hm hrun
  obtain ⟨⟨q, previous⟩, h₁, tr₁, tr₂, hpath, hterm, -⟩ := run_bind_ok hrun'
  exact ⟨q, previous, h₁, tr₁, h', tr₂, _, hpath, hterm, ⟨m', href, hm'⟩,
    isRedBlack_rebalance _ hdef, inorder_rebalance _ hdef⟩

theorem rebalance_repairs_sample : ∃ q previous h₁ tr₁ h' tr' T',
    run (machine packed) (rbnodeRebalancePath (2 ^ 6) (some (cell 1))
        ((lopsided.sub []).child .left).root?) (layOut (cell 0) lopsided) =
          .ok ((q, previous), h₁, tr₁) ∧
      run (machine packed) (whenSet q (rbnodeRebalanceTerminal q previous)) h₁ = .ok ((), h', tr') ∧
      Laid h' (cell 0) T' ∧ T'.IsRedBlack ∧ T'.inorder = lopsided.inorder :=
  rebalance_repairs (laid_layOut _ (by decide)) (by decide) rfl (by decide) rfl rfl
    shortBelow_lopsided

end Memory

end CRbtree
