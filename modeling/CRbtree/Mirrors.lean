import CRbtree.Footprints
import CRbtree.Mirroring
import CRbtree.Traversing

set_option autoImplicit false

/-!
The two halves of the code are mirror images: on a memory with all left and right fields
exchanged, the mirrored call does the mirrored thing.
-/

namespace CRbtree
open RedBlack TaggedPointers PointerGraphs Programs

section Repairs

variable {α : Type}

@[simp] theorem mirror_turned (f g : Frame α) (t : ColorTree α) :
    (turned f g t).mirror = turned f.mirror g.mirror t.mirror := by
  obtain ⟨e, cf, p, a⟩ := f
  obtain ⟨d, cg, q, u⟩ := g
  cases t with
  | nil => rfl
  | node c l n r => cases d <;> cases e <;> rfl

@[simp] theorem mirror_recolored (f g : Frame α) (t : ColorTree α) :
    (recolored f g t).mirror = recolored f.mirror g.mirror t.mirror := by
  simp [recolored, Frame.mirror]

theorem mirror_repaint (ctx : Context α) (t : ColorTree α) :
    (repaint ctx t).mirror = repaint (ctx.map Frame.mirror) t.mirror := by
  fun_induction repaint ctx t with
  | case1 t => exact ColorTree.mirror_paint t
  | case2 f t => exact f.mirror_wrap t
  | case3 f g ctx t hf => simp [repaint, hf, mirror_fill]
  | case4 f g ctx t hf hu ih => simp [repaint, hf, hu, ih]
  | case5 f g ctx t hf hu => simp [repaint, hf, hu, mirror_fill]

theorem mirror_insertAt (ctx : Context α) (n : α) :
    (insertAt ctx n).mirror = insertAt (ctx.map Frame.mirror) n :=
  mirror_repaint ctx (leaf n)

variable {d : Side} {c : Color} {t sib : ColorTree α} {p n : α}

@[simp] theorem mirror_straightened :
    (straightened d sib).mirror = straightened d.flip sib.mirror := by
  by_cases hsib : sib = .nil
  · subst hsib
    rfl
  obtain ⟨cs, x, s, o, rfl⟩ := ColorTree.exists_join d hsib
  by_cases hx : x = .nil
  · subst hx
    cases d <;> rfl
  obtain ⟨cy, b, y, x, rfl⟩ := ColorTree.exists_join d hx
  simp [straightened_join]

@[simp] theorem mirror_hoisted :
    (hoisted d c t p sib).mirror = hoisted d.flip c t.mirror p sib.mirror := by
  by_cases hsib : sib = .nil
  · subst hsib
    rfl
  obtain ⟨cs, x, s, o, rfl⟩ := ColorTree.exists_join d hsib
  simp [hoisted_join]

@[simp] theorem mirror_levelled :
    (levelled d c t p sib).mirror = levelled d.flip c t.mirror p sib.mirror := by
  simp [levelled, apply_ite ColorTree.mirror]

@[simp] theorem mirror_rebalanced (f : Frame α) (t : ColorTree α) :
    (rebalanced f t).mirror = rebalanced f.mirror t.mirror := by
  obtain ⟨d, c, p, sib⟩ := f
  by_cases hsib : sib.isRed = true
  · obtain ⟨cs, x, s, o, rfl⟩ := ColorTree.exists_join d (t := sib) (by rintro rfl; cases hsib)
    obtain rfl : cs = .red := by simpa using hsib
    simp [Frame.mirror, rebalanced_red]
  · have hmirror : ¬sib.mirror.isRed = true := by simpa using hsib
    rw [rebalanced_not_red d c t p hsib, Frame.mirror,
      rebalanced_not_red d.flip c t.mirror p hmirror,
      mirror_levelled]

@[simp] theorem redNear_mirror : redNear sib.mirror = redNear sib := by
  simp [redNear, Side.flip, Bool.or_right_comm]

theorem mirror_rebalance (ctx : Context α) (t : ColorTree α) :
    (rebalance ctx t).mirror = rebalance (ctx.map Frame.mirror) t.mirror := by
  fun_induction rebalance ctx t with
  | case1 t => rfl
  | case2 f ctx t hs => simp [rebalance, hs, mirror_fill]
  | case3 f ctx t hs hf => simp [rebalance, hs, hf, mirror_fill]
  | case4 f ctx t hs hf ih => simp [rebalance, hs, hf, ih]

theorem mirror_close (ctx : Context α) (c : Color) (child : ColorTree α) :
    (close ctx c child).mirror = close (ctx.map Frame.mirror) c child.mirror := by
  cases child with
  | nil => simp [close, apply_ite ColorTree.mirror, mirror_rebalance, mirror_fill]
  | node e l a r => simp [close, mirror_fill, ColorTree.paint]

/-- The successor, which takes the place of a node with two children, has no mirror image. -/
theorem mirror_unlinkAt (ctx : Context α) (c : Color) {l r : ColorTree α} (n : α)
    (h : l = .nil ∨ r = .nil) : (unlinkAt ctx (.node c l n r)).mirror =
      unlinkAt (ctx.map Frame.mirror) (.node c r.mirror n l.mirror) := by
  rcases h with rfl | rfl
  · cases r <;> exact mirror_close _ _ _
  · cases l <;> exact mirror_close _ _ _

end Repairs

/-- Exchanges the left and right field of every node. -/
def CRBNode.mirror {L : Type} {w : ℕ} (x : CRBNode L w) : CRBNode L w :=
  ⟨x.parentAndFlags, x.right, x.left⟩

def Memory.mirror {L : Type} {w : ℕ} (m : Memory L w) : Memory L w :=
  ⟨fun a => (m.node a).mirror, m.tree⟩

variable {w : ℕ}

/-- The same call at the mirrored slot. -/
def Call.mirror : Call w → Call w
  | add t p l n => add t p l.mirror n
  | link p l n => link p l.mirror n
  | treeInit t => treeInit t
  | nodeInit n => nodeInit n
  | unlink n => unlink n
  | unlinkStale n => unlinkStale n
  | move dst src => move dst src

section Memories

variable {L : Type} {m : FieldHeap w} {h h' : Heap w} {s : Slot w} {t : Address w}
  {T T' : ColorTree (Address w)} {c : Call w}

@[simp] theorem Memory.load_mirror (m : Memory L w) (s : Slot w) :
    m.mirror.load s = m.load s.mirror := by
  cases s <;> rfl

@[simp] theorem Memory.link_mirror (m : Memory L w) (a : Address w) :
    m.mirror.link a = m.link a := rfl

theorem linkAt_mirror (s : Slot w) (c : Color) : linkAt s.mirror c = linkAt s c := by
  cases s <;> rfl

theorem TreeAt.mirror (h : TreeAt m s T) : TreeAt m.mirror s.mirror T.mirror := by
  induction T generalizing s with
  | nil => simpa [TreeAt] using h
  | node c l a r hl hr =>
    obtain ⟨hs, hk, htl, htr⟩ := h
    exact ⟨by simpa using hs, by rw [Memory.link_mirror, hk, linkAt_mirror], hr htr, hl htl⟩

theorem Refines.mirror (hm : Refines m h) : Refines m.mirror h.mirror :=
  ⟨funext fun s => by rw [Memory.load_mirror, Memory.load_mirror, hm.1], hm.2⟩

theorem Laid.mirror (hT : Laid h t T) : Laid h.mirror t T.mirror := by
  obtain ⟨m, hm, hT⟩ := hT
  exact ⟨m.mirror, hm.mirror, hT.mirror⟩

theorem Effect.mirror (he : Effect c t T h h') : Effect c.mirror t T.mirror h.mirror h'.mirror := by
  have hsubject : c.mirror.subject = c.subject := by cases c <;> rfl
  have hmem : ∀ a, a ∉ T.mirror.inorder → a ∉ T.inorder := fun a ha => by simpa using ha
  refine ⟨he.laid.mirror, fun n hn hT => ?_, fun a hn hT => ?_, he.trees⟩
  · refine (congrArg CRBNode.mirror (he.subject n (hsubject ▸ hn) (hmem n hT))).trans ?_
    cases c <;> rfl
  · exact congrArg CRBNode.mirror (he.others a (hsubject ▸ hn) (hmem a hT))

/-- The call adds a node, or removes one that does not have two children. -/
def Call.OneSided (h : Heap w) (c : Call w) : Prop :=
  c.added ≠ [] ∨ ∃ n d, c = .unlinkStale n ∧ h.load (.child d n) = none

theorem Change.exists_mirror {k : ℕ} (hc : Change t c T T' k) (hl : Laid h t T)
    (hone : c.OneSided h) : ∃ k', Change t c.mirror T.mirror T'.mirror k' := by
  cases hc with
  | plant n =>
    rw [mirror_insertAt]
    exact ⟨_, .plant n⟩
  | add t' f ctx n =>
    rw [Call.mirror, Slot.mirror_child, mirror_fill, mirror_insertAt]
    exact ⟨_, .add t' f.mirror (ctx.map Frame.mirror) n⟩
  | link f ctx n =>
    rw [Call.mirror, Slot.mirror_child, mirror_fill, mirror_insertAt]
    exact ⟨_, .link f.mirror (ctx.map Frame.mirror) n⟩
  | unlink ctx e l n r => rcases hone with hadd | ⟨_, _, ⟨⟩, _⟩; exact absurd rfl hadd
  | unlinkStale ctx e l n r =>
    rcases hone with hadd | ⟨n', d, heq, hd⟩
    · exact absurd rfl hadd
    · obtain rfl : n = n' := by simpa using heq
      obtain ⟨m, hm, htree⟩ := hl
      obtain ⟨-, -, hleft, hright⟩ := (treeAt_fill.mp htree).1
      have hside : l = .nil ∨ r = .nil := by
        rw [← hm.1] at hd
        cases d with
        | left => exact .inl (ColorTree.root?_eq_none.mp (hleft.load.symm.trans hd))
        | right => exact .inr (ColorTree.root?_eq_none.mp (hright.load.symm.trans hd))
      rw [Call.mirror, mirror_fill, mirror_unlinkAt ctx e n hside]
      exact ⟨_, .unlinkStale (ctx.map Frame.mirror) e r.mirror n l.mirror⟩

/-- The mirrored call on the mirrored memory. -/
theorem run_mirror {F : Forest w} (hg : Grows h F) (hc : c.Legal F.sequences h.load)
    (hone : c.OneSided h) : ∃ h' tr tr', run (machine packed) c.code h = .ok ((), h', tr) ∧
      run (machine packed) c.mirror.code h.mirror = .ok ((), h'.mirror, tr') := by
  have hch : c.Changes = true := by
    rcases hone with hadd | ⟨n, d, rfl, -⟩
    · cases c with
      | add t p l n | link p l n | unlink n | unlinkStale n => rfl
      | treeInit t | nodeInit n | move dst src => exact absurd rfl hadd
    · rfl
  obtain ⟨t, T, T', k, hT, hchange, hnd, -, hl⟩ := hg.exists_change hc hch
  obtain ⟨k', hchange'⟩ := hchange.exists_mirror hl hone
  have hrb := F.redBlack t T hT
  have hadded : c.mirror.added = c.added := by cases c <;> rfl
  have hnd' : (T.mirror.inorder ++ c.mirror.added).Nodup := by
    rw [hadded, ColorTree.inorder_mirror]
    exact ((List.reverse_perm _).append_right _).nodup_iff.mpr hnd
  obtain ⟨h', tr, hrun, he⟩ := hchange.effect hrb hnd hl
  obtain ⟨g', tr', hrun', he'⟩ := hchange'.effect hrb.mirror hnd' hl.mirror
  obtain rfl : g' = h'.mirror :=
    he.mirror.eq he' (hchange'.nodup hrb.mirror hnd') (fun _ _ => rfl) rfl
  exact ⟨h', tr, tr', hrun, hrun'⟩

end Memories

section Pairs

variable {h : Heap w} {t n : Address w} {T : ColorTree (Address w)}

/-- The first program returns on a memory what the second one returns on its mirror image. -/
def Mirrors (h : Heap w) (p q : Prog w (Pointer w)) : Prop :=
  ∃ r, Returns h p r ∧ Returns h.mirror q r

theorem Laid.mirrors_next (hT : Laid h t T) (hnd : T.inorder.Nodup) (hn : n ∈ T.inorder) :
    Mirrors h (rbnodeNext (some n)) (rbnodePrev (some n)) := by
  obtain ⟨xs, ys, hl⟩ := List.append_of_mem hn
  have hnd' : T.mirror.inorder.Nodup := by simpa using hnd
  have hl' : T.mirror.inorder.reverse = xs ++ n :: ys := by simp [hl]
  exact ⟨_, hT.follows_next hnd xs n ys hl, hT.mirror.follows_prev hnd' xs n ys hl'⟩

theorem Laid.mirrors_first (hT : Laid h t T) (hnd : T.inorder.Nodup) :
    Mirrors h (rbtreeFirst (some t)) (rbtreeLast (some t)) := by
  have hlast := hT.mirror.last (by simpa using hnd)
  rw [ColorTree.inorder_mirror, List.reverse_reverse] at hlast
  exact ⟨_, hT.first hnd, hlast⟩

theorem Laid.mirrors_down (hT : Laid h t T) (hnd : T.inorder.Nodup) (hn : n ∈ T.inorder) :
    Mirrors h (rbnodeLeftmost (some n)) (rbnodeRightmost (some n)) ∧
      Mirrors h (rbnodeLeftdeepest (some n)) (rbnodeRightdeepest (some n)) := by
  obtain ⟨m, hm, htree⟩ := hT
  obtain ⟨ctx, c, l, r, rfl⟩ := exists_fill_of_mem hn
  have hsub := (treeAt_fill.mp htree).1
  have hnds := (List.nodup_append'.mp (nodup_fill.mp hnd)).1
  have hnds' : (ColorTree.node c l n r).mirror.inorder.Nodup := by
    rw [ColorTree.inorder_mirror]
    exact List.nodup_reverse.mpr hnds
  have hA : ∀ u : ColorTree (Address w), ∀ a ∈ u.inorder, a ∈ Set.univ :=
    fun _ a _ => Set.mem_univ a
  refine ⟨⟨(ColorTree.node c l n r).extreme .left, ?_, ?_⟩,
    ⟨(ColorTree.node c l n r).deepest .left, ?_, ?_⟩⟩
  · exact (peeks_rbnodeLeftmost hsub hnds (hA _)).returns hm
  · rw [← Side.flip_flip .left, ← ColorTree.extreme_mirror]
    exact (peeks_rbnodeRightmost hsub.mirror hnds' (hA _)).returns hm.mirror
  · exact (peeks_rbnodeLeftdeepest hsub hnds (hA _)).returns hm
  · rw [← Side.flip_flip .left, ← ColorTree.deepest_mirror]
    exact (peeks_rbnodeRightdeepest hsub.mirror hnds' (hA _)).returns hm.mirror

/-- Left and right are mirror images. -/
theorem mirror_images (h : Heap w) :
    (∀ (F : Forest w) (c : Call w), Grows h F → c.Legal F.sequences h.load → c.OneSided h →
      ∃ h' tr tr', run (machine packed) c.code h = .ok ((), h', tr) ∧
        run (machine packed) c.mirror.code h.mirror = .ok ((), h'.mirror, tr')) ∧
    ∀ (t : Address w) (T : ColorTree (Address w)), Laid h t T → T.inorder.Nodup →
      Mirrors h (rbtreeFirst (some t)) (rbtreeLast (some t)) ∧
      ∀ n ∈ T.inorder, Mirrors h (rbnodeNext (some n)) (rbnodePrev (some n)) ∧
        Mirrors h (rbnodeLeftmost (some n)) (rbnodeRightmost (some n)) ∧
        Mirrors h (rbnodeLeftdeepest (some n)) (rbnodeRightdeepest (some n)) :=
  ⟨fun _ _ hg hc hone => run_mirror hg hc hone, fun _ _ hT hnd =>
    ⟨hT.mirrors_first hnd, fun _ hn => ⟨hT.mirrors_next hnd hn, hT.mirrors_down hnd hn⟩⟩⟩

end Pairs

/-- An insertion and a removal that rotate, their mirror images, and two steps. -/
theorem mirror_images_sample :
    (∃ h' tr tr',
      run (machine packed) (rbnodeLink (some (cell 8)) (some (.right (cell 8))) (some (cell 2)))
        sampleHeap = .ok ((), h', tr) ∧
      run (machine packed) (rbnodeLink (some (cell 8)) (some (.left (cell 8))) (some (cell 2)))
        sampleHeap.mirror = .ok ((), h'.mirror, tr')) ∧
    (∃ h' tr tr',
      run (machine packed) (rbnodeUnlinkStale (some (cell 9))) sampleHeap = .ok ((), h', tr) ∧
      run (machine packed) (rbnodeUnlinkStale (some (cell 9))) sampleHeap.mirror =
        .ok ((), h'.mirror, tr')) ∧
    Mirrors sampleHeap (rbnodeNext (some (cell 8))) (rbnodePrev (some (cell 8))) ∧
    Mirrors sampleHeap (rbnodeLeftdeepest (some (cell 6)))
      (rbnodeRightdeepest (some (cell 6))) := by
  obtain ⟨hcalls, hsteps⟩ := mirror_images sampleHeap
  obtain ⟨F, hF, hg⟩ := run_sample.grows
  obtain ⟨-, hnodes⟩ := hsteps (cell 1) sampleTree laid_sampleTree nodup_sampleTree
  refine ⟨hcalls F (.link (cell 8) (.right (cell 8)) (cell 2)) hg ?_ (.inl nofun),
    hcalls F (.unlinkStale (cell 9)) hg ?_ (.inr ⟨cell 9, .left, rfl, by decide +kernel⟩),
    (hnodes (cell 8) (by decide)).1, (hnodes (cell 6) (by decide)).2.2⟩
  all_goals exact hF ▸ run_sample.legal (by decide +kernel)

end CRbtree
