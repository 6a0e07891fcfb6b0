import CRbtree.Forests

set_option autoImplicit false

/-!
What the words in memory say when the trees of a forest are laid out in them.
-/

namespace CRbtree
open RedBlack TaggedPointers PointerGraphs Programs

variable {w : ℕ}

/-- c_rbnode_is_red(), c_rbnode_is_root() -/
def isRedOf (x : Word w) : Bool := flagsOf x &&& rbnodeRed != 0#(w + 2)

def isRootOf (x : Word w) : Bool := flagsOf x &&& rbnodeRoot != 0#(w + 2)

/-- Some path from the pointer down to a NULL child slot has so many black nodes. -/
inductive NullPath (h : Heap w) : Pointer w → ℕ → Prop
  | null : NullPath h none 0
  | child {a : Address w} {k : ℕ} (d : Side) (hk : NullPath h (h.load (.child d a)) k) :
    NullPath h (some a) (k + (!isRedOf (h.link a)).toNat)

/-- The trees in memory are red-black trees that have exactly the nodes of the lists. -/
structure WellFormed (h : Heap w) (S : Sequences w) : Prop where
  finite : ∀ t l, S t = some l → ∃ k, ∀ ds,
    follow h.load (h.load (.root t)) ds ≠ none → ds.length < k
  members : ∀ t l, S t = some l → ∀ a, a ∈ l ↔ ∃ ds, follow h.load (h.load (.root t)) ds = some a
  once : ∀ t t' ds ds' a, S t ≠ none → S t' ≠ none →
    follow h.load (h.load (.root t)) ds = some a → follow h.load (h.load (.root t')) ds' = some a →
    t = t' ∧ ds = ds'
  closed : ∀ a, Linked S a → (∀ d b, h.load (.child d a) = some b → Linked S b) ∧
    ∀ p, parentOf (h.link a) = some p → Linked S p
  parent : ∀ a, Linked S a → ∀ d b, h.load (.child d a) = some b → parentOf (h.link b) = some a
  root : ∀ t l, S t = some l → ∀ a ∈ l, isRootOf (h.link a) = true ↔ h.load (.root t) = some a
  tree : ∀ t a, S t ≠ none → h.load (.root t) = some a →
    rawOf (h.link a) = some t ∧ parentOf (h.link a) = none ∧ isRedOf (h.link a) = false
  alternating : ∀ a, Linked S a → isRedOf (h.link a) = true → ∀ d b, h.load (.child d a) = some b →
    isRedOf (h.link b) = false
  balanced : ∀ t, S t ≠ none → ∃ k, ∀ k', NullPath h (h.load (.root t)) k' → k' = k

section Words

variable {n : Address w} {s : Slot w} {p t : Pointer w} {c : Color} {x : Word w}

/-- The accessors read the fields out of the word. -/
theorem packs_linked (h : Packs n (.linked p c t) x) : parentOf x = p ∧ rawOf x = t.or p ∧
    isRedOf x = decide (c = .red) ∧ isRootOf x = t.isSome := by
  have hf : flagsOf x = flagWord c t.isSome := by
    refine packs_flags h ?_
    cases t <;> rfl
  refine ⟨packs_parent h ?_, packs_raw h ?_, ?_, ?_⟩
  · cases t with
    | none => rfl
    | some t => rw [h.1, separate]
  · cases t <;> rfl
  · rw [isRedOf, hf, flagWord_and_red_bne]
  · rw [isRootOf, hf, flagWord_and_root_bne]

theorem packs_linkAt (h : Packs n (linkAt s c) x) : parentOf x = s.holder ∧ rawOf x = rawAt s ∧
    isRedOf x = decide (c = .red) ∧ isRootOf x = (treeOf s).isSome :=
  packs_linked h

end Words

section Laid

variable {m : FieldHeap w} {h : Heap w} {F : Forest w} {K : Address w → Bool}

theorem TreeAt.nullPath (hm : Refines m h) {s : Slot w} {T : ColorTree (Address w)}
    (hT : TreeAt m s T) (hb : T.Balanced) {k : ℕ} (hk : NullPath h (m.load s) k) :
    k = T.blackHeight := by
  induction T generalizing s k with
  | nil =>
    rw [show m.load s = none from hT] at hk
    cases hk
    rfl
  | node c l a r ihl ihr =>
    obtain ⟨hs, ha, hl, hr⟩ := hT
    obtain ⟨hbl, hbr, he⟩ := hb
    rw [hs] at hk
    obtain ⟨-, -, hred, -⟩ := packs_linkAt (ha ▸ hm.2 a)
    cases hk with
    | @child _ k' d hk =>
      rw [← hm.1] at hk
      have hk' : k' = l.blackHeight := by
        cases d with
        | left => exact ihl hl hbl hk
        | right => exact (ihr hr hbr hk).trans he.symm
      rw [ColorTree.blackHeight, hk', hred]
      cases c <;> rfl

/-- Where a member of a tree is laid out. -/
theorem Holds.exists_fill (hh : Holds m F K) {a : Address w} (ha : Linked F.sequences a) :
    ∃ t ctx c l r, F.tree t = some (fill ctx (.node c l a r)) ∧
      TreeAt m (hole (.root t) ctx) (.node c l a r) ∧ ContextAt m (.root t) ctx := by
  obtain ⟨t, T, hT, haT⟩ := F.linked_iff.mp ha
  obtain ⟨ctx, c, l, r, rfl⟩ := exists_fill_of_mem haT
  obtain ⟨hj, hctx⟩ := treeAt_fill.mp (hh.tree t _ hT)
  exact ⟨t, ctx, c, l, r, hT, hj, hctx⟩

theorem Holds.mem_iff (hh : Holds m F K) {t : Address w} {l : List (Address w)}
    (hl : F.sequences t = some l) : ∃ T, F.tree t = some T ∧ T.inorder = l ∧
      Unfolds m.load (m.load (.root t)) T := by
  obtain ⟨T, hT, rfl⟩ : ∃ T, F.tree t = some T ∧ T.inorder = l := by
    simpa [Forest.sequences] using hl
  exact ⟨T, hT, rfl, (hh.tree t T hT).unfolds⟩

/-- What the invariant says of the words. -/
theorem Holds.wellFormed (hh : Holds m F K) (hm : Refines m h) : WellFormed h F.sequences := by
  have htree : ∀ t, F.sequences t ≠ none → ∃ T, F.tree t = some T := by
    intro t ht
    simpa [Forest.sequences, ← Option.ne_none_iff_exists'] using ht
  constructor
  case finite =>
    intro t l hl
    obtain ⟨T, hT, -, hu⟩ := hh.mem_iff hl
    refine ⟨T.height, fun ds hds => ColorTree.length_lt_height ?_⟩
    rw [← hm.1, hu.follow] at hds
    exact mt ColorTree.root?_eq_none.mpr hds
  case members =>
    intro t l hl a
    obtain ⟨T, hT, rfl, hu⟩ := hh.mem_iff hl
    simp only [← hm.1, hu.follow]
    exact ColorTree.mem_iff_exists_sub
  case once =>
    intro t t' ds ds' a ht ht' hds hds'
    obtain ⟨T, hT⟩ := htree t ht
    obtain ⟨T', hT'⟩ := htree t' ht'
    rw [← hm.1, (hh.tree t T hT).unfolds.follow] at hds
    rw [← hm.1, (hh.tree t' T' hT').unfolds.follow] at hds'
    have hmem := ColorTree.mem_iff_exists_sub.mpr ⟨ds, hds⟩
    obtain rfl := F.eq_of_mem hT hT' hmem (ColorTree.mem_iff_exists_sub.mpr ⟨ds', hds'⟩)
    rw [hT, Option.some.injEq] at hT'
    subst hT'
    exact ⟨rfl, ColorTree.eq_of_sub (F.nodup t T hT) hds hds'⟩
  case closed =>
    intro a ha
    obtain ⟨t, ctx, c, l, r, hT, hj, hctx⟩ := hh.exists_fill ha
    refine ⟨fun d b hb => ?_, fun p hp => ?_⟩
    · rw [← hm.1] at hb
      rw [ColorTree.node_eq_join d] at hj
      rw [(treeAt_join.mp hj).2.2.1.load] at hb
      refine F.linked_iff.mpr ⟨t, _, hT, mem_fill.mpr (.inl ?_)⟩
      exact ColorTree.mem_of_mem_child (ColorTree.mem_of_root? hb)
    · rw [(packs_linkAt (hj.2.1 ▸ hm.2 a)).1] at hp
      exact F.linked_iff.mpr ⟨t, _, hT, mem_fill.mpr (.inr (mem_of_holder_hole hp))⟩
  case parent =>
    intro a ha d b hb
    obtain ⟨t, ctx, c, l, r, hT, hj, hctx⟩ := hh.exists_fill ha
    rw [← hm.1] at hb
    rw [ColorTree.node_eq_join d] at hj
    obtain ⟨-, -, hd, -⟩ := treeAt_join.mp hj
    rw [hd.load] at hb
    obtain ⟨c', hk, -⟩ := hd.exists_link hb
    rw [(packs_linkAt (hk ▸ hm.2 b)).1, Slot.holder_child]
  case root =>
    intro t l hl a ha
    obtain ⟨T, hT, rfl, hu⟩ := hh.mem_iff hl
    obtain ⟨ctx, c, l, r, rfl⟩ := exists_fill_of_mem ha
    obtain ⟨hj, -⟩ := treeAt_fill.mp (hh.tree t _ hT)
    rw [(packs_linkAt (hj.2.1 ▸ hm.2 a)).2.2.2, ← hm.1, hu.root?]
    cases ctx with
    | nil => simp [treeOf, ColorTree.root?]
    | cons f ctx =>
      obtain ⟨x, hx, hroot⟩ := root?_fill_cons f ctx (.node c l a r)
      have hax : x ≠ a := by
        rintro rfl
        exact (List.nodup_append'.mp (nodup_fill.mp (F.nodup t _ hT))).2.2
          (by simp [ColorTree.inorder]) hx
      simp [hroot, hax]
  case tree =>
    intro t a ht ha
    obtain ⟨T, hT⟩ := htree t ht
    have hTt := hh.tree t T hT
    rw [← hm.1, hTt.load] at ha
    obtain ⟨c, hk, hc⟩ := hTt.exists_link ha
    obtain ⟨hp, hraw, hred, -⟩ := packs_linkAt (hk ▸ hm.2 a)
    exact ⟨hraw, hp, by rw [hred, ← hc, (F.redBlack t T hT).root]⟩
  case alternating =>
    intro a ha hred d b hb
    obtain ⟨t, ctx, c, l, r, hT, hj, hctx⟩ := hh.exists_fill ha
    have hn := (noRedRed_fill.mp (F.redBlack t _ hT).alternating).1
    rw [(packs_linkAt (hj.2.1 ▸ hm.2 a)).2.2.1, decide_eq_true_eq] at hred
    rw [← hm.1] at hb
    rw [ColorTree.node_eq_join d] at hj hn
    obtain ⟨-, -, hd, -⟩ := treeAt_join.mp hj
    rw [hd.load] at hb
    obtain ⟨c', hk, hc'⟩ := hd.exists_link hb
    rw [(packs_linkAt (hk ▸ hm.2 b)).2.2.1, ← hc']
    exact (((ColorTree.noRedRed_join _ _ _ _ _).mp hn).1 hred).1
  case balanced =>
    intro t ht
    obtain ⟨T, hT⟩ := htree t ht
    refine ⟨T.blackHeight, fun k' hk' => ?_⟩
    rw [← hm.1] at hk'
    exact (hh.tree t T hT).nullPath hm (F.redBlack t T hT).balanced hk'

end Laid

end CRbtree
