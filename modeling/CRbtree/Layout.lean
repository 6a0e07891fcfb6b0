import CRbtree.Fields

set_option autoImplicit false

/-!
Where a coloured tree of addresses lies in memory. Stores and links elsewhere leave it
there, so each lemma asks only that the written node is not one of the tree's.
-/

namespace CRbtree
open RedBlack TaggedPointers PointerGraphs

variable {w : ℕ}

/-- For simp, to write every fact on distinct addresses one way round. -/
theorem address_comm {a b : Address w} : a = b ↔ b = a := eq_comm

/-- The tree whose root a slot is. -/
def treeOf : Slot w → Pointer w
  | .left _ | .right _ => none
  | .root t => some t

/-- The fields of a node that hangs from the slot. -/
def linkAt (s : Slot w) (c : Color) : Link w := .linked s.holder c (treeOf s)

@[simp] theorem treeOf_child (d : Side) (a : Address w) : treeOf (.child d a) = none := by
  cases d <;> rfl

@[simp] theorem linkAt_child (d : Side) (a : Address w) (c : Color) :
    linkAt (.child d a) c = .linked (some a) c none := by cases d <;> rfl

/-- The slot `s` holds the root of `t`, laid out with parents and colours. -/
def TreeAt (m : FieldHeap w) : Slot w → ColorTree (Address w) → Prop
  | s, .nil => m.load s = none
  | s, .node c l a r =>
    m.load s = some a ∧ m.link a = linkAt s c ∧ TreeAt m (.left a) l ∧ TreeAt m (.right a) r

/-- The subtrees of the root are laid out below it. -/
def Below (m : FieldHeap w) : ColorTree (Address w) → Prop
  | .nil => True
  | .node _ l a r => TreeAt m (.left a) l ∧ TreeAt m (.right a) r

/-- The tree is laid out below some node, whichever that is. -/
def Loose (m : FieldHeap w) : ColorTree (Address w) → Prop
  | .nil => True
  | .node c l a r =>
    (∃ q, m.link a = .linked (some q) c none) ∧ TreeAt m (.left a) l ∧ TreeAt m (.right a) r

/-- The slot the hole of a context hangs from, given the slot of its outermost node. -/
def hole (top : Slot w) : Context (Address w) → Slot w
  | [] => top
  | f :: _ => .child f.side f.label

@[simp] theorem hole_nil (top : Slot w) : hole top [] = top := rfl

@[simp] theorem hole_cons (top : Slot w) (f : Frame (Address w)) (ctx : Context (Address w)) :
    hole top (f :: ctx) = .child f.side f.label := rfl

/-- The context is laid out, whatever its hole holds. -/
def ContextAt (m : FieldHeap w) (top : Slot w) : Context (Address w) → Prop
  | [] => True
  | f :: ctx =>
    m.load (hole top ctx) = some f.label ∧ m.link f.label = linkAt (hole top ctx) f.color ∧
      TreeAt m (.child f.side.flip f.label) f.sibling ∧ ContextAt m top ctx

@[simp] theorem treeAt_join {m : FieldHeap w} {s : Slot w} {d : Side} {c : Color}
    {t u : ColorTree (Address w)} {a : Address w} :
    TreeAt m s (.join d c t a u) ↔ m.load s = some a ∧ m.link a = linkAt s c ∧
      TreeAt m (.child d a) t ∧ TreeAt m (.child d.flip a) u := by
  cases d with
  | left => rfl
  | right => simp only [ColorTree.join, TreeAt, Slot.child, Side.flip]; tauto

@[simp] theorem loose_join {m : FieldHeap w} {d : Side} {c : Color} {t u : ColorTree (Address w)}
    {a : Address w} : Loose m (.join d c t a u) ↔ (∃ q, m.link a = .linked (some q) c none) ∧
      TreeAt m (.child d a) t ∧ TreeAt m (.child d.flip a) u := by
  cases d with
  | left => rfl
  | right => simp only [ColorTree.join, Loose, Slot.child, Side.flip]; tauto

theorem TreeAt.load {m : FieldHeap w} {s : Slot w} {t : ColorTree (Address w)}
    (h : TreeAt m s t) : m.load s = t.root? := by
  cases t with
  | nil => exact h
  | node c l a r => exact h.1

theorem TreeAt.loose {m : FieldHeap w} {d : Side} {b : Address w} {t : ColorTree (Address w)}
    (h : TreeAt m (.child d b) t) : Loose m t := by
  cases t with
  | nil => trivial
  | node c l a r => exact ⟨⟨b, by rw [h.2.1, linkAt_child]⟩, h.2.2⟩

theorem Loose.below {m : FieldHeap w} {t : ColorTree (Address w)} (h : Loose m t) :
    Below m t := by
  cases t with
  | nil => trivial
  | node c l a r => exact h.2

theorem below_paint {m : FieldHeap w} {t : ColorTree (Address w)} {c : Color} :
    Below m (t.paint c) ↔ Below m t := by cases t <;> rfl

/-- A tree in a hole, and the context around it, lie where the filled context does. -/
theorem treeAt_fill {m : FieldHeap w} {top : Slot w} {ctx : Context (Address w)}
    {t : ColorTree (Address w)} :
    TreeAt m top (fill ctx t) ↔ TreeAt m (hole top ctx) t ∧ ContextAt m top ctx := by
  induction ctx generalizing t with
  | nil => simp [hole, ContextAt]
  | cons f ctx ih =>
    simp only [fill, ih, Frame.wrap, treeAt_join, hole, ContextAt]
    tauto

theorem treeAt_wrap {m : FieldHeap w} {top : Slot w} {f : Frame (Address w)}
    {ctx : Context (Address w)} {t : ColorTree (Address w)}
    (h : TreeAt m top (fill (f :: ctx) t)) : TreeAt m (hole top ctx) (f.wrap t) := by
  rw [fill, treeAt_fill] at h
  exact h.1

theorem TreeAt.unfolds {m : FieldHeap w} {s : Slot w} {t : ColorTree (Address w)}
    (h : TreeAt m s t) : Unfolds m.load (m.load s) t := by
  induction t generalizing s with
  | nil => exact h
  | node c l a r hl hr => exact ⟨h.1, hl h.2.2.1, hr h.2.2.2⟩

theorem Loose.unfolds {m : FieldHeap w} {t : ColorTree (Address w)} (h : Loose m t) :
    Unfolds m.load t.root? t := by
  cases t with
  | nil => rfl
  | node c l a r => exact ⟨rfl, h.2.1.unfolds, h.2.2.unfolds⟩

section Frame

variable {m m' : FieldHeap w} {s s' : Slot w} {t : ColorTree (Address w)}
  {ctx : Context (Address w)}
  {a : Address w} {l : Link w} {v : Pointer w}

/-- The two memories hold the same nodes at the addresses of the list. -/
def SameOn (m m' : FieldHeap w) (l : List (Address w)) : Prop :=
  ∀ a ∈ l, m'.load (.left a) = m.load (.left a) ∧
    m'.load (.right a) = m.load (.right a) ∧ m'.link a = m.link a

theorem treeAt_congr (hs : m'.load s = m.load s) (h : SameOn m m' t.inorder) :
    TreeAt m' s t ↔ TreeAt m s t := by
  induction t generalizing s with
  | nil => simp only [TreeAt, hs]
  | node c t a u ht hu =>
    obtain ⟨h₁, h₂, h₃⟩ := h a (by simp [ColorTree.inorder])
    have ht' := ht h₁ (fun b hb => h b (by simp [ColorTree.inorder, hb]))
    have hu' := hu h₂ (fun b hb => h b (by simp [ColorTree.inorder, hb]))
    simp only [TreeAt, hs, h₃, ht', hu']

theorem loose_congr (h : SameOn m m' t.inorder) : Loose m' t ↔ Loose m t := by
  cases t with
  | nil => rfl
  | node c t a u =>
    obtain ⟨h₁, h₂, h₃⟩ := h a (by simp [ColorTree.inorder])
    have ht' := treeAt_congr (t := t) h₁ (fun b hb => h b (by simp [ColorTree.inorder, hb]))
    have hu' := treeAt_congr (t := u) h₂ (fun b hb => h b (by simp [ColorTree.inorder, hb]))
    simp only [Loose, h₃, ht', hu']

/-- No address of the list is the node of the slot. -/
def Clear (s : Slot w) (l : List (Address w)) : Prop := ∀ a ∈ s.holder, a ∉ l

theorem Clear.ne {l : List (Address w)} (h : Clear s l) (ha : a ∈ l) (d : Side) :
    Slot.child d a ≠ s := by
  rintro rfl
  exact h a (by simp) ha

theorem sameOn_store {l : List (Address w)} (h : Clear s' l) : SameOn m (m.store s' v) l :=
  fun _ ha => ⟨Memory.load_store_of_ne _ (h.ne ha .left) _,
    Memory.load_store_of_ne _ (h.ne ha .right) _, by rw [Memory.link_store]⟩

@[simp] theorem treeAt_store (hs : s ≠ s') (h : Clear s' t.inorder) :
    TreeAt (m.store s' v) s t ↔ TreeAt m s t :=
  treeAt_congr (Memory.load_store_of_ne _ hs _) (sameOn_store h)

@[simp] theorem loose_store (h : Clear s' t.inorder) : Loose (m.store s' v) t ↔ Loose m t :=
  loose_congr (sameOn_store h)

theorem sameOn_setLink {r : List (Address w)} (h : a ∉ r) : SameOn m (m.setLink a l) r :=
  fun _ hb => ⟨by rw [Memory.load_setLink], by rw [Memory.load_setLink],
    Memory.link_setLink_of_ne _ (by rintro rfl; exact h hb) _⟩

@[simp] theorem treeAt_setLink (h : a ∉ t.inorder) : TreeAt (m.setLink a l) s t ↔ TreeAt m s t :=
  treeAt_congr (by rw [Memory.load_setLink]) (sameOn_setLink h)

@[simp] theorem loose_setLink (h : a ∉ t.inorder) : Loose (m.setLink a l) t ↔ Loose m t :=
  loose_congr (sameOn_setLink h)

@[simp] theorem contextAt_store {top : Slot w} (hs : s ≠ top) (h : Clear s (elems ctx)) :
    ContextAt (m.store s v) top ctx ↔ ContextAt m top ctx := by
  induction ctx with
  | nil => rfl
  | cons f ctx ih =>
    have hf : ∀ d, Slot.child d f.label ≠ s := fun d => h.ne (by simp [elems]) d
    have hctx : Clear s (elems ctx) := fun a ha hm => h a ha (by simp [elems, hm])
    have hsib : Clear s f.sibling.inorder := fun a ha hm => h a ha (by simp [elems, hm])
    have hh : hole top ctx ≠ s := by
      cases ctx with
      | nil => exact hs.symm
      | cons g ctx => exact hctx.ne (by simp [elems]) g.side
    simp only [ContextAt, Memory.load_store_of_ne _ hh, Memory.link_store,
      treeAt_store (hf f.side.flip) hsib, ih hctx]

@[simp] theorem contextAt_setLink {top : Slot w} (h : a ∉ elems ctx) :
    ContextAt (m.setLink a l) top ctx ↔ ContextAt m top ctx := by
  induction ctx with
  | nil => rfl
  | cons f ctx ih =>
    simp only [elems, List.mem_cons, List.mem_append, not_or] at h
    simp only [ContextAt, Memory.load_setLink, Memory.link_setLink_of_ne _ (Ne.symm h.1),
      treeAt_setLink h.2.1, ih h.2.2]

/-- Storing to the hole leaves the context where it is. -/
@[simp] theorem contextAt_store_hole {top : Slot w} (hnd : (elems ctx).Nodup)
    (htop : Clear top (elems ctx)) :
    ContextAt (m.store (hole top ctx) v) top ctx ↔ ContextAt m top ctx := by
  cases ctx with
  | nil => rfl
  | cons f ctx =>
    simp only [elems, List.nodup_cons, List.mem_append, not_or] at hnd
    obtain ⟨⟨hsib, hctx⟩, -⟩ := hnd
    have hne : hole top ctx ≠ .child f.side f.label := by
      cases ctx with
      | nil =>
        rintro rfl
        exact htop f.label (by simp) (by simp [elems])
      | cons g ctx =>
        simp only [hole_cons, ne_eq, Slot.child_inj, not_and]
        exact fun _ h => hctx (by simp [elems, h])
    have hne' : .child f.side f.label ≠ top := by
      rintro rfl
      exact htop f.label (by simp) (by simp [elems])
    have hclear : ∀ l : List (Address w), f.label ∉ l → Clear (.child f.side f.label) l := by
      intro l hl a ha
      simp only [Slot.holder_child, Option.mem_def, Option.some.injEq] at ha
      rwa [← ha]
    simp only [ContextAt, hole_cons, Memory.load_store_of_ne _ hne, Memory.link_store,
      contextAt_store hne' (hclear _ hctx),
      treeAt_store (s := .child f.side.flip f.label) (by simp) (hclear _ hsib)]

end Frame

/-- The root of `t` gets the fields of a node that hangs from `s`. -/
def adopt (m : FieldHeap w) (t : ColorTree (Address w)) (s : Slot w) : FieldHeap w :=
  match t with
  | .nil => m
  | .node c _ a _ => m.setLink a (linkAt s c)

section Adopt

variable {m : FieldHeap w} {s s' : Slot w} {t u : ColorTree (Address w)}
  {ctx : Context (Address w)} {a : Address w}

@[simp] theorem load_adopt : (adopt m t s).load = m.load := by
  cases t <;> simp [adopt]

@[simp] theorem link_adopt (h : a ∉ t.inorder) : (adopt m t s).link a = m.link a := by
  cases t with
  | nil => rfl
  | node c l b r =>
    refine Memory.link_setLink_of_ne _ ?_ _
    rintro rfl
    simp [ColorTree.inorder] at h

@[simp] theorem adopt_store (v : Pointer w) :
    (adopt m t s).store s' v = adopt (m.store s' v) t s := by
  cases t with
  | nil => rfl
  | node c l a r => exact Memory.setLink_store _ _ _ _ _

theorem root_not_mem {l : List (Address w)} (h : t.inorder.Disjoint l) {a : Address w}
    (ha : t.root? = some a) : a ∉ l := h (ColorTree.mem_of_root? ha)

@[simp] theorem treeAt_adopt (h : t.inorder.Disjoint u.inorder) :
    TreeAt (adopt m t s) s' u ↔ TreeAt m s' u := by
  cases t with
  | nil => rfl
  | node c l a r => exact treeAt_setLink (root_not_mem h rfl)

@[simp] theorem loose_adopt (h : t.inorder.Disjoint u.inorder) :
    Loose (adopt m t s) u ↔ Loose m u := by
  cases t with
  | nil => rfl
  | node c l a r => exact loose_setLink (root_not_mem h rfl)

@[simp] theorem contextAt_adopt {top : Slot w} (h : t.inorder.Disjoint (elems ctx)) :
    ContextAt (adopt m t s) top ctx ↔ ContextAt m top ctx := by
  cases t with
  | nil => rfl
  | node c l a r => exact contextAt_setLink (root_not_mem h rfl)

theorem treeAt_adopt_below (hnd : t.inorder.Nodup) (hb : Below m t) (hs : m.load s = t.root?) :
    TreeAt (adopt m t s) s t := by
  cases t with
  | nil => exact hs
  | node c l a r =>
    simp only [ColorTree.inorder, List.nodup_append, List.nodup_cons, List.mem_cons] at hnd
    have hl : a ∉ l.inorder := fun h => hnd.2.2 a h a (.inl rfl) rfl
    have hr : a ∉ r.inorder := hnd.2.1.1
    refine ⟨?_, Memory.link_setLink_self _ _ _, ?_, ?_⟩
    · rw [load_adopt, hs]
      rfl
    · exact (treeAt_setLink hl).mpr hb.1
    · exact (treeAt_setLink hr).mpr hb.2

/-- A tree hangs from the slot that holds its root once the root is adopted. -/
@[simp] theorem treeAt_adopt_self (hnd : t.inorder.Nodup) (hb : Loose m t)
    (hs : m.load s = t.root?) : TreeAt (adopt m t s) s t :=
  treeAt_adopt_below hnd hb.below hs

/-- The same when the root is painted as it is adopted. -/
@[simp] theorem treeAt_adopt_paint {c : Color} (hnd : t.inorder.Nodup) (hb : Loose m t)
    (hs : m.load s = t.root?) : TreeAt (adopt m (t.paint c) s) s (t.paint c) :=
  treeAt_adopt_below (by simpa using hnd) (below_paint.mpr hb.below) (by simpa using hs)

theorem TreeAt.exists_link {n : Address w} (h : TreeAt m s t) (hn : t.root? = some n) :
    ∃ c, m.link n = linkAt s c ∧ t.isRed = decide (c = .red) := by
  cases t with
  | nil => simp [ColorTree.root?] at hn
  | node c l a r =>
    obtain rfl : a = n := by simpa [ColorTree.root?] using hn
    exact ⟨c, h.2.1, rfl⟩

theorem TreeAt.link_red {n : Address w} (h : TreeAt m s t) (hn : t.root? = some n)
    (ht : t.isRed = true) : m.link n = linkAt s .red := by
  obtain ⟨c, hk, hc⟩ := h.exists_link hn
  obtain rfl : c = .red := by simpa [ht] using hc.symm
  exact hk

theorem TreeAt.paint {n : Address w} (h : TreeAt m s t) (hnd : t.inorder.Nodup)
    (hn : t.root? = some n) (c : Color) :
    TreeAt (m.setLink n (linkAt s c)) s (t.paint c) := by
  cases t with
  | nil => simp [ColorTree.root?] at hn
  | node c' l a r =>
    obtain rfl : a = n := by simpa [ColorTree.root?] using hn
    simp only [ColorTree.inorder, List.nodup_append, List.nodup_cons, List.mem_cons] at hnd
    have hl : a ∉ l.inorder := fun h => hnd.2.2 a h a (.inl rfl) rfl
    have hr : a ∉ r.inorder := hnd.2.1.1
    refine ⟨?_, Memory.link_setLink_self _ _ _, ?_, ?_⟩
    · rw [Memory.load_setLink]
      exact h.1
    · exact (treeAt_setLink hl).mpr h.2.2.1
    · exact (treeAt_setLink hr).mpr h.2.2.2

end Adopt

section Hole

variable {m : FieldHeap w} {top : Address w} {ctx : Context (Address w)} {a : Address w} {d : Side}

@[simp] theorem clear_child {l : List (Address w)} : Clear (.child d a) l ↔ a ∉ l := by
  simp [Clear]

@[simp] theorem clear_root {l : List (Address w)} : Clear (.root top) l := by
  simp [Clear, Slot.holder]

theorem mem_of_holder_hole (h : (hole (.root top) ctx).holder = some a) : a ∈ elems ctx := by
  cases ctx with
  | nil => simp [Slot.holder] at h
  | cons f ctx =>
    simp only [hole_cons, Slot.holder_child, Option.some.injEq] at h
    simp [elems, h]

theorem holder_hole_ne (h : a ∉ elems ctx) : (hole (.root top) ctx).holder ≠ some a :=
  fun h' => h (mem_of_holder_hole h')

@[simp] theorem child_ne_hole {s : Slot w} (hs : .child d a ≠ s) (h : a ∉ elems ctx) :
    .child d a ≠ hole s ctx := by
  cases ctx with
  | nil => exact hs
  | cons f ctx =>
    simp only [hole_cons, ne_eq, Slot.child_inj, not_and]
    rintro - rfl
    simp [elems] at h

@[simp] theorem hole_ne_child {s : Slot w} (hs : .child d a ≠ s) (h : a ∉ elems ctx) :
    hole s ctx ≠ .child d a :=
  (child_ne_hole hs h).symm

@[simp] theorem clear_hole {s : Slot w} {l : List (Address w)} (hs : Clear s l)
    (h : l.Disjoint (elems ctx)) : Clear (hole s ctx) l := by
  cases ctx with
  | nil => exact hs
  | cons f ctx =>
    rw [hole_cons, clear_child]
    exact fun hl => h hl (by simp [elems])

/-- The other slot of the holder of the hole leads into the context. -/
theorem ContextAt.load_flip_ne {b : Address w} (h : ContextAt m (.root top) ctx)
    (ha : a ∉ elems ctx) (hb : hole (.root top) ctx = .child d b) :
    m.load (.child d.flip b) ≠ some a := by
  cases ctx with
  | nil => simp at hb
  | cons f ctx =>
    simp only [hole_cons, Slot.child_inj] at hb
    obtain ⟨rfl, rfl⟩ := hb
    rw [h.2.2.1.load]
    intro hr
    exact ha (by simp [elems, ColorTree.mem_of_root? hr])

theorem hole_append (s : Slot w) (ctx ctx' : Context (Address w)) :
    hole s (ctx ++ ctx') = hole (hole s ctx') ctx := by cases ctx <;> rfl

theorem contextAt_append {s : Slot w} {ctx ctx' : Context (Address w)} :
    ContextAt m s (ctx ++ ctx') ↔ ContextAt m (hole s ctx') ctx ∧ ContextAt m s ctx' := by
  induction ctx with
  | nil => simp [ContextAt]
  | cons f ctx ih =>
    simp only [List.cons_append, ContextAt, hole_append, ih]
    tauto

/-- Following pointers from the top of a context leads through it to what its hole holds. -/
theorem ContextAt.unfolds {s : Slot w} {t : ColorTree (Address w)} (h : ContextAt m s ctx)
    (ht : Unfolds m.load (m.load (hole s ctx)) t) : Unfolds m.load (m.load s) (fill ctx t) := by
  induction ctx generalizing t with
  | nil => exact ht
  | cons f ctx ih =>
    obtain ⟨hl, -, hs, hctx⟩ := h
    exact ih hctx (unfolds_join.mpr ⟨hl, ht, hs.unfolds⟩)

end Hole

/-- An empty child slot of a member is a hole. -/
theorem TreeAt.exists_slot {m : FieldHeap w} {s : Slot w}
    {T : ColorTree (Address w)} {p : Address w}
    (d : Side) (h : TreeAt m s T) (hp : p ∈ T.inorder) (hs : m.load (.child d p) = none) :
    ∃ f ctx, T = fill (f :: ctx) .nil ∧ f.side = d ∧ f.label = p := by
  obtain ⟨ctx, c, l, r, rfl⟩ := exists_fill_of_mem hp
  have hj := (treeAt_fill.mp h).1
  rw [ColorTree.node_eq_join d] at hj
  obtain ⟨-, -, ht, -⟩ := treeAt_join.mp hj
  have hnil : (ColorTree.node c l p r).child d = .nil := by
    rw [← ColorTree.root?_eq_none, ← ht.load, hs]
  refine ⟨⟨d, c, p, (ColorTree.node c l p r).child d.flip⟩, ctx, ?_, rfl, rfl⟩
  refine congrArg (fill ctx) ?_
  rw [Frame.wrap, ← hnil]
  exact ColorTree.node_eq_join d c l p r

/-- Repainting the root of what fills a hole. -/
theorem treeAt_fill_paint {m : FieldHeap w} {top : Address w} {ctx : Context (Address w)}
    {t : ColorTree (Address w)} {n : Address w} (h : TreeAt m (.root top) (fill ctx t))
    (hnd : (fill ctx t).inorder.Nodup) (hn : t.root? = some n) (c : Color) :
    TreeAt (m.setLink n (linkAt (hole (.root top) ctx) c)) (.root top) (fill ctx (t.paint c)) := by
  obtain ⟨ht, hctx⟩ := treeAt_fill.mp h
  obtain ⟨hndt, -, hdis⟩ := List.nodup_append'.mp (nodup_fill.mp hnd)
  exact treeAt_fill.mpr ⟨ht.paint hndt hn c,
    (contextAt_setLink (hdis (ColorTree.mem_of_root? hn))).mpr hctx⟩

/-- Node `p` hangs from the hole with the subtree `u` away from side `d`. What hangs on
side `d` is about to change. -/
structure Stem (m : FieldHeap w) (top : Address w) (ctx : Context (Address w)) (d : Side)
    (c : Color) (p : Address w) (u : ColorTree (Address w)) : Prop where
  context : ContextAt m (.root top) ctx
  load : m.load (hole (.root top) ctx) = some p
  link : m.link p = linkAt (hole (.root top) ctx) c
  other : TreeAt m (.child d.flip p) u

theorem stem_of_treeAt {m : FieldHeap w} {top : Address w} {ctx : Context (Address w)} {d : Side}
    {c : Color} {p : Address w} {t u : ColorTree (Address w)}
    (h : TreeAt m (.root top) (fill ctx (.join d c t p u))) :
    Stem m top ctx d c p u ∧ TreeAt m (.child d p) t := by
  obtain ⟨hj, hctx⟩ := treeAt_fill.mp h
  obtain ⟨hl, hk, ht, hu⟩ := treeAt_join.mp hj
  exact ⟨⟨hctx, hl, hk, hu⟩, ht⟩

theorem stem_flip_of_treeAt {m : FieldHeap w} {top : Address w} {ctx : Context (Address w)}
    {d : Side} {c : Color} {p : Address w} {t u : ColorTree (Address w)}
    (h : TreeAt m (.root top) (fill ctx (.join d c t p u))) : Stem m top ctx d.flip c p t := by
  rw [← ColorTree.join_flip] at h
  exact (stem_of_treeAt h).1

/-- The two children of a node are not the same. -/
theorem TreeAt.load_flip_ne {m : FieldHeap w} {s : Slot w} {d : Side} {c : Color}
    {t u : ColorTree (Address w)} {a p : Address w} (h : TreeAt m s (.join d c t a u))
    (hnd : (ColorTree.join d c t a u).inorder.Nodup) (hp : t.root? = some p) :
    m.load (.child d.flip a) ≠ some p := by
  obtain ⟨-, -, -, hu⟩ := treeAt_join.mp h
  rw [hu.load]
  intro hr
  exact ((ColorTree.nodup_join _ _ _ _ _).mp hnd).2.2.2.2 (ColorTree.mem_of_root? hp)
    (ColorTree.mem_of_root? hr)

end CRbtree
