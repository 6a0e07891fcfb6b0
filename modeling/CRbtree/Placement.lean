import CRbtree.Runs

set_option autoImplicit false

/-!
The fields of each node of a laid out tree. The tree and the slot it hangs from determine
them, and every tree has a memory that it is laid out in.
-/

namespace CRbtree
open RedBlack TaggedPointers PointerGraphs Programs

variable {w : ℕ} {L : Type}

/-- The word of a node that hangs from the slot. -/
def wordAt (s : Slot w) (c : Color) : Word w := (rawAt s).word ||| flagWord c (treeOf s).isSome

theorem packs_linkAt_iff {n : Address w} {s : Slot w} {c : Color} {x : Word w} :
    Packs n (linkAt s c) x ↔ s.holder ≠ some n ∧ x = wordAt s c := by
  cases s <;> simp [linkAt, treeOf, Packs, wordAt, rawAt, Slot.holder, Pointer.word]

/-- The fields of the node `a` in a tree that hangs from the slot. -/
def fieldsIn (link : Slot w → Color → L) : Slot w → ColorTree (Address w) → Address w →
    Option (CRBNode L w)
  | _, .nil, _ => none
  | s, .node c l b r, a =>
    if a = b then some ⟨link s c, l.root?, r.root?⟩
    else (fieldsIn link (.left b) l a).or (fieldsIn link (.right b) r a)

section Laid

variable {h : Heap w} {t : Address w} {T U : ColorTree (Address w)}

/-- The coloured tree lies below the root of `t`, packed in words. -/
def Laid (h : Heap w) (t : Address w) (T : ColorTree (Address w)) : Prop :=
  ∃ m, Refines m h ∧ TreeAt m (.root t) T

theorem treeAt_unique {m m' : FieldHeap w} (hm : Refines m h) (hm' : Refines m' h) {s : Slot w}
    (hT : TreeAt m s T) (hU : TreeAt m' s U) : T = U := by
  have hload : T.root? = U.root? := by rw [← hT.load, ← hU.load, hm.1, hm'.1]
  induction T generalizing s U with
  | nil => exact (ColorTree.root?_eq_none.mp hload.symm).symm
  | node c l a r ihl ihr =>
    cases U with
    | nil => cases hload
    | node c' l' a' r' =>
      obtain rfl : a = a' := Option.some.inj hload
      obtain ⟨-, hk, hl, hr⟩ := hT
      obtain ⟨-, hk', hl', hr'⟩ := hU
      have hc : c = c' := by
        have hred := (packs_linkAt (hk ▸ hm.2 a)).2.2.1
        rw [(packs_linkAt (hk' ▸ hm'.2 a)).2.2.1] at hred
        cases c <;> cases c' <;> simp_all
      have hload' : ∀ s, m.load s = m'.load s := fun s => by rw [hm.1, hm'.1]
      rw [hc, ihl hl hl' (by rw [← hl.load, ← hl'.load, hload']),
        ihr hr hr' (by rw [← hr.load, ← hr'.load, hload'])]

end Laid

section Fields

variable {link : Slot w → Color → L} {s : Slot w} {T : ColorTree (Address w)} {a : Address w}
  {f : CRBNode L w}

theorem fieldsIn_eq_none : fieldsIn link s T a = none ↔ a ∉ T.inorder := by
  induction T generalizing s with
  | nil => simp [fieldsIn, ColorTree.inorder]
  | node c l b r hl hr =>
    by_cases hab : a = b
    · simp [fieldsIn, hab, ColorTree.inorder]
    · simp [fieldsIn, hab, ColorTree.inorder, hl, hr]

theorem exists_fieldsIn (ha : a ∈ T.inorder) : ∃ f, fieldsIn link s T a = some f :=
  Option.ne_none_iff_exists'.mp fun h => fieldsIn_eq_none.mp h ha

/-- The fields on words are the fields of separate nodes, packed. -/
theorem fieldsIn_pack (hs : ∀ b ∈ s.holder, b ∉ T.inorder) (hnd : T.inorder.Nodup) :
    (fieldsIn linkAt s T a = none ∧ fieldsIn wordAt s T a = none) ∨ ∃ s' c p q,
      fieldsIn linkAt s T a = some ⟨linkAt s' c, p, q⟩ ∧
      fieldsIn wordAt s T a = some ⟨wordAt s' c, p, q⟩ ∧ s'.holder ≠ some a := by
  induction T generalizing s with
  | nil => exact .inl ⟨rfl, rfl⟩
  | node c l b r hl hr =>
    have hnb := hnd
    rw [ColorTree.inorder, List.nodup_middle, List.nodup_cons, List.mem_append, not_or] at hnb
    by_cases hab : a = b
    · subst hab
      refine .inr ⟨s, c, l.root?, r.root?, if_pos rfl, if_pos rfl, fun ha => ?_⟩
      exact hs a ha (by simp [ColorTree.inorder])
    · have hl' := hl (s := .left b) (by simpa [Slot.holder] using hnb.1.1)
        (List.nodup_append'.mp hnb.2).1
      have hr' := hr (s := .right b) (by simpa [Slot.holder] using hnb.1.2)
        (List.nodup_append'.mp hnb.2).2.1
      simp only [fieldsIn, if_neg hab]
      rcases hl' with ⟨h₁, h₂⟩ | ⟨s', c', p, q, h₁, h₂, h₃⟩
      · simpa [h₁, h₂] using hr'
      · exact .inr ⟨s', c', p, q, by simp [h₁], by simp [h₂], h₃⟩

theorem TreeAt.fields {m : FieldHeap w} (h : TreeAt m s T) {f : CRBNode (Link w) w}
    (hf : fieldsIn linkAt s T a = some f) : m.node a = f := by
  induction T generalizing s with
  | nil => cases hf
  | node c l b r hl hr =>
    obtain ⟨-, hk, htl, htr⟩ := h
    by_cases hab : a = b
    · subst hab
      have heq : m.node a = ⟨m.link a, m.load (.left a), m.load (.right a)⟩ := rfl
      simp only [fieldsIn, if_true, Option.some.injEq] at hf
      rw [heq, hk, htl.load, htr.load, hf]
    · rw [fieldsIn, if_neg hab, Option.or_eq_some_iff] at hf
      rcases hf with hf | ⟨-, hf⟩
      · exact hl htl hf
      · exact hr htr hf

theorem treeAt_of_fields {m : FieldHeap w} (hnd : T.inorder.Nodup) (hs : m.load s = T.root?)
    (h : ∀ a f, fieldsIn linkAt s T a = some f → m.node a = f) : TreeAt m s T := by
  induction T generalizing s with
  | nil => exact hs
  | node c l b r hl hr =>
    rw [ColorTree.inorder, List.nodup_middle, List.nodup_cons, List.mem_append, not_or,
      List.nodup_append'] at hnd
    obtain ⟨⟨hbl, hbr⟩, hndl, hndr, hdis⟩ := hnd
    have hb : m.node b = ⟨linkAt s c, l.root?, r.root?⟩ := h b _ (if_pos rfl)
    refine ⟨hs, by simp [Memory.link, hb], hl hndl (by simp [Memory.load, hb]) ?_,
      hr hndr (by simp [Memory.load, hb]) ?_⟩
    · intro a f hf
      have ha : a ∈ l.inorder := by
        by_contra ha
        rw [fieldsIn_eq_none.mpr ha] at hf
        cases hf
      refine h a f ?_
      rw [fieldsIn, if_neg (by rintro rfl; exact hbl ha), hf]
      rfl
    · intro a f hf
      have ha : a ∈ r.inorder := by
        by_contra ha
        rw [fieldsIn_eq_none.mpr ha] at hf
        cases hf
      refine h a f ?_
      rw [fieldsIn, if_neg (by rintro rfl; exact hbr ha),
        fieldsIn_eq_none.mpr fun hal => hdis hal ha]
      exact hf

end Fields

section Layout

variable {h h' : Heap w} {t : Address w} {T : ColorTree (Address w)} {a : Address w}

theorem Laid.load (hT : Laid h t T) : h.load (.root t) = T.root? := by
  obtain ⟨m, hm, hT⟩ := hT
  rw [← hm.1, hT.load]

theorem Laid.fields (hT : Laid h t T) (hnd : T.inorder.Nodup) {f : CRBNode (Word w) w}
    (hf : fieldsIn wordAt (.root t) T a = some f) : h.node a = f := by
  obtain ⟨m, hm, hT⟩ := hT
  rcases fieldsIn_pack (a := a) (s := .root t) (by simp [Slot.holder]) hnd with
    ⟨-, h₂⟩ | ⟨s', c, p, q, h₁, h₂, -⟩
  · rw [h₂] at hf
    cases hf
  · rw [h₂, Option.some.injEq] at hf
    have hnode := hT.fields h₁
    have hword : h.link a = wordAt s' c := by
      have hp := hm.2 a
      rw [Memory.link, hnode] at hp
      exact (packs_linkAt_iff.mp hp).2
    have hl := congrFun hm.1 (.left a)
    have hr := congrFun hm.1 (.right a)
    simp only [Memory.load, hnode] at hl hr
    rw [← hf, hl, hr, ← hword]
    rfl

/-- The tree determines the fields of its nodes. -/
theorem Laid.node_eq (hT : Laid h t T) (hT' : Laid h' t T) (hnd : T.inorder.Nodup)
    (ha : a ∈ T.inorder) : h.node a = h'.node a := by
  obtain ⟨f, hf⟩ : ∃ f, fieldsIn wordAt (.root t) T a = some f := exists_fieldsIn ha
  rw [hT.fields hnd hf, hT'.fields hnd hf]

/-- A tree is laid out wherever the fields of its nodes are the same. -/
theorem Laid.congr (hT : Laid h t T) (hroot : h'.load (.root t) = h.load (.root t))
    (hsame : ∀ a ∈ T.inorder, h'.node a = h.node a) : Laid h' t T := by
  obtain ⟨m, hm, hT⟩ := hT
  let m' : FieldHeap w := ⟨fun a => ⟨if a ∈ T.inorder then m.link a else .unknown, (h'.node a).left,
    (h'.node a).right⟩, h'.tree⟩
  refine ⟨m', ⟨?_, fun a => ?_⟩, (treeAt_congr ?_ fun a ha => ?_).mpr hT⟩
  · funext s
    cases s <;> rfl
  · by_cases ha : a ∈ T.inorder
    · have hlink : h'.link a = h.link a := congrArg _ (hsame a ha)
      have hp := hm.2 a
      rw [← hlink] at hp
      simpa [m', Memory.link, ha] using hp
    · simp [m', Memory.link, ha, Packs]
  · rw [hm.1]
    exact hroot
  · have hload : ∀ s : Slot w, s.holder = some a → m'.load s = m.load s := by
      intro s hs
      rw [hm.1]
      cases s with
      | left b | right b =>
        obtain rfl := Option.some.inj hs
        simp [m', Memory.load, hsame b ha]
      | root t => cases hs
    exact ⟨hload (.left a) rfl, hload (.right a) rfl, by simp [m', Memory.link, ha]⟩

/-- A memory that holds one tree and nothing else. -/
def layOut (t : Address w) (T : ColorTree (Address w)) : Heap w where
  node a := (fieldsIn wordAt (.root t) T a).getD ⟨0#(w + 2), none, none⟩
  tree _ := ⟨T.root?⟩

theorem laid_layOut (t : Address w) (hnd : T.inorder.Nodup) : Laid (layOut t T) t T := by
  refine ⟨⟨fun a => (fieldsIn linkAt (.root t) T a).getD ⟨.unknown, none, none⟩,
    fun _ => ⟨T.root?⟩⟩, ⟨?_, fun a => ?_⟩, treeAt_of_fields hnd rfl fun a f hf => ?_⟩
  · funext s
    cases s with
    | root t' => rfl
    | left a | right a =>
      rcases fieldsIn_pack (a := a) (s := .root t) (by simp [Slot.holder]) hnd with
        ⟨h₁, h₂⟩ | ⟨s', c, p, q, h₁, h₂, -⟩ <;> simp [Memory.load, layOut, h₁, h₂]
  · rcases fieldsIn_pack (a := a) (s := .root t) (by simp [Slot.holder]) hnd with
      ⟨h₁, -⟩ | ⟨s', c, p, q, h₁, h₂, h₃⟩
    · simp [Memory.link, h₁, Packs]
    · simp only [Memory.link, h₁, h₂, layOut, Option.getD_some]
      exact packs_linkAt_iff.mpr ⟨h₃, rfl⟩
  · simp [hf]

end Layout

section Sample

/-- Well-formed, but neither balanced nor soundly coloured. -/
def crooked : ColorTree (Address 6) :=
  .node .red (.node .red .nil (cell 1) (.node .black .nil (cell 2) .nil)) (cell 3) .nil

theorem nodup_crooked : crooked.inorder.Nodup := by decide

theorem laid_crooked : Laid (layOut (cell 0) crooked) (cell 0) crooked :=
  laid_layOut (cell 0) nodup_crooked

/-- The second tree of the sample run. -/
def sampleTree : ColorTree (Address 6) :=
  .node .black (.node .black .nil (cell 3) (.node .red .nil (cell 4) .nil)) (cell 6)
    (.node .red (.node .black .nil (cell 7) (.node .red .nil (cell 8) .nil)) (cell 10)
      (.node .black .nil (cell 9) .nil))

theorem nodup_sampleTree : sampleTree.inorder.Nodup := by decide

theorem isRedBlack_sampleTree : sampleTree.IsRedBlack := ⟨by decide, by decide, by decide⟩

theorem laid_sampleTree : Laid sampleHeap (cell 1) sampleTree := by
  have hsame : sampleTree.inorder.all fun a =>
      decide (sampleHeap.node a = (layOut (cell 1) sampleTree).node a) := by decide +kernel
  refine (laid_layOut (cell 1) nodup_sampleTree).congr (by decide +kernel) fun a ha => ?_
  exact of_decide_eq_true (List.all_eq_true.mp hsame a ha)

end Sample

end CRbtree
