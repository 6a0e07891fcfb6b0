import CRbtree.Alterations
import CRbtree.Effects
import CRbtree.SafeUnlinking
import CRbtree.Stores

set_option autoImplicit false

/-!
How little of a memory with any number of trees a call changes.
-/

namespace CRbtree
open RedBlack TaggedPointers PointerGraphs Programs

variable {w : ℕ}

/-- The memory holds the trees of the forest. -/
def Grows (h : Heap w) (F : Forest w) : Prop :=
  ∃ m, Refines m h ∧ ∀ t T, F.tree t = some T → TreeAt m (.root t) T

/-- The node that a call hangs its node from. -/
def Call.parent : Call w → Pointer w
  | add _ p _ _ => p
  | link p _ _ => some p
  | treeInit _ | nodeInit _ | unlink _ | unlinkStale _ | move _ _ => none

/-- The call works on the tree at `t`, on a node of it or on its root. -/
def Call.About (S : Sequences w) (t : Address w) (c : Call w) : Prop :=
  c.On S t ∨ c = .treeInit t ∨ ∃ t', c = .move t t' ∨ c = .move t' t

/-- The node `p` and what is above it: the ancestors of a node that hangs from `p`. -/
inductive Ancestor (h : Heap w) : Pointer w → Address w → Prop
  | here (a : Address w) : Ancestor h (some a) a
  | above {a b : Address w} (hb : Ancestor h (parentOf (h.link a)) b) : Ancestor h (some a) b

/-- What adding `n` below `p` changes. -/
structure AddsWithin (p : Pointer w) (n : Address w) (h h' : Heap w) : Prop where
  fields : ∀ a, h'.node a ≠ h.node a → a = n ∨ Ancestor h p a ∨
    ∃ b d, Ancestor h p b ∧ h.load (.child d b) = some a
  edges : ∃ A : List (Address w), A.length ≤ 5 ∧
    ∀ a d, a ≠ n → h'.load (.child d a) ≠ h.load (.child d a) → a ∈ A

/-- What c_rbnode_unlink_stale() of `n` changes. -/
structure RemovesWithin (n : Address w) (h h' : Heap w) : Prop where
  self : ∀ d, h'.load (.child d n) = h.load (.child d n)
  edges : ∃ A : List (Address w), A.length ≤ 8 ∧
    ∀ a d, h'.load (.child d a) ≠ h.load (.child d a) → a ∈ A

/-- Other trees keep their roots and all fields of their nodes. -/
def SparesOthers (S : Sequences w) (c : Call w) (h h' : Heap w) : Prop :=
  ∀ t, ¬c.About S t → h'.tree t = h.tree t ∧ ∀ l, S t = some l → ∀ a ∈ l, h'.node a = h.node a

section Fields

variable {m : FieldHeap w} {L : Type} {link : Slot w → Color → L} {s s' : Slot w}
  {T u v : ColorTree (Address w)} {a b : Address w} {d : Side} {c : Color}

theorem fieldsIn_join (hnd : (ColorTree.join d c u b v).inorder.Nodup) (ha : a ∈ u.inorder) :
    fieldsIn link s (.join d c u b v) a = fieldsIn link (.child d b) u a := by
  obtain ⟨hbu, -, -, -, hdis⟩ := (ColorTree.nodup_join _ _ _ _ _).mp hnd
  have hab : a ≠ b := by
    rintro rfl
    exact hbu ha
  have hv : ∀ s : Slot w, fieldsIn link s v a = none := fun s => fieldsIn_eq_none.mpr (hdis ha)
  cases d with
  | left => simp [ColorTree.join, fieldsIn, hab, hv, Slot.child]
  | right => simp [ColorTree.join, fieldsIn, hab, hv, Slot.child]

/-- A node that is not the root of a subtree has the same fields wherever the subtree hangs. -/
theorem fieldsIn_contains (h : Contains u T) (hnd : T.inorder.Nodup) (ha : a ∈ u.inorder)
    (hroot : u.root? ≠ some a) : fieldsIn link s T a = fieldsIn link s' u a := by
  induction h generalizing s with
  | here c =>
    cases u with
    | nil => cases ha
    | node e l b r =>
      have hab : a ≠ b := by
        rintro rfl
        exact hroot rfl
      simp [ColorTree.paint, fieldsIn, hab]
  | join d c b v h ih =>
    rw [fieldsIn_join hnd (h.subset ha)]
    exact ih ((ColorTree.nodup_join _ _ _ _ _).mp hnd).2.2.1

theorem TreeAt.family (h : TreeAt m s T) {k : Side → Pointer w} (hk : Family T a k) (d : Side) :
    m.load (.child d a) = k d := by
  induction T generalizing s with
  | nil => exact hk.elim
  | node c l b r hl hr =>
    obtain ⟨-, -, htl, htr⟩ := h
    rcases hk with ⟨rfl, rfl⟩ | hk | hk
    · cases d with
      | left => exact htl.load
      | right => exact htr.load
    · exact hl htl hk
    · exact hr htr hk

end Fields

section Heaps

variable {h h' : Heap w} {t : Address w} {T T' : ColorTree (Address w)} {c : Call w} {n : Address w}

theorem Laid.family (hT : Laid h t T) {a : Address w} {k : Side → Pointer w} (hk : Family T a k)
    (d : Side) : h.load (.child d a) = k d := by
  obtain ⟨m, hm, hT⟩ := hT
  rw [← hm.1, hT.family hk d]

/-- The nodes of a path are above its end. -/
theorem Laid.ancestor {ctx : Context (Address w)} {u : ColorTree (Address w)}
    (hT : Laid h t (fill ctx u)) {f : Frame (Address w)} (hf : f ∈ ctx) :
    Ancestor h (hole (.root t) ctx).holder f.label := by
  induction ctx generalizing u with
  | nil => cases hf
  | cons g ctx ih =>
    rw [hole_cons, Slot.holder_child]
    rcases List.mem_cons.mp hf with rfl | hf
    · exact .here _
    · refine .above ?_
      have hparent : parentOf (h.link g.label) = (hole (.root t) ctx).holder := by
        obtain ⟨m, hm, htree⟩ := hT
        have hwrap : TreeAt m (.root t) (fill ctx (g.wrap u)) := htree
        have hk := hm.2 g.label
        rw [(treeAt_join.mp (treeAt_fill.mp hwrap).1).2.1] at hk
        exact (packs_linkAt hk).1
      rw [hparent]
      exact ih hT hf

theorem Laid.load_sibling {ctx : Context (Address w)} {u : ColorTree (Address w)}
    (hT : Laid h t (fill ctx u)) {f : Frame (Address w)} (hf : f ∈ ctx) :
    h.load (.child f.side.flip f.label) = f.sibling.root? := by
  induction ctx generalizing u with
  | nil => cases hf
  | cons g ctx ih =>
    rcases List.mem_cons.mp hf with rfl | hf
    · obtain ⟨m, hm, htree⟩ := hT
      have hwrap : TreeAt m (.root t) (fill ctx (f.wrap u)) := htree
      rw [← hm.1]
      exact (treeAt_join.mp (treeAt_fill.mp hwrap).1).2.2.2.load
    · exact ih hT hf

/-- Nodes that are neither the call's own nor in the list keep their children. -/
theorem Effect.edges (he : Effect c t T' h h') (hT : Laid h t T) (hn : c.subject = some n)
    (hin : ∀ a ∈ T'.inorder, a ≠ n → a ∈ T.inorder) {A : List (Address w)}
    (hA : Alike (n :: A) T T') {a : Address w} {d : Side} (ha : a ≠ n)
    (hne : h'.load (.child d a) ≠ h.load (.child d a)) : a ∈ A := by
  by_contra haA
  by_cases haT : a ∈ T.inorder
  · obtain ⟨k, hk⟩ := exists_family haT
    have hk' := hA a (by simp [ha, haA]) k hk
    exact hne ((he.laid.family hk' d).trans (hT.family hk d).symm)
  · have hnode := he.others a (by simpa [hn] using Ne.symm ha) fun ha' => haT (hin a ha' ha)
    refine hne ?_
    cases d <;> simp [Slot.child, Memory.load, hnode]

/-- A node off the path that hangs deeper than its siblings stays as it is. -/
theorem Effect.deep {ctx : Context (Address w)} (he : Effect c t (insertAt ctx n) h h')
    (hT : Laid h t (fill ctx .nil)) (hnd : (fill ctx (.nil : ColorTree (Address w))).inorder.Nodup)
    (hnd' : (insertAt ctx n).inorder.Nodup) {f : Frame (Address w)} (hf : f ∈ ctx) {a : Address w}
    (ha : a ∈ f.sibling.inorder) (hroot : f.sibling.root? ≠ some a) : h'.node a = h.node a := by
  have hold := contains_sibling hf (.nil : ColorTree (Address w))
  have hnew : Contains f.sibling (insertAt ctx n) :=
    contains_repaint ctx (by simp [leaf]) (.inr ⟨f, hf, rfl⟩)
  obtain ⟨x, hx⟩ : ∃ x, fieldsIn wordAt (.root t) f.sibling a = some x := exists_fieldsIn ha
  have hx₁ := (fieldsIn_contains (s := .root t) hold hnd ha hroot).trans hx
  have hx₂ := (fieldsIn_contains (s := .root t) hnew hnd' ha hroot).trans hx
  rw [hT.fields hnd hx₁, he.laid.fields hnd' hx₂]

/-- Adding a node. -/
theorem Effect.adds {ctx : Context (Address w)} (he : Effect c t (insertAt ctx n) h h')
    (hn : c.subject = some n) (hT : Laid h t (fill ctx .nil))
    (hnd : ((fill ctx (.nil : ColorTree (Address w))).inorder ++ [n]).Nodup) :
    AddsWithin (hole (.root t) ctx).holder n h h' := by
  have hin : ∀ a, a ∈ (insertAt ctx n).inorder ↔ a = n ∨ a ∈ (fill ctx .nil).inorder := fun a => by
    simp only [inorder_insertAt, inorder_fill, ColorTree.inorder, List.mem_append, List.mem_cons]
    tauto
  have hnd₀ := (List.nodup_append.mp hnd).1
  have hnd' : (insertAt ctx n).inorder.Nodup := by
    rw [insertAt, inorder_repaint _ (by simp [leaf])]
    exact (perm_leaf ctx n).nodup_iff.mpr hnd
  refine ⟨fun a hne => ?_, ?_⟩
  · by_cases han : a = n
    · exact .inl han
    · have haT : a ∈ (fill ctx (.nil : ColorTree (Address w))).inorder := by
        by_contra haT
        exact hne (he.others a (by simpa [hn] using Ne.symm han) (by simp [hin, han, haT]))
      have hctx := (mem_fill.mp haT).resolve_left (by simp [ColorTree.inorder])
      obtain ⟨f, hf, rfl | haf⟩ := mem_elems.mp hctx
      · exact .inr (.inl (hT.ancestor hf))
      · by_cases hroot : f.sibling.root? = some a
        · exact .inr (.inr ⟨f.label, f.side.flip, hT.ancestor hf, (hT.load_sibling hf).trans hroot⟩)
        · exact absurd (he.deep hT hnd₀ hnd' hf haf hroot) hne
  · obtain ⟨A, hA, halike⟩ := alike_insertAt ctx n
    refine ⟨A, hA, fun a d han hne => he.edges hT hn (fun b hb hbn => ?_) halike han hne⟩
    exact ((hin b).mp hb).resolve_left hbn

/-- Removing a node. -/
theorem Effect.removes {ctx : Context (Address w)} {e : Color} {l r : ColorTree (Address w)}
    (he : Effect (.unlinkStale n) t (unlinkAt ctx (.node e l n r)) h h')
    (hrb : (fill ctx (.node e l n r)).IsRedBlack) (hT : Laid h t (fill ctx (.node e l n r)))
    (hnd : (fill ctx (.node e l n r)).inorder.Nodup) : RemovesWithin n h h' := by
  have hin := inorder_unlinkAt_erase hrb hnd
  have hgone : n ∉ (unlinkAt ctx (.node e l n r)).inorder := hin ▸ hnd.not_mem_erase
  have hself : ∀ d, h'.load (.child d n) = h.load (.child d n) := fun d => by
    cases d <;> simp [Slot.child, Memory.load, he.subject n rfl hgone, Call.leaves]
  obtain ⟨A, hA, halike⟩ := alike_unlinkAt ctx e l n r
  refine ⟨hself, A, hA, fun a d hne => ?_⟩
  have han : a ≠ n := by
    rintro rfl
    exact hne (hself d)
  exact he.edges hT rfl (fun b hb _ => List.mem_of_mem_erase (hin ▸ hb)) halike han hne

theorem Effect.keeps (he : Effect c t T' h h') {t' : Address w} (ht : t' ≠ t) (hT : Laid h t' T)
    (hdis : ∀ a ∈ T.inorder, ¬Effect.Touched c T' a) : Laid h' t' T :=
  hT.congr (congrArg CRBTree.root (he.trees t' ht)) fun a ha => he.untouched (hdis a ha)

end Heaps

namespace Change

variable {h h' : Heap w} {F : Forest w} {t : Address w} {T T' : ColorTree (Address w)} {c : Call w}
  {n a : Address w} {k : ℕ}

theorem on_self (hc : Change t c T T' k) (hT : F.tree t = some T) : c.On F.sequences t := by
  have hseq : F.sequences t = some T.inorder := by simp [Forest.sequences, hT]
  cases hc with
  | plant n => rfl
  | add t' f ctx n | link f ctx n => exact ⟨_, hseq, by simp [mem_fill, elems]⟩
  | unlink ctx e l n r | unlinkStale ctx e l n r =>
    exact ⟨_, hseq, by simp [mem_fill, ColorTree.inorder]⟩

/-- A call that adds a node puts it into an empty slot. -/
theorem insertion (hc : Change t c T T' k) (hn : n ∈ c.added) :
    ∃ ctx : Context (Address w), T = fill ctx .nil ∧ T' = insertAt ctx n ∧
      c.parent = (CRbtree.hole (.root t) ctx).holder ∧ c.subject = some n := by
  cases hc with
  | plant n' =>
    obtain rfl := List.mem_singleton.mp hn
    exact ⟨[], rfl, rfl, rfl, rfl⟩
  | add t' f ctx n' | link f ctx n' =>
    obtain rfl := List.mem_singleton.mp hn
    exact ⟨f :: ctx, rfl, rfl, by rw [hole_cons, Slot.holder_child]; rfl, rfl⟩
  | unlink ctx e l n' r | unlinkStale ctx e l n' r => cases hn

theorem touched (hc : Change t c T T' k) (hT : T.IsRedBlack) (hnd : T.inorder.Nodup)
    (ha : Effect.Touched c T' a) : a ∈ T.inorder ++ c.added := by
  rcases ha with ha | ha
  · cases hc with
    | plant n | add t' f ctx n | link f ctx n =>
      obtain rfl := Option.some.inj ha
      simp [Call.added]
    | unlink ctx e l n r | unlinkStale ctx e l n r =>
      obtain rfl := Option.some.inj ha
      simp [mem_fill, ColorTree.inorder]
  · exact hc.mem_inorder hT hnd ha

theorem subject_of_added (hc : Change t c T T' k) (hn : n ∈ c.added) : c.subject = some n := by
  obtain ⟨-, -, -, -, hs⟩ := hc.insertion hn
  exact hs

end Change

section Forests

variable {h : Heap w} {F : Forest w} {c c' : Call w} {n : Address w}

/-- A legal call that adds or removes a node works on one tree. -/
theorem Grows.exists_change (hg : Grows h F) (hc : c.Legal F.sequences h.load)
    (hch : c.Changes = true) :
    ∃ t T T' k, F.tree t = some T ∧ Change t c T T' k ∧ (T.inorder ++ c.added).Nodup ∧
      (∀ n ∈ c.added, ¬Linked F.sequences n) ∧ Laid h t T := by
  obtain ⟨m, hm, htree⟩ := hg
  have hh : Holds m F fun _ => false := ⟨htree, nofun⟩
  obtain ⟨t, T, T', k, hT, hchange, hnd, hnew⟩ := hh.exists_change (hm.1 ▸ hc) hch
  exact ⟨t, T, T', k, hT, hchange, hnd, hnew, m, hm, htree t T hT⟩

theorem Grows.laid (hg : Grows h F) {t : Address w} {T : ColorTree (Address w)}
    (hT : F.tree t = some T) : Laid h t T := by
  obtain ⟨m, hm, htree⟩ := hg
  exact ⟨m, hm, htree t T hT⟩

/-- The nodes of other trees are not touched. -/
theorem Change.apart {t t' : Address w} {T T' U : ColorTree (Address w)} {k : ℕ}
    (hc : Change t c T T' k)
    (hT : F.tree t = some T) (hnew : ∀ n ∈ c.added, ¬Linked F.sequences n) (ht : t' ≠ t)
    (hU : F.tree t' = some U) {a : Address w} (ha : a ∈ U.inorder) : ¬Effect.Touched c T' a := by
  intro htouched
  rcases List.mem_append.mp (hc.touched (F.redBlack t T hT) (F.nodup t T hT) htouched)
    with haT | hadd
  · exact ht (F.eq_of_mem hU hT ha haT)
  · exact hnew a hadd (F.linked_iff.mpr ⟨t', U, hU, ha⟩)

theorem adds_within (hg : Grows h F) (hc : c.Legal F.sequences h.load) (hn : n ∈ c.added) :
    ∃ h' tr, run (machine packed) c.code h = .ok ((), h', tr) ∧ AddsWithin c.parent n h h' ∧
      ∀ g, Elsewhere n h g → ∃ tr', run (machine packed) c.code g = .ok ((), h', tr') := by
  have hch : c.Changes = true := by
    cases c with
    | add t p l n | link p l n | unlink n | unlinkStale n => rfl
    | treeInit t | nodeInit n | move dst src => cases hn
  obtain ⟨t, T, T', k, hT, hchange, hnd, hnew, hl⟩ := hg.exists_change hc hch
  have hrb := F.redBlack t T hT
  obtain ⟨h', tr, hrun, he⟩ := hchange.effect hrb hnd hl
  have hnT : n ∉ T.inorder := fun hmem => hnew n hn (F.linked_iff.mpr ⟨t, T, hT, hmem⟩)
  refine ⟨h', tr, hrun, ?_, fun g hg => ?_⟩
  · obtain ⟨ctx, rfl, rfl, hp, hs⟩ := hchange.insertion hn
    rw [hp]
    exact he.adds hs hl
      (List.nodup_append'.mpr ⟨F.nodup t _ hT, List.nodup_singleton n, by simpa using hnT⟩)
  · have hlg : Laid g t T := hl.congr (by simp [Memory.load, hg.1])
      fun a ha => hg.2 a (by rintro rfl; exact hnT ha)
    obtain ⟨g', tr', hrun', he'⟩ := hchange.effect hrb hnd hlg
    have hmem : n ∈ T'.inorder := hchange.added_mem hn
    have heq : g' = h' := he.eq he' (hchange.nodup hrb hnd)
      (fun a ha => hg.2 a (by rintro rfl; exact ha hmem)) hg.1
    exact ⟨tr', heq ▸ hrun'⟩

theorem removes_within (hg : Grows h F) (hn : Linked F.sequences n) :
    ∃ h' tr, run (machine packed) (rbnodeUnlinkStale (some n)) h = .ok ((), h', tr) ∧
      RemovesWithin n h h' := by
  obtain ⟨t, T, T', k, hT, hchange, hnd, -, hl⟩ := hg.exists_change (c := .unlinkStale n) hn rfl
  have hrb := F.redBlack t T hT
  obtain ⟨h', tr, hrun, he⟩ := hchange.effect hrb hnd hl
  refine ⟨h', tr, hrun, ?_⟩
  cases hchange with
  | unlinkStale ctx e l n r => exact he.removes hrb hl (F.nodup t _ hT)

theorem Spares.others {h' : Heap w} {l ts : List (Address w)} (hs : Spares (regionOf l ts) h h')
    (hts : ∀ t ∈ ts, c.About F.sequences t)
    (hl : ∀ t k, ¬c.About F.sequences t → F.sequences t = some k → l.Disjoint k) :
    SparesOthers F.sequences c h h' := by
  intro t ht
  refine ⟨hs.tree_eq fun hmem => ht (hts t hmem), fun k hk a ha => ?_⟩
  exact hs.node_eq (fun hmem => hl t k ht hk hmem ha) fun hmem => hl t k ht hk hmem ha

/-- No call reaches into trees that it is not about. -/
theorem spares_others (hg : Grows h F) (hc : c.Legal F.sequences h.load) :
    ∃ h' tr, run (machine packed) c.code h = .ok ((), h', tr) ∧
      SparesOthers F.sequences c h h' := by
  by_cases hch : c.Changes = true
  · obtain ⟨t, T, T', k, hT, hchange, hnd, hnew, hl⟩ := hg.exists_change hc hch
    obtain ⟨h', tr, hrun, he⟩ := hchange.effect (F.redBlack t T hT) hnd hl
    refine ⟨h', tr, hrun, fun t' ht' => ?_⟩
    have hne : t' ≠ t := by
      rintro rfl
      exact ht' (.inl (hchange.on_self hT))
    refine ⟨he.trees t' hne, fun l hS a ha => ?_⟩
    obtain ⟨U, hU, rfl⟩ := Option.map_eq_some_iff.mp hS
    exact he.untouched (hchange.apart hT hnew hne hU ha)
  · obtain ⟨m, hm, htree⟩ := hg
    cases c with
    | treeInit t =>
      have hexec : Exec (regionOf [] [t]) (rbtreeInit (some t)) (fun _ m' i =>
          m'.load (.root t) = none ∧ i = 0) m := exec_rbtreeInit (List.mem_singleton_self t)
      obtain ⟨⟨⟩, m', h', tr, i, hrun, -, -, hs⟩ := hexec.packed hm
      refine ⟨h', tr, hrun,
        hs.others (fun t' ht' => .inr (.inl (by rw [List.mem_singleton.mp ht']))) ?_⟩
      exact fun _ _ _ _ => List.disjoint_nil_left _
    | nodeInit n =>
      have hnode : ∀ a, a ≠ n → (((h.setLink n (n.word ||| 0#(w + 2))).store (.left n) none).store
          (.right n) none).node a = h.node a :=
            fun a ha => by simp [Memory.store, Memory.setLink, ha]
      refine ⟨((h.setLink n (n.word ||| 0#(w + 2))).store (.left n) none).store (.right n) none,
        [.write n (some n) 0#(w + 2), .store (.left n) none, .store (.right n) none], rfl,
        fun t ht => ?_⟩
      refine ⟨rfl, fun l hl a ha => hnode a ?_⟩
      rintro rfl
      exact hc ⟨t, l, hl, ha⟩
    | move dst src =>
      obtain ⟨-, hd, hsrc⟩ := hc
      obtain ⟨T, hT⟩ : ∃ T, F.tree src = some T := by
        simpa [Forest.sequences, ← Option.ne_none_iff_exists'] using hsrc
      have hexec := exec_rbtreeMove (M := regionOf T.inorder [dst, src]) (htree src T hT)
        (hm.1 ▸ hd)
        (F.nodup src T hT) (owns_regionOf (by simp)) (by simp [regionOf])
      obtain ⟨⟨⟩, m', h', tr, i, hrun, -, -, hs⟩ := hexec.packed hm
      refine ⟨h', tr, hrun, hs.others (fun t ht => .inr (.inr ?_)) fun t k ht hk => ?_⟩
      · rcases List.mem_pair.mp ht with rfl | rfl
        · exact ⟨src, .inl rfl⟩
        · exact ⟨dst, .inr rfl⟩
      obtain ⟨U, hU, rfl⟩ := Option.map_eq_some_iff.mp hk
      refine F.apart src t T U hT hU ?_
      rintro rfl
      exact ht (.inr (.inr ⟨dst, .inr rfl⟩))
    | add t p l n | link p l n | unlink n | unlinkStale n => exact absurd rfl hch

theorem Run.grows {h₀ h : Heap w} {cs : List (Call w)} {tr : List (Command w)} {S : Sequences w}
    (hr : Run packed h₀ cs tr h S) : ∃ F : Forest w, F.sequences = S ∧ Grows h F := by
  obtain ⟨m, F, -, hm, hseq, hh, -⟩ := hr.holds
  exact ⟨F, hseq, m, hm, hh.tree⟩

theorem Run.spares_others {h₀ h h' : Heap w} {cs : List (Call w)} {tr tr' : List (Command w)}
    {S : Sequences w} {c : Call w} (hr : Run packed h₀ cs tr h S) (hc : c.Legal S h.load)
    (hrun : run (machine packed) c.code h = .ok ((), h', tr')) : SparesOthers S c h h' := by
  obtain ⟨F, rfl, hg⟩ := hr.grows
  obtain ⟨h'', tr'', hrun', hs⟩ := CRbtree.spares_others hg hc
  rw [hrun] at hrun'
  cases hrun'
  exact hs

/-- Calls on different trees may change places. -/
theorem commute (hg : Grows h F) {t u : Address w} (hc : c.Legal F.sequences h.load)
    (hc' : c'.Legal F.sequences h.load) (hon : c.On F.sequences t) (hon' : c'.On F.sequences u)
    (hne : t ≠ u) (hs : c.subject ≠ c'.subject) : ∃ h₁ h₂ h' tr₁ tr₂ tr₁' tr₂',
      run (machine packed) c.code h = .ok ((), h₁, tr₁) ∧
      run (machine packed) c'.code h₁ = .ok ((), h', tr₂) ∧
      run (machine packed) c'.code h = .ok ((), h₂, tr₁') ∧
      run (machine packed) c.code h₂ = .ok ((), h', tr₂') := by
  obtain ⟨t', T, T', k, hT, hchange, hnd, hnew, hl⟩ := hg.exists_change hc hon.changes
  obtain ⟨u', U, U', k', hU, hchange', hnd', hnew', hl'⟩ := hg.exists_change hc' hon'.changes
  obtain rfl := hchange.on hT hon
  obtain rfl := hchange'.on hU hon'
  have hrb := F.redBlack t T hT
  have hrb' := F.redBlack u U hU
  obtain ⟨h₁, tr₁, hrun₁, he₁⟩ := hchange.effect hrb hnd hl
  obtain ⟨h₂, tr₂, hrun₂, he₂⟩ := hchange'.effect hrb' hnd' hl'
  obtain ⟨h₁₂, tr₁₂, hrun₁₂, he₁₂⟩ := hchange'.effect hrb' hnd'
    (he₁.keeps hne.symm hl' fun a ha => hchange.apart hT hnew hne.symm hU ha)
  obtain ⟨h₂₁, tr₂₁, hrun₂₁, he₂₁⟩ := hchange.effect hrb hnd
    (he₂.keeps hne hl fun a ha => hchange'.apart hU hnew' hne hT ha)
  have hdis : ∀ a, Effect.Touched c T' a → ¬Effect.Touched c' U' a := by
    intro a ha ha'
    rcases List.mem_append.mp (hchange.touched hrb (F.nodup t T hT) ha) with haT | hadd
    · exact hchange'.apart hU hnew' hne hT haT ha'
    · rcases List.mem_append.mp (hchange'.touched hrb' (F.nodup u U hU) ha') with haU | hadd'
      · exact hchange.apart hT hnew hne.symm hU haU ha
      · exact hs ((hchange.subject_of_added hadd).trans (hchange'.subject_of_added hadd').symm)
  have heq := he₁.comm he₁₂ he₂ he₂₁ (hchange.nodup hrb hnd) (hchange'.nodup hrb' hnd') hne hdis
  exact ⟨h₁, h₂, h₁₂, tr₁, tr₁₂, tr₂, tr₂₁, hrun₁, hrun₁₂, hrun₂, heq ▸ hrun₂₁⟩

/-- In a memory with any number of trees, adding and removing nodes stay near the path from
the node to its root, and leave all other trees alone. -/
theorem bounded_footprint (hg : Grows h F) :
    (∀ (c : Call w) (n : Address w), n ∈ c.added → c.Legal F.sequences h.load →
      ∃ h' tr, run (machine packed) c.code h = .ok ((), h', tr) ∧ AddsWithin c.parent n h h' ∧
        ∀ g, Elsewhere n h g → ∃ tr', run (machine packed) c.code g = .ok ((), h', tr')) ∧
    (∀ n, Linked F.sequences n →
      ∃ h' tr, run (machine packed) (rbnodeUnlinkStale (some n)) h = .ok ((), h', tr) ∧
        RemovesWithin n h h') ∧
    (∀ c : Call w, c.Legal F.sequences h.load →
      ∃ h' tr, run (machine packed) c.code h = .ok ((), h', tr) ∧ SparesOthers F.sequences c h h') ∧
    ∀ (c c' : Call w) (t u : Address w), c.Legal F.sequences h.load → c'.Legal F.sequences h.load →
      c.On F.sequences t → c'.On F.sequences u → t ≠ u → c.subject ≠ c'.subject →
      ∃ h₁ h₂ h' tr₁ tr₂ tr₁' tr₂',
        run (machine packed) c.code h = .ok ((), h₁, tr₁) ∧
        run (machine packed) c'.code h₁ = .ok ((), h', tr₂) ∧
        run (machine packed) c'.code h = .ok ((), h₂, tr₁') ∧
        run (machine packed) c.code h₂ = .ok ((), h', tr₂') :=
  ⟨fun _ _ hn hc => adds_within hg hc hn, fun _ => removes_within hg, fun _ => spares_others hg,
    fun _ _ _ _ => commute hg⟩

end Forests

section Sample

/-- An insertion that rotates, and removals of the root of the same tree and of the other one. -/
theorem bounded_footprint_sample :
    (∃ h' tr, run (machine packed) (Call.link (cell 8) (.right (cell 8)) (cell 2)).code sampleHeap =
        .ok ((), h', tr) ∧ AddsWithin (some (cell 8)) (cell 2) sampleHeap h' ∧
      ∀ g, Elsewhere (cell 2) sampleHeap g → ∃ tr',
        run (machine packed) (Call.link (cell 8) (.right (cell 8)) (cell 2)).code g =
          .ok ((), h', tr')) ∧
    (∃ h' tr, run (machine packed) (rbnodeUnlinkStale (some (cell 6))) sampleHeap =
        .ok ((), h', tr) ∧ RemovesWithin (cell 6) sampleHeap h') ∧
    (∃ h' tr, run (machine packed) (Call.unlink (cell 6)).code sampleHeap = .ok ((), h', tr) ∧
      h'.tree (cell 0) = sampleHeap.tree (cell 0) ∧
      ∀ a ∈ [cell 5, cell 12, cell 13], h'.node a = sampleHeap.node a) ∧
    ∃ h₁ h₂ h' tr₁ tr₂ tr₁' tr₂',
      run (machine packed) (Call.link (cell 8) (.right (cell 8)) (cell 2)).code sampleHeap =
        .ok ((), h₁, tr₁) ∧
      run (machine packed) (Call.unlink (cell 12)).code h₁ = .ok ((), h', tr₂) ∧
      run (machine packed) (Call.unlink (cell 12)).code sampleHeap = .ok ((), h₂, tr₁') ∧
      run (machine packed) (Call.link (cell 8) (.right (cell 8)) (cell 2)).code h₂ =
        .ok ((), h', tr₂') := by
  obtain ⟨F, hseq, hg⟩ := run_sample.grows
  obtain ⟨hadds, hremoves, hspares, hcomm⟩ := bounded_footprint hg
  rw [hseq] at hadds hremoves hspares hcomm
  have hlink : (Call.link (cell 8) (.right (cell 8)) (cell 2)).Legal sampleLists sampleHeap.load :=
    run_sample.legal (by decide +kernel)
  have hroot : (Call.unlink (cell 12)).Legal sampleLists sampleHeap.load :=
    run_sample.legal (by decide +kernel)
  refine ⟨hadds _ _ (List.mem_singleton_self _) hlink,
    hremoves _ ⟨_, _, sampleLists_second, by simp⟩, ?_, ?_⟩
  · obtain ⟨h', tr, hrun, hother⟩ := hspares (.unlink (cell 6))
      (run_sample.legal (by decide +kernel))
    obtain ⟨htree, hnodes⟩ := hother (cell 0) (by
      rintro (⟨l, hl, hn⟩ | hc | ⟨t', hc | hc⟩)
      · obtain rfl := Option.some.inj (sampleLists_first.symm.trans hl)
        exact absurd hn (by decide)
      all_goals cases hc)
    exact ⟨h', tr, hrun, htree, hnodes _ sampleLists_first⟩
  · exact hcomm _ _ (cell 1) (cell 0) hlink hroot ⟨_, sampleLists_second, by simp⟩
      ⟨_, sampleLists_first, by simp⟩ (by decide) (by decide)

end Sample

end CRbtree
