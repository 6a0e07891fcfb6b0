import CRbtree.Placement
import CRbtree.Soundness

set_option autoImplicit false

/-!
All that a change of a tree does to the memory: the new tree determines the fields of its
nodes, and nothing else changes but what is left of the node that is removed.
-/

namespace CRbtree
open RedBlack TaggedPointers PointerGraphs Programs

variable {w : ℕ}

theorem heap_ext {h h' : Heap w} (hnode : ∀ a, h.node a = h'.node a)
    (htree : ∀ t, h.tree t = h'.tree t) : h = h' := by
  obtain ⟨node, tree⟩ := h
  obtain rfl : node = h'.node := funext hnode
  obtain rfl : tree = h'.tree := funext htree
  rfl

/-- The two memories agree outside a region, word for word. -/
structure Spares (M : Region w) (h h' : Heap w) : Prop where
  edge : ∀ a, a ∉ M.edges → ∀ d, h'.load (.child d a) = h.load (.child d a)
  link : ∀ a, a ∉ M.links → h'.link a = h.link a
  root : ∀ t, t ∉ M.roots → h'.load (.root t) = h.load (.root t)

namespace Spares

variable {M : Region w} {m : FieldHeap w} {h h₀ h' : Heap w}

theorem refl (M : Region w) (h : Heap w) : Spares M h h :=
  ⟨fun _ _ _ => rfl, fun _ _ => rfl, fun _ _ => rfl⟩

theorem command {c : Command w} {r : Answer c} {g : PointerGraphs.Graph (Address w) (Address w)}
    (hs : Spares M h₀ h) (hg : M.Allows g c) (hm : machine packed c h = .ok (r, h')) :
    Spares M h₀ h' := by
  rcases machine_cases hm with ⟨s, v, rfl, rfl⟩ | ⟨n, p, x, l, rfl, -, rfl⟩ | ⟨-, rfl⟩
  · obtain ⟨⟨hedge, hroot⟩, -⟩ := hg
    refine ⟨fun a ha d => ?_, fun a ha => by rw [Memory.link_store, hs.link a ha], fun t ht => ?_⟩
    · rw [Memory.load_store_of_ne _ (by rintro rfl; exact ha (hedge a (by simp))), hs.edge a ha]
    · rw [Memory.load_store_of_ne _ (by rintro rfl; exact ht (hroot t rfl)), hs.root t ht]
  · refine ⟨fun a ha d => by rw [Memory.load_setLink, hs.edge a ha], fun a ha => ?_,
      fun t ht => by rw [Memory.load_setLink, hs.root t ht]⟩
    rw [Memory.link_setLink_of_ne _ (by rintro rfl; exact ha hg), hs.link a ha]
  · exact hs

theorem node_eq (hs : Spares M h h') {a : Address w} (he : a ∉ M.edges) (hl : a ∉ M.links) :
    h'.node a = h.node a := by
  have hleft := hs.edge a he .left
  have hright := hs.edge a he .right
  have hlink := hs.link a hl
  change CRBNode.mk (h'.link a) (h'.load (.left a)) (h'.load (.right a)) = _
  rw [hlink, show h'.load (.left a) = _ from hleft, show h'.load (.right a) = _ from hright]
  rfl

theorem tree_eq (hs : Spares M h h') {t : Address w} (ht : t ∉ M.roots) : h'.tree t = h.tree t :=
  congrArg CRBTree.mk (hs.root t ht)

end Spares

/-- On packed words. -/
theorem Exec.packed {α : Type} {M : Region w} {p : Prog w α} {Q : α → FieldHeap w → ℕ → Prop}
    {m : FieldHeap w} {h : Heap w} (hp : Exec M p Q m) (hm : Refines m h) :
    ∃ a m' h' tr i, run (machine packed) p h = .ok (a, h', tr) ∧ Refines m' h' ∧ Q a m' i ∧
      Spares M h h' := by
  suffices hall : ∀ h₁ m₁ (Q : α → FieldHeap w → ℕ → Prop), Exec M p Q m₁ →
      Refines m₁ h₁ → Spares M h h₁ →
      ∃ a m' h' tr i, run (machine CRbtree.packed) p h₁ = .ok (a, h', tr) ∧ Refines m' h' ∧
        Q a m' i ∧
        Spares M h h' from hall h m Q hp hm (.refl M h)
  clear hp hm m Q
  induction p with
  | done a => exact fun h₁ m₁ Q hp hm hs => ⟨a, m₁, h₁, [], 0, rfl, hm, hp, hs⟩
  | step c q ih =>
    rintro h₁ m₁ Q ⟨r, m₂, hc, hg, hq⟩ hm hs
    obtain ⟨h₂, hc', hm₂⟩ := refines_command c m₁ h₁ r m₂ hm hc
    obtain ⟨a, m', h', tr, i, hrun, hm', hQ, hs'⟩ := ih r h₂ m₂ _ hq hm₂ (hs.command hg hc')
    exact ⟨a, m', h', c :: tr, _, by rw [run_step hc', hrun]; rfl, hm', hQ, hs'⟩

/-- The word after c_rbnode_pop_root(). -/
def poppedWord (x : Word w) : Word w :=
  if isRootOf x then flagsOf x &&& ~~~rbnodeRoot else x

namespace Call

/-- The node that a call adds or removes. -/
def subject : Call w → Pointer w
  | add _ _ _ n | link _ _ n | unlink n | unlinkStale n => some n
  | treeInit _ | nodeInit _ | move _ _ => none

/-- What a removal leaves of its node. -/
def leaves : Call w → CRBNode (Word w) w → CRBNode (Word w) w
  | unlink n, _ => ⟨n.word, none, none⟩
  | unlinkStale _, x => ⟨poppedWord x.parentAndFlags, x.left, x.right⟩
  | treeInit _, x | nodeInit _, x | add _ _ _ _, x | link _ _ _, x | move _ _, x => x

end Call

/-- The second memory has the tree `T` at `t`, and is the first one elsewhere. -/
structure Effect (c : Call w) (t : Address w) (T : ColorTree (Address w))
    (h h' : Heap w) : Prop where
  laid : Laid h' t T
  subject : ∀ n, c.subject = some n → n ∉ T.inorder → h'.node n = c.leaves (h.node n)
  others : ∀ a, c.subject ≠ some a → a ∉ T.inorder → h'.node a = h.node a
  trees : ∀ t', t' ≠ t → h'.tree t' = h.tree t'

namespace Effect

variable {c c' : Call w} {t t' : Address w} {T T' : ColorTree (Address w)}
  {h h' g g' : Heap w} {a : Address w}

/-- The nodes that a call may change, when it leaves the tree `T`. -/
def Touched (c : Call w) (T : ColorTree (Address w)) (a : Address w) : Prop :=
  c.subject = some a ∨ a ∈ T.inorder

theorem untouched (he : Effect c t T h h') (ha : ¬Touched c T a) : h'.node a = h.node a :=
  he.others a (fun hs => ha (.inl hs)) fun hT => ha (.inr hT)

/-- Nothing else counts for the nodes it touches. -/
theorem touched (he : Effect c t T h h') (hg : Effect c t T g g') (hnd : T.inorder.Nodup)
    (ha : Touched c T a) (hsame : a ∉ T.inorder → g.node a = h.node a) : g'.node a = h'.node a := by
  by_cases hT : a ∈ T.inorder
  · exact hg.laid.node_eq he.laid hnd hT
  · have hs := ha.resolve_right hT
    rw [hg.subject a hs hT, he.subject a hs hT, hsame hT]

theorem root (he : Effect c t T h h') (hg : Effect c t T g g') : g'.tree t = h'.tree t :=
  congrArg CRBTree.mk (hg.laid.load.trans he.laid.load.symm)

/-- The tree, and the memory elsewhere, determine the result. -/
theorem eq (he : Effect c t T h h') (hg : Effect c t T g g') (hnd : T.inorder.Nodup)
    (hnode : ∀ a, a ∉ T.inorder → g.node a = h.node a) (htree : g.tree = h.tree) : g' = h' := by
  refine heap_ext (fun a => ?_) fun t' => ?_
  · by_cases ha : Touched c T a
    · exact touched he hg hnd ha (hnode a)
    · rw [he.untouched ha, hg.untouched ha, hnode a fun hT => ha (.inr hT)]
  · by_cases ht : t' = t
    · subst ht
      exact root he hg
    · rw [he.trees t' ht, hg.trees t' ht, htree]

/-- Calls on different trees may change places. -/
theorem comm {h₁ h₂ h₁₂ h₂₁ : Heap w} (h1 : Effect c t T h h₁) (h12 : Effect c' t' T' h₁ h₁₂)
    (h2 : Effect c' t' T' h h₂) (h21 : Effect c t T h₂ h₂₁) (hnd : T.inorder.Nodup)
    (hnd' : T'.inorder.Nodup) (ht : t ≠ t')
    (hdis : ∀ a, Touched c T a → ¬Touched c' T' a) : h₁₂ = h₂₁ := by
  refine heap_ext (fun a => ?_) fun u => ?_
  · by_cases ha : Touched c T a
    · rw [h12.untouched (hdis a ha), touched h21 h1 hnd ha fun _ => (h2.untouched (hdis a ha)).symm]
    · rw [h21.untouched ha]
      by_cases ha' : Touched c' T' a
      · exact touched h2 h12 hnd' ha' fun _ => h1.untouched ha
      · rw [h12.untouched ha', h1.untouched ha, h2.untouched ha']
  · by_cases hu : u = t
    · subst hu
      rw [h12.trees u ht, root h21 h1]
    · rw [h21.trees u hu]
      by_cases hu' : u = t'
      · subst hu'
        exact root h2 h12
      · rw [h12.trees u hu', h1.trees u hu, h2.trees u hu']

end Effect

theorem poppedWord_wordAt (s : Slot w) (c : Color) :
    poppedWord (wordAt s c) = Pointer.word s.holder ||| flagWord c false := by
  unfold poppedWord wordAt isRootOf
  rw [flagsOf_or, flagWord_and_root_bne, flagWord_clear_root]
  cases s <;> simp [treeOf, rawAt, Slot.holder, Pointer.word]

section Changes

variable {h h' : Heap w} {t : Address w} {T T' : ColorTree (Address w)} {k : ℕ}

/-- c_rbnode_unlink_stale() leaves the children of its node alone. -/
theorem effect_unlinkStale {ctx : Context (Address w)} {e : Color} {l r : ColorTree (Address w)}
    {n : Address w} (hT : (fill ctx (.node e l n r)).IsRedBlack)
    (hnd : (fill ctx (.node e l n r)).inorder.Nodup) (hl : Laid h t (fill ctx (.node e l n r))) :
    ∃ h' tr, run (machine packed) (rbnodeUnlinkStale (some n)) h = .ok ((), h', tr) ∧
      Effect (.unlinkStale n) t (unlinkAt ctx (.node e l n r)) h h' := by
  obtain ⟨m, hm, htree⟩ := hl
  let M : Region w := { regionOf ((fill ctx (.node e l n r)).inorder.erase n) [t] with
    links := {a | a ∈ (fill ctx (.node e l n r)).inorder} }
  have hmem : n ∈ (fill ctx (.node e l n r)).inorder := by simp [mem_fill, ColorTree.inorder]
  have hM : M.Owns t ((fill ctx (.node e l n r)).inorder.erase n) :=
    ⟨fun a => id, fun a => id, fun a ha => List.mem_of_mem_erase ha, List.mem_singleton_self t⟩
  obtain ⟨⟨⟩, m', h', tr, -, hrun, hm', ⟨⟨hT', hlink⟩, -⟩, hs⟩ :=
    (exec_rbnodeUnlinkStale htree hT hnd hM hmem).packed hm
  have hin := inorder_unlinkAt_erase hT hnd
  refine ⟨h', tr, hrun, ⟨⟨m', hm', hT'⟩, ?_, fun a ha hna => ?_, fun t' ht => ?_⟩⟩
  · rintro _ ⟨⟩ -
    have hedge : n ∉ M.edges := hnd.not_mem_erase
    have hk := hm.2 n
    have hk' := hm'.2 n
    rw [(treeAt_fill.mp htree).1.2.1] at hk
    rw [hlink] at hk'
    have hword : h'.link n = poppedWord (h.link n) := by
      rw [(packs_linkAt_iff.mp hk).2, poppedWord_wordAt, hk'.2]
    have hleft := hs.edge n hedge .left
    have hright := hs.edge n hedge .right
    change CRBNode.mk (h'.link n) (h'.load (.child .left n)) (h'.load (.child .right n)) = _
    rw [hword, hleft, hright]
    rfl
  · have hna' : a ∉ (fill ctx (.node e l n r)).inorder := by
      rw [hin] at hna
      exact fun h => hna ((List.mem_erase_of_ne (by rintro rfl; exact ha rfl)).mpr h)
    exact hs.node_eq (fun h => hna' (List.mem_of_mem_erase h)) hna'
  · exact hs.tree_eq (by simpa [M, regionOf] using ht)

/-- c_rbnode_unlink() initialises its node afterwards. -/
theorem effect_unlink {ctx : Context (Address w)} {e : Color} {l r : ColorTree (Address w)}
    {n : Address w} (hT : (fill ctx (.node e l n r)).IsRedBlack)
    (hnd : (fill ctx (.node e l n r)).inorder.Nodup) (hl : Laid h t (fill ctx (.node e l n r))) :
    ∃ h' tr, run (machine packed) (rbnodeUnlink (some n)) h = .ok ((), h', tr) ∧
      Effect (.unlink n) t (unlinkAt ctx (.node e l n r)) h h' := by
  obtain ⟨h₁, tr, hstale, he⟩ := effect_unlinkStale hT hnd hl
  have hgone : n ∉ (unlinkAt ctx (.node e l n r)).inorder := by
    rw [inorder_unlinkAt_erase hT hnd]
    exact hnd.not_mem_erase
  have hlinked : run (machine packed) (rbnodeIsLinked (some n)) h = .ok (true, h, [.parent n]) := by
    obtain ⟨m, hm, htree⟩ := hl
    have hn : n ∉ elems ctx :=
      (List.nodup_append'.mp (nodup_fill.mp hnd)).2.2 (by simp [ColorTree.inorder])
    have hk := hm.2 n
    rw [(treeAt_fill.mp htree).1.2.1] at hk
    have hne : (parentOf (h.link n) != some n) = true := by
      rw [(packs_linkAt hk).1]
      exact bne_iff_ne.mpr (holder_hole_ne hn)
    exact hne ▸ rfl
  let h' : Heap w :=
    ((h₁.setLink n (n.word ||| 0#(w + 2))).store (.left n) none).store (.right n) none
  have hinit : run (machine packed) (rbnodeInit (some n)) h₁ =
      .ok ((), h',
        [.write n (some n) 0#(w + 2), .store (.left n) none, .store (.right n) none]) := rfl
  have hother : ∀ a, a ≠ n → h'.node a = h₁.node a := fun a ha => by
    simp [h', Memory.store, Memory.setLink, ha]
  refine ⟨h', _, run_bind hlinked (run_bind hstale hinit), ⟨?_, ?_, ?_, ?_⟩⟩
  · exact he.laid.congr rfl fun a ha => hother a (by rintro rfl; exact hgone ha)
  · rintro _ ⟨⟩ -
    simp [h', Memory.store, Memory.setLink, Call.leaves]
  · intro a ha hna
    rw [hother a (by rintro rfl; exact ha rfl)]
    exact he.others a ha hna
  · exact he.trees

/-- The effect of a call that changes a tree. -/
theorem Change.effect {c : Call w} (hc : Change t c T T' k) (hT : T.IsRedBlack)
    (hnd : (T.inorder ++ c.added).Nodup) (hl : Laid h t T) :
    ∃ h' tr, run (machine packed) c.code h = .ok ((), h', tr) ∧ Effect c t T' h h' := by
  by_cases hrem : ∃ n, c = .unlink n ∨ c = .unlinkStale n
  · obtain ⟨n, rfl | rfl⟩ := hrem
    · cases hc with
      | unlink ctx e l n r => exact effect_unlink hT (List.nodup_append.mp hnd).1 hl
    · cases hc with
      | unlinkStale ctx e l n r => exact effect_unlinkStale hT (List.nodup_append.mp hnd).1 hl
  · have hstay : ∀ a, a ∉ T'.inorder → a ∉ T.inorder ++ c.added := fun a hna ha =>
      hrem ⟨a, hc.removed hT (List.nodup_append.mp hnd).1 ha hna⟩
    obtain ⟨m, hm, htree⟩ := hl
    obtain ⟨⟨⟩, m', h', tr, -, hrun, hm', ⟨⟨hT', -⟩, -⟩, hs⟩ :=
      (exec_change hc htree hT hnd (owns_regionOf (List.mem_singleton_self t))).packed hm
    refine ⟨h', tr, hrun, ⟨⟨m', hm', hT'⟩, fun n hn hna => ?_, fun a _ hna => ?_, fun t' ht => ?_⟩⟩
    · have hleaves : c.leaves (h.node n) = h.node n := by
        cases c with
        | unlink a | unlinkStale a => exact absurd ⟨a, by simp⟩ hrem
        | treeInit t | nodeInit a | add t p s a | link p s a | move d s => rfl
      rw [hleaves]
      exact hs.node_eq (hstay n hna) (hstay n hna)
    · exact hs.node_eq (hstay a hna) (hstay a hna)
    · exact hs.tree_eq (by simpa [regionOf] using ht)

end Changes

end CRbtree
