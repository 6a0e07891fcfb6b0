import CRbtree.Changes
import Mathlib.Algebra.BigOperators.Group.Finset.Basic
import Mathlib.Algebra.BigOperators.Pi

set_option autoImplicit false

/-!
Any number of trees in one memory, and what each legal call does to them.
-/

namespace CRbtree
open RedBlack TaggedPointers PointerGraphs Programs

variable {w : ℕ}

/-- Red-black trees at the addresses of the initialised `CRBTree`s. No node is met twice. -/
structure Forest (w : ℕ) where
  tree : Address w → Option (ColorTree (Address w))
  redBlack : ∀ t T, tree t = some T → T.IsRedBlack
  nodup : ∀ t T, tree t = some T → T.inorder.Nodup
  apart : ∀ t t' T T', tree t = some T → tree t' = some T' → t ≠ t' → T.inorder.Disjoint T'.inorder

namespace Forest

def empty : Forest w where
  tree _ := none
  redBlack := nofun
  nodup := nofun
  apart := nofun

/-- Puts a tree in place of the one at `t`. Its nodes must be in no other tree. -/
def plant (F : Forest w) (t : Address w) (T : ColorTree (Address w)) (hT : T.IsRedBlack)
    (hnd : T.inorder.Nodup)
    (hap : ∀ t' T', F.tree t' = some T' → t' ≠ t → T.inorder.Disjoint T'.inorder) : Forest w where
  tree := Function.update F.tree t (some T)
  redBlack t' T' h := by
    by_cases ht : t' = t
    · subst ht
      rw [Function.update_self, Option.some.injEq] at h
      exact h ▸ hT
    · rw [Function.update_of_ne ht] at h
      exact F.redBlack t' T' h
  nodup t' T' h := by
    by_cases ht : t' = t
    · subst ht
      rw [Function.update_self, Option.some.injEq] at h
      exact h ▸ hnd
    · rw [Function.update_of_ne ht] at h
      exact F.nodup t' T' h
  apart t₁ t₂ T₁ T₂ h₁ h₂ hne := by
    by_cases ht₁ : t₁ = t
    · subst ht₁
      rw [Function.update_self, Option.some.injEq] at h₁
      rw [Function.update_of_ne hne.symm] at h₂
      exact h₁ ▸ hap t₂ T₂ h₂ hne.symm
    · rw [Function.update_of_ne ht₁] at h₁
      by_cases ht₂ : t₂ = t
      · subst ht₂
        rw [Function.update_self, Option.some.injEq] at h₂
        exact (h₂ ▸ hap t₁ T₁ h₁ hne).symm
      · rw [Function.update_of_ne ht₂] at h₂
        exact F.apart t₁ t₂ T₁ T₂ h₁ h₂ hne

def sequences (F : Forest w) : Sequences w := fun t => (F.tree t).map ColorTree.inorder

/-- The address of the tree that holds a node is determined by the node. -/
theorem eq_of_mem (F : Forest w) {t t' : Address w} {T T' : ColorTree (Address w)} {a : Address w}
    (h : F.tree t = some T) (h' : F.tree t' = some T') (ha : a ∈ T.inorder) (ha' : a ∈ T'.inorder) :
    t = t' :=
  by_contra fun hne => F.apart t t' T T' h h' hne ha ha'

theorem linked_iff (F : Forest w) {n : Address w} :
    Linked F.sequences n ↔ ∃ t T, F.tree t = some T ∧ n ∈ T.inorder := by
  simp [Linked, sequences, Option.map_eq_some_iff]

variable {F : Forest w} {t : Address w} {T : ColorTree (Address w)} {hT : T.IsRedBlack}
  {hnd : T.inorder.Nodup}
  {hap : ∀ t' T', F.tree t' = some T' → t' ≠ t → T.inorder.Disjoint T'.inorder}

@[simp] theorem tree_plant_self : (F.plant t T hT hnd hap).tree t = some T :=
  Function.update_self _ _ _

@[simp] theorem tree_plant_of_ne {t' : Address w} (ht : t' ≠ t) :
    (F.plant t T hT hnd hap).tree t' = F.tree t' :=
  Function.update_of_ne ht _ _

theorem sequences_plant :
    (F.plant t T hT hnd hap).sequences = Function.update F.sequences t (some T.inorder) := by
  funext t'
  by_cases ht : t' = t
  · subst ht
    simp [sequences]
  · simp [sequences, ht]

end Forest

noncomputable instance : Fintype (Address w) := Fintype.ofInjective _ Address.index_injective

/-- The potential of a tree, if there is one. -/
def potential? : Option (ColorTree (Address w)) → ℕ
  | none => 0
  | some T => potential T

/-- The potential of all trees together. -/
noncomputable def Forest.potential (F : Forest w) : ℕ := ∑ t, potential? (F.tree t)

theorem sum_update (g : Address w → Option (ColorTree (Address w))) (t : Address w)
    (v : Option (ColorTree (Address w))) :
    ∑ t', potential? (Function.update g t v t') + potential? (g t) =
      ∑ t', potential? (g t') + potential? v := by
  have h₁ := Finset.add_sum_erase Finset.univ (fun t' => potential? (Function.update g t v t'))
    (Finset.mem_univ t)
  have h₂ := Finset.add_sum_erase Finset.univ (fun t' => potential? (g t')) (Finset.mem_univ t)
  have h₃ : ∑ t' ∈ Finset.univ.erase t, potential? (Function.update g t v t') =
      ∑ t' ∈ Finset.univ.erase t, potential? (g t') :=
    Finset.sum_congr rfl fun t' ht' => by
      rw [Function.update_of_ne (Finset.ne_of_mem_erase ht')]
  simp only [Function.update_self] at h₁
  omega

theorem Forest.potential_plant (F : Forest w) (t : Address w) {T : ColorTree (Address w)}
    (hT : T.IsRedBlack) (hnd : T.inorder.Nodup)
    (hap : ∀ t' T', F.tree t' = some T' → t' ≠ t → T.inorder.Disjoint T'.inorder) :
    (F.plant t T hT hnd hap).potential + potential? (F.tree t) =
      F.potential + CRbtree.potential T :=
  sum_update F.tree t (some T)

theorem isRedBlack_nil : (ColorTree.nil : ColorTree (Address w)).IsRedBlack :=
  ⟨rfl, trivial, trivial⟩

/-- An empty tree at `t`. -/
def Forest.clear (F : Forest w) (t : Address w) : Forest w :=
  F.plant t .nil isRedBlack_nil (by simp [ColorTree.inorder]) (by simp [ColorTree.inorder])

section Clear

variable {F : Forest w} {t : Address w}

@[simp] theorem Forest.tree_clear_self : (F.clear t).tree t = some .nil := Forest.tree_plant_self

@[simp] theorem Forest.tree_clear_of_ne {t' : Address w} (ht : t' ≠ t) :
    (F.clear t).tree t' = F.tree t' :=
  Forest.tree_plant_of_ne ht

theorem Forest.sequences_clear :
    (F.clear t).sequences = Function.update F.sequences t (some []) :=
  Forest.sequences_plant

theorem Forest.potential_clear : (F.clear t).potential + potential? (F.tree t) = F.potential :=
  F.potential_plant t _ _ _

end Clear

/-- The region of a call on the trees `ts` that may meet the nodes `l`. -/
def regionOf (l ts : List (Address w)) : Region w where
  members := {a | a ∈ l}
  edges := {a | a ∈ l}
  links := {a | a ∈ l}
  roots := {t | t ∈ ts}

theorem owns_regionOf {l ts : List (Address w)} {t : Address w} (ht : t ∈ ts) :
    (regionOf l ts).Owns t l :=
  ⟨fun _ => id, fun _ => id, fun _ => id, ht⟩

/-- The two memories agree outside a region. -/
structure Outside (M : Region w) (m m' : FieldHeap w) : Prop where
  load : ∀ s, ¬M.Covers s → m'.load s = m.load s
  link : ∀ a, a ∉ M.links → m'.link a = m.link a

section Outside

variable {M : Region w} {m₀ m m' : FieldHeap w}

theorem Outside.command {c : Command w} {r : Answer c} (h : Outside M m₀ m)
    (hg : M.Allows m.load c) (hm : machine separate c m = .ok (r, m')) : Outside M m₀ m' := by
  rcases machine_cases hm with ⟨s, v, rfl, rfl⟩ | ⟨n, p, x, l, rfl, -, rfl⟩ | ⟨-, rfl⟩
  · refine ⟨fun s' hs' => ?_, fun a ha => by rw [Memory.link_store, h.link a ha]⟩
    rw [Memory.load_store_of_ne _ (by rintro rfl; exact hs' hg.1), h.load s' hs']
  · refine ⟨fun s' hs' => by rw [Memory.load_setLink, h.load s' hs'], fun a ha => ?_⟩
    rw [Memory.link_setLink_of_ne _ (by rintro rfl; exact ha hg), h.link a ha]
  · exact h

theorem exec_outside {α : Type} {p : Prog w α} {Q : α → FieldHeap w → ℕ → Prop}
    (h : Exec M p Q m) : Exec M p (fun a m' i => Q a m' i ∧ Outside M m m') m :=
  wp_invariant (fun _ _ _ _ hI hg hm => hI.command hg hm) h ⟨fun _ _ => rfl, fun _ _ => rfl⟩

/-- A tree of other nodes stays where it is. -/
theorem Outside.treeAt {l ts : List (Address w)} {t : Address w} {T : ColorTree (Address w)}
    (h : Outside (regionOf l ts) m m') (ht : t ∉ ts) (hT : T.inorder.Disjoint l) :
    TreeAt m' (.root t) T ↔ TreeAt m (.root t) T := by
  have hchild : ∀ d, ∀ a ∈ T.inorder, m'.load (.child d a) = m.load (.child d a) :=
    fun d a ha => h.load _ fun hc => hT ha (covers_child.mp hc)
  refine treeAt_congr (h.load _ fun hc => ht (hc.2 t rfl)) fun a ha => ?_
  exact ⟨hchild .left a ha, hchild .right a ha, h.link a (hT ha)⟩

end Outside

/-- Whether it is certain that the word of `n`, when `n` is in no tree, says so. -/
def Call.settles (n : Address w) : Call w → Bool → Bool
  | nodeInit a, b | unlink a, b => a = n || b
  | unlinkStale a, b => a ≠ n && b
  | treeInit _, b | add _ _ _ _, b | link _ _ _, b | move _ _, b => b

/-- The memory holds the trees of the forest. The nodes of `K` are marked as unlinked
unless they are in one. -/
structure Holds (m : FieldHeap w) (F : Forest w) (K : Address w → Bool) : Prop where
  tree : ∀ t T, F.tree t = some T → TreeAt m (.root t) T
  marked : ∀ n, K n = true → ¬Linked F.sequences n → m.link n = .unlinked

namespace Holds

variable {m m' : FieldHeap w} {F : Forest w} {K : Address w → Bool} {t : Address w}
  {T : ColorTree (Address w)}

/-- An empty slot of a member of a tree is a hole of that tree. -/
theorem exists_slot (h : Holds m F K) {p : Address w} {l : Slot w} (hp : Linked F.sequences p)
    (hl : l = .left p ∨ l = .right p) (hm : m.load l = none) :
    ∃ t f ctx, F.tree t = some (fill (f :: ctx) .nil) ∧ p = f.label ∧
      l = .child f.side f.label := by
  obtain ⟨t, T, hT, hpT⟩ := F.linked_iff.mp hp
  obtain ⟨d, rfl⟩ : ∃ d, l = .child d p := by
    rcases hl with rfl | rfl
    · exact ⟨.left, rfl⟩
    · exact ⟨.right, rfl⟩
  obtain ⟨f, ctx, rfl, rfl, rfl⟩ := (h.tree t T hT).exists_slot d hpT hm
  exact ⟨t, f, ctx, hT, rfl, rfl⟩

theorem nodup_append (F : Forest w) (hT : F.tree t = some T) {n : Address w}
    (hn : ¬Linked F.sequences n) : (T.inorder ++ [n]).Nodup := by
  refine List.nodup_append'.mpr ⟨F.nodup t T hT, List.nodup_singleton n, ?_⟩
  rw [List.disjoint_singleton]
  exact fun hmem => hn (F.linked_iff.mpr ⟨t, T, hT, hmem⟩)

/-- A legal call that adds or removes a node changes one tree. -/
theorem exists_change (h : Holds m F K) {c : Call w} (hc : c.Legal F.sequences m.load)
    (hch : c.Changes = true) : ∃ t T T' k, F.tree t = some T ∧ Change t c T T' k ∧
      (T.inorder ++ c.added).Nodup ∧ ∀ n ∈ c.added, ¬Linked F.sequences n := by
  cases c with
  | treeInit t | nodeInit n | move dst src => cases hch
  | add t p l n =>
    cases p with
    | none =>
      obtain ⟨ht, rfl, hl, hn⟩ := hc
      obtain ⟨T, hT⟩ : ∃ T, F.tree t = some T := by
        simpa [Forest.sequences, ← Option.ne_none_iff_exists'] using ht
      obtain rfl : T = .nil := by
        rw [← ColorTree.root?_eq_none, ← (h.tree t T hT).load, hl]
      exact ⟨t, .nil, _, _, hT, .plant n, nodup_append F hT hn, by simpa [Call.added] using hn⟩
    | some p =>
      obtain ⟨hp, hl, hm, hn⟩ := hc
      obtain ⟨t', f, ctx, hT, rfl, rfl⟩ := h.exists_slot hp hl hm
      exact ⟨t', _, _, _, hT, .add t f ctx n, nodup_append F hT hn, by simpa [Call.added] using hn⟩
  | link p l n =>
    obtain ⟨hp, hl, hm, hn⟩ := hc
    obtain ⟨t', f, ctx, hT, rfl, rfl⟩ := h.exists_slot hp hl hm
    exact ⟨t', _, _, _, hT, .link f ctx n, nodup_append F hT hn, by simpa [Call.added] using hn⟩
  | unlink n =>
    obtain ⟨t, T, hT, hn⟩ := F.linked_iff.mp hc
    obtain ⟨ctx, c, l, r, rfl⟩ := exists_fill_of_mem hn
    exact ⟨t, _, _, _, hT, .unlink ctx c l n r, by simpa [Call.added] using F.nodup t _ hT,
      by simp [Call.added]⟩
  | unlinkStale n =>
    obtain ⟨t, T, hT, hn⟩ := F.linked_iff.mp hc
    obtain ⟨ctx, c, l, r, rfl⟩ := exists_fill_of_mem hn
    exact ⟨t, _, _, _, hT, .unlinkStale ctx c l n r, by simpa [Call.added] using F.nodup t _ hT,
      by simp [Call.added]⟩

end Holds

section Change

variable {F : Forest w} {c : Call w} {t : Address w} {T T' : ColorTree (Address w)} {k : ℕ}

/-- The lists after a call that changes the tree at `t`. -/
theorem Change.after (h : Change t c T T' k) (hT : F.tree t = some T) :
    c.after F.sequences = Function.update F.sequences t (some T'.inorder) := by
  have hin := h.inorder (F.redBlack t T hT) (F.nodup t T hT)
  have hseq : F.sequences t = some T.inorder := by simp [Forest.sequences, hT]
  have hother : ∀ t' l a, t' ≠ t → a ∈ T.inorder → F.sequences t' = some l → a ∉ l := by
    intro t' l a ht ha hl hal
    obtain ⟨T₁, hT₁, rfl⟩ : ∃ T₁, F.tree t' = some T₁ ∧ T₁.inorder = l := by
      simpa [Forest.sequences] using hl
    exact ht (F.eq_of_mem hT₁ hT hal ha)
  have hmap : ∀ (a : Address w) (u : List (Address w) → List (Address w)), a ∈ T.inorder →
      (∀ l, a ∉ l → u l = l) → u T.inorder = T'.inorder →
      (fun t' => (F.sequences t').map u) = Function.update F.sequences t (some T'.inorder) := by
    intro a u ha hu hu'
    funext t'
    by_cases ht : t' = t
    · subst ht
      rw [Function.update_self, hseq, Option.map_some, hu']
    · rw [Function.update_of_ne ht]
      cases hl : F.sequences t' with
      | none => rfl
      | some l => rw [Option.map_some, hu l (hother t' l a ht ha hl)]
  cases h with
  | plant n => simp [Call.after, hin, Call.onList]
  | add t' f ctx n =>
    exact hmap f.label _ (by simp [mem_fill, elems])
      (fun l hl => insertBeside_of_not_mem hl) hin.symm
  | link f ctx n =>
    exact hmap f.label _ (by simp [mem_fill, elems])
      (fun l hl => insertBeside_of_not_mem hl) hin.symm
  | unlink ctx c l n r =>
    exact hmap n _ (by simp [mem_fill, ColorTree.inorder])
      (fun l hl => List.erase_of_not_mem hl) hin.symm
  | unlinkStale ctx c l n r =>
    exact hmap n _ (by simp [mem_fill, ColorTree.inorder])
      (fun l hl => List.erase_of_not_mem hl) hin.symm

/-- Only the node that the call names leaves the tree. -/
theorem Change.removed (h : Change t c T T' k) (hT : T.IsRedBlack) (hnd : T.inorder.Nodup)
    {n : Address w} (hn : n ∈ T.inorder ++ c.added) (hn' : n ∉ T'.inorder) :
    c = .unlink n ∨ c = .unlinkStale n := by
  have herase : ∀ ctx a, T'.inorder = (fill ctx T).inorder.erase a → n ∈ (fill ctx T).inorder →
      a = n := by
    intro ctx a he hmem
    rw [he] at hn'
    by_contra hne
    exact hn' ((List.mem_erase_of_ne (Ne.symm hne)).mpr hmem)
  cases h with
  | plant a =>
    rw [inorder_insertAt] at hn'
    simp [ColorTree.inorder, Call.added, before, RedBlack.after] at hn hn'
    exact absurd hn hn'
  | add t' f ctx a | link f ctx a =>
    rw [inorder_insertAt] at hn'
    simp only [inorder_fill, Call.added, ColorTree.inorder, List.mem_append,
      List.mem_cons] at hn hn'
    tauto
  | unlink ctx c l a r =>
    rw [Call.added, List.append_nil] at hn
    exact .inl (congrArg _ (herase [] a (inorder_unlinkAt_erase hT hnd) hn))
  | unlinkStale ctx c l a r =>
    rw [Call.added, List.append_nil] at hn
    exact .inr (congrArg _ (herase [] a (inorder_unlinkAt_erase hT hnd) hn))

theorem Change.settled (h : Change t c T T' k) {n : Address w} (hn : n ∉ T.inorder) {b : Bool}
    (hs : c.settles n b = true) : b = true := by
  have hne : ∀ ctx c l r, T = fill ctx (.node c l n r) → False := by
    rintro ctx c l r rfl
    exact hn (by simp [mem_fill, ColorTree.inorder])
  cases h with
  | plant a | add t' f ctx a | link f ctx a => exact hs
  | unlink ctx c l a r =>
    simp only [Call.settles, Bool.or_eq_true, decide_eq_true_eq] at hs
    rcases hs with rfl | hs
    · exact (hne ctx c l r rfl).elim
    · exact hs
  | unlinkStale ctx c l a r =>
    simp only [Call.settles, Bool.and_eq_true] at hs
    exact hs.2

end Change

/-- A call that adds or removes a node, on the tree it changes. -/
theorem Holds.exec_change {m : FieldHeap w} {F : Forest w} {K : Address w → Bool} {c : Call w}
    {t : Address w} {T T' : ColorTree (Address w)} {k : ℕ} (h : Holds m F K)
    (hT : F.tree t = some T) (hc : Change t c T T' k) (hnd : (T.inorder ++ c.added).Nodup)
    (hnew : ∀ n ∈ c.added, ¬Linked F.sequences n) :
    ∃ F' : Forest w, F'.tree = Function.update F.tree t (some T') ∧
      F'.sequences = c.after F.sequences ∧ F'.potential + potential T = F.potential + potential T' ∧
      Exec (regionOf (T.inorder ++ c.added) [t]) c.code
        (fun _ m' i => Holds m' F' (fun n => c.settles n (K n)) ∧ i = k) m := by
  have hrb := F.redBlack t T hT
  have hndT := F.nodup t T hT
  have hap : ∀ t' U, F.tree t' = some U → t' ≠ t → (T.inorder ++ c.added).Disjoint U.inorder := by
    intro t' U hU ht
    rw [List.disjoint_append_left]
    refine ⟨F.apart t t' T U hT hU (Ne.symm ht), fun n hn hnU => ?_⟩
    exact hnew n hn (F.linked_iff.mpr ⟨t', U, hU, hnU⟩)
  have hap' : ∀ t' U, F.tree t' = some U → t' ≠ t → T'.inorder.Disjoint U.inorder :=
    fun t' U hU ht a ha => hap t' U hU ht (hc.mem_inorder hrb hndT ha)
  refine ⟨F.plant t T' (hc.redBlack hrb) (hc.nodup hrb hnd) hap', rfl, ?_, ?_, ?_⟩
  · rw [Forest.sequences_plant, hc.after hT]
  · have hpot := F.potential_plant t (hc.redBlack hrb) (hc.nodup hrb hnd) hap'
    rwa [hT] at hpot
  · refine exec_mono ?_ (exec_outside (CRbtree.exec_change hc (h.tree t T hT) hrb hnd
      (owns_regionOf (List.mem_singleton_self t))))
    rintro _ m' i ⟨⟨⟨hT', hmark⟩, rfl⟩, hout⟩
    refine ⟨⟨fun t' U hU => ?_, fun n hn hnl => ?_⟩, rfl⟩
    · by_cases ht : t' = t
      · subst ht
        rw [Forest.tree_plant_self, Option.some.injEq] at hU
        exact hU ▸ hT'
      · rw [Forest.tree_plant_of_ne ht] at hU
        exact (hout.treeAt (by simpa using ht) (hap t' U hU ht).symm).mpr (h.tree t' U hU)
    · rw [Forest.sequences_plant] at hnl
      have hnT' : n ∉ T'.inorder := fun hmem => hnl ⟨t, _, Function.update_self _ _ _, hmem⟩
      by_cases hmem : n ∈ T.inorder ++ c.added
      · rcases hc.removed hrb hndT hmem hnT' with rfl | rfl
        · exact hmark n rfl
        · simp [Call.settles] at hn
      · have hnT : n ∉ T.inorder := fun hn' => hmem (List.mem_append_left _ hn')
        rw [hout.link n hmem]
        refine h.marked n (hc.settled hnT hn) fun ⟨t', l, hl, hnl'⟩ => ?_
        have ht : t' ≠ t := by
          rintro rfl
          obtain ⟨U, hU, rfl⟩ : ∃ U, F.tree t' = some U ∧ U.inorder = l := by
            simpa [Forest.sequences] using hl
          rw [hT] at hU
          cases hU
          exact hnT hnl'
        exact hnl ⟨t', l, by rw [Function.update_of_ne ht, hl], hnl'⟩

/-- A move plants the source's tree at the empty destination. -/
theorem Forest.exists_move {F : Forest w} {dst src : Address w} {T : ColorTree (Address w)}
    (hd : F.tree dst = some .nil) (hs : F.tree src = some T) :
    ∃ F' : Forest w, F'.sequences = (Call.move dst src).after F.sequences ∧
      F'.potential = F.potential ∧ F'.tree dst = some T ∧
      (src ≠ dst → F'.tree src = some .nil) ∧
      ∀ t, t ≠ dst → t ≠ src → F'.tree t = F.tree t := by
  have hsame : dst = src → T = .nil := by
    rintro rfl
    rw [hd] at hs
    exact (Option.some.inj hs).symm
  have hap : ∀ t' T', (F.clear src).tree t' = some T' → t' ≠ dst →
      T.inorder.Disjoint T'.inorder := by
    intro t' T' hT' ht
    by_cases hts : t' = src
    · subst hts
      rw [Forest.tree_clear_self, Option.some.injEq] at hT'
      simp [← hT', ColorTree.inorder]
    · rw [Forest.tree_clear_of_ne hts] at hT'
      exact F.apart src t' T T' hs hT' (Ne.symm hts)
  refine ⟨(F.clear src).plant dst T (F.redBlack src T hs) (F.nodup src T hs) hap, ?_, ?_,
    Forest.tree_plant_self, fun hne => ?_, fun t htd hts => ?_⟩
  · rw [Forest.sequences_plant, Forest.sequences_clear, Call.after]
    have hseq : F.sequences src = some T.inorder := by simp [Forest.sequences, hs]
    by_cases hne : dst = src
    · obtain rfl := hsame hne
      subst hne
      simp [ColorTree.inorder]
    · rw [hseq, Function.update_comm hne]
  · have h₁ := (F.clear src).potential_plant dst (F.redBlack src T hs) (F.nodup src T hs) hap
    have h₂ := Forest.potential_clear (F := F) (t := src)
    have h₃ : potential? ((F.clear src).tree dst) = 0 := by
      by_cases hne : dst = src
      · simp [hne, potential?, CRbtree.potential]
      · simp [hne, hd, potential?, CRbtree.potential]
    rw [hs] at h₂
    simp only [potential?] at h₁ h₂ h₃
    omega
  · rw [Forest.tree_plant_of_ne hne, Forest.tree_clear_self]
  · rw [Forest.tree_plant_of_ne htd, Forest.tree_clear_of_ne hts]

section Others

variable {m : FieldHeap w} {F : Forest w} {K : Address w → Bool} (h : Holds m F K)
include h

theorem Holds.exec_treeInit {t : Address w} (ht : ∀ l, F.sequences t = some l → l = []) :
    ∃ F' : Forest w, F'.sequences = Function.update F.sequences t (some []) ∧
      F'.potential = F.potential ∧
      Exec (regionOf [] [t]) (rbtreeInit (some t)) (fun _ m' i => Holds m' F' K ∧ i = 0) m := by
  have hempty : ∀ T, F.tree t = some T → T = .nil := by
    intro T hT
    have hin : T.inorder = [] := ht _ (by simp [Forest.sequences, hT])
    cases T with
    | nil => rfl
    | node c l a r => simp [ColorTree.inorder] at hin
  refine ⟨F.clear t, Forest.sequences_clear, ?_, ?_⟩
  · have hpot := Forest.potential_clear (F := F) (t := t)
    cases hT : F.tree t with
    | none => simpa [hT, potential?] using hpot
    | some T =>
      obtain rfl := hempty T hT
      simpa [hT, potential?, CRbtree.potential] using hpot
  · refine exec_mono ?_ (exec_outside (exec_rbtreeInit (List.mem_singleton_self t)))
    rintro _ m' i ⟨⟨hm', rfl⟩, hout⟩
    refine ⟨⟨fun t' U hU => ?_, fun n hn hnl => ?_⟩, rfl⟩
    · by_cases htt : t' = t
      · subst htt
        rw [Forest.tree_clear_self, Option.some.injEq] at hU
        exact hU ▸ hm'
      · rw [Forest.tree_clear_of_ne htt] at hU
        exact (hout.treeAt (by simpa using htt) (List.disjoint_nil_right _)).mpr (h.tree t' U hU)
    · rw [hout.link n (List.not_mem_nil)]
      refine h.marked n hn ?_
      rintro ⟨t', l, hl, hnl'⟩
      refine hnl ?_
      have htt : t' ≠ t := by
        rintro rfl
        rw [ht l hl] at hnl'
        cases hnl'
      exact ⟨t', l, by rw [Forest.sequences_clear, Function.update_of_ne htt, hl], hnl'⟩

theorem Holds.exec_nodeInit {n : Address w} (hn : ¬Linked F.sequences n) :
    Exec (regionOf [n] []) (rbnodeInit (some n))
      (fun _ m' i => Holds m' F (fun a => n = a || K a) ∧ i = 0) m := by
  have hinit : Exec (regionOf [n] []) (rbnodeInit (some n))
      (fun _ m' i => m'.link n = .unlinked ∧ i = 0) m := by
    refine exec_last
      ((exec_rbnodeInit (List.mem_singleton_self n) (List.mem_singleton_self n)).mpr ?_)
    exact ⟨by simp, rfl⟩
  refine exec_mono ?_ (exec_outside hinit)
  rintro _ m' i ⟨⟨hm', rfl⟩, hout⟩
  refine ⟨⟨fun t U hU => ?_, fun a ha hal => ?_⟩, rfl⟩
  · refine (hout.treeAt List.not_mem_nil ?_).mpr (h.tree t U hU)
    rw [List.disjoint_singleton]
    exact fun hnU => hn (F.linked_iff.mpr ⟨t, U, hU, hnU⟩)
  · by_cases hna : n = a
    · exact hna ▸ hm'
    · rw [hout.link a (by simpa [regionOf] using Ne.symm hna)]
      exact h.marked a (by simpa [hna] using ha) hal

theorem Holds.exec_move {dst src : Address w} {T : ColorTree (Address w)}
    (hd : F.tree dst = some .nil) (hs : F.tree src = some T) :
    ∃ F' : Forest w, F'.sequences = (Call.move dst src).after F.sequences ∧
      F'.potential = F.potential ∧
      Exec (regionOf T.inorder [dst, src]) (rbtreeMove (some dst) (some src))
        (fun _ m' i => Holds m' F' K ∧ i = 0) m := by
  obtain ⟨F', hseq, hpot, hdst, hsrc, hrest⟩ := Forest.exists_move hd hs
  have hM : (regionOf T.inorder [dst, src]).Owns src T.inorder := owns_regionOf (by simp)
  have hmove := exec_rbtreeMove (h.tree src T hs) (h.tree dst .nil hd).load (F.nodup src T hs) hM
    (show dst ∈ (regionOf T.inorder [dst, src]).roots by simp [regionOf])
  refine ⟨F', hseq, hpot, exec_mono ?_ (exec_outside hmove)⟩
  rintro _ m' i ⟨⟨⟨hm', hsrc'⟩, rfl⟩, hout⟩
  refine ⟨⟨fun t' U hU => ?_, fun n hn hnl => ?_⟩, rfl⟩
  · by_cases htd : t' = dst
    · subst htd
      rw [hdst, Option.some.injEq] at hU
      exact hU ▸ hm'
    · by_cases hts : t' = src
      · subst hts
        rw [hsrc htd, Option.some.injEq] at hU
        exact hU ▸ hsrc'
      · rw [hrest t' htd hts] at hU
        exact (hout.treeAt (by simp [htd, hts])
          (F.apart t' src U T hU hs hts)).mpr (h.tree t' U hU)
  · have hnT : n ∉ T.inorder := fun hmem => hnl (F'.linked_iff.mpr ⟨dst, T, hdst, hmem⟩)
    rw [hout.link n hnT]
    refine h.marked n hn fun hl => hnl ?_
    obtain ⟨t', U, hU, hnU⟩ := F.linked_iff.mp hl
    have htd : t' ≠ dst := by
      rintro rfl
      rw [hd, Option.some.injEq] at hU
      simp [← hU, ColorTree.inorder] at hnU
    have hts : t' ≠ src := by
      rintro rfl
      rw [hs, Option.some.injEq] at hU
      exact hnT (hU ▸ hnU)
    exact F'.linked_iff.mpr ⟨t', U, (hrest t' htd hts).trans hU, hnU⟩

end Others

/-- What each legal call does: it runs to its end, and pays for its turns. -/
theorem Holds.exec_call {m : FieldHeap w} {F : Forest w} {K : Address w → Bool} {c : Call w}
    (h : Holds m F K) (hc : c.Legal F.sequences m.load) :
    ∃ M, ∃ F' : Forest w, F'.sequences = c.after F.sequences ∧
      Exec M c.code (fun _ m' i => Holds m' F' (fun n => c.settles n (K n)) ∧
        i + F'.potential ≤ F.potential + if c.Changes then 2 else 0) m := by
  have hquiet : ∀ M F', F'.potential = F.potential → ∀ K' : Address w → Bool,
      Exec M c.code (fun _ m' i => Holds m' F' K' ∧ i = 0) m →
      Exec M c.code (fun _ m' i => Holds m' F' K' ∧
        i + F'.potential ≤ F.potential + if c.Changes then 2 else 0) m := by
    intro M F' hpot K' he
    refine exec_mono ?_ he
    rintro _ m' i ⟨hm', rfl⟩
    exact ⟨hm', by omega⟩
  cases hch : c.Changes with
  | true =>
    obtain ⟨t, T, T', k, hT, hchange, hnd, hnew⟩ := h.exists_change hc hch
    obtain ⟨F', -, hseq, hpot, he⟩ := h.exec_change hT hchange hnd hnew
    refine ⟨_, F', hseq, exec_mono ?_ he⟩
    rintro _ m' i ⟨hm', rfl⟩
    have hle := hchange.potential_le (F.redBlack t T hT)
    refine ⟨hm', ?_⟩
    simp only [if_true]
    omega
  | false =>
    rw [hch] at hquiet
    cases c with
    | add t p l n | link p l n | unlink n | unlinkStale n => cases hch
    | treeInit t =>
      obtain ⟨F', hseq, hpot, he⟩ := h.exec_treeInit hc
      exact ⟨_, F', hseq, hquiet _ F' hpot _ he⟩
    | nodeInit n => exact ⟨_, F, rfl, hquiet _ F rfl _ (h.exec_nodeInit hc)⟩
    | move dst src =>
      obtain ⟨hd, hl, hs⟩ := hc
      obtain ⟨D, hD⟩ : ∃ D, F.tree dst = some D := by
        simpa [Forest.sequences, ← Option.ne_none_iff_exists'] using hd
      obtain ⟨T, hT⟩ : ∃ T, F.tree src = some T := by
        simpa [Forest.sequences, ← Option.ne_none_iff_exists'] using hs
      obtain rfl : D = .nil := by
        rw [← ColorTree.root?_eq_none, ← (h.tree dst D hD).load, hl]
      obtain ⟨F', hseq, hpot, he⟩ := h.exec_move hD hT
      exact ⟨_, F', hseq, hquiet _ F' hpot _ he⟩

end CRbtree
