import CRbtree.ColorTrees

set_option autoImplicit false

/-!
The black counts of the nodes without children, and what is missing for balance when they
are all equal.
-/

namespace RedBlack

variable {α : Type} {T : ColorTree α}

/-- The black counts of the nodes that have no child, from left to right. -/
def leafCounts : ColorTree α → List ℕ
  | .nil => []
  | .node c .nil _ .nil => [c.weight]
  | .node c l _ r => (leafCounts l ++ leafCounts r).map (· + c.weight)

theorem leafCounts_node {c : Color} {l r : ColorTree α} {a : α} (h : ¬(l = .nil ∧ r = .nil)) :
    leafCounts (.node c l a r) = (leafCounts l ++ leafCounts r).map (· + c.weight) := by
  cases l <;> cases r <;> first | rfl | simp at h

theorem leafCounts_eq (h : T.Balanced) : ∀ k ∈ leafCounts T, k = T.blackHeight := by
  induction T with
  | nil => simp [leafCounts]
  | node c l a r hl hr =>
    obtain ⟨hbl, hbr, hlr⟩ := h
    intro k hk
    by_cases hleaf : l = .nil ∧ r = .nil
    · obtain ⟨rfl, rfl⟩ := hleaf
      simpa [leafCounts, ColorTree.blackHeight] using hk
    · rw [leafCounts_node hleaf, List.mem_map] at hk
      obtain ⟨j, hj, rfl⟩ := hk
      rcases List.mem_append.mp hj with hj | hj
      · rw [ColorTree.blackHeight, hl hbl j hj]
      · rw [ColorTree.blackHeight, hr hbr j hj, hlr]

theorem leafCounts_le : ∀ k ∈ leafCounts T, k ≤ T.size := by
  induction T with
  | nil => simp [leafCounts]
  | node c l a r hl hr =>
    intro k hk
    have hc : c.weight ≤ 1 := by cases c <;> simp [Color.weight]
    rw [ColorTree.size]
    by_cases hleaf : l = .nil ∧ r = .nil
    · obtain ⟨rfl, rfl⟩ := hleaf
      simp only [leafCounts, List.mem_singleton] at hk
      omega
    · rw [leafCounts_node hleaf, List.mem_map] at hk
      obtain ⟨j, hj, rfl⟩ := hk
      rcases List.mem_append.mp hj with hj | hj
      · have hle := hl j hj
        omega
      · have hle := hr j hj
        omega

theorem exists_leafCount (h : T ≠ .nil) : ∃ k, k ∈ leafCounts T := by
  induction T with
  | nil => exact absurd rfl h
  | node c l a r hl hr =>
    by_cases hleaf : l = .nil ∧ r = .nil
    · obtain ⟨rfl, rfl⟩ := hleaf
      exact ⟨_, List.mem_singleton_self _⟩
    · rw [leafCounts_node hleaf]
      by_cases hnil : l = .nil
      · obtain ⟨k, hk⟩ := hr fun hr' => hleaf ⟨hnil, hr'⟩
        exact ⟨_, List.mem_map_of_mem (List.mem_append_right _ hk)⟩
      · obtain ⟨k, hk⟩ := hl hnil
        exact ⟨_, List.mem_map_of_mem (List.mem_append_left _ hk)⟩

theorem blackHeight_le_size : T.blackHeight ≤ T.size := by
  induction T with
  | nil => exact le_rfl
  | node c l a r hl hr =>
    have hc : c.weight ≤ 1 := by cases c <;> simp [Color.weight]
    rw [ColorTree.blackHeight, ColorTree.size]
    omega

def IsRedLeaf (T : ColorTree α) : Prop := ∃ a, T = .node .red .nil a .nil

/-- A child without a sibling is red, and has no child of its own. -/
def OnlyRedLeaves : ColorTree α → Prop
  | .nil => True
  | .node _ l _ r => (l = .nil → r = .nil ∨ IsRedLeaf r) ∧ (r = .nil → l = .nil ∨ IsRedLeaf l) ∧
    OnlyRedLeaves l ∧ OnlyRedLeaves r

theorem eq_nil_of_flat (hr : T.isRed = false) (h : T.blackHeight = 0) : T = .nil := by
  cases T with
  | nil => rfl
  | node c l a r => cases c <;> simp [ColorTree.blackHeight, Color.weight] at hr h

theorem isRedLeaf_of_flat (hb : T.Balanced) (hn : T.NoRedRed) (h : T.blackHeight = 0) :
    T = .nil ∨ IsRedLeaf T := by
  cases T with
  | nil => exact .inl rfl
  | node c l a r =>
    obtain ⟨hbl, hbr, hlr⟩ := hb
    obtain ⟨hred, hnl, hnr⟩ := hn
    rw [ColorTree.blackHeight, Nat.add_eq_zero_iff] at h
    cases c with
    | black => cases h.2
    | red =>
      obtain ⟨hl, hr⟩ := hred rfl
      rw [eq_nil_of_flat hl h.1, eq_nil_of_flat hr (hlr ▸ h.1)]
      exact .inr ⟨a, rfl⟩

theorem onlyRedLeaves_of_balanced (hb : T.Balanced) (hn : T.NoRedRed) : OnlyRedLeaves T := by
  induction T with
  | nil => trivial
  | node c l a r hl hr =>
    obtain ⟨hbl, hbr, hlr⟩ := hb
    obtain ⟨-, hnl, hnr⟩ := hn
    refine ⟨fun hnil => ?_, fun hnil => ?_, hl hbl hnl, hr hbr hnr⟩
    · subst hnil
      exact isRedLeaf_of_flat hbr hnr hlr.symm
    · subst hnil
      exact isRedLeaf_of_flat hbl hnl hlr

/-- Equal counts at the leaves are enough where no other NULL slot matters. -/
theorem balanced_of_leafCounts {n : ℕ} (ho : OnlyRedLeaves T) (h : ∀ k ∈ leafCounts T, k = n) :
    T.Balanced ∧ (T ≠ .nil → T.blackHeight = n) := by
  induction T generalizing n with
  | nil => exact ⟨trivial, fun hne => absurd rfl hne⟩
  | node c l a r hl hr =>
    obtain ⟨holone, hrlone, hol, hor⟩ := ho
    by_cases hleaf : l = .nil ∧ r = .nil
    · obtain ⟨rfl, rfl⟩ := hleaf
      exact ⟨⟨trivial, trivial, rfl⟩, fun _ => by simpa [leafCounts, ColorTree.blackHeight] using h⟩
    rw [leafCounts_node hleaf, List.forall_mem_map, List.forall_mem_append] at h
    by_cases hlnil : l = .nil
    · obtain ⟨b, rfl⟩ := (holone hlnil).resolve_left fun hrnil => hleaf ⟨hlnil, hrnil⟩
      subst hlnil
      refine ⟨⟨trivial, ⟨trivial, trivial, rfl⟩, rfl⟩, fun _ => ?_⟩
      simpa [leafCounts, ColorTree.blackHeight, Color.weight] using h
    by_cases hrnil : r = .nil
    · obtain ⟨b, rfl⟩ := (hrlone hrnil).resolve_left hlnil
      subst hrnil
      refine ⟨⟨⟨trivial, trivial, rfl⟩, trivial, rfl⟩, fun _ => ?_⟩
      simpa [leafCounts, ColorTree.blackHeight, Color.weight] using h
    have hbelow : ∀ k, k + c.weight = n → k = n - c.weight := fun k hk => by omega
    obtain ⟨hbl, hcl⟩ := hl hol fun k hk => hbelow k (h.1 k hk)
    obtain ⟨hbr, hcr⟩ := hr hor fun k hk => hbelow k (h.2 k hk)
    refine ⟨⟨hbl, hbr, (hcl hlnil).trans (hcr hrnil).symm⟩, fun _ => ?_⟩
    obtain ⟨k, hk⟩ := exists_leafCount hlnil
    have hn := h.1 k hk
    rw [ColorTree.blackHeight, hcl hlnil]
    omega

end RedBlack
