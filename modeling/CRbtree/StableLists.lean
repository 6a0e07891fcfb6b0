import CRbtree.Searching
import Mathlib.Order.Antisymmetrization

set_option autoImplicit false

/-!
Lists that are sorted by keys, of which several may be equal, and stable: equal keys stand in
the order of their insertion.
-/

namespace RedBlack

variable {α κ : Type} [Preorder κ] {v : α → ℤ} {key : α → κ} {k : κ} {born l l' : List α} {n : α}

/-- The comparison of `k` with the keys of the labels, of which several may be equal. -/
structure Ranks (v : α → ℤ) (key : α → κ) (k : κ) : Prop where
  lt : ∀ a, v a < 0 ↔ k < key a
  gt : ∀ a, v a > 0 ↔ key a < k

theorem Ranks.eq_zero [Std.Total (α := κ) (· ≤ ·)] (h : Ranks v key k) {a : α} :
    v a = 0 ↔ AntisymmRel (· ≤ ·) (key a) k := by
  have hlt := (h.lt a).trans lt_iff_le_not_ge
  have hgt := (h.gt a).trans lt_iff_le_not_ge
  have htotal := total_of (· ≤ ·) (key a) k
  constructor
  · intro hz
    have hl := mt hlt.mpr (by omega)
    have hg := mt hgt.mpr (by omega)
    simp only [AntisymmRel]
    tauto
  · rintro ⟨hak, hka⟩
    have hl : ¬v a < 0 := fun hv => (hlt.mp hv).2 hak
    have hg : ¬v a > 0 := fun hv => (hgt.mp hv).2 hka
    omega

/-- The list has the members of `born` sorted by their keys, and those of equal keys in the
order in which `born` has them. -/
structure Stable (key : α → κ) (born l : List α) : Prop where
  perm : l.Perm born
  sorted : l.Pairwise fun a b => key a ≤ key b ∧ (key b ≤ key a → [a, b].Sublist born)

theorem Stable.nil : Stable key [] [] := ⟨.nil, .nil⟩

theorem Stable.falling (h : Stable key born l) (hv : Ranks v key k) : Falling v l :=
  h.sorted.imp fun ⟨hab, _⟩ => ⟨fun hb => (hv.gt _).mpr (hab.trans_lt ((hv.gt _).mp hb)),
    fun ha => (hv.lt _).mpr (((hv.lt _).mp ha).trans_le hab)⟩

/-- The newest label belongs behind all that have its key. -/
theorem Stable.insert (h : Stable key born (l ++ l')) (hl : ∀ a ∈ l, key a ≤ key n)
    (hl' : ∀ a ∈ l', key n < key a) : Stable key (born ++ [n]) (l ++ n :: l') := by
  refine ⟨List.perm_middle.trans
    ((List.Perm.cons n h.perm).trans (List.perm_append_singleton n born).symm), ?_⟩
  have hold :=
    h.sorted.imp (S := fun a b => key a ≤ key b ∧ (key b ≤ key a → [a, b].Sublist (born ++ [n])))
    fun ⟨hab, hs⟩ => ⟨hab, fun hba => (hs hba).trans (List.sublist_append_left born [n])⟩
  obtain ⟨hpl, hpl', hcross⟩ := List.pairwise_append.mp hold
  refine List.pairwise_append.mpr ⟨hpl, List.pairwise_cons.mpr ⟨fun b hb => ?_, hpl'⟩, ?_⟩
  · exact ⟨(hl' b hb).le, fun hbn => absurd hbn (hl' b hb).not_ge⟩
  · rintro a ha b hb
    rcases List.mem_cons.mp hb with rfl | hb
    · have hborn : a ∈ born := h.perm.mem_iff.mp (List.mem_append_left l' ha)
      exact ⟨hl a ha, fun _ => (List.singleton_sublist.mpr hborn).append (List.Sublist.refl [b])⟩
    · exact hcross a ha b hb

theorem Stable.erase [DecidableEq α] (h : Stable key born l) (hnd : l.Nodup) :
    Stable key (born.erase n) (l.erase n) := by
  refine ⟨h.perm.erase n, (List.Pairwise.sublist List.erase_sublist h.sorted).imp_of_mem ?_⟩
  rintro a b ha hb ⟨hab, hs⟩
  refine ⟨hab, fun hba => ?_⟩
  have hne : ∀ x ∈ l.erase n, x ≠ n := fun x hx => ((hnd.mem_erase_iff).mp hx).1
  have herase := (hs hba).erase n
  rwa [List.erase_of_not_mem] at herase
  simp [(hne a ha).symm, (hne b hb).symm]

theorem not_sublist_swap {a b : α} (hnd : l.Nodup) (hab : [a, b].Sublist l) :
    ¬[b, a].Sublist l := by
  induction l with
  | nil => cases hab
  | cons c l ih =>
    obtain ⟨hc, hnd⟩ := List.nodup_cons.mp hnd
    intro hba
    cases hab with
    | cons _ hab =>
      cases hba with
      | cons _ hba => exact ih hnd hab hba
      | cons_cons _ hba => exact hc (hab.subset (by simp))
    | cons_cons _ hab =>
      cases hba with
      | cons _ hba => exact hc (hba.subset (by simp))
      | cons_cons _ hba => exact hc (hba.subset (by simp))

/-- There is one such list. -/
theorem Stable.unique (hnd : born.Nodup) (h : Stable key born l) (h' : Stable key born l') :
    l = l' :=
  (h.perm.trans h'.perm.symm).eq_of_pairwise
    (fun _ _ _ _ hab hba => absurd (hba.2 hab.1) (not_sublist_swap hnd (hab.2 hba.1)))
    h.sorted h'.sorted

theorem Stable.falling_upper (h : Stable key born l) (hv : Ranks v key k) :
    Falling (upper v) l := by
  refine h.sorted.imp fun ⟨hab, _⟩ => ⟨fun hb => ?_, fun ha => ?_⟩
  · rw [upper_pos, hv.lt] at hb ⊢
    exact fun ha => hb (ha.trans_le hab)
  · rw [upper_neg, hv.lt] at ha ⊢
    exact ha.trans_le hab

/-- A new label put behind all that do not exceed it stays sorted and stable. -/
theorem Stable.insert_search [Std.Total (α := κ) (· ≤ ·)] {t : ColorTree α}
    (h : Stable key born t.inorder) (hv : Ranks v key (key n)) : Stable key (born ++ [n])
      (before (search (upper v) [] t).1 ++ n :: after (search (upper v) [] t).1) := by
  obtain ⟨hb, ha⟩ :=
    @search_sides α (upper v) [] t (h.falling_upper hv) (by simp [before]) (by simp [after])
  have hfill := fill_search (upper v) [] t
  rw [fill_nil, search_upper] at hfill
  rw [← hfill, inorder_fill, ColorTree.inorder, List.append_nil] at h
  refine h.insert (fun a hmem => ?_) fun a hmem => (hv.lt a).mp (upper_neg.mp (ha a hmem))
  have hle := mt (hv.lt a).mpr (upper_pos.mp (hb a hmem))
  by_contra hna
  exact hle (lt_of_le_not_ge ((total_of (· ≤ ·) (key n) (key a)).resolve_right hna) hna)

end RedBlack
