import CRbtree.ColorTrees
import Mathlib.Order.Defs.LinearOrder

set_option autoImplicit false

/-!
Search in a binary tree by a comparison with each label on the way, and what it finds
where the labels are sorted by a key.
-/

namespace RedBlack

variable {α κ : Type}

/-- Goes left below a negative comparison and right below a positive one. It stops at a
label that compares equal, or in a hole. -/
def search (v : α → ℤ) : Context α → ColorTree α → Context α × ColorTree α
  | ctx, .nil => (ctx, .nil)
  | ctx, .node c l a r =>
    if v a < 0 then search v (⟨.left, c, a, r⟩ :: ctx) l
    else if v a > 0 then search v (⟨.right, c, a, l⟩ :: ctx) r
    else (ctx, .node c l a r)

theorem fill_search (v : α → ℤ) (ctx : Context α) (t : ColorTree α) :
    fill (search v ctx t).1 (search v ctx t).2 = fill ctx t := by
  fun_induction search v ctx t with
  | case1 ctx => rfl
  | case2 ctx c l a r ha ih => exact ih
  | case3 ctx c l a r ha ha' ih => exact ih
  | case4 ctx c l a r ha ha' => rfl

theorem search_eq_zero {v : α → ℤ} {ctx : Context α} {t : ColorTree α} {a : α}
    (h : (search v ctx t).2.root? = some a) : v a = 0 := by
  fun_induction search v ctx t with
  | case1 ctx => cases h
  | case2 ctx c l b r hb ih => exact ih h
  | case3 ctx c l b r hb hb' ih => exact ih h
  | case4 ctx c l b r hb hb' =>
    cases h
    omega

theorem mem_of_search {v : α → ℤ} {t : ColorTree α} {a : α} (h : (search v [] t).2.root? = some a) :
    a ∈ t.inorder := by
  have hfill := fill_search v [] t
  rw [fill_nil] at hfill
  rw [← hfill, mem_fill]
  exact .inl (ColorTree.mem_of_root? h)

section Falling

variable {v : α → ℤ} {ctx : Context α} {t : ColorTree α}

/-- Along the list the comparison is first positive, then zero, then negative. -/
def Falling (v : α → ℤ) (l : List α) : Prop :=
  l.Pairwise fun a b => (v b > 0 → v a > 0) ∧ (v a < 0 → v b < 0)

theorem Falling.of_fill (h : Falling v (fill ctx t).inorder) : Falling v t.inorder := by
  rw [inorder_fill] at h
  exact (List.pairwise_append.mp (List.pairwise_append.mp h).1).2.1

/-- The labels before the hole of a search compare positive, those after it negative. -/
theorem search_sides (h : Falling v (fill ctx t).inorder) (hb : ∀ a ∈ before ctx, v a > 0)
    (ha : ∀ a ∈ after ctx, v a < 0) :
    (∀ a ∈ before (search v ctx t).1, v a > 0) ∧ ∀ a ∈ after (search v ctx t).1, v a < 0 := by
  fun_induction search v ctx t with
  | case1 ctx => exact ⟨hb, ha⟩
  | case2 ctx c l x r hx ih =>
    refine ih h hb fun a hmem => ?_
    simp only [after, List.cons_append, List.mem_cons, List.mem_append] at hmem
    rcases hmem with rfl | hmem | hmem
    · exact hx
    · have hxr := (List.pairwise_append.mp h.of_fill).2.1
      exact (List.rel_of_pairwise_cons hxr hmem).2 hx
    · exact ha a hmem
  | case3 ctx c l x r hx hx' ih =>
    refine ih h (fun a hmem => ?_) ha
    simp only [before, List.mem_append, List.mem_singleton] at hmem
    rcases hmem with (hmem | hmem) | rfl
    · exact hb a hmem
    · exact ((List.pairwise_append.mp h.of_fill).2.2 a hmem x (by simp)).1 hx'
    · exact hx'
  | case4 ctx c l x r hx hx' => exact ⟨hb, ha⟩

/-- A search from the root finds nothing only if nothing compares equal. -/
theorem search_eq_none (h : Falling v t.inorder) :
    (search v [] t).2.root? = none ↔ ∀ a ∈ t.inorder, v a ≠ 0 := by
  constructor
  · intro hnone a ha
    have hfill := fill_search v [] t
    rw [fill_nil] at hfill
    obtain ⟨hbefore, hafter⟩ := @search_sides α v [] t h (by simp [before]) (by simp [after])
    rw [← hfill, ColorTree.root?_eq_none.mp hnone, inorder_fill] at ha
    simp only [ColorTree.inorder, List.append_nil, List.mem_append] at ha
    rcases ha with ha | ha
    · exact (hbefore a ha).ne'
    · exact (hafter a ha).ne
  · intro hne
    cases hroot : (search v [] t).2.root? with
    | none => rfl
    | some a => exact absurd (search_eq_zero hroot) (hne a (mem_of_search hroot))

/-- Like `v`, but positive where `v` is zero. -/
def upper (v : α → ℤ) (a : α) : ℤ := if v a < 0 then -1 else 1

theorem upper_neg {a : α} : upper v a < 0 ↔ v a < 0 := by
  unfold upper
  split <;> omega

theorem upper_pos {a : α} : upper v a > 0 ↔ ¬v a < 0 := by
  unfold upper
  split <;> omega

/-- A search that never finds anything ends in a hole. -/
theorem search_upper : (search (upper v) ctx t).2 = .nil := by
  refine ColorTree.root?_eq_none.mp (Option.eq_none_iff_forall_not_mem.mpr fun a ha => ?_)
  have hzero := search_eq_zero ha
  unfold upper at hzero
  split at hzero <;> omega

end Falling

section Sorted

variable [LinearOrder κ] {v : α → ℤ} {key : α → κ} {k : κ} {t : ColorTree α}

/-- Strictly increasing keys. -/
def Sorted (key : α → κ) (l : List α) : Prop := l.Pairwise fun a b => key a < key b

/-- The comparison of `k` with the keys of the labels. -/
structure Compares (v : α → ℤ) (key : α → κ) (k : κ) : Prop where
  lt : ∀ a, v a < 0 ↔ k < key a
  gt : ∀ a, v a > 0 ↔ key a < k

theorem Compares.eq_zero (h : Compares v key k) (a : α) : v a = 0 ↔ key a = k := by
  have hlt := h.lt a
  have hgt := h.gt a
  rcases lt_trichotomy (key a) k with hk | hk | hk
  · have := hgt.mpr hk
    exact ⟨fun _ => by omega, fun he => absurd he hk.ne⟩
  · rw [hk] at hlt hgt
    have := mt hlt.mp (lt_irrefl k)
    have := mt hgt.mp (lt_irrefl k)
    exact ⟨fun _ => hk, fun _ => by omega⟩
  · have := hlt.mpr hk
    exact ⟨fun _ => by omega, fun he => absurd he hk.ne'⟩

theorem Sorted.eq_of_key {l : List α} (h : Sorted key l) {a b : α} (ha : a ∈ l) (hb : b ∈ l)
    (hk : key a = key b) : a = b := by
  have hnd : (l.map key).Nodup := List.pairwise_map.mpr (h.imp fun hlt => hlt.ne)
  exact List.inj_on_of_nodup_map hnd ha hb hk

theorem Sorted.falling {l : List α} (h : Sorted key l) (hv : Compares v key k) : Falling v l :=
  h.imp fun hab => ⟨fun hb => (hv.gt _).mpr (hab.trans ((hv.gt _).mp hb)),
    fun ha => (hv.lt _).mpr (((hv.lt _).mp ha).trans hab)⟩

/-- The labels before the hole of a search have smaller keys, those after it larger ones. -/
theorem search_bounds (hv : Compares v key k) (hs : Sorted key t.inorder) :
    (∀ a ∈ before (search v [] t).1, key a < k) ∧ ∀ a ∈ after (search v [] t).1, k < key a := by
  obtain ⟨hb, ha⟩ := @search_sides α v [] t (hs.falling hv) (by simp [before]) (by simp [after])
  exact ⟨fun a hmem => (hv.gt a).mp (hb a hmem), fun a hmem => (hv.lt a).mp (ha a hmem)⟩

/-- A search from the root finds the label with the key, if there is one. -/
theorem search_eq_some (hv : Compares v key k) (hs : Sorted key t.inorder) {a : α} :
    (search v [] t).2.root? = some a ↔ a ∈ t.inorder ∧ key a = k := by
  have hmem : ∀ b, (search v [] t).2.root? = some b → b ∈ t.inorder ∧ key b = k :=
    fun b hb => ⟨mem_of_search hb, (hv.eq_zero b).mp (search_eq_zero hb)⟩
  refine ⟨hmem a, fun ⟨ha, hk⟩ => ?_⟩
  cases hroot : (search v [] t).2.root? with
  | none => exact absurd ((hv.eq_zero a).mpr hk) ((search_eq_none (hs.falling hv)).mp hroot a ha)
  | some b =>
    obtain ⟨hb, hkb⟩ := hmem b hroot
    rw [hs.eq_of_key hb ha (hkb.trans hk.symm)]

/-- A label put where its key was searched for keeps the labels sorted. -/
theorem sorted_search {n : α} (hv : Compares v key (key n)) (hs : Sorted key t.inorder)
    (hnil : (search v [] t).2 = .nil) :
    Sorted key (before (search v [] t).1 ++ n :: after (search v [] t).1) := by
  obtain ⟨hbefore, hafter⟩ := search_bounds hv hs
  have hfill := fill_search v [] t
  rw [fill_nil, hnil] at hfill
  rw [← hfill, inorder_fill, ColorTree.inorder, List.append_nil] at hs
  obtain ⟨hsb, hsa, hba⟩ := List.pairwise_append.mp hs
  refine List.pairwise_append.mpr ⟨hsb, List.pairwise_cons.mpr ⟨hafter, hsa⟩, ?_⟩
  rintro a ha b hb
  rcases List.mem_cons.mp hb with rfl | hb
  · exact hbefore a ha
  · exact hba a ha b hb

end Sorted

end RedBlack
