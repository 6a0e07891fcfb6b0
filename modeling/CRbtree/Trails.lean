import CRbtree.ColorTrees

set_option autoImplicit false

/-!
Paths down a coloured tree, how many black nodes they pass, and the edges between two red
nodes.
-/

namespace RedBlack

open ColorTree

variable {α : Type}

/-- The path from the root down to the hole. -/
def trail : Context α → List Side
  | [] => []
  | f :: ctx => trail ctx ++ [f.side]

/-- The path leads from the root down to an empty place, past so many black nodes. -/
def BlackPath : ColorTree α → List Side → ℕ → Prop
  | .nil, [], k => k = 0
  | .nil, _ :: _, _ => False
  | .node _ _ _ _, [], _ => False
  | .node c l a r, d :: ds, k =>
    ∃ j, BlackPath ((ColorTree.node c l a r).child d) ds j ∧ k = j + c.weight

/-- All paths down to an empty place pass `k` black nodes. -/
def Uniform (t : ColorTree α) (k : ℕ) : Prop := ∀ ds j, BlackPath t ds j → j = k

/-- All paths pass `k` black nodes, but those through the given place one less. -/
def ShortBelow (t : ColorTree α) (place : List Side) (k : ℕ) : Prop :=
  ∀ ds j, BlackPath t ds j → if place <+: ds then j + 1 = k else j = k

/-- The node `a` is red, and no defect of colour exists other than that it may be the root
or lie below a red node. -/
structure OnlyDefect (t : ColorTree α) (a : α) : Prop where
  red : ∃ ds, (t.sub ds).root? = some a ∧ (t.sub ds).isRed = true
  root : t.isRed = true → t.root? = some a
  edge : ∀ ds d, (t.sub ds).isRed = true → ((t.sub ds).child d).isRed = true →
    ((t.sub ds).child d).root? = some a

section Paths

variable {t u : ColorTree α} {ctx : Context α} {ds : List Side} {k : ℕ}

theorem sub_append (t : ColorTree α) (ds ds' : List Side) :
    t.sub (ds ++ ds') = (t.sub ds).sub ds' := by
  induction ds generalizing t with
  | nil => rfl
  | cons d ds ih => exact ih (t.child d)

theorem trail_concat (ctx : Context α) (f : Frame α) :
    trail (ctx ++ [f]) = f.side :: trail ctx := by
  induction ctx with
  | nil => rfl
  | cons g ctx ih => simp [trail, ih]

theorem sub_trail (ctx : Context α) (t : ColorTree α) : (fill ctx t).sub (trail ctx) = t := by
  induction ctx generalizing t with
  | nil => rfl
  | cons f ctx ih => simp [fill, trail, sub_append, ih, Frame.wrap, ColorTree.sub]

theorem exists_fill_of_sub (h : t.sub ds ≠ .nil) :
    ∃ ctx, t = fill ctx (t.sub ds) ∧ trail ctx = ds := by
  induction ds generalizing t with
  | nil => exact ⟨[], rfl, rfl⟩
  | cons d ds ih =>
    obtain ⟨c, u, a, v, rfl⟩ := exists_join d (t := t) (by rintro rfl; simp at h)
    simp only [ColorTree.sub, child_join] at h ⊢
    obtain ⟨ctx, hfill, htrail⟩ := ih h
    refine ⟨ctx ++ [⟨d, c, a, v⟩], ?_, by rw [trail_concat, htrail]⟩
    rw [fill_append, ← hfill]
    rfl

theorem blackPath_join {d : Side} {c : Color} {a : α} :
    BlackPath (.join d c t a u) (d :: ds) k ↔ ∃ j, BlackPath t ds j ∧ k = j + c.weight := by
  cases d <;> rfl

theorem blackPath_join_flip {d : Side} {c : Color} {a : α} :
    BlackPath (.join d c t a u) (d.flip :: ds) k ↔ ∃ j, BlackPath u ds j ∧ k = j + c.weight := by
  cases d <;> rfl

/-- Every tree has a path along its left spine. -/
theorem exists_blackPath (t : ColorTree α) : ∃ ds, BlackPath t ds t.blackHeight := by
  induction t with
  | nil => exact ⟨[], rfl⟩
  | node c l a r hl hr =>
    obtain ⟨ds, hds⟩ := hl
    exact ⟨.left :: ds, _, hds, rfl⟩

theorem Uniform.blackHeight (h : Uniform t k) : t.blackHeight = k := by
  obtain ⟨ds, hds⟩ := exists_blackPath t
  exact h ds _ hds

theorem Uniform.balanced (h : Uniform t k) : t.Balanced := by
  induction t generalizing k with
  | nil => trivial
  | node c l a r hl hr =>
    have hboth : ∀ d, ∀ ds j,
        BlackPath ((ColorTree.node c l a r).child d) ds j → j + c.weight = k :=
      fun d ds j hj => h (d :: ds) _ ⟨j, hj, rfl⟩
    have hl' : Uniform l (k - c.weight) := fun ds j hj => by
      have := hboth .left ds j hj
      omega
    have hr' : Uniform r (k - c.weight) := fun ds j hj => by
      have := hboth .right ds j hj
      omega
    exact ⟨hl hl', hr hr', hl'.blackHeight.trans hr'.blackHeight.symm⟩

theorem uniform_nil : Uniform (.nil : ColorTree α) 0 := by
  rintro (- | ⟨d, ds⟩) j hj
  · exact hj
  · exact hj.elim

theorem Uniform.node {l r : ColorTree α} {c : Color} {a : α} (hl : Uniform l k) (hr : Uniform r k) :
    Uniform (.node c l a r) (k + c.weight) := by
  rintro (- | ⟨d, ds⟩) j hj
  · exact hj.elim
  · obtain ⟨i, hi, rfl⟩ := hj
    cases d with
    | left => rw [hl ds i hi]
    | right => rw [hr ds i hi]

theorem Uniform.shortBelow (h : Uniform t k) : ShortBelow t [] (k + 1) := by
  intro ds j hj
  rw [if_pos List.nil_prefix, h ds j hj]

theorem ShortBelow.join {d : Side} {c : Color} {a : α} (h : ShortBelow t ds k) (hu : Uniform u k) :
    ShortBelow (.join d c t a u) (d :: ds) (k + c.weight) := by
  rintro (- | ⟨e, ds'⟩) j hj
  · cases d <;> exact hj.elim
  · by_cases he : e = d
    · subst he
      obtain ⟨i, hi, rfl⟩ := blackPath_join.mp hj
      have hi := h ds' i hi
      simp only [List.cons_prefix_cons, true_and]
      split at hi <;> simp_all
      omega
    · obtain rfl := Side.eq_flip he
      obtain ⟨i, hi, rfl⟩ := blackPath_join_flip.mp hj
      have hne : ¬d :: ds <+: d.flip :: ds' := fun hp => he (List.cons_prefix_cons.mp hp).1.symm
      rw [if_neg hne, hu ds' i hi]

/-- The black nodes on the path down to the hole. -/
def weights : Context α → ℕ
  | [] => 0
  | f :: ctx => f.color.weight + weights ctx

theorem blackPath_fill : BlackPath (fill ctx t) (trail ctx ++ ds) k ↔
    ∃ j, BlackPath t ds j ∧ k = j + weights ctx := by
  induction ctx generalizing t ds k with
  | nil => simp [trail, weights]
  | cons f ctx ih =>
    rw [fill, trail, List.append_assoc, List.singleton_append, ih]
    constructor
    · rintro ⟨j, hj, rfl⟩
      obtain ⟨i, hi, rfl⟩ := blackPath_join.mp hj
      exact ⟨i, hi, by simp only [weights]; omega⟩
    · rintro ⟨j, hj, rfl⟩
      exact ⟨j + f.color.weight, blackPath_join.mpr ⟨j, hj, rfl⟩, by simp only [weights]; omega⟩

/-- Paths that miss the hole do not depend on what fills it. -/
theorem blackPath_fill_of_not (h : ¬trail ctx <+: ds) (hk : BlackPath (fill ctx t) ds k) :
    BlackPath (fill ctx u) ds k := by
  induction ctx generalizing t u ds k with
  | nil => exact absurd (List.nil_prefix) h
  | cons f ctx ih =>
    rw [fill] at hk ⊢
    by_cases hctx : trail ctx <+: ds
    · obtain ⟨ds, rfl⟩ := hctx
      obtain ⟨j, hj, rfl⟩ := blackPath_fill.mp hk
      refine blackPath_fill.mpr ⟨j, ?_, rfl⟩
      obtain ⟨d, c, a, v⟩ := f
      cases ds with
      | nil => cases d <;> exact hj
      | cons e ds =>
        have hne : e ≠ d := by
          rintro rfl
          exact h (by simp [trail])
        obtain rfl := Side.eq_flip hne
        exact blackPath_join_flip.mpr (blackPath_join_flip.mp hj)
    · exact ih hctx hk

/-- A tree that is short below a place is balanced once a heavier tree is put there. -/
theorem ShortBelow.balanced (h : ShortBelow (fill ctx t) (trail ctx) k) :
    t.Balanced ∧ Level ctx (t.blackHeight + 1) := by
  have hin : ∀ ds j, BlackPath t ds j → j + weights ctx + 1 = k := by
    intro ds j hj
    have hk := h (trail ctx ++ ds) _ (blackPath_fill.mpr ⟨j, hj, rfl⟩)
    rwa [if_pos (List.prefix_append _ _)] at hk
  have ht : Uniform t t.blackHeight := by
    intro ds j hj
    obtain ⟨ds', hds'⟩ := exists_blackPath t
    have h₁ := hin ds j hj
    have h₂ := hin ds' _ hds'
    omega
  refine ⟨ht.balanced, ?_⟩
  cases ctx with
  | nil => trivial
  | cons f ctx =>
    have hup : Uniform (fill (f :: ctx) (.node .black t f.label t)) k := by
      intro ds j hj
      by_cases hp : trail (f :: ctx) <+: ds
      · obtain ⟨ds, rfl⟩ := hp
        obtain ⟨i, hi, rfl⟩ := blackPath_fill.mp hj
        cases ds with
        | nil => exact hi.elim
        | cons d ds =>
          obtain ⟨j', hj', rfl⟩ := hi
          have hk := hin ds j' (by cases d <;> exact hj')
          simp only [Color.weight]
          omega
      · have hk := h ds j (blackPath_fill_of_not hp hj)
        rwa [if_neg hp] at hk
    exact (balanced_fill.mp hup.balanced).2

end Paths

section Edges

variable {t u : ColorTree α} {ctx : Context α} {a : α}

theorem noRedRed_of_edges
    (h : ∀ ds d, (t.sub ds).isRed = true → ((t.sub ds).child d).isRed = false) :
    t.NoRedRed := by
  induction t with
  | nil => trivial
  | node c l b r hl hr =>
    refine ⟨fun hc => ?_, hl fun ds d => h (.left :: ds) d, hr fun ds d => h (.right :: ds) d⟩
    have hred : ((ColorTree.node c l b r).sub []).isRed = true := by simp [ColorTree.sub, hc]
    exact ⟨h [] .left hred, h [] .right hred⟩

/-- The second tree is the first with every node `a` painted black. -/
def Blackened (a : α) (t u : ColorTree α) : Prop :=
  ∀ ds, (u.sub ds).root? = (t.sub ds).root? ∧
    ((u.sub ds).isRed = true → (t.sub ds).isRed = true ∧ (u.sub ds).root? ≠ some a)

theorem blackened_self (h : a ∉ t.inorder) : Blackened a t t :=
  fun _ => ⟨rfl, fun hr => ⟨hr, fun ha => h (mem_of_mem_sub (mem_of_root? ha))⟩⟩

theorem blackened_join {d : Side} {c : Color} {t t' u u' : ColorTree α} {b : α} (hb : b ≠ a)
    (ht : Blackened a t t') (hu : Blackened a u u') :
    Blackened a (.join d c t b u) (.join d c t' b u') := by
  intro ds
  cases ds with
  | nil => simp [ColorTree.sub, hb]
  | cons e ds =>
    by_cases he : e = d
    · subst he
      simpa [ColorTree.sub] using ht ds
    · obtain rfl := Side.eq_flip he
      simpa [ColorTree.sub] using hu ds

theorem blackened_fill (h : a ∉ elems ctx) (ht : Blackened a t u) :
    Blackened a (fill ctx t) (fill ctx u) := by
  induction ctx generalizing t u with
  | nil => exact ht
  | cons f ctx ih =>
    simp only [elems, List.mem_cons, List.mem_append, not_or] at h
    exact ih h.2.2 (blackened_join (Ne.symm h.1) ht (blackened_self h.2.1))

theorem blackened_paint {c : Color} {l r : ColorTree α} (hl : a ∉ l.inorder) (hr : a ∉ r.inorder) :
    Blackened a (.node c l a r) (.node .black l a r) := by
  intro ds
  cases ds with
  | nil => simp [ColorTree.sub, root?]
  | cons d ds =>
    cases d with
    | left => exact blackened_self hl ds
    | right => exact blackened_self hr ds

/-- Painting the node black leaves no defect of colour. -/
theorem OnlyDefect.sound (h : OnlyDefect t a) (hu : Blackened a t u) :
    u.isRed = false ∧ u.NoRedRed := by
  constructor
  · by_contra hr
    obtain ⟨hroot, hred⟩ := hu []
    obtain ⟨hred, hne⟩ := hred (by simpa [ColorTree.sub] using hr)
    exact hne (hroot.trans (h.root hred))
  · refine noRedRed_of_edges fun ds d hr => ?_
    by_contra hc
    have hsub : ∀ t : ColorTree α, (t.sub ds).child d = t.sub (ds ++ [d]) := fun t =>
      (sub_append t ds [d]).symm
    rw [Bool.not_eq_false, hsub] at hc
    obtain ⟨hroot, hred⟩ := hu (ds ++ [d])
    obtain ⟨hred, hne⟩ := hred hc
    have hedge := h.edge ds d ((hu ds).2 hr).1
    rw [hsub] at hedge
    exact hne (hroot.trans (hedge hred))

end Edges

end RedBlack
