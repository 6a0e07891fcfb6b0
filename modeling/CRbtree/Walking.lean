import CRbtree.Rules

set_option autoImplicit false

/-!
How often the loops of the traversal functions run on a laid out tree, where they end,
and which nodes they read.
-/

namespace CRbtree
open RedBlack TaggedPointers PointerGraphs Programs

variable {w : ℕ} {M : Region w} {m : FieldHeap w}

/-- The command reads a field of a node of `A`. -/
def Command.Reads (A : Set (Address w)) : Command w → Prop
  | .load s => ∃ n ∈ s.holder, n ∈ A
  | .raw n | .flags n | .parent n => n ∈ A
  | .store _ _ | .write _ _ _ | .turn _ | .crash _ => False

/-- The program returns `r`, and only reads nodes of `A` to that end. -/
def Peeks {α : Type} (A : Set (Address w)) (m : FieldHeap w) (r : α) : Prog w α → Prop
  | .done a => a = r
  | .step c q => c.Reads A ∧ ∃ x, machine separate c m = .ok (x, m) ∧ Peeks A m r (q x)

section Peeks

variable {α β : Type} {A : Set (Address w)} {r : α} {n : Address w} {s : Slot w} {c : Color}

theorem peeks_bind {p : Prog w β} {k : β → Prog w α} {b : β} (hp : Peeks A m b p)
    (hk : Peeks A m r (k b)) : Peeks A m r (p >>= k) := by
  induction p with
  | done a => exact (show a = b from hp) ▸ hk
  | step c q ih =>
    obtain ⟨hc, x, hm, hq⟩ := hp
    exact ⟨hc, x, hm, ih x hq⟩

theorem peeks_loadChild {d : Side} {k : Pointer w → Prog w α} (hn : n ∈ A) :
    Peeks A m r (loadChild d (some n) >>= k) ↔ Peeks A m r (k (m.load (.child d n))) := by
  constructor
  · rintro ⟨-, x, hm, hq⟩
    cases hm
    exact hq
  · intro h
    exact ⟨⟨n, by simp, hn⟩, _, rfl, h⟩

theorem peeks_parent {k : Pointer w → Prog w α} (h : m.link n = linkAt s c) (hn : n ∈ A) :
    Peeks A m r (rbnodeParent (some n) >>= k) ↔ Peeks A m r (k s.holder) := by
  have hm : machine separate (.parent n) m = .ok (s.holder, m) := by
    cases s <;> simp [machine, separate, h, linkAt, treeOf, Slot.holder, Except.map]
  constructor
  · rintro ⟨-, x, hx, hq⟩
    rw [hm] at hx
    cases hx
    exact hq
  · intro h
    exact ⟨hn, _, hm, h⟩

theorem Peeks.exec {p : Prog w α} {k : α → Prog w β} {Q : β → FieldHeap w → ℕ → Prop}
    (h : Peeks A m r p) : Exec M (p >>= k) Q m ↔ Exec M (k r) Q m := by
  induction p with
  | done a => rw [show a = r from h]; rfl
  | step c q ih =>
    obtain ⟨hc, x, hm, hq⟩ := h
    have hstep : Exec M (issue c >>= fun x => q x >>= k) Q m ↔
        M.Allows m.load c ∧ Exec M (q x >>= k) Q m := by
      refine exec_issue hm ?_
      cases c <;> first | rfl | exact hc.elim
    refine hstep.trans ((and_iff_right ?_).trans (ih x hq))
    cases c <;> trivial

/-- On packed words. -/
theorem Peeks.run {p : Prog w α} {h : Heap w} (hp : Peeks A m r p) (hm : Refines m h) :
    ∃ tr, run (machine packed) p h = .ok (r, h, tr) ∧ ∀ c ∈ tr, c.Reads A := by
  induction p with
  | done a => exact ⟨[], by rw [show a = r from hp]; rfl, nofun⟩
  | step c q ih =>
    obtain ⟨hc, x, hx, hq⟩ := hp
    obtain ⟨h', hc', -⟩ := refines_command c m h x m hm hx
    obtain ⟨tr, hrun, htr⟩ := ih x hq
    obtain rfl : h' = h := by
      rcases machine_cases hc' with ⟨s, v, rfl, -⟩ | ⟨n, p, x, l, rfl, -⟩ | ⟨-, rfl⟩
      · exact hc.elim
      · exact hc.elim
      · rfl
    refine ⟨c :: tr, by rw [run_step hc', hrun]; rfl, ?_⟩
    simpa using ⟨hc, htr⟩

end Peeks

/-- Both loops of c_rbnode_leftmost() and c_rbnode_rightmost(). -/
def extremeLoop (d : Side) : ℕ → Pointer w → Prog w (Pointer w)
  | turns, n => do
    if (← loadChild d n).isSome then
      match turns with
      | 0 => crash .endless
      | turns + 1 => extremeLoop d turns (← loadChild d n)
    else
      pure n

theorem leftmostLoop_eq (turns : ℕ) (n : Pointer w) :
    leftmostLoop turns n = extremeLoop .left turns n := by
  induction turns generalizing n with
  | zero => rfl
  | succ turns ih =>
    rw [leftmostLoop, extremeLoop]
    simp only [ih]
    rfl

theorem rightmostLoop_eq (turns : ℕ) (n : Pointer w) :
    rightmostLoop turns n = extremeLoop .right turns n := by
  induction turns generalizing n with
  | zero => rfl
  | succ turns ih =>
    rw [rightmostLoop, extremeLoop]
    simp only [ih]
    rfl

/-- Both loops of c_rbnode_leftdeepest() and c_rbnode_rightdeepest(). -/
def deepestLoop (d : Side) : ℕ → Pointer w → Prog w (Pointer w)
  | turns, n => do
    if (← loadChild d n).isSome then
      match turns with
      | 0 => crash .endless
      | turns + 1 => deepestLoop d turns (← loadChild d n)
    else do
      if (← loadChild d.flip n).isSome then
        match turns with
        | 0 => crash .endless
        | turns + 1 => deepestLoop d turns (← loadChild d.flip n)
      else
        pure n

theorem leftdeepestLoop_eq (turns : ℕ) (n : Pointer w) :
    leftdeepestLoop turns n = deepestLoop .left turns n := by
  induction turns generalizing n with
  | zero => rfl
  | succ turns ih =>
    rw [leftdeepestLoop, deepestLoop]
    simp only [ih]
    rfl

theorem rightdeepestLoop_eq (turns : ℕ) (n : Pointer w) :
    rightdeepestLoop turns n = deepestLoop .right turns n := by
  induction turns generalizing n with
  | zero => rfl
  | succ turns ih =>
    rw [rightdeepestLoop, deepestLoop]
    simp only [ih]
    rfl

/-- `p && n == p->left`, `p && n == p->right` -/
def isChildOf (d : Side) (n p : Pointer w) : Prog w Bool :=
  if p.isSome then do pure (n = (← loadChild d p)) else pure false

/-- Both upward loops of c_rbnode_next() and c_rbnode_prev(). -/
def climbLoop (d : Side) : ℕ → Pointer w → Prog w (Pointer w)
  | turns, n => do
    let p ← rbnodeParent n
    if ← isChildOf d n p then
      match turns with
      | 0 => crash .endless
      | turns + 1 => climbLoop d turns p
    else
      pure p

theorem nextLoop_eq (turns : ℕ) (n : Pointer w) : nextLoop turns n = climbLoop .right turns n := by
  induction turns generalizing n with
  | zero => rfl
  | succ turns ih =>
    rw [nextLoop, climbLoop]
    simp only [ih]
    rfl

theorem prevLoop_eq (turns : ℕ) (n : Pointer w) : prevLoop turns n = climbLoop .left turns n := by
  induction turns generalizing n with
  | zero => rfl
  | succ turns ih =>
    rw [prevLoop, climbLoop]
    simp only [ih]
    rfl

section Loops

variable {A : Set (Address w)}

theorem peeks_extremeLoop {d : Side} {turns : ℕ} {s : Slot w} {t : ColorTree (Address w)}
    (h : TreeAt m s t) (ht : t ≠ .nil) (hA : ∀ a ∈ t.inorder, a ∈ A)
    (hturns : t.height ≤ turns + 1) : Peeks A m (t.extreme d) (extremeLoop d turns t.root?) := by
  induction turns generalizing s t with
  | zero =>
    obtain ⟨c, u, a, v, rfl⟩ := ColorTree.exists_join d ht
    obtain ⟨-, -, hu, -⟩ := treeAt_join.mp h
    have hu' : u = .nil := by
      cases u with
      | nil => rfl
      | node c l b r =>
        simp [ColorTree.height_join, ColorTree.height] at hturns
    subst hu'
    rw [extremeLoop, ColorTree.root?_join, peeks_loadChild (hA a (by simp)), hu.load,
      ColorTree.extreme_join]
    rfl
  | succ turns ih =>
    obtain ⟨c, u, a, v, rfl⟩ := ColorTree.exists_join d ht
    obtain ⟨-, -, hu, -⟩ := treeAt_join.mp h
    rw [extremeLoop, ColorTree.root?_join, peeks_loadChild (hA a (by simp)), hu.load,
      ColorTree.extreme_join]
    by_cases hne : u = .nil
    · subst hne
      rfl
    · obtain ⟨b, hb⟩ := Option.ne_none_iff_exists'.mp (mt ColorTree.root?_eq_none.mp hne)
      obtain ⟨e, he⟩ :=
        Option.ne_none_iff_exists'.mp (mt (ColorTree.extreme_eq_none (d := d)).mp hne)
      rw [ColorTree.height_join] at hturns
      have hdown := ih hu hne (fun x hx => hA x (by simp [hx])) (by omega)
      rw [he] at hdown
      rw [hb, if_pos Option.isSome_some, peeks_loadChild (hA a (by simp)), hu.load, he]
      exact hdown

theorem peeks_deepestLoop {d : Side} {turns : ℕ} {s : Slot w} {t : ColorTree (Address w)}
    (h : TreeAt m s t) (ht : t ≠ .nil) (hA : ∀ a ∈ t.inorder, a ∈ A)
    (hturns : t.height ≤ turns + 1) : Peeks A m (t.deepest d) (deepestLoop d turns t.root?) := by
  induction turns generalizing s t with
  | zero =>
    obtain ⟨c, u, a, v, rfl⟩ := ColorTree.exists_join d ht
    obtain ⟨-, -, hu, hv⟩ := treeAt_join.mp h
    rw [ColorTree.height_join] at hturns
    have hnil : ∀ t : ColorTree (Address w), t.height ≤ 0 → t = .nil := by
      intro t ht
      cases t with
      | nil => rfl
      | node c l b r => simp [ColorTree.height] at ht
    obtain rfl := hnil u (by omega)
    obtain rfl := hnil v (by omega)
    have ha : a ∈ A := hA a (by simp)
    rw [deepestLoop, ColorTree.root?_join, peeks_loadChild ha, hu.load,
      if_neg (by simp [ColorTree.root?]), peeks_loadChild ha, hv.load,
      if_neg (by simp [ColorTree.root?]), ColorTree.deepest_join]
    rfl
  | succ turns ih =>
    obtain ⟨c, u, a, v, rfl⟩ := ColorTree.exists_join d ht
    obtain ⟨-, -, hu, hv⟩ := treeAt_join.mp h
    rw [ColorTree.height_join] at hturns
    have ha : a ∈ A := hA a (by simp)
    have hdown : ∀ (s : Slot w) (t : ColorTree (Address w)), TreeAt m s t → t ≠ .nil →
        (∀ a ∈ t.inorder, a ∈ A) → t.height ≤ turns + 1 →
        (∃ b, t.root? = some b) ∧ (∃ e, t.deepest d = some e) ∧
          Peeks A m (t.deepest d) (deepestLoop d turns t.root?) :=
      fun s t ht hne hA hle => ⟨Option.ne_none_iff_exists'.mp (mt ColorTree.root?_eq_none.mp hne),
        Option.ne_none_iff_exists'.mp (mt ColorTree.deepest_eq_none.mp hne), ih ht hne hA hle⟩
    rw [deepestLoop, ColorTree.root?_join, peeks_loadChild ha, hu.load, ColorTree.deepest_join]
    by_cases hne : u = .nil
    · subst hne
      rw [if_neg (by simp [ColorTree.root?]), peeks_loadChild ha, hv.load]
      by_cases hne' : v = .nil
      · subst hne'
        rfl
      · obtain ⟨⟨b, hb⟩, ⟨e, he⟩, hih⟩ :=
          hdown _ v hv hne' (fun x hx => hA x (by simp [hx])) (by omega)
        rw [hb, if_pos Option.isSome_some, peeks_loadChild ha, hv.load]
        simpa [he, ColorTree.deepest] using hih
    · obtain ⟨⟨b, hb⟩, ⟨e, he⟩, hih⟩ :=
        hdown _ u hu hne (fun x hx => hA x (by simp [hx])) (by omega)
      rw [hb, if_pos Option.isSome_some, peeks_loadChild ha, hu.load]
      simpa [he] using hih

/-- The first ancestor with the hole away from side `d`. -/
def climb (d : Side) : Context (Address w) → Pointer w
  | [] => none
  | f :: ctx => if f.side = d then climb d ctx else some f.label

/-- The first left sibling of an ancestor or of the hole. -/
def leftSibling : Context (Address w) → Pointer w
  | [] => none
  | f :: ctx => if f.side = .right ∧ f.sibling ≠ .nil then f.sibling.root? else leftSibling ctx

section Up

variable {top : Address w} {ctx : Context (Address w)} {t : ColorTree (Address w)} {n : Address w}
  {turns : ℕ}

theorem peeks_climbLoop (d : Side) (h : TreeAt m (.root top) (fill ctx t))
    (hnd : (fill ctx t).inorder.Nodup) (hn : t.root? = some n) (hnA : n ∈ A)
    (hA : ∀ a ∈ elems ctx, a ∈ A) (hturns : ctx.length ≤ turns) :
    Peeks A m (climb d ctx) (climbLoop d turns (some n)) := by
  induction ctx generalizing t n turns with
  | nil =>
    obtain ⟨c, hk, -⟩ := (treeAt_fill.mp h).1.exists_link hn
    cases turns <;>
    · rw [climbLoop, peeks_parent hk hnA]
      rfl
  | cons f ctx ih =>
    obtain ⟨ht, -⟩ := treeAt_fill.mp h
    obtain ⟨c, hk, -⟩ := ht.exists_link hn
    have hload : m.load (.child f.side f.label) = some n := by rw [← hn, ← ht.load]; rfl
    have hne := (treeAt_wrap h).load_flip_ne (nodup_wrap hnd).1 hn
    have hf : f.label ∈ A := hA _ (by simp [elems])
    by_cases hfd : f.side = d
    · subst hfd
      cases turns with
      | zero => simp at hturns
      | succ turns =>
        rw [climbLoop, peeks_parent hk hnA, hole_cons, Slot.holder_child, isChildOf,
          if_pos Option.isSome_some, bind_assoc, peeks_loadChild hf, hload, pure_bind,
          if_pos (by simp), climb, if_pos rfl]
        exact ih h hnd (by simp [Frame.wrap]) hf (fun a ha => hA a (by simp [elems, ha]))
          (by simpa using hturns)
    · obtain hd := Side.eq_flip (Ne.symm hfd)
      rw [← hd] at hne
      cases turns <;>
      · rw [climbLoop, peeks_parent hk hnA, hole_cons, Slot.holder_child, isChildOf,
          if_pos Option.isSome_some, bind_assoc, peeks_loadChild hf, pure_bind,
          if_neg (by simpa using Ne.symm hne), climb, if_neg hfd]
        rfl

theorem peeks_hasOtherLeft {p : Address w} (hp : p ∈ A) :
    Peeks A m (decide (m.load (.left p) ≠ none ∧ m.load (.left p) ≠ some n))
      (hasOtherLeft (some n) (some p)) := by
  unfold hasOtherLeft
  refine (peeks_loadChild (d := .left) hp).mpr ?_
  cases hl : m.load (.child .left p) with
  | none => simp [show m.load (.left p) = none from hl, Peeks]
  | some b =>
    rw [if_pos Option.isSome_some]
    refine (peeks_loadChild (d := .left) hp).mpr ?_
    rw [hl, show m.load (.left p) = some b from hl]
    simp [Peeks, eq_comm]

theorem peeks_prevPostorderLoop (h : TreeAt m (.root top) (fill ctx t))
    (hnd : (fill ctx t).inorder.Nodup) (hn : t.root? = some n) (hnA : n ∈ A)
    (hA : ∀ a ∈ elems ctx, a ∈ A) (hturns : ctx.length ≤ turns) :
    Peeks A m (leftSibling ctx) (prevPostorderLoop turns (some n)) := by
  induction ctx generalizing t n turns with
  | nil =>
    obtain ⟨c, hk, -⟩ := (treeAt_fill.mp h).1.exists_link hn
    cases turns <;>
    · rw [prevPostorderLoop, peeks_parent hk hnA]
      rfl
  | cons f ctx ih =>
    obtain ⟨ht, hctx⟩ := treeAt_fill.mp h
    obtain ⟨c, hk, -⟩ := ht.exists_link hn
    have hne := (treeAt_wrap h).load_flip_ne (nodup_wrap hnd).1 hn
    have hsib := hctx.2.2.1.load
    have hf : f.label ∈ A := hA _ (by simp [elems])
    cases turns with
    | zero => simp at hturns
    | succ turns =>
      have hup := @ih (f.wrap t) f.label turns h hnd (by simp [Frame.wrap]) hf
        (fun a ha => hA a (by simp [elems, ha])) (by simpa using hturns)
      rw [prevPostorderLoop, peeks_parent hk hnA, hole_cons, Slot.holder_child,
        if_pos Option.isSome_some, leftSibling]
      refine peeks_bind (peeks_hasOtherLeft hf) ?_
      obtain ⟨d, cf, p, u⟩ := f
      cases d with
      | left =>
        have hload : m.load (.left p) = some n := by rw [← hn, ← ht.load]; rfl
        rw [if_neg (by simp), if_neg (by simp [hload])]
        exact hup
      | right =>
        have hload : m.load (.left p) = u.root? := hsib
        rw [show Slot.child (Side.flip .right) p = Slot.left p from rfl, hload] at hne
        by_cases hu : u = .nil
        · rw [if_neg (by simp [hu]), if_neg (by simp [hload, hu, ColorTree.root?])]
          exact hup
        · rw [if_pos ⟨rfl, hu⟩, if_pos (by simp [hload, hne, hu]), ← hload]
          exact ⟨⟨p, rfl, hf⟩, _, rfl, rfl⟩

end Up

/-- No tree is higher than there are addresses. -/
theorem height_lt_of_nodup {t : ColorTree (Address w)} (hnd : t.inorder.Nodup) :
    t.height < 2 ^ w := by
  have hlt := nodup_length_lt hnd
  rw [ColorTree.size_eq_length] at hlt
  exact t.height_le_size.trans_lt hlt

section Down

variable {s : Slot w} {t : ColorTree (Address w)} (h : TreeAt m s t) (hnd : t.inorder.Nodup)
  (hA : ∀ a ∈ t.inorder, a ∈ A)
include h hnd hA

theorem peeks_extreme (d : Side) :
    Peeks A m (t.extreme d)
      (if t.root?.isSome then extremeLoop d (2 ^ w) t.root? else pure t.root?) := by
  have hlt := height_lt_of_nodup hnd
  by_cases ht : t = .nil
  · subst ht
    rfl
  · obtain ⟨a, ha⟩ := Option.ne_none_iff_exists'.mp (mt ColorTree.root?_eq_none.mp ht)
    rw [if_pos (by simp [ha])]
    exact peeks_extremeLoop h ht hA (by omega)

theorem peeks_deepest (d : Side) :
    Peeks A m (t.deepest d)
      (if t.root?.isSome then deepestLoop d (2 ^ w) t.root? else pure t.root?) := by
  have hlt := height_lt_of_nodup hnd
  by_cases ht : t = .nil
  · subst ht
    rfl
  · obtain ⟨a, ha⟩ := Option.ne_none_iff_exists'.mp (mt ColorTree.root?_eq_none.mp ht)
    rw [if_pos (by simp [ha])]
    exact peeks_deepestLoop h ht hA (by omega)

theorem peeks_rbnodeLeftmost : Peeks A m (t.extreme .left) (rbnodeLeftmost t.root?) := by
  simpa only [rbnodeLeftmost, leftmostLoop_eq] using peeks_extreme h hnd hA .left

theorem peeks_rbnodeRightmost : Peeks A m (t.extreme .right) (rbnodeRightmost t.root?) := by
  simpa only [rbnodeRightmost, rightmostLoop_eq] using peeks_extreme h hnd hA .right

theorem peeks_rbnodeLeftdeepest : Peeks A m (t.deepest .left) (rbnodeLeftdeepest t.root?) := by
  simpa only [rbnodeLeftdeepest, leftdeepestLoop_eq] using peeks_deepest h hnd hA .left

theorem peeks_rbnodeRightdeepest : Peeks A m (t.deepest .right) (rbnodeRightdeepest t.root?) := by
  simpa only [rbnodeRightdeepest, rightdeepestLoop_eq] using peeks_deepest h hnd hA .right

end Down

theorem exec_rbnodeLeftmost {β : Type} {Q : β → FieldHeap w → ℕ → Prop} {k : Pointer w → Prog w β}
    {s : Slot w} {t : ColorTree (Address w)} (h : TreeAt m s t) (hnd : t.inorder.Nodup) :
    Exec M (rbnodeLeftmost t.root? >>= k) Q m ↔ Exec M (k (t.extreme .left)) Q m :=
  (peeks_rbnodeLeftmost h hnd fun _ => id).exec

end Loops

end CRbtree
