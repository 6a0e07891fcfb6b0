import CRbtree.Orders

set_option autoImplicit false

/-!
A cursor that steps through a list while elements are added and removed around it: what
stays in the list all the time is met once and in order.
-/

namespace Cursors
open RedBlack

variable {α : Type} {a b : α} {l l' xs ys all stay seen : List α}

/-- What has been seen and what is still ahead. -/
def Ahead (all seen : List α) (a : α) (l : List α) : Prop :=
  ∃ xs ys, l = xs ++ a :: ys ∧ (seen ++ a :: ys).Sublist all

/-- What has been seen at the cursor, if there is one, and at the end. -/
def AheadOrEnd (all seen : List α) (o : Option α) (l : List α) : Prop :=
  o.elim (seen.Sublist all) fun a => Ahead all seen a l

theorem Ahead.next (h : Ahead all seen a l) (hn : l.Nodup) (hl : l = xs ++ a :: ys) :
    AheadOrEnd all (seen ++ [a]) ys.head? l := by
  obtain ⟨xs', ys', hxy, hall⟩ := h
  obtain ⟨-, rfl⟩ := split_unique (hl ▸ hn) (hl.symm.trans hxy)
  cases ys with
  | nil => exact hall
  | cons b ys => exact ⟨xs ++ [a], ys, by simp [hl], by simpa using hall⟩

variable [DecidableEq α]

/-- What is in both lists is in the same order in both. -/
def Agree (l l' : List α) : Prop := l.filter (· ∈ l') = l'.filter (· ∈ l)

theorem Agree.erase (hn : l.Nodup) (b : α) : Agree l (l.erase b) := by
  rw [Agree, hn.erase_eq_filter, List.filter_filter]
  refine List.filter_congr fun x hx => ?_
  by_cases hb : x = b <;> simp [hx, hb]

theorem Agree.insert (hb : b ∉ l) (hl : l = xs ++ ys) (hl' : l' = xs ++ b :: ys) :
    Agree l l' := by
  subst hl hl'
  have hold : (xs ++ ys).filter (· ∈ xs ++ b :: ys) = xs ++ ys := by
    refine List.filter_eq_self.mpr fun x hx => ?_
    rcases List.mem_append.mp hx with hx | hx <;> simp [hx]
  have hxs : xs.filter (· ∈ xs ++ ys) = xs := List.filter_eq_self.mpr fun x hx => by simp [hx]
  have hys : ys.filter (· ∈ xs ++ ys) = ys := List.filter_eq_self.mpr fun x hx => by simp [hx]
  rw [Agree, hold, List.filter_append, List.filter_cons_of_neg (by simpa using hb), hxs, hys]

/-- The lists up to an element that is in both, without what is only in one. -/
theorem Agree.split (h : Agree l l') (hn : l.Nodup) (hl : l = xs ++ a :: ys) (ha : a ∈ l') :
    ∃ xs' ys', l' = xs' ++ a :: ys' ∧ xs.filter (· ∈ l') = xs'.filter (· ∈ l) ∧
      ys.filter (· ∈ l') = ys'.filter (· ∈ l) := by
  obtain ⟨xs', ys', hl'⟩ := List.append_of_mem ha
  have hal : a ∈ l := by simp [hl]
  have hl₁ : l.filter (· ∈ l') = xs.filter (· ∈ l') ++ a :: ys.filter (· ∈ l') := by
    conv_lhs => rw [hl]
    simp [ha]
  have hl₂ : l'.filter (· ∈ l) = xs'.filter (· ∈ l) ++ a :: ys'.filter (· ∈ l) := by
    conv_lhs => rw [hl']
    simp [hal]
  have hnd := hn.filter (· ∈ l')
  rw [hl₁] at hnd
  exact ⟨xs', ys', hl', split_unique hnd (hl₁.symm.trans (h.trans hl₂))⟩

/-- The cursor stands at `a` in `l`, behind exactly those elements of `stay` that have been
seen. -/
structure At (stay seen : List α) (a : α) (l : List α) : Prop where
  split : ∃ xs ys, l = xs ++ a :: ys ∧ xs.filter (· ∈ stay) = seen.filter (· ∈ stay)
  stay : l.filter (· ∈ stay) = stay

/-- Behind the last element, all of `stay` has been seen. -/
def AtOrEnd (stay seen : List α) (o : Option α) (l : List α) : Prop :=
  o.elim (seen.filter (· ∈ stay) = stay) fun a => At stay seen a l

/-- Before the first turn. -/
theorem AtOrEnd.start (l : List α) : AtOrEnd l [] l.head? l := by
  cases l with
  | nil => rfl
  | cons a ys => exact ⟨⟨[], ys, rfl, rfl⟩, List.filter_eq_self.mpr fun b hb => by simpa using hb⟩

/-- The list changes around the cursor. -/
theorem At.change (h : At stay seen a l) (hn : l.Nodup) (hl : Agree l l') (ha : a ∈ l') :
    At (stay.filter (· ∈ l')) seen a l' := by
  obtain ⟨⟨xs, ys, hxy, hseen⟩, hstay⟩ := h
  obtain ⟨xs', ys', hl', hxs, -⟩ := hl.split hn hxy ha
  have hsub : ∀ x ∈ stay, x ∈ l := fun x hx => by
    rw [← hstay] at hx
    exact List.mem_of_mem_filter hx
  have hswap : ∀ zs : List α, zs.filter (· ∈ stay.filter (· ∈ l')) =
      (zs.filter (· ∈ stay)).filter (· ∈ l') := by
    intro zs
    rw [List.filter_filter]
    refine List.filter_congr fun x _ => ?_
    simp [and_comm]
  have hcomm : ∀ (zs : List α) (p q : α → Bool),
      (zs.filter p).filter q = (zs.filter q).filter p := by
    intro zs p q
    simp only [List.filter_filter, Bool.and_comm]
  have hback : ∀ zs : List α, (∀ x ∈ zs, x ∈ l') → (zs.filter (· ∈ l)).filter (· ∈ stay) =
      (zs.filter (· ∈ stay)).filter (· ∈ l') := by
    intro zs hzs
    rw [List.filter_filter, List.filter_filter]
    refine List.filter_congr fun x hx => ?_
    have hxl := hzs x hx
    by_cases hst : x ∈ stay
    · simp [hst, hsub x hst, hxl]
    · simp [hst]
  refine ⟨⟨xs', ys', hl', ?_⟩, ?_⟩
  · calc xs'.filter (· ∈ stay.filter (· ∈ l'))
        = (xs'.filter (· ∈ stay)).filter (· ∈ l') := hswap xs'
      _ = (xs'.filter (· ∈ l)).filter (· ∈ stay) :=
        (hback xs' fun x hx => by simp [hl', hx]).symm
      _ = (xs.filter (· ∈ stay)).filter (· ∈ l') := by rw [← hxs, hcomm]
      _ = seen.filter (· ∈ stay.filter (· ∈ l')) := by rw [hseen, hswap]
  · calc l'.filter (· ∈ stay.filter (· ∈ l'))
        = (l'.filter (· ∈ stay)).filter (· ∈ l') := hswap l'
      _ = (l'.filter (· ∈ l)).filter (· ∈ stay) := (hback l' fun x hx => hx).symm
      _ = (l.filter (· ∈ stay)).filter (· ∈ l') := by rw [← hl, hcomm]
      _ = stay.filter (· ∈ l') := by rw [hstay]

theorem At.next (h : At stay seen a l) (hn : l.Nodup) (hl : l = xs ++ a :: ys) :
    AtOrEnd stay (seen ++ [a]) ys.head? l := by
  obtain ⟨⟨xs', ys', hxy, hseen⟩, hstay⟩ := h
  obtain ⟨rfl, -⟩ := split_unique (hl ▸ hn) (hl.symm.trans hxy)
  have hfilter : (seen ++ [a]).filter (· ∈ stay) = (xs ++ [a]).filter (· ∈ stay) := by
    rw [List.filter_append, List.filter_append, hseen]
  cases ys with
  | nil => exact hfilter.trans (hl ▸ hstay)
  | cons b ys => exact ⟨⟨xs ++ [a], ys, by simp [hl], hfilter.symm⟩, hstay⟩

/-- Elements are only taken away. -/
theorem Ahead.change (h : Ahead all seen a l) (hn : l.Nodup) (hl : Agree l l') (ha : a ∈ l')
    (hsub : l' ⊆ l) : Ahead all seen a l' := by
  obtain ⟨xs, ys, hxy, hall⟩ := h
  obtain ⟨xs', ys', hl', -, hys⟩ := hl.split hn hxy ha
  have hself : ys'.filter (· ∈ l) = ys' := by
    refine List.filter_eq_self.mpr fun x hx => ?_
    simpa using hsub (show x ∈ l' by simp [hl', hx])
  refine ⟨xs', ys', hl', List.Sublist.trans ?_ hall⟩
  rw [← hself, ← hys]
  exact (List.filter_sublist.cons_cons a).append_left seen

end Cursors
