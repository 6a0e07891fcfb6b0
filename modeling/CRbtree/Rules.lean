import CRbtree.SidedSteps
import CRbtree.Layout

set_option autoImplicit false

/-!
Rules to execute the code step by step on separate fields. Along the way every store
must be one that cannot close a loop, and every write must stay in a region.
-/

namespace CRbtree
open RedBlack TaggedPointers PointerGraphs Programs

variable {w : ℕ}

/-- Where an operation may write: child fields of `edges`, `__parent_and_flags` of
`links`, roots of `roots`, and pointers to `members` only. -/
structure Region (w : ℕ) where
  members : Set (Address w)
  edges : Set (Address w)
  links : Set (Address w)
  roots : Set (Address w)

/-- What the stored pointer leads to is finite, in the region, and not the written node. -/
def Harmless (M : Region w) (g : PointerGraphs.Graph (Address w) (Address w)) (s : Slot w)
    (v : Pointer w) : Prop :=
  ∃ t : ColorTree (Address w), Unfolds g v t ∧ s.Off t ∧ ∀ a ∈ t.inorder, a ∈ M.members

/-- The region holds whatever the slot is a part of. -/
def Region.Covers (M : Region w) (s : Slot w) : Prop :=
  (∀ a ∈ s.holder, a ∈ M.edges) ∧ ∀ t ∈ treeOf s, t ∈ M.roots

@[simp] theorem covers_child {M : Region w} {d : Side} {a : Address w} :
    M.Covers (.child d a) ↔ a ∈ M.edges := by
  simp [Region.Covers]

theorem covers_root {M : Region w} {t : Address w} : M.Covers (.root t) ↔ t ∈ M.roots := by
  simp [Region.Covers, Slot.holder, treeOf]

def Region.Allows (M : Region w) (g : PointerGraphs.Graph (Address w) (Address w)) :
    Command w → Prop
  | .store s v => M.Covers s ∧ Harmless M g s v
  | .write n _ _ => n ∈ M.links
  | _ => True

def turnCost : Command w → ℕ
  | .turn .paint => 1
  | .turn .rebalance => 2
  | _ => 0

/-- The program runs to its end, stays in the region, and ends with `Q` of its result,
the memory and the weight of the turns it has made. -/
def Exec {α : Type} (M : Region w) (p : Prog w α) (Q : α → FieldHeap w → ℕ → Prop)
    (m : FieldHeap w) : Prop :=
  wp (machine separate) (fun m c => M.Allows m.load c) turnCost p Q m

section Rules

variable {α β : Type} {M : Region w} {m : FieldHeap w} {Q : β → FieldHeap w → ℕ → Prop}
  {n a b : Address w} {p : Pointer w} {c : Color} {d : Side} {s : Slot w}

theorem exec_mono {p : Prog w α} {Q Q' : α → FieldHeap w → ℕ → Prop}
    (h : ∀ a m n, Q a m n → Q' a m n) (hp : Exec M p Q m) : Exec M p Q' m :=
  wp_mono h hp

theorem exec_bind {p : Prog w α} {k : α → Prog w β} :
    Exec M (p >>= k) Q m ↔
      Exec M p (fun a m' i => Exec M (k a) (fun b m'' j => Q b m'' (i + j)) m') m :=
  wp_bind

theorem exec_pure {r : β} : Exec M (pure r) Q m ↔ Q r m 0 := Iff.rfl

theorem exec_issue {c : Command w} {k : Answer c → Prog w β} {r : Answer c} {m' : FieldHeap w}
    (hm : machine separate c m = .ok (r, m')) (hc : turnCost c = 0) :
    Exec M (issue c >>= k) Q m ↔ M.Allows m.load c ∧ Exec M (k r) Q m' := by
  rw [issue_bind]
  unfold Exec
  simp only [wp, hm, hc, Nat.zero_add]
  constructor
  · rintro ⟨r', m'', h, hg, hk⟩
    cases h
    exact ⟨hg, hk⟩
  · rintro ⟨hg, hk⟩
    exact ⟨r, m', rfl, hg, hk⟩

theorem not_exec_issue {c : Command w} {k : Answer c → Prog w β} {e : Crash}
    (hm : machine separate c m = .error e) : ¬Exec M (issue c >>= k) Q m := by
  rw [issue_bind]
  rintro ⟨r, m', h, -⟩
  rw [hm] at h
  cases h

theorem exec_load {k : Pointer w → Prog w β} :
    Exec M (load s >>= k) Q m ↔ Exec M (k (m.load s)) Q m :=
  (exec_issue (c := .load s) rfl rfl).trans (iff_of_eq (true_and _))

theorem exec_store {k : Unit → Prog w β} :
    Exec M (store s p >>= k) Q m ↔
      M.Allows m.load (.store s p) ∧ Exec M (k ()) Q (m.store s p) :=
  exec_issue (c := .store s p) rfl rfl

/-- The rule for a field that is read: the read must succeed. -/
theorem exec_read {γ : Type} {c : Command w} {x : Except Crash γ} {k : Answer c → Prog w β}
    (f : γ → Answer c) (hm : machine separate c m = x.map fun r => (f r, m))
    (hc : turnCost c = 0) (ha : M.Allows m.load c) :
    Exec M (issue c >>= k) Q m ↔ ∃ r, x = .ok r ∧ Exec M (k (f r)) Q m := by
  cases x with
  | error e => simp [not_exec_issue hm]
  | ok r => simp [exec_issue hm hc, ha]

theorem exec_readRaw {k : Pointer w → Prog w β} :
    Exec M (readRaw n >>= k) Q m ↔
      ∃ p, separate.raw n (m.link n) = .ok p ∧ Exec M (k p) Q m :=
  exec_read (c := .raw n) id rfl rfl trivial

theorem exec_readFlags {k : Word w → Prog w β} :
    Exec M (readFlags n >>= k) Q m ↔
      ∃ f, separate.flags n (m.link n) = .ok f ∧ Exec M (k f) Q m :=
  exec_read (c := .flags n) id rfl rfl trivial

theorem exec_readParent {k : Pointer w → Prog w β} :
    Exec M (readParent n >>= k) Q m ↔
      ∃ p, separate.parent n (m.link n) = .ok p ∧ Exec M (k p) Q m :=
  exec_read (c := .parent n) id rfl rfl trivial

theorem exec_writeLink {k : Unit → Prog w β} {f : Word w} :
    Exec M (writeLink n p f >>= k) Q m ↔ ∃ l, separate.write n p f = .ok l ∧ n ∈ M.links ∧
      Exec M (k ()) Q (m.setLink n l) := by
  cases h : separate.write n p f with
  | error e =>
    have hm : machine separate (.write n p f) m = .error e := by simp [machine, h, Except.map]
    have h' := not_exec_issue (c := .write n p f) (k := k) hm (M := M) (Q := Q)
    exact ⟨fun hx => absurd hx h', by rintro ⟨l, hl, -⟩; cases hl⟩
  | ok l =>
    have hm : machine separate (.write n p f) m = .ok ((), m.setLink n l) := by
      simp [machine, h, Except.map]
    refine (exec_issue (c := .write n p f) hm rfl).trans ⟨fun hx => ⟨l, rfl, hx⟩, ?_⟩
    rintro ⟨l', hl, hx⟩
    cases hl
    exact hx

theorem exec_countTurn {k : Unit → Prog w β} {t : Turn} :
    Exec M (countTurn t >>= k) Q m ↔
      Exec M (k ()) (fun b m' i => Q b m' (turnCost (.turn t : Command w) + i)) m := by
  constructor
  · rintro ⟨r, m', hm, -, h⟩
    simp only [machine, Except.ok.injEq] at hm
    obtain ⟨-, rfl⟩ := hm
    exact h
  · intro h
    exact ⟨(), m, rfl, trivial, h⟩

/-- The last command of a program. -/
theorem exec_last {p : Prog w β} (h : Exec M (p >>= pure) Q m) : Exec M p Q m := by
  rwa [bind_pure] at h

/-- A part that makes no turns, by what it establishes. -/
theorem exec_seq {R : α → FieldHeap w → Prop} {p : Prog w α} {k : α → Prog w β}
    (hp : Exec M p (fun a m' i => R a m' ∧ i = 0) m)
    (hk : ∀ a m', R a m' → Exec M (k a) Q m') : Exec M (p >>= k) Q m := by
  refine exec_bind.mpr (exec_mono ?_ hp)
  rintro a m' i ⟨h, rfl⟩
  simpa only [Nat.zero_add] using hk a m' h

@[simp] theorem whenSet_some {p : Prog w Unit} : whenSet (some n) p = p := rfl

@[simp] theorem whenSet_none {p : Prog w Unit} : whenSet none p = pure () := rfl

theorem exec_assert {k : Unit → Prog w β} {b : Bool} (hb : b = true) :
    Exec M (cAssert b >>= k) Q m ↔ Exec M (k ()) Q m := by
  subst hb
  rfl

theorem exec_flags {k : Word w → Prog w β} {q t : Pointer w} (h : m.link n = .linked q c t) :
    Exec M (rbnodeFlags (some n) >>= k) Q m ↔ Exec M (k (flagWord c t.isSome)) Q m := by
  refine exec_readFlags.trans ?_
  cases t <;> simp [h, separate]

theorem exec_flags_linked {k : Word w → Prog w β} {q : Pointer w}
    (h : m.link n = .linked q c none) :
    Exec M (rbnodeFlags (some n) >>= k) Q m ↔ Exec M (k (flagWord c false)) Q m :=
  exec_flags h

theorem exec_isRed {k : Bool → Prog w β} {q t : Pointer w} (h : m.link n = .linked q c t) :
    Exec M (rbnodeIsRed (some n) >>= k) Q m ↔ Exec M (k (c = .red)) Q m := by
  unfold rbnodeIsRed
  simp only [bind_assoc, pure_bind]
  rw [exec_flags h, flagWord_and_red_bne]

theorem exec_isBlack {k : Bool → Prog w β} {q t : Pointer w} (h : m.link n = .linked q c t) :
    Exec M (rbnodeIsBlack (some n) >>= k) Q m ↔ Exec M (k (c = .black)) Q m := by
  unfold rbnodeIsBlack
  simp only [bind_assoc, pure_bind]
  rw [exec_flags h, flagWord_and_red_bne]
  cases c <;> rfl

theorem exec_isRoot {k : Bool → Prog w β} {q t : Pointer w} (h : m.link n = .linked q c t) :
    Exec M (rbnodeIsRoot (some n) >>= k) Q m ↔ Exec M (k t.isSome) Q m := by
  unfold rbnodeIsRoot
  simp only [bind_assoc, pure_bind]
  rw [exec_flags h, flagWord_and_root_bne]

theorem exec_parent {k : Pointer w → Prog w β} (h : m.link n = linkAt s c) :
    Exec M (rbnodeParent (some n) >>= k) Q m ↔ Exec M (k s.holder) Q m := by
  refine exec_readParent.trans ?_
  cases s <;> simp [h, separate, linkAt, treeOf, Slot.holder]

theorem exec_parent_linked {k : Pointer w → Prog w β} (h : m.link n = .linked p c none) :
    Exec M (rbnodeParent (some n) >>= k) Q m ↔ Exec M (k p) Q m := by
  refine exec_readParent.trans ?_
  simp [h, separate]

/-- What c_rbnode_raw() returns for a node that hangs from the slot. -/
def rawAt (s : Slot w) : Pointer w := (treeOf s).or s.holder

theorem exec_raw {k : Pointer w → Prog w β} (h : m.link n = linkAt s c) :
    Exec M (rbnodeRaw (some n) >>= k) Q m ↔ Exec M (k (rawAt s)) Q m := by
  refine exec_readRaw.trans ?_
  cases s <;> simp [h, separate, linkAt, treeOf, rawAt]

theorem exec_setLink {k : Unit → Prog w β} (hp : p ≠ some n) (hn : n ∈ M.links) :
    Exec M (rbnodeSetParentAndFlags (some n) p (flagWord c false) >>= k) Q m ↔
      Exec M (k ()) Q (m.setLink n (.linked p c none)) := by
  refine exec_writeLink.trans ?_
  simp [separate, decodeFlags_flagWord, hp, hn]

/-- Writes back the parent or tree of a node together with its root flag. -/
theorem exec_setLinkAt {k : Unit → Prog w β} (hs : s.holder ≠ some n) (hn : n ∈ M.links) :
    Exec M (rbnodeSetParentAndFlags (some n) (rawAt s) (flagWord c (treeOf s).isSome) >>= k) Q m ↔
      Exec M (k ()) Q (m.setLink n (linkAt s c)) := by
  cases s with
  | root t =>
    refine exec_writeLink.trans ?_
    simp [separate, decodeFlags_flagWord, hn, rawAt, treeOf, linkAt, Slot.holder]
  | left a => exact exec_setLink hs hn
  | right a => exact exec_setLink hs hn

theorem exec_loadChild {k : Pointer w → Prog w β} :
    Exec M (loadChild d (some n) >>= k) Q m ↔ Exec M (k (m.load (.child d n))) Q m :=
  exec_load

theorem exec_storeChild {k : Unit → Prog w β} (hA : M.Allows m.load (.store (.child d n) p)) :
    Exec M (storeChild d (some n) p >>= k) Q m ↔ Exec M (k ()) Q (m.store (.child d n) p) :=
  exec_store.trans (and_iff_right hA)

section Tests

variable {t : ColorTree (Address w)} {k : Bool → Prog w β}

theorem exec_uncleNotRed (h : TreeAt m (.child d n) t) (ht : p = t.root? ∨ t.isRed = false) :
    Exec M (uncleNotRed (loadChild d) p (some n) >>= k) Q m ↔ Exec M (k true) Q m := by
  unfold uncleNotRed
  rw [bind_assoc, exec_loadChild, h.load]
  by_cases hp : p = t.root?
  · rw [if_pos hp, pure_bind]
  · rw [if_neg hp, bind_assoc, exec_loadChild, h.load]
    cases t with
    | nil => rfl
    | node c l a r =>
      simp only [ColorTree.root?, Option.isNone_some, Bool.false_eq_true, if_false, bind_assoc]
      rw [exec_loadChild, h.load, ColorTree.root?, exec_isBlack h.2.1]
      simp only [hp, false_or] at ht
      cases c <;> simp_all [ColorTree.isRed]

theorem exec_unsetOrNotRed (h : TreeAt m s t) :
    Exec M (unsetOrNotRed t.root? >>= k) Q m ↔ Exec M (k (!t.isRed)) Q m := by
  cases t with
  | nil => rfl
  | node c l a r =>
    simp only [unsetOrNotRed, ColorTree.root?, Option.isNone_some, Bool.false_eq_true, if_false,
      bind_assoc, pure_bind]
    rw [exec_isRed h.2.1, ColorTree.isRed]

theorem exec_unsetOrBlack (h : TreeAt m s t) :
    Exec M (unsetOrBlack t.root? >>= k) Q m ↔ Exec M (k (!t.isRed)) Q m := by
  cases t with
  | nil => rfl
  | node c l a r =>
    simp only [unsetOrBlack, ColorTree.root?, Option.isNone_some, Bool.false_eq_true, if_false]
    rw [exec_isBlack h.2.1, ColorTree.isRed]
    cases c <;> rfl

theorem exec_setAndRed (h : TreeAt m s t) :
    Exec M (setAndRed t.root? >>= k) Q m ↔ Exec M (k t.isRed) Q m := by
  cases t with
  | nil => rfl
  | node c l a r =>
    simp only [setAndRed, ColorTree.root?, Option.isSome_some, if_true]
    rw [exec_isRed h.2.1, ColorTree.isRed]

/-- `x` is the child of `p` on side `d`, and not the other one. -/
theorem exec_otherChild {k : Pointer w → Prog w β} {x : Pointer w} {q : Address w}
    (hx : m.load (.child d q) = x) (hne : m.load (.child d.flip q) ≠ x) :
    Exec M (otherChild x (some q) >>= k) Q m ↔ Exec M (k (m.load (.child d.flip q))) Q m := by
  unfold otherChild
  rw [bind_assoc]
  cases d with
  | left =>
    refine (exec_loadChild (d := .left)).trans ?_
    rw [if_pos hx.symm]
    exact exec_loadChild (d := .right)
  | right =>
    refine (exec_loadChild (d := .left)).trans ?_
    have hne' : x ≠ m.load (.child .left q) := Ne.symm hne
    rw [if_neg hne']
    exact exec_loadChild (d := .left)

end Tests

/-- `c_rbnode_swap_child()` stores to a child slot, and leaves a root alone. -/
def swap (m : FieldHeap w) (s : Slot w) (v : Pointer w) : FieldHeap w :=
  if s.holder.isSome then m.store s v else m

/-- `c_rbnode_push_root()` stores to a root, and leaves a child slot alone. -/
def crown (m : FieldHeap w) (s : Slot w) (v : Pointer w) : FieldHeap w :=
  if s.holder.isSome then m else m.store s v

@[simp] theorem link_swap (v : Pointer w) : (swap m s v).link = m.link := by
  unfold swap
  split <;> simp

@[simp] theorem load_swap_of_ne {s' : Slot w} (h : s' ≠ s) (v : Pointer w) :
    (swap m s v).load s' = m.load s' := by
  unfold swap
  split
  · exact Memory.load_store_of_ne m h v
  · rfl

@[simp] theorem swap_setLink (v : Pointer w) (l : Link w) :
    swap (m.setLink n l) s v = (swap m s v).setLink n l := by
  unfold swap
  split
  · rw [Memory.setLink_store]
  · rfl

@[simp] theorem loose_swap {t : ColorTree (Address w)} (v : Pointer w) (h : Clear s t.inorder) :
    Loose (swap m s v) t ↔ Loose m t := by
  unfold swap
  split
  · exact loose_store h
  · rfl

@[simp] theorem crown_setLink (v : Pointer w) (l : Link w) :
    crown (m.setLink n l) s v = (crown m s v).setLink n l := by
  unfold crown
  split
  · rfl
  · rw [Memory.setLink_store]

@[simp] theorem crown_adopt (t : ColorTree (Address w)) (s' : Slot w) (v : Pointer w) :
    crown (adopt m t s') s v = adopt (crown m s v) t s' := by
  cases t with
  | nil => rfl
  | node c l a r => exact crown_setLink v _

/-- One of the two makes the store. -/
@[simp] theorem crown_swap (v : Pointer w) : crown (swap m s v) s v = m.store s v := by
  unfold crown swap
  split <;> rfl

theorem exec_popRoot {k : Pointer w → Prog w β} (h : m.link a = linkAt s c)
    (hs : s.holder ≠ some a) (ha : a ∈ M.links) :
    Exec M (rbnodePopRoot (some a) >>= k) Q m ↔
      Exec M (k (treeOf s)) Q (m.setLink a (.linked s.holder c none)) := by
  unfold rbnodePopRoot
  rw [bind_assoc, exec_isRoot h]
  cases s with
  | root t =>
    simp only [treeOf, Option.isSome_some, if_true, bind_assoc, pure_bind]
    rw [exec_raw h, exec_flags h, flagWord_clear_root, exec_setLink (by simp) ha]
    rfl
  | left b | right b =>
    have hm := m.setLink_link a
    rw [h] at hm
    simp only [linkAt, treeOf] at hm
    simp [treeOf, hm]

theorem exec_swapChild {k : Unit → Prog w β} (h : m.link a = .linked s.holder c none)
    (hl : m.load s = some a)
    (hr : ∀ d b, s = .child d b → m.load (.child d.flip b) ≠ some a)
    (hA : M.Allows m.load (.store s p)) :
    Exec M (rbnodeSwapChild (some a) p >>= k) Q m ↔ Exec M (k ()) Q (swap m s p) := by
  unfold rbnodeSwapChild
  rw [bind_assoc, exec_parent_linked h]
  cases s with
  | root t => rfl
  | left b =>
    simp only [Slot.holder, whenSet, Option.isSome_some, if_true, bind_assoc]
    refine exec_load.trans ?_
    rw [hl, if_pos rfl]
    exact exec_store.trans (and_iff_right hA)
  | right b =>
    have hr' : m.load (.left b) ≠ some a := hr .right b rfl
    simp only [Slot.holder, whenSet, Option.isSome_some, if_true, bind_assoc]
    refine exec_load.trans ?_
    rw [if_neg hr']
    exact exec_store.trans (and_iff_right hA)

/-- `c_rbnode_swap_child()` at the hole of a context. -/
theorem exec_swapHole {k : Unit → Prog w β} (top : Address w) (ctx : Context (Address w))
    (h : m.link a = .linked (hole (.root top) ctx).holder c none)
    (hl : m.load (hole (.root top) ctx) = some a) (hctx : ContextAt m (.root top) ctx)
    (ha : a ∉ elems ctx) (hA : M.Allows m.load (.store (hole (.root top) ctx) p)) :
    Exec M (rbnodeSwapChild (some a) p >>= k) Q m ↔
      Exec M (k ()) Q (swap m (hole (.root top) ctx) p) :=
  exec_swapChild h hl (fun _ _ hb => hctx.load_flip_ne ha hb) hA

theorem exec_pushRoot {k : Pointer w → Prog w β} (h : m.link b = .linked s.holder c none)
    (hb : b ∈ M.links) (hA : s.holder = none → M.Allows m.load (.store s (some b))) :
    Exec M (rbnodePushRoot (some b) (treeOf s) >>= k) Q m ↔
      Exec M (k none) Q (crown (m.setLink b (linkAt s c)) s (some b)) := by
  unfold rbnodePushRoot
  cases s with
  | root t =>
    simp only [treeOf, whenSet, Option.isSome_some, if_true, bind_assoc, pure_bind]
    rw [exec_flags h, flagWord_set_root]
    refine (exec_setLinkAt (s := .root t) (by simp [Slot.holder]) hb).trans ?_
    refine exec_store.trans (and_iff_right ?_)
    rw [Memory.load_setLink]
    exact hA rfl
  | left d | right d =>
    have hm := m.setLink_link b
    rw [h] at hm
    simp only [Slot.holder] at hm
    simp [treeOf, whenSet, linkAt, crown, Slot.holder, hm]

theorem exec_pushRoot_none {k : Pointer w → Prog w β}
    (hA : s.holder = none → M.Allows m.load (.store s none)) :
    Exec M (rbnodePushRoot none (treeOf s) >>= k) Q m ↔ Exec M (k none) Q (crown m s none) := by
  unfold rbnodePushRoot
  cases s with
  | root t =>
    simp only [treeOf, whenSet, Option.isSome_some, if_true, bind_assoc, pure_bind]
    exact exec_store.trans (and_iff_right (hA rfl))
  | left d | right d => rfl

/-- `if (x) c_rbnode_set_parent_and_flags(x, b, c_rbnode_flags(x));` -/
theorem exec_adopt {k : Unit → Prog w β} {t : ColorTree (Address w)} (d : Side) (h : Loose m t)
    (hb : b ∉ t.inorder) (ht : ∀ a ∈ t.root?, a ∈ M.links) :
    Exec M ((whenSet t.root? do
        rbnodeSetParentAndFlags t.root? (some b) (← rbnodeFlags t.root?)) >>= k) Q m ↔
      Exec M (k ()) Q (adopt m t (.child d b)) := by
  cases t with
  | nil => rfl
  | node c l a r =>
    obtain ⟨⟨q, hq⟩, -⟩ := h
    have hne : b ≠ a := by
      rintro rfl
      exact hb (by simp [ColorTree.inorder])
    simp only [ColorTree.root?, whenSet, Option.isSome_some, if_true, bind_assoc]
    rw [exec_flags hq]
    refine (exec_setLink (by simpa using hne) (ht a rfl)).trans ?_
    rw [adopt, linkAt_child]

theorem exec_adopt_some {k : Unit → Prog w β} {t : ColorTree (Address w)} {v : Address w} (d : Side)
    (h : Loose m t) (hv : t.root? = some v) (hb : b ∉ t.inorder) (ht : v ∈ M.links) :
    Exec M (rbnodeFlags (some v) >>= fun f => rbnodeSetParentAndFlags (some v) (some b) f >>= k)
        Q m ↔ Exec M (k ()) Q (adopt m t (.child d b)) := by
  have h' := exec_adopt (M := M) (k := k) (Q := Q) d h hb (by simpa [hv] using ht)
  simpa only [hv, whenSet_some, bind_assoc] using h'

/-- `if (x) c_rbnode_set_parent_and_flags(x, b, c_rbnode_flags(x) & ~C_RBNODE_RED);` -/
theorem exec_adopt_black {k : Unit → Prog w β} {t : ColorTree (Address w)} (d : Side)
    (h : Loose m t) (hb : b ∉ t.inorder) (ht : ∀ a ∈ t.root?, a ∈ M.links) :
    Exec M ((whenSet t.root? do
        rbnodeSetParentAndFlags t.root? (some b)
          ((← rbnodeFlags t.root?) &&& ~~~rbnodeRed)) >>= k) Q m ↔
      Exec M (k ()) Q (adopt m (t.paint .black) (.child d b)) := by
  cases t with
  | nil => rfl
  | node c l a r =>
    obtain ⟨⟨q, hq⟩, -⟩ := h
    have hne : b ≠ a := by
      rintro rfl
      exact hb (by simp [ColorTree.inorder])
    simp only [ColorTree.root?, whenSet, Option.isSome_some, if_true, bind_assoc]
    rw [exec_flags hq, flagWord_clear_red]
    refine (exec_setLink (by simpa using hne) (ht a rfl)).trans ?_
    rw [ColorTree.paint, adopt, linkAt_child]

theorem exec_adopt_black_some {k : Unit → Prog w β} {t : ColorTree (Address w)} {v : Address w}
    (d : Side) (h : Loose m t) (hv : t.root? = some v) (hb : b ∉ t.inorder) (ht : v ∈ M.links) :
    Exec M (rbnodeFlags (some v) >>= fun f =>
        rbnodeSetParentAndFlags (some v) (some b) (f &&& ~~~rbnodeRed) >>= k) Q m ↔
      Exec M (k ()) Q (adopt m (t.paint .black) (.child d b)) := by
  have h' := exec_adopt_black (M := M) (k := k) (Q := Q) d h hb (by simpa [hv] using ht)
  simpa only [hv, whenSet_some, bind_assoc] using h'

theorem exec_loadLeft {k : Pointer w → Prog w β} :
    Exec M (loadLeft (some n) >>= k) Q m ↔ Exec M (k (m.load (.child .left n))) Q m :=
  exec_load

theorem exec_loadRight {k : Pointer w → Prog w β} :
    Exec M (loadRight (some n) >>= k) Q m ↔ Exec M (k (m.load (.child .right n))) Q m :=
  exec_load

theorem exec_storeLeft {k : Unit → Prog w β}
    (hA : M.Allows m.load (.store (.child .left n) p)) :
    Exec M (storeLeft (some n) p >>= k) Q m ↔ Exec M (k ()) Q (m.store (.child .left n) p) :=
  exec_storeChild hA

theorem exec_storeRight {k : Unit → Prog w β}
    (hA : M.Allows m.load (.store (.child .right n) p)) :
    Exec M (storeRight (some n) p >>= k) Q m ↔ Exec M (k ()) Q (m.store (.child .right n) p) :=
  exec_storeChild hA

section Turn

variable {q r : Address w} {a b u : ColorTree (Address w)} (h : Turnable m.load d q r a b u)
  (hM : ∀ x ∈ (ColorTree.join d .black (.join d .black a r b) q u).inorder, x ∈ M.members)
include h hM

theorem allows_lower (hq : q ∈ M.edges) : M.Allows m.load (.store (.child d q) b.root?) := by
  have hnd := h.nodup
  simp only [ColorTree.nodup_join, ColorTree.mem_join, not_or] at hnd
  refine ⟨covers_child.mpr hq, b, h.inner, by simpa using hnd.1.2.2, fun x hx => hM x ?_⟩
  simp [ColorTree.mem_join, hx]

theorem allows_upper (hr : r ∈ M.edges) :
    M.Allows (m.store (.child d q) b.root?).load (.store (.child d.flip r) (some q)) := by
  have hnd := h.nodup
  simp only [ColorTree.nodup_join, ColorTree.mem_join, not_or, ColorTree.disjoint_join_left] at hnd
  refine ⟨covers_child.mpr hr, .join d .black b q u, ?_, ?_, fun x hx => hM x ?_⟩
  · rw [Memory.load_store]
    exact h.lower .black
  · obtain ⟨⟨hqr, -⟩, -, ⟨-, hrb, -⟩, -, hru, -⟩ := hnd
    simpa [ColorTree.mem_join] using ⟨Ne.symm hqr, hrb, hru⟩
  · simp only [ColorTree.mem_join] at hx ⊢
    tauto

/-- The slot above a turned edge may take its lower node. -/
theorem allows_above (hs : M.Covers s)
    (hc : Clear s (ColorTree.join d .black (.join d .black a r b) q u).inorder) :
    M.Allows ((m.store (.child d q) b.root?).store (.child d.flip r) (some q)).load
      (.store s (some r)) := by
  rw [ColorTree.inorder_turn d _ _ .black .black] at hc hM
  refine ⟨hs, .join d .black a r (.join d .black b q u), ?_, hc, hM⟩
  rw [Memory.load_store, Memory.load_store]
  exact h.upper .black .black

end Turn

end Rules

end CRbtree
