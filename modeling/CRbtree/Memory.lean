import CRbtree.Programs
import CRbtree.TaggedPointers
import CRbtree.PointerGraphs

set_option autoImplicit false

/-!
The objects of the library in memory, and the accesses its code makes to them.
-/

namespace CRbtree
open TaggedPointers

variable {w : ℕ}

/-- C_RBNODE_RED -/
def rbnodeRed : Word w := 1#(w + 2)

/-- C_RBNODE_ROOT -/
def rbnodeRoot : Word w := 2#(w + 2)

/-- C_RBNODE_FLAG_MASK -/
def rbnodeFlagMask : Word w := 3#(w + 2)

/-- A `CRBNode **`: the address of a left or right field or of a tree's root. -/
abbrev Slot (w : ℕ) := PointerGraphs.Slot (Address w) (Address w)

/-- A node whose `__parent_and_flags` is kept as a value of `L`. -/
structure CRBNode (L : Type) (w : ℕ) where
  parentAndFlags : L
  left : Pointer w
  right : Pointer w
  deriving DecidableEq

structure CRBTree (w : ℕ) where
  root : Pointer w

structure Memory (L : Type) (w : ℕ) where
  node : Address w → CRBNode L w
  tree : Address w → CRBTree w

/-- Memory as the C code sees it: parent, colour and root flag share one word. -/
abbrev Heap (w : ℕ) := Memory (Word w) w

namespace Memory

variable {L : Type}

def load (m : Memory L w) : Slot w → Pointer w
  | .left n => (m.node n).left
  | .right n => (m.node n).right
  | .root t => (m.tree t).root

def store (m : Memory L w) (s : Slot w) (v : Pointer w) : Memory L w :=
  match s with
  | .left n => { m with node := Function.update m.node n { m.node n with left := v } }
  | .right n => { m with node := Function.update m.node n { m.node n with right := v } }
  | .root t => { m with tree := Function.update m.tree t ⟨v⟩ }

def link (m : Memory L w) (n : Address w) : L := (m.node n).parentAndFlags

def setLink (m : Memory L w) (n : Address w) (l : L) : Memory L w :=
  { m with node := Function.update m.node n { m.node n with parentAndFlags := l } }

theorem load_store (m : Memory L w) (s : Slot w) (v : Pointer w) :
    (m.store s v).load = Function.update m.load s v := by
  funext s'
  cases s <;> cases s' <;> simp [load, store, Function.update_apply] <;> split <;> simp_all

@[simp] theorem load_store_self (m : Memory L w) (s : Slot w) (v : Pointer w) :
    (m.store s v).load s = v := by
  rw [load_store, Function.update_self]

@[simp] theorem load_store_of_ne (m : Memory L w) {s s' : Slot w} (h : s' ≠ s) (v : Pointer w) :
    (m.store s v).load s' = m.load s' := by
  rw [load_store, Function.update_of_ne h]

@[simp] theorem link_store (m : Memory L w) (s : Slot w) (v : Pointer w) :
    (m.store s v).link = m.link := by
  funext n
  cases s <;> simp [link, store, Function.update_apply] <;> split <;> simp_all

@[simp] theorem load_setLink (m : Memory L w) (n : Address w) (l : L) :
    (m.setLink n l).load = m.load := by
  funext s
  cases s <;> simp [load, setLink, Function.update_apply] <;> split <;> simp_all

theorem link_setLink (m : Memory L w) (n : Address w) (l : L) :
    (m.setLink n l).link = Function.update m.link n l := by
  funext b
  simp only [link, setLink, Function.update_apply]
  split <;> rfl

@[simp] theorem link_setLink_self (m : Memory L w) (n : Address w) (l : L) :
    (m.setLink n l).link n = l := by
  rw [link_setLink, Function.update_self]

@[simp] theorem link_setLink_of_ne (m : Memory L w) {n b : Address w} (h : b ≠ n) (l : L) :
    (m.setLink n l).link b = m.link b := by
  rw [link_setLink, Function.update_of_ne h]

/-- Memory is what its slots and its `__parent_and_flags` fields hold. -/
theorem ext_iff {m m' : Memory L w} : m = m' ↔ m.load = m'.load ∧ m.link = m'.link := by
  refine ⟨fun h => by simp [h], fun ⟨h₁, h₂⟩ => ?_⟩
  obtain ⟨node, tree⟩ := m
  obtain ⟨node', tree'⟩ := m'
  have hn : node = node' := by
    funext n
    have hl := congrFun h₁ (.left n)
    have hr := congrFun h₁ (.right n)
    have hp := congrFun h₂ n
    simp only [load, link] at hl hr hp
    revert hl hr hp
    rcases node n with ⟨a, b, c⟩
    rcases node' n with ⟨a', b', c'⟩
    rintro rfl rfl rfl
    rfl
  have ht : tree = tree' := by
    funext t
    have hr := congrFun h₁ (.root t)
    simp only [load] at hr
    revert hr
    rcases tree t with ⟨a⟩
    rcases tree' t with ⟨a'⟩
    rintro rfl
    rfl
  rw [hn, ht]

@[simp] theorem setLink_store (m : Memory L w) (n : Address w) (l : L) (s : Slot w)
    (v : Pointer w) : (m.setLink n l).store s v = (m.store s v).setLink n l := by
  rw [ext_iff]
  simp [load_store, link_setLink]

theorem setLink_link (m : Memory L w) (n : Address w) : m.setLink n (m.link n) = m := by
  rw [ext_iff]
  simp [link_setLink]

end Memory

/-- Why a run stops short. The last three name what the packed word cannot express or
what it does not hold yet: they arise only where its parts are kept in separate fields. -/
inductive Crash where
  | nullDereference | assertion | endless
  | uninitialised | flagLeak | treeLost
  deriving DecidableEq, Repr

/-- The recolouring loop turns that go on one layer up. -/
inductive Turn where
  | paint | rebalance
  deriving DecidableEq, Repr

inductive Command (w : ℕ) where
  | load (s : Slot w)
  | store (s : Slot w) (v : Pointer w)
  | raw (n : Address w)
  | flags (n : Address w)
  | parent (n : Address w)
  /-- `n->__parent_and_flags = (unsigned long)p | f` -/
  | write (n : Address w) (p : Pointer w) (f : Word w)
  /-- Counts a turn of a loop; no state changes. -/
  | turn (k : Turn)
  | crash (e : Crash)
  deriving DecidableEq

def Answer : Command w → Type
  | .load _ | .raw _ | .parent _ => Pointer w
  | .flags _ => Word w
  | .store _ _ | .write _ _ _ | .turn _ => Unit
  | .crash _ => Empty

/-- How the `__parent_and_flags` field of a node is read and written. -/
structure LinkField (L : Type) (w : ℕ) where
  raw : Address w → L → Except Crash (Pointer w)
  flags : Address w → L → Except Crash (Word w)
  parent : Address w → L → Except Crash (Pointer w)
  write : Address w → Pointer w → Word w → Except Crash L

def machine {L : Type} (f : LinkField L w) : Programs.Machine (Command w) Answer (Memory L w) Crash
  | .load s, m => .ok (m.load s, m)
  | .store s v, m => .ok ((), m.store s v)
  | .raw n, m => (f.raw n (m.link n)).map fun p => (p, m)
  | .flags n, m => (f.flags n (m.link n)).map fun x => (x, m)
  | .parent n, m => (f.parent n (m.link n)).map fun p => (p, m)
  | .write n p x, m => (f.write n p x).map fun l => ((), m.setLink n l)
  | .turn _, m => .ok ((), m)
  | .crash e, _ => .error e

/-- Commands change a slot, a `__parent_and_flags` field, or nothing. -/
theorem machine_cases {L : Type} {f : LinkField L w} {c : Command w} {m m' : Memory L w}
    {r : Answer c} (h : machine f c m = .ok (r, m')) :
    (∃ s v, c = .store s v ∧ m' = m.store s v) ∨
      (∃ n p x l, c = .write n p x ∧ f.write n p x = .ok l ∧ m' = m.setLink n l) ∨
      (∀ s v, c ≠ .store s v) ∧ m' = m := by
  cases c with
  | store s v =>
    simp only [machine, Except.ok.injEq] at h
    obtain ⟨-, rfl⟩ := h
    exact .inl ⟨s, v, rfl, rfl⟩
  | write n p x =>
    simp only [machine] at h
    cases hw : f.write n p x with
    | error e => simp [hw, Except.map] at h
    | ok l =>
      simp only [hw, Except.map, Except.ok.injEq] at h
      obtain ⟨-, rfl⟩ := h
      exact .inr (.inl ⟨n, p, x, l, rfl, hw, rfl⟩)
  | load s | turn k =>
    simp only [machine, Except.ok.injEq] at h
    obtain ⟨-, rfl⟩ := h
    exact .inr (.inr ⟨nofun, rfl⟩)
  | raw n =>
    simp only [machine] at h
    cases hr : f.raw n (m.link n) with
    | error e => simp [hr, Except.map] at h
    | ok p =>
      simp only [hr, Except.map, Except.ok.injEq] at h
      obtain ⟨-, rfl⟩ := h
      exact .inr (.inr ⟨nofun, rfl⟩)
  | flags n =>
    simp only [machine] at h
    cases hr : f.flags n (m.link n) with
    | error e => simp [hr, Except.map] at h
    | ok x =>
      simp only [hr, Except.map, Except.ok.injEq] at h
      obtain ⟨-, rfl⟩ := h
      exact .inr (.inr ⟨nofun, rfl⟩)
  | parent n =>
    simp only [machine] at h
    cases hr : f.parent n (m.link n) with
    | error e => simp [hr, Except.map] at h
    | ok p =>
      simp only [hr, Except.map, Except.ok.injEq] at h
      obtain ⟨-, rfl⟩ := h
      exact .inr (.inr ⟨nofun, rfl⟩)
  | crash e => simp [machine] at h

/-- c_rbnode_raw() -/
def rawOf (x : Word w) : Pointer w := pointerOf x

/-- c_rbnode_flags() -/
def flagsOf (x : Word w) : Word w := x &&& rbnodeFlagMask

/-- c_rbnode_parent() -/
def parentOf (x : Word w) : Pointer w :=
  if x &&& rbnodeRoot ≠ 0#(w + 2) then none else pointerOf x

/-- The one word of the C code. -/
def packed : LinkField (Word w) w where
  raw _ x := .ok (rawOf x)
  flags _ x := .ok (flagsOf x)
  parent _ x := .ok (parentOf x)
  write _ p f := .ok (p.word ||| f)

end CRbtree
