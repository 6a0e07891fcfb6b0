import CRbtree.SafeLoops
import CRbtree.Traversal

set_option autoImplicit false

/-!
The iterator macros of c-rbtree.h whose bodies may dispose of the current node, over nodes
and over the objects that embed them.
-/

namespace CRbtree
open TaggedPointers Programs

variable {w : ℕ}

/-- c_rbnode_entry() for a node at the offset `off` of its object. -/
def rbnodeEntry (off : Word w) (what : Pointer w) : Word w :=
  (if what.word ≠ 0#(w + 2) then what.word else off) - off

/-- `&e->m` -/
def memberOf (off e : Word w) : Pointer w := pointerOf (e + off)

/-- An object that embeds a node at the offset `off`. -/
structure Entry (off : Word w) where
  address : Word w
  nonnull : address ≠ 0#(w + 2)
  node : Address w
  member : node.word = address + off

/-- `e ? c_rbnode_entry(next(&e->m)) : NULL` -/
def entryNext (off : Word w) (next : Pointer w → Prog w (Pointer w)) (e : Word w) :
    Prog w (Word w) :=
  if e ≠ 0#(w + 2) then do pure (rbnodeEntry off (← next (memberOf off e))) else pure 0#(w + 2)

/-- c_rbtree_for_each_safe() -/
def rbtreeForEachSafe (t : Pointer w) : SafeLoop (Command w) Answer (Pointer w) where
  first := rbtreeFirst t
  next := rbnodeNext
  more iter := pure iter.isSome

def rbtreeForEachEntrySafe (off : Word w) (t : Pointer w) :
    SafeLoop (Command w) Answer (Word w) where
  first := do pure (rbnodeEntry off (← rbtreeFirst t))
  next := entryNext off rbnodeNext
  more iter := pure (iter ≠ 0#(w + 2))

def rbtreeForEachSafePostorder (t : Pointer w) : SafeLoop (Command w) Answer (Pointer w) where
  first := rbtreeFirstPostorder t
  next := rbnodeNextPostorder
  more iter := pure iter.isSome

def rbtreeForEachEntrySafePostorder (off : Word w) (t : Pointer w) :
    SafeLoop (Command w) Answer (Word w) where
  first := do pure (rbnodeEntry off (← rbtreeFirstPostorder t))
  next := entryNext off rbnodeNextPostorder
  more iter := pure (iter ≠ 0#(w + 2))

/-- The condition initialises the node, or empties the tree at the end. -/
def rbtreeForEachSafePostorderUnlink (t : Pointer w) : SafeLoop (Command w) Answer (Pointer w) where
  first := rbtreeFirstPostorder t
  next := rbnodeNextPostorder
  more iter :=
    if iter.isSome then do
      rbnodeInit iter
      pure true
    else do
      storeRoot t none
      pure false

def rbtreeForEachEntrySafePostorderUnlink (off : Word w) (t : Pointer w) :
    SafeLoop (Command w) Answer (Word w) where
  first := do pure (rbnodeEntry off (← rbtreeFirstPostorder t))
  next := entryNext off rbnodeNextPostorder
  more iter :=
    if iter ≠ 0#(w + 2) then do
      rbnodeInit (memberOf off iter)
      pure true
    else do
      storeRoot t none
      pure false

namespace Entry

variable {off : Word w}

@[simp] theorem rbnodeEntry_none : rbnodeEntry off none = 0#(w + 2) := by
  simp [rbnodeEntry, Pointer.word]

@[simp] theorem rbnodeEntry_node (e : Entry off) : rbnodeEntry off (some e.node) = e.address := by
  have hne : Pointer.word (some e.node) ≠ 0#(w + 2) := e.node.nonnull
  rw [rbnodeEntry, if_pos hne, Pointer.word, e.member, BitVec.add_sub_cancel]

@[simp] theorem memberOf_address (e : Entry off) : memberOf off e.address = some e.node := by
  rw [memberOf, ← e.member]
  exact pointerOf_word (some e.node)

/-- An entry or NULL, as the macros hold it. -/
def view (off : Word w) (o : Option (Entry off)) : Word w := o.elim 0#(w + 2) Entry.address

end Entry

/-- The loop `L` works on objects as the loop `N` does on their nodes. -/
structure Presents {α ι : Type} (node : α → Address w) (view : Option α → ι)
    (N : SafeLoop (Command w) Answer (Pointer w)) (L : SafeLoop (Command w) Answer ι) : Prop where
  first : ∀ {h : Heap w} {o : Option α} {tr : List (Command w)},
    run (machine packed) N.first h = .ok (o.map node, h, tr) →
      run (machine packed) L.first h = .ok (view o, h, tr)
  next : ∀ {h : Heap w} {o o' : Option α} {tr : List (Command w)},
    run (machine packed) (N.next (o.map node)) h = .ok (o'.map node, h, tr) →
      run (machine packed) (L.next (view o)) h = .ok (view o', h, tr)
  more : ∀ o, L.more (view o) = N.more (o.map node)

theorem presents_node (N : SafeLoop (Command w) Answer (Pointer w)) :
    Presents (fun a => a) (fun o => o) N N where
  first h := by simpa using h
  next h := by simpa using h
  more o := by simp

section Entries

variable {off : Word w} {N : SafeLoop (Command w) Answer (Pointer w)}
  {L : SafeLoop (Command w) Answer (Word w)}

theorem rbnodeEntry_map (o : Option (Entry off)) :
    rbnodeEntry off (o.map Entry.node) = Entry.view off o := by
  cases o with
  | none => exact Entry.rbnodeEntry_none
  | some e => exact e.rbnodeEntry_node

theorem presents_entry (hfirst : L.first = N.first >>= fun i => pure (rbnodeEntry off i))
    (hnext : L.next = entryNext off N.next)
    (hnull : ∀ h, run (machine packed) (N.next none) h = .ok (none, h, []))
    (hmore : ∀ o, L.more (Entry.view off o) = N.more (o.map Entry.node)) :
    Presents Entry.node (Entry.view off) N L where
  first h := by
    rw [hfirst, ← rbnodeEntry_map]
    exact run_bind_pure h _
  next {h o o' tr} hrun := by
    rw [hnext]
    cases o with
    | none =>
      rw [Option.map_none, hnull] at hrun
      simp only [Except.ok.injEq, Prod.mk.injEq, true_and] at hrun
      obtain ⟨ho', rfl⟩ := hrun
      rw [← rbnodeEntry_map o', ← ho', Entry.rbnodeEntry_none]
      rfl
    | some e =>
      rw [entryNext, Entry.view, Option.elim_some, if_pos e.nonnull, e.memberOf_address,
        ← rbnodeEntry_map]
      exact run_bind_pure hrun _
  more := hmore

/-- The entry macros do with entries what the others do with nodes. -/
theorem presents_entrySafe (off : Word w) (t : Pointer w) : Presents Entry.node (Entry.view off)
    (rbtreeForEachSafe t) (rbtreeForEachEntrySafe off t) := by
  refine presents_entry rfl rfl (fun _ => rfl) fun o => ?_
  cases o with
  | none => simp [rbtreeForEachEntrySafe, rbtreeForEachSafe, Entry.view]
  | some e => simp [rbtreeForEachEntrySafe, rbtreeForEachSafe, Entry.view, e.nonnull]

theorem presents_entrySafePostorder (off : Word w) (t : Pointer w) :
    Presents Entry.node (Entry.view off) (rbtreeForEachSafePostorder t)
      (rbtreeForEachEntrySafePostorder off t) := by
  refine presents_entry rfl rfl (fun _ => rfl) fun o => ?_
  cases o with
  | none => simp [rbtreeForEachEntrySafePostorder, rbtreeForEachSafePostorder, Entry.view]
  | some e =>
    simp [rbtreeForEachEntrySafePostorder, rbtreeForEachSafePostorder, Entry.view, e.nonnull]

theorem presents_entrySafePostorderUnlink (off : Word w) (t : Pointer w) :
    Presents Entry.node (Entry.view off) (rbtreeForEachSafePostorderUnlink t)
      (rbtreeForEachEntrySafePostorderUnlink off t) := by
  refine presents_entry rfl rfl (fun _ => rfl) fun o => ?_
  cases o with
  | none =>
    simp [rbtreeForEachEntrySafePostorderUnlink, rbtreeForEachSafePostorderUnlink, Entry.view]
  | some e =>
    simp [rbtreeForEachEntrySafePostorderUnlink, rbtreeForEachSafePostorderUnlink,
      Entry.view, e.nonnull]

end Entries

end CRbtree
