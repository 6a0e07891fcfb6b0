import CRbtree.Maps
import CRbtree.StableLists
import CRbtree.Traversing

set_option autoImplicit false

/-!
Trees with equal keys, filled by the insertion that is documented at c_rbtree_add().
-/

namespace CRbtree
open RedBlack TaggedPointers PointerGraphs Programs

variable {κ : Type} {w : ℕ}

/-- The loop of the documented insertion: returns `i` and `p`. -/
def insertionLoop (compare : Pointer w → Pointer w → ℤ) (n : Pointer w) :
    ℕ → Slot w → Pointer w → Prog w (Slot w × Pointer w)
  | turns, i, p => do
    if (← load i).isSome then
      match turns with
      | 0 => crash .endless
      | turns + 1 => do
        let p ← load i
        if compare n (← load i) < 0 then
          insertionLoop compare n turns (.left (← deref (← load i))) p
        else
          insertionLoop compare n turns (.right (← deref (← load i))) p
    else
      pure (i, p)

/-- The documented insertion of `n` into `t`. -/
def insertion (turns : ℕ) (compare : Pointer w → Pointer w → ℤ) (t n : Pointer w) :
    Prog w Unit := do
  let i := .root (← deref t)
  let p := none
  let (i, p) ← insertionLoop compare n turns i p
  rbtreeAdd t p (some i) n

/-- The runs of such insertions and of c_rbnode_unlink() on a tree that was empty, and the
members in the order of their insertion. -/
inductive DuplicateRun (compare : Pointer w → Pointer w → ℤ) (t : Address w) :
    Heap w → List (Address w) → Prop
  | start {h : Heap w} (ht : h.load (.root t) = none) : DuplicateRun compare t h []
  | insert {h h' : Heap w} {born : List (Address w)} {n : Address w} {tr : List (Command w)}
      (hr : DuplicateRun compare t h born) (hn : n ∉ born)
      (hinsert : run (machine packed) (insertion (2 ^ w) compare (some t) (some n)) h =
        .ok ((), h', tr)) :
      DuplicateRun compare t h' (born ++ [n])
  | unlink {h h' : Heap w} {born : List (Address w)} {n : Address w} {tr : List (Command w)}
      (hr : DuplicateRun compare t h born) (hn : n ∈ born)
      (hunlink : run (machine packed) (rbnodeUnlink (some n)) h = .ok ((), h', tr)) :
      DuplicateRun compare t h' (born.erase n)

section Loop

variable {M : Region w} {m : FieldHeap w} {β : Type} {Q : β → FieldHeap w → ℕ → Prop}
  {compare : Pointer w → Pointer w → ℤ} {n : Pointer w} {top : Slot w} {ctx : Context (Address w)}
  {T : ColorTree (Address w)} {turns : ℕ}

/-- The hole where the loop ends. -/
def endOf (compare : Pointer w → Pointer w → ℤ) (n : Pointer w) (ctx : Context (Address w))
    (T : ColorTree (Address w)) : Context (Address w) :=
  (search (upper fun a => compare n (some a)) ctx T).1

theorem exec_insertionLoop {q : Slot w × Pointer w → Prog w β} (h : TreeAt m (hole top ctx) T)
    (hturns : T.height ≤ turns) :
    Exec M (insertionLoop compare n turns (hole top ctx) (hole top ctx).holder >>= q) Q m ↔
      Exec M (q (hole top (endOf compare n ctx T),
        (hole top (endOf compare n ctx T)).holder)) Q m := by
  have hload := h.load
  induction T generalizing turns ctx with
  | nil =>
    cases turns <;>
    · rw [insertionLoop, bind_assoc, exec_load, hload, if_neg (by simp [ColorTree.root?])]
      rfl
  | node c l a r ihl ihr =>
    obtain ⟨-, -, hl, hr⟩ := h
    simp only [ColorTree.height] at hturns
    obtain ⟨turns, rfl⟩ := Nat.exists_eq_add_one_of_ne_zero (show turns ≠ 0 by omega)
    rw [insertionLoop, bind_assoc, exec_load, hload, ColorTree.root?,
      if_pos Option.isSome_some, endOf, search]
    simp only [bind_assoc, upper_neg]
    rw [exec_load, exec_load, hload, ColorTree.root?]
    split
    · rw [bind_assoc, exec_load, hload]
      exact @ihl (⟨.left, c, a, r⟩ :: ctx) turns hl (by omega) hl.load
    · rename_i hneg
      have hpos : upper (fun b => compare n (some b)) a > 0 := upper_pos.mpr hneg
      rw [if_pos hpos, bind_assoc, exec_load, hload]
      exact @ihr (⟨.right, c, a, l⟩ :: ctx) turns hr (by omega) hr.load

end Loop

/-- The tree `t` with the list `l`, and no other tree. -/
def only (t : Address w) (l : List (Address w)) : Sequences w :=
  Function.update (fun _ => none) t (some l)

@[simp] theorem only_self (t : Address w) (l : List (Address w)) : only t l t = some l :=
  Function.update_self ..

@[simp] theorem update_only (t : Address w) (l l' : List (Address w)) :
    Function.update (only t l) t (some l') = only t l' :=
  Function.update_idem ..

theorem linked_only {t n : Address w} {l : List (Address w)} : Linked (only t l) n ↔ n ∈ l := by
  refine ⟨fun ⟨t', l', hl', hn⟩ => ?_, fun hn => ⟨t, l, only_self t l, hn⟩⟩
  by_cases ht : t' = t
  · subst ht
    rw [only_self, Option.some.injEq] at hl'
    rwa [hl']
  · rw [only, Function.update_of_ne ht] at hl'
    cases hl'

/-- The memory has been reached by legal calls, and `t` is its only tree. -/
def Sole (t : Address w) (h : Heap w) (l : List (Address w)) : Prop :=
  ∃ h₀ cs tr, Run packed h₀ cs tr h (only t l)

namespace Sole

variable {t n : Address w} {h : Heap w} {l : List (Address w)}

theorem start (ht : h.load (.root t) = none) : Sole t h [] := by
  have hstore : h.store (.root t) none = h := by
    rw [Memory.ext_iff, Memory.load_store, Memory.link_store, ← ht]
    exact ⟨Function.update_eq_self _ _, rfl⟩
  have hr : Run packed h ([] ++ [.treeInit t]) ([] ++ [.store (.root t) none])
      (h.store (.root t) none) _ :=
    .call (c := .treeInit t) .start nofun rfl
  rw [hstore] at hr
  exact ⟨h, _, _, hr⟩

/-- The forest is one red-black tree. -/
theorem holds (hs : Sole t h l) : ∃ m, ∃ F : Forest w, ∃ K T, Refines m h ∧ Holds m F K ∧
    F.sequences = only t l ∧ F.tree t = some T ∧ T.inorder = l := by
  obtain ⟨h₀, cs, tr, hr⟩ := hs
  obtain ⟨m, F, -, hm, hseq, hh, -⟩ := hr.holds
  obtain ⟨T, hT, hl, -⟩ := hh.mem_iff (show F.sequences t = some l by rw [hseq, only_self])
  exact ⟨m, F, _, T, hm, hh, hseq, hT, hl⟩

theorem nodup (hs : Sole t h l) : l.Nodup := by
  obtain ⟨-, F, -, T, -, -, -, hT, rfl⟩ := hs.holds
  exact F.nodup t T hT

/-- A legal call that changes the tree leaves it the only one. -/
theorem call (hs : Sole t h l) {c : Call w} (hc : c.Legal (only t l) h.load) {l' : List (Address w)}
    (hl : c.after (only t l) = only t l') :
    ∃ h' tr, run (machine packed) c.code h = .ok ((), h', tr) ∧ Sole t h' l' := by
  obtain ⟨h₀, cs, tr, hr⟩ := hs
  obtain ⟨h', tr', hrun, hr'⟩ := hr.exists_call hc
  exact ⟨h', tr', hrun, h₀, _, _, hl ▸ hr'⟩

/-- The documented insertion puts a new node where its loop ends. -/
theorem insert (hs : Sole t h l) (compare : Pointer w → Pointer w → ℤ) (hn : n ∉ l) :
    ∃ T h' tr, T.inorder = l ∧
      run (machine packed) (insertion (2 ^ w) compare (some t) (some n)) h = .ok ((), h', tr) ∧
      Sole t h' (before (endOf compare (some n) [] T) ++
        n :: after (endOf compare (some n) [] T)) := by
  obtain ⟨m, F, _, T, hm, hh, hseq, hT, rfl⟩ := hs.holds
  have hturns := (height_lt_of_nodup (F.nodup t T hT)).le
  have hloop : Exec nowhere (insertionLoop compare (some n) (2 ^ w) (.root t) none) (fun x _ _ =>
      x = (hole (.root t) (endOf compare (some n) [] T),
        (hole (.root t) (endOf compare (some n) [] T)).holder)) m :=
    exec_last ((@exec_insertionLoop _ _ _ _ _ _ _ (.root t) [] _ _ _ (hh.tree t T hT)
      hturns).mpr rfl)
  obtain ⟨_, tr₁, -, hrun₁, rfl⟩ := hloop.reads hm
  have hfill := fill_search (upper fun a => compare (some n) (some a)) [] T
  rw [fill_nil, search_upper] at hfill
  have hT' := hT
  rw [← hfill] at hT'
  have hlegal := hh.legal_hole hT' (n := n) (by rwa [hseq, linked_only])
  obtain ⟨k, hchange⟩ := Change.hole t (endOf compare (some n) [] T) n
  have hafter := hchange.after hT'
  rw [hseq, update_only, inorder_insertAt] at hafter
  rw [hseq, hm.1] at hlegal
  obtain ⟨h', tr₂, hrun₂, hs'⟩ := hs.call hlegal hafter
  have hcode : insertion (2 ^ w) compare (some t) (some n) =
      insertionLoop compare (some n) (2 ^ w) (.root t) none >>= fun x =>
        rbtreeAdd (some t) x.2 (some x.1) (some n) := rfl
  exact ⟨T, h', _, rfl, hcode ▸ run_bind hrun₁ hrun₂, hs'⟩

theorem unlink (hs : Sole t h l) (hn : n ∈ l) :
    ∃ h' tr, run (machine packed) (rbnodeUnlink (some n)) h = .ok ((), h', tr) ∧
      Sole t h' (l.erase n) := by
  obtain ⟨m, F, -, T, -, -, hseq, hT, rfl⟩ := hs.holds
  obtain ⟨ctx, c, a, b, rfl⟩ := exists_fill_of_mem hn
  have hchange := Change.unlink (t := t) ctx c a n b
  have hafter := hchange.after hT
  rw [hseq, update_only, hchange.inorder (F.redBlack t _ hT) (F.nodup t _ hT)] at hafter
  exact hs.call (c := .unlink n) (linked_only.mpr hn) hafter

/-- The node search returns NULL exactly if nothing compares equal. -/
theorem find (hs : Sole t h l) {f : CRBCompareFunc κ w} {k : κ}
    (hfall : Falling (fun a => f (some t) k (some a)) l) :
    ∃ q, Returns h (rbtreeFindNode (2 ^ w) f (some t) k) q ∧
      (q = none ↔ ∀ a ∈ l, f (some t) k (some a) ≠ 0) ∧
      ∀ a, q = some a → a ∈ l ∧ f (some t) k (some a) = 0 := by
  obtain ⟨m, F, _, T, hm, hh, -, hT, rfl⟩ := hs.holds
  have hturns := (height_lt_of_nodup (F.nodup t T hT)).le
  refine ⟨_, run_findNode hm (hh.tree t T hT) hturns f k, search_eq_none hfall, fun a ha => ?_⟩
  exact ⟨mem_of_search ha, search_eq_zero (v := fun a => f (some t) k (some a)) ha⟩

end Sole

section Runs

variable [Preorder κ] [Std.Total (α := κ) (· ≤ ·)] {compare : Pointer w → Pointer w → ℤ}
  {f : CRBCompareFunc κ w} {key : Address w → κ} {t : Address w} {h : Heap w}
  {born : List (Address w)}

theorem DuplicateRun.stable (hc : ∀ n, Ranks (fun a => compare (some n) (some a)) key (key n))
    (hr : DuplicateRun compare t h born) : ∃ l, Sole t h l ∧ Stable key born l := by
  induction hr with
  | start ht => exact ⟨[], .start ht, .nil⟩
  | @insert h h' born n tr hr hn hinsert ih =>
    obtain ⟨l, hs, hst⟩ := ih
    obtain ⟨T, h'', tr', rfl, hinsert', hs'⟩ :=
      hs.insert compare fun hl => hn (hst.perm.mem_iff.mp hl)
    rw [hinsert] at hinsert'
    cases hinsert'
    exact ⟨_, hs', hst.insert_search (hc n)⟩
  | @unlink h h' born n tr hr hn hunlink ih =>
    obtain ⟨l, hs, hst⟩ := ih
    obtain ⟨h'', tr', hunlink', hs'⟩ := hs.unlink (hst.perm.mem_iff.mpr hn)
    rw [hunlink] at hunlink'
    cases hunlink'
    exact ⟨_, hs', hst.erase hs.nodup⟩

theorem DuplicateRun.exists_insertAll
    (hc : ∀ n, Ranks (fun a => compare (some n) (some a)) key (key n)) (ns : List (Address w))
    (hnd : ns.Nodup) (hr : DuplicateRun compare t h born) (hn : ∀ n ∈ ns, n ∉ born) :
    ∃ h', DuplicateRun compare t h' (born ++ ns) := by
  induction ns generalizing h born with
  | nil => exact ⟨h, by rwa [List.append_nil]⟩
  | cons n ns ih =>
    rw [List.nodup_cons] at hnd
    obtain ⟨l, hs, hst⟩ := hr.stable hc
    have hborn : n ∉ born := hn n (by simp)
    obtain ⟨T, h', tr, -, hinsert, -⟩ := hs.insert compare fun hl => hborn (hst.perm.mem_iff.mp hl)
    obtain ⟨h'', hr'⟩ := ih hnd.2 (hr.insert hborn hinsert) fun a ha => by
      rw [List.mem_append, List.mem_singleton, not_or]
      exact ⟨hn a (List.mem_cons_of_mem n ha), fun he => hnd.1 (he ▸ ha)⟩
    exact ⟨h'', by rwa [List.append_assoc] at hr'⟩

/-- Every such run keeps the tree sorted and stable, and searchable by any comparator of the
same keys; and it can go on. -/
theorem duplicates_stable (hc : ∀ n, Ranks (fun a => compare (some n) (some a)) key (key n))
    (hf : ∀ t k, Ranks (fun a => f t k (some a)) key k) (hr : DuplicateRun compare t h born) :
    (∃ l, InOrder h.load (h.load (.root t)) l ∧ Stable key born l) ∧
      (∀ k, ∃ q, Returns h (rbtreeFindNode (2 ^ w) f (some t) k) q ∧
        (q = none ↔ ∀ a ∈ born, ¬AntisymmRel (· ≤ ·) (key a) k) ∧
        ∀ a, q = some a → a ∈ born ∧ AntisymmRel (· ≤ ·) (key a) k) ∧
      (∀ n, n ∉ born → ∃ h' tr,
        run (machine packed) (insertion (2 ^ w) compare (some t) (some n)) h = .ok ((), h', tr)) ∧
      ∀ n ∈ born, ∃ h' tr, run (machine packed) (rbnodeUnlink (some n)) h = .ok ((), h', tr) := by
  obtain ⟨l, hs, hst⟩ := hr.stable hc
  refine ⟨⟨l, ?_, hst⟩, fun k => ?_, fun n hn => ?_, fun n hn => ?_⟩
  · obtain ⟨h₀, cs, tr, hr⟩ := hs
    exact hr.inOrder (only_self t l)
  · obtain ⟨q, hq, hnone, hsome⟩ := hs.find (hst.falling (hf (some t) k))
    refine ⟨q, hq, hnone.trans ⟨fun hne a ha => ?_, fun hne a ha => ?_⟩, fun a ha => ?_⟩
    · exact mt (hf (some t) k).eq_zero.mpr (hne a (hst.perm.mem_iff.mpr ha))
    · exact mt (hf (some t) k).eq_zero.mp (hne a (hst.perm.mem_iff.mp ha))
    · exact ⟨hst.perm.mem_iff.mp (hsome a ha).1, (hf (some t) k).eq_zero.mp (hsome a ha).2⟩
  · obtain ⟨T, h', tr, -, hinsert, -⟩ := hs.insert compare fun hl => hn (hst.perm.mem_iff.mp hl)
    exact ⟨h', tr, hinsert⟩
  · obtain ⟨h', tr, hunlink, -⟩ := hs.unlink (hst.perm.mem_iff.mpr hn)
    exact ⟨h', tr, hunlink⟩

/-- Nodes that are three apart have one key. -/
def pairedKey (a : Address 6) : ℕ := addressOf a % 36

def comparePaired (n a : Pointer 6) : ℤ := compareBy pairedKey none (n.elim 0 pairedKey) a

theorem ranks_compareBy (key : Address w → ℕ) (t : Pointer w) (k : ℕ) :
    Ranks (fun a => compareBy key t k (some a)) key k :=
  ⟨fun a => by simp [compareBy], fun a => by simp [compareBy]⟩

theorem ranks_comparePaired (n : Address 6) :
    Ranks (fun a => comparePaired (some n) (some a)) pairedKey (pairedKey n) :=
  ranks_compareBy pairedKey none (pairedKey n)

/-- Every key is there twice; a node is removed, and added again behind the one of its key. -/
theorem duplicates_stable_sample : ∃ h h',
    DuplicateRun comparePaired (cell 0) h [cell 2, cell 4, cell 5, cell 6, cell 7] ∧
    Returns h (rbtreeFindNode 64 (compareBy pairedKey) (some (cell 0)) 12) (some (cell 6)) ∧
    (∃ tr, run (machine packed) (insertion 64 comparePaired (some (cell 0)) (some (cell 3))) h =
      .ok ((), h', tr)) ∧
    InOrder h'.load (h'.load (.root (cell 0))) [cell 2, cell 5, cell 6, cell 3, cell 4, cell 7] ∧
    (∃ q, Returns h' (rbtreeFindNode 64 (compareBy pairedKey) (some (cell 0)) 12) q ∧
      (q = some (cell 6) ∨ q = some (cell 3))) ∧
    Returns h' (rbtreeFindNode 64 (compareBy pairedKey) (some (cell 0)) 13) none := by
  have hstart : DuplicateRun comparePaired (cell 0) zeroes [] := .start rfl
  obtain ⟨h₁, hr₁⟩ := hstart.exists_insertAll ranks_comparePaired
    [cell 2, cell 3, cell 4, cell 5, cell 6, cell 7] (by decide) (by simp)
  obtain ⟨-, -, -, hunlink⟩ := duplicates_stable ranks_comparePaired (ranks_compareBy pairedKey) hr₁
  obtain ⟨h, tr, hrun⟩ := hunlink (cell 3) (by decide)
  have hr := hr₁.unlink (by decide) hrun
  obtain ⟨-, hfind, hinsert, -⟩ :=
    duplicates_stable ranks_comparePaired (ranks_compareBy pairedKey) hr
  obtain ⟨h', tr', hrun'⟩ := hinsert (cell 3) (by decide)
  obtain ⟨⟨l, hin, hst⟩, hfind', -⟩ :=
    duplicates_stable ranks_comparePaired (ranks_compareBy pairedKey) (hr.insert (by decide) hrun')
  have hlookup : ∀ {k : ℕ} {born : List (Address 6)} {q : Pointer 6},
      (q = none ↔ ∀ a ∈ born, ¬AntisymmRel (· ≤ ·) (pairedKey a) k) →
      (∀ a, q = some a → a ∈ born ∧ AntisymmRel (· ≤ ·) (pairedKey a) k) →
      q = none ∧ born.filter (fun a => pairedKey a = k) = [] ∨
        ∃ a ∈ born.filter (fun a => pairedKey a = k), q = some a := by
    intro k born q hnone hsome
    simp only [antisymmRel_iff_eq] at hnone hsome
    cases q with
    | none => exact .inl ⟨rfl, by simpa using hnone⟩
    | some a => exact .inr ⟨a, by simpa using hsome a rfl, rfl⟩
  obtain rfl : l = [cell 2, cell 5, cell 6, cell 3, cell 4, cell 7] :=
    hst.unique (by decide) ⟨by decide, by decide⟩
  obtain ⟨q, hq, hnone, hsome⟩ := hfind 12
  obtain ⟨q', hq', hnone', hsome'⟩ := hfind' 12
  obtain ⟨p, hp, hnone₁, hsome₁⟩ := hfind' 13
  obtain ⟨-, hnil⟩ | ⟨a, ha, rfl⟩ := hlookup hnone hsome
  · exact absurd hnil (by decide)
  obtain ⟨-, hnil⟩ | ⟨a', ha', rfl⟩ := hlookup hnone' hsome'
  · exact absurd hnil (by decide)
  obtain ⟨rfl, -⟩ | ⟨b, hb, rfl⟩ := hlookup hnone₁ hsome₁
  · obtain rfl : a = cell 6 := List.mem_singleton.mp ha
    exact ⟨h, h', hr, hq, ⟨tr', hrun'⟩, hin, ⟨_, hq', by simpa using List.mem_pair.mp ha'⟩, hp⟩
  · exact absurd hb List.not_mem_nil

end Runs

end CRbtree
