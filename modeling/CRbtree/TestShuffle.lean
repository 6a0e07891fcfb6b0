import CRbtree.AddressOrder
import CRbtree.Duplicates

set_option autoImplicit false

/-!
test_shuffle() of test-basic.c, which fills and empties a tree in random order, as a whole
program.
-/

namespace CRbtree
open RedBlack TaggedPointers PointerGraphs Programs

variable {w : ℕ} {α : Type}

/-- `t = nodes[j]; nodes[j] = nodes[i]; nodes[i] = t` -/
def swapEntries (nodes : List α) (i j : ℕ) : List α :=
  match nodes[i]?, nodes[j]? with
  | some a, some b => (nodes.set j a).set i b
  | _, _ => nodes

/-- shuffle(), where the calls of rand() return `rand 0`, `rand 1` and so on. -/
def shuffle (rand : ℕ → ℕ) (nodes : List α) (nMemb : ℕ) : List α :=
  (List.range nMemb).foldl (fun nodes i => swapEntries nodes i (rand i % nMemb)) nodes

section Shuffle

variable {l : List α} {i j k : ℕ}

theorem swapEntries_of_lt (hi : i < l.length) (hj : j < l.length) :
    swapEntries l i j = (l.set j l[i]).set i l[j] := by
  simp only [swapEntries, List.getElem?_eq_getElem hi, List.getElem?_eq_getElem hj]

theorem swapEntries_perm (l : List α) (i j : ℕ) : (swapEntries l i j).Perm l := by
  by_cases h : i < l.length ∧ j < l.length
  · rw [swapEntries_of_lt h.1 h.2]
    exact List.set_set_perm h.2 h.1
  · rw [swapEntries]
    split
    · rename_i a b ha hb
      exact absurd ⟨(List.getElem?_eq_some_iff.mp ha).1, (List.getElem?_eq_some_iff.mp hb).1⟩ h
    · exact .refl l

theorem swapEntries_append (l l' : List α) (hi : i < l.length) (hj : j < l.length) :
    swapEntries (l ++ l') i j = swapEntries l i j ++ l' := by
  have hlen : l.length ≤ (l ++ l').length := by simp
  rw [swapEntries_of_lt hi hj, swapEntries_of_lt (hi.trans_le hlen) (hj.trans_le hlen),
    List.getElem_append_left hi, List.getElem_append_left hj, List.set_append_left _ _ hj,
    List.set_append_left _ _ (by simpa using hi)]

theorem shuffle_perm (rand : ℕ → ℕ) (l : List α) (k : ℕ) : (shuffle rand l k).Perm l := by
  unfold shuffle
  induction List.range k generalizing l with
  | nil => exact .refl l
  | cons i is ih => exact (ih _).trans (swapEntries_perm l i _)

/-- The entries from `n_memb` on stay where they are. -/
theorem shuffle_append (rand : ℕ → ℕ) (l l' : List α) :
    shuffle rand (l ++ l') l.length = shuffle rand l l.length ++ l' := by
  have hfold : ∀ (is : List ℕ) (m : List α), (∀ i ∈ is, i < m.length) → m.length = l.length →
      is.foldl (fun nodes i => swapEntries nodes i (rand i % l.length)) (m ++ l') =
        is.foldl (fun nodes i => swapEntries nodes i (rand i % l.length)) m ++ l' := by
    intro is
    induction is with
    | nil => exact fun m _ _ => rfl
    | cons i is ih =>
      intro m hm hlen
      have hi := hm i List.mem_cons_self
      have hperm := swapEntries_perm m i (rand i % l.length)
      rw [List.foldl_cons, List.foldl_cons, swapEntries_append m l' hi
        (hlen ▸ Nat.mod_lt _ (by omega))]
      refine ih _ (fun j hj => ?_) (hperm.length_eq.trans hlen)
      rw [hperm.length_eq]
      exact hm j (List.mem_cons_of_mem i hj)
  exact hfold _ l (fun i hi => List.mem_range.mp hi) rfl

end Shuffle

/-- `for (i = 0; i < n; ++i) c_rbnode_init(nodes[i])` -/
def initAll : List (Address w) → Prog w Unit
  | [] => pure ()
  | a :: as => do
    rbnodeInit (some a)
    initAll as

/-- The loops that add nodes to the `n` that are in the tree, and validate it each time. -/
def addAll (t : Pointer w) : ℕ → List (Address w) → Prog w Unit
  | _, [] => pure ()
  | n, a :: as => do
    testInsert t (some a)
    let k ← validate t
    cAssert (k = n + 1)
    addAll t (n + 1) as

/-- The loops that remove some of the `n` nodes in the tree, and validate it each time. -/
def removeAll (t : Pointer w) : ℕ → List (Address w) → Prog w Unit
  | _, [] => pure ()
  | n, a :: as => do
    rbnodeUnlink (some a)
    let k ← validate t
    cAssert (k = n - 1)
    removeAll t (n - 1) as

/-- `for (j = 0; j < turns; ++j)`, which removes half of the nodes and adds them again. Each
shuffle has its own random numbers. -/
def testHalves (rand : ℕ → ℕ → ℕ) (t : Pointer w) : ℕ → List (Address w) →
    Prog w (List (Address w))
  | 0, nodes => pure nodes
  | turns + 1, nodes => do
    let nodes := shuffle (rand (2 * turns)) nodes nodes.length
    removeAll t nodes.length (nodes.take (nodes.length / 2))
    let nodes := shuffle (rand (2 * turns + 1)) nodes (nodes.length / 2)
    addAll t (nodes.length / 2) (nodes.take (nodes.length / 2))
    testHalves rand t turns nodes

/-- test_shuffle() up to the loop over `j`, on a tree and an array of nodes that may hold
anything. It returns the array. -/
def testShuffleFill (rand : ℕ → ℕ → ℕ) (t : Pointer w) (nodes : List (Address w)) :
    Prog w (List (Address w)) := do
  rbtreeInit t
  initAll nodes
  let nodes := shuffle (rand 8) nodes nodes.length
  let n ← validate t
  cAssert (n = 0)
  addAll t 0 nodes
  let nodes := shuffle (rand 9) nodes nodes.length
  removeAll t nodes.length nodes
  let nodes := shuffle (rand 10) nodes nodes.length
  let n ← validate t
  cAssert (n = 0)
  addAll t 0 nodes
  pure nodes

def testShuffle (rand : ℕ → ℕ → ℕ) (t : Pointer w) (nodes : List (Address w)) :
    Prog w Unit := do
  let nodes ← testShuffleFill rand t nodes
  let nodes ← testHalves rand t 4 nodes
  let nodes := shuffle (rand 11) nodes nodes.length
  removeAll t nodes.length nodes

/-- The tree is the only one, and all nodes of the array that are not in it are marked as
unlinked. -/
def Prepared (t : Address w) (nodes : List (Address w)) (h : Heap w) (l : List (Address w)) :
    Prop :=
  ∃ h₀ cs tr, Run packed h₀ cs tr h (only t l) ∧ ∀ a ∈ nodes, settled cs a = true

section Prepared

variable {t n : Address w} {nodes l : List (Address w)} {h : Heap w}

theorem Prepared.isLinked (hp : Prepared t nodes h l) (hn : n ∈ nodes) :
    Returns h (rbnodeIsLinked (some n)) (decide (n ∈ l)) := by
  obtain ⟨h₀, cs, tr, hr, hset⟩ := hp
  obtain ⟨b, hb, hiff⟩ := hr.isLinked (hset n hn)
  rw [show decide (n ∈ l) = b by rw [Bool.eq_iff_iff, decide_eq_true_iff, hiff, linked_only]]
  exact ⟨_, hb⟩

theorem Prepared.nodeInit (hs : Prepared t nodes h l) (hn : n ∉ l) : ∃ h' tr,
    run (machine packed) (rbnodeInit (some n)) h = .ok ((), h', tr) ∧
      Prepared t (n :: nodes) h' l := by
  obtain ⟨h₀, cs, tr, hr, hset⟩ := hs
  obtain ⟨h', tr', hrun, hr'⟩ := hr.exists_call (c := .nodeInit n) (mt linked_only.mp hn)
  refine ⟨h', tr', hrun, h₀, _, _, hr', fun a ha => ?_⟩
  rw [settled_concat]
  rcases List.mem_cons.mp ha with rfl | ha
  · simp [Call.settles]
  · simp [Call.settles, hset a ha]

theorem Prepared.unlink (hs : Prepared t nodes h l) (hn : n ∈ l) : ∃ h' tr,
    run (machine packed) (rbnodeUnlink (some n)) h = .ok ((), h', tr) ∧
      Prepared t nodes h' (l.erase n) := by
  obtain ⟨h₀, cs, tr, hr, hset⟩ := hs
  obtain ⟨h', tr', hrun, hr', -⟩ := hr.exists_unlink (only_self t l) hn
  rw [update_only] at hr'
  refine ⟨h', tr', hrun, h₀, _, _, hr', fun a ha => ?_⟩
  rw [settled_concat]
  simp [Call.settles, hset a ha]

theorem Prepared.initAll (hs : Prepared t nodes h []) (as : List (Address w)) : ∃ h' tr,
    run (machine packed) (CRbtree.initAll as) h = .ok ((), h', tr) ∧
      Prepared t (as.reverse ++ nodes) h' [] := by
  induction as generalizing nodes h with
  | nil => exact ⟨h, [], rfl, hs⟩
  | cons a as ih =>
    obtain ⟨h₁, tr₁, hrun, hs₁⟩ := hs.nodeInit (n := a) (by simp)
    obtain ⟨h', tr', hrun', hs'⟩ := ih hs₁
    exact ⟨h', _, run_bind hrun hrun', by simpa using hs'⟩

end Prepared

/-- The tree holds the nodes `inside` in the order of their addresses. -/
def Stocked (t : Address w) (nodes : List (Address w)) (h : Heap w)
    (inside : List (Address w)) : Prop :=
  ∃ l, Prepared t nodes h l ∧ Sorted position l ∧ l.Perm inside

section Stocked

variable {t n : Address w} {nodes inside as : List (Address w)} {h : Heap w} {k : ℕ}

theorem Stocked.perm {inside' : List (Address w)} (hs : Stocked t nodes h inside)
    (hp : inside.Perm inside') : Stocked t nodes h inside' := by
  obtain ⟨l, hl, hsort, hperm⟩ := hs
  exact ⟨l, hl, hsort, hperm.trans hp⟩

theorem Stocked.insert (hs : Stocked t nodes h inside) (hnodes : n ∈ nodes) (hn : n ∉ inside) :
    ∃ h' tr, run (machine packed) (testInsert (some t) (some n)) h = .ok ((), h', tr) ∧
      Stocked t nodes h' (n :: inside) := by
  obtain ⟨l, ⟨h₀, cs, tr, hr, hset⟩, hsort, hl⟩ := hs
  obtain ⟨c, h', tr₁, tr₂, hrun, hr', hset', hsort'⟩ := hr.exists_insert (only_self t l) hsort
    (mt linked_only.mp (mt hl.mem_iff.mp hn)) (hset n hnodes)
  rw [update_only] at hr'
  exact ⟨h', tr₁, hrun, _, ⟨h₀, _, _, hr', hset' ▸ hset⟩, hsort',
    (inserted_perm n l).trans (hl.cons n)⟩

theorem Stocked.unlink (hs : Stocked t nodes h (n :: inside)) :
    ∃ h' tr, run (machine packed) (rbnodeUnlink (some n)) h = .ok ((), h', tr) ∧
      Stocked t nodes h' inside := by
  obtain ⟨l, hp, hsort, hl⟩ := hs
  obtain ⟨h', tr', hrun, hp'⟩ := hp.unlink (hl.mem_iff.mpr List.mem_cons_self)
  exact ⟨h', tr', hrun, _, hp', hsort.sublist List.erase_sublist, by simpa using hl.erase n⟩

theorem Stocked.validate (hs : Stocked t nodes h inside) :
    Returns h (validate (some t)) inside.length := by
  obtain ⟨l, ⟨h₀, cs, tr, hr, -⟩, hsort, hl⟩ := hs
  exact hl.length_eq ▸ hr.validate_passes (only_self t l) hsort

theorem run_count {t : Pointer w} {p : Prog w α} {x : α} {h' : Heap w} {tr : List (Command w)}
    (hv : Returns h (CRbtree.validate t) k) (hp : run (machine packed) p h = .ok (x, h', tr)) :
    ∃ tr', run (machine packed) (do
      let n ← CRbtree.validate t
      cAssert (n = k)
      p) h = .ok (x, h', tr') := by
  obtain ⟨tr', hrun⟩ := hv
  have hassert : run (machine packed) (cAssert (k = k) : Prog w Unit) h = .ok ((), h, []) := by
    simp [cAssert, run]
  exact ⟨_, run_bind hrun (run_bind hassert hp)⟩

theorem run_count_ne {t : Pointer w} {p : Prog w α} {j : ℕ}
    (hv : Returns h (CRbtree.validate t) j) (hne : j ≠ k) :
    run (machine packed) (do
      let n ← CRbtree.validate t
      cAssert (n = k)
      p) h = .error .assertion := by
  obtain ⟨tr', hrun⟩ := hv
  refine run_bind_error hrun ?_
  simp only [hne, decide_false, cAssert]
  rfl

theorem Stocked.addAll (hs : Stocked t nodes h inside) (hk : as ≠ [] → inside.length = k)
    (hnodes : ∀ a ∈ as, a ∈ nodes) (hnd : (as ++ inside).Nodup) : ∃ h' tr,
    run (machine packed) (CRbtree.addAll (some t) k as) h = .ok ((), h', tr) ∧
      Stocked t nodes h' (as ++ inside) := by
  induction as generalizing h inside k with
  | nil => exact ⟨h, [], rfl, hs⟩
  | cons a as ih =>
    obtain ⟨h₁, tr₁, hrun, hs₁⟩ := hs.insert (hnodes a List.mem_cons_self)
      (by simp only [List.cons_append, List.nodup_cons, List.mem_append] at hnd; tauto)
    have hnd' : (as ++ a :: inside).Nodup := List.nodup_middle.mpr hnd
    have hk := hk (by simp)
    obtain ⟨h', tr', hrun', hs'⟩ := ih hs₁ (k := k + 1) (by simp [hk])
      (fun b hb => hnodes b (List.mem_cons_of_mem a hb)) hnd'
    obtain ⟨tr₂, hcount⟩ := run_count (k := k + 1) (by simpa [hk] using hs₁.validate) hrun'
    exact ⟨h', _, run_bind hrun hcount, hs'.perm List.perm_middle⟩

theorem Stocked.addAll_stops (hs : Stocked t nodes h inside) (hk : inside.length ≠ k)
    (has : as ≠ []) (hnodes : ∀ a ∈ as, a ∈ nodes) (hnd : (as ++ inside).Nodup) :
    run (machine packed) (CRbtree.addAll (some t) k as) h = .error .assertion := by
  obtain ⟨a, as, rfl⟩ := List.exists_cons_of_ne_nil has
  obtain ⟨h₁, tr₁, hrun, hs₁⟩ := hs.insert (hnodes a List.mem_cons_self)
    (by simp only [List.cons_append, List.nodup_cons, List.mem_append] at hnd; tauto)
  exact run_bind_error hrun (run_count_ne hs₁.validate (by simpa using hk))

theorem Stocked.removeAll (hs : Stocked t nodes h (as ++ inside))
    (hk : (as ++ inside).length = k) : ∃ h' tr,
    run (machine packed) (CRbtree.removeAll (some t) k as) h = .ok ((), h', tr) ∧
      Stocked t nodes h' inside := by
  induction as generalizing h k with
  | nil => exact ⟨h, [], rfl, hs⟩
  | cons a as ih =>
    obtain ⟨h₁, tr₁, hrun, hs₁⟩ := Stocked.unlink hs
    have hk' : (as ++ inside).length = k - 1 := by simp [← hk]
    obtain ⟨h', tr', hrun', hs'⟩ := ih hs₁ hk'
    obtain ⟨tr₂, hcount⟩ := run_count (hk' ▸ hs₁.validate) hrun'
    exact ⟨h', _, run_bind hrun hcount, hs'⟩

/-- One turn of the loop works on the first half `as` of the array. -/
theorem Stocked.halve {bs : List (Address w)} (hs : Stocked t nodes h (as ++ bs))
    (hnodes : ∀ a ∈ as ++ bs, a ∈ nodes) (hnd : (as ++ bs).Nodup)
    (hk : as ≠ [] → bs.length = as.length) (rand : ℕ → ℕ) :
    ∃ h₁ tr₁ h' tr', run (machine packed) (CRbtree.removeAll (some t) (as ++ bs).length as) h =
        .ok ((), h₁, tr₁) ∧
      run (machine packed) (CRbtree.addAll (some t) as.length (shuffle rand as as.length)) h₁ =
        .ok ((), h', tr') ∧ Stocked t nodes h' (as ++ bs) := by
  have hperm := shuffle_perm rand as as.length
  obtain ⟨h₁, tr₁, hremove, hs₁⟩ := hs.removeAll rfl
  have hnodes' : ∀ a ∈ shuffle rand as as.length, a ∈ nodes :=
    fun a ha => hnodes a (List.mem_append_left bs (hperm.mem_iff.mp ha))
  obtain ⟨h', tr', hadd, hs'⟩ := hs₁.addAll (fun hne => hk fun hnil => hne (by rw [hnil]; rfl))
    hnodes' ((hperm.append_right bs).nodup_iff.mpr hnd)
  exact ⟨h₁, tr₁, h', tr', hremove, hadd, hs'.perm (hperm.append_right bs)⟩

theorem exists_halves (l : List α) : ∃ as bs, l = as ++ bs ∧ as.length = (as ++ bs).length / 2 :=
  ⟨l.take (l.length / 2), _, (List.take_append_drop (l.length / 2) l).symm,
    by rw [List.take_append_drop, List.length_take]; omega⟩

theorem testHalves_succ {rand : ℕ → ℕ → ℕ} {t : Pointer w} {turns : ℕ}
    {ns as bs : List (Address w)} (hns : shuffle (rand (2 * turns)) ns ns.length = as ++ bs)
    (hlen : as.length = (as ++ bs).length / 2) :
    testHalves rand t (turns + 1) ns = (do
      CRbtree.removeAll t (as ++ bs).length as
      CRbtree.addAll t as.length (shuffle (rand (2 * turns + 1)) as as.length)
      testHalves rand t turns (shuffle (rand (2 * turns + 1)) as as.length ++ bs)) := by
  have hlen' : (shuffle (rand (2 * turns + 1)) as as.length ++ bs).length / 2 = as.length := by
    rw [((shuffle_perm _ as as.length).append_right bs).length_eq, ← hlen]
  have htake : (shuffle (rand (2 * turns + 1)) as as.length ++ bs).take as.length =
      shuffle (rand (2 * turns + 1)) as as.length :=
    List.take_left' (shuffle_perm _ as as.length).length_eq
  rw [testHalves]
  simp only [hns, ← hlen, shuffle_append, hlen', htake, List.take_left]

/-- The halves of an array have the same length, or there is only one node. -/
def Halves (n : ℕ) : Prop := n / 2 ≠ 0 → n - n / 2 = n / 2

theorem halves_iff {n : ℕ} : Halves n ↔ n % 2 = 0 ∨ n = 1 := by
  unfold Halves
  omega

theorem Stocked.testHalves {ns : List (Address w)} (hs : Stocked t nodes h ns)
    (hnodes : ∀ a ∈ ns, a ∈ nodes) (hnd : ns.Nodup) (hn : Halves ns.length)
    (rand : ℕ → ℕ → ℕ) (turns : ℕ) : ∃ ns' h' tr,
    run (machine packed) (CRbtree.testHalves rand (some t) turns ns) h = .ok (ns', h', tr) ∧
      ns'.Perm ns ∧ Stocked t nodes h' ns' := by
  induction turns generalizing ns h with
  | zero => exact ⟨ns, h, [], rfl, .refl ns, hs⟩
  | succ turns ih =>
    have hperm := shuffle_perm (rand (2 * turns)) ns ns.length
    obtain ⟨as, bs, hsplit, hlen⟩ := exists_halves (shuffle (rand (2 * turns)) ns ns.length)
    rw [hsplit] at hperm
    have hk : as ≠ [] → bs.length = as.length := by
      intro hne
      have hpos := List.length_pos_iff.mpr hne
      rw [Halves, ← hperm.length_eq, List.length_append] at hn
      rw [List.length_append] at hlen
      omega
    obtain ⟨h₁, tr₁, h₂, tr₂, hremove, hadd, hs₂⟩ := (hs.perm hperm.symm).halve
      (fun a ha => hnodes a (hperm.mem_iff.mp ha)) (hperm.nodup_iff.mpr hnd) hk
      (rand (2 * turns + 1))
    have hperm' := ((shuffle_perm (rand (2 * turns + 1)) as as.length).append_right bs).trans hperm
    obtain ⟨ns', h', tr', hrun, hns', hs'⟩ := ih (hs₂.perm (hperm.trans hperm'.symm))
      (fun a ha => hnodes a (hperm'.mem_iff.mp ha)) (hperm'.nodup_iff.mpr hnd)
      (hperm'.length_eq ▸ hn)
    exact ⟨ns', h', _, testHalves_succ hsplit hlen ▸ run_bind hremove (run_bind hadd hrun),
      hns'.trans hperm', hs'⟩

/-- The count after the first node that is added again is one too high. -/
theorem Stocked.testHalves_stops {ns : List (Address w)} (hs : Stocked t nodes h ns)
    (hnodes : ∀ a ∈ ns, a ∈ nodes) (hnd : ns.Nodup) (hn : ¬Halves ns.length)
    (rand : ℕ → ℕ → ℕ) (turns : ℕ) :
    run (machine packed) (CRbtree.testHalves rand (some t) (turns + 1) ns) h =
      .error .assertion := by
  have hperm := shuffle_perm (rand (2 * turns)) ns ns.length
  obtain ⟨as, bs, hsplit, hlen⟩ := exists_halves (shuffle (rand (2 * turns)) ns ns.length)
  rw [hsplit] at hperm
  rw [Halves, ← hperm.length_eq, List.length_append] at hn
  rw [List.length_append] at hlen
  have hperm' := shuffle_perm (rand (2 * turns + 1)) as as.length
  obtain ⟨h₁, tr₁, hremove, hs₁⟩ := (hs.perm hperm.symm).removeAll rfl
  have hnodes' : ∀ a ∈ shuffle (rand (2 * turns + 1)) as as.length, a ∈ nodes :=
    fun a ha => hnodes a (hperm.mem_iff.mp (List.mem_append_left bs (hperm'.mem_iff.mp ha)))
  have hstop := hs₁.addAll_stops (show bs.length ≠ as.length by omega)
    (fun hnil => by rw [← List.length_eq_zero_iff, hperm'.length_eq] at hnil; omega)
    hnodes' (((hperm'.append_right bs).trans hperm).nodup_iff.mpr hnd)
  rw [testHalves_succ hsplit (by rw [List.length_append]; exact hlen)]
  exact run_bind_error hremove (run_bind_error_left hstop)

end Stocked

/-- The tests start with an empty tree, and nodes that are marked as unlinked. -/
theorem exists_initAll (t : Address w) (nodes : List (Address w)) (h : Heap w) :
    ∃ h₁ tr₁ h₂ tr₂, run (machine packed) (rbtreeInit (some t)) h = .ok ((), h₁, tr₁) ∧
      run (machine packed) (initAll nodes) h₁ = .ok ((), h₂, tr₂) ∧
      Prepared t nodes.reverse h₂ [] := by
  have hr₀ : Run packed h [] [] h fun _ => none := .start
  obtain ⟨h₁, tr₁, hinit, hr₁⟩ := hr₀.exists_call (c := .treeInit t) (by simp [Call.Legal])
  have hp₁ : Prepared t [] h₁ [] := ⟨h, _, _, hr₁, fun a ha => by cases ha⟩
  obtain ⟨h₂, tr₂, hall, hp₂⟩ := hp₁.initAll nodes
  rw [List.append_nil] at hp₂
  exact ⟨h₁, tr₁, h₂, tr₂, hinit, hall, hp₂⟩

theorem exists_filled (t : Address w) {nodes : List (Address w)} (hnd : nodes.Nodup)
    (rand : ℕ → ℕ → ℕ) (h : Heap w) : ∃ ns h' tr,
      run (machine packed) (testShuffleFill rand (some t) nodes) h = .ok (ns, h', tr) ∧
        ns.Perm nodes ∧ Stocked t nodes.reverse h' ns := by
  let ns₁ := shuffle (rand 8) nodes nodes.length
  let ns₂ := shuffle (rand 9) ns₁ ns₁.length
  let ns₃ := shuffle (rand 10) ns₂ ns₂.length
  have h₁ : ns₁.Perm nodes := shuffle_perm ..
  have h₂ : ns₂.Perm nodes := (shuffle_perm ..).trans h₁
  have h₃ : ns₃.Perm nodes := (shuffle_perm ..).trans h₂
  have hadd : ∀ {g : Heap w} {ns : List (Address w)}, ns.Perm nodes →
      Stocked t nodes.reverse g [] → ∃ g' tr,
        run (machine packed) (addAll (some t) 0 ns) g = .ok ((), g', tr) ∧
          Stocked t nodes.reverse g' ns := by
    intro g ns hns hs
    have hnodes : ∀ a ∈ ns, a ∈ nodes.reverse :=
      fun a ha => List.mem_reverse.mpr (hns.mem_iff.mp ha)
    have hs' := hs.addAll (k := 0) (fun _ => rfl) hnodes
      (by rw [List.append_nil]; exact hns.nodup_iff.mpr hnd)
    rwa [List.append_nil] at hs'
  obtain ⟨g₁, tr₁, g₂, tr₂, hinit, hall, hp₂⟩ := exists_initAll t nodes h
  have hs₂ : Stocked t nodes.reverse g₂ [] := ⟨[], hp₂, .nil, .refl _⟩
  obtain ⟨g₃, tr₃, hfill, hs₃⟩ := hadd h₁ hs₂
  have hs₃' : Stocked t nodes.reverse g₃ (ns₂ ++ []) :=
    hs₃.perm (by rw [List.append_nil]; exact h₁.trans h₂.symm)
  obtain ⟨g₄, tr₄, hremove, hs₄⟩ := hs₃'.removeAll (by rw [List.append_nil])
  obtain ⟨g₅, tr₅, hfill', hs₅⟩ := hadd h₃ hs₄
  obtain ⟨tr₆, hend⟩ := run_count (k := 0) hs₄.validate (run_bind_pure hfill' fun _ => ns₃)
  obtain ⟨tr₇, hmid⟩ := run_count (k := 0) hs₂.validate
    (run_bind (k := fun _ => _) hfill (run_bind (k := fun _ => _) hremove hend))
  exact ⟨ns₃, g₅, _, run_bind hinit (run_bind hall hmid), h₃, hs₅⟩

/-- test_shuffle() passes for arrays of an even length, such as its own, and for one node. It
stops at an assertion for any other length that its counters can hold. -/
theorem testShuffle_exact (t : Address w) {nodes : List (Address w)} (hnd : nodes.Nodup)
    (_hlen : nodes.length < 2 ^ 32) (rand : ℕ → ℕ → ℕ) (h : Heap w) :
    (nodes.length % 2 = 0 ∨ nodes.length = 1 → ∃ h' tr,
      run (machine packed) (testShuffle rand (some t) nodes) h = .ok ((), h', tr)) ∧
    (¬(nodes.length % 2 = 0 ∨ nodes.length = 1) →
      run (machine packed) (testShuffle rand (some t) nodes) h = .error .assertion) := by
  obtain ⟨ns, g, tr, hfill, hperm, hs⟩ := exists_filled t hnd rand h
  have hnodes : ∀ a ∈ ns, a ∈ nodes.reverse :=
    fun a ha => List.mem_reverse.mpr (hperm.mem_iff.mp ha)
  have hnd' := hperm.nodup_iff.mpr hnd
  rw [← hperm.length_eq, ← halves_iff]
  refine ⟨fun hn => ?_, fun hn => ?_⟩
  · obtain ⟨ns', g', tr', hhalves, -, hs'⟩ := hs.testHalves hnodes hnd' hn rand 4
    have hs'' : Stocked t nodes.reverse g' (shuffle (rand 11) ns' ns'.length ++ []) :=
      hs'.perm (by rw [List.append_nil]; exact (shuffle_perm ..).symm)
    obtain ⟨h', tr'', hremove, -⟩ := hs''.removeAll (by rw [List.append_nil])
    exact ⟨h', _, run_bind hfill (run_bind hhalves hremove)⟩
  · exact run_bind_error hfill
      (run_bind_error_left (hs.testHalves_stops hnodes hnd' hn rand 3))

theorem testShuffle_exact_sample :
    (∃ h' tr, run (machine packed) (testShuffle (fun i j => i * j) (some (cell 0))
      [cell 3, cell 1, cell 6, cell 2]) sampleHeap = .ok ((), h', tr)) ∧
    run (machine packed) (testShuffle (fun i j => i * j) (some (cell 0))
      [cell 5, cell 2, cell 4]) zeroes = .error .assertion :=
  ⟨(testShuffle_exact _ (by decide) (by decide) _ _).1 (by decide),
    (testShuffle_exact _ (by decide) (by decide) _ _).2 (by decide)⟩

end CRbtree
