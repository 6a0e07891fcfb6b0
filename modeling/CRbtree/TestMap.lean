import CRbtree.Dismantling
import CRbtree.TestShuffle
import CRbtree.SafeUnlinking
import CRbtree.TestMapLoops

set_option autoImplicit false

/-!
test-map.c: a map from integers to objects, filled and emptied in random order.
-/

namespace CRbtree
open RedBlack TaggedPointers PointerGraphs Programs

variable {w : ℕ}

/-- test_compare(). The keys are those of the objects that embed the nodes. -/
def testCompare (key : Address w → ℕ) : CRBCompareFunc ℕ w
  | _, _, none => 0
  | _, k, some a => if k < key a then -1 else if k > key a then 1 else 0

/-- c_rbtree_find_entry() -/
def rbtreeFindEntry {κ : Type} (off : Word w) (turns : ℕ) (f : CRBCompareFunc κ w) (t : Pointer w)
    (k : κ) : Prog w (Word w) := do
  pure (rbnodeEntry off (← rbtreeFindNode turns f t k))

/-- The first loop of test_map() that adds all nodes. -/
def fileAll (off : Word w) (key : Address w → ℕ) (t : Pointer w) : List (Address w) → Prog w Unit
  | [] => pure ()
  | a :: as => do
    cAssert !(← rbnodeIsLinked (some a))
    cAssert ((← rbtreeFindEntry off (2 ^ w) (testCompare key) t (key a)) = 0#(w + 2))
    let (slot, p) ← rbtreeFindSlot (2 ^ w) (testCompare key) t (key a)
    cAssert slot.isSome
    rbtreeAdd t p slot (some a)
    cAssert (← rbnodeIsLinked (some a))
    cAssert (a.word - off = (← rbtreeFindEntry off (2 ^ w) (testCompare key) t (key a)))
    fileAll off key t as

/-- The later loops that add all nodes again. -/
def refileAll (key : Address w → ℕ) (t : Pointer w) : List (Address w) → Prog w Unit
  | [] => pure ()
  | a :: as => do
    let (slot, p) ← rbtreeFindSlot (2 ^ w) (testCompare key) t (key a)
    cAssert slot.isSome
    rbtreeAdd t p slot (some a)
    refileAll key t as

/-- The loop that removes all nodes in a different order. -/
def unfileAll (off : Word w) (key : Address w → ℕ) (t : Pointer w) :
    List (Address w) → Prog w Unit
  | [] => pure ()
  | a :: as => do
    cAssert (← rbnodeIsLinked (some a))
    cAssert (a.word - off = (← rbtreeFindEntry off (2 ^ w) (testCompare key) t (key a)))
    rbnodeUnlink (some a)
    cAssert !(← rbnodeIsLinked (some a))
    cAssert ((← rbtreeFindEntry off (2 ^ w) (testCompare key) t (key a)) = 0#(w + 2))
    unfileAll off key t as

/-- The program runs to its end, and leaves this memory. -/
def Leads {α : Type} (h : Heap w) (p : Prog w α) (a : α) (h' : Heap w) : Prop :=
  ∃ tr, run (machine packed) p h = .ok (a, h', tr)

section Leads

variable {α β : Type} {h h' h'' : Heap w} {p : Prog w α} {k : α → Prog w β} {a : α} {b : β}

theorem Leads.bind (hp : Leads h p a h') (hk : Leads h' (k a) b h'') :
    Leads h (p >>= k) b h'' := by
  obtain ⟨tr, hp⟩ := hp
  obtain ⟨tr', hk⟩ := hk
  exact ⟨_, run_bind hp hk⟩

theorem Returns.leads (hp : Returns h p a) : Leads h p a h := hp

/-- An assertion about what a program returns. -/
theorem Returns.check {f : α → Bool} {q : Prog w β} (hp : Returns h p a) (hf : f a = true)
    (hq : Leads h q b h') : Leads h (p >>= fun x => cAssert (f x) >>= fun _ => q) b h' :=
  hp.leads.bind ((returns_assert hf).leads.bind hq)

end Leads

/-- The tree holds the nodes `inside` in the order of their keys. -/
def Filed (key : Address w → ℕ) (t : Address w) (nodes : List (Address w)) (h : Heap w)
    (inside : List (Address w)) : Prop :=
  ∃ l μ, Prepared t nodes h l ∧ Stores key l μ ∧ l.Perm inside

section Filed

variable {key : Address w → ℕ} {t a : Address w} {nodes inside as : List (Address w)} {h : Heap w}
  {off : Word w}

theorem compares_testCompare (key : Address w → ℕ) (t : Pointer w) (k : ℕ) :
    Compares (fun a => testCompare key t k (some a)) key k := by
  constructor
  · intro a
    simp only [testCompare]
    split_ifs <;> omega
  · intro a
    simp only [testCompare]
    split_ifs <;> omega

theorem Filed.perm {inside' : List (Address w)} (hs : Filed key t nodes h inside)
    (hp : inside.Perm inside') : Filed key t nodes h inside' := by
  obtain ⟨l, μ, hl, hst, hperm⟩ := hs
  exact ⟨l, μ, hl, hst, hperm.trans hp⟩

theorem Filed.nil (hp : Prepared t nodes h []) : Filed key t nodes h [] :=
  ⟨[], _, hp, .nil, .refl _⟩

theorem Filed.isLinked (hs : Filed key t nodes h inside) (ha : a ∈ nodes) :
    Returns h (rbnodeIsLinked (some a)) (decide (a ∈ inside)) := by
  obtain ⟨l, μ, hp, -, hperm⟩ := hs
  rw [← decide_eq_decide.mpr hperm.mem_iff]
  exact hp.isLinked ha

theorem Filed.find (hs : Filed key t nodes h inside) (k : ℕ) : ∃ p,
    Returns h (rbtreeFindNode (2 ^ w) (testCompare key) (some t) k) p ∧
      ∀ a, p = some a ↔ a ∈ inside ∧ key a = k := by
  obtain ⟨l, μ, ⟨h₀, cs, tr, hr, -⟩, hst, hperm⟩ := hs
  obtain ⟨m, F, -, hm, hseq, hh, -⟩ := hr.holds
  obtain ⟨T, hT, rfl, hfind, -⟩ := hh.search hm (show F.sequences t = some l by
    rw [hseq, only_self]) (testCompare key) k
  refine ⟨_, hfind, fun a => ?_⟩
  rw [search_eq_some (compares_testCompare key (some t) k) hst.sorted, hperm.mem_iff]

theorem Filed.findEntry (hs : Filed key t nodes h inside) (ha : a ∈ inside) :
    Returns h (rbtreeFindEntry off (2 ^ w) (testCompare key) (some t) (key a)) (a.word - off) := by
  obtain ⟨p, hfind, hp⟩ := hs.find (key a)
  rw [(hp a).mpr ⟨ha, rfl⟩] at hfind
  rw [← rbnodeEntry_some]
  exact hfind.bind (returns_pure _)

theorem Filed.findEntry_none {k : ℕ} (hs : Filed key t nodes h inside)
    (hk : ∀ a ∈ inside, key a ≠ k) :
    Returns h (rbtreeFindEntry off (2 ^ w) (testCompare key) (some t) k) 0#(w + 2) := by
  obtain ⟨p, hfind, hp⟩ := hs.find k
  have hnone : p = none := Option.eq_none_iff_forall_not_mem.mpr fun a ha =>
    hk a ((hp a).mp ha).1 ((hp a).mp ha).2
  have hentry : rbnodeEntry off none = 0#(w + 2) := Entry.rbnodeEntry_none
  rw [hnone] at hfind
  rw [← hentry]
  exact hfind.bind (returns_pure _)

/-- Where a new node is stored, the list has it in addition. -/
theorem Stores.perm_cons {l l' : List (Address w)} {μ : ℕ → Pointer w} (hst : Stores key l μ)
    (hst' : Stores key l' (Function.update μ (key a) (some a)))
    (hk : ∀ c ∈ l, key c ≠ key a) : l'.Perm (a :: l) := by
  have hnd : ∀ {l : List (Address w)}, Sorted key l → l.Nodup :=
    fun hs => hs.imp fun hlt hab => hlt.ne (congrArg key hab)
  have ha : a ∉ l := fun ha => hk a ha rfl
  refine (List.perm_ext_iff_of_nodup (hnd hst'.sorted)
    (List.nodup_cons.mpr ⟨ha, hnd hst.sorted⟩)).mpr fun c => ?_
  have hnew := hst'.stored (key c) c
  have hold := hst.stored (key c) c
  simp only [and_true] at hnew hold
  rw [← hnew, List.mem_cons]
  by_cases hc : key c = key a
  · rw [hc, Function.update_self, Option.some.injEq]
    exact ⟨fun h => .inl h.symm, fun h => (h.resolve_right fun hl => hk c hl hc).symm⟩
  · rw [Function.update_of_ne hc, hold]
    exact ⟨.inr, fun h => h.resolve_left fun he => hc (congrArg key he)⟩

theorem Filed.add (hs : Filed key t nodes h inside) (ha : a ∉ inside)
    (hk : ∀ c ∈ inside, key c ≠ key a) : ∃ slot p h',
    Returns h (rbtreeFindSlot (2 ^ w) (testCompare key) (some t) (key a)) (some slot, p) ∧
      Leads h (rbtreeAdd (some t) p (some slot) (some a)) () h' ∧
      Filed key t nodes h' (a :: inside) := by
  obtain ⟨l, μ, ⟨h₀, cs, tr, hr, hset⟩, hst, hperm⟩ := hs
  obtain ⟨m, F, -, hm, hseq, hh, -⟩ := hr.holds
  obtain ⟨T, hT, rfl, -, hslot⟩ := hh.search hm (show F.sequences t = some l by
    rw [hseq, only_self]) (testCompare key) (key a)
  have hv := compares_testCompare key (some t) (key a)
  have hnil : (RedBlack.search (fun c => testCompare key (some t) (key a) (some c)) [] T).2 =
      .nil := by
    refine ColorTree.root?_eq_none.mp (Option.eq_none_iff_forall_not_mem.mpr fun c hc => ?_)
    obtain ⟨hmem, hkey⟩ := (search_eq_some hv hst.sorted).mp hc
    exact hk c (hperm.mem_iff.mp hmem) hkey
  obtain ⟨slot, p, hfound⟩ : ∃ slot p, slotOf (.root t)
      (RedBlack.search (fun c => testCompare key (some t) (key a) (some c)) [] T) =
        (some slot, p) := by
    rcases hres : RedBlack.search (fun c => testCompare key (some t) (key a) (some c)) [] T with
      ⟨ctx, U⟩
    rw [hres] at hnil
    obtain rfl : U = .nil := hnil
    exact ⟨_, _, rfl⟩
  rw [hfound] at hslot
  have hn : ¬Linked F.sequences a := by
    rw [hseq, linked_only]
    exact mt hperm.mem_iff.mp ha
  obtain ⟨hlegal, l', hst', hafter⟩ := hh.add_slot hT hv hn hst hfound
  rw [hseq] at hlegal hafter
  obtain ⟨h', tr', hrun, hr'⟩ := hr.exists_call (hm.1 ▸ hlegal)
  rw [hafter, update_only] at hr'
  refine ⟨slot, p, h', hslot, ⟨tr', hrun⟩, l', _, ⟨h₀, _, _, hr', fun c hc => ?_⟩, hst', ?_⟩
  · rw [settled_concat]
    exact hset c hc
  · exact (hst.perm_cons hst' fun c hc => hk c (hperm.mem_iff.mp hc)).trans (hperm.cons a)

theorem Filed.unlink (hs : Filed key t nodes h inside) (ha : a ∈ inside) : ∃ h',
    Leads h (rbnodeUnlink (some a)) () h' ∧ Filed key t nodes h' (inside.erase a) := by
  obtain ⟨l, μ, hp, hst, hperm⟩ := hs
  obtain ⟨h', tr, hrun, hp'⟩ := hp.unlink (hperm.mem_iff.mpr ha)
  exact ⟨h', ⟨tr, hrun⟩, _, _, hp', hst.erase (hperm.mem_iff.mpr ha), hperm.erase a⟩

/-- The keys of all nodes differ. -/
def Keyed (key : Address w → ℕ) (nodes : List (Address w)) : Prop :=
  ∀ a ∈ nodes, ∀ c ∈ nodes, key a = key c → a = c

theorem Keyed.fresh {l : List (Address w)} (hkey : Keyed key l) (ha : a ∈ l)
    (hsub : ∀ c ∈ as, c ∈ l) (hn : a ∉ as) : ∀ c ∈ as, key c ≠ key a :=
  fun c hc he => hn (hkey c (hsub c hc) a ha he ▸ hc)

/-- The next of the nodes that are added. -/
theorem Filed.addNext (hs : Filed key t nodes h inside) (hnd : (a :: as ++ inside).Nodup)
    (hkey : Keyed key (a :: as ++ inside)) : ∃ slot p h',
    Returns h (rbtreeFindSlot (2 ^ w) (testCompare key) (some t) (key a)) (some slot, p) ∧
      Leads h (rbtreeAdd (some t) p (some slot) (some a)) () h' ∧
      Filed key t nodes h' (a :: inside) ∧ a ∉ inside ∧ (∀ c ∈ inside, key c ≠ key a) ∧
      (as ++ a :: inside).Nodup ∧ Keyed key (as ++ a :: inside) := by
  have ha : a ∉ inside := by
    rw [List.cons_append, List.nodup_cons, List.mem_append, not_or] at hnd
    exact hnd.1.2
  have hfresh := hkey.fresh (a := a) (by simp) (fun c hc => by simp [hc]) ha
  obtain ⟨slot, p, h', hslot, hadd, hs'⟩ := hs.add ha hfresh
  have hperm : (as ++ a :: inside).Perm (a :: as ++ inside) := List.perm_middle
  exact ⟨slot, p, h', hslot, hadd, hs', ha, hfresh, hperm.nodup_iff.mpr hnd,
    fun c hc d hd => hkey c (hperm.mem_iff.mp hc) d (hperm.mem_iff.mp hd)⟩

theorem Filed.fileAll (off : Word w) (hs : Filed key t nodes h inside)
    (hmem : ∀ a ∈ as, a ∈ nodes) (hnd : (as ++ inside).Nodup) (hkey : Keyed key (as ++ inside)) :
    ∃ h', Leads h (CRbtree.fileAll off key (some t) as) () h' ∧
      Filed key t nodes h' (as ++ inside) := by
  induction as generalizing h inside with
  | nil => exact ⟨h, ⟨[], rfl⟩, hs⟩
  | cons a as ih =>
    obtain ⟨slot, p, h₁, hslot, hadd, hs₁, ha, hfresh, hnd', hkey'⟩ := hs.addNext hnd hkey
    obtain ⟨h', hrest, hs'⟩ := ih hs₁ (fun c hc => hmem c (List.mem_cons_of_mem a hc)) hnd' hkey'
    have hlinked := hs.isLinked (hmem a List.mem_cons_self)
    rw [decide_eq_false ha] at hlinked
    have hlinked₁ := hs₁.isLinked (hmem a List.mem_cons_self)
    rw [decide_eq_true List.mem_cons_self] at hlinked₁
    refine ⟨h', ?_, hs'.perm List.perm_middle⟩
    refine hlinked.check rfl ((hs.findEntry_none hfresh).check (decide_eq_true rfl) ?_)
    refine hslot.leads.bind ((returns_assert rfl).leads.bind (hadd.bind ?_))
    exact hlinked₁.check rfl ((hs₁.findEntry List.mem_cons_self).check (decide_eq_true rfl) hrest)

theorem Filed.refileAll (hs : Filed key t nodes h inside) (hnd : (as ++ inside).Nodup)
    (hkey : Keyed key (as ++ inside)) :
    ∃ h', Leads h (CRbtree.refileAll key (some t) as) () h' ∧
      Filed key t nodes h' (as ++ inside) := by
  induction as generalizing h inside with
  | nil => exact ⟨h, ⟨[], rfl⟩, hs⟩
  | cons a as ih =>
    obtain ⟨slot, p, h₁, hslot, hadd, hs₁, -, -, hnd', hkey'⟩ := hs.addNext hnd hkey
    obtain ⟨h', hrest, hs'⟩ := ih hs₁ hnd' hkey'
    exact ⟨h', hslot.leads.bind ((returns_assert rfl).leads.bind (hadd.bind hrest)),
      hs'.perm List.perm_middle⟩

theorem Filed.unfileAll (off : Word w) (hs : Filed key t nodes h as) (hmem : ∀ a ∈ as, a ∈ nodes)
    (hnd : as.Nodup) (hkey : Keyed key as) :
    ∃ h', Leads h (CRbtree.unfileAll off key (some t) as) () h' ∧ Filed key t nodes h' [] := by
  induction as generalizing h with
  | nil => exact ⟨h, ⟨[], rfl⟩, hs⟩
  | cons a as ih =>
    obtain ⟨ha, hnd'⟩ := List.nodup_cons.mp hnd
    obtain ⟨h₁, hunlink, hs₁⟩ := hs.unlink List.mem_cons_self
    rw [List.erase_cons_head] at hs₁
    have hfresh := hkey.fresh List.mem_cons_self (fun c hc => List.mem_cons_of_mem a hc) ha
    obtain ⟨h', hrest, hs'⟩ := ih hs₁ (fun c hc => hmem c (List.mem_cons_of_mem a hc)) hnd'
      fun c hc d hd => hkey c (List.mem_cons_of_mem a hc) d (List.mem_cons_of_mem a hd)
    have hlinked := hs.isLinked (hmem a List.mem_cons_self)
    rw [decide_eq_true List.mem_cons_self] at hlinked
    have hlinked₁ := hs₁.isLinked (hmem a List.mem_cons_self)
    rw [decide_eq_false ha] at hlinked₁
    refine ⟨h', ?_, hs'⟩
    refine hlinked.check rfl ((hs.findEntry List.mem_cons_self).check (decide_eq_true rfl) ?_)
    refine hunlink.bind (hlinked₁.check rfl ?_)
    exact (hs₁.findEntry_none hfresh).check (decide_eq_true rfl) hrest

end Filed

/-- A safe loop, with a body that carries a value along. -/
def safeLoop {ι σ : Type} (L : SafeLoop (Command w) Answer ι) (body : ι → σ → Prog w σ) :
    ℕ → ι → ι → σ → Prog w σ
  | 0, iter, _, s => do
    if ← L.more iter then crash .endless else pure s
  | turns + 1, iter, safe, s => do
    if ← L.more iter then do
      let s ← body iter s
      let next ← L.next safe
      safeLoop L body turns safe next s
    else pure s

/-- A safe loop of test_map(), whose body counts its turns. -/
def countTurns {ι : Type} (L : SafeLoop (Command w) Answer ι) (body : ι → Prog w Unit)
    (turns : ℕ) : Prog w ℕ := do
  let iter ← L.first
  let safe ← L.next iter
  safeLoop L (fun iter i => do
    body iter
    pure (i + 1)) turns iter safe 0

section Safe

variable {α β ι : Type} {h : Heap w} {L : SafeLoop (Command w) Answer ι}
  {K : Contract (Command w) ι β (Heap w)} {view : Option α → ι} {xs : List α}
  {I : List (ι × β) → List α → Heap w → Prop} {turns : ℕ}

/-- A loop that carries an invariant ends, and its turns are counted. -/
theorem leads_countTurns (hc : SafeLoop.Carries (machine packed) L K h view xs I)
    (body : ι → Prog w Unit) (f : β)
    (hbody : ∀ i s, K.ready i s → ∃ s', Leads s (body i) () s' ∧ K.body i f s s')
    (hturns : xs.length ≤ turns) : ∃ h', Leads h (countTurns L body turns) xs.length h' ∧
      K.done (xs.map fun a => (view (some a), f)) h' := by
  have hgo : ∀ rest seen s turns n, I seen rest s → rest.length ≤ turns → ∃ s',
      Leads s (safeLoop L (fun iter i => do
        body iter
        pure (i + 1)) turns (view rest.head?) (view rest.tail.head?) n) (n + rest.length) s' ∧
      K.done (seen ++ rest.map fun a => (view (some a), f)) s' := by
    intro rest
    induction rest with
    | nil =>
      intro seen s turns n hI _
      obtain ⟨s', tr, hstop, -, hdone⟩ := hc.stop seen s hI
      refine ⟨s', ?_, by simpa using hdone⟩
      cases turns <;> exact Leads.bind ⟨tr, hstop⟩ ⟨[], rfl⟩
    | cons a rest ih =>
      intro seen s turns n hI hle
      obtain ⟨turns, rfl⟩ := Nat.exists_eq_add_one_of_ne_zero
        (show turns ≠ 0 by simp only [List.length_cons] at hle; omega)
      obtain ⟨s₁, tr₁, hmore, -, hready, hkeep⟩ := hc.more seen a rest s hI
      obtain ⟨s₂, hrun, hbody⟩ := hbody _ s₁ hready
      have hI' := hkeep f s₂ hbody
      obtain ⟨tr₂, hnext, -⟩ := hc.next _ rest s₂ hI'
      obtain ⟨s', hrest, hdone⟩ := ih _ s₂ turns (n + 1) hI' (by simpa using hle)
      refine ⟨s', ?_, by simpa using hdone⟩
      rw [show n + (a :: rest).length = n + 1 + rest.length by simp only [List.length_cons]; omega]
      exact Leads.bind ⟨tr₁, hmore⟩
        (Leads.bind (hrun.bind ⟨[], rfl⟩) (Leads.bind ⟨tr₂, hnext⟩ hrest))
  obtain ⟨tr, hfirst⟩ := hc.first
  obtain ⟨tr', hnext, -⟩ := hc.next [] xs h hc.start
  obtain ⟨h', hrun, hdone⟩ := hgo xs [] h turns 0 hc.start hturns
  rw [Nat.zero_add] at hrun
  exact ⟨h', Leads.bind ⟨tr, hfirst⟩ (Leads.bind ⟨tr', hnext⟩ hrun), hdone⟩

end Safe

/-- A round of test_map(): all nodes are added again, and the loop removes them. -/
def testMapRound {ι : Type} (key : Address w → ℕ) (t : Pointer w)
    (L : SafeLoop (Command w) Answer ι) (body : ι → Prog w Unit) (nodes : List (Address w)) :
    Prog w Unit := do
  refileAll key t nodes
  let i ← countTurns L body (2 ^ w)
  cAssert (i = nodes.length)
  cAssert (← rbtreeIsEmpty t)

/-- test_map() after the loops that only read the tree, with the markers that they have left. -/
def testMapRemoval (off : Word w) (key : Address w → ℕ) (t : Pointer w) (marker : Address w → Bool)
    (nodes : List (Address w)) : Prog w Unit := do
  unfileAll off key t nodes
  cAssert (← rbtreeIsEmpty t)
  testMapRound key t (rbtreeForEachSafe t) rbnodeUnlink nodes
  testMapRound key t (rbtreeForEachEntrySafe off t) (fun n => rbnodeUnlink (memberOf off n)) nodes
  testMapRound key t (rbtreeForEachSafePostorderUnlink t)
    (fun p => do cAssert !(← rbnodeIsLinked p)) nodes
  testMapRound key t (rbtreeForEachEntrySafePostorderUnlink off t)
    (fun n => do cAssert !(← rbnodeIsLinked (memberOf off n))) nodes
  cAssert (nodes.all fun a => !marker a)
  cAssert (← rbtreeIsEmpty t)

/-- test_map(), on an array of nodes that are embedded at the offset `off`. The key of an object
is its index in the array. -/
def testMap (off : Word w) (rand : ℕ → ℕ → ℕ) (t : Pointer w) (nodes : List (Address w)) :
    Prog w Unit := do
  rbtreeInit t
  initAll nodes
  let key := fun a => nodes.idxOf a
  let nodes := shuffle (rand 0) nodes nodes.length
  fileAll off key t nodes
  let marker ← testMapSurveys off key t (2 ^ w) nodes.length fun _ => false
  testMapRemoval off key t marker (shuffle (rand 1) nodes nodes.length)

section Rounds

variable {ι : Type} {key : Address w → ℕ} {t a : Address w} {nodes ns inside : List (Address w)}
  {h : Heap w} {off : Word w} {L : SafeLoop (Command w) Answer ι}

theorem Filed.laid (hs : Filed key t nodes h inside) :
    ∃ T, Laid h t T ∧ T.inorder.Nodup ∧ Sorted key T.inorder ∧ T.inorder.Perm inside := by
  obtain ⟨l, μ, ⟨h₀, cs, tr, hr, -⟩, hst, hperm⟩ := hs
  obtain ⟨m, F, -, hm, hseq, hh, -⟩ := hr.holds
  obtain ⟨T, hT, rfl, -⟩ := hh.mem_iff (show F.sequences t = some l by rw [hseq, only_self])
  exact ⟨T, hh.laid hm hT, F.nodup t T hT, hst.sorted, hperm⟩

/-- Where the root is NULL, the tree may be filled again, whatever else memory holds. -/
theorem filed_of_root (key : Address w → ℕ) (hroot : h.load (.root t) = none) :
    Filed key t [] h [] := by
  obtain ⟨h₀, cs, tr, hr⟩ := Sole.start hroot
  exact .nil ⟨h₀, cs, tr, hr, fun a ha => by cases ha⟩

theorem returns_isEmpty (hroot : h.load (.root t) = none) :
    Returns h (rbtreeIsEmpty (some t)) true := by
  have hrun : run (machine packed) (rbtreeIsEmpty (some t)) h =
      .ok ((h.load (.root t)).isNone, h, [.load (.root t)]) := rfl
  rw [hroot] at hrun
  exact ⟨_, hrun⟩

theorem leads_testMapRound {body : ι → Prog w Unit} (hroot : h.load (.root t) = none)
    (hnd : ns.Nodup) (hkey : Keyed key ns)
    (hloop : ∀ h₁, Filed key t [] h₁ ns → ∃ h', Leads h₁ (countTurns L body (2 ^ w)) ns.length h' ∧
      h'.load (.root t) = none) :
    ∃ h', Leads h (testMapRound key (some t) L body ns) () h' ∧ h'.load (.root t) = none := by
  have happ : (ns ++ []).Nodup := by rwa [List.append_nil]
  have hkeys : Keyed key (ns ++ []) := by rwa [List.append_nil]
  obtain ⟨h₁, hfill, hs⟩ := (filed_of_root key hroot).refileAll happ hkeys
  rw [List.append_nil] at hs
  obtain ⟨h', hrun, hroot'⟩ := hloop h₁ hs
  refine ⟨h', hfill.bind (hrun.bind ((returns_assert (decide_eq_true rfl)).leads.bind ?_)), hroot'⟩
  exact (returns_isEmpty hroot').leads.bind (returns_assert rfl)

/-- The objects that embed the nodes of the list. -/
theorem exists_entries {l : List (Address w)} (hobj : ∀ a ∈ l, a.word ≠ off) :
    ∃ es : List (Entry off), es.map Entry.node = l := by
  induction l with
  | nil => exact ⟨[], rfl⟩
  | cons a l ih =>
    obtain ⟨es, rfl⟩ := ih fun c hc => hobj c (List.mem_cons_of_mem a hc)
    have hne : a.word - off ≠ 0#(w + 2) := sub_ne_zero.mpr (hobj a List.mem_cons_self)
    exact ⟨⟨a.word - off, hne, a, (BitVec.sub_add_cancel a.word off).symm⟩ :: es, rfl⟩

theorem kept_of_all {α : Type} {point : ι → Pointer w} {view : Option α → ι} (xs : List α) :
    kept point (xs.map fun a => (view (some a), true)) = [] := by
  simp [kept]

/-- A loop that unlinks each node it comes to. -/
theorem Filed.unlinkLoop {α : Type} {node : α → Address w} {view : Option α → ι}
    (point : ι → Pointer w) (hp : Presents node view (rbtreeForEachSafe (some t)) L)
    (hpoint : ∀ a, point (view (some a)) = some (node a))
    (hview : ∀ l : List (Address w), l.Perm ns → ∃ xs : List α, xs.map node = l)
    (hnd : ns.Nodup) (hs : Filed key t nodes h ns) :
    ∃ h', Leads h (countTurns L (fun i => rbnodeUnlink (point i)) (2 ^ w)) ns.length h' ∧
      h'.load (.root t) = none := by
  obtain ⟨l, μ, ⟨h₀, cs, tr, hr, -⟩, -, hperm⟩ := hs
  obtain ⟨xs, rfl⟩ := hview l hperm
  have hlen : xs.length = ns.length := by rw [← hperm.length_eq, List.length_map]
  have hcarries := carries_unlinking hp hpoint hr (only_self t (xs.map node))
  obtain ⟨h', hrun, -, -, hnil⟩ := leads_countTurns hcarries
    (fun i => rbnodeUnlink (point i)) true (fun i s hi => by
      obtain ⟨a, ha, hready⟩ := hi
      obtain ⟨s', tr', hrun⟩ := hready (.unlink a) (.inl rfl)
      exact ⟨s', ha ▸ ⟨tr', hrun⟩, a, ha, .unlink hrun⟩)
    (hlen.trans_le (nodup_length_lt hnd).le)
  exact ⟨h', hlen ▸ hrun, hnil.mpr (kept_of_all xs)⟩

/-- A loop whose condition initialises each node, and empties the tree at the end. -/
theorem Filed.dismantleLoop {α : Type} {node : α → Address w} {view : Option α → ι}
    (point : ι → Pointer w)
    (hp : Presents node view (rbtreeForEachSafePostorderUnlink (some t)) L)
    (hpoint : ∀ a, point (view (some a)) = some (node a))
    (hview : ∀ l : List (Address w), l.Perm ns → ∃ xs : List α, xs.map node = l)
    (hnd : ns.Nodup) (hs : Filed key t nodes h ns) :
    ∃ h', Leads h (countTurns L (fun i => do cAssert !(← rbnodeIsLinked (point i))) (2 ^ w))
      ns.length h' ∧ h'.load (.root t) = none := by
  obtain ⟨T, hT, hndT, -, hperm⟩ := hs.laid
  have hpost := T.postorder_perm.trans hperm
  obtain ⟨xs, hxs⟩ := hview T.postorder hpost
  have hlen : xs.length = ns.length := by rw [← hpost.length_eq, ← hxs, List.length_map]
  have hcarries := carries_dismantling (dismantles_safePostorderUnlink t) hp hpoint hT hndT hxs
  obtain ⟨h', hrun, hroot⟩ := leads_countTurns hcarries
    (fun i => do cAssert !(← rbnodeIsLinked (point i))) () (fun i s hi => by
      obtain ⟨a, ha, hnode⟩ := hi rfl
      have hparent : parentOf (s.link a) = some a := by
        have hword := parentOf_or (some a) .black false
        rw [Memory.link, hnode]
        simpa [flagWord, Pointer.word] using hword
      have hlinked : Returns s (rbnodeIsLinked (some a)) false := by
        have hrun := (run_accessors s a).2.2.2.2
        rw [hparent, bne_self_eq_false] at hrun
        exact ⟨_, hrun⟩
      exact ⟨s, ha ▸ hlinked.bind (returns_assert rfl), a, ha, fun _ _ => rfl⟩)
    (hlen.trans_le (nodup_length_lt hnd).le)
  exact ⟨h', hlen ▸ hrun, hroot rfl⟩

end Rounds

section Test

variable {t : Address w} {nodes : List (Address w)} {off : Word w}

theorem Filed.testMapRemoval {key : Address w → ℕ} {ns : List (Address w)} {h : Heap w}
    (off : Word w) (hs : Filed key t nodes h ns) (hmem : ∀ a ∈ ns, a ∈ nodes) (hnd : ns.Nodup)
    (hkey : Keyed key ns) (hobj : ∀ a ∈ ns, a.word ≠ off) :
    ∃ h', Leads h (CRbtree.testMapRemoval off key (some t) (fun _ => false) ns) () h' := by
  obtain ⟨h₁, hunfile, hs₁⟩ := hs.unfileAll off hmem hnd hkey
  obtain ⟨T, hT, -, -, hperm⟩ := hs₁.laid
  have hroot₁ : h₁.load (.root t) = none := by
    rw [hT.load, ColorTree.root?_eq_none]
    cases T with
    | nil => rfl
    | node c l a r => simp [ColorTree.inorder] at hperm
  have hnodes : ∀ l : List (Address w), l.Perm ns →
      ∃ xs : List (Address w), xs.map (fun a => a) = l := fun l _ => ⟨l, List.map_id' l⟩
  have hentries : ∀ l : List (Address w), l.Perm ns →
      ∃ es : List (Entry off), es.map Entry.node = l :=
    fun l hl => exists_entries fun a ha => hobj a (hl.mem_iff.mp ha)
  obtain ⟨h₂, hround₁, hroot₂⟩ := leads_testMapRound (L := rbtreeForEachSafe (some t)) hroot₁ hnd
    hkey fun _ hs => hs.unlinkLoop id (presents_node _) (fun _ => rfl) hnodes hnd
  obtain ⟨h₃, hround₂, hroot₃⟩ := leads_testMapRound hroot₂ hnd hkey fun _ hs =>
    hs.unlinkLoop (memberOf off) (presents_entrySafe off (some t))
      (fun e => e.memberOf_address) hentries hnd
  obtain ⟨h₄, hround₃, hroot₄⟩ := leads_testMapRound hroot₃ hnd hkey fun _ hs =>
    hs.dismantleLoop id (presents_node _) (fun _ => rfl) hnodes hnd
  obtain ⟨h₅, hround₄, hroot₅⟩ := leads_testMapRound hroot₄ hnd hkey fun _ hs =>
    hs.dismantleLoop (memberOf off) (presents_entrySafePostorderUnlink off (some t))
      (fun e => e.memberOf_address) hentries hnd
  have hall : (ns.all fun _ => !false) = true := by simp
  refine ⟨h₅, hunfile.bind ((returns_isEmpty hroot₁).check rfl ?_)⟩
  refine hround₁.bind (hround₂.bind (hround₃.bind (hround₄.bind ?_)))
  exact (returns_assert hall).leads.bind
    ((returns_isEmpty hroot₅).leads.bind (returns_assert rfl))

/-- test_map() passes for every array of nodes that the counters of its shuffles can hold,
whatever is in memory at first and however the array is shuffled. -/
theorem testMap_passes (t : Address w) (hnd : nodes.Nodup) (_hlen : nodes.length < 2 ^ 32)
    (hobj : ∀ a ∈ nodes, a.word ≠ off) (rand : ℕ → ℕ → ℕ) (h : Heap w) :
    ∃ h' tr, run (machine packed) (testMap off rand (some t) nodes) h = .ok ((), h', tr) := by
  obtain ⟨h₁, tr₁, h₂, tr₂, hinit, hall, hp⟩ := exists_initAll t nodes h
  have hperm := shuffle_perm (rand 0) nodes nodes.length
  generalize hns : shuffle (rand 0) nodes nodes.length = ns at hperm
  have hperm' := (shuffle_perm (rand 1) ns ns.length).trans hperm
  have hmem : ∀ {l : List (Address w)}, l.Perm nodes → ∀ a ∈ l, a ∈ nodes.reverse :=
    fun hl a ha => List.mem_reverse.mpr (hl.mem_iff.mp ha)
  have hkey : ∀ {l : List (Address w)}, l.Perm nodes → Keyed (fun a => nodes.idxOf a) l :=
    fun hl a ha c _ he => (List.idxOf_inj (hl.mem_iff.mp ha)).mp he
  have hend : (ns ++ []).Perm nodes := by rwa [List.append_nil]
  obtain ⟨h₃, hfile, hs⟩ := (Filed.nil hp).fileAll off (hmem hperm)
    (hend.nodup_iff.mpr hnd) (hkey hend)
  obtain ⟨T, hT, hndT, hsort, hin⟩ := hs.laid
  have hin' := hin.trans hend
  have hsize : T.size = ns.length := by
    rw [← ColorTree.size_eq_length, hin.length_eq, List.append_nil]
  have hlt := nodup_length_lt hnd
  have hsmall : ∀ a ∈ T.inorder, nodes.idxOf a < 2 ^ (w + 2) := fun a ha =>
    (List.idxOf_lt_length_of_mem (hin'.mem_iff.mp ha)).trans
      (hlt.trans_le (Nat.pow_le_pow_right (by decide) (Nat.le_add_right w 2)))
  have hsurveys := testMapSurveys_passes hT hndT hsort hsmall
    (fun a ha => hobj a (hin'.mem_iff.mp ha)) (fun _ _ => rfl)
    (hsize ▸ hperm.length_eq ▸ hlt.le)
  rw [hsize] at hsurveys
  obtain ⟨h', hremove⟩ := (hs.perm (hend.trans hperm'.symm)).testMapRemoval off
    (hmem hperm') (hperm'.nodup_iff.mpr hnd) (hkey hperm')
    fun a ha => hobj a (hperm'.mem_iff.mp ha)
  refine ⟨h', ?_⟩
  unfold testMap
  simp only [hns]
  exact Leads.bind ⟨tr₁, hinit⟩ (Leads.bind ⟨tr₂, hall⟩
    (hfile.bind (hsurveys.leads.bind hremove)))

theorem testMap_passes_sample : ∃ h' tr, run (machine packed)
    (testMap 4#8 (fun i j => i + 2 * j) (some (cell 0)) [cell 2, cell 4, cell 6, cell 3, cell 5])
      sampleHeap = .ok ((), h', tr) :=
  testMap_passes (cell 0) (by decide) (by decide) (by simp [cell]) _ _

end Test

end CRbtree
