import CRbtree.Checking
import CRbtree.TestShuffle
import CRbtree.Embeddings

set_option autoImplicit false

/-!
test-parallel.c: a parent that traces a child, and checks the tree that they share after every
instruction of the child.
-/

namespace CRbtree
open RedBlack TaggedPointers PointerGraphs Programs

variable {w : ℕ}

/-- The signals that the child raises. -/
inductive Signal where
  | usr1 | urg | usr2 | kill
  deriving DecidableEq, Repr

/-- What an instruction of the child does: an access to the tree, a load of `ctx->nodes[i]`, a
signal, or nothing that concerns the shared mapping. -/
inductive ChildCommand (w : ℕ) where
  | access (c : Command w)
  | entry (i : ℕ)
  | raise (s : Signal)
  | other

def ChildAnswer : ChildCommand w → Type
  | .access c => Answer c
  | .entry _ => Address w
  | .raise _ | .other => Unit

abbrev ChildProg (w : ℕ) (α : Type) := Program (ChildCommand w) ChildAnswer α

/-- The library, called by the child. -/
def byChild {α : Type} (p : Prog w α) : ChildProg w α := p.embed .access fun _ r => r

/-- `ctx->nodes[i]` -/
def nodeEntry (i : ℕ) : ChildProg w (Pointer w) := do
  let a ← issue (ChildCommand.entry i)
  pure (some (a : Address w))

def raise (s : Signal) : ChildProg w Unit := issue (ChildCommand.raise s)

def childAssert (b : Bool) : ChildProg w Unit := if b then pure () else raise .kill

/-- compare(), which returns the difference of two addresses as an `int`. -/
def compareNodes : CRBCompareFunc (Pointer w) w :=
  fun _ k n => ((n.word - k.word).signExtend 32).toInt

/-- test_child1() from the index `i` on, with so many nodes to go. -/
def testChild1 (t : Pointer w) : ℕ → ℕ → ChildProg w Unit
  | 0, _ => pure ()
  | todo + 1, i => do
    childAssert !(← byChild (rbnodeIsLinked (← nodeEntry i)))
    let (slot, p) ← byChild (rbtreeFindSlot (2 ^ w) compareNodes t (← nodeEntry i))
    byChild (rbtreeAdd t p slot (← nodeEntry i))
    testChild1 t todo (i + 1)

def testChild2 : ℕ → ℕ → ChildProg w Unit
  | 0, _ => pure ()
  | todo + 1, i => do
    childAssert (← byChild (rbnodeIsLinked (← nodeEntry i)))
    byChild (rbnodeUnlink (← nodeEntry i))
    testChild2 todo (i + 1)

/-- The values of `errno` that the test tells apart. -/
inductive Errno where
  | eperm | eio | other
  deriving DecidableEq, Repr

/-- test_parallel_child(), by how PTRACE_TRACEME fails, if it does. -/
def testParallelChild (traceme : Option Errno) (t : Pointer w) (nNodes : ℕ) : ChildProg w ℕ :=
  if traceme = some .eperm then pure 0xdf
  else do
    childAssert traceme.isNone
    raise .usr1
    testChild1 t nNodes 0
    raise .urg
    testChild2 nNodes 0
    raise .usr2
    pure 0xef

/-- The mapping that both processes share, how the child has been resumed, and what the parent
counts. -/
structure Traced (w : ℕ) where
  memory : Heap w
  nodes : List (Address w)
  visited : Address w → Bool
  stepping : Bool
  nEvent : ℕ
  nInstr : ℕ

/-- How the calls of ptrace() fail, if they do: the child's, the first one of the parent, and
those that the parent makes later in the given states. -/
structure Ptrace (w : ℕ) where
  traceme : Option Errno
  singlestep : Option Errno
  later : Traced w → Option Errno

/-- How the test ends other than by returning. The child crashes where a command of its program
fails, the parent is killed by its own assertion in test_parent_middle(), and the test is skipped
where PTRACE_SINGLESTEP is not implemented. -/
inductive TestFailure where
  | assertion
  | step (e : StepFailure)
  | crashed (e : Crash)
  | killed | skipped
  deriving DecidableEq

/-- The loops of test_parent_middle() and test_parent_end(). -/
def assertAll (linked : Bool) : List (Address w) → Prog w Unit
  | [] => pure ()
  | a :: as => do
    cAssert ((← rbnodeIsLinked (some a)) = linked)
    assertAll linked as

def testParentMiddle (rand : ℕ → ℕ) (s : Traced w) : Except TestFailure (Traced w) :=
  let nodes := shuffle rand s.nodes s.nodes.length
  match run (machine packed) (assertAll true nodes) s.memory with
  | .ok _ => .ok { s with nodes }
  | .error _ => .error .killed

def testParentEnd (s : Traced w) : Except TestFailure (Traced w) :=
  match run (machine packed) (assertAll false s.nodes) s.memory with
  | .ok _ => .ok s
  | .error _ => .error .assertion

/-- `c_assert(r >= 0)` after a later request to resume the child -/
def resumeChild (ptrace : Ptrace w) (s : Traced w) : Except TestFailure (Traced w) :=
  if (ptrace.later s).isNone then .ok s else .error .assertion

/-- SIGTRAP, if the child runs in single steps. -/
def onTrap (t : Address w) (ptrace : Ptrace w) (s : Traced w) : Except TestFailure (Traced w) :=
  if s.stepping then
    match testParentStep (2 ^ s.nodes.length) s.nodes t s.memory.load s.visited with
    | .ok x => resumeChild ptrace { s with visited := x.visited, nInstr := s.nInstr + 1 }
    | .error e => .error (.step e)
  else .ok s

/-- The other signals. SIGKILL ends the child, which has not exited then. -/
def onSignal (ptrace : Ptrace w) (rand : ℕ → ℕ) (s : Traced w) :
    Signal → Except TestFailure (Traced w)
  | .usr1 =>
    match ptrace.singlestep with
    | none => .ok { s with nEvent := s.nEvent ||| 1, stepping := true }
    | some .eio => .error .skipped
    | some _ => .error .assertion
  | .urg => (testParentMiddle rand s).bind fun s =>
    resumeChild ptrace { s with nEvent := s.nEvent ||| 2, stepping := true }
  | .usr2 => (testParentEnd s).bind fun s =>
    resumeChild ptrace { s with nEvent := s.nEvent ||| 4, stepping := false }
  | .kill => .error .assertion

/-- An instruction of the child, and what the parent does when it stops after it. -/
def traced (t : Address w) (ptrace : Ptrace w) (rand : ℕ → ℕ) :
    Machine (ChildCommand w) ChildAnswer (Traced w) TestFailure
  | .access c, s =>
    match machine packed c s.memory with
    | .ok (r, h) => (onTrap t ptrace { s with memory := h }).map fun s => (r, s)
    | .error e => .error (.crashed e)
  | .entry i, s =>
    match s.nodes[i]? with
    | some a => (onTrap t ptrace s).map fun s => (a, s)
    | none => .error (.crashed .nullDereference)
  | .raise x, s => (onSignal ptrace rand s x).map fun s => ((), s)
  | .other, s => (onTrap t ptrace s).map fun s => ((), s)

/-- The end of test_parallel(), by the exit status of the child. -/
def testParallelEnd (status : ℕ) (s : Traced w) : Except TestFailure ℕ :=
  if status = 0xdf then .ok 77
  else if status = 0xef ∧ s.nEvent &&& 1 ≠ 0 ∧ s.nEvent &&& 2 ≠ 0 ∧ s.nEvent &&& 4 ≠ 0 ∧
      0 < s.nInstr then .ok 0
  else .error .assertion

/-- test_parallel(), with `child` for the instructions of the child and `nodes` for the nodes in
the mapping. -/
def testParallel (t : Address w) (ptrace : Ptrace w) (rand : ℕ → ℕ → ℕ)
    (child : ChildProg w ℕ) (nodes : List (Address w)) (h : Heap w) : Except TestFailure ℕ :=
  match run (machine packed) (initAll nodes) h with
  | .error _ => .error .assertion
  | .ok (_, h, _) =>
    match run (traced t ptrace (rand 1)) child
      ⟨h, shuffle (rand 0) nodes nodes.length, fun _ => false, false, 0, 0⟩ with
    | .error .skipped => .ok 77
    | .error e => .error e
    | .ok (status, s, _) => testParallelEnd status s

/-- How the test ends, as far as the first requests decide. -/
def Ptrace.verdict (ptrace : Ptrace w) : Except TestFailure ℕ :=
  match ptrace.traceme, ptrace.singlestep with
  | some .eperm, _ => .ok 77
  | some _, _ => .error .assertion
  | none, some .eio => .ok 77
  | none, some _ => .error .assertion
  | none, none => .ok 0

section Stops

variable {t : Address w} {ptrace : Ptrace w} {rand : ℕ → ℕ} {s : Traced w}

/-- The kernel grants every request. -/
def Ptrace.obliging : Ptrace w := ⟨none, none, fun _ => none⟩

theorem resumeChild_obliging (s : Traced w) : resumeChild .obliging s = .ok s := rfl

/-- The check passes in this state. -/
structure Watched (t : Address w) (s : Traced w) : Prop where
  endsIn : EndsIn s.memory.load {a | a ∈ s.nodes} (s.memory.load (.root t))
  unvisited : s.visited = fun _ => false

/-- The number of turns that the check is given is enough. -/
theorem Watched.check (h : Watched t s) :
    testParentStep (2 ^ s.nodes.length) s.nodes t s.memory.load s.visited =
      .ok ⟨s.visited, []⟩ := by
  obtain ⟨T, hT, hmem, hpass⟩ :=
    testParentStep_passes (fun a (_ : a ∈ _) => congrFun h.unvisited a) h.endsIn
  refine hpass _ ?_
  have hheight : T.height ≤ s.nodes.length :=
    (hT.height_le fun a ha => List.mem_toFinset.mpr (hmem a ha)).trans (List.toFinset_card_le _)
  exact T.size_lt_two_pow_height.le.trans (Nat.pow_le_pow_right (by decide) hheight)

/-- The parent counts the instruction. -/
def Traced.later (s : Traced w) (k : ℕ) : Traced w := { s with nInstr := s.nInstr + k }

theorem Traced.later_zero (s : Traced w) : s = s.later 0 := rfl

theorem Watched.onTrap (h : Watched t s) : ∃ k, CRbtree.onTrap t .obliging s = .ok (s.later k) ∧
    (s.stepping = true → k = 1) := by
  unfold CRbtree.onTrap
  by_cases hs : s.stepping = true
  · exact ⟨1, by rw [if_pos hs, h.check]; rfl, fun _ => rfl⟩
  · exact ⟨0, by rw [if_neg hs]; rfl, fun h => absurd h hs⟩

theorem onTrap_later (s : Traced w) (k : ℕ) :
    CRbtree.onTrap t .obliging (s.later k) = (CRbtree.onTrap t .obliging s).map (·.later k) := by
  by_cases hs : s.stepping = true
  · rw [CRbtree.onTrap, CRbtree.onTrap, if_pos (show (s.later k).stepping = true from hs),
      if_pos hs]
    simp only [Traced.later]
    cases testParentStep (2 ^ s.nodes.length) s.nodes t s.memory.load s.visited with
    | error e => rfl
    | ok x => simp only [Except.map, resumeChild_obliging, Nat.add_right_comm]
  · rw [CRbtree.onTrap, CRbtree.onTrap, if_neg (show ¬(s.later k).stepping = true from hs),
      if_neg hs]
    rfl

theorem testParentMiddle_later (s : Traced w) (k : ℕ) :
    testParentMiddle rand (s.later k) = (testParentMiddle rand s).map (·.later k) := by
  simp only [testParentMiddle, Traced.later]
  cases run (machine packed) (assertAll true (shuffle rand s.nodes s.nodes.length)) s.memory <;> rfl

theorem testParentEnd_later (s : Traced w) (k : ℕ) :
    testParentEnd (s.later k) = (testParentEnd s).map (·.later k) := by
  simp only [testParentEnd, Traced.later]
  cases run (machine packed) (assertAll false s.nodes) s.memory <;> rfl

theorem onSignal_later (s : Traced w) (k : ℕ) (x : Signal) :
    onSignal .obliging rand (s.later k) x = (onSignal .obliging rand s x).map (·.later k) := by
  cases x with
  | usr1 => rfl
  | urg =>
    rw [onSignal, onSignal, testParentMiddle_later]
    cases testParentMiddle rand s <;> rfl
  | usr2 =>
    rw [onSignal, onSignal, testParentEnd_later]
    cases testParentEnd s <;> rfl
  | kill => rfl

/-- The parent's reactions do not depend on its count. -/
theorem traced_later (c : ChildCommand w) (s : Traced w) (k : ℕ) :
    traced t .obliging rand c (s.later k) =
      (traced t .obliging rand c s).map fun x => (x.1, x.2.later k) := by
  cases c with
  | access c =>
    simp only [traced]
    rw [show (s.later k).memory = s.memory from rfl]
    cases machine packed c s.memory with
    | error e => rfl
    | ok x =>
      obtain ⟨r, h⟩ := x
      have htrap := onTrap_later (t := t) { s with memory := h } k
      refine (congrArg (Except.map fun s => (r, s)) htrap).trans ?_
      simp only
      cases CRbtree.onTrap t .obliging { s with memory := h } <;> rfl
  | entry i =>
    simp only [traced]
    rw [show (s.later k).nodes = s.nodes from rfl]
    cases s.nodes[i]? with
    | none => rfl
    | some a =>
      simp only [onTrap_later]
      cases CRbtree.onTrap t .obliging s <;> rfl
  | raise x =>
    simp only [traced, onSignal_later]
    cases onSignal .obliging rand s x <;> rfl
  | other =>
    simp only [traced, onTrap_later]
    cases CRbtree.onTrap t .obliging s <;> rfl

end Stops

/-- The cut to an `int` is harmless where all nodes lie in less than 4 GiB. -/
theorem compareNodes_ne_zero {base : Word w} {a b : Address w} (t : Pointer w)
    (ha : (a.word - base).toNat < 2 ^ 32) (hb : (b.word - base).toNat < 2 ^ 32) (hab : a ≠ b) :
    compareNodes t (some a) (some b) ≠ 0 := by
  intro hzero
  have hword : a.word - base ≠ b.word - base :=
    fun h => hab (position_injective (congrArg BitVec.toNat (sub_left_injective h)))
  generalize hx : a.word - base = x at ha hword
  generalize hy : b.word - base = y at hb hword
  have hsub : b.word - a.word = y - x := by rw [← hx, ← hy, sub_sub_sub_cancel_right]
  have hbmod : Int.bmod (y - x).toNat (2 ^ min 32 (w + 2)) = 0 := by
    rw [← BitVec.toInt_signExtend_eq_toNat_bmod, ← hsub]
    exact hzero
  have hdvd : 2 ^ min 32 (w + 2) ∣ (y - x).toNat :=
    Int.natCast_dvd_natCast.mp (Int.dvd_of_bmod_eq_zero hbmod)
  have hpow : 2 ^ min 32 (w + 2) ∣ 2 ^ (w + 2) := Nat.pow_dvd_pow 2 (Nat.min_le_right ..)
  have hlt : ∀ z : Word w, z.toNat < 2 ^ 32 → z.toNat < 2 ^ min 32 (w + 2) := by
    intro z hz
    rcases Nat.le_total 32 (w + 2) with h | h
    · rwa [Nat.min_eq_left h]
    · rw [Nat.min_eq_right h]
      exact z.isLt
  have hxm := hlt x ha
  have hym := hlt y hb
  rw [BitVec.toNat_sub, Nat.dvd_mod_iff hpow] at hdvd
  obtain ⟨k, hk⟩ := hpow
  obtain ⟨j, hj⟩ := hdvd
  have hxw := x.isLt
  have heq : 2 ^ min 32 (w + 2) * k + y.toNat = 2 ^ min 32 (w + 2) * j + x.toNat := by omega
  have hmod := congrArg (· % 2 ^ min 32 (w + 2)) heq
  simp only [Nat.mul_add_mod, Nat.mod_eq_of_lt hxm, Nat.mod_eq_of_lt hym] at hmod
  exact hword (BitVec.eq_of_toNat_eq hmod.symm)

section Rules

variable {t : Address w} {rand : ℕ → ℕ} {α β : Type} {nodes : List (Address w)}
  {e k : ℕ} {h h' : Heap w} {s : Traced w} {Q : β → Traced w → ℕ → Prop}

/-- The parent may look at any time. -/
def Idle (t : Address w) (s : Traced w) : Prop := s.stepping = true → Watched t s

/-- The child goes through without a failure of either side, and stops only where the parent may
look. -/
abbrev Goes (t : Address w) (rand : ℕ → ℕ) (p : ChildProg w β)
    (Q : β → Traced w → ℕ → Prop) (s : Traced w) : Prop :=
  wp (traced t .obliging rand) (fun s _ => Idle t s) (fun _ => 0) p Q s

/-- The tree leads to nodes of the test only. -/
def Known (t : Address w) (nodes : List (Address w)) (h : Heap w) : Prop :=
  EndsIn h.load {a | a ∈ nodes} (h.load (.root t))

/-- The child runs in single steps, on the memory `h`. -/
structure Stepping (nodes : List (Address w)) (e k : ℕ) (h : Heap w) (s : Traced w) : Prop where
  memory : s.memory = h
  nodes : s.nodes = nodes
  unvisited : s.visited = fun _ => false
  stepping : s.stepping = true
  events : s.nEvent = e
  instr : k ≤ s.nInstr

theorem Stepping.watched (hs : Stepping nodes e k h s) (hh : Known t nodes h) : Watched t s :=
  ⟨by rw [hs.memory, hs.nodes]; exact hh, hs.unvisited⟩

theorem Stepping.later (hs : Stepping nodes e k h s) : Stepping nodes e (k + 1) h (s.later 1) :=
  ⟨hs.memory, hs.nodes, hs.unvisited, hs.stepping, hs.events, Nat.add_le_add_right hs.instr 1⟩

theorem Stepping.onTrap (hs : Stepping nodes e k h s) (hh : Known t nodes h) :
    CRbtree.onTrap t .obliging s = .ok (s.later 1) := by
  obtain ⟨j, htrap, hj⟩ := (hs.watched hh).onTrap
  rw [htrap, hj hs.stepping]

theorem goes_byChild {p : Prog w α} {K : α → ChildProg w β} {a : α} {tr : List (Command w)}
    (hrun : run (machine packed) p h = .ok (a, h', tr))
    (hsteps : ∀ tr q g, Steps (machine packed) p h tr q g → Known t nodes g)
    (hs : Stepping nodes e k h s)
    (hK : ∀ s', Stepping nodes e k h' s' → Goes t rand (K a) Q s') :
    Goes t rand (byChild p >>= K) Q s := by
  refine wp_embed ?_ hrun hsteps hs hK
  intro c g r g' u hg hg' hu hc
  refine ⟨fun _ => hu.watched hg, ?_⟩
  have hu' : Stepping nodes e k g' { u with memory := g' } :=
    ⟨rfl, hu.nodes, hu.unvisited, hu.stepping, hu.events, hu.instr⟩
  have htraced : traced t .obliging rand (.access c) u =
      .ok (r, Traced.later { u with memory := g' } 1) := by
    simp only [traced, hu.memory, hc, hu'.onTrap hg']
    rfl
  exact ⟨r, _, htraced, rfl, hu'.memory, hu'.nodes, hu'.unvisited, hu'.stepping, hu'.events,
    hu'.instr.trans (Nat.le_add_right ..)⟩

theorem goes_reading {p : Prog w α} {K : α → ChildProg w β} {a : α} (hp : Returns h p a)
    (hread : ReadOnly p) (hh : Known t nodes h) (hs : Stepping nodes e k h s)
    (hK : ∀ s', Stepping nodes e k h s' → Goes t rand (K a) Q s') :
    Goes t rand (byChild p >>= K) Q s := by
  obtain ⟨tr, hrun⟩ := hp
  refine goes_byChild hrun (fun tr q g hsteps => ?_) hs hK
  rwa [hread.steps_eq hsteps]

theorem goes_nodeEntry {K : Pointer w → ChildProg w β} {i : ℕ} {a : Address w}
    (hi : nodes[i]? = some a) (hh : Known t nodes h) (hs : Stepping nodes e k h s)
    (hK : ∀ s', Stepping nodes e 1 h s' → Goes t rand (K (some a)) Q s') :
    Goes t rand (nodeEntry i >>= K) Q s := by
  have htraced : traced t .obliging rand (.entry i) s = .ok (a, s.later 1) := by
    simp only [traced, hs.nodes, hi, hs.onTrap hh]
    rfl
  refine ⟨a, s.later 1, htraced, fun _ => hs.watched hh, ?_⟩
  simp only [Nat.zero_add]
  exact hK _ ⟨hs.memory, hs.nodes, hs.unvisited, hs.stepping, hs.events, Nat.le_add_left ..⟩

end Rules

section Library

variable {κ : Type} {t : Address w} {nodes l : List (Address w)} {h : Heap w}

theorem readOnly_findSlot {f : CRBCompareFunc κ w} {t : Pointer w} {k : κ} (turns : ℕ) :
    ReadOnly (rbtreeFindSlot turns f t k) := by
  have hloop : ∀ i p, ReadOnly (findSlotLoop f t k turns i p) := by
    induction turns with
    | zero =>
      exact fun i p => (readOnly_issue rfl).bind fun _ => .ite (readOnly_crash _) .pure
    | succ turns ih =>
      exact fun i p => (readOnly_issue rfl).bind fun _ => .ite
        ((readOnly_issue rfl).bind fun _ => (readOnly_issue rfl).bind fun _ => .ite
          ((readOnly_issue rfl).bind fun _ => readOnly_deref.bind fun _ => ih _ _)
          (.ite ((readOnly_issue rfl).bind fun _ => readOnly_deref.bind fun _ => ih _ _) .pure))
        .pure
  exact readOnly_assert.bind fun _ => readOnly_deref.bind fun _ => hloop _ _

theorem Prepared.known (hp : Prepared t nodes h l) (hl : ∀ a ∈ l, a ∈ nodes) :
    Known t nodes h := by
  obtain ⟨h₀, cs, tr, hr, -⟩ := hp
  obtain ⟨m, F, -, hm, hseq, hh, -⟩ := hr.holds
  obtain ⟨T, hT, rfl, hu⟩ := hh.mem_iff (show F.sequences t = some l by rw [hseq, only_self])
  exact ⟨T, hm.1 ▸ hu, hl⟩

end Library

section Child

variable {t : Address w} {rand : ℕ → ℕ} {β : Type}
  {nodes done todo l : List (Address w)} {e k : ℕ} {h : Heap w} {s : Traced w}
  {Q : β → Traced w → ℕ → Prop} {K : Unit → ChildProg w β}

theorem getElem?_middle {a : Address w} : (done ++ a :: todo)[done.length]? = some a := by
  simp

/-- The slot search finds a place for a node that is not in the tree. -/
theorem Prepared.findSlot {n : Address w} (hp : Prepared t nodes h l) (hn : n ∉ l)
    (hcompare : ∀ a ∈ l, compareNodes (some t) (some n) (some a) ≠ 0) :
    ∃ p slot, Returns h (rbtreeFindSlot (2 ^ w) compareNodes (some t) (some n)) (some slot, p) ∧
      SlotFor h t l none (some slot) p := by
  obtain ⟨h₀, cs, tr, hr, -⟩ := hp
  obtain ⟨m, F, -, hm, hseq, hh, -⟩ := hr.holds
  obtain ⟨T, hT, rfl, -⟩ := hh.mem_iff (show F.sequences t = some l by rw [hseq, only_self])
  have hrun := run_findSlot hm (hh.tree t T hT) (height_lt_of_nodup (F.nodup t T hT)).le
    compareNodes (some n)
  have hfor := slotFor_search (hh.laid hm hT) fun a => compareNodes (some t) (some n) (some a)
  have hnone : (RedBlack.search (fun a => compareNodes (some t) (some n) (some a)) [] T).2.root? =
      none := by
    refine Option.eq_none_iff_forall_not_mem.mpr fun a ha => ?_
    exact hcompare a (mem_of_search ha)
      (search_eq_zero (v := fun a => compareNodes (some t) (some n) (some a)) ha)
  rw [hnone] at hfor
  generalize slotOf (.root t)
    (RedBlack.search (fun a => compareNodes (some t) (some n) (some a)) [] T) = x at hrun hfor
  obtain ⟨slot, p⟩ := x
  obtain ⟨slot, rfl⟩ := Option.ne_none_iff_exists'.mp fun hnil => hfor.conflict.mp hnil rfl
  exact ⟨p, slot, hrun, hfor⟩

theorem insertBeside_perm {d : Side} {p n : Address w} (hp : p ∈ l) :
    (insertBeside d p n l).Perm (n :: l) := by
  induction l with
  | nil => cases hp
  | cons a l ih =>
    rw [insertBeside]
    by_cases hap : a = p
    · cases d
      · simp [hap]
      · simpa [hap] using List.Perm.swap n p l
    · rw [if_neg hap]
      exact ((ih (List.mem_of_ne_of_mem (Ne.symm hap) hp)).cons a).trans (.swap n a l)

theorem SlotFor.add {n : Address w} {q p : Pointer w} {slot : Slot w}
    (hfor : SlotFor h t l q (some slot) p) :
    ∃ l', (Call.add t p slot n).after (only t l) = only t l' ∧ l'.Perm (n :: l) := by
  rcases hfor.place slot rfl with ⟨rfl, rfl, -⟩ | ⟨a, ha, rfl, -⟩
  · exact ⟨[n], update_only t _ _, .refl _⟩
  · refine ⟨insertBeside (sideOf slot) a n l, funext fun t' => ?_, insertBeside_perm ha⟩
    by_cases ht : t' = t
    · subst ht
      simp [Call.after]
    · simp [Call.after, only, Function.update_of_ne ht]

/-- One turn of test_child1(). -/
theorem goes_add {n : Address w} {i : ℕ} (hp : Prepared t nodes h l) (hl : ∀ a ∈ l, a ∈ nodes)
    (hi : nodes[i]? = some n) (hn : n ∉ l)
    (hcompare : ∀ a ∈ l, compareNodes (some t) (some n) (some a) ≠ 0)
    (hs : Stepping nodes e k h s)
    (hK : ∀ h' l' s', Prepared t nodes h' l' → l'.Perm (n :: l) → Stepping nodes e 1 h' s' →
      Goes t rand (K ()) Q s') :
    Goes t rand ((do
      childAssert !(← byChild (rbnodeIsLinked (← nodeEntry i)))
      let (slot, p) ← byChild (rbtreeFindSlot (2 ^ w) compareNodes (some t) (← nodeEntry i))
      byChild (rbtreeAdd (some t) p slot (← nodeEntry i))) >>= K) Q s := by
  have hmem : n ∈ nodes := List.mem_of_getElem? hi
  have hknown := hp.known hl
  obtain ⟨p, slot, hslot, hfor⟩ := hp.findSlot hn hcompare
  obtain ⟨l', hafter, hperm⟩ := hfor.add (n := n)
  have hlinked := hp.isLinked hmem
  rw [decide_eq_false hn] at hlinked
  simp only [bind_assoc]
  refine goes_nodeEntry hi hknown hs fun s₁ hs₁ => ?_
  refine goes_reading hlinked readOnly_isLinked hknown hs₁ fun s₂ hs₂ => ?_
  refine goes_nodeEntry hi hknown hs₂ fun s₃ hs₃ => ?_
  refine goes_reading hslot (readOnly_findSlot _) hknown hs₃ fun s₄ hs₄ => ?_
  refine goes_nodeEntry hi hknown hs₄ fun s₅ hs₅ => ?_
  obtain ⟨h₀, cs, tr, hr, hset⟩ := hp
  have hlegal := hfor.legal (n := n) (only_self t l) (mt linked_only.mp hn)
  obtain ⟨h', tr', hrun, hr'⟩ := hr.exists_call hlegal
  have hall : ∀ k, only t l t = some k ∨ (Call.add t p slot n).after (only t l) t = some k →
      ∀ a ∈ k, a ∈ nodes := by
    rw [hafter, only_self, only_self]
    rintro k (hk | hk) a ha
    · exact hl a (Option.some.inj hk ▸ ha)
    · rcases List.mem_cons.mp (hperm.mem_iff.mp (Option.some.inj hk ▸ ha)) with rfl | ha
      · exact hmem
      · exact hl a ha
  refine goes_byChild hrun (fun tr q g hsteps => hr.endsIn_steps hlegal (by simp [only_self])
    hsteps hall) hs₅ fun s₆ hs₆ => hK h' l' s₆ ⟨h₀, _, _, hafter ▸ hr', fun a ha => ?_⟩ hperm hs₆
  rw [settled_concat]
  exact hset a ha

/-- One turn of test_child2(). -/
theorem goes_remove {n : Address w} {i : ℕ} (hp : Prepared t nodes h l)
    (hl : ∀ a ∈ l, a ∈ nodes) (hi : nodes[i]? = some n) (hn : n ∈ l)
    (hs : Stepping nodes e k h s)
    (hK : ∀ h' s', Prepared t nodes h' (l.erase n) → Stepping nodes e 1 h' s' →
      Goes t rand (K ()) Q s') :
    Goes t rand ((do
      childAssert (← byChild (rbnodeIsLinked (← nodeEntry i)))
      byChild (rbnodeUnlink (← nodeEntry i))) >>= K) Q s := by
  have hknown := hp.known hl
  have hlinked := hp.isLinked (List.mem_of_getElem? hi)
  rw [decide_eq_true hn] at hlinked
  simp only [bind_assoc]
  refine goes_nodeEntry hi hknown hs fun s₁ hs₁ => ?_
  refine goes_reading hlinked readOnly_isLinked hknown hs₁ fun s₂ hs₂ => ?_
  refine goes_nodeEntry hi hknown hs₂ fun s₃ hs₃ => ?_
  obtain ⟨h', tr', hrun, hp'⟩ := hp.unlink hn
  obtain ⟨h₀, cs, tr, hr, hset⟩ := hp
  have hlegal : (Call.unlink n).Legal (only t l) h.load := linked_only.mpr hn
  have hall : ∀ k, only t l t = some k ∨ (Call.unlink n).after (only t l) t = some k →
      ∀ a ∈ k, a ∈ nodes := by
    rw [hr.after_unlink (only_self t l) hn, update_only, only_self, only_self]
    rintro k (hk | hk) a ha
    · exact hl a (Option.some.inj hk ▸ ha)
    · exact hl a (List.mem_of_mem_erase (Option.some.inj hk ▸ ha))
  exact goes_byChild hrun (fun tr q g hsteps => hr.endsIn_steps hlegal (by simp [only_self])
    hsteps hall) hs₃ fun s₄ hs₄ => hK h' s₄ hp' hs₄

theorem goes_testChild1 (hnodes : nodes = done ++ todo) (hnd : nodes.Nodup)
    (hcompare : ∀ a ∈ nodes, ∀ b ∈ nodes, a ≠ b →
      compareNodes (some t) (some a) (some b) ≠ 0)
    (hp : Prepared t nodes h l) (hl : l.Perm done) (hs : Stepping nodes e k h s)
    (hk : done ≠ [] → 0 < k)
    (hK : ∀ h' l' k' s', Prepared t nodes h' l' → l'.Perm nodes → Stepping nodes e k' h' s' →
      (nodes ≠ [] → 0 < k') → Goes t rand (K ()) Q s') :
    Goes t rand (testChild1 (some t) todo.length done.length >>= K) Q s := by
  induction todo generalizing done h l k s with
  | nil =>
    rw [List.append_nil] at hnodes
    subst hnodes
    exact hK h l k s hp hl hs hk
  | cons n todo ih =>
    have hdone : ∀ a ∈ l, a ∈ done := fun a ha => hl.mem_iff.mp ha
    have hmem : ∀ a ∈ l, a ∈ nodes := fun a ha => by simp [hnodes, hdone a ha]
    have hn : n ∉ done := fun hn => by
      rw [hnodes] at hnd
      exact (List.nodup_append'.mp hnd).2.2 hn List.mem_cons_self
    have hcode : testChild1 (some t) (n :: todo).length done.length >>= K = (do
        childAssert !(← byChild (rbnodeIsLinked (← nodeEntry done.length)))
        let (slot, p) ← byChild (rbtreeFindSlot (2 ^ w) compareNodes (some t)
          (← nodeEntry done.length))
        byChild (rbtreeAdd (some t) p slot (← nodeEntry done.length))) >>= fun _ =>
          testChild1 (some t) todo.length (done.length + 1) >>= K := by
      simp only [List.length_cons, testChild1, bind_assoc]
    rw [hcode]
    refine goes_add hp hmem (hnodes ▸ getElem?_middle) (mt (hdone n) hn) (fun a ha => ?_) hs
      fun h' l' s' hp' hl' hs' => ?_
    · exact hcompare n (by simp [hnodes]) a (hmem a ha) fun h => hn (h ▸ hdone a ha)
    · rw [show done.length + 1 = (done ++ [n]).length by simp]
      exact ih (by simp [hnodes]) hp'
        (hl'.trans ((hl.cons n).trans (List.perm_append_singleton n done).symm)) hs'
        fun _ => Nat.one_pos

theorem goes_testChild2 (hnodes : nodes = done ++ todo) (hp : Prepared t nodes h l)
    (hl : l.Perm todo) (hs : Stepping nodes e k h s) (hk : 0 < k)
    (hK : ∀ h' k' s', Prepared t nodes h' [] → Stepping nodes e k' h' s' → 0 < k' →
      Goes t rand (K ()) Q s') :
    Goes t rand (testChild2 todo.length done.length >>= K) Q s := by
  induction todo generalizing done h l k s with
  | nil =>
    obtain rfl := hl.eq_nil
    exact hK h k s hp hs hk
  | cons n todo ih =>
    have hcode : testChild2 (n :: todo).length done.length >>= K = (do
        childAssert (← byChild (rbnodeIsLinked (← nodeEntry done.length)))
        byChild (rbnodeUnlink (← nodeEntry done.length))) >>= fun _ =>
          testChild2 todo.length (done.length + 1) >>= K := by
      simp only [List.length_cons, testChild2, bind_assoc]
    rw [hcode]
    refine goes_remove hp (fun a ha => ?_) (hnodes ▸ getElem?_middle)
      (hl.mem_iff.mpr List.mem_cons_self) hs fun h' s' hp' hs' => ?_
    · rw [hnodes]
      exact List.mem_append_right done (hl.mem_iff.mp ha)
    · rw [show done.length + 1 = (done ++ [n]).length by simp]
      exact ih (by simp [hnodes]) hp' (by simpa using hl.erase n) hs' Nat.one_pos

theorem Prepared.assertAll {linked : Bool} {as : List (Address w)} (hp : Prepared t nodes h l)
    (hall : ∀ a ∈ as, a ∈ nodes ∧ decide (a ∈ l) = linked) :
    ∃ tr, run (machine packed) (CRbtree.assertAll linked as) h = .ok ((), h, tr) := by
  induction as with
  | nil => exact ⟨[], rfl⟩
  | cons a as ih =>
    obtain ⟨hmem, hlinked⟩ := hall a List.mem_cons_self
    obtain ⟨tr₁, hrun⟩ := hlinked ▸ hp.isLinked hmem
    obtain ⟨tr₂, hrest⟩ := ih fun b hb => hall b (List.mem_cons_of_mem a hb)
    have hassert : run (machine packed) (cAssert (linked = linked) : Prog w Unit) h =
        .ok ((), h, []) := by
      simp [cAssert, run]
    exact ⟨_, run_bind hrun (run_bind hassert hrest)⟩

theorem goes_raise {x : Signal} {s' : Traced w} (hx : onSignal .obliging rand s x = .ok s')
    (hidle : Idle t s) (hK : Goes t rand (K ()) Q s') :
    Goes t rand (raise x >>= K) Q s := by
  have htraced : traced t .obliging rand (.raise x) s = .ok ((), s') := by
    simp only [traced, hx]
    rfl
  refine ⟨(), s', htraced, hidle, ?_⟩
  simp only [Nat.zero_add]
  exact hK

/-- All assertions of both processes hold, and the child returns 0xef. -/
theorem goes_testParallelChild (hnd : nodes.Nodup) (hne : nodes ≠ [])
    (hcompare : ∀ a ∈ nodes, ∀ b ∈ nodes, a ≠ b →
      compareNodes (some t) (some a) (some b) ≠ 0) (hp : Prepared t nodes h []) :
    Goes t rand (testParallelChild none (some t) nodes.length)
      (fun status s _ => Idle t s ∧ status = 0xef ∧ s.nEvent = 7 ∧ 0 < s.nInstr)
      ⟨h, nodes, fun _ => false, false, 0, 0⟩ := by
  refine goes_raise rfl (fun hs => by cases hs) ?_
  refine goes_testChild1 (show nodes = [] ++ nodes from rfl) hnd hcompare hp (.refl _)
    (show Stepping nodes 1 0 h _ from ⟨rfl, rfl, rfl, rfl, by simp, le_rfl⟩)
    (fun h => absurd rfl h)
    fun h₁ l k s₁ hp₁ hl hs₁ hk => ?_
  have hperm := shuffle_perm rand nodes nodes.length
  generalize hshuffle : shuffle rand nodes nodes.length = ns at hperm
  have hall : ∀ a ∈ l, a ∈ nodes := fun a ha => hl.mem_iff.mp ha
  have hlinked : ∀ a ∈ ns, a ∈ nodes ∧ decide (a ∈ l) = true := fun a ha =>
    ⟨hperm.mem_iff.mp ha, decide_eq_true (hl.mem_iff.mpr (hperm.mem_iff.mp ha))⟩
  obtain ⟨tr₁, hassert⟩ := hp₁.assertAll hlinked
  have hmiddle : onSignal .obliging rand s₁ .urg = .ok { s₁ with
      nodes := ns, nEvent := s₁.nEvent ||| 2, stepping := true } := by
    simp only [onSignal, testParentMiddle, hs₁.nodes, hs₁.memory, hshuffle, hassert]
    rfl
  refine goes_raise hmiddle (fun _ => hs₁.watched (hp₁.known hall)) ?_
  have hp₂ : Prepared t ns h₁ l := by
    obtain ⟨h₀, cs, tr, hr, hset⟩ := hp₁
    exact ⟨h₀, cs, tr, hr, fun a ha => hset a (hperm.mem_iff.mp ha)⟩
  rw [← hperm.length_eq]
  refine goes_testChild2 (show ns = [] ++ ns from rfl) hp₂ (hl.trans hperm.symm)
    (show Stepping ns 3 k h₁ _ from
      ⟨hs₁.memory, rfl, hs₁.unvisited, rfl, by simp [hs₁.events], hs₁.instr⟩) (hk hne)
    fun h₂ k' s₂ hp₃ hs₂ hk' => ?_
  have hempty : ∀ a ∈ ns, a ∈ ns ∧ decide (a ∈ []) = false := fun a ha => ⟨ha, by simp⟩
  obtain ⟨tr₂, hassert'⟩ := hp₃.assertAll hempty
  have hunlinked : testParentEnd s₂ = .ok s₂ := by
    rw [testParentEnd, hs₂.nodes, hs₂.memory, hassert']
  have hend : onSignal .obliging rand s₂ .usr2 = .ok { s₂ with
      nEvent := s₂.nEvent ||| 4, stepping := false } := by
    rw [onSignal, hunlinked]
    rfl
  refine goes_raise hend (fun _ => hs₂.watched (hp₃.known fun a ha => by cases ha)) ?_
  have hevents : s₂.nEvent ||| 4 = 7 := by
    rw [hs₂.events]
    rfl
  exact ⟨fun hs => absurd hs Bool.false_ne_true, rfl, hevents, hk'.trans_le hs₂.instr⟩

end Child

section Test

variable {t : Address w} {nodes : List (Address w)} {h : Heap w} {rand : ℕ → ℕ → ℕ}
  {child : ChildProg w ℕ}

theorem traced_other {ptrace : Ptrace w} {rand : ℕ → ℕ} {s : Traced w}
    (hs : s.stepping = false) : traced t ptrace rand .other s = .ok ((), s) := by
  simp only [traced, onTrap, hs]
  rfl

/-- An idle instruction of the child does no more than to be counted. -/
theorem traced_idle {rand : ℕ → ℕ} (s u : Traced w) (hs : Idle t s) (hu : ∃ k, u = s.later k) :
    ∃ r u', traced t .obliging rand .other u = .ok (r, u') ∧ ∃ k, u' = s.later k := by
  obtain ⟨k, rfl⟩ := hu
  rw [traced_later]
  by_cases hstep : s.stepping = true
  · obtain ⟨j, htrap, -⟩ := (hs hstep).onTrap
    refine ⟨(), (s.later j).later k, ?_, j + k, ?_⟩
    · simp only [traced, htrap]
      rfl
    · simp only [Traced.later, Nat.add_assoc]
  · rw [traced_other (Bool.eq_false_iff.mpr hstep)]
    exact ⟨(), s.later k, rfl, k, rfl⟩

theorem traced_shift {rand : ℕ → ℕ} (c : ChildCommand w) (s : Traced w) (r : ChildAnswer c)
    (s' u : Traced w) (hu : ∃ k, u = s.later k)
    (hc : traced t .obliging rand c s = .ok (r, s')) :
    ∃ u', traced t .obliging rand c u = .ok (r, u') ∧ ∃ k, u' = s'.later k := by
  obtain ⟨k, rfl⟩ := hu
  exact ⟨s'.later k, by rw [traced_later, hc]; rfl, k, rfl⟩

theorem testParallelEnd_passes {s : Traced w} (hevents : s.nEvent = 7) (hinstr : 0 < s.nInstr) :
    testParallelEnd 0xef s = .ok 0 := by
  rw [testParallelEnd, if_neg (by decide), hevents, if_pos ⟨rfl, by decide, by decide, by decide,
    hinstr⟩]

theorem resumeChild_eq_or_error (ptrace : Ptrace w) (s : Traced w) :
    resumeChild ptrace s = .ok s ∨ resumeChild ptrace s = .error .assertion := by
  unfold resumeChild
  split
  · exact .inl rfl
  · exact .inr rfl

theorem onTrap_eq_or_error (ptrace : Ptrace w) (s : Traced w) :
    onTrap t ptrace s = onTrap t .obliging s ∨ onTrap t ptrace s = .error .assertion := by
  unfold onTrap
  split
  · cases testParentStep (2 ^ s.nodes.length) s.nodes t s.memory.load s.visited with
    | ok x => exact resumeChild_eq_or_error ptrace _
    | error e => exact .inl rfl
  · exact .inl rfl

theorem onSignal_eq_or_error {ptrace : Ptrace w} (hfirst : ptrace.singlestep = none) (rand : ℕ → ℕ)
    (s : Traced w) (x : Signal) : onSignal ptrace rand s x = onSignal .obliging rand s x ∨
      onSignal ptrace rand s x = .error .assertion := by
  cases x with
  | usr1 =>
    refine .inl ?_
    simp only [onSignal, hfirst]
    rfl
  | urg =>
    simp only [onSignal]
    cases testParentMiddle rand s with
    | ok s' => exact resumeChild_eq_or_error ptrace _
    | error e => exact .inl rfl
  | usr2 =>
    simp only [onSignal]
    cases testParentEnd s with
    | ok s' => exact resumeChild_eq_or_error ptrace _
    | error e => exact .inl rfl
  | kill => exact .inl rfl

/-- A later request that is refused stops the test at an assertion. -/
theorem traced_eq_or_error {ptrace : Ptrace w} (hfirst : ptrace.singlestep = none) (rand : ℕ → ℕ)
    (c : ChildCommand w) (s : Traced w) :
    traced t ptrace rand c s = traced t .obliging rand c s ∨
      traced t ptrace rand c s = .error .assertion := by
  have hmap : ∀ {α β γ : Type} {x y : Except γ α} {e : γ} (f : α → β), x = y ∨ x = .error e →
      x.map f = y.map f ∨ x.map f = .error e :=
    fun f h => h.imp (congrArg _) fun he => by rw [he]; rfl
  cases c with
  | access c =>
    simp only [traced]
    cases machine packed c s.memory with
    | ok x => exact hmap _ (onTrap_eq_or_error ptrace _)
    | error e => exact .inl rfl
  | entry i =>
    simp only [traced]
    cases s.nodes[i]? with
    | some a => exact hmap _ (onTrap_eq_or_error ptrace s)
    | none => exact .inl rfl
  | raise x => exact hmap _ (onSignal_eq_or_error hfirst rand s x)
  | other => exact hmap _ (onTrap_eq_or_error ptrace s)

/-- The child, up to its first signal, if the kernel refuses one of the first requests. -/
theorem run_refused {ptrace : Ptrace w} {ns : List (Address w)} {rand : ℕ → ℕ} {k : ℕ}
    (hpad : Padded .other (testParallelChild ptrace.traceme (some t) k) child)
    (hno : ptrace.traceme ≠ none ∨ ptrace.singlestep ≠ none) :
    (match run (traced t ptrace rand) child ⟨h, ns, fun _ => false, false, 0, 0⟩ with
    | .error .skipped => .ok 77
    | .error e => .error e
    | .ok (status, s, _) => testParallelEnd status s) = ptrace.verdict := by
  have hother : traced t ptrace rand .other ⟨h, ns, fun _ => false, false, 0, 0⟩ = .ok ((), _) :=
    traced_other rfl
  obtain ⟨traceme, singlestep, later⟩ := ptrace
  match traceme, singlestep with
  | some .eperm, _ =>
    obtain ⟨tr, hrun⟩ := run_padded_done hother hpad
    rw [hrun]
    rfl
  | some .eio, _ | some .other, _ | none, some .eperm | none, some .eio | none, some .other =>
    rw [run_padded_error hother rfl hpad]
    rfl
  | none, none => simp at hno

/-- The child, to its end, if the kernel grants every request. -/
theorem run_obliging (rand : ℕ → ℕ) {ns : List (Address w)} (hnd : ns.Nodup) (hne : ns ≠ [])
    (hcompare : ∀ a ∈ ns, ∀ b ∈ ns, a ≠ b → compareNodes (some t) (some a) (some b) ≠ 0)
    (hp : Prepared t ns h [])
    (hpad : Padded .other (testParallelChild none (some t) ns.length) child) :
    ∃ s tr, run (traced t .obliging rand) child ⟨h, ns, fun _ => false, false, 0, 0⟩ =
      .ok (0xef, s, tr) ∧ testParallelEnd 0xef s = .ok 0 := by
  have hgoes := @goes_testParallelChild w t rand ns h hnd hne hcompare hp
  obtain ⟨status, s, u, n, tr, hrun, ⟨k, rfl⟩, rfl, hevents, hinstr⟩ :=
    wp_padded traced_shift traced_idle hpad ⟨0, Traced.later_zero _⟩ hgoes
  exact ⟨s.later k, tr, hrun,
    testParallelEnd_passes hevents (hinstr.trans_le (Nat.le_add_right ..))⟩

/-- Whatever else the child does between its accesses, and however the nodes are shuffled, the test
passes where the kernel lets the parent trace the child: the parent never finds a loop or a stray
node, and sees all three signals. It is skipped, or stops at an assertion, by the error of a first
request that is refused, and a later one that is refused stops it at an assertion. -/
theorem testParallel_passes (ptrace : Ptrace w) (hnd : nodes.Nodup) (hne : nodes ≠ [])
    (hspan : ∃ base, ∀ a ∈ nodes, (a.word - base).toNat < 2 ^ 32)
    (hroot : h.load (.root t) = none)
    (hpad : Padded .other (testParallelChild ptrace.traceme (some t) nodes.length) child) :
    ((ptrace.traceme = none → ptrace.singlestep = none → ∀ s, ptrace.later s = none) →
      testParallel t ptrace rand child nodes h = ptrace.verdict) ∧
    (testParallel t ptrace rand child nodes h = ptrace.verdict ∨
      testParallel t ptrace rand child nodes h = .error .assertion) := by
  obtain ⟨base, hspan⟩ := hspan
  obtain ⟨h₀, cs, tr, hr⟩ := Sole.start hroot
  have hstart : Prepared t [] h [] := ⟨h₀, cs, tr, hr, fun a ha => by cases ha⟩
  obtain ⟨h₁, tr₁, hinit, hp⟩ := hstart.initAll nodes
  have hperm := shuffle_perm (rand 0) nodes nodes.length
  simp only [testParallel, hinit]
  generalize shuffle (rand 0) nodes nodes.length = ns at hperm
  rw [← hperm.length_eq] at hpad
  by_cases hno : ptrace.traceme ≠ none ∨ ptrace.singlestep ≠ none
  · exact ⟨fun _ => run_refused hpad hno, .inl (run_refused hpad hno)⟩
  obtain ⟨htraceme, hfirst⟩ := not_or.mp hno
  rw [not_not] at htraceme hfirst
  have hp' : Prepared t ns h₁ [] := by
    rw [List.append_nil] at hp
    obtain ⟨h₀, cs, tr, hr, hset⟩ := hp
    exact ⟨h₀, cs, tr, hr, fun a ha => hset a (List.mem_reverse.mpr (hperm.mem_iff.mp ha))⟩
  obtain ⟨s, tr₂, hrun, hend⟩ := run_obliging (rand 1) (hperm.nodup_iff.mpr hnd)
    (fun hnil => hne (List.perm_nil.mp (hnil ▸ hperm.symm))) (fun a ha b hb hab =>
      compareNodes_ne_zero (some t) (hspan a (hperm.mem_iff.mp ha))
        (hspan b (hperm.mem_iff.mp hb)) hab) hp' (htraceme ▸ hpad)
  have hverdict : ptrace.verdict = .ok 0 := by
    rw [Ptrace.verdict, htraceme, hfirst]
  rw [hverdict]
  refine ⟨fun hlater => ?_, ?_⟩
  · have hobliging : ptrace = .obliging := by
      obtain ⟨traceme, singlestep, later⟩ := ptrace
      cases htraceme
      cases hfirst
      rw [show later = fun _ => none from funext (hlater rfl rfl)]
      rfl
    rw [hobliging, hrun]
    exact hend
  · rcases run_eq_or_error (traced_eq_or_error hfirst (rand 1)) child
      ⟨h₁, ns, fun _ => false, false, 0, 0⟩ with heq | heq
    · rw [heq, hrun]
      exact .inl hend
    · rw [heq]
      exact .inr rfl

theorem testParallel_passes_sample :
    let nodes := [cell 5, cell 2, cell 7, cell 1]
    testParallel (cell 0) .obliging (fun i j => i + j)
        (testParallelChild none (some (cell 0)) 4) nodes zeroes = .ok 0 ∧
      testParallel (cell 0) ⟨some .eio, none, fun _ => none⟩ (fun i j => i + j)
        (testParallelChild (some .eio) (some (cell 0)) 4) nodes zeroes = .error .assertion ∧
      testParallel (cell 0) ⟨none, some .eio, fun _ => none⟩ (fun i j => i + j)
        (testParallelChild none (some (cell 0)) 4) nodes zeroes = .ok 77 :=
  have hspan : ∃ base, ∀ a ∈ [cell 5, cell 2, cell 7, cell 1], (a.word - base).toNat < 2 ^ 32 :=
    ⟨0, fun _ _ => (BitVec.isLt _).trans (by decide)⟩
  ⟨(testParallel_passes .obliging (by decide) (by decide) hspan rfl (.refl _)).1 fun _ _ _ => rfl,
    (testParallel_passes ⟨some .eio, none, fun _ => none⟩ (by decide) (by decide) hspan rfl
      (.refl _)).1 fun _ _ _ => rfl,
    (testParallel_passes ⟨none, some .eio, fun _ => none⟩ (by decide) (by decide) hspan rfl
      (.refl _)).1 fun _ _ _ => rfl⟩

end Test

end CRbtree
