import CRbtree.Budgets
import CRbtree.SidedSteps

set_option autoImplicit false

/-!
What the functions cost that change a tree. A store has one price and a read another,
and a turn of a recolouring loop earns what the next turn costs.
-/

namespace CRbtree
open RedBlack TaggedPointers PointerGraphs Programs

variable {w : ℕ}

structure Prices where
  write : ℕ
  read : ℕ

namespace Prices

/-- c_rbnode_parent() reads the word once for the root flag, and again for the pointer. -/
def price (P : Prices) : Command w → ℕ
  | .store _ _ | .write _ _ _ => P.write
  | .load _ | .raw _ | .flags _ => P.read
  | .parent _ => 2 * P.read
  | .turn _ | .crash _ => 0

def income (P : Prices) : Command w → ℕ
  | .turn .paint => 12 * P.read + 3 * P.write
  | .turn .rebalance => 11 * P.read + P.write
  | .load _ | .store _ _ | .raw _ | .flags _ | .parent _ | .write _ _ _ | .crash _ => 0

end Prices

def Command.isWrite : Command w → Bool
  | .store _ _ | .write _ _ _ => true
  | .load _ | .raw _ | .flags _ | .parent _ | .turn _ | .crash _ => false

/-- How often the C code accesses memory for the command, at most: c_rbnode_parent() reads the
word of a root once, and that of any other node twice. -/
def Command.accesses : Command w → ℕ
  | .load _ | .raw _ | .flags _ | .store _ _ | .write _ _ _ => 1
  | .parent _ => 2
  | .turn _ | .crash _ => 0

/-- How often a run accesses memory. -/
def accesses (tr : List (Command w)) : ℕ := (tr.map Command.accesses).sum

theorem sum_price_writes (tr : List (Command w)) :
    (tr.map (Prices.price ⟨1, 0⟩)).sum = tr.countP Command.isWrite := by
  induction tr with
  | nil => rfl
  | cons c tr ih =>
    rw [List.map_cons, List.sum_cons, ih, List.countP_cons]
    cases c <;> simp [Prices.price, Command.isWrite, Nat.add_comm]

theorem sum_price_accesses (tr : List (Command w)) :
    (tr.map (Prices.price ⟨1, 1⟩)).sum = accesses tr := by
  have hprice : Prices.price ⟨1, 1⟩ = (Command.accesses : Command w → ℕ) := by
    funext c
    cases c <;> rfl
  rw [hprice, accesses]

@[simp] theorem accesses_append (tr tr' : List (Command w)) :
    accesses (tr ++ tr') = accesses tr + accesses tr' := by
  simp [accesses]

abbrev Costs {α : Type} (P : Prices) (I : Command w → ℕ) (N : ℕ) (p : Prog w α) : Prop :=
  Priced (machine packed) P.price I N p

variable {P : Prices} {I : Command w → ℕ} {n p s x y g gg t old new : Pointer w}

section Accessors

theorem costs_crash {α : Type} (e : Crash) : Costs P I 0 (crash e : Prog w α) := by
  intro s a u tr hrun
  cases hrun

theorem costs_assert {b : Bool} : Costs P I 0 (cAssert b : Prog w Unit) := by
  cases b with
  | false => exact costs_crash .assertion
  | true => exact .pure

theorem costs_whenSet {N : ℕ} {q : Prog w Unit} (h : Costs P I N q) :
    Costs P I N (whenSet x q) := by
  cases x with
  | none => exact Priced.mono .pure N.zero_le
  | some a => exact h

theorem costs_command (c : Command w) : Costs P I (P.price c) (issue c : Prog w (Answer c)) :=
  within_issue (Nat.le_add_right ..)

/-- NULL costs nothing: the run ends there. -/
theorem costs_deref {α : Type} {N : ℕ} {q : Address w → Prog w α} (h : ∀ a, Costs P I N (q a)) :
    Costs P I N (deref n >>= q) := by
  cases n with
  | none => exact Priced.mono (costs_crash .nullDereference) N.zero_le
  | some a => exact h a

theorem costs_loadLeft : Costs P I P.read (loadLeft n) :=
  costs_deref fun a => costs_command (.load (.left a))

theorem costs_loadRight : Costs P I P.read (loadRight n) :=
  costs_deref fun a => costs_command (.load (.right a))

theorem costs_loadRoot : Costs P I P.read (loadRoot n) :=
  costs_deref fun a => costs_command (.load (.root a))

theorem costs_loadChild {d : Side} : Costs P I P.read (loadChild d n) :=
  costs_deref fun a => costs_command (.load (.child d a))

theorem costs_storeLeft : Costs P I P.write (storeLeft n x) :=
  costs_deref fun a => costs_command (.store (.left a) x)

theorem costs_storeRight : Costs P I P.write (storeRight n x) :=
  costs_deref fun a => costs_command (.store (.right a) x)

theorem costs_storeRoot : Costs P I P.write (storeRoot n x) :=
  costs_deref fun a => costs_command (.store (.root a) x)

theorem costs_storeChild {d : Side} : Costs P I P.write (storeChild d n x) :=
  costs_deref fun a => costs_command (.store (.child d a) x)

theorem costs_raw : Costs P I P.read (rbnodeRaw n) := costs_deref fun a => costs_command (.raw a)

theorem costs_flags : Costs P I P.read (rbnodeFlags n) :=
  costs_deref fun a => costs_command (.flags a)

theorem costs_parent : Costs P I (2 * P.read) (rbnodeParent n) :=
  costs_deref fun a => costs_command (.parent a)

theorem costs_setLink {f : Word w} : Costs P I P.write (rbnodeSetParentAndFlags n p f) :=
  costs_deref fun a => costs_command (.write a p f)

theorem costs_isRed : Costs P I P.read (rbnodeIsRed n) := costs_flags.bind fun _ => .pure

theorem costs_isBlack : Costs P I P.read (rbnodeIsBlack n) := costs_flags.bind fun _ => .pure

theorem costs_isRoot : Costs P I P.read (rbnodeIsRoot n) := costs_flags.bind fun _ => .pure

theorem costs_isLinked : Costs P I (2 * P.read) (rbnodeIsLinked n) :=
  Priced.mono (.ite (costs_parent.bind fun _ => .pure) .pure) (by omega)

theorem costs_rbnodeInit : Costs P I (3 * P.write) (rbnodeInit n) :=
  (costs_setLink.bind fun _ => costs_storeLeft.bind fun _ => costs_storeRight).mono (by omega)

theorem costs_rbtreeInit : Costs P I P.write (rbtreeInit t) := costs_storeRoot

/-- A link word is written with flags that have just been read. -/
theorem costs_reflag {f : Word w → Word w} :
    Costs P I (P.read + P.write)
      (rbnodeFlags n >>= fun fs => rbnodeSetParentAndFlags n p (f fs)) :=
  costs_flags.bind fun _ => costs_setLink

theorem costs_popRoot : Costs P I (3 * P.read + P.write) (rbnodePopRoot n) :=
  Priced.mono (costs_isRoot.bind fun _ => .ite (costs_raw.bind fun _ => costs_flags.bind fun _ =>
    costs_setLink.bind fun _ => .pure) .pure) (by omega)

theorem costs_pushRoot : Costs P I (P.read + 2 * P.write) (rbnodePushRoot n t) :=
  Priced.mono ((costs_whenSet ((costs_whenSet costs_reflag).bind fun _ => costs_storeRoot)).bind
    fun _ => .pure) (by omega)

theorem costs_swapChild : Costs P I (3 * P.read + P.write) (rbnodeSwapChild old new) :=
  Priced.mono (costs_parent.bind fun _ => costs_whenSet (costs_loadLeft.bind fun _ =>
    .ite costs_storeLeft costs_storeRight)) (by omega)

theorem costs_rbtreeMove {dst src : Pointer w} :
    Costs P I (9 * P.read + 5 * P.write) (rbtreeMove dst src) :=
  Priced.mono (costs_loadRoot.bind fun _ => costs_assert.bind fun _ => costs_loadRoot.bind fun _ =>
    costs_whenSet (costs_loadRoot.bind fun _ => costs_popRoot.bind fun _ =>
    costs_assert.bind fun _ =>
      costs_loadRoot.bind fun _ => costs_storeRoot.bind fun _ => costs_storeRoot.bind fun _ =>
        costs_loadRoot.bind fun _ => costs_pushRoot.bind fun _ => .pure)) (by omega)

end Accessors

section Insertion

theorem costs_otherChild : Costs P I (2 * P.read) (otherChild x p) :=
  Priced.mono (costs_loadLeft.bind fun _ => .ite costs_loadRight costs_loadLeft) (by omega)

theorem costs_unsetOrNotRed : Costs P I P.read (unsetOrNotRed x) :=
  Priced.mono (.ite .pure (costs_isRed.bind fun _ => .pure)) (by omega)

theorem costs_uncleNotRed {child : Pointer w → Prog w (Pointer w)}
    (h : Costs P I P.read (child g)) : Costs P I (4 * P.read) (uncleNotRed child p g) :=
  Priced.mono (h.bind fun _ => .ite .pure (h.bind fun _ => .ite .pure (h.bind fun _ =>
    costs_isBlack))) (by omega)

theorem costs_paintAsserts : Costs P I (10 * P.read) (rbtreePaintTerminalAsserts p g) :=
  Priced.mono (costs_isRed.bind fun _ => costs_assert.bind fun _ => costs_isBlack.bind fun _ =>
    costs_assert.bind fun _ => (costs_uncleNotRed costs_loadLeft).bind fun _ =>
      costs_assert.bind fun _ => (costs_uncleNotRed costs_loadRight).bind fun _ =>
        costs_assert) (by omega)

theorem costs_paintInner {d : Side} : Costs P I (4 * P.read + 4 * P.write) (paintInner d n p) :=
  Priced.mono (costs_loadChild.bind fun _ => .ite (costs_loadChild.bind fun _ =>
    costs_storeChild.bind fun _ => costs_storeChild.bind fun _ =>
      (costs_whenSet costs_reflag).bind fun _ => costs_flags.bind fun _ =>
      costs_setLink.bind fun _ =>
        .pure) .pure) (by omega)

theorem costs_paintInnerRight : Costs P I (5 * P.read + 4 * P.write) (rbtreePaintInnerRight n p) :=
  Priced.mono (costs_loadLeft.bind fun _ => .ite (costs_loadRight.bind fun _ =>
    costs_loadRight.bind fun _ => costs_storeLeft.bind fun _ => costs_storeRight.bind fun _ =>
      (costs_whenSet costs_reflag).bind fun _ => costs_flags.bind fun _ =>
      costs_setLink.bind fun _ =>
        .pure) .pure) (by omega)

theorem costs_paintOuter {d : Side} : Costs P I (11 * P.read + 9 * P.write) (paintOuter d p g gg) :=
  Priced.mono (costs_loadChild.bind fun _ => costs_popRoot.bind fun _ =>
    costs_storeChild.bind fun _ => costs_storeChild.bind fun _ => costs_swapChild.bind fun _ =>
      (costs_whenSet costs_reflag).bind fun _ => costs_flags.bind fun _ =>
      costs_setLink.bind fun _ =>
        costs_flags.bind fun _ => costs_setLink.bind fun _ => costs_pushRoot.bind fun _ => .pure)
    (by omega)

theorem costs_paintTerminal : Costs P I (33 * P.read + 13 * P.write) (rbtreePaintTerminal n) :=
  Priced.mono (costs_parent.bind fun _ => costs_parent.bind fun _ => costs_parent.bind fun _ =>
    costs_paintAsserts.bind fun _ => costs_loadLeft.bind fun _ => .ite
      (costs_paintInner (d := .left) |>.bind fun _ => costs_paintOuter (d := .left))
      (costs_paintInnerRight.bind fun _ => costs_paintOuter (d := .right))) (by omega)

/-- Every turn but the first is paid for by the one before it. -/
theorem costs_paintPath (turns : ℕ) :
    Costs P P.income (12 * P.read + 3 * P.write) (rbtreePaintPath turns n) := by
  induction turns generalizing n with
  | zero => exact Priced.mono (costs_crash .endless) (Nat.zero_le _)
  | succ turns ih =>
    have hturn : ∀ g : Pointer w,
        Costs P P.income 0 (countTurn .paint >>= fun _ => rbtreePaintPath turns g) := fun g =>
      .earn rfl fun _ => Priced.mono ih (Nat.zero_add _).ge
    exact Priced.mono (costs_parent.bind fun _ => .ite
      (costs_raw.bind fun _ => costs_flags.bind fun _ => costs_setLink.bind fun _ => .pure)
      (costs_isBlack.bind fun _ => .ite .pure (costs_parent.bind fun g =>
        costs_otherChild.bind fun _ => costs_unsetOrNotRed.bind fun _ => .ite .pure
          (costs_flags.bind fun _ => costs_setLink.bind fun _ => costs_flags.bind fun _ =>
            costs_setLink.bind fun _ => costs_raw.bind fun _ => costs_flags.bind fun _ =>
              costs_setLink.bind fun _ => hturn g)))) (by omega)

theorem costs_rbtreePaint : Costs P P.income (45 * P.read + 16 * P.write) (rbtreePaint n) :=
  Priced.mono ((costs_paintPath _).bind fun _ => costs_whenSet costs_paintTerminal) (by omega)

theorem costs_storeSlot {l : Option (Slot w)} : Costs P I P.write (storeSlot l x) := by
  cases l with
  | none => exact Priced.mono (costs_crash .nullDereference) (Nat.zero_le _)
  | some l => exact costs_command (.store l x)

theorem costs_rbnodeLink {l : Option (Slot w)} :
    Costs P P.income (45 * P.read + 20 * P.write) (rbnodeLink p l n) :=
  Priced.mono (costs_assert.bind fun _ => costs_assert.bind fun _ => costs_assert.bind fun _ =>
    costs_assert.bind fun _ => costs_setLink.bind fun _ => costs_storeLeft.bind fun _ =>
      costs_storeRight.bind fun _ => costs_storeSlot.bind fun _ => costs_rbtreePaint) (by omega)

theorem costs_storeOrPushRoot {l : Option (Slot w)} :
    Costs P I (P.read + 2 * P.write) (storeOrPushRoot t p l n) :=
  Priced.mono (.ite costs_storeSlot (costs_pushRoot.bind fun _ => .pure)) (by omega)

theorem costs_rbtreeAdd {l : Option (Slot w)} :
    Costs P P.income (46 * P.read + 21 * P.write) (rbtreeAdd t p l n) :=
  Priced.mono (costs_assert.bind fun _ => costs_assert.bind fun _ => costs_assert.bind fun _ =>
    costs_assert.bind fun _ => costs_assert.bind fun _ => costs_setLink.bind fun _ =>
      costs_storeLeft.bind fun _ => costs_storeRight.bind fun _ =>
      costs_storeOrPushRoot.bind fun _ =>
        costs_rbtreePaint) (by omega)

end Insertion

section Removal

theorem costs_rebalanceRed {d : Side} :
    Costs P I (13 * P.read + 9 * P.write) (rebalanceRed d p s) :=
  Priced.mono (costs_popRoot.bind fun _ => costs_parent.bind fun _ => costs_loadChild.bind fun _ =>
    costs_storeChild.bind fun _ => costs_storeChild.bind fun _ => costs_swapChild.bind fun _ =>
      costs_flags.bind fun _ => costs_setLink.bind fun _ => costs_flags.bind fun _ =>
        costs_setLink.bind fun _ => costs_flags.bind fun _ => costs_setLink.bind fun _ =>
          costs_pushRoot.bind fun _ => .pure) (by omega)

theorem costs_rebalanceFlip : Costs P I (5 * P.read + 2 * P.write) (rebalanceFlip p s) :=
  Priced.mono (costs_isRed.bind fun _ => costs_assert.bind fun _ => costs_flags.bind fun _ =>
    costs_setLink.bind fun _ => costs_parent.bind fun _ => costs_flags.bind fun _ => costs_setLink)
    (by omega)

theorem costs_rebalanceInner {d : Side} :
    Costs P I (3 * P.read + 4 * P.write) (rebalanceInner d p s y) :=
  Priced.mono (costs_loadChild.bind fun _ => costs_loadChild.bind fun _ =>
    costs_storeChild.bind fun _ => costs_storeChild.bind fun _ => costs_storeChild.bind fun _ =>
      costs_whenSet costs_reflag) (by omega)

theorem costs_rebalanceOuter {d : Side} :
    Costs P I (14 * P.read + 10 * P.write) (rebalanceOuter d p s x) :=
  Priced.mono (costs_popRoot.bind fun _ => costs_parent.bind fun _ => costs_loadChild.bind fun _ =>
    costs_storeChild.bind fun _ => costs_storeChild.bind fun _ => costs_swapChild.bind fun _ =>
      costs_flags.bind fun _ => costs_setLink.bind fun _ =>
      (costs_whenSet costs_reflag).bind fun _ =>
        costs_flags.bind fun _ => costs_setLink.bind fun _ => costs_flags.bind fun _ =>
          costs_setLink.bind fun _ => costs_pushRoot.bind fun _ => .pure) (by omega)

theorem costs_unsetOrBlack : Costs P I P.read (unsetOrBlack x) :=
  Priced.mono (.ite .pure costs_isBlack) (by omega)

theorem costs_rebalanceBlack {d : Side} :
    Costs P I (21 * P.read + 14 * P.write) (rebalanceBlack d p s) :=
  Priced.mono (costs_loadChild.bind fun _ => costs_unsetOrBlack.bind fun _ => .ite
    (costs_loadChild.bind fun _ => costs_unsetOrBlack.bind fun _ => .ite costs_rebalanceFlip
      (costs_rebalanceInner.bind fun _ => costs_rebalanceOuter)) costs_rebalanceOuter) (by omega)

theorem costs_rebalanceSibling {d : Side} :
    Costs P I (14 * P.read + 9 * P.write) (rebalanceSibling d p s) :=
  Priced.mono (costs_isRed.bind fun _ => .ite costs_rebalanceRed .pure) (by omega)

theorem costs_rebalanceHalf (d : Side) :
    Costs P I (36 * P.read + 23 * P.write) (rebalanceHalf d p) :=
  Priced.mono (costs_loadChild.bind fun _ => costs_rebalanceSibling.bind fun _ =>
    costs_rebalanceBlack) (by omega)

theorem costs_rebalanceTerminal :
    Costs P I (37 * P.read + 23 * P.write) (rbnodeRebalanceTerminal p x) :=
  Priced.mono (costs_loadLeft.bind fun _ => .ite (costs_rebalanceHalf .left)
    (costs_rebalanceHalf .right)) (by omega)

theorem costs_setAndRed : Costs P I P.read (setAndRed x) :=
  Priced.mono (.ite costs_isRed .pure) (by omega)

theorem costs_anyRed : Costs P I (3 * P.read) (anyRed s x y) :=
  Priced.mono (costs_isRed.bind fun _ => .ite .pure (costs_setAndRed.bind fun _ =>
    .ite .pure costs_setAndRed)) (by omega)

theorem costs_rebalancePath (turns : ℕ) :
    Costs P P.income (12 * P.read + 2 * P.write) (rbnodeRebalancePath turns p x) := by
  induction turns generalizing p x with
  | zero => exact Priced.mono (costs_crash .endless) (Nat.zero_le _)
  | succ turns ih =>
    have hturn : Costs P P.income (P.write + 3 * P.read)
        (countTurn .rebalance >>= fun _ => rbnodeParent p >>= fun q =>
          rbnodeRebalancePath turns q p) :=
      .earn rfl fun _ =>
        Priced.mono (costs_parent.bind fun _ => ih) (by simp [Prices.income]; omega)
    exact Priced.mono (.ite .pure (costs_otherChild.bind fun _ => costs_loadLeft.bind fun _ =>
      costs_loadRight.bind fun _ => costs_anyRed.bind fun _ => .ite .pure
        (costs_flags.bind fun _ => costs_setLink.bind fun _ => costs_isRed.bind fun _ => .ite
          (costs_parent.bind fun _ => costs_flags.bind fun _ => costs_setLink.bind fun _ => .pure)
          hturn))) (by omega)

theorem costs_rebalance : Costs P P.income (49 * P.read + 25 * P.write) (rbnodeRebalance n) :=
  Priced.mono ((costs_rebalancePath _).bind fun _ => costs_whenSet costs_rebalanceTerminal)
    (by omega)

theorem costs_unlinkLeaf : Costs P P.income (59 * P.read + 29 * P.write) (unlinkLeaf n) :=
  Priced.mono (costs_popRoot.bind fun _ => costs_swapChild.bind fun _ =>
      costs_pushRoot.bind fun _ =>
    costs_isBlack.bind fun _ => .ite (costs_parent.bind fun _ => costs_rebalance) .pure) (by omega)

theorem costs_unlinkOnly (d : Side) : Costs P I (14 * P.read + 5 * P.write) (unlinkOnly d n) :=
  Priced.mono (costs_popRoot.bind fun _ => costs_loadChild.bind fun _ =>
      costs_swapChild.bind fun _ =>
    costs_loadChild.bind fun _ => costs_parent.bind fun _ => costs_loadChild.bind fun _ =>
      costs_flags.bind fun _ => costs_setLink.bind fun _ => costs_loadChild.bind fun _ =>
        costs_pushRoot.bind fun _ => .pure) (by omega)

theorem costs_unlinkChild : Costs P I (P.read + P.write) (unlinkChild s p x) :=
  Priced.mono (.ite (costs_flags.bind fun _ => costs_setLink.bind fun _ => .pure)
    (costs_isBlack.bind fun _ => .ite .pure .pure)) (by omega)

theorem costs_unlinkInherit : Costs P I (4 * P.read + P.write) (unlinkInherit n s) :=
  Priced.mono (costs_isRed.bind fun _ => .ite
    (costs_parent.bind fun _ => costs_flags.bind fun _ => costs_setLink)
    (costs_parent.bind fun _ => costs_flags.bind fun _ => costs_setLink)) (by omega)

theorem costs_unlinkReplace :
    Costs P P.income (62 * P.read + 32 * P.write) (unlinkReplace n t s p x) :=
  Priced.mono (costs_loadLeft.bind fun _ => costs_storeLeft.bind fun _ =>
      costs_loadLeft.bind fun _ =>
    costs_loadLeft.bind fun _ => costs_flags.bind fun _ => costs_setLink.bind fun _ =>
      costs_unlinkChild.bind fun _ => costs_unlinkInherit.bind fun _ =>
      costs_swapChild.bind fun _ =>
        costs_pushRoot.bind fun _ => costs_whenSet costs_rebalance) (by omega)

theorem costs_hasNoChild : Costs P I (2 * P.read) (hasNoChild n) :=
  Priced.mono (costs_loadLeft.bind fun _ => .ite (costs_loadRight.bind fun _ => .pure) .pure)
    (by omega)

theorem costs_hasRightOnly : Costs P I (2 * P.read) (hasRightOnly n) :=
  Priced.mono (costs_loadLeft.bind fun _ => .ite (costs_loadRight.bind fun _ => .pure) .pure)
    (by omega)

theorem costs_hasLeftOnly : Costs P I (2 * P.read) (hasLeftOnly n) :=
  Priced.mono (costs_loadLeft.bind fun _ => .ite (costs_loadRight.bind fun _ => .pure) .pure)
    (by omega)

end Removal

end CRbtree
