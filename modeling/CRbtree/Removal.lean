import CRbtree.Traversal

set_option autoImplicit false

/-!
The removal half of c-rbtree.c. Each half of c_rbnode_rebalance_terminal() is split
after the rotation of a red sibling, and again before the last rotation.
-/

namespace CRbtree
open TaggedPointers Programs

variable {w : ℕ}

/-- Case 2, and `s = x` in the end. -/
def rebalanceRedLeft (p s : Pointer w) : Prog w (Pointer w) := do
  let t ← rbnodePopRoot p
  let g ← rbnodeParent p
  let x ← loadLeft s
  storeRight p x
  storeLeft s p
  rbnodeSwapChild p s
  rbnodeSetParentAndFlags x p ((← rbnodeFlags x) &&& ~~~rbnodeRed)
  rbnodeSetParentAndFlags s g ((← rbnodeFlags s) &&& ~~~rbnodeRed)
  rbnodeSetParentAndFlags p s ((← rbnodeFlags p) ||| rbnodeRed)
  let _ ← rbnodePushRoot s t
  pure x

/-- Case 3+4 -/
def rebalanceFlip (p s : Pointer w) : Prog w Unit := do
  cAssert (← rbnodeIsRed p)
  rbnodeSetParentAndFlags s p ((← rbnodeFlags s) ||| rbnodeRed)
  rbnodeSetParentAndFlags p (← rbnodeParent p) ((← rbnodeFlags p) &&& ~~~rbnodeRed)

/-- Case 5: `y` takes the place of `s`, which becomes its outer child. -/
def rebalanceInnerLeft (p s y : Pointer w) : Prog w Unit := do
  let x ← loadRight y
  storeLeft s (← loadRight y)
  storeRight y s
  storeRight p y
  whenSet x do rbnodeSetParentAndFlags x s ((← rbnodeFlags x) &&& ~~~rbnodeRed)

/-- Case 6, with `x` the outer child of `s`. -/
def rebalanceOuterLeft (p s x : Pointer w) : Prog w Unit := do
  let t ← rbnodePopRoot p
  let g ← rbnodeParent p
  let y ← loadLeft s
  storeRight p y
  storeLeft s p
  rbnodeSwapChild p s
  rbnodeSetParentAndFlags x s ((← rbnodeFlags x) &&& ~~~rbnodeRed)
  whenSet y do rbnodeSetParentAndFlags y p (← rbnodeFlags y)
  rbnodeSetParentAndFlags s g (← rbnodeFlags p)
  rbnodeSetParentAndFlags p s ((← rbnodeFlags p) &&& ~~~rbnodeRed)
  let _ ← rbnodePushRoot s t

/-- `!x || c_rbnode_is_black(x)` -/
def unsetOrBlack (x : Pointer w) : Prog w Bool :=
  if x.isNone then pure true else rbnodeIsBlack x

def rebalanceBlackLeft (p s : Pointer w) : Prog w Unit := do
  let x ← loadRight s
  if ← unsetOrBlack x then
    let y ← loadLeft s
    if ← unsetOrBlack y then
      rebalanceFlip p s
    else
      rebalanceInnerLeft p s y
      rebalanceOuterLeft p y s
  else
    rebalanceOuterLeft p s x

def rebalanceSiblingLeft (p s : Pointer w) : Prog w (Pointer w) := do
  if ← rbnodeIsRed s then rebalanceRedLeft p s else pure s

def rebalanceTerminalLeft (p : Pointer w) : Prog w Unit := do
  let s ← loadRight p
  let s ← rebalanceSiblingLeft p s
  rebalanceBlackLeft p s

def rebalanceRedRight (p s : Pointer w) : Prog w (Pointer w) := do
  let t ← rbnodePopRoot p
  let g ← rbnodeParent p
  let x ← loadRight s
  storeLeft p x
  storeRight s p
  rbnodeSwapChild p s
  rbnodeSetParentAndFlags x p ((← rbnodeFlags x) &&& ~~~rbnodeRed)
  rbnodeSetParentAndFlags s g ((← rbnodeFlags s) &&& ~~~rbnodeRed)
  rbnodeSetParentAndFlags p s ((← rbnodeFlags p) ||| rbnodeRed)
  let _ ← rbnodePushRoot s t
  pure x

def rebalanceInnerRight (p s y : Pointer w) : Prog w Unit := do
  let x ← loadLeft y
  storeRight s (← loadLeft y)
  storeLeft y s
  storeLeft p y
  whenSet x do rbnodeSetParentAndFlags x s ((← rbnodeFlags x) &&& ~~~rbnodeRed)

def rebalanceOuterRight (p s x : Pointer w) : Prog w Unit := do
  let t ← rbnodePopRoot p
  let g ← rbnodeParent p
  let y ← loadRight s
  storeLeft p y
  storeRight s p
  rbnodeSwapChild p s
  rbnodeSetParentAndFlags x s ((← rbnodeFlags x) &&& ~~~rbnodeRed)
  whenSet y do rbnodeSetParentAndFlags y p (← rbnodeFlags y)
  rbnodeSetParentAndFlags s g (← rbnodeFlags p)
  rbnodeSetParentAndFlags p s ((← rbnodeFlags p) &&& ~~~rbnodeRed)
  let _ ← rbnodePushRoot s t

def rebalanceBlackRight (p s : Pointer w) : Prog w Unit := do
  let x ← loadLeft s
  if ← unsetOrBlack x then
    let y ← loadRight s
    if ← unsetOrBlack y then
      rebalanceFlip p s
    else
      rebalanceInnerRight p s y
      rebalanceOuterRight p y s
  else
    rebalanceOuterRight p s x

def rebalanceSiblingRight (p s : Pointer w) : Prog w (Pointer w) := do
  if ← rbnodeIsRed s then rebalanceRedRight p s else pure s

def rebalanceTerminalRight (p : Pointer w) : Prog w Unit := do
  let s ← loadLeft p
  let s ← rebalanceSiblingRight p s
  rebalanceBlackRight p s

def rbnodeRebalanceTerminal (p previous : Pointer w) : Prog w Unit := do
  if previous = (← loadLeft p) then
    rebalanceTerminalLeft p
  else
    rebalanceTerminalRight p

/-- `x && c_rbnode_is_red(x)` -/
def setAndRed (x : Pointer w) : Prog w Bool :=
  if x.isSome then rbnodeIsRed x else pure false

def anyRed (s nl nr : Pointer w) : Prog w Bool := do
  if ← rbnodeIsRed s then pure true
  else do
    if ← setAndRed nl then pure true
    else setAndRed nr

/-- Returns the node to rotate at, if any, and the last value of `*previous`. -/
def rbnodeRebalancePath : ℕ → Pointer w → Pointer w → Prog w (Pointer w × Pointer w)
  | 0, _, _ => crash .endless
  | turns + 1, p, previous =>
    if p.isNone then
      pure (none, previous)
    else do
      let s ← otherChild previous p
      let nl ← loadLeft s
      let nr ← loadRight s
      if ← anyRed s nl nr then
        pure (p, previous)
      else do
        -- Case 3+4
        rbnodeSetParentAndFlags s p ((← rbnodeFlags s) ||| rbnodeRed)
        if ← rbnodeIsRed p then
          rbnodeSetParentAndFlags p (← rbnodeParent p) ((← rbnodeFlags p) &&& ~~~rbnodeRed)
          pure (none, previous)
        else do
          countTurn .rebalance
          rbnodeRebalancePath turns (← rbnodeParent p) p

def rbnodeRebalance (n : Pointer w) : Prog w Unit := do
  let (n, previous) ← rbnodeRebalancePath (2 ^ w) n none
  whenSet n do rbnodeRebalanceTerminal n previous

/-- Case 1.0 -/
def unlinkLeaf (n : Pointer w) : Prog w Unit := do
  let t ← rbnodePopRoot n
  rbnodeSwapChild n none
  let _ ← rbnodePushRoot none t
  if ← rbnodeIsBlack n then
    rbnodeRebalance (← rbnodeParent n)

/-- Case 1.1 -/
def unlinkRightOnly (n : Pointer w) : Prog w Unit := do
  let t ← rbnodePopRoot n
  rbnodeSwapChild n (← loadRight n)
  rbnodeSetParentAndFlags (← loadRight n) (← rbnodeParent n)
    ((← rbnodeFlags (← loadRight n)) &&& ~~~rbnodeRed)
  let _ ← rbnodePushRoot (← loadRight n) t

/-- Case 1.2 -/
def unlinkLeftOnly (n : Pointer w) : Prog w Unit := do
  let t ← rbnodePopRoot n
  rbnodeSwapChild n (← loadLeft n)
  rbnodeSetParentAndFlags (← loadLeft n) (← rbnodeParent n)
    ((← rbnodeFlags (← loadLeft n)) &&& ~~~rbnodeRed)
  let _ ← rbnodePushRoot (← loadLeft n) t

/-- The first part of case 1.3: finds the successor `s` of `n`, its parent `p` and its
child `c`, and unhooks `s` unless it is the right child of `n`. -/
def unlinkSuccessor (n : Pointer w) : Prog w (Pointer w × Pointer w × Pointer w) := do
  let s ← loadRight n
  if (← loadLeft s).isNone then
    pure (s, s, ← loadRight s)
  else
    let s ← rbnodeLeftmost s
    let p ← rbnodeParent s
    let c ← loadRight s
    storeLeft p c
    storeRight s (← loadRight n)
    rbnodeSetParentAndFlags (← loadRight n) s (← rbnodeFlags (← loadRight n))
    pure (s, p, c)

/-- Links the child `c` of the successor `s` to `p`, and returns where to rebalance. -/
def unlinkChild (s p c : Pointer w) : Prog w (Pointer w) :=
  if c.isSome then do
    rbnodeSetParentAndFlags c p ((← rbnodeFlags c) &&& ~~~rbnodeRed)
    pure none
  else do
    if ← rbnodeIsBlack s then pure p else pure none

/-- The successor `s` inherits the parent and the colour of `n`. -/
def unlinkInherit (n s : Pointer w) : Prog w Unit := do
  if ← rbnodeIsRed n then
    rbnodeSetParentAndFlags s (← rbnodeParent n) ((← rbnodeFlags s) ||| rbnodeRed)
  else
    rbnodeSetParentAndFlags s (← rbnodeParent n) ((← rbnodeFlags s) &&& ~~~rbnodeRed)

/-- The rest of case 1.3: `s` takes the place of `n`. -/
def unlinkReplace (n t s p c : Pointer w) : Prog w Unit := do
  storeLeft s (← loadLeft n)
  rbnodeSetParentAndFlags (← loadLeft n) s (← rbnodeFlags (← loadLeft n))
  let next ← unlinkChild s p c
  unlinkInherit n s
  rbnodeSwapChild n s
  let _ ← rbnodePushRoot s t
  whenSet next do rbnodeRebalance next

/-- `!n->left && !n->right` -/
def hasNoChild (n : Pointer w) : Prog w Bool := do
  if (← loadLeft n).isNone then do pure (← loadRight n).isNone else pure false

/-- `!n->left && n->right` -/
def hasRightOnly (n : Pointer w) : Prog w Bool := do
  if (← loadLeft n).isNone then do pure (← loadRight n).isSome else pure false

/-- `n->left && !n->right` -/
def hasLeftOnly (n : Pointer w) : Prog w Bool := do
  if (← loadLeft n).isSome then do pure (← loadRight n).isNone else pure false

/-- Case 1.3 -/
def unlinkTwo (n : Pointer w) : Prog w Unit := do
  let t ← rbnodePopRoot n
  let (s, p, c) ← unlinkSuccessor n
  unlinkReplace n t s p c

def rbnodeUnlinkStale (n : Pointer w) : Prog w Unit := do
  cAssert n.isSome
  cAssert (← rbnodeIsLinked n)
  if ← hasNoChild n then
    unlinkLeaf n
  else do
    if ← hasRightOnly n then
      unlinkRightOnly n
    else do
      if ← hasLeftOnly n then
        unlinkLeftOnly n
      else
        unlinkTwo n

def rbnodeUnlink (n : Pointer w) : Prog w Unit := do
  if ← rbnodeIsLinked n then
    rbnodeUnlinkStale n
    rbnodeInit n

end CRbtree
