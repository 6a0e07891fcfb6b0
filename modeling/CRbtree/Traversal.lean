import CRbtree.Modification

set_option autoImplicit false

/-!
The traversal functions of c-rbtree.c. The loops take the number of times their body
may run; the functions themselves allow one run for every address.
-/

namespace CRbtree
open TaggedPointers Programs

variable {w : ℕ}

/-- `while (n->left) n = n->left` -/
def leftmostLoop : ℕ → Pointer w → Prog w (Pointer w)
  | turns, n => do
    if (← loadLeft n).isSome then
      match turns with
      | 0 => crash .endless
      | turns + 1 => leftmostLoop turns (← loadLeft n)
    else
      pure n

def rightmostLoop : ℕ → Pointer w → Prog w (Pointer w)
  | turns, n => do
    if (← loadRight n).isSome then
      match turns with
      | 0 => crash .endless
      | turns + 1 => rightmostLoop turns (← loadRight n)
    else
      pure n

def leftdeepestLoop : ℕ → Pointer w → Prog w (Pointer w)
  | turns, n => do
    if (← loadLeft n).isSome then
      match turns with
      | 0 => crash .endless
      | turns + 1 => leftdeepestLoop turns (← loadLeft n)
    else do
      if (← loadRight n).isSome then
        match turns with
        | 0 => crash .endless
        | turns + 1 => leftdeepestLoop turns (← loadRight n)
      else
        pure n

def rightdeepestLoop : ℕ → Pointer w → Prog w (Pointer w)
  | turns, n => do
    if (← loadRight n).isSome then
      match turns with
      | 0 => crash .endless
      | turns + 1 => rightdeepestLoop turns (← loadRight n)
    else do
      if (← loadLeft n).isSome then
        match turns with
        | 0 => crash .endless
        | turns + 1 => rightdeepestLoop turns (← loadLeft n)
      else
        pure n

def rbnodeLeftmost (n : Pointer w) : Prog w (Pointer w) :=
  if n.isSome then leftmostLoop (2 ^ w) n else pure n

def rbnodeRightmost (n : Pointer w) : Prog w (Pointer w) :=
  if n.isSome then rightmostLoop (2 ^ w) n else pure n

def rbnodeLeftdeepest (n : Pointer w) : Prog w (Pointer w) :=
  if n.isSome then leftdeepestLoop (2 ^ w) n else pure n

def rbnodeRightdeepest (n : Pointer w) : Prog w (Pointer w) :=
  if n.isSome then rightdeepestLoop (2 ^ w) n else pure n

/-- `p && n == p->right` -/
def isRightOf (n p : Pointer w) : Prog w Bool :=
  if p.isSome then do pure (n = (← loadRight p)) else pure false

def isLeftOf (n p : Pointer w) : Prog w Bool :=
  if p.isSome then do pure (n = (← loadLeft p)) else pure false

/-- `while ((p = c_rbnode_parent(n)) && n == p->right) n = p`, and returns `p`. -/
def nextLoop : ℕ → Pointer w → Prog w (Pointer w)
  | turns, n => do
    let p ← rbnodeParent n
    if ← isRightOf n p then
      match turns with
      | 0 => crash .endless
      | turns + 1 => nextLoop turns p
    else
      pure p

def prevLoop : ℕ → Pointer w → Prog w (Pointer w)
  | turns, n => do
    let p ← rbnodeParent n
    if ← isLeftOf n p then
      match turns with
      | 0 => crash .endless
      | turns + 1 => prevLoop turns p
    else
      pure p

def rbnodeNext (n : Pointer w) : Prog w (Pointer w) := do
  if ← rbnodeIsLinked n then
    if (← loadRight n).isSome then
      rbnodeLeftmost (← loadRight n)
    else
      nextLoop (2 ^ w) n
  else
    pure none

def rbnodePrev (n : Pointer w) : Prog w (Pointer w) := do
  if ← rbnodeIsLinked n then
    if (← loadLeft n).isSome then
      rbnodeRightmost (← loadLeft n)
    else
      prevLoop (2 ^ w) n
  else
    pure none

def rbnodeNextPostorder (n : Pointer w) : Prog w (Pointer w) := do
  if ← rbnodeIsLinked n then
    let p ← rbnodeParent n
    if ← isLeftOf n p then
      if (← loadRight p).isSome then
        rbnodeLeftdeepest (← loadRight p)
      else
        pure p
    else
      pure p
  else
    pure none

/-- `p->left && n != p->left` -/
def hasOtherLeft (n p : Pointer w) : Prog w Bool := do
  if (← loadLeft p).isSome then do pure (n ≠ (← loadLeft p)) else pure false

/-- The `while` loop of c_rbnode_prev_postorder(), and what the function returns after it. -/
def prevPostorderLoop : ℕ → Pointer w → Prog w (Pointer w)
  | turns, n => do
    let p ← rbnodeParent n
    if p.isSome then
      match turns with
      | 0 => crash .endless
      | turns + 1 => do
        if ← hasOtherLeft n p then loadLeft p else prevPostorderLoop turns p
    else
      pure none

def rbnodePrevPostorder (n : Pointer w) : Prog w (Pointer w) := do
  if ← rbnodeIsLinked n then
    if (← loadRight n).isSome then
      loadRight n
    else do
      if (← loadLeft n).isSome then
        loadLeft n
      else
        prevPostorderLoop (2 ^ w) n
  else
    pure none

def rbtreeFirst (t : Pointer w) : Prog w (Pointer w) := do
  cAssert t.isSome
  rbnodeLeftmost (← loadRoot t)

def rbtreeLast (t : Pointer w) : Prog w (Pointer w) := do
  cAssert t.isSome
  rbnodeRightmost (← loadRoot t)

def rbtreeFirstPostorder (t : Pointer w) : Prog w (Pointer w) := do
  cAssert t.isSome
  rbnodeLeftdeepest (← loadRoot t)

def rbtreeLastPostorder (t : Pointer w) : Prog w (Pointer w) := do
  cAssert t.isSome
  loadRoot t

end CRbtree
