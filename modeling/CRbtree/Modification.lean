import CRbtree.Memory

set_option autoImplicit false

/-!
The accessors of c-rbtree.h and c-rbtree-private.h and the insertion half of
c-rbtree.c. A C pointer is a `Pointer`; every access through it fails on NULL. A loop
takes the number of turns it may make, and no loop over distinct nodes can make more
than there are addresses.
-/

namespace CRbtree
open TaggedPointers Programs

variable {w : ℕ}

abbrev Prog (w : ℕ) (α : Type) := Program (Command w) Answer α

def load (s : Slot w) : Prog w (Pointer w) := issue (Command.load s)
def store (s : Slot w) (v : Pointer w) : Prog w Unit := issue (Command.store s v)
def readRaw (n : Address w) : Prog w (Pointer w) := issue (Command.raw n)
def readFlags (n : Address w) : Prog w (Word w) := issue (Command.flags n)
def readParent (n : Address w) : Prog w (Pointer w) := issue (Command.parent n)
def writeLink (n : Address w) (p : Pointer w) (f : Word w) : Prog w Unit :=
  issue (Command.write n p f)
def countTurn (k : Turn) : Prog w Unit := issue (Command.turn k)

def crash {α : Type} (e : Crash) : Prog w α := .step (.crash e) Empty.elim

def cAssert (b : Bool) : Prog w Unit := if b then pure () else crash .assertion

def deref : Pointer w → Prog w (Address w)
  | none => crash .nullDereference
  | some n => pure n

/-- `if (x) …` -/
def whenSet (x : Pointer w) (p : Prog w Unit) : Prog w Unit :=
  if x.isSome then p else pure ()

def loadLeft (n : Pointer w) : Prog w (Pointer w) := do
  let n ← deref n
  load (.left n)

def loadRight (n : Pointer w) : Prog w (Pointer w) := do
  let n ← deref n
  load (.right n)

def loadRoot (t : Pointer w) : Prog w (Pointer w) := do
  let t ← deref t
  load (.root t)

/-- c_rbtree_store(&n->left, addr) -/
def storeLeft (n addr : Pointer w) : Prog w Unit := do
  let n ← deref n
  store (.left n) addr

def storeRight (n addr : Pointer w) : Prog w Unit := do
  let n ← deref n
  store (.right n) addr

def storeRoot (t addr : Pointer w) : Prog w Unit := do
  let t ← deref t
  store (.root t) addr

def rbnodeRaw (n : Pointer w) : Prog w (Pointer w) := do
  let n ← deref n
  readRaw n

def rbnodeFlags (n : Pointer w) : Prog w (Word w) := do
  let n ← deref n
  readFlags n

def rbnodeIsRed (n : Pointer w) : Prog w Bool := do
  let flags ← rbnodeFlags n
  pure (flags &&& rbnodeRed != 0#(w + 2))

def rbnodeIsBlack (n : Pointer w) : Prog w Bool := do
  let flags ← rbnodeFlags n
  pure (!(flags &&& rbnodeRed != 0#(w + 2)))

def rbnodeIsRoot (n : Pointer w) : Prog w Bool := do
  let flags ← rbnodeFlags n
  pure (flags &&& rbnodeRoot != 0#(w + 2))

def rbnodeParent (n : Pointer w) : Prog w (Pointer w) := do
  let n ← deref n
  readParent n

def rbnodeIsLinked (n : Pointer w) : Prog w Bool :=
  if n.isSome then do
    let p ← rbnodeParent n
    pure (p != n)
  else pure false

def rbnodeSetParentAndFlags (n p : Pointer w) (flags : Word w) : Prog w Unit := do
  let n ← deref n
  writeLink n p flags

/-- The node's own address in all of `__parent_and_flags`, and no children. -/
def rbnodeInit (n : Pointer w) : Prog w Unit := do
  rbnodeSetParentAndFlags n n 0#(w + 2)
  storeLeft n none
  storeRight n none

def rbtreeInit (t : Pointer w) : Prog w Unit := storeRoot t none

def rbnodePopRoot (n : Pointer w) : Prog w (Pointer w) := do
  if ← rbnodeIsRoot n then
    let t ← rbnodeRaw n
    rbnodeSetParentAndFlags n none ((← rbnodeFlags n) &&& ~~~rbnodeRoot)
    pure t
  else
    pure none

def rbnodePushRoot (n t : Pointer w) : Prog w (Pointer w) := do
  whenSet t do
    whenSet n do
      rbnodeSetParentAndFlags n t ((← rbnodeFlags n) ||| rbnodeRoot)
    storeRoot t n
  pure none

def rbnodeSwapChild (old new : Pointer w) : Prog w Unit := do
  let p ← rbnodeParent old
  whenSet p do
    if (← loadLeft p) = old then
      storeLeft p new
    else
      storeRight p new

def rbtreeMove (dst src : Pointer w) : Prog w Unit := do
  cAssert (← loadRoot dst).isNone
  whenSet (← loadRoot src) do
    let t ← rbnodePopRoot (← loadRoot src)
    cAssert (t = src)
    storeRoot dst (← loadRoot src)
    storeRoot src none
    let _ ← rbnodePushRoot (← loadRoot dst) dst

/-- `p == g->left || !g->left || c_rbnode_is_black(g->left)`, which reads the field for each
of the tests. -/
def uncleNotRed (child : Pointer w → Prog w (Pointer w)) (p g : Pointer w) : Prog w Bool := do
  if p = (← child g) then pure true
  else do
    if (← child g).isNone then pure true else rbnodeIsBlack (← child g)

def rbtreePaintTerminalAsserts (p g : Pointer w) : Prog w Unit := do
  cAssert (← rbnodeIsRed p)
  cAssert (← rbnodeIsBlack g)
  cAssert (← uncleNotRed loadLeft p g)
  cAssert (← uncleNotRed loadRight p g)

/-- Rotates `p` below `n` where `n` is the inner child, and returns the parent then. -/
def rbtreePaintInnerLeft (n p : Pointer w) : Prog w (Pointer w) := do
  if n = (← loadRight p) then
    let x ← loadLeft n
    storeRight p x
    storeLeft n p
    whenSet x do rbnodeSetParentAndFlags x p (← rbnodeFlags x)
    rbnodeSetParentAndFlags p n (← rbnodeFlags p)
    pure n
  else
    pure p

def rbtreePaintOuterLeft (p g gg : Pointer w) : Prog w Unit := do
  let x ← loadRight p
  let t ← rbnodePopRoot g
  storeLeft g x
  storeRight p g
  rbnodeSwapChild g p
  whenSet x do rbnodeSetParentAndFlags x g ((← rbnodeFlags x) &&& ~~~rbnodeRed)
  rbnodeSetParentAndFlags p gg ((← rbnodeFlags p) &&& ~~~rbnodeRed)
  rbnodeSetParentAndFlags g p ((← rbnodeFlags g) ||| rbnodeRed)
  let _ ← rbnodePushRoot p t

/-- The mirrored half, which reads `n->right` a second time. -/
def rbtreePaintInnerRight (n p : Pointer w) : Prog w (Pointer w) := do
  if n = (← loadLeft p) then
    let x ← loadRight n
    storeLeft p (← loadRight n)
    storeRight n p
    whenSet x do rbnodeSetParentAndFlags x p (← rbnodeFlags x)
    rbnodeSetParentAndFlags p n (← rbnodeFlags p)
    pure n
  else
    pure p

def rbtreePaintOuterRight (p g gg : Pointer w) : Prog w Unit := do
  let x ← loadLeft p
  let t ← rbnodePopRoot g
  storeRight g x
  storeLeft p g
  rbnodeSwapChild g p
  whenSet x do rbnodeSetParentAndFlags x g ((← rbnodeFlags x) &&& ~~~rbnodeRed)
  rbnodeSetParentAndFlags p gg ((← rbnodeFlags p) &&& ~~~rbnodeRed)
  rbnodeSetParentAndFlags g p ((← rbnodeFlags g) ||| rbnodeRed)
  let _ ← rbnodePushRoot p t

def rbtreePaintTerminal (n : Pointer w) : Prog w Unit := do
  let p ← rbnodeParent n
  let g ← rbnodeParent p
  let gg ← rbnodeParent g
  rbtreePaintTerminalAsserts p g
  if p = (← loadLeft g) then
    let p ← rbtreePaintInnerLeft n p
    rbtreePaintOuterLeft p g gg
  else
    let p ← rbtreePaintInnerRight n p
    rbtreePaintOuterRight p g gg

/-- `(x == p->left) ? p->right : p->left` -/
def otherChild (x p : Pointer w) : Prog w (Pointer w) := do
  if x = (← loadLeft p) then loadRight p else loadLeft p

/-- `!x || !c_rbnode_is_red(x)` -/
def unsetOrNotRed (x : Pointer w) : Prog w Bool :=
  if x.isNone then pure true else do pure !(← rbnodeIsRed x)

def rbtreePaintPath : ℕ → Pointer w → Prog w (Pointer w)
  | 0, _ => crash .endless
  | turns + 1, n => do
    let p ← rbnodeParent n
    if p.isNone then
      -- Case 1
      rbnodeSetParentAndFlags n (← rbnodeRaw n) ((← rbnodeFlags n) &&& ~~~rbnodeRed)
      pure none
    else do
      if ← rbnodeIsBlack p then
        -- Case 2
        pure none
      else do
        let g ← rbnodeParent p
        let u ← otherChild p g
        if ← unsetOrNotRed u then
          -- Case 4
          pure n
        else do
          -- Case 3
          rbnodeSetParentAndFlags p g ((← rbnodeFlags p) &&& ~~~rbnodeRed)
          rbnodeSetParentAndFlags u g ((← rbnodeFlags u) &&& ~~~rbnodeRed)
          rbnodeSetParentAndFlags g (← rbnodeRaw g) ((← rbnodeFlags g) ||| rbnodeRed)
          countTurn .paint
          rbtreePaintPath turns g

def rbtreePaint (n : Pointer w) : Prog w Unit := do
  let n ← rbtreePaintPath (2 ^ w) n
  whenSet n do rbtreePaintTerminal n

/-- `l == &p->left || l == &p->right` -/
def isChildSlot (p : Pointer w) (l : Option (Slot w)) : Bool :=
  p.any fun p => l = some (.left p) || l = some (.right p)

def storeSlot (l : Option (Slot w)) (addr : Pointer w) : Prog w Unit :=
  match l with
  | none => crash .nullDereference
  | some l => store l addr

def rbnodeLink (p : Pointer w) (l : Option (Slot w)) (n : Pointer w) : Prog w Unit := do
  cAssert p.isSome
  cAssert l.isSome
  cAssert n.isSome
  cAssert (isChildSlot p l)
  rbnodeSetParentAndFlags n p rbnodeRed
  storeLeft n none
  storeRight n none
  storeSlot l n
  rbtreePaint n

/-- `if (p) c_rbtree_store(l, n); else c_rbnode_push_root(n, t);` -/
def storeOrPushRoot (t p : Pointer w) (l : Option (Slot w)) (n : Pointer w) : Prog w Unit :=
  if p.isSome then storeSlot l n else do let _ ← rbnodePushRoot n t

def rbtreeAdd (t p : Pointer w) (l : Option (Slot w)) (n : Pointer w) : Prog w Unit := do
  cAssert t.isSome
  cAssert l.isSome
  cAssert n.isSome
  cAssert (p.isNone || isChildSlot p l)
  cAssert (p.isSome || l = t.map .root)
  rbnodeSetParentAndFlags n p rbnodeRed
  storeLeft n none
  storeRight n none
  storeOrPushRoot t p l n
  rbtreePaint n

end CRbtree
