import CRbtree.Removal

set_option autoImplicit false

/-!
The mirrored halves of the code as one text with a side: what is written for the left
half with `d` for left and `d.flip` for right.
-/

namespace CRbtree
open RedBlack TaggedPointers PointerGraphs Programs

variable {w : ℕ}

def loadChild (d : Side) (n : Pointer w) : Prog w (Pointer w) := do
  let n ← deref n
  load (.child d n)

def storeChild (d : Side) (n addr : Pointer w) : Prog w Unit := do
  let n ← deref n
  store (.child d n) addr

def paintInner (d : Side) (n p : Pointer w) : Prog w (Pointer w) := do
  if n = (← loadChild d.flip p) then
    let x ← loadChild d n
    storeChild d.flip p x
    storeChild d n p
    whenSet x do rbnodeSetParentAndFlags x p (← rbnodeFlags x)
    rbnodeSetParentAndFlags p n (← rbnodeFlags p)
    pure n
  else
    pure p

def paintOuter (d : Side) (p g gg : Pointer w) : Prog w Unit := do
  let x ← loadChild d.flip p
  let t ← rbnodePopRoot g
  storeChild d g x
  storeChild d.flip p g
  rbnodeSwapChild g p
  whenSet x do rbnodeSetParentAndFlags x g ((← rbnodeFlags x) &&& ~~~rbnodeRed)
  rbnodeSetParentAndFlags p gg ((← rbnodeFlags p) &&& ~~~rbnodeRed)
  rbnodeSetParentAndFlags g p ((← rbnodeFlags g) ||| rbnodeRed)
  let _ ← rbnodePushRoot p t

def paintHalf (d : Side) (n p g gg : Pointer w) : Prog w Unit := do
  let p ← paintInner d n p
  paintOuter d p g gg

theorem rbtreePaintInnerLeft_eq (n p : Pointer w) :
    rbtreePaintInnerLeft n p = paintInner .left n p := rfl

theorem rbtreePaintOuterLeft_eq (p g gg : Pointer w) :
    rbtreePaintOuterLeft p g gg = paintOuter .left p g gg := rfl

theorem rbtreePaintOuterRight_eq (p g gg : Pointer w) :
    rbtreePaintOuterRight p g gg = paintOuter .right p g gg := rfl

def rebalanceRed (d : Side) (p s : Pointer w) : Prog w (Pointer w) := do
  let t ← rbnodePopRoot p
  let g ← rbnodeParent p
  let x ← loadChild d s
  storeChild d.flip p x
  storeChild d s p
  rbnodeSwapChild p s
  rbnodeSetParentAndFlags x p ((← rbnodeFlags x) &&& ~~~rbnodeRed)
  rbnodeSetParentAndFlags s g ((← rbnodeFlags s) &&& ~~~rbnodeRed)
  rbnodeSetParentAndFlags p s ((← rbnodeFlags p) ||| rbnodeRed)
  let _ ← rbnodePushRoot s t
  pure x

def rebalanceInner (d : Side) (p s y : Pointer w) : Prog w Unit := do
  let x ← loadChild d.flip y
  storeChild d s (← loadChild d.flip y)
  storeChild d.flip y s
  storeChild d.flip p y
  whenSet x do rbnodeSetParentAndFlags x s ((← rbnodeFlags x) &&& ~~~rbnodeRed)

def rebalanceOuter (d : Side) (p s x : Pointer w) : Prog w Unit := do
  let t ← rbnodePopRoot p
  let g ← rbnodeParent p
  let y ← loadChild d s
  storeChild d.flip p y
  storeChild d s p
  rbnodeSwapChild p s
  rbnodeSetParentAndFlags x s ((← rbnodeFlags x) &&& ~~~rbnodeRed)
  whenSet y do rbnodeSetParentAndFlags y p (← rbnodeFlags y)
  rbnodeSetParentAndFlags s g (← rbnodeFlags p)
  rbnodeSetParentAndFlags p s ((← rbnodeFlags p) &&& ~~~rbnodeRed)
  let _ ← rbnodePushRoot s t

def rebalanceBlack (d : Side) (p s : Pointer w) : Prog w Unit := do
  let x ← loadChild d.flip s
  if ← unsetOrBlack x then
    let y ← loadChild d s
    if ← unsetOrBlack y then
      rebalanceFlip p s
    else
      rebalanceInner d p s y
      rebalanceOuter d p y s
  else
    rebalanceOuter d p s x

def rebalanceSibling (d : Side) (p s : Pointer w) : Prog w (Pointer w) := do
  if ← rbnodeIsRed s then rebalanceRed d p s else pure s

def rebalanceHalf (d : Side) (p : Pointer w) : Prog w Unit := do
  let s ← loadChild d.flip p
  let s ← rebalanceSibling d p s
  rebalanceBlack d p s

theorem rebalanceTerminalLeft_eq (p : Pointer w) :
    rebalanceTerminalLeft p = rebalanceHalf .left p := rfl

theorem rebalanceTerminalRight_eq (p : Pointer w) :
    rebalanceTerminalRight p = rebalanceHalf .right p := rfl

def unlinkOnly (d : Side) (n : Pointer w) : Prog w Unit := do
  let t ← rbnodePopRoot n
  rbnodeSwapChild n (← loadChild d n)
  rbnodeSetParentAndFlags (← loadChild d n) (← rbnodeParent n)
    ((← rbnodeFlags (← loadChild d n)) &&& ~~~rbnodeRed)
  let _ ← rbnodePushRoot (← loadChild d n) t

theorem unlinkRightOnly_eq (n : Pointer w) : unlinkRightOnly n = unlinkOnly .right n := rfl

theorem unlinkLeftOnly_eq (n : Pointer w) : unlinkLeftOnly n = unlinkOnly .left n := rfl

end CRbtree
