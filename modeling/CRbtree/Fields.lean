import CRbtree.Memory

set_option autoImplicit false

/-!
Nodes with separate parent, colour and tree fields. Only what the packed word can hold
may be written and only what has been written can be read, so a run on these nodes is
also a run on packed ones.
-/

namespace CRbtree
open RedBlack TaggedPointers Programs

variable {w : ℕ}

/-- The parts of `__parent_and_flags`; only the root of a tree points to its tree. -/
inductive Link (w : ℕ) where
  | unknown
  | unlinked
  | linked (parent : Pointer w) (color : Color) (tree : Pointer w)
  deriving DecidableEq

abbrev FieldHeap (w : ℕ) := Memory (Link w) w

def flagWord (c : Color) (root : Bool) : Word w :=
  (if c = .red then rbnodeRed else 0#(w + 2)) ||| (if root then rbnodeRoot else 0#(w + 2))

theorem toNat_flag {k : ℕ} (h : k < 4) : (BitVec.ofNat (w + 2) k).toNat = k := by
  have h₄ : 2 ^ 2 ≤ 2 ^ (w + 2) := Nat.pow_le_pow_right (by decide) (by omega)
  rw [BitVec.toNat_ofNat]
  exact Nat.mod_eq_of_lt (by omega)

theorem rbnodeRed_ne_zero : (rbnodeRed : Word w) ≠ 0#(w + 2) := by
  intro h
  have h₁ := congrArg BitVec.toNat h
  rw [rbnodeRed, toNat_flag (by decide), toNat_flag (by decide)] at h₁
  omega

theorem rbnodeRoot_ne_zero : (rbnodeRoot : Word w) ≠ 0#(w + 2) := by
  intro h
  have h₁ := congrArg BitVec.toNat h
  rw [rbnodeRoot, toNat_flag (by decide), toNat_flag (by decide)] at h₁
  omega

theorem red_and_root : (rbnodeRed &&& rbnodeRoot : Word w) = 0#(w + 2) := by
  apply BitVec.eq_of_toNat_eq
  rw [BitVec.toNat_and, rbnodeRed, rbnodeRoot, toNat_flag (by decide), toNat_flag (by decide),
    toNat_flag (by decide)]
  decide

theorem red_or_root : (rbnodeRed ||| rbnodeRoot : Word w) = rbnodeFlagMask := by
  apply BitVec.eq_of_toNat_eq
  rw [BitVec.toNat_or, rbnodeRed, rbnodeRoot, rbnodeFlagMask, toNat_flag (by decide),
    toNat_flag (by decide), toNat_flag (by decide)]
  decide

theorem and_not_of_and_eq_zero {n : ℕ} {x y : BitVec n} (h : x &&& y = 0#n) :
    x &&& ~~~y = x := by
  ext i hi
  have hb := congrArg (fun z => z.getLsbD i) h
  simp [hi] at hb ⊢
  grind

theorem isFlags_of_or {f g : Word w} (h : f ||| g = rbnodeFlagMask) : IsFlags f := by
  unfold IsFlags
  change f &&& ~~~rbnodeFlagMask = _
  rw [← h]
  ext i hi
  simp
  grind

section FlagWord

attribute [local simp] flagWord BitVec.and_or_distrib_right red_and_root

theorem red_and_not_root : (rbnodeRed &&& ~~~rbnodeRoot : Word w) = rbnodeRed :=
  and_not_of_and_eq_zero red_and_root

theorem root_and_not_red : (rbnodeRoot &&& ~~~rbnodeRed : Word w) = rbnodeRoot :=
  and_not_of_and_eq_zero (by rw [BitVec.and_comm, red_and_root])

theorem isFlags_flagWord (c : Color) (r : Bool) : IsFlags (flagWord c r : Word w) := by
  cases c <;> cases r
  · exact isFlags_of_or (g := rbnodeRoot) (by simp [red_or_root])
  · exact isFlags_of_or (g := rbnodeFlagMask) (by simp [red_or_root])
  · simpa using isFlags_zero
  · exact isFlags_of_or (g := rbnodeRed) (by simp [BitVec.or_comm rbnodeRoot, red_or_root])

theorem flagWord_clear_red (c : Color) (r : Bool) :
    (flagWord c r &&& ~~~rbnodeRed : Word w) = flagWord .black r := by
  cases c <;> cases r <;> simp [root_and_not_red]

theorem flagWord_set_red (c : Color) (r : Bool) :
    (flagWord c r ||| rbnodeRed : Word w) = flagWord .red r := by
  cases c <;> cases r <;> simp [BitVec.or_comm _ rbnodeRed, ← BitVec.or_assoc]

theorem flagWord_clear_root (c : Color) (r : Bool) :
    (flagWord c r &&& ~~~rbnodeRoot : Word w) = flagWord c false := by
  cases c <;> cases r <;> simp [red_and_not_root]

theorem flagWord_set_root (c : Color) (r : Bool) :
    (flagWord c r ||| rbnodeRoot : Word w) = flagWord c true := by
  cases c <;> cases r <;> simp [BitVec.or_assoc]

theorem flagWord_and_red (c : Color) (r : Bool) :
    (flagWord c r &&& rbnodeRed : Word w) = if c = .red then rbnodeRed else 0#(w + 2) := by
  cases c <;> cases r <;> simp [BitVec.and_comm rbnodeRoot]

theorem flagWord_and_root (c : Color) (r : Bool) :
    (flagWord c r &&& rbnodeRoot : Word w) = if r then rbnodeRoot else 0#(w + 2) := by
  cases c <;> cases r <;> simp

end FlagWord

theorem flagWord_and_red_bne (c : Color) (r : Bool) :
    (flagWord c r &&& rbnodeRed != 0#(w + 2)) = decide (c = .red) := by
  rw [flagWord_and_red]
  cases c with
  | red => exact bne_iff_ne.mpr rbnodeRed_ne_zero
  | black => simp

theorem flagWord_and_root_bne (c : Color) (r : Bool) :
    (flagWord c r &&& rbnodeRoot != 0#(w + 2)) = r := by
  rw [flagWord_and_root]
  cases r with
  | true => exact bne_iff_ne.mpr rbnodeRoot_ne_zero
  | false => simp

theorem flagWord_inj {c c' : Color} {r r' : Bool}
    (h : (flagWord c r : Word w) = flagWord c' r') : c = c' ∧ r = r' := by
  have h₁ := congrArg (· &&& rbnodeRed) h
  have h₂ := congrArg (· &&& rbnodeRoot) h
  simp only [flagWord_and_red, flagWord_and_root] at h₁ h₂
  have hne := rbnodeRed_ne_zero (w := w)
  have hne' := rbnodeRoot_ne_zero (w := w)
  cases c <;> cases c' <;> cases r <;> cases r' <;> simp_all

theorem flagWord_red : (flagWord .red false : Word w) = rbnodeRed := by simp [flagWord]

theorem flagWord_black : (flagWord .black false : Word w) = 0#(w + 2) := by simp [flagWord]

/-- The colour and the root flag, provided that no other bit is set. -/
def decodeFlags (f : Word w) : Option (Color × Bool) :=
  [(.black, false), (.red, false), (.black, true), (.red, true)].find?
    fun x => f = flagWord x.1 x.2

theorem decodeFlags_flagWord (c : Color) (r : Bool) :
    decodeFlags (flagWord c r : Word w) = some (c, r) := by
  have h : ∀ c' r', (flagWord c r : Word w) = flagWord c' r' ↔ c = c' ∧ r = r' :=
    fun c' r' => ⟨flagWord_inj, by rintro ⟨rfl, rfl⟩; rfl⟩
  unfold decodeFlags
  simp only [h]
  cases c <;> cases r <;> rfl

theorem decodeFlags_eq {f : Word w} {c : Color} {r : Bool} (h : decodeFlags f = some (c, r)) :
    f = flagWord c r := by
  simpa using List.find?_some h

/-- Separate fields, which take no write that would lose a tree or leak a flag. -/
def separate : LinkField (Link w) w where
  raw n
    | .unknown => .error .uninitialised
    | .unlinked => .ok (some n)
    | .linked p _ none => .ok p
    | .linked _ _ (some t) => .ok (some t)
  flags _
    | .unknown => .error .uninitialised
    | .unlinked => .ok (flagWord .black false)
    | .linked _ c t => .ok (flagWord c t.isSome)
  parent n
    | .unknown => .error .uninitialised
    | .unlinked => .ok (some n)
    | .linked p _ none => .ok p
    | .linked _ _ (some _) => .ok none
  write n p f :=
    match decodeFlags f, p with
    | none, _ => .error .flagLeak
    | some (_, true), none => .error .treeLost
    | some (c, true), some t => .ok (.linked none c (some t))
    | some (c, false), p =>
      if p = some n then
        if c = .red then .error .flagLeak else .ok .unlinked
      else .ok (.linked p c none)

/-- What the word of node `n` is when its fields are `l`. -/
def Packs (n : Address w) : Link w → Word w → Prop
  | .unknown, _ => True
  | .unlinked, x => x = n.word
  | .linked p c none, x => p ≠ some n ∧ x = p.word ||| flagWord c false
  | .linked p c (some t), x => p = none ∧ x = t.word ||| flagWord c true

theorem flagsOf_or (p : Pointer w) (c : Color) (r : Bool) :
    flagsOf (p.word ||| flagWord c r) = flagWord c r :=
  or_flags_and_mask p.aligned (isFlags_flagWord c r)

theorem rawOf_or (p : Pointer w) (c : Color) (r : Bool) :
    rawOf (p.word ||| flagWord c r) = p :=
  pointerOf_or p (isFlags_flagWord c r)

theorem and_root_flagsOf (x : Word w) : x &&& rbnodeRoot = flagsOf x &&& rbnodeRoot := by
  have h : (rbnodeFlagMask &&& rbnodeRoot : Word w) = rbnodeRoot := by
    rw [← red_or_root, BitVec.and_or_distrib_right, red_and_root]
    simp
  rw [flagsOf, BitVec.and_assoc, h]

theorem parentOf_or (p : Pointer w) (c : Color) (r : Bool) :
    parentOf (p.word ||| flagWord c r) = if r then none else p := by
  unfold parentOf
  rw [and_root_flagsOf, flagsOf_or, flagWord_and_root, pointerOf_or p (isFlags_flagWord c r)]
  cases r
  · simp
  · simp [rbnodeRoot_ne_zero]

theorem unlinked_word (n : Address w) :
    n.word = Pointer.word (some n) ||| flagWord .black false := by
  simp [Pointer.word, flagWord]

theorem packs_raw {n : Address w} {l : Link w} {x : Word w} {p : Pointer w} (h : Packs n l x)
    (hr : separate.raw n l = .ok p) : rawOf x = p := by
  rcases l with _ | _ | ⟨q, c, _ | t⟩ <;> simp only [separate, Except.ok.injEq, reduceCtorEq] at hr
  · rw [h, unlinked_word, rawOf_or, hr]
  · rw [h.2, rawOf_or, hr]
  · rw [h.2, ← hr]
    exact rawOf_or (some t) c true

theorem packs_flags {n : Address w} {l : Link w} {x f : Word w} (h : Packs n l x)
    (hr : separate.flags n l = .ok f) : flagsOf x = f := by
  rcases l with _ | _ | ⟨q, c, _ | t⟩ <;> simp only [separate, Except.ok.injEq, reduceCtorEq] at hr
  · rw [h, unlinked_word, flagsOf_or, hr]
  · rw [h.2, flagsOf_or, ← hr]
    rfl
  · rw [h.2, ← hr]
    exact flagsOf_or (some t) c true

theorem packs_parent {n : Address w} {l : Link w} {x : Word w} {p : Pointer w} (h : Packs n l x)
    (hr : separate.parent n l = .ok p) : parentOf x = p := by
  rcases l with _ | _ | ⟨q, c, _ | t⟩ <;> simp only [separate, Except.ok.injEq, reduceCtorEq] at hr
  · rw [h, unlinked_word, parentOf_or, ← hr]
    rfl
  · rw [h.2, parentOf_or, hr]
    rfl
  · rw [h.2, ← hr]
    exact parentOf_or (some t) c true

theorem packs_write {n : Address w} {l : Link w} {p : Pointer w} {f : Word w}
    (h : separate.write n p f = .ok l) : Packs n l (p.word ||| f) := by
  simp only [separate] at h
  rcases hd : decodeFlags f with _ | ⟨c, _ | _⟩
  · simp [hd] at h
  · rw [decodeFlags_eq hd]
    by_cases hp : p = some n
    · subst hp
      cases c <;> simp [hd] at h
      rw [← h]
      exact (unlinked_word n).symm
    · simp [hd, hp] at h
      rw [← h]
      exact ⟨hp, rfl⟩
  · rw [decodeFlags_eq hd]
    cases p with
    | none => simp [hd] at h
    | some t =>
      simp [hd] at h
      rw [← h]
      exact ⟨rfl, rfl⟩

/-- The same pointers, and every word packs the fields of its node. -/
def Refines (m : FieldHeap w) (h : Heap w) : Prop :=
  m.load = h.load ∧ ∀ n, Packs n (m.link n) (h.link n)

theorem refines_command (c : Command w) (m : FieldHeap w) (h : Heap w) (r : Answer c)
    (m' : FieldHeap w) (hrel : Refines m h) (hm : machine separate c m = .ok (r, m')) :
    ∃ h', machine packed c h = .ok (r, h') ∧ Refines m' h' := by
  obtain ⟨hl, hp⟩ := hrel
  cases c with
  | load s =>
    simp only [machine, Except.ok.injEq] at hm
    obtain ⟨rfl, rfl⟩ := hm
    exact ⟨h, by rw [machine, hl], hl, hp⟩
  | store s v =>
    simp only [machine, Except.ok.injEq] at hm
    obtain ⟨-, rfl⟩ := hm
    refine ⟨h.store s v, rfl, ?_, ?_⟩
    · rw [Memory.load_store, Memory.load_store, hl]
    · simpa only [Memory.link_store] using hp
  | raw n =>
    cases hr : separate.raw n (m.link n) with
    | error e => simp [machine, hr, Except.map] at hm
    | ok p =>
      simp only [machine, hr, Except.map, Except.ok.injEq] at hm
      obtain ⟨rfl, rfl⟩ := hm
      exact ⟨h, by rw [← packs_raw (hp n) hr]; rfl, hl, hp⟩
  | flags n =>
    cases hr : separate.flags n (m.link n) with
    | error e => simp [machine, hr, Except.map] at hm
    | ok f =>
      simp only [machine, hr, Except.map, Except.ok.injEq] at hm
      obtain ⟨rfl, rfl⟩ := hm
      exact ⟨h, by rw [← packs_flags (hp n) hr]; rfl, hl, hp⟩
  | parent n =>
    cases hr : separate.parent n (m.link n) with
    | error e => simp [machine, hr, Except.map] at hm
    | ok p =>
      simp only [machine, hr, Except.map, Except.ok.injEq] at hm
      obtain ⟨rfl, rfl⟩ := hm
      exact ⟨h, by rw [← packs_parent (hp n) hr]; rfl, hl, hp⟩
  | write n p f =>
    cases hr : separate.write n p f with
    | error e => simp [machine, hr, Except.map] at hm
    | ok l =>
      simp only [machine, hr, Except.map, Except.ok.injEq] at hm
      obtain ⟨-, rfl⟩ := hm
      refine ⟨h.setLink n (p.word ||| f), rfl, ?_, fun b => ?_⟩
      · rw [Memory.load_setLink, Memory.load_setLink, hl]
      · rw [Memory.link_setLink, Memory.link_setLink]
        by_cases hb : b = n
        · subst hb
          simpa using packs_write hr
        · simpa [hb] using hp b
  | turn k =>
    simp only [machine, Except.ok.injEq] at hm
    obtain ⟨-, rfl⟩ := hm
    exact ⟨h, rfl, hl, hp⟩
  | crash e => simp [machine] at hm

/-- Every run on separate fields is a run on packed words: the same result and the same
commands, and the words pack the fields at the end. -/
theorem run_packed {α : Type} {p : Program (Command w) Answer α} {m m' : FieldHeap w} {h : Heap w}
    {a : α} {tr : List (Command w)} (hrel : Refines m h)
    (hm : run (machine separate) p m = .ok (a, m', tr)) :
    ∃ h', run (machine packed) p h = .ok (a, h', tr) ∧ Refines m' h' :=
  run_simulation refines_command hrel hm

end CRbtree
