import CRbtree.Lockstep
import CRbtree.Fields
import CRbtree.Removal

set_option autoImplicit false

/-!
Memories that correspond under a renaming of addresses, as far as certain nodes and trees
go. The accessors run in lockstep on them.
-/

namespace PointerGraphs

variable {α τ : Type}

/-- The same slot of the renamed node or tree. -/
def Slot.rename (f : α → α) : Slot α α → Slot α α
  | .left a => .left (f a)
  | .right a => .right (f a)
  | .root t => .root (f t)

theorem Slot.rename_injective {f : α → α} (hf : Function.Injective f) :
    Function.Injective (Slot.rename f) := by
  intro s s' h
  cases s <;> cases s' <;> simp [Slot.rename, hf.eq_iff] at h ⊢ <;> exact h

/-- The node or tree that a slot is a part of. -/
def Slot.object : Slot α α → α
  | .left a | .right a | .root a => a

end PointerGraphs

namespace CRbtree
open TaggedPointers PointerGraphs Programs

variable {w : ℕ}

namespace Command

def rename (f : Address w → Address w) : Command w → Command w
  | load s => load (s.rename f)
  | store s v => store (s.rename f) (v.map f)
  | raw n => raw (f n)
  | flags n => flags (f n)
  | parent n => parent (f n)
  | write n p x => write (f n) (p.map f) x
  | turn k => turn k
  | crash e => crash e

/-- The command names objects of `A` only. -/
def Within (A : Set (Address w)) : Command w → Prop
  | load s => s.object ∈ A
  | store s v => s.object ∈ A ∧ ∀ a ∈ v, a ∈ A
  | raw n | flags n | parent n => n ∈ A
  | write n p _ => n ∈ A ∧ ∀ a ∈ p, a ∈ A
  | turn _ | crash _ => True

end Command

/-- What the addresses of one memory are in another one, and which nodes and which trees
the two memories share. -/
structure Matching (w : ℕ) where
  rename : Address w → Address w
  injective : Function.Injective rename
  nodes : Set (Address w)
  trees : Set (Address w)

namespace Matching

variable (M : Matching w)

def objects : Set (Address w) := M.nodes ∪ M.trees

/-- The second pointer is the first one, to a shared node. -/
def Same (p q : Pointer w) : Prop := q = p.map M.rename ∧ ∀ a ∈ p, a ∈ M.nodes

/-- The second pointer is the first one, to a shared object. -/
def Alike (p q : Pointer w) : Prop := q = p.map M.rename ∧ ∀ a ∈ p, a ∈ M.objects

def Pair (c d : Command w) : Prop := d = c.rename M.rename ∧ c.Within M.objects

/-- The words have the same flags, and point to the same tree or parent. -/
structure Words (x y : Word w) : Prop where
  flags : flagsOf y = flagsOf x
  raw : M.Alike (rawOf x) (rawOf y)
  parent : M.Same (parentOf x) (parentOf y)

/-- The fields of the node `a` of the first memory, if it is a node of the second one. -/
structure Fields (h h' : Heap w) (a : Address w) : Prop where
  left : M.Same (h.load (.left a)) (h'.load (.left (M.rename a)))
  right : M.Same (h.load (.right a)) (h'.load (.right (M.rename a)))
  word : M.Words (h.link a) (h'.link (M.rename a))

/-- The memories correspond, but for the nodes of `ns` and the trees of `ts`. -/
structure Joins (ns ts : List (Address w)) (h h' : Heap w) : Prop where
  node : ∀ a ∈ M.nodes, a ∉ ns → M.Fields h h' a
  tree : ∀ t ∈ M.trees, t ∉ ts → M.Same (h.load (.root t)) (h'.load (.root (M.rename t)))

/-- The programs run in lockstep on memories that correspond. -/
abbrev Tie {α β : Type} (Q : α → β → Prop) (p : Prog w α) (p' : Prog w β) : Prop :=
  Together (machine packed) (machine packed) M.Pair (M.Joins [] []) Q p p'

variable {M} {p q : Pointer w} {a : Address w} {h h' : Heap w} {ns ts : List (Address w)}

theorem mem_objects (ha : a ∈ M.nodes) : a ∈ M.objects := .inl ha

theorem same_none : M.Same none none := ⟨rfl, nofun⟩

theorem same_some (ha : a ∈ M.nodes) : M.Same (some a) (some (M.rename a)) :=
  ⟨rfl, by simpa using ha⟩

theorem Same.alike (hp : M.Same p q) : M.Alike p q :=
  ⟨hp.1, fun a ha => mem_objects (hp.2 a ha)⟩

theorem Same.eq_none (hs : M.Same p q) (hp : p = none) : q = none := by
  rw [hs.1, hp]
  rfl

/-- Renamed pointers are equal only if they were before. -/
theorem rename_eq_iff {p q : Pointer w} : p.map M.rename = q.map M.rename ↔ p = q :=
  (Option.map_injective M.injective).eq_iff

theorem Same.eq_iff {p p' q q' : Pointer w} (hp : M.Same p p') (hq : M.Same q q') :
    p' = q' ↔ p = q := by
  rw [hp.1, hq.1, rename_eq_iff]

theorem Alike.eq_iff {p p' q q' : Pointer w} (hp : M.Alike p p') (hq : M.Alike q q') :
    p' = q' ↔ p = q := by
  rw [hp.1, hq.1, rename_eq_iff]

theorem Alike.isSome_eq {p p' : Pointer w} (hp : M.Alike p p') : p'.isSome = p.isSome := by
  rw [hp.1, Option.isSome_map]

theorem Alike.isNone_eq {p p' : Pointer w} (hp : M.Alike p p') : p'.isNone = p.isNone := by
  rw [hp.1, Option.isNone_map]

theorem Same.store {s : Slot w} (u : Slot w)
    (hu : u ≠ s → M.Same (h.load u) (h'.load (u.rename M.rename))) (hp : M.Same p q) :
    M.Same ((h.store s p).load u)
      ((h'.store (s.rename M.rename) q).load (u.rename M.rename)) := by
  rw [Memory.load_store, Memory.load_store]
  by_cases hus : u = s
  · rw [hus, Function.update_self, Function.update_self]
    exact hp
  · rw [Function.update_of_ne hus,
      Function.update_of_ne (mt (fun heq => Slot.rename_injective M.injective heq) hus)]
    exact hu hus

theorem Joins.store {s : Slot w} (hj : M.Joins ns ts h h') (hp : M.Same p q) :
    M.Joins ns ts (h.store s p) (h'.store (s.rename M.rename) q) := by
  refine ⟨fun a ha hl => ?_, fun t ht hl => .store (.root t) (fun _ => hj.tree t ht hl) hp⟩
  have hf := hj.node a ha hl
  exact ⟨.store (.left a) (fun _ => hf.left) hp,
    .store (.right a) (fun _ => hf.right) hp, by simpa using hf.word⟩

theorem Joins.setLink {x y : Word w} (hj : M.Joins ns ts h h') (hw : M.Words x y) :
    M.Joins ns ts (h.setLink a x) (h'.setLink (M.rename a) y) := by
  refine ⟨fun b hb hl => ?_, by simpa using hj.tree⟩
  have hf := hj.node b hb hl
  refine ⟨by simpa using hf.left, by simpa using hf.right, ?_⟩
  by_cases hab : b = a
  · subst hab
    simpa using hw
  · simpa [hab, M.injective.eq_iff] using hf.word

/-- Words of pointers that correspond, with the same flags. -/
theorem words_or {f : Word w} (hp : M.Alike p q) (hf : IsFlags f)
    (hroot : f &&& rbnodeRoot = 0#(w + 2) → M.Same p q) :
    M.Words (p.word ||| f) (q.word ||| f) := by
  have hflags : ∀ p : Pointer w, flagsOf (p.word ||| f) = f := fun p =>
    or_flags_and_mask p.aligned hf
  have hraw : ∀ p : Pointer w, rawOf (p.word ||| f) = p := fun p => pointerOf_or p hf
  refine ⟨by rw [hflags, hflags], by rwa [hraw, hraw], ?_⟩
  unfold parentOf
  rw [and_root_flagsOf (p.word ||| f), and_root_flagsOf (q.word ||| f), hflags, hflags]
  by_cases hr : f &&& rbnodeRoot = 0#(w + 2)
  · rw [if_neg (not_not.mpr hr), if_neg (not_not.mpr hr), pointerOf_or p hf, pointerOf_or q hf]
    exact hroot hr
  · rw [if_pos hr, if_pos hr]
    exact same_none

end Matching

theorem isFlags_flagsOf (x : Word w) : IsFlags (flagsOf x) := by
  unfold IsFlags flagsOf
  rw [BitVec.and_assoc]
  exact (congrArg (x &&& ·) (BitVec.and_not_self _)).trans BitVec.and_zero

theorem isFlags_and {f : Word w} (g : Word w) (hf : IsFlags f) : IsFlags (f &&& g) := by
  unfold IsFlags at *
  rw [BitVec.and_assoc, BitVec.and_comm g, ← BitVec.and_assoc, hf, BitVec.zero_and]

theorem isFlags_or {f g : Word w} (hf : IsFlags f) (hg : IsFlags g) : IsFlags (f ||| g) := by
  unfold IsFlags at *
  rw [BitVec.and_or_distrib_right, hf, hg, BitVec.or_zero]

theorem isFlags_red : IsFlags (rbnodeRed : Word w) := flagWord_red ▸ isFlags_flagWord .red false

theorem isFlags_root : IsFlags (rbnodeRoot : Word w) := isFlags_of_or (g := rbnodeRed)
  (by rw [BitVec.or_comm, red_or_root])

theorem or_root_and_root (f : Word w) : (f ||| rbnodeRoot) &&& rbnodeRoot = rbnodeRoot := by
  ext i hi
  simp
  grind

theorem parentOf_eq_rawOf {x : Word w} (h : flagsOf x &&& rbnodeRoot = 0#(w + 2)) :
    parentOf x = rawOf x := by
  unfold parentOf
  rw [and_root_flagsOf, h, if_neg (not_not.mpr rfl)]
  rfl

/-- The same flags, and nothing but flags. -/
def SameFlags (f g : Word w) : Prop := g = f ∧ IsFlags f

theorem SameFlags.setRed {f g : Word w} (h : SameFlags f g) :
    SameFlags (f ||| rbnodeRed) (g ||| rbnodeRed) :=
  ⟨by rw [h.1], isFlags_or h.2 isFlags_red⟩

theorem SameFlags.and {f g : Word w} (h : SameFlags f g) (k : Word w) :
    SameFlags (f &&& k) (g &&& k) :=
  ⟨by rw [h.1], isFlags_and k h.2⟩

namespace Matching

variable {M : Matching w} {α β : Type} {Q : α → β → Prop} {n n' p p' x x' : Pointer w}

theorem tie_crash (e : Crash) : M.Tie Q (crash e) (crash e) :=
  fun _ _ _ => .fail ⟨rfl, trivial⟩ rfl rfl

theorem tie_assert {b b' : Bool} (hb : b' = b) : M.Tie Eq (cAssert b) (cAssert b') := by
  rw [hb]
  exact .ite Iff.rfl (fun _ => .pure rfl) fun _ => tie_crash .assertion

theorem tie_whenSet {r r' : Prog w Unit} (hx : M.Alike x x') (h : M.Tie Eq r r') :
    M.Tie Eq (whenSet x r) (whenSet x' r') :=
  .ite (by rw [hx.isSome_eq]) (fun _ => h) fun _ => .pure rfl

/-- A command and its renamed form. -/
theorem tie_issue (c : Command w) {R : Answer c → Answer (c.rename M.rename) → Prop}
    (hc : c.Within M.objects)
    (h : ∀ h h', M.Joins [] [] h h' → ∃ r r' g g', machine packed c h = .ok (r, g) ∧
      machine packed (c.rename M.rename) h' = .ok (r', g') ∧ R r r' ∧ M.Joins [] [] g g') :
    M.Tie R (issue c) (issue (c.rename M.rename)) :=
  .issue ⟨rfl, hc⟩ h

theorem tie_countTurn (k : Turn) : M.Tie Eq (countTurn k) (countTurn k) :=
  tie_issue (.turn k) trivial fun _ _ hj => ⟨_, _, _, _, rfl, rfl, rfl, hj⟩

/-- An access through a pointer. -/
theorem tie_deref {k : Address w → Prog w α} {k' : Address w → Prog w β} (hn : M.Same n n')
    (hk : ∀ a ∈ M.nodes, M.Tie Q (k a) (k' (M.rename a))) :
    M.Tie Q (deref n >>= k) (deref n' >>= k') := by
  obtain ⟨rfl, hn⟩ := hn
  cases n with
  | none => exact fun _ _ _ => .fail ⟨rfl, trivial⟩ rfl rfl
  | some a => exact hk a (hn a rfl)

theorem tie_loadLeft (hn : M.Same n n') : M.Tie M.Same (loadLeft n) (loadLeft n') :=
  tie_deref hn fun a ha => tie_issue (.load (.left a)) (mem_objects ha) fun _ _ hj =>
    ⟨_, _, _, _, rfl, rfl, (hj.node a ha (by simp)).left, hj⟩

theorem tie_loadRight (hn : M.Same n n') : M.Tie M.Same (loadRight n) (loadRight n') :=
  tie_deref hn fun a ha => tie_issue (.load (.right a)) (mem_objects ha) fun _ _ hj =>
    ⟨_, _, _, _, rfl, rfl, (hj.node a ha (by simp)).right, hj⟩

theorem tie_store {s : Slot w} (hs : s.object ∈ M.objects) (hp : M.Same p p') :
    M.Tie Eq (store s p) (store (s.rename M.rename) p') := by
  obtain ⟨rfl, hp'⟩ := hp
  exact tie_issue (.store s p) ⟨hs, fun a ha => mem_objects (hp' a ha)⟩ fun _ _ hj =>
    ⟨_, _, _, _, rfl, rfl, rfl, hj.store ⟨rfl, hp'⟩⟩

theorem tie_storeLeft (hn : M.Same n n') (hp : M.Same p p') :
    M.Tie Eq (storeLeft n p) (storeLeft n' p') :=
  tie_deref hn fun a ha => tie_store (s := .left a) (mem_objects ha) hp

theorem tie_storeRight (hn : M.Same n n') (hp : M.Same p p') :
    M.Tie Eq (storeRight n p) (storeRight n' p') :=
  tie_deref hn fun a ha => tie_store (s := .right a) (mem_objects ha) hp

theorem tie_rbnodeFlags (hn : M.Same n n') : M.Tie SameFlags (rbnodeFlags n) (rbnodeFlags n') :=
  tie_deref hn fun a ha => tie_issue (.flags a) (mem_objects ha) fun _ _ hj =>
    ⟨_, _, _, _, rfl, rfl, ⟨(hj.node a ha (by simp)).word.flags, isFlags_flagsOf _⟩, hj⟩

theorem tie_rbnodeRaw (hn : M.Same n n') : M.Tie M.Alike (rbnodeRaw n) (rbnodeRaw n') :=
  tie_deref hn fun a ha => tie_issue (.raw a) (mem_objects ha) fun _ _ hj =>
    ⟨_, _, _, _, rfl, rfl, (hj.node a ha (by simp)).word.raw, hj⟩

theorem tie_rbnodeParent (hn : M.Same n n') : M.Tie M.Same (rbnodeParent n) (rbnodeParent n') :=
  tie_deref hn fun a ha => tie_issue (.parent a) (mem_objects ha) fun _ _ hj =>
    ⟨_, _, _, _, rfl, rfl, (hj.node a ha (by simp)).word.parent, hj⟩

theorem tie_writeLink {f f' : Word w} (hn : M.Same n n') (hp : M.Alike p p') (hf : SameFlags f f')
    (hroot : f &&& rbnodeRoot = 0#(w + 2) → M.Same p p') :
    M.Tie Eq (rbnodeSetParentAndFlags n p f) (rbnodeSetParentAndFlags n' p' f') := by
  obtain ⟨rfl, hf⟩ := hf
  obtain ⟨rfl, hp'⟩ := id hp
  exact tie_deref hn fun a ha => tie_issue (.write a p f') ⟨mem_objects ha, hp'⟩ fun _ _ hj =>
    ⟨_, _, _, _, rfl, rfl, rfl, hj.setLink (words_or hp hf hroot)⟩

theorem tie_setLink {f f' : Word w} (hn : M.Same n n') (hp : M.Same p p') (hf : SameFlags f f') :
    M.Tie Eq (rbnodeSetParentAndFlags n p f) (rbnodeSetParentAndFlags n' p' f') :=
  tie_writeLink hn hp.alike hf fun _ => hp

theorem tie_rbnodeIsRed (hn : M.Same n n') : M.Tie Eq (rbnodeIsRed n) (rbnodeIsRed n') :=
  (tie_rbnodeFlags hn).bind fun _ _ hf => .pure (by rw [hf.1])

theorem tie_rbnodeIsBlack (hn : M.Same n n') : M.Tie Eq (rbnodeIsBlack n) (rbnodeIsBlack n') :=
  (tie_rbnodeFlags hn).bind fun _ _ hf => .pure (by rw [hf.1])

theorem tie_rbnodeIsRoot (hn : M.Same n n') : M.Tie Eq (rbnodeIsRoot n) (rbnodeIsRoot n') :=
  (tie_rbnodeFlags hn).bind fun _ _ hf => .pure (by rw [hf.1])

theorem tie_rbnodeIsLinked (hn : M.Same n n') :
    M.Tie Eq (rbnodeIsLinked n) (rbnodeIsLinked n') := by
  refine .ite (by rw [hn.alike.isSome_eq]) (fun _ => ?_) fun _ => .pure rfl
  refine (tie_rbnodeParent hn).bind fun p p' hp => .pure ?_
  rw [Bool.eq_iff_iff, bne_iff_ne, bne_iff_ne, ne_eq, ne_eq, hp.eq_iff hn]

theorem tie_storeRoot (hn : M.Alike n n') (hp : M.Same p p') :
    M.Tie Eq (storeRoot n p) (storeRoot n' p') := by
  obtain ⟨rfl, hn⟩ := hn
  cases n with
  | none => exact fun _ _ _ => .fail ⟨rfl, trivial⟩ rfl rfl
  | some t => exact tie_store (s := .root t) (hn t rfl) hp

/-- Writes back flags, some of them set or cleared, with a new parent. -/
theorem tie_reflag {g : Word w → Word w} (hn : M.Same n n') (hp : M.Same p p')
    (hx : M.Same x x') (hg : ∀ f, IsFlags f → IsFlags (g f)) :
    M.Tie Eq (rbnodeFlags x >>= fun f => rbnodeSetParentAndFlags n p (g f))
      (rbnodeFlags x' >>= fun f => rbnodeSetParentAndFlags n' p' (g f)) :=
  (tie_rbnodeFlags hx).bind fun _ _ hf => tie_setLink hn hp ⟨by rw [hf.1], hg _ hf.2⟩

theorem tie_rbnodePopRoot (hn : M.Same n n') :
    M.Tie M.Alike (rbnodePopRoot n) (rbnodePopRoot n') := by
  refine (tie_rbnodeIsRoot hn).bind fun b b' hb => .ite (by rw [hb]) (fun _ => ?_)
    fun _ => .pure same_none.alike
  refine (tie_rbnodeRaw hn).bind fun t t' ht => (tie_rbnodeFlags hn).bind fun f f' hf => ?_
  exact (tie_setLink hn same_none (hf.and _)).bind fun _ _ _ => .pure ht

theorem tie_rbnodePushRoot (hn : M.Same n n') (hp : M.Alike p p') :
    M.Tie M.Same (rbnodePushRoot n p) (rbnodePushRoot n' p') := by
  refine Together.bind (tie_whenSet hp ?_) fun _ _ _ => .pure same_none
  refine Together.bind (tie_whenSet hn.alike ?_) fun _ _ _ => tie_storeRoot hp hn
  refine (tie_rbnodeFlags hn).bind fun f f' hf => ?_
  refine tie_writeLink hn hp ⟨by rw [hf.1], isFlags_or hf.2 isFlags_root⟩ fun h0 => ?_
  rw [or_root_and_root] at h0
  exact absurd h0 rbnodeRoot_ne_zero

/-- Writes back the parent or tree with the flags, and the root flag as it was. -/
theorem tie_repaint {g : Word w → Word w} (hn : M.Same n n')
    (hg : ∀ f, IsFlags f → IsFlags (g f) ∧ g f &&& rbnodeRoot = f &&& rbnodeRoot) :
    M.Tie Eq
      (rbnodeRaw n >>= fun p => rbnodeFlags n >>= fun f => rbnodeSetParentAndFlags n p (g f))
      (rbnodeRaw n' >>= fun p => rbnodeFlags n' >>= fun f =>
        rbnodeSetParentAndFlags n' p (g f)) := by
  obtain ⟨rfl, hn⟩ := hn
  cases n with
  | none => exact fun _ _ _ => .fail ⟨rfl, trivial⟩ rfl rfl
  | some a =>
    intro h h' hj
    have ha := hn a rfl
    obtain ⟨hflags, hraw, hparent⟩ := (hj.node a ha (by simp)).word
    obtain ⟨hgf, hroot⟩ := hg _ (isFlags_flagsOf (h.link a))
    let code : Address w → Prog w Unit := fun a =>
      .step (.raw a) fun p => .step (.flags a) fun f => .step (.write a p (g f)) .done
    change Lockstep _ _ M.Pair _ Eq (code a) h (code (M.rename a)) h'
    refine .step ⟨rfl, mem_objects ha⟩ rfl rfl <| .step ⟨rfl, mem_objects ha⟩ rfl rfl <|
      .step ⟨?_, mem_objects ha, hraw.2⟩ rfl rfl <| .done rfl ?_
    · rw [hflags]
      exact congrArg (Command.write _ · _) hraw.1
    · rw [hflags]
      refine hj.setLink (words_or hraw hgf fun h0 => ?_)
      rw [hroot] at h0
      rwa [parentOf_eq_rawOf h0, parentOf_eq_rawOf (hflags ▸ h0)] at hparent

theorem tie_rbnodeSwapChild (hn : M.Same n n') (hp : M.Same p p') :
    M.Tie Eq (rbnodeSwapChild n p) (rbnodeSwapChild n' p') := by
  refine (tie_rbnodeParent hn).bind fun q q' hq => tie_whenSet hq.alike ?_
  refine (tie_loadLeft hq).bind fun x x' hx => .ite (hx.eq_iff hn).symm (fun _ => ?_) fun _ => ?_
  · exact tie_storeLeft hq hp
  · exact tie_storeRight hq hp

theorem tie_rbnodeInit (hn : M.Same n n') : M.Tie Eq (rbnodeInit n) (rbnodeInit n') :=
  (tie_setLink hn hn ⟨rfl, isFlags_zero⟩).bind fun _ _ _ =>
    (tie_storeLeft hn same_none).bind fun _ _ _ => tie_storeRight hn same_none

theorem tie_loadRoot {t : Address w} (ht : t ∈ M.trees) :
    M.Tie M.Same (loadRoot (some t)) (loadRoot (some (M.rename t))) :=
  tie_issue (.load (.root t)) (.inr ht) fun _ _ hj =>
    ⟨_, _, _, _, rfl, rfl, hj.tree t ht (by simp), hj⟩

theorem tie_rbtreeMove {t s : Address w} (ht : t ∈ M.trees) (hs : s ∈ M.trees) :
    M.Tie Eq (rbtreeMove (some t) (some s))
      (rbtreeMove (some (M.rename t)) (some (M.rename s))) := by
  have hT : ∀ {t}, t ∈ M.trees → M.Alike (some t) (some (M.rename t)) :=
    fun ht => ⟨rfl, by simpa using .inr ht⟩
  refine (tie_loadRoot ht).bind fun _ _ h₁ => (tie_assert h₁.alike.isNone_eq).bind fun _ _ _ => ?_
  refine (tie_loadRoot hs).bind fun _ _ h₂ => tie_whenSet h₂.alike ?_
  refine (tie_loadRoot hs).bind fun _ _ h₃ => (tie_rbnodePopRoot h₃).bind fun _ _ h₄ => ?_
  refine (tie_assert (by rw [decide_eq_decide, h₄.eq_iff (hT hs)])).bind fun _ _ _ => ?_
  refine (tie_loadRoot hs).bind fun _ _ h₅ => (tie_storeRoot (hT ht) h₅).bind fun _ _ _ => ?_
  refine (tie_storeRoot (hT hs) same_none).bind fun _ _ _ => ?_
  exact (tie_loadRoot ht).bind fun _ _ h₆ => (tie_rbnodePushRoot h₆ (hT ht)).bind fun _ _ _ =>
    .pure rfl

end Matching

end CRbtree
