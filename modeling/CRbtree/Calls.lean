import CRbtree.Removal

set_option autoImplicit false

/-!
Runs of calls to the library, and what they mean for the in-order lists of the trees.
-/

namespace CRbtree
open RedBlack TaggedPointers Programs

variable {w : ℕ}

inductive Call (w : ℕ) where
  | treeInit (t : Address w)
  | nodeInit (n : Address w)
  | add (t : Address w) (p : Pointer w) (l : Slot w) (n : Address w)
  | link (p : Address w) (l : Slot w) (n : Address w)
  | unlink (n : Address w)
  | unlinkStale (n : Address w)
  | move (dst src : Address w)
  deriving DecidableEq

namespace Call

def code : Call w → Prog w Unit
  | treeInit t => rbtreeInit (some t)
  | nodeInit n => rbnodeInit (some n)
  | add t p l n => rbtreeAdd (some t) p (some l) (some n)
  | link p l n => rbnodeLink (some p) (some l) (some n)
  | unlink n => rbnodeUnlink (some n)
  | unlinkStale n => rbnodeUnlinkStale (some n)
  | move dst src => rbtreeMove (some dst) (some src)

/-- The calls that add a node to a tree or remove one. -/
def Changes : Call w → Bool
  | add _ _ _ _ | link _ _ _ | unlink _ | unlinkStale _ => true
  | treeInit _ | nodeInit _ | move _ _ => false

/-- The node whose fields the call sets, whatever they were. -/
def setsNode : Call w → List (Address w)
  | nodeInit n | add _ _ _ n | link _ _ n => [n]
  | treeInit _ | unlink _ | unlinkStale _ | move _ _ => []

/-- The tree whose root the call sets, whatever it was. -/
def setsTree : Call w → List (Address w)
  | treeInit t => [t]
  | nodeInit _ | add _ _ _ _ | link _ _ _ | unlink _ | unlinkStale _ | move _ _ => []

/-- The node that a call adds to a tree. -/
def added : Call w → List (Address w)
  | add _ _ _ n | link _ _ n => [n]
  | treeInit _ | nodeInit _ | unlink _ | unlinkStale _ | move _ _ => []

end Call

/-- The in-order list of every tree that has been initialised. -/
abbrev Sequences (w : ℕ) := Address w → Option (List (Address w))

/-- The node is a member of some tree. -/
def Linked (S : Sequences w) (n : Address w) : Prop := ∃ t l, S t = some l ∧ n ∈ l

/-- `n` right before or right after `p`. -/
def insertBeside (d : Side) (p n : Address w) : List (Address w) → List (Address w)
  | [] => []
  | a :: l =>
    if a = p then (if d = .left then n :: a :: l else a :: n :: l)
    else a :: insertBeside d p n l

def sideOf : Slot w → Side
  | .right _ => .right
  | .left _ | .root _ => .left

namespace Call

/-- The lists after the call. -/
def after (S : Sequences w) : Call w → Sequences w
  | treeInit t => Function.update S t (some [])
  | nodeInit _ => S
  | add t none _ n => Function.update S t (some [n])
  | add _ (some p) l n | link p l n => fun t => (S t).map (insertBeside (sideOf l) p n)
  | unlink n | unlinkStale n => fun t => (S t).map fun l => l.erase n
  | move dst src => Function.update (Function.update S dst (S src)) src (some [])

/-- What the callers of the library promise. A slot is empty when the pointer it holds is
NULL. -/
def Legal (S : Sequences w) (g : Slot w → Pointer w) : Call w → Prop
  | treeInit t => ∀ l, S t = some l → l = []
  | nodeInit n => ¬Linked S n
  | add t none l n => S t ≠ none ∧ l = .root t ∧ g l = none ∧ ¬Linked S n
  | add _ (some p) l n | link p l n =>
    Linked S p ∧ (l = .left p ∨ l = .right p) ∧ g l = none ∧ ¬Linked S n
  | unlink n | unlinkStale n => Linked S n
  | move dst src => S dst ≠ none ∧ g (.root dst) = none ∧ S src ≠ none

end Call

/-- The runs of legal calls from a memory in which nothing has been initialised: the
calls, all commands they have issued, and the memory and the lists at the end. -/
inductive Run {L : Type} (f : LinkField L w) (m₀ : Memory L w) :
    List (Call w) → List (Command w) → Memory L w → Sequences w → Prop
  | start : Run f m₀ [] [] m₀ fun _ => none
  | call {cs : List (Call w)} {tr tr' : List (Command w)} {m m' : Memory L w} {S : Sequences w}
      {c : Call w} (h : Run f m₀ cs tr m S) (hc : c.Legal S m.load)
      (hm : run (machine f) c.code m = .ok ((), m', tr')) :
      Run f m₀ (cs ++ [c]) (tr ++ tr') m' (c.after S)

section Lists

variable {d : Side} {p n : Address w} {l l' : List (Address w)}

theorem insertBeside_of_not_mem (h : p ∉ l) : insertBeside d p n l = l := by
  induction l with
  | nil => rfl
  | cons a l ih =>
    simp only [List.mem_cons, not_or] at h
    rw [insertBeside, if_neg (Ne.symm h.1), ih h.2]

theorem insertBeside_left (h : p ∉ l) :
    insertBeside .left p n (l ++ p :: l') = l ++ n :: p :: l' := by
  induction l with
  | nil => simp [insertBeside]
  | cons a l ih =>
    simp only [List.mem_cons, not_or] at h
    rw [List.cons_append, insertBeside, if_neg (Ne.symm h.1), ih h.2]
    rfl

theorem insertBeside_right (h : p ∉ l) :
    insertBeside .right p n (l ++ p :: l') = l ++ p :: n :: l' := by
  induction l with
  | nil => simp [insertBeside]
  | cons a l ih =>
    simp only [List.mem_cons, not_or] at h
    rw [List.cons_append, insertBeside, if_neg (Ne.symm h.1), ih h.2]
    rfl

theorem mem_of_mem_insertBeside {a : Address w} (ha : a ∈ insertBeside d p n l) :
    a ∈ l ∨ a = n := by
  induction l with
  | nil => cases ha
  | cons b l ih =>
    simp only [insertBeside] at ha
    split at ha
    · split at ha <;> simp only [List.mem_cons] at ha ⊢ <;> tauto
    · rcases List.mem_cons.mp ha with rfl | ha
      · exact .inl (by simp)
      · exact (ih ha).imp_left (List.mem_cons_of_mem b)

end Lists

section After

variable {S : Sequences w} {c : Call w}

/-- Only nodes that a call adds enter a tree. -/
theorem linked_of_after {a : Address w} (ha : Linked (c.after S) a) :
    Linked S a ∨ a ∈ c.setsNode := by
  obtain ⟨t, l, hl, hal⟩ := ha
  have hmap : ∀ u : List (Address w) → List (Address w), (∀ k, a ∈ u k → a ∈ k ∨ a ∈ c.setsNode) →
      (S t).map u = some l → Linked S a ∨ a ∈ c.setsNode := by
    intro u hu hS
    obtain ⟨k, hk, rfl⟩ := Option.map_eq_some_iff.mp hS
    exact (hu k hal).imp_left fun hak => ⟨t, k, hk, hak⟩
  have hupdate : ∀ {S' : Sequences w} {t' : Address w} {v : Option (List (Address w))},
      Function.update S' t' v t = some l → v = some l ∨ S' t = some l := by
    intro S' t' v h
    rw [Function.update_apply] at h
    split at h
    · exact .inl h
    · exact .inr h
  cases c with
  | treeInit t' =>
    rcases hupdate hl with h | h
    · cases h
      cases hal
    · exact .inl ⟨t, l, h, hal⟩
  | nodeInit n => exact .inl ⟨t, l, hl, hal⟩
  | add t' p s n =>
    cases p with
    | none =>
      rcases hupdate hl with h | h
      · cases h
        exact .inr hal
      · exact .inl ⟨t, l, h, hal⟩
    | some p =>
      exact hmap _ (fun k hk => (mem_of_mem_insertBeside hk).imp_right (by simp [Call.setsNode])) hl
  | link p s n =>
    exact hmap _ (fun k hk => (mem_of_mem_insertBeside hk).imp_right (by simp [Call.setsNode])) hl
  | unlink n | unlinkStale n => exact hmap _ (fun k hk => .inl (List.mem_of_mem_erase hk)) hl
  | move dst src =>
    rcases hupdate hl with h | h
    · cases h
      cases hal
    · rcases hupdate h with h | h
      · exact .inl ⟨src, l, h, hal⟩
      · exact .inl ⟨t, l, h, hal⟩

/-- Only a tree that is initialised enters the lists. -/
theorem ne_none_of_after {g : Slot w → Pointer w} {t : Address w} (hc : c.Legal S g)
    (ht : c.after S t ≠ none) : S t ≠ none ∨ t ∈ c.setsTree := by
  by_contra hno
  rw [not_or, not_not] at hno
  obtain ⟨hS, hset⟩ := hno
  refine ht ?_
  cases c with
  | treeInit t' =>
    rw [Call.after, Function.update_of_ne (by simpa [Call.setsTree] using hset), hS]
  | nodeInit n => exact hS
  | add t' p s n =>
    cases p with
    | none =>
      have hne : t ≠ t' := by
        rintro rfl
        exact hc.1 hS
      rw [Call.after, Function.update_of_ne hne, hS]
    | some p => simp [Call.after, hS]
  | link p s n | unlink n | unlinkStale n => simp [Call.after, hS]
  | move dst src =>
    have hdst : t ≠ dst := by
      rintro rfl
      exact hc.1 hS
    have hsrc : t ≠ src := by
      rintro rfl
      exact hc.2.2 hS
    rw [Call.after, Function.update_of_ne hsrc, Function.update_of_ne hdst, hS]

end After

end CRbtree
