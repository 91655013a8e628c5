import Mathlib

/-!
# Priority queues

`PriorityQueue` is what the standard promises of `std::priority_queue` with a
comparator: the queue holds the elements pushed and not yet popped, and `pop` takes
one that is not greater than any other. Which of several equivalent elements comes
first is left open, so a result proved for every `PriorityQueue` holds for every
shape of the heap.

`firstIn` is one that takes the equivalent elements in the order in which they were pushed.
-/

namespace LsmTree.Base

structure PriorityQueue (ν : Type) (gt : ν → ν → Bool) where
  Q : Type
  empty : Q
  push : ν → Q → Q
  /-- `top()` and `pop()`; `none` on an empty queue. -/
  pop : Q → Option (ν × Q)
  elems : Q → Multiset ν
  elems_empty : elems empty = 0
  elems_push : ∀ a q, elems (push a q) = a ::ₘ elems q
  pop_none : ∀ q, pop q = none → elems q = 0
  pop_some : ∀ q a q', pop q = some (a, q') →
    elems q = a ::ₘ elems q' ∧ ∀ b ∈ elems q', gt a b = false

variable {ν : Type} {gt : ν → ν → Bool}

/-- No element of the list is before this one. -/
def least (gt : ν → ν → Bool) (l : List ν) (a : ν) : Bool := l.all fun b => !gt a b

theorem exists_least (hirr : ∀ a, gt a a = false)
    (htrans : ∀ a b c, gt a b = true → gt b c = true → gt a c = true) (l : List ν) (hne : l ≠ []) :
    ∃ a ∈ l, ∀ b ∈ l, gt a b = false := by
  induction l with
  | nil => exact absurd rfl hne
  | cons c l ih =>
    by_cases hl : l = []
    · subst hl
      exact ⟨c, List.mem_cons_self, List.forall_mem_singleton.2 (hirr c)⟩
    obtain ⟨a, ha, hleast⟩ := ih hl
    cases hac : gt a c with
    | false => exact ⟨a, List.mem_cons_of_mem _ ha, List.forall_mem_cons.2 ⟨hac, hleast⟩⟩
    | true =>
      refine ⟨c, List.mem_cons_self, List.forall_mem_cons.2 ⟨hirr c, fun b hb => ?_⟩⟩
      refine Bool.eq_false_iff.2 fun hcb => ?_
      have hab := htrans a c b hac hcb
      rw [hleast b hb] at hab
      exact Bool.false_ne_true hab

/-- The queue as the list of what was pushed; `pop` takes the first element that may be taken. -/
def firstIn (hirr : ∀ a, gt a a = false) (htrans : ∀ a b c, gt a b = true → gt b c = true → gt a c = true) :
    PriorityQueue ν gt where
  Q := List ν
  empty := []
  push a q := q ++ [a]
  pop q := (q.find? (least gt q)).map fun a => (a, q.eraseP (least gt q))
  elems q := q
  elems_empty := rfl
  elems_push a q := by
    rw [Multiset.cons_coe, Multiset.coe_eq_coe]
    exact List.perm_append_singleton a q
  pop_none q h := by
    by_contra hne
    obtain ⟨a, ha, hleast⟩ := exists_least hirr htrans q fun h0 => hne (h0 ▸ rfl)
    have hnone := List.find?_eq_none.1 (Option.map_eq_none_iff.1 h) a ha
    exact hnone (List.all_eq_true.2 fun b hb => by rw [hleast b hb]; rfl)
  pop_some q a q' h := by
    obtain ⟨a', hfind, heq⟩ := Option.map_eq_some_iff.1 h
    obtain ⟨rfl, rfl⟩ := Prod.mk.inj heq
    obtain ⟨hleast, l, l', hq, hl⟩ := List.find?_eq_some_iff_append.1 hfind
    have hnot : ∀ b ∈ l, ¬ least gt q b = true := fun b hb => by simpa using hl b hb
    have herase : q.eraseP (least gt q) = l ++ l' := by
      conv_lhs => arg 2; rw [hq]
      rw [List.eraseP_append_right _ hnot, List.eraseP_cons_of_pos hleast]
    rw [herase]
    refine ⟨?_, fun b hb => ?_⟩
    · rw [hq, Multiset.cons_coe, Multiset.coe_eq_coe]
      exact List.perm_middle
    · have hmem : b ∈ q := by
        rw [hq]
        exact List.mem_append.2 ((List.mem_append.1 hb).imp_right (List.mem_cons_of_mem _))
      simpa using List.all_eq_true.1 hleast b hmem

end LsmTree.Base
