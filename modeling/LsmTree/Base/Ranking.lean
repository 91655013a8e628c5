import Mathlib

/-!
# Ranking

A list is sorted so that elements that compare alike keep their order. Where an element of
the list comes to stand depends only on how many go in front of it, its rank. So the first
`k` of the sorted list are the elements of a rank below `k`.

Comparisons need to be orderly on the elements of the list only.
-/

namespace LsmTree.Base

variable {α : Type*} {before : α → α → Prop} {xs ys l : List α} {a b : α} {k : ℕ}

/-- Any two elements compare, and comparisons chain. -/
structure Orderly (before : α → α → Prop) (l : List α) : Prop where
  total : ∀ a ∈ l, ∀ b ∈ l, before a b ∨ before b a
  trans : ∀ a ∈ l, ∀ b ∈ l, ∀ c ∈ l, before a b → before b c → before a c

theorem Orderly.sub (h : Orderly before l) {l' : List α} (hsub : ∀ a ∈ l', a ∈ l) : Orderly before l' where
  total a ha b hb := h.total a (hsub a ha) b (hsub b hb)
  trans a ha b hb c hc := h.trans a (hsub a ha) b (hsub b hb) c (hsub c hc)

theorem Orderly.map {β : Type*} {f : β → α} {l : List β} (h : Orderly (fun a b => before (f a) (f b)) l) :
    Orderly before (l.map f) := by
  constructor
  · simp only [List.forall_mem_map]
    exact h.total
  · simp only [List.forall_mem_map]
    exact h.trans

theorem Orderly.tail (h : Orderly before (a :: l)) : Orderly before l :=
  h.sub fun _ hb => List.mem_cons_of_mem _ hb

/-- Without its second element. -/
theorem Orderly.behind (h : Orderly before (a :: b :: l)) : Orderly before (a :: l) := h.sub fun c hc => by
  rcases List.mem_cons.1 hc with rfl | hc
  · exact List.mem_cons_self
  · exact List.mem_cons_of_mem _ (List.mem_cons_of_mem _ hc)

/-- What may stand in front of the first of a sorted list may stand in front of all of it. -/
theorem Orderly.all (h : Orderly before (a :: b :: l)) (hl : (b :: l).Pairwise before) (hab : before a b) :
    ∀ c ∈ b :: l, before a c := by
  intro c hc
  rcases List.mem_cons.1 hc with rfl | hc'
  · exact hab
  · exact h.trans a List.mem_cons_self b (List.mem_cons_of_mem _ List.mem_cons_self) c
      (List.mem_cons_of_mem _ hc) hab
      ((List.pairwise_cons.1 hl).1 c hc')

variable [DecidableRel before]

/-! ## Inserting into a sorted list -/

theorem Orderly.orderedInsert (h : Orderly before (a :: l)) (hl : l.Pairwise before) :
    (l.orderedInsert before a).Pairwise before := by
  induction l with
  | nil => simp
  | cons b l ih =>
    rw [List.orderedInsert_cons]
    split
    · rename_i hab
      exact List.pairwise_cons.2 ⟨h.all hl hab, hl⟩
    · rename_i hab
      refine List.pairwise_cons.2 ⟨fun c hc => ?_, ih h.behind hl.tail⟩
      rcases (List.mem_orderedInsert before).1 hc with rfl | hc
      · exact (h.total c List.mem_cons_self b (List.mem_cons_of_mem _ List.mem_cons_self)).resolve_left hab
      · exact (List.pairwise_cons.1 hl).1 c hc

/-- The new element stands behind those that it may not stand in front of. -/
theorem Orderly.getElem_orderedInsert_self (h : Orderly before (a :: l)) (hl : l.Pairwise before) :
    (l.orderedInsert before a)[l.countP fun b => ¬ before a b]? = some a := by
  induction l with
  | nil => simp
  | cons b l ih =>
    rw [List.orderedInsert_cons]
    split
    · rename_i hab
      have hnone : (b :: l).countP (fun b => ¬ before a b) = 0 :=
        List.countP_eq_zero.2 fun c hc => by simpa using h.all hl hab c hc
      rw [hnone]
      rfl
    · rename_i hab
      rw [List.countP_cons_of_pos (by simpa using hab), List.getElem?_cons_succ]
      exact ih h.behind hl.tail

/-- The others make room for it. -/
theorem Orderly.getElem_orderedInsert (h : Orderly before (b :: l)) (hl : l.Pairwise before) {i : ℕ}
    (hi : l[i]? = some a) : (l.orderedInsert before b)[if before b a then i + 1 else i]? = some a := by
  induction l generalizing i with
  | nil => simp at hi
  | cons c l ih =>
    rw [List.orderedInsert_cons]
    split
    · rename_i hbc
      rw [if_pos (h.all hl hbc a (List.mem_of_getElem? hi)), List.getElem?_cons_succ]
      exact hi
    · rename_i hbc
      cases i with
      | zero =>
        obtain rfl : c = a := by simpa using hi
        rw [if_neg hbc]
        rfl
      | succ i =>
        have hrest := ih h.behind hl.tail (by simpa using hi)
        split
        · rename_i hba
          rwa [if_pos hba] at hrest
        · rename_i hba
          rwa [if_neg hba] at hrest

/-! ## Sorting -/

theorem Orderly.consSorted (h : Orderly before (a :: l)) : Orderly before (a :: l.insertionSort before) :=
  h.sub fun b hb => by rwa [List.mem_cons, List.mem_insertionSort, ← List.mem_cons] at hb

theorem Orderly.pairwise (h : Orderly before l) : (l.insertionSort before).Pairwise before := by
  induction l with
  | nil => exact .nil
  | cons a l ih => exact h.consSorted.orderedInsert (ih h.tail)

/-- How many go in front of an element: those before it that may stand there, and those behind
it that it may not stand in front of. -/
def rank (before : α → α → Prop) [DecidableRel before] (xs : List α) (a : α) (ys : List α) : ℕ :=
  (xs.countP fun b => before b a) + ys.countP fun b => ¬ before a b

/-- **An element stands at its rank.** -/
theorem Orderly.getElem_rank (h : Orderly before (xs ++ a :: ys)) :
    ((xs ++ a :: ys).insertionSort before)[rank before xs a ys]? = some a := by
  induction xs with
  | nil =>
    have hrank : rank before [] a ys = (ys.insertionSort before).countP fun b => ¬ before a b := by
      unfold rank
      rw [List.countP_nil, zero_add]
      exact ((List.perm_insertionSort before ys).countP_eq _).symm
    rw [hrank]
    exact h.consSorted.getElem_orderedInsert_self h.tail.pairwise
  | cons b xs ih =>
    have hrank : rank before (b :: xs) a ys =
        if before b a then rank before xs a ys + 1 else rank before xs a ys := by
      unfold rank
      rw [List.countP_cons]
      by_cases hba : before b a
      · rw [if_pos hba, if_pos (by simpa using hba)]
        omega
      · rw [if_neg hba, if_neg (by simpa using hba), add_zero]
    rw [hrank]
    exact h.consSorted.getElem_orderedInsert h.tail.pairwise (ih h.tail)

/-- **The first so many of the sorted list** are the elements of a lower rank, each at its rank. -/
theorem Orderly.getElem_take_rank (h : Orderly before (xs ++ a :: ys)) (k : ℕ) :
    (((xs ++ a :: ys).insertionSort before).take k)[rank before xs a ys]? =
      if rank before xs a ys < k then some a else none := by
  rw [List.getElem?_take]
  split
  · exact h.getElem_rank
  · rfl

end LsmTree.Base
