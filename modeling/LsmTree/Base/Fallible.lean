import Mathlib

/-!
# Loops that may fail

`mapM` in `Except`: the loop succeeds if every call does, and its results are theirs.

* `mapM_ok`: when it succeeds, and `exists_of_mem_mapM` for one of its results.
* `mapM_map_ok`: what is done to each result can be done to all at the end.
-/

namespace LsmTree.Base

/-- **A loop succeeds with these results** if each call does. -/
theorem mapM_ok {α β ε : Type} {f : α → Except ε β} {l : List α} : ∀ {ys : List β},
    l.mapM f = .ok ys ↔ List.Forall₂ (fun y x => f x = .ok y) ys l := by
  induction l with
  | nil =>
    intro ys
    rw [List.mapM_nil, List.forall₂_nil_right_iff]
    exact ⟨fun h => (Except.ok.inj h).symm, fun h => by rw [h]; rfl⟩
  | cons x l ih =>
    intro ys
    rw [List.mapM_cons]
    -- the first element fails, or the rest does, or neither
    cases hx : f x with
    | error what =>
      refine ⟨fun h => (nomatch h), fun h => ?_⟩
      cases h with
      | cons hy _ => rw [hx] at hy; exact nomatch hy
    | ok y =>
      cases hl : l.mapM f with
      | error what =>
        refine ⟨fun h => (nomatch h), fun h => ?_⟩
        cases h with
        | cons _ hys => rw [ih.2 hys] at hl; exact nomatch hl
      | ok zs =>
        constructor
        · intro h
          obtain rfl : y :: zs = ys := Except.ok.inj h
          exact .cons hx (ih.1 hl)
        · intro h
          cases h with
          | cons hy hys =>
            rw [hx] at hy
            rw [ih.2 hys] at hl
            rw [Except.ok.inj hy, Except.ok.inj hl]
            rfl

/-- A result is that of some call. -/
theorem exists_of_mem_mapM {α β ε : Type} {f : α → Except ε β} {l : List α} {ys : List β}
    (h : l.mapM f = .ok ys) {y : β} (hy : y ∈ ys) : ∃ x ∈ l, f x = .ok y := by
  have hall := mapM_ok.1 h
  clear h
  induction hall with
  | nil => exact absurd hy List.not_mem_nil
  | @cons z x ys l hz _ ih =>
    rcases List.mem_cons.1 hy with rfl | hy
    · exact ⟨x, List.mem_cons_self, hz⟩
    · obtain ⟨x', hx', hok⟩ := ih hy
      exact ⟨x', List.mem_cons_of_mem _ hx', hok⟩

theorem mapM_map_ok {α β γ ε : Type} (f : α → Except ε β) (g : β → γ) (l : List α) :
    (l.mapM fun x => (f x).map g) = (l.mapM f).map (List.map g) := by
  induction l with
  | nil => rfl
  | cons x l ih =>
    rw [List.mapM_cons, List.mapM_cons, ih]
    cases f x with
    | error err => rfl
    | ok y => cases l.mapM f <;> rfl

end LsmTree.Base
