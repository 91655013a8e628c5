import Mathlib

/-!
# Singly linked lists

`next` gives the successor of a cell: `none` where there is no such cell to read, and
`some none` at the end of a list.

* `Links`: each cell of a list points to the one behind it, and the last one to none.
* `Links.congr`, `Links.insert`: links read only their own cells, so a new cell is linked
  in by its own pointer and that of the cell in front.
* `Links.follow`: following the pointers from the first cell gives the list.
-/

namespace LsmTree.Base

variable {α : Type*} {next next' : α → Option (Option α)} {l pre post : List α} {a b : α}

def Links (next : α → Option (Option α)) : List α → Prop
  | [] => True
  | a :: l => next a = some l.head? ∧ Links next l

@[simp] theorem links_nil : Links next [] := trivial

theorem links_cons : Links next (a :: l) ↔ next a = some l.head? ∧ Links next l := Iff.rfl

/-- A list is linked up to its end. -/
theorem Links.of_append (h : Links next (pre ++ post)) : Links next post := by
  induction pre with
  | nil => exact h
  | cons a pre ih => exact ih (links_cons.1 h).2

/-- What a cell within the list points to. -/
theorem Links.next_eq (h : Links next (pre ++ a :: post)) : next a = some post.head? :=
  (links_cons.1 h.of_append).1

/-- Links read only their own cells. -/
theorem Links.congr (h : Links next l) (hsame : ∀ a ∈ l, next' a = next a) : Links next' l := by
  induction l with
  | nil => exact links_nil
  | cons a l ih =>
    obtain ⟨ha, hl⟩ := links_cons.1 h
    refine links_cons.2 ⟨?_, ih hl fun b hb => hsame b (List.mem_cons_of_mem _ hb)⟩
    rw [hsame a List.mem_cons_self, ha]

/-- **A new cell behind another one.** -/
theorem Links.insert (h : Links next (pre ++ a :: post)) (ha : next' a = some (some b))
    (hb : next' b = some post.head?)
    (hpre : ∀ c ∈ pre, next' c = next c) (hpost : ∀ c ∈ post, next' c = next c) :
    Links next' (pre ++ a :: b :: post) := by
  induction pre with
  | nil =>
    have hlinks := (links_cons.1 h).2
    exact links_cons.2 ⟨ha, links_cons.2 ⟨hb, hlinks.congr hpost⟩⟩
  | cons c pre ih =>
    obtain ⟨hc, hrest⟩ := links_cons.1 h
    refine links_cons.2 ⟨?_, ih hrest fun d hd => hpre d (List.mem_cons_of_mem _ hd)⟩
    rw [hpre c List.mem_cons_self, hc]
    cases pre <;> rfl

/-- The cells met from a pointer on; `none` if one of them cannot be read or the fuel is
used up. -/
def follow (next : α → Option (Option α)) : ℕ → Option α → Option (List α)
  | 0, _ => none
  | _ + 1, none => some []
  | fuel + 1, some a =>
    match next a with
    | none => none
    | some p => (follow next fuel p).map (a :: ·)

/-- **Following the pointers** gives the list. -/
theorem Links.follow (h : Links next l) {fuel : ℕ} (hfuel : l.length < fuel) :
    Base.follow next fuel l.head? = some l := by
  induction l generalizing fuel with
  | nil =>
    obtain ⟨fuel, rfl⟩ := Nat.exists_eq_add_of_lt hfuel
    simp [Base.follow]
  | cons a l ih =>
    obtain ⟨ha, hl⟩ := links_cons.1 h
    obtain ⟨fuel, rfl⟩ : ∃ f, fuel = f + 1 := ⟨fuel - 1, by omega⟩
    rw [List.length_cons] at hfuel
    rw [List.head?_cons, Base.follow, ha]
    simp only
    rw [ih hl (by omega), Option.map_some]

end LsmTree.Base
