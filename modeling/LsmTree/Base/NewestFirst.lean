import LsmTree.Base.Merge

/-!
# Merging sources in the order of their ranks

Where the records of each source outrank those of the sources behind it, the record of
a key that wins is that of the first source with one.

* `newest`: that record.
* `popWinner_newest`: a round yields the least key left with its newest record.
* `newest_dropKey`: it leaves the newest record of every other key.
-/

namespace LsmTree.Base.Merge

variable {K ν σ β : Type} [LinearOrder K] {O : NodeOrder K ν} {pq : PriorityQueue ν O.gt} {S : Sources ν σ β}
  {Ls : List (List (ν × β))} {k k' : K} {p : ν × β}

variable (O) in
/-- The record of a key in the first list that has one. -/
def newest (k : K) (Ls : List (List (ν × β))) : Option (ν × β) := Ls.findSome? (findKey (fun p => O.key p.1) k)

variable (O) in
/-- The records of a list outrank those of every later one. -/
def Ranked (Ls : List (List (ν × β))) : Prop :=
  Ls.Pairwise fun L L' => ∀ p ∈ L, ∀ q ∈ L', O.rank q.1 < O.rank p.1

@[simp] theorem newest_nil : newest O k ([] : List (List (ν × β))) = none := rfl

theorem newest_cons (L : List (ν × β)) :
    newest O k (L :: Ls) = (findKey (fun p => O.key p.1) k L).or (newest O k Ls) := by
  unfold newest
  rw [List.findSome?_cons]
  cases findKey (fun p => O.key p.1) k L <;> rfl

theorem newest_eq_none : newest O k Ls = none ↔ ∀ L ∈ Ls, ∀ p ∈ L, O.key p.1 ≠ k := by
  unfold newest
  rw [List.findSome?_eq_none_iff]
  simp only [findKey_eq_none]

theorem mem_of_newest (h : newest O k Ls = some p) : (∃ L ∈ Ls, p ∈ L) ∧ O.key p.1 = k := by
  obtain ⟨L, hL, hf⟩ := List.exists_of_findSome?_eq_some h
  obtain ⟨hp, hk⟩ := key_of_findKey hf
  exact ⟨⟨L, hL, hp⟩, hk⟩

/-- A record that no other of its key outranks is the newest one. -/
theorem Ranked.newest (h : Ranked O Ls) (hasc : ∀ L ∈ Ls, Asc O L) {L : List (ν × β)} (hL : L ∈ Ls) (hp : p ∈ L)
    (hmax : ∀ L' ∈ Ls, ∀ q ∈ L', O.key q.1 = O.key p.1 → O.rank q.1 ≤ O.rank p.1) :
    Merge.newest O (O.key p.1) Ls = some p := by
  induction Ls with
  | nil => exact absurd hL List.not_mem_nil
  | cons L₀ Ls ih =>
    obtain ⟨hfirst, hrest⟩ := List.pairwise_cons.1 h
    rw [newest_cons]
    rcases List.mem_cons.1 hL with rfl | hL
    · rw [(findKey_eq_some (hasc L List.mem_cons_self)).2 ⟨hp, rfl⟩, Option.some_or]
    · have hnone : findKey (fun p => O.key p.1) (O.key p.1) L₀ = none := by
        rw [findKey_eq_none]
        intro q hq hk
        have hlt := hfirst L hL q hq p hp
        have hle := hmax L₀ List.mem_cons_self q hq hk
        omega
      rw [hnone, Option.none_or]
      exact ih hrest (fun L' h' => hasc L' (List.mem_cons_of_mem _ h')) hL
        fun L' h' => hmax L' (List.mem_cons_of_mem _ h')

theorem Ranked.map_dropKey (h : Ranked O Ls) (k : K) : Ranked O (Ls.map (dropKey O k)) := by
  refine List.pairwise_map.2 (h.imp fun hlt p hp q hq => ?_)
  exact hlt p ((dropKey_sublist k _).subset hp) q ((dropKey_sublist k _).subset hq)

theorem findKey_dropKey {L : List (ν × β)} (hasc : Asc O L) (hle : ∀ m ∈ L, k ≤ O.key m.1) :
    findKey (fun p => O.key p.1) k' (dropKey O k L) =
      if k' = k then none else findKey (fun p => O.key p.1) k' L := by
  by_cases hk : k' = k
  · rw [if_pos hk, hk, findKey_eq_none]
    exact fun m hm => ne_of_gt (lt_of_mem_dropKey hasc hle hm)
  · rw [if_neg hk]
    cases L with
    | nil => rfl
    | cons q L =>
      rw [dropKey_cons]
      split
      · rename_i hq
        have hne : ¬ O.key q.1 = k' := fun he => hk (he.symm.trans hq)
        rw [findKey_cons, if_neg hne]
      · rfl

/-- **Dropping the least key** leaves the others. -/
theorem newest_dropKey (hasc : ∀ L ∈ Ls, Asc O L) (hle : ∀ L ∈ Ls, ∀ m ∈ L, k ≤ O.key m.1) :
    newest O k' (Ls.map (dropKey O k)) = if k' = k then none else newest O k' Ls := by
  induction Ls with
  | nil =>
    split <;> rfl
  | cons L Ls ih =>
    have hrest := ih (fun L' h' => hasc L' (List.mem_cons_of_mem _ h'))
      fun L' h' => hle L' (List.mem_cons_of_mem _ h')
    rw [List.map_cons, newest_cons, newest_cons, hrest,
      findKey_dropKey (hasc L List.mem_cons_self) (hle L List.mem_cons_self)]
    split <;> rfl

/-- **One round** over ranked sources. -/
theorem popWinner_newest {st : MergeState pq σ} (h : OK S st Ls) (hr : Ranked O Ls) {fuel : ℕ}
    (hf : Ls.length ≤ fuel) :
    (popWinner S fuel st = none ∧ ∀ k, newest O k Ls = none) ∨
      ∃ p st', popWinner S fuel st = some (p.1, some p.2, st') ∧ newest O (O.key p.1) Ls = some p ∧
        (∀ L ∈ Ls, ∀ m ∈ L, O.key p.1 ≤ O.key m.1) ∧ OK S st' (Ls.map (dropKey O (O.key p.1))) ∧
        total (Ls.map (dropKey O (O.key p.1))) < total Ls := by
  rcases popWinner_spec h hf with ⟨hpop, hnil⟩ | ⟨p, L, st', hpop, hp, hmin, hok⟩
  · refine Or.inl ⟨hpop, fun k => newest_eq_none.2 fun L hL m hm => ?_⟩
    rw [hnil L hL] at hm
    exact absurd hm List.not_mem_nil
  · have hhead : ∀ L ∈ Ls, ∀ m ∈ L, O.key p.1 ≤ O.key m.1 ∧ (O.key m.1 = O.key p.1 → O.rank m.1 ≤ O.rank p.1) :=
      fun L hL m hm => le_of_heads h.asc hmin hL hm
    refine Or.inr ⟨p, st', hpop, ?_, fun L hL m hm => (hhead L hL m hm).1, hok, total_map_dropKey_lt hp⟩
    exact hr.newest h.asc hp List.mem_cons_self fun L hL m hm => (hhead L hL m hm).2

end LsmTree.Base.Merge
