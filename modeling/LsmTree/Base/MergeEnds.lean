import LsmTree.Base.Merge
import LsmTree.Base.Loop

/-!
# The loops of a merge

`drain` and `popWinner` count their rounds down. Here the drain stands as the loop it is,
and a round of the merge around it.

* `Pops.eq_popWinner`, `pops_popWinner`: a round comes to an end, with what `popWinner`
  computes if it may make as many rounds as there are records left. The keys of a source
  need not ascend.
* `Pops.holds`: a round takes at least one record, and keeps the heap as it should be.
-/

namespace LsmTree.Base.Merge

variable {K ν σ β : Type} [LinearOrder K] {O : NodeOrder K ν} {pq : PriorityQueue ν O.gt}

section

variable (S : Sources ν σ β)

/-- A round of the drain. -/
def drainRound (k : K) (st : MergeState pq σ) : MergeState pq σ ⊕ MergeState pq σ :=
  match pq.pop st.heap with
  | none => .inr st
  | some (n, h) => if O.key n = k then .inl (advance S (O.idx n) { st with heap := h }) else .inr st

/-- A round of the merge comes to an end: on an empty heap with nothing, else with the
winner, the payload of its source, and the state after. -/
def Pops (st : MergeState pq σ) (o : Option (ν × Option β × MergeState pq σ)) : Prop :=
  match pq.pop st.heap with
  | none => o = none
  | some (n, h) => ∃ st', Loop.Ends (Loop.ofFun (drainRound S (O.key n)))
    (advance S (O.idx n) { st with heap := h }) st' ∧
      o = some (n, (st.sources[O.idx n]?).map S.payload, st')

end

variable {S : Sources ν σ β} {st st' : MergeState pq σ} {Ls : List (List (ν × β))} {k : K} {fuel : ℕ}

/-- A source that moves on leaves one record behind. -/
theorem total_set {i : ℕ} {p : ν × β} {L : List (ν × β)} (h : Ls[i]? = some (p :: L)) :
    total (Ls.set i L) + 1 = total Ls := by
  obtain ⟨hlt, hget⟩ := List.getElem?_eq_some_iff.1 h
  have hsplit : Ls = Ls.take i ++ (p :: L) :: Ls.drop (i + 1) := by
    rw [← hget, List.getElem_cons_drop, List.take_append_drop]
  unfold total
  rw [List.set_eq_take_append_cons_drop, if_pos hlt]
  conv_rhs => rw [hsplit]
  simp only [List.map_append, List.map_cons, List.sum_append, List.sum_cons, List.length_cons]
  omega

theorem eq_nil_of_total (h : total Ls = 0) : ∀ L ∈ Ls, L = [] := by
  intro L hL
  unfold total at h
  exact List.length_eq_zero_iff.1 (List.sum_eq_zero_iff.1 h _ (List.mem_map_of_mem hL))

/-- A round of the drain either leaves the loop or takes a record. -/
theorem drainRound_cases (h : Holds S st Ls) (k : K) :
    (∃ st' Ls', drainRound S k st = .inl st' ∧ Holds S st' Ls' ∧ total Ls' < total Ls ∧
        ∀ n, drain S (n + 1) k st = drain S n k st') ∨
      drainRound S k st = .inr st ∧ ∀ n, drain S n k st = st := by
  have hzero : drain S 0 k st = st := rfl
  cases hpop : pq.pop st.heap with
  | none =>
    refine Or.inr ⟨by unfold drainRound; rw [hpop], fun n => ?_⟩
    cases n with
    | zero => rfl
    | succ n =>
      unfold drain
      rw [hpop]
  | some nq =>
    obtain ⟨n, q⟩ := nq
    by_cases hk : O.key n = k
    · -- one node is consumed
      obtain ⟨p, L, _, hi, -, -, -, hholds⟩ := h.pop hpop
      have htotal := total_set hi
      refine Or.inl ⟨_, _, by unfold drainRound; rw [hpop]; exact if_pos hk, hholds, by omega, fun m => ?_⟩
      conv_lhs => unfold drain
      rw [hpop]
      exact if_pos hk
    · refine Or.inr ⟨by unfold drainRound; rw [hpop]; exact if_neg hk, fun m => ?_⟩
      cases m with
      | zero => rfl
      | succ m =>
        unfold drain
        rw [hpop]
        exact if_neg hk

/-- **The drain comes to an end.** -/
theorem drain_ends (h : Holds S st Ls) (hfuel : total Ls ≤ fuel) (k : K) :
    Loop.Ends (Loop.ofFun (drainRound S k)) st (drain S fuel k st) := by
  refine Loop.ends_of_rank (f := fun n st => drain S n k st) (fun n st => ∃ Ls, Holds S st Ls ∧ total Ls = n)
    (fun n st hst => ?_) fuel _ st ⟨Ls, h, rfl⟩ hfuel
  obtain ⟨Ls, h, rfl⟩ := hst
  rcases drainRound_cases h k with ⟨st', Ls', hround, h', hless, hf⟩ | ⟨hround, hf⟩
  · exact Or.inl ⟨_, st', hround, hless, ⟨Ls', h', rfl⟩, hf⟩
  · exact Or.inr ⟨st, hround, fun n _ => hf n⟩

/-- What the drain leaves in the heap. -/
theorem drain_holds (k : K) : ∀ {fuel : ℕ} {st : MergeState pq σ} {Ls : List (List (ν × β))}, Holds S st Ls →
    ∃ Ls', Holds S (drain S fuel k st) Ls' ∧ total Ls' ≤ total Ls := by
  intro fuel
  induction fuel with
  | zero => exact fun {_ Ls} h => ⟨Ls, h, le_rfl⟩
  | succ fuel ih =>
    intro st Ls h
    rcases drainRound_cases h k with ⟨st', Ls', -, h', hless, hf⟩ | ⟨-, hf⟩
    · obtain ⟨Ls'', h'', hle⟩ := ih h'
      rw [hf]
      exact ⟨Ls'', h'', by omega⟩
    · rw [hf]
      exact ⟨Ls, h, le_rfl⟩

/-- **A round comes to an end.** -/
theorem pops_popWinner (h : Holds S st Ls) (hfuel : total Ls ≤ fuel) : Pops S st (popWinner S fuel st) := by
  unfold Pops popWinner
  cases hpop : pq.pop st.heap with
  | none => rfl
  | some nq =>
    obtain ⟨n, q⟩ := nq
    obtain ⟨p, L, _, hi, -, -, -, hholds⟩ := h.pop hpop
    have htotal := total_set hi
    exact ⟨_, drain_ends hholds (by omega) (O.key n), rfl⟩

/-- It comes to that end only. -/
theorem Pops.eq_popWinner {o : Option (ν × Option β × MergeState pq σ)} (h : Holds S st Ls)
    (hfuel : total Ls ≤ fuel) (ho : Pops S st o) : o = popWinner S fuel st := by
  have hend := pops_popWinner h hfuel
  unfold Pops at ho hend
  cases hpop : pq.pop st.heap with
  | none =>
    rw [hpop] at ho hend
    exact Eq.trans ho (Eq.symm hend)
  | some nq =>
    rw [hpop] at ho hend
    obtain ⟨st₁, h₁, rfl⟩ := ho
    obtain ⟨st₂, h₂, heq⟩ := hend
    rw [heq, h₁.ofFun_unique h₂]

/-- What a round leaves in the heap: it takes at least one record. -/
theorem popWinner_holds (h : Holds S st Ls) {n : ν} {v : Option β}
    (hpop : popWinner S fuel st = some (n, v, st')) :
    ∃ Ls', Holds S st' Ls' ∧ total Ls' < total Ls := by
  unfold popWinner at hpop
  cases hq : pq.pop st.heap with
  | none =>
    rw [hq] at hpop
    exact absurd hpop (by simp)
  | some nq =>
    obtain ⟨m, q⟩ := nq
    rw [hq] at hpop
    obtain ⟨-, h2⟩ := Prod.mk.inj (Option.some.inj hpop)
    obtain ⟨-, rfl⟩ := Prod.mk.inj h2
    obtain ⟨p, L, _, hi, -, -, -, hholds⟩ := h.pop hq
    have htotal := total_set hi
    obtain ⟨Ls', h', hle⟩ := drain_holds (O.key m) hholds
    exact ⟨Ls', h', by omega⟩

/-- With nothing left there is no winner, and the other way round. -/
theorem popWinner_eq_none (h : Holds S st Ls) : popWinner S fuel st = none ↔ ∀ L ∈ Ls, L = [] := by
  unfold popWinner
  cases hpop : pq.pop st.heap with
  | none => exact ⟨fun _ => h.pop_none hpop, fun _ => rfl⟩
  | some nq =>
    obtain ⟨n, q⟩ := nq
    obtain ⟨p, L, _, hi, -⟩ := h.pop hpop
    refine ⟨fun hnone => absurd hnone (by simp), fun hnil => ?_⟩
    exact absurd (hnil _ (List.mem_of_getElem? hi)) (by simp)

end LsmTree.Base.Merge
