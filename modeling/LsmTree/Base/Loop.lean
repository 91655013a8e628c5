import Mathlib.Data.Nat.Notation

/-!
# Loops that come to an end

`round s o` says what one round of a loop does in the state `s`: it either goes round
again in another state or leaves the loop with a value. A round may itself hold a
loop, so it is a relation.

* `Ends round s b`: from `s` the loop comes to an end, with `b`. Nothing else bounds
  the number of rounds.
* `ends_of_rank`, `ends_of_measure`: a function that counts its rounds down computes what
  the loop ends with, if a rank or a measure falls in each round and it may make as many
  rounds as that says.
-/

namespace LsmTree.Base.Loop

variable {σ β : Type} {round : σ → σ ⊕ β → Prop} {s : σ} {b b' : β}

inductive Ends (round : σ → σ ⊕ β → Prop) : σ → β → Prop
  | leaves {s : σ} {b : β} (h : round s (.inr b)) : Ends round s b
  | again {s s' : σ} {b : β} (h : round s (.inl s')) (h' : Ends round s' b) : Ends round s b

/-- A round that computes its outcome. -/
def ofFun (f : σ → σ ⊕ β) (s : σ) (o : σ ⊕ β) : Prop := f s = o

/-- Where one round has one outcome, so has the loop. -/
theorem Ends.unique (hround : ∀ s o o', round s o → round s o' → o = o') (h : Ends round s b) :
    Ends round s b' → b = b' := by
  induction h with
  | leaves hs =>
    intro h'
    cases h' with
    | leaves hs' => exact Sum.inr.inj (hround _ _ _ hs hs')
    | again hs' _ => exact absurd (hround _ _ _ hs hs') (by simp)
  | again hs _ ih =>
    intro h'
    cases h' with
    | leaves hs' => exact absurd (hround _ _ _ hs hs') (by simp)
    | again hs' hrest =>
      have hsame := Sum.inl.inj (hround _ _ _ hs hs')
      exact ih (hsame ▸ hrest)

theorem Ends.ofFun_unique {f : σ → σ ⊕ β} (h : Ends (ofFun f) s b) (h' : Ends (ofFun f) s b') : b = b' := by
  refine h.unique (fun s o o' ho ho' => ?_) h'
  have h₁ : f s = o := ho
  have h₂ : f s = o' := ho'
  rw [← h₁, h₂]

/-- What holds at the start and is kept by every round holds where the loop is left. -/
theorem Ends.invariant (inv : σ → Prop) (hkeep : ∀ s s', inv s → round s (.inl s') → inv s')
    (h : Ends round s b) (hs : inv s) : ∃ s', inv s' ∧ round s' (.inr b) := by
  induction h with
  | leaves hleaves => exact ⟨_, hs, hleaves⟩
  | again hagain _ ih => exact ih (hkeep _ _ hs hagain)

/-- **What has a rank that falls in every round comes to an end.** `inv n s` says that `s`
has at most `n` rounds to go before it leaves; `f` makes at most as many rounds as its
first argument says. -/
theorem ends_of_rank {f : ℕ → σ → β} (inv : ℕ → σ → Prop)
    (hround : ∀ n s, inv n s →
      (∃ m s', round s (.inl s') ∧ m < n ∧ inv m s' ∧ ∀ k, f (k + 1) s = f k s') ∨
      ∃ b, round s (.inr b) ∧ ∀ k, n ≤ k → f k s = b) :
    ∀ fuel n s, inv n s → n ≤ fuel → Ends round s (f fuel s) := by
  intro fuel
  induction fuel with
  | zero =>
    intro n s hs hn
    rcases hround n s hs with ⟨m, _, _, hless, -⟩ | ⟨b, hleaves, hf⟩
    · omega
    · rw [hf 0 hn]
      exact .leaves hleaves
  | succ fuel ih =>
    intro n s hs hn
    rcases hround n s hs with ⟨m, s', hagain, hless, hs', hf⟩ | ⟨b, hleaves, hf⟩
    · rw [hf]
      exact .again hagain (ih m s' hs' (by omega))
    · rw [hf _ hn]
      exact .leaves hleaves

/-- The same with a measure on the states. -/
theorem ends_of_measure {f : ℕ → σ → β} (inv : σ → Prop) (μ : σ → ℕ)
    (hround : ∀ s, inv s → (∃ s', round s (.inl s') ∧ inv s' ∧ μ s' < μ s ∧ ∀ n, f (n + 1) s = f n s') ∨
      ∃ b, round s (.inr b) ∧ ∀ n, f (n + 1) s = b) (fuel : ℕ) (s : σ) (hs : inv s) (hfuel : μ s < fuel) :
    Ends round s (f fuel s) := by
  refine ends_of_rank (fun n s => inv s ∧ n = μ s + 1) (fun n s hs => ?_) fuel _ s ⟨hs, rfl⟩ hfuel
  obtain ⟨hs, rfl⟩ := hs
  rcases hround s hs with ⟨s', hagain, hs', hless, hf⟩ | ⟨b, hleaves, hf⟩
  · exact Or.inl ⟨μ s' + 1, s', hagain, by omega, ⟨hs', rfl⟩, hf⟩
  · refine Or.inr ⟨b, hleaves, fun k hk => ?_⟩
    obtain ⟨k, rfl⟩ := Nat.exists_eq_add_of_lt (Nat.lt_of_succ_le hk)
    exact hf _

/-- The same of a round that computes its outcome. -/
theorem ends_ofFun {g : σ → σ ⊕ β} {f : ℕ → σ → β} (inv : σ → Prop) (μ : σ → ℕ)
    (hf : ∀ n s, f (n + 1) s = (g s).elim (f n) id)
    (hdec : ∀ s s', inv s → g s = .inl s' → inv s' ∧ μ s' < μ s) :
    ∀ fuel s, inv s → μ s < fuel → Ends (ofFun g) s (f fuel s) := by
  refine ends_of_measure inv μ fun s hs => ?_
  cases hg : g s with
  | inl s' =>
    obtain ⟨hs', hless⟩ := hdec s s' hs hg
    exact Or.inl ⟨s', hg, hs', hless, fun n => by rw [hf, hg]; rfl⟩
  | inr b => exact Or.inr ⟨b, hg, fun n => by rw [hf, hg]; rfl⟩

end LsmTree.Base.Loop
