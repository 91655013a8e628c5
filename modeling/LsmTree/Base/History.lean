import Mathlib

/-!
# Histories with writes in doubt

What the clients of a map saw of it: writes, and readings in between. A write is in doubt if
no client was told whether it took place. A history is explained by a map if one choice of
the writes in doubt, the same for all readings, leads to the map, and each reading was true
of what the choice gives up to it.

* `Explained.run`: a machine whose steps are explained has explained runs.
* `Explained.latest`: a key has the value of its last certain write, or of a write in doubt
  behind it.
* `Explained.written`: every value was written.
-/

namespace LsmTree.Base

inductive Happening (K V R : Type*) where
  | wrote (write : K × Option V) (certain : Bool)
  | saw (reading : R)

variable {K V R : Type*} [DecidableEq K]

/-- A reading is true of a map. -/
abbrev Sees (K V R : Type*) := R → (K → Option V) → Prop

inductive Explained (sees : Sees K V R) : List (Happening K V R) → (K → Option V) → Prop
  | start : Explained sees [] fun _ => none
  | took {es : List (Happening K V R)} {m : K → Option V} (h : Explained sees es m) (x : K × Option V)
    (certain : Bool) : Explained sees (es ++ [.wrote x certain]) (Function.update m x.1 x.2)
  | lost {es : List (Happening K V R)} {m : K → Option V} (h : Explained sees es m) (x : K × Option V) :
    Explained sees (es ++ [.wrote x false]) m
  | saw {es : List (Happening K V R)} {m : K → Option V} (h : Explained sees es m) {r : R} (hr : sees r m) :
    Explained sees (es ++ [.saw r]) m

/-- From the first map to the second a history goes on by these events. -/
def GoesOn (sees : Sees K V R) (m : K → Option V) (es : List (Happening K V R)) (m' : K → Option V) : Prop :=
  ∀ before, Explained sees before m → Explained sees (before ++ es) m'

variable {sees : Sees K V R} {m : K → Option V} {es : List (Happening K V R)} {k : K} {v : Option V}

namespace GoesOn

theorem nothing (m : K → Option V) : GoesOn sees m [] m := fun before h => by rwa [List.append_nil]

theorem took (m : K → Option V) (x : K × Option V) (certain : Bool) :
    GoesOn sees m [.wrote x certain] (Function.update m x.1 x.2) := fun _ h => h.took x certain

theorem lost (m : K → Option V) (x : K × Option V) : GoesOn sees m [.wrote x false] m := fun _ h => h.lost x

theorem saw {r : R} (hr : sees r m) : GoesOn sees m [.saw r] m := fun _ h => h.saw hr

end GoesOn

/-! ## Runs of a machine -/

/-- The states that steps lead to, with the events seen on the way. -/
inductive SeenRun {S : Type*} (step : S → List (Happening K V R) → S → Prop) (s₀ : S) :
    List (Happening K V R) → S → Prop
  | start : SeenRun step s₀ [] s₀
  | step {es es' : List (Happening K V R)} {s s' : S} (h : SeenRun step s₀ es s) (hstep : step s es' s') :
    SeenRun step s₀ (es ++ es') s'

/-- **Explained steps make explained runs.** -/
theorem Explained.run {S : Type*} {step : S → List (Happening K V R) → S → Prop} (value : S → K → Option V)
    {good : S → Prop} {s₀ s : S} (h₀ : good s₀) (hempty : value s₀ = fun _ => none)
    (hstep : ∀ {s es s'}, good s → step s es s' → good s' ∧ GoesOn sees (value s) es (value s'))
    (h : SeenRun step s₀ es s) : good s ∧ Explained sees es (value s) := by
  induction h with
  | start =>
    refine ⟨h₀, ?_⟩
    rw [hempty]
    exact .start
  | step _ hs ih =>
    obtain ⟨hgood, hon⟩ := hstep ih.1 hs
    exact ⟨hgood, hon _ ih.2⟩

/-! ## What the values are -/

/-- The last element of a list, and the element at a place of it. -/
theorem snoc_eq_append_cons {α : Type*} {l before after : List α} {a b : α} (h : l ++ [b] = before ++ a :: after) :
    (after = [] ∧ a = b) ∨ ∃ after', after = after' ++ [b] ∧ l = before ++ a :: after' := by
  rcases List.eq_nil_or_concat after with rfl | ⟨after', c, rfl⟩
  · obtain ⟨-, hab⟩ := List.append_inj' h rfl
    exact Or.inl ⟨rfl, (List.singleton_inj.1 hab).symm⟩
  · rw [List.concat_eq_append, ← List.cons_append, ← List.append_assoc] at h
    obtain ⟨hl, hbc⟩ := List.append_inj' h rfl
    exact Or.inr ⟨after', by rw [List.concat_eq_append, List.singleton_inj.1 hbc], hl⟩

/-- **A key has the value of its last certain write**, or of a write in doubt behind it. -/
theorem Explained.latest {before after : List (Happening K V R)}
    (h : Explained sees (before ++ .wrote (k, v) true :: after) m)
    (hlast : ∀ v', .wrote (k, v') true ∉ after) : m k = v ∨ .wrote (k, m k) false ∈ after := by
  obtain ⟨es, hes⟩ : ∃ es, es = before ++ .wrote (k, v) true :: after := ⟨_, rfl⟩
  rw [← hes] at h
  -- by induction on the events, the last first: `hlast` holds of the events before it too
  induction h generalizing after with
  | start => simp at hes
  | @took es m h x certain ih =>
    rcases snoc_eq_append_cons hes with ⟨rfl, hev⟩ | ⟨after, rfl, hprior⟩
    · -- the last event is the write
      obtain ⟨rfl, -⟩ := Happening.wrote.inj hev
      exact Or.inl (Function.update_self _ _ _)
    · by_cases hx : x.1 = k
      · subst hx
        rw [Function.update_self]
        cases certain with
        | true => exact absurd (by simp) (hlast x.2)
        | false => exact Or.inr (by simp)
      · rw [Function.update_of_ne (Ne.symm hx)]
        exact (ih (fun v' hv' => hlast v' (List.mem_append_left _ hv')) hprior).imp id (List.mem_append_left _)
  | @lost es m h x ih =>
    rcases snoc_eq_append_cons hes with ⟨rfl, hev⟩ | ⟨after, rfl, hprior⟩
    · exact absurd (Happening.wrote.inj hev).2 (by simp)
    · exact (ih (fun v' hv' => hlast v' (List.mem_append_left _ hv')) hprior).imp id (List.mem_append_left _)
  | @saw es m h r hr ih =>
    rcases snoc_eq_append_cons hes with ⟨rfl, hev⟩ | ⟨after, rfl, hprior⟩
    · exact absurd hev (by simp)
    · exact (ih (fun v' hv' => hlast v' (List.mem_append_left _ hv')) hprior).imp id (List.mem_append_left _)

/-- **Every value was written.** -/
theorem Explained.written (h : Explained sees es m) {v : V} (hv : m k = some v) :
    ∃ certain, .wrote (k, some v) certain ∈ es := by
  induction h with
  | start => exact absurd hv (by simp)
  | @took es m h x certain ih =>
    by_cases hx : k = x.1
    · subst hx
      rw [Function.update_self] at hv
      exact ⟨certain, by simp [← hv]⟩
    · rw [Function.update_of_ne hx] at hv
      obtain ⟨c, hmem⟩ := ih hv
      exact ⟨c, List.mem_append_left _ hmem⟩
  | @lost es m h x ih =>
    obtain ⟨c, hmem⟩ := ih hv
    exact ⟨c, List.mem_append_left _ hmem⟩
  | @saw es m h r hr ih =>
    obtain ⟨c, hmem⟩ := ih hv
    exact ⟨c, List.mem_append_left _ hmem⟩

end LsmTree.Base
