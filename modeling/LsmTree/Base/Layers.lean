import Mathlib

/-!
# Layered maps

A store that keeps its newest data in front of older data: a list of layers, newest
first. A `Layer` says for each key that it records nothing, a deletion, or a value;
`stack` takes the newest record of a key and `view` its live value.

* `view_append`: layers behind matter only where those in front record nothing.
* `lastWrite_snoc`: a log of writes is the layer of each key's last write, and a new
  write updates it at its key.
* `preferred_eq_view`: layers may carry ranks, and a reader that takes a record of
  greatest rank sees the live value, if newer layers do not have smaller ranks and
  records of the same rank say the same.
-/

namespace LsmTree.Base

variable {K V : Type*}

/-- What is recorded of a key: nothing, a deletion (`some none`), or a value. -/
abbrev Layer (K V : Type*) := K → Option (Option V)

/-- The newest record of a key. -/
def stack : List (Layer K V) → Layer K V
  | [], _ => none
  | L :: Ls, k => (L k).or (stack Ls k)

/-- The live value of a key. -/
def view (Ls : List (Layer K V)) (k : K) : Option V := (stack Ls k).join

@[simp] theorem stack_nil (k : K) : stack ([] : List (Layer K V)) k = none := rfl

@[simp] theorem stack_cons (L : Layer K V) (Ls : List (Layer K V)) (k : K) :
    stack (L :: Ls) k = (L k).or (stack Ls k) := rfl

theorem stack_append (As Bs : List (Layer K V)) (k : K) :
    stack (As ++ Bs) k = (stack As k).or (stack Bs k) := by
  induction As with
  | nil => rfl
  | cons A As ih => rw [List.cons_append, stack_cons, stack_cons, ih, Option.or_assoc]

/-- Layers behind matter where those in front record nothing. -/
theorem view_append (As Bs : List (Layer K V)) (k : K) :
    view (As ++ Bs) k = match stack As k with
      | some r => r
      | none => view Bs k := by
  unfold view
  rw [stack_append]
  cases stack As k <;> rfl

theorem stack_eq_none {Ls : List (Layer K V)} {k : K} :
    stack Ls k = none ↔ ∀ L ∈ Ls, L k = none := by
  induction Ls with
  | nil => simp
  | cons L Ls ih =>
    rw [stack_cons, Option.or_eq_none_iff, ih, List.forall_mem_cons]

/-! ## Writes -/

/-- The last write of a key in a log, oldest write first. -/
def lastWrite [DecidableEq K] (ws : List (K × Option V)) : Layer K V :=
  fun k => ((ws.reverse).find? fun w => w.1 = k).map Prod.snd

section

variable [DecidableEq K]

@[simp] theorem lastWrite_nil (k : K) : lastWrite ([] : List (K × Option V)) k = none := rfl

/-- A new write is the last one of its key. -/
theorem lastWrite_snoc (ws : List (K × Option V)) (w : K × Option V) :
    lastWrite (ws ++ [w]) = Function.update (lastWrite ws) w.1 (some w.2) := by
  funext k
  unfold lastWrite
  rw [List.reverse_append, List.reverse_singleton, List.singleton_append, List.find?_cons]
  by_cases h : w.1 = k
  · subst h
    simp
  · have h' : ¬ k = w.1 := fun e => h e.symm
    simp [h, Function.update_of_ne h']

/-- Writing into the front layer writes into the stack. -/
theorem stack_update (L : Layer K V) (Ls : List (Layer K V)) (k : K) (r : Option V) :
    stack (Function.update L k (some r) :: Ls) = Function.update (stack (L :: Ls)) k (some r) := by
  funext k'
  rw [stack_cons]
  by_cases h : k' = k
  · subst h
    rw [Function.update_self, Function.update_self, Option.some_or]
  · rw [Function.update_of_ne h, Function.update_of_ne h, stack_cons]

theorem view_update (L : Layer K V) (Ls : List (Layer K V)) (k : K) (r : Option V) :
    view (Function.update L k (some r) :: Ls) = Function.update (view (L :: Ls)) k r := by
  funext k'
  unfold view
  rw [stack_update]
  by_cases h : k' = k
  · subst h
    rw [Function.update_self, Function.update_self, Option.join_some]
  · rw [Function.update_of_ne h, Function.update_of_ne h]

end

/-! ## Ranks -/

/-- A layer with a record of greatest rank for the key says `r`. -/
def Preferred (ts : List (ℕ × Layer K V)) (k : K) (r : Option V) : Prop :=
  ∃ t ∈ ts, t.2 k = some r ∧ ∀ t' ∈ ts, t'.2 k ≠ none → t'.1 ≤ t.1

/-- No layer behind the newest record of the key has its rank and says something else. -/
def TieFree (ts : List (ℕ × Layer K V)) (k : K) : Prop :=
  ∀ As a Bs, ts = As ++ a :: Bs → (∀ t ∈ As, t.2 k = none) → ∀ b ∈ Bs, b.1 = a.1 →
    ∀ r r', a.2 k = some r → b.2 k = some r' → r = r'

/-- The layers in front that record nothing do not matter. -/
theorem TieFree.of_append {As Bs : List (ℕ × Layer K V)} {k : K} (h : TieFree (As ++ Bs) k)
    (hA : ∀ t ∈ As, t.2 k = none) : TieFree Bs k := by
  intro Cs c Ds hBs hCs
  refine h (As ++ Cs) c Ds (by rw [hBs, List.append_assoc]) fun t ht => ?_
  rcases List.mem_append.1 ht with ht | ht
  · exact hA t ht
  · exact hCs t ht

/-- A layer in front of layers with smaller ranks. -/
theorem TieFree.cons {a : ℕ × Layer K V} {ts : List (ℕ × Layer K V)} {k : K} (hlt : ∀ b ∈ ts, b.1 < a.1)
    (h : a.2 k = none → TieFree ts k) : TieFree (a :: ts) k := by
  intro As c Bs hsplit hAs b hb hrank
  cases As with
  | nil =>
    obtain ⟨rfl, rfl⟩ := List.cons.inj hsplit
    exact absurd hrank (ne_of_lt (hlt b hb))
  | cons x As =>
    obtain ⟨rfl, hts⟩ := List.cons.inj hsplit
    exact h (hAs a List.mem_cons_self) As c Bs hts (fun t ht => hAs t (List.mem_cons_of_mem _ ht)) b hb hrank

/-- **A record of greatest rank is the newest one**, up to ties that say the same. -/
theorem preferred_eq_view {ts : List (ℕ × Layer K V)} {k : K} {r : Option V}
    (hmono : ts.Pairwise fun a b => b.1 ≤ a.1) (htie : TieFree ts k) (h : Preferred ts k r) :
    r = view (ts.map Prod.snd) k := by
  obtain ⟨t, ht, htk, hmax⟩ := h
  induction ts with
  | nil => exact absurd ht List.not_mem_nil
  | cons a ts ih =>
    obtain ⟨ha, hts⟩ := List.pairwise_cons.1 hmono
    unfold view
    rw [List.map_cons, stack_cons]
    cases hak : a.2 k with
    | none =>
      -- the newest layer is silent: the others decide
      rcases List.mem_cons.1 ht with rfl | ht
      · rw [htk] at hak
        exact absurd hak (by simp)
      · rw [Option.none_or]
        have hcons : TieFree ([a] ++ ts) k := htie
        have htie' : TieFree ts k := hcons.of_append fun t ht => by
          rw [List.mem_singleton.1 ht, hak]
        exact ih hts htie' ht fun t' ht' => hmax t' (List.mem_cons_of_mem _ ht')
    | some r' =>
      rw [Option.some_or, Option.join_some]
      rcases List.mem_cons.1 ht with rfl | ht
      · rw [htk] at hak
        exact Option.some.inj hak
      · have hrank : t.1 = a.1 := le_antisymm (ha t ht) (hmax a List.mem_cons_self (by rw [hak]; simp))
        exact (htie [] a ts rfl (fun t ht => absurd ht List.not_mem_nil) t ht hrank r' r hak htk).symm

end LsmTree.Base
