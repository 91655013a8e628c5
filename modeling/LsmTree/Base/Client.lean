import Mathlib

/-!
# Clients, machines and specifications

A client makes calls of an interface and goes on with their results. A machine answers each
call; a specification says which answers are allowed. If a machine simulates a
specification, every client gets from it what the specification allows.

* `Simulates.run`: **simulation is sound for every client**, wherever the condition that the
  simulation needs holds at the calls the client makes.
* `Machine.Meets.invariant`: what every call keeps, every client keeps.
* `Simulates.handler`: a handler, clients that answer the calls of another interface, simulates
  what it is allowed.
* `allows_exactly`: where a specification allows one answer, so it is for clients.
* `Yields`: clients to which one answer is allowed, composed by `Yields.bind`.
-/

namespace LsmTree.Base

structure Interface where
  Call : Type
  Result : Call → Type

inductive Client (I : Interface) (α : Type) where
  | ret (a : α)
  | call (c : I.Call) (next : I.Result c → Client I α)

variable {I J : Interface} {α β S T σ : Type}

namespace Client

def bind : Client I α → (α → Client I β) → Client I β
  | .ret a, f => f a
  | .call c next, f => .call c fun r => (next r).bind f

instance : Monad (Client I) where
  pure := .ret
  bind := .bind

end Client

/-- The answer to a call, and the state after it. -/
abbrev Machine (I : Interface) (S : Type) := S → (c : I.Call) → I.Result c × S

/-- The answers allowed to a call, and the states after them. -/
abbrev Specification (I : Interface) (T : Type) := T → (c : I.Call) → I.Result c → T → Prop

def Machine.run (M : Machine I S) : Client I α → S → α × S
  | .ret a, s => (a, s)
  | .call c next, s => M.run (next (M s c).1) (M s c).2

/-- The calls that a client makes of the machine. -/
def Machine.made (M : Machine I S) : Client I α → S → List I.Call
  | .ret _, _ => []
  | .call c next, s => c :: M.made (next (M s c).1) (M s c).2

/-- A condition holds at each call that a client makes of the machine. -/
def Machine.Meets (M : Machine I S) (good : S → I.Call → Prop) : Client I α → S → Prop
  | .ret _, _ => True
  | .call c next, s => good s c ∧ M.Meets good (next (M s c).1) (M s c).2

inductive Specification.Allows (N : Specification I T) : Client I α → T → α → T → Prop
  | ret (a : α) (t : T) : N.Allows (.ret a) t a t
  | call {c : I.Call} {next : I.Result c → Client I α} {r : I.Result c} {t t₁ t' : T} {a : α}
    (hcall : N t c r t₁) (hnext : N.Allows (next r) t₁ a t') : N.Allows (.call c next) t a t'

/-- The machine answers each call as the specification allows, where the condition holds. -/
def Simulates (M : Machine I S) (N : Specification I T) (good : S → I.Call → Prop) (R : S → T → Prop) : Prop :=
  ∀ s t c, R s t → good s c → ∃ t', N t c (M s c).1 t' ∧ R (M s c).2 t'

variable {M : Machine I S} {N : Specification I T} {good : S → I.Call → Prop} {R : S → T → Prop}

/-- **Simulation is sound for every client.** -/
theorem Simulates.run (h : Simulates M N good R) {client : Client I α} : ∀ {s : S} {t : T}, R s t →
    M.Meets good client s → ∃ t', N.Allows client t (M.run client s).1 t' ∧ R (M.run client s).2 t' := by
  induction client with
  | ret a => exact fun {s t} hR _ => ⟨t, .ret a t, hR⟩
  | call c next ih =>
    intro s t hR hmeets
    obtain ⟨t₁, hcall, hR₁⟩ := h s t c hR hmeets.1
    obtain ⟨t', hnext, hR'⟩ := ih _ hR₁ hmeets.2
    exact ⟨t', .call hcall hnext, hR'⟩

namespace Machine

theorem run_bind (M : Machine I S) {client : Client I α} {f : α → Client I β} : ∀ {s : S},
    M.run (client.bind f) s = M.run (f (M.run client s).1) (M.run client s).2 := by
  induction client with
  | ret a => exact rfl
  | call c next ih => exact ih _

/-- The state behind a client is that behind its calls. -/
theorem state_run (M : Machine I S) {client : Client I α} : ∀ {s : S},
    (M.run client s).2 = (M.made client s).foldl (fun s c => (M s c).2) s := by
  induction client with
  | ret a => exact rfl
  | call c next ih => exact ih _

theorem Meets.mono {good' : S → I.Call → Prop} (hgood : ∀ s c, good s c → good' s c) {client : Client I α} :
    ∀ {s : S}, M.Meets good client s → M.Meets good' client s := by
  induction client with
  | ret a => exact fun _ => trivial
  | call c next ih => exact fun h => ⟨hgood _ _ h.1, ih _ h.2⟩

/-- **What every call keeps, every client keeps.** -/
theorem Meets.invariant {inv : S → Prop} (hstep : ∀ s c, inv s → good s c → inv (M s c).2) {client : Client I α} :
    ∀ {s : S}, inv s → M.Meets good client s → inv (M.run client s).2 := by
  induction client with
  | ret a => exact fun h _ => h
  | call c next ih => exact fun h hmeets => ih _ (hstep _ c h hmeets.1) hmeets.2

theorem Meets.of_bind {client : Client I α} {f : α → Client I β} : ∀ {s : S},
    M.Meets good (client.bind f) s → M.Meets good client s := by
  induction client with
  | ret a => exact fun _ => trivial
  | call c next ih => exact fun h => ⟨h.1, ih _ h.2⟩

def decideMeets [∀ s c, Decidable (good s c)] : (client : Client I α) → (s : S) → Decidable (M.Meets good client s)
  | .ret _, _ => .isTrue trivial
  | .call c next, s =>
    have := decideMeets (next (M s c).1) (M s c).2
    inferInstanceAs (Decidable (good s c ∧ M.Meets good (next (M s c).1) (M s c).2))

instance [∀ s c, Decidable (good s c)] (client : Client I α) (s : S) : Decidable (M.Meets good client s) :=
  decideMeets client s

end Machine

namespace Specification

@[simp] theorem allows_ret {a b : α} {t t' : T} : N.Allows (.ret a) t b t' ↔ b = a ∧ t' = t := by
  constructor
  · rintro ⟨⟩
    exact ⟨rfl, rfl⟩
  · rintro ⟨rfl, rfl⟩
    exact .ret b t'

theorem allows_call {c : I.Call} {next : I.Result c → Client I α} {a : α} {t t' : T} :
    N.Allows (.call c next) t a t' ↔ ∃ r t₁, N t c r t₁ ∧ N.Allows (next r) t₁ a t' := by
  constructor
  · rintro ⟨⟩
    exact ⟨_, _, ‹_›, ‹_›⟩
  · rintro ⟨r, t₁, hcall, hnext⟩
    exact .call hcall hnext

theorem allows_bind {client : Client I α} {f : α → Client I β} {b : β} : ∀ {t t' : T},
    N.Allows (client.bind f) t b t' ↔ ∃ a t₁, N.Allows client t a t₁ ∧ N.Allows (f a) t₁ b t' := by
  induction client with
  | ret a => simp [Client.bind]
  | call c next ih =>
    intro t t'
    unfold Client.bind
    rw [allows_call]
    constructor
    · rintro ⟨r, t₁, hcall, hnext⟩
      obtain ⟨a, t₂, hrest, hf⟩ := (ih r).1 hnext
      exact ⟨a, t₂, .call hcall hrest, hf⟩
    · rintro ⟨a, t₂, hclient, hf⟩
      obtain ⟨r, t₁, hcall, hrest⟩ := allows_call.1 hclient
      exact ⟨r, t₁, hcall, (ih r).2 ⟨a, t₂, hrest, hf⟩⟩

/-- What a machine answers is all that is allowed. -/
def exactly (M : Machine I T) : Specification I T := fun t c r t' => (r, t') = M t c

/-- **For clients too.** -/
theorem allows_exactly {M : Machine I T} {client : Client I α} {a : α} : ∀ {t t' : T},
    (exactly M).Allows client t a t' ↔ (a, t') = M.run client t := by
  induction client with
  | ret b =>
    intro t t'
    rw [allows_ret, ← Prod.mk.injEq]
    rfl
  | call c next ih =>
    intro t t'
    rw [allows_call]
    constructor
    · rintro ⟨r, t₁, hcall, hnext⟩
      obtain ⟨hr, ht⟩ := Prod.mk.inj hcall
      rw [(ih r).1 hnext, hr, ht]
      rfl
    · exact fun h => ⟨_, _, rfl, (ih _).2 h⟩

/-- From this state the client is allowed this answer only, and this state behind it. -/
def Yields (N : Specification I T) (client : Client I α) (t : T) (a : α) (t' : T) : Prop :=
  ∀ b t'', N.Allows client t b t'' ↔ b = a ∧ t'' = t'

theorem yields_ret (N : Specification I T) (a : α) (t : T) : N.Yields (.ret a) t a t := fun _ _ => allows_ret

/-- **The rule for clients that go on.** -/
theorem Yields.bind {client : Client I α} {f : α → Client I β} {t t₁ t' : T} {a : α} {b : β}
    (h : N.Yields client t a t₁) (hf : N.Yields (f a) t₁ b t') : N.Yields (client.bind f) t b t' := by
  intro c t''
  rw [allows_bind, ← hf]
  constructor
  · rintro ⟨a', t₂, hclient, hrest⟩
    obtain ⟨rfl, rfl⟩ := (h _ _).1 hclient
    exact hrest
  · exact fun hrest => ⟨a, t₁, (h _ _).2 ⟨rfl, rfl⟩, hrest⟩

end Specification

/-- A machine that answers as another one is asked the same. -/
theorem Simulates.made {P : Machine I T} (h : Simulates M (Specification.exactly P) good R) {client : Client I α} :
    ∀ {s : S} {t : T}, R s t → M.Meets good client s → M.made client s = P.made client t := by
  induction client with
  | ret a => exact fun _ _ => rfl
  | call c next ih =>
    intro s t hR hmeets
    obtain ⟨t₁, hcall, hR₁⟩ := h s t c hR hmeets.1
    obtain ⟨hr, ht⟩ := Prod.mk.inj hcall
    unfold Machine.made
    rw [ih _ hR₁ hmeets.2, hr, ht]

/-! ## Handlers -/

/-- Clients that answer the calls of another interface, with a state of their own. -/
abbrev Handler (I J : Interface) (σ : Type) := σ → (c : I.Call) → Client J (I.Result c × σ)

/-- The machine that a handler makes of the one it calls. -/
def Handler.on (H : Handler I J σ) (M : Machine J S) : Machine I (σ × S) := fun s c =>
  match M.run (H s.1 c) s.2 with
  | ((r, x), s') => (r, x, s')

/-- **A handler on a machine simulates what the handler is allowed.** -/
theorem Simulates.handler {H : Handler J I σ} {P : Specification J (σ × T)} (h : Simulates M N good R)
    (hallows : ∀ {x t c r x' t'}, N.Allows (H x c) t (r, x') t' → P (x, t) c r (x', t')) :
    Simulates (H.on M) P (fun s c => M.Meets good (H s.1 c) s.2) fun s t => s.1 = t.1 ∧ R s.2 t.2 := by
  rintro ⟨x, s⟩ ⟨x₁, t⟩ c ⟨hx, hR⟩ hmeets
  obtain rfl : x = x₁ := hx
  obtain ⟨t', hrun, hR'⟩ := h.run hR hmeets
  exact ⟨((M.run (H x c) s).1.2, t'), hallows hrun, rfl, hR'⟩

end LsmTree.Base
