import LsmTree.Spec.ChatSteps
import LsmTree.Proof.ChatHistory

/-!
# Chat messages under concurrent callers

* `appendMessage_steps`: the three steps of one caller alone are `append_message`.
* `Orderly`: what holds between the store and the calls under way while no late call puts
  its turn; one lemma per step.
* `nothingLost_iff`: in a run no turn is overwritten, and no returned message is missing,
  if and only if no late call puts its turn.
-/

namespace LsmTree

open Base

namespace ChatHistory

variable {ι τ δ : Type} [DecidableEq ι] [EmptyCollection δ] {json : MessageJson τ δ}

/-- **One caller alone** does what `append_message` does. -/
theorem appendMessage_steps {st : Chatting ι τ δ} {i : ι} (hidle : st.pending i = none) (c : AppendCall τ δ) :
    ([.get i c, .putTurn i, .putCounter i].foldl (chatStep json) st).engine =
      (appendMessage json c.session c.role c.content c.metadata c.now st.engine).2 := by
  have hmsg : (⟨c.role, c.content, c.now, c.metadata.getD ∅⟩ : ChatMessage τ δ) = c.message := rfl
  simp only [List.foldl_cons, List.foldl_nil, appendMessage, hmsg]
  unfold chatStep stepGet
  cases hturn : nextTurn (st.engine.get (metaKey c.session)) with
  | error err => simp [hidle, hturn]
  | ok turnIndex =>
    cases hp : json.dumps c.message with
    | error err => simp [hidle, hturn, hp]
    | ok payload => simp [hidle, hturn, hp, stepPutTurn, stepPutCounter]

/-! ## The invariant -/

/-- The store has the message under this turn. -/
def Holds (json : MessageJson τ δ) (engine : Engine) (s : Bytes) (i : ℤ) (msg : ChatMessage τ δ) : Prop :=
  ∃ payload, json.dumps msg = .ok payload ∧ engine.get (turnKey s i) = some payload

/-- The turns of a session that its counter counts. -/
def countedTurns (turns : Bytes → ℕ) (st : Chatting ι τ δ) (s : Bytes) : ℕ :=
  turns s - if s ∈ st.halfDone then 1 else 0

/-- The turns of a session have the numbers below `turns s`. A call that is not late has
the next number, and a late one has a number that is taken. -/
structure Orderly (json : MessageJson τ δ) (turns : Bytes → ℕ) (st : Chatting ι τ δ) : Prop where
  present : ∀ s (n : ℕ), (st.engine.get (turnKey s n)).isSome ↔ n < turns s
  half : ∀ s ∈ st.halfDone, 0 < turns s
  counter : ∀ s, nextTurn (st.engine.get (metaKey s)) = .ok (countedTurns turns st s : ℤ)
  counted : ∀ i p, st.pending i = some p → p.phase = .counted → json.dumps p.msg = .ok p.payload ∧
    ∃ n : ℕ, p.turnIndex = n ∧
      if p.late then n < turns p.session else n = turns p.session ∧ p.session ∉ st.halfDone
  stored : ∀ i p, st.pending i = some p → p.phase = .stored → p.session ∈ st.halfDone ∧
    p.turnIndex + 1 = turns p.session ∧ Holds json st.engine p.session p.turnIndex p.msg
  single : ∀ i j p q, st.pending i = some p → st.pending j = some q → p.phase = .stored → q.phase = .stored →
    p.session = q.session → i = j
  written : ∀ k v, st.engine.get k = some v →
    (∃ s, k = metaKey s) ∨ ∃ s, ∃ n : ℕ, ∃ msg, k = turnKey s n ∧ json.dumps msg = .ok v
  kept : ∀ e ∈ st.returned, ∃ n : ℕ, e.2.1 = n ∧ n < countedTurns turns st e.1 ∧
    Holds json st.engine e.1 n e.2.2
  once : (st.returned.map fun e => (e.1, e.2.1)).Nodup

variable {turns : Bytes → ℕ} {st : Chatting ι τ δ} {engine : Engine} {s t k : Bytes} {i : ℤ}
  {msg : ChatMessage τ δ} {caller : ι} {p : Pending τ δ}

theorem Holds.put (h : Holds json engine s i msg) (hne : k ≠ turnKey s i) (v : Bytes) :
    Holds json (engine.put k v) s i msg := by
  obtain ⟨payload, hp, hget⟩ := h
  exact ⟨payload, hp, by rw [OrderedMap.get_put_of_ne hne, hget]⟩

omit [DecidableEq ι] in
theorem orderly_start (json : MessageJson τ δ) : Orderly json (fun _ => 0) (Chatting.start (ι := ι)) where
  present _ n := by simp [Chatting.start]
  half _ hs := absurd hs List.not_mem_nil
  counter _ := rfl
  counted _ _ h := nomatch h
  stored _ _ h := nomatch h
  single _ _ _ _ h := nomatch h
  written _ _ h := nomatch h
  kept _ h := absurd h List.not_mem_nil
  once := List.nodup_nil

theorem nextTurn_pyStr (n : ℕ) : nextTurn (some (pyStr n)) = .ok ((n : ℤ) + 1) := by
  unfold nextTurn
  simp only [pyStr_natCast, pyInt_decimal]

/-! ## One step -/

/-- Reading the counter. -/
theorem Orderly.stepGet (h : Orderly json turns st) (c : AppendCall τ δ) :
    Orderly json turns (stepGet json caller c st) := by
  unfold ChatHistory.stepGet
  rw [h.counter c.session]
  split
  · rename_i turnIndex payload hidle hturn hp
    obtain rfl := Except.ok.inj hturn
    refine ⟨h.present, h.half, h.counter, fun j q hq hphase => ?_, fun j q hq hphase => ?_, ?_, h.written, h.kept,
      h.once⟩
    · simp only [Function.update_apply] at hq
      split at hq
      · obtain rfl := Option.some.inj hq
        -- while another call is between its two puts the number is one too small: this call is late
        refine ⟨hp, _, rfl, ?_⟩
        unfold countedTurns
        simp only [decide_eq_true_eq]
        split
        · rename_i hhalf
          have hpos := h.half _ hhalf
          omega
        · rename_i hhalf
          exact ⟨rfl, hhalf⟩
      · exact h.counted j q hq hphase
    · simp only [Function.update_apply] at hq
      split at hq
      · obtain rfl := Option.some.inj hq
        cases hphase
      · exact h.stored j q hq hphase
    · intro j j' q q' hq hq' hphase hphase'
      simp only [Function.update_apply] at hq hq'
      split at hq
      · obtain rfl := Option.some.inj hq
        cases hphase
      · split at hq'
        · obtain rfl := Option.some.inj hq'
          cases hphase'
        · exact h.single j j' q q' hq hq' hphase hphase'
  · exact h

omit [EmptyCollection δ] in
/-- What becomes of the calls when one of them puts its turn. -/
theorem pending_stepPutTurn {j : ι} {q : Pending τ δ} (hq : (stepPutTurn caller p st).pending j = some q) :
    (j = caller ∧ q = { p with phase := .stored }) ∨
      (j ≠ caller ∧ ∃ q', st.pending j = some q' ∧ q = q'.overtaken p.session) := by
  unfold stepPutTurn at hq
  simp only [Function.update_apply] at hq
  split at hq
  · rename_i hj
    exact Or.inl ⟨hj, (Option.some.inj hq).symm⟩
  · rename_i hj
    obtain ⟨q', hq', he⟩ := Option.map_eq_some_iff.1 hq
    exact Or.inr ⟨hj, q', hq', he.symm⟩

omit [EmptyCollection δ] in
/-- The new turn is not counted before its counter is put. -/
theorem countedTurns_stepPutTurn (turns : Bytes → ℕ) (caller : ι) (hfree : p.session ∉ st.halfDone) (s : Bytes) :
    countedTurns (Function.update turns p.session (turns p.session + 1)) (stepPutTurn caller p st) s =
      countedTurns turns st s := by
  unfold countedTurns stepPutTurn
  by_cases hs : s = p.session
  · subst hs
    simp [hfree]
  · simp [hs]

omit [DecidableEq ι] [EmptyCollection δ] in
/-- The next number is not taken. -/
theorem turnKey_next_ne {m : ℕ} (hn : p.turnIndex = turns p.session) (hm : m < turns s) :
    turnKey p.session p.turnIndex ≠ turnKey s m := by
  intro he
  rw [hn] at he
  obtain ⟨rfl, rfl⟩ := turnKey_inj he
  exact lt_irrefl _ hm

section

omit [DecidableEq ι]

/-- One more number is taken. -/
theorem Orderly.present_put (h : Orderly json turns st) (hn : p.turnIndex = turns p.session) (s : Bytes) (m : ℕ) :
    ((st.engine.put (turnKey p.session p.turnIndex) p.payload).get (turnKey s m)).isSome ↔
      m < Function.update turns p.session (turns p.session + 1) s := by
  rw [OrderedMap.get_put, hn]
  by_cases hs : s = p.session
  · subst hs
    rw [Function.update_self]
    split
    · rename_i he
      have hm := (turnKey_inj he).2
      simp only [Option.isSome_some, true_iff]
      omega
    · rename_i he
      rw [h.present]
      have hm : m ≠ turns p.session := fun hm => he (by rw [hm])
      omega
  · rw [Function.update_of_ne hs, if_neg fun he => hs (turnKey_inj he).1.symm, h.present]

/-- A call that has read the counter of session `t` is late once another turn of it is put. -/
theorem Orderly.counted_overtaken (h : Orderly json turns st) {j : ι} {q : Pending τ δ}
    (hq : st.pending j = some q)
    (hphase : q.phase = .counted) (t : Bytes) : json.dumps q.msg = .ok q.payload ∧ ∃ n : ℕ, q.turnIndex = n ∧
      if (q.overtaken t).late then n < Function.update turns t (turns t + 1) q.session
      else n = Function.update turns t (turns t + 1) q.session ∧ q.session ∉ t :: st.halfDone := by
  obtain ⟨hd, n, hn, hnum⟩ := h.counted j q hq hphase
  refine ⟨hd, n, hn, ?_⟩
  unfold Pending.overtaken
  by_cases hs : q.session = t
  · simp only [hs, decide_true, Bool.or_true, if_true, Function.update_self]
    rw [hs] at hnum
    split at hnum <;> omega
  · simp only [hs, decide_false, Bool.or_false, Function.update_of_ne hs]
    split at hnum
    · rename_i hlate
      rwa [if_pos hlate]
    · rename_i hlate
      rw [if_neg hlate]
      exact ⟨hnum.1, fun hmem => (List.mem_cons.1 hmem).elim hs hnum.2⟩

/-- A turn put without its counter is of another session, and stays. -/
theorem Orderly.stored_put (h : Orderly json turns st) (hn : p.turnIndex = turns p.session)
    (hfree : p.session ∉ st.halfDone) {j : ι} {q : Pending τ δ} (hq : st.pending j = some q)
    (hphase : q.phase = .stored) : q.session ≠ p.session ∧
      Holds json (st.engine.put (turnKey p.session p.turnIndex) p.payload) q.session q.turnIndex q.msg := by
  obtain ⟨hmem, hnum, hholds⟩ := h.stored j q hq hphase
  have hpos := h.half _ hmem
  have hm : q.turnIndex = ((turns q.session - 1 : ℕ) : ℤ) := by omega
  refine ⟨fun hs => hfree (hs ▸ hmem), hholds.put ?_ p.payload⟩
  rw [hm]
  exact turnKey_next_ne hn (Nat.sub_lt hpos Nat.one_pos)

end

/-- Still no two calls have put turns of one session without its counter. -/
theorem Orderly.single_putTurn (h : Orderly json turns st) (hn : p.turnIndex = turns p.session)
    (hfree : p.session ∉ st.halfDone) {j j' : ι} {q q' : Pending τ δ}
    (hq : (ChatHistory.stepPutTurn caller p st).pending j = some q)
    (hq' : (ChatHistory.stepPutTurn caller p st).pending j' = some q') (hphase : q.phase = .stored)
    (hphase' : q'.phase = .stored) (hsame : q.session = q'.session) : j = j' := by
  rcases pending_stepPutTurn hq with ⟨rfl, rfl⟩ | ⟨-, r, hr, rfl⟩
  · rcases pending_stepPutTurn hq' with ⟨rfl, rfl⟩ | ⟨-, r', hr', rfl⟩
    · rfl
    · exact absurd hsame.symm (h.stored_put hn hfree hr' hphase').1
  · rcases pending_stepPutTurn hq' with ⟨rfl, rfl⟩ | ⟨-, r', hr', rfl⟩
    · exact absurd hsame (h.stored_put hn hfree hr hphase).1
    · exact h.single j j' r r' hr hr' hphase hphase' hsame

/-- A call that is not late puts its turn under the next number. -/
theorem Orderly.stepPutTurn (h : Orderly json turns st) (hp : st.pending caller = some p)
    (hphase : p.phase = .counted) (hlate : ¬ p.late = true) :
    Orderly json (Function.update turns p.session (turns p.session + 1)) (stepPutTurn caller p st) := by
  obtain ⟨hdumps, n, hn, hnum⟩ := h.counted caller p hp hphase
  rw [if_neg hlate] at hnum
  obtain ⟨rfl, hfree⟩ := hnum
  refine ⟨h.present_put hn, fun s hs => ?_, fun s => ?_, fun j q hq hq1 => ?_, fun j q hq hq1 => ?_,
    fun j j' q q' => h.single_putTurn hn hfree, fun k v hk => ?_, fun e he => ?_, h.once⟩
  · rcases List.mem_cons.1 hs with rfl | hs
    · rw [Function.update_self]
      omega
    · have hne : s ≠ p.session := fun hne => hfree (hne ▸ hs)
      rw [Function.update_of_ne hne]
      exact h.half s hs
  · -- the counter is not put yet, and the turn is not counted yet
    rw [countedTurns_stepPutTurn turns caller hfree]
    change nextTurn ((st.engine.put _ _).get _) = _
    rw [hn, OrderedMap.get_put_of_ne (Ne.symm (metaKey_ne_turnKey s p.session _)), h.counter]
  · rcases pending_stepPutTurn hq with ⟨-, rfl⟩ | ⟨-, q', hq', rfl⟩
    · cases hq1
    · exact h.counted_overtaken hq' hq1 p.session
  · rcases pending_stepPutTurn hq with ⟨-, rfl⟩ | ⟨-, q', hq', rfl⟩
    · refine ⟨List.mem_cons_self, ?_, p.payload, hdumps, OrderedMap.get_put_self _ _ _⟩
      simp only [Function.update_self, hn]
      omega
    · -- a call that had stored its turn is of another session, and keeps it
      obtain ⟨hs, hholds⟩ := h.stored_put hn hfree hq' hq1
      obtain ⟨hmem, hnum, -⟩ := h.stored j q' hq' hq1
      refine ⟨List.mem_cons_of_mem _ hmem, ?_, hholds⟩
      change q'.turnIndex + 1 = (Function.update turns p.session _ q'.session : ℕ)
      rw [Function.update_of_ne hs, hnum]
  · change (st.engine.put _ _).get k = some v at hk
    rw [OrderedMap.get_put] at hk
    split at hk
    · rename_i he
      rw [← Option.some.inj hk]
      exact Or.inr ⟨p.session, turns p.session, p.msg, by rw [← he, hn], hdumps⟩
    · exact h.written k v hk
  · -- the turns of the calls that returned have smaller numbers, and are not overwritten
    obtain ⟨m, hm, hlt, hholds⟩ := h.kept e he
    have hne := turnKey_next_ne hn (lt_of_lt_of_le hlt (Nat.sub_le _ _))
    exact ⟨m, hm, (countedTurns_stepPutTurn turns caller hfree e.1).symm ▸ hlt, hholds.put hne _⟩

omit [EmptyCollection δ] in
theorem pending_stepPutCounter {j : ι} {q : Pending τ δ}
    (hq : (stepPutCounter caller p st).pending j = some q) : j ≠ caller ∧ st.pending j = some q := by
  unfold stepPutCounter at hq
  simp only [Function.update_apply] at hq
  split at hq
  · cases hq
  · exact ⟨‹_›, hq⟩

omit [EmptyCollection δ] in
theorem mem_halfDone_stepPutCounter (caller : ι) (p : Pending τ δ) (st : Chatting ι τ δ) (s : Bytes) :
    s ∈ (stepPutCounter caller p st).halfDone ↔ s ∈ st.halfDone ∧ s ≠ p.session := by
  unfold stepPutCounter
  simp

omit [EmptyCollection δ] in
/-- From here on all turns of the session are counted. -/
theorem countedTurns_stepPutCounter (turns : Bytes → ℕ) (caller : ι) (p : Pending τ δ) (st : Chatting ι τ δ)
    (s : Bytes) : countedTurns turns (stepPutCounter caller p st) s =
      if s = p.session then turns s else countedTurns turns st s := by
  unfold countedTurns
  simp only [mem_halfDone_stepPutCounter]
  by_cases hs : s = p.session <;> simp [hs]

omit [EmptyCollection δ] in
/-- Only more turns are counted. -/
theorem countedTurns_le_stepPutCounter (turns : Bytes → ℕ) (caller : ι) (p : Pending τ δ) (st : Chatting ι τ δ)
    (s : Bytes) : countedTurns turns st s ≤ countedTurns turns (stepPutCounter caller p st) s := by
  rw [countedTurns_stepPutCounter]
  split
  · exact Nat.sub_le _ _
  · exact le_rfl

omit [DecidableEq ι] in
/-- The counter put is the number of the turns of its session. -/
theorem Orderly.counter_put (h : Orderly json turns st) (hp : st.pending caller = some p)
    (hphase : p.phase = .stored) : nextTurn (some (pyStr p.turnIndex)) = .ok (turns p.session : ℤ) := by
  obtain ⟨hmem, hnum, -⟩ := h.stored caller p hp hphase
  have hpos := h.half _ hmem
  obtain ⟨n, hn⟩ : ∃ n : ℕ, p.turnIndex = n := ⟨turns p.session - 1, by omega⟩
  rw [hn, nextTurn_pyStr, ← hn, hnum]

/-- A message is returned with the number of a turn that was not counted before, so with no
number returned before. -/
theorem Orderly.once_putCounter (h : Orderly json turns st) (hp : st.pending caller = some p)
    (hphase : p.phase = .stored) :
    ((stepPutCounter caller p st).returned.map fun e => (e.1, e.2.1)).Nodup := by
  obtain ⟨hmem, hnum, -⟩ := h.stored caller p hp hphase
  change ((st.returned ++ [(p.session, p.turnIndex, p.msg)]).map _).Nodup
  rw [List.map_append, List.nodup_append]
  refine ⟨h.once, List.nodup_singleton _, fun x hx y hy hxy => ?_⟩
  obtain rfl := List.mem_singleton.1 hy
  obtain ⟨e, he, rfl⟩ := List.mem_map.1 hx
  obtain ⟨m, hm, hlt, -⟩ := h.kept e he
  obtain ⟨hs, ht⟩ := Prod.mk.inj hxy
  simp only at hs ht
  unfold countedTurns at hlt
  rw [hs, if_pos hmem] at hlt
  omega

/-- What is returned stays under its turn, and so does the message that is returned now. -/
theorem Orderly.kept_putCounter (h : Orderly json turns st) (hp : st.pending caller = some p)
    (hphase : p.phase = .stored) : ∀ e ∈ (stepPutCounter caller p st).returned, ∃ n : ℕ, e.2.1 = n ∧
      n < countedTurns turns (stepPutCounter caller p st) e.1 ∧
      Holds json (stepPutCounter caller p st).engine e.1 n e.2.2 := by
  intro e he
  rcases List.mem_append.1 he with he | he
  · obtain ⟨m, hm, hlt, hholds⟩ := h.kept e he
    exact ⟨m, hm, lt_of_lt_of_le hlt (countedTurns_le_stepPutCounter turns caller p st e.1),
      hholds.put (metaKey_ne_turnKey _ _ _) _⟩
  · obtain rfl := List.mem_singleton.1 he
    obtain ⟨hmem, hnum, hholds⟩ := h.stored caller p hp hphase
    have hpos := h.half _ hmem
    obtain ⟨n, hn⟩ : ∃ n : ℕ, p.turnIndex = n := ⟨turns p.session - 1, by omega⟩
    refine ⟨n, hn, ?_, ?_⟩
    · rw [countedTurns_stepPutCounter, if_pos rfl]
      simp only
      omega
    · rw [← hn]
      exact hholds.put (metaKey_ne_turnKey _ _ _) _

/-- A call puts the counter and returns. -/
theorem Orderly.stepPutCounter (h : Orderly json turns st) (hp : st.pending caller = some p)
    (hphase : p.phase = .stored) : Orderly json turns (stepPutCounter caller p st) := by
  have hhalf := mem_halfDone_stepPutCounter caller p st
  refine ⟨fun s m => ?_, fun s hs => h.half s ((hhalf s).1 hs).1, fun s => ?_, fun j q hq hq1 => ?_,
    fun j q hq hq1 => ?_, fun j j' q q' hq hq' =>
      h.single j j' q q' (pending_stepPutCounter hq).2 (pending_stepPutCounter hq').2,
    fun k v hk => ?_, h.kept_putCounter hp hphase, h.once_putCounter hp hphase⟩
  · change ((st.engine.put _ _).get _).isSome ↔ _
    rw [OrderedMap.get_put_of_ne (metaKey_ne_turnKey _ _ _), h.present]
  · change nextTurn ((st.engine.put _ _).get _) = _
    rw [countedTurns_stepPutCounter]
    -- the counter of the session comes up to its turns, no other moves
    by_cases hs : s = p.session
    · rw [hs, OrderedMap.get_put_self, h.counter_put hp hphase, if_pos rfl]
    · rw [OrderedMap.get_put_of_ne fun he => hs (metaKey_inj he).symm, h.counter, if_neg hs]
  · obtain ⟨hd, m, hm, hnum⟩ := h.counted j q (pending_stepPutCounter hq).2 hq1
    refine ⟨hd, m, hm, ?_⟩
    split
    · rename_i hlate
      rwa [if_pos hlate] at hnum
    · rename_i hlate
      rw [if_neg hlate] at hnum
      exact ⟨hnum.1, fun hs => hnum.2 ((hhalf _).1 hs).1⟩
  · obtain ⟨hj, hq⟩ := pending_stepPutCounter hq
    obtain ⟨hmem, hnum, hholds⟩ := h.stored j q hq hq1
    refine ⟨(hhalf _).2 ⟨hmem, fun hs => hj (h.single j caller q p hq hp hq1 hphase hs)⟩, hnum, ?_⟩
    exact hholds.put (metaKey_ne_turnKey _ _ _) _
  · change (st.engine.put _ _).get k = some v at hk
    rw [OrderedMap.get_put] at hk
    split at hk
    · rename_i he
      exact Or.inl ⟨p.session, he.symm⟩
    · exact h.written k v hk

/-- **One step.** -/
theorem Orderly.chatStep (h : Orderly json turns st) {act : ChatStep ι τ δ} (hact : ¬ PutsLate st act) :
    ∃ turns', Orderly json turns' (chatStep json st act) := by
  unfold ChatHistory.chatStep
  cases act with
  | get i c => exact ⟨turns, h.stepGet c⟩
  | putTurn i =>
    simp only
    split
    · rename_i p hp
      split
      · rename_i hphase
        exact ⟨_, h.stepPutTurn hp hphase fun hlate => hact ⟨p, hp, hphase, hlate⟩⟩
      · exact ⟨turns, h⟩
    · exact ⟨turns, h⟩
  | putCounter i =>
    simp only
    split
    · rename_i p hp
      split
      · rename_i hphase
        exact ⟨turns, h.stepPutCounter hp hphase⟩
      · exact ⟨turns, h⟩
    · exact ⟨turns, h⟩
  | stop =>
    exact ⟨turns, h.present, h.half, h.counter, fun _ _ hq => (nomatch hq), fun _ _ hq => (nomatch hq),
      fun _ _ _ _ hq => (nomatch hq), h.written, h.kept, h.once⟩

omit [DecidableEq ι] in
/-- A turn that is overwritten is a late one. -/
theorem Orderly.overwrites_iff (h : Orderly json turns st) (act : ChatStep ι τ δ) :
    Overwrites st act ↔ PutsLate st act := by
  cases act with
  | putTurn i =>
    have hiff : ∀ q, st.pending i = some q → q.phase = .counted →
        ((st.engine.get (turnKey q.session q.turnIndex)).isSome = true ↔ q.late = true) := by
      intro q hq hphase
      obtain ⟨-, n, hn, hnum⟩ := h.counted i q hq hphase
      rw [hn, h.present]
      split at hnum
      · rename_i hlate
        exact iff_of_true hnum hlate
      · rename_i hlate
        exact iff_of_false (by omega) hlate
    constructor
    · rintro ⟨q, hq, hphase, hsome⟩
      exact ⟨q, hq, hphase, (hiff q hq hphase).1 hsome⟩
    · rintro ⟨q, hq, hphase, hlate⟩
      exact ⟨q, hq, hphase, (hiff q hq hphase).2 hlate⟩
  | get i c => exact Iff.rfl
  | putCounter i => exact Iff.rfl
  | stop => exact Iff.rfl

/-! ## Runs -/

/-- No step of the run puts the turn of a late call. -/
def NoneLate (json : MessageJson τ δ) (steps : List (ChatStep ι τ δ)) : Prop :=
  ∀ pre act post, steps = pre ++ act :: post → ¬ PutsLate (chatRun json pre) act

theorem NoneLate.before {steps : List (ChatStep ι τ δ)} (h : NoneLate json steps)
    {pre post : List (ChatStep ι τ δ)} (hsteps : steps = pre ++ post) : NoneLate json pre := by
  rintro pre' act post' rfl
  exact h pre' act (post' ++ post) (by rw [hsteps]; simp)

theorem NoneLate.snoc {steps : List (ChatStep ι τ δ)} {act : ChatStep ι τ δ} (h : NoneLate json steps)
    (hact : ¬ PutsLate (chatRun json steps) act) : NoneLate json (steps ++ [act]) := by
  intro pre act' post he
  rcases List.eq_nil_or_concat post with rfl | ⟨post, last, rfl⟩
  · obtain ⟨rfl, hlast⟩ := List.append_inj' he rfl
    obtain rfl := (List.cons.inj hlast).1
    exact hact
  · have he' : steps ++ [act] = (pre ++ act' :: post) ++ [last] := by
      rw [he]
      simp
    exact h pre act' post (List.append_inj' he' rfl).1

theorem chatRun_snoc (steps : List (ChatStep ι τ δ)) (act : ChatStep ι τ δ) :
    chatRun json (steps ++ [act]) = chatStep json (chatRun json steps) act := List.foldl_concat _ _ _ _

/-- **Every run** whose late calls never put their turn. -/
theorem orderly_chatRun {steps : List (ChatStep ι τ δ)} (h : NoneLate json steps) :
    ∃ turns, Orderly json turns (chatRun json steps) := by
  induction steps using List.reverseRecOn with
  | nil => exact ⟨_, orderly_start json⟩
  | append_singleton steps act ih =>
    obtain ⟨turns, horderly⟩ := ih (h.before rfl)
    rw [chatRun_snoc]
    exact horderly.chatStep (h steps act [] rfl)

/-! ## The history -/

/-- The messages returned for a session are among its history, each as often as it was returned. -/
def Kept (json : MessageJson τ δ) (s : Bytes) (st : Chatting ι τ δ) : Prop :=
  ∃ messages, getHistory json s none st.engine = .ok messages ∧
    List.Subperm ((st.returned.filter fun e => e.1 = s).map fun e => e.2.2) messages

/-- What a stored payload says. -/
def readPayload (json : MessageJson τ δ) (item : Bytes × Bytes) : Option (ChatMessage τ δ) :=
  (json.loads item.2).toOption

omit [DecidableEq ι] in
theorem Orderly.getHistory (h : Orderly json turns st) (s : Bytes) :
    ChatHistory.getHistory json s none st.engine =
      .ok ((st.engine.prefixScan (chatPrefix s)).filterMap (readPayload json)) := by
  have hloads : ∀ item ∈ st.engine.prefixScan (chatPrefix s), ∃ msg, json.loads item.2 = .ok msg := by
    rintro ⟨k, v⟩ hitem
    obtain ⟨hget, hpre⟩ := mem_prefixScan.1 hitem
    rcases h.written k v hget with ⟨t, rfl⟩ | ⟨t, n, msg, rfl, hp⟩
    · exact absurd hpre (not_chatPrefix_metaKey s t)
    · exact ⟨msg, json.loads_dumps hp⟩
  rw [getHistory_ok]
  generalize st.engine.prefixScan (chatPrefix s) = items at hloads
  induction items with
  | nil => exact List.Forall₂.nil
  | cons item items ih =>
    obtain ⟨msg, hmsg⟩ := hloads item List.mem_cons_self
    have hread : readPayload json item = some msg := by
      unfold readPayload
      rw [hmsg]
      rfl
    rw [List.filterMap_cons_some hread]
    exact .cons hmsg (ih fun item' h' => hloads item' (List.mem_cons_of_mem _ h'))

omit [DecidableEq ι] in
/-- Different returned messages stand under different keys. -/
theorem Orderly.kept_session (h : Orderly json turns st) (s : Bytes) : Kept json s st := by
  refine ⟨_, h.getHistory s, ?_⟩
  set mine := st.returned.filter fun e => e.1 = s with hmine
  have hsession : ∀ e ∈ mine, e ∈ st.returned ∧ e.1 = s := fun e he => by
    simpa [hmine] using he
  set items := mine.map fun e => (turnKey s e.2.1, text json e.2.2) with hitems
  -- each returned turn is in the scan of the prefix
  have hitem : ∀ e ∈ mine, (turnKey s e.2.1, text json e.2.2) ∈ st.engine.prefixScan (chatPrefix s) ∧
      json.dumps e.2.2 = .ok (text json e.2.2) := by
    intro e he
    obtain ⟨hret, hs⟩ := hsession e he
    obtain ⟨n, hn, -, payload, hp, hget⟩ := h.kept e hret
    have htext : text json e.2.2 = payload := by
      unfold text
      rw [hp]
      rfl
    rw [htext, hn, mem_prefixScan]
    exact ⟨⟨by rw [← hs, hget], chatPrefix_turnKey.2 (Or.inl rfl)⟩, hp⟩
  have hnodup : items.Nodup := by
    -- and under a key of its own
    have honce : (mine.map fun e => (e.1, e.2.1)).Nodup := h.once.sublist (List.Sublist.map _ List.filter_sublist)
    rw [List.Nodup, List.pairwise_map] at honce ⊢
    refine honce.imp_of_mem fun {e e'} he he' hne hsame => hne ?_
    obtain ⟨hret, hs⟩ := hsession e he
    obtain ⟨hret', hs'⟩ := hsession e' he'
    obtain ⟨n, hn, -⟩ := h.kept e hret
    obtain ⟨n', hn', -⟩ := h.kept e' hret'
    have hkey := (Prod.mk.inj hsame).1
    rw [hn, hn'] at hkey
    rw [hs, hs', hn, hn', (turnKey_inj hkey).2]
  -- so the scan has them all, each once, and maybe turns of other calls
  have hsub : List.Subperm items (st.engine.prefixScan (chatPrefix s)) := by
    refine List.subperm_of_subset hnodup fun item hi => ?_
    obtain ⟨e, he, rfl⟩ := List.mem_map.1 hi
    exact (hitem e he).1
  have hread : items.filterMap (readPayload json) = mine.map fun e => e.2.2 := by
    rw [hitems, List.filterMap_map, ← List.filterMap_eq_map]
    refine List.filterMap_congr fun e he => ?_
    unfold readPayload
    simp only [Function.comp_apply]
    rw [json.loads_dumps (hitem e he).2]
    rfl
  obtain ⟨l, hperm, hsublist⟩ := hsub
  rw [← hread]
  exact ⟨l.filterMap (readPayload json), hperm.filterMap _, hsublist.filterMap _⟩

/-- No step of the run puts over a turn, and the history has what was returned at every moment. -/
structure NothingLost (json : MessageJson τ δ) (steps : List (ChatStep ι τ δ)) : Prop where
  absent : ∀ pre act post, steps = pre ++ act :: post → ¬ Overwrites (chatRun json pre) act
  kept : ∀ pre post, steps = pre ++ post → ∀ s, Kept json s (chatRun json pre)

/-- **No message is lost** if and only if no call puts its turn that is late. -/
theorem nothingLost_iff (json : MessageJson τ δ) (steps : List (ChatStep ι τ δ)) :
    NothingLost json steps ↔ NoneLate json steps := by
  constructor
  · intro h
    have hpre : ∀ pre post, steps = pre ++ post → NoneLate json pre := by
      intro pre
      induction pre using List.reverseRecOn with
      | nil => exact fun _ _ pre' act post' he => absurd he (by simp)
      | append_singleton pre act ih =>
        intro post hsteps
        have hprev := ih ([act] ++ post) (by rw [hsteps, List.append_assoc])
        obtain ⟨turns, horderly⟩ := orderly_chatRun hprev
        have hlast := mt (horderly.overwrites_iff act).2 (h.absent pre act post (by rw [hsteps]; simp))
        exact hprev.snoc hlast
    exact hpre steps [] (by simp)
  · intro h
    constructor
    · intro pre act post hsteps
      obtain ⟨turns, horderly⟩ := orderly_chatRun (h.before hsteps)
      rw [horderly.overwrites_iff]
      exact h pre act post hsteps
    · intro pre post hsteps s
      obtain ⟨turns, horderly⟩ := orderly_chatRun (h.before hsteps)
      exact horderly.kept_session s

/-- Two callers that both read the counter before either puts a turn. -/
def racingSteps : List (ChatStep Bool Unit (List Bytes)) :=
  [.get true ⟨bytes "a", bytes "user", bytes "first", none, ()⟩,
    .get false ⟨bytes "a", bytes "user", bytes "second", none, ()⟩,
    .putTurn true, .putCounter true, .putTurn false]

/-- A message that was returned can be lost. -/
theorem nothingLost_fails : ¬ ∀ steps : List (ChatStep Bool Unit (List Bytes)), NothingLost plainJson steps := by
  intro hall
  have hlate := (nothingLost_iff plainJson racingSteps).1 (hall racingSteps)
  refine hlate (racingSteps.take 4) (.putTurn false) [] rfl ?_
  exact ⟨_, rfl, rfl, rfl⟩

end ChatHistory

end LsmTree
