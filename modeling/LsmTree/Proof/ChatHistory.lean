import LsmTree.Base.Fallible
import LsmTree.Proof.ChatJson

/-!
# Chat history over a run of calls

* `Chats.append`: what the store holds after one more message.
* `told_iff`: a session's history is told right, whatever the messages are, if and only
  if no session nested in it was written to and it has at most `10 ^ 8` messages.
* `clearsOnly_iff`: clearing a session leaves another one alone if and only if that one
  is not nested in it or has no message.
-/

namespace LsmTree

open Base

namespace ChatHistory

variable {τ δ : Type}

/-! ## Runs -/

/-- The messages of the calls that returned, with their sessions, and the store. -/
abbrev Log (τ δ : Type) := List (Bytes × ChatMessage τ δ)

/-- The messages appended to a session, in their order. -/
def messagesOf (log : Log τ δ) (s : Bytes) : List (ChatMessage τ δ) := (log.filter fun e => e.1 = s).map Prod.snd

theorem messagesOf_snoc (log : Log τ δ) (s t : Bytes) (msg : ChatMessage τ δ) :
    messagesOf (log ++ [(s, msg)]) t = if s = t then messagesOf log t ++ [msg] else messagesOf log t := by
  unfold messagesOf
  rw [List.filter_append, List.map_append]
  by_cases h : s = t <;> simp [h]

theorem length_messagesOf (log : Log τ δ) (s : Bytes) :
    (messagesOf log s).length = (log.map Prod.fst).count s := by
  unfold messagesOf
  rw [List.length_map, List.count_eq_length_filter, List.filter_map, List.length_map]
  congr 1
  exact List.filter_congr fun e _ => by simp [Function.comp_apply, beq_eq_decide]

variable [EmptyCollection δ] {json : MessageJson τ δ}

def appendOne (json : MessageJson τ δ) (st : Log τ δ × Engine) (c : AppendCall τ δ) : Log τ δ × Engine :=
  match appendMessage json c.session c.role c.content c.metadata c.now st.2 with
  | (.ok msg, engine) => (st.1 ++ [(c.session, msg)], engine)
  | (.error _, engine) => (st.1, engine)

/-- Calls one after another on an empty store. -/
def appendAll (json : MessageJson τ δ) (calls : List (AppendCall τ δ)) : Log τ δ × Engine :=
  calls.foldl (appendOne json) ([], OrderedMap.empty)

variable {log : Log τ δ} {engine : Engine} {s t : Bytes} {msg : ChatMessage τ δ}

/-! ## What the store holds -/

/-- The text of a message that can be written. -/
def text (json : MessageJson τ δ) (msg : ChatMessage τ δ) : Bytes := (json.dumps msg).toOption.getD []

/-- The store after the messages of a log. -/
structure Chats (json : MessageJson τ δ) (log : Log τ δ) (engine : Engine) : Prop where
  encoded : ∀ s, ∀ msg ∈ messagesOf log s, json.dumps msg = .ok (text json msg)
  turns : ∀ s (i : ℕ), engine.get (turnKey s i) = ((messagesOf log s)[i]?).map (text json)
  counter : ∀ s, engine.get (metaKey s) =
    if messagesOf log s = [] then none else some (decimal ((messagesOf log s).length - 1))
  only : ∀ k v, engine.get k = some v → (∃ s, k = metaKey s) ∨ ∃ s, ∃ i : ℕ, k = turnKey s i

theorem chats_empty : Chats json [] OrderedMap.empty :=
  ⟨fun _ _ h => absurd h List.not_mem_nil, fun _ _ => rfl, fun _ => rfl, fun _ _ h => nomatch h⟩

/-- The number of the next turn is the number of messages so far. -/
theorem Chats.nextTurn (h : Chats json log engine) (s : Bytes) :
    ChatHistory.nextTurn (engine.get (metaKey s)) = .ok ((messagesOf log s).length : ℤ) := by
  rw [h.counter s]
  by_cases hnil : messagesOf log s = []
  · rw [if_pos hnil, hnil]
    rfl
  · have hlen : 0 < (messagesOf log s).length := List.length_pos_iff.2 hnil
    unfold ChatHistory.nextTurn
    rw [if_neg hnil]
    simp only [pyInt_decimal]
    congr 1
    omega

/-- **One message more.** -/
theorem Chats.append (h : Chats json log engine) {payload : Bytes} (hp : json.dumps msg = .ok payload) :
    Chats json (log ++ [(s, msg)]) ((engine.put (turnKey s (messagesOf log s).length) payload).put (metaKey s)
      (pyStr (messagesOf log s).length)) := by
  have htext : text json msg = payload := by
    unfold text
    rw [hp]
    rfl
  refine ⟨fun t m hm => ?_, fun t i => ?_, fun t => ?_, fun k v hk => ?_⟩
  · -- every message of the log was encoded, the new one to `payload`
    rw [messagesOf_snoc] at hm
    split at hm
    · rcases List.mem_append.1 hm with hm | hm
      · exact h.encoded t m hm
      · rw [List.mem_singleton.1 hm, htext]
        exact hp
    · exact h.encoded t m hm
  · -- the turns: only the one with the next number is new
    rw [OrderedMap.get_put_of_ne (metaKey_ne_turnKey s t i), OrderedMap.get_put, messagesOf_snoc, h.turns t i]
    by_cases hkey : turnKey s (messagesOf log s).length = turnKey t i
    · obtain ⟨rfl, rfl⟩ := turnKey_inj hkey
      simp [htext]
    · rw [if_neg hkey]
      split
      · rename_i hst
        subst hst
        have hi : i ≠ (messagesOf log s).length := fun hi => hkey (by rw [hi])
        rcases Nat.lt_or_gt_of_ne hi with hlt | hgt
        · rw [List.getElem?_append_left hlt]
        · rw [List.getElem?_eq_none (by omega), List.getElem?_eq_none (by simp; omega)]
      · rfl
  · -- the counters: only that of the session has moved
    rw [OrderedMap.get_put, messagesOf_snoc]
    by_cases hst : s = t
    · subst hst
      simp
    · rw [if_neg fun he => hst (metaKey_inj he), if_neg hst,
        OrderedMap.get_put_of_ne (Ne.symm (metaKey_ne_turnKey t s _)), h.counter t]
  · -- the keys: one of the two that were put, or one from before
    rw [OrderedMap.get_put] at hk
    split at hk
    · rename_i hmeta
      exact Or.inl ⟨s, hmeta.symm⟩
    · rw [OrderedMap.get_put] at hk
      split at hk
      · rename_i hturn
        exact Or.inr ⟨s, _, hturn.symm⟩
      · exact h.only k v hk

/-- What one call does, given how its message is written. -/
theorem Chats.appendOne_eq (h : Chats json log engine) (c : AppendCall τ δ) :
    appendOne json (log, engine) c = match json.dumps c.message with
      | .ok payload => (log ++ [(c.session, c.message)],
          (engine.put (turnKey c.session (messagesOf log c.session).length) payload).put (metaKey c.session)
            (pyStr (messagesOf log c.session).length))
      | .error _ => (log, engine) := by
  unfold appendOne appendMessage
  rw [h.nextTurn c.session]
  have hmsg : (⟨c.role, c.content, c.now, c.metadata.getD ∅⟩ : ChatMessage τ δ) = c.message := rfl
  simp only [hmsg]
  cases json.dumps c.message <;> rfl

/-- **One call.** -/
theorem Chats.appendOne (h : Chats json log engine) (c : AppendCall τ δ) :
    Chats json (ChatHistory.appendOne json (log, engine) c).1 (ChatHistory.appendOne json (log, engine) c).2 := by
  rw [h.appendOne_eq c]
  cases hp : json.dumps c.message with
  | error err => exact h
  | ok payload => exact h.append hp

/-- **Every run of calls.** -/
theorem chats_appendAll (json : MessageJson τ δ) (calls : List (AppendCall τ δ)) :
    Chats json (appendAll json calls).1 (appendAll json calls).2 := by
  have hrun : ∀ (calls : List (AppendCall τ δ)) (st : Log τ δ × Engine), Chats json st.1 st.2 →
      Chats json (calls.foldl (ChatHistory.appendOne json) st).1
        (calls.foldl (ChatHistory.appendOne json) st).2 := by
    intro calls
    induction calls with
    | nil => exact fun st h => h
    | cons c calls ih => exact fun st h => ih _ (h.appendOne c)
  exact hrun calls _ chats_empty

/-! ## The history of a session -/

/-- The history of a session is told right: its messages in order, or the last of them. -/
structure Told (json : MessageJson τ δ) (s : Bytes) (log : Log τ δ) (engine : Engine) : Prop where
  all : getHistory json s none engine = .ok (messagesOf log s)
  last : ∀ n : ℤ, 0 < n → getHistory json s (some n) engine = .ok ((messagesOf log s).rtake n.toNat)

theorem getHistory_ok {messages : List (ChatMessage τ δ)} : getHistory json s none engine = .ok messages ↔
    List.Forall₂ (fun msg item => json.loads item.2 = .ok msg) messages (engine.prefixScan (chatPrefix s)) := by
  rw [← mapM_ok (f := fun item : Bytes × Bytes => json.loads item.2)]
  unfold getHistory
  cases (engine.prefixScan (chatPrefix s)).mapM fun item => json.loads item.2 with
  | error err => exact Iff.rfl
  | ok ms => exact Iff.rfl

theorem Told.of_all (h : getHistory json s none engine = .ok (messagesOf log s)) : Told json s log engine := by
  refine ⟨h, fun n hn => ?_⟩
  have hmap := mapM_ok.2 (getHistory_ok.1 h)
  unfold getHistory
  rw [hmap]
  change Except.ok (if n ≤ 0 then [] else lastOf n (messagesOf log s)) = _
  rw [if_neg (by omega)]
  rfl

theorem mem_prefixScan {pre k v : Bytes} : (k, v) ∈ engine.prefixScan pre ↔ engine.get k = some v ∧ pre <+: k := by
  unfold Engine.prefixScan
  rw [OrderedMap.mem_scan, List.isPrefixOf_iff_prefix]

/-- A scan of a session shows turns of it and of nested sessions only. -/
theorem Chats.mem_scan (h : Chats json log engine) {k v : Bytes} :
    (k, v) ∈ engine.prefixScan (chatPrefix s) ↔ ∃ t, (t = s ∨ Nested s t) ∧
      ∃ (i : ℕ) (msg : ChatMessage τ δ), (messagesOf log t)[i]? = some msg ∧ k = turnKey t i ∧
      v = text json msg := by
  rw [mem_prefixScan]
  constructor
  · rintro ⟨hget, hpre⟩
    rcases h.only k v hget with ⟨t, rfl⟩ | ⟨t, i, rfl⟩
    · exact absurd hpre (not_chatPrefix_metaKey s t)
    · rw [h.turns t i, Option.map_eq_some_iff] at hget
      obtain ⟨msg, hmsg, hv⟩ := hget
      exact ⟨t, chatPrefix_turnKey.1 hpre, i, msg, hmsg, rfl, hv.symm⟩
  · rintro ⟨t, ht, i, msg, hmsg, rfl, rfl⟩
    refine ⟨?_, chatPrefix_turnKey.2 ht⟩
    rw [h.turns t i, hmsg]
    rfl

/-- **A scan of a session shows its turns in order** if no other session gets in between. -/
theorem Chats.scan (h : Chats json log engine) (hnest : ∀ t, Nested s t → messagesOf log t = [])
    (hlen : (messagesOf log s).length ≤ 10 ^ 8) : engine.prefixScan (chatPrefix s) =
      (messagesOf log s).mapIdx fun i msg => (turnKey s i, text json msg) := by
  refine OrderedMap.scan_ext ?_ fun k v => ?_
  · refine List.pairwise_iff_getElem.2 fun i j hi hj hij => ?_
    rw [List.getElem_mapIdx, List.getElem_mapIdx]
    rw [List.length_mapIdx] at hj
    exact turnKey_lt s hij (by omega)
  · have hscan := h.mem_scan (s := s) (k := k) (v := v)
    unfold Engine.prefixScan at hscan
    rw [← OrderedMap.mem_scan, hscan, List.mem_mapIdx]
    constructor
    · rintro ⟨i, hi, he⟩
      obtain ⟨rfl, rfl⟩ := Prod.mk.inj he
      exact ⟨s, Or.inl rfl, i, _, List.getElem?_eq_getElem hi, rfl, rfl⟩
    · rintro ⟨t, rfl | ht, i, msg, hmsg, rfl, rfl⟩
      · obtain ⟨hi, rfl⟩ := List.getElem?_eq_some_iff.1 hmsg
        exact ⟨i, hi, rfl⟩
      · rw [hnest t ht] at hmsg
        exact absurd hmsg (by simp)

theorem Chats.told (h : Chats json log engine) (hnest : ∀ t, Nested s t → messagesOf log t = [])
    (hlen : (messagesOf log s).length ≤ 10 ^ 8) : Told json s log engine := by
  refine Told.of_all (getHistory_ok.2 ?_)
  rw [h.scan hnest hlen, List.forall₂_iff_get]
  refine ⟨List.length_mapIdx.symm, fun i hi _ => ?_⟩
  simp only [List.get_eq_getElem, List.getElem_mapIdx]
  exact json.loads_dumps (h.encoded s _ (List.getElem_mem hi))

/-! ### When it is told wrong -/

/-- A history of the right length leaves no room for another session. -/
theorem Chats.not_nested (h : Chats json log engine)
    (htold : getHistory json s none engine = .ok (messagesOf log s))
    {t : Bytes} (ht : Nested s t) : messagesOf log t = [] := by
  by_contra hne
  obtain ⟨msg₀, rest, hmsgs⟩ := List.exists_cons_of_ne_nil hne
  have hlen := (getHistory_ok.1 htold).length_eq
  set n := (messagesOf log s).length
  -- the keys of the session's own turns, and one more
  have hnodup : (turnKey t 0 :: (List.range n).map fun i : ℕ => turnKey s i).Nodup := by
    refine List.nodup_cons.2 ⟨fun hmem => ?_, ?_⟩
    · obtain ⟨i, -, hi⟩ := List.mem_map.1 hmem
      exact ht.ne (turnKey_inj (i := i) (j := 0) hi).1.symm
    · exact List.Nodup.map_on (fun i _ j _ hij => (turnKey_inj hij).2) List.nodup_range
  have hsub : turnKey t 0 :: (List.range n).map (fun i : ℕ => turnKey s i) ⊆
      (engine.prefixScan (chatPrefix s)).map Prod.fst := by
    intro k hk
    rcases List.mem_cons.1 hk with rfl | hk
    · exact List.mem_map.2 ⟨(_, text json msg₀), h.mem_scan.2
        ⟨t, Or.inr ht, 0, msg₀, by rw [hmsgs]; rfl, rfl, rfl⟩, rfl⟩
    · obtain ⟨i, hi, rfl⟩ := List.mem_map.1 hk
      have hi : i < (messagesOf log s).length := List.mem_range.1 hi
      exact List.mem_map.2 ⟨(_, text json (messagesOf log s)[i]), h.mem_scan.2
        ⟨s, Or.inl rfl, i, _, List.getElem?_eq_getElem hi, rfl, rfl⟩, rfl⟩
  have hle := (List.subperm_of_subset hnodup hsub).length_le
  simp only [List.length_cons, List.length_map, List.length_range] at hle
  omega

/-- Told right, different messages stand at the place of their number, and that is
possible for the first `10 ^ 8` only. -/
theorem Chats.length_le (h : Chats json log engine)
    (htold : getHistory json s none engine = .ok (messagesOf log s))
    (hnodup : (messagesOf log s).Nodup) : (messagesOf log s).length ≤ 10 ^ 8 := by
  have hloads := List.forall₂_iff_get.1 (getHistory_ok.1 htold)
  have hkey : ∀ (p : ℕ) (hp : p < (engine.prefixScan (chatPrefix s)).length),
      (engine.prefixScan (chatPrefix s))[p].1 = turnKey s p := by
    intro p hp
    obtain ⟨t, ht, i, msg, hmsg, hk, hv⟩ := h.mem_scan.1 (List.getElem_mem hp)
    rcases ht with rfl | ht
    · have hload := hloads.2 p (by rw [hloads.1]; exact hp) hp
      simp only [List.get_eq_getElem] at hload hk hv
      obtain ⟨hi, rfl⟩ := List.getElem?_eq_some_iff.1 hmsg
      rw [hv, json.loads_dumps (h.encoded t _ (List.getElem_mem hi))] at hload
      rw [hk, (List.Nodup.getElem_inj_iff hnodup).1 (Except.ok.inj hload)]
    · rw [h.not_nested htold ht] at hmsg
      exact absurd hmsg (by simp)
  by_contra hlong
  rw [hloads.1] at hlong
  have hasc := OrderedMap.scan_ascending (fun k => (chatPrefix s).isPrefixOf k) engine
  have hlt := List.pairwise_iff_getElem.1 hasc 10000001 (10 ^ 8)
    (show 10000001 < (engine.prefixScan (chatPrefix s)).length by omega)
    (show 10 ^ 8 < (engine.prefixScan (chatPrefix s)).length by omega) (by norm_num)
  change (engine.prefixScan (chatPrefix s))[10000001].1 < (engine.prefixScan (chatPrefix s))[10 ^ 8].1 at hlt
  rw [hkey, hkey] at hlt
  exact absurd hlt (lt_asymm (turnKey_wrong_order s))

/-! ### For every run of calls -/

/-- Calls that return append their messages in order. -/
theorem Chats.log_foldl {calls : List (AppendCall τ δ)}
    (hplain : ∀ c ∈ calls, ∃ payload, json.dumps c.message = .ok payload) : ∀ {st : Log τ δ × Engine},
    Chats json st.1 st.2 →
      (calls.foldl (ChatHistory.appendOne json) st).1 = st.1 ++ calls.map fun c => (c.session, c.message) := by
  induction calls with
  | nil => exact fun _ => (List.append_nil _).symm
  | cons c calls ih =>
    intro st h
    obtain ⟨payload, hp⟩ := hplain c List.mem_cons_self
    have hone := h.appendOne_eq c
    rw [hp] at hone
    rw [List.foldl_cons, ih (fun x hx => hplain x (List.mem_cons_of_mem _ hx)) (h.appendOne c), hone,
      List.map_cons]
    simp

/-- The sessions of the messages are those of calls. -/
theorem Chats.sessions_foldl {calls : List (AppendCall τ δ)} : ∀ {st : Log τ δ × Engine}, Chats json st.1 st.2 →
    List.Sublist ((calls.foldl (ChatHistory.appendOne json) st).1.map Prod.fst)
      (st.1.map Prod.fst ++ calls.map AppendCall.session) := by
  induction calls with
  | nil => exact fun _ => by simp
  | cons c calls ih =>
    intro st h
    have hone := h.appendOne_eq c
    refine (ih (h.appendOne c)).trans ?_
    rw [hone, List.map_cons]
    split
    · simp
    · exact List.Sublist.append_left (List.sublist_cons_self _ _) _

theorem map_mapIdx {α β γ : Type} (f : ℕ → α → β) (g : β → γ) (l : List α) :
    (l.mapIdx f).map g = l.mapIdx fun i a => g (f i a) := by
  refine List.ext_getElem (by simp) fun i _ _ => ?_
  simp

theorem mapIdx_self {α : Type} (l : List α) : l.mapIdx (fun _ a => a) = l :=
  List.ext_getElem (by simp) fun i _ _ => by simp

/-- Messages that differ in their content: the number of the call. -/
def plainCalls (now : τ) (ids : List Bytes) : List (AppendCall τ δ) :=
  ids.mapIdx fun i s => ⟨s, [], decimal i, none, now⟩

theorem log_plainCalls (json : MessageJson τ δ) (now : τ) (ids : List Bytes) :
    (appendAll json (plainCalls now ids)).1 = ids.mapIdx fun i s => (s, ⟨[], decimal i, now, ∅⟩) := by
  have hplain : ∀ c ∈ plainCalls (δ := δ) now ids, ∃ payload, json.dumps c.message = .ok payload := by
    intro c hc
    obtain ⟨i, hi, rfl⟩ := List.mem_mapIdx.1 hc
    exact json.dumps_plain _ rfl
  unfold appendAll
  rw [Chats.log_foldl hplain chats_empty]
  unfold plainCalls
  rw [List.nil_append, map_mapIdx]
  rfl

theorem nodup_plainCalls (json : MessageJson τ δ) (now : τ) (ids : List Bytes) (s : Bytes) :
    (messagesOf (appendAll json (plainCalls now ids)).1 s).Nodup := by
  have hall : ((appendAll json (plainCalls now ids)).1.map Prod.snd).Nodup := by
    rw [log_plainCalls, map_mapIdx]
    refine List.nodup_iff_injective_getElem.2 fun i j hij => ?_
    simp only [List.getElem_mapIdx, ChatMessage.mk.injEq] at hij
    have hdec : i.1 = j.1 := by
      rw [← digitsValue_decimal i.1, hij.2.1, digitsValue_decimal]
    exact Fin.ext hdec
  exact hall.sublist (List.Sublist.map _ List.filter_sublist)

/-- **Whatever the messages are**, the history of a session is told right if and only if
no session appended to is nested in it and it has at most `10 ^ 8` messages. -/
theorem told_iff (json : MessageJson τ δ) (now : τ) (ids : List Bytes) (s : Bytes) :
    (∀ calls : List (AppendCall τ δ), calls.map AppendCall.session = ids →
      Told json s (appendAll json calls).1 (appendAll json calls).2) ↔
      (∀ t ∈ ids, ¬ Nested s t) ∧ ids.count s ≤ 10 ^ 8 := by
  constructor
  · intro hall
    -- one message a call under the given ids is a history that both conditions can be read off
    have hids : (plainCalls (δ := δ) now ids).map AppendCall.session = ids := by
      unfold plainCalls
      rw [map_mapIdx]
      exact mapIdx_self ids
    have htold := (hall (plainCalls now ids) hids).all
    have hchats := chats_appendAll json (plainCalls (δ := δ) now ids)
    have hcount : ∀ t, (messagesOf (appendAll json (plainCalls now ids)).1 t).length = ids.count t := by
      intro t
      rw [length_messagesOf, log_plainCalls, map_mapIdx, mapIdx_self]
    refine ⟨fun t ht hnested => ?_, ?_⟩
    · have hnil := hchats.not_nested htold hnested
      have hzero := hcount t
      rw [hnil, List.length_nil, eq_comm, List.count_eq_zero] at hzero
      exact hzero ht
    · have hle := hchats.length_le htold (nodup_plainCalls json now ids s)
      rwa [hcount] at hle
  · rintro ⟨hnest, hlen⟩ calls rfl
    have hchats := chats_appendAll json calls
    have hsub : List.Sublist ((appendAll json calls).1.map Prod.fst) (calls.map AppendCall.session) := by
      have hempty : Chats json (([], OrderedMap.empty) : Log τ δ × Engine).1
          (([], OrderedMap.empty) : Log τ δ × Engine).2 :=
        chats_empty
      exact Chats.sessions_foldl hempty
    refine hchats.told (fun t ht => ?_) ?_
    · refine List.length_eq_zero_iff.1 ?_
      rw [length_messagesOf, List.count_eq_zero]
      exact fun hmem => hnest t (hsub.subset hmem) ht
    · rw [length_messagesOf]
      exact (hsub.count_le s).trans hlen

/-- A session and one nested in it. -/
def nestedCalls : List (AppendCall Unit (List Bytes)) :=
  [⟨bytes "a", bytes "user", bytes "hello", none, ()⟩, ⟨bytes "a:b", bytes "user", bytes "secret", none, ()⟩]

/-- Not every history is told right. -/
theorem told_fails : ¬ ∀ (calls : List (AppendCall Unit (List Bytes))) (s : Bytes),
    Told plainJson s (appendAll plainJson calls).1 (appendAll plainJson calls).2 := by
  intro hall
  have hmsgs : messagesOf (appendAll plainJson nestedCalls).1 (bytes "a:b") =
      [⟨bytes "user", bytes "secret", (), []⟩] := by decide +kernel
  have hnil := (chats_appendAll plainJson nestedCalls).not_nested (hall nestedCalls (bytes "a")).all
    (t := bytes "a:b") (by decide)
  rw [hmsgs] at hnil
  exact List.cons_ne_nil _ _ hnil

/-! ## Clearing a session -/

/-- Clearing `s` leaves what is stored of `t` and removes what is stored of `s`. -/
structure ClearsOnly (s t : Bytes) (engine : Engine) : Prop where
  turns : ∀ i : ℕ, (clearSession s engine).get (turnKey t i) = engine.get (turnKey t i)
  counter : (clearSession s engine).get (metaKey t) = engine.get (metaKey t)
  cleared : ∀ i : ℕ, (clearSession s engine).get (turnKey s i) = none
  clearedCounter : (clearSession s engine).get (metaKey s) = none

theorem get_clearSession (s k : Bytes) (engine : Engine) : (clearSession s engine).get k =
    if metaKey s = k ∨ chatPrefix s <+: k then none else engine.get k := by
  unfold clearSession Engine.prefixScan
  rw [OrderedMap.get_delete, OrderedMap.get_deleteAll_scan]
  by_cases hmeta : metaKey s = k
  · rw [if_pos hmeta, if_pos (Or.inl hmeta)]
  · rw [if_neg hmeta]
    simp only [List.isPrefixOf_iff_prefix, hmeta, false_or]

/-- **Clearing a session leaves another one alone** if and only if that one is not nested
in it or has no message. -/
theorem clearsOnly_iff {s t : Bytes} (hst : s ≠ t) (engine : Engine) :
    ClearsOnly s t engine ↔ (Nested s t → ∀ i : ℕ, engine.get (turnKey t i) = none) := by
  have hturn : ∀ i : ℕ, (clearSession s engine).get (turnKey t i) =
      if Nested s t then none else engine.get (turnKey t i) := by
    intro i
    rw [get_clearSession]
    simp only [chatPrefix_turnKey, metaKey_ne_turnKey, Ne.symm hst, false_or]
  constructor
  · intro h hnested i
    rw [← h.turns i, hturn i, if_pos hnested]
  · intro h
    refine ⟨fun i => ?_, ?_, fun i => ?_, ?_⟩
    · rw [hturn i]
      split
      · rename_i hnested
        exact (h hnested i).symm
      · rfl
    · rw [get_clearSession, if_neg]
      rintro (hmeta | hpre)
      · exact hst (metaKey_inj hmeta)
      · exact not_chatPrefix_metaKey s t hpre
    · rw [get_clearSession, if_pos (Or.inr (chatPrefix_turnKey.2 (Or.inl rfl)))]
    · rw [get_clearSession, if_pos (Or.inl rfl)]

/-- Two sessions with messages, neither nested in the other. -/
def siblingCalls : List (AppendCall Unit (List Bytes)) :=
  [⟨bytes "a", bytes "user", bytes "hello", none, ()⟩, ⟨bytes "b", bytes "user", bytes "bye", none, ()⟩,
    ⟨bytes "b", bytes "assistant", bytes "so long", none, ()⟩]

/-- One is cleared, and the two messages of the other are still there. -/
theorem clearsOnly_iff_siblings : ClearsOnly (bytes "a") (bytes "b") (appendAll plainJson siblingCalls).2 ∧
    ∀ i : ℕ, i < 2 → ((clearSession (bytes "a") (appendAll plainJson siblingCalls).2).get
      (turnKey (bytes "b") i)).isSome := by
  have hclears := (clearsOnly_iff (s := bytes "a") (t := bytes "b") (by decide)
    (appendAll plainJson siblingCalls).2).2
    fun h => absurd h (by decide)
  refine ⟨hclears, fun i hi => ?_⟩
  rw [hclears.turns i]
  revert i
  decide +kernel

/-- A call of the history's methods that change the store. -/
inductive ChatCall (τ δ : Type) where
  | append (c : AppendCall τ δ)
  | clear (s : Bytes)

def callOne (json : MessageJson τ δ) (engine : Engine) : ChatCall τ δ → Engine
  | .append c => (appendMessage json c.session c.role c.content c.metadata c.now engine).2
  | .clear s => clearSession s engine

/-- The store after calls on an empty one. -/
def callAll (json : MessageJson τ δ) (calls : List (ChatCall τ δ)) : Engine :=
  calls.foldl (callOne json) OrderedMap.empty

/-- Clearing a session takes one nested in it along. -/
theorem clearsOnly_fails : ¬ ∀ (calls : List (ChatCall Unit (List Bytes))) (s t : Bytes), s ≠ t →
    ClearsOnly s t (callAll plainJson calls) := by
  intro hall
  have hkept := (hall (nestedCalls.map .append) (bytes "a") (bytes "a:b") (by decide)).turns 0
  exact absurd hkept (by decide +kernel)

end ChatHistory

end LsmTree
