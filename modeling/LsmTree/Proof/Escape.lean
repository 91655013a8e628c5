import LsmTree.Spec.Wal

/-!
# The string escape of the log

* `unescape_escape`: `unescapeJSON` undoes `escapeJSON`, for every byte string.
* `newline_notMem_escape`: escaped text has no newline, so a record is one line.
* `escape_dquote`: a double quote inside escaped text is the second half of an
  escaped quote, so the backslashes before it are odd in number; those at the end
  of the text are even in number (`even_trailing`). Hence the scan for the ending
  quote stops exactly at the end of the text (`endQuote_escape`).
* `occ_escape`: a quoted field name can start inside quoted text only where the
  text ends with that name after a quote.
-/

namespace LsmTree.WAL

open Base

/-! ## Escaping one byte -/

@[simp] theorem escape_nil : escapeJSON [] = [] := rfl

@[simp] theorem escape_cons (c : UInt8) (s : Bytes) :
    escapeJSON (c :: s) = escapeByte c ++ escapeJSON s := rfl

@[simp] theorem escape_append (s t : Bytes) :
    escapeJSON (s ++ t) = escapeJSON s ++ escapeJSON t := by
  simp [escapeJSON]

/-- A byte that is written as it is. -/
def Plain (c : UInt8) : Prop := escapeByte c = [c]

instance (c : UInt8) : Decidable (Plain c) := inferInstanceAs (Decidable (_ = _))

/-- The three shapes of an escaped byte: itself, a backslash and one more byte, or a
`\u` escape. -/
theorem escapeByte_cases (c : UInt8) :
    (escapeByte c = [c] ∧ c ≠ dquote ∧ c ≠ backslash ∧ 32 ≤ c) ∨
      (∃ n, escapeByte c = [backslash, n] ∧ n ≠ 117 ∧ n ≠ newline ∧ unescapeChar n = c ∧
        (n = dquote ↔ c = dquote) ∧ (n = backslash ↔ c = backslash)) ∨
      (escapeByte c = backslash :: 117 :: hex4 c.toNat ∧ c < 32) := by
  unfold escapeByte
  split_ifs with h1 h2 h3 h4 h5 h6 h7 h8
  all_goals first
    | (subst_vars; exact Or.inr (Or.inl ⟨_, rfl, by decide⟩))
    | exact Or.inr (Or.inr ⟨rfl, h8⟩)
    | exact Or.inl ⟨rfl, h1, h2, by simpa using h8⟩

/-- The `\u` escape of a control character stands for it, and has no quote, backslash
or newline among its digits. -/
theorem hex4_control (c : UInt8) (h : c < 32) :
    unescapeUnicode (hex4 c.toNat) = [c] ∧ dquote ∉ hex4 c.toNat ∧ backslash ∉ hex4 c.toNat ∧
      newline ∉ hex4 c.toNat := by
  have hall : ∀ n : Fin 32, unescapeUnicode (hex4 n) = [UInt8.ofNat n] ∧ dquote ∉ hex4 n ∧
      backslash ∉ hex4 n ∧ newline ∉ hex4 n := by decide
  have hc : c.toNat < 32 := UInt8.lt_iff_toNat_lt.1 h
  have := hall ⟨c.toNat, hc⟩
  simpa using this

theorem unescape_plain {c : UInt8} (h : c ≠ backslash) (rest : Bytes) :
    unescapeJSON (c :: rest) = c :: unescapeJSON rest := by
  cases rest with
  | nil => rfl
  | cons d rest =>
    conv_lhs => unfold unescapeJSON
    rw [if_neg h]

theorem unescape_pair {n : UInt8} (h : n ≠ 117) (rest : Bytes) :
    unescapeJSON (backslash :: n :: rest) = unescapeChar n :: unescapeJSON rest := by
  conv_lhs => unfold unescapeJSON
  rw [if_pos rfl, if_neg h]

theorem unescape_unicode (a b c d : UInt8) (rest : Bytes) :
    unescapeJSON (backslash :: 117 :: a :: b :: c :: d :: rest) =
      unescapeUnicode [a, b, c, d] ++ unescapeJSON rest := by
  conv_lhs => unfold unescapeJSON
  rw [if_pos rfl, if_pos rfl]

theorem unescape_escapeByte (c : UInt8) (rest : Bytes) :
    unescapeJSON (escapeByte c ++ rest) = c :: unescapeJSON rest := by
  rcases escapeByte_cases c with ⟨h, -, hb, -⟩ | ⟨n, h, hu, -, hn, -, -⟩ | ⟨h, hc⟩
  · rw [h, List.singleton_append, unescape_plain hb]
  · rw [h, List.cons_append, List.singleton_append, unescape_pair hu, hn]
  · have hx := (hex4_control c hc).1
    unfold hex4 at hx
    rw [h, hex4]
    simp only [List.cons_append, List.nil_append]
    rw [unescape_unicode, hx]
    rfl

/-- **`UnescapeJSON` undoes `EscapeJSON`.** -/
theorem unescape_escape (s : Bytes) : unescapeJSON (escapeJSON s) = s := by
  induction s with
  | nil => rfl
  | cons c s ih => rw [escape_cons, unescape_escapeByte, ih]

theorem newline_notMem_escapeByte (c : UInt8) : newline ∉ escapeByte c := by
  intro hm
  rcases escapeByte_cases c with ⟨h, -, -, h32⟩ | ⟨n, h, -, hn, -, -, -⟩ | ⟨h, hc⟩
  · rw [h, List.mem_singleton] at hm
    subst hm
    exact absurd h32 (by decide)
  · rw [h] at hm
    rcases List.mem_cons.1 hm with hm | hm
    · exact absurd hm (by decide)
    · exact hn (List.mem_singleton.1 hm).symm
  · rw [h] at hm
    rcases List.mem_cons.1 hm with hm | hm
    · exact absurd hm (by decide)
    rcases List.mem_cons.1 hm with hm | hm
    · exact absurd hm (by decide)
    · exact (hex4_control c hc).2.2.2 hm

/-- Escaped text stays on one line. -/
theorem newline_notMem_escape (s : Bytes) : newline ∉ escapeJSON s := by
  unfold escapeJSON
  rw [List.mem_flatMap]
  rintro ⟨c, -, hc⟩
  exact newline_notMem_escapeByte c hc

/-- Escaped text never starts with a quote. -/
theorem escapeByte_head (c : UInt8) (t u : Bytes) : escapeByte c ++ t ≠ dquote :: u := by
  intro hu
  rcases escapeByte_cases c with ⟨h, hq, -, -⟩ | ⟨n, h, -⟩ | ⟨h, -⟩
  · rw [h] at hu
    exact hq (List.cons.inj hu).1
  · rw [h] at hu
    exact absurd (List.cons.inj hu).1 (by decide)
  · rw [h] at hu
    exact absurd (List.cons.inj hu).1 (by decide)

/-! ## Quotes inside escaped text -/

/-- A quote in escaped text comes from a quote in the text, right after the escape of
what stands before it and a backslash. -/
theorem escape_dquote {s : Bytes} : ∀ {i : ℕ}, (escapeJSON s)[i]? = some dquote →
    ∃ s₁ s₂, s = s₁ ++ dquote :: s₂ ∧ i = (escapeJSON s₁).length + 1 := by
  induction s with
  | nil => intro i h; simp at h
  | cons c s ih =>
    intro i h
    rw [escape_cons] at h
    rcases lt_or_ge i (escapeByte c).length with hlt | hge
    · rw [List.getElem?_append_left hlt] at h
      have hm := List.mem_of_getElem? h
      rcases escapeByte_cases c with ⟨he, hq, -, -⟩ | ⟨n, he, -, -, -, hn, -⟩ | ⟨he, hc⟩
      · rw [he, List.mem_singleton] at hm
        exact absurd hm.symm hq
      · rw [he] at h hlt
        match i, hlt with
        | 0, _ => exact absurd (Option.some.inj h) (by decide)
        | 1, _ =>
          have hc := hn.1 (Option.some.inj h)
          exact ⟨[], s, by rw [hc]; rfl, rfl⟩
      · rw [he] at hm
        rcases List.mem_cons.1 hm with hm | hm
        · exact absurd hm (by decide)
        rcases List.mem_cons.1 hm with hm | hm
        · exact absurd hm (by decide)
        · exact absurd hm (hex4_control c hc).2.1
    · rw [List.getElem?_append_right hge] at h
      obtain ⟨s₁, s₂, hs, hi⟩ := ih h
      refine ⟨c :: s₁, s₂, by rw [hs]; rfl, ?_⟩
      rw [escape_cons, List.length_append]
      omega

/-- How many backslashes a text ends with. -/
def trailing (s : Bytes) : ℕ := (s.reverse.takeWhile (· == backslash)).length

@[simp] theorem trailing_nil : trailing [] = 0 := rfl

theorem trailing_snoc (s : Bytes) (c : UInt8) :
    trailing (s ++ [c]) = if c = backslash then trailing s + 1 else 0 := by
  unfold trailing
  rw [List.reverse_append, List.reverse_singleton, List.singleton_append]
  by_cases h : c = backslash <;> simp [h]

/-- A text followed by one that does not end in a backslash. -/
theorem trailing_append_of_notMem (s : Bytes) {t : Bytes} (ht : t ≠ []) (h : backslash ∉ t) :
    trailing (s ++ t) = 0 := by
  obtain ⟨u, c, rfl⟩ := (List.eq_nil_or_concat t).resolve_left ht
  have hc : c ≠ backslash := fun e => h (by simp [e])
  rw [List.concat_eq_append, ← List.append_assoc, trailing_snoc, if_neg hc]

/-- Escaped text ends with an even number of backslashes. -/
theorem even_trailing (s : Bytes) : trailing (escapeJSON s) % 2 = 0 := by
  induction s using List.reverseRecOn with
  | nil => rfl
  | append_singleton s c ih =>
    rw [escape_append, escape_cons, escape_nil, List.append_nil]
    rcases escapeByte_cases c with ⟨h, -, hb, -⟩ | ⟨n, h, -, -, -, -, hb⟩ | ⟨h, hc⟩
    · rw [h, trailing_snoc, if_neg hb]
    · rw [h, List.append_cons, trailing_snoc]
      split
      · rw [trailing_snoc, if_pos rfl]
        omega
      · rfl
    · have hd := hex4_control c hc
      have hsplit : escapeJSON s ++ escapeByte c =
          (escapeJSON s ++ [backslash, 117]) ++ hex4 c.toNat := by
        rw [h]
        simp
      rw [hsplit, trailing_append_of_notMem _ (by simp [hex4]) hd.2.2.1]

/-! ## The ending quote -/

/-- The characters before index `p` are counted back to `start`. -/
theorem slashes_eq (line : Bytes) (start : ℕ) : ∀ p, start ≤ p → p ≤ line.length →
    slashes line start p = trailing ((line.take p).drop start) := by
  intro p
  induction p with
  | zero =>
    intro h _
    simp [slashes]
  | succ p ih =>
    intro h1 h2
    unfold slashes
    rcases Nat.eq_or_lt_of_le h1 with he | hlt
    · rw [if_neg (by omega), List.drop_eq_nil_of_le (by rw [List.length_take]; omega)]
      rfl
    have hp : p < line.length := by omega
    have htake : (line.take (p + 1)).drop start = (line.take p).drop start ++ [(line)[p]] := by
      rw [List.take_add_one, List.getElem?_eq_getElem hp, Option.toList_some,
        List.drop_append_of_le_length (by rw [List.length_take]; omega)]
    rw [htake, trailing_snoc, List.getElem?_eq_getElem hp, ih (by omega) (by omega)]
    by_cases hc : (line)[p] = backslash
    · rw [if_pos ⟨hlt, by rw [hc]⟩, if_pos hc]
    · rw [if_neg (fun h => hc (Option.some.inj h.2)), if_neg hc]

/-- Index `p` holds the quote that ends a field starting at `start`. -/
def IsEnd (line : Bytes) (start p : ℕ) : Prop :=
  (line)[p]? = some dquote ∧ slashes line start p % 2 = 0

/-- The scan stops at the first ending quote, or past the characters it may look at. -/
theorem endQuote_spec (line : Bytes) (start : ℕ) : ∀ n e,
    e ≤ endQuote line start n e ∧ endQuote line start n e ≤ e + n ∧
      (∀ p, e ≤ p → p < endQuote line start n e → ¬ IsEnd line start p) ∧
      (endQuote line start n e < e + n → IsEnd line start (endQuote line start n e)) := by
  intro n
  induction n with
  | zero =>
    intro e
    unfold endQuote
    exact ⟨le_rfl, by omega, fun p h1 h2 => by omega, fun h => by omega⟩
  | succ n ih =>
    intro e
    unfold endQuote
    split
    · rename_i h
      exact ⟨le_rfl, by omega, fun p h1 h2 => by omega, fun _ => h⟩
    · rename_i h
      obtain ⟨h1, h2, h3, h4⟩ := ih (e + 1)
      refine ⟨by omega, by omega, fun p hp1 hp2 => ?_, fun hlt => h4 (by omega)⟩
      rcases Nat.eq_or_lt_of_le hp1 with he | hgt
      · subst he
        exact h
      · exact h3 p hgt hp2

theorem endQuote_eq {line : Bytes} {start n e q : ℕ} (hq : IsEnd line start q) (h1 : e ≤ q)
    (h2 : q < e + n) (h3 : ∀ p, e ≤ p → p < q → ¬ IsEnd line start p) :
    endQuote line start n e = q := by
  obtain ⟨s1, s2, s3, s4⟩ := endQuote_spec line start n e
  rcases lt_trichotomy (endQuote line start n e) q with hlt | heq | hgt
  · exact absurd (s4 (by omega)) (h3 _ s1 hlt)
  · exact heq
  · exact absurd hq (s3 q h1 hgt)

/-- **The scan ends at the end of the escaped text**, whatever follows. -/
theorem endQuote_escape (pre s rest : Bytes) :
    endQuote (pre ++ escapeJSON s ++ dquote :: rest) pre.length
        ((pre ++ escapeJSON s ++ dquote :: rest).length - pre.length) pre.length =
      pre.length + (escapeJSON s).length := by
  set line := pre ++ escapeJSON s ++ dquote :: rest with hline
  have hlen : line.length = pre.length + (escapeJSON s).length + (rest.length + 1) := by
    simp only [hline, List.length_append, List.length_cons]
  -- the characters from the start of the field up to an index inside it
  have hcut : ∀ i, i ≤ (escapeJSON s).length →
      (line.take (pre.length + i)).drop pre.length = (escapeJSON s).take i := fun i hi => by
    rw [hline, List.append_assoc, List.take_append, List.take_of_length_le (by omega),
      List.drop_append_of_le_length le_rfl, List.drop_length, List.nil_append,
      Nat.add_sub_cancel_left, List.take_append_of_le_length hi]
  have hsl : ∀ i, i ≤ (escapeJSON s).length →
      slashes line pre.length (pre.length + i) = trailing ((escapeJSON s).take i) := fun i hi => by
    rw [slashes_eq line _ _ (by omega) (by omega), hcut i hi]
  apply endQuote_eq
  · refine ⟨?_, ?_⟩
    · rw [hline, List.getElem?_append_right (by simp)]
      simp
    · rw [hsl _ le_rfl, List.take_length]
      exact even_trailing s
  · omega
  · omega
  · intro p hp1 hp2 hend
    obtain ⟨i, rfl⟩ := Nat.exists_eq_add_of_le hp1
    have hi : i < (escapeJSON s).length := by omega
    obtain ⟨hq, hev⟩ := hend
    rw [hline, List.append_assoc, List.getElem?_append_right (by omega), Nat.add_sub_cancel_left,
      List.getElem?_append_left hi] at hq
    -- the quote inside is escaped: one more backslash than an escaped text ends with
    obtain ⟨s₁, s₂, hs, hi'⟩ := escape_dquote hq
    rw [hsl i hi.le, hs, hi', escape_append, List.take_append, List.take_of_length_le (by omega)] at hev
    have h1 : (escapeJSON s₁).length + 1 - (escapeJSON s₁).length = 1 := by omega
    have h2 : (escapeJSON (dquote :: s₂)).take 1 = [backslash] := rfl
    rw [h1, h2, trailing_snoc, if_pos rfl] at hev
    have := even_trailing s₁
    omega

/-! ## Field names inside quoted text -/

theorem Plain.ne {c : UInt8} (h : Plain c) : c ≠ backslash ∧ c ≠ dquote := by
  constructor <;> rintro rfl <;> exact absurd h (by decide)

/-- A plain text is its own escape. -/
theorem escape_plain {name : Bytes} (h : ∀ c ∈ name, Plain c) : escapeJSON name = name := by
  induction name with
  | nil => rfl
  | cons n name ih =>
    rw [escape_cons, h n List.mem_cons_self, ih fun c hc => h c (List.mem_cons_of_mem _ hc)]
    rfl

/-- A plain name followed by a quote can be read off an escaped text only if it is the
whole text. -/
theorem name_prefix_escape {name : Bytes} (hname : ∀ c ∈ name, Plain c) :
    ∀ {s rest u : Bytes}, name ++ dquote :: u = escapeJSON s ++ dquote :: rest → s = name := by
  induction name with
  | nil =>
    intro s rest u hu
    cases s with
    | nil => rfl
    | cons c s =>
      rw [escape_cons, List.append_assoc] at hu
      exact absurd hu.symm (escapeByte_head c _ _)
  | cons n name ih =>
    intro s rest u hu
    obtain ⟨hn1, hn2⟩ := (hname n List.mem_cons_self).ne
    cases s with
    | nil => exact absurd (List.cons.inj hu).1 hn2
    | cons c s =>
      rw [escape_cons, List.append_assoc] at hu
      rcases escapeByte_cases c with ⟨he, -, -, -⟩ | ⟨m, he, -⟩ | ⟨he, -⟩
      · rw [he] at hu
        obtain ⟨hc, ht⟩ := List.cons.inj hu
        rw [hc, ih (fun x hx => hname x (List.mem_cons_of_mem _ hx)) ht]
      · rw [he] at hu
        exact absurd (List.cons.inj hu).1 hn1
      · rw [he] at hu
        exact absurd (List.cons.inj hu).1 hn1

/-- **Where a quoted field name can start inside quoted text**: only where the text,
with its opening quote, ends with a quote and that name; the match then ends at the
closing quote. -/
theorem occ_escape {name : Bytes} (hname : ∀ c ∈ name, Plain c) {s rest : Bytes} {j : ℕ}
    (hj : j < (dquote :: escapeJSON s).length)
    (h : target name <+: ((dquote :: escapeJSON s) ++ dquote :: rest).drop j) :
    dquote :: name <:+ dquote :: s ∧ j + name.length = (escapeJSON s).length := by
  obtain ⟨u, hu⟩ := h
  unfold target at hu
  rw [List.cons_append, List.cons_append, List.append_assoc, List.singleton_append] at hu
  cases j with
  | zero =>
    have hs : s = name := name_prefix_escape hname (List.cons.inj hu).2
    subst hs
    exact ⟨List.suffix_refl _, by rw [escape_plain hname, Nat.zero_add]⟩
  | succ j =>
    rw [List.length_cons] at hj
    rw [List.cons_append, List.drop_succ_cons, List.drop_append_of_le_length (by omega)] at hu
    -- the match starts at a quote inside the text, which is an escaped one
    have hq : (escapeJSON s)[j]? = some dquote := by
      have := congrArg (fun l => l[0]?) hu
      rw [List.getElem?_append_left (by rw [List.length_drop]; omega), List.getElem?_drop] at this
      exact this.symm
    obtain ⟨s₁, s₂, hs, hi⟩ := escape_dquote hq
    have hdrop : (escapeJSON s).drop j = dquote :: escapeJSON s₂ := by
      have he : escapeJSON s = (escapeJSON s₁ ++ [backslash]) ++ dquote :: escapeJSON s₂ := by
        rw [hs, escape_append, escape_cons]
        simp [escapeByte]
      rw [he, hi, List.drop_left' (by simp)]
    rw [hdrop, List.cons_append] at hu
    have h2 : s₂ = name := name_prefix_escape hname (List.cons.inj hu).2
    have hlen := congrArg List.length hdrop
    rw [List.length_drop, List.length_cons, h2, escape_plain hname] at hlen
    refine ⟨?_, by omega⟩
    rw [hs, h2]
    exact (List.suffix_append s₁ _).trans (List.suffix_cons _ _)

end LsmTree.WAL
