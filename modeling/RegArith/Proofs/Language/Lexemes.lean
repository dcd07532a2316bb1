import RegArith.Proofs.Language.Exactness

/-!
# Words, signs and digits

The parsers of single tokens work on characters, so exactness starts one level lower than in the
grammar: `Lexes` relates a parser to the tokens whose characters it reads, without any layout.
Skipping layout behind such a parser, or on both sides of it, turns it into a parser that is exact
for the language of these tokens.

## Main definitions

* `Lexes` — a parser reads exactly the characters of some tokens

## Main results

* `gives_layout` — the layout production skips what `skip` skips
* `closed_spaced_skip` — layout in front of a token makes no difference
* `Lexes.spaced` — from characters to tokens
-/

namespace RegArith

open Grammar

variable {α β : Type}

/-! ### Layout -/

theorem skip_dropWhile (s : List Char) : skip (s.dropWhile (· != '\n')) = skipFrom true s := by
  induction s with
  | nil => rfl
  | cons c s ih =>
    by_cases hc : c = '\n'
    · subst hc; rfl
    · rw [List.dropWhile_cons_of_pos (by simpa using hc), ih, skipFrom, if_neg hc]

section Layout

variable {tokens : Array Char} {i : Nat}

theorem gives_hash_error (h : ∀ c ∈ (rest tokens i).head?, c ≠ '#') :
    comment.closed.Gives tokens i (.error ⟨i⟩) := by
  rw [comment, Parser.closed_map, Parser.closed_seq]
  exact (Attempt.gives_satisfy_error (by simpa using h)).seq_error.map _

theorem gives_layoutItem_of_settled (h : Settled (rest tokens i)) :
    (comment.alt blank).closed.Gives tokens i (.error ⟨i⟩) := by
  have hchar : (Parser.satisfy fun c => c.toNat ≤ 32 : Production Char).closed.Gives tokens i
      (.error ⟨i⟩) := Attempt.gives_satisfy_error fun c hc => by simpa using (h c hc).2
  have hblank : blank.closed.Gives tokens i (.error ⟨i⟩) := hchar.map fun _ => ()
  rw [Parser.closed_alt]
  exact ((gives_hash_error fun c hc => (h c hc).1).alt_error hblank).of_eq (by simp)

theorem gives_layoutItem_blank {c : Char} {s : List Char} (h : rest tokens i = c :: s)
    (hne : c ≠ '#') (hc : c.toNat ≤ 32) :
    (comment.alt blank).closed.Gives tokens i (.ok ⟨(), i + 1, i + 1⟩) := by
  have hblank : blank.closed.Gives tokens i (.ok ⟨(), i + 1, i + 1⟩) :=
    (Attempt.gives_satisfy_ok _ h (by simpa using hc)).map fun _ => ()
  rw [Parser.closed_alt]
  exact ((gives_hash_error (by simpa [h] using hne)).alt_error_ok hblank).of_eq (by simp)

theorem gives_layoutItem_comment {s : List Char} (h : rest tokens i = '#' :: s) :
    ∃ k, i < k ∧ k ≤ tokens.size ∧ rest tokens k = s.dropWhile (· != '\n') ∧
      (comment.alt blank).closed.Gives tokens i (.ok ⟨(), k, k⟩) := by
  have hrest := rest_succ h
  have hlen := congrArg List.length (List.takeWhile_append_dropWhile (p := (· != '\n')) (l := s))
  rw [← hrest, List.length_append, length_rest, hrest] at hlen
  have hsize : i < tokens.size := by
    have := congrArg List.length h
    rw [length_rest, List.length_cons] at this
    omega
  refine ⟨i + 1 + (s.takeWhile (· != '\n')).length, by omega, by omega, ?_, ?_⟩
  · rw [rest_add, hrest]
    exact (congrArg (List.drop _) List.takeWhile_append_dropWhile.symm).trans List.drop_left
  · rw [Parser.closed_alt, comment, Parser.closed_map, Parser.closed_seq]
    have hhash := Attempt.gives_satisfy_ok (σ := Nat) (· == '#') h (by simp)
    have hrun := Attempt.gives_star_satisfy (σ := Nat) (· != '\n') tokens (i + 1)
    rw [hrest] at hrun
    exact (((hhash.seq_ok hrun (Nat.le_refl _)).map fun _ => ()).alt_ok).of_eq
      (by simp [Output.map])

/-- The layout production skips what `skip` skips, and it fails nowhere further on. -/
theorem gives_layout (hi : i ≤ tokens.size) :
    ∃ m, i ≤ m ∧ m ≤ tokens.size ∧ rest tokens m = skip (rest tokens i) ∧
      layout.closed.Gives tokens i (.ok ⟨(), m, m⟩) := by
  have hadv : (comment.alt blank).closed.Advances := Parser.advances_closed _
  suffices h : ∃ vs m, i ≤ m ∧ m ≤ tokens.size ∧ rest tokens m = skip (rest tokens i) ∧
      (Parser.star (comment.alt blank)).closed.Gives tokens i (.ok ⟨vs, m, m⟩) by
    obtain ⟨vs, m, him, hm, hrest, hgives⟩ := h
    exact ⟨m, him, hm, hrest, hgives.map fun _ => ()⟩
  rw [Parser.closed_star]
  -- each item leaves less of the text
  induction hn : tokens.size - i using Nat.strongRecOn generalizing i with
  | ind n ih =>
  have hstep : ∀ k, i < k → k ≤ tokens.size → skip (rest tokens k) = skip (rest tokens i) →
      (comment.alt blank).closed.Gives tokens i (.ok ⟨(), k, k⟩) →
      ∃ vs m, i ≤ m ∧ m ≤ tokens.size ∧ rest tokens m = skip (rest tokens i) ∧
        (Attempt.star (comment.alt blank).closed).Gives tokens i (.ok ⟨vs, m, m⟩) := by
    intro k hik hk hskip hgives
    obtain ⟨vs, m, hkm, hm, hrest, hstar⟩ := ih (tokens.size - k) (by omega) hk rfl
    refine ⟨() :: vs, m, by omega, hm, hrest.trans hskip, fun j => ?_⟩
    rw [Attempt.star_of_step hadv (hgives j) hik (hstar j)]
    simp only [Nat.max_eq_right hkm]
  by_cases hset : Settled (rest tokens i)
  · exact ⟨[], i, Nat.le_refl i, hi, (skip_of_settled hset).symm, fun j =>
      Attempt.star_of_error hadv (gives_layoutItem_of_settled hset j)⟩
  · obtain ⟨c, s, hs⟩ : ∃ c s, rest tokens i = c :: s :=
      List.exists_cons_of_ne_nil fun h => hset (h ▸ settled_nil)
    by_cases hc : c = '#'
    · subst hc
      obtain ⟨k, hik, hk, hrest, hgives⟩ := gives_layoutItem_comment hs
      refine hstep k hik hk ?_ hgives
      rw [hrest, skip_dropWhile, hs]
      rfl
    · have hblank : c.toNat ≤ 32 := by
        rw [hs, settled_cons] at hset
        exact Nat.not_lt.1 fun h => hset ⟨hc, h⟩
      have hsize : i < tokens.size := by
        have := congrArg List.length hs
        rw [length_rest, List.length_cons] at this
        omega
      refine hstep (i + 1) (Nat.lt_succ_self i) hsize ?_ (gives_layoutItem_blank hs hc hblank)
      rw [rest_succ hs, hs, skip, skip, skipFrom.eq_def false (c :: s)]
      simp only [hc, hblank, ↓reduceIte]

end Layout

/-! ### Tokens read as characters -/

theorem within_of_gives {p : Production α} {tokens : Array Char} {i : Nat} {o : Outcome α}
    (h : p.closed.Gives tokens i o) : Outcome.Within i tokens.size o :=
  p.advances_closed (h (.new 0))

/-- On this input the outcome `o` at `i` is what the tokens in `T` ask for. A token is read where
`G` holds of the text behind it. -/
structure Lexed (T : Token → α → Prop) (G : List Char → Prop) (tokens : Array Char) (i : Nat)
    (o : Outcome α) : Prop where
  /-- What is read is one of the tokens. -/
  sound : ∀ x, o = .ok x → ∃ t, T t x.value ∧ rest tokens i = t.text ++ rest tokens x.next
  /-- Everything up to the furthest index begins one of the tokens. -/
  viable : ∃ t v, T t v ∧ between tokens i (Outcome.reach o) <+: t.text
  /-- What is one of the tokens is read. -/
  complete : ∀ t v s, T t v → rest tokens i = t.text ++ s → G s →
    ∃ x, o = .ok x ∧ x.value = v ∧ rest tokens x.next = s

/-- The production reads exactly the tokens in `T`, wherever `G` holds of the text behind. -/
def Lexes (p : Production α) (T : Token → α → Prop) (G : List Char → Prop) : Prop :=
  ∀ tokens i, i ≤ tokens.size → ∃ o, p.closed.Gives tokens i o ∧ Lexed T G tokens i o

theorem Lexes.congr {p : Production α} {T U : Token → α → Prop} {G : List Char → Prop}
    (h : Lexes p T G) (hTU : ∀ t v, T t v ↔ U t v) : Lexes p U G := by
  obtain rfl : T = U := funext fun t => funext fun v => propext (hTU t v)
  exact h

section Outcomes

variable {T : Token → α → Prop} {G : List Char → Prop} {tokens : Array Char} {i : Nat} {t : Token}
  {v : α} {s : List Char}

theorem Lexed.of_error {e : NoMatch}
    (hviable : ∃ t v, T t v ∧ between tokens i e.index <+: t.text)
    (hnone : ∀ t v s, T t v → rest tokens i = t.text ++ s → ¬G s) :
    Lexed T G tokens i (.error e) := by
  refine ⟨?_, hviable, fun t v s hT hs hG => (hnone t v s hT hs hG).elim⟩
  rintro x ⟨⟩

theorem Lexed.of_ok {x : Output α} (hT : T t x.value)
    (hs : rest tokens i = t.text ++ rest tokens x.next)
    (hviable : ∃ t v, T t v ∧ between tokens i x.furthest <+: t.text)
    (hall : ∀ u v s, T u v → rest tokens i = u.text ++ s → G s →
      x.value = v ∧ rest tokens x.next = s) :
    Lexed T G tokens i (.ok x) := by
  refine ⟨?_, hviable, fun u v s hT hs hG => ⟨x, rfl, hall u v s hT hs hG⟩⟩
  rintro y ⟨⟩
  exact ⟨t, hT, hs⟩

theorem Lexed.not_follow {e : NoMatch} (h : Lexed T G tokens i (.error e)) (hT : T t v)
    (hs : rest tokens i = t.text ++ s) : ¬G s := by
  intro hG
  obtain ⟨x, hx, -⟩ := h.complete t v s hT hs hG
  cases hx

theorem Lexed.unique {x : Output α} (h : Lexed T G tokens i (.ok x)) (hT : T t v)
    (hs : rest tokens i = t.text ++ s) (hG : G s) : x.value = v ∧ rest tokens x.next = s := by
  obtain ⟨y, hy, hval, hrest⟩ := h.complete t v s hT hs hG
  cases hy
  exact ⟨hval, hrest⟩

end Outcomes

theorem Lexes.map {p : Production α} {T : Token → α → Prop} {G : List Char → Prop}
    (h : Lexes p T G) (f : α → β) : Lexes (p.map f) (fun t v => ∃ x, T t x ∧ f x = v) G := by
  intro tokens i hi
  obtain ⟨o, hgives, hlex⟩ := h tokens i hi
  obtain ⟨t, v, hT, hpre⟩ := hlex.viable
  have hviable : ∃ t w, (∃ x, T t x ∧ f x = w) ∧ between tokens i (Outcome.reach o) <+: t.text :=
    ⟨t, f v, ⟨v, hT, rfl⟩, hpre⟩
  cases o with
  | error e =>
    refine ⟨_, hgives.map f, .of_error hviable ?_⟩
    rintro t v s ⟨x, hT, rfl⟩ hs
    exact hlex.not_follow hT hs
  | ok x =>
    obtain ⟨t, hT, hs⟩ := hlex.sound x rfl
    refine ⟨_, hgives.map f, .of_ok ⟨x.value, hT, rfl⟩ hs hviable ?_⟩
    rintro t v s ⟨y, hT, rfl⟩ hs hG
    obtain ⟨hval, hrest⟩ := hlex.unique hT hs hG
    exact ⟨congrArg f hval, hrest⟩

/-- Alternatives of which none continues another. -/
theorem Lexes.alt {p q : Production α} {T U : Token → α → Prop} {G : List Char → Prop}
    (hp : Lexes p T G) (hq : Lexes q U G)
    (hdisj : ∀ t u x y s s', T t x → U u y → t.text ++ s ≠ u.text ++ s') :
    Lexes (p.alt q) (fun t v => T t v ∨ U t v) G := by
  intro tokens i hi
  rw [Parser.closed_alt]
  obtain ⟨op, hgp, hlp⟩ := hp tokens i hi
  obtain ⟨oq, hgq, hlq⟩ := hq tokens i hi
  obtain ⟨t, v, hT, hpre⟩ := hlp.viable
  obtain ⟨u, w, hU, hpre'⟩ := hlq.viable
  cases op with
  | ok x =>
    obtain ⟨t', hT', hs⟩ := hlp.sound x rfl
    refine ⟨_, hgp.alt_ok, .of_ok (.inl hT') hs ⟨t, v, .inl hT, hpre⟩ ?_⟩
    rintro u y s (hT | hU) hs' hG
    · exact hlp.unique hT hs' hG
    · exact (hdisj t' u _ y _ s hT' hU (hs.symm.trans hs')).elim
  | error e =>
    have hvmax : ∃ t v, (T t v ∨ U t v) ∧
        between tokens i (max (Outcome.reach oq) e.index) <+: t.text := by
      rcases Nat.le_total (Outcome.reach oq) e.index with h | h
      · exact ⟨t, v, .inl hT, by rwa [Nat.max_eq_right h]⟩
      · exact ⟨u, w, .inr hU, by rwa [Nat.max_eq_left h]⟩
    cases oq with
    | ok y =>
      obtain ⟨u', hU', hs⟩ := hlq.sound y rfl
      refine ⟨_, hgp.alt_error_ok hgq, .of_ok (.inr hU') hs hvmax ?_⟩
      rintro u w s (hT | hU) hs' hG
      · exact (hlp.not_follow hT hs' hG).elim
      · exact hlq.unique hU hs' hG
    | error f =>
      refine ⟨_, hgp.alt_error hgq, .of_error ?_ ?_⟩
      · rwa [Nat.max_comm]
      · rintro u w s (hT | hU) hs
        · exact hlp.not_follow hT hs
        · exact hlq.not_follow hU hs

theorem between_add (tokens : Array Char) (i k : Nat) :
    between tokens i (i + k) = (rest tokens i).take k := by
  rw [between, Nat.add_sub_cancel_left]

/-- Once the text of a token is read, what is behind it is left. -/
theorem rest_of_text {tokens : Array Char} {i : Nat} {text s : List Char}
    (h : rest tokens i = text ++ s) : rest tokens (i + text.length) = s := by
  rw [rest_add, h, List.drop_left]

/-- A word reads the token that is written like it. -/
theorem lexes_word (t : Token) {text : String} (h : t.text = text.toList) :
    Lexes (Parser.word text) (fun u v => u = t ∧ v = text) fun _ => True := by
  intro tokens i hi
  refine ⟨_, Parser.gives_word text tokens i, ?_⟩
  unfold Parser.wordOutcome
  by_cases hp : text.toList.isPrefixOf (rest tokens i)
  · obtain ⟨s, hs⟩ := List.isPrefixOf_iff_prefix.1 hp
    rw [if_pos hp]
    refine .of_ok ⟨rfl, String.ofList_toList⟩ ?_ ⟨t, text, ⟨rfl, rfl⟩, ?_⟩ ?_
    · rw [Output.next_map, rest_of_text hs.symm, h, hs]
    · have hread : between tokens i (i + text.toList.length) = t.text := by
        rw [between_add, ← hs, List.take_left, h]
      exact ⟨[], (List.append_nil _).trans hread⟩
    · rintro u v r ⟨rfl, rfl⟩ hr -
      rw [h] at hr
      exact ⟨String.ofList_toList, rest_of_text hr⟩
  · rw [if_neg hp]
    refine .of_error ⟨t, text, ⟨rfl, rfl⟩, ?_⟩ ?_
    · change between tokens i (i + commonPrefixLength text.toList (rest tokens i)) <+: t.text
      rw [between_add, take_commonPrefixLength, h]
      exact List.take_prefix _ _
    · rintro u v r ⟨rfl, rfl⟩ hr -
      rw [hr, h, List.isPrefixOf_iff_prefix] at hp
      exact absurd (List.prefix_append _ _) hp

/-- A single character reads the token that consists of it. -/
theorem lexes_single (t : Token) {c : Char} (h : t.text = [c]) :
    Lexes (Parser.single c) (fun u v => u = t ∧ v = c) fun _ => True := by
  intro tokens i hi
  by_cases hc : (rest tokens i).head? = some c
  · obtain ⟨s, hs⟩ := List.head?_eq_some_iff.1 hc
    refine ⟨.ok ⟨c, i + 1, i + 1⟩, Attempt.gives_satisfy_ok _ hs (by simp),
      .of_ok ⟨rfl, rfl⟩ ?_ ⟨t, c, ⟨rfl, rfl⟩, ?_⟩ ?_⟩
    · rw [rest_succ hs, h, hs]
      rfl
    · rw [between_add, hs, h]
      exact List.prefix_refl _
    · rintro u v r ⟨rfl, rfl⟩ hr -
      rw [h] at hr
      exact ⟨rfl, rest_succ hr⟩
  · have hfail : (Attempt.satisfy (· == c) : Attempt Nat Char Char).Gives tokens i
        (.error ⟨i⟩) := by
      refine Attempt.gives_satisfy_error fun d hd hdc => ?_
      rw [eq_of_beq hdc] at hd
      exact hc hd
    refine ⟨_, hfail, .of_error ⟨t, c, ⟨rfl, rfl⟩, ?_⟩ ?_⟩
    · rw [between, Nat.sub_self, List.take_zero]
      exact List.nil_prefix
    · rintro u v r ⟨rfl, rfl⟩ hr -
      exact absurd (by rw [hr, h]; rfl) hc

/-- Whether a character is a decimal digit. -/
abbrev isDecimal (c : Char) : Bool := '0' ≤ c && c ≤ '9'

/-- The text does not start with a character of the given kind. -/
def Avoids (P : Char → Bool) (s : List Char) : Prop := ∀ c ∈ s.head?, ¬P c

theorem avoids_cons {P : Char → Bool} {c : Char} {s : List Char} :
    Avoids P (c :: s) ↔ P c = false := by
  simp [Avoids]

theorem isDecimal_of_mem {d : DigitRun} {c : Char} (hc : c ∈ d.chars) : isDecimal c := by
  simpa [isDecimal] using d.isDigit c hc

/-- The longest run of digits at the start of a text with a digit there. -/
def DigitRun.ofStart (c : Char) (s : List Char) (hc : isDecimal c) : DigitRun where
  chars := c :: s.takeWhile isDecimal
  ne_nil := by simp
  isDigit := by
    intro d hd
    have h : isDecimal d := by
      rcases List.mem_cons.1 hd with rfl | hd
      · exact hc
      · exact List.all_eq_true.1 List.all_takeWhile d hd
    simpa [isDecimal] using h

/-- In front of no further digit, a token of digits is the longest run there is. -/
theorem takeWhile_chars_append (d : DigitRun) {s : List Char} (hs : Avoids isDecimal s) :
    (d.chars ++ s).takeWhile isDecimal = d.chars := by
  rw [List.takeWhile_append_of_pos fun c hc => isDecimal_of_mem hc]
  have hnil : s.takeWhile isDecimal = [] := by
    cases s with
    | nil => rfl
    | cons c s => exact List.takeWhile_cons_of_neg (hs c rfl)
  rw [hnil, List.append_nil]

/-- A run of digits reads the longest token of digits there is. -/
theorem lexes_digits :
    Lexes (Parser.plus (Parser.range '0' '9')) (fun t v => ∃ d, t = .digits d ∧ v = d.chars)
      (Avoids isDecimal) := by
  intro tokens i hi
  rw [Parser.closed_plus]
  by_cases hc : ∃ c s, rest tokens i = c :: s ∧ isDecimal c
  · obtain ⟨c, s, hs, hc⟩ := hc
    have hfirst := Attempt.gives_satisfy_ok (σ := Nat) isDecimal hs hc
    have hrun := Attempt.gives_star_satisfy (σ := Nat) isDecimal tokens (i + 1)
    rw [rest_succ hs] at hrun
    have hsplit : rest tokens i = (DigitRun.ofStart c s hc).chars ++ s.dropWhile isDecimal := by
      rw [hs, DigitRun.ofStart, List.cons_append, List.takeWhile_append_dropWhile]
    generalize hd : DigitRun.ofStart c s hc = d at hsplit
    have hchars : d.chars = c :: s.takeWhile isDecimal := by rw [← hd]; rfl
    have hnext := rest_of_text hsplit
    refine ⟨.ok ⟨d.chars, i + d.chars.length, i + d.chars.length⟩,
      ((hfirst.seq_ok hrun (Nat.le_refl _)).map fun x => x.1 :: x.2).of_eq ?_,
      .of_ok (t := .digits d) ⟨d, rfl, rfl⟩ ?_ ⟨.digits d, d.chars, ⟨d, rfl, rfl⟩, ?_⟩ ?_⟩
    · simp [Except.map, Output.map, hchars, Nat.add_assoc, Nat.add_comm 1]
    · rw [hnext]
      exact hsplit
    · rw [between_add, hsplit, List.take_left]
      exact List.prefix_refl _
    · rintro t v r ⟨d', rfl, rfl⟩ hr hG
      have heq : d'.chars = d.chars := by
        rw [← takeWhile_chars_append d' hG, hchars, ← List.takeWhile_cons_of_pos hc, ← hs, hr]
        rfl
      rw [hsplit, Token.text, heq, List.append_cancel_left_eq] at hr
      exact ⟨heq.symm, hnext.trans hr⟩
  · have hno : Avoids isDecimal (rest tokens i) := by
      intro c hcs hdec
      obtain ⟨s, hs⟩ := List.head?_eq_some_iff.1 hcs
      exact hc ⟨c, s, hs, hdec⟩
    have hfirst : (Attempt.satisfy isDecimal : Attempt Nat Char Char).Gives tokens i
        (.error ⟨i⟩) := Attempt.gives_satisfy_error hno
    refine ⟨_, hfirst.seq_error.map fun x => x.1 :: x.2, .of_error ?_ ?_⟩
    · refine ⟨.digits ⟨['0'], by simp, by simp⟩, ['0'], ⟨_, rfl, rfl⟩, ?_⟩
      change between tokens i i <+: _
      rw [between, Nat.sub_self, List.take_zero]
      exact List.nil_prefix
    · rintro t v s ⟨d, rfl, rfl⟩ hs -
      obtain ⟨c, cs, hd⟩ := List.exists_cons_of_ne_nil d.ne_nil
      refine absurd (isDecimal_of_mem (d := d) (c := c) (by simp [hd])) (hno c ?_)
      rw [hs]
      simp [Token.text, hd]

/-! ### Layout around tokens -/

/-- The language of single tokens. -/
def Lang.token (T : Token → α → Prop) : Lang α := fun ts v => ∃ t, ts = [t] ∧ T t v

section Spaced

variable {T : Token → α → Prop} {F G : List Char → Prop} {tokens : Array Char} {i : Nat}

theorem viable_token_of_start {w : List Char} {t : Token} {v : α} (hT : T t v)
    (hw : w <+: t.text) : Viable (Lang.token T) w := by
  obtain ⟨w', hw⟩ := hw
  refine ⟨w', [t], v, ⟨t, rfl, hT⟩, fun r hr => ⟨r, by rw [hw], ?_⟩⟩
  exact skip_of_settled hr

theorem Lexed.exact_error {e : NoMatch} (h : Lexed T G tokens i (.error e))
    (hw : Outcome.Within i tokens.size (.error e : Outcome α)) (hFG : ∀ s, F (skip s) → G s) :
    Exact (Lang.token T) F tokens i (.error e) := by
  obtain ⟨t, v, hT, hpre⟩ := h.viable
  refine .of_error hw (viable_token_of_start hT hpre) ?_
  rintro ts v r ⟨t, rfl, hT⟩ ⟨s, hs, rfl⟩ hF
  exact h.not_follow hT hs (hFG s hF)

/-- A token with layout behind it can be gone on from. A comment that is still open is closed by
a line feed. -/
theorem viable_token_between {t : Token} {v : α} {n m : Nat} (hT : T t v) (hin : i ≤ n)
    (hnm : n ≤ m) (hs : rest tokens i = t.text ++ rest tokens n)
    (hrest : rest tokens m = skip (rest tokens n)) :
    Viable (Lang.token T) (between tokens i m) := by
  have htext : between tokens i n = t.text :=
    List.append_cancel_right ((between_append_rest tokens hin).trans hs)
  rw [← between_append_between tokens hin hnm, htext]
  refine ⟨['\n'], [t], v, ⟨t, rfl, hT⟩, fun r hr => ?_⟩
  refine ⟨between tokens n m ++ '\n' :: r, by simp [List.append_assoc], ?_⟩
  have hlayout : skip (between tokens n m ++ rest tokens m) = rest tokens m := by
    rw [between_append_rest tokens hnm, hrest]
  exact (skip_append_newline hlayout r).trans (skip_of_settled hr)

theorem Lexed.exact_ok {x : Output α} {m : Nat} (h : Lexed T G tokens i (.ok x))
    (hw : Outcome.Within i tokens.size (.ok x)) (hi : i ≤ tokens.size)
    (hFG : ∀ s, F (skip s) → G s) (hxm : x.next ≤ m) (hm : m ≤ tokens.size)
    (hrest : rest tokens m = skip (rest tokens x.next)) :
    Exact (Lang.token T) F tokens i (.ok ⟨x.value, m, max x.furthest m⟩) := by
  simp only [Outcome.within_ok] at hw
  obtain ⟨t, hT, hs⟩ := h.sound x rfl
  refine .of_ok (by dsimp only; omega) (hrest ▸ settled_skipFrom false _) ⟨t, rfl, hT⟩
    ⟨_, hs, hrest.symm⟩ ?_ ?_
  · rcases Nat.le_total m x.furthest with hle | hle
    · obtain ⟨u, v, hU, hpre⟩ := h.viable
      rw [Nat.max_eq_left hle]
      exact viable_token_of_start hU hpre
    · rw [Nat.max_eq_right hle]
      exact viable_token_between hT hw.1 hxm hs hrest
  · rintro ts v r ⟨u, rfl, hU⟩ ⟨s, hs', rfl⟩ hF
    obtain ⟨hval, hrest'⟩ := h.unique hU hs' (hFG s hF)
    exact ⟨hval, by rw [hrest, hrest']⟩

/-- A token parser with layout behind it. -/
theorem Lexes.trailing {p : Production α} (h : Lexes p T G) (hFG : ∀ s, F (skip s) → G s) :
    Parses ((p.seq layout).map Prod.fst) (Lang.token T) F := by
  intro tokens i hi hset
  rw [Parser.closed_map, Parser.closed_seq]
  obtain ⟨o, hgives, hlex⟩ := h tokens i hi
  have hw := within_of_gives hgives
  cases o with
  | error e => exact ⟨_, hgives.seq_error.map _, hlex.exact_error hw hFG⟩
  | ok x =>
    have hw' := hw
    simp only [Outcome.within_ok] at hw'
    have hx : x.next ≤ tokens.size := by omega
    obtain ⟨m, hxm, hm, hrest, hlayout⟩ := gives_layout hx
    exact ⟨_, (hgives.seq_ok hlayout (Nat.le_refl m)).map _,
      hlex.exact_ok hw hi hFG hxm hm hrest⟩

/-- A token parser with layout on both sides. -/
theorem Lexes.spaced {p : Production α} (h : Lexes p T G) (hFG : ∀ s, F (skip s) → G s) :
    Parses (spaced p) (Lang.token T) F := by
  intro tokens i hi hset
  rw [Grammar.spaced, Parser.closed_map, Parser.closed_seq, Parser.closed_seq]
  obtain ⟨m, him, hm, hrest, hlayout⟩ := gives_layout hi
  rw [skip_of_settled hset] at hrest
  obtain rfl := rest_injective hm hi hrest
  obtain ⟨o, hgives, hlex⟩ := h tokens m hi
  have hw := within_of_gives hgives
  cases o with
  | error e =>
    simp only [Outcome.within_error] at hw
    refine ⟨_, (((hlayout.seq_ok_error hgives).of_eq ?_).seq_error.map _), hlex.exact_error hw hFG⟩
    rw [Nat.max_eq_left hw.1]
  | ok x =>
    have hw' := hw
    simp only [Outcome.within_ok] at hw'
    have hx : x.next ≤ tokens.size := by omega
    obtain ⟨k, hxk, hk, hrest', hlayout'⟩ := gives_layout hx
    refine ⟨_, ((((hlayout.seq_ok hgives hw'.2.1).seq_ok hlayout' (Nat.le_refl k)).map _).of_eq ?_),
      hlex.exact_ok hw hi hFG hxk hk hrest'⟩
    simp only [Except.map, Output.map]
    rw [Nat.max_eq_right (by omega : m ≤ x.furthest)]

/-- Layout in front of a production with layout on both sides makes no difference. -/
theorem closed_spaced_skip (p : Production α) {m : Nat} (hi : i ≤ tokens.size)
    (hm : m ≤ tokens.size) (hrest : rest tokens m = skip (rest tokens i)) :
    (spaced p).closed tokens i = (spaced p).closed tokens m := by
  have hset : Settled (rest tokens m) := hrest ▸ settled_skipFrom false _
  obtain ⟨k, -, hk, hk', hlayout⟩ := gives_layout hi
  obtain ⟨l, -, hl, hl', hlayout'⟩ := gives_layout hm
  rw [skip_of_settled hset] at hl'
  obtain rfl := rest_injective hl hm hl'
  obtain rfl := rest_injective hk hm (hk'.trans hrest.symm)
  have hsame : layout.closed tokens i = layout.closed tokens k := by
    funext j
    rw [hlayout j, hlayout' j]
  rw [Grammar.spaced, Parser.closed_map, Parser.closed_seq, Parser.closed_seq]
  simp only [Attempt.transform, Attempt.seq, hsame]

end Spaced

end RegArith
