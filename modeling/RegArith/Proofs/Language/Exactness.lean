import RegArith.Language.Grammar
import RegArith.Proofs.Language.Spelling
import RegArith.Proofs.Parsing.Silent

/-!
# Greedy parsers that are exact

A parser commits itself to the first alternative that matches and to the longest repetition; a
grammar does neither. `Exact` says that on a given input the two come to the same: what the parser
reads is in the language, what is in the language is read, and wherever the parser gets stuck some
text of the language goes on from there. The last part is what makes the furthest index a good
place to blame.

The rules below carry exactness through the operations. Their side conditions are those of a
predictive grammar: what may follow a part must be visible in the next character, and alternatives
must not start alike. They speak about languages only, never about parsers.

Positions are settled throughout: layout is skipped behind every token, so that no parser has any
in front of it.

## Main definitions

* `Lang`, with `Lang.nothing`, `Lang.seq`, `Lang.alt`, `Lang.map` and `Lang.star` — sets of token
  sequences with values
* `Viable` — a text that some text of the language starts with
* `Exact`, `Parses`, `ParsesBy` — a parser reads exactly a language

## Main results

* `Parses.seq`, `Parses.alt`, `Parses.map`, `Parses.star`, `ParsesBy.star`
-/

namespace RegArith

variable {α β γ : Type}

/-! ### Languages of tokens -/

/-- A set of token sequences, each with the value it stands for. -/
abbrev Lang (α : Type) : Type := List Token → α → Prop

namespace Lang

/-- No tokens, for the given value. -/
def nothing (v : α) : Lang α := fun ts w => ts = [] ∧ w = v

/-- One after the other. -/
def seq (L : Lang α) (M : Lang β) : Lang (α × β) := fun ts v =>
  ∃ us vs, ts = us ++ vs ∧ L us v.1 ∧ M vs v.2

/-- One or the other. -/
def alt (L M : Lang α) : Lang α := fun ts v => L ts v ∨ M ts v

/-- The same sequences with other values. -/
def map (f : α → β) (L : Lang α) : Lang β := fun ts v => ∃ x, L ts x ∧ f x = v

/-- Any number of sequences in a row. -/
def star (L : Lang α) : Lang (List α)
  | ts, [] => ts = []
  | ts, v :: vs => ∃ us us', ts = us ++ us' ∧ L us v ∧ star L us' vs

theorem star_nil (L : Lang α) : L.star [] [] := rfl

theorem star_singleton {L : Lang α} {ts : List Token} {v : α} (h : L ts v) : L.star ts [v] :=
  ⟨ts, [], by simp, h, rfl⟩

end Lang

/-! ### Stretches of a text -/

/-- The characters from `i` up to `m`. -/
def between (tokens : Array Char) (i m : Nat) : List Char := (rest tokens i).take (m - i)

theorem between_append_rest (tokens : Array Char) {i m : Nat} (h : i ≤ m) :
    between tokens i m ++ rest tokens m = rest tokens i := by
  rw [between, show m = i + (m - i) by omega, rest_add, Nat.add_sub_cancel_left,
    List.take_append_drop]

theorem between_append_between (tokens : Array Char) {i m k : Nat} (hi : i ≤ m) (hm : m ≤ k) :
    between tokens i m ++ between tokens m k = between tokens i k := by
  rw [between, between, between, show rest tokens m = (rest tokens i).drop (m - i) by
    rw [← rest_add, Nat.add_sub_cancel' hi], show k - i = (m - i) + (k - m) by omega, List.take_add]

theorem rest_ne_nil {tokens : Array Char} {i : Nat} (h : i < tokens.size) : rest tokens i ≠ [] := by
  rw [← List.length_pos_iff, length_rest]
  omega

theorem rest_eq_nil_iff {tokens : Array Char} {i : Nat} : rest tokens i = [] ↔ tokens.size ≤ i := by
  rw [← List.length_eq_zero_iff, length_rest]
  omega

/-! ### Viable texts -/

/-- Some text of the language starts with `w`, whatever follows it. -/
def Viable (L : Lang α) (w : List Char) : Prop :=
  ∃ t ts v, L ts v ∧ ∀ r, Settled r → Spells ts (w ++ t ++ r) r

namespace Viable

theorem mono {L M : Lang α} {w : List Char} (h : Viable L w) (hLM : ∀ ts v, L ts v → M ts v) :
    Viable M w := by
  obtain ⟨t, ts, v, hL, hs⟩ := h
  exact ⟨t, ts, v, hLM ts v hL, hs⟩

theorem map {L : Lang α} {w : List Char} (h : Viable L w) (f : α → β) : Viable (L.map f) w := by
  obtain ⟨t, ts, v, hL, hs⟩ := h
  exact ⟨t, ts, f v, ⟨v, hL, rfl⟩, hs⟩

/-- A language with a sequence in it can be begun. -/
theorem nil {L : Lang α} {ts : List Token} {v : α} (h : L ts v) : Viable L [] :=
  ⟨ts.flatMap Token.text, ts, v, h, fun _ hr => spells_flatMap ts hr⟩

/-- A text that begins the first part begins the whole. -/
theorem seq_left {L : Lang α} {M : Lang β} {w : List Char} (h : Viable L w)
    (hM : ∃ us v, M us v) : Viable (L.seq M) w := by
  obtain ⟨t, ts, v, hL, hs⟩ := h
  obtain ⟨us, y, hM⟩ := hM
  refine ⟨t ++ us.flatMap Token.text, ts ++ us, (v, y), ⟨ts, us, rfl, hL, hM⟩, fun r hr => ?_⟩
  have hus := spells_flatMap us hr
  refine spells_append.2 ⟨us.flatMap Token.text ++ r, ?_, hus⟩
  simpa [List.append_assoc] using hs _ (hus.settled hr)

/-- Behind a text of the first part, a text that begins the second part begins the whole. What
was read in front of some text can be read in front of any other. -/
theorem seq_right {L : Lang α} {M : Lang β} {tokens : Array Char} {i m : Nat} {ts : List Token}
    {v : α} {w : List Char} (him : i ≤ m) (hm : m < tokens.size) (hL : L ts v)
    (hs : Spells ts (rest tokens i) (rest tokens m)) (h : Viable M w) :
    Viable (L.seq M) (between tokens i m ++ w) := by
  obtain ⟨t, us, y, hM, hus⟩ := h
  refine ⟨t, ts ++ us, (v, y), ⟨ts, us, rfl, hL, hM⟩, fun r hr => ?_⟩
  refine spells_append.2 ⟨w ++ t ++ r, ?_, hus r hr⟩
  rw [← between_append_rest tokens him] at hs
  simpa [List.append_assoc] using hs.context (rest_ne_nil hm) ((hus r hr).settled hr)

end Viable

/-! ### Exactness -/

/-- On this input the outcome `o` at `i` is what the language `L` asks for. Sequences of `L` are
read where `F` holds of the text behind them. -/
structure Exact (L : Lang α) (F : List Char → Prop) (tokens : Array Char) (i : Nat)
    (o : Outcome α) : Prop where
  /-- Positions are in order and within the tokens. -/
  within : Outcome.Within i tokens.size o
  /-- What is read is in the language, with all layout behind it. -/
  sound : ∀ x, o = .ok x → Settled (rest tokens x.next) ∧
    ∃ ts, L ts x.value ∧ Spells ts (rest tokens i) (rest tokens x.next)
  /-- Everything up to the furthest index begins a text of the language. -/
  viable : Viable L (between tokens i (Outcome.reach o))
  /-- What is in the language is read. -/
  complete : ∀ ts v r, L ts v → Spells ts (rest tokens i) r → F r →
    ∃ x, o = .ok x ∧ x.value = v ∧ rest tokens x.next = r

/-- The production reads exactly `L`, wherever `F` holds of the text behind, from any index
without layout in front. -/
def Parses (p : Production α) (L : Lang α) (F : List Char → Prop) : Prop :=
  ∀ tokens i, i ≤ tokens.size → Settled (rest tokens i) →
    ∃ o, p.closed.Gives tokens i o ∧ Exact L F tokens i o

/-- As `Parses`, up to an action that runs on the value that is read. -/
def ParsesBy (p : Production β) (action : α → StateM Nat β) (L : Lang α)
    (F : List Char → Prop) : Prop :=
  ∀ tokens i, i ≤ tokens.size → Settled (rest tokens i) →
    ∃ o, (∀ j, p.closed tokens i j = some (Attempt.finish action o j)) ∧ Exact L F tokens i o

section Outcomes

variable {L : Lang α} {F : List Char → Prop} {tokens : Array Char} {i : Nat} {ts : List Token}
  {v : α} {r : List Char}

theorem Exact.of_error {e : NoMatch} (hw : i ≤ e.index ∧ e.index ≤ max i tokens.size)
    (hviable : Viable L (between tokens i e.index))
    (hnone : ∀ ts v r, L ts v → Spells ts (rest tokens i) r → ¬F r) :
    Exact L F tokens i (.error e) := by
  refine ⟨hw, ?_, hviable, fun ts v r hL hs hr => (hnone ts v r hL hs hr).elim⟩
  rintro x ⟨⟩

theorem Exact.of_ok {x : Output α}
    (hw : i ≤ x.next ∧ x.next ≤ x.furthest ∧ x.furthest ≤ max i tokens.size)
    (hset : Settled (rest tokens x.next)) (hL : L ts x.value)
    (hs : Spells ts (rest tokens i) (rest tokens x.next))
    (hviable : Viable L (between tokens i x.furthest))
    (hall : ∀ us v r, L us v → Spells us (rest tokens i) r → F r →
      x.value = v ∧ rest tokens x.next = r) :
    Exact L F tokens i (.ok x) := by
  refine ⟨hw, ?_, hviable, fun us v r hL hs hr => ⟨x, rfl, hall us v r hL hs hr⟩⟩
  rintro y ⟨⟩
  exact ⟨hset, ts, hL, hs⟩

/-- Where the parser fails, no sequence of the language can be read. -/
theorem Exact.not_follow {e : NoMatch} (h : Exact L F tokens i (.error e)) (hL : L ts v)
    (hs : Spells ts (rest tokens i) r) : ¬F r := by
  intro hr
  obtain ⟨x, hx, -⟩ := h.complete ts v r hL hs hr
  cases hx

/-- Where the parser succeeds, no other sequence of the language can be read. -/
theorem Exact.unique {x : Output α} (h : Exact L F tokens i (.ok x)) (hL : L ts v)
    (hs : Spells ts (rest tokens i) r) (hr : F r) : x.value = v ∧ rest tokens x.next = r := by
  obtain ⟨y, hy, hval, hrest⟩ := h.complete ts v r hL hs hr
  cases hy
  exact ⟨hval, hrest⟩

end Outcomes

theorem Exact.congr {L M : Lang α} {F G : List Char → Prop} {tokens : Array Char} {i : Nat}
    {o : Outcome α} (h : Exact L F tokens i o) (hLM : ∀ ts v, L ts v ↔ M ts v)
    (hGF : ∀ r, G r → F r) : Exact M G tokens i o where
  within := h.within
  sound x hx := by
    obtain ⟨hset, ts, hL, hs⟩ := h.sound x hx
    exact ⟨hset, ts, (hLM ts _).1 hL, hs⟩
  viable := h.viable.mono fun ts v => (hLM ts v).1
  complete ts v r hM hs hr := h.complete ts v r ((hLM ts v).2 hM) hs (hGF r hr)

theorem Parses.congr {p : Production α} {L M : Lang α} {F G : List Char → Prop}
    (h : Parses p L F) (hLM : ∀ ts v, L ts v ↔ M ts v) (hGF : ∀ r, G r → F r) : Parses p M G := by
  intro tokens i hi hset
  obtain ⟨o, hgives, hexact⟩ := h tokens i hi hset
  exact ⟨o, hgives, hexact.congr hLM hGF⟩

/-! ### Rules -/

theorem Exact.map {L : Lang α} {F : List Char → Prop} {tokens : Array Char} {i : Nat}
    {o : Outcome α} (h : Exact L F tokens i o) (f : α → β) :
    Exact (L.map f) F tokens i (o.map (Output.map f)) := by
  cases o with
  | error e =>
    refine .of_error h.within (h.viable.map f) ?_
    rintro ts v r ⟨x, hL, rfl⟩ hs
    exact h.not_follow hL hs
  | ok x =>
    obtain ⟨hset, ts, hL, hs⟩ := h.sound x rfl
    refine .of_ok h.within hset ⟨x.value, hL, rfl⟩ hs (h.viable.map f) ?_
    rintro us v r ⟨y, hL, rfl⟩ hs hr
    obtain ⟨hval, hrest⟩ := h.unique hL hs hr
    exact ⟨congrArg f hval, hrest⟩

theorem Parses.map {p : Production α} {L : Lang α} {F : List Char → Prop} (h : Parses p L F)
    (f : α → β) : Parses (p.map f) (L.map f) F := by
  intro tokens i hi hset
  obtain ⟨o, hgives, hexact⟩ := h tokens i hi hset
  exact ⟨_, hgives.map f, hexact.map f⟩

/-- Nothing is read where nothing is asked for. -/
theorem Exact.nothing {F : List Char → Prop} {tokens : Array Char} {i : Nat}
    (hset : Settled (rest tokens i)) (v : α) :
    Exact (Lang.nothing v) F tokens i (.ok ⟨v, i, i⟩) := by
  have hnil : Lang.nothing v [] v := ⟨rfl, rfl⟩
  refine .of_ok ⟨Nat.le_refl i, Nat.le_refl i, Nat.le_max_left i _⟩ hset hnil rfl ?_ ?_
  · rw [between, Nat.sub_self, List.take_zero]
    exact Viable.nil hnil
  · rintro us w r ⟨rfl, rfl⟩ hs -
    exact ⟨rfl, hs⟩

section Seq

variable {L : Lang α} {M : Lang β} {F G : List Char → Prop} {tokens : Array Char} {i : Nat}

/-- The reach of two parts in a row is that of one of them, and either way it can be gone on
from. -/
theorem Exact.viable_seq {x : Output α} {o : Outcome β} (hx : Exact L F tokens i (.ok x))
    (ho : Exact M G tokens x.next o) (hM : ∃ us v, M us v) :
    Viable (L.seq M) (between tokens i (max x.furthest (Outcome.reach o))) := by
  obtain ⟨-, ts, hL, hts⟩ := hx.sound x rfl
  have hwx := hx.within
  have hwo := ho.within
  simp only [Outcome.within_ok] at hwx
  by_cases hle : Outcome.reach o ≤ x.furthest
  · rw [Nat.max_eq_left hle]
    exact hx.viable.seq_left hM
  · have hlt : x.next < tokens.size := by
      cases o with
      | ok y =>
        simp only [Outcome.within_ok, Outcome.reach_ok] at hwo hle
        omega
      | error e =>
        simp only [Outcome.within_error, Outcome.reach_error] at hwo hle
        omega
    rw [Nat.max_eq_right (by omega),
      ← between_append_between tokens hwx.1 (by omega : x.next ≤ Outcome.reach o)]
    exact Viable.seq_right hwx.1 hlt hL hts ho.viable

variable (hfollow : ∀ us v s r, M us v → Spells us s r → G r → F s)

include hfollow

/-- If the first part fails, no sequence of both parts can be there. -/
theorem Exact.seq_error {e : NoMatch} (h : Exact L F tokens i (.error e)) (hM : ∃ us v, M us v) :
    Exact (L.seq M) G tokens i (.error e) := by
  refine .of_error h.within (h.viable.seq_left hM) ?_
  rintro ts v r ⟨us, vs, rfl, hL, hM⟩ hs hr
  obtain ⟨m, hus, hvs⟩ := spells_append.1 hs
  exact h.not_follow hL hus (hfollow vs v.2 m r hM hvs hr)

/-- A sequence of both parts is read by the first part up to where the second one starts. -/
theorem Exact.split_seq {x : Output α} (h : Exact L F tokens i (.ok x)) {ts : List Token}
    {v : α × β} {r : List Char} (hv : (L.seq M) ts v) (hs : Spells ts (rest tokens i) r)
    (hr : G r) : x.value = v.1 ∧ ∃ us, M us v.2 ∧ Spells us (rest tokens x.next) r := by
  obtain ⟨us, vs, rfl, hL, hM⟩ := hv
  obtain ⟨m, hus, hvs⟩ := spells_append.1 hs
  obtain ⟨hval, rfl⟩ := h.unique hL hus (hfollow vs v.2 m r hM hvs hr)
  exact ⟨hval, vs, hM, hvs⟩

theorem Exact.seq_ok_error {x : Output α} {e : NoMatch} (hx : Exact L F tokens i (.ok x))
    (he : Exact M G tokens x.next (.error e)) (hM : ∃ us v, M us v) :
    Exact (L.seq M) G tokens i (.error ⟨max e.index x.furthest⟩) := by
  have hwx := hx.within
  have hwe := he.within
  simp only [Outcome.within_ok, Outcome.within_error] at hwx hwe
  refine .of_error (by dsimp only; omega) ?_ ?_
  · rw [Nat.max_comm]
    exact hx.viable_seq he hM
  · intro ts v r hv hs hr
    obtain ⟨-, us, hM, hus⟩ := hx.split_seq hfollow hv hs hr
    exact he.not_follow hM hus hr

theorem Exact.seq_ok {x : Output α} {y : Output β} (hx : Exact L F tokens i (.ok x))
    (hy : Exact M G tokens x.next (.ok y)) :
    Exact (L.seq M) G tokens i
      (.ok ⟨(x.value, y.value), y.next, max x.furthest y.furthest⟩) := by
  have hwx := hx.within
  have hwy := hy.within
  simp only [Outcome.within_ok] at hwx hwy
  obtain ⟨-, ts, hL, hts⟩ := hx.sound x rfl
  obtain ⟨hset, us, hM, hus⟩ := hy.sound y rfl
  refine .of_ok (by dsimp only; omega) hset ⟨ts, us, rfl, hL, hM⟩ (spells_append.2 ⟨_, hts, hus⟩)
    (hx.viable_seq hy ⟨us, y.value, hM⟩) ?_
  intro ts v r hv hs hr
  obtain ⟨hval, us, hM, hus⟩ := hx.split_seq hfollow hv hs hr
  obtain ⟨hval', hrest⟩ := hy.unique hM hus hr
  exact ⟨Prod.ext hval hval', hrest⟩

end Seq

/-- Parts in a row, where what follows the first part is what the second part starts with. -/
theorem Parses.seq {p : Production α} {q : Production β} {L : Lang α} {M : Lang β}
    {F G : List Char → Prop} (hp : Parses p L F) (hq : Parses q M G) (hM : ∃ us v, M us v)
    (hfollow : ∀ us v s r, M us v → Spells us s r → G r → F s) :
    Parses (p.seq q) (L.seq M) G := by
  intro tokens i hi hset
  rw [Parser.closed_seq]
  obtain ⟨op, hgp, hep⟩ := hp tokens i hi hset
  cases op with
  | error e => exact ⟨_, hgp.seq_error, hep.seq_error hfollow hM⟩
  | ok x =>
    have hwx := hep.within
    simp only [Outcome.within_ok] at hwx
    obtain ⟨oq, hgq, heq⟩ := hq tokens x.next (by omega) (hep.sound x rfl).1
    cases oq with
    | error e => exact ⟨_, hgp.seq_ok_error hgq, hep.seq_ok_error hfollow heq hM⟩
    | ok y => exact ⟨_, hgp.seq_ok hgq heq.within.2.1, hep.seq_ok hfollow heq⟩

section Alt

variable {L M : Lang α} {F : List Char → Prop} {tokens : Array Char} {i : Nat}

/-- The first alternative matches, and the second one does not start alike. -/
theorem Exact.alt_ok {x : Output α} (h : Exact L F tokens i (.ok x))
    (hdisj : ∀ ts us x y s r r', L ts x → M us y → Spells ts s r → Spells us s r' → ¬F r') :
    Exact (L.alt M) F tokens i (.ok x) := by
  obtain ⟨hset, ts, hL, hts⟩ := h.sound x rfl
  refine .of_ok h.within hset (.inl hL) hts (h.viable.mono fun _ _ => .inl) ?_
  rintro us v r (hL' | hM) hus hr
  · exact h.unique hL' hus hr
  · exact (hdisj ts us _ v _ _ _ hL hM hts hus hr).elim

/-- Both alternatives can be gone on from where they get stuck. -/
theorem Exact.viable_alt {e : NoMatch} {o : Outcome α} (he : Exact L F tokens i (.error e))
    (ho : Exact M F tokens i o) :
    Viable (L.alt M) (between tokens i (max (Outcome.reach o) e.index)) := by
  rcases Nat.le_total (Outcome.reach o) e.index with h | h
  · rw [Nat.max_eq_right h]
    exact he.viable.mono fun _ _ => .inl
  · rw [Nat.max_eq_left h]
    exact ho.viable.mono fun _ _ => .inr

theorem Exact.alt_error_ok {e : NoMatch} {y : Output α} (he : Exact L F tokens i (.error e))
    (hy : Exact M F tokens i (.ok y)) :
    Exact (L.alt M) F tokens i (.ok ⟨y.value, y.next, max y.furthest e.index⟩) := by
  have hwe := he.within
  have hwy := hy.within
  simp only [Outcome.within_ok, Outcome.within_error] at hwe hwy
  obtain ⟨hset, us, hM, hus⟩ := hy.sound y rfl
  refine .of_ok (by dsimp only; omega) hset (.inr hM) hus (he.viable_alt hy) ?_
  rintro ts v r (hL | hM) hs hr
  · exact (he.not_follow hL hs hr).elim
  · exact hy.unique hM hs hr

theorem Exact.alt_error {e f : NoMatch} (he : Exact L F tokens i (.error e))
    (hf : Exact M F tokens i (.error f)) :
    Exact (L.alt M) F tokens i (.error ⟨max e.index f.index⟩) := by
  have hwe := he.within
  have hwf := hf.within
  simp only [Outcome.within_error] at hwe hwf
  refine .of_error (by dsimp only; omega) ?_ ?_
  · rw [Nat.max_comm]
    exact he.viable_alt hf
  · rintro ts v r (hL | hM) hs
    · exact he.not_follow hL hs
    · exact hf.not_follow hM hs

/-- Alternatives that do not start alike where they are expected. -/
theorem Parses.alt {p q : Production α} (hp : Parses p L F) (hq : Parses q M F)
    (hdisj : ∀ ts us x y s r r', L ts x → M us y → Spells ts s r → Spells us s r' → ¬F r') :
    Parses (p.alt q) (L.alt M) F := by
  intro tokens i hi hset
  rw [Parser.closed_alt]
  obtain ⟨op, hgp, hep⟩ := hp tokens i hi hset
  obtain ⟨oq, hgq, heq⟩ := hq tokens i hi hset
  cases op with
  | ok x => exact ⟨_, hgp.alt_ok, hep.alt_ok hdisj⟩
  | error e =>
    cases oq with
    | ok y => exact ⟨_, hgp.alt_error_ok hgq, hep.alt_error_ok heq⟩
    | error f => exact ⟨_, hgp.alt_error hgq, hep.alt_error heq⟩

end Alt

section Star

variable {L : Lang α} {F G : List Char → Prop} {tokens : Array Char} {i : Nat}

/-- A repetition is an item with a repetition behind it, or nothing at all. -/
theorem Lang.star_iff (L : Lang α) (ts : List Token) (vs : List α) :
    ((L.seq L.star).map fun v => v.1 :: v.2).alt (Lang.nothing []) ts vs ↔ L.star ts vs := by
  constructor
  · rintro (⟨⟨v, vs⟩, ⟨us, us', rfl, hv, hvs⟩, rfl⟩ | ⟨rfl, rfl⟩)
    · exact ⟨us, us', rfl, hv, hvs⟩
    · exact L.star_nil
  · intro h
    cases vs with
    | nil => exact .inr ⟨h, rfl⟩
    | cons v vs =>
      obtain ⟨us, us', rfl, hv, hvs⟩ := h
      exact .inl ⟨(v, vs), ⟨us, us', rfl, hv, hvs⟩, rfl⟩

variable (hitem : ∀ ts v s r, L ts v → Spells ts s r → F s)
  (hstop : ∀ r, G r → F r ∧ ∀ ts v r', L ts v → ¬Spells ts r r')

include hitem hstop

/-- What may follow an item is the rest of the repetition. -/
theorem Lang.follow_star (us : List Token) (vs : List α) (s r : List Char) (hvs : L.star us vs)
    (hs : Spells us s r) (hr : G r) : F s := by
  cases vs with
  | nil =>
    obtain rfl : us = [] := hvs
    obtain rfl : s = r := hs
    exact (hstop s hr).1
  | cons v vs =>
    obtain ⟨ts₁, ts₂, rfl, hv, -⟩ := hvs
    obtain ⟨m, hts₁, -⟩ := spells_append.1 hs
    exact hitem ts₁ v s m hv hts₁

/-- The repetition ends where no item is read. -/
theorem Exact.star_error {e : NoMatch} (h : Exact L F tokens i (.error e))
    (hset : Settled (rest tokens i)) : Exact L.star G tokens i (.ok ⟨[], i, e.index⟩) := by
  have hseq := h.seq_error (Lang.follow_star hitem hstop) ⟨[], [], L.star_nil⟩
  have halt := (hseq.map fun v => v.1 :: v.2).alt_error_ok (Exact.nothing hset [])
  have hw := h.within
  simp only [Outcome.within_error] at hw
  rw [Nat.max_eq_right hw.1] at halt
  exact halt.congr L.star_iff fun _ => id

/-- The repetition goes on behind an item that is read. -/
theorem Exact.star_ok {x : Output α} {y : Output (List α)} (hx : Exact L F tokens i (.ok x))
    (hy : Exact L.star G tokens x.next (.ok y)) :
    Exact L.star G tokens i
      (.ok ⟨x.value :: y.value, y.next, max x.furthest y.furthest⟩) := by
  have hseq := hx.seq_ok (Lang.follow_star hitem hstop) hy
  refine ((hseq.map fun v => v.1 :: v.2).alt_ok ?_).congr L.star_iff fun _ => id
  -- where the repetition could end, no item can be read
  rintro ts us vs ws s r r' ⟨v, ⟨ts₁, ts₂, rfl, hv, -⟩, rfl⟩ ⟨rfl, rfl⟩ hs hnone hr
  obtain rfl : s = r' := hnone
  obtain ⟨m, hts₁, -⟩ := spells_append.1 hs
  exact (hstop s hr).2 ts₁ v.1 m hv hts₁

end Star

/-- A repetition whose items announce themselves: what may follow an item is another item, or
a text that starts none. It stops where no item can be read. -/
theorem ParsesBy.star {p : Production β} {action : α → StateM Nat β} {L : Lang α}
    {F G : List Char → Prop} (hp : ParsesBy p action L F)
    (hne : ∀ ts v, L ts v → ts ≠ []) (hitem : ∀ ts v s r, L ts v → Spells ts s r → F s)
    (hstop : ∀ r, G r → F r ∧ ∀ ts v r', L ts v → ¬Spells ts r r') {tokens : Array Char} {i : Nat}
    (hi : i ≤ tokens.size) (hset : Settled (rest tokens i)) :
    ∃ y, (∀ j, p.star.closed tokens i j = some (Attempt.finish (List.mapM action) (.ok y) j)) ∧
      Exact L.star G tokens i (.ok y) ∧
      ∀ ts v r, L ts v → Spells ts (rest tokens y.next) r → ¬F r := by
  rw [Parser.closed_star]
  have hadv : p.closed.Advances := p.advances_closed
  -- every item leaves fewer characters to read
  induction hn : tokens.size - i using Nat.strongRecOn generalizing i with
  | ind n ih =>
  obtain ⟨o, hgives, hexact⟩ := hp tokens i hi hset
  cases o with
  | error e =>
    exact ⟨⟨[], i, e.index⟩, fun j => Attempt.star_of_error hadv (hgives j),
      hexact.star_error hitem hstop hset, fun _ _ _ => hexact.not_follow⟩
  | ok x =>
    obtain ⟨hsetx, ts, hts, hspells⟩ := hexact.sound x rfl
    have hwx := hexact.within
    simp only [Outcome.within_ok] at hwx
    have hlt : i < x.next := by
      have := hspells.length_lt (hne ts x.value hts)
      rw [length_rest, length_rest] at this
      omega
    obtain ⟨y, hy, hey, hend⟩ := ih (tokens.size - x.next) (by omega) (by omega) hsetx rfl
    refine ⟨_, fun j => ?_, hexact.star_ok hitem hstop hey, hend⟩
    rw [Attempt.star_of_step hadv (hgives j) hlt (hy _)]
    simp only [Attempt.finish, List.mapM_cons]
    rfl

theorem Parses.star {p : Production α} {L : Lang α} {F G : List Char → Prop} (hp : Parses p L F)
    (hne : ∀ ts v, L ts v → ts ≠ []) (hitem : ∀ ts v s r, L ts v → Spells ts s r → F s)
    (hstop : ∀ r, G r → F r ∧ ∀ ts v r', L ts v → ¬Spells ts r r') :
    Parses p.star L.star G := by
  have hby : ParsesBy p (fun x => pure (id x)) L F := by
    intro tokens i hi hset
    obtain ⟨o, hgives, hexact⟩ := hp tokens i hi hset
    refine ⟨o, fun j => ?_, hexact⟩
    rw [hgives j, Attempt.finish_pure]
    cases o <;> rfl
  intro tokens i hi hset
  obtain ⟨y, hy, hexact, -⟩ := hby.star hne hitem hstop hi hset
  refine ⟨.ok y, fun j => ?_, hexact⟩
  rw [hy j]
  simp only [Attempt.finish, List.mapM_pure, List.map_id]
  rfl

end RegArith
