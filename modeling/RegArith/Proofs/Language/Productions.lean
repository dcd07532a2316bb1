import RegArith.Proofs.Language.Lexemes

/-!
# The productions are exact

Every production of the grammar reads exactly what its rule derives. Each proof puts the rules for
the operations together and checks their side conditions, which all come down to the first
character of the token that comes next.

Only loops do more than read: they take a label. A program is therefore read up to an action that
hands out the labels, in source order, once everything has matched.

## Main results

* `parses_operand`, `parses_expr`, `parses_assignment` — expressions and assignments
* `parsesBy_statement` — statements, up to the label of a loop
* `program_run` — the outcome of the program production on a whole text
-/

namespace RegArith

open Grammar

variable {α : Type}

/-! ### First characters -/

/-- A text that starts with a token avoids what the token avoids. -/
theorem Spells.avoids {P : Char → Bool} {t : Token} {ts : List Token} {s r : List Char}
    (h : Spells (t :: ts) s r) (ht : Avoids P t.text) : Avoids P s := by
  obtain ⟨s', rfl, -⟩ := h
  obtain ⟨c, cs, hc, -⟩ := t.exists_text_eq_cons
  rw [hc] at ht ⊢
  exact ht

/-- Texts that start with two tokens have the first character of both. -/
theorem Spells.head?_eq {t u : Token} {ts us : List Token} {s r r' : List Char}
    (h : Spells (t :: ts) s r) (h' : Spells (u :: us) s r') : t.text.head? = u.text.head? := by
  obtain ⟨s₁, rfl, -⟩ := h
  obtain ⟨s₂, hs, -⟩ := h'
  obtain ⟨c, cs, hc, -⟩ := t.exists_text_eq_cons
  obtain ⟨d, ds, hd, -⟩ := u.exists_text_eq_cons
  rw [hc, hd] at hs ⊢
  simpa using congrArg List.head? hs

theorem Token.head?_text_register {r : Register} (hr : r ∈ Register.storage) :
    (Token.register r hr).text.head? = some 'r' := by
  cases r <;> rfl

theorem Avoids.mono {P Q : Char → Bool} {s : List Char} (h : Avoids Q s)
    (hPQ : ∀ c, P c → Q c) : Avoids P s := fun c hc hP => h c hc (hPQ c hP)

/-- Skipping does not lose a character that is not layout. -/
theorem Avoids.of_skip {P : Char → Bool} (hP : ∀ c, P c → IsInk c) {s : List Char}
    (h : Avoids P (skip s)) : Avoids P s := by
  intro c hc hPc
  obtain ⟨s', rfl⟩ := List.head?_eq_some_iff.1 hc
  rw [skip_of_settled (settled_cons.2 (hP c hPc))] at h
  exact h c rfl hPc

theorem isInk_of_isDecimal {c : Char} (h : isDecimal c) : IsInk c := by
  obtain ⟨c', cs, hc, hink⟩ := (Token.digits (.ofStart c [] h)).exists_text_eq_cons
  cases hc
  exact hink

/-! ### Tokens -/

/-- The language of one token. -/
def Lang.only (t : Token) : Lang Unit := fun ts _ => ts = [t]

theorem parses_token (t : Token) (text : String) (h : t.text = text.toList) :
    Parses (token text) (Lang.only t) fun _ => True := by
  refine (((lexes_word t h).spaced fun _ _ => trivial).map fun _ => ()).congr ?_ fun _ h => h
  intro ts v
  constructor
  · rintro ⟨_, ⟨u, rfl, rfl, -⟩, -⟩
    rfl
  · rintro rfl
    exact ⟨text, ⟨t, rfl, rfl, rfl⟩, rfl⟩

/-- The language of the signs of some operations. -/
def Lang.sign (ops : List Op) : Lang Op := fun ts o => ts = [.op o] ∧ o ∈ ops

theorem lexes_sign (o : Op) :
    Lexes (sign o) (fun t v => ∃ x, (t = .op o ∧ x = o.symbol) ∧ o = v) fun _ => True :=
  (lexes_single (.op o) rfl).map fun _ => o

theorem parses_sign_alt {o o' : Op} (h : o.symbol ≠ o'.symbol) :
    Parses (spaced ((sign o).alt (sign o'))) (Lang.sign [o, o']) fun _ => True := by
  have hdisj : ∀ (t u : Token) (x y : Op) (s s' : List Char),
      (∃ c, (t = .op o ∧ c = o.symbol) ∧ o = x) → (∃ c, (u = .op o' ∧ c = o'.symbol) ∧ o' = y) →
      t.text ++ s ≠ u.text ++ s' := by
    rintro t u x y s s' ⟨_, ⟨rfl, -⟩, -⟩ ⟨_, ⟨rfl, -⟩, -⟩ heq
    exact h (List.cons.inj heq).1
  refine (((lexes_sign o).alt (lexes_sign o') hdisj).spaced fun _ _ => trivial).congr ?_
    fun _ h => h
  intro ts v
  constructor
  · rintro ⟨t, rfl, ⟨_, ⟨rfl, -⟩, rfl⟩ | ⟨_, ⟨rfl, -⟩, rfl⟩⟩
    · exact ⟨rfl, by simp⟩
    · exact ⟨rfl, by simp⟩
  · rintro ⟨rfl, hv⟩
    simp only [List.mem_cons, List.not_mem_nil, or_false] at hv
    rcases hv with rfl | rfl
    · exact ⟨_, rfl, .inl ⟨_, ⟨rfl, rfl⟩, rfl⟩⟩
    · exact ⟨_, rfl, .inr ⟨_, ⟨rfl, rfl⟩, rfl⟩⟩

/-- The language of digits. -/
def Lang.digits : Lang String := fun ts v => ∃ d, ts = [.digits d] ∧ v = String.ofList d.chars

theorem parses_digits : Parses digits Lang.digits (Avoids isDecimal) := by
  refine ((lexes_digits.spaced fun s hs => hs.of_skip fun _ => isInk_of_isDecimal).map
    String.ofList).congr ?_ fun _ h => h
  intro ts v
  constructor
  · rintro ⟨_, ⟨_, rfl, d, rfl, rfl⟩, rfl⟩
    exact ⟨d, rfl, rfl⟩
  · rintro ⟨d, rfl, rfl⟩
    exact ⟨d.chars, ⟨_, rfl, d, rfl, rfl⟩, rfl⟩

/-- The language of registers. -/
def Lang.register : Lang Register := fun ts r => ∃ hr, ts = [.register r hr]

theorem lexes_name {r : Register} (hr : r ∈ Register.storage) :
    Lexes ((Parser.word r.name).map fun _ => r)
      (fun t v => ∃ x, (t = .register r hr ∧ x = r.name) ∧ r = v) fun _ => True :=
  (lexes_word (.register r hr) rfl).map fun _ => r

/-- A last alternative that never matches adds nothing. -/
theorem Lexes.alt_never {p : Production α} {T : Token → α → Prop} {G : List Char → Prop}
    (h : Lexes p T G) : Lexes (p.alt .never) T G := by
  intro tokens i hi
  obtain ⟨o, hgives, hlex⟩ := h tokens i hi
  refine ⟨o, ?_, hlex⟩
  rw [Parser.closed_alt]
  have hw := within_of_gives hgives
  cases o with
  | ok x => exact hgives.alt_ok
  | error e =>
    simp only [Outcome.within_error] at hw
    exact (hgives.alt_error Attempt.gives_never).of_eq (by rw [Nat.max_eq_left hw.1])

/-- The registers in a list, tried one after the other: no name continues another. -/
theorem lexes_altList_name (rs : List Register) (hrs : rs.Nodup) (hne : rs ≠ [])
    (hstorage : ∀ r ∈ rs, r ∈ Register.storage) :
    Lexes (Parser.altList (rs.map fun r => (Parser.word r.name).map fun _ => r))
      (fun t v => v ∈ rs ∧ ∃ hv, t = .register v hv) fun _ => True := by
  induction rs with
  | nil => exact absurd rfl hne
  | cons r rs ih =>
    obtain ⟨hr, hrs⟩ := List.nodup_cons.1 hrs
    have hr' := hstorage r (by simp)
    cases hrest : rs with
    | nil =>
      refine (lexes_name hr').alt_never.congr fun t v => ?_
      constructor
      · rintro ⟨_, ⟨rfl, -⟩, rfl⟩
        exact ⟨by simp, hr', rfl⟩
      · rintro ⟨hv, hv', rfl⟩
        obtain rfl := List.mem_singleton.1 hv
        exact ⟨v.name, ⟨rfl, rfl⟩, rfl⟩
    | cons r₁ rs₁ =>
      rw [← hrest]
      have hmore := ih hrs (by simp [hrest]) fun r h => hstorage r (List.mem_cons_of_mem _ h)
      refine ((lexes_name hr').alt hmore ?_).congr fun t v => ?_
      · rintro t u x y s s' ⟨_, ⟨rfl, -⟩, rfl⟩ ⟨hy, hy', rfl⟩ heq
        obtain ⟨rfl, -⟩ := Register.name_append_inj heq
        exact hr hy
      · constructor
        · rintro (⟨_, ⟨rfl, -⟩, rfl⟩ | ⟨hv, hv', rfl⟩)
          · exact ⟨by simp, hr', rfl⟩
          · exact ⟨List.mem_cons_of_mem _ hv, hv', rfl⟩
        · rintro ⟨hv, hv', rfl⟩
          rcases List.mem_cons.1 hv with rfl | hv
          · exact .inl ⟨v.name, ⟨rfl, rfl⟩, rfl⟩
          · exact .inr ⟨hv, hv', rfl⟩

theorem parses_register : Parses register Lang.register fun _ => True := by
  refine ((lexes_altList_name Register.storage (by decide) (by decide) fun _ h => h).spaced
    fun _ _ => trivial).congr ?_ fun _ h => h
  intro ts v
  constructor
  · rintro ⟨t, rfl, -, hv, rfl⟩
    exact ⟨hv, rfl⟩
  · rintro ⟨hv, rfl⟩
    exact ⟨_, rfl, hv, hv, rfl⟩

/-! ### Literals -/

/-- The language of an optional sign. -/
def Lang.optionalSign : Lang (Match Char) := fun ts v =>
  ts = [.op .add] ∧ v = .value '+' ∨ ts = [.op .sub] ∧ v = .value '-' ∨ ts = [] ∧ v = .empty

/-- Whether a character is a sign of a number. -/
abbrev isSign (c : Char) : Bool := c == '+' || c == '-'

theorem lexes_oneOf_sign :
    Lexes (Parser.oneOf "+-") (fun t v => t = .op .add ∧ v = '+' ∨ t = .op .sub ∧ v = '-')
      fun _ => True := by
  refine (lexes_single (.op .add) rfl).alt (lexes_single (.op .sub) rfl).alt_never ?_
  rintro t u x y s s' ⟨rfl, -⟩ ⟨rfl, -⟩ heq
  cases heq

theorem parses_nothing {F : List Char → Prop} :
    Parses (.nothing : Production (Match α)) (Lang.nothing .empty) F := by
  intro tokens i hi hset
  exact ⟨_, Attempt.gives_nothing, .nothing hset Match.empty⟩

/-- The optional sign of a literal, with layout behind it. -/
def signLayout : Production (Match Char) :=
  ((((Parser.oneOf "+-").map Match.value).seq layout).map Prod.fst).alt .nothing

theorem parses_signLayout : Parses signLayout Lang.optionalSign (Avoids isSign) := by
  refine (((lexes_oneOf_sign.map Match.value).trailing (F := Avoids isSign)
    fun _ _ => trivial).alt parses_nothing ?_).congr ?_ fun _ h => h
  · rintro ts us x y s r r' ⟨t, rfl, c, ht, -⟩ ⟨rfl, -⟩ hs rfl hr
    obtain ⟨s', rfl, -⟩ := hs
    rcases ht with ⟨rfl, -⟩ | ⟨rfl, -⟩
    · exact hr '+' rfl rfl
    · exact hr '-' rfl rfl
  · intro ts v
    constructor
    · rintro (⟨t, rfl, c, ⟨rfl, rfl⟩ | ⟨rfl, rfl⟩, rfl⟩ | ⟨rfl, rfl⟩)
      · exact .inl ⟨rfl, rfl⟩
      · exact .inr (.inl ⟨rfl, rfl⟩)
      · exact .inr (.inr ⟨rfl, rfl⟩)
    · rintro (⟨rfl, rfl⟩ | ⟨rfl, rfl⟩ | ⟨rfl, rfl⟩)
      · exact .inl ⟨_, rfl, _, .inl ⟨rfl, rfl⟩, rfl⟩
      · exact .inl ⟨_, rfl, _, .inr ⟨rfl, rfl⟩, rfl⟩
      · exact .inr ⟨rfl, rfl⟩

/-- The sign of a literal has no layout of its own behind it, but the digits skip it. -/
theorem gives_sign_seq_digits {tokens : Array Char} {i : Nat} (hi : i ≤ tokens.size)
    {o : Outcome (Match Char × String)} (h : (signLayout.seq digits).closed.Gives tokens i o) :
    ((((Parser.oneOf "+-").map Match.value).alt .nothing).seq digits).closed.Gives tokens i o := by
  rw [signLayout] at h
  simp only [Parser.closed_seq, Parser.closed_alt] at h ⊢
  rw [Parser.closed_map, Parser.closed_seq] at h
  obtain ⟨os, hsign, -⟩ := (lexes_oneOf_sign.map Match.value) tokens i hi
  have hw := within_of_gives hsign
  cases os with
  | error e =>
    -- there is no sign, and both go on from the same place
    have hplain := hsign.alt_error_ok Attempt.gives_nothing
    have hlayout := ((hsign.seq_error (b := layout.closed)).map Prod.fst).alt_error_ok
      Attempt.gives_nothing
    have hsame := funext fun j => (hplain j).trans (hlayout j).symm
    intro j
    rw [← h j]
    simp only [Attempt.seq, hsame, Parser.closed_nothing]
  | ok x =>
    simp only [Outcome.within_ok] at hw
    have hx : x.next ≤ tokens.size := by omega
    obtain ⟨m, hxm, hm, hrest, hlayout⟩ := gives_layout hx
    have hset : Settled (rest tokens m) := hrest ▸ settled_skipFrom false _
    obtain ⟨od, hdigits, -⟩ := parses_digits tokens m hm hset
    have hdigits' : digits.closed.Gives tokens x.next od := by
      intro j
      rw [← hdigits j, digits, Parser.closed_map]
      simp only [Attempt.transform, closed_spaced_skip _ (by omega : x.next ≤ _) hm hrest]
    have hwd := within_of_gives hdigits
    have hplain := hsign.alt_ok (b := (Parser.nothing : Production (Match Char)).closed)
    have hspaced := ((hsign.seq_ok hlayout (Nat.le_refl m)).map Prod.fst).alt_ok
      (b := (Parser.nothing : Production (Match Char)).closed)
    cases od with
    | error e =>
      simp only [Outcome.within_error] at hwd
      obtain rfl := h.unique (hspaced.seq_ok_error hdigits)
      exact (hplain.seq_ok_error hdigits').of_eq (by simp [Output.map]; omega)
    | ok y =>
      simp only [Outcome.within_ok] at hwd
      obtain rfl := h.unique (hspaced.seq_ok hdigits hwd.2.1)
      exact (hplain.seq_ok hdigits' hwd.2.1).of_eq (by simp [Output.map]; omega)

/-- The language of literals. -/
def Lang.int : Lang Expr := fun ts e => ∃ d : DigitRun,
  ts = [.digits d] ∧ Derives.Literal false d e ∨ ts = [.op .add, .digits d] ∧
    Derives.Literal false d e ∨ ts = [.op .sub, .digits d] ∧ Derives.Literal true d e

theorem literal_eq_ite (negative : Bool) (d : DigitRun) :
    literal negative (String.ofList d.chars) =
      if d.value < 2 ^ 127 then .num (if negative then -(d.value : Int) else d.value)
      else .huge (String.ofList (if negative then '-' :: d.chars else d.chars)) := by
  have hminus : "-" ++ String.ofList d.chars = String.ofList ('-' :: d.chars) := by
    rw [← String.toList_inj]
    simp
  unfold literal
  rw [String.toList_ofList, hminus, ← apply_ite String.ofList]
  rfl

theorem derives_literal_iff {negative : Bool} {d : DigitRun} {e : Expr} :
    Derives.Literal negative d e ↔ literal negative (String.ofList d.chars) = e := by
  rw [literal_eq_ite]
  constructor
  · rintro (h | h)
    · exact if_pos h
    · exact if_neg (Nat.not_lt.2 h)
  · rintro rfl
    by_cases h : d.value < 2 ^ 127
    · rw [if_pos h]
      exact .num h
    · rw [if_neg h]
      exact .huge (Nat.not_lt.1 h)

theorem parses_int : Parses int Lang.int (Avoids isDecimal) := by
  have hfollow : ∀ us v s r, Lang.digits us v → Spells us s r → Avoids isDecimal r →
      Avoids isSign s := by
    rintro us v s r ⟨d, rfl, rfl⟩ hs -
    refine hs.avoids fun c hc hsign => ?_
    have hdec := isDecimal_of_mem (d := d) (List.mem_of_mem_head? hc)
    simp only [isSign, Bool.or_eq_true, beq_iff_eq] at hsign
    rcases hsign with rfl | rfl <;> exact absurd hdec (by decide)
  have hseq := (parses_signLayout.seq parses_digits
    ⟨[.digits (.ofStart '0' [] rfl)], _, _, rfl, rfl⟩ hfollow)
  have hint : Parses int ((Lang.optionalSign.seq Lang.digits).map
      fun x => literal (x.1 == .value '-') x.2) (Avoids isDecimal) := by
    refine Parses.map ?_ _
    intro tokens i hi hset
    obtain ⟨o, hgives, hexact⟩ := hseq tokens i hi hset
    exact ⟨o, gives_sign_seq_digits hi hgives, hexact⟩
  refine hint.congr ?_ fun _ h => h
  intro ts e
  constructor
  · rintro ⟨⟨v, _⟩, ⟨us, _, rfl, hsign, d, rfl, rfl⟩, rfl⟩
    refine ⟨d, ?_⟩
    rcases hsign with ⟨rfl, rfl⟩ | ⟨rfl, rfl⟩ | ⟨rfl, rfl⟩
    · exact .inr (.inl ⟨rfl, derives_literal_iff.2 rfl⟩)
    · exact .inr (.inr ⟨rfl, derives_literal_iff.2 rfl⟩)
    · exact .inl ⟨rfl, derives_literal_iff.2 rfl⟩
  · rintro ⟨d, ⟨rfl, h⟩ | ⟨rfl, h⟩ | ⟨rfl, h⟩⟩
    · exact ⟨(.empty, _), ⟨[], _, rfl, .inr (.inr ⟨rfl, rfl⟩), d, rfl, rfl⟩,
        derives_literal_iff.1 h⟩
    · exact ⟨(.value '+', _), ⟨[_], _, rfl, .inl ⟨rfl, rfl⟩, d, rfl, rfl⟩,
        derives_literal_iff.1 h⟩
    · exact ⟨(.value '-', _), ⟨[_], _, rfl, .inr (.inl ⟨rfl, rfl⟩), d, rfl, rfl⟩,
        derives_literal_iff.1 h⟩

/-! ### Expressions -/

theorem parses_operand : Parses operand Derives.Operand (Avoids isDecimal) := by
  have hreg := (parses_register.map Expr.reg).congr (M := Lang.register.map Expr.reg)
    (G := Avoids isDecimal) (fun _ _ => Iff.rfl) fun _ _ => trivial
  refine (parses_int.alt hreg ?_).congr ?_ fun _ h => h
  · -- a literal starts with a sign or a digit, a register with a letter
    rintro ts us x y s r r' ⟨d, hts⟩ ⟨q, ⟨hq, rfl⟩, -⟩ hs hs' -
    have hr := Token.head?_text_register hq
    rcases hts with ⟨rfl, -⟩ | ⟨rfl, -⟩ | ⟨rfl, -⟩
    · have hhead := (hs.head?_eq hs').trans hr
      exact absurd (isDecimal_of_mem (d := d) (List.mem_of_mem_head? hhead)) (by decide)
    · exact absurd ((hs.head?_eq hs').trans hr) (by decide)
    · exact absurd ((hs.head?_eq hs').trans hr) (by decide)
  · intro ts e
    constructor
    · rintro (⟨d, ⟨rfl, h⟩ | ⟨rfl, h⟩ | ⟨rfl, h⟩⟩ | ⟨q, ⟨hq, rfl⟩, rfl⟩)
      · exact .unsigned h
      · exact .plus h
      · exact .minus h
      · exact .register hq
    · rintro (h | h | h | hq)
      · exact .inl ⟨_, .inl ⟨rfl, h⟩⟩
      · exact .inl ⟨_, .inr (.inl ⟨rfl, h⟩)⟩
      · exact .inl ⟨_, .inr (.inr ⟨rfl, h⟩)⟩
      · exact .inr ⟨_, ⟨hq, rfl⟩, rfl⟩

/-- Operations and items that follow a first item, folded to the left. -/
def leftFold (first : Expr) (more : List (Op × Expr)) : Expr :=
  more.foldl (fun lhs x => .arith x.1 lhs x.2) first

section LeftGrouped

variable {item : Lang Expr} {ops : List Op}

theorem Derives.LeftGrouped.append {ts us : List Token} {e : Expr} {more : List (Op × Expr)}
    (h : Derives.LeftGrouped item ops ts e) (hmore : ((Lang.sign ops).seq item).star us more) :
    Derives.LeftGrouped item ops (ts ++ us) (leftFold e more) := by
  induction more generalizing ts us e with
  | nil =>
    obtain rfl : us = [] := hmore
    rwa [List.append_nil]
  | cons x more ih =>
    obtain ⟨_, vs, rfl, ⟨_, ws, rfl, ⟨rfl, ho⟩, hitem⟩, hmore⟩ := hmore
    have := ih (.more h ho hitem) hmore
    rw [List.append_assoc] at this
    exact this

theorem star_append {L : Lang α} {ts us : List Token} {vs ws : List α} (h : L.star ts vs)
    (h' : L.star us ws) : L.star (ts ++ us) (vs ++ ws) := by
  induction vs generalizing ts with
  | nil =>
    obtain rfl : ts = [] := h
    exact h'
  | cons v vs ih =>
    obtain ⟨ts₁, ts₂, rfl, hv, hvs⟩ := h
    exact ⟨ts₁, ts₂ ++ us, by rw [List.append_assoc], hv, ih hvs⟩

theorem leftGrouped_iff {ts : List Token} {e : Expr} :
    Derives.LeftGrouped item ops ts e ↔
      (item.seq ((Lang.sign ops).seq item).star).map (fun x => leftFold x.1 x.2) ts e := by
  constructor
  · intro h
    induction h with
    | @first ts e h => exact ⟨(e, []), ⟨ts, [], by simp, h, rfl⟩, rfl⟩
    | @more ts us e f o h ho hf ih =>
      obtain ⟨⟨first, more⟩, ⟨vs, ws, rfl, hfirst, hmore⟩, rfl⟩ := ih
      have hlast : ((Lang.sign ops).seq item).star (.op o :: us) [(o, f)] :=
        Lang.star_singleton ⟨[.op o], us, rfl, ⟨rfl, ho⟩, hf⟩
      refine ⟨(first, more ++ [(o, f)]), ⟨vs, ws ++ .op o :: us, by rw [List.append_assoc], hfirst,
        star_append hmore hlast⟩, ?_⟩
      simp [leftFold]
  · rintro ⟨⟨first, more⟩, ⟨us, vs, rfl, hfirst, hmore⟩, rfl⟩
    exact Derives.LeftGrouped.append (.first hfirst) hmore

/-- What items avoid behind them, and the signs of the operations. -/
abbrev orSign (P : Char → Bool) (ops : List Op) (c : Char) : Bool :=
  P c || ops.any fun o => o.symbol == c

theorem parses_leftGrouped {p : Production Expr} {q : Production Op} {P : Char → Bool}
    (hp : Parses p item (Avoids P)) (hq : Parses q (Lang.sign ops) fun _ => True)
    (hitem : ∃ ts e, item ts e) (hP : ∀ o ∈ ops, ¬P o.symbol) :
    Parses (leftGrouped p q) (Derives.LeftGrouped item ops) (Avoids (orSign P ops)) := by
  -- another item announces itself by a sign, which is nothing that an item runs on into
  have hstart : ∀ ts v s r, ((Lang.sign ops).seq item) ts v → Spells ts s r → Avoids P s := by
    rintro _ v s r ⟨_, us, rfl, ⟨rfl, ho⟩, -⟩ hs
    refine hs.avoids fun c hc => ?_
    obtain rfl : v.1.symbol = c := Option.some.inj hc
    exact hP v.1 ho
  have hstop : ∀ r, Avoids (orSign P ops) r →
      Avoids P r ∧ ∀ ts v r', ((Lang.sign ops).seq item) ts v → ¬Spells ts r r' := by
    refine fun r hr => ⟨hr.mono (by simp +contextual), ?_⟩
    rintro _ v r' ⟨_, us, rfl, ⟨rfl, ho⟩, -⟩ ⟨s', rfl, -⟩
    refine hr v.1.symbol rfl ?_
    simp only [Bool.or_eq_true, List.any_eq_true, beq_iff_eq]
    exact .inr ⟨v.1, ho, rfl⟩
  have hone : Parses (q.seq p) ((Lang.sign ops).seq item) (Avoids P) :=
    hq.seq hp hitem fun _ _ _ _ _ _ _ => trivial
  have hmany : Parses (q.seq p).star ((Lang.sign ops).seq item).star (Avoids (orSign P ops)) := by
    refine hone.star ?_ hstart hstop
    rintro _ v ⟨_, us, rfl, ⟨rfl, -⟩, -⟩
    simp
  have hall := hp.seq hmany ⟨[], [], Lang.star_nil _⟩ (Lang.follow_star hstart hstop)
  exact (hall.map fun x => leftFold x.1 x.2).congr (fun _ _ => leftGrouped_iff.symm) fun _ h => h

end LeftGrouped

theorem parses_mulDivExpr :
    Parses mulDivExpr Derives.MulDiv (Avoids (orSign isDecimal [.mul, .div])) :=
  parses_leftGrouped parses_operand (parses_sign_alt (by decide))
    ⟨_, _, .register (r := .r10) (by decide)⟩ (by decide)

/-- What an expression would run on into. -/
abbrev continuesExpr (c : Char) : Bool :=
  orSign (orSign isDecimal [.mul, .div]) [.add, .sub] c

theorem parses_expr : Parses expr Derives.AddSub (Avoids continuesExpr) :=
  parses_leftGrouped parses_mulDivExpr (parses_sign_alt (by decide))
    ⟨_, _, .first (.register (r := .r10) (by decide))⟩ (by decide)

/-! ### Statements -/

theorem parses_assignment : Parses assignment Derives.Assign fun _ => True := by
  have hhead := parses_register.seq (parses_token .equals "=" rfl) ⟨_, (), rfl⟩
    fun _ _ _ _ _ _ _ => trivial
  have hvalue := hhead.seq parses_expr ⟨_, _, .first (.first (.register (r := .r10) (by decide)))⟩
    fun _ _ _ _ _ _ _ => trivial
  have hall := (hvalue.seq (parses_token .semicolon ";" rfl) ⟨_, (), rfl⟩ ?_).map
    fun x => (⟨x.1.1.1, x.1.2⟩ : Assignment)
  · refine hall.congr ?_ fun _ h => h
    intro ts a
    constructor
    · rintro ⟨x, ⟨_, _, rfl, ⟨_, us, rfl, ⟨_, _, rfl, ⟨hr, rfl⟩, rfl⟩, he⟩, rfl⟩, rfl⟩
      rw [List.append_assoc]
      exact .intro hr he
    · rintro ⟨hr, he⟩
      exact ⟨(((_, ()), _), ()), ⟨_, [.semicolon], by simp, ⟨[_, .equals], _, rfl,
        ⟨[_], [.equals], rfl, ⟨hr, rfl⟩, rfl⟩, he⟩, rfl⟩, rfl⟩
  · rintro _ v s r rfl hs -
    exact hs.avoids (avoids_cons.2 (by decide))

/-- The parts of a loop, before it takes a label. -/
def loopParts : Production ((Unit × Expr) × ((Unit × Assignment) × Unit)) :=
  ((token "loop").seq operand).seq (((token "\x7b").seq assignment).seq (token "\x7d"))

theorem closed_loop : loop.closed = Attempt.transform loopParts.closed fun x =>
    return ⟨← Label.fresh, x.1.2, x.2.1.2⟩ := rfl

/-- An assignment derived from `r10 = r10;` shows that there is one. -/
theorem exists_assign : ∃ ts a, Derives.Assign ts a :=
  ⟨_, _, .intro (r := .r10) (by decide) (.first (.first (.register (r := .r10) (by decide))))⟩

theorem parses_loopParts :
    Parses loopParts (fun ts x => Derives.Loop ts x.1.2 x.2.1.2) fun _ => True := by
  have hhead := (parses_token .loop "loop" rfl).seq parses_operand
    ⟨_, _, .register (r := .r10) (by decide)⟩ fun _ _ _ _ _ _ _ => trivial
  have hbody := ((parses_token .opening "\x7b" rfl).seq parses_assignment exists_assign
    fun _ _ _ _ _ _ _ => trivial).seq (parses_token .closing "\x7d" rfl) ⟨_, (), rfl⟩
    fun _ _ _ _ _ _ _ => trivial
  obtain ⟨us, a, ha⟩ := exists_assign
  have hall := hhead.seq hbody ⟨_, (((), a), ()), _, [.closing], rfl,
    ⟨[.opening], us, rfl, rfl, ha⟩, rfl⟩ ?_
  · refine hall.congr ?_ fun _ h => h
    rintro ts ⟨⟨_, k⟩, ⟨_, a⟩, _⟩
    constructor
    · rintro ⟨_, _, rfl, ⟨_, ts, rfl, rfl, hk⟩, ⟨_, _, rfl, ⟨_, us, rfl, rfl, ha⟩, rfl⟩⟩
      exact .intro hk ha
    · rintro ⟨hk, ha⟩
      exact ⟨_, _, rfl, ⟨[.loop], _, rfl, rfl, hk⟩,
        ⟨_, [.closing], rfl, ⟨[.opening], _, rfl, rfl, ha⟩, rfl⟩⟩
  · rintro _ v s r ⟨_, _, rfl, ⟨_, us, rfl, rfl, -⟩, rfl⟩ hs -
    exact hs.avoids (avoids_cons.2 (by decide))

/-- A statement before it has a label: an assignment, or counter and body of a loop. -/
abbrev Unlabelled : Type := Assignment ⊕ (Expr × Assignment)

/-- The statement, with the next label if it is a loop. -/
def Unlabelled.label : Unlabelled → StateM Nat Stmt
  | .inl a => return .assign a
  | .inr (k, a) => return .loop ⟨← Label.fresh, k, a⟩

/-- The language of statements. -/
def Lang.stmt : Lang Unlabelled
  | ts, .inl a => Derives.Assign ts a
  | ts, .inr (k, a) => Derives.Loop ts k a

/-- Statements as they are read, before any label is taken. -/
def unlabelled : Production Unlabelled :=
  (assignment.map Sum.inl).alt (loopParts.map fun x => Sum.inr (x.1.2, x.2.1.2))

theorem parses_unlabelled : Parses unlabelled Lang.stmt fun _ => True := by
  refine ((parses_assignment.map Sum.inl).alt (parses_loopParts.map fun x =>
    Sum.inr (x.1.2, x.2.1.2)) ?_).congr ?_ fun _ h => h
  · rintro _ _ x y s r r' ⟨_, ⟨hq, -⟩, -⟩ ⟨_, ⟨-, -⟩, -⟩ hs hs' -
    have hhead := hs.head?_eq hs'
    rw [Token.head?_text_register] at hhead
    exact absurd hhead (by decide)
  · rintro ts (a | ⟨k, a⟩)
    · constructor
      · rintro (⟨_, h, ⟨⟩⟩ | ⟨_, -, ⟨⟩⟩)
        exact h
      · exact fun h => .inl ⟨a, h, rfl⟩
    · constructor
      · rintro (⟨_, -, ⟨⟩⟩ | ⟨_, h, ⟨⟩⟩)
        exact h
      · exact fun h => .inr ⟨(((), k), (((), a), ())), h, rfl⟩

/-- A statement takes its label when all of it has been read. -/
theorem closed_statement {tokens : Array Char} {i : Nat} (hi : i ≤ tokens.size)
    (hset : Settled (rest tokens i)) {o : Outcome Unlabelled}
    (h : unlabelled.closed.Gives tokens i o) (j : Journal Nat) :
    statement.closed tokens i j = some (Attempt.finish Unlabelled.label o j) := by
  obtain ⟨oa, hga, -⟩ := parses_assignment tokens i hi hset
  obtain ⟨ol, hgl, -⟩ := parses_loopParts tokens i hi hset
  have hassign := hga.map Stmt.assign j
  have hloop : (loop.map Stmt.loop).closed tokens i j =
      some (Attempt.finish (fun x => Unlabelled.label (.inr (x.1.2, x.2.1.2))) ol j) := by
    rw [Parser.closed_map, closed_loop]
    refine Attempt.transform_eq_some_iff.2 ⟨_, _, hgl.transform _ j, ?_⟩
    cases ol <;> rfl
  rw [unlabelled, Parser.closed_alt, Parser.closed_map, Parser.closed_map] at h
  rw [statement, Parser.closed_alt]
  cases oa with
  | ok x =>
    obtain rfl := h.unique (hga.map Sum.inl).alt_ok
    exact Attempt.alt_eq_some_iff.2 (.inl ⟨_, hassign, rfl⟩)
  | error e =>
    cases ol with
    | ok y =>
      obtain rfl := h.unique ((hga.map Sum.inl).alt_error_ok (hgl.map _))
      exact Attempt.alt_eq_some_iff.2 (.inr (.inl ⟨e, j, _, hassign, hloop, rfl⟩))
    | error f =>
      obtain rfl := h.unique ((hga.map Sum.inl).alt_error (hgl.map _))
      refine Attempt.alt_eq_some_iff.2 (.inr (.inr ⟨e, j, f, hassign, hloop, ?_⟩))
      rw [NoMatch.furthest_eq_mk]

theorem parsesBy_statement : ParsesBy statement Unlabelled.label Lang.stmt fun _ => True := by
  intro tokens i hi hset
  obtain ⟨o, hgives, hexact⟩ := parses_unlabelled tokens i hi hset
  exact ⟨o, closed_statement hi hset hgives, hexact⟩

/-! ### Programs -/

/-- A match inside layout, whatever it does to the journal. -/
theorem closed_spaced_ok {p : Production α} {tokens : Array Char} {i m : Nat} {x : Output α}
    {j j' : Journal Nat} (hlayout : layout.closed.Gives tokens i (.ok ⟨(), m, m⟩))
    (h : p.closed tokens m j = some (.ok x, j'))
    (hlayout' : layout.closed.Gives tokens x.next (.ok ⟨(), x.next, x.next⟩)) :
    (spaced p).closed tokens i j = some (.ok x, j') := by
  have hw := p.advances_closed h
  simp only [Outcome.within_ok] at hw
  rw [spaced, Parser.closed_map, Parser.closed_seq, Parser.closed_seq]
  refine Attempt.transform_eq_some_iff.2 ⟨_, j', Attempt.seq_eq_some_iff.2 (.inr (.inr
    ⟨_, j', _, Attempt.seq_eq_some_iff.2 (.inr (.inr ⟨_, j, x, hlayout j, h, rfl⟩)),
      hlayout' j', rfl⟩)), ?_⟩
  simp only [Attempt.finish_pure, Except.map, Output.map, Output.new, Output.reached]
  rw [show max (max x.next (max (max x.next m) x.furthest)) x.next = x.furthest by omega]

/-- The text does not start with a statement. -/
def NoStatement (r : List Char) : Prop := ∀ ts v r', Lang.stmt ts v → ¬Spells ts r r'

theorem Lang.stmt_ne_nil {ts : List Token} {v : Unlabelled} (h : Lang.stmt ts v) : ts ≠ [] := by
  rcases v with a | ⟨k, a⟩ <;> obtain ⟨-, -⟩ := h <;> simp

theorem noStatement_nil : NoStatement [] := fun _ _ _ hv hs =>
  Nat.not_lt_zero _ (hs.length_lt (Lang.stmt_ne_nil hv))

/-- Labels for statements in source order. -/
abbrev labelAll : List Unlabelled → StateM Nat (List Stmt) := List.mapM Unlabelled.label

/-- **The outcome of the program production on a whole text.** Layout is skipped first, then
statements are read exactly as far as they go, and then the loops among them are labelled. -/
theorem program_run (tokens : Array Char) :
    ∃ m y, m ≤ tokens.size ∧ rest tokens m = skip (rest tokens 0) ∧
      Exact Lang.stmt.star NoStatement tokens m (.ok y) ∧ NoStatement (rest tokens y.next) ∧
      ∀ count, Grammar.program.run tokens 0 (.new count) =
        (.ok ⟨⟨((labelAll y.value).run count).1⟩, y.next, y.furthest⟩,
          .new ((labelAll y.value).run count).2) := by
  obtain ⟨m, -, hm, hrest, hlayout⟩ := gives_layout (Nat.zero_le tokens.size)
  have hset : Settled (rest tokens m) := hrest ▸ settled_skipFrom false _
  obtain ⟨y, hy, hexact, hend⟩ := parsesBy_statement.star (fun _ _ => Lang.stmt_ne_nil)
    (fun _ _ _ _ _ _ => trivial) (fun _ hr => ⟨trivial, hr⟩) hm hset
  refine ⟨m, y, hm, hrest, hexact, fun ts v r hv hs => hend ts v r hv hs trivial, fun count => ?_⟩
  have hw := hexact.within
  simp only [Outcome.within_ok] at hw
  have hy' : y.next ≤ tokens.size := by omega
  obtain ⟨k, -, hk, hrest', hlayout'⟩ := gives_layout hy'
  rw [skip_of_settled (hexact.sound y rfl).1] at hrest'
  obtain rfl := rest_injective hk (by omega) hrest'
  have hspaced := closed_spaced_ok (p := statement.star) hlayout (hy (.new count)) hlayout'
  have hprogram : Grammar.program.closed tokens 0 (.new count) =
      some (.ok ⟨⟨((labelAll y.value).run count).1⟩, y.next, y.furthest⟩,
        .new ((labelAll y.value).run count).2) := by
    rw [Grammar.program, Parser.closed_map]
    exact Attempt.transform_eq_some_iff.2 ⟨_, _, hspaced, rfl⟩
  exact Option.some.inj ((Option.some_get _).trans hprogram)

end RegArith
