import RegArith.Proofs.Language.Derivation

/-!
# Token sequences as text, one way

The same text can be split into tokens and layout in one way only once layout is skipped as far as
it goes. `skip` does that, and `Spells` is the relation between tokens and text in which every
token is followed by all the layout there is. It says the same as `Laid` about whole texts, but it
composes: positions between tokens are always `Settled`, that is, no layout is left there.

What stands behind a text matters only to a comment at its end. The lemmas on contexts say so:
where something other than layout stands behind it, it can be replaced by anything else.

## Main definitions

* `skip`, `Settled` — layout skipped as far as it goes
* `Spells` — tokens with skipped layout behind each of them

## Main results

* `laid_iff_spells` — on whole texts, `Spells` is `Laid`
* `Spells.context` — what stands behind a text can be replaced
* `spells_flatMap` — every token sequence has a text
-/

namespace RegArith

/-! ### Skipping layout -/

/-- Skips layout, starting inside a comment or not. -/
def skipFrom : (inComment : Bool) → List Char → List Char
  | _, [] => []
  | true, c :: s => if c = '\n' then skipFrom false s else skipFrom true s
  | false, c :: s =>
    if c = '#' then skipFrom true s else if c.toNat ≤ 32 then skipFrom false s else c :: s

/-- What is left of a text behind the layout at its start. -/
abbrev skip (s : List Char) : List Char := skipFrom false s

/-- The character is no layout, nor does it start any. -/
def IsInk (c : Char) : Prop := c ≠ '#' ∧ 32 < c.toNat

/-- The text does not start with layout. -/
def Settled (s : List Char) : Prop := ∀ c ∈ s.head?, IsInk c

theorem settled_nil : Settled [] := by simp [Settled]

theorem settled_cons {c : Char} {s : List Char} : Settled (c :: s) ↔ IsInk c := by
  simp [Settled]

theorem skip_of_settled {s : List Char} (h : Settled s) : skip s = s := by
  cases s with
  | nil => rfl
  | cons c s =>
    obtain ⟨hc, hc'⟩ := settled_cons.1 h
    rw [skip, skipFrom, if_neg hc, if_neg (Nat.not_le.2 hc')]

theorem settled_skipFrom (inComment : Bool) (s : List Char) : Settled (skipFrom inComment s) := by
  induction s generalizing inComment with
  | nil => cases inComment <;> exact settled_nil
  | cons c s ih =>
    cases inComment with
    | true => rw [skipFrom]; split <;> exact ih _
    | false =>
      rw [skipFrom]
      split
      · exact ih _
      · split
        · exact ih _
        · exact settled_cons.2 ⟨‹_›, Nat.not_le.1 ‹_›⟩

theorem skipFrom_suffix (inComment : Bool) (s : List Char) : skipFrom inComment s <:+ s := by
  induction s generalizing inComment with
  | nil => cases inComment <;> exact List.suffix_refl []
  | cons c s ih =>
    have hs : ∀ b, skipFrom b s <:+ c :: s := fun b => (ih b).trans (List.suffix_cons c s)
    cases inComment with
    | true => rw [skipFrom]; split <;> exact hs _
    | false =>
      rw [skipFrom]
      split
      · exact hs _
      · split
        · exact hs _
        · exact List.suffix_refl _

/-! ### Layout and skipping -/

/-- Inside a comment, text without a line feed is skipped. -/
theorem skipFrom_true_append {text : List Char} (ht : '\n' ∉ text) (s : List Char) :
    skipFrom true (text ++ s) = skipFrom true s := by
  induction text with
  | nil => rfl
  | cons c text ih =>
    rw [List.mem_cons, not_or] at ht
    rw [List.cons_append, skipFrom, if_neg (Ne.symm ht.1), ih ht.2]

/-- Skipping does not notice layout in front. -/
theorem Layout.skip_eq {s r : List Char} (h : Layout s r) : skip s = skip r := by
  induction h with
  | nil s => rfl
  | @blank c s r hc _ ih =>
    have hne : c ≠ '#' := by rintro rfl; exact absurd hc (by decide)
    rw [← ih, skip, skipFrom, if_neg hne, if_pos hc]
  | @comment text s r ht hs _ ih =>
    rw [← ih, skip, skipFrom, if_pos rfl, skipFrom_true_append ht]
    rcases hs with rfl | hs
    · rfl
    · obtain ⟨s', rfl⟩ := List.head?_eq_some_iff.1 hs
      rfl

/-- What is skipped is layout. Inside a comment, the rest of the comment comes first. -/
theorem layout_skipFrom (s : List Char) :
    Layout s (skip s) ∧
      ∃ text s', s = text ++ s' ∧ '\n' ∉ text ∧ (s' = [] ∨ s'.head? = some '\n') ∧
        Layout s' (skipFrom true s) := by
  induction s with
  | nil => exact ⟨.nil _, [], [], rfl, by simp, .inl rfl, .nil _⟩
  | cons c s ih =>
    obtain ⟨hskip, text, s', hs, htext, hend, hlayout⟩ := ih
    constructor
    · rw [skip, skipFrom]
      split
      · next hc => subst hc; rw [hs] at hlayout ⊢; exact .comment htext hend hlayout
      · split
        · exact .blank ‹_› hskip
        · exact .nil _
    · rw [skipFrom]
      split
      · next hc => subst hc; exact ⟨[], '\n' :: s, rfl, by simp, .inr rfl, .blank (by decide) hskip⟩
      · next hc =>
        refine ⟨c :: text, s', by rw [hs]; rfl, ?_, hend, hlayout⟩
        rw [List.mem_cons, not_or]
        exact ⟨Ne.symm hc, htext⟩

theorem layout_skip (s : List Char) : Layout s (skip s) := (layout_skipFrom s).1

/-! ### Contexts of skipped layout -/

/-- What skipping does to `u` does not depend on what stands behind it: either all of `u` is
layout, and it ends inside a comment or not, or skipping stops within `u`. -/
theorem skipFrom_append (inComment : Bool) (u : List Char) :
    (∃ b, ∀ t, skipFrom inComment (u ++ t) = skipFrom b t) ∨
      ∃ v, v ≠ [] ∧ ∀ t, skipFrom inComment (u ++ t) = v ++ t := by
  induction u generalizing inComment with
  | nil => exact .inl ⟨inComment, fun t => rfl⟩
  | cons c u ih =>
    cases inComment with
    | true =>
      by_cases hc : c = '\n' <;> simp only [List.cons_append, skipFrom, hc, ↓reduceIte] <;>
        exact ih _
    | false =>
      by_cases hc : c = '#'
      · simp only [List.cons_append, skipFrom, hc, ↓reduceIte]
        exact ih _
      · by_cases hb : c.toNat ≤ 32
        · simp only [List.cons_append, skipFrom, hc, hb, ↓reduceIte]
          exact ih _
        · refine .inr ⟨c :: u, by simp, fun t => ?_⟩
          simp only [List.cons_append, skipFrom, hc, hb, ↓reduceIte]

/-- If skipping stops before the end of a text, what stands behind the text can be replaced by
anything that does not start with layout. -/
theorem skip_context {u v r r' : List Char} (h : skip (u ++ r) = v ++ r) (hr : r ≠ [])
    (hr' : Settled r') : skip (u ++ r') = v ++ r' := by
  rcases skipFrom_append false u with ⟨b, hb⟩ | ⟨w, -, hw⟩
  · rw [skip, hb] at h ⊢
    have hlen := congrArg List.length h
    rw [List.length_append] at hlen
    have hle := (skipFrom_suffix b r).length_le
    obtain rfl : v = [] := List.eq_nil_of_length_eq_zero (by omega)
    cases b with
    | false => exact skip_of_settled hr'
    | true =>
      -- inside a comment at least one character would be skipped
      obtain ⟨c, r, rfl⟩ := List.exists_cons_of_ne_nil hr
      have hlt : (skipFrom true (c :: r)).length ≤ r.length := by
        rw [skipFrom]
        split <;> exact (skipFrom_suffix _ r).length_le
      simp only [List.length_cons, List.length_nil] at hlen
      omega
  · rw [skip, hw] at h ⊢
    rw [List.append_cancel_right h]

/-- A line feed behind layout is layout too, whatever the layout ended with. -/
theorem skip_append_newline {u r : List Char} (h : skip (u ++ r) = r) (t : List Char) :
    skip (u ++ '\n' :: t) = skip t := by
  rcases skipFrom_append false u with ⟨b, hb⟩ | ⟨w, hne, hw⟩
  · rw [skip, hb]
    cases b <;> rfl
  · rw [skip, hw, List.append_left_eq_self] at h
    exact absurd h hne

/-- If skipping stops within a text, more text behind it changes nothing. -/
theorem skip_append {u : List Char} (h : skip u ≠ []) (t : List Char) :
    skip (u ++ t) = skip u ++ t := by
  rcases skipFrom_append false u with ⟨b, hb⟩ | ⟨w, -, hw⟩
  · have hnil := hb []
    rw [List.append_nil] at hnil
    rw [skip, hnil] at h
    cases b <;> exact absurd rfl h
  · have hnil := hw []
    rw [List.append_nil, List.append_nil] at hnil
    rw [skip, skip, hw, hnil]

/-! ### Spelling -/

/-- The text `s` starts with the given tokens, each with all layout behind it, and then comes
`r`. -/
def Spells : List Token → List Char → List Char → Prop
  | [], s, r => s = r
  | t :: ts, s, r => ∃ s', s = t.text ++ s' ∧ Spells ts (skip s') r

/-- Every token starts with ink. -/
theorem Token.exists_text_eq_cons (t : Token) : ∃ c cs, t.text = c :: cs ∧ IsInk c := by
  cases t with
  | register r hr => cases r <;> exact ⟨_, _, rfl, by decide, by decide⟩
  | op o => cases o <;> exact ⟨_, _, rfl, by decide, by decide⟩
  | digits d =>
    obtain ⟨c, cs, hd⟩ := List.exists_cons_of_ne_nil d.ne_nil
    have hc := d.isDigit c (by simp [hd])
    refine ⟨c, cs, hd, ?_, ?_⟩
    · rintro rfl; exact absurd hc.1 (by decide)
    · exact Nat.lt_of_lt_of_le (by decide : 32 < '0'.toNat) hc.1
  | loop | equals | semicolon | opening | closing => exact ⟨_, _, rfl, by decide, by decide⟩

theorem Token.settled_text_append (t : Token) (s : List Char) : Settled (t.text ++ s) := by
  obtain ⟨c, cs, ht, hc⟩ := t.exists_text_eq_cons
  rw [ht]
  exact settled_cons.2 hc

theorem Token.text_ne_nil (t : Token) : t.text ≠ [] := by
  obtain ⟨c, cs, ht, -⟩ := t.exists_text_eq_cons
  simp [ht]

theorem spells_append {ts us : List Token} {s r : List Char} :
    Spells (ts ++ us) s r ↔ ∃ m, Spells ts s m ∧ Spells us m r := by
  induction ts generalizing s with
  | nil => simp [Spells]
  | cons t ts ih =>
    simp only [List.cons_append, Spells, ih]
    constructor
    · rintro ⟨s', hs, m, hm, hr⟩
      exact ⟨m, ⟨s', hs, hm⟩, hr⟩
    · rintro ⟨m, ⟨s', hs, hm⟩, hr⟩
      exact ⟨s', hs, m, hm, hr⟩

theorem laid_iff_spells {ts : List Token} {s : List Char} :
    Laid ts s ↔ Spells ts (skip s) [] := by
  constructor
  · intro h
    induction h with
    | nil h => exact h.skip_eq
    | @cons t ts s s' h hs ih =>
      exact ⟨s', by rw [h.skip_eq, skip_of_settled (t.settled_text_append s')], ih⟩
  · intro h
    induction ts generalizing s with
    | nil => exact .nil (h ▸ layout_skip s)
    | cons t ts ih =>
      obtain ⟨s', hs, h⟩ := h
      exact .cons (hs ▸ layout_skip s) (ih h)

theorem Spells.suffix {ts : List Token} {s r : List Char} (h : Spells ts s r) : r <:+ s := by
  induction ts generalizing s with
  | nil => exact h ▸ List.suffix_refl s
  | cons t ts ih =>
    obtain ⟨s', rfl, h⟩ := h
    exact ((ih h).trans (skipFrom_suffix false s')).trans (List.suffix_append t.text s')

theorem Spells.length_lt {ts : List Token} {s r : List Char} (h : Spells ts s r)
    (hts : ts ≠ []) : r.length < s.length := by
  obtain ⟨t, ts, rfl⟩ := List.exists_cons_of_ne_nil hts
  obtain ⟨s', rfl, h⟩ := h
  have hle := (h.suffix.trans (skipFrom_suffix false s')).length_le
  have ht := List.length_pos_iff.2 t.text_ne_nil
  rw [List.length_append]
  omega

theorem Spells.settled {ts : List Token} {s r : List Char} (h : Spells ts s r)
    (hr : Settled r) : Settled s := by
  cases ts with
  | nil => exact h ▸ hr
  | cons t ts =>
    obtain ⟨s', rfl, -⟩ := h
    exact t.settled_text_append s'

/-- Where something stands behind a spelled text, it can be replaced by anything that does not
start with layout. -/
theorem Spells.context {ts : List Token} {u r r' : List Char} (h : Spells ts (u ++ r) r)
    (hr : r ≠ []) (hr' : Settled r') : Spells ts (u ++ r') r' := by
  induction ts generalizing u with
  | nil => rw [Spells, List.append_left_eq_self] at h; rw [h]; rfl
  | cons t ts ih =>
    obtain ⟨s', hs, h⟩ := h
    obtain ⟨w, rfl⟩ := h.suffix.trans (skipFrom_suffix false s')
    obtain ⟨v, hv⟩ := h.suffix
    rw [← List.append_assoc] at hs
    rw [List.append_cancel_right hs]
    rw [← hv] at h
    exact ⟨w ++ r', by rw [List.append_assoc], by rw [skip_context hv.symm hr hr']; exact ih h⟩

/-- Behind a whole text, a line feed starts afresh: it ends a comment that is still open, and no
token runs on across it. -/
theorem Spells.append_newline {ts : List Token} {s : List Char} (h : Spells ts (skip s) [])
    (t : List Char) : Spells ts (skip (s ++ '\n' :: t)) (skip t) := by
  induction ts generalizing s with
  | nil =>
    have hall : skip (s ++ []) = [] := by rw [List.append_nil]; exact h
    exact skip_append_newline hall t
  | cons u us ih =>
    obtain ⟨s', hs, hus⟩ := h
    have hne : skip s ≠ [] := by simp [hs, u.text_ne_nil]
    exact ⟨s' ++ '\n' :: t, by rw [skip_append hne, hs, List.append_assoc], ih hus⟩

/-- Every token sequence has a text: the tokens without any layout. -/
theorem spells_flatMap (ts : List Token) {r : List Char} (hr : Settled r) :
    Spells ts (ts.flatMap Token.text ++ r) r := by
  induction ts with
  | nil => rfl
  | cons t ts ih =>
    refine ⟨ts.flatMap Token.text ++ r, by rw [List.flatMap_cons, List.append_assoc], ?_⟩
    rwa [skip_of_settled (ih.settled hr)]

end RegArith
