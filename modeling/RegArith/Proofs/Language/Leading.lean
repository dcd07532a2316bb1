import RegArith.Proofs.Language.Acceptance

/-!
# The statements that a text starts with

Every text starts with some number of statements, and they end in one place only: where no other
statement can be read. `Leading` says which statements these are and what is left behind them,
without a word about parsing. The answer to a source is then a matter of what is left. If nothing
is, the statements are the program; if something is, they are lost, but the labels of the loops
among them stay used.

A text that is all statements can be put in front of any other text on lines of its own. Its
statements then come first, and what is left is what the other text leaves.

## Main definitions

* `Leading` — the statements at the start of a text, and the text behind them

## Main results

* `exists_leading`, `Leading.unique` — every text has its leading statements
* `Leading.parse_eq_ok`, `Leading.parse_eq_error` — the answer to a source
* `Leading.append` — texts in a row
-/

namespace RegArith

/-- The text `s` starts with the statements `us`, with layout around them, and no statement can be
read from the text `r` that is left. -/
structure Leading (s : List Char) (us : List Unlabelled) (r : List Char) : Prop where
  /-- The statements are what stands in front of `r`. -/
  read : ∃ ts, Lang.stmt.star ts us ∧ Spells ts (skip s) r
  /-- There are no more of them. -/
  stuck : NoStatement r

/-! ### Sources -/

/-- The parser reads the leading statements of a source and no others. -/
theorem leading_run (source : String) :
    ∃ y : Output (List Unlabelled),
      Leading source.toList y.value (rest (sourceTokens source) y.next) ∧
      (∀ us r, Leading source.toList us r →
        y.value = us ∧ rest (sourceTokens source) y.next = r) ∧
      ∀ count, parse source count =
        (if y.next < source.length then .error (.noParse y.furthest)
          else .ok ⟨((labelAll y.value).run count).1⟩, ((labelAll y.value).run count).2) := by
  obtain ⟨m, y, -, hrest, hexact, hend, hparse⟩ := parse_run source
  obtain ⟨-, ts, hts, hspells⟩ := hexact.sound y rfl
  refine ⟨y, ⟨⟨ts, hts, hrest ▸ hspells⟩, hend⟩, ?_, hparse⟩
  rintro us r ⟨⟨ts, hts, hspells⟩, hstuck⟩
  exact hexact.unique hts (hrest ▸ hspells) hstuck

theorem exists_leading (s : List Char) : ∃ us r, Leading s us r := by
  obtain ⟨y, hlead, -⟩ := leading_run (String.ofList s)
  rw [String.toList_ofList] at hlead
  exact ⟨_, _, hlead⟩

theorem Leading.unique {s r r' : List Char} {us us' : List Unlabelled} (h : Leading s us r)
    (h' : Leading s us' r') : us = us' ∧ r = r' := by
  obtain ⟨y, -, hall, -⟩ := leading_run (String.ofList s)
  rw [String.toList_ofList] at hall
  obtain ⟨hus, hr⟩ := hall us r h
  obtain ⟨hus', hr'⟩ := hall us' r' h'
  exact ⟨hus.symm.trans hus', hr.symm.trans hr'⟩

/-- A source with nothing left behind its statements is a program. -/
theorem Leading.parse_eq_ok {source : String} {us : List Unlabelled}
    (h : Leading source.toList us []) (count : Nat) :
    parse source count = (.ok ⟨((labelAll us).run count).1⟩, ((labelAll us).run count).2) := by
  obtain ⟨y, -, hall, hparse⟩ := leading_run source
  obtain ⟨rfl, hnil⟩ := hall us [] h
  rw [rest_eq_nil_iff, size_sourceTokens] at hnil
  rw [hparse count, if_neg (Nat.not_lt.2 hnil)]

/-- A source with something left is none. Its index does not depend on the labels, which are
taken for the leading statements nevertheless. -/
theorem Leading.parse_eq_error {source : String} {us : List Unlabelled} {r : List Char}
    (h : Leading source.toList us r) (hr : r ≠ []) :
    ∃ i, ∀ count, parse source count = (.error (.noParse i), ((labelAll us).run count).2) := by
  obtain ⟨y, -, hall, hparse⟩ := leading_run source
  obtain ⟨rfl, rfl⟩ := hall us r h
  rw [Ne, rest_eq_nil_iff, size_sourceTokens, Nat.not_le] at hr
  exact ⟨y.furthest, fun count => by rw [hparse count, if_pos hr]⟩

/-- What the answer to a source says about its leading statements. -/
theorem leading_of_parse_eq_ok {source : String} {count count' : Nat} {p : Program}
    (h : parse source count = (.ok p, count')) :
    ∃ us, Leading source.toList us [] ∧ (labelAll us).run count = (p.stmts, count') := by
  obtain ⟨us, r, hlead⟩ := exists_leading source.toList
  by_cases hr : r = []
  · subst hr
    rw [hlead.parse_eq_ok count, Prod.mk.injEq, Except.ok.injEq] at h
    obtain ⟨rfl, rfl⟩ := h
    exact ⟨us, hlead, rfl⟩
  · obtain ⟨i, hparse⟩ := hlead.parse_eq_error hr
    rw [hparse count, Prod.mk.injEq] at h
    cases h.1

/-! ### Texts in a row -/

/-- A text that is all statements, with another one on the lines below it. -/
theorem Leading.append {s s' r : List Char} {us us' : List Unlabelled} (h : Leading s us [])
    (h' : Leading s' us' r) : Leading (s ++ '\n' :: s') (us ++ us') r := by
  obtain ⟨ts, hts, hspells⟩ := h.read
  obtain ⟨ts', hts', hspells'⟩ := h'.read
  refine ⟨⟨ts ++ ts', star_append hts hts', ?_⟩, h'.stuck⟩
  exact spells_append.2 ⟨skip s', hspells.append_newline s', hspells'⟩

theorem labelAll_append (us us' : List Unlabelled) (count : Nat) :
    (labelAll (us ++ us')).run count =
      (((labelAll us).run count).1 ++ ((labelAll us').run ((labelAll us).run count).2).1,
        ((labelAll us').run ((labelAll us).run count).2).2) := by
  rw [labelAll, List.mapM_append]
  rfl

end RegArith
