import Mathlib.Control.Monad.Basic
import RegArith.Proofs.Language.Blame
import RegArith.Proofs.Language.Leading

/-!
# Sources in a row

A program with a line feed and another source behind it is read as the two of them one after the
other: the second one takes the labels that the first one left, its statements come behind those
of the first one, and its error, if there is one, is the error of the whole.

For the statements this is a matter of the leading statements of texts. The index of an error is
another matter, since it is the furthest one that any attempt reached, those at the first source
included. Here the index is pinned down by what can be completed: it ends the longest start of the
source that begins a program, and there is one such start only. A text behind a program and a line
feed begins a program exactly if it does so alone, so the longest starts correspond.

## Main definitions

* `Begins` — the text is the start of a program
* `LongestStart` — the first so many characters begin a program, and no more of them do

## Main results

* `longestStart_of_parse` — where the index of an error stands
* `LongestStart.append` — the same index behind a program
* `parse_append_newline` — the answer to two sources in a row
-/

namespace RegArith

/-! ### Starts of programs -/

/-- Some program starts with this text. -/
def Begins (w : List Char) : Prop := ∃ t us, Leading (w ++ t) us []

theorem begins_iff_parse {w : List Char} (count : Nat) :
    Begins w ↔ ∃ t p, (parse (String.ofList (w ++ t)) count).1 = .ok p := by
  constructor
  · rintro ⟨t, us, h⟩
    rw [← String.toList_ofList (l := w ++ t)] at h
    exact ⟨t, _, congrArg Prod.fst (h.parse_eq_ok count)⟩
  · rintro ⟨t, p, h⟩
    obtain ⟨us, hlead, -⟩ := leading_of_parse_eq_ok (Prod.ext h rfl)
    rw [String.toList_ofList] at hlead
    exact ⟨t, us, hlead⟩

theorem Begins.of_isPrefix {w w' : List Char} (h : Begins w') (hw : w <+: w') : Begins w := by
  obtain ⟨u, rfl⟩ := hw
  obtain ⟨t, us, h⟩ := h
  exact ⟨u ++ t, us, by rwa [← List.append_assoc]⟩

/-- Behind a program and a line feed, the same texts begin a program as alone. -/
theorem begins_append_newline {s w : List Char} {us : List Unlabelled} (hs : Leading s us []) :
    Begins (s ++ '\n' :: w) ↔ Begins w := by
  constructor
  · rintro ⟨t, vs, h⟩
    -- nothing is left of the whole, and what is left is what the second text leaves
    obtain ⟨us', r, h'⟩ := exists_leading (w ++ t)
    rw [List.append_assoc, List.cons_append] at h
    obtain ⟨-, rfl⟩ := (hs.append h').unique h
    exact ⟨t, us', h'⟩
  · rintro ⟨t, vs, h⟩
    refine ⟨t, us ++ vs, ?_⟩
    rw [List.append_assoc, List.cons_append]
    exact hs.append h

/-! ### The longest start -/

/-- The first `i` characters begin a program, and if there are more, one more do not. -/
structure LongestStart (s : List Char) (i : Nat) : Prop where
  le_length : i ≤ s.length
  begins : Begins (s.take i)
  not_begins : i < s.length → ¬Begins (s.take (i + 1))

theorem LongestStart.le {s : List Char} {i k : Nat} (h : LongestStart s i)
    (h' : LongestStart s k) : k ≤ i := by
  by_contra hlt
  have hk := h'.le_length
  refine h.not_begins (by omega) (h'.begins.of_isPrefix ?_)
  exact List.take_prefix_take_left (by omega)

theorem LongestStart.unique {s : List Char} {i k : Nat} (h : LongestStart s i)
    (h' : LongestStart s k) : i = k :=
  Nat.le_antisymm (h'.le h) (h.le h')

/-- The index of an error ends the longest start. -/
theorem longestStart_of_parse {source : String} {count i : Nat}
    (h : (parse source count).1 = .error (.noParse i)) : LongestStart source.toList i := by
  obtain ⟨m, y, -, -, -, -, hi, -⟩ := parse_error_run h
  refine ⟨by rwa [String.length_toList], ?_, fun hlt hbegins => ?_⟩
  · obtain ⟨t, ht⟩ := exists_completion h
    obtain ⟨p, hp⟩ := ht count
    exact (begins_iff_parse count).2 ⟨t, p, hp⟩
  · rw [String.length_toList] at hlt
    obtain ⟨t, p, hp⟩ := (begins_iff_parse count).1 hbegins
    obtain ⟨e, he⟩ := parse_error_of_agree h (agreeUpTo_take_append hlt t) (by
      rw [String.length_ofList, List.length_append, List.length_take, String.length_toList]
      omega)
    rw [he] at hp
    cases hp

/-- Behind a program and a line feed, the longest start ends at the same character. -/
theorem LongestStart.append {s s' : List Char} {us : List Unlabelled} {i : Nat}
    (hs : Leading s us []) (h : LongestStart s' i) :
    LongestStart (s ++ '\n' :: s') (s.length + 1 + i) := by
  have htake (k : Nat) : (s ++ '\n' :: s').take (s.length + 1 + k) = s ++ '\n' :: s'.take k := by
    rw [Nat.add_assoc, List.take_length_add_append, Nat.add_comm 1 k, List.take_succ_cons]
  have hlength : (s ++ '\n' :: s').length = s.length + 1 + s'.length := by
    rw [List.length_append, List.length_cons]
    omega
  refine ⟨?_, ?_, fun hlt => ?_⟩
  · have := h.le_length
    omega
  · rw [htake, begins_append_newline hs]
    exact h.begins
  · rw [Nat.add_assoc, htake, begins_append_newline hs]
    exact h.not_begins (by omega)

/-! ### Two sources -/

theorem toList_append_newline (source source' : String) :
    (source ++ "\n" ++ source').toList = source.toList ++ '\n' :: source'.toList := by
  rw [String.toList_append, String.toList_append, List.append_assoc]
  rfl

/-- **Sources in a row.** A program with a line feed and another source behind it is read as the
program and then the source, with the labels that the program left. If the source is a program as
well, the statements of both come back in order. If it is not, its index is moved behind the
program and the line feed. The labels end up the same as when the two are read one by one. -/
theorem parse_append_newline (source source' : String) (count count' : Nat) (p : Program)
    (h : parse source count = (.ok p, count')) :
    (∃ p' count'', parse source' count' = (.ok p', count'') ∧
      parse (source ++ "\n" ++ source') count = (.ok ⟨p.stmts ++ p'.stmts⟩, count'')) ∨
    (∃ i count'', parse source' count' = (.error (.noParse i), count'') ∧
      parse (source ++ "\n" ++ source') count =
        (.error (.noParse (source.length + 1 + i)), count'')) := by
  obtain ⟨us, hlead, hlabels⟩ := leading_of_parse_eq_ok h
  obtain ⟨us', r, hlead'⟩ := exists_leading source'.toList
  have hboth := hlead.append hlead'
  rw [← toList_append_newline] at hboth
  have hlabels' := labelAll_append us us' count
  rw [hlabels] at hlabels'
  by_cases hr : r = []
  · subst hr
    refine .inl ⟨_, _, hlead'.parse_eq_ok count', ?_⟩
    rw [hboth.parse_eq_ok count, hlabels']
  · obtain ⟨i, hi⟩ := hlead'.parse_eq_error hr
    obtain ⟨k, hk⟩ := hboth.parse_eq_error hr
    -- both errors end the longest start of their source
    have hstart := longestStart_of_parse (congrArg Prod.fst (hi count'))
    have hstart' := longestStart_of_parse (congrArg Prod.fst (hk count))
    rw [toList_append_newline] at hstart'
    obtain rfl := hstart'.unique (hstart.append hlead)
    refine .inr ⟨i, _, hi count', ?_⟩
    rw [hk count, hlabels', String.length_toList]

/-- A program that ends inside a comment, and a source that fails behind a loop of its own. -/
theorem parse_append_newline_open_comment :
    parse "loop 2 \x7b r10 = 1; \x7d # r11 =" 5 =
        (.ok ⟨[.loop ⟨⟨5⟩, .num 2, ⟨.r10, .num 1⟩⟩]⟩, 6) ∧
      parse "loop 3 \x7b r11 = 2; \x7d r1" 6 = (.error (.noParse 22), 7) ∧
      parse ("loop 2 \x7b r10 = 1; \x7d # r11 =" ++ "\n" ++ "loop 3 \x7b r11 = 2; \x7d r1") 5 =
        (.error (.noParse 50), 7) := by
  have h : parse "loop 2 \x7b r10 = 1; \x7d # r11 =" 5 =
      (.ok ⟨[.loop ⟨⟨5⟩, .num 2, ⟨.r10, .num 1⟩⟩]⟩, 6) :=
    Prod.ext (by decide +kernel) (by decide +kernel)
  have h' : parse "loop 3 \x7b r11 = 2; \x7d r1" 6 = (.error (.noParse 22), 7) :=
    Prod.ext (by decide +kernel) (by decide +kernel)
  refine ⟨h, h', ?_⟩
  obtain ⟨p, n, hp, -⟩ | ⟨i, n, hi, hall⟩ :=
    parse_append_newline _ "loop 3 \x7b r11 = 2; \x7d r1" _ _ _ h
  · rw [h'] at hp
    cases hp
  · rw [h'] at hi
    cases hi
    exact hall

end RegArith
