import RegArith.Proofs.Parsing.Coupling
import RegArith.Proofs.Parsing.Repetition

/-!
# Leftmost matches

A search for all matches goes over the starts from left to right, once. Behind a match it goes on
where the match ended, and one token further if the match was empty; so no start is tried twice, and
the starts that are left out lie inside of a match.

Actions may change the state, and then what a parser comes to at a start depends on when it is
tried. `before k` is the state in which the sweep comes to the start `k`. If actions are pure, it is
the same for all starts, and what the parser comes to is a matter of the start alone.

References may have to be unfolded deeper at one start than at another. A computation that is made
from attempts at some depth ends in the same way at every greater depth, which is stated here once
for all the ways to put attempts together.

## Main definitions

* `Deepening`, `Settles` — computations at all depths, and what they come to
* `Parser.Finds` — the result of using a parser in some mode
* `Hit` — a match with its start
* `Parser.Sweeps` — one pass over the starts, with the matches that it finds
* `Parser.Leftmost` — matches from left to right, none overlapping another and none left out

## Main results

* `Settles.unique`, `Settles.bind` — depths out of the way
* `Parser.EndsFrom.exists_sweeps` — where parses end, the sweep ends
* `Parser.Sweeps.finds_searchAll`, `Parser.Sweeps.finds_search` — searches are sweeps
* `Parser.searchAll_leftmost` — what a search for all matches comes to
-/

namespace RegArith

variable {σ τ α β γ : Type}

/-! ### Computations at all depths -/

/-- What ends at a depth ends at every greater depth, with the same result and in the same state. -/
def Deepening (x : Nat → StateT (Journal σ) Option γ) : Prop :=
  ∀ ⦃depth depth'⦄, depth ≤ depth' → Simulated Eq Eq (x depth) (x depth')

/-- From the state `s` the computation ends with a result, in the state `s'`, if it is deep
enough. -/
def Settles (x : Nat → StateT (Journal σ) Option γ) (s : σ) (r : γ) (s' : σ) : Prop :=
  ∃ depth j', x depth (.new s) = some (r, j') ∧ j'.state = s'

theorem deepening_pure (r : γ) :
    Deepening fun _ => (pure r : StateT (Journal σ) Option γ) :=
  fun _ _ _ => .pure rfl

theorem Deepening.bind {x : Nat → StateT (Journal σ) Option β}
    {f : Nat → β → StateT (Journal σ) Option γ} (hx : Deepening x)
    (hf : ∀ b, Deepening fun depth => f depth b) : Deepening fun depth => x depth >>= f depth := by
  intro depth depth' hle
  refine (hx hle).bind ?_
  rintro b _ rfl
  exact hf b hle

theorem settles_pure (s : σ) (r : γ) :
    Settles (fun _ => (pure r : StateT (Journal σ) Option γ)) s r s := ⟨0, .new s, rfl, rfl⟩

/-- One computation after the other, at the depth of the deeper. -/
theorem Settles.bind {x : Nat → StateT (Journal σ) Option β}
    {f : Nat → β → StateT (Journal σ) Option γ} {s s' s'' : σ} {b : β} {r : γ} (hx : Deepening x)
    (h : Settles x s b s') (hf : Deepening fun depth => f depth b)
    (h' : Settles (fun depth => f depth b) s' r s'') :
    Settles (fun depth => x depth >>= f depth) s r s'' := by
  obtain ⟨depth, j, h, rfl⟩ := h
  obtain ⟨depth', j', h', rfl⟩ := h'
  obtain ⟨_, j₁, h₁, rfl, hs₁⟩ := hx (Nat.le_max_left depth depth') rfl h
  have hnew : (Journal.new j.state).state = j₁.state := hs₁
  obtain ⟨_, j₂, h₂, rfl, hs₂⟩ := hf (Nat.le_max_right depth depth') hnew h'
  exact ⟨_, j₂, Attempt.bind_eq_some_iff.2 ⟨b, j₁, h₁, h₂⟩, hs₂.symm⟩

theorem Settles.unique {x : Nat → StateT (Journal σ) Option γ} (hx : Deepening x) {s s' s'' : σ}
    {r r' : γ} (h : Settles x s r s') (h' : Settles x s r' s'') : r = r' ∧ s' = s'' := by
  obtain ⟨depth, j, h, rfl⟩ := h
  obtain ⟨depth', j', h', rfl⟩ := h'
  obtain ⟨_, j₁, h₁, rfl, hs₁⟩ := hx (Nat.le_max_left depth depth') rfl h
  obtain ⟨_, j₂, h₂, rfl, hs₂⟩ := hx (Nat.le_max_right depth depth') rfl h'
  rw [h₁] at h₂
  cases h₂
  exact ⟨rfl, hs₁.trans hs₂.symm⟩

namespace Parser

variable {n : Nat} {ty : Fin n → Type} (rules : (r : Fin n) → Parser σ τ ty (ty r))
variable (p : Parser σ τ ty α) (tokens : Array τ)

theorem deepening_eval (i : Nat) : Deepening fun depth => p.eval rules depth tokens i := by
  intro depth depth' hle
  exact (mirrors_eval (Alignment.refl tokens) (fun r => (rules r).carries_eq) hle p p.carries_eq
    rfl).mono fun _ _ => Outcome.aligned_eq_iff.1

theorem deepening_search (start : Nat) :
    Deepening fun depth => (p.eval rules depth).search tokens start := by
  induction hleft : tokens.size - start generalizing start with
  | zero =>
    simp only [Attempt.search_eq_bind _ _ start, show ¬start < tokens.size by omega, ↓reduceIte]
    exact deepening_pure _
  | succ left ih =>
    simp only [Attempt.search_eq_bind _ _ start, show start < tokens.size by omega, ↓reduceIte]
    refine (p.deepening_eval rules tokens start).bind fun o => ?_
    cases o with
    | ok x => exact deepening_pure _
    | error e => exact ih (start + 1) (by omega)

theorem deepening_searchAllFrom (start : Nat) (found : List (Output α)) :
    Deepening fun depth => (p.eval rules depth).searchAllFrom tokens start found := by
  induction hleft : tokens.size - start using Nat.strong_induction_on generalizing start found with
  | h left ih =>
    by_cases hstart : start < tokens.size
    · simp only [Attempt.searchAllFrom_eq_bind _ _ start, hstart, ↓reduceIte]
      refine (p.deepening_eval rules tokens start).bind fun o => ?_
      cases o with
      | ok x => exact ih (tokens.size - max x.next (start + 1)) (by omega) _ _ rfl
      | error e => exact ih (tokens.size - (start + 1)) (by omega) _ _ rfl
    · simp only [Attempt.searchAllFrom_eq_bind _ _ start, hstart, ↓reduceIte]
      exact deepening_pure _

theorem deepening_find (mode : Mode) :
    Deepening fun depth => (p.eval rules depth).find mode tokens := by
  cases mode with
  | parse i => exact (p.deepening_eval rules tokens i).bind fun _ => deepening_pure _
  | search start => exact (p.deepening_search rules tokens start).bind fun _ => deepening_pure _
  | searchAll =>
    refine (p.deepening_searchAllFrom rules tokens 0 []).bind fun found => ?_
    cases found <;> exact deepening_pure _

/-! ### Using a parser -/

/-- From the state `s` the parser finds what the mode asks for, in the state `s'`, if references are
unfolded deep enough. -/
def Finds (mode : Mode) (s : σ) (result : Except NoMatch (List (Output α))) (s' : σ) : Prop :=
  Settles (fun depth => (p.eval rules depth).find mode tokens) s result s'

end Parser

/-! ### One pass over the starts -/

/-- A match and where it starts. -/
structure Hit (α : Type) where
  start : Nat
  output : Output α

namespace Hit

/-- The start from which to go on behind a match: its end, but at least one token further. -/
def resume (h : Hit α) : Nat := max h.output.next (h.start + 1)

theorem start_lt_resume (h : Hit α) : h.start < h.resume := Nat.le_max_right _ _

theorem next_le_resume (h : Hit α) : h.output.next ≤ h.resume := Nat.le_max_left _ _

theorem resume_le {h : Hit α} {k : Nat} (hnext : h.output.next ≤ k) (hstart : h.start < k) :
    h.resume ≤ k := Nat.max_le.2 ⟨hnext, hstart⟩

end Hit

namespace Parser

variable {n : Nat} {ty : Fin n → Type} {rules : (r : Fin n) → Parser σ τ ty (ty r)}
variable {p : Parser σ τ ty α} {tokens : Array τ}

/-- From a start on, the parser is tried at each start in turn, but not inside of a match, and finds
the given matches. The state in which it is tried at `k` is `before k`. -/
inductive Sweeps (rules : (r : Fin n) → Parser σ τ ty (ty r)) (p : Parser σ τ ty α)
    (tokens : Array τ) (before : Nat → σ) : Nat → List (Hit α) → Prop
  | done {start : Nat} (hstart : start = tokens.size) : Sweeps rules p tokens before start []
  | miss {start : Nat} {found : List (Hit α)} {e : NoMatch} (hstart : start < tokens.size)
      (he : p.EndsWith rules tokens start (before start) (.error e) (before (start + 1)))
      (hrest : Sweeps rules p tokens before (start + 1) found) :
      Sweeps rules p tokens before start found
  | hit {h : Hit α} {found : List (Hit α)} (hstart : h.start < tokens.size)
      (hx : p.EndsWith rules tokens h.start (before h.start) (.ok h.output) (before h.resume))
      (hrest : Sweeps rules p tokens before h.resume found) :
      Sweeps rules p tokens before h.start (h :: found)

namespace Sweeps

variable {before before' : Nat → σ} {start : Nat} {found : List (Hit α)}

/-- States of starts in front of the sweep do not matter. -/
theorem congr (hsweeps : p.Sweeps rules tokens before start found)
    (heq : ∀ k, start ≤ k → before k = before' k) : p.Sweeps rules tokens before' start found := by
  induction hsweeps with
  | done hstart => exact .done hstart
  | @miss start found e hstart he hrest ih =>
    rw [heq start (Nat.le_refl _), heq (start + 1) (Nat.le_succ _)] at he
    exact .miss hstart he (ih fun k hk => heq k (by omega))
  | @hit h found hstart hx hrest ih =>
    have hresume := h.start_lt_resume.le
    rw [heq h.start (Nat.le_refl _), heq h.resume hresume] at hx
    exact .hit hstart hx (ih fun k hk => heq k (hresume.trans hk))

/-- A sweep with another state for the starts in front of it. -/
theorem exists_before (hsweeps : p.Sweeps rules tokens before start found) (s : σ) :
    ∃ before', (∀ k < start, before' k = s) ∧ (∀ k, start ≤ k → before' k = before k) ∧
      p.Sweeps rules tokens before' start found := by
  refine ⟨fun k => if k < start then s else before k, fun k hk => if_pos hk,
    fun k hk => if_neg (Nat.not_lt.2 hk), ?_⟩
  exact hsweeps.congr fun k hk => (if_neg (Nat.not_lt.2 hk)).symm

end Sweeps

/-- Where parses end, the sweep ends. The induction is on the number of tokens that are left. -/
theorem EndsFrom.exists_sweeps {start : Nat} (hends : p.EndsFrom rules tokens start)
    (hstart : start ≤ tokens.size) (s : σ) :
    ∃ before found, before start = s ∧
      ((∀ r, (rules r).IsPure) → p.IsPure → ∀ k, before k = s) ∧
      p.Sweeps rules tokens before start found := by
  induction hleft : tokens.size - start using Nat.strong_induction_on generalizing start s with
  | h left ih =>
    obtain heq | hlt := Nat.eq_or_lt_of_le hstart
    · exact ⟨fun _ => s, [], rfl, fun _ _ _ => rfl, .done heq⟩
    obtain ⟨o, s', h⟩ := hends start (Nat.le_refl start) (Nat.le_max_left _ _) s
    have hrest (next : Nat) (hgt : start < next) (hle : next ≤ tokens.size) :
        ∃ before found, before start = s ∧ before next = s' ∧
          ((∀ r, (rules r).IsPure) → p.IsPure → ∀ k, before k = s) ∧
          p.Sweeps rules tokens before next found := by
      obtain ⟨before, found, hnext, hpure, hsweeps⟩ := ih (tokens.size - next) (by omega)
        (fun k hlo hhi => hends k (by omega) (by omega)) hle s' rfl
      obtain ⟨before', hfront, hbehind, hsweeps⟩ := hsweeps.exists_before s
      refine ⟨before', found, hfront start hgt, (hbehind next (Nat.le_refl next)).trans hnext,
        fun hrules hp k => ?_, hsweeps⟩
      obtain hk | hk := Nat.lt_or_ge k next
      · exact hfront k hk
      · rw [hbehind k hk, hpure hrules hp k, h.state_eq hrules hp]
    cases o with
    | error e =>
      obtain ⟨before, found, hnow, hnext, hpure, hsweeps⟩ :=
        hrest (start + 1) (Nat.lt_succ_self start) hlt
      rw [← hnow, ← hnext] at h
      exact ⟨before, found, hnow, hpure, .miss hlt h hsweeps⟩
    | ok x =>
      have hw := h.within
      simp only [Outcome.within_ok] at hw
      let hit : Hit α := ⟨start, x⟩
      have hle : hit.resume ≤ tokens.size := Hit.resume_le (by dsimp only [hit]; omega) hlt
      obtain ⟨before, found, hnow, hnext, hpure, hsweeps⟩ :=
        hrest hit.resume hit.start_lt_resume hle
      rw [← hnow, ← hnext] at h
      exact ⟨before, hit :: found, hnow, hpure, .hit hlt h hsweeps⟩

/-! ### Searches are sweeps -/

namespace Sweeps

variable {before : Nat → σ} {start : Nat} {found : List (Hit α)}

theorem settles_searchAllFrom (hsweeps : p.Sweeps rules tokens before start found)
    (earlier : List (Output α)) :
    Settles (fun depth => (p.eval rules depth).searchAllFrom tokens start earlier) (before start)
      (earlier.reverse ++ found.map Hit.output) (before tokens.size) := by
  induction hsweeps generalizing earlier with
  | done hstart =>
    subst hstart
    simp only [Attempt.searchAllFrom_eq_bind, Nat.lt_irrefl, ↓reduceIte, List.map_nil,
      List.append_nil]
    exact settles_pure _ _
  | @miss start found e hstart he hrest ih =>
    simp only [Attempt.searchAllFrom_eq_bind _ _ start, hstart, ↓reduceIte]
    exact .bind (p.deepening_eval rules tokens start) he
      (p.deepening_searchAllFrom rules tokens (start + 1) earlier) (ih earlier)
  | @hit h found hstart hx hrest ih =>
    have hcons := ih (h.output :: earlier)
    rw [List.reverse_cons, List.append_assoc, List.singleton_append] at hcons
    simp only [Attempt.searchAllFrom_eq_bind _ _ h.start, hstart, ↓reduceIte]
    exact .bind (p.deepening_eval rules tokens h.start) hx
      (p.deepening_searchAllFrom rules tokens h.resume (h.output :: earlier)) hcons

/-- A sweep that finds a match has the first match of a search. -/
theorem settles_search_cons {h : Hit α}
    (hsweeps : p.Sweeps rules tokens before start (h :: found)) :
    Settles (fun depth => (p.eval rules depth).search tokens start) (before start) (.ok h.output)
      (before h.resume) := by
  generalize hfound : h :: found = hits at hsweeps
  induction hsweeps with
  | done => cases hfound
  | @miss start found e hstart he hrest ih =>
    simp only [Attempt.search_eq_bind _ _ start, hstart, ↓reduceIte]
    exact .bind (p.deepening_eval rules tokens start) he
      (p.deepening_search rules tokens (start + 1)) (ih hfound)
  | @hit h found hstart hx hrest ih =>
    cases hfound
    simp only [Attempt.search_eq_bind _ _ h.start, hstart, ↓reduceIte]
    exact .bind (p.deepening_eval rules tokens h.start) hx (deepening_pure _) (settles_pure _ _)

theorem finds_searchAll (hsweeps : p.Sweeps rules tokens before 0 found) :
    p.Finds rules tokens .searchAll (before 0)
      (if found = [] then .error ⟨tokens.size⟩ else .ok (found.map Hit.output))
      (before tokens.size) := by
  refine .bind (p.deepening_searchAllFrom rules tokens 0 [])
    (hsweeps.settles_searchAllFrom []) ?_ ?_
  · cases found <;> exact deepening_pure _
  · cases found <;> exact settles_pure _ _

theorem finds_search {h : Hit α} (hsweeps : p.Sweeps rules tokens before start (h :: found)) :
    p.Finds rules tokens (.search start) (before start) (.ok [h.output]) (before h.resume) :=
  .bind (p.deepening_search rules tokens start) hsweeps.settles_search_cons (deepening_pure _)
    (settles_pure _ _)

/-! ### What a sweep finds -/

theorem parsed (hsweeps : p.Sweeps rules tokens before start found) {h : Hit α} (hh : h ∈ found) :
    start ≤ h.start ∧ h.start < tokens.size ∧
      p.EndsWith rules tokens h.start (before h.start) (.ok h.output) (before h.resume) := by
  induction hsweeps with
  | done => cases hh
  | miss hstart he hrest ih =>
    obtain ⟨hle, hparsed⟩ := ih hh
    exact ⟨Nat.le_of_succ_le hle, hparsed⟩
  | @hit g found hstart hx hrest ih =>
    obtain rfl | hh := List.mem_cons.1 hh
    · exact ⟨Nat.le_refl _, hstart, hx⟩
    · obtain ⟨hle, hparsed⟩ := ih hh
      exact ⟨g.start_lt_resume.le.trans hle, hparsed⟩

theorem apart (hsweeps : p.Sweeps rules tokens before start found) :
    found.Pairwise fun g h => g.resume ≤ h.start := by
  induction hsweeps with
  | done => exact .nil
  | miss _ _ _ ih => exact ih
  | hit _ _ hrest ih => exact .cons (fun h hh => (hrest.parsed hh).1) ih

/-- A start that the sweep comes by lies in the reach of a match, or the parser fails there. -/
theorem covered (hsweeps : p.Sweeps rules tokens before start found) {k : Nat} (hstart : start ≤ k)
    (hk : k < tokens.size) :
    (∃ h ∈ found, h.start ≤ k ∧ k < h.resume) ∨
      ∃ e, p.EndsWith rules tokens k (before k) (.error e) (before (k + 1)) := by
  induction hsweeps with
  | done hsize => omega
  | @miss start found e _ he hrest ih =>
    obtain rfl | hlt := Nat.eq_or_lt_of_le hstart
    · exact .inr ⟨e, he⟩
    · exact ih hlt
  | @hit g found _ hx hrest ih =>
    obtain hlt | hge := Nat.lt_or_ge k g.resume
    · exact .inl ⟨g, List.mem_cons_self, hstart, hlt⟩
    · obtain ⟨h, hh, hcover⟩ | hfails := ih hge
      · exact .inl ⟨h, List.mem_cons_of_mem _ hh, hcover⟩
      · exact .inr hfails

/-- Behind one of its matches the sweep is a sweep. -/
theorem behind (hsweeps : p.Sweeps rules tokens before start found) {i : Nat} {h : Hit α}
    (hi : found[i]? = some h) : p.Sweeps rules tokens before h.resume (found.drop (i + 1)) := by
  induction hsweeps generalizing i with
  | done => cases hi
  | miss _ _ _ ih => exact ih hi
  | hit _ _ hrest ih =>
    cases i with
    | zero =>
      cases hi
      exact hrest
    | succ i => exact ih hi

end Sweeps

/-! ### Leftmost matches -/

/-- In the state `s` the parser matches at `i`. -/
def MatchesAt (rules : (r : Fin n) → Parser σ τ ty (ty r)) (p : Parser σ τ ty α) (tokens : Array τ)
    (i : Nat) (s : σ) : Prop :=
  ∃ x s', p.EndsWith rules tokens i s (.ok x) s'

/-- The matches of the parser from left to right, none overlapping another and none left out, if the
starts are tried in the states `before`. -/
structure Leftmost (rules : (r : Fin n) → Parser σ τ ty (ty r)) (p : Parser σ τ ty α)
    (tokens : Array τ) (before : Nat → σ) (found : List (Hit α)) : Prop where
  /-- Each match is what the parser comes to at a start in front of a token. -/
  parsed : ∀ h ∈ found, h.start < tokens.size ∧
    p.EndsWith rules tokens h.start (before h.start) (.ok h.output) (before h.resume)
  /-- Starts increase, and no match reaches beyond the start of a later one. -/
  apart : found.Pairwise fun g h => g.start < h.start ∧ g.output.next ≤ h.start
  /-- A start at which the parser matches is the start of a match or lies strictly inside of one. -/
  complete : ∀ k < tokens.size, p.MatchesAt rules tokens k (before k) →
    ∃ h ∈ found, k = h.start ∨ h.start < k ∧ k < h.output.next
  /-- At any other start the parser fails, and the next start is tried in the state it leaves. -/
  missed : ∀ k < tokens.size, (∀ h ∈ found, ¬(k = h.start ∨ h.start < k ∧ k < h.output.next)) →
    ∃ e, p.EndsWith rules tokens k (before k) (.error e) (before (k + 1))
  /-- The first match is the one that a search from the first token finds. -/
  first : ∀ h, found[0]? = some h →
    p.Finds rules tokens (.search 0) (before 0) (.ok [h.output]) (before h.resume)
  /-- Every other match is the one that a search finds from the end of the match in front of it, or
  one token behind the start of that. -/
  next : ∀ i g h, found[i]? = some g → found[i + 1]? = some h →
    p.Finds rules tokens (.search (max g.output.next (g.start + 1)))
      (before (max g.output.next (g.start + 1))) (.ok [h.output]) (before h.resume)

theorem Sweeps.leftmost {before : Nat → σ} {found : List (Hit α)}
    (hsweeps : p.Sweeps rules tokens before 0 found) : p.Leftmost rules tokens before found where
  parsed h hh := (hsweeps.parsed hh).2
  apart := hsweeps.apart.imp fun {g h} hle =>
    ⟨g.start_lt_resume.trans_le hle, g.next_le_resume.trans hle⟩
  complete k hk hmatches := by
    obtain ⟨x, s', hx⟩ := hmatches
    obtain ⟨h, hh, hle, hlt⟩ | ⟨e, he⟩ := hsweeps.covered (Nat.zero_le k) hk
    · refine ⟨h, hh, ?_⟩
      rw [Hit.resume] at hlt
      omega
    · cases (hx.unique he).1
  missed k hk hout := by
    obtain ⟨h, hh, hle, hlt⟩ | hfails := hsweeps.covered (Nat.zero_le k) hk
    · refine absurd ?_ (hout h hh)
      rw [Hit.resume] at hlt
      omega
    · exact hfails
  first h hh := by
    cases found with
    | nil => cases hh
    | cons g found =>
      cases hh
      exact hsweeps.finds_search
  next i g h hg hh := by
    have hbehind := hsweeps.behind hg
    obtain ⟨hlt, hget⟩ := List.getElem?_eq_some_iff.1 hh
    rw [List.drop_eq_getElem_cons hlt, hget] at hbehind
    exact hbehind.finds_search

/-- There are no matches exactly if the parser matches in front of no token. -/
theorem Leftmost.eq_nil_iff {before : Nat → σ} {found : List (Hit α)}
    (h : p.Leftmost rules tokens before found) :
    found = [] ↔ ∀ k < tokens.size, ¬p.MatchesAt rules tokens k (before k) := by
  constructor
  · rintro rfl k hk hmatches
    obtain ⟨g, hg, -⟩ := h.complete k hk hmatches
    cases hg
  · intro hnone
    refine List.eq_nil_iff_forall_not_mem.2 fun g hg => ?_
    obtain ⟨hsize, hparsed⟩ := h.parsed g hg
    exact hnone g.start hsize ⟨_, _, hparsed⟩

/-- **A search for all matches finds the leftmost ones.** Let the parser end wherever it is started,
in every state. Then the search ends, and it has one result: a failure at the end of the tokens if
the parser matches in front of no token, and otherwise the outputs of the leftmost matches. The
starts are tried in the states `before`, of which the first is the one that the search begins in;
with pure actions, it is the only one. -/
theorem searchAll_leftmost (rules : (r : Fin n) → Parser σ τ ty (ty r)) (p : Parser σ τ ty α)
    (tokens : Array τ) (hends : p.EndsFrom rules tokens 0) (s : σ) :
    ∃ (result : Except NoMatch (List (Output α))) (before : Nat → σ) (found : List (Hit α)),
      (∀ r s', p.Finds rules tokens .searchAll s r s' ↔ r = result ∧ s' = before tokens.size) ∧
      (result = .error ⟨tokens.size⟩ ↔
        ∀ k < tokens.size, ¬p.MatchesAt rules tokens k (before k)) ∧
      (result ≠ .error ⟨tokens.size⟩ → result = .ok (found.map Hit.output)) ∧
      p.Leftmost rules tokens before found ∧
      before 0 = s ∧ ((∀ r, (rules r).IsPure) → p.IsPure → ∀ k, before k = s) := by
  obtain ⟨before, found, rfl, hpure, hsweeps⟩ := hends.exists_sweeps (Nat.zero_le _) s
  have hfinds := hsweeps.finds_searchAll
  have hnone := hsweeps.leftmost.eq_nil_iff
  refine ⟨if found = [] then .error ⟨tokens.size⟩ else .ok (found.map Hit.output), before, found,
    fun r s' => ⟨fun h => ?_, ?_⟩, ?_, ?_, hsweeps.leftmost, rfl, hpure⟩
  · exact h.unique (p.deepening_find rules tokens .searchAll) hfinds
  · rintro ⟨rfl, rfl⟩
    exact hfinds
  · rw [← hnone]
    split <;> simp_all
  · split <;> simp

/-- Rows of bracketed groups in `x()(`. There is a row without a group in front of the `x`, then the
row with one group, and then again a row without a group, as the last bracket is not closed. -/
theorem searchAll_leftmost_bracket_groups :
    (rule 0).EndsFrom bracketGroups #['x', '(', ')', '('] 0 ∧
    (rule 0).Finds bracketGroups #['x', '(', ')', '('] .searchAll ()
      (.ok [⟨0, 0, 0⟩, ⟨1, 3, 4⟩, ⟨0, 3, 4⟩]) () ∧
    ∃ found : List (Hit Nat), found.map Hit.output = [⟨0, 0, 0⟩, ⟨1, 3, 4⟩, ⟨0, 3, 4⟩] ∧
      (rule 0).Leftmost bracketGroups #['x', '(', ')', '('] (fun _ => ()) found := by
  have hends : (rule 0).EndsFrom bracketGroups #['x', '(', ')', '('] 0 := by
    intro k _ hk s
    have hparses : ∀ k ≤ 4, ((rule 0).eval bracketGroups 3 #['x', '(', ')', '('] k
        (.new ())).isSome := by decide +kernel
    obtain ⟨⟨o, j'⟩, ho⟩ := Option.isSome_iff_exists.1 (hparses k hk)
    exact ⟨o, (), 3, j', ho, rfl⟩
  have hrun : (((rule 0).eval bracketGroups 3).find .searchAll #['x', '(', ')', '(']
      (.new ())).map Prod.fst = some (.ok [⟨0, 0, 0⟩, ⟨1, 3, 4⟩, ⟨0, 3, 4⟩]) := by decide +kernel
  obtain ⟨⟨result, j'⟩, hfind, rfl⟩ := Option.map_eq_some_iff.1 hrun
  have hfinds : (rule 0).Finds bracketGroups #['x', '(', ')', '('] .searchAll ()
      (.ok [⟨0, 0, 0⟩, ⟨1, 3, 4⟩, ⟨0, 3, 4⟩]) () := ⟨3, j', hfind, rfl⟩
  obtain ⟨result, before, found, hone, -, hfound, hleftmost, -⟩ :=
    searchAll_leftmost bracketGroups (rule 0) #['x', '(', ')', '('] hends ()
  obtain ⟨rfl, -⟩ := (hone _ _).1 hfinds
  exact ⟨hends, hfinds, found, (Except.ok.inj (hfound (by simp))).symm, hleftmost⟩

end Parser

end RegArith
