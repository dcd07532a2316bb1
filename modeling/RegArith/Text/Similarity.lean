/-!
# Similarity of words

The Jaro similarity of two words: it counts the characters they share at nearby places and how
many of those are out of order.

## Main definitions

* `sharedPlaces` — pairs of places with a shared character
* `similarity` — from `0` for nothing in common to `1` for the same word
-/

namespace RegArith

/-- The first place at most `reach` away from `i` that holds `c` and is not taken. -/
def nearbyPlace (word : List Char) (reach i : Nat) (c : Char) (taken : List Nat) : Option Nat :=
  (List.range word.length).find? fun j =>
    i ≤ j + reach && j ≤ i + reach && word[j]? == some c && !taken.contains j

/-- Pairs of places of the two words with the same character. Characters of the first word are
taken in order, each with the first place of the second that is near enough and still free. -/
def sharedPlaces (a b : List Char) : List (Nat × Nat) :=
  let reach := max a.length b.length / 2 - 1
  a.zipIdx.foldl
    (fun shared (c, i) =>
      match nearbyPlace b reach i c (shared.map Prod.snd) with
      | some j => shared ++ [(i, j)]
      | none => shared)
    []

/-- The Jaro similarity of two words. -/
def similarity (a b : List Char) : Float :=
  let shared := sharedPlaces a b
  let inFirst := shared.map fun (i, _) => a[i]?
  let inSecond := (List.range b.length).filter ((shared.map Prod.snd).contains ·) |>.map (b[·]?)
  let transpositions := ((inFirst.zip inSecond).countP fun (x, y) => x != y) / 2
  let count := shared.length
  if a.isEmpty && b.isEmpty then 1.0
  else if count = 0 then 0.0
  else
    (count.toFloat / a.length.toFloat + count.toFloat / b.length.toFloat +
      (count - transpositions).toFloat / count.toFloat) / 3.0

end RegArith
