import RegArith.Language.Program

/-!
# Label counters

Labels are numbered by counters. A counter is reached through handles: a new handle has a counter
of its own, starting at zero, and a shared handle has the counter of another handle. A number
that was handed out stays used.

## Main definitions

* `Counters` — counters and the handles on them
* `Counters.addNew`, `share` — new handles
* `Counters.count`, `use`, `fresh` — the counter behind a handle

## Main results

* `Counters.counter_lt` — every handle leads to a counter
* `Counters.counter_addNew`, `counter_share` — a new handle leaves the others on their counters
-/

namespace RegArith

/-- The next label of a counter that has handed out `n` labels. -/
def Label.fresh : StateM Nat Label := fun n => (⟨n⟩, n + 1)

/-- Counters, and for each handle the number of its counter. -/
structure Counters where
  /-- How many labels each counter has handed out. -/
  counts : Array Nat
  /-- The counter of each handle. -/
  handles : Array Nat
  /-- There is a first counter. -/
  counts_pos : 0 < counts.size
  /-- Handles lead to counters. -/
  handles_lt : ∀ k ∈ handles, k < counts.size

namespace Counters

/-- One handle on one new counter. -/
def new : Counters := ⟨#[0], #[0], by decide, by decide⟩

/-- The number of the counter of a handle; a handle that was never given out leads to the first
counter. -/
def counter (c : Counters) (handle : Nat) : Nat := c.handles.getD handle 0

theorem counter_lt (c : Counters) (handle : Nat) : c.counter handle < c.counts.size := by
  unfold counter Array.getD
  split
  · exact c.handles_lt _ (Array.getElem_mem _)
  · exact c.counts_pos

/-- How many labels the counter of `handle` has handed out. -/
def count (c : Counters) (handle : Nat) : Nat := c.counts.getD (c.counter handle) 0

/-- Adds a new counter; the answer is its handle. -/
def addNew (c : Counters) : Nat × Counters :=
  (c.handles.size,
    { counts := c.counts.push 0
      handles := c.handles.push c.counts.size
      counts_pos := by simp
      handles_lt := by
        intro k hk
        rcases Array.mem_push.1 hk with hk | rfl
        · have := c.handles_lt k hk
          simp only [Array.size_push]
          omega
        · simp })

/-- Adds a handle on the counter of `handle`; the answer is the new handle. -/
def share (c : Counters) (handle : Nat) : Nat × Counters :=
  (c.handles.size,
    { c with
      handles := c.handles.push (c.counter handle)
      handles_lt := by
        intro k hk
        rcases Array.mem_push.1 hk with hk | rfl
        · exact c.handles_lt k hk
        · exact c.counter_lt handle })

/-- Runs an action on the counter of `handle`. -/
def use {α : Type} (c : Counters) (handle : Nat) (action : StateM Nat α) : α × Counters :=
  let (answer, count) := action.run (c.count handle)
  (answer,
    { c with
      counts := c.counts.setIfInBounds (c.counter handle) count
      counts_pos := by simpa using c.counts_pos
      handles_lt := by simpa using c.handles_lt })

/-- The next label of the counter of `handle`. -/
def fresh (c : Counters) (handle : Nat) : Label × Counters := c.use handle Label.fresh

/-! ### Handles after a new one -/

theorem counter_addNew {c : Counters} {h : Nat} (hh : h < c.handles.size) :
    c.addNew.2.counter h = c.counter h := by
  simp [counter, addNew, Array.getElem?_push, Nat.ne_of_lt hh]

theorem counter_share {c : Counters} {handle h : Nat} (hh : h < c.handles.size) :
    (c.share handle).2.counter h = c.counter h := by
  simp [counter, share, Array.getElem?_push, Nat.ne_of_lt hh]

end Counters

end RegArith
