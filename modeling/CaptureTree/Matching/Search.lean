import CaptureTree.Matching.Cost

/-!
# Matching and searching

`Attempt.first` works through a list of attempts, the first of them first, until
one has nothing left to do and is accepted.  Attempts that take the place of
another one go in front, so alternatives are tried in depth before the next one
is looked at: earlier branches are preferred, and loops go round as often as
they can.

`Located.match?` matches the whole input, and `Located.search?` finds the
leftmost place where the pattern matches.
-/

namespace CaptureTree

/-- The first accepted attempt among those that `attempts` lead to, in order of
preference. -/
def Attempt.first (accept : Cursor → Bool) (attempts : List Attempt) : Option Attempt :=
  match attempts with
  | [] => none
  | ⟨[], c, records⟩ :: others =>
    if accept c then some ⟨[], c, records⟩ else first accept others
  | ⟨task :: rest, c, records⟩ :: others =>
    first accept (step task rest c records ++ others)
termination_by totalCost attempts
decreasing_by
  · simp only [totalCost_cons, Attempt.cost, tasksCost, List.foldr_nil]
    omega
  · have := totalCost_step_lt task rest c records
    simp only [totalCost_append, totalCost_cons]
    unfold Attempt.cost
    simp only
    omega

namespace Located

/-- Matches the pattern from a cursor on: the span of the match and its trace.
Only an end that is accepted counts. -/
def matchFrom? (p : Located) (accept : Cursor → Bool) (c : Cursor) : Option (Span × Trace) :=
  (Attempt.first accept [⟨[.visit p], c, []⟩]).map fun a =>
    (⟨c.pos, a.cursor.pos⟩, a.records.reverse)

/-- Matches the whole input. -/
def match? (p : Located) (input : Bytes) : Option (Span × Trace) :=
  p.matchFrom? (fun c => c.left == 0) (Cursor.ofInput input)

/-- Tries one place after the other, `pos` being the number of bytes before the
first and `left` the number after it. -/
def searchFrom? (p : Located) (pos left : Nat) : Bytes → Option (Span × Trace)
  | [] => p.matchFrom? (fun _ => true) ⟨pos, left, []⟩
  | b :: rest =>
    match p.matchFrom? (fun _ => true) ⟨pos, left, b :: rest⟩ with
    | some found => some found
    | none => searchFrom? p (pos + 1) (left - 1) rest

/-- Finds the leftmost match. -/
def search? (p : Located) (input : Bytes) : Option (Span × Trace) :=
  p.searchFrom? 0 input.length input

end Located

end CaptureTree
