import CaptureTree.Inconsistency

/-!
# Well-placed traces

Before a trace is read it is checked against the pattern and the input.  A frame
belongs to a part of the pattern, its *scope*: the whole pattern for the root
frame, and the body of the quantifier for an iteration.  Every record has to be
for a node of its frame's scope, of the kind that has such records; spans have
to fit the input, and choices the alternation.

The records of a frame are looked at by kind: spans, then choices, then
iterations together with what is inside them.
-/

namespace CaptureTree

namespace Trace

/-- The node of the scope that a record is for, provided it is of the right
kind. -/
def placeOf (scope : Option Located) (r : Record) (expected : NodeKind) :
    Except Inconsistency Located :=
  match scope.bind fun p => p.find r.node with
  | none => .error (.outsideFrame r.kind)
  | some p => if p.kind = expected then .ok p else .error (.wrongNode r.kind p.kind)

/-- Checks a record if it is a span. -/
def checkSpan (scope : Option Located) (size : Nat) (r : Record) : Except Inconsistency Unit :=
  match r with
  | .span _ s => do
    let _ ← placeOf scope r .capture
    if s.fits size then return () else .error (.badSpan s size)
  | _ => .ok ()

/-- Checks a record if it is a choice. -/
def checkChoice (scope : Option Located) (r : Record) : Except Inconsistency Unit :=
  match r with
  | .choice _ i => do
    let a ← placeOf scope r .alternation
    if i < a.children.length then return () else .error (.badChoice i a.children.length)
  | _ => .ok ()

mutual
/-- Checks a record if it is an iteration, with everything inside it. -/
def checkIteration (size : Nat) (scope : Option Located) : Record → Except Inconsistency Unit
  | .iteration n frame => do
    let q ← placeOf scope (.iteration n frame) .quantifier
    frame.forM (checkSpan q.body size)
    frame.forM (checkChoice q.body)
    checkIterations size q.body frame
  | _ => .ok ()

/-- Checks the iterations of a frame, one after the other. -/
def checkIterations (size : Nat) (scope : Option Located) : List Record → Except Inconsistency Unit
  | [] => .ok ()
  | r :: rest => do
    checkIteration size scope r
    checkIterations size scope rest
end

/-- Checks that every record of the trace is in its place in the pattern, and
that every span fits an input of `size` bytes. -/
def check (p : Located) (size : Nat) (t : Trace) : Except Inconsistency Unit := do
  t.forM (checkSpan (some p) size)
  t.forM (checkChoice (some p))
  checkIterations size (some p) t

end Trace

end CaptureTree
