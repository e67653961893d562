import CaptureTree.Captures
import CaptureTree.Value.Assembly
import CaptureTree.Value.ReadError

/-!
# Flat results

Beside the value of the whole shape every capture has a result of its own, in
its flat shape.  For a capture with a path it is cut out of the value:
`Value.project` follows the path, where steps through products and sums vanish
and steps through lists and optional slots stay as structure.  Where the path
goes through a branch that was not taken, the result is what is left of the flat
shape with nothing in it (`Value.absentAlong`).

A capture hidden inside another one is not part of the value; its result is
assembled from the trace.
-/

namespace CaptureTree

namespace Value

/-- The result for the rest of a path when its branch was not taken. -/
def absentAlong : SlotPath → Value
  | [] => leaf none
  | .each :: _ => repeated []
  | .inner :: _ => opt none
  | .member _ :: path => absentAlong path
  | .branch _ :: path => absentAlong path

/-- Child `i` of a value. -/
def child (v : Value) (i : Nat) : Except ReadError Value :=
  v.children[i]?.elim (.error .outOfRange) .ok

/-- Slot `i` inside a shape. -/
def slot (s : Shape) (i : Nat) : Except ReadError Shape :=
  s.children[i]?.elim (.error .outOfRange) .ok

/-- A value has to be of the kind of its shape. -/
def expectKind (s : Shape) (v : Value) : Except ReadError Unit :=
  if s.kind = v.kind then .ok ()
  else .error (.inconsistent (.nonconforming v.kind s.title))

/-- Follows a path through a shape and its value. -/
def project : SlotPath → Shape → Value → Except ReadError Value
  | [], s, v => do
    expectKind s v
    return v
  | .member i :: path, s, v => do
    expectKind s v
    project path (← slot s i) (← child v i)
  | .branch i :: path, s, v => do
    expectKind s v
    if v.selected = i then project path (← slot s i) (← child v 0)
    else return absentAlong path
  | .each :: path, s, v => do
    expectKind s v
    return repeated (← v.children.mapM fun e => do
      project path (← firstUnchecked s.children) e)
  | .inner :: path, s, v => do
    expectKind s v
    if v.present then
      return opt (some (← project path (← firstUnchecked s.children)
        (← firstUnchecked v.children)))
    else return opt none

/-- The result of one capture, from the value if the capture has a path and
otherwise from the trace. -/
def result (shape : Shape) (value : Value) (t : Trace) (c : CaptureInfo) :
    Except ReadError Value :=
  match c.path with
  | some path => project path shape value
  | none => Inconsistency.whileReading (assemble c.flat t)

/-- The span of the whole match, followed by the results of all captures in
order. -/
def flatten (whole : Span) (shape : Shape) (value : Value) (captures : List CaptureInfo)
    (t : Trace) : Except ReadError (List Value) := do
  return leaf (some whole) :: (← captures.mapM (result shape value t))

end Value

end CaptureTree
