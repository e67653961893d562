import CaptureTree.Pattern.WellFormed
import CaptureTree.Matching.Search
import CaptureTree.Trace.Placement
import CaptureTree.Value.Projection
import CaptureTree.Value.View

/-!
# Compiled patterns and their matches

`Regex.compile` checks a pattern and works out everything that does not depend
on an input: the shape, the captures and the table of names.  `Regex.evaluate`
turns a trace, of this library's search or of any other engine, into a `Match`:
the value in the shape of the pattern, and one flat result per capture.
`Regex.match?` and `Regex.search?` do so with traces of their own.
-/

namespace CaptureTree

/-- A well-formed pattern with everything that follows from it. -/
structure Regex where
  pattern : Located
  shape : Shape
  /-- The captures in order; capture `k` is entry `k - 1`. -/
  captures : List CaptureInfo
  /-- The number of each named capture. -/
  names : List (String × Nat)

/-- The result of a successful match. -/
structure Match where
  regex : Regex
  input : Bytes
  /-- The span of the whole match. -/
  whole : Span
  /-- The value in the shape of the pattern. -/
  value : Value
  /-- The whole match, and then the result of every capture. -/
  flat : List Value

namespace Regex

/-- Checks a pattern and prepares it for matching. -/
def compile (p : Pattern) : Except PatternError Regex := do
  p.validate
  let pattern := p.locate
  let shape := Shape.infer pattern
  let captures := CaptureInfo.table pattern shape
  let names ← CaptureInfo.nameTable captures
  return { pattern, shape, captures, names }

/-- What is known of capture `k`, counted from 1. -/
def capture (r : Regex) (k : Nat) : Except LookupError CaptureInfo :=
  match k with
  | 0 => .error (.noCapture 0 r.captures.length)
  | i + 1 =>
    match r.captures[i]? with
    | some c => .ok c
    | none => .error (.noCapture (i + 1) r.captures.length)

/-- The number of the capture with a name. -/
def indexOf? (r : Regex) (name : String) : Option Nat :=
  r.names.lookup name

/-- The number of the capture with a name, which has to exist. -/
def require (r : Regex) (name : String) : Except LookupError Nat :=
  match r.indexOf? name with
  | some k => .ok k
  | none => .error (.unknownName name)

/-- Builds the result of a match from a trace, after checking it. -/
def evaluate (r : Regex) (whole : Span) (t : Trace) (input : Bytes) : Except ReadError Match := do
  if !whole.fits input.length then
    throw (.inconsistent (.badMatch whole input.length))
  Inconsistency.whileReading (t.check r.pattern input.length)
  let value ← Inconsistency.whileReading (Value.assemble r.shape t)
  let flat ← Value.flatten whole r.shape value r.captures t
  return { regex := r, input, whole, value, flat }

/-- The result of what a search found, if it found anything. -/
def ofFound (r : Regex) (input : Bytes) :
    Option (Span × Trace) → Except ReadError (Option Match)
  | none => .ok none
  | some (whole, t) => some <$> r.evaluate whole t input

/-- Matches the whole input. -/
def match? (r : Regex) (input : Bytes) : Except ReadError (Option Match) :=
  r.ofFound input (r.pattern.match? input)

/-- Finds the leftmost match. -/
def search? (r : Regex) (input : Bytes) : Except ReadError (Option Match) :=
  r.ofFound input (r.pattern.search? input)

end Regex

namespace Match

/-- The number of results, that of the whole match included. -/
def size (m : Match) : Nat := m.flat.length

/-- The complaint about a number that no result has. -/
def noResult {α : Type} (m : Match) (k : Nat) : Except ReadError α :=
  .error (.lookup (.noCapture k (m.size - 1)))

/-- Result `k`; number 0 is the whole match. -/
def get (m : Match) (k : Nat) : Except ReadError Value :=
  match m.flat[k]? with
  | some v => .ok v
  | none => m.noResult k

/-- The shape of result `k`. -/
def shape (m : Match) (k : Nat) : Except ReadError Shape := do
  let _ ← m.get k
  match k with
  | 0 => return .leaf none
  | i + 1 =>
    match m.regex.captures[i]? with
    | some c => return c.flat
    | none => m.noResult k

/-- Result `k` with its shape. -/
def view (m : Match) (k : Nat) : Except ReadError View := do
  return { shape := ← m.shape k, value := ← m.get k, input := m.input }

/-- The number of the result with a name. -/
def lookup (m : Match) (name : String) : Except ReadError Nat :=
  (m.regex.require name).mapError .lookup

/-- The result of the capture with a name. -/
def named (m : Match) (name : String) : Except ReadError Value := do
  m.get (← m.lookup name)

/-- The result of the capture with a name, with its shape. -/
def viewNamed (m : Match) (name : String) : Except ReadError View := do
  m.view (← m.lookup name)

/-- The whole value with its shape. -/
def root (m : Match) : View :=
  { shape := m.regex.shape, value := m.value, input := m.input }

/-- Printed form `0=0..3 1=0..1 2=nil`. -/
def text (m : Match) : String :=
  " ".intercalate (m.flat.zipIdx.map fun result => toString result.2 ++ "=" ++ result.1.text)

end Match

end CaptureTree
