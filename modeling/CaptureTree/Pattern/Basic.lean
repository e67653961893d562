import CaptureTree.Tree
import CaptureTree.Pattern.ByteClass

/-!
# Patterns

A pattern is a tree of nodes.  Every node has all the fields that some kind of
node needs, so that trees can be put together by hand as well as with the
builders below; which combinations make sense is decided later, by
`Pattern.validate`.

The two joining operations `Pattern.followedBy` and `Pattern.orElse` extend
their left operand when it already is a concatenation, or an alternation.  A
right operand is always added as a single child.
-/

namespace CaptureTree

/-- What a literal compares the input with: its bytes one after the other, or
one byte against a set. -/
structure Literal where
  /-- The exact bytes, or the members of the set. -/
  text : Bytes := []
  /-- Is this a class, accepting one byte? -/
  isClass : Bool := false
  /-- Does the class accept the bytes outside the set? -/
  negated : Bool := false
  deriving DecidableEq, Repr

/-- Is the byte accepted, reading the literal as a class? -/
def Literal.accepts (l : Literal) (c : UInt8) : Bool :=
  l.text.contains c != l.negated

/-- How often a quantifier repeats its body.  Without `max` there is no upper
limit. -/
structure Bounds where
  min : Nat := 0
  max : Option Nat := none
  deriving DecidableEq, Repr

namespace Bounds

/-- At most once, and not necessarily. -/
def isOptional (b : Bounds) : Bool :=
  b.min == 0 && b.max == some 1

/-- Has the upper limit been reached after `count` rounds? -/
def isFull (b : Bounds) (count : Nat) : Bool :=
  b.max.any (· ≤ count)

end Bounds

/-- The fields of a pattern node. -/
structure Node where
  kind : NodeKind
  /-- The name under which a capture is found. -/
  name : Option String := none
  /-- What a literal matches. -/
  literal : Literal := {}
  /-- The bounds of a quantifier. -/
  bounds : Bounds := {}
  deriving DecidableEq, Repr

/-- A regular expression with captures. -/
abbrev Pattern := Tree Node

namespace Pattern

/-! ## Leaves -/

/-- Exactly these bytes. -/
def exact (text : Bytes) : Pattern :=
  .node { kind := .literal, literal := { text } } []

/-- One byte of a class. -/
def oneOf (chars : Bytes) : Except PatternError Pattern := do
  let text ← ByteClass.expand chars
  return .node { kind := .literal, literal := { text, isClass := true } } []

/-- One byte outside a class. -/
def noneOf (chars : Bytes) : Except PatternError Pattern := do
  let text ← ByteClass.expand chars
  return .node { kind := .literal, literal := { text, isClass := true, negated := true } } []

/-- Any one byte. -/
def anyByte : Pattern :=
  .node { kind := .literal, literal := { isClass := true, negated := true } } []

/-! ## Grouping -/

/-- Records what the pattern matched. -/
def capture (p : Pattern) (name : Option String := none) : Pattern :=
  .node { kind := .capture, name } [p]

/-- The pattern as a node of its own, which the joining operations do not
extend. -/
def group (p : Pattern) : Pattern :=
  .node { kind := .group } [p]

/-- One pattern after the other. -/
def concat (ps : List Pattern) : Pattern :=
  .node { kind := .concat } ps

/-- One of the patterns, earlier ones preferred. -/
def alternation (ps : List Pattern) : Pattern :=
  .node { kind := .alternation } ps

/-! ## Repeating -/

/-- At least `min` rounds, at most `max` of them, as many as possible. -/
def repeated (p : Pattern) (min : Nat) (max : Option Nat := none) : Pattern :=
  .node { kind := .quantifier, bounds := { min, max } } [p]

/-- Once or not at all. -/
def optional (p : Pattern) : Pattern := p.repeated 0 (some 1)

/-- Any number of rounds. -/
def star (p : Pattern) : Pattern := p.repeated 0

/-- At least one round. -/
def plus (p : Pattern) : Pattern := p.repeated 1

/-- Exactly `n` rounds. -/
def times (p : Pattern) (n : Nat) : Pattern := p.repeated n (some n)

/-! ## Joining -/

/-- Adds a last child to a node of the given kind; a tree of another kind is
first made the only child of a fresh one. -/
def extend (kind : NodeKind) (p q : Pattern) : Pattern :=
  if p.label.kind = kind then .node p.label (p.children ++ [q])
  else .node { kind } [p, q]

/-- First `p`, then `q`. -/
def followedBy (p q : Pattern) : Pattern := extend .concat p q

/-- `p`, or else `q`. -/
def orElse (p q : Pattern) : Pattern := extend .alternation p q

end Pattern

end CaptureTree
