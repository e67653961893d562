import CaptureTree.Pattern.Basic

/-!
# Well-formed patterns

`Pattern.validate` goes through the nodes of a pattern in pre-order and stops at
the first one that is not well formed.  All conditions but one concern a single
node; the exception is that no two captures carry the same name, so the walk
remembers the names that it has passed.
-/

namespace CaptureTree

/-- Letters, digits and underscores, not starting with a digit. -/
def isIdentifier (s : String) : Bool :=
  match s.toList with
  | [] => false
  | c :: cs => isStart c && cs.all isRest
where
  isStart (c : Char) : Bool := c.isAlpha || c == '_'
  isRest (c : Char) : Bool := c.isAlphanum || c == '_'

namespace Pattern

/-- The complaint about the name of a capture, given the names before it. -/
def nameDefect (seen : List String) (name : String) : Option PatternError :=
  if !isIdentifier name then some (.invalidName name)
  else if seen.contains name then some (.duplicateName name)
  else none

/-- The complaint about the number of children of a node that has to have
one. -/
def childDefect (p : Pattern) : Option PatternError :=
  if p.children.length = 1 then none
  else some (.childCount p.label.kind p.children.length)

/-- The complaint about a quantifier's bounds. -/
def boundsDefect (b : Bounds) : Option PatternError :=
  match b.max with
  | some max => if max < b.min then some (.reversedBounds b.min max) else none
  | none => none

/-- The complaint about the root of a pattern, given the capture names that come
before it. -/
def defect (seen : List String) (p : Pattern) : Option PatternError :=
  match p.label.kind with
  | .literal =>
    if !p.children.isEmpty then some .literalWithChildren
    else if p.label.literal.isClass && p.label.literal.text.isEmpty && !p.label.literal.negated then
      some .emptyClass
    else none
  | .capture => (p.label.name.bind (nameDefect seen)).or p.childDefect
  | .group => p.childDefect
  | .quantifier => p.childDefect.or (boundsDefect p.label.bounds)
  | .alternation => if p.children.isEmpty then some .noBranches else none
  | .concat => none

/-- The name that the root contributes to those in use. -/
def captureName (p : Pattern) : Option String :=
  if p.label.kind = .capture then p.label.name else none

/-- The first complaint about a list of nodes, `seen` being the capture names
before them. -/
def firstDefect (seen : List String) : List Pattern → Option PatternError
  | [] => none
  | p :: ps => (p.defect seen).or (firstDefect (p.captureName.toList ++ seen) ps)

/-- Accepts the well-formed patterns, and otherwise reports the first node in
pre-order that is not well formed. -/
def validate (p : Pattern) : Except PatternError Unit :=
  match firstDefect [] p.subtrees with
  | some e => .error e
  | none => .ok ()

end Pattern

end CaptureTree
