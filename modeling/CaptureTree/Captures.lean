import CaptureTree.Shape.Basic

/-!
# The captures of a pattern

Captures are numbered from 1 in pre-order, so that an enclosing capture comes
before those inside it.  For each the table holds

* the *path* to its leaf in the shape of the pattern, or none if an enclosing
  capture hides it, and
* its *flat shape*: the leaf alone, wrapped once for every quantifier around
  the capture, outermost first.

`CaptureInfo.nameTable` maps names to numbers, and refuses a name that is used
twice.
-/

namespace CaptureTree

/-- One step from a shape to a slot inside it. -/
inductive Step where
  /-- To a member of a product. -/
  | member (index : Nat)
  /-- To a branch of a sum. -/
  | branch (index : Nat)
  /-- To the items of a list. -/
  | each
  /-- To the inside of a slot that may be left out. -/
  | inner
  deriving DecidableEq, Repr

/-- The way from a shape to a slot inside it. -/
abbrev SlotPath := List Step

namespace Shape

mutual
/-- The leaves of a shape, left to right, by origin and path. -/
def leafPaths : Shape → List (NodeId × SlotPath)
  | empty => []
  | leaf none => []
  | leaf (some c) => [(c.id, [])]
  | product _ ss => leafPathsAll .member 0 ss
  | sum _ ss => leafPathsAll .branch 0 ss
  | repeated _ s => (leafPaths s).map fun e => (e.1, .each :: e.2)
  | opt _ s => (leafPaths s).map fun e => (e.1, .inner :: e.2)

/-- The leaves of neighbouring slots, the first of them being number `i`. -/
def leafPathsAll (step : Nat → Step) (i : Nat) : List Shape → List (NodeId × SlotPath)
  | [] => []
  | s :: ss =>
    (leafPaths s).map (fun e => (e.1, step i :: e.2)) ++ leafPathsAll step (i + 1) ss
end

/-- The path to the leaf of a capture. -/
def pathTo (s : Shape) (capture : NodeId) : Option SlotPath :=
  s.leafPaths.lookup capture

/-- The leaf of a capture inside the slots of the given quantifiers, the first
of them outermost. -/
def flat (quantifiers : List Located) (capture : Located) : Shape :=
  quantifiers.foldr loop (leaf (some capture))

end Shape

namespace Located

mutual
/-- The captures in pre-order, each with the quantifiers around it, `outer`
being those around the whole pattern. -/
def capturesIn (outer : List Located) : Located → List (Located × List Located)
  | .node a ts =>
    let p : Located := .node a ts
    let here := if p.isCapture then [(p, outer)] else []
    let around := if p.kind = .quantifier then outer ++ [p] else outer
    here ++ capturesInAll around ts

/-- The captures of several patterns in pre-order. -/
def capturesInAll (outer : List Located) : List Located → List (Located × List Located)
  | [] => []
  | p :: ps => capturesIn outer p ++ capturesInAll outer ps
end

end Located

/-- What is known of a capture before any match. -/
structure CaptureInfo where
  /-- Its number, from 1. -/
  index : Nat
  node : Located
  /-- Where its leaf is in the shape of the pattern, unless it is hidden. -/
  path : Option SlotPath
  /-- The shape of its own result. -/
  flat : Shape

namespace CaptureInfo

def name (c : CaptureInfo) : Option String := c.node.name

/-- The captures of a pattern in order, with paths into the shape `s`. -/
def table (p : Located) (s : Shape) : List CaptureInfo :=
  (p.capturesIn []).zipIdx.map fun ((c, quantifiers), k) =>
    { index := k + 1, node := c, path := s.pathTo c.id, flat := Shape.flat quantifiers c }

/-- The named captures, with their numbers. -/
def named (captures : List CaptureInfo) : List (String × Nat) :=
  captures.filterMap fun c => c.name.map fun name => (name, c.index)

/-- The first name that has come before. -/
def firstRepeated (seen : List String) : List String → Option String
  | [] => none
  | name :: names =>
    if seen.contains name then some name else firstRepeated (name :: seen) names

/-- The number of each name, if no name is used twice. -/
def nameTable (captures : List CaptureInfo) : Except PatternError (List (String × Nat)) :=
  let entries := named captures
  match firstRepeated [] (entries.map (·.1)) with
  | some name => .error (.duplicateName name)
  | none => .ok entries

end CaptureInfo

end CaptureTree
