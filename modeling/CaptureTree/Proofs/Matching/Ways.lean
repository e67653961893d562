import CaptureTree.Matching.Cursor
import CaptureTree.Value.Basic

/-!
# Ways to match, without a trace

What a match comes to can be told without records and positions.  `Pattern.ways` lists the
ways to match a pattern, preferred ones first, each with the place behind it and with what
it is summed up to.  How that is done, node by node, is a parameter: a `Summary`.

Two summaries are of interest.  `Summary.value` is the value in the shape of the pattern,
and `Summary.results` has the result of every capture, in the order of the captures.

A capture that took no part in a match has a result as well, and how it looks depends on
the quantifiers around the capture.  `Pattern.absentResults` lists these results.
-/

namespace CaptureTree

/-- One way to match: the place behind it, and what it comes to. -/
abbrev Way (β : Type) := Cursor × β

namespace Way

variable {β γ : Type}

/-- The same way, with something else made of it. -/
def map (f : β → γ) (w : Way β) : Way γ := (w.1, f w.2)

/-- The ways to do one thing after another. -/
def inSequence : List (Cursor → List (Way β)) → Cursor → List (Way (List β))
  | [], c => [(c, [])]
  | f :: fs, c => (f c).flatMap fun w => (inSequence fs w.1).map (map (w.2 :: ·))

/-- The ways to take one of several branches, `f i` telling what is made of branch `i`. -/
def inBranches (f : Nat → β → γ) (parts : List (Cursor → List (Way β))) (c : Cursor) :
    List (Way γ) :=
  parts.zipIdx.flatMap fun branch => (branch.1 c).map (map (f branch.2))

/-- The ways to go round a loop after `count` iterations; there are at most `m` more of
them.  An iteration has to consume something unless it is still required. -/
def inTurns (b : Bounds) (body : Cursor → List (Way β)) : Nat → Nat → Cursor → List (Way (List β))
  | 0, count, c => if b.isFull count || b.min ≤ count then [(c, [])] else []
  | m + 1, count, c =>
    if b.isFull count then [(c, [])]
    else
      ((body c).flatMap fun w =>
        if w.1.left < c.left || w.1.left == c.left && count < b.min then
          (inTurns b body m (count + 1) w.1).map (map (w.2 :: ·))
        else []) ++
      if b.min ≤ count then [(c, [])] else []

end Way

/-- The value of the slot of a quantifier, given one value per iteration. -/
def Value.items (b : Bounds) (vs : List Value) : Value :=
  .node { kind := if b.isOptional then .opt else .repeated,
          present := b.isOptional && !vs.isEmpty } vs

/-- The values of the parts of a sequence side by side, less the empty ones. -/
def Value.sequence (parts : List Value) : Value :=
  match parts.filter (·.kind != .empty) with
  | [] => .empty
  | [v] => v
  | kept => .product kept

/-- **How a way to match is summed up**, from the parts of a node to the node.  A group adds
nothing to what it groups. -/
structure Summary (β : Type) where
  literal : β
  /-- A capture, with its span. -/
  capture : Span → β → β
  sequence : List β → β
  /-- The branch with some number, among branches with these absent results. -/
  branch : List (List Value) → Nat → β → β
  /-- The iterations of a loop, around a body with these absent results. -/
  loop : Bounds → List Value → List β → β

namespace Pattern

variable {β : Type}

/-- The absent results of a node, given those of its children. -/
def nodeAbsentResults (a : Node) (parts : List (List Value)) : List Value :=
  match a.kind with
  | .capture => .leaf none :: parts.flatten
  | .quantifier => parts.flatten.map fun _ => .items a.bounds []
  | .literal | .group | .concat | .alternation => parts.flatten

/-- **The results of captures that took no part in a match**, in the order of the
captures. -/
def absentResults (p : Pattern) : List Value :=
  p.fold fun q parts => nodeAbsentResults q.label parts

theorem absentResults_eq (p : Pattern) :
    p.absentResults = nodeAbsentResults p.label (p.children.map absentResults) :=
  Tree.fold_eq _ p

/-- The ways to match a node, given those of its children and their absent results. -/
def nodeWays (S : Summary β) (a : Node) (absents : List (List Value))
    (parts : List (Cursor → List (Way β))) (c : Cursor) : List (Way β) :=
  match a.kind with
  | .literal => (c.match? a.literal).toList.map fun d => (d, S.literal)
  | .capture =>
    ((parts.headD fun _ => []) c).map fun w => (w.1, S.capture ⟨c.pos, w.1.pos⟩ w.2)
  | .group => (parts.headD fun _ => []) c
  | .concat => (Way.inSequence parts c).map (Way.map S.sequence)
  | .alternation => Way.inBranches (S.branch absents) parts c
  | .quantifier =>
    (Way.inTurns a.bounds (parts.headD fun _ => []) (a.bounds.min + c.left) 0 c).map
      (Way.map (S.loop a.bounds (absents.headD [])))

/-- **All ways to match**, from a place in the input on, in order of preference. -/
def ways (S : Summary β) (p : Pattern) : Cursor → List (Way β) :=
  p.fold fun q parts => nodeWays S q.label (q.children.map absentResults) parts

theorem ways_eq (S : Summary β) (p : Pattern) :
    p.ways S = nodeWays S p.label (p.children.map absentResults) (p.children.map (ways S)) :=
  Tree.fold_eq _ p

/-- What matching the whole input comes to: the span of the match and its sum. -/
def matched? (S : Summary β) (p : Pattern) (input : Bytes) : Option (Span × β) :=
  ((p.ways S (.ofInput input)).find? fun w => w.1.left == 0).map fun w => (⟨0, w.1.pos⟩, w.2)

/-- What searching comes to: the preferred way at the first place where there is one. -/
def searched? (S : Summary β) (p : Pattern) (input : Bytes) : Option (Span × β) :=
  (List.range (input.length + 1)).findSome? fun b =>
    (p.ways S ((Cursor.ofInput input).advance b)).head?.map fun w => (⟨b, w.1.pos⟩, w.2)

end Pattern

namespace Summary

/-- The value in the shape of the pattern.  Parts without captures leave no slot. -/
def value : Summary Value where
  literal := .empty
  capture s _ := .leaf (some s)
  sequence := .sequence
  branch absents i v := if absents.all List.isEmpty then .empty else .sum i v
  loop b absent vs := if absent.isEmpty then .empty else .items b vs

theorem value_branch (absents : List (List Value)) (i : Nat) (v : Value) :
    value.branch absents i v = if absents.all List.isEmpty then .empty else .sum i v := rfl

theorem value_loop (b : Bounds) (absent vs : List Value) :
    value.loop b absent vs = if absent.isEmpty then .empty else .items b vs := rfl

/-- The results of each of several captures in all iterations of a loop. -/
def columns (absent : List Value) (rows : List (List Value)) : List (List Value) :=
  rows.foldr (List.zipWith List.cons) (absent.map fun _ => [])

/-- **The result of every capture.**  Captures in branches that were not taken have their
absent results, and in a loop the results of all iterations are put together. -/
def results : Summary (List Value) where
  literal := []
  capture s rs := .leaf (some s) :: rs
  sequence := List.flatten
  branch absents i rs := (absents.take i).flatten ++ rs ++ (absents.drop (i + 1)).flatten
  loop b absent rows := (columns absent rows).map (Value.items b)

theorem results_branch (absents : List (List Value)) (i : Nat) (rs : List Value) :
    results.branch absents i rs =
      (absents.take i).flatten ++ rs ++ (absents.drop (i + 1)).flatten := rfl

theorem results_loop (b : Bounds) (absent : List Value) (rows : List (List Value)) :
    results.loop b absent rows = (columns absent rows).map (Value.items b) := rfl

end Summary

end CaptureTree
