import CaptureTree.Pattern.Located

/-!
# Instructions

A machine does not look at the tree of a pattern.  It runs through a list of
instructions, and each of them names the node that it stems from, because what
it records is recorded for that node.

The compiler goes through the pattern once and puts every instruction behind
those that are there already.  Some have to name a place that is not known yet:
a branch that of the next one, the end of a branch that behind the alternation,
and the test of a loop that of its end.  These are filled in as soon as the
place is reached.
-/

namespace CaptureTree

/-- One instruction. -/
inductive Op where
  /-- Match a text. -/
  | text (node : Located)
  /-- Match one byte of a class. -/
  | byteClass (node : Located)
  /-- Begin a capture. -/
  | openCapture (node : Located)
  /-- End a capture. -/
  | closeCapture (node : Located)
  /-- Take a branch; if that does not work out, go on at `next`.  The branch
  leaves something in the trace if it is traced. -/
  | branch (node : Located) (index : Nat) (next : Option Nat) (traced : Bool)
  /-- Go on elsewhere. -/
  | jump (node : Located) (target : Nat)
  /-- Begin a loop. -/
  | openLoop (node : Located)
  /-- Go round once more, or go on at `exit`. -/
  | test (node : Located) (exit : Nat)
  /-- Begin a round.  It gets a frame if it is traced. -/
  | beginRound (node : Located) (traced : Bool)
  /-- End a round, and go on at the test. -/
  | endRound (node : Located) (head : Nat) (traced : Bool)
  /-- End a loop. -/
  | closeLoop (node : Located)
  /-- The whole pattern has matched. -/
  | accept

/-- A list of instructions. -/
abbrev Code := List Op

namespace Code

/-- Fills in where to go on if the branch at a place does not work out. -/
def setNext (code : Code) (place next : Nat) : Code :=
  code.modify place fun
    | .branch p index _ traced => .branch p index (some next) traced
    | op => op

/-- Fills in where the jump, or the test, at a place leads to. -/
def setTarget (code : Code) (place target : Nat) : Code :=
  code.modify place fun
    | .jump p _ => .jump p target
    | .test p _ => .test p target
    | op => op

mutual
/-- The code with the instructions of a node put behind it. -/
def emit (code : Code) : Located → Code
  | .node a ts =>
    let p : Located := .node a ts
    match a.kind with
    | .literal => code ++ [if a.literal.isClass then .byteClass p else .text p]
    | .capture => emitFirst (code ++ [.openCapture p]) ts ++ [.closeCapture p]
    | .group => emitFirst code ts
    | .concat => emitAll code ts
    | .alternation =>
      let (code, ends) := emitBranches p p.hasCapture 0 code ts
      ends.foldl (fun code place => code.setTarget place code.length) code
    | .quantifier =>
      let traced := p.body.any Located.hasCapture
      let code := code ++ [.openLoop p]
      let head := code.length
      let code := code ++ [.test p 0] ++ [.beginRound p traced]
      let code := emitFirst code ts ++ [.endRound p head traced]
      code.setTarget head code.length ++ [.closeLoop p]

/-- The code with the instructions of the first node put behind it. -/
def emitFirst (code : Code) : List Located → Code
  | [] => code
  | t :: _ => emit code t

/-- The code with the instructions of all nodes put behind it. -/
def emitAll (code : Code) : List Located → Code
  | [] => code
  | t :: ts => emitAll (emit code t) ts

/-- The code with the branches of `p` put behind it, from branch `index` on, and
the places of the jumps at their ends. -/
def emitBranches (p : Located) (traced : Bool) (index : Nat) (code : Code) :
    List Located → Code × List Nat
  | [] => (code, [])
  | t :: ts =>
    let place := code.length
    let code := emit (code ++ [.branch p index none traced]) t
    let finish := code.length
    let code := code ++ [.jump p 0]
    let code := if ts.isEmpty then code else code.setNext place code.length
    let (code, ends) := emitBranches p traced (index + 1) code ts
    (code, finish :: ends)
end

end Code

/-- The instructions for matching a pattern. -/
def Located.program (p : Located) : Code :=
  Code.emit [] p ++ [.accept]

end CaptureTree
