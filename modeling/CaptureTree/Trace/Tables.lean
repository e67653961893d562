import CaptureTree.Trace.Change
import CaptureTree.Trace.Placement

/-!
# Traces kept in tables

An engine that asks for the records of one node again and again keeps a frame as three tables,
one for each kind of record.  A table has a row for every node that something has been recorded
for.  Recording adds an entry at the end of the row, and taking back drops the last entry.  A row
from which everything has been taken back stays in its table, and says nothing.

* `Tables.spans`, `Tables.choices` and `Tables.iterations` look up the row of a node.
* `Tables.records` reads the tables off as a trace, row by row.
* `Tables.applyAt` and `Tables.retractAt` change the tables of one frame.
* `Tables.check` checks the tables as they are.  It looks up the node of a row once, for all
  entries of the row, and does not look up the nodes of empty rows.
-/

namespace CaptureTree

/-- A table, with a row of entries for each of its nodes. -/
abbrev Rows (α : Type) := List (NodeId × List α)

namespace Rows

variable {α : Type}

/-- The entries in the row of a node.  A node without a row has none. -/
def row (n : NodeId) : Rows α → List α
  | [] => []
  | (m, entries) :: rows => if m = n then entries else row n rows

/-- Adds an entry at the end of the row of a node.  A node without a row is given one. -/
def push (n : NodeId) (x : α) : Rows α → Rows α
  | [] => [(n, [x])]
  | (m, row) :: rows => if m = n then (m, row ++ [x]) :: rows else (m, row) :: push n x rows

/-- Drops the last entry of the row of a node.  The row stays, even if nothing is left in it. -/
def pop (n : NodeId) : Rows α → Except ChangeError (Rows α)
  | [] => .error .nothingToRetract
  | (m, row) :: rows =>
    if m = n then
      if row.isEmpty then .error .nothingToRetract else .ok ((m, row.dropLast) :: rows)
    else do return (m, row) :: (← pop n rows)

/-- Replaces entry `i` in the row of a node by what `f` makes of it. -/
def mapEntry (n : NodeId) (i : Nat) (f : α → Except ChangeError α) :
    Rows α → Except ChangeError (Rows α)
  | [] => .error .noFrame
  | (m, row) :: rows =>
    if m = n then
      match row[i]? with
      | none => .error .noFrame
      | some x => do return (m, row.set i (← f x)) :: rows
    else do return (m, row) :: (← mapEntry n i f rows)

/-- The entries of all rows as records, row by row. -/
def records (entry : NodeId → α → Record) (rows : Rows α) : Trace :=
  rows.flatMap fun row => row.2.map (entry row.1)

end Rows

/-- What is kept of one frame: a table for each kind of record.  The entries of the table of
quantifiers are frames themselves. -/
inductive Tables where
  | frame (spans : List (NodeId × List Span)) (choices : List (NodeId × List Nat))
      (loops : List (NodeId × List Tables))

namespace Tables

/-- The tables of a frame in which nothing has been recorded. -/
def empty : Tables := frame [] [] []

/-! ## Looking rows up -/

/-- The spans in the row of a capture. -/
def spans (capture : NodeId) : Tables → List Span
  | frame spans _ _ => Rows.row capture spans

/-- The branches in the row of an alternation. -/
def choices (alternation : NodeId) : Tables → List Nat
  | frame _ choices _ => Rows.row alternation choices

/-- The frames in the row of a quantifier. -/
def iterations (quantifier : NodeId) : Tables → List Tables
  | frame _ _ loops => Rows.row quantifier loops

/-- Does a node of the subpattern have a row with something in it? -/
def touches (t : Tables) (p : Located) : Bool :=
  p.ids.any fun n =>
    !(t.spans n).isEmpty || !(t.choices n).isEmpty || !(t.iterations n).isEmpty

/-- The frame at an address. -/
def frame? (t : Tables) : FrameAddress → Option Tables
  | [] => some t
  | (q, i) :: path => (t.iterations q)[i]?.bind fun f => frame? f path

/-! ## Reading the tables off -/

mutual
/-- The records in the tables, row by row: spans, then choices, then iterations. -/
def records : Tables → Trace
  | frame spans choices loops =>
    Rows.records .span spans ++ Rows.records .choice choices ++ loopsRecords loops

/-- The iterations in the table of quantifiers. -/
def loopsRecords : List (NodeId × List Tables) → Trace
  | [] => []
  | row :: rows => rowRecords row ++ loopsRecords rows

/-- The iterations in the row of one quantifier. -/
def rowRecords : NodeId × List Tables → Trace
  | (n, row) => framesRecords n row

/-- The iterations of a quantifier that have these frames. -/
def framesRecords (n : NodeId) : List Tables → Trace
  | [] => []
  | f :: fs => .iteration n (records f) :: framesRecords n fs
end

/-! ## Changing the tables -/

/-- Adds a record at the end of its row. -/
def apply : Change → Tables → Tables
  | .record n s, frame spans choices loops => frame (Rows.push n s spans) choices loops
  | .choose n i, frame spans choices loops => frame spans (Rows.push n i choices) loops
  | .iterate n, frame spans choices loops => frame spans choices (Rows.push n empty loops)

/-- Drops the last record of the kind for the node. -/
def retract : RecordKind → NodeId → Tables → Except ChangeError Tables
  | .span, n, frame spans choices loops => do return frame (← Rows.pop n spans) choices loops
  | .choice, n, frame spans choices loops => do return frame spans (← Rows.pop n choices) loops
  | .iteration, n, frame spans choices loops => do
    return frame spans choices (← Rows.pop n loops)

/-- Replaces the frame at an address by what `f` makes of it. -/
def mapFrame (f : Tables → Except ChangeError Tables) :
    FrameAddress → Tables → Except ChangeError Tables
  | [], t => f t
  | (q, i) :: path, frame spans choices loops => do
    return frame spans choices (← Rows.mapEntry q i (mapFrame f path) loops)

/-- Adds a record to the frame at an address. -/
def applyAt (path : FrameAddress) (c : Change) : Tables → Except ChangeError Tables :=
  mapFrame (fun t => .ok (t.apply c)) path

/-- Drops the last record of the kind for the node from the frame at an address. -/
def retractAt (path : FrameAddress) (k : RecordKind) (n : NodeId) :
    Tables → Except ChangeError Tables :=
  mapFrame (retract k n) path

/-- Makes changes one after the other, each in the frame at its address. -/
def applyAll (changes : List (FrameAddress × Change)) (t : Tables) : Except ChangeError Tables :=
  changes.foldlM (fun t change => t.applyAt change.1 change.2) t

/-- Takes changes back, the last one first. -/
def retractAll (changes : List (FrameAddress × Change)) (t : Tables) : Except ChangeError Tables :=
  changes.foldrM (fun change t =>
    t.retractAt change.1 change.2.entry.kind change.2.entry.node) t

/-! ## Checking the tables -/

/-- Checks the spans in the row of a capture. -/
def checkSpans (scope : Option Located) (size : Nat) :
    NodeId × List Span → Except Inconsistency Unit
  | (_, []) => .ok ()
  | (n, s :: row) => do
    let _ ← Trace.placeOf scope (.span n s) .capture
    (s :: row).forM fun s => if s.fits size then return () else .error (.badSpan s size)

/-- Checks the branches in the row of an alternation. -/
def checkChoices (scope : Option Located) : NodeId × List Nat → Except Inconsistency Unit
  | (_, []) => .ok ()
  | (n, i :: row) => do
    let a ← Trace.placeOf scope (.choice n i) .alternation
    (i :: row).forM fun i =>
      if i < a.children.length then return () else .error (.badChoice i a.children.length)

mutual
/-- Checks the tables of a frame, and of all frames inside it, against the part of the pattern
that the frame belongs to. -/
def check (size : Nat) (scope : Option Located) : Tables → Except Inconsistency Unit
  | frame spans choices loops => do
    spans.forM (checkSpans scope size)
    choices.forM (checkChoices scope)
    checkLoops size scope loops

/-- Checks the table of quantifiers. -/
def checkLoops (size : Nat) (scope : Option Located) :
    List (NodeId × List Tables) → Except Inconsistency Unit
  | [] => .ok ()
  | row :: rows => do
    checkRow size scope row
    checkLoops size scope rows

/-- Checks the frames in the row of a quantifier. -/
def checkRow (size : Nat) (scope : Option Located) :
    NodeId × List Tables → Except Inconsistency Unit
  | (n, row) =>
    if row.isEmpty then .ok ()
    else do
      let q ← Trace.placeOf scope (.iteration n []) .quantifier
      checkFrames size q.body row

/-- Checks frames that belong to the same part of the pattern. -/
def checkFrames (size : Nat) (scope : Option Located) :
    List Tables → Except Inconsistency Unit
  | [] => .ok ()
  | f :: fs => do
    check size scope f
    checkFrames size scope fs
end

end Tables

end CaptureTree
