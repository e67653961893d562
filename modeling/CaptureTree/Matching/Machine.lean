import CaptureTree.Matching.Cursor
import CaptureTree.Matching.Instruction
import CaptureTree.Trace.Tables

/-!
# The machine

The machine that runs through the instructions keeps one trace, in tables, and
one stack each for the frames that are open, for the places where open captures
began, and for the open loops.  When it can not go on, it goes back to the place
that it noted last.

What it has changed since then has to be taken back first.  So every change is
put down in a log, and every place is noted together with the length that the
log had at the time: the changes above that are undone, the latest first.
-/

namespace CaptureTree

namespace Machine

/-- A loop that is open: how often it went round, and where the last round
began. -/
structure OpenLoop where
  count : Nat := 0
  start : Nat := 0
  deriving DecidableEq, Repr

/-- What has to be known to undo a change. -/
inductive Undo where
  /-- A span was recorded. -/
  | record (frame : FrameAddress) (capture : NodeId)
  /-- A branch was recorded. -/
  | choose (frame : FrameAddress) (alternation : NodeId)
  /-- An iteration was added to a frame, and is now the innermost frame. -/
  | iterate (frame : FrameAddress) (quantifier : NodeId)
  /-- The innermost frame was closed. -/
  | popFrame (frame : FrameAddress)
  /-- A capture was opened. -/
  | pushStart
  /-- A capture was closed. -/
  | popStart (start : Nat)
  /-- A loop was opened. -/
  | pushLoop
  /-- A loop was closed. -/
  | popLoop (loop : OpenLoop)
  /-- The innermost loop was something else. -/
  | setLoop (loop : OpenLoop)
  deriving DecidableEq, Repr

/-- A place to go back to, and how long the log was there. -/
structure Retry where
  pc : Nat
  cursor : Cursor
  log : Nat

/-- What a machine does not check, and what goes wrong if it does not hold. -/
inductive Fault where
  /-- There is no such instruction. -/
  | noInstruction
  /-- A stack is empty. -/
  | emptyStack
  /-- The trace can not be changed. -/
  | trace (e : ChangeError)
  deriving DecidableEq, Repr

/-- What a machine changes on its way and has to restore. -/
structure State where
  /-- The trace. -/
  root : Tables := .empty
  /-- The open frames, the innermost one first. -/
  frames : List FrameAddress := [[]]
  /-- Where the open captures began, the innermost one first. -/
  starts : List Nat := []
  /-- The open loops, the innermost one first. -/
  loops : List OpenLoop := []

/-- The innermost entry of a stack, and what is around it. -/
def pop {α : Type} : List α → Except Fault (α × List α)
  | [] => .error .emptyStack
  | x :: xs => .ok (x, xs)

namespace State

/-- Changes a frame of the trace. -/
def change (s : State) (frame : FrameAddress) (c : Change) : Except Fault State := do
  return { s with root := ← (s.root.applyAt frame c).mapError .trace }

/-- Drops the last record of a kind for a node from a frame. -/
def retract (s : State) (frame : FrameAddress) (k : RecordKind) (n : NodeId) :
    Except Fault State := do
  return { s with root := ← (s.root.retractAt frame k n).mapError .trace }

/-- Adds an iteration to a frame and makes it the innermost frame. -/
def enter (s : State) (frame : FrameAddress) (n : NodeId) : Except Fault State := do
  let before ← (s.root.frame? frame).elim (.error (.trace .noFrame)) .ok
  let s ← s.change frame (.iterate n)
  return { s with frames := (frame ++ [(n, (before.iterations n).length)]) :: s.frames }

/-- Undoes a change. -/
def undo (s : State) : Undo → Except Fault State
  | .record frame n => s.retract frame .span n
  | .choose frame n => s.retract frame .choice n
  | .iterate frame n => do
    let (_, frames) ← pop s.frames
    { s with frames }.retract frame .iteration n
  | .popFrame frame => .ok { s with frames := frame :: s.frames }
  | .pushStart => do
    let (_, starts) ← pop s.starts
    return { s with starts }
  | .popStart start => .ok { s with starts := start :: s.starts }
  | .pushLoop => do
    let (_, loops) ← pop s.loops
    return { s with loops }
  | .popLoop loop => .ok { s with loops := loop :: s.loops }
  | .setLoop loop => do
    let (_, loops) ← pop s.loops
    return { s with loops := loop :: loops }

/-- Undoes what is in the log, the latest change first, until the log has `size`
entries. -/
def rewind (size : Nat) (s : State) : List Undo → Except Fault (State × List Undo)
  | [] => .ok (s, [])
  | u :: log =>
    if size ≤ log.length then do rewind size (← s.undo u) log
    else .ok (s, u :: log)

end State

/-- What an instruction comes to. -/
inductive Effect where
  /-- Go on from here.  The changes are to be undone in this order; if going on
  does not work out, the place `instead` may. -/
  | go (pc : Nat) (cursor : Cursor) (state : State) (undos : List Undo) (instead : Option Nat)
  | fail
  | accept

/-- Performs an instruction. -/
def exec (anchored : Bool) (pc : Nat) (c : Cursor) (s : State) : Op → Except Fault Effect
  | .text p =>
    if p.label.literal.text.isPrefixOf c.rest then
      .ok (.go (pc + 1) (c.advance p.label.literal.text.length) s [] none)
    else .ok .fail
  | .byteClass p =>
    match c.rest with
    | [] => .ok .fail
    | b :: _ =>
      if p.label.literal.accepts b then .ok (.go (pc + 1) (c.advance 1) s [] none)
      else .ok .fail
  | .openCapture _ =>
    .ok (.go (pc + 1) c { s with starts := c.pos :: s.starts } [.pushStart] none)
  | .closeCapture p => do
    let (start, starts) ← pop s.starts
    let (frame, _) ← pop s.frames
    let s ← { s with starts }.change frame (.record p.id ⟨start, c.pos⟩)
    return .go (pc + 1) c s [.record frame p.id, .popStart start] none
  | .branch p index next traced => do
    if traced then
      let (frame, _) ← pop s.frames
      let s ← s.change frame (.choose p.id index)
      return .go (pc + 1) c s [.choose frame p.id] next
    else return .go (pc + 1) c s [] next
  | .jump _ target => .ok (.go target c s [] none)
  | .openLoop _ => .ok (.go (pc + 1) c { s with loops := {} :: s.loops } [.pushLoop] none)
  | .test p exit => do
    let (loop, _) ← pop s.loops
    if p.bounds.isFull loop.count then return .go exit c s [] none
    else return .go (pc + 1) c s [] (if p.bounds.min ≤ loop.count then some exit else none)
  | .beginRound p traced => do
    let (loop, loops) ← pop s.loops
    let s := { s with loops := { loop with start := c.pos } :: loops }
    if traced then
      let (frame, _) ← pop s.frames
      let s ← s.enter frame p.id
      return .go (pc + 1) c s [.iterate frame p.id, .setLoop loop] none
    else return .go (pc + 1) c s [.setLoop loop] none
  | .endRound p head traced => do
    let (loop, loops) ← pop s.loops
    -- going round without consuming anything would never end
    if c.pos = loop.start ∧ p.bounds.min ≤ loop.count then return .fail
    else
      let s := { s with loops := { loop with count := loop.count + 1 } :: loops }
      if traced then
        let (frame, frames) ← pop s.frames
        return .go head c { s with frames } [.setLoop loop, .popFrame frame] none
      else return .go head c s [.setLoop loop] none
  | .closeLoop _ => do
    let (loop, loops) ← pop s.loops
    return .go (pc + 1) c { s with loops } [.popLoop loop] none
  | .accept => if anchored && c.left != 0 then .ok .fail else .ok .accept

end Machine

/-- A machine on its way. -/
structure Machine where
  /-- The place of the next instruction. -/
  pc : Nat
  cursor : Cursor
  state : Machine.State
  /-- How to undo the changes, the latest one first. -/
  log : List Machine.Undo
  /-- The places to go back to, the one noted last first. -/
  retry : List Machine.Retry

namespace Machine

/-- A machine at the first instruction. -/
def start (c : Cursor) : Machine :=
  { pc := 0, cursor := c, state := {}, log := [], retry := [] }

/-- How far a machine has come. -/
inductive Progress where
  | running (m : Machine)
  /-- It has stopped at the end of a match, or because there is none, and leaves
  this trace. -/
  | stopped (finish : Option Cursor) (root : Tables)

/-- Performs the next instruction.  If that fails, goes back to the place noted
last, and stops if there is none. -/
def step (code : Code) (anchored : Bool) (m : Machine) : Except Fault Progress := do
  match code[m.pc]? with
  | none => throw .noInstruction
  | some op =>
    match ← exec anchored m.pc m.cursor m.state op with
    | .go pc cursor state undos instead =>
      let noted := instead.toList.map fun pc => ⟨pc, m.cursor, m.log.length⟩
      return .running { pc, cursor, state, log := undos ++ m.log, retry := noted ++ m.retry }
    | .accept => return .stopped (some m.cursor) m.state.root
    | .fail =>
      match m.retry with
      | [] =>
        let (state, _) ← m.state.rewind 0 m.log
        return .stopped none state.root
      | r :: retry =>
        let (state, log) ← m.state.rewind r.log m.log
        return .running { pc := r.pc, cursor := r.cursor, state, log, retry }

/-- Runs until the machine stops, for so many steps at most: where the match
ends, if there is one, and the trace.  There is no result if the steps are not
enough. -/
def run (code : Code) (anchored : Bool) (m : Machine) :
    Nat → Option (Except Fault (Option Cursor × Tables))
  | 0 => none
  | steps + 1 =>
    match m.step code anchored with
    | .error e => some (.error e)
    | .ok (.stopped finish root) => some (.ok (finish, root))
    | .ok (.running m) => run code anchored m steps

/-- Matches from a cursor on: the span of the match, if there is one, and the
trace. -/
def traceFrom (code : Code) (anchored : Bool) (c : Cursor) (steps : Nat) :
    Option (Except Fault (Option Span × Tables)) :=
  (run code anchored (start c) steps).map fun ending =>
    ending.map fun (finish, root) => (finish.map fun d => ⟨c.pos, d.pos⟩, root)

/-- Matches the whole input. -/
def traceMatch (p : Located) (input : Bytes) :
    Nat → Option (Except Fault (Option Span × Tables)) :=
  traceFrom p.program true (Cursor.ofInput input)

/-- Tries one place after the other, `pos` being the number of bytes before the
first and `left` the number after it.  Every attempt has a trace of its own, and
so many steps. -/
def traceSearchFrom (code : Code) (pos left : Nat) (rest : Bytes) (steps : Nat) :
    Option (Except Fault (Option Span × Tables)) :=
  match traceFrom code false ⟨pos, left, rest⟩ steps with
  | some (.ok (none, _)) =>
    match rest with
    | [] => some (.ok (none, .empty))
    | _ :: rest => traceSearchFrom code (pos + 1) (left - 1) rest steps
  | ending => ending

/-- Finds the leftmost match. -/
def traceSearch (p : Located) (input : Bytes) :
    Nat → Option (Except Fault (Option Span × Tables)) :=
  traceSearchFrom p.program 0 input.length input

end Machine

end CaptureTree
