import CaptureTree.Matching.Outcomes
import CaptureTree.Matching.Instruction
import CaptureTree.Matching.Machine
import CaptureTree.Proofs.Matching.Outcomes
import CaptureTree.Proofs.Positions
import CaptureTree.Proofs.WellFormed
import CaptureTree.Regex
import CaptureTree.Trace.Change
import CaptureTree.Proofs.Matching.Language
import CaptureTree.Proofs.Matching.Preference
import CaptureTree.Proofs.Results
import CaptureTree.Proofs.Trace.Placement
import CaptureTree.Proofs.Trace.Executed
import CaptureTree.Proofs.Matching.Records
import CaptureTree.Proofs.Nesting
import CaptureTree.Proofs.Shape.Paths
import CaptureTree.Proofs.Value.Assembly
import CaptureTree.Proofs.Value.Projection
import CaptureTree.Proofs.Value.Runs
import CaptureTree.Proofs.Evaluation
import CaptureTree.Proofs.Trace.Spans
import CaptureTree.Proofs.Value.Spans
import CaptureTree.Proofs.Conservation
import CaptureTree.Proofs.Flattening
import CaptureTree.Proofs.Trace.Shift
import CaptureTree.Proofs.Matching.Window
import CaptureTree.Proofs.Value.Shift
import CaptureTree.Proofs.Matching.Preferred
import CaptureTree.Proofs.Naming
import CaptureTree.Proofs.Leftmost
import CaptureTree.Proofs.Trace.Restrict
import CaptureTree.Proofs.Matching.Captured
import CaptureTree.Proofs.Rematching
import CaptureTree.Proofs.Release.Outcomes
import CaptureTree.Proofs.Release.Results
import CaptureTree.Proofs.Independence
import CaptureTree.Proofs.Value.Alike
import CaptureTree.Proofs.Trace.Frames
import CaptureTree.Proofs.Trace.Unframe
import CaptureTree.Proofs.SpanLists
import CaptureTree.Proofs.Value.Conforms
import CaptureTree.Proofs.Legibility
import CaptureTree.Proofs.Value.Encoding
import CaptureTree.Proofs.Decoding
import CaptureTree.Proofs.Matching.ComesTo
import CaptureTree.Proofs.Value.Summaries
import CaptureTree.Proofs.Regrouping.Basic
import CaptureTree.Proofs.Shape.Printing
import CaptureTree.Proofs.Denotation
import CaptureTree.Proofs.Regrouping
import CaptureTree.Proofs.Ancestors
import CaptureTree.Proofs.Value.Entries
import CaptureTree.Proofs.Alignment
import CaptureTree.Proofs.Shape.Slots
import CaptureTree.Proofs.Numbering
import CaptureTree.Proofs.Conformance
import CaptureTree.Proofs.Trace.Enriched
import CaptureTree.Proofs.Enrichment
import CaptureTree.Proofs.Termination
import CaptureTree.Proofs.Trace.RunBetween
import CaptureTree.Proofs.Shape.Origins
import CaptureTree.Proofs.Places
import CaptureTree.Proofs.LoopBounds
import CaptureTree.Proofs.InOrder
import CaptureTree.Proofs.Exclusivity
import CaptureTree.Proofs.Trace.Tables
import CaptureTree.Proofs.Trace.Padded
import CaptureTree.Proofs.WellPlaced
import CaptureTree.Proofs.Shape.Canonical
import CaptureTree.Proofs.Shape.NormalForm
import CaptureTree.Proofs.Validation
import CaptureTree.Proofs.Compilation
import CaptureTree.Proofs.Locality
import CaptureTree.Proofs.Absence
import CaptureTree.Value.Tabled
import CaptureTree.Proofs.Value.Tabled
import CaptureTree.Proofs.Undoing
import CaptureTree.Proofs.Machine.Layout
import CaptureTree.Proofs.Machine.Recording
import CaptureTree.Proofs.Machine.Restoring
import CaptureTree.Proofs.Machine.Threads
import CaptureTree.Proofs.Machine.Visiting
import CaptureTree.Proofs.Machine.Running
import CaptureTree.Proofs.Backtracking
import CaptureTree.Proofs.Labels
import CaptureTree.Proofs.Delimiters
import CaptureTree.Proofs.Value.Printing
import CaptureTree.Proofs.Shape.Outline
import CaptureTree.Proofs.ByteClasses
import CaptureTree.Proofs.Satisfiability
import CaptureTree.Proofs.Shape.Unplaced
import CaptureTree.Proofs.Joining.Chains
import CaptureTree.Proofs.Joining.Slots
import CaptureTree.Proofs.Joining.Values
import CaptureTree.Proofs.Joining
