import CaptureTree.Inconsistency

/-!
# Errors of reading

Reading a result fails in three ways: the value contradicts its shape, the
caller asks for something that is not there, or a position lies outside a list
of values or outside the input.

A fourth way is no error that anyone reports.  A slot that may be left out says
whether it holds something, and where it says so its inside is read without a
check that there is one.  What happens if there is none is not defined; here it
has an outcome of its own.
-/

namespace CaptureTree

/-- The accessors that need a slot of one kind. -/
inductive Accessor where
  | span
  | size
  | item
  | present
  | choice
  deriving DecidableEq, Repr

/-- The name of an accessor in messages. -/
def Accessor.name : Accessor → String
  | .span => "span"
  | .size => "size"
  | .item => "operator[]"
  | .present => "present"
  | .choice => "choice"

/-- A question about something that is not there. -/
inductive LookupError where
  /-- An accessor applied to a slot of another kind than it needs. -/
  | wrongSlot (accessor : Accessor) (needed actual : SlotKind)
  /-- No member of a product with this number. -/
  | noMember (index : Nat)
  /-- No item of a list with this number. -/
  | noOccurrence (index : Nat)
  /-- No capture, or no member, with this name. -/
  | unknownName (name : String)
  /-- The inside of a slot that was left out. -/
  | absentOption
  /-- No capture with this number among `count`. -/
  | noCapture (index count : Nat)
  /-- A number of handlers other than that of the branches. -/
  | handlerCount (handlers branches : Nat)
  deriving DecidableEq, Repr

/-- What was asked for, in words. -/
def LookupError.reason : LookupError → String
  | .wrongSlot accessor needed actual =>
    accessor.name ++ " needs a " ++ needed.name ++ " slot, this one is " ++ actual.name
  | .noMember index => "member " ++ toString index ++ " out of range"
  | .noOccurrence index => "occurrence " ++ toString index ++ " out of range"
  | .unknownName name => "no such named capture '" ++ name ++ "'"
  | .absentOption => "optional capture is absent"
  | .noCapture index count =>
    "capture " ++ toString index ++ " out of range, pattern has " ++ toString count
  | .handlerCount handlers branches =>
    "visit needs one handler per branch: got " ++ toString handlers ++ ", Sum has " ++
      toString branches

/-- The full message. -/
def LookupError.message (e : LookupError) : String :=
  terminated e.reason

/-- Why a value can not be read as asked. -/
inductive ReadError where
  | inconsistent (e : Inconsistency)
  | lookup (e : LookupError)
  /-- A position outside a list of values, or outside the input. -/
  | outOfRange
  /-- The inside of something that has none, read without a check. -/
  | undefined
  deriving DecidableEq, Repr

/-- The first entry of a list, read without a check that there is one. -/
def firstUnchecked {α : Type} : List α → Except ReadError α
  | [] => .error .undefined
  | x :: _ => .ok x

/-- A contradiction met while reading. -/
def Inconsistency.whileReading {α : Type} (r : Except Inconsistency α) : Except ReadError α :=
  r.mapError .inconsistent

end CaptureTree
