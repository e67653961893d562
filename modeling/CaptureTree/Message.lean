/-!
# Messages

A message is zero-terminated text: it ends before the first zero character.
Names and classes may hold a zero byte, and a message that quotes one of them is
cut off there, closing quote and all.
-/

namespace CaptureTree

/-- The text as far as a reader of zero-terminated text sees it. -/
def terminated (text : String) : String :=
  String.ofList (text.toList.takeWhile (· != '\x00'))

end CaptureTree
