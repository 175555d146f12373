import WireFormat.Piece
import WireFormat.WriteError

/-!
# Attempts to write

Writing a value by a schema may fail part way. An attempt holds the pieces that were written and the first error.
-/
namespace WireFormat

structure Written where
  pieces : List Piece
  error? : Option WriteError
deriving Repr

namespace Written

def done (pieces : List Piece) : Written :=
  ⟨pieces, none⟩

/-- Writes nothing. -/
def refused (error : WriteError) : Written :=
  ⟨[], some error⟩

/-- Pieces in front that cannot fail. -/
def after (pieces : List Piece) (attempt : Written) : Written :=
  ⟨pieces ++ attempt.pieces, attempt.error?⟩

/-- The second attempt is made only if the first has succeeded. -/
def andThen (first second : Written) : Written :=
  match first.error? with
  | none => second.after first.pieces
  | some _ => first

/-- All attempts are made, whatever the ones before come to, and the first error stands. -/
def all (attempts : List Written) : Written :=
  ⟨attempts.flatMap pieces, attempts.findSome? error?⟩

end Written

end WireFormat
