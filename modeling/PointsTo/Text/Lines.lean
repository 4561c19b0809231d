/-!
Texts as lists of lines. `pieces` keeps each line with its terminator, so that
the text is the concatenation of its pieces; `lines` drops a line feed, or a
carriage return and a line feed, at a line's end.
-/

namespace PointsTo
namespace Text

def linePieces (cs : List Char) : List (List Char) :=
  cs.foldr
    (fun c found =>
      if c = '\n' then [c] :: found
      else match found with
        | [] => [[c]]
        | piece :: more => (c :: piece) :: more)
    []

theorem flatten_linePieces (cs : List Char) : (linePieces cs).flatten = cs := by
  induction cs with
  | nil => rfl
  | cons c cs ih =>
    rw [linePieces, List.foldr_cons, ← linePieces]
    split
    · simp [ih]
    · split
      · next h => simp [h] at ih; simp [ih]
      · next h => simp [h] at ih; simp [ih]

/-- A line's text without the terminator that ends it. A carriage return counts
as part of the terminator only before a line feed. -/
def dropTerminator (piece : List Char) : List Char :=
  match piece.reverse with
  | '\n' :: '\r' :: rest => rest.reverse
  | '\n' :: rest => rest.reverse
  | _ => piece

def lines (cs : List Char) : List (List Char) :=
  (linePieces cs).map dropTerminator

def isLineEnd (c : Char) : Bool :=
  c = '\n' || c = '\r'

/-- The run of carriage returns and line feeds at the end of a piece. -/
def lineEnd (piece : List Char) : List Char :=
  (piece.reverse.takeWhile isLineEnd).reverse

end Text
end PointsTo
