/-!
# Lines

* `segments` — a sequence cut after each element that ends a segment.
* `lines` — the lines of a text without their line endings. A line ends with a
  newline or with a carriage return and a newline.
-/

namespace Abacus.Text

/-- Cuts a sequence after each element for which `stop` holds. -/
def segments {α : Type} (stop : α → Bool) : List α → List (List α)
  | [] => []
  | a :: as =>
    if stop a then
      [a] :: segments stop as
    else
      match segments stop as with
      | [] => [[a]]
      | segment :: rest => (a :: segment) :: rest

/-- A line without its line ending. -/
def dropEnding (line : List Char) : List Char :=
  match line.reverse with
  | '\n' :: '\r' :: rest => rest.reverse
  | '\n' :: rest => rest.reverse
  | _ => line

/-- The lines of a text. -/
def lines (text : String) : List String :=
  (segments (· = '\n') text.toList).map fun line => String.ofList (dropEnding line)

end Abacus.Text
