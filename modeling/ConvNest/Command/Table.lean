/-
# Tables

Tables have borders, a line for each row, and a line below the header if there is one.  A cell has a
blank on both sides, a header cell two, and every column has room for the blanks of its header.  The
first column is flush right, the others are flush left, and headers are centered, with an odd blank
on the right.
-/
namespace ConvNest.Command

/-- A table of texts. -/
structure Table where
  header : List String
  rows : List (List String)
  deriving Repr, Inhabited

namespace Table

/-- A number of copies of a text. -/
def times (n : Nat) (s : String) : String := String.join (List.replicate n s)

/-- A number of blanks. -/
def blanks (n : Nat) : String := times n " "

/-- The number of columns. -/
def columns (t : Table) : Nat := (t.header :: t.rows).foldl (fun n r => max n r.length) 0

/-- How many blanks the cells with the most of them have. -/
def padding (t : Table) : Nat := if t.header.isEmpty then 2 else 4

/-- The widths of columns: each has room for its longest text and the most blanks. -/
def widths (t : Table) : List Nat :=
  (List.range t.columns).map fun k =>
    ((t.header :: t.rows).map fun r => (r.getD k "").length).foldl max 0 + t.padding

/-- A cell of a row. -/
def cell (width k : Nat) (s : String) : String :=
  if k == 0 then blanks (width - s.length - 1) ++ s ++ " "
  else " " ++ s ++ blanks (width - s.length - 1)

/-- A cell of the header. -/
def headerCell (width : Nat) (s : String) : String :=
  let free := width - s.length
  blanks (free / 2) ++ s ++ blanks (free - free / 2)

/-- A line of cells. -/
def line (cells : List String) : String := "│" ++ "│".intercalate cells ++ "│"

/-- A horizontal line with the given ends and crossings. -/
def rule (widths : List Nat) (left cross right : String) : String :=
  left ++ cross.intercalate (widths.map fun w => times w "─") ++ right

/-- The lines of a table. -/
def lines (t : Table) : List String :=
  let ws := t.widths
  let row (r : List String) : String := line (ws.zipIdx.map fun p => cell p.1 p.2 (r.getD p.2 ""))
  let header := line (ws.zipIdx.map fun p => headerCell p.1 (t.header.getD p.2 ""))
  let top := if t.header.isEmpty then [] else [header, rule ws "├" "┼" "┤"]
  [rule ws "┌" "┬" "┐"] ++ top ++ t.rows.map row ++ [rule ws "└" "┴" "┘"]

/-- The text of a table. -/
def text (t : Table) : String := "\n".intercalate t.lines

end Table

/-- A title: an empty line, and the title between blanks. -/
def title (s : String) : String :=
  Table.blanks (s.length + 8) ++ "\n" ++ Table.blanks 4 ++ s ++ Table.blanks 4

end ConvNest.Command
