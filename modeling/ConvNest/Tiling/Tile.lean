/-
# Tiles of generic operations

A tile of a generic operation is given by an offset and a size for each loop.  It is computed by a
generic operation on slices of the operands, whose indexing maps are those of the whole, moved to
the tile.

For each expression `e` of an indexing map:
* a plain dimension takes the offset and the size of its loop;
* an expression that does not decrease in the dimensions covers the values from `e` at the offsets
  to `e` at the last point of the tile, and is moved by its value at the offsets;
* of any other expression the whole axis is kept.

The offsets become symbols of the new operation, after those it had.  Symbols that no map uses are
left out.
-/
import ConvNest.Affine.Linear
import ConvNest.Program.Build

namespace ConvNest.Tiling

open Program ConvNest.Affine

/-- An operand axis whose size is the number of iterations of a loop. -/
structure Source where
  operand : ValueId
  axis : Nat
  dim : Dim
  deriving DecidableEq, Repr, Inhabited

/-- Takes the axes of an operand that are plain dimensions, in place of none or of a dynamic one. -/
def sourcesOf (g : Graph) (shaped : List ValueId) (k : Nat) (m : Map)
    (sources : List (Option Source)) : Except Fault (List (Option Source)) :=
  m.results.zipIdx.foldlM (fun sources p =>
    match p.1 with
    | .dim d => do
      let operand ← itemAt shaped k
      let dim ← itemAt (g.ty operand).shape.dims p.2
      match ← pick sources d with
      | some old =>
        if dim.isStatic && !old.dim.isStatic then
          return sources.set d.toInt.toNat (some ⟨operand, p.2, dim⟩)
        else return sources
      | none => return sources.set d.toInt.toNat (some ⟨operand, p.2, dim⟩)
    | _ => .ok sources) sources

/-- The axis that gives the size of each loop, if there is one. -/
def sources (g : Graph) (i : OpId) : Except Fault (List (Option Source)) := do
  let a ← g.genericAttr i
  let shaped ← g.shaped i
  a.maps.zipIdx.foldlM (fun acc p => sourcesOf g shaped p.2 p.1 acc)
    (List.replicate a.iterators.length none)

/-- The number of iterations of each loop, computed at the insertion point. -/
def domain (i : OpId) : Edit (List Index) := do
  let found ← sources (← Edit.graph) i
  found.zipIdx.mapM fun p =>
    match p.1 with
    | some s => Edit.dimSize s.operand (Int64.ofNat s.axis)
    | none => throw (.loopNotPlain p.2)

/-- The offset and the size of a tile in each loop. -/
structure Tile where
  offsets : List Index
  sizes : List Index
  deriving DecidableEq, Repr, Inhabited

/-- What the axes of the operands are computed from. -/
structure Frame where
  tile : Tile
  /-- The values of all symbols: those of the operation, the offsets, and the sizes. -/
  symbols : List Index
  /-- The number of symbols of the operation. -/
  kept : Nat
  /-- The offset of each loop in the maps of the tile. -/
  shifts : List Expr
  deriving Inhabited

namespace Frame

/-- The number of loops. -/
def loops (f : Frame) : Nat := f.shifts.length

/-- The dimensions of the tile, as dimensions of the whole. -/
def shifted (f : Frame) : List (Option Expr) :=
  f.shifts.zipIdx.map fun p => some (.add (.dim (Int64.ofNat p.2)) p.1)

/-- The symbol of the offset of a loop. -/
def offsetSym (f : Frame) (d : Nat) : Expr := .sym (Int64.ofNat (f.kept + d))

/-- The symbol of the size of a loop. -/
def sizeSym (f : Frame) (d : Nat) : Expr := .sym (Int64.ofNat (f.kept + f.loops + d))

/-- The first point of the tile. -/
def first (f : Frame) : List (Option Expr) :=
  (List.range f.loops).map fun d => some (f.offsetSym d)

/-- The last point of the tile. -/
def last (f : Frame) : List (Option Expr) :=
  (List.range f.loops).map fun d => some (.add (f.offsetSym d) (.sub (f.sizeSym d) (.const 1)))

end Frame

/-- What a tile touches along one axis, and the index of the axis in the tile. -/
structure Span where
  offset : Index
  size : Index
  expr : Expr
  deriving Inhabited

/-- The span of an axis whose index does not decrease in the dimensions. -/
def monotoneSpan (f : Frame) (e moved : Expr) : Edit Span := do
  let low ← e.replace f.first []
  let high ← e.replace f.last []
  let offset ← Edit.composedApply low f.symbols
  let size ← Edit.composedApply (.add (.sub high low) (.const 1)) f.symbols
  let base ← e.replace (f.shifts.map some) []
  return ⟨offset, size, ← (Expr.sub moved base).simplify⟩

/-- The span that is all of an axis. -/
def wholeSpan (operand : ValueId) (axis : Nat) (moved : Expr) : Edit Span := do
  let size ← Edit.dimSize operand (Int64.ofNat axis)
  return ⟨.static 0, size, ← moved.simplify⟩

/-- The span of an axis of an operand. -/
def span (f : Frame) (operand : ValueId) (axis : Nat) (e : Expr) : Edit Span :=
  match e with
  | .dim d => do return ⟨← pick f.tile.offsets d, ← pick f.tile.sizes d, .dim d⟩
  | e => do
    let moved ← e.replace f.shifted []
    if ← e.nonDecreasing then monotoneSpan f e moved else wholeSpan operand axis moved

/-- The spans of all axes of an operand. -/
def spans (f : Frame) (operand : ValueId) (m : Map) : Edit (List Span) :=
  m.results.zipIdx.mapM fun p => span f operand p.2 p.1

/-- The slice of an operand that a tile touches. -/
structure Slice where
  value : ValueId
  offsets : List Index
  sizes : List Index
  map : Map
  deriving Inhabited

/-- Cuts an operand to a tile. -/
def slice (f : Frame) (syms : Nat) (operand : ValueId) (m : Map) : Edit Slice := do
  let ss ← spans f operand m
  let offsets := ss.map (·.offset)
  let sizes := ss.map (·.size)
  let value ← Edit.extractSlice operand offsets sizes
  let map ← Map.make (Int64.ofNat f.loops) (Int64.ofNat syms) (ss.map (·.expr))
  return ⟨value, offsets, sizes, map⟩

/-- Cuts operands to a tile, each by its map. -/
def slices (f : Frame) (syms : Nat) : List ValueId → List Map → Edit (List Slice)
  | [], _ => pure []
  | _ :: _, [] => throw (.stuck .position)
  | v :: vs, m :: ms => do
    let s ← slice f syms v m
    return s :: (← slices f syms vs ms)

/-- The expression of an offset in the maps of a tile, and the symbols with it: a known offset is a
constant, any other one becomes the next symbol. -/
def shift (acc : List Expr × List ValueId) : Index → List Expr × List ValueId
  | .static n => (acc.1 ++ [.const n], acc.2)
  | .dynamic v => (acc.1 ++ [.sym (Word.length acc.2)], acc.2 ++ [v])

/-- The offsets in the maps of a tile, and all its symbols. -/
def shifts (symbols : List ValueId) (offsets : List Index) : List Expr × List ValueId :=
  offsets.foldl shift ([], symbols)

/-- Leaves out the symbols that no map uses, and renumbers the others. -/
def compactSymbols (maps : List Map) (symbols : List ValueId) :
    Except Fault (List Map × List ValueId) := do
  let used ← maps.foldlM (fun used m => do
    return List.zipWith (· || ·) used (← m.usedSyms)) (symbols.map fun _ => false)
  let (table, kept) := Edit.renumber used symbols
  let maps ← maps.mapM fun m => do
    Map.make m.dims (Word.length kept) (← m.results.mapM (Expr.replace [] table))
  return (maps, kept)

/-- Copies the body of a generic operation, whose arguments become the given ones. -/
def copyBody (i : OpId) (args : List ValueId) : Edit (List ValueId) := do
  let g ← Edit.graph
  let body ← g.bodyOf i
  let m ← Mapping.empty.insertAll body.args args
  Edit.demand (!body.ops.isEmpty) (.stuck .position)
  let m ← Edit.cloneAll body.ops.dropLast m
  return (← g.yielded i).map m.lookup

/-- The computation of a tile: the new operation, and the slices of the destinations that it
computes. -/
def tiledOp (i : OpId) (tile : Tile) (dests : List ValueId) : Edit (OpId × List Slice) := do
  let g ← Edit.graph
  let a ← g.genericAttr i
  let symbols ← g.symbols i
  let known ← symbols.mapM Edit.indexOf
  let (moves, allSymbols) := shifts symbols tile.offsets
  let f : Frame := ⟨tile, known ++ tile.offsets ++ tile.sizes, symbols.length, moves⟩
  let inputs ← g.inputs i
  let ss ← slices f allSymbols.length (inputs ++ dests) a.maps
  let (maps, kept) ← compactSymbols (ss.map (·.map)) allSymbols
  let values := ss.map (·.value)
  let (j, _) ← Edit.generic (values.take inputs.length) (values.drop inputs.length) kept maps
    a.iterators fun args => do return (← copyBody i args, ())
  return (j, ss.drop inputs.length)

end ConvNest.Tiling
