/-
# Transformations

* `convolution` tiles a convolution, and answers the microkernel and the four loops around it.
* `tiling` tiles a generic operation, and answers the tiled operation and the outermost loop.
-/
import ConvNest.Conv.Apply
import ConvNest.Transform.Run

namespace ConvNest.Transform

open Program

/-- Makes a failure of validation silenceable: it comes before any change. -/
def silenceUnsupported (why : Failure) : Failure :=
  if why.category = .validation then .silenceable why else why

/-- Tiles a convolution. -/
def convolution (c : Conv.Config) : Transformation where
  name := "sconv"
  results := 5
  apply target := do
    let (nest, _) ← (Conv.apply target c).adapt silenceUnsupported
    return (nest.kernel :: nest.loops).filterMap id

/-- Tiles a generic operation. -/
def tiling (o : Tiling.Options) : Transformation where
  name := "tile"
  results := 2
  apply target := do
    let g ← (Edit.graph : Edit Graph)
    if !Tiling.tileable g target then throw (.silenceable (.untileable (g.kind target)))
    match ← (Tiling.tile target o : Edit _) with
    | .error why => throw (.tiling why)
    | .ok nest => return nest.tiled.take 1 ++ nest.loops.take 1

end ConvNest.Transform
