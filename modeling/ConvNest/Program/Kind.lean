/-
# Kinds of operations

The operations of programs, named as they are printed.  A program may also hold operations of kinds
that are not known here: they can be built, printed and erased, but not evaluated.
-/
namespace ConvNest.Program

/-- The kind of an operation. -/
inductive Kind where
  | constant
  | addInt
  | addFloat
  | mulInt
  | mulFloat
  | extendInt
  | extendFloat
  | intToFloat
  | affineApply
  | affineMin
  | tensorDim
  | collapse
  | expand
  | extractSlice
  | insertSlice
  | conv
  | generic
  | genericYield
  | forLoop
  | loopYield
  | funcReturn
  | other (name : String)
  deriving DecidableEq, Repr, Inhabited

namespace Kind

/-- The printed name of a kind. -/
def name : Kind → String
  | constant => "arith.constant"
  | addInt => "arith.addi"
  | addFloat => "arith.addf"
  | mulInt => "arith.muli"
  | mulFloat => "arith.mulf"
  | extendInt => "arith.extsi"
  | extendFloat => "arith.extf"
  | intToFloat => "arith.sitofp"
  | affineApply => "affine.apply"
  | affineMin => "affine.min"
  | tensorDim => "tensor.dim"
  | collapse => "tensor.collapse_shape"
  | expand => "tensor.expand_shape"
  | extractSlice => "tensor.extract_slice"
  | insertSlice => "tensor.insert_slice"
  | conv => "linalg.conv_2d_nchw_fchw"
  | generic => "linalg.generic"
  | genericYield => "linalg.yield"
  | forLoop => "scf.for"
  | loopYield => "scf.yield"
  | funcReturn => "func.return"
  | other n => n

/-- The known kinds. -/
def known : List Kind :=
  [constant, addInt, addFloat, mulInt, mulFloat, extendInt, extendFloat, intToFloat, affineApply,
    affineMin, tensorDim, collapse, expand, extractSlice, insertSlice, conv, generic, genericYield,
    forLoop, loopYield, funcReturn]

/-- The kind with the given name. -/
def ofName (n : String) : Kind := (known.find? fun k => k.name == n).getD (other n)

/-- Whether operations of the kind end a block. -/
def isTerminator : Kind → Bool
  | genericYield | loopYield | funcReturn => true
  | _ => false

end Kind

end ConvNest.Program
