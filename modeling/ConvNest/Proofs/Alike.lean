/-
# Failures do not depend on elements

Whether a tree of operations fails depends on element types, dimensions and indices, and on nothing
else: from stores whose tensors and scalars differ only in their elements, it either fails both
times or comes to data that again differ only so (`execAll_like`, for `Likeness.alike`).
-/
import ConvNest.Proofs.Agreement
import ConvNest.Proofs.Renaming

namespace ConvNest.Program

theorem arith_alike {x y x' y' : Scalar} (k : Kind) (hx : x'.elem = x.elem)
    (hy : y'.elem = y.elem) :
    Option.Rel (fun s s' : Scalar => s'.elem = s.elem) (Eval.arith k x y).toOption
      (Eval.arith k x' y').toOption := by
  unfold Eval.arith
  rw [hx, hy]
  split
  · exact .none
  · refine .some ?_
    cases k <;> simp only [Scalar.addInt, Scalar.mulInt, Scalar.addFloat, Scalar.mulFloat, hx,
      Scalar.ofInt, Scalar.elem_ofFloat]

/-- Tensors and scalars that differ at most in elements. -/
def Likeness.alike : Likeness where
  tensor := Tensor.Alike
  scalar s s' := s'.elem = s.elem
  reflTensor := .refl _
  reflScalar _ := rfl
  shape h := ⟨h.elem, h.dims⟩
  arith := arith_alike
  widen _ _ := by simp only [Scalar.extendInt, Scalar.intToFloat, Scalar.extendFloat, Scalar.ofInt,
    Scalar.elem_ofFloat, and_self]
  reshape s h := Tensor.Alike.reshape h s
  extractSlice os zs h := Tensor.Alike.extractSlice h os zs
  insertSlice os zs hsrc h := Tensor.Alike.insertSlice h hsrc os zs
  conv2d s d hi hf ho := Tensor.Alike.conv2d hi hf ho s d
  scalarAt p h := Tensor.Alike.scalarAt h p
  setScalar p h _ := Tensor.Alike.setScalar h p _ _

end ConvNest.Program
