/-
# Tensors that hold what their dimensions ask for

A proper tensor has as many elements as its dimensions ask for, all of them of its element type, so
that no position wraps around.  A word that has been wrapped to its type stays as it is
(`wrapInt_wrapInt`).
-/
import ConvNest.Proofs.Agreement

namespace ConvNest

/-! ## 1. Wrapped words -/

namespace Element

theorem wrapInt_wrapInt (e : Element) (n : Int64) : e.wrapInt (e.wrapInt n) = e.wrapInt n := by
  cases e with
  | bool =>
    simp only [wrapInt]
    split <;> simp
  | uint8 | uint16 | uint32 =>
    simp only [wrapInt, UInt64.toUInt64_toInt64, UInt8.toUInt8_toUInt64, UInt16.toUInt16_toUInt64,
      UInt32.toUInt32_toUInt64]
  | _ => simp [wrapInt]

end Element

/-- The words of elements that are held as words. -/
def Elements.words : Elements → List Int64
  | floats _ => []
  | ints xs => xs.toList

namespace Tensor

/-! ## 2. Proper tensors -/

/-- A tensor with as many elements as its dimensions ask for, each of its element type. -/
structure Proper (t : Tensor) : Prop where
  positive : ∀ d ∈ t.dims, 0 < d
  size : (t.data.size : Int) = volume t.dims
  fits : volume t.dims < 2 ^ 63
  kind : t.data.isFloat = t.elem.isFloat
  wrapped : ∀ n ∈ t.data.words, t.elem.wrapInt n = n

theorem Proper.ints {t : Tensor} (ht : t.Proper) (hf : t.elem.isFloat = false) :
    ∃ xs, t.data = .ints xs := by
  have hkind := ht.kind
  cases hd : t.data with
  | floats xs => simp [hd, hf, Elements.isFloat] at hkind
  | ints xs => exact ⟨xs, rfl⟩

end Tensor

end ConvNest
