/-
# Tensors that agree

Two tensors agree on some positions if they have the same element type and dimensions, hold as many
elements, and have the same elements at those positions.  Tensors that agree nowhere in particular
are `Alike`: no operation can tell by its failures which of them it was given.

A slice of a tensor is read and written only at the positions that it covers (`extractSlice_agree`,
`insertSlice_frame`).
-/
import ConvNest.Proofs.Outcome
import ConvNest.Proofs.Points
import ConvNest.Tensor.Conv
import ConvNest.Tensor.Slice

namespace ConvNest

open List

theorem Scalar.elem_ofFloat (e : Element) (x : Float) : (ofFloat e x).elem = e := by
  unfold ofFloat
  split <;> rfl

/-! ## 1. Elements -/

namespace Elements

/-- As many elements of the same kind, and the same ones at some positions. -/
def AgreeOn (R : Nat → Prop) : Elements → Elements → Prop
  | floats xs, floats ys => xs.size = ys.size ∧ ∀ j, R j → xs[j]? = ys[j]?
  | ints xs, ints ys => xs.size = ys.size ∧ ∀ j, R j → xs[j]? = ys[j]?
  | _, _ => False

/-- The elements with a double or a word stored at a position. -/
def write (i : Nat) (x : Float) (n : Int64) : Elements → Elements
  | floats xs => floats (xs.setIfInBounds i x)
  | ints xs => ints (xs.setIfInBounds i n)

section AgreeOn

variable {R Q : Nat → Prop} {xs ys zs : Elements}

theorem AgreeOn.refl (R : Nat → Prop) (xs : Elements) : AgreeOn R xs xs := by
  cases xs <;> exact ⟨rfl, fun _ _ => rfl⟩

section

variable (h : AgreeOn R xs ys)

include h

theorem AgreeOn.symm : AgreeOn R ys xs := by
  cases xs <;> cases ys <;> first
    | exact ⟨h.1.symm, fun j hj => (h.2 j hj).symm⟩
    | exact h

theorem AgreeOn.trans (h' : AgreeOn R ys zs) : AgreeOn R xs zs := by
  cases xs <;> cases ys <;> cases zs <;> first
    | exact ⟨h.1.trans h'.1, fun j hj => (h.2 j hj).trans (h'.2 j hj)⟩
    | exact h.elim
    | exact h'.elim

theorem AgreeOn.mono (hq : ∀ j, Q j → R j) : AgreeOn Q xs ys := by
  cases xs <;> cases ys <;> first
    | exact ⟨h.1, fun j hj => h.2 j (hq j hj)⟩
    | exact h

theorem AgreeOn.or (h' : AgreeOn Q xs ys) : AgreeOn (fun j => R j ∨ Q j) xs ys := by
  cases xs <;> cases ys <;> first
    | exact ⟨h.1, fun j hj => hj.elim (h.2 j) (h'.2 j)⟩
    | exact h

end

theorem AgreeOn.eq (h : AgreeOn (fun _ => True) xs ys) : xs = ys := by
  cases xs <;> cases ys <;> first
    | exact congrArg _ (Array.ext_getElem? fun j => h.2 j trivial)
    | exact h.elim

theorem AgreeOn.size (h : AgreeOn R xs ys) : xs.size = ys.size := by
  cases xs <;> cases ys <;> first
    | exact h.1
    | exact h.elim

theorem agreeOn_write (xs : Elements) (i : Nat) (x : Float) (n : Int64) :
    AgreeOn (· ≠ i) xs (xs.write i x n) := by
  cases xs <;> exact ⟨by simp, fun j hj => by simp [hj.symm]⟩

theorem AgreeOn.write (h : AgreeOn R xs ys) (i : Nat) (x : Float) (n : Int64) :
    AgreeOn (fun j => R j ∨ j = i) (xs.write i x n) (ys.write i x n) := by
  have step : ∀ {α : Type} {as bs : Array α} {a : α}, as.size = bs.size →
      (∀ j, R j → as[j]? = bs[j]?) → ∀ j, R j ∨ j = i →
        (as.setIfInBounds i a)[j]? = (bs.setIfInBounds i a)[j]? := by
    intro α as bs a hsize hsame j hj
    rw [Array.getElem?_setIfInBounds, Array.getElem?_setIfInBounds, hsize]
    split
    · rfl
    · next hne => exact hsame j (hj.resolve_right fun heq => hne heq.symm)
  cases xs <;> cases ys <;> first
    | exact ⟨by simpa using h.1, step h.1 h.2⟩
    | exact h.elim

theorem AgreeOn.get? (h : AgreeOn R xs ys) (e : Element) {i : Int64} (hi : R i.toInt.toNat) :
    ys.get? e i = xs.get? e i := by
  unfold Elements.get?
  split
  · rfl
  · cases xs <;> cases ys <;> first
      | simp only [h.2 _ hi]
      | exact h.elim

theorem AgreeOn.get?_isSome (h : AgreeOn R xs ys) (e : Element) (i : Int64) :
    Option.Rel (fun s s' : Scalar => s'.elem = s.elem) (xs.get? e i) (ys.get? e i) := by
  have step : ∀ {α : Type} {as bs : Array α} (f : α → Scalar), (∀ a, (f a).elem = e) →
      as.size = bs.size → ∀ j : Nat, Option.Rel (fun s s' : Scalar => s'.elem = s.elem)
        (as[j]?.map f) (bs[j]?.map f) := by
    intro α as bs f hf hsize j
    by_cases hj : j < as.size
    · rw [Array.getElem?_eq_getElem hj, Array.getElem?_eq_getElem (hsize ▸ hj)]
      exact .some ((hf _).trans (hf _).symm)
    · rw [Array.getElem?_eq_none (by omega), Array.getElem?_eq_none (by omega)]
      exact .none
  unfold Elements.get?
  split
  · exact .none
  · cases xs <;> cases ys <;> first
      | exact step _ (fun _ => rfl) h.1 _
      | exact h.elim

end AgreeOn

end Elements

/-! ## 2. Tensors -/

namespace Tensor

/-- The same element type and dimensions, and the same elements at some positions. -/
structure AgreeOn (R : Nat → Prop) (t u : Tensor) : Prop where
  elem : u.elem = t.elem
  dims : u.dims = t.dims
  data : t.data.AgreeOn R u.data

/-- The same element type and dimensions, and as many elements. -/
abbrev Alike (t u : Tensor) : Prop := AgreeOn (fun _ => False) t u

section AgreeOn

variable {R Q : Nat → Prop} {t u v : Tensor}

theorem AgreeOn.refl (R : Nat → Prop) (t : Tensor) : AgreeOn R t t := ⟨rfl, rfl, .refl R _⟩

section

variable (h : AgreeOn R t u)

include h

theorem AgreeOn.symm : AgreeOn R u t := ⟨h.elem.symm, h.dims.symm, h.data.symm⟩

theorem AgreeOn.trans (h' : AgreeOn R u v) : AgreeOn R t v :=
  ⟨h'.elem.trans h.elem, h'.dims.trans h.dims, h.data.trans h'.data⟩

theorem AgreeOn.mono (hq : ∀ j, Q j → R j) : AgreeOn Q t u :=
  ⟨h.elem, h.dims, h.data.mono hq⟩

theorem AgreeOn.or (h' : AgreeOn Q t u) : AgreeOn (fun j => R j ∨ Q j) t u :=
  ⟨h.elem, h.dims, h.data.or h'.data⟩

theorem AgreeOn.alike : Alike t u := h.mono fun _ => False.elim

end

theorem AgreeOn.eq (h : AgreeOn (fun _ => True) t u) : t = u := by
  obtain ⟨helem, hdims, hdata⟩ := h
  cases t
  cases u
  simp only at helem hdims hdata
  rw [helem, hdims, hdata.eq]

theorem AgreeOn.shape (h : AgreeOn R t u) : u.shape = t.shape := by
  rw [Tensor.shape, Tensor.shape, h.elem, h.dims]

theorem AgreeOn.flat (h : AgreeOn R t u) {i : Int64} (hi : R i.toInt.toNat) :
    u.flat i = t.flat i := by
  rw [Tensor.flat, Tensor.flat, h.elem, h.data.get? _ hi]

theorem Alike.flat (h : Alike t u) (i : Int64) :
    Option.Rel (fun s s' : Scalar => s'.elem = s.elem) (t.flat i).toOption (u.flat i).toOption := by
  have hrel := h.data.get?_isSome t.elem i
  rw [Tensor.flat, Tensor.flat, h.elem]
  generalize t.data.get? t.elem i = x, u.data.get? t.elem i = y at hrel ⊢
  cases hrel with
  | none => exact .none
  | some hs => exact .some hs

theorem toOption_flatIndex (t : Tensor) (p : List Int64) :
    (t.flatIndex p).toOption = if p.length = t.dims.length then position t.dims p 0 else none := by
  unfold flatIndex
  by_cases hlen : p.length = t.dims.length
  · simp only [hlen, ne_eq]
    cases position t.dims p 0 <;> rfl
  · simp [hlen]

theorem AgreeOn.flatIndex (h : AgreeOn R t u) (p : List Int64) :
    (u.flatIndex p).toOption = (t.flatIndex p).toOption := by
  rw [toOption_flatIndex, toOption_flatIndex, h.dims]

/-- The tensor with a double or a word stored at a position. -/
def write (t : Tensor) (i : Nat) (x : Float) (n : Int64) : Tensor :=
  { t with data := t.data.write i x n }

theorem agreeOn_write (t : Tensor) (i : Nat) (x : Float) (n : Int64) :
    AgreeOn (· ≠ i) t (t.write i x n) :=
  ⟨rfl, rfl, t.data.agreeOn_write i x n⟩

theorem AgreeOn.write (h : AgreeOn R t u) (i : Nat) (x : Float) (n : Int64) :
    AgreeOn (fun j => R j ∨ j = i) (t.write i x n) (u.write i x n) :=
  ⟨h.elem, h.dims, h.data.write i x n⟩

theorem Alike.write (h : Alike t u) (i : Nat) (x y : Float) (n m : Int64) :
    Alike (t.write i x n) (u.write i y m) :=
  ((t.agreeOn_write i x n).alike.symm.trans h).trans (u.agreeOn_write i y m).alike

theorem toOption_setMoved (t : Tensor) (i : Int64) (s : Scalar) : (t.setMoved i s).toOption =
    if i < 0 ∨ t.data.size ≤ i.toInt.toNat then none
    else some (t.write i.toInt.toNat (t.elem.roundFloat s.toFloat)
      (t.elem.wrapInt s.toIntThroughDouble)) := by
  unfold setMoved
  split
  · rfl
  · unfold write Elements.setMoved Elements.write
    cases t.data <;> rfl

theorem toOption_setScalar (t : Tensor) (p : List Int64) (s : Scalar) : (t.setScalar p s).toOption =
    (t.flatIndex p).toOption.bind fun i =>
      if i < 0 ∨ t.data.size ≤ i.toInt.toNat then none
      else some (t.write i.toInt.toNat (t.elem.roundFloat s.toFloat) (t.elem.wrapInt s.toInt)) := by
  unfold setScalar
  rw [toOption_bind]
  refine congrArg _ (funext fun i => ?_)
  split
  · rfl
  · unfold write Elements.setScalar Elements.write
    cases t.data <;> rfl

theorem AgreeOn.setMoved (h : AgreeOn R t u) (i : Int64) (s : Scalar) :
    Option.Rel (AgreeOn R) (t.setMoved i s).toOption (u.setMoved i s).toOption := by
  rw [toOption_setMoved, toOption_setMoved, h.data.size, h.elem]
  split
  · exact .none
  · exact .some ((h.write _ _ _).mono fun _ => .inl)

theorem Alike.setMoved (h : Alike t u) (i : Int64) (s s' : Scalar) :
    Option.Rel Alike (t.setMoved i s).toOption (u.setMoved i s').toOption := by
  rw [toOption_setMoved, toOption_setMoved, h.data.size]
  split
  · exact .none
  · exact .some (Alike.write h _ _ _ _ _)

theorem Alike.setScalar (h : Alike t u) (p : List Int64) (s s' : Scalar) :
    Option.Rel Alike (t.setScalar p s).toOption (u.setScalar p s').toOption := by
  rw [toOption_setScalar, toOption_setScalar, h.flatIndex, h.data.size]
  refine rel_bind_same fun i _ => ?_
  split
  · exact .none
  · exact .some (Alike.write h _ _ _ _ _)

theorem Alike.scalarAt (h : Alike t u) (p : List Int64) :
    Option.Rel (fun s s' : Scalar => s'.elem = s.elem) (t.scalarAt p).toOption
      (u.scalarAt p).toOption := by
  rw [Tensor.scalarAt, Tensor.scalarAt, toOption_bind, toOption_bind, h.flatIndex]
  exact rel_bind_same fun i _ => Alike.flat h i

end AgreeOn

end Tensor

/-! ## 3. Walks over indices -/

namespace Shape

variable {β γ : Type} {s : Shape}

/-- A walk over indices hands out their places. -/
theorem foldIndices_eq (f : β → Int64 → List Int64 → Except Fault β) (b : β) :
    s.foldIndices f b = if s.ok && s.isStatic then
      (Box.points s.words).zipIdx.foldlM (fun b x => f b (Int64.ofNat x.2) x.1) b else .ok b := by
  have walk (ps : List (List Int64)) (k : Nat) (b : β) :
      (do return (← ps.foldlM (fun x p => do return (← f x.1 x.2 p, x.2 + 1))
        (b, Int64.ofNat k)).1) = (ps.zipIdx k).foldlM (fun b x => f b (Int64.ofNat x.2) x.1) b := by
    induction ps generalizing k b with
    | nil => rfl
    | cons p ps ih =>
      simp only [foldlM_cons, bind_assoc]
      refine bind_congr fun c => ?_
      rw [← ih, Int64.ofNat_add]
      rfl
  simp only [foldIndices, Box.foldM_eq_foldlM]
  split
  · exact walk _ 0 b
  · rfl

variable {f : β → Int64 → List Int64 → Except Fault β} {b : β}

theorem rel_foldIndices {R : β → γ → Prop} {g : γ → Int64 → List Int64 → Except Fault γ}
    (step : ∀ b c k, ∀ p ∈ Box.points s.words, R b c →
      Option.Rel R (f b k p).toOption (g c k p).toOption)
    {c : γ} (h : R b c) :
    Option.Rel R (s.foldIndices f b).toOption (s.foldIndices g c).toOption := by
  rw [foldIndices_eq, foldIndices_eq]
  split
  · rw [toOption_foldlM, toOption_foldlM]
    refine rel_foldlM (fun b c hbc x hx => ?_) h
    exact step b c _ _ (fst_mem_of_mem_zipIdx hx) hbc
  · exact .some h

theorem foldIndices_invariant {I : β → Prop}
    (step : ∀ b k p c, p ∈ Box.points s.words → I b → f b k p = .ok c → I c) {c : β}
    (h : s.foldIndices f b = .ok c) (hb : I b) : I c := by
  rw [foldIndices_eq] at h
  split at h
  · rw [← toOption_eq_some, toOption_foldlM] at h
    exact foldlM_invariant
      (fun b x c hx hI hc => step b _ _ c (fst_mem_of_mem_zipIdx hx) hI (toOption_eq_some.1 hc))
        h hb
  · exact Except.ok.inj h ▸ hb

section

variable (e : Element) (ns : List Int64)

@[simp] theorem elem_ofSizes : (ofSizes e ns).elem = e := rfl

@[simp] theorem rank_ofSizes : (ofSizes e ns).rank = ns.length := by
  simp [ofSizes, rank]

@[simp] theorem isStatic_ofSizes : (ofSizes e ns).isStatic = true := by
  simp [ofSizes, isStatic, Dim.isStatic]

@[simp] theorem words_ofSizes : (ofSizes e ns).words = ns := by
  simp [words, ofSizes, Dim.toWord, Function.comp_def]

theorem checkStatic_ofSizes : (ofSizes e ns).checkStatic = .ok () := by
  have : (ofSizes e ns).dims.findIdx? (!·.isStatic) = none := by simp [ofSizes, Dim.isStatic]
  rw [checkStatic, this]

end

end Shape

/-! ## 4. Slices -/

namespace Tensor

/-- The index lies in the box with the given offsets and sizes. -/
def InSlice : List Int64 → List Int64 → List Int64 → Prop
  | o :: os, z :: zs, x :: xs =>
    (o.toInt ≤ x.toInt ∧ x.toInt < o.toInt + z.toInt) ∧ InSlice os zs xs
  | [], _, [] => True
  | _, _, _ => False

/-- A tensor of the given dimensions has an element of the slice at the position. -/
def Covers (dims offsets sizes : List Int64) (j : Nat) : Prop :=
  ∃ p i, InSlice offsets sizes p ∧ position dims p 0 = some i ∧ j = i.toInt.toNat

/-- The dimensions of a slice are its sizes, where those ask for something. -/
abbrev Sized (found sizes : List Int64) : Prop :=
  Forall₂ (fun f z : Int64 => z = Shape.anyDim ∨ f = z) found sizes

section Slices

variable {R : Nat → Prop} {src src' t t' u : Tensor} {dims offsets sizes found q : List Int64}
variable {x : Unit} {s : Shape}

theorem shift_inSlice (h : sliceInside dims offsets sizes = .ok true) (hsized : Sized found sizes)
    (hq : q ∈ Box.points found) (hlen : offsets.length ≤ sizes.length)
    (hin : Inside dims (shift offsets q)) : InSlice offsets sizes (shift offsets q) := by
  rw [Box.mem_points] at hq
  induction dims generalizing offsets sizes found q with
  | nil =>
    have hshift : shift offsets q = [] := forall₂_nil_right_iff.1 hin
    have hoffsets : offsets = [] := by
      rcases zipWith_eq_nil_iff.1 hshift with h | rfl
      · exact h
      · cases hq
        cases hsized
        exact length_eq_zero_iff.1 (Nat.le_zero.1 hlen)
    subst hoffsets
    simp [shift, InSlice]
  | cons d ds ih =>
    match offsets, sizes, h with
    | o :: os, z :: zs, h =>
      simp only [sliceInside] at h
      split at h
      · cases h
      · next hok =>
        cases hsized with
        | @cons f _ fs _ hf hfs =>
          cases hq with
          | @cons x _ xs _ hx hxs =>
            obtain ⟨hsum, hrest⟩ := forall₂_cons.1 hin
            simp only [not_or, Word.not_lt_zero_iff] at hok
            have hz : z ≠ Shape.anyDim := by
              rintro rfl
              exact absurd hok.2.1 (by decide)
            obtain rfl := hf.resolve_left hz
            refine ⟨?_, ih h hfs hxs (by simpa using hlen) hrest⟩
            rw [Word.toInt_add_of_nonneg hok.1 hx.1 hsum.1]
            omega
    | o :: os, [], h =>
      simp only [sliceInside] at h
      split at h <;> cases h
    | [], sizes, h => simp [sliceInside] at h

theorem toOption_checkSlice (t : Tensor) (offsets sizes : List Int64) :
    (t.checkSlice offsets sizes).toOption =
      (sliceInside t.dims offsets sizes).toOption.bind fun ok => if ok then some () else none := by
  unfold checkSlice
  rw [toOption_bind]
  refine congrArg _ (funext fun ok => ?_)
  cases ok <;> rfl

theorem checkSlice_ok :
    t.checkSlice offsets sizes = .ok x ↔ sliceInside t.dims offsets sizes = .ok true := by
  rw [← toOption_eq_some, toOption_checkSlice, ← toOption_eq_some, Option.bind_eq_some_iff]
  constructor
  · rintro ⟨ok, hok, h⟩
    cases ok with
    | true => exact hok
    | false => cases h
  · exact fun h => ⟨true, h, rfl⟩

theorem AgreeOn.checkSlice (h : AgreeOn R t u) (offsets sizes : List Int64) :
    (u.checkSlice offsets sizes).toOption = (t.checkSlice offsets sizes).toOption := by
  rw [toOption_checkSlice, toOption_checkSlice, h.dims]

theorem checkAxes_ok {wanted : List Int64} {k : Nat}
    (h : Shape.checkAxes s wanted k found sizes = .ok x) (hlen : found.length = sizes.length) :
    Sized found sizes := by
  induction found generalizing sizes k with
  | nil =>
    obtain rfl := length_eq_zero_iff.1 hlen.symm
    exact .nil
  | cons f fs ih =>
    obtain ⟨z, zs, rfl⟩ := exists_cons_of_length_eq_add_one hlen.symm
    simp only [Shape.checkAxes] at h
    split at h
    · cases h
    · next hok =>
      refine .cons ?_ (ih h (Nat.succ.inj hlen))
      by_contra hne
      rw [not_or] at hne
      exact hok hne

theorem words_shape (t : Tensor) : t.shape.words = t.dims := Shape.words_ofSizes _ _

theorem checkDims_sized (h : t.shape.checkDims sizes = .ok x) : Sized t.dims sizes := by
  unfold Shape.checkDims at h
  split at h
  · next hlen =>
    rw [words_shape] at h
    exact checkAxes_ok h (by simpa [Tensor.shape, Shape.ofSizes] using hlen)
  · cases h

/-- The elements of a slice, found at a shifted index, are covered by it. -/
theorem covers_of_flatIndex (h : sliceInside t.dims offsets sizes = .ok true)
    (hsized : Sized found sizes) (hq : q ∈ Box.points found) (hlen : offsets.length ≤ sizes.length)
    {i : Int64} (hi : (t.flatIndex (shift offsets q)).toOption = some i) :
    Covers t.dims offsets sizes i.toInt.toNat := by
  rw [toOption_flatIndex] at hi
  split at hi
  · exact ⟨_, i, shift_inSlice h hsized hq hlen (position_inside hi), hi, rfl⟩
  · cases hi

/-- Moves an element of a slice to its own tensor. -/
def readStep (t : Tensor) (offsets : List Int64) (out : Tensor) (k : Int64) (p : List Int64) :
    Except Fault Tensor := do
  out.setMoved k (← t.scalarAt (shift offsets p))

/-- Moves an element into a slice. -/
def writeStep (src : Tensor) (offsets : List Int64) (out : Tensor) (k : Int64) (p : List Int64) :
    Except Fault Tensor := do
  let i ← out.flatIndex (shift offsets p)
  out.setMoved i (← src.flat k)

theorem toOption_extractSlice (t : Tensor) (offsets sizes : List Int64) :
    (t.extractSlice offsets sizes).toOption = (t.checkSlice offsets sizes).toOption.bind fun _ =>
      (Shape.make t.elem sizes).toOption.bind fun s => (zeros s).toOption.bind fun out =>
        (out.shape.foldIndices (readStep t offsets) out).toOption := by
  simp only [extractSlice, toOption_bind]
  rfl

theorem make_words {e : Element} {ns : List Int64} (h : Shape.make e ns = .ok s) :
    s.words = ns := by
  unfold Shape.make at h
  split at h
  · cases h
    simp [Shape.words, Function.comp_def, Dim.toWord_ofWord]
  · cases h

theorem zeros_dims {out : Tensor} (h : zeros s = .ok out) : out.dims = s.words := by
  obtain ⟨n, -, h⟩ := except_bind_eq_ok.1 h
  rw [← except_pure_eq_ok.1 h]

/-- **A slice is read only where it covers the tensor.** -/
theorem AgreeOn.extractSlice (hlen : offsets.length ≤ sizes.length)
    (h : AgreeOn (Covers t.dims offsets sizes) t u) :
    (u.extractSlice offsets sizes).toOption = (t.extractSlice offsets sizes).toOption := by
  rw [toOption_extractSlice, toOption_extractSlice, h.checkSlice, h.elem]
  refine rel_eq (rel_bind_same fun _ hcheck => rel_bind_same fun s hs =>
    rel_bind_same fun out hout => ?_)
  have hwords : out.shape.words = sizes := by
    rw [words_shape, zeros_dims (toOption_eq_some.1 hout), make_words (toOption_eq_some.1 hs)]
  refine Shape.rel_foldIndices (fun b c k p hp hbc => ?_) rfl
  subst hbc
  rw [hwords] at hp
  have hsame : (u.scalarAt (shift offsets p)).toOption =
      (t.scalarAt (shift offsets p)).toOption := by
    rw [Tensor.scalarAt, Tensor.scalarAt, toOption_bind, toOption_bind, h.flatIndex]
    cases hi : (t.flatIndex (shift offsets p)).toOption with
    | none => rfl
    | some i =>
      exact congrArg Except.toOption (h.flat (covers_of_flatIndex
        (checkSlice_ok.1 (toOption_eq_some.1 hcheck)) (forall₂_same.2 fun _ _ => .inr rfl) hp
        hlen hi))
  rw [readStep, readStep, toOption_bind, toOption_bind, hsame]
  exact rel_refl

theorem Alike.extractSlice (h : Alike t u) (offsets sizes : List Int64) : Option.Rel Alike
    (t.extractSlice offsets sizes).toOption (u.extractSlice offsets sizes).toOption := by
  rw [toOption_extractSlice, toOption_extractSlice, h.checkSlice, h.elem]
  refine rel_bind_same fun _ _ => rel_bind_same fun s _ => rel_bind_same fun out _ => ?_
  refine Shape.rel_foldIndices (fun b c k p _ hbc => ?_) (.refl _ out)
  rw [readStep, readStep, toOption_bind, toOption_bind]
  exact rel_bind (Alike.scalarAt h _) fun s s' _ => Alike.setMoved hbc k s s'

theorem toOption_insertSlice (src t : Tensor) (offsets sizes : List Int64) :
    (src.insertSlice t offsets sizes).toOption = (t.checkSlice offsets sizes).toOption.bind fun _ =>
      (src.shape.checkDims sizes).toOption.bind fun _ =>
        (src.shape.foldIndices (writeStep src offsets) t).toOption := by
  simp only [insertSlice, toOption_bind, toOption_mapError]
  rfl

/-- Inserting a slice keeps what tensors agree on. -/
theorem AgreeOn.insertSlice (h : AgreeOn R t u) (src : Tensor) (offsets sizes : List Int64) :
    Option.Rel (AgreeOn R) (src.insertSlice t offsets sizes).toOption
      (src.insertSlice u offsets sizes).toOption := by
  rw [toOption_insertSlice, toOption_insertSlice, h.checkSlice]
  refine rel_bind_same fun _ _ => rel_bind_same fun _ _ => ?_
  refine Shape.rel_foldIndices (fun b c k p _ hbc => ?_) h
  simp only [writeStep, toOption_bind, hbc.flatIndex]
  exact rel_bind_same fun i _ => rel_bind_same fun s _ => hbc.setMoved i s

theorem Alike.insertSlice (h : Alike t u) (hsrc : Alike src src') (offsets sizes : List Int64) :
    Option.Rel Alike (src.insertSlice t offsets sizes).toOption
      (src'.insertSlice u offsets sizes).toOption := by
  rw [toOption_insertSlice, toOption_insertSlice, h.checkSlice, hsrc.shape]
  refine rel_bind_same fun _ _ => rel_bind_same fun _ _ => ?_
  refine Shape.rel_foldIndices (fun b c k p _ hbc => ?_) h
  simp only [writeStep, toOption_bind, hbc.flatIndex]
  exact rel_bind_same fun i _ => rel_bind (Alike.flat hsrc k) fun s s' _ =>
    Alike.setMoved hbc i s s'

/-- **A slice is written only where it covers the tensor.** -/
theorem insertSlice_frame (hlen : offsets.length ≤ sizes.length)
    (h : src.insertSlice t offsets sizes = .ok t') :
    AgreeOn (fun j => ¬ Covers t.dims offsets sizes j) t t' := by
  obtain ⟨_, hcheck, h⟩ := except_bind_eq_ok.1 h
  obtain ⟨_, hdims, h⟩ := except_bind_eq_ok.1 h
  have hsized : Sized src.dims sizes := by
    refine checkDims_sized (x := ()) ?_
    rw [← toOption_eq_some] at hdims ⊢
    simpa using hdims
  refine Shape.foldIndices_invariant (fun b k p c hp hb hc => ?_) h (.refl _ t)
  rw [words_shape] at hp
  obtain ⟨i, hi, hc⟩ := except_bind_eq_ok.1 hc
  obtain ⟨s, -, hc⟩ := except_bind_eq_ok.1 hc
  rw [← toOption_eq_some] at hi hc
  rw [hb.flatIndex] at hi
  have hcovers := covers_of_flatIndex (checkSlice_ok.1 hcheck) hsized hp hlen hi
  rw [toOption_setMoved] at hc
  split at hc
  · cases hc
  · cases hc
    exact hb.trans ((b.agreeOn_write _ _ _).mono fun j hj heq => hj (heq ▸ hcovers))

end Slices

/-! ## 5. Other operations -/

section Others

variable {t u input input' filter filter' output output' : Tensor}

theorem Alike.reshape (h : Alike t u) (s : Shape) :
    Option.Rel Alike (t.reshape s).toOption (u.reshape s).toOption := by
  have hsize : u.size = t.size := by rw [Tensor.size, Tensor.size, h.dims]
  unfold Tensor.reshape
  rw [toOption_bind, toOption_bind, hsize, h.elem]
  refine rel_bind_same fun n _ => ?_
  by_cases hbad : n ≠ t.size ∨ s.elem ≠ t.elem
  · simp only [if_pos hbad]
    exact .none
  · simp only [if_neg hbad]
    exact .some ⟨rfl, rfl, h.data⟩

theorem Alike.convElement (hi : Alike input input') (hf : Alike filter filter') (h : Alike t u)
    (strides dilations : Pair) (window p : List Int64) : Option.Rel Alike
      (convElement input filter strides dilations window t p).toOption
      (convElement input' filter' strides dilations window u p).toOption := by
  unfold Tensor.convElement
  simp only [toOption_bind, Box.foldM_eq_foldlM, toOption_foldlM]
  refine rel_bind (Alike.scalarAt h p) fun a b _ => ?_
  refine rel_bind (R := fun _ _ => True) (rel_foldlM (fun a b _ q _ => ?_) trivial) fun a b _ =>
    Alike.setScalar h p a b
  unfold Tensor.convStep
  split
  · simp only [toOption_bind]
    refine rel_bind (Alike.scalarAt hi _) fun _ _ _ => ?_
    exact rel_bind (Alike.scalarAt hf _) fun _ _ _ => .some trivial
  · exact .none

theorem Alike.conv2d (hi : Alike input input') (hf : Alike filter filter')
    (ho : Alike output output') (strides dilations : Pair) : Option.Rel Alike
      (input.conv2d filter output strides dilations).toOption
      (input'.conv2d filter' output' strides dilations).toOption := by
  unfold Tensor.conv2d
  rw [hi.dims, hf.dims, ho.dims]
  split
  · split
    · exact .none
    · simp only
      split
      · exact .none
      · rw [Box.foldM_eq_foldlM, Box.foldM_eq_foldlM, toOption_foldlM, toOption_foldlM]
        exact rel_foldlM (fun a b hab p _ => Alike.convElement hi hf hab _ _ _ p) ho
  · exact .none

end Others

end Tensor

end ConvNest
