/-
# Faults of incomplete programs

Two faults say that a program is incomplete: a value that has no datum when it is read, and a block
that ends without a terminator.  Computations on shapes, tensors, index expressions and attributes
never end by one of them (`Harmless`): only the evaluator itself does.
-/
import ConvNest.Program.Eval
import ConvNest.Proofs.Outcome

namespace ConvNest

/-- Whether a fault says that a program is incomplete. -/
def Fault.incomplete : Fault → Bool
  | .noTerminator => true
  | .undefinedValue _ => true
  | _ => false

/-- A computation that does not end by a fault of incomplete programs. -/
def Harmless {α : Type} (x : Except Fault α) : Prop := ∀ f, x = .error f → f.incomplete = false

namespace Harmless

variable {α β : Type} {x : Except Fault α} {k : α → Except Fault β}

theorem ok (a : α) : Harmless (.ok a : Except Fault α) := fun _ h => absurd h (by simp)

theorem pure (a : α) : Harmless (pure a : Except Fault α) := ok a

theorem error {f : Fault} (h : f.incomplete = false) : Harmless (.error f : Except Fault α) := by
  rintro f' ⟨⟩
  exact h

theorem bind (hx : Harmless x) (hk : ∀ a, Harmless (k a)) : Harmless (x >>= k) := by
  cases x with
  | ok a => exact hk a
  | error f => exact error (hx f rfl)

theorem mapError {ε : Type} {k : ε → Fault} (h : ∀ e, (k e).incomplete = false) (x : Except ε α) :
    Harmless (x.mapError k) := by
  cases x with
  | ok a => exact ok a
  | error e => exact error (h e)

theorem mapM (h : ∀ a, Harmless (k a)) (xs : List α) :
    Harmless (xs.mapM k) := by
  induction xs with
  | nil => exact pure []
  | cons x xs ih =>
    rw [List.mapM_cons]
    exact bind (h x) fun b => bind ih fun bs => pure (b :: bs)

theorem foldlM {k : β → α → Except Fault β} (h : ∀ b a, Harmless (k b a)) (xs : List α) (b : β) :
    Harmless (xs.foldlM k b) := by
  induction xs generalizing b with
  | nil => exact pure b
  | cons x xs ih =>
    exact bind (h b x) ih

theorem ite {c : Prop} [Decidable c] {y : Except Fault α} (hx : Harmless x) (hy : Harmless y) :
    Harmless (if c then x else y) := by
  split
  · exact hx
  · exact hy

theorem foldIndices (s : Shape) {k : β → Int64 → List Int64 → Except Fault β}
    (h : ∀ b n p, Harmless (k b n p)) (b : β) : Harmless (s.foldIndices k b) := by
  refine ite (bind ?_ fun _ => pure _) (pure b)
  rw [Box.foldM_eq_foldlM]
  refine foldlM (fun c p => ?_) _ _
  obtain ⟨c, n⟩ := c
  exact bind (h c n p) fun _ => pure _

end Harmless

open Harmless

/-! ## 1. Lists, expressions and shapes -/

section Parts

variable {α : Type}

theorem harmless_itemAt (xs : List α) (k : Nat) : Harmless (Program.itemAt xs k) := by
  unfold Program.itemAt
  split
  · exact ok _
  · exact error rfl

theorem harmless_present (x : Option α) : Harmless (Program.present x) := by
  cases x with
  | none => exact error rfl
  | some a => exact ok a

theorem harmless_firstItems (xs : List α) (n : Int) : Harmless (Program.firstItems xs n) :=
  ite (ok _) (error rfl)

theorem harmless_itemsAfter (xs : List α) (n : Int) : Harmless (Program.itemsAfter xs n) :=
  ite (ok _) (error rfl)

theorem harmless_pick (xs : List α) (i : Int64) : Harmless (Affine.pick xs i) := by
  unfold Affine.pick
  split
  · exact ok _
  · exact error rfl

end Parts

theorem harmless_exprEval (dims syms : List Int64) (e : Affine.Expr) :
    Harmless (e.eval dims syms) := by
  induction e with
  | dim p => exact harmless_pick dims p
  | sym p => exact harmless_pick syms p
  | const c => exact ok c
  | binary op l r hl hr =>
    refine bind hl fun a => bind hr fun b => ?_
    cases op with
    | add => exact pure _
    | mul => exact pure _
    | floordiv => exact ite (error rfl) (ok _)
    | mod => exact ite (error rfl) (ok _)
    | unknown => exact error rfl

theorem harmless_mapEval (m : Affine.Map) (dims syms : List Int64) : Harmless (m.eval dims syms) :=
  ite (mapM (harmless_exprEval dims syms) _) (error rfl)

theorem harmless_dimAt (s : Shape) (a : Int64) : Harmless (s.dimAt a) := by
  unfold Shape.dimAt
  dsimp only
  split
  · exact ok _
  · exact error rfl

theorem harmless_make (e : Element) (ns : List Int64) : Harmless (Shape.make e ns) :=
  ite (ok _) (error rfl)

/-! ## 2. Tensors -/

namespace Tensor

theorem harmless_zeros (s : Shape) : Harmless (zeros s) := by
  refine bind (bind (mapError (fun _ => rfl) _) fun _ => ?_) fun _ => pure _
  exact ite (error rfl) (pure _)

section

variable (t : Tensor)

theorem harmless_reshape (s : Shape) : Harmless (t.reshape s) :=
  bind (ite (ok _) (error rfl)) fun _ => ite (error rfl) (pure _)

theorem harmless_flatIndex (is : List Int64) : Harmless (t.flatIndex is) := by
  refine ite (error rfl) ?_
  split
  · exact ok _
  · exact error rfl

theorem harmless_flat (i : Int64) : Harmless (t.flat i) := by
  unfold flat
  split
  · exact ok _
  · exact error rfl

theorem harmless_scalarAt (is : List Int64) : Harmless (t.scalarAt is) :=
  bind (harmless_flatIndex t is) (harmless_flat t)

theorem harmless_setScalar (is : List Int64) (s : Scalar) :
    Harmless (t.setScalar is s) :=
  bind (harmless_flatIndex t is) fun _ => ite (error rfl) (pure _)

theorem harmless_setMoved (i : Int64) (s : Scalar) : Harmless (t.setMoved i s) :=
  ite (error rfl) (ok _)

end

theorem harmless_sliceInside (ds os zs : List Int64) : Harmless (sliceInside ds os zs) := by
  induction ds generalizing os zs with
  | nil => exact ok true
  | cons d ds ih =>
    cases os with
    | nil => exact error rfl
    | cons o os =>
      cases zs with
      | nil => exact ite (ok false) (error rfl)
      | cons z zs => exact ite (ok false) (ih os zs)

theorem harmless_checkSlice (t : Tensor) (os zs : List Int64) : Harmless (t.checkSlice os zs) := by
  refine bind (harmless_sliceInside _ os zs) fun inside => ?_
  cases inside with
  | true => exact pure _
  | false => exact error rfl

theorem harmless_extractSlice (t : Tensor) (os zs : List Int64) :
    Harmless (t.extractSlice os zs) := by
  refine bind (harmless_checkSlice t os zs) fun _ => bind (harmless_make _ zs) fun s => ?_
  refine bind (harmless_zeros s) fun out => foldIndices _ (fun b k p => ?_) out
  exact bind (harmless_scalarAt t _) fun x => harmless_setMoved b k x

theorem harmless_insertSlice (t dest : Tensor) (os zs : List Int64) :
    Harmless (t.insertSlice dest os zs) := by
  refine bind (harmless_checkSlice dest os zs) fun _ => bind (mapError (fun _ => rfl) _) fun _ => ?_
  refine foldIndices _ (fun b k p => ?_) dest
  exact bind (harmless_flatIndex b _) fun i => bind (harmless_flat t k) fun x =>
    harmless_setMoved b i x

theorem harmless_convStep (input filter : Tensor) (e : Element) (strides dilations : Pair)
    (out : List Int64) (acc : Scalar) (p : List Int64) :
    Harmless (convStep input filter e strides dilations out acc p) := by
  unfold convStep
  split
  · exact bind (harmless_scalarAt _ _) fun x => bind (harmless_scalarAt _ _) fun y => pure _
  · exact error rfl

theorem harmless_conv2d (input filter output : Tensor) (strides dilations : Pair) :
    Harmless (input.conv2d filter output strides dilations) := by
  unfold conv2d
  split
  · refine ite (error rfl) (ite (error rfl) ?_)
    rw [Box.foldM_eq_foldlM]
    refine foldlM (fun t p => bind (harmless_scalarAt t p) fun acc => ?_) _ _
    dsimp only
    rw [Box.foldM_eq_foldlM]
    exact bind (foldlM (harmless_convStep _ _ _ _ _ _) _ _) fun s => harmless_setScalar t p s
  · exact error rfl

end Tensor

/-! ## 3. Operations -/

namespace Program

section Views

variable (g : Graph) (i : OpId)

theorem harmless_inductionVar : Harmless (g.inductionVar i) :=
  bind (bind (harmless_present _) fun _ => pure _) fun _ => harmless_itemAt _ _

theorem harmless_carried : Harmless (g.carried i) :=
  bind (bind (harmless_present _) fun _ => pure _) fun _ => harmless_itemsAfter _ _

theorem harmless_genericAttr : Harmless (g.genericAttr i) := by
  unfold Graph.genericAttr
  split
  · exact ok _
  · exact error rfl

theorem harmless_shaped : Harmless (g.shaped i) :=
  bind (harmless_genericAttr g i) fun _ => harmless_firstItems _ _

theorem harmless_inputs : Harmless (g.inputs i) :=
  bind (harmless_genericAttr g i) fun _ => harmless_firstItems _ _

theorem harmless_symbols : Harmless (g.symbols i) :=
  bind (harmless_genericAttr g i) fun _ => harmless_itemsAfter _ _

theorem harmless_resolveMarks (ns : List Int64) (vs : List ValueId) :
    Harmless (Graph.resolveMarks ns vs) := by
  induction ns generalizing vs with
  | nil => exact ok _
  | cons n ns ih =>
    refine ite ?_ (bind (ih vs) fun _ => pure _)
    cases vs with
    | nil => exact error rfl
    | cons v vs => exact bind (ih vs) fun _ => pure _

theorem harmless_offsetsAndSizes : Harmless (g.offsetsAndSizes i) := by
  refine bind ?_ fun a => bind (harmless_resolveMarks _ _) fun p =>
    bind (harmless_resolveMarks _ _) fun q => pure _
  unfold Graph.sliceAttr
  split
  · exact ok _
  · exact error rfl

theorem harmless_convAttr : Harmless (g.convAttr i) := by
  unfold Graph.convAttr
  split
  · exact ok _
  · exact error rfl

end Views

namespace Eval

theorem harmless_arith (k : Kind) (x y : Scalar) : Harmless (arith k x y) := ite (error rfl) (ok _)

theorem harmless_least (ns : List Int64) : Harmless (least ns) := by
  cases ns with
  | nil => exact error rfl
  | cons n ns => exact ok _

theorem harmless_groupSizes (dims : List Int64) (groups : List (List Int64)) :
    Harmless (groupSizes dims groups) :=
  mapM (fun axes => bind (mapM (harmless_pick dims) axes) fun _ => pure _) groups

theorem harmless_rangesOf (m : Affine.Map) (dims : List Int64) (ranges : Ranges) :
    Harmless (rangesOf m dims ranges) := by
  refine foldlM (fun ranges p => ?_) _ _
  split
  · refine bind (harmless_pick ranges _) fun n => ?_
    split
    · exact pure _
    · exact bind (harmless_itemAt dims _) fun _ => pure _
  · exact ok _

theorem harmless_loopRanges (maps : List Affine.Map) (loops : Nat) (operands : List Tensor) :
    Harmless (loopRanges maps loops operands) := by
  refine bind (foldlM (fun ranges p => harmless_rangesOf _ _ _) _ _) fun ranges =>
    mapM (fun p => ?_) _
  split
  · exact ok _
  · exact error rfl

theorem harmless_indexIn (point syms : List Int64) (operand : Option Tensor) (m : Affine.Map) :
    Harmless (indexIn point syms operand m) :=
  mapM (fun e => bind (harmless_exprEval point syms e) fun _ => ite (error rfl) (pure _)) _

end Eval

end Program

end ConvNest
