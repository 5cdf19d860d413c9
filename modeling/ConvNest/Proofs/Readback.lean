/-
# What is built is what is evaluated

A new constant is evaluated to the element nearest to the double that it was built from
(`constScalar_evaluates`), unless it is a truth value: those are built as doubles and read as words,
so that they are all false.

A new slice has the offsets and sizes that it was built with, in order (`slices_evaluate`), unless
one of the offsets is the number that marks dynamic ones.  If the builder knows the shape and the
slice, the slice can be evaluated.  The builder leaves to the evaluation that no offset is negative
and no sum wraps around (`extractSlice_before_start`), and that what is inserted has the sizes of
the slice.
-/
import ConvNest.Proofs.Definedness
import ConvNest.Proofs.Forms
import ConvNest.Proofs.SliceElements

namespace ConvNest

open List

namespace Program

open Graph Edit Tensor

variable {e e' : Editor} {g : Graph} {i : OpId} {v src dest : ValueId} {kind : Kind}
  {operands : List ValueId} {ty : Ty} {attr : Attr} {b : Option BlockId}
  {offsets sizes : List Index} {s : Shape} {os zs : List Int64}

/-- The operation that defines a new value. -/
theorem createValue_entry (h : createValue kind operands ty attr e = .ok v e') :
    ∃ i b, e'.graph.op i = ⟨kind, operands, [v], attr, none, b, false⟩ ∧ e'.graph.ty v = ty := by
  obtain ⟨hmade, hv⟩ := createValue_made h
  obtain ⟨b, hentry⟩ := hmade.entry
  have htys := hmade.tys
  rw [length_singleton, hv] at hentry htys
  exact ⟨_, b, hentry, (cons.inj htys).1⟩

/-! ## 1. Constants -/

theorem constant_run {el : Element} {n : Int64} {x : Float}
    (hop : g.op i = ⟨.constant, [], [v], .constant n x, none, b, false⟩) (hty : g.ty v = .scalar el)
    (block : BlockId → Eval (List Datum)) (E : Env) : Eval.op g block i E =
      .ok () (E.insert v.idx (.scalar (if el.isFloat then .ofFloat el x else .ofInt el n))) := by
  have hresult : g.result i 0 = .ok v := by
    rw [Graph.result, hop]
    rfl
  have helem : (g.ty v).elem = el := by rw [hty]; rfl
  have hindex : (g.ty v).isIndex = false := by rw [hty]; rfl
  rw [← outcome_eq_some, Eval.op, Graph.kind, hop]
  simp only [Eval.constant, hop, ask, hresult, toOption_ok, Option.bind_some, hindex, helem,
    Bool.false_eq_true, if_false]
  split <;> rfl

/-- **A constant is evaluated to the element nearest to its double, unless it is a truth value.**
`constScalar` stores the double itself, or its integer part for an integer type, and the evaluation
reads it by the same distinction; but a truth value is stored as a double and read as a word, so
that it is false, and right only for a double that is truncated to zero. -/
theorem constScalar_evaluates {el : Element} {x : Float}
    (hel : el = .bool ∨ el.isInteger = true ∨ el.isFloat = true)
    (h : constScalar el x e = .ok v e') :
    ∃ i s, (e'.graph.op i).results = [v] ∧
      (∀ block E, Eval.op e'.graph block i E = .ok () (E.insert v.idx (.scalar s))) ∧
      (el = .bool → s = ⟨.bool, 0, 0⟩) ∧
      (s = .ofFloat el x ↔ (el = .bool → Element.truncate x = 0)) := by
  obtain ⟨i, b, hop, hty⟩ := createValue_entry h
  have hres : (e'.graph.op i).results = [v] := by rw [hop]
  by_cases hb : el = .bool
  · subst hb
    refine ⟨i, _, hres, constant_run hop hty, fun _ => rfl, ?_⟩
    simp [Scalar.ofInt, Scalar.ofFloat, Element.isFloat, Element.wrapInt]
  · refine ⟨i, .ofFloat el x, hres, fun block E => ?_, fun h => absurd h hb,
      iff_of_true rfl fun h => absurd h hb⟩
    -- Whole numbers are read from the word that they were written to, and floats from the double.
    rcases hel.resolve_left hb with hint | hfloat
    · have hf : el.isFloat = false := by
        revert hint
        cases el <;> decide
      rw [if_pos hint] at hop
      simpa [hf, Scalar.ofFloat, Scalar.ofInt] using constant_run hop hty block E
    · have hint : ¬ el.isInteger = true := by
        revert hfloat
        cases el <;> decide
      rw [if_neg hint] at hop
      simpa [hfloat] using constant_run hop hty block E

theorem constScalar_evaluates_int32 : Element.int32.isInteger = true ∧
    ∃ v e' i, constScalar .int32 3 doubler = .ok v e' ∧
      ∀ block E, Eval.op e'.graph block i E = .ok ()
        (E.insert v.idx (.scalar (.ofFloat .int32 3))) := by
  obtain ⟨⟨v, e'⟩, h⟩ := Option.isSome_iff_exists.1
    (show (outcome (constScalar .int32 3) doubler).isSome = true by decide +kernel)
  obtain ⟨i, s, -, hrun, -, hs⟩ := constScalar_evaluates (.inr (.inl rfl)) (outcome_eq_some.1 h)
  exact ⟨rfl, v, e', i, outcome_eq_some.1 h, hs.2 (by simp) ▸ hrun⟩

/-! ## 2. Slices -/

/-- What is written down for an index of a slice. -/
def Index.mark : Index → Int64
  | .static n => n
  | .dynamic _ => SliceAttr.dynamicMark

def Index.value? : Index → Option ValueId
  | .static _ => none
  | .dynamic v => some v

theorem splitIndices_eq (offsets sizes : List Index) : splitIndices offsets sizes =
    (⟨offsets.map Index.mark, sizes.map Index.mark⟩, (offsets ++ sizes).filterMap Index.value?) :=
    rfl

/-- Indices are found again, as long as no number is the mark. -/
theorem resolveMarks_mark {is : List Index} (h : .static SliceAttr.dynamicMark ∉ is)
    (left : List ValueId) :
    resolveMarks (is.map Index.mark) (is.filterMap Index.value? ++ left) = .ok (is, left) := by
  induction is with
  | nil => rfl
  | cons ix is ih =>
    have hrest := ih fun hmem => h (mem_cons_of_mem _ hmem)
    cases ix with
    | dynamic v =>
      simp only [map_cons, filterMap_cons, Index.value?, cons_append, resolveMarks, hrest]
      rfl
    | static n =>
      have hne : n ≠ SliceAttr.dynamicMark := fun hn => h (hn ▸ mem_cons_self)
      simp only [map_cons, Index.mark, filterMap_cons, Index.value?, resolveMarks,
        if_neg hne, hrest]
      rfl

/-- The operation has the offsets and sizes of a slice. -/
theorem offsetsAndSizes_entry
    (hop : g.op i = ⟨kind, operands, [v], .slice (splitIndices offsets sizes).1, none, b, false⟩)
    (hvalues : operands.drop (if kind = .insertSlice then 2 else 1) =
      (splitIndices offsets sizes).2)
    (ho : .static SliceAttr.dynamicMark ∉ offsets) (hz : .static SliceAttr.dynamicMark ∉ sizes) :
    g.offsetsAndSizes i = .ok (offsets, sizes) := by
  have hfirst := resolveMarks_mark ho (sizes.filterMap Index.value?)
  have hsecond := resolveMarks_mark hz []
  rw [append_nil] at hsecond
  rw [splitIndices_eq] at hvalues hop
  simp only [offsetsAndSizes, sliceAttr, Graph.kind, hop, hvalues, filterMap_append, bind,
    Except.bind, hfirst, hsecond]
  rfl

/-- Along an axis, the slice does not start at a negative number, and it ends at a word. -/
def Reaches (offset size : Int64) : Prop := 0 ≤ offset.toInt ∧ offset.toInt + size.toInt < 2 ^ 63

theorem checkSliceAxis_static {j : Nat} {d o z : Int64} (hreach : Reaches o z)
    (h : checkSliceAxis kind s j (.static d) (.static o) (.static z) = .ok ()) :
    0 < z.toInt ∧ o.toInt + z.toInt ≤ d.toInt := by
  unfold checkSliceAxis at h
  dsimp only at h
  split at h
  · cases h
  next hz =>
  split at h
  · cases h
  next hd =>
  obtain ⟨ho, hsum⟩ := hreach
  rw [Int64.not_le, Int64.lt_iff_toInt_lt, Int64.toInt_zero] at hz
  rw [Int64.not_lt, Int64.le_iff_toInt_le, Word.toInt_add_of_fits ⟨by omega, hsum⟩] at hd
  exact ⟨hz, hd⟩

/-- A slice that the builder has checked lies in the box of the dimensions. -/
theorem within_of_checkSlice {ds : List Int64} (hs : s.dims = ds.map .static)
    (hreach : Forall₂ Reaches os zs)
    (h : checkSlice kind s (os.map .static) (zs.map .static) = .ok ()) :
    Within ds os zs := by
  obtain ⟨⟨hlen, -⟩, haxes⟩ := checkSlice_axes h
  rw [Shape.rank, hs, length_map, length_map] at hlen
  replace haxes : ∀ (j : Nat) d o z, ds[j]? = some d → os[j]? = some o → zs[j]? = some z →
    Reaches o z →
      0 < z.toInt ∧ o.toInt + z.toInt ≤ d.toInt := by
    intro j d o z hd ho hz hoz
    exact checkSliceAxis_static hoz (haxes j _ _ _ (by simp [hs, hd]) (by simp [ho]) (by simp [hz]))
  clear hs h
  induction hreach generalizing ds with
  | nil =>
    obtain rfl := length_eq_zero_iff.1 hlen.symm
    exact .nil
  | cons hoz _ ih =>
    cases ds with
    | nil => cases hlen
    | cons d ds =>
      obtain ⟨hz, hd⟩ := haxes 0 _ _ _ rfl rfl rfl hoz
      exact .cons hoz.1 hz hd (ih (by simpa using hlen) fun j => haxes (j + 1))

theorem sliceWords_static (h : os.length = zs.length) (E : Env) :
    outcome (Eval.sliceWords g (os.map .static) (zs.map .static)) E = some ((os, zs), E) := by
  induction os generalizing zs with
  | nil =>
    obtain rfl := length_eq_zero_iff.1 h.symm
    rfl
  | cons o os ih =>
    cases zs with
    | nil => cases h
    | cons z zs =>
      simp only [map_cons, Eval.sliceWords, Eval.word, outcome_bind, outcome_pure, Option.bind_some,
        ih (by simpa using h)]

/-- The size of a slice is not the mark of a dynamic one, once it has been checked. -/
theorem mark_not_mem_sizes (h : checkSlice kind s offsets sizes = .ok ()) :
    .static SliceAttr.dynamicMark ∉ sizes :=
  fun hmem => absurd ((checkSlice_ok h).2 _ hmem) (by decide)

theorem mark_not_mem_offsets (h : Forall₂ Reaches os zs) :
    .static SliceAttr.dynamicMark ∉ os.map Index.static := by
  induction h with
  | nil => simp
  | cons hoz _ ih =>
    rw [map_cons, mem_cons, not_or]
    refine ⟨fun heq => ?_, ih⟩
    rw [← Index.static.inj heq] at hoz
    exact absurd hoz.1 (by decide)

section Run

variable {block : BlockId → Eval (List Datum)} {E : Env} {t s u : Tensor} {ws : List ValueId}
  {b : Option BlockId} {os zs : List Int64}

theorem tensor_run (h : E[v.idx]? = some (.tensor t)) : outcome (Eval.tensor g v) E = some (t, E) :=
  outcome_tensor (S := fun _ => some (.tensor t)) h

theorem extractSlice_run (hop : g.op i = ⟨.extractSlice, src :: ws, [v], attr, none, b, false⟩)
    (hoz : g.offsetsAndSizes i = .ok (os.map .static, zs.map .static))
    (hlen : os.length = zs.length) (ht : E[src.idx]? = some (.tensor t))
    (hu : t.extractSlice os zs = .ok u) :
    Eval.op g block i E = .ok () (E.insert v.idx (.tensor u)) := by
  have hoperand : g.operand i 0 = .ok src := by rw [Graph.operand, hop]; rfl
  have hresult : g.result i 0 = .ok v := by rw [Graph.result, hop]; rfl
  rw [← outcome_eq_some, Eval.op, Graph.kind, hop]
  simp only [Eval.extractSlice, outcome_lift, outcome_bind, hoperand, tensor_run ht, hoz,
    sliceWords_static hlen, hresult, hu, toOption_ok, Option.map_some, Option.bind_some]
  rfl

theorem insertSlice_run
    (hop : g.op i = ⟨.insertSlice, src :: dest :: ws, [v], attr, none, b, false⟩)
    (hoz : g.offsetsAndSizes i = .ok (os.map .static, zs.map .static))
    (hlen : os.length = zs.length) (hs : E[src.idx]? = some (.tensor s))
    (ht : E[dest.idx]? = some (.tensor t)) (hu : s.insertSlice t os zs = .ok u) :
    Eval.op g block i E = .ok () (E.insert v.idx (.tensor u)) := by
  have hfirst : g.operand i 0 = .ok src := by rw [Graph.operand, hop]; rfl
  have hsecond : g.operand i 1 = .ok dest := by rw [Graph.operand, hop]; rfl
  have hresult : g.result i 0 = .ok v := by rw [Graph.result, hop]; rfl
  rw [← outcome_eq_some, Eval.op, Graph.kind, hop]
  simp only [Eval.insertSlice, outcome_lift, outcome_bind, hfirst, hsecond, tensor_run hs,
    tensor_run ht, hoz, sliceWords_static hlen, hresult, hu, toOption_ok, Option.map_some,
    Option.bind_some]
  rfl

end Run

/-- **A new slice has the offsets and sizes that it was built with, and if all of them are known, it
is evaluated**, as long as no offset is the mark of a dynamic one, and none is negative or too
large. -/
theorem slices_evaluate {offsets sizes : List Index} :
    (∀ src, Edit.extractSlice src offsets sizes e = .ok v e' → ∃ i, (e'.graph.op i).results = [v] ∧
      (.static SliceAttr.dynamicMark ∉ offsets →
        e'.graph.offsetsAndSizes i = .ok (offsets, sizes)) ∧
      ∀ t os zs, e.graph.ty src = .tensor t.shape → t.elem ≠ .invalid → t.Proper →
        volume t.dims ≤ capacity.toInt →
        offsets = os.map .static → sizes = zs.map .static → Forall₂ Reaches os zs →
          ∀ block (E : Env), E[src.idx]? = some (.tensor t) →
            ∃ u, Eval.op e'.graph block i E = .ok () (E.insert v.idx (.tensor u))) ∧
    (∀ src dest, Edit.insertSlice src dest offsets sizes e = .ok v e' →
      ∃ i, (e'.graph.op i).results = [v] ∧
        (.static SliceAttr.dynamicMark ∉ offsets →
          e'.graph.offsetsAndSizes i = .ok (offsets, sizes)) ∧
      ∀ t s os, e.graph.ty dest = .tensor t.shape → s.elem ≠ .invalid → t.Proper → s.Proper →
        offsets = os.map .static → sizes = s.dims.map .static → Forall₂ Reaches os s.dims →
          ∀ block (E : Env), E[src.idx]? = some (.tensor s) → E[dest.idx]? = some (.tensor t) →
            ∃ u, Eval.op e'.graph block i E = .ok () (E.insert v.idx (.tensor u))) := by
  constructor
  · intro src h
    unfold Edit.extractSlice at h
    obtain ⟨ty, e₁, h1, h⟩ := state_bind_eq_ok.1 h
    obtain ⟨rfl, rfl⟩ := tyOf_ok.1 h1
    obtain ⟨⟨⟩, e₂, h2, h⟩ := state_bind_eq_ok.1 h
    obtain ⟨hcheck, rfl⟩ := lift_ok.1 h2
    obtain ⟨ty, e₃, h3, h⟩ := state_bind_eq_ok.1 h
    obtain ⟨-, rfl⟩ := lift_ok.1 h3
    obtain ⟨i, b, hop, -⟩ := createValue_entry h
    have hread (ho : .static SliceAttr.dynamicMark ∉ offsets) : e'.graph.offsetsAndSizes i =
        .ok (offsets, sizes) :=
      offsetsAndSizes_entry hop rfl ho (mark_not_mem_sizes hcheck)
    refine ⟨i, by rw [hop], hread, ?_⟩
    rintro t os zs hty hvalid ht hroom rfl rfl hreach block E hE
    rw [hty] at hcheck
    obtain ⟨u, hu, -⟩ := extractSlice_moves ht hvalid hroom (within_of_checkSlice rfl hreach hcheck)
    exact ⟨u, extractSlice_run hop (hread (mark_not_mem_offsets hreach)) hreach.length_eq hE hu⟩
  · intro src dest h
    unfold Edit.insertSlice at h
    obtain ⟨sty, e₁, h1, h⟩ := state_bind_eq_ok.1 h
    obtain ⟨rfl, rfl⟩ := tyOf_ok.1 h1
    obtain ⟨dty, e₂, h2, h⟩ := state_bind_eq_ok.1 h
    obtain ⟨rfl, rfl⟩ := tyOf_ok.1 h2
    obtain ⟨⟨⟩, e₃, h3, h⟩ := state_bind_eq_ok.1 h
    obtain ⟨hcheck, rfl⟩ := lift_ok.1 h3
    obtain ⟨⟨⟩, e₄, h4, h⟩ := state_bind_eq_ok.1 h
    obtain ⟨-, rfl⟩ := demand_ok.1 h4
    obtain ⟨i, b, hop, -⟩ := createValue_entry h
    have hread (ho : .static SliceAttr.dynamicMark ∉ offsets) : e'.graph.offsetsAndSizes i =
        .ok (offsets, sizes) :=
      offsetsAndSizes_entry hop rfl ho (mark_not_mem_sizes hcheck)
    refine ⟨i, by rw [hop], hread, ?_⟩
    rintro t s os hty hvalid ht hs rfl rfl hreach block E hsrc hdest
    rw [hty] at hcheck
    obtain ⟨u, hu, -⟩ := insertSlice_moves ht hs hvalid (within_of_checkSlice rfl hreach hcheck)
    exact ⟨u, insertSlice_run hop (hread (mark_not_mem_offsets hreach))
      hreach.length_eq hsrc hdest hu⟩

/-- Four numbers. -/
def ramp : Tensor := ⟨.int32, [4], .ints #[1, 2, 3, 4]⟩

theorem slices_evaluate_ramp :
    ∃ v e' i, Edit.extractSlice ⟨0⟩ [.static 1] [.static 2] doubler = .ok v e' ∧
      e'.graph.offsetsAndSizes i = .ok ([.static 1], [.static 2]) ∧
      ∀ block (E : Env), E[0]? = some (.tensor ramp) →
      ∃ u, Eval.op e'.graph block i E = .ok () (E.insert v.idx (.tensor u)) := by
  obtain ⟨⟨v, e'⟩, h⟩ := Option.isSome_iff_exists.1 (show (outcome (Edit.extractSlice ⟨0⟩
    [.static 1] [.static 2]) doubler).isSome = true by decide +kernel)
  obtain ⟨i, -, hread, hrun⟩ := slices_evaluate.1 ⟨0⟩ (outcome_eq_some.1 h)
  have hwrapped : ramp.data.words.all (fun n => ramp.elem.wrapInt n == n) = true := by decide
  have hramp : ramp.Proper := ⟨by simp [ramp], rfl, by decide, rfl, by simpa using hwrapped⟩
  exact ⟨v, e', i, outcome_eq_some.1 h, hread (by decide),
    hrun ramp [1] [2] (by decide +kernel)
      (by decide) hramp (by decide) rfl rfl (.cons ⟨by decide, by decide⟩ .nil)⟩

/-- The builder accepts a slice that starts before the tensor does. -/
theorem extractSlice_before_start :
    (∃ v e', Edit.extractSlice ⟨0⟩ [.static (-1)] [.static 2] doubler = .ok v e') ∧
      ramp.extractSlice [-1] [2] = .error (.sliceOutOfBounds [-1] [2] ramp.shape) := by
  obtain ⟨⟨v, e'⟩, h⟩ := Option.isSome_iff_exists.1 (show (outcome (Edit.extractSlice ⟨0⟩
    [.static (-1)] [.static 2]) doubler).isSome = true by decide +kernel)
  exact ⟨⟨v, e', outcome_eq_some.1 h⟩, rfl⟩

end Program

end ConvNest
