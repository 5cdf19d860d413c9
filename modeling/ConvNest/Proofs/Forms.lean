/-
# The forms of operations

The form of an operation is what can be told of it without names: its kind and attribute, and the
types of its operands, of its results and of the arguments of its body.

`Method` lists the builder functions that create one operation, with their arguments, and an
operation is `Built` if it has the form of one that such a function creates.  Builder functions that
create several operations (`composedApply`, `dimSize`, `materialize`) do it by these.  `WellTyped`
are the typing rules that the builder functions follow (`Built.wellTyped`).
-/
import ConvNest.Proofs.Aftermath
import ConvNest.Proofs.Emits

namespace ConvNest.Program

open Graph
open List hiding inits

/-! ## 1. Forms -/

deriving instance DecidableEq for GenericAttr, SliceAttr, Attr

/-- What an operation is, apart from names. -/
structure Form where
  kind : Kind
  attr : Attr
  operands : List Ty
  results : List Ty
  args : List Ty
deriving DecidableEq

/-- The arguments of the body of an operation, if it has one. -/
def Graph.argsOf (g : Graph) (i : OpId) : List ValueId :=
  (g.op i).body.elim [] fun b => (g.block b).args

/-- The form of an operation. -/
def Graph.form (g : Graph) (i : OpId) : Form :=
  ⟨g.kind i, (g.op i).attr, (g.op i).operands.map g.ty, (g.op i).results.map g.ty,
    (g.argsOf i).map g.ty⟩

/-- A builder function with its arguments. -/
inductive Method where
  | constIndex (n : Int64)
  | constScalar (e : Element) (x : Float)
  | add (lhs rhs : ValueId)
  | mul (lhs rhs : ValueId)
  | widen (x : ValueId) (e : Element)
  | affineApply (m : Affine.Map) (operands : List ValueId)
  | affineMin (m : Affine.Map) (operands : List ValueId)
  | tensorDim (t : ValueId) (axis : Int64)
  | collapse (src : ValueId) (groups : List (List Int64))
  | expand (src : ValueId) (groups : List (List Int64)) (result : Shape)
  | extractSlice (src : ValueId) (offsets sizes : List Index)
  | insertSlice (src dest : ValueId) (offsets sizes : List Index)
  | conv2d (input filter output : ValueId) (strides dilations : Pair)
  | generic (inputs outputs symbols : List ValueId) (maps : List Affine.Map)
    (iterators : List Iterator)
  | genericYield (values : List ValueId)
  | forLoop (lower upper step : ValueId) (inits : List ValueId)
  | loopYield (values : List ValueId)
  | funcReturn (values : List ValueId)

/-- Calls a builder function.  What is in a body is no part of the form of its operation: the body
of a loop yields what it carries, and that of a generic operation the elements of the outputs. -/
def Method.call : Method → Edit Unit
  | constIndex n => discard (Edit.constIndex n)
  | constScalar e x => discard (Edit.constScalar e x)
  | add lhs rhs => discard (Edit.add lhs rhs)
  | mul lhs rhs => discard (Edit.mul lhs rhs)
  | widen x e => discard (Edit.widen x e)
  | affineApply m operands => discard (Edit.affineApply m operands)
  | affineMin m operands => discard (Edit.affineMin m operands)
  | tensorDim t axis => discard (Edit.tensorDim t axis)
  | collapse src groups => discard (Edit.collapse src groups)
  | expand src groups result => discard (Edit.expand src groups result)
  | extractSlice src offsets sizes => discard (Edit.extractSlice src offsets sizes)
  | insertSlice src dest offsets sizes => discard (Edit.insertSlice src dest offsets sizes)
  | conv2d input filter output strides dilations =>
    discard (Edit.conv2d input filter output strides dilations)
  | generic inputs outputs symbols maps iterators =>
    discard (Edit.generic inputs outputs symbols maps iterators fun args =>
      return (args.drop inputs.length, ()))
  | genericYield values => discard (Edit.create .genericYield values [] .none none)
  | forLoop lower upper step inits =>
    discard (Edit.forLoop lower upper step inits fun _ carried => return (carried, ()))
  | loopYield values => discard (Edit.loopYield values)
  | funcReturn values => discard (Edit.funcReturn values)

/-- The operation has the form of one that a builder function creates from values that are there. -/
def Graph.Built (g : Graph) (i : OpId) : Prop :=
  ∃ (m : Method) (e e' : Editor), m.call e = .ok () e' ∧ e.graph.ops.size < e'.graph.ops.size ∧
    (∀ v ∈ (e'.graph.op e.graph.nextOp).operands, v.idx < e.graph.values.size) ∧
    g.form i = e'.graph.form e.graph.nextOp

/-- A builder function, called after a program, creates an operation of the form. -/
def Editor.creates (e : Editor) (m : Method) (F : Form) : Bool :=
  match m.call e with
  | .ok () e' =>
    decide (e.graph.ops.size < e'.graph.ops.size) &&
      decide (∀ v ∈ (e'.graph.op e.graph.nextOp).operands, v.idx < e.graph.values.size) &&
      decide (F = e'.graph.form e.graph.nextOp)
  | .error _ _ => false

theorem Editor.built_of_creates {e : Editor} {m : Method} {g : Graph} {i : OpId}
    (h : e.creates m (g.form i) = true) : g.Built i := by
  unfold Editor.creates at h
  split at h
  · next e' hcall =>
    simp only [Bool.and_eq_true, decide_eq_true_eq] at h
    exact ⟨m, e, e', hcall, h.1.1, h.1.2, h.2⟩
  · cases h

/-! ## 2. The form of a new operation -/

/-- One operation has been created. -/
structure Made (g g' : Graph) (kind : Kind) (operands : List ValueId) (tys : List Ty) (attr : Attr)
    (body : Option BlockId) : Prop where
  opsSize : g'.ops.size = g.ops.size + 1
  entry : ∃ b, g'.op g.nextOp = ⟨kind, operands, g.nextValues tys.length, attr, body, b, false⟩
  valuesSize : g'.values.size = g.values.size + tys.length
  tys : (g.nextValues tys.length).map g'.ty = tys
  op : ∀ i, i ≠ g.nextOp → g'.op i = g.op i
  ty : ∀ v, v.idx < g.values.size → g'.ty v = g.ty v
  args : ∀ b, (g'.block b).args = (g.block b).args

section Creating

variable {e e' : Editor} {kind : Kind} {operands : List ValueId} {tys : List Ty} {attr : Attr}
  {body : Option BlockId} {i : OpId}

theorem made_withOp (g : Graph) (kind : Kind) (operands : List ValueId) (tys : List Ty)
    (attr : Attr) (body : Option BlockId) :
    Made g (g.withOp kind operands tys attr body) kind operands tys attr body where
  opsSize := g.opsSize_withOp kind operands tys attr body
  entry := ⟨none, by rw [op_withOp, if_pos rfl]⟩
  tys := g.ty_withOp_new kind operands tys attr body
  valuesSize := g.valuesSize_withOp kind operands tys attr body
  op i hi := by rw [op_withOp, if_neg hi]
  ty v hv := by rw [Graph.ty, value_withOp_old _ _ _ _ _ _ hv, Graph.ty]
  args b := by
    rw [block_withOp]
    split <;> rfl

theorem Made.put {g g' : Graph} (h : Made g g' kind operands tys attr body) (b : BlockId)
    (ops : List OpId) (i : OpId) (hi : i = g.nextOp) :
    Made g (g'.put b ops i) kind operands tys attr body := by
  subst hi
  refine ⟨?_, ?_, h.valuesSize, h.tys, ?_, h.ty, ?_⟩
  · rw [opsSize_put, h.opsSize]
  · obtain ⟨c, hc⟩ := h.entry
    rw [op_put, hc]
    split <;> exact ⟨_, rfl⟩
  · intro j hj
    rw [op_put, if_neg fun heq => hj heq.1.symm]
    exact h.op j hj
  · intro c
    rw [block_put]
    split <;> exact h.args c

theorem create_made (h : Edit.create kind operands tys attr body e = .ok i e') :
    i = e.graph.nextOp ∧ Made e.graph e'.graph kind operands tys attr body := by
  obtain ⟨j, e₁, h1, h⟩ := state_bind_eq_ok.1 h
  obtain ⟨-, rfl, rfl⟩ := Edit.newOp_ok.1 h1
  obtain ⟨⟨⟩, e₂, h2, h⟩ := state_bind_eq_ok.1 h
  obtain ⟨rfl, rfl⟩ := state_pure_eq_ok.1 h
  refine ⟨rfl, ?_⟩
  have hplaced : Leaves (fun _ _ => True)
    (· = Edit.onGraph e (e.graph.withOp kind operands tys attr body))
      (Edit.insert e.graph.nextOp) fun _ e' =>
      Made e.graph e'.graph kind operands tys attr body := by
    refine .insert (fun _ _ _ => trivial) fun e₁ b pos he₁ _ _ => ?_
    subst he₁
    rintro _ rfl
    refine ⟨fun _ e₂ hplace => ?_, fun _ _ _ => trivial⟩
    obtain ⟨-, rfl⟩ := Edit.place_ok.1 hplace
    exact (made_withOp e.graph kind operands tys attr body).put _ _ _ rfl
  exact (hplaced _ rfl).1 _ _ h2

theorem createValue_made {ty : Ty} {v : ValueId}
    (h : Edit.createValue kind operands ty attr e = .ok v e') :
    Made e.graph e'.graph kind operands [ty] attr none ∧ e.graph.nextValues 1 = [v] := by
  obtain ⟨i, e₁, h1, h⟩ := state_bind_eq_ok.1 h
  obtain ⟨x, e₂, h2, h⟩ := state_bind_eq_ok.1 h
  obtain ⟨rfl, rfl⟩ := Edit.op_ok.1 h2
  obtain ⟨hv, rfl⟩ := Edit.lift_ok.1 h
  obtain ⟨rfl, hmade⟩ := create_made h1
  obtain ⟨b, hentry⟩ := hmade.entry
  rw [hentry] at hv
  exact ⟨hmade, congrArg (fun v => [v]) (Except.ok.inj hv)⟩

end Creating

section Forms

variable {g g' : Graph} {kind : Kind} {operands : List ValueId} {tys : List Ty} {attr : Attr}
  {body : Option BlockId}

/-- The form of a new operation. -/
theorem Made.form (h : Made g g' kind operands tys attr body)
    (hops : ∀ v ∈ operands, v.idx < g.values.size)
    (hargs : ∀ b, body = some b → ∀ v ∈ (g.block b).args, v.idx < g.values.size) :
    g'.form g.nextOp = ⟨kind, attr, operands.map g.ty, tys,
      (body.elim [] fun b => (g.block b).args).map g.ty⟩ := by
  obtain ⟨c, hc⟩ := h.entry
  have hargsOf : g'.argsOf g.nextOp = body.elim [] fun b => (g.block b).args := by
    unfold Graph.argsOf
    rw [hc]
    cases body with
    | none => rfl
    | some b => exact h.args b
  unfold Graph.form Graph.kind
  rw [hargsOf, hc]
  refine congr (congr (congrArg _ ?_) h.tys) ?_
  · exact map_congr_left fun v hv => h.ty v (hops v hv)
  · refine map_congr_left fun v hv => h.ty v ?_
    cases body with
    | none => cases hv
    | some b => exact hargs b rfl v hv

/-- An operation without a body. -/
theorem Made.form_leaf (h : Made g g' kind operands tys attr none)
    (hops : ∀ v ∈ (g'.op g.nextOp).operands, v.idx < g.values.size) :
    g'.form g.nextOp = ⟨kind, attr, operands.map g.ty, tys, []⟩ := by
  obtain ⟨c, hc⟩ := h.entry
  rw [hc] at hops
  exact h.form hops fun b hb => absurd hb (by simp)

/-- The forms of operations stay when another one is created. -/
theorem Made.form_old (h : Made g g' kind operands tys attr body) {i : OpId} (hi : i ≠ g.nextOp)
    (hv : ∀ v ∈ (g.op i).operands ++ (g.op i).results ++ g.argsOf i, v.idx < g.values.size) :
    g'.form i = g.form i := by
  have hargsOf : g'.argsOf i = g.argsOf i := by
    unfold Graph.argsOf
    rw [h.op i hi]
    cases (g.op i).body with
    | none => rfl
    | some b => exact h.args b
  unfold Graph.form Graph.kind
  rw [h.op i hi, hargsOf]
  congr 1 <;> exact map_congr_left fun v hmem => h.ty v (hv v (by simp [hmem]))

end Forms

/-! ## 3. Typing rules -/

/-- The dimension of a slice of a size. -/
def Index.dim : Index → Dim
  | .static n => .static n
  | .dynamic _ => .dynamic

/-- The forms of operations whose results have the types that they compute. -/
inductive WellTyped : Form → Prop
  | constIndex (attr : Attr) : WellTyped ⟨.constant, attr, [], [.index], []⟩
  | constScalar (attr : Attr) (e : Element) : WellTyped ⟨.constant, attr, [], [.scalar e], []⟩
  | arith {k : Kind} (hk : k ∈ [.addInt, .mulInt, .addFloat, .mulFloat]) (t : Ty) :
    WellTyped ⟨k, .none, [t, t], [t], []⟩
  | widen {k : Kind} (hk : k ∈ [.extendInt, .extendFloat, .intToFloat]) (t : Ty) (e : Element) :
    WellTyped ⟨k, .none, [t], [.scalar e], []⟩
  | affine {k : Kind} (hk : k ∈ [.affineApply, .affineMin]) (m : Affine.Map) (ts : List Ty) :
    WellTyped ⟨k, .affine m, ts, [.index], []⟩
  | tensorDim (axis : Int64) (t : Ty) : WellTyped ⟨.tensorDim, .axis axis, [t], [.index], []⟩
  | collapse {t ty : Ty} {groups : List (List Int64)}
    (h : Edit.collapsedTy t.shape groups = .ok ty) :
    WellTyped ⟨.collapse, .reshape groups, [t], [ty], []⟩
  | expand (t : Ty) (s : Shape) (groups : List (List Int64)) :
    WellTyped ⟨.expand, .reshape groups, [t], [.tensor s], []⟩
  | extractSlice (t : Ty) (ts : List Ty) {offsets sizes : List Index}
    (hlen : offsets.length = sizes.length) (hpos : ∀ n, .static n ∈ sizes → 0 < n) :
    WellTyped ⟨.extractSlice, .slice (Edit.splitIndices offsets sizes).1, t :: ts,
      [.tensor ⟨t.elem, sizes.map Index.dim⟩], []⟩
  | insertSlice (s d : Ty) (ts : List Ty) (a : SliceAttr) :
    WellTyped ⟨.insertSlice, .slice a, s :: d :: ts, [d], []⟩
  | conv (i f o : Ty) (strides dilations : Pair) :
    WellTyped ⟨.conv, .conv strides dilations, [i, f, o], [o], []⟩
  | generic (a : GenericAttr) (shaped syms results : List Ty) :
    WellTyped ⟨.generic, .generic a, shaped ++ syms, results, shaped.map fun t => .scalar t.elem⟩
  | forLoop (operands results args : List Ty) : WellTyped ⟨.forLoop, .none, operands, results, args⟩
  | terminator {k : Kind} (hk : k.isTerminator = true)
    (ts : List Ty) : WellTyped ⟨k, .none, ts, [], []⟩

section Builders

open Edit

variable {e e' : Editor}

variable {α β : Type} {kind k : Kind} {operands : List ValueId} {attr : Attr}
  {lhs rhs x src dest : ValueId} {elem : Element} {m : Affine.Map} {groups : List (List Int64)}
  {s : Shape} {offsets sizes : List Index}

/-- If the edit creates an operation from values that are there, the operation is well typed. -/
def Types (e : Editor) (x : Edit α) : Prop :=
  ∀ a e', x e = .ok a e' → e.graph.ops.size < e'.graph.ops.size →
    (∀ v ∈ (e'.graph.op e.graph.nextOp).operands, v.idx < e.graph.values.size) →
      WellTyped (e'.graph.form e.graph.nextOp)

section Steps

variable {f : α → Edit β}

/-- A step that changes nothing. -/
theorem Types.read {x : Edit α} {Q : α → Prop} (hx : ∀ a e', x e = .ok a e' → Q a ∧ e = e')
    (h : ∀ a, Q a → Types e (f a)) : Types e (x >>= f) := by
  intro c e' hc
  obtain ⟨a, e₁, ha, hc⟩ := state_bind_eq_ok.1 hc
  obtain ⟨hq, rfl⟩ := hx a e₁ ha
  exact h a hq c e' hc

theorem Types.tyOf {f : Ty → Edit β} (h : Types e (f (e.graph.ty x))) : Types e (tyOf x >>= f) :=
  .read (fun _ _ => tyOf_ok.1) fun _ ht => ht ▸ h

theorem Types.demand {c : Bool} {fault : Fault} {f : Unit → Edit β}
    (h : c = true → Types e (f ())) :
    Types e (demand c fault >>= f) :=
  .read (fun _ _ => demand_ok.1) fun _ => h

theorem Types.ask {x : Except Fault α} (h : ∀ a, x = .ok a → Types e (f a)) :
    Types e (liftM x >>= f) :=
  .read (fun _ _ => lift_ok.1) h

theorem Types.create (h : WellTyped ⟨kind, attr, operands.map e.graph.ty, [], []⟩) :
    Types e (create kind operands [] attr none) := by
  intro _ _ hc _ hops
  rw [(create_made hc).2.form_leaf hops]
  exact h

theorem Types.createValue {ty : Ty}
    (h : WellTyped ⟨kind, attr, operands.map e.graph.ty, [ty], []⟩) :
    Types e (createValue kind operands ty attr) := by
  intro _ _ hc _ hops
  rw [(createValue_made hc).1.form_leaf hops]
  exact h

theorem Types.discard {x : Edit α} (h : Types e x) : Types e (discard x : Edit Unit) := by
  intro u e' hc
  cases hx : x e with
  | ok a e₁ =>
    have heq : (Functor.discard x : Edit Unit) e = .ok () e₁ := by
      simp [Functor.discard, Functor.mapConst, EStateM.map, hx]
    obtain ⟨-, rfl⟩ := EStateM.Result.ok.inj (heq.symm.trans hc)
    exact h a e₁ hx
  | error f e₁ =>
    have heq : (Functor.discard x : Edit Unit) e = .error f e₁ := by
      simp [Functor.discard, Functor.mapConst, EStateM.map, hx]
    cases heq.symm.trans hc

end Steps

theorem types_binary (hk : k ∈ [.addInt, .mulInt, .addFloat, .mulFloat]) :
    Types e (binary k lhs rhs) := by
  refine .tyOf <| .tyOf <| .demand fun heq => .createValue ?_
  rw [map_cons, map_singleton, ← of_decide_eq_true heq]
  exact .arith hk _

theorem types_widen : Types e (widen x elem) := by
  refine .tyOf ?_
  dsimp only
  split
  · rintro _ _ hc hsize -
    obtain ⟨-, rfl⟩ := state_pure_eq_ok.1 hc
    exact absurd hsize (Nat.lt_irrefl _)
  · split
    · next w _ => exact .createValue (.widen (by cases w <;> simp [wideningKind]) _ _)
    · exact fun _ _ hc => absurd hc state_throw_ne_ok

theorem types_affine {c : Bool} {fault : Fault} (hk : k ∈ [.affineApply, .affineMin]) :
    Types e (do
      demand c fault
      checkAffineOperands m operands
      createValue k operands .index (.affine m)) := by
  refine .demand fun _ => .read (Q := fun _ => True) (fun _ _ hc => ⟨trivial, ?_⟩) fun _ _ =>
    .createValue (.affine hk m _)
  obtain ⟨⟨⟩, e₁, h1, hc⟩ := state_bind_eq_ok.1 hc
  obtain ⟨-, rfl⟩ := demand_ok.1 h1
  exact ((forM_check_ok fun p _ _ _ => checkIndex_ok).1 hc).2

theorem types_collapse : Types e (collapse src groups) :=
  .tyOf <| .ask fun _ _ => .ask fun _ hty => .createValue (.collapse hty)

theorem ofShape_ok {t : Ty} (h : Ty.ofShape s = .ok t) : t = .tensor s := by
  unfold Ty.ofShape at h
  split at h
  · exact (Except.ok.inj h).symm
  · cases h

theorem types_expand : Types e (expand src groups s) := by
  refine .tyOf <| .ask fun _ _ => .demand fun _ => .ask fun _ _ => .ask fun ty hty => ?_
  obtain rfl := ofShape_ok hty
  exact .createValue (.expand _ s groups)

/-- A slice has an offset and a size for each axis, and each axis has been checked. -/
theorem checkSlice_axes (h : checkSlice k s offsets sizes = .ok ()) :
    (offsets.length = s.rank ∧ sizes.length = s.rank) ∧ ∀ (j : Nat) d o z, s.dims[j]? = some d →
      offsets[j]? = some o → sizes[j]? = some z → checkSliceAxis k s j d o z = .ok () := by
  unfold checkSlice at h
  split at h
  · cases h
  next hlen =>
  rw [not_or, not_not, not_not] at hlen
  refine ⟨hlen, fun j d o z hd ho hz => except_forM_eq_ok.1 h (((d, o), z), j) ?_⟩
  rw [mem_zipIdx_iff_getElem?, getElem?_zip_eq_some, getElem?_zip_eq_some]
  exact ⟨⟨hd, ho⟩, hz⟩

/-- A slice has as many offsets as sizes, and those sizes that are known are positive. -/
theorem checkSlice_ok (h : checkSlice k s offsets sizes = .ok ()) :
    offsets.length = sizes.length ∧ ∀ n, .static n ∈ sizes → 0 < n := by
  obtain ⟨⟨ho, hz⟩, haxes⟩ := checkSlice_axes h
  refine ⟨ho.trans hz.symm, fun n hn => ?_⟩
  obtain ⟨j, hj⟩ := getElem?_of_mem hn
  have hlt : j < sizes.length := (List.getElem?_eq_some_iff.1 hj).1
  have haxis := haxes j _ _ _ (getElem?_eq_getElem (by rw [← Shape.rank]; omega))
    (getElem?_eq_getElem (by omega)) hj
  unfold checkSliceAxis at haxis
  by_contra hneg
  simp only [if_pos (Int64.not_lt.1 hneg)] at haxis
  cases haxis

theorem dims_of_sizes {ty : Ty} (hpos : ∀ n, .static n ∈ sizes → 0 < n)
    (h : Ty.tensorOf elem (sizes.map fun | .static n => n | .dynamic _ => Dim.dynamicWord) =
      .ok ty) :
    ty = .tensor ⟨elem, sizes.map Index.dim⟩ := by
  unfold Ty.tensorOf Shape.make at h
  obtain ⟨s, hs, h⟩ := except_bind_eq_ok.1 h
  split at hs
  · cases hs
    rw [ofShape_ok h, map_map]
    congr 2
    refine map_congr_left fun z hz => ?_
    cases z with
    | dynamic v => rfl
    | static n =>
      have hne : n ≠ Dim.dynamicWord := by
        rintro rfl
        exact absurd (hpos _ hz) (by decide)
      show Dim.ofWord n = .static n
      rw [Dim.ofWord, if_neg hne]
  · cases hs

theorem types_extractSlice : Types e (extractSlice src offsets sizes) := by
  refine .tyOf <| .ask fun _ hslice => .ask fun ty hty => ?_
  obtain ⟨hlen, hpos⟩ := checkSlice_ok hslice
  obtain rfl := dims_of_sizes hpos hty
  exact .createValue (.extractSlice _ _ hlen hpos)

theorem types_insertSlice : Types e (insertSlice src dest offsets sizes) :=
  .tyOf <| .tyOf <| .ask fun _ _ => .demand fun _ => .createValue (.insertSlice _ _ _ _)

theorem types_conv2d {input filter output : ValueId} {strides dilations : Pair} :
    Types e (conv2d input filter output strides dilations) := by
  refine .read (fun _ _ => (forM_check_ok (Q := fun e v => ((e.graph.ty v).isTensor &&
    (e.graph.ty v).shape.rank == 4) = true) fun v e u e' => ?_).1) fun _ _ =>
      .tyOf <| .createValue (.conv _ _ _ _ _)
  simp only [state_bind_eq_ok, tyOf_ok, demand_ok, and_assoc, exists_and_left, exists_eq_left']

/-- The form of a new operation with a body, after its end has been created too. -/
theorem region_form {e₂ e₃ : Editor} {kind' : Kind} {values : List ValueId}
    {argTys tys tys' : List Ty} {attr' : Attr}
    (h : Made (e.graph.withBlock argTys) e₂.graph kind operands tys attr (some e.graph.nextBlock))
    (hend : Made e₂.graph e₃.graph kind' values tys' attr' none)
    (hops : ∀ v ∈ (e₃.graph.op e.graph.nextOp).operands, v.idx < e.graph.values.size) :
    e₃.graph.form e.graph.nextOp = ⟨kind, attr, operands.map e.graph.ty, tys, argTys⟩ := by
  have hne : e.graph.nextOp ≠ e₂.graph.nextOp := by
    intro heq
    have hsize := h.opsSize
    rw [ops_withBlock] at hsize
    have := congrArg OpId.idx heq
    simp only [nextOp] at this
    omega
  have hnext : (e.graph.withBlock argTys).nextOp = e.graph.nextOp := rfl
  obtain ⟨c, hc⟩ := h.entry
  rw [hnext] at hc
  rw [hend.op _ hne, hc] at hops
  have hblock : ((e.graph.withBlock argTys).block e.graph.nextBlock).args =
      e.graph.nextValues argTys.length := by rw [block_withBlock, if_pos rfl]
  have hargs : e₂.graph.argsOf e.graph.nextOp = e.graph.nextValues argTys.length := by
    unfold Graph.argsOf
    rw [hc, Option.elim_some, h.args, hblock]
  have hgrow : ∀ v : ValueId, v.idx < e.graph.values.size + argTys.length →
      v.idx < (e.graph.withBlock argTys).values.size := by
    intro v hv
    rwa [valuesSize_withBlock]
  rw [hend.form_old hne, ← hnext, h.form, Option.elim_some, hblock, tys_withBlock]
  · congr 1
    exact map_congr_left fun v hv => congrArg Value.ty (value_withBlock_old _ _ (hops v hv))
  · exact fun v hv => hgrow v (Nat.lt_add_right _ (hops v hv))
  · intro b hb v hv
    cases hb
    rw [hblock, mem_nextValues] at hv
    exact hgrow v hv.2
  · intro v hv
    rw [hc, hargs, mem_append, mem_append] at hv
    rw [h.valuesSize]
    rcases hv with (hv | hv) | hv
    · exact Nat.lt_add_right _ (hgrow v (Nat.lt_add_right _ (hops v hv)))
    · exact ((e.graph.withBlock argTys).mem_nextValues.1 hv).2
    · exact Nat.lt_add_right _ (hgrow v (e.graph.mem_nextValues.1 hv).2)

theorem types_generic {inputs outputs symbols : List ValueId} {maps : List Affine.Map}
    {iterators : List Iterator} {ys : List ValueId → List ValueId} {x : α} :
    Types e (generic inputs outputs symbols maps iterators fun args => return (ys args, x)) := by
  refine .demand fun _ => .read (fun _ _ => (forM_check_ok fun _ _ _ _ => checkMap_ok).1)
    fun _ _ => ?_
  rintro a e' h - hops
  simp only [state_bind_eq_ok, graph_ok, newBlock_eq, EStateM.Result.ok.injEq, and_assoc,
    exists_and_left, exists_eq_left', atPoint_ok, demand_ok, state_pure_eq_ok] at h
  obtain ⟨i, e₁, h1, -, y, _, ⟨_, ⟨_, j, e₂, h2, -, rfl⟩, rfl⟩, -, rfl⟩ := h
  have hform := region_form (create_made h1).2 (create_made h2).2 hops
  rw [hform, map_append]
  have hargs : ((inputs ++ outputs).map fun v => Ty.scalar (e.graph.ty v).elem) =
      ((inputs ++ outputs).map e.graph.ty).map fun t => .scalar t.elem := by
    rw [map_map]
    rfl
  rw [hargs]
  exact .generic _ _ _ _

theorem types_forLoop {lower upper step : ValueId} {inits : List ValueId}
    {ys : ValueId → List ValueId → List ValueId} {x : α} :
    Types e (forLoop lower upper step inits fun iv carried => return (ys iv carried, x)) := by
  refine .read (fun _ _ => (forM_check_ok fun _ _ _ _ => checkIndex_ok).1) fun _ _ => ?_
  rintro a e' h - hops
  simp only [state_bind_eq_ok, graph_ok, newBlock_eq, EStateM.Result.ok.injEq, and_assoc,
    exists_and_left, exists_eq_left', atPoint_ok, lift_ok, state_pure_eq_ok] at h
  obtain ⟨i, e₁, h1, y, _, ⟨_, ⟨iv, -, j, e₂, h2, -, rfl⟩, rfl⟩, -, rfl⟩ := h
  rw [region_form (create_made h1).2 (create_made h2).2 hops]
  exact .forLoop _ _ _

end Builders

/-- **What the builder functions create is well typed.** -/
theorem Graph.Built.wellTyped {g : Graph} {i : OpId} (h : g.Built i) : WellTyped (g.form i) := by
  obtain ⟨m, e, e', hcall, hsize, hops, hform⟩ := h
  suffices htypes : Types e m.call from hform ▸ htypes () e' hcall hsize hops
  cases m with
  | constIndex n => exact .discard (.createValue (.constIndex _))
  | constScalar elem x => exact .discard (.createValue (.constScalar _ _))
  | add lhs rhs => exact .discard (.tyOf (types_binary (by split <;> simp)))
  | mul lhs rhs => exact .discard (.tyOf (types_binary (by split <;> simp)))
  | widen x elem => exact .discard types_widen
  | affineApply m operands => exact .discard (types_affine (by simp))
  | affineMin m operands => exact .discard (types_affine (by simp))
  | tensorDim t axis => exact .discard (.tyOf (.demand fun _ => .createValue (.tensorDim _ _)))
  | collapse src groups => exact .discard types_collapse
  | expand src groups result => exact .discard types_expand
  | extractSlice src offsets sizes => exact .discard types_extractSlice
  | insertSlice src dest offsets sizes => exact .discard types_insertSlice
  | conv2d input filter output strides dilations => exact .discard types_conv2d
  | generic inputs outputs symbols maps iterators => exact .discard types_generic
  | forLoop lower upper step inits => exact .discard types_forLoop
  | genericYield values => exact .discard (.create (.terminator rfl _))
  | loopYield values => exact .discard (.create (.terminator rfl _))
  | funcReturn values => exact .discard (.create (.terminator rfl _))

end ConvNest.Program
