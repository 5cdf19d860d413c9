/-
# Renaming values

A copy of a tree has the kinds, types and attributes of its source, and the values of the source
under other names: `Maps ρ n n'`.  If the renaming `ρ` keeps apart what is defined from what is
visible, the copy computes under the new names what the source computes under the old ones
(`runAll_maps`, `exec_maps`).

`Like ρ n n'` asks for less, and only at the node itself.  A property of a node that is kept by it
as long as types are kept is called `Natural`; what verification says about a node is
(`natural_rules`).
-/
import ConvNest.Proofs.Verified

namespace ConvNest.Program

open List

/-- What an operation is, with its values renamed. -/
def Head.rename (ρ : ValueId → ValueId) (h : Head) : Head :=
  { h with operands := h.operands.map ρ, results := h.results.map ρ }

/-- An index with its value renamed. -/
def Index.rename (ρ : ValueId → ValueId) : Index → Index
  | .static n => .static n
  | .dynamic v => .dynamic (ρ v)

/-! ## 1. Data that are alike -/

/-- How the data of two stores may differ: which tensors and which scalars are alike.  Operations
make alike data of alike ones, or fail on both. -/
structure Likeness where
  tensor : Tensor → Tensor → Prop
  scalar : Scalar → Scalar → Prop
  reflTensor : ∀ t, tensor t t
  reflScalar : ∀ s, scalar s s
  shape : ∀ {t u}, tensor t u → u.elem = t.elem ∧ u.dims = t.dims
  arith : ∀ {x x' y y'} (k : Kind), scalar x x' → scalar y y' →
    Option.Rel scalar (Eval.arith k x y).toOption (Eval.arith k x' y').toOption
  widen : ∀ {x x'} (e : Element), scalar x x' → scalar (x.extendInt e) (x'.extendInt e) ∧
    scalar (x.intToFloat e) (x'.intToFloat e) ∧ scalar (x.extendFloat e) (x'.extendFloat e)
  reshape : ∀ {t u} (s : Shape), tensor t u →
    Option.Rel tensor (t.reshape s).toOption (u.reshape s).toOption
  extractSlice : ∀ {t u} (os zs : List Int64), tensor t u →
    Option.Rel tensor (t.extractSlice os zs).toOption (u.extractSlice os zs).toOption
  insertSlice : ∀ {a b t u} (os zs : List Int64), tensor a b → tensor t u →
    Option.Rel tensor (a.insertSlice t os zs).toOption (b.insertSlice u os zs).toOption
  conv2d : ∀ {i i' f f' o o'} (s d : Pair), tensor i i' → tensor f f' → tensor o o' →
    Option.Rel tensor (i.conv2d f o s d).toOption (i'.conv2d f' o' s d).toOption
  scalarAt : ∀ {t u} (p : List Int64), tensor t u →
    Option.Rel scalar (t.scalarAt p).toOption (u.scalarAt p).toOption
  setScalar : ∀ {t u x y} (p : List Int64), tensor t u → scalar x y →
    Option.Rel tensor (t.setScalar p x).toOption (u.setScalar p y).toOption

namespace Likeness

/-- Only what is the same is alike. -/
def same : Likeness where
  tensor := Eq
  scalar := Eq
  reflTensor _ := rfl
  reflScalar _ := rfl
  shape h := h ▸ ⟨rfl, rfl⟩
  arith _ hx hy := hx ▸ hy ▸ rel_refl
  widen _ h := h ▸ ⟨rfl, rfl, rfl⟩
  reshape _ h := h ▸ rel_refl
  extractSlice _ _ h := h ▸ rel_refl
  insertSlice _ _ h h' := h ▸ h' ▸ rel_refl
  conv2d _ _ hi hf ho := hi ▸ hf ▸ ho ▸ rel_refl
  scalarAt _ h := h ▸ rel_refl
  setScalar _ h h' := h ▸ h' ▸ rel_refl

/-- Data that are alike.  Indices are the same. -/
inductive Data (L : Likeness) : Datum → Datum → Prop
  | tensor {t u : Tensor} (h : L.tensor t u) : Data L (.tensor t) (.tensor u)
  | scalar {s s' : Scalar} (h : L.scalar s s') : Data L (.scalar s) (.scalar s')
  | index (n : Int64) : Data L (.index n) (.index n)

/-- What generic operations are computed from, with tensors that are alike. -/
structure Setup (L : Likeness) (x y : Head.Setup) : Prop where
  maps : y.maps = x.maps
  inputs : Forall₂ L.tensor x.inputs y.inputs
  outs : Forall₂ L.tensor x.outs y.outs
  syms : y.syms = x.syms
  sides : y.sides = x.sides

/-- A store gives renamed values data like those that another one gives to the values. -/
def Follows (L : Likeness) (ρ : ValueId → ValueId) (V : List ValueId) (S S' : Store) : Prop :=
  ∀ v ∈ V, Option.Rel L.Data (S v) (S' (ρ v))

variable {L : Likeness}

theorem Data.refl (d : Datum) : L.Data d d := by
  cases d with
  | tensor t => exact .tensor (L.reflTensor t)
  | scalar s => exact .scalar (L.reflScalar s)
  | index n => exact .index n

theorem rel_self {x : Option Datum} : Option.Rel L.Data x x :=
  rel_mono rel_refl fun d _ heq => heq ▸ .refl d

theorem data_same {d d' : Datum} (h : same.Data d d') : d = d' := by
  cases h with
  | tensor h => exact congrArg _ h
  | scalar h => exact congrArg _ h
  | index n => rfl

theorem all_same {ds ds' : List Datum} (h : Forall₂ same.Data ds ds') : ds = ds' :=
  forall₂_eq_eq_eq ▸ h.imp fun _ _ => data_same

namespace Follows

variable {ρ : ValueId → ValueId} {V W : List ValueId} {S S' : Store} {v : ValueId}

theorem mono (h : L.Follows ρ V S S') (hw : W ⊆ V) : L.Follows ρ W S S' := fun v hv => h v (hw hv)

section

variable (h : L.Follows ρ V S S') (hv : v ∈ V)

include h hv

theorem tensor : Option.Rel L.tensor (S.tensor v) (S'.tensor (ρ v)) := by
  refine rel_bind (h v hv) fun d d' hd => ?_
  cases hd with
  | tensor h => exact .some h
  | _ => exact .none

theorem scalar : Option.Rel L.scalar (S.scalar v) (S'.scalar (ρ v)) := by
  refine rel_bind (h v hv) fun d d' hd => ?_
  cases hd with
  | scalar h => exact .some h
  | _ => exact .none

theorem index : S'.index (ρ v) = S.index v := by
  refine (rel_eq (rel_bind (h v hv) fun d d' hd => ?_)).symm
  cases hd with
  | index n => exact .some rfl
  | _ => exact .none

end

end Follows

end Likeness

/-- A store gives renamed values the data that another one gives to the values. -/
def Follows (ρ : ValueId → ValueId) (V : List ValueId) (S S' : Store) : Prop :=
  ∀ v ∈ V, S' (ρ v) = S v

namespace Follows

variable {ρ : ValueId → ValueId} {V W : List ValueId} {S S' : Store}

theorem mono (h : Follows ρ V S S') (hw : W ⊆ V) : Follows ρ W S S' := fun v hv => h v (hw hv)

theorem same (h : Follows ρ V S S') : Likeness.same.Follows ρ V S S' := fun v hv =>
  h v hv ▸ Likeness.rel_self

theorem of_same (h : Likeness.same.Follows ρ V S S') : Follows ρ V S S' := fun v hv =>
  (rel_eq (rel_mono (h v hv) fun _ _ => Likeness.data_same)).symm

end Follows

/-! ## 2. Renamed operations -/

section Reading

variable {α β γ δ : Type} {ρ : ValueId → ValueId} {vs : List ValueId} {f : ValueId → Option α}
  {f' : ValueId → Option β} {R : α → β → Prop}

/-- Reading a renamed operand. -/
theorem rel_operand {Q : γ → δ → Prop} (h : ∀ v ∈ vs, Option.Rel R (f v) (f' (ρ v)))
    (k : Nat) {F : α → Option γ} {G : β → Option δ} (hF : ∀ a b, R a b → Option.Rel Q (F a) (G b)) :
    Option.Rel Q (vs[k]?.bind fun v => (f v).bind F)
      ((vs.map ρ)[k]?.bind fun v => (f' v).bind G) := by
  rw [getElem?_map, Option.bind_map]
  exact rel_bind_same fun v hv => rel_bind (h v (mem_of_getElem? hv)) hF

/-- Reading renamed operands. -/
theorem rel_operands (h : ∀ v ∈ vs, Option.Rel R (f v) (f' (ρ v))) :
    Option.Rel (Forall₂ R) (vs.mapM f) ((vs.map ρ).mapM f') := by
  rw [mapM_map]
  exact rel_mapM h

theorem mapM_renamed {f' : ValueId → Option α} (h : ∀ v ∈ vs, f' (ρ v) = f v) :
    (vs.map ρ).mapM f' = vs.mapM f := by
  rw [mapM_map]
  exact mapM_congr h

end Reading

section

variable {α β : Type} (f : α → β) (xs : List α) (n : Int)

theorem toOption_firstItems_map :
    (firstItems (xs.map f) n).toOption = (firstItems xs n).toOption.map (List.map f) := by
  unfold firstItems
  rw [length_map]
  split <;> simp

theorem toOption_itemsAfter_map :
    (itemsAfter (xs.map f) n).toOption = (itemsAfter xs n).toOption.map (List.map f) := by
  unfold itemsAfter
  rw [length_map]
  split <;> simp

end

theorem resolveMarks_map (ρ : ValueId → ValueId) (ns : List Int64) (vs : List ValueId) :
    (Graph.resolveMarks ns (vs.map ρ)).toOption =
      (Graph.resolveMarks ns vs).toOption.map fun p => (p.1.map (Index.rename ρ), p.2.map ρ) := by
  induction ns generalizing vs with
  | nil => rfl
  | cons n ns ih =>
    simp only [Graph.resolveMarks]
    split
    · cases vs with
      | nil => rfl
      | cons v vs =>
        simp only [map_cons, toOption_bind, ih]
        cases (Graph.resolveMarks ns vs).toOption <;> rfl
    · simp only [toOption_bind, ih]
      cases (Graph.resolveMarks ns vs).toOption <;> rfl

namespace Head

variable {ρ : ValueId → ValueId} {S S' : Store} {h : Head} {L : Likeness} {ts us : List Tensor}

theorem offsetsAndSizes_rename : (h.rename ρ).offsetsAndSizes = h.offsetsAndSizes.map fun p =>
    (p.1.map (Index.rename ρ), p.2.map (Index.rename ρ)) := by
  unfold offsetsAndSizes rename
  cases h.attr with
  | slice a =>
    simp only [← map_drop, resolveMarks_map]
    cases (Graph.resolveMarks a.offsets
        (h.operands.drop (if h.kind = .insertSlice then 2 else 1))).toOption with
    | none => rfl
    | some p =>
      simp only [Option.map_some, Option.bind_eq_bind, Option.bind_some, resolveMarks_map]
      cases (Graph.resolveMarks a.sizes p.2).toOption <;> rfl
  | _ => rfl

theorem word_rename (x : Index) (hx : ∀ v, x = .dynamic v → S'.index (ρ v) = S.index v) :
    S'.word (x.rename ρ) = S.word x := by
  cases x with
  | static n => rfl
  | dynamic v => exact hx v rfl

theorem sliceWords_rename (os zs : List Index)
    (hw : ∀ v, (.dynamic v : Index) ∈ os ++ zs → S'.index (ρ v) = S.index v) :
    sliceWords S' (os.map (Index.rename ρ)) (zs.map (Index.rename ρ)) = sliceWords S os zs := by
  induction os generalizing zs with
  | nil => simp [sliceWords, Function.comp_def]
  | cons o os ih =>
    have first : S'.word (o.rename ρ) = S.word o :=
      word_rename o fun v hv => hw v (by simp [hv])
    cases zs with
    | nil => simp only [map_cons, map_nil, sliceWords, first]
    | cons z zs =>
      have second : S'.word (z.rename ρ) = S.word z :=
        word_rename z fun v hv => hw v (by simp [hv])
      have rest := ih zs fun v hv => hw v (by
        simp only [mem_append, mem_cons] at hv ⊢
        exact hv.elim (fun h => .inl (.inr h)) fun h => .inr (.inr h))
      simp only [map_cons, sliceWords, first, second, rest]

theorem sliceWords_congr {os zs : List Index}
    (hw : ∀ v, (.dynamic v : Index) ∈ os ++ zs → S'.index v = S.index v) :
    sliceWords S' os zs = sliceWords S os zs := by
  have hid (xs : List Index) : xs.map (Index.rename fun v => v) = xs := by
    conv_rhs => rw [← map_id xs]
    exact map_congr_left fun x _ => by cases x <;> rfl
  have := sliceWords_rename (ρ := fun v => v) os zs hw
  rwa [hid, hid] at this

section Operands

variable {L : Likeness} (hS : L.Follows ρ h.operands S S')

include hS

theorem slice_rename : (h.rename ρ).offsetsAndSizes.bind (fun p => sliceWords S' p.1 p.2) =
    h.offsetsAndSizes.bind fun p => sliceWords S p.1 p.2 := by
  rw [offsetsAndSizes_rename]
  cases hoz : h.offsetsAndSizes with
  | none => rfl
  | some p =>
    refine sliceWords_rename p.1 p.2 fun v hv => hS.index ?_
    exact offsetsAndSizes_subset hoz v (mem_append.1 hv)

/-- Reading a slice. -/
theorem slice_like {F F' : List Int64 × List Int64 → Option Datum}
    (hF : ∀ w, Option.Rel L.Data (F w) (F' w)) :
    Option.Rel L.Data (h.offsetsAndSizes.bind fun p => (sliceWords S p.1 p.2).bind F)
      ((h.rename ρ).offsetsAndSizes.bind fun p => (sliceWords S' p.1 p.2).bind F') := by
  rw [← Option.bind_assoc, ← Option.bind_assoc, slice_rename hS]
  exact rel_bind_same fun w _ => hF w

/-- An operation without a body computes alike data from alike data. -/
theorem leaf_like (ty : Ty) : Option.Rel L.Data (h.leaf ty S) ((h.rename ρ).leaf ty S') := by
  have hkind : (h.rename ρ).kind = h.kind := rfl
  have hattr : (h.rename ρ).attr = h.attr := rfl
  have hindices : (h.rename ρ).operands.mapM S'.index = h.operands.mapM S.index :=
    mapM_renamed fun _ => hS.index
  have hbinary : Option.Rel L.Data (h.binary S) ((h.rename ρ).binary S') :=
    rel_operand (fun _ => hS.scalar) 0 fun _ _ hx => rel_operand (fun _ => hS.scalar) 1
      fun _ _ hy =>
      rel_bind (L.arith h.kind hx hy) fun _ _ hz => .some (.scalar hz)
  have hwiden : Option.Rel L.Data (h.widen ty S) ((h.rename ρ).widen ty S') := by
    refine rel_operand (fun _ => hS.scalar) 0 fun x x' hx => .some (.scalar ?_)
    obtain ⟨hint, hmixed, hfloat⟩ := L.widen ty.elem hx
    simp only [hkind]
    split
    · exact hint
    · exact hmixed
    · exact hfloat
  have haffine : Option.Rel L.Data (h.affine S) ((h.rename ρ).affine S') := by
    simp only [affine, hindices]
    exact Likeness.rel_self
  have hdim : Option.Rel L.Data (h.tensorDim S) ((h.rename ρ).tensorDim S') := by
    refine rel_operand (fun _ => hS.tensor) 0 fun t u htu => ?_
    have hshape : u.shape = t.shape := by
      rw [Tensor.shape, Tensor.shape, (L.shape htu).1, (L.shape htu).2]
    rw [hattr, hshape]
    exact Likeness.rel_self
  have hcollapse : Option.Rel L.Data (h.collapse S) ((h.rename ρ).collapse S') := by
    refine rel_operand (fun _ => hS.tensor) 0 fun t u htu => ?_
    rw [hattr, (L.shape htu).1, (L.shape htu).2]
    cases h.attr with
    | reshape groups =>
      refine rel_bind_same fun _ _ => rel_bind_same fun s _ => ?_
      exact rel_bind (L.reshape s htu) fun _ _ h => .some (.tensor h)
    | _ => exact .none
  have hexpand : Option.Rel L.Data (h.expand ty S) ((h.rename ρ).expand ty S') :=
    rel_operand (fun _ => hS.tensor) 0 fun _ _ htu => rel_bind_same fun _ _ =>
      rel_bind (L.reshape _ htu) fun _ _ h => .some (.tensor h)
  have hextract : Option.Rel L.Data (h.extractSlice S) ((h.rename ρ).extractSlice S') :=
    rel_operand (fun _ => hS.tensor) 0 fun _ _ htu => slice_like hS fun w =>
      rel_bind (L.extractSlice w.1 w.2 htu) fun _ _ h => .some (.tensor h)
  have hinsert : Option.Rel L.Data (h.insertSlice S) ((h.rename ρ).insertSlice S') :=
    rel_operand (fun _ => hS.tensor) 0 fun _ _ hsrc => rel_operand (fun _ => hS.tensor) 1
      fun _ _ htu =>
      slice_like hS fun w => rel_bind (L.insertSlice w.1 w.2 hsrc htu) fun _ _ h =>
      .some (.tensor h)
  have hconv : Option.Rel L.Data (h.conv S) ((h.rename ρ).conv S') := by
    unfold conv
    rw [hattr]
    cases h.attr with
    | conv strides dilations =>
      refine rel_operand (fun _ => hS.tensor) 0 fun _ _ hi => rel_operand (fun _ => hS.tensor) 1
        fun _ _ hf => ?_
      exact rel_operand (fun _ => hS.tensor) 2 fun _ _ ho =>
        rel_bind (L.conv2d _ _ hi hf ho) fun _ _ h => .some (.tensor h)
    | _ => exact .none
  unfold leaf
  rw [hkind]
  cases h.kind <;> first
    | exact hbinary
    | exact hwiden
    | exact haffine
    | exact hdim
    | exact hcollapse
    | exact hexpand
    | exact hextract
    | exact hinsert
    | exact hconv
    | exact Likeness.rel_self

theorem ivs_like : (h.rename ρ).ivs S' = h.ivs S := by
  refine (rel_eq (rel_operand (R := Eq) (fun v hv => hS.index hv ▸ rel_refl) 0 ?_)).symm
  rintro lower _ rfl
  refine rel_operand (R := Eq) (fun v hv => hS.index hv ▸ rel_refl) 1 ?_
  rintro upper _ rfl
  refine rel_operand (R := Eq) (fun v hv => hS.index hv ▸ rel_refl) 2 ?_
  rintro step _ rfl
  exact rel_refl

theorem inits_like : Option.Rel (Forall₂ L.Data) (h.inits S) ((h.rename ρ).inits S') := by
  have hoperands : (h.rename ρ).operands = h.operands.map ρ := rfl
  simp only [inits, hoperands, toOption_itemsAfter_map, Option.bind_eq_bind, Option.bind_map]
  refine rel_bind_same fun vs hvs => rel_operands fun v hv => hS v ?_
  obtain ⟨-, -, rfl⟩ := itemsAfter_ok.1 (toOption_eq_some.1 hvs)
  exact mem_of_mem_drop hv

omit hS in
theorem loopRanges_like {ts us : List Tensor} (h : Forall₂ L.tensor ts us)
    (maps : List Affine.Map) (n : Nat) : Eval.loopRanges maps n us = Eval.loopRanges maps n ts := by
  have hdims : us.map Tensor.dims = ts.map Tensor.dims := by
    induction h with
    | nil => rfl
    | cons h _ ih => rw [map_cons, map_cons, (L.shape h).2, ih]
  unfold Eval.loopRanges
  simp only [← getElem?_map, hdims]

theorem setup_like : Option.Rel L.Setup (h.setup S) ((h.rename ρ).setup S') := by
  have hoperands : (h.rename ρ).operands = h.operands.map ρ := rfl
  have hresults : (h.rename ρ).results.length = h.results.length := length_map ..
  have hattr : (h.rename ρ).attr = h.attr := rfl
  simp only [setup, hattr, hresults, hoperands, toOption_itemsAfter_map, toOption_firstItems_map]
  cases h.attr with
  | generic a =>
    simp only [Option.bind_eq_bind, Option.bind_map, Function.comp_def, length_map]
    refine rel_bind_same fun shaped hshaped => rel_bind_same fun inputs _ => ?_
    obtain ⟨-, -, rfl⟩ := firstItems_ok.1 (toOption_eq_some.1 hshaped)
    refine rel_bind (rel_operands fun v hv => hS.tensor (mem_of_mem_take hv)) fun ts us htu => ?_
    refine rel_bind_same fun symbols hsymbols => ?_
    obtain ⟨-, -, rfl⟩ := itemsAfter_ok.1 (toOption_eq_some.1 hsymbols)
    rw [mapM_renamed fun v hv => hS.index (mem_of_mem_drop hv), loopRanges_like htu]
    refine rel_bind_same fun syms _ => rel_bind_same fun sides _ => ?_
    split
    · exact .none
    · exact .some ⟨rfl, forall₂_take _ htu, forall₂_drop _ htu, rfl, rfl⟩
  | _ => exact .none

end Operands

theorem rename_self (h : Head) : (h.rename fun v => v) = h := by simp [rename]

/-- Elements that were found at the same indices. -/
abbrev Found (L : Likeness) : List (List Int64 × Scalar) → List (List Int64 × Scalar) → Prop :=
  Forall₂ fun x y => y.1 = x.1 ∧ L.scalar x.2 y.2

theorem Found.indices {xs ys : List (List Int64 × Scalar)} (h : Found L xs ys) :
    ys.map (·.1) = xs.map (·.1) := by
  induction h with
  | nil => rfl
  | cons h _ ih => rw [map_cons, map_cons, h.1, ih]

theorem elements_like (h : Forall₂ L.tensor ts us) (point syms : List Int64)
    (maps : List Affine.Map) :
    Option.Rel (Found L) (elements point syms maps ts) (elements point syms maps us) := by
  induction maps generalizing ts us with
  | nil => exact .some .nil
  | cons m ms ih =>
    cases h with
    | nil => exact .none
    | cons htu hrest =>
      refine rel_bind_same fun indices _ => rel_bind (L.scalarAt indices htu) fun s s' hs => ?_
      exact rel_bind (ih hrest) fun _ _ h => .some (.cons ⟨rfl, hs⟩ h)

theorem store_like {ds ds' : List Datum} (hd : Forall₂ L.Data ds ds') (h : Forall₂ L.tensor ts us)
    (indices : List (List Int64)) :
    Option.Rel (Forall₂ L.tensor) (store ds indices ts) (store ds' indices us) := by
  induction hd generalizing indices ts us with
  | nil => exact .some h
  | cons hd _ ih =>
    cases hd with
    | tensor _ => exact .none
    | index _ => exact .none
    | scalar hs =>
      cases indices with
      | nil => exact .none
      | cons p rest =>
        cases h with
        | nil => exact .none
        | cons htu hrest =>
          refine rel_bind (L.setScalar p htu hs) fun _ _ h => ?_
          exact rel_bind (ih hrest rest) fun _ _ hs => .some (.cons h hs)

end Head

/-! ## 3. Renamed trees -/

namespace Node

mutual

/-- A tree has what another one has, with the values renamed.  Operations and blocks may have any
names. -/
def Maps (ρ : ValueId → ValueId) : Node → Node → Prop
  | mk _ h b as ns, n' =>
    n'.head = h.rename ρ ∧ n'.body.isSome = b.isSome ∧ n'.args = as.map ρ ∧ MapsAll ρ ns n'.nodes

/-- Trees have what others have, one by one, with the values renamed. -/
def MapsAll (ρ : ValueId → ValueId) : List Node → List Node → Prop
  | [], ns' => ns' = []
  | n :: ns, ns' => ∃ k ks, ns' = k :: ks ∧ Maps ρ n k ∧ MapsAll ρ ns ks

end

section Maps

variable {ρ ρ' : ValueId → ValueId} {n n' : Node} {ms ns ns' ks : List Node} {V : List ValueId}

theorem maps_iff : Maps ρ n n' ↔
    n'.head = n.head.rename ρ ∧ n'.body.isSome = n.body.isSome ∧ n'.args = n.args.map ρ ∧
      MapsAll ρ n.nodes n'.nodes := by
  cases n
  simp [Maps]

@[simp] theorem mapsAll_nil : MapsAll ρ [] ns' ↔ ns' = [] := by simp [MapsAll]

theorem mapsAll_cons :
    MapsAll ρ (n :: ns) ns' ↔ ∃ k ks, ns' = k :: ks ∧ Maps ρ n k ∧ MapsAll ρ ns ks := by
  simp [MapsAll]

/-- Induction along two lists of trees of which the second renames the first. -/
@[elab_as_elim] theorem MapsAll.along {motive : ∀ ns ns', MapsAll ρ ns ns' → Prop}
    (nil : motive [] [] (mapsAll_nil.2 rfl))
    (cons : ∀ n n' ns ns' (hn : Maps ρ n n') (hns : MapsAll ρ ns ns'),
      motive n.nodes n'.nodes (maps_iff.1 hn).2.2.2 → motive ns ns' hns →
      motive (n :: ns) (n' :: ns') (mapsAll_cons.2 ⟨n', ns', rfl, hn, hns⟩))
    (h : MapsAll ρ ns ns') : motive ns ns' h := by
  induction ns using forest generalizing ns' with
  | nil =>
    obtain rfl := mapsAll_nil.1 h
    exact nil
  | cons n ns body rest =>
    obtain ⟨k, ks, rfl, hk, hks⟩ := mapsAll_cons.1 h
    exact cons n k ns ks hk hks (body (maps_iff.1 hk).2.2.2) (rest hks)

theorem mapsAll_append : MapsAll ρ (ms ++ ns) ks ↔
    ∃ ms' ns', ks = ms' ++ ns' ∧ MapsAll ρ ms ms' ∧ MapsAll ρ ns ns' := by
  induction ms generalizing ks with
  | nil => simp
  | cons m ms ih =>
    simp only [cons_append, mapsAll_cons, ih]
    constructor
    · rintro ⟨k, ks, rfl, hk, ms', ns', rfl, hms, hns⟩
      exact ⟨k :: ms', ns', rfl, ⟨k, ms', rfl, hk, hms⟩, hns⟩
    · rintro ⟨_, ns', rfl, ⟨k, ms', rfl, hk, hms⟩, hns⟩
      exact ⟨k, ms' ++ ns', rfl, hk, ms', ns', rfl, hms, hns⟩

theorem MapsAll.forall₂ (h : MapsAll ρ ns ns') : Forall₂ (Maps ρ) ns ns' := by
  induction h using MapsAll.along with
  | nil => exact .nil
  | cons n n' ns ns' hn _ _ rest => exact .cons hn rest

theorem MapsAll.exists_of_mem (h : MapsAll ρ ns ns') {m' : Node} (hm : m' ∈ ns') :
    ∃ m ∈ ns, Maps ρ m m' := by
  induction h using MapsAll.along with
  | nil => cases hm
  | cons n n' ns ns' hn _ _ rest =>
    rcases mem_cons.1 hm with rfl | hm
    · exact ⟨n, mem_cons_self, hn⟩
    · exact (rest hm).imp fun m => And.imp_left (mem_cons_of_mem _)

theorem Head.rename_congr {h : Head}
    (heq : ∀ v ∈ h.operands ++ h.results, ρ v = ρ' v) : h.rename ρ = h.rename ρ' := by
  simp only [Head.rename, Head.mk.injEq, true_and, and_true]
  exact ⟨map_congr_left fun v hv => heq v (mem_append_left _ hv),
    map_congr_left fun v hv => heq v (mem_append_right _ hv)⟩

/-- Two renamings agree on the values of a node. -/
def SameOn (ρ ρ' : ValueId → ValueId) (k : Node) : Prop :=
  ∀ v ∈ k.head.operands ++ k.own, ρ v = ρ' v

theorem Maps.congr_of (h : Maps ρ n n') (hself : SameOn ρ ρ' n)
    (hnodes : MapsAll ρ' n.nodes n'.nodes) :
    Maps ρ' n n' := by
  obtain ⟨hhead, hbody, hargs, -⟩ := maps_iff.1 h
  simp only [SameOn, own, mem_append] at hself
  refine maps_iff.2 ⟨?_, hbody, ?_, hnodes⟩
  · rw [hhead]
    refine Head.rename_congr fun v hv => hself v ?_
    exact (mem_append.1 hv).imp_right .inl
  · rw [hargs]
    exact map_congr_left fun v hv => hself v (.inr (.inr hv))

variable (h : MapsAll ρ ns ns')

include h

/-- A renaming is only asked for the values of the trees. -/
theorem MapsAll.congr (heq : ∀ k ∈ subsAll ns, SameOn ρ ρ' k) : MapsAll ρ' ns ns' := by
  induction h using MapsAll.along with
  | nil => simp
  | cons n n' ns ns' hn _ body rest =>
    simp only [mem_subsAll_cons, or_imp, forall_and, forall_eq] at heq
    exact mapsAll_cons.2 ⟨n', ns', rfl, hn.congr_of heq.1 (body heq.2.1), rest heq.2.2⟩

theorem MapsAll.defs : defs ns' = (defs ns).map ρ := by
  induction h using MapsAll.along with
  | nil => rfl
  | cons n n' ns ns' hn _ body rest =>
    rw [defs_cons n', defs_cons n, defs_single, defs_single, (maps_iff.1 hn).1,
      (maps_iff.1 hn).2.2.1, body, rest]
    simp [Head.rename]

theorem MapsAll.outs : outs ns' = (outs ns).map ρ := by
  induction h using MapsAll.along with
  | nil => rfl
  | cons n n' ns ns' hn _ _ rest =>
    simp only [Node.outs, flatMap_cons, map_append, (maps_iff.1 hn).1, Head.rename] at rest ⊢
    rw [rest]

/-- A copy sees the copies of what its source sees. -/
theorem MapsAll.scoped (hs : ScopedAll V ns) : ScopedAll (V.map ρ) ns' := by
  induction h using MapsAll.along generalizing V with
  | nil => simp
  | cons n n' ns ns' hn _ body rest =>
    obtain ⟨hhead, -, hargs, -⟩ := maps_iff.1 hn
    obtain ⟨hn, hns⟩ := scopedAll_cons.1 hs
    obtain ⟨hops, hnodes⟩ := scoped_iff.1 hn
    refine scopedAll_cons.2 ⟨scoped_iff.2 ⟨?_, ?_⟩, ?_⟩
    · intro v hv
      simp only [hhead, Head.rename, mem_map] at hv
      obtain ⟨u, hu, rfl⟩ := hv
      exact mem_map_of_mem (hops u hu)
    · have := body hnodes
      rwa [map_append, ← hargs] at this
    · simpa [hhead, Head.rename] using rest hns

/-- The nodes of a copy are copies of the nodes of the source, one by one. -/
theorem MapsAll.subsAll : Forall₂ (Maps ρ) (subsAll ns) (subsAll ns') := by
  induction h using MapsAll.along with
  | nil => simp
  | cons n n' ns ns' hn _ body rest =>
    rw [subsAll_cons, subsAll_cons, subs_eq, subs_eq n']
    exact rel_append (.cons hn body) rest

theorem MapsAll.depthAll_eq : depthAll ns' = depthAll ns := by
  induction h using MapsAll.along with
  | nil => rfl
  | cons n n' ns ns' _ _ body rest => simp only [depthAll, depth_eq, body, rest]

end Maps

/-- What is defined keeps its own name among the values. -/
def Separates (ρ : ValueId → ValueId) (D W : List ValueId) : Prop :=
  ∀ x ∈ D, ∀ y ∈ W, ρ x = ρ y → x = y

variable {ρ : ValueId → ValueId} {W : List ValueId}

theorem Separates.mono {D D' W' : List ValueId} (h : Separates ρ D W) (hd : D' ⊆ D) (hw : W' ⊆ W) :
    Separates ρ D' W' :=
  fun x hx y hy => h x (hd hx) y (hw hy)

section

variable {ρ : ValueId → ValueId} {n : Node} {ns : List Node} {V : List ValueId}
  (h : Separates ρ (defs (n :: ns)) (defs (n :: ns) ++ V))

include h

theorem Separates.first : Separates ρ (defs [n]) (defs [n] ++ V) := by
  rw [defs_cons] at h
  exact h.mono (subset_append_left _ _) (by grind)

theorem Separates.rest : Separates ρ (defs ns) (defs ns ++ (n.head.results ++ V)) := by
  have hresults : n.head.results ⊆ defs [n] := by
    rw [defs_single]
    grind
  rw [defs_cons] at h
  exact h.mono (subset_append_right _ _) (by grind)

end

theorem idxOf?_map {vs : List ValueId} (h : Separates ρ vs W) {v : ValueId} (hv : v ∈ W) :
    (vs.map ρ).idxOf? (ρ v) = vs.idxOf? v := by
  induction vs with
  | nil => rfl
  | cons u vs ih =>
    have hiff : (ρ u == ρ v) = (u == v) := by
      by_cases huv : u = v
      · simp [huv]
      · have : ρ u ≠ ρ v := fun heq => huv (h u mem_cons_self v hv heq)
        simp [huv, this]
    rw [map_cons, idxOf?_cons, idxOf?_cons, hiff,
      ih (h.mono (subset_cons_self _ _) fun _ hx => hx)]

end Node

open Node

/-- Data for values that are kept apart. -/
theorem Likeness.Follows.assign {L : Likeness} {ρ : ValueId → ValueId} {V vs : List ValueId}
    {S S' : Store} (h : L.Follows ρ V S S') (hsep : Separates ρ vs (vs ++ V)) {ds ds' : List Datum}
    (hds : Forall₂ L.Data ds ds') :
    L.Follows ρ (vs ++ V) (S.assign vs ds) (S'.assign (vs.map ρ) ds') := by
  intro v hv
  simp only [Store.assign, idxOf?_map hsep hv]
  cases hi : vs.idxOf? v with
  | none => exact h v ((mem_append.1 hv).resolve_left (idxOf?_eq_none_iff.1 hi))
  | some k =>
    clear hi
    induction hds generalizing k with
    | nil => exact .none
    | cons hd _ ih =>
      cases k with
      | zero => exact .some hd
      | succ k => exact ih k

namespace Node

variable {L : Likeness} {ρ : ValueId → ValueId} {n n' : Node}
variable {ns ns' : List Node} {V : List ValueId} {S S' T : Store}

/-- A walk that succeeds is followed by another one that makes like steps, where each step may
assume what holds of everything that is executed in it. -/
theorem foldlM_of_walkLog {α β β' γ : Type} {step : β → α → Option β} {k : β' → α → Option β'}
    {log : β → α → List γ} {P : γ → Prop} {R : β → β' → Prop} {xs : List α} {b r : β} {b' : β'}
    (h : xs.foldlM step b = some r) (hlog : ∀ s ∈ walkLog step log xs b, P s) (hb : R b b')
    (hstep : ∀ b b' x c, R b b' → step b x = some c → (∀ s ∈ log b x, P s) →
      ∃ c', k b' x = some c' ∧ R c c') : ∃ r', xs.foldlM k b' = some r' ∧ R r r' := by
  induction xs generalizing b b' with
  | nil => exact ⟨b', rfl, Option.some.inj h ▸ hb⟩
  | cons x xs ih =>
    simp only [foldlM_cons] at h ⊢
    obtain ⟨c, hc, h⟩ := Option.bind_eq_some_iff.1 h
    rw [walkLog_cons, hc] at hlog
    obtain ⟨c', hc', hcc⟩ := hstep b b' x c hb hc fun s hs => hlog s (mem_append_left _ hs)
    rw [hc']
    exact ih h (fun s hs => hlog s (mem_append_right _ hs)) hcc

theorem scene_mem_log (k : Node) (W : List ValueId) (S : Store) : ⟨W, k, S, none⟩ ∈ k.log W S := by
  cases k
  simp [log]

/-- Two nodes of one kind read alike data, each from its own store. -/
structure Reads (L : Likeness) (n n' : Node) (S S' : Store) : Prop where
  kind : n'.head.kind = n.head.kind
  tys : n'.head.tys = n.head.tys
  args : n'.args.length = n.args.length
  ivs : n.head.kind = .forLoop → n'.head.ivs S' = n.head.ivs S
  inits : n.head.kind = .forLoop → Option.Rel (Forall₂ L.Data) (n.head.inits S) (n'.head.inits S')
  setup : n.head.kind = .generic → Option.Rel L.Setup (n.head.setup S) (n'.head.setup S')
  leaf : n.head.kind ≠ .forLoop → n.head.kind ≠ .generic →
    ∀ ty, Option.Rel L.Data (n.head.leaf ty S) (n'.head.leaf ty S')

namespace Reads

variable {n n' : Node} {P : Scene → Prop}

theorem of_rename (hhead : n'.head = n.head.rename ρ) (hargs : n'.args.length = n.args.length)
    (hS : L.Follows ρ n.head.operands S S') : Reads L n n' S S' where
  kind := by rw [hhead, Head.rename]
  tys := by rw [hhead, Head.rename]
  args := hargs
  ivs _ := by rw [hhead, Head.ivs_like hS]
  inits _ := hhead ▸ Head.inits_like hS
  setup _ := hhead ▸ Head.setup_like hS
  leaf _ _ ty := hhead ▸ Head.leaf_like hS ty

/-- **A node computes what another one does that reads alike data**, if its body runs as the other
body does wherever that one is run. -/
theorem retrace (h : Reads L n n' S S')
    (hbody : ∀ ds ds' ys, Forall₂ L.Data ds ds' →
      (∀ s ∈ logAll (n.args ++ V) n.nodes (S.assign n.args ds), P s) →
      runAll n.nodes (S.assign n.args ds) = some ys →
      ∃ ys', runAll n'.nodes (S'.assign n'.args ds') = some ys' ∧ Forall₂ L.Data ys ys')
    (hlog : ∀ s ∈ n.log V S, P s) (hT : n.exec S = some T) :
    ∃ ds ds', Forall₂ L.Data ds ds' ∧ T = S.assign n.head.results ds ∧
      n'.exec S' = some (S'.assign n'.head.results ds') := by
  by_cases hloop : n.head.kind = .forLoop
  · obtain ⟨ivs, inits, outs, hivs, hinits, hlen, houts, rfl⟩ := (exec_loop_iff hloop).1 hT
    obtain ⟨inits', hinits', hrel⟩ := rel_some_left (hinits ▸ h.inits hloop)
    rw [log_loop hloop hivs hinits] at hlog
    obtain ⟨outs', houts', hall⟩ :=
      foldlM_of_walkLog houts (fun s hs => hlog s (mem_cons_of_mem _ hs)) hrel
      fun c c' iv r hc hr hP => hbody _ _ _ (.cons (.index iv) hc) hP hr
    have hlen' : n'.args.length = inits'.length + 1 := h.args.trans (hrel.length_eq ▸ hlen)
    have hexec' : n'.exec S' = some (S'.assign n'.head.results outs') :=
      (exec_loop_iff (h.kind.trans hloop)).2
        ⟨ivs, inits', outs', (h.ivs hloop).trans hivs, hinits', hlen', houts', rfl⟩
    exact ⟨outs, outs', hall, rfl, hexec'⟩
  by_cases hgen : n.head.kind = .generic
  · obtain ⟨x, outs, hx, hlen, houts, rfl⟩ := (exec_generic_iff hgen).1 hT
    obtain ⟨x', hx', hrel⟩ := rel_some_left (hx ▸ h.setup hgen)
    rw [log_generic hgen hx] at hlog
    obtain ⟨outs', houts', hall⟩ :=
      foldlM_of_walkLog houts (fun s hs => hlog s (mem_cons_of_mem _ hs)) hrel.outs
      (k := Head.pointStep x' n'.args (runAll n'.nodes) S') fun ts us p ts' htu hts hP => by
        obtain ⟨es, hes, hts⟩ := Option.bind_eq_some_iff.1 hts
        obtain ⟨ys, hys, hts⟩ := Option.bind_eq_some_iff.1 hts
        rw [hes] at hP
        obtain ⟨es', hes', hfound⟩ :=
          rel_some_left (hes ▸ Head.elements_like (rel_append hrel.inputs htu) p x.syms x.maps)
        obtain ⟨ys', hys', hyields⟩ :=
          hbody _ (es'.map fun e => .scalar e.2) ys (forall₂_map_left_iff.2
          (forall₂_map_right_iff.2 (hfound.imp fun _ _ h => .scalar h.2)))
          (fun s hs => hP s (mem_cons_of_mem _ hs)) hys
        obtain ⟨us', hus', huse⟩ := rel_some_left (hts ▸ Head.store_like hyields htu _)
        refine ⟨us', ?_, huse⟩
        simp only [Head.pointStep, hrel.maps, hrel.syms, hes', hys', Head.Found.indices hfound,
          Option.bind_eq_bind, Option.bind_some, ← hrel.inputs.length_eq, hus']
    have hdata : Forall₂ L.Data (outs.map .tensor) (outs'.map .tensor) :=
      forall₂_map_left_iff.2 (forall₂_map_right_iff.2 (hall.imp fun _ _ h => .tensor h))
    have hexec' : n'.exec S' = some (S'.assign n'.head.results (outs'.map .tensor)) :=
      (exec_generic_iff (h.kind.trans hgen)).2
        ⟨x', outs', hx', h.args.trans (hrel.maps ▸ hlen), hrel.sides ▸ houts', rfl⟩
    exact ⟨_, _, hdata, rfl, hexec'⟩
  · obtain ⟨ty, d, hty, hd, rfl⟩ := (exec_leaf_iff hloop hgen).1 hT
    obtain ⟨d', hd', hrel⟩ := rel_some_left (hd ▸ h.leaf hloop hgen ty)
    have hexec' : n'.exec S' = some (S'.assign n'.head.results [d']) :=
      (exec_leaf_iff (h.kind ▸ hloop) (h.kind ▸ hgen)).2 ⟨ty, d', h.tys ▸ hty, hd', rfl⟩
    exact ⟨[d], [d'], .cons hrel .nil, rfl, hexec'⟩

/-- A node that reads the same data computes the same. -/
theorem retrace_same (h : Reads .same n n' S S')
    (hbody : ∀ ds ys, (∀ s ∈ logAll (n.args ++ V) n.nodes (S.assign n.args ds), P s) →
      runAll n.nodes (S.assign n.args ds) = some ys →
      runAll n'.nodes (S'.assign n'.args ds) = some ys)
    (hlog : ∀ s ∈ n.log V S, P s) (hT : n.exec S = some T) :
    ∃ ds, T = S.assign n.head.results ds ∧ n'.exec S' = some (S'.assign n'.head.results ds) := by
  obtain ⟨ds, ds', hds, rfl, hT'⟩ := h.retrace (fun ds ds' ys hds hP hrun => by
    obtain rfl := Likeness.all_same hds
    exact ⟨ys, hbody ds ys hP hrun, forall₂_same.2 fun d _ => .refl d⟩) hlog hT
  obtain rfl := Likeness.all_same hds
  exact ⟨ds, rfl, hT'⟩

end Reads

/-- A copy of the node computes what the node computes, from data that are alike. -/
def Copies (L : Likeness) (ρ : ValueId → ValueId) (n : Node) : Prop :=
  ∀ n' V S S' T, Maps ρ n n' → n.Scoped V → Separates ρ (defs [n]) (defs [n] ++ V) →
    L.Follows ρ V S S' → n.exec S = some T →
    ∃ T', n'.exec S' = some T' ∧ L.Follows ρ (n.head.results ++ V) T T'

theorem runAll_like_of (ih : ∀ n ∈ ns, Copies L ρ n) (hmap : MapsAll ρ ns ns')
    (hscope : ScopedAll V ns) (hsep : Separates ρ (defs ns) (defs ns ++ V))
    (hS : L.Follows ρ V S S') {ys : List Datum} (hrun : runAll ns S = some ys) :
    ∃ ys', runAll ns' S' = some ys' ∧ Forall₂ L.Data ys ys' := by
  induction ns generalizing ns' V S S' with
  | nil => simp [runAll_nil] at hrun
  | cons n ns tail =>
    obtain ⟨n', ns', rfl, hn, hns⟩ := mapsAll_cons.1 hmap
    obtain ⟨hscopeN, hscopeNs⟩ := scopedAll_cons.1 hscope
    have hhead := (maps_iff.1 hn).1
    have hkind : n'.head.kind = n.head.kind := by rw [hhead, Head.rename]
    cases hterm : n.head.kind.isTerminator with
    | true =>
      rw [runAll_terminator hterm] at hrun
      rw [runAll_terminator (hkind ▸ hterm), hhead]
      exact rel_some_left (hrun ▸ rel_operands fun v hv => hS v ((scoped_iff.1 hscopeN).1 v hv))
    | false =>
      rw [runAll_cons hterm] at hrun
      obtain ⟨T, hT, hrun⟩ := Option.bind_eq_some_iff.1 hrun
      obtain ⟨T', hT', hfollows⟩ := ih n mem_cons_self n' V S S' T hn hscopeN (hsep.first) hS hT
      rw [runAll_cons (hkind ▸ hterm), hT']
      exact tail (fun m hm => ih m (mem_cons_of_mem _ hm)) hns hscopeNs hsep.rest hfollows hrun

/-- **A copy computes under the new names what its source computes under the old ones.** -/
theorem exec_like (n : Node) : Copies L ρ n := by
  induction n using Node.induct with
  | mk i h b as ns ih =>
    intro n' V S S' T hmap hscope hsep hS hT
    obtain ⟨hhead, -, hargs, hnodes⟩ := maps_iff.1 hmap
    obtain ⟨hoperands, hscopeNs⟩ := scoped_iff.1 hscope
    simp only [args_mk] at hhead hargs hnodes hoperands hscopeNs
    rw [defs_single] at hsep
    simp only [args_mk, nodes_mk] at hsep ⊢
    have hreads : Reads L (mk i h b as ns) n' S S' :=
      .of_rename hhead (by rw [hargs, args_mk, length_map]) (hS.mono hoperands)
    obtain ⟨ds, ds', hds, rfl, hT'⟩ := hreads.retrace (V := V) (P := fun _ => True)
      (fun ds ds' ys hds _ hrun => by
        rw [hargs]
        exact runAll_like_of ih hnodes hscopeNs (hsep.mono (by grind) (by grind))
          (hS.assign (hsep.mono (by grind) (by grind)) hds) hrun) (fun _ _ => trivial) hT
    rw [hhead] at hT'
    exact ⟨_, hT', hS.assign (hsep.mono (by grind) (by grind)) hds⟩

section

variable (hmap : MapsAll ρ ns ns') (hscope : ScopedAll V ns)
  (hsep : Separates ρ (defs ns) (defs ns ++ V)) (hS : L.Follows ρ V S S')

include hmap hscope hsep hS

theorem runAll_like {ys : List Datum} (hrun : runAll ns S = some ys) :
    ∃ ys', runAll ns' S' = some ys' ∧ Forall₂ L.Data ys ys' :=
  runAll_like_of (fun n _ => exec_like n) hmap hscope hsep hS hrun

theorem execAll_like (hT : execAll ns S = some T) :
    ∃ T', execAll ns' S' = some T' ∧ L.Follows ρ (outs ns ++ V) T T' := by
  induction ns generalizing ns' V S S' with
  | nil =>
    obtain rfl := mapsAll_nil.1 hmap
    exact ⟨S', rfl, Option.some.inj hT ▸ hS⟩
  | cons n ns ih =>
    obtain ⟨n', ns', rfl, hn, hns⟩ := mapsAll_cons.1 hmap
    obtain ⟨hscopeN, hscopeNs⟩ := scopedAll_cons.1 hscope
    obtain ⟨U, hU, hT⟩ := Option.bind_eq_some_iff.1 hT
    obtain ⟨U', hU', hfollows⟩ := exec_like n n' V S S' U hn hscopeN hsep.first hS hU
    obtain ⟨T', hT', hend⟩ := ih hns hscopeNs hsep.rest hfollows hT
    refine ⟨T', by rw [execAll_cons, hU', Option.bind_some, hT'], hend.mono fun v hv => ?_⟩
    simp only [outs, flatMap_cons, mem_append] at hv ⊢
    tauto

end

/-- Copies compute the same from the same data. -/
theorem execAll_maps (hmap : MapsAll ρ ns ns') (hscope : ScopedAll V ns)
    (hsep : Separates ρ (defs ns) (defs ns ++ V)) (hS : Follows ρ V S S')
    (hT : execAll ns S = some T) :
    ∃ T', execAll ns' S' = some T' ∧ Follows ρ (outs ns ++ V) T T' :=
  (execAll_like hmap hscope hsep hS.same hT).imp fun _ => And.imp_right .of_same

/-! ## 4. Properties of nodes that only look at types -/

/-- The values that a node mentions: its operands, results and arguments, and what its body
yields. -/
def names (n : Node) : List ValueId :=
  n.head.operands ++ n.head.results ++ n.args ++ n.nodes.flatMap fun m => m.head.operands

/-- A node that is another one with its values renamed, as far as the node itself and the end of its
body go. -/
structure Like (ρ : ValueId → ValueId) (n n' : Node) : Prop where
  head : n'.head = n.head.rename ρ
  args : n'.args = n.args.map ρ
  body : n'.body.isSome = n.body.isSome
  ends : ∀ k : Kind, k.isTerminator = true → Ends k n.nodes → Ends k n'.nodes
  yields : ∀ m' ∈ n'.nodes, m'.head.kind.isTerminator = true → ∃ m ∈ n.nodes,
    m.head.kind.isTerminator = true ∧ m'.head.operands = m.head.operands.map ρ

/-- A property of the nodes of a graph that is kept under renaming, as long as types are kept. -/
def Natural (P : Graph → Node → Prop) : Prop :=
  ∀ {ρ : ValueId → ValueId} {g g' : Graph} {n n' : Node}, Like ρ n n' →
    (∀ v ∈ n.names, g'.ty (ρ v) = g.ty v) → P g n → P g' n'

theorem like_refl (n : Node) : Like (fun v => v) n n where
  head := by simp [Head.rename]
  args := by simp
  body := rfl
  ends _ _ h := h
  yields m hm ht := ⟨m, hm, ht, by simp⟩

theorem Maps.kind (h : Maps ρ n n') : n'.head.kind = n.head.kind := by
  rw [(maps_iff.1 h).1, Head.rename]

theorem MapsAll.ends (h : MapsAll ρ ns ns') {k : Kind} (hends : Ends k ns) : Ends k ns' := by
  obtain ⟨init, last, rfl, hlast, hinit⟩ := hends
  obtain ⟨init', lasts, rfl, hi, hlasts⟩ := mapsAll_append.1 h
  obtain ⟨last', rest, rfl, hmapped, hrest⟩ := mapsAll_cons.1 hlasts
  obtain rfl := mapsAll_nil.1 hrest
  refine ⟨init', last', rfl, hmapped.kind.trans hlast, fun m' hm' => ?_⟩
  obtain ⟨m, hm, hmm⟩ := hi.exists_of_mem hm'
  rw [hmm.kind]
  exact hinit m hm

theorem Maps.like (h : Maps ρ n n') : Like ρ n n' := by
  obtain ⟨hhead, hbody, hargs, hnodes⟩ := maps_iff.1 h
  refine ⟨hhead, hargs, hbody, fun k _ => hnodes.ends, ?_⟩
  intro m' hm' hterm
  obtain ⟨m, hm, hmm⟩ := hnodes.exists_of_mem hm'
  refine ⟨m, hm, hmm.kind ▸ hterm, ?_⟩
  rw [(maps_iff.1 hmm).1, Head.rename]

section Rules

variable {g g' : Graph} {n n' : Node}

section

variable (h : Like ρ n n')

include h

theorem Like.kind : n'.head.kind = n.head.kind := by rw [h.head, Head.rename]

theorem Like.attr : n'.head.attr = n.head.attr := by rw [h.head, Head.rename]

theorem Like.operands : n'.head.operands = n.head.operands.map ρ := by
  rw [h.head, Head.rename]

theorem Like.results : n'.head.results = n.head.results.map ρ := by
  rw [h.head, Head.rename]

theorem Like.structured : n'.structured = n.structured := by
  simp [Node.structured, h.kind]

end

theorem map_ty_map {vs : List ValueId} (h : ∀ v ∈ vs, g'.ty (ρ v) = g.ty v) :
    (vs.map ρ).map g'.ty = vs.map g.ty := by
  rw [map_map]
  exact map_congr_left h

theorem Like.counts (h : Like ρ n n') (hn : Counts n) : Counts n' := by
  have hargs : n'.args.length = n.args.length := by rw [h.args, length_map]
  have hoperands : n'.head.operands.length = n.head.operands.length := by
    rw [h.operands, length_map]
  have hresults : n'.head.results.length = n.head.results.length := by
    rw [h.results, length_map]
  constructor
  all_goals simp only [h.structured, h.kind, h.attr, hargs, hoperands, hresults]
  · intro hs
    obtain ⟨b, hb⟩ := hn.hasBody hs
    have := h.body
    rw [hb] at this
    exact Option.isSome_iff_exists.1 this
  · exact hn.loopOperands
  · exact hn.loopResults
  · intro hs m' hm' hterm
    obtain ⟨m, hm, hterm, hops⟩ := h.yields m' hm' hterm
    rw [hops, length_map]
    exact hn.yields hs m hm hterm
  · exact hn.maps
  · exact hn.args

/-- What verification says about a node does not depend on the names of values. -/
theorem natural_rules : Natural Rules := by
  intro ρ g g' n n' h hty hn
  simp only [names, mem_append, mem_flatMap] at hty
  have hoperand {v : ValueId} (hv : v ∈ n.head.operands) := hty v (.inl (.inl (.inl hv)))
  have hresults : n'.head.results.map g'.ty = n.head.results.map g.ty := by
    rw [h.results]
    exact map_ty_map fun v hv => hty v (.inl (.inl (.inr hv)))
  have hlength : n'.head.results.length = n.head.results.length := by
    rw [h.results, length_map]
  have hat {vs : List ValueId} {k : Nat} {v : ValueId} (hv : (vs.map ρ)[k]? = some v) :
      ∃ u, vs[k]? = some u ∧ ρ u = v := by simpa using hv
  refine ⟨h.counts hn.counts, ?_, ?_, ?_, ?_, ?_, ?_, ?_, ?_, ?_, ?_, ?_, ?_, ?_⟩
  all_goals simp only [h.structured, h.kind, h.attr, h.operands, h.args, hresults, hlength,
    length_map]
  · exact fun hk => h.ends _ rfl (hn.loopEnd hk)
  · exact fun hk => h.ends _ rfl (hn.genericEnd hk)
  · intro hs
    have := h.body
    rw [hn.leafBody hs] at this
    simpa using this
  · intro hk k v hlt hv
    obtain ⟨u, hu, rfl⟩ := hat hv
    rw [hoperand (mem_of_getElem? hu)]
    exact hn.loopBounds hk k u hlt hu
  · intro hk v hv
    obtain ⟨u, hu, rfl⟩ := hat hv
    rw [hty u (.inl (.inr (mem_of_getElem? hu)))]
    exact hn.loopVariable hk u hu
  · intro hk
    rw [← hn.loopInits hk, ← map_drop]
    exact map_ty_map fun v hv => hoperand (mem_of_mem_drop hv)
  · intro hk
    rw [← hn.loopArgs hk, ← map_drop]
    exact map_ty_map fun v hv => hty v (.inl (.inr (mem_of_mem_drop hv)))
  · intro hk m' hm' hterm
    obtain ⟨m, hm, hterm, hops⟩ := h.yields m' hm' hterm
    rw [← hn.loopYields hk m hm hterm, hops]
    exact map_ty_map fun v hv => hty v (.inr ⟨m, hm, hv⟩)
  · exact hn.inputs
  · intro a hk ha
    rw [← hn.outputs a hk ha, ← map_take, ← map_drop]
    exact map_ty_map fun v hv => hoperand (mem_of_mem_take (mem_of_mem_drop hv))
  · intro a hk ha k m v hm hv
    obtain ⟨u, hu, rfl⟩ := hat hv
    rw [hoperand (mem_of_getElem? hu)]
    exact hn.maps a hk ha k m u hm hu
  · intro a hk ha
    rw [← hn.symbols a hk ha, ← map_drop]
    simp [Word.length]
  · exact hn.hasAttr

end Rules

end Node

end ConvNest.Program
