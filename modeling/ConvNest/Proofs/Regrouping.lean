/-
# Axes taken together and split again

Groups of consecutive axes are taken together and split again without moving an element: the
positions of an index and of the index that has one number for each group are the same
(`Tensor.rowMajor_linearised`), whatever the groups, empty ones included.

The sizes of the groups are computed three times, from the declared dimensions, to check that they
can be split again, and from the dimensions at run time.  On static shapes all three agree.  So what
has been taken together has the declared shape, and it can be split to give what was there before
(`collapse_expand`).  The number of elements has to be a word: a product that wraps around to zero
is the size of no axis (`collapse_wraps`).
-/
import ConvNest.Program.Rewriter
import ConvNest.Proofs.Emits
import ConvNest.Proofs.Environment
import ConvNest.Proofs.SaneCheck
import ConvNest.Proofs.SliceElements
import Mathlib.Algebra.BigOperators.Group.List.Lemmas
import Mathlib.Data.List.SplitLengths

namespace ConvNest

open List

/-! ## 1. Positions -/

namespace Tensor

variable {ds es p q : List Int64} {dss pss : List (List Int64)}

theorem volume_append (ds es : List Int64) : volume (ds ++ es) = volume ds * volume es := by
  simp [volume]

theorem rowMajor_append (h : Inside ds p) (es q : List Int64) :
    rowMajor (ds ++ es) (p ++ q) = rowMajor ds p * volume es + rowMajor es q := by
  induction h with
  | nil => simp [rowMajor]
  | cons _ _ ih =>
    simp only [cons_append, rowMajor, volume_append, ih]
    ring

/-- The index that has the position in each group. -/
def linearised (dss pss : List (List Int64)) : List Int64 :=
  zipWith (fun ds p => Int64.ofInt (rowMajor ds p)) dss pss

/-- The sizes of all groups are words. -/
theorem product_group (hpos : ∀ d ∈ dss.flatten, 0 < d.toInt)
    (hfits : volume dss.flatten < 2 ^ 63) :
    ∀ ds ∈ dss, (Shape.product ds).toInt = volume ds := by
  intro ds hds
  have hdvd : volume ds ∣ volume dss.flatten := ((sublist_flatten_of_mem hds).map _).prod_dvd_prod
  have hle := Int.le_of_dvd (volume_pos hpos) hdvd
  exact product_toInt (fun d hd => hpos d (mem_flatten_of_mem hds hd)) (by omega)

section

variable (h : ∀ ds ∈ dss, (Shape.product ds).toInt = volume ds)

include h

theorem volume_products : volume (dss.map Shape.product) = volume dss.flatten := by
  rw [volume, map_map, map_congr_left (g := fun ds => (ds.map Int64.toInt).prod) h, volume,
    map_flatten, prod_flatten, map_map]
  rfl

/-- **An index in groups has the position of the index.** -/
theorem rowMajor_linearised (hin : Forall₂ (fun p ds => Inside ds p) pss dss) :
    Inside (dss.map Shape.product) (linearised dss pss) ∧
      rowMajor (dss.map Shape.product) (linearised dss pss) = rowMajor dss.flatten pss.flatten := by
  induction hin with
  | nil => exact ⟨.nil, rfl⟩
  | @cons p ds pss dss hp _ ih =>
    obtain ⟨hds, hdss⟩ := forall_mem_cons.1 h
    obtain ⟨hin, hrow⟩ := ih hdss
    have hbounds := rowMajor_bounds hp
    have hlt := (Shape.product ds).toInt_lt
    have hword : (Int64.ofInt (rowMajor ds p)).toInt = rowMajor ds p :=
      Int64.toInt_ofInt_of_le (by omega) (by omega)
    refine ⟨.cons (by rw [hword, hds]; exact hbounds) hin, ?_⟩
    rw [flatten_cons, flatten_cons, rowMajor_append hp, ← volume_products hdss, ← hrow, ← hword]
    rfl

end

end Tensor

/-! ## 2. Groups -/

/-- A list cut as the groups are. -/
def cut {α : Type} (groups : List (List Int64)) (xs : List α) : List (List α) :=
  (groups.map length).splitLengths xs

section Groups

variable {α β : Type} {groups : List (List Int64)} {xs : List α} {ds ns : List Int64}

theorem forall₂_cut {R : α → β → Prop} {ys : List β} (h : Forall₂ R xs ys) :
    Forall₂ (Forall₂ R) (cut groups xs) (cut groups ys) := by
  unfold cut
  induction groups generalizing xs ys with
  | nil => exact .nil
  | cons g gs ih =>
    simp only [map_cons, splitLengths_cons]
    exact .cons (forall₂_take _ h) (ih (forall₂_drop _ h))

theorem cut_flatten (groups : List (List Int64)) : cut groups groups.flatten = groups := by
  unfold cut
  induction groups with
  | nil => rfl
  | cons g gs ih => simp [ih]

theorem flatten_cut (h : xs.length = groups.flatten.length) : (cut groups xs).flatten = xs :=
  flatten_splitLengths _ _ (by rw [h, length_flatten])

variable (hgroups : Program.Edit.checkGroups groups ds.length = .ok ())

include hgroups

theorem flatten_groups : groups.flatten = (range ds.length).map Int64.ofNat := by
  unfold Program.Edit.checkGroups at hgroups
  dsimp only at hgroups
  split at hgroups
  · cases hgroups
  next horder =>
  split at hgroups
  · cases hgroups
  next hlen =>
  rw [not_not] at horder hlen
  rw [horder, hlen]

/-- The dimensions in groups. -/
theorem groups_pick (hrank : ds.length < 2 ^ 63) :
    Forall₂ (fun axes ms => axes.mapM (Affine.pick ds) = .ok ms) groups (cut groups ds) := by
  have hpick : Forall₂ (fun axis d => Affine.pick ds axis = .ok d) groups.flatten ds := by
    rw [flatten_groups hgroups, forall₂_map_left_iff, forall₂_iff_get]
    refine ⟨length_range, fun k hk hlt => pick_eq_ok.2 ?_⟩
    simp only [get_eq_getElem, getElem_range]
    rw [Int64.toInt_ofNat_of_lt (by omega)]
    exact ⟨by omega, by simp⟩
  have hcut : Forall₂ _ (cut groups groups.flatten) (cut groups ds) := forall₂_cut hpick
  rw [cut_flatten] at hcut
  exact hcut.imp fun _ _ => except_mapM_eq_ok.2

/-- The sizes of the groups. -/
theorem groups_size (hrank : ds.length < 2 ^ 63) :
    groups.mapM (Program.Edit.groupSize ds) = .ok ((cut groups ds).map Shape.product) := by
  rw [except_mapM_eq_ok, forall₂_map_right_iff]
  exact (groups_pick hgroups hrank).imp fun axes ms hms =>
    show Program.Edit.groupSize ds axes = _ from except_bind_ok ms hms rfl

end Groups

/-! ## 3. Taking together and splitting -/

theorem Tensor.reshape_ofSizes {t : Tensor} {ns : List Int64} (h : Shape.product ns = t.size) :
    t.reshape (.ofSizes t.elem ns) = .ok { t with dims := ns } := by
  have hsize : (Shape.ofSizes t.elem ns).size = .ok t.size := by
    rw [Shape.size, if_pos (Shape.isStatic_ofSizes _ _), Shape.words_ofSizes, h]
  rw [Tensor.reshape, hsize]
  show (if t.size ≠ t.size ∨ t.elem ≠ t.elem then _ else _) = _
  rw [if_neg (by simp), Shape.words_ofSizes]
  rfl

namespace Program

open Edit Node

variable {e : Editor} {V : List ValueId} {b : BlockId} {pre post : List OpId} {src v : ValueId}
  {t ty : Ty} {groups : List (List Int64)}

theorem collapse_emits (hs : Start V b pre post e) (hsrc : src ∈ V) (ht : e.graph.ty src = t)
    (hgroups : checkGroups groups t.shape.rank = .ok ())
    (hty : collapsedTy t.shape groups = .ok ty) :
    Emits V b pre post e (collapse src groups) fun v e' ns =>
      v = nextValue e.graph ∧ ns = [valueNode e.graph .collapse [src] ty (.reshape groups)] ∧
        e'.graph.ty v = ty := by
  exact Emits.tyOf ht (Emits.ask hgroups (Emits.ask hty
    (createValue_emits hs (by simp) (by simp) (by simpa using hsrc))))

theorem expand_emits (hs : Start V b pre post e) (hsrc : src ∈ V)
    (ht : e.graph.ty src = t) {s : Shape} (hgroups : checkGroups groups s.rank = .ok ())
    (hlen : groups.length = t.shape.rank) (haxes : checkExpandedAxes t groups s = .ok ())
    (hs' : s.ok = true) :
    Emits V b pre post e (expand src groups s) fun v e' ns =>
      v = nextValue e.graph ∧ ns = [valueNode e.graph .expand [src] (.tensor s) (.reshape groups)] ∧
        e'.graph.ty v = .tensor s := by
  refine Emits.tyOf ht (Emits.ask hgroups (Emits.demand (by simpa using hlen) (Emits.ask haxes
    (Emits.ask (a := .tensor s) (by simp [Ty.ofShape, hs'])
      (createValue_emits hs (by simp) (by simp) (by simpa using hsrc))))))

theorem groupDim_static (ds axes : List Int64) (acc : Int64) : groupDim (ds.map .static) acc axes =
    (axes.mapM (Affine.pick ds)).map (·.foldl (· * ·) acc) := by
  induction axes generalizing acc with
  | nil => rfl
  | cons axis axes ih =>
    have hpick : Affine.pick (ds.map Dim.static) axis = (Affine.pick ds axis).map .static := by
      unfold Affine.pick Word.at?
      rw [getElem?_map]
      by_cases hneg : axis < 0
      · simp [hneg, Except.map]
      · cases ds[axis.toInt.toNat]? <;> simp [hneg, Except.map]
    rw [groupDim, mapM_cons, hpick]
    cases Affine.pick ds axis with
    | error f => rfl
    | ok d =>
      show groupDim _ (acc * d) axes = _
      rw [ih]
      cases axes.mapM (Affine.pick ds) <;> rfl

section Static

variable {elem : Element} {ds ns : List Int64} (h : groups.mapM (groupSize ds) = .ok ns)

include h

/-- The declared type of what is taken together. -/
theorem collapsedTy_static (hpos : ∀ n ∈ ns, 0 < n.toInt) (hvalid : elem ≠ .invalid) :
    collapsedTy (.ofSizes elem ds) groups = .ok (.tensor (.ofSizes elem ns)) := by
  have hdims : groups.mapM (groupDim (ds.map .static) 1) = .ok ns := by
    rw [← h]
    congr 1
    funext axes
    rw [groupDim_static, groupSize]
    cases axes.mapM (Affine.pick ds) <;> rfl
  refine except_bind_ok ns hdims (except_bind_ok _ (Tensor.make_ofSizes hpos) ?_)
  simp [Ty.ofShape, Shape.ok, hvalid]

/-- What is taken together can be split again. -/
theorem checkExpandedAxes_static :
    checkExpandedAxes (.tensor (.ofSizes elem ns)) groups (.ofSizes elem ds) = .ok () := by
  refine except_forM_eq_ok.2 fun x hx => ?_
  obtain ⟨⟨axes, d⟩, k⟩ := x
  have hmem : (axes, d) ∈ groups.zip (ns.map Dim.static) := fst_mem_of_mem_zipIdx hx
  rw [zip_map_right] at hmem
  obtain ⟨⟨axes, n⟩, hzip, heq⟩ := mem_map.1 hmem
  cases heq
  have hsize := (forall₂_iff_zip.1 (except_mapM_eq_ok.1 h)).2 hzip
  rw [← Shape.words_ofSizes elem ds] at hsize
  exact except_bind_ok n hsize (if_pos rfl)

variable {S : Store} {u : Tensor} (hu : u.dims = ds)

include hu

/-- Taking together at run time. -/
theorem collapse_leaf (hpos : ∀ n ∈ ns, 0 < n.toInt) (hsize : Shape.product ns = u.size)
    (hsrc : S.tensor src = some u) (results : List ValueId) (tys : List Ty) :
    Head.collapse ⟨.collapse, [src], results, tys, .reshape groups⟩ S =
      some (.tensor { u with dims := ns }) := by
  subst hu
  have hsizes : Eval.groupSizes u.dims groups = .ok ns := h
  simp only [Head.collapse, getElem?_cons_zero, Option.bind_eq_bind, Option.bind_some, hsrc, hsizes,
    toOption_ok, Tensor.make_ofSizes hpos, Tensor.reshape_ofSizes hsize]
  rfl

omit h hu in
/-- Splitting at run time. -/
theorem expand_leaf (hsize : Shape.product ds = u.size) (hsrc : S.tensor src = some u)
    (results : List ValueId) (tys : List Ty) (attr : Attr) :
    Head.expand ⟨.expand, [src], results, tys, attr⟩ (.tensor (.ofSizes u.elem ds)) S =
      some (.tensor { u with dims := ds }) := by
  simp only [Head.expand, getElem?_cons_zero, Option.bind_eq_bind, Option.bind_some, hsrc, Ty.shape,
    Shape.checkStatic_ofSizes,
    Tensor.reshape_ofSizes hsize]
  rfl

end Static

/-- A new operation without a body is evaluated. -/
theorem leaf_run {g : Graph} {kind : Kind} {operands : List ValueId} {attr : Attr} {E : Env}
    {d : Datum} {g' : Graph} (hn : Here g (valueNode g' kind operands ty attr))
    (hl : kind ≠ .forLoop) (hg : kind ≠ .generic)
    (h : (valueNode g' kind operands ty attr).head.leaf ty (fun v => E[v.idx]?) = some d)
    (block : BlockId → Eval (List Datum)) :
    Eval.op g block (valueNode g' kind operands ty attr).id E = .ok ()
      (E.insert (nextValue g').idx d) := by
  rw [← outcome_eq_some, outcome_leaf hn (fun _ _ => rfl) hl hg]
  show ((some ty).bind fun ty => _).bind _ = _
  rw [Option.bind_some, h]
  rfl

/-- **What is taken together has the declared shape and its elements where they were, and it can be
split again.**  `collapse` and `expand` keep the elements and change the dimensions only.  A group
of axes has as many indices as the axis that it becomes, in the same order, so the position of an
index does not change.  The number of elements is a word (`Proper`), and so are the products of the
groups. -/
theorem collapse_expand {t : Tensor} (hs : Start V b pre post e) (hsrc : src ∈ V)
    (hty : e.graph.ty src = .tensor t.shape) (ht : t.Proper) (hvalid : t.elem ≠ .invalid)
    (hrank : t.dims.length < 2 ^ 63) (hgroups : checkGroups groups t.dims.length = .ok ()) :
    ∃ v e₁ w e₂ u, collapse src groups e = .ok v e₁ ∧ e₁.graph.ty v = .tensor u.shape ∧
      expand v groups t.shape e₁ = .ok w e₂ ∧
      (∀ p, Tensor.Inside t.dims p →
        u.scalarAt (Tensor.linearised (cut groups t.dims) (cut groups p)) = t.scalarAt p) ∧
      ∃ i j, (e₂.graph.op i).results = [v] ∧ (e₂.graph.op j).results = [w] ∧
        ∀ block (E : Env), E[src.idx]? = some (.tensor t) →
          Eval.op e₂.graph block i E = .ok () (E.insert v.idx (.tensor u)) ∧
          Eval.op e₂.graph block j (E.insert v.idx (.tensor u)) =
            .ok () ((E.insert v.idx (.tensor u)).insert w.idx (.tensor t)) := by
  have hlen : t.dims.length = groups.flatten.length := by simp [flatten_groups hgroups]
  have hflat : (cut groups t.dims).flatten = t.dims := flatten_cut hlen
  have hprod := Tensor.product_group (hflat.symm ▸ ht.pos) (hflat.symm ▸ ht.fits)
  have hsizes := groups_size hgroups hrank
  have hpos : ∀ n ∈ (cut groups t.dims).map Shape.product, 0 < n.toInt := by
    refine forall_mem_map.2 fun ds hds => ?_
    rw [hprod ds hds]
    exact Tensor.volume_pos fun d hd => ht.pos d (hflat ▸ mem_flatten_of_mem hds hd)
  have hvolume := Tensor.volume_products hprod
  rw [hflat] at hvolume
  have hsize : Shape.product ((cut groups t.dims).map Shape.product) = t.size := by
    rw [← Int64.toInt_inj, Tensor.product_toInt hpos (hvolume ▸ ht.fits), Tensor.size,
      Tensor.product_toInt ht.pos ht.fits, hvolume]
  obtain ⟨v, e₁, ns₁, hcollapse, h₁, rfl, rfl, hv⟩ := collapse_emits hs hsrc hty
    (by simpa [Ty.shape, Tensor.shape] using hgroups) (collapsedTy_static hsizes hpos hvalid)
  obtain ⟨w, e₂, ns₂, hexpand, h₂, rfl, rfl, -⟩ := expand_emits h₁.next (by simp [outs]) hv
    (s := t.shape) (by simpa [Tensor.shape] using hgroups) (by simp [cut, Ty.shape])
    (checkExpandedAxes_static hsizes)
    (by simpa [Tensor.shape, Shape.ok, Shape.ofSizes] using hvalid)
  have hheld := (h₁.trans natural_rules hs h₂).held
  have hfirst := hheld.here mem_cons_self
  have hsecond := hheld.here (mem_append_right _ mem_cons_self)
  refine ⟨_, e₁, _, e₂, { t with dims := (cut groups t.dims).map Shape.product }, hcollapse, hv,
    hexpand, fun p hp => ?_, _, _, hfirst.results, hsecond.results,
    fun block E hE => ⟨?_, ?_⟩⟩
  · obtain ⟨hin, hrow⟩ := Tensor.rowMajor_linearised hprod (forall₂_cut hp)
    rw [hflat, flatten_cut (hp.length_eq.trans hlen)] at hrow
    have hsame := (Tensor.flatIndex_inside (t := { t with dims := _ }) (hvolume ▸ ht.fits) hin).1
    simp only [hrow] at hsame
    rw [Tensor.scalarAt, hsame, Tensor.scalarAt, (Tensor.flatIndex_inside ht.fits hp).1]
    rfl
  · refine leaf_run hfirst (by simp) (by simp) ?_ block
    exact collapse_leaf hsizes rfl hpos hsize (by simp [Store.tensor, hE, Datum.tensor?]) _ _
  · refine leaf_run hsecond (by simp) (by simp) ?_ block
    refine (expand_leaf (u := { t with dims := _ }) hsize.symm ?_ _ _ _).trans rfl
    simp [Store.tensor, Datum.tensor?]

/-- An empty function of a tensor. -/
def grid : Editor :=
  Edit.after (do
    let f ← newFunc "grid" [.tensor (.ofSizes .int32 [2, 2, 3])]
    setPoint (pointAtEnd (← bodyOf f))) .empty

/-- The first two axes are taken together, and the last one gets another one before it. -/
theorem collapse_expand_grid : ∃ v e₁ w e₂ u, collapse ⟨0⟩ [[0, 1], [], [2]] grid = .ok v e₁ ∧
    e₁.graph.ty v = .tensor u.shape ∧ expand v [[0, 1], [], [2]] (.ofSizes .int32 [2, 2, 3]) e₁ =
      .ok w e₂ ∧ (u : Tensor).scalarAt [3, 0, 2] = .ok ⟨.int32, 0, 12⟩ := by
  have hstart : Start [⟨0⟩] ⟨0⟩ [] [] grid :=
    ⟨by decide +kernel, ⟨by decide +kernel, by decide +kernel, by decide +kernel, fun _ => rfl,
      fun o ho => absurd ho (by revert o; decide +kernel)⟩, by decide +kernel⟩
  have hwrapped : (Elements.ints #[1, 2, 3, 4, 5, 6, 7, 8, 9, 10, 11, 12]).words.all
      (fun n => Element.int32.wrapInt n == n) = true := by decide
  obtain ⟨v, e₁, w, e₂, u, hcollapse, hv, hexpand, hread, -⟩ := collapse_expand
    (t := ⟨.int32, [2, 2, 3], .ints #[1, 2, 3, 4, 5, 6, 7, 8, 9, 10, 11, 12]⟩) hstart
    mem_cons_self (by decide +kernel) ⟨by simp, rfl, by decide, rfl, by simpa using hwrapped⟩
      (by decide) (by decide)
    (show checkGroups [[0, 1], [], [2]] 3 = .ok () from rfl)
  exact ⟨v, e₁, w, e₂, u, hcollapse, hv, hexpand,
    hread [1, 1, 2] (.cons (by decide) (.cons (by decide) (.cons (by decide) .nil)))⟩

/-- Both axes have a size that is a word, but not their product, which wraps around to zero: the
groups are accepted, and the type of what is taken together is not. -/
theorem collapse_wraps :
    let vast := Edit.after (do
      let f ← newFunc "vast" [.tensor (.ofSizes .int32 [4294967296, 4294967296])]
      setPoint (pointAtEnd (← bodyOf f))) .empty
    checkGroups [[0, 1]] 2 = .ok () ∧ Shape.product [4294967296, 4294967296] = 0 ∧
      ∃ f e, collapse ⟨0⟩ [[0, 1]] vast = .error f e ∧
        f.message =
          "shapes.Make((Int32)[0]): cannot create a shape with an axis with dimension <= 0" :=
  ⟨rfl, rfl, _, _, rfl, by decide +kernel⟩

end Program

end ConvNest
