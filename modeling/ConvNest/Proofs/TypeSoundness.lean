/-
# Evaluation is sound for types

Along every run of a verified function whose operations have been created by the builder functions,
on well-formed tensors, every value has data of its declared type (`run_typed`).  For a tensor this
says that its shape is compatible with the declared one, so that declared static dimensions are
true; and that it is well formed.

Each typing rule of operations (`WellTyped`) is matched by one lemma: what the operation computes
from admitted data is admitted by the type of its result.
-/
import ConvNest.Proofs.Definedness
import ConvNest.Proofs.Forms
import ConvNest.Proofs.TypedData

namespace ConvNest.Program

open Node List

/-! ## 1. Lists of dimensions -/

section

variable {α : Type} {xs : List α} {i : Int64} {x : α} {β : Type} {ys : List β} {ns : List Int64}
  {vs left : List ValueId} {S : Store} {os zs : List Index} {as bs : List Int64}

/-- Items at the same position of lists that are related item by item. -/
theorem pick_rel {R : α → β → Prop} {y : β} (h : Forall₂ R xs ys) (hx : Affine.pick xs i = .ok x)
    (hy : Affine.pick ys i = .ok y) : R x y := by
  obtain ⟨hlt, rfl⟩ := List.getElem?_eq_some_iff.1 (pick_eq_ok.1 hx).2
  obtain ⟨hlt', rfl⟩ := List.getElem?_eq_some_iff.1 (pick_eq_ok.1 hy).2
  exact (forall₂_iff_get.1 h).2 _ hlt hlt'

/-- The declared product of a group of axes is the one at run time, if it is known. -/
theorem groupDim_allows {ds : List Dim} (h : Forall₂ Dim.Allows ds ns) {axes : List Int64}
    {acc w : Int64} {ms : List Int64} (hw : Edit.groupDim ds acc axes = .ok w)
    (hms : axes.mapM (Affine.pick ns) = .ok ms) :
    w = Dim.dynamicWord ∨ w = ms.foldl (· * ·) acc := by
  induction axes generalizing acc ms with
  | nil =>
    obtain rfl := except_pure_eq_ok.1 hms
    exact .inr (Except.ok.inj hw).symm
  | cons axis axes ih =>
    rw [mapM_cons] at hms
    obtain ⟨m, hm, hms⟩ := except_bind_eq_ok.1 hms
    obtain ⟨rest, hrest, hms⟩ := except_bind_eq_ok.1 hms
    obtain rfl := except_pure_eq_ok.1 hms
    obtain ⟨d, hd, hw⟩ := except_bind_eq_ok.1 hw
    have hallows := pick_rel h hd hm
    cases d with
    | dynamic => exact .inl (except_pure_eq_ok.1 hw).symm
    | static n =>
      obtain rfl : n = m := by simpa [Dim.Allows] using hallows
      show w = Dim.dynamicWord ∨ w = rest.foldl (· * ·) (acc * n)
      exact ih hw hrest

/-- What is related to the same items is related. -/
theorem forall₂_of_common {γ : Type} {P : α → β → Prop} {Q : α → γ → Prop} {R : β → γ → Prop}
    {zs : List γ} (hP : Forall₂ P xs ys) (hQ : Forall₂ Q xs zs)
    (h : ∀ x y z, P x y → Q x z → R y z) : Forall₂ R ys zs := by
  induction hP generalizing zs with
  | nil =>
    cases hQ
    exact .nil
  | cons hxy _ ih =>
    cases hQ with
    | cons hxz hQ => exact .cons (h _ _ _ hxy hxz) (ih hQ)

/-- Entries of a slice that are not marked are known. -/
theorem resolveMarks_static (h : Graph.resolveMarks ns vs = .ok (zs, left)) :
    Forall₂ (fun n z => n ≠ SliceAttr.dynamicMark → z = .static n) ns zs := by
  induction ns generalizing vs zs left with
  | nil =>
    obtain ⟨rfl, -⟩ := Prod.mk.inj (Except.ok.inj h)
    exact .nil
  | cons n ns ih =>
    unfold Graph.resolveMarks at h
    split at h
    · next hn =>
      cases vs with
      | nil => cases h
      | cons v vs =>
        obtain ⟨⟨rest, left'⟩, hrest, h⟩ := except_bind_eq_ok.1 h
        obtain ⟨rfl, -⟩ := Prod.mk.inj (except_pure_eq_ok.1 h)
        exact .cons (fun hne => absurd hn hne) (ih hrest)
    · obtain ⟨⟨rest, left'⟩, hrest, h⟩ := except_bind_eq_ok.1 h
      obtain ⟨rfl, -⟩ := Prod.mk.inj (except_pure_eq_ok.1 h)
      exact .cons (fun _ => rfl) (ih hrest)

/-- The words of the sizes of a slice. -/
theorem sliceWords_sizes (hlen : os.length = zs.length)
    (h : Head.sliceWords S os zs = some (as, bs)) :
    Forall₂ (fun z b => S.word z = some b) zs bs := by
  induction os generalizing zs as bs with
  | nil =>
    obtain rfl := length_eq_zero_iff.1 hlen.symm
    obtain ⟨-, rfl⟩ := Prod.mk.inj (Option.some.inj h)
    exact .nil
  | cons o os ih =>
    cases zs with
    | nil => cases hlen
    | cons z zs =>
      obtain ⟨a, -, h⟩ := Option.bind_eq_some_iff.1 h
      obtain ⟨b, hb, h⟩ := Option.bind_eq_some_iff.1 h
      obtain ⟨⟨as', bs'⟩, hrest, h⟩ := Option.bind_eq_some_iff.1 h
      obtain ⟨-, rfl⟩ := Prod.mk.inj (Option.some.inj h)
      exact .cons hb (ih (Nat.succ.inj hlen) hrest)

/-- The sizes of a slice at run time are those that are known. -/
theorem sizes_allowed {offsets sizes : List Index} {left' : List ValueId}
    (hlen : offsets.length = sizes.length) (hpos : ∀ n, .static n ∈ sizes → 0 < n)
    (ho : Graph.resolveMarks (Edit.splitIndices offsets sizes).1.offsets vs = .ok (os, left))
    (hz : Graph.resolveMarks (Edit.splitIndices offsets sizes).1.sizes left = .ok (zs, left'))
    (hwords : Head.sliceWords S os zs = some (as, bs)) :
    Forall₂ Dim.Allows (sizes.map Index.dim) bs := by
  have ho := (resolveMarks_static ho).length_eq
  have hz := resolveMarks_static hz
  simp only [Edit.splitIndices, length_map] at ho hz
  rw [forall₂_map_left_iff] at hz
  have hwords := sliceWords_sizes (by rw [← ho, hlen, hz.length_eq]) hwords
  rw [forall₂_map_left_iff]
  obtain ⟨hlen₁, hz⟩ := forall₂_iff_get.1 hz
  obtain ⟨hlen₂, hwords⟩ := forall₂_iff_get.1 hwords
  refine forall₂_iff_get.2 ⟨hlen₁.trans hlen₂, fun k hk hk' => ?_⟩
  have hk₁ : k < zs.length := by omega
  have hzk := hz k hk hk₁
  have hwk := hwords k hk₁ hk'
  cases hsize : sizes.get ⟨k, hk⟩ with
  | dynamic v => exact .inl rfl
  | static n =>
    have hn := hpos n (hsize ▸ get_mem sizes ⟨k, hk⟩)
    simp only [hsize] at hzk
    rw [hzk (by rintro rfl; exact absurd hn (by decide))] at hwk
    rw [← Option.some.inj hwk]
    exact .inr rfl

end

/-! ## 2. What operations compute -/

section Computing

variable {g : Graph} {S : Store} {h : Head} {d : Datum} {e : Element}
variable {ts : List Ty} {k : Nat} {v : ValueId} {ty : Ty}

/-- The type of an operand or result is the one that is listed. -/
theorem ty_of_map {vs : List ValueId} (h : vs.map g.ty = ts) {t : Ty}
    (hv : vs[k]? = some v) (ht : ts[k]? = some t) : g.ty v = t := by
  rw [← h, getElem?_map, hv] at ht
  exact Option.some.inj ht

/-- Whatever is computed is admitted by the type. -/
def Comes (ty : Ty) (x : Option Datum) : Prop := ∀ d, x = some d → ty.Admits d

namespace Comes

theorem some (h : ty.Admits d) : Comes ty (.some d) := fun _ hd => Option.some.inj hd ▸ h

theorem none : Comes ty .none := fun _ hd => by cases hd

variable {α : Type} {x : Option α} {f : α → Option Datum}

theorem bind (h : ∀ a, x = .some a → Comes ty (f a)) :
    Comes ty (x.bind f) := fun d hd => by
  obtain ⟨a, ha, hd⟩ := Option.bind_eq_some_iff.1 hd
  exact h a ha d hd

/-- A part that does not matter for the type. -/
theorem part (h : ∀ a, Comes ty (f a)) :
    Comes ty (x.bind f) := bind fun a _ => h a

end Comes

theorem comes_constIndex : Comes .index (h.constant .index) := by
  unfold Head.constant
  split
  · exact .some (.index _)
  · exact .none

theorem comes_constScalar : Comes (.scalar e) (h.constant (.scalar e)) := by
  unfold Head.constant
  split
  · split
    · next hindex => cases hindex
    · split
      · exact .some (.scalar (Scalar.of_ofFloat e _))
      · exact .some (.scalar (Scalar.of_ofInt e _))
  · exact .none

theorem arith_of {k : Kind} {x y z : Scalar} (h : Eval.arith k x y = .ok z) : z.Of x.elem := by
  unfold Eval.arith at h
  split at h
  · cases h
  · cases h
    split
    · exact Scalar.of_ofInt _ _
    · exact Scalar.of_ofInt _ _
    · exact Scalar.of_ofFloat _ _
    · exact Scalar.of_ofFloat _ _

theorem comes_widen : Comes (.scalar e) (h.widen (.scalar e) S) := by
  refine .part fun _ => .part fun _ => .some (.scalar ?_)
  split
  · exact Scalar.of_ofInt e _
  · exact Scalar.of_ofFloat e _
  · exact Scalar.of_ofFloat e _

theorem comes_affine : Comes .index (h.affine S) := by
  unfold Head.affine
  split
  · exact .part fun _ => .part fun _ => .part fun _ => .part fun _ => .part fun _ =>
      .some (.index _)
  · exact .none

theorem comes_tensorDim : Comes .index (h.tensorDim S) := by
  refine .part fun _ => .part fun _ => ?_
  split
  · exact .part fun _ => .some (.index _)
  · exact .none

variable (hS : ∀ v d, S v = some d → (g.ty v).Admits d)
include hS

section

variable (hops : h.operands.map g.ty = ts) (hv : h.operands[k]? = some v) (hty : ts[k]? = some ty)

include hops hv hty

/-- The tensor of an operand is admitted by the type that is listed for it. -/
theorem tensor_admitted {t : Tensor} (ht : S.tensor v = some t) : ty.Admits (.tensor t) := by
  rw [← ty_of_map hops hv hty]
  obtain ⟨d, hd, ht⟩ := Option.bind_eq_some_iff.1 ht
  cases d with
  | tensor u =>
    cases ht
    exact hS v _ hd
  | _ => cases ht

theorem scalar_admitted {s : Scalar} (hs : S.scalar v = some s) : ty.Admits (.scalar s) := by
  rw [← ty_of_map hops hv hty]
  obtain ⟨d, hd, hs⟩ := Option.bind_eq_some_iff.1 hs
  cases d with
  | scalar u =>
    cases hs
    exact hS v _ hd
  | _ => cases hs

end

theorem comes_binary (hops : h.operands.map g.ty = [ty, ty]) : Comes ty (h.binary S) := by
  refine .bind fun v hv => .bind fun x hx => .part fun _ => .part fun _ =>
    .bind fun z hz => .some ?_
  obtain ⟨e, rfl, hx⟩ := (scalar_admitted hS hops hv rfl hx).of_scalar
  exact .scalar (hx.elem ▸ arith_of (toOption_eq_some.1 hz))

theorem comes_collapse {ty' : Ty} {groups : List (List Int64)} (hops : h.operands.map g.ty = [ty])
    (hattr : h.attr = .reshape groups) (hty : Edit.collapsedTy ty.shape groups = .ok ty') :
    Comes ty' (h.collapse S) := by
  simp only [Head.collapse, hattr]
  refine .bind fun v hv => .bind fun t ht => .bind fun dims hdims => .bind fun s hs =>
    .bind fun u hu => .some ?_
  obtain ⟨s₀, rfl, helem, hallows, hwf⟩ := (tensor_admitted hS hops hv rfl ht).of_tensor
  obtain ⟨hwf', helem', hdims', -⟩ := hwf.reshape (toOption_eq_some.1 hu)
  obtain ⟨ws, hws, hty⟩ := except_bind_eq_ok.1 hty
  obtain ⟨s', hs', hty⟩ := except_bind_eq_ok.1 hty
  obtain rfl := ofShape_ok hty
  obtain rfl := Tensor.make_eq hs'
  have hs := toOption_eq_some.1 hs
  rw [Tensor.make_eq hs] at helem'
  refine Ty.admits_tensor (helem.trans helem'.symm) ?_ hwf'
  rw [hdims', Tensor.make_words hs, forall₂_map_left_iff]
  refine forall₂_of_common (except_mapM_eq_ok.1 hws)
    (except_mapM_eq_ok.1 (toOption_eq_some.1 hdims)) ?_
  intro axes w n hw hn
  obtain ⟨ms, hms, hn⟩ := except_bind_eq_ok.1 hn
  obtain rfl := except_pure_eq_ok.1 hn
  rcases groupDim_allows hallows hw hms with rfl | rfl
  · exact .inl rfl
  · show (Dim.ofWord (Shape.product ms)).Allows (Shape.product ms)
    unfold Dim.ofWord
    split
    · exact .inl rfl
    · exact .inr rfl

theorem comes_expand {s : Shape} (hops : h.operands.map g.ty = [ty]) :
    Comes (.tensor s) (h.expand (.tensor s) S) := by
  refine .bind fun v hv => .bind fun t ht => .part fun _ => .bind fun u hu => .some ?_
  obtain ⟨-, -, -, -, hwf⟩ := (tensor_admitted hS hops hv rfl ht).of_tensor
  obtain ⟨hwf', helem, hdims, hstatic⟩ := hwf.reshape (toOption_eq_some.1 hu)
  refine Ty.admits_tensor helem.symm ?_ hwf'
  rw [hdims, Ty.shape, Shape.words, forall₂_map_right_iff, forall₂_same]
  intro k hk
  cases k with
  | dynamic => exact absurd (all_eq_true.1 hstatic _ hk) (by simp [Dim.isStatic])
  | static n => exact .inr rfl

theorem comes_extractSlice {offsets sizes : List Index} (hops : h.operands.map g.ty = ty :: ts)
    (hattr : h.attr = .slice (Edit.splitIndices offsets sizes).1)
    (hlen : offsets.length = sizes.length) (hpos : ∀ n, .static n ∈ sizes → 0 < n) :
    Comes (.tensor ⟨ty.elem, sizes.map Index.dim⟩) (h.extractSlice S) := by
  simp only [Head.extractSlice, Head.offsetsAndSizes, hattr]
  refine .bind fun v hv => .bind fun t ht => .bind fun p hslice => .bind fun w hwords =>
    .bind fun u hu => .some ?_
  obtain ⟨⟨os', left⟩, ho, hslice⟩ := Option.bind_eq_some_iff.1 hslice
  obtain ⟨⟨zs', left'⟩, hz, hslice⟩ := Option.bind_eq_some_iff.1 hslice
  cases hslice
  obtain ⟨s, rfl, helem, -, -⟩ := (tensor_admitted hS hops hv rfl ht).of_tensor
  obtain ⟨hwf, helem', hdims⟩ := Tensor.extractSlice_wellFormed (toOption_eq_some.1 hu)
  refine Ty.admits_tensor (helem.trans helem'.symm) ?_ hwf
  rw [hdims]
  exact sizes_allowed hlen hpos (toOption_eq_some.1 ho) (toOption_eq_some.1 hz) hwords

theorem comes_insertSlice {src : Ty} (hops : h.operands.map g.ty = src :: ty :: ts) :
    Comes ty (h.insertSlice S) := by
  refine .part fun _ => .part fun _ => .bind fun w hw => .bind fun u hu => .part fun _ =>
    .part fun _ =>
    .bind fun x hx => .some ?_
  have hu := tensor_admitted hS hops hw rfl hu
  obtain ⟨-, -, -, -, hwf⟩ := hu.of_tensor
  exact hu.refills (hwf.insertSlice (toOption_eq_some.1 hx))

theorem comes_conv {i f : Ty} (hops : h.operands.map g.ty = [i, f, ty]) : Comes ty (h.conv S) := by
  unfold Head.conv
  split
  · refine .part fun _ => .part fun _ => .part fun _ => .part fun _ => .bind fun w hw =>
      .bind fun u hu =>
      .bind fun x hx => .some ?_
    have hu := tensor_admitted hS hops hw rfl hu
    obtain ⟨-, -, -, -, hwf⟩ := hu.of_tensor
    exact hu.refills (hwf.conv2d (toOption_eq_some.1 hx))
  · exact .none

/-- **What an operation without a body computes is admitted by the type of its result.** -/
theorem WellTyped.comes {F : Form} (hrule : WellTyped F) (hk : h.kind = F.kind)
    (ha : h.attr = F.attr) (hops : h.operands.map g.ty = F.operands)
    (hres : F.results[0]? = some ty) : Comes ty (h.leaf ty S) := by
  cases hrule with
  | constIndex attr =>
    cases hres
    simpa only [Head.leaf, hk] using comes_constIndex
  | constScalar attr e =>
    cases hres
    simpa only [Head.leaf, hk] using comes_constScalar
  | arith hkind t =>
    cases hres
    simp only [mem_cons, not_mem_nil, or_false] at hkind
    rcases hkind with rfl | rfl | rfl | rfl <;>
      simpa only [Head.leaf, hk] using comes_binary hS hops
  | widen hkind t e =>
    cases hres
    simp only [mem_cons, not_mem_nil, or_false] at hkind
    rcases hkind with rfl | rfl | rfl <;> simpa only [Head.leaf, hk] using comes_widen
  | affine hkind m ts =>
    cases hres
    simp only [mem_cons, not_mem_nil, or_false] at hkind
    rcases hkind with rfl | rfl <;> simpa only [Head.leaf, hk] using comes_affine
  | tensorDim axis t =>
    cases hres
    simpa only [Head.leaf, hk] using comes_tensorDim
  | collapse hty =>
    cases hres
    simpa only [Head.leaf, hk] using comes_collapse hS hops ha hty
  | expand t s groups =>
    cases hres
    simpa only [Head.leaf, hk] using comes_expand hS hops
  | extractSlice t ts hlen hpos =>
    cases hres
    simpa only [Head.leaf, hk] using comes_extractSlice hS hops ha hlen hpos
  | insertSlice s d ts a =>
    cases hres
    simpa only [Head.leaf, hk] using comes_insertSlice hS hops
  | conv i f o strides dilations =>
    cases hres
    simpa only [Head.leaf, hk] using comes_conv hS hops
  | generic | forLoop => simpa only [Head.leaf, hk] using .none
  | terminator => cases hres

end Computing

/-! ## 3. Operations keep the typing rules -/

section Rules

variable {g : Graph} {n : Node}

theorem Node.Here.form (hn : Here g n) : g.form n.id =
    ⟨n.head.kind, n.head.attr, n.head.operands.map g.ty, n.head.results.map g.ty,
      n.args.map g.ty⟩ := by
  have hargs : g.argsOf n.id = n.args := by
    unfold Graph.argsOf
    rw [hn.body]
    cases hb : n.body with
    | none => rw [(hn.noBody hb).1]; rfl
    | some b => exact hn.bodyArgs b hb
  unfold Graph.form
  rw [hn.kind, hn.attr, hn.operands, hn.results, hargs]

section

variable (hn : Here g n) (hrule : WellTyped (g.form n.id))

include hn hrule

/-- The elements of an operand of a generic operation are admitted by the argument that receives
them. -/
theorem element_admitted (hk : n.head.kind = .generic) {k : Nat} {v a : ValueId} {t : Tensor}
    {is : List Int64} {s : Scalar} (hv : n.head.operands[k]? = some v) (ha : n.args[k]? = some a)
    (ht : (g.ty v).Admits (.tensor t)) (hs : t.scalarAt is = .ok s) :
    (g.ty a).Admits (.scalar s) := by
  rw [hn.form, hk] at hrule
  generalize hF : Form.mk .generic n.head.attr (n.head.operands.map g.ty)
    (n.head.results.map g.ty) (n.args.map g.ty) = F at hrule
  cases hrule with
  | generic attr shaped syms results =>
    injection hF with _ _ hops _ hargs
    have hlt : k < shaped.length := by
      have hlen := congrArg List.length hargs
      rw [length_map, length_map] at hlen
      rw [← hlen]
      exact (List.getElem?_eq_some_iff.1 ha).1
    have hshaped := getElem?_eq_getElem hlt
    have hty : g.ty v = shaped.get ⟨k, hlt⟩ :=
      ty_of_map hops hv (by rw [getElem?_append_left hlt]; exact hshaped)
    have harg : g.ty a = .scalar (shaped.get ⟨k, hlt⟩).elem :=
      ty_of_map hargs ha (by rw [getElem?_map, hshaped]; rfl)
    obtain ⟨sh, hsh, helem, -, hwf⟩ := ht.of_tensor
    rw [harg, ← hty, hsh]
    refine .scalar ?_
    rw [Ty.elem, Ty.shape, helem]
    exact hwf.scalarAt hs
  | arith hkind | widen hkind | affine hkind =>
    injection hF with hk'
    rw [← hk'] at hkind
    simp at hkind
  | terminator hterm =>
    injection hF with hk'
    rw [← hk'] at hterm
    cases hterm
  | _ => cases hF

theorem disciplined_of_wellTyped :
    Disciplined g Ty.Admits n where
  leaf _ S hS r d hr hleaf := by
    rw [hn.form] at hrule
    exact hrule.comes hS rfl rfl rfl (by rw [getElem?_map, hr]; rfl) d hleaf
  element hk k v a t is s hv ha ht hs := element_admitted hn hrule hk hv ha ht hs
  store _ m _ _ k y r s t t' is _ _ _ ht ht' := by
    obtain ⟨-, -, -, -, hwf⟩ := ht.of_tensor
    exact ht.refills (hwf.setScalar ht')

end

/-- Only loops and generic operations have several results. -/
theorem WellTyped.results_le {F : Form} (h : WellTyped F) (hl : F.kind ≠ .forLoop)
    (hg : F.kind ≠ .generic) : F.results.length ≤ 1 := by
  cases h with
  | generic => exact absurd rfl hg
  | forLoop => exact absurd rfl hl
  | terminator => exact Nat.zero_le _
  | _ => exact Nat.le_refl _

end Rules

/-! ## 4. Functions -/

/-- **Evaluation is sound for types**: at every moment of a run, the datum of a value is of the kind
that the type of the value tells.  One step of the evaluation keeps this: `verify` asks for the
types that the builder functions have computed, and what an operation computes from admitted data is
admitted by the type of its result. -/
theorem run_typed {g : Graph} {f : FuncId} (hf : g.verify f = .ok ())
    (hbuilt : ∀ i, g.Contains f i → g.Built i) {args : List Tensor}
    (hargs : ∀ t ∈ args, t.WellFormed) :
    ∀ m ∈ g.moments f args, ∀ (v : ValueId) d, m.env[v.idx]? = some d → (g.ty v).Admits d := by
  obtain ⟨b, params, ns, hb, hholds, hscope, hrules, hends⟩ := verify_holds hf
  have hproper : ∀ n ∈ subsAll ns, Proper g Ty.Admits (fun _ => True) n := by
    intro n hn
    have hhere := hholds.held n hn
    have hrule := (hbuilt n.id ((hholds.contains_iff hb).2 ⟨n, hn, rfl⟩)).wellTyped
    refine ⟨hrules n hn, disciplined_of_wellTyped hhere hrule, fun _ _ => trivial,
      fun hs v hv => ?_⟩
    rw [hhere.form] at hrule
    obtain ⟨hl, hg⟩ := structured_false_iff.1 hs
    have hlen := hrule.results_le hl hg
    rw [length_map] at hlen
    rw [drop_eq_nil_of_le hlen] at hv
    cases hv
  have hsound : (∀ e, g.run f args = .error e → e.incomplete = false) ∧
      Orderly g Ty.Admits (g.moments f args) := by
    refine func_sound .index hb hholds hscope hproper hends fun v t ht hty hcomp => ?_
    cases hv : g.ty v with
    | tensor s =>
      rw [hv] at hcomp
      exact .tensor hcomp (hargs t ht)
    | _ =>
      rw [hv] at hty
      cases hty
  exact fun m hm => (hsound.2 m hm).1

/-- Calls of builder functions that create operations of the forms that `doubler` has. -/
def doublerCalls : List Method :=
  [.constIndex 0, .constIndex 2, .constIndex 1, .forLoop ⟨1⟩ ⟨2⟩ ⟨3⟩ [⟨0⟩],
    .generic [⟨5⟩] [⟨5⟩] [] [⟨1, 0, [.dim 0]⟩, ⟨1, 0, [.dim 0]⟩] [.parallel], .add ⟨7⟩ ⟨8⟩,
    .genericYield [⟨10⟩], .loopYield [⟨9⟩], .funcReturn [⟨6⟩]]

theorem doubler_built (i : OpId) (hi : doubler.graph.Contains ⟨0⟩ i) : doubler.graph.Built i := by
  obtain ⟨b, hb, hi⟩ := hi
  have hbody : (doubler.graph.func ⟨0⟩).body = some ⟨0⟩ := by decide +kernel
  obtain rfl := Option.some.inj (hb.symm.trans hbody)
  have hcalls : (((doubler.graph.block ⟨0⟩).ops.flatMap doubler.graph.subtree).all fun i =>
      doublerCalls.any fun m => doubler.creates m (doubler.graph.form i)) =
        true := by decide +kernel
  obtain ⟨m, -, hm⟩ := any_eq_true.1 (all_eq_true.1 hcalls i hi)
  exact Editor.built_of_creates hm

/-- A tensor of four elements. -/
def quad : Tensor := ⟨.int32, [4], .ints #[1, -2, 3, -4]⟩

theorem quad_wellFormed : quad.WellFormed := by
  refine ⟨⟨rfl, fun n hn => ?_⟩, by decide⟩
  have hall : (quad.data.words.all fun n => quad.elem.wrapInt n == n) = true := by decide
  exact beq_iff_eq.1 (all_eq_true.1 hall n hn)

/-- Everything that a run of `doubler` gives a datum has one of its type, the result of the generic
operation in the loop among them. -/
theorem run_typed_doubler :
    doubler.graph.verify ⟨0⟩ = .ok () ∧
    (∀ i, doubler.graph.Contains ⟨0⟩ i → doubler.graph.Built i) ∧ (∀ t ∈ [quad], t.WellFormed) ∧
    (∀ m ∈ doubler.graph.moments ⟨0⟩ [quad], ∀ (v : ValueId) d, m.env[v.idx]? = some d →
      (doubler.graph.ty v).Admits d) ∧
    ∃ m ∈ doubler.graph.moments ⟨0⟩ [quad], ∃ d, m.env[9]? = some d ∧
      (doubler.graph.ty ⟨9⟩).Admits d := by
  have hverify : doubler.graph.verify ⟨0⟩ = .ok () := toOption_eq_some.1 (by decide +kernel)
  have hquad : ∀ t ∈ [quad], t.WellFormed := by simpa using quad_wellFormed
  have htyped := run_typed hverify doubler_built hquad
  have hsome : ((doubler.graph.moments ⟨0⟩ [quad]).any fun m => (m.env[9]?).isSome) = true := by
    decide +kernel
  obtain ⟨m, hm, hd⟩ := any_eq_true.1 hsome
  obtain ⟨d, hd⟩ := Option.isSome_iff_exists.1 hd
  exact ⟨hverify, doubler_built, hquad, htyped, m, hm, d, hd, htyped m hm ⟨9⟩ d hd⟩

end ConvNest.Program
