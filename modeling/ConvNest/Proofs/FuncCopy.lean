/-
# Copies of functions

A verified function can always be copied (`cloneFunc_ok`).  The copy is a function with the same
tree under new names, and it has no part in common with what was there before: every entry of the
graph that was there stays as it was, use lists included (`FuncCopied.value`), and every operation
that is new is one of the copy (`FuncCopied.covers`).
-/
import ConvNest.Proofs.Copy
import ConvNest.Proofs.Function
import ConvNest.Proofs.UseLists

namespace ConvNest.Program

open Node Graph List

/-! ## 1. New functions -/

namespace Graph

/-- The name of the next function. -/
def nextFunc (g : Graph) : FuncId := ⟨g.funcs.size⟩

/-- The graph with one more function, with an empty body. -/
def withFunc (g : Graph) (name : String) (tys : List Ty) : Graph :=
  { g.withBlock tys with funcs := g.funcs.push ⟨name, some g.nextBlock⟩ }.modifyBlock g.nextBlock
    fun x =>
    { x with func := some g.nextFunc }

section WithFunc

variable (g : Graph) (name : String) (tys : List Ty)

@[simp] theorem values_withFunc : (g.withFunc name tys).values = (g.withBlock tys).values := rfl

@[simp] theorem value_withFunc (v : ValueId) :
    (g.withFunc name tys).value v = (g.withBlock tys).value v := rfl

@[simp] theorem blocksSize_withFunc : (g.withFunc name tys).blocks.size = g.blocks.size + 1 :=
  (blocksSize_modifyBlock _ _ _).trans (blocksSize_withBlock g tys)

theorem block_withFunc (c : BlockId) : (g.withFunc name tys).block c =
    if c = g.nextBlock then ⟨g.nextValues tys.length, [], none, some g.nextFunc⟩
      else g.block c := by
  have hblock := block_withBlock g tys c
  have hlt : g.nextBlock.idx < (g.withBlock tys).blocks.size := by simp [nextBlock]
  refine (block_modifyBlock _ _ c _).trans ?_
  by_cases hc : c = g.nextBlock
  · rw [if_pos hc] at hblock ⊢
    rw [if_pos ⟨hc.symm, hlt⟩]
    exact congrArg (fun x : Block => { x with func := some g.nextFunc }) hblock
  · rw [if_neg hc] at hblock ⊢
    rw [if_neg fun h => hc h.1.symm]
    exact hblock

theorem func_withFunc_new : (g.withFunc name tys).func g.nextFunc = ⟨name, some g.nextBlock⟩ := by
  show (g.funcs.push _).getD g.funcs.size default = _
  simp

end WithFunc

end Graph

variable {g : Graph}

theorem Sane.withFunc (hg : Sane g) (name : String) (tys : List Ty) :
    Sane (g.withFunc name tys) := by
  have hblock (c : BlockId) : ((g.withFunc name tys).block c).args =
    ((g.withBlock tys).block c).args ∧
      ((g.withFunc name tys).block c).ops = ((g.withBlock tys).block c).ops ∧
      ((g.withFunc name tys).block c).parentOp = ((g.withBlock tys).block c).parentOp := by
    rw [block_withFunc, block_withBlock]
    split <;> exact ⟨rfl, rfl, rfl⟩
  have h := hg.withBlock tys
  refine ⟨h.results, ?_, ?_, ?_, ?_, ?_, ?_, h.used, h.usesNodup⟩
  · intro b k a ha
    rw [(hblock b).1] at ha
    exact h.args b k a ha
  · intro b i hi
    rw [(hblock b).2.1] at hi
    exact h.parent b i hi
  · intro b
    rw [(hblock b).2.1]
    exact h.opsNodup b
  · intro i b hb
    rw [blocksSize_withFunc, ← blocksSize_withBlock g tys]
    exact h.body i b hb
  · intro i c hc b hb
    rw [(hblock b).2.2]
    exact h.owns i c hc b hb
  · intro b i hi
    rw [(hblock b).2.2] at hi
    exact h.owner b i hi

theorem Edit.newFunc_eq {e : Editor} (name : String) (tys : List Ty) :
    newFunc name tys e = .ok e.graph.nextFunc (onGraph e (e.graph.withFunc name tys)) := rfl

/-- A new function changes no tree. -/
theorem held_withFunc (hg : Sane g) {ns : List Node} (h : Held g ns)
    (hlt : ∀ n ∈ ns, n.id.idx < g.ops.size) (name : String) (tys : List Ty) :
    Held (g.withFunc name tys) ns := by
  intro n hn
  have hwith := ((Extends.refl g none).withBlock tys).held hg h hlt (by simp) n hn
  have hblock (c : BlockId) : ((g.withFunc name tys).block c).args =
    ((g.withBlock tys).block c).args ∧
      ((g.withFunc name tys).block c).ops = ((g.withBlock tys).block c).ops := by
    rw [block_withFunc, block_withBlock]
    split <;> exact ⟨rfl, rfl⟩
  exact hwith.congr rfl (fun c _ => (hblock c).1) (fun c _ => (hblock c).2) (fun _ _ => rfl)
    (fun _ _ _ hu => hu) fun _ _ => rfl

/-! ## 2. The copy of a function -/

/-- A function has been added that is a copy of the function `f`, which has the given parameters and
trees.  Those of the copy are `params.map m.lookup` and `ns'`. -/
structure FuncCopied (f : FuncId) (params : List ValueId) (ns ns' : List Node) (m : Mapping)
    (e e' : Editor) :
    Prop where
  only : e' = Edit.onGraph e e'.graph
  sane : Sane e'.graph
  funcs : e'.graph.funcs = e.graph.funcs.push ⟨(e.graph.func f).name, some e.graph.nextBlock⟩
  op : ∀ i, i.idx < e.graph.ops.size → e'.graph.op i = e.graph.op i
  block : ∀ c, c.idx < e.graph.blocks.size → e'.graph.block c = e.graph.block c
  value : ∀ v, v.idx < e.graph.values.size → ∃ us, e'.graph.value v =
    { e.graph.value v with uses := (e.graph.value v).uses ++ us } ∧
    ∀ u ∈ us, e.graph.ops.size ≤ u.op.idx
  opsLe : e.graph.ops.size ≤ e'.graph.ops.size
  holds : Holds e'.graph e.graph.nextBlock (params.map m.lookup) ns'
  bodyLt : e.graph.nextBlock.idx < e'.graph.blocks.size
  maps : MapsAll m.lookup ns ns'
  types : ∀ v ∈ params ++ defs ns, e'.graph.ty (m.lookup v) = e.graph.ty v
  fresh : ∀ v ∈ params ++ defs ns, e.graph.values.size ≤ (m.lookup v).idx
  inj : ∀ u ∈ params ++ defs ns, ∀ v ∈ params ++ defs ns, m.lookup u = m.lookup v → u = v
  ops : (ids ns).map m.lookupOp = (ids ns').map some
  opsNew : ∀ i ∈ ids ns', e.graph.ops.size ≤ i.idx
  covers : ∀ i : OpId, e.graph.ops.size ≤ i.idx → i.idx < e'.graph.ops.size → i ∈ ids ns'

namespace Edit

variable {e : Editor} {f : FuncId} {b : BlockId} {params : List ValueId} {ns : List Node}
  {g : Graph}
variable {name : String} {m : Mapping}

theorem bodyOf_eq (h : (e.graph.func f).body = some b) : bodyOf f e = .ok b e := by
  refine state_bind_ok e.graph rfl (lift_ok.2 ⟨?_, rfl⟩)
  rw [h]
  rfl

/-- The parameters of the function are mapped to those of the copy. -/
theorem renames_params (name : String) (hnodup : params.Nodup)
    (hm : Mapping.empty.insertAll params (g.nextValues params.length) = .ok m) :
    Mapping.Renames params .empty m g (g.withFunc name (params.map g.ty)) := by
  have htys := g.tys_withBlock (params.map g.ty)
  have hsize := g.valuesSize_withBlock (params.map g.ty)
  rw [length_map] at htys hsize
  exact Mapping.renames_insertAll hm hnodup hsize htys

theorem ty_withFunc {tys : List Ty} {v : ValueId} (hv : v.idx < g.values.size) :
    (g.withFunc name tys).ty v = g.ty v :=
  congrArg Value.ty (g.value_withBlock_old tys hv)

variable (hv : Valid e.graph f b params ns)

include hv

/-- The trees of a function can be copied to a new function. -/
theorem source_func
    (hm : Mapping.Renames params .empty m e.graph (e.graph.withFunc name (params.map e.graph.ty))) :
    Source params ns m (e.graph.withFunc name (params.map e.graph.ty)) where
  sane := hv.sane.withFunc _ _
  held := held_withFunc hv.sane hv.holds.held
    (fun n hn => hv.holds.ids_lt hv.sane _ (mem_map_of_mem (mem_subsAll_of_mem hn))) _ _
  lt n hn := hv.holds.ids_lt hv.sane _ (mem_map_of_mem (mem_subsAll_of_mem hn))
  inScope := hv.inScope
  defsNodup := hv.holds.defs_nodup hv.sane
  apart v hp hd := (nodup_append.1 (hv.holds.nodup hv.sane)).2.2 v hp v hd rfl
  idsNodup := hv.holds.ids_nodup hv.sane
  visible v hp := by
    have hlt := (owner_of_mem_args hv.sane (hv.holds.args.symm ▸ hp)).1
    rw [values_withFunc, valuesSize_withBlock]
    exact Nat.lt_add_right _ hlt
  range := hm.range
  types v hp :=
    (hm.types v hp).trans (ty_withFunc (owner_of_mem_args hv.sane (hv.holds.args.symm ▸ hp)).1).symm

/-- What copying the trees of a function to a new one gives. -/
theorem funcCopied {m' : Mapping} {e' : Editor} {ns' : List Node}
    (hm : Mapping.empty.insertAll params (e.graph.nextValues params.length) = .ok m)
    (h : Copied ns ns' m m'
      (onGraph e (e.graph.withFunc (e.graph.func f).name (params.map e.graph.ty))) e'
      (some e.graph.nextBlock)) (hops : (e'.graph.block e.graph.nextBlock).ops = ns'.map Node.id)
    (hplaced : ∀ n ∈ ns', (e'.graph.op n.id).parent = some e.graph.nextBlock) :
    FuncCopied f params ns ns' m' e e' := by
  have hparams := renames_params (e.graph.func f).name hv.paramsNodup hm
  have hapart := (source_func hv hparams).apart
  have hlt : e.graph.nextBlock.idx <
      (e.graph.withFunc (e.graph.func f).name (params.map e.graph.ty)).blocks.size := by
    simp [nextBlock]
  have hold {v : ValueId} (hv : v.idx < e.graph.values.size) :
      v.idx < (e.graph.withFunc (e.graph.func f).name (params.map e.graph.ty)).values.size := by
    rw [values_withFunc, valuesSize_withBlock]
    exact Nat.lt_add_right _ hv
  have hren : Mapping.Renames (params ++ defs ns) .empty m' e.graph e'.graph := by
    refine hparams.append h.toRenames ?_ h.grows.valuesLe
      (fun v hd => ty_withFunc (hv.holds.held.defs_lt hv.sane v hd)) h.grows.ty hapart fun _ =>
      mem_append
    rw [values_withFunc, valuesSize_withBlock]
    exact Nat.le_add_right _ _
  have hnew :=
    congrArg Block.args (block_withFunc e.graph (e.graph.func f).name (params.map e.graph.ty)
    e.graph.nextBlock)
  rw [if_pos rfl, length_map] at hnew
  refine
    { only := h.only.trans rfl
      sane := h.sane
      funcs := h.grows.funcs
      op := h.grows.op
      block := ?_
      value := ?_
      opsLe := h.grows.opsLe
      holds := ⟨?_, hops, hplaced, h.held⟩
      bodyLt := Nat.lt_of_lt_of_le hlt h.grows.blocksLe
      maps := h.maps
      types := hren.types
      fresh := hren.fresh
      inj := hren.inj
      ops := h.ops
      opsNew := ?_
      covers := h.covers }
  · intro c hc
    have hne : c ≠ e.graph.nextBlock := by
      rintro rfl
      exact Nat.lt_irrefl _ hc
    have hlt' := Nat.lt_trans hc hlt
    rw [h.grows.block c hlt' (fun heq => hne (Option.some.inj heq)), onGraph, block_withFunc,
      if_neg hne]
  · intro v hv
    obtain ⟨us, hus, hnew⟩ := h.grows.users v
    refine ⟨us, ?_, hnew⟩
    have hty := h.grows.ty v (hold hv)
    have howner := h.grows.owner v (hold hv)
    have hindex := h.grows.index v (hold hv)
    simp only [Graph.ty, onGraph, value_withFunc, value_withBlock_old e.graph _ hv]
      at hus hty howner hindex
    generalize e'.graph.value v = x at *
    cases x
    simp only at hus hty howner hindex
    rw [hus, hty, howner, hindex]
  · rw [h.grows.args _ hlt, onGraph, hnew, ← (Mapping.insertAll_lookup hm hv.paramsNodup).1]
    exact map_congr_left fun v hp => (h.same v (hapart v hp)).symm
  · intro i hi
    obtain ⟨n, hn, rfl⟩ := mem_map.1 hi
    exact h.opsNew n hn

/-- **A verified function can be copied.** -/
theorem cloneFunc_ok : ∃ m ns' e',
    cloneFunc f e = .ok (e.graph.nextFunc, m) e' ∧ FuncCopied f params ns ns' m e e' := by
  have hargs : (e.graph.block b).args = params := hv.holds.args
  have hops : (e.graph.block b).ops = ns.map Node.id := hv.holds.ops
  have hfunc : (e.graph.withFunc (e.graph.func f).name (params.map e.graph.ty)).func
    e.graph.nextFunc =
      ⟨(e.graph.func f).name, some e.graph.nextBlock⟩ := func_withFunc_new _ _ _
  have hblock :=
    block_withFunc e.graph (e.graph.func f).name (params.map e.graph.ty) e.graph.nextBlock
  rw [if_pos rfl, length_map] at hblock
  have hlen : params.length = (e.graph.nextValues params.length).length := by simp [nextValues]
  obtain ⟨m, hmap⟩ : ∃ m, Mapping.empty.insertAll params (e.graph.nextValues params.length) =
      .ok m :=
    ⟨_, Mapping.insertAll_eq _ hlen⟩
  have hsrc := source_func hv (renames_params (e.graph.func f).name hv.paramsNodup hmap)
  have hlt : e.graph.nextBlock.idx <
      (e.graph.withFunc (e.graph.func f).name (params.map e.graph.ty)).blocks.size := by
    simp [nextBlock]
  have hne : ∀ n ∈ subsAll ns, n.body ≠ some e.graph.nextBlock := fun n hn hbody =>
    Nat.lt_irrefl _ (hv.sane.body n.id _ ((hv.holds.held n hn).body.trans hbody))
  obtain ⟨ns', m', e', hfold, hcopied, hops', hplaced⟩ := copyChildren_ok
    (fun n _ => copy_duplicates n) hsrc hlt hne
    (e := onGraph e (e.graph.withFunc (e.graph.func f).name (params.map e.graph.ty)))
  rw [onGraph, hblock, nil_append] at hops'
  refine ⟨m', ns', e', ?_, funcCopied hv hmap hcopied hops' hplaced⟩
  refine state_bind_ok e.graph rfl ?_
  refine state_bind_ok b (bodyOf_eq hv.body) ?_
  simp only [hargs, hops]
  refine state_bind_ok _ (newFunc_eq _ _) ?_
  refine state_bind_ok e.graph.nextBlock (bodyOf_eq (congrArg Func.body hfunc)) ?_
  refine state_bind_ok _ rfl ?_
  refine state_bind_ok m (lift_ok.2 ⟨?_, rfl⟩) ?_
  · rw [onGraph, hblock]
    exact hmap
  · exact state_bind_ok m' hfold rfl

end Edit

end ConvNest.Program
