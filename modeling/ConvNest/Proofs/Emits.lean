/-
# What builder functions emit

A builder function whose checks pass succeeds, and emits what it is for.  `Emits` says so, and is
proved step by step along the function: `Emits.bind` for what emits, `Emits.read` for what only
looks.

The functions of this file are those that create a single operation: one without a body
(`createValue`), or a loop, whose body is emitted by a function of its own.
-/
import ConvNest.Program.Build
import ConvNest.Proofs.Create
import ConvNest.Proofs.Rewire
import Mathlib.Algebra.Order.Ring.Int

namespace ConvNest.Program

open Node Graph List

/-- Operations without a body and with one result at most that are no terminators. -/
def Node.Flat (ns : List Node) : Prop :=
  ∀ m ∈ ns, m.head.kind.isTerminator = false ∧ m.nodes = [] ∧ m.idle = []

namespace Edit

variable {α β : Type} {e e' : Editor} {b : BlockId} {pre post : List OpId} {V : List ValueId}
  {Q : α → Editor → List Node → Prop} {x : Edit α}

/-! ## 1. Emitting functions -/

/-- The edit succeeds, emits trees that keep the rules, and its result, the editor after it and the
trees are as told. -/
def Emits (V : List ValueId) (b : BlockId) (pre post : List OpId) (e : Editor) (x : Edit α)
    (Q : α → Editor → List Node → Prop) : Prop :=
  ∃ a e' ns, x e = .ok a e' ∧ Emitted Rules V b pre post e e' ns ∧ Q a e' ns

theorem Emits.pure (hs : Start V b pre post e) {a : α} (h : Q a e []) :
    Emits V b pre post e (pure a) Q :=
  ⟨a, e, [], rfl, .refl hs, h⟩

section

variable {a : α} {Q : β → Editor → List Node → Prop} {f : α → Edit β}

/-- A step that changes nothing. -/
theorem Emits.read {x : Edit α} (hx : x e = .ok a e) (h : Emits V b pre post e (f a) Q) :
    Emits V b pre post e (x >>= f) Q := by
  obtain ⟨c, e', ns, hc, hns, hq⟩ := h
  exact ⟨c, e', ns, state_bind_ok a hx hc, hns, hq⟩

theorem Emits.demand {c : Bool} {fault : Fault} {f : Unit → Edit β} (hc : c = true)
    (h : Emits V b pre post e (f ()) Q) :
    Emits V b pre post e (demand c fault >>= f) Q :=
  .read (demand_ok.2 ⟨hc, rfl⟩) h

theorem Emits.ask {x : Except Fault α} (hx : x = .ok a) (h : Emits V b pre post e (f a) Q) :
    Emits V b pre post e (liftM x >>= f) Q :=
  .read (lift_ok.2 ⟨hx, rfl⟩) h

theorem Emits.tyOf {v : ValueId} {t : Ty} {f : Ty → Edit β} (ht : e.graph.ty v = t)
    (h : Emits V b pre post e (f t) Q) :
    Emits V b pre post e (tyOf v >>= f) Q :=
  .read (tyOf_ok.2 ⟨ht, rfl⟩) h

end

/-- Two emissions that follow one another. -/
theorem Emits.bind {f : α → Edit β} {R : β → Editor → List Node → Prop} (hs : Start V b pre post e)
    (h : Emits V b pre post e x Q)
    (hf : ∀ a e' ns, Emitted Rules V b pre post e e' ns → Q a e' ns →
      Emits (outs ns ++ V) b (pre ++ ns.map Node.id) post e' (f a)
        fun c e'' ms => R c e'' (ns ++ ms)) :
    Emits V b pre post e (x >>= f) R := by
  obtain ⟨a, e', ns, ha, hns, hq⟩ := h
  obtain ⟨c, e'', ms, hc, hms, hr⟩ := hf a e' ns hns hq
  exact ⟨c, e'', ns ++ ms, state_bind_ok a ha hc, hns.trans natural_rules hs hms, hr⟩

theorem Emits.mono {R : α → Editor → List Node → Prop} (h : Emits V b pre post e x Q)
    (hqr : ∀ a e' ns, Emitted Rules V b pre post e e' ns →
      Q a e' ns → R a e' ns) : Emits V b pre post e x R := by
  obtain ⟨a, e', ns, ha, hns, hq⟩ := h
  exact ⟨a, e', ns, ha, hns, hqr a e' ns hns hq⟩

end Edit

theorem Emitted.ty {P : Graph → Node → Prop} {V : List ValueId} {b : BlockId} {pre post : List OpId}
    {e e' : Editor} {ns : List Node} (h : Emitted P V b pre post e e' ns)
    (hs : Start V b pre post e) {v : ValueId} (hv : v ∈ V) : e'.graph.ty v = e.graph.ty v :=
  h.grows.ty v (hs.visible v hv)

namespace Edit

variable {α : Type} {e e' : Editor} {b : BlockId} {pre post : List OpId} {V : List ValueId}

/-! ## 2. Operations without a body -/

section Leaves

variable {kind : Kind} {operands : List ValueId} {ty : Ty} {attr : Attr}

/-- The name of the next value. -/
def nextValue (g : Graph) : ValueId := ⟨g.values.size⟩

/-- A new operation without a body and with one result. -/
abbrev valueNode (g : Graph) (kind : Kind) (operands : List ValueId) (ty : Ty) (attr : Attr) :
    Node :=
  leafNode g kind operands [ty] attr

@[simp] theorem valueNode_results (g : Graph) :
    (valueNode g kind operands ty attr).head.results = [nextValue g] := rfl

/-- **An operation with one result is created.** -/
theorem createValue_emits (hs : Start V b pre post e) (hl : kind ≠ .forLoop) (hg : kind ≠ .generic)
    (hops : ∀ v ∈ operands, v ∈ V) :
    Emits V b pre post e (createValue kind operands ty attr) fun v e' ns =>
      v = nextValue e.graph ∧ ns = [valueNode e.graph kind operands ty attr] ∧
        e'.graph.ty v = ty := by
  have hcreate : create kind operands [ty] attr none e = _ := create_eq hs.place (by simp)
  have hemitted : Emitted Rules V b pre post e _ [valueNode e.graph kind operands ty attr] :=
    create_leaf hs hops (rules_leaf hl hg rfl)
  have hhere := hemitted.held.here mem_cons_self
  refine ⟨_, _, _, state_bind_ok _ hcreate ?_, hemitted, rfl, rfl, ?_⟩
  · refine state_bind_ok _ rfl (lift_ok.2 ⟨itemAt_ok.2 ?_, rfl⟩)
    exact congrArg (·[0]?) hhere.results
  · have htys : [ty] = [nextValue e.graph].map _ := hhere.tys
    simpa using htys.symm

/-- What a new operation with one result computes. -/
theorem exec_valueNode (g : Graph) (hl : kind ≠ .forLoop) (hg : kind ≠ .generic) {S : Store}
    {d : Datum} (h : (valueNode g kind operands ty attr).head.leaf ty S = some d) :
    execAll [valueNode g kind operands ty attr] S = some (S.assign [nextValue g] [d]) := by
  have hexec := (exec_leaf_iff (n := valueNode g kind operands ty attr) hl hg).2
    ⟨ty, d, rfl, h, rfl⟩
  rw [execAll_cons, hexec]
  rfl

end Leaves

/-- The types of the arguments of a new body. -/
theorem tys_opened {kind : Kind} {operands : List ValueId} {tys argTys : List Ty} {attr : Attr} :
    (e.graph.nextValues argTys.length).map
      (opened e b pre post kind operands tys attr argTys).graph.ty = argTys := by
  refine map_ty_nextValues fun k t hk => ?_
  have hlt : e.graph.values.size + k < (e.graph.withBlock argTys).values.size := by
    rw [valuesSize_withBlock]
    exact Nat.add_lt_add_left (List.getElem?_eq_some_iff.1 hk).1 _
  rw [opened, Graph.ty, created, value_put, value_withOp_old _ _ _ _ _ _ hlt,
    value_withBlock_new _ hk]

/-! ## 3. Operations with a body -/

section Regions

variable {kind : Kind} {operands : List ValueId} {tys argTys : List Ty} {attr : Attr}

/-- The end of a body is emitted. -/
theorem end_emits (hs : Start V b pre post e) (hl : kind ≠ .forLoop) (hg : kind ≠ .generic)
    (hops : ∀ v ∈ operands, v ∈ V) :
    Emits V b pre post e (create kind operands [] attr none) fun _ _ ns =>
      ns = [leafNode e.graph kind operands [] attr] := by
  have hcreate : create kind operands [] attr none e = _ := create_eq hs.place (by simp)
  exact ⟨_, _, _, hcreate, create_leaf (P := Rules) hs hops (rules_leaf hl hg rfl), rfl⟩

/-- **An operation is emitted with what fills its body.**  For the rules that it has to keep, what
was visible has kept its types, and the results and arguments have those that were asked for. -/
theorem region_emits (hs : Start V b pre post e)
    (hops : ∀ v ∈ operands, v ∈ V) {fill : BlockId → Edit α} {Q : α → List Node → Prop}
    (hfill : Emits (e.graph.nextValues argTys.length ++ V) e.graph.nextBlock [] []
      (opened e b pre post kind operands tys attr argTys) (fill e.graph.nextBlock) fun a e₃ ns =>
        Q a ns ∧ ((∀ v ∈ V, e₃.graph.ty v = e.graph.ty v) →
          (regionNode e kind operands tys attr argTys ns).head.results.map e₃.graph.ty = tys →
          (e.graph.nextValues argTys.length).map e₃.graph.ty = argTys →
          Rules e₃.graph (regionNode e kind operands tys attr argTys ns))) :
    Emits V b pre post e (do
      let block ← newBlock argTys
      let i ← create kind operands tys attr (some block)
      let extra ← atPoint (pointAtEnd block) (fill block)
      return (i, extra)) fun r _ ns =>
        ∃ ks, Q r.2 ks ∧ r.1 = e.graph.nextOp ∧
          ns = [regionNode e kind operands tys attr argTys ks] := by
  obtain ⟨a, e₃, ks, hrun, hks, hq, hrules⟩ := hfill
  have hrules := hrules
    (fun v hv => (extends_opened.inside (Nat.le_refl _) hks.grows).ty v (hs.visible v hv))
    (here_opened hs hops hks).1.tys.symm
    ((map_congr_left fun v hv => hks.grows.ty v (by
      rw [mem_nextValues] at hv
      rw [valuesSize_opened]
      omega)).trans tys_opened)
  refine ⟨(e.graph.nextOp, a), { e₃ with point := e.point }, _, ?_, close hs hops hks hrules, ks,
    hq, rfl, rfl⟩
  have hne : b ≠ e.graph.nextBlock := by
    rintro rfl
    exact Nat.lt_irrefl _ hs.place.lt
  have hat : AtPoint (onGraph e (e.graph.withBlock argTys)) b pre post := by
    refine ⟨?_, hs.place.block, ?_, hs.place.none, hs.place.some⟩
    · rw [onGraph, blocksSize_withBlock]
      exact Nat.lt_succ_of_lt hs.place.lt
    · rw [onGraph, block_withBlock, if_neg hne]
      exact hs.place.ops
  refine state_bind_ok _ (newBlock_eq _) (state_bind_ok _ (create_eq hat ?_) ?_)
  · rintro c ⟨⟩
    rw [onGraph, block_withBlock, if_pos rfl]
  · exact state_bind_ok a (atPoint_ok.2 ⟨e₃, hrun, rfl⟩) rfl

end Regions

/-- What is checked of a map of a generic operation. -/
theorem checkMap_ok {symbols : List ValueId} {iterators : List Iterator}
    {p : (Affine.Map × ValueId) × Nat} {u : Unit} :
    checkMap iterators symbols p e = .ok u e' ↔ ((p.1.1.dims = Word.length iterators ∧
      p.1.1.syms = Word.length symbols) ∧ p.1.1.arity = (e.graph.ty p.1.2).shape.rank) ∧
        e = e' := by
  unfold checkMap
  simp only [state_bind_eq_ok, demand_ok, tyOf_ok]
  constructor
  · rintro ⟨_, _, ⟨h, rfl⟩, _, _, ⟨rfl, rfl⟩, h', rfl⟩
    exact ⟨⟨by simpa using h, by simpa using h'⟩, rfl⟩
  · rintro ⟨⟨h, h'⟩, rfl⟩
    exact ⟨(), e, ⟨by simpa using h, rfl⟩, _, e, ⟨rfl, rfl⟩, by simpa using h', rfl⟩

/-! ## 4. Loops -/

section Loops

/-- The state in which a loop has been created, and its body is to be filled. -/
abbrev loopOpened (e : Editor) (b : BlockId) (pre post : List OpId) (lower upper step : ValueId)
    (inits : List ValueId) : Editor :=
  opened e b pre post .forLoop (lower :: upper :: step :: inits) (inits.map e.graph.ty) .none
    (.index :: inits.map e.graph.ty)

/-- The end of a loop body. -/
abbrev yieldNode (g : Graph) (ys : List ValueId) : Node := leafNode g .loopYield ys [] .none

/-- A new loop. -/
abbrev loopNode (e : Editor) (lower upper step : ValueId) (inits : List ValueId)
    (ns : List Node) : Node :=
  regionNode e .forLoop (lower :: upper :: step :: inits) (inits.map e.graph.ty) .none
    (.index :: inits.map e.graph.ty) ns

variable {lower upper step : ValueId} {inits : List ValueId}

theorem checkIndex_ok {v : ValueId} {f : Ty → Fault} {u : Unit} :
    checkIndex v f e = .ok u e' ↔ e.graph.ty v = .index ∧ e = e' := by
  unfold checkIndex
  simp only [state_bind_eq_ok, tyOf_ok, demand_ok]
  constructor
  · rintro ⟨t, e1, ⟨rfl, rfl⟩, ht, rfl⟩
    exact ⟨Ty.isIndex_iff.1 ht, rfl⟩
  · rintro ⟨ht, rfl⟩
    exact ⟨_, e, ⟨rfl, rfl⟩, Ty.isIndex_iff.2 ht, rfl⟩

/-- A loop that is built keeps the rules. -/
theorem rules_loop {g : Graph} {ns : List Node} {last : Node}
    (hbounds : ∀ v ∈ [lower, upper, step], g.ty v = .index)
    (hargs : (e.graph.nextValues (inits.length + 1)).map g.ty = .index :: inits.map g.ty)
    (hresults : (loopNode e lower upper step inits (ns ++ [last])).head.results.map g.ty =
      inits.map g.ty)
    (hns : ∀ m ∈ ns, m.head.kind.isTerminator = false) (hlast : last.head.kind = .loopYield)
    (hyields : last.head.operands.map g.ty = inits.map g.ty) :
    Rules g (loopNode e lower upper step inits (ns ++ [last])) := by
  have hcount : (loopNode e lower upper step inits (ns ++ [last])).head.results.length =
      inits.length := by simp [regionNode, nextValues]
  have hnode : (loopNode e lower upper step inits (ns ++ [last])).args =
      e.graph.nextValues (inits.length + 1) := by simp [regionNode]
  refine LoopRules.rules ⟨⟨_, rfl⟩, ?_, ?_, ⟨ns, last, rfl, hlast, hns⟩, fun k v hk hv => ?_,
    fun v hv => ?_, hresults.symm, ?_, fun m hm hk => by
    rw [eq_last hns hm hk, hyields, hresults]⟩ rfl
  · rw [hnode]
    simp [regionNode, nextValues]
  · rw [hnode, hcount]
    simp [nextValues]
  · refine hbounds v ?_
    simp only [regionNode] at hv
    obtain rfl | rfl | rfl : k = 0 ∨ k = 1 ∨ k = 2 := by omega
    all_goals
      simp at hv
      simp [hv]
  · rw [hnode] at hv
    have hty := congrArg (·[0]?) hargs
    simpa [hv] using hty
  · rw [hnode, hresults, map_drop, hargs]
    rfl

/-- **A loop is emitted with what its body function emits, and the end of it.** -/
theorem forLoop_emits (body : ValueId → List ValueId → Edit (List ValueId × α))
    (Q : List ValueId × α → Editor → List Node → Prop) (hs : Start V b pre post e)
    (hbounds : ∀ v ∈ [lower, upper, step], e.graph.ty v = .index)
    (hops : ∀ v ∈ lower :: upper :: step :: inits, v ∈ V) {iv : ValueId} {carried : List ValueId}
    (hnext : e.graph.nextValues (inits.length + 1) = iv :: carried)
    (hbody : Emits (iv :: carried ++ V) e.graph.nextBlock [] []
      (loopOpened e b pre post lower upper step inits) (body iv carried) fun r e₂ ns =>
        r.1.map e₂.graph.ty = inits.map e.graph.ty ∧
        (∀ y ∈ r.1, y ∈ outs ns ++ (iv :: carried ++ V)) ∧
        (∀ m ∈ ns, m.head.kind.isTerminator = false) ∧ Q r e₂ ns) :
    Emits V b pre post e (forLoop lower upper step inits body) fun r _ ns =>
      ∃ ys e₂ ks, Q (ys, r.2) e₂ ks ∧ r.1 = e.graph.nextOp ∧
        ns = [loopNode e lower upper step inits (ks ++ [yieldNode e₂.graph ys])] := by
  have hargs : e.graph.nextValues (.index :: inits.map e.graph.ty : List Ty).length =
      iv :: carried := by
    simpa using hnext
  refine .read (a := ()) ((forM_check_ok fun v u e e' => checkIndex_ok).2 ⟨hbounds, rfl⟩) (.read rfl
    ((region_emits (Q := fun a ns => ∃ ys e₂ ks, Q (ys, a) e₂ ks ∧
      ns = ks ++ [yieldNode e₂.graph ys]) hs hops ?_).mono ?_))
  · refine .read rfl ?_
    simp only [block_opened hs, hargs]
    refine .ask rfl (.bind (hargs ▸ start_opened hs) hbody fun r e₂ ks hks hr => ?_)
    obtain ⟨hyields, hys, hinner, hq⟩ := hr
    refine .bind hks.next (end_emits hks.next (by simp) (by simp) hys) fun _ e₃ _ hlast heq => ?_
    subst heq
    refine .pure hlast.next ⟨⟨r.1, e₂, ks, hq, rfl⟩, fun hty hresults htys => ?_⟩
    have hinits : inits.map e₃.graph.ty = inits.map e.graph.ty :=
      map_congr_left fun v hv => hty v (hops v (by simp [hv]))
    refine rules_loop (fun v hv => ?_) (by rw [hinits, hnext, htys])
      (hresults.trans hinits.symm) hinner rfl ?_
    · rw [hty v (hops v ?_)]
      · exact hbounds v hv
      · simp only [mem_cons] at hv ⊢
        tauto
    · rw [hinits, ← hyields]
      exact map_congr_left fun v hv => hlast.grows.ty v (hks.next.visible v (hys v hv))
  · rintro r e' _ - ⟨_, ⟨ys, e₂, ks, hq, rfl⟩, hi, rfl⟩
    exact ⟨ys, e₂, ks, hq, hi, rfl⟩

end Loops

end Edit

end ConvNest.Program
