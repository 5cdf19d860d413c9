/-
# Index computations are folded

`composedApply` gives the value of an expression whose symbols are indices.  What it gives is known
if the expression is a constant once the known indices are put in, is one of the indices if nothing
else is left, and is otherwise computed by a new operation.  In each case it has the value of the
expression (`composedApply_emits`), as long as nothing wraps around.
-/
import ConvNest.Program.Rewriter
import ConvNest.Proofs.Emits
import ConvNest.Proofs.Monotone
import ConvNest.Proofs.Renumber
import ConvNest.Proofs.SaneCheck
import ConvNest.Proofs.TypedData

namespace ConvNest.Program

open Node Affine List

/-- The value of the index, if there is one, is visible and an index. -/
def Index.Visible (V : List ValueId) (g : Graph) : Index → Prop
  | .static _ => True
  | .dynamic v => v ∈ V ∧ g.ty v = .index

namespace Edit

variable {e e' : Editor} {b : BlockId} {pre post : List OpId} {V : List ValueId} {ns : List Node}
  {v : ValueId}

/-! ## 1. The indices of values -/

/-- The index of what is not a constant is not known. -/
theorem indexOf_result {g : Graph} (hg : Sane g) {i : OpId} (hv : v ∈ (g.op i).results)
    (hk : g.kind i ≠ .constant) :
    g.indexOf v = .ok (.dynamic v) := by
  have hnone : g.constIndex? v = .ok none := by
    unfold Graph.constIndex? Graph.definingOp
    rw [(owner_of_mem_results hg hv).2]
    cases g.ty v <;> simp [hk]
  rw [Graph.indexOf, hnone]
  rfl

theorem indexOf_eq {ix : Index} (h : e.graph.indexOf v = .ok ix) : indexOf v e = .ok ix e :=
  state_bind_ok e.graph (graph_ok.2 ⟨rfl, rfl⟩) (lift_ok.2 ⟨h, rfl⟩)

/-- Nodes compute a word for an index from a store. -/
def Computes (ns : List Node) (S : Store) (ix : Index) (n : Int64) : Prop :=
  ∃ S', execAll ns S = some S' ∧ S'.word ix = some n

/-- What gives the index is visible, and needs no more than operations without a body. -/
structure Yields (V : List ValueId) (e : Editor) (ix : Index) (ns : List Node) : Prop where
  visible : ix.Visible (outs ns ++ V) e.graph
  flat : Flat ns

/-- The index is the result of one new operation. -/
def Created (e : Editor) (kind : Kind) (operands : List ValueId) (attr : Attr) (ix : Index)
    (ns : List Node) :
    Prop :=
  ix = .dynamic (nextValue e.graph) ∧ ns = [valueNode e.graph kind operands .index attr]

/-! ## 2. New operations -/

section Affine

variable {m : Affine.Map} {operands : List ValueId}

theorem checkAffineOperands_eq (hlen : Word.length operands = m.dims + m.syms)
    (htys : ∀ v ∈ operands, e.graph.ty v = .index) :
    checkAffineOperands m operands e = .ok () e := by
  refine state_bind_ok () (demand_ok.2 ⟨by simp [hlen], rfl⟩) ?_
  refine (forM_check_ok fun p _ _ _ => checkIndex_ok).2 ⟨fun p hp => ?_, rfl⟩
  exact htys p.1 (mem_of_getElem? (mem_zipIdx_iff_getElem?.1 hp))

variable {kind : Kind} (hs : Start V b pre post e)

include hs

/-- A new operation that gives an index. -/
theorem createIndex_emits {attr : Attr} (hl : kind ≠ .forLoop) (hg : kind ≠ .generic)
    (hc : kind ≠ .constant) (ht : kind.isTerminator = false) (hops : ∀ v ∈ operands, v ∈ V) :
    Emits V b pre post e (createValue kind operands .index attr >>= indexOf) fun ix e' ns =>
      Yields V e' ix ns ∧ Created e kind operands attr ix ns ∧ ∀ S n,
        (valueNode e.graph kind operands .index attr).head.leaf .index S = some (.index n) →
          Computes ns S ix n := by
  refine Emits.bind hs (createValue_emits hs hl hg hops) fun v e₁ ns hemitted hv => ?_
  obtain ⟨rfl, rfl, hty⟩ := hv
  have hhere := hemitted.held.here mem_cons_self
  have hindex : e₁.graph.indexOf (nextValue e.graph) = .ok (.dynamic (nextValue e.graph)) := by
    refine indexOf_result hemitted.next.sane (i := (valueNode e.graph kind operands .index attr).id)
      ?_ ?_
    · rw [hhere.results]
      exact mem_cons_self
    · rw [hhere.kind]
      exact hc
  refine ⟨.dynamic (nextValue e.graph), e₁, [], indexOf_eq hindex, .refl hemitted.next, ?_⟩
  refine ⟨⟨⟨by simp [outs], hty⟩, by simp [Flat, leafNode, idle, Graph.nextValues, ht]⟩, ⟨rfl, rfl⟩,
    fun S n hleaf => ?_⟩
  refine ⟨_, exec_valueNode e.graph hl hg hleaf, ?_⟩
  rw [Store.word, Store.index, Store.assign_getElem (nodup_singleton _) (k := 0) rfl]
  rfl

/-- **An operation on indices is created, and computes the least value of its map.** -/
theorem createAffine_emits (hk : kind = .affineApply ∨ kind = .affineMin) (hdims : m.dims = 0)
    (hops : ∀ v ∈ operands, v ∈ V) :
    Emits V b pre post e (createValue kind operands .index (.affine m) >>= indexOf) fun ix e' ns =>
      Yields V e' ix ns ∧ Created e kind operands (.affine m) ix ns ∧
        ∀ S ns' vs n, operands.mapM S.index = some ns' →
        m.eval [] ns' = .ok vs → Eval.least vs = .ok n → Computes ns S ix n := by
  have hl : kind ≠ .forLoop := by rcases hk with rfl | rfl <;> simp
  have hg : kind ≠ .generic := by rcases hk with rfl | rfl <;> simp
  have hc : kind ≠ .constant := by rcases hk with rfl | rfl <;> simp
  have ht : kind.isTerminator = false := by rcases hk with rfl | rfl <;> rfl
  refine (createIndex_emits hs hl hg hc ht hops).mono fun ix e' ns _ h => ?_
  refine ⟨h.1, h.2.1, fun S ns' vs n hns hvs hn => h.2.2 S n ?_⟩
  have hfirst : (firstItems ns' (0 : Int64).toInt).toOption = some [] := by simp [firstItems]
  have hafter : (itemsAfter ns' (0 : Int64).toInt).toOption = some ns' := by simp [itemsAfter]
  have haffine : (valueNode e.graph kind operands .index (.affine m)).head.affine S =
      some (.index n) := by
    simp only [Head.affine, leafNode, head_mk, hdims, hns, hfirst, hafter, hvs, hn, toOption_ok,
      Option.bind_eq_bind, Option.bind_some]
    rfl
  rcases hk with rfl | rfl <;> exact haffine

theorem affineApply_emits (harity : m.arity = 1) (hdims : m.dims = 0)
    (hlen : Word.length operands = m.syms) (hops : ∀ v ∈ operands, v ∈ V)
    (htys : ∀ v ∈ operands, e.graph.ty v = .index) :
    Emits V b pre post e (affineApply m operands >>= indexOf) fun ix e' ns =>
      Yields V e' ix ns ∧ Created e .affineApply operands (.affine m) ix ns ∧
        ∀ S ns' n, operands.mapM S.index = some ns' → m.eval [] ns' = .ok [n] →
          Computes ns S ix n := by
  rw [affineApply, bind_assoc]
  refine Emits.demand (by simp [harity]) ?_
  rw [bind_assoc]
  refine Emits.read (checkAffineOperands_eq (by rw [hdims, hlen, Int64.zero_add]) htys) ?_
  refine (createAffine_emits hs (.inl rfl) hdims hops).mono fun ix e' ns _ h => ?_
  exact ⟨h.1, h.2.1, fun S ns' n hns hn => h.2.2 S ns' [n] n hns hn rfl⟩

end Affine

/-! ## 3. Known indices -/

section Known

variable {operands : List Index} {x y : Expr} {syms : List Int64} {p : Int64} {S : Store}

/-- A symbol whose index is not known. -/
def Unknown (operands : List Index) : Expr → Prop
  | .dim _ => False
  | .sym p => 0 ≤ p.toInt ∧ ∃ v, operands[p.toInt.toNat]? = some (.dynamic v)
  | _ => True

theorem unknown_within (z : Expr) (h : Unknown operands z) : z.Within 0 operands.length := by
  cases z with
  | dim p => exact h.elim
  | sym p =>
    obtain ⟨hp, v, hv⟩ := h
    have := (List.getElem?_eq_some_iff.1 hv).1
    exact ⟨hp, by omega⟩
  | _ => trivial

/-- The expression with the known indices put in. -/
def settled (operands : List Index) (x : Expr) : Expr :=
  x.subst .dim (lookup .sym (knownSyms operands))

theorem replace_known (ho : x.Over (Expr.Within 0 operands.length))
    (hlen : operands.length < 2 ^ 63) :
    x.replace [] (knownSyms operands) = .ok (settled operands x) := by
  rw [replace_placed (ho.mono Expr.within_placed) (by simp) (by simpa [knownSyms] using hlen),
    lookup_nil]
  rfl

/-- A symbol becomes a constant, or stays if its index is not known. -/
theorem settled_sym (h : (Expr.sym p).Within 0 operands.length) :
    (∃ n, operands[p.toInt.toNat]? = some (.static n) ∧ settled operands (.sym p) = .const n) ∨
      ∃ v, operands[p.toInt.toNat]? = some (.dynamic v) ∧ settled operands (.sym p) = .sym p := by
  obtain ⟨hp, hlt⟩ := h
  have hget := getElem?_eq_getElem (show p.toInt.toNat < operands.length by omega)
  have htable : (knownSyms operands)[p.toInt.toNat]? = some (match operands[p.toInt.toNat] with
      | .static n => some (.const n)
      | .dynamic _ => none) := by
    rw [knownSyms, getElem?_map, hget]
    rfl
  rw [settled, Expr.subst, Affine.lookup, htable]
  cases hix : operands[p.toInt.toNat] with
  | static n => exact .inl ⟨n, by rw [hget, hix], rfl⟩
  | dynamic v => exact .inr ⟨v, by rw [hget, hix], rfl⟩

theorem settled_over (ho : x.Over (Expr.Within 0 operands.length)) :
    (settled operands x).Over (Unknown operands) := by
  refine Expr.over_subst fun p => ⟨fun hp => ?_, fun hp => ?_⟩
  · have : 0 ≤ p.toInt ∧ p.toInt < (0 : Nat) := (ho p).1 hp
    omega
  · have hin := (ho p).2 hp
    show (settled operands (.sym p)).Over _
    rcases settled_sym hin with ⟨n, -, heq⟩ | ⟨v, hv, heq⟩
    · rw [heq]
      exact Expr.over_const n
    · rw [heq]
      exact Expr.over_sym ⟨hin.1, v, hv⟩

theorem settled_wellFormed (hw : x.WellFormed) (ho : x.Over (Expr.Within 0 operands.length)) :
    (settled operands x).WellFormed := by
  refine Expr.wellFormed_subst hw fun p => ⟨fun _ => trivial, fun hp => ?_⟩
  show (settled operands (.sym p)).WellFormed
  rcases settled_sym ((ho p).2 hp) with ⟨n, -, heq⟩ | ⟨v, -, heq⟩ <;> simp [heq, Expr.WellFormed]

theorem wordAt_of_getElem? {ns : List Int64} {n : Int64} (hp : 0 ≤ p.toInt)
    (h : ns[p.toInt.toNat]? = some n) :
    wordAt ns p = n :=
  wordAt_of_pick (pick_eq_ok.2 ⟨hp, h⟩)

theorem settled_valueIn (ho : x.Over (Expr.Within 0 operands.length))
    (hsyms : operands.mapM S.word = some syms) :
    (settled operands x).valueIn (integers [] syms) = x.valueIn (integers [] syms) := by
  refine Expr.valueIn_subst fun p => ⟨fun _ => rfl, fun hp => ?_⟩
  have hin := (ho p).2 hp
  rcases settled_sym hin with ⟨n, hn, heq⟩ | ⟨v, -, heq⟩
  · have hword : syms[p.toInt.toNat]? = some n := mapM_getElem? hsyms hn
    show (settled operands (.sym p)).valueIn _ = _
    rw [heq, Expr.valueIn_const, Expr.valueIn_sym, wordAt_of_getElem? hin.1 hword]
  · show (settled operands (.sym p)).valueIn _ = _
    rw [heq]

/-- Symbols that are not known have values. -/
theorem eval_unknown (hsyms : operands.mapM S.word = some syms) (h : x.Over (Unknown operands)) :
    x.Over fun z => ∃ n, z.eval [] syms = .ok n := by
  refine fun p => ⟨fun hp => ((h p).1 hp).elim, fun hp => ?_⟩
  obtain ⟨hpos, v, hv⟩ := (h p).2 hp
  have hlt := (List.getElem?_eq_some_iff.1 hv).1
  rw [← length_of_mapM hsyms] at hlt
  exact ⟨_, pick_eq_ok.2 ⟨hpos, getElem?_eq_getElem hlt⟩⟩

/-! ## 4. Folding -/

/-- What a simplified expression is when it has a constant for a form. -/
theorem asConst?_simplified (hw : x.WellFormed) (ho : x.Over Expr.Placed)
    (hs : x.simplify = .ok y) :
    (∃ c, y = .const c ∧ y.asConst? = .ok (some c)) ∨ y.asConst? = .ok none := by
  obtain ⟨f, hf, hnormal⟩ := linear_normal hw ho
  obtain rfl : f.toExpr = y := Except.ok.inj ((simplify_of_linear hf).symm.trans hs)
  have hlinear := hnormal.linear_toExpr
  rw [Expr.asConst?, hlinear]
  cases hts : f.sortedTerms with
  | nil =>
    refine .inl ⟨f.constant, ?_, rfl⟩
    simp [Linear.toExpr, hts]
  | cons t ts => exact .inr rfl

theorem simplify_over {P : Expr → Prop} (hw : x.WellFormed) (ho : x.Over P)
    (hs : x.simplify = .ok y) :
    y.WellFormed ∧ y.Over P := by
  obtain ⟨f, hf, hproper⟩ := linear_proper hw ho
  obtain rfl : f.toExpr = y := Except.ok.inj ((simplify_of_linear hf).symm.trans hs)
  exact ⟨hproper.toExpr.1, hproper.toExpr.2.2⟩

/-- The symbols of an expression among as many as there are indices. -/
def used (operands : List Index) (x : Expr) : List Bool :=
  (range operands.length).map fun i => Map.usesSym ⟨0, .ofNat operands.length, [x]⟩ (.ofNat i)

theorem used_kept (hw : x.WellFormed) (ho : x.Over (Expr.Within 0 operands.length)) :
    Kept (used operands x) 0 x :=
  .of_uses hw ho fun _ hp => Map.usesSym_iff.2 ⟨x, mem_cons_self, hp⟩

theorem length_used (operands : List Index) (x : Expr) :
    (used operands x).length = operands.length := by simp [used]

/-- What is kept stands for a symbol of the expression. -/
theorem sym_of_used {i : Nat} {ix : Index}
    (h : ((used operands x).zip operands)[i]? = some (true, ix)) :
    operands[i]? = some ix ∧ .sym (.ofNat i) ∈ x.subexprs := by
  obtain ⟨huse, hget⟩ := getElem?_zip_eq_some.1 h
  rw [used, getElem?_map, getElem?_range (List.getElem?_eq_some_iff.1 hget).1, Option.map_some]
    at huse
  obtain ⟨y, hy, hsym⟩ := Map.usesSym_iff.1 (Option.some.inj huse)
  obtain rfl := mem_singleton.1 hy
  exact ⟨hget, hsym⟩

/-- The indices that an expression takes are values. -/
theorem keptOf_used (ho : x.Over (Unknown operands)) (hlen : operands.length < 2 ^ 63) :
    ∃ vs : List ValueId, keptOf ((used operands x).zip operands) = vs.map .dynamic ∧
      ∀ v ∈ vs, .dynamic v ∈ operands := by
  have hall : ∀ ix ∈ keptOf ((used operands x).zip operands), ∃ v, ix = .dynamic v ∧
      .dynamic v ∈ operands := by
    intro ix hix
    obtain ⟨⟨k, ix'⟩, hmem, rfl⟩ := mem_map.1 hix
    obtain ⟨hmem, rfl : k = true⟩ := mem_filter.1 hmem
    obtain ⟨i, hi⟩ := getElem?_of_mem hmem
    obtain ⟨hget, hsym⟩ := sym_of_used hi
    have hilt := (List.getElem?_eq_some_iff.1 hget).1
    obtain ⟨-, v, hv⟩ := (ho _).2 hsym
    rw [toNat_ofNat (by omega), hget] at hv
    cases hv
    exact ⟨v, rfl, mem_of_getElem? hget⟩
  generalize keptOf ((used operands x).zip operands) = ixs at hall
  induction ixs with
  | nil => exact ⟨[], rfl, by simp⟩
  | cons ix ixs ih =>
    obtain ⟨v, rfl, hv⟩ := hall ix mem_cons_self
    obtain ⟨vs, rfl, hvs⟩ := ih fun ix hix => hall ix (mem_cons_of_mem _ hix)
    exact ⟨v :: vs, rfl, forall_mem_cons.2 ⟨hv, hvs⟩⟩

/-- The values are those of the indices that the map uses, in order, each once for its position. -/
structure TakesUsed (operands : List Index) (m : Affine.Map) (vs : List ValueId) : Prop where
  takes : ∃ keep : List Bool, keep.length = operands.length ∧
    vs.map Index.dynamic = keptOf (keep.zip operands)
  dims : m.dims = 0
  syms : m.syms = Word.length vs
  uses : ∀ j < vs.length, m.usesSym (.ofNat j) = true

/-- What an index computation comes to: a known index, one of the operands, or a new operation. -/
inductive Folded (operands : List Index) (e : Editor) : Index → Editor → List Node → Prop
  | known (c : Int64) : Folded operands e (.static c) e []
  | operand {ix : Index} (h : ix ∈ operands) : Folded operands e ix e []
  | created {ix : Index} {e' : Editor} {ns : List Node}
    (h : ∃ m vs, Created e .affineApply vs (.affine m) ix ns ∧ TakesUsed operands m vs) :
    Folded operands e ix e' ns

theorem takesUsed (hlen : operands.length < 2 ^ 63) {vs : List ValueId}
    (hvs : keptOf ((used operands x).zip operands) = vs.map .dynamic) :
    TakesUsed operands ⟨0, Word.length vs, [Kept.renumbered (used operands x) operands x]⟩ vs := by
  refine ⟨⟨_, length_used _ _, hvs.symm⟩, rfl, rfl,
    fun j hj => Map.usesSym_iff.2 ⟨_, mem_cons_self, ?_⟩⟩
  have hj : j < (keptOf ((used operands x).zip operands)).length := by
    rw [hvs, length_map]
    exact hj
  obtain ⟨i, ix, hi, hnumber⟩ := numbers_of_kept 0 hj
  obtain ⟨hget, hsym⟩ := sym_of_used hi
  have hilt := (List.getElem?_eq_some_iff.1 hget).1
  refine Expr.mem_subexprs_subst hsym ?_
  rw [Affine.lookup, toNat_ofNat (by omega), hnumber]
  simp [Expr.subexprs]

theorem mapM_materialize (vs : List ValueId) :
    (vs.map Index.dynamic).mapM materialize e = .ok vs e := by
  induction vs with
  | nil => rfl
  | cons v vs ih =>
    rw [map_cons, mapM_cons]
    exact state_bind_ok v rfl (state_bind_ok vs ih rfl)

theorem mapM_words (vs : List ValueId) : (vs.map Index.dynamic).mapM S.word = vs.mapM S.index := by
  rw [mapM_map]
  rfl

variable (hops : ∀ ix ∈ operands, ix.Visible V e.graph)
  (hlen : operands.length ≤ Map.markCapacity.toInt.toNat)
include hops hlen

/-- A new operation takes the indices that an expression needs, and computes its value. -/
theorem applyUsed_emits (hs : Start V b pre post e) (hw : x.WellFormed)
    (ho : x.Over (Unknown operands)) :
    Emits V b pre post e (applyUsed x operands) fun ix e' ns =>
      Yields V e' ix ns ∧
        (∃ m vs, Created e .affineApply vs (.affine m) ix ns ∧ TakesUsed operands m vs) ∧
      ∀ S syms n, operands.mapM S.word = some syms →
        x.eval [] syms = .ok n → Computes ns S ix n := by
  have hlt := Map.lt_of_marked hlen
  have hwithin := ho.mono unknown_within
  have hkept := used_kept hw hwithin
  obtain ⟨vs, hvs, hmem⟩ := keptOf_used ho hlt
  have hshort : vs.length ≤ operands.length := by
    have := length_keptOf_le ((used operands x).zip operands)
    rw [hvs, length_map, length_zip] at this
    omega
  have hmake : Map.make 0 (Word.length operands) [x] = .ok ⟨0, Word.length operands, [x]⟩ :=
    Map.make_within (d := 0) (by decide) hlt (by simpa using hwithin)
  have hmake' : Map.make 0 (Word.length vs) [Kept.renumbered (used operands x) operands x] =
      .ok ⟨0, Word.length vs, [Kept.renumbered (used operands x) operands x]⟩ := by
    have hover := hkept.renumbered_over (length_used _ _) hlt
    rw [hvs, length_map] at hover
    exact Map.make_within (d := 0) (by decide) (by omega) (by simpa using hover)
  unfold applyUsed
  refine Emits.ask hmake ?_
  refine Emits.ask (a := used operands x) (Map.usedSyms_eq rfl hlen) ?_
  rw [renumber_eq]
  simp only [hvs]
  refine Emits.read (mapM_materialize vs) ?_
  refine Emits.ask (hkept.replace (length_used _ _) hlt) ?_
  refine Emits.ask hmake' ?_
  have hvisible : ∀ v ∈ vs, v ∈ V ∧ e.graph.ty v = .index := fun v hv => hops _ (hmem v hv)
  refine (affineApply_emits hs rfl rfl rfl (fun v hv => (hvisible v hv).1) fun v hv =>
    (hvisible v hv).2).mono fun ix e' ns _ h =>
      ⟨h.1, ⟨_, vs, h.2.1, takesUsed hlt hvs⟩, fun S syms n hsyms hn => ?_⟩
  obtain ⟨kvals, hk⟩ : ∃ kvals, (keptOf ((used operands x).zip operands)).mapM S.word =
      some kvals := by
    rw [← map_snd_zip (Nat.le_of_eq (length_used operands x).symm)] at hsyms
    exact mapM_keptOf hsyms
  have heval : (Kept.renumbered (used operands x) operands x).eval [] kvals = x.eval [] syms :=
    hkept.eval (length_used _ _) hlt hsyms hk
  rw [hvs, mapM_words] at hk
  refine h.2.2 S kvals n hk ?_
  rw [Map.eval, if_pos ⟨rfl, by rw [Word.length, length_of_mapM hk]; rfl⟩, mapM_cons, heval, hn]
  rfl

/-- **An index computation has the value of its expression**, as long as nothing wraps around. -/
theorem composedApply_emits (hs : Start V b pre post e) (hw : x.WellFormed)
    (ho : x.Over (Expr.Within 0 operands.length)) :
    Emits V b pre post e (composedApply x operands) fun ix e' ns =>
      Yields V e' ix ns ∧ Folded operands e ix e' ns ∧ ∀ S syms, operands.mapM S.word = some syms →
        Steady [] syms (settled operands x) →
          ∃ n, Computes ns S ix n ∧ n.toInt = x.valueIn (integers [] syms) := by
  have hlt := Map.lt_of_marked hlen
  have hwell := settled_wellFormed hw ho
  have hopen := settled_over ho
  have hplaced := (hopen.mono unknown_within).mono Expr.within_placed
  obtain ⟨f, hf, -⟩ := linear_normal hwell hplaced
  have hsimp := simplify_of_linear hf
  obtain ⟨hyw, hyo⟩ := simplify_over hwell hopen hsimp
  -- The value of the simplified expression is the one asked for.
  have hvalue : ∀ (S : Store) syms, operands.mapM S.word = some syms →
    Steady [] syms (settled operands x) →
      ∃ n, f.toExpr.eval [] syms = .ok n ∧ n.toInt = x.valueIn (integers [] syms) := by
    intro S syms hsyms hsteady
    obtain ⟨n, hn, hint⟩ := hsteady.simplify hwell (eval_unknown hsyms hopen) hsimp
    exact ⟨n, hn, hint.trans (settled_valueIn ho hsyms)⟩
  refine Emits.ask (replace_known ho hlt) (Emits.ask hsimp ?_)
  rcases asConst?_simplified hwell hplaced hsimp with ⟨c, hc, hconst⟩ | hconst
  · refine Emits.ask hconst
      (Emits.pure hs ⟨⟨trivial, by simp [Flat]⟩, .known c, fun S syms hsyms hsteady => ?_⟩)
    obtain ⟨n, hn, hint⟩ := hvalue S syms hsyms hsteady
    rw [hc] at hn
    exact ⟨n, ⟨S, rfl, congrArg some (Except.ok.inj hn)⟩, hint⟩
  · refine Emits.ask hconst ?_
    simp only
    split
    · next p hp =>
      rw [hp] at hyo
      obtain ⟨hpos, v, hv⟩ := hyo.sym
      have hmem := hops _ (mem_of_getElem? hv)
      refine ⟨.dynamic v, e, [], lift_ok.2 ⟨pick_eq_ok.2 ⟨hpos, hv⟩, rfl⟩, .refl hs, ?_⟩
      refine ⟨⟨⟨mem_append_right _ hmem.1, hmem.2⟩, by simp [Flat]⟩, .operand (mem_of_getElem? hv),
        fun S syms hsyms hsteady => ?_⟩
      obtain ⟨n, hn, hint⟩ := hvalue S syms hsyms hsteady
      rw [hp, Expr.eval, pick_eq_ok] at hn
      exact ⟨n, ⟨S, rfl, (mapM_getElem? hsyms hv).symm.trans hn.2⟩, hint⟩
    · refine (applyUsed_emits hops hlen hs hyw hyo).mono fun ix e' ns _ h =>
        ⟨h.1, .created h.2.1, fun S syms hsyms hsteady => ?_⟩
      obtain ⟨n, hn, hint⟩ := hvalue S syms hsyms hsteady
      exact ⟨n, h.2.2 S syms n hsyms hn, hint⟩

/-- **An index computation denotes its expression.**  It does not fail, and what it gives is known,
one of the operands, or computed by a new operation on just the operands that its map uses. -/
theorem composedApply_denotes (hs : Start V b pre post e) (hw : x.WellFormed)
    (ho : x.Over (Expr.Within 0 operands.length)) :
    ∃ ix e' ns, composedApply x operands e = .ok ix e' ∧ Emitted Rules V b pre post e e' ns ∧
      Folded operands e ix e' ns ∧ ∀ S syms, operands.mapM S.word = some syms → x.exact [] syms →
        Steady [] syms (settled operands x) → ∃ n, x.eval [] syms = .ok n ∧ Computes ns S ix n := by
  obtain ⟨ix, e', ns, hrun, hemitted, -, hfolded, hvalue⟩ := composedApply_emits hops hlen hs hw ho
  refine ⟨ix, e', ns, hrun, hemitted, hfolded, fun S syms hsyms hexact hsteady => ?_⟩
  obtain ⟨n, hcomputes, hint⟩ := hvalue S syms hsyms hsteady
  rw [← length_of_mapM hsyms] at ho
  obtain ⟨w, hv⟩ := eval_of_over hw (@eval_within syms _ [] ho)
  rw [← toInt_of_eval hw hexact hv] at hint
  exact ⟨n, by rw [hv, Int64.toInt_inj.1 hint], hcomputes⟩

end Known

/-- An empty function of a tensor and an index. -/
def sliding : Editor :=
  after (do
    let f ← newFunc "sliding" [.tensor (.ofSizes .int32 [4]), .index]
    setPoint (pointAtEnd (← bodyOf f))) .empty

/-- The store with four elements and the index three. -/
def slidingStore : Store := fun v =>
  if v = ⟨0⟩ then some (.tensor ⟨.int32, [4], .ints #[1, 2, 3, 4]⟩)
    else if v = ⟨1⟩ then some (.index 3) else none

theorem sliding_start : Start [⟨0⟩, ⟨1⟩] ⟨0⟩ [] [] sliding :=
  ⟨by decide +kernel, ⟨by decide +kernel, by decide +kernel, by decide +kernel, fun _ => rfl,
    fun o ho => absurd ho (by revert o; decide +kernel)⟩, by decide +kernel⟩

/-- The second index is not known, the third one is not used. -/
theorem composedApply_denotes_mixed : ∃ ix e' ns,
    composedApply (.binary .floordiv (.add (.mul (.sym 1) (.const 3)) (.sym 0)) (.const 4))
      [.static 2, .dynamic ⟨1⟩, .static 7] sliding = .ok ix e' ∧ Computes ns slidingStore ix 2 := by
  have hw : (Expr.binary .floordiv (.add (.mul (.sym 1) (.const 3)) (.sym 0))
      (.const 4)).WellFormed :=
    ⟨⟨⟨trivial, trivial⟩, trivial⟩, 4, by decide, rfl⟩
  have hty : sliding.graph.ty ⟨1⟩ = .index := by decide +kernel
  have hops : ∀ ix ∈ ([.static 2, .dynamic ⟨1⟩, .static 7] : List Index),
      ix.Visible [⟨0⟩, ⟨1⟩] sliding.graph := by
    simp [Index.Visible, hty]
  obtain ⟨ix, e', ns, hrun, -, -, h⟩ := composedApply_denotes hops (by decide) sliding_start hw
    (Expr.over_binary.2
      ⟨Expr.over_binary.2 ⟨Expr.over_binary.2 ⟨Expr.over_sym ⟨by decide, by decide⟩,
      Expr.over_const 3⟩, Expr.over_sym ⟨by decide, by decide⟩⟩, Expr.over_const 4⟩)
  obtain ⟨n, hn, hcomputes⟩ := h slidingStore [2, 3, 7] (by decide +kernel) (by decide +kernel)
    (steady_of_exact (by decide +kernel) (by decide +kernel))
  obtain rfl : 2 = n := Except.ok.inj (Eq.trans (toOption_eq_some.1 (by decide +kernel)).symm hn)
  exact ⟨ix, e', ns, hrun, hcomputes⟩

end Edit

end ConvNest.Program
