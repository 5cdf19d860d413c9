/-
# Requests to a rewriter keep the books

Every request leaves use lists that name exactly the operands, also a request that ends by a fault
half way (`Booked`), and what was sane stays so (`Kept`).  A copy is the one request whose
operations stay incomplete for a while: until the operations of the body have been copied, the copy
of its owner has a name and no operands.  `Grows` says that the copying of a body leaves it so.

A graph that requests have built from an empty function is therefore sane, with exact use lists
(`Rewrite.runAll_sane`, `Rewrite.runAll_uses`).
-/
import ConvNest.Proofs.CopyNames
import ConvNest.Proofs.FuncCopy

namespace ConvNest.Program

open Graph List

/-- Use lists are exact, and the insertion point is in the graph. -/
structure Booked (e : Editor) : Prop where
  exact : Exact e.graph
  point : ∀ b, e.point.block = some b → b.idx < e.graph.blocks.size

/-- Use lists are exact, and if `s`, then the graph is sane.  Requests keep both, and one walk
through what they do shows it. -/
structure Kept (s : Prop) (e : Editor) : Prop extends Booked e where
  sane : s → Sane e.graph

/-- An operation that is new and can be placed. -/
structure Placeable (g g' : Graph) (i : OpId) : Prop where
  new : g.ops.size ≤ i.idx
  lt : i.idx < g'.ops.size
  owns : g'.OwnsBody i

/-- A graph has grown: operations that were there are as they were. -/
structure Grows (g g' : Graph) : Prop where
  ops : g.ops.size ≤ g'.ops.size
  values : g.values.size ≤ g'.values.size
  blocks : g.blocks.size ≤ g'.blocks.size
  op : ∀ i, i.idx < g.ops.size → g'.op i = g.op i

/-- A graph has grown, and one of its operations may have changed. -/
structure GrowsBut (i : OpId) (g g' : Graph) : Prop where
  ops : g.ops.size ≤ g'.ops.size
  values : g.values.size ≤ g'.values.size
  blocks : g.blocks.size ≤ g'.blocks.size
  op : ∀ j, j ≠ i → g'.op j = g.op j

namespace Grows

variable {g g' g'' : Graph}

theorem refl (g : Graph) : Grows g g :=
  ⟨Nat.le_refl _, Nat.le_refl _, Nat.le_refl _, fun _ _ => rfl⟩

theorem trans (h : Grows g g') (h' : Grows g' g'') : Grows g g'' where
  ops := Nat.le_trans h.ops h'.ops
  values := Nat.le_trans h.values h'.values
  blocks := Nat.le_trans h.blocks h'.blocks
  op i hi := (h'.op i (Nat.lt_of_lt_of_le hi h.ops)).trans (h.op i hi)

theorem pushOp (g : Graph) (x : Op) : Grows g (g.pushOp x) where
  ops := by simp
  values := Nat.le_refl _
  blocks := Nat.le_refl _
  op i hi := by
    rw [op_pushOp, if_neg]
    rintro rfl
    exact Nat.lt_irrefl _ hi

theorem withBlock (g : Graph) (tys : List Ty) : Grows g (g.withBlock tys) where
  ops := Nat.le_refl _
  values := by simp
  blocks := by simp
  op _ _ := rfl

/-- What is done to one operation that is new. -/
theorem trans_but {i : OpId} (h : Grows g g') (h' : GrowsBut i g' g'') (hi : g.ops.size ≤ i.idx) :
    Grows g g'' where
  ops := Nat.le_trans h.ops h'.ops
  values := Nat.le_trans h.values h'.values
  blocks := Nat.le_trans h.blocks h'.blocks
  op j hj := by
    rw [h'.op j, h.op j hj]
    rintro rfl
    exact Nat.not_lt.2 hi hj

end Grows

variable {m : Mapping} {g g' : Graph}

theorem Mapping.Into.mono (h : m.Into g) (hle : g.values.size ≤ g'.values.size) : m.Into g' :=
  fun v =>
  (h v).imp id fun hv => Nat.lt_of_lt_of_le hv hle

theorem Mapping.Into.insertAll {m' : Mapping} (h : m.Into g) {src dst : List ValueId}
    (hdst : ∀ v ∈ dst, v.idx < g.values.size) (hm : m.insertAll src dst = .ok m') :
    m'.Into g := fun v =>
  (insertAll_lookup_or hm v).elim (fun heq => heq ▸ h v) fun hmem => .inr (hdst _ hmem)

theorem Open.grows {i : OpId} (h : Open g i) (hg : Grows g g') : Open g' i where
  lt := Nat.lt_of_lt_of_le h.lt hg.ops
  operands := by rw [hg.op i h.lt]; exact h.operands
  loose := by rw [hg.op i h.lt]; exact h.loose
  live := by rw [hg.op i h.lt]; exact h.live

theorem open_pushOp (g : Graph) (kind : Kind) (attr : Attr) :
    Open (g.pushOp ⟨kind, [], [], attr, none, none, false⟩) g.nextOp := by
  have hop : (g.pushOp ⟨kind, [], [], attr, none, none, false⟩).op g.nextOp =
      ⟨kind, [], [], attr, none, none, false⟩ := by rw [op_pushOp, if_pos rfl]
  exact ⟨⟨by simp [nextOp], by rw [hop], by rw [hop]⟩, by rw [hop]⟩

open Edit

theorem Booked.kept {e : Editor} (h : Booked e) : Kept False e := ⟨h, False.elim⟩

theorem Kept.onGraph {s : Prop} {e : Editor} (h : Kept s e) (hg : Exact g) (hs : s → Sane g)
    (hle : e.graph.blocks.size ≤ g.blocks.size) : Kept s (onGraph e g) :=
  ⟨⟨hg, fun b hb => Nat.lt_of_lt_of_le (h.point b hb) hle⟩, hs⟩

namespace Edit

variable {s : Prop} {e₀ : Editor} {i : OpId} {operands : List ValueId} {m : Mapping} {g : Graph}

/-! ## 1. Creating -/

section

variable {I : Fault → Editor → Prop} (h : Kept s e₀) {b : BlockId}

include h

theorem reserveOp_leaves (kind : Kind) (attr : Attr) :
    Leaves I (· = e₀) (reserveOp kind attr) fun i e =>
      Kept s e ∧ Grows e₀.graph e.graph ∧ Open e.graph i ∧ i = e₀.graph.nextOp := by
  refine .of_ok ?_
  rintro e rfl
  refine ⟨_, _, reserveOp_eq kind attr, h.onGraph (h.exact.pushOp kind attr)
    (fun hs => (h.sane hs).reserve kind attr) (Nat.le_refl _), ?_, ?_, rfl⟩
  · exact .pushOp _ _
  · exact open_pushOp _ kind attr

theorem newBlock_leaves (tys : List Ty) :
    Leaves I (· = e₀) (newBlock tys) fun b e =>
      Kept s e ∧ Grows e₀.graph e.graph ∧ b.idx < e.graph.blocks.size := by
  refine .of_ok ?_
  rintro e rfl
  refine ⟨_, _, newBlock_eq tys, h.onGraph (h.exact.withBlock tys)
    (fun hs => (h.sane hs).withBlock tys) (by simp), .withBlock _ tys, ?_⟩
  simp [nextBlock, Edit.onGraph]

theorem adopt_leaves (hi : i.idx < e₀.graph.ops.size) (b : BlockId) :
    Leaves (fun _ => Kept s) (· = e₀) (adopt i b) fun _ e => Kept s e ∧
      e = onGraph e₀ (e₀.graph.modifyBlock b fun x => { x with parentOp := some i }) := by
  refine .graph_bind fun g => ?_
  split
  · exact .throw fun e he => he.1 ▸ h
  · next hb =>
    refine .modify ?_
    rintro e ⟨rfl, rfl⟩
    refine ⟨h.onGraph (h.exact.of_entries (fun _ => rfl) (fun _ => rfl) rfl ?_ ?_)
      (fun hs => (h.sane hs).adopt hi hb) ?_, rfl⟩
    · intro c
      rw [block_modifyBlock]
      split <;> rfl
    · intro c
      rw [block_modifyBlock]
      split <;> rfl
    · simp

theorem completeOp_leaves (hi : Open e₀.graph i)
    (hops : ∀ v ∈ operands, v.idx < e₀.graph.values.size) (tys : List Ty) {body : Option BlockId}
    (hbody : ∀ b, body = some b → b.idx < e₀.graph.blocks.size) :
    Leaves (fun _ => Kept s) (· = e₀) (completeOp i operands tys body) fun _ e => Kept s e ∧
      GrowsBut i e₀.graph e.graph ∧ e.graph.OwnsBody i := by
  have hentered := h.exact.enter hi hops body
  have hvalues := hentered.pushValues (.result i) tys
  have hlt : ∀ v ∈ (e₀.graph.entered i operands body).nextValues tys.length, v.idx <
      ((e₀.graph.entered i operands body).pushValues (freshValues (.result i) tys)).values.size :=
    fun v hv => by simpa using ((mem_nextValues _).1 hv).2
  have hexact : Exact (e₀.graph.described i operands tys body) := hvalues.setResults i hlt
  have hkept := h.onGraph hexact (fun hs => (h.sane hs).described hi.toReserved operands tys hbody)
    (by rw [blocks_described])
  have hbut : GrowsBut i e₀.graph (e₀.graph.described i operands tys body) := by
    refine ⟨?_, ?_, ?_, fun j hj => ?_⟩
    · rw [opsSize_described]
    · rw [valuesSize_described]
      exact Nat.le_add_right _ _
    · rw [blocks_described]
    · rw [op_described hi.lt, if_neg (Ne.symm hj)]
  have hself : ((e₀.graph.described i operands tys body).op i).body = body := by
    rw [op_described hi.lt, if_pos rfl]
  refine .step rfl (.step (addUses_eq i operands 0) (.step (newValues_eq _ tys) (.step rfl ?_)))
  cases body with
  | none =>
    refine .pure ?_
    rintro e rfl
    refine ⟨hkept, hbut, fun b hb => ?_⟩
    cases hself.symm.trans hb
  | some b =>
    have hi' : i.idx < (e₀.graph.described i operands tys (some b)).ops.size := by
      rw [opsSize_described]
      exact hi.lt
    refine (adopt_leaves hkept hi' b).weaken fun _ e he => ?_
    obtain ⟨hadopted, rfl⟩ := he
    refine ⟨hadopted, ⟨hbut.ops, hbut.values, ?_, hbut.op⟩, fun c hc => ?_⟩
    · exact (blocksSize_modifyBlock _ _ _).symm ▸ hbut.blocks
    · cases hself.symm.trans hc
      show ((Graph.modifyBlock _ _ _).block b).parentOp = _
      rw [block_modifyBlock, if_pos ⟨rfl, by rw [onGraph, blocks_described]; exact hbody b rfl⟩]

theorem place_leaves (hb : b.idx < e₀.graph.blocks.size) {pos : Nat}
    (hpos : pos ≤ (e₀.graph.block b).ops.length) (hi : i.idx < e₀.graph.ops.size)
    (howns : e₀.graph.OwnsBody i) :
    Leaves (fun _ => Kept s) (· = e₀) (place b pos i) fun _ e => Kept s e ∧
      GrowsBut i e₀.graph e.graph := by
  have hput : Exact (e₀.graph.put b ((e₀.graph.block b).ops.insertIdx pos i) i) :=
    h.exact.put hb ((mem_insertIdx hpos).2 (.inl rfl)) fun j hj =>
      (mem_insertIdx hpos).2 (.inr hj)
  have hbut : GrowsBut i e₀.graph
      (e₀.graph.put b ((e₀.graph.block b).ops.insertIdx pos i) i) := by
    refine ⟨?_, Nat.le_refl _, ?_, fun j hj => ?_⟩
    · exact Nat.le_of_eq (opsSize_put _ _ _ _).symm
    · exact Nat.le_of_eq (blocksSize_put _ _ _ _).symm
    · rw [op_put, if_neg fun heq => hj heq.1.symm]
  have hsplit := insertIdx_append ((e₀.graph.block b).ops.take pos)
    ((e₀.graph.block b).ops.drop pos) i
  rw [take_append_drop, length_take_of_le hpos] at hsplit
  refine .op_bind fun x => .bind (Q := fun _ e => (e₀.graph.op i).parent = none ∧ e = e₀)
    (.demand ?_ ?_) fun _ => .given fun hloose => ?_
  · exact fun e he => he.1 ▸ h
  · rintro e hnone ⟨rfl, rfl⟩
    exact ⟨Option.isNone_iff_eq_none.1 hnone, rfl⟩
  · have hsane (hs : s) : Sane (e₀.graph.put b ((e₀.graph.block b).ops.insertIdx pos i) i) := by
      rw [hsplit]
      exact (h.sane hs).put hi hloose howns (take_append_drop pos _).symm
    have hkept := h.onGraph hput hsane (by simp)
    rw [put_insertIdx] at hkept hbut
    refine .step rfl (.modify ?_)
    rintro e rfl
    exact ⟨hkept, hbut⟩

theorem append_leaves (hb : b.idx < e₀.graph.blocks.size) (hi : i.idx < e₀.graph.ops.size)
    (howns : e₀.graph.OwnsBody i) :
    Leaves (fun _ => Kept s) (· = e₀) (append b i) fun _ e => Kept s e ∧
      GrowsBut i e₀.graph e.graph :=
  .step rfl (place_leaves h hb (Nat.le_refl _) hi howns)

end

theorem insert_leaves (i : OpId) :
    Leaves (fun _ => Kept s) (fun e => Kept s e ∧ i.idx < e.graph.ops.size ∧ e.graph.OwnsBody i)
      (insert i) fun _ => Kept s :=
  .insert (fun _ _ h => h.1) fun _ b _ h hb hpos =>
    (place_leaves h.1 (h.1.point b hb) hpos h.2.1 h.2.2).weaken fun _ _ he => he.1

theorem create_leaves (h : Kept s e₀) (kind : Kind)
    (hops : ∀ v ∈ operands, v.idx < e₀.graph.values.size) (tys : List Ty)
    (attr : Attr) {body : Option BlockId}
    (hbody : ∀ b, body = some b → b.idx < e₀.graph.blocks.size) :
    Leaves (fun _ => Kept s) (· = e₀) (create kind operands tys attr body) fun _ => Kept s := by
  refine .bind (.bind (reserveOp_leaves h kind attr) fun i => ?_) fun i =>
    .bind (insert_leaves i) fun _ => .pure fun e he => he
  refine .each fun e he => ?_
  obtain ⟨hkept, hgrows, hopen, -⟩ := he
  refine .bind (completeOp_leaves hkept hopen (fun v hv => ?_) tys fun b hb => ?_) fun _ =>
    .pure fun e he => ?_
  · exact Nat.lt_of_lt_of_le (hops v hv) hgrows.values
  · exact Nat.lt_of_lt_of_le (hbody b hb) hgrows.blocks
  · exact ⟨he.1, Nat.lt_of_lt_of_le hopen.lt he.2.1.ops, he.2.2⟩

/-! ## 2. Copying -/

theorem completeCopy_leaves (h : Kept s e₀) (g : Graph) (i : OpId) {copy : OpId}
    (hcopy : Open e₀.graph copy)
    (hops : ∀ v ∈ operands, v.idx < e₀.graph.values.size) {body : Option BlockId}
    (hbody : ∀ b, body = some b → b.idx < e₀.graph.blocks.size) (hm : m.Into e₀.graph) :
    Leaves (fun _ => Kept s) (· = e₀) (completeCopy g i copy operands body m) fun r e => Kept s e ∧
      GrowsBut copy e₀.graph e.graph ∧ r.2.Into e.graph ∧ r.1 = copy ∧ e.graph.OwnsBody copy := by
  refine .bind (completeOp_leaves h hcopy hops _ hbody) fun _ => .each fun e he => ?_
  obtain ⟨hkept, hbut, howns⟩ := he
  refine .step rfl (.bind (Q := fun m' e' => e' = e ∧ m'.Into e.graph) (.lift ?_ ?_) fun m' => ?_)
  · rintro f _ - rfl
    exact hkept
  · rintro m' _ hm' rfl
    exact ⟨rfl, (hm.mono hbut.values).insertAll (hkept.exact.results copy) hm'⟩
  · refine .pure ?_
    rintro _ ⟨rfl, hinto⟩
    exact ⟨hkept, hbut, hinto, rfl, howns⟩

/-- A computation copies an operation, outside of every block. -/
def Copies (s : Prop) (act : OpId → Mapping → Edit (OpId × Mapping)) : Prop :=
  ∀ i m e₀, Kept s e₀ → m.Into e₀.graph → Leaves (fun _ => Kept s) (· = e₀) (act i m) fun r e =>
    Kept s e ∧ Grows e₀.graph e.graph ∧ r.2.Into e.graph ∧ Placeable e₀.graph e.graph r.1

/-- Operations are copied into a block, one by one. -/
theorem copyAll_leaves {act : OpId → Mapping → Edit (OpId × Mapping)} (hact : Copies s act)
    (js : List OpId) {b : BlockId} (hb : b.idx < e₀.graph.blocks.size) :
    Leaves (fun _ => Kept s) (fun e => e = e₀ ∧ Kept s e₀ ∧ m.Into e₀.graph)
      (js.foldlM (fun m j => do
        let (k, m) ← act j m
        append b k
        return m) m)
      fun m' e => Kept s e ∧ Grows e₀.graph e.graph ∧ m'.Into e.graph := by
  refine .mono (.foldlM (J := fun m' e => Kept s e ∧ Grows e₀.graph e.graph ∧ m'.Into e.graph) ?_ m)
    ?_ (fun _ _ he => he) fun _ _ he => he
  · intro j _ m'
    refine .each fun e₁ he₁ => ?_
    obtain ⟨hkept₁, hgrows₁, hinto₁⟩ := he₁
    refine .bind (hact j m' e₁ hkept₁ hinto₁) fun r => .each fun e₂ he₂ => ?_
    obtain ⟨hkept₂, hgrows₂, hinto₂, hnew⟩ := he₂
    have hb₂ := Nat.lt_of_lt_of_le hb (hgrows₁.trans hgrows₂).blocks
    refine .bind (append_leaves hkept₂ hb₂ hnew.lt hnew.owns) fun _ => .pure fun e he => ?_
    obtain ⟨hkept, hbut⟩ := he
    exact ⟨hkept, hgrows₁.trans (hgrows₂.trans_but hbut hnew.new), hinto₂.mono hbut.values⟩
  · rintro _ ⟨rfl, hkept, hinto⟩
    exact ⟨hkept, .refl _, hinto⟩

/-- **Copying an operation with its body**, whether it ends by a fault or not. -/
theorem copyWithin_copies (s : Prop) (n : Nat) : Copies s (copyWithin n) := by
  induction n with
  | zero => exact fun i m e₀ h hm => .throw fun e he => he ▸ h
  | succ n ih =>
    intro i m e₀ h hm
    have hoperands : ∀ v ∈ (e₀.graph.op i).operands.map m.lookup, v.idx < e₀.graph.values.size := by
      intro v hv
      obtain ⟨w, hw, rfl⟩ := mem_map.1 hv
      rcases hm w with heq | hlt
      · exact heq.symm ▸ h.exact.operands i w hw
      · exact hlt
    refine .step rfl (.bind (reserveOp_leaves h _ _) fun copy => .each fun e₁ he₁ => ?_)
    obtain ⟨hkept₁, hgrows₁, hopen, rfl⟩ := he₁
    -- what is left to do once the body, if there is one, has been copied
    have hcomplete {e₂ : Editor} {m₂ : Mapping} {body : Option BlockId} (hkept₂ : Kept s e₂)
        (hgrows₂ : Grows e₁.graph e₂.graph)
        (hbody : ∀ b, body = some b → b.idx < e₂.graph.blocks.size)
        (hinto₂ : m₂.Into e₂.graph) : Leaves (fun _ => Kept s) (· = e₂)
          (completeCopy e₀.graph i e₀.graph.nextOp ((e₀.graph.op i).operands.map m.lookup) body m₂)
          fun r e => Kept s e ∧ Grows e₀.graph e.graph ∧ r.2.Into e.graph ∧
            Placeable e₀.graph e.graph r.1 := by
      have hoperands₂ : ∀ v ∈ (e₀.graph.op i).operands.map m.lookup, v.idx < e₂.graph.values.size :=
        fun v hv => Nat.lt_of_lt_of_le (hoperands v hv) (hgrows₁.trans hgrows₂).values
      refine (completeCopy_leaves hkept₂ e₀.graph i (hopen.grows hgrows₂)
        hoperands₂ hbody hinto₂).weaken fun r e he => ?_
      obtain ⟨hkept, hbut, hinto, hcopy, howns⟩ := he
      have hnew : Placeable e₀.graph e.graph e₀.graph.nextOp :=
        { new := Nat.le_refl _
          lt := Nat.lt_of_lt_of_le hopen.lt (Nat.le_trans hgrows₂.ops hbut.ops)
          owns := howns }
      have hgrows := (hgrows₁.trans hgrows₂).trans_but hbut (Nat.le_refl _)
      exact ⟨hkept, hgrows, hinto, hcopy ▸ hnew⟩
    split
    · exact hcomplete hkept₁ (.refl _) (by simp) (hm.mono hgrows₁.values)
    · next b hb =>
      refine .bind (newBlock_leaves hkept₁ _) fun b' => .each fun e₂ he₂ => ?_
      obtain ⟨hkept₂, hgrows₂, hb'⟩ := he₂
      refine .step rfl (.bind (Q := fun m' e' => e' = e₂ ∧ Kept s e₂ ∧ m'.Into e₂.graph)
        (.lift ?_ ?_) fun m₁ => .bind (copyAll_leaves ih _ hb') fun m₂ => .each fun e₃ he₃ => ?_)
      · rintro f _ - rfl
        exact hkept₂
      · rintro m' _ hm' rfl
        exact ⟨rfl, hkept₂,
          (hm.mono (hgrows₁.trans hgrows₂).values).insertAll (hkept₂.exact.args b') hm'⟩
      · obtain ⟨hkept₃, hgrows₃, hinto₃⟩ := he₃
        refine hcomplete hkept₃ (hgrows₂.trans hgrows₃) (fun c hc => ?_) hinto₃
        exact Option.some.inj hc ▸ Nat.lt_of_lt_of_le hb' hgrows₃.blocks

theorem copy_copies (s : Prop) : Copies s copy := fun i m e₀ h hm =>
  .step rfl (copyWithin_copies s _ i m e₀ h hm)

theorem clone_leaves (i : OpId) (h : Kept s e₀) (hm : m.Into e₀.graph) :
    Leaves (fun _ => Kept s) (· = e₀) (clone i m) fun _ => Kept s := by
  refine .bind (copy_copies s i m e₀ h hm) fun r =>
    .bind ((insert_leaves r.1).mono ?_ (fun _ _ he => he)
    fun _ _ he => he) fun _ => .pure fun e he => he
  rintro e ⟨hkept, -, -, hnew⟩
  exact ⟨hkept, hnew.lt, hnew.owns⟩

theorem newFunc_kept (h : Kept s e₀) (name : String) (tys : List Ty) :
    Kept s (onGraph e₀ (e₀.graph.withFunc name tys)) := by
  refine h.onGraph ((h.exact.withBlock tys).of_entries (fun _ => rfl)
    (fun _ => rfl) rfl (fun b => ?_) fun b => ?_) (fun hs => (h.sane hs).withFunc name tys)
      (by rw [blocksSize_withFunc]; exact Nat.le_succ _)
  all_goals
    rw [block_withFunc, block_withBlock]
    split <;> rfl

/-- **Copying a function.** -/
theorem cloneFunc_leaves (f : FuncId) (h : Kept s e₀) :
    Leaves (fun _ => Kept s) (· = e₀) (cloneFunc f) fun _ => Kept s := by
  have hstay (x : Option BlockId) {e : Editor} (he : Kept s e) :
      Leaves (fun _ => Kept s) (· = e) (liftM (present x) : Edit BlockId) fun b e' => e' = e ∧
      x = some b := by
    refine .lift (fun _ e' _ heq => heq ▸ he) fun b e' hb heq => ⟨heq, present_ok.1 hb⟩
  refine .step rfl (.bind (.step rfl (hstay _ h)) fun b => .each fun e he => ?_)
  obtain ⟨rfl, -⟩ := he
  have hnew := newFunc_kept h (e.graph.func f).name ((e.graph.block b).args.map e.graph.ty)
  refine .step (newFunc_eq _ _) (.bind (.step rfl (hstay _ hnew)) fun b' => .each fun e₁ he₁ => ?_)
  obtain ⟨heq, hb'⟩ := he₁
  rw [← heq] at hnew
  have hlt : b'.idx < e₁.graph.blocks.size := by
    rw [onGraph, func_withFunc_new] at hb'
    cases hb'
    simp [heq, onGraph, nextBlock]
  refine .step rfl (.bind (Q := fun m' e' => e' = e₁ ∧ Kept s e₁ ∧ m'.Into e₁.graph) (.lift ?_ ?_)
    fun m₁ => .bind (copyAll_leaves (copy_copies s) _ hlt) fun m₂ => .pure fun e he => he.1)
  · rintro f _ - rfl
    exact hnew
  · rintro m' _ hm' rfl
    exact ⟨rfl, hnew, Mapping.Into.insertAll (fun v => .inl (Mapping.lookup_empty v))
      (hnew.exact.args b') hm'⟩

/-! ## 3. Rewiring -/

/-- A use that a walk over the uses of a value has still to come to is still there. -/
theorem reassignAll_leaves {old new : ValueId} (hne : old ≠ new) (n : Nat) (us : List Use)
    (hus : us.Nodup) :
    Leaves (fun _ => Kept s) (fun e => Kept s e ∧ e.graph.values.size = n ∧ new.idx < n ∧
        ∀ u ∈ us, u ∈ (e.graph.value old).uses)
      (us.forM fun u => setOperand u.op u.index new) fun _ e =>
        Kept s e ∧ e.graph.values.size = n := by
  induction us with
  | nil => exact .pure fun e he => ⟨he.1, he.2.1⟩
  | cons u us ih =>
    obtain ⟨hnot, hus⟩ := nodup_cons.1 hus
    refine .each fun e he => ?_
    obtain ⟨hkept, hsize, hnew, hin⟩ := he
    have hu := hin u mem_cons_self
    have hnew' : new.idx < e.graph.values.size := hsize ▸ hnew
    refine .step (setOperand_eq (hkept.exact.tidy.used old u hu)) ?_
    refine (ih hus).mono ?_ (fun _ _ he => he) fun _ _ he => he
    rintro _ rfl
    refine ⟨hkept.onGraph (hkept.exact.reassign hu hne hnew')
      (fun hs => (hkept.sane hs).reassign hu hne hnew') (Nat.le_refl _), ?_, hnew, ?_⟩
    · exact (valuesSize_reassign _ _ _ _).trans hsize
    · intro w hw
      have hwu : w ≠ u := fun heq => hnot (heq ▸ hw)
      refine (mem_uses_reassign hkept.exact.tidy hu hne hnew').2 ?_
      rw [if_neg hwu]
      exact hin w (mem_cons_of_mem _ hw)

theorem replaceUses_leaves (src : ValueId) {dst : ValueId} {n : Nat} (hdst : dst.idx < n) :
    Leaves (fun _ => Kept s) (fun e => Kept s e ∧ e.graph.values.size = n)
      (replaceUses src dst) fun _ e =>
      Kept s e ∧ e.graph.values.size = n := by
  unfold replaceUses
  split
  · exact .pure fun e he => he
  · next hne =>
    refine .each fun e he => .step rfl (.bind (Q := fun _ => (· = e)) (.demand ?_ ?_) fun _ => ?_)
    · rintro _ rfl
      exact he.1
    · exact fun _ _ heq => heq
    · refine (reassignAll_leaves hne n _ (he.1.exact.tidy.usesNodup src)).mono ?_
        (fun _ _ he => he) fun _ _ he => he
      rintro _ rfl
      exact ⟨he.1, he.2, hdst, fun _ hu => hu⟩

/-! ## 4. Erasing -/

/-- Operations may have left their blocks; those that know a block are in it. -/
structure Unplaced (g g' : Graph) : Prop where
  values : g'.values = g.values
  opsSize : g'.ops.size = g.ops.size
  blocksSize : g'.blocks.size = g.blocks.size
  op : ∀ j, ∃ p, g'.op j = { g.op j with parent := p }
  args : ∀ b, (g'.block b).args = (g.block b).args
  placed : ∀ j b, (g'.op j).parent = some b → j ∈ (g'.block b).ops

theorem unplaced_takeOut (h : ∀ j b, (g.op j).parent = some b → j ∈ (g.block b).ops) (b : BlockId)
    (i : OpId) :
    Unplaced g (g.takeOut b i) where
  values := rfl
  opsSize := opsSize_modifyOp _ _ _
  blocksSize := blocksSize_modifyBlock _ _ _
  op j := by
    rw [op_takeOut]
    split <;> exact ⟨_, rfl⟩
  args c := by
    rw [block_takeOut]
    split <;> rfl
  placed j c hc := by
    rw [op_takeOut] at hc
    split at hc
    · cases hc
    · next hne =>
      have hmem := h j c hc
      rw [block_takeOut]
      split
      · have hij : j ≠ i := by
          rintro rfl
          exact hne ⟨rfl, lt_of_parent hc⟩
        exact (mem_erase_of_ne hij).2 hmem
      · exact hmem

/-- An operation that knows its block can be taken out of it. -/
theorem unplace_unplaced
    (h : ∀ j b, (e₀.graph.op j).parent = some b → j ∈ (e₀.graph.block b).ops) (i : OpId) :
    ∃ g, unplace i e₀ = .ok () (onGraph e₀ g) ∧ Unplaced e₀.graph g ∧ (Sane e₀.graph → Sane g) := by
  cases hp : (e₀.graph.op i).parent with
  | none =>
    refine ⟨e₀.graph, ?_, ⟨rfl, rfl, rfl, fun _ => ⟨_, rfl⟩, fun _ => rfl, h⟩, fun hs => hs⟩
    refine state_bind_ok _ rfl ?_
    simp only [hp]
    rfl
  | some b =>
    exact ⟨_, unplace_eq hp (h i b hp), unplaced_takeOut h b i, fun hs => hs.takeOut b i hp⟩

/-- Operations that are on no use list, and then marked, are erased. -/
theorem exact_erased {g₁ g₂ g₃ : Graph} {D : List OpId} (hg : Exact g) (hdropped : Dropped D g g₁)
    (hgone : ∀ v, ∀ u ∈ (g₁.value v).uses, u.op ∉ D) (hunplaced : Unplaced g₁ g₂)
    (hmarked : Marked D g₂ g₃) (herased : ∀ j, j.idx < g₂.ops.size →
      (g₃.op j).erased = ((g₂.op j).erased || decide (j ∈ D))) : Exact g₃ := by
  have hvalue (v : ValueId) : g₃.value v = g₁.value v := by
    rw [hmarked.value]
    unfold Graph.value
    rw [hunplaced.values]
  have hop (j : OpId) : ∃ p x, g₃.op j = { g.op j with parent := p, erased := x } ∧
      (g₂.op j).parent = p ∧ (g₂.op j).erased = (g.op j).erased := by
    obtain ⟨x, hx, -⟩ := hmarked.op j
    obtain ⟨p, hp⟩ := hunplaced.op j
    rw [hdropped.op] at hp
    exact ⟨p, x, by rw [hx, hp], by rw [hp], by rw [hp]⟩
  have hsize : g₃.values.size = g.values.size := by
    rw [hmarked.values, hunplaced.values, hdropped.valuesSize]
  refine hg.forget (D := D) ?_ ?_ (Nat.le_of_eq hsize.symm) ?_ ?_ ?_ ?_ ?_
  · intro v
    obtain ⟨us, hus, hsub, -⟩ := hdropped.value v
    rw [hvalue, hus]
    exact hsub
  · intro v u hu
    obtain ⟨us, hus, -, hkeep⟩ := hdropped.value v
    rw [hvalue]
    refine ⟨hgone v u, fun hd => ?_⟩
    rw [hus]
    exact hkeep u hu hd
  · intro j
    obtain ⟨p, x, hj, -⟩ := hop j
    rw [hj]
  · intro j hj
    obtain ⟨p, x, -, -, hlive⟩ := hop j
    rw [herased j (by rwa [hunplaced.opsSize, hdropped.ops]), hlive]
  · intro j v hv
    obtain ⟨p, x, hj, -⟩ := hop j
    rw [hj] at hv
    exact hsize ▸ hg.results j v hv
  · intro b v hv
    rw [hmarked.block, hunplaced.args, hdropped.block] at hv
    exact hsize ▸ hg.args b v hv
  · intro j b hb
    obtain ⟨p, x, hj, hp, -⟩ := hop j
    rw [hj] at hb
    rw [hmarked.block]
    exact hunplaced.placed j b (hp.trans hb)

/-- What erasing does once its checks have passed. -/
theorem eraseAll_eq {e : Editor} (h : Exact e.graph) (i : OpId) (D : List OpId) : ∃ g, (do
      D.forM fun j => modify fun e => e.noteErased j
      D.forM dropOperands
      unplace i
      D.forM fun j => modifyGraph fun g => g.modifyOp j fun y => { y with erased := true } :
      Edit Unit) e =
        .ok () (onGraph (e.noteGone D) g) ∧ Exact g ∧ (Sane e.graph → Sane g) ∧
        g.ops.size = e.graph.ops.size ∧
      g.blocks.size = e.graph.blocks.size ∧ ∀ j, j.idx < e.graph.ops.size →
        (g.op j).erased = ((e.graph.op j).erased || decide (j ∈ D)) := by
  obtain ⟨g₁, hdrop, hdropped, hgone⟩ := dropAll_eq (e := e.noteGone D) (D := D) D fun _ h => h
  have hplaced (j : OpId) (b : BlockId)
      (hp : (g₁.op j).parent = some b) : j ∈ (g₁.block b).ops := by
    rw [hdropped.op] at hp
    rw [hdropped.block]
    exact h.placed j b hp
  obtain ⟨g₂, hunplace, hunplaced, hsane⟩ := @unplace_unplaced (onGraph (e.noteGone D) g₁) hplaced i
  obtain ⟨g₃, hmark, hmarked, herased⟩ := markAll_eq (e := onGraph (e.noteGone D) g₂)
    (D := D) D fun _ h => h
  have hsize : g₂.ops.size = e.graph.ops.size :=
    hunplaced.opsSize.trans (congrArg Array.size hdropped.ops)
  have hexact : Exact g₃ := exact_erased h hdropped (hgone h.tidy) hunplaced hmarked herased
  have hsane₃ : Sane e.graph → Sane g₃ := fun hs => hmarked.sane (hsane (hdropped.sane hs))
  refine ⟨g₃, state_bind_ok () (noteErased_eq D e) (state_bind_ok () hdrop
    (state_bind_ok () hunplace hmark)), hexact, hsane₃, hmarked.opsSize.trans hsize, ?_,
    fun j hj => ?_⟩
  · rw [hmarked.blocks]
    exact hunplaced.blocksSize.trans (congrArg Array.size hdropped.blocks)
  · obtain ⟨p, hp⟩ := hunplaced.op j
    rw [herased j (by rwa [onGraph, hsize]), onGraph, hp, onGraph, hdropped.op]
    rfl

theorem leave_leaves (i : OpId) (h : Kept s e₀) :
    Leaves (fun _ => Kept s) (· = e₀) (leave i) fun _ e => Kept s e ∧ e.graph = e₀.graph := by
  refine .step rfl ?_
  split
  · unfold pointAfter
    refine .bind (Q := fun p e => e = e₀ ∧ ∀ b, p.block = some b → b.idx < e₀.graph.blocks.size)
      (.step rfl (.bind (Q := fun b e => e = e₀ ∧ (e₀.graph.op i).parent = some b)
        (.lift ?_ ?_) fun b => ?_)) fun p => ?_
    · exact fun _ e _ he => he ▸ h
    · rintro b e hb rfl
      exact ⟨rfl, present_ok.1 hb⟩
    · refine .each fun e he => ?_
      obtain ⟨rfl, hp⟩ := he
      refine .step rfl (.pure ?_)
      rintro _ rfl
      refine ⟨rfl, fun c hc => ?_⟩
      cases hc
      exact lt_of_listed (h.exact.placed i b hp)
    · refine .modify ?_
      rintro e ⟨rfl, hp⟩
      exact ⟨⟨⟨h.exact, hp⟩, h.sane⟩, rfl⟩
  · refine .pure ?_
    rintro e rfl
    exact ⟨h, rfl⟩

theorem erase_leaves (i : OpId) : Leaves (fun _ => Kept s) (Kept s) (erase i) fun _ => Kept s := by
  refine .each fun e₀ h => ?_
  have hkept {e : Editor} (he : e = e₀) : Kept s e := he ▸ h
  refine .step rfl (.bind (Q := fun _ => (· = e₀)) (.demand (fun _ => hkept) fun _ _ he => he)
    fun _ => .bind (Q := fun _ => (· = e₀)) (.forM fun r _ => ?_) fun _ => ?_)
  · exact .forM fun u _ => .demand (fun _ => hkept) fun _ _ he => he
  · refine .bind (leave_leaves i h) fun _ => .each fun e he => ?_
    obtain ⟨g, hg, hexact, hsane, -, hblocks, -⟩ := eraseAll_eq he.1.exact i _
    refine .of_ok ?_
    rintro _ rfl
    exact ⟨(), _, hg, ⟨hexact, fun b hb => hblocks ▸ he.1.point b hb⟩,
      fun hs => hsane (he.1.sane hs)⟩

theorem replaceOp_leaves (i : OpId) {values : List ValueId} (h : Kept s e₀)
    (hvalues : ∀ v ∈ values, v.idx < e₀.graph.values.size) :
    Leaves (fun _ => Kept s) (· = e₀) (replaceOp i values) fun _ => Kept s := by
  refine .step rfl (.bind (Q := fun _ => (· = e₀)) (.demand ?_ fun _ _ he => he) fun _ =>
    .step rfl ?_)
  · rintro _ rfl
    exact h
  · refine .bind (Q := fun _ => Kept s) ?_ fun _ => erase_leaves i
    refine .mono (.forM (P := fun e => Kept s e ∧ e.graph.values.size = e₀.graph.values.size)
      fun p hp => replaceUses_leaves p.1 (hvalues p.2 (of_mem_zip hp).2)) ?_
      (fun _ _ he => he.1) fun _ _ he => he
    rintro _ rfl
    exact ⟨⟨⟨h.exact, h.point⟩, h.sane⟩, rfl⟩

end Edit

/-! ## 5. Emissions -/

section Emissions

open Node

variable {P : Graph → Node → Prop} {V : List ValueId} {b c : BlockId} {pre post : List OpId}
  {e e' : Editor} {ns : List Node}

/-- A new operation stands in the body that it names. -/
theorem Emitted.listed_parent (h : Emitted P V b pre post e e' ns) {m : Node} (hm : m ∈ subsAll ns)
    (hc : (e'.graph.op m.id).parent = some c) : m.id ∈ (e'.graph.block c).ops := by
  rcases mem_or_child hm with hm | ⟨k, hk, hmem⟩
  · cases ((h.placed m hm).symm.trans hc)
    rw [h.next.place.ops]
    exact mem_append_left _ (mem_append_right _ (mem_map_of_mem hm))
  · have hhere := h.held k hk
    rw [hhere.bodyOps c ((hhere.placed m hmem).symm.trans hc)]
    exact mem_map_of_mem hmem

variable (hs : Start V b pre post e) (h : Emitted P V b pre post e e' ns)

include hs h

/-- An operation that was there stands in the body that it names. -/
theorem Emitted.kept_parent {i : OpId} (hi : i ∈ (e.graph.block c).ops) :
    i ∈ (e'.graph.block c).ops := by
  by_cases hcb : c = b
  · subst hcb
    rw [hs.place.ops] at hi
    rw [h.next.place.ops]
    rcases mem_append.1 hi with hi | hi
    · exact mem_append_left _ (mem_append_left _ hi)
    · exact mem_append_right _ hi
  · rw [h.grows.block c (lt_of_listed hi) fun heq => hcb (Option.some.inj heq)]
    exact hi

/-- **What is emitted keeps the use lists exact.** -/
theorem Emitted.exact (hg : Exact e.graph) : Exact e'.graph := by
  refine .of_sane h.next.sane (fun k hk => ?_) fun k hk u hu => ?_
  · rcases Nat.lt_or_ge k e.graph.ops.size with hold | hnew
    · rw [Exact.Entry, h.grows.op ⟨k⟩ hold]
      refine ⟨fun hlive p hp => ?_, fun v hv => ?_, fun c hc => ?_⟩
      · exact h.grows.uses _ _ (hg.listed ⟨k⟩ hlive p.2 p.1 (mk_mem_zipIdx_iff_getElem?.1 hp))
      · exact Nat.lt_of_lt_of_le (hg.operands ⟨k⟩ v hv) h.grows.valuesLe
      · exact h.kept_parent hs (hg.placed ⟨k⟩ c (Option.mem_toList.1 hc))
    · obtain ⟨m, hm, hid⟩ := mem_map.1 (h.covers ⟨k⟩ hnew hk)
      have hhere := h.held m hm
      rw [← hid, Exact.Entry, hhere.operands]
      refine ⟨fun _ p hp => hhere.used p.2 p.1 (mk_mem_zipIdx_iff_getElem?.1 hp), fun v hv => ?_,
        fun c hc => ?_⟩
      · exact h.names_lt hm (by simp [names, hv])
      · exact h.listed_parent hm (Option.mem_toList.1 hc)
  · obtain ⟨us, huses, hnew⟩ := h.grows.users ⟨k⟩
    have hlt := use_op_lt h.next.sane.tidy hu
    rw [huses, mem_append] at hu
    rcases hu with hu | hu
    · rw [h.grows.op u.op (use_op_lt hg.tidy hu)]
      exact hg.live ⟨k⟩ u hu
    · obtain ⟨m, hm, hid⟩ := mem_map.1 (h.covers u.op (hnew u hu) hlt)
      rw [← hid]
      exact (h.held m hm).present

/-- Where something has been emitted, the insertion point is in the graph. -/
theorem Emitted.booked (hg : Exact e.graph) : Booked e' := by
  refine ⟨h.exact hs hg, fun c hc => ?_⟩
  cases h.next.place.block.symm.trans hc
  exact h.next.place.lt

end Emissions

/-! ## 6. Every request -/

namespace Rewrite

variable {s : Prop} {e : Editor}

/-- **A request keeps the books, also when it ends by a fault.** -/
theorem run_kept (r : Rewrite) (e : Editor) (he : Kept s e) (h : r.Known e.graph) :
    Kept s (r.run.after e) := by
  cases r with
  | setPoint p => exact ⟨⟨he.exact, h⟩, he.sane⟩
  | newBlock tys =>
    exact (Leaves.bind (R := fun _ => Kept s) (newBlock_leaves he tys) fun _ => .pure fun _ he =>
      he.1).after rfl
  | create kind operands tys attr body =>
    exact (Leaves.bind (R := fun _ => Kept s) (create_leaves he kind h.1 tys attr h.2)
      fun _ => .pure fun _ he => he).after rfl
  | clone i m =>
    exact (Leaves.bind (R := fun _ => Kept s) (clone_leaves i he h.2) fun _ => .pure fun _ he =>
      he).after rfl
  | replaceUses src dst =>
    exact ((replaceUses_leaves src h.2).weaken fun _ _ he => he.1).after ⟨he, rfl⟩
  | replaceOp i values => exact (replaceOp_leaves i he h.2).after rfl
  | erase i => exact (erase_leaves i).after he

theorem run_booked (r : Rewrite) (e : Editor) (he : Booked e) (h : r.Known e.graph) :
    Booked (r.run.after e) :=
  (run_kept r e he.kept h).toBooked

/-- A new function is empty. -/
theorem ofFunc_kept (s : Prop) (name : String) (tys : List Ty) : Kept s (Editor.ofFunc name tys) :=
  have hempty : Kept s .empty := ⟨⟨.empty, fun b hb => by cases hb⟩, fun _ => .empty⟩
  newFunc_kept hempty name tys

/-- **What requests build is sane**, faults included. -/
theorem runAll_sane (name : String) (tys : List Ty) (rs : List Rewrite)
    (h : KnownAll rs (Editor.ofFunc name tys)) : Kept True (runAll rs (Editor.ofFunc name tys)) :=
  runAll_keeps run_kept (ofFunc_kept True name tys) rs h

/-- **Use lists are exact.**  After any requests to a rewriter of a function that starts empty,
faults included, the use list of a value names every operand that is the value, of operations that
are not erased, each once, and nothing else. -/
theorem runAll_uses (name : String) (tys : List Ty) (rs : List Rewrite)
    (h : KnownAll rs (Editor.ofFunc name tys)) (v : ValueId) :
    let g := (runAll rs (Editor.ofFunc name tys)).graph
    (g.value v).uses.Nodup ∧ ∀ u : Use, u ∈ (g.value v).uses ↔
      u.op.idx < g.ops.size ∧ (g.op u.op).erased = false ∧
      (g.op u.op).operands[u.index]? = some v := by
  have hkept := runAll_sane name tys rs h
  exact ⟨hkept.exact.tidy.usesNodup v, fun u => hkept.exact.mem_uses⟩

/-- An addition of an index to itself is copied, another one is replaced by the copy, and the first
one is erased, twice; in between an operation asks for a body that has an owner. -/
def mixedRequests : List Rewrite :=
  [.setPoint ⟨some ⟨0⟩, none⟩, .create .addInt [⟨0⟩, ⟨0⟩] [.index] .none none,
    .create .addInt [⟨1⟩, ⟨0⟩] [.index] .none none, .clone ⟨0⟩ .empty, .newBlock [],
    .create .forLoop [⟨1⟩] [] .none (some ⟨1⟩), .create .forLoop [⟨0⟩, ⟨1⟩] [] .none (some ⟨1⟩),
    .replaceOp ⟨1⟩ [⟨3⟩], .replaceUses ⟨1⟩ ⟨3⟩, .erase ⟨0⟩, .erase ⟨0⟩]

theorem knownAll_mixedRequests : KnownAll mixedRequests (Editor.ofFunc "f" [.index]) := by
  refine ⟨?_, ?_, ?_, ?_, ?_, ?_, ?_, ?_, ?_, ?_, ?_, trivial⟩
  · rintro b ⟨⟩
    decide
  · refine ⟨by decide, ?_⟩
    rintro b ⟨⟩
  · refine ⟨by decide, ?_⟩
    rintro b ⟨⟩
  · exact ⟨by decide, fun v => .inl (Mapping.lookup_empty v)⟩
  · trivial
  · refine ⟨by decide, ?_⟩
    rintro b ⟨⟩
    decide
  · refine ⟨by decide, ?_⟩
    rintro b ⟨⟩
    decide
  · exact ⟨by decide, by decide⟩
  · exact ⟨by decide, by decide⟩
  · show _ < _
    decide
  · show _ < _
    decide

theorem runAll_uses_mixed : KnownAll mixedRequests (Editor.ofFunc "f" [.index]) ∧
    ∀ v : ValueId, let g := (runAll mixedRequests (Editor.ofFunc "f" [.index])).graph
      (g.value v).uses.Nodup ∧ ∀ u : Use, u ∈ (g.value v).uses ↔
        u.op.idx < g.ops.size ∧ (g.op u.op).erased = false ∧
          (g.op u.op).operands[u.index]? = some v :=
  ⟨knownAll_mixedRequests, runAll_uses "f" [.index] mixedRequests knownAll_mixedRequests⟩

end Rewrite

end ConvNest.Program
