/-
# Regions that edits keep out of

A region is a part of a graph: some of its operations, values and blocks.  It is closed off if
nothing outside of it refers to anything in it (`Closed`).  A request to a rewriter that speaks only
of what is outside of such a region leaves every entry of the region as it was, and leaves it closed
off, also when it ends by a fault (`Rewrite.run_spares`).  So do requests that follow one another
(`Rewrite.runAll_spares`).
-/
import ConvNest.Proofs.Aftermath
import ConvNest.Proofs.Copy

namespace ConvNest.Program

open Graph List

/-- A part of a graph. -/
structure Region where
  ops : OpId → Prop
  values : ValueId → Prop
  blocks : BlockId → Prop

/-- An operation that refers to nothing in the region. -/
structure Op.Clear (R : Region) (x : Op) : Prop where
  operands : ∀ v ∈ x.operands, ¬ R.values v
  results : ∀ v ∈ x.results, ¬ R.values v
  body : ∀ b, x.body = some b → ¬ R.blocks b
  parent : ∀ b, x.parent = some b → ¬ R.blocks b

/-- A block that refers to nothing in the region. -/
structure Block.Clear (R : Region) (x : Block) : Prop where
  args : ∀ v ∈ x.args, ¬ R.values v
  ops : ∀ i ∈ x.ops, ¬ R.ops i

/-- Nothing outside of the region refers to anything in it. -/
structure Closed (R : Region) (g : Graph) : Prop where
  op : ∀ i, ¬ R.ops i → (g.op i).Clear R
  users : ∀ v, ¬ R.values v → ∀ u ∈ (g.value v).uses, ¬ R.ops u.op
  block : ∀ b, ¬ R.blocks b → (g.block b).Clear R

/-- The region is closed off in the graph `g`, and has there what it has in `g₀`. -/
structure Secluded (R : Region) (g₀ g : Graph) : Prop where
  closed : Closed R g
  opsLt : ∀ i, R.ops i → i.idx < g.ops.size
  valuesLt : ∀ v, R.values v → v.idx < g.values.size
  blocksLt : ∀ b, R.blocks b → b.idx < g.blocks.size
  op : ∀ i, R.ops i → g.op i = g₀.op i
  value : ∀ v, R.values v → g.value v = g₀.value v
  block : ∀ b, R.blocks b → g.block b = g₀.block b
  funcs : g.funcs = g₀.funcs

/-! ## 1. Changes outside of a region -/

namespace Secluded

variable {R : Region} {g₀ g : Graph}

section

variable (h : Secluded R g₀ g)

include h

theorem nextOp : ¬ R.ops g.nextOp := fun hi => Nat.lt_irrefl _ (h.opsLt _ hi)

theorem nextBlock : ¬ R.blocks g.nextBlock := fun hb =>
  Nat.lt_irrefl _ (h.blocksLt _ hb)

theorem nextValues (n : Nat) : ∀ v ∈ g.nextValues n, ¬ R.values v := fun v hv hr =>
  Nat.not_lt.2 ((mem_nextValues g).1 hv).1 (h.valuesLt v hr)

theorem modifyOp {i : OpId} (hi : ¬ R.ops i) {k : Op → Op} (hk : (k (g.op i)).Clear R) :
    Secluded R g₀ (g.modifyOp i k) :=
  { h with
    closed := by
      refine ⟨fun j hj => ?_, h.closed.users, h.closed.block⟩
      rw [op_modifyOp]
      split
      · next heq => exact heq.1 ▸ hk
      · exact h.closed.op j hj
    opsLt := fun j hj => by
      rw [opsSize_modifyOp]
      exact h.opsLt j hj
    op := fun j hj => by
      rw [op_modifyOp, if_neg (by rintro ⟨rfl, -⟩; exact hi hj)]
      exact h.op j hj }

theorem modifyValue {v : ValueId} (hv : ¬ R.values v) {k : Value → Value}
    (hk : ∀ u ∈ (k (g.value v)).uses, ¬ R.ops u.op) : Secluded R g₀ (g.modifyValue v k) :=
  { h with
    closed := by
      refine ⟨h.closed.op, fun w hw => ?_, h.closed.block⟩
      rw [value_modifyValue]
      split
      · next heq => exact heq.1 ▸ hk
      · exact h.closed.users w hw
    valuesLt := fun w hw => by
      rw [valuesSize_modifyValue]
      exact h.valuesLt w hw
    value := fun w hw => by
      rw [value_modifyValue, if_neg (by rintro ⟨rfl, -⟩; exact hv hw)]
      exact h.value w hw }

theorem modifyBlock {b : BlockId} (hb : ¬ R.blocks b) {k : Block → Block}
    (hk : (k (g.block b)).Clear R) :
    Secluded R g₀ (g.modifyBlock b k) :=
  { h with
    closed := by
      refine ⟨h.closed.op, h.closed.users, fun c hc => ?_⟩
      rw [block_modifyBlock]
      split
      · next heq => exact heq.1 ▸ hk
      · exact h.closed.block c hc
    blocksLt := fun c hc => by
      rw [blocksSize_modifyBlock]
      exact h.blocksLt c hc
    block := fun c hc => by
      rw [block_modifyBlock, if_neg (by rintro ⟨rfl, -⟩; exact hb hc)]
      exact h.block c hc }

theorem pushOp {x : Op} (hx : x.Clear R) : Secluded R g₀ (g.pushOp x) :=
  { h with
    closed := by
      refine ⟨fun j hj => ?_, h.closed.users, h.closed.block⟩
      rw [op_pushOp]
      split
      · exact hx
      · exact h.closed.op j hj
    opsLt := fun j hj => by
      rw [opsSize_pushOp]
      exact Nat.lt_succ_of_lt (h.opsLt j hj)
    op := fun j hj => by
      rw [op_pushOp, if_neg (by rintro rfl; exact h.nextOp hj)]
      exact h.op j hj }

end

variable {i : OpId} (h : Secluded R g₀ g)

include h

theorem pushValues (owner : Owner) (tys : List Ty) :
    Secluded R g₀ (g.pushValues (freshValues owner tys)) :=
  { h with
    closed := by
      refine ⟨h.closed.op, fun v hv => ?_, h.closed.block⟩
      by_cases hlt : v.idx < g.values.size
      · rw [value_pushValues_old g _ hlt]
        exact h.closed.users v hv
      · rw [uses_pushValues g owner tys (Nat.le_of_not_lt hlt)]
        exact forall_mem_nil _
    valuesLt := fun v hv => by
      rw [valuesSize_pushValues]
      exact Nat.lt_add_right _ (h.valuesLt v hv)
    value := fun v hv => by
      rw [value_pushValues_old g _ (h.valuesLt v hv)]
      exact h.value v hv }

theorem pushBlock {x : Block} (hx : x.Clear R) :
    Secluded R g₀ (g.pushBlock x) :=
  { h with
    closed := by
      refine ⟨h.closed.op, h.closed.users, fun c hc => ?_⟩
      rw [block_pushBlock]
      split
      · exact hx
      · exact h.closed.block c hc
    blocksLt := fun c hc => by
      rw [blocksSize_pushBlock]
      exact Nat.lt_succ_of_lt (h.blocksLt c hc)
    block := fun c hc => by
      rw [block_pushBlock, if_neg (by rintro rfl; exact h.nextBlock hc)]
      exact h.block c hc }

theorem withBlock (tys : List Ty) : Secluded R g₀ (g.withBlock tys) := by
  have hempty : (⟨[], [], none, none⟩ : Block).Clear R := ⟨forall_mem_nil _, forall_mem_nil _⟩
  have hpushed := (h.pushBlock hempty).pushValues (.argument g.nextBlock) tys
  exact hpushed.modifyBlock h.nextBlock ⟨h.nextValues _, (hpushed.closed.block _ h.nextBlock).ops⟩

/-- What is nested in an operation outside of the region is outside of it. -/
theorem walk (descend : OpId → Bool) (n : Nat) (hi : ¬ R.ops i) :
    ∀ j ∈ g.walkWithin descend n i, ¬ R.ops j := by
  induction n generalizing i with
  | zero =>
    intro j hj
    rw [walkWithin, mem_singleton] at hj
    exact hj ▸ hi
  | succ n ih =>
    intro j hj
    rw [walkWithin, mem_cons] at hj
    rcases hj with rfl | hj
    · exact hi
    split at hj
    · obtain ⟨k, hk, hj⟩ := mem_flatMap.1 hj
      rw [bodyOps] at hk
      split at hk
      · next b hb => exact ih ((h.closed.block b ((h.closed.op i hi).body b hb)).ops k hk) j hj
      · cases hk
    · cases hj

theorem subtree (hi : ¬ R.ops i) : ∀ j ∈ g.subtree i, ¬ R.ops j :=
  h.walk _ _ hi

end Secluded

/-! ## 2. Edits outside of a region -/

/-- The region is closed off and as it was in `g₀`, and the insertion point is outside of it. -/
structure Spares (R : Region) (g₀ : Graph) (e : Editor) : Prop where
  graph : Secluded R g₀ e.graph
  point : ∀ b, e.point.block = some b → ¬ R.blocks b

/-- A mapping that gives values outside of the region names outside of it. -/
def Mapping.Avoids (m : Mapping) (R : Region) : Prop := ∀ v, ¬ R.values v → ¬ R.values (m.lookup v)

theorem Mapping.Avoids.insertAll {m m' : Mapping} {R : Region}
    (h : m.Avoids R) {src dst : List ValueId} (hdst : ∀ v ∈ dst, ¬ R.values v)
    (hm : m.insertAll src dst = .ok m') : m'.Avoids R := fun v hv =>
  (insertAll_lookup_or hm v).elim (fun heq => heq ▸ h v hv) (hdst _)

namespace Spares

variable {R : Region} {g₀ : Graph} {α : Type}
variable {β : Type} {i : OpId} {v : ValueId} {b : BlockId} {operands : List ValueId}
  {body : Option BlockId} {m : Mapping}

/-- Computations that spare the region. -/
abbrev By (R : Region) (g₀ : Graph) (x : Edit α) (Q : α → Prop) : Prop :=
  Leaves (fun _ => Spares R g₀) (Spares R g₀) x fun a e => Spares R g₀ e ∧ Q a

section

variable {Q : α → Prop} {P : β → Prop}

theorem onGraph {e : Editor} (h : Spares R g₀ e) {g : Graph} (hg : Secluded R g₀ g) :
    Spares R g₀ (Edit.onGraph e g) := ⟨hg, h.point⟩

theorem modifyGraph {k : Graph → Graph} (h : ∀ g, Secluded R g₀ g → Secluded R g₀ (k g)) :
    By R g₀ (Edit.modifyGraph k) fun _ => True :=
  .modify fun _ he => ⟨⟨h _ he.graph, he.point⟩, trivial⟩

theorem demand (c : Bool) (f : Fault) : By R g₀ (Edit.demand c f) fun _ => c = true :=
  .demand (fun _ he => he) fun _ hc he => ⟨he, hc⟩

/-- A walk each step of which spares the region. -/
theorem forM {xs : List β} {k : β → Edit PUnit} (h : ∀ x ∈ xs, By R g₀ (k x) fun _ => True) :
    By R g₀ (xs.forM k) fun _ => True :=
  (Leaves.forM fun x hx => (h x hx).weaken fun _ _ he => he.1).weaken fun _ _ he => ⟨he, trivial⟩

/-- One step after another. -/
theorem bind {x : Edit α} {k : α → Edit β} (hx : By R g₀ x Q) (hk : ∀ a, Q a → By R g₀ (k a) P) :
    By R g₀ (x >>= k) P :=
  Leaves.bind hx fun a e he => hk a he.2 e he.1

/-- A step that looks at the graph. -/
theorem graph_bind {k : Graph → Edit β} (hk : ∀ g, Secluded R g₀ g → By R g₀ (k g) P) :
    By R g₀ (Edit.graph >>= k) P :=
  Leaves.graph_bind fun g e he => hk g (he.2 ▸ he.1.graph) e he.1

theorem op_bind (hi : ¬ R.ops i) {k : Op → Edit β} (hk : ∀ x : Op, x.Clear R → By R g₀ (k x) P) :
    By R g₀ (Edit.op i >>= k) P :=
  Leaves.op_bind fun x e he => hk x (he.2 ▸ he.1.graph.closed.op i hi) e he.1

theorem pure {a : α} (h : Q a) : By R g₀ (Pure.pure a) Q := .pure fun _ he => ⟨he, h⟩

theorem throw (f : Fault) : By R g₀ (MonadExcept.throw f) Q := .throw fun _ he => he

theorem lift {x : Except Fault α} (h : ∀ a, x = .ok a → Q a) :
    By R g₀ (liftM x : Edit α) Q :=
  .lift (fun _ _ _ he => he) fun a _ ha he => ⟨he, h a ha⟩

end

/-! ### Creating -/

theorem newValues (owner : Owner) (tys : List Ty) :
    By R g₀ (Edit.newValues owner tys) fun vs => ∀ v ∈ vs, ¬ R.values v :=
  .of_ok fun _ he => ⟨_, _, Edit.newValues_eq owner tys, he.onGraph (he.graph.pushValues owner tys),
    he.graph.nextValues _⟩

theorem newBlock (tys : List Ty) : By R g₀ (Edit.newBlock tys) fun b => ¬ R.blocks b :=
  .of_ok fun _ he => ⟨_, _, Edit.newBlock_eq tys, he.onGraph (he.graph.withBlock tys),
    he.graph.nextBlock⟩

theorem reserveOp (kind : Kind) (attr : Attr) :
    By R g₀ (Edit.reserveOp kind attr) fun i => ¬ R.ops i := by
  refine .of_ok fun e he => ⟨_, _, Edit.reserveOp_eq kind attr, he.onGraph (he.graph.pushOp ?_),
    he.graph.nextOp⟩
  exact ⟨forall_mem_nil _, forall_mem_nil _, fun _ h => (Option.some_ne_none _ h.symm).elim,
    fun _ h => (Option.some_ne_none _ h.symm).elim⟩

theorem addUse (hv : ¬ R.values v) {u : Use} (hu : ¬ R.ops u.op) :
    By R g₀ (Edit.addUse v u) fun _ => True :=
  modifyGraph fun _ hg => hg.modifyValue hv fun w hw => (mem_append.1 hw).elim
    (hg.closed.users v hv w) fun h => mem_singleton.1 h ▸ hu

theorem removeUse (hv : ¬ R.values v) (u : Use) : By R g₀ (Edit.removeUse v u) fun _ => True :=
  modifyGraph fun _ hg => hg.modifyValue hv fun w hw => hg.closed.users v hv w (mem_of_mem_erase hw)

theorem adopt (i : OpId) (hb : ¬ R.blocks b) : By R g₀ (Edit.adopt i b) fun _ => True := by
  refine graph_bind fun g _ => ?_
  split
  · exact throw _
  · exact modifyGraph fun g hg =>
      hg.modifyBlock hb ⟨(hg.closed.block b hb).args, (hg.closed.block b hb).ops⟩

theorem completeOp (hi : ¬ R.ops i) (hoperands : ∀ v ∈ operands, ¬ R.values v) (tys : List Ty)
    (hbody : ∀ b, body = some b → ¬ R.blocks b) :
    By R g₀ (Edit.completeOp i operands tys body) fun _ => True := by
  refine bind (modifyGraph fun g hg => hg.modifyOp hi ?_) fun _ _ => bind (forM fun p hp => ?_)
    fun _ _ =>
    bind (newValues _ tys) fun results hresults => bind (modifyGraph fun g hg => hg.modifyOp hi ?_)
      fun _ _ => ?_
  · exact { hg.closed.op i hi with operands := hoperands, body := hbody }
  · exact addUse (hoperands _ (fst_mem_of_mem_zipIdx hp)) hi
  · exact { hg.closed.op i hi with results := hresults }
  · split
    · exact pure trivial
    · exact adopt i (hbody _ rfl)

theorem place (hb : ¬ R.blocks b) (pos : Nat) (hi : ¬ R.ops i) :
    By R g₀ (Edit.place b pos i) fun _ => True := by
  refine op_bind hi fun x _ => bind (demand _ _) fun _ _ => bind (modifyGraph fun g hg => ?_)
    fun _ _ =>
    modifyGraph fun g hg => hg.modifyOp hi ?_
  · refine hg.modifyBlock hb ⟨(hg.closed.block b hb).args, fun j hj => ?_⟩
    rcases eq_or_mem_of_mem_insertIdx hj with rfl | hj
    · exact hi
    · exact (hg.closed.block b hb).ops j hj
  · exact { hg.closed.op i hi with parent := fun c hc => Option.some.inj hc ▸ hb }

theorem append (hb : ¬ R.blocks b) (hi : ¬ R.ops i) : By R g₀ (Edit.append b i) fun _ => True := by
  exact graph_bind fun _ _ => place hb _ hi

theorem insert (hi : ¬ R.ops i) : By R g₀ (Edit.insert i) fun _ => True :=
  .insert (fun _ _ he => he) fun _ b pos he hb _ _ heq => place (he.point b hb) pos hi _ (heq ▸ he)

theorem create (kind : Kind) (hoperands : ∀ v ∈ operands, ¬ R.values v)
    (tys : List Ty) (attr : Attr) (hbody : ∀ b, body = some b → ¬ R.blocks b) :
    By R g₀ (Edit.create kind operands tys attr body) fun i => ¬ R.ops i := by
  refine bind (Q := fun i => ¬ R.ops i) (bind (reserveOp kind attr) fun i hi => ?_) fun i hi => ?_
  · exact bind (completeOp hi hoperands tys hbody) fun _ _ => pure hi
  · exact bind (insert hi) fun _ _ => pure hi

/-! ### Copying -/

theorem completeCopy {g : Graph} (i : OpId) {copy : OpId} (hcopy : ¬ R.ops copy)
    (hoperands : ∀ v ∈ operands, ¬ R.values v)
    (hbody : ∀ b, body = some b → ¬ R.blocks b) (hm : m.Avoids R) :
    By R g₀ (Edit.completeCopy g i copy operands body m) fun r => ¬ R.ops r.1 ∧ r.2.Avoids R := by
  refine bind (completeOp hcopy hoperands _ hbody) fun _ _ => op_bind hcopy fun x hx => bind
    (lift (Q := fun m' => m'.Avoids R) fun m' hm' => ?_) fun m' hm' => pure ⟨hcopy, hm'⟩
  exact hm.insertAll hx.results hm'

theorem copyWithin (n : Nat) (hi : ¬ R.ops i) (hm : m.Avoids R) :
    By R g₀ (Edit.copyWithin n i m) fun r => ¬ R.ops r.1 ∧ r.2.Avoids R := by
  induction n generalizing i m with
  | zero => exact throw _
  | succ n ih =>
    refine graph_bind fun g hg => bind (reserveOp _ _) fun copy hcopy => ?_
    have hoperands : ∀ v ∈ (g.op i).operands.map m.lookup, ¬ R.values v := by
      intro v hv
      obtain ⟨w, hw, rfl⟩ := mem_map.1 hv
      exact hm w ((hg.closed.op i hi).operands w hw)
    split
    · exact completeCopy i hcopy hoperands (fun _ h => (Option.some_ne_none _ h.symm).elim) hm
    · next b hb =>
      have hb := (hg.closed.op i hi).body b hb
      refine bind (newBlock _) fun b' hb' => graph_bind fun g' hg' => bind
        (lift (Q := fun m' => m'.Avoids R) fun m' hm' =>
          hm.insertAll (hg'.closed.block b' hb').args hm')
        fun m₁ hm₁ => bind (Q := fun m' => m'.Avoids R) ?_ fun m₂ hm₂ => ?_
      · refine .mono (.foldlM (J := fun m' e => Spares R g₀ e ∧ m'.Avoids R) (fun j hj m' => ?_) m₁)
          (fun _ he => ⟨he, hm₁⟩) (fun _ _ h => h) fun _ _ h => h
        exact fun e he =>
          (bind (ih ((hg.closed.block b hb).ops j hj) he.2) fun r hr => bind (append hb' hr.1)
          fun _ _ => pure hr.2 : By R g₀ _ fun m' : Mapping => m'.Avoids R) e he.1
      · exact completeCopy i hcopy hoperands (fun c hc => Option.some.inj hc ▸ hb') hm₂

theorem clone (hi : ¬ R.ops i) (hm : m.Avoids R) :
    By R g₀ (Edit.clone i m) fun r => ¬ R.ops r.1 ∧ r.2.Avoids R := by
  refine bind (Q := fun r => ¬ R.ops r.1 ∧ r.2.Avoids R) (graph_bind fun g _ => copyWithin _ hi hm)
    fun r hr => ?_
  exact bind (insert hr.1) fun _ _ => pure hr

/-! ### Rewiring and erasing -/

theorem setOperand (hi : ¬ R.ops i) (k : Nat) (hv : ¬ R.values v) :
    By R g₀ (Edit.setOperand i k v) fun _ => True := by
  refine op_bind hi fun x hx => bind (lift (Q := fun w => ¬ R.values w) fun w hw => ?_)
    fun old hold =>
    bind (removeUse hold _) fun _ _ => bind (modifyGraph fun g hg => hg.modifyOp hi ?_) fun _ _ =>
      addUse hv hi
  · unfold itemAt at hw
    split at hw
    · next y hy => exact Except.ok.inj hw ▸ hx.operands y (mem_of_getElem? hy)
    · cases hw
  · refine { hg.closed.op i hi with operands := fun w hw => ?_ }
    rcases mem_or_eq_of_mem_set hw with hw | rfl
    · exact (hg.closed.op i hi).operands w hw
    · exact hv

theorem replaceUses {src dst : ValueId} (hsrc : ¬ R.values src) (hdst : ¬ R.values dst) :
    By R g₀ (Edit.replaceUses src dst) fun _ => True := by
  unfold Edit.replaceUses
  split
  · exact pure trivial
  · refine graph_bind fun g hg => bind (demand _ _) fun _ _ => forM fun u hu => ?_
    exact setOperand (hg.closed.users src hsrc u hu) _ hdst

variable (hi : ¬ R.ops i)

include hi

theorem dropOperands : By R g₀ (Edit.dropOperands i) fun _ => True := by
  exact op_bind hi fun x hx => forM fun p hp =>
    removeUse (hx.operands _ (fst_mem_of_mem_zipIdx hp)) _

theorem unplace : By R g₀ (Edit.unplace i) fun _ => True := by
  refine graph_bind fun g hg => ?_
  split
  · exact pure trivial
  · next b hb =>
    have hb := (hg.closed.op i hi).parent b hb
    refine bind (demand _ _) fun _ _ => bind (modifyGraph fun g hg => hg.modifyBlock hb ?_)
      fun _ _ =>
      modifyGraph fun g hg => hg.modifyOp hi ?_
    · exact ⟨(hg.closed.block b hb).args, fun j hj =>
        (hg.closed.block b hb).ops j (mem_of_mem_erase hj)⟩
    · exact { hg.closed.op i hi with parent := fun _ h => (Option.some_ne_none _ h.symm).elim }

theorem leave : By R g₀ (Edit.leave i) fun _ => True := by
  refine .get_bind fun e₀ e he => (?_ : By R g₀ _ fun _ => True) e he.1
  split
  · refine bind (Q := fun p : InsertionPoint => ∀ b, p.block = some b → ¬ R.blocks b) ?_
      fun p hp => ?_
    · refine op_bind hi fun x hx => bind (lift (Q := fun b => ¬ R.blocks b) fun b hb => ?_)
        fun b hb =>
        graph_bind fun g _ => pure fun c hc => Option.some.inj hc ▸ hb
      unfold present at hb
      split at hb
      · next c hc => exact Except.ok.inj hb ▸ hx.parent c hc
      · cases hb
    · exact .modify fun e he => ⟨⟨he.graph, hp⟩, trivial⟩
  · exact pure trivial

theorem erase : By R g₀ (Edit.erase i) fun _ => True := by
  refine graph_bind fun g hg => bind (demand _ _) fun _ _ =>
    bind (forM fun r _ => forM fun u _ => ?_)
    fun _ _ => bind (leave hi) fun _ _ => bind (forM fun j _ => ?_) fun _ _ => bind
      (forM fun j hj => dropOperands (hg.subtree hi j hj)) fun _ _ => bind (unplace hi) fun _ _ =>
        forM fun j hj => modifyGraph fun g' hg' => hg'.modifyOp (hg.subtree hi j hj) ?_
  · exact (demand _ _).weaken fun _ _ he => ⟨he.1, trivial⟩
  · exact .modify fun e he => ⟨⟨he.graph, he.point⟩, trivial⟩
  · exact { hg'.closed.op j (hg.subtree hi j hj) with }

theorem replaceOp {values : List ValueId} (hvalues : ∀ v ∈ values, ¬ R.values v) :
    By R g₀ (Edit.replaceOp i values) fun _ => True := by
  refine op_bind hi fun x hx => bind (demand _ _) fun _ _ => bind (Q := fun _ => True)
    (.modify fun e he => ⟨⟨he.graph, he.point⟩, trivial⟩) fun _ _ => bind (forM fun p hp => ?_)
      fun _ _ =>
      erase hi
  exact replaceUses (hx.results _ (of_mem_zip hp).1) (hvalues _ (of_mem_zip hp).2)

end Spares

/-! ## 3. Requests outside of a region -/

namespace Rewrite

/-- A request that speaks only of what is outside of the region. -/
def Avoids (R : Region) : Rewrite → Prop
  | setPoint p => ∀ b, p.block = some b → ¬ R.blocks b
  | newBlock _ => True
  | create _ operands _ _ body => (∀ v ∈ operands, ¬ R.values v) ∧ ∀ b, body = some b → ¬ R.blocks b
  | clone i m => ¬ R.ops i ∧ m.Avoids R
  | replaceUses src dst => ¬ R.values src ∧ ¬ R.values dst
  | replaceOp i values => ¬ R.ops i ∧ ∀ v ∈ values, ¬ R.values v
  | erase i => ¬ R.ops i

variable {R : Region} {g₀ : Graph}

/-- **A request that speaks only of what is outside of a region spares it**, also when it ends by a
fault. -/
theorem run_spares {r : Rewrite} {e : Editor} (h : r.Avoids R) (he : Spares R g₀ e) :
    Spares R g₀ (r.run.after e) := by
  have hrun : Spares.By R g₀ r.run fun _ => True := by
    cases r with
    | setPoint p => exact .modify fun e he => ⟨⟨he.graph, h⟩, trivial⟩
    | newBlock tys => exact Spares.bind (Spares.newBlock tys) fun _ _ => Spares.pure trivial
    | create kind operands tys attr body =>
      exact Spares.bind (Spares.create kind h.1 tys attr h.2) fun _ _ => Spares.pure trivial
    | clone i m => exact Spares.bind (Spares.clone h.1 h.2) fun _ _ => Spares.pure trivial
    | replaceUses src dst => exact Spares.replaceUses h.1 h.2
    | replaceOp i values => exact Spares.replaceOp h.1 h.2
    | erase i => exact Spares.erase h
  exact (hrun.weaken fun _ _ he => he.1).after he

/-- **Requests that speak only of what is outside of a region spare it**, one after the other. -/
theorem runAll_spares {rs : List Rewrite} {e : Editor} (h : ∀ r ∈ rs, r.Avoids R)
    (he : Spares R g₀ e) :
    Spares R g₀ (runAll rs e) := by
  induction rs generalizing e with
  | nil => exact he
  | cons r rs ih =>
    exact ih (fun s hs => h s (mem_cons_of_mem _ hs)) (run_spares (h r mem_cons_self) he)

end Rewrite

end ConvNest.Program
