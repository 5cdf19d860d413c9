/-
# Operations that are twins

Two operations, in one graph or in two, are twins under a correspondence `N` of values if they are
of one kind, with one attribute, and have operands, results and arguments that correspond.  Nothing
that looks at an operation can tell it from its twin: every view of the two agrees.

A correspondence is a `Naming` if it is one to one, and pairs values that are defined alike.
-/
import ConvNest.Program.View
import ConvNest.Proofs.Matching

namespace ConvNest.Program

open List

/-! ## 1. Values -/

/-- Values of one type that are defined alike: both as arguments, or both by operations of one kind
with one attribute, at one position. -/
structure SameValue (g g' : Graph) (v v' : ValueId) : Prop where
  ty : g'.ty v' = g.ty v
  index : (g'.value v').index = (g.value v).index
  owner : (∃ b b', (g.value v).owner = .argument b ∧ (g'.value v').owner = .argument b') ∨
    ∃ i i', (g.value v).owner = .result i ∧ (g'.value v').owner = .result i' ∧
      g'.kind i' = g.kind i ∧ (g'.op i').attr = (g.op i).attr

namespace SameValue

variable {g g' : Graph} {v v' : ValueId}

theorem text (h : SameValue g g' v v') : g'.valueText v' = g.valueText v := by
  have hty : (g'.value v').ty = (g.value v).ty := h.ty
  unfold Graph.valueText
  rcases h.owner with ⟨b, b', ho, ho'⟩ | ⟨i, i', ho, ho', hk, -⟩
  · simp only [ho, ho', h.index, hty]
  · simp only [ho, ho', h.index, hty, hk]

theorem constIndex (h : SameValue g g' v v') : g'.constIndex? v' = g.constIndex? v := by
  unfold Graph.constIndex? Graph.definingOp
  rcases h.owner with ⟨b, b', ho, ho'⟩ | ⟨i, i', ho, ho', hk, ha⟩
  · simp only [ho, ho', h.ty]
    cases g.ty v <;> rfl
  · simp only [ho, ho', h.ty]
    cases g.ty v with
    | index => simp only [hk, ha]
    | _ => rfl

end SameValue

/-- A correspondence of values that is one to one and pairs values that are defined alike. -/
structure Naming (g g' : Graph) (N : ValueId → ValueId → Prop) : Prop where
  one : ∀ {u u' v v'}, N u u' → N v v' → (u = v ↔ u' = v')
  same : ∀ {v v'}, N v v' → SameValue g g' v v'

theorem Naming.tys {g g' : Graph} {N : ValueId → ValueId → Prop} (h : Naming g g' N)
    {vs vs' : List ValueId} (hvs : Forall₂ N vs vs') : vs'.map g'.ty = vs.map g.ty := by
  induction hvs with
  | nil => rfl
  | cons hv _ ih => rw [map_cons, map_cons, (h.same hv).ty, ih]

/-! ## 2. Operations -/

/-- Operations of one kind with one attribute, whose operands, results and arguments correspond. -/
structure Twin (g g' : Graph) (N : ValueId → ValueId → Prop) (i i' : OpId) : Prop where
  kind : g'.kind i' = g.kind i
  attr : (g'.op i').attr = (g.op i).attr
  operands : Forall₂ N (g.op i).operands (g'.op i').operands
  results : Forall₂ N (g.op i).results (g'.op i').results
  body : Option.Rel (fun b b' => Forall₂ N (g.block b).args (g'.block b').args)
    (g.op i).body (g'.op i').body

/-- Indices that are known and the same, or that are corresponding values. -/
inductive Index.Corresponds (N : ValueId → ValueId → Prop) : Index → Index → Prop
  | static (n : Int64) : Corresponds N (.static n) (.static n)
  | dynamic {v v' : ValueId} (h : N v v') : Corresponds N (.dynamic v) (.dynamic v')

namespace Twin

variable {g g' : Graph} {N : ValueId → ValueId → Prop} {i i' : OpId}

section

variable (h : Twin g g' N i i')

include h

theorem operand (k : Nat) : Agree (g.operand i k) (g'.operand i' k) N :=
  .itemAt h.operands k

theorem result (k : Nat) : Agree (g.result i k) (g'.result i' k) N :=
  .itemAt h.results k

theorem bodyId : Agree (g.bodyId i) (g'.bodyId i') fun b b' =>
    (g.op i).body = some b ∧ (g'.op i').body = some b' ∧
      Forall₂ N (g.block b).args (g'.block b').args := by
  refine .present ?_
  generalize hb : (g.op i).body = x
  generalize hb' : (g'.op i').body = y
  have hbody := h.body
  rw [hb, hb'] at hbody
  cases hbody with
  | some hargs => exact .some ⟨rfl, rfl, hargs⟩
  | none => exact .none

theorem bodyOf :
    Agree (g.bodyOf i) (g'.bodyOf i') fun x x' => Forall₂ N x.args x'.args :=
  .bind (.present h.body) fun _ _ hargs => .ok hargs

end

/-! ### Loops -/

section

variable (h : Twin g g' N i i')

include h

theorem bounds : Agree (g.bounds i) (g'.bounds i') fun bs bs' =>
    N bs.lower bs'.lower ∧ N bs.upper bs'.upper ∧ N bs.step bs'.step :=
  .bind (h.operand 0) fun _ _ hl => .bind (h.operand 1) fun _ _ hu =>
    .bind (h.operand 2) fun _ _ hs =>
    .ok ⟨hl, hu, hs⟩

theorem inits : Agree (g.inits i) (g'.inits i') (Forall₂ N) :=
  .itemsAfter h.operands 3

theorem carriedCount : g'.carriedCount i' = g.carriedCount i := by
  unfold Graph.carriedCount
  rw [h.operands.length_eq]

theorem inductionVar : Agree (g.inductionVar i) (g'.inductionVar i') N :=
  .bind h.bodyOf fun _ _ hargs => .itemAt hargs 0

theorem carried : Agree (g.carried i) (g'.carried i') (Forall₂ N) :=
  .bind h.bodyOf fun _ _ hargs => .itemsAfter hargs 1

end

/-! ### Generic operations -/

section

variable (h : Twin g g' N i i')

include h

theorem genericAttr : Agree (g.genericAttr i) (g'.genericAttr i') Eq := by
  unfold Graph.genericAttr
  rw [h.attr]
  exact .refl _

theorem shapedCount (a : GenericAttr) : g'.shapedCount i' a = g.shapedCount i a := by
  unfold Graph.shapedCount
  rw [h.results.length_eq]

theorem inputs : Agree (g.inputs i) (g'.inputs i') (Forall₂ N) := by
  refine .bind h.genericAttr ?_
  rintro a _ rfl
  exact .firstItems h.operands _

theorem shaped : Agree (g.shaped i) (g'.shaped i') (Forall₂ N) := by
  refine .bind h.genericAttr ?_
  rintro a _ rfl
  rw [h.shapedCount]
  exact .firstItems h.operands _

theorem outputs : Agree (g.outputs i) (g'.outputs i') (Forall₂ N) := by
  refine .bind h.shaped fun vs vs' hvs => .bind h.genericAttr ?_
  rintro a _ rfl
  exact .itemsAfter hvs _

theorem symbols : Agree (g.symbols i) (g'.symbols i') (Forall₂ N) := by
  refine .bind h.genericAttr ?_
  rintro a _ rfl
  rw [h.shapedCount]
  exact .itemsAfter h.operands _

end

/-! ### Slices and convolutions -/

theorem resolveMarks {vs vs' : List ValueId} (ns : List Int64) (h : Forall₂ N vs vs') :
    Agree (Graph.resolveMarks ns vs) (Graph.resolveMarks ns vs') fun p p' =>
      Forall₂ (Index.Corresponds N) p.1 p'.1 ∧ Forall₂ N p.2 p'.2 := by
  induction ns generalizing vs vs' with
  | nil => exact .ok ⟨.nil, h⟩
  | cons n ns ih =>
    simp only [Graph.resolveMarks]
    split
    · cases h with
      | nil => exact .error _
      | cons hv hvs => exact .bind (ih hvs) fun p p' hp => .ok ⟨.cons (.dynamic hv) hp.1, hp.2⟩
    · exact .bind (ih h) fun p p' hp => .ok ⟨.cons (.static n) hp.1, hp.2⟩

variable (h : Twin g g' N i i')

include h

theorem sliceDest : Agree (g.sliceDest i) (g'.sliceDest i') (Option.Rel N) := by
  unfold Graph.sliceDest
  rw [h.kind]
  split
  · exact .bind (h.operand 1) fun _ _ hv => .ok (.some hv)
  · exact .ok .none

theorem sliceAttr : Agree (g.sliceAttr i) (g'.sliceAttr i') Eq := by
  unfold Graph.sliceAttr
  rw [h.attr]
  exact .refl _

theorem offsetsAndSizes :
    Agree (g.offsetsAndSizes i) (g'.offsetsAndSizes i') fun p p' =>
      Forall₂ (Index.Corresponds N) p.1 p'.1 ∧ Forall₂ (Index.Corresponds N) p.2 p'.2 := by
  unfold Graph.offsetsAndSizes
  rw [h.kind]
  refine .bind h.sliceAttr ?_
  rintro a _ rfl
  refine .bind (resolveMarks a.offsets (forall₂_drop _ h.operands)) fun p p' hp => ?_
  exact .bind (resolveMarks a.sizes hp.2) fun q q' hq => .ok ⟨hp.1, hq.1⟩

theorem convAttr : Agree (g.convAttr i) (g'.convAttr i') Eq := by
  unfold Graph.convAttr
  rw [h.attr]
  exact .refl _

end Twin

/-! ## 3. Blocks and functions -/

/-- Blocks whose operations are twins, one by one, with bodies that are nested less deep than the
bound and whose operations are twins again. -/
def TwinBlocks (g g' : Graph) (N : ValueId → ValueId → Prop) : Nat → BlockId → BlockId → Prop
  | 0, _, _ => False
  | k + 1, b, b' => Forall₂ (fun i i' => Twin g g' N i i' ∧
      ∀ c c', (g.op i).body = some c → (g'.op i').body = some c' → TwinBlocks g g' N k c c')
    (g.block b).ops (g'.block b').ops

section Terminators

variable {g g' : Graph} {N : ValueId → ValueId → Prop}

theorem getLast?_rel {α β : Type} {Q : α → β → Prop} {xs : List α} {ys : List β}
    (h : Forall₂ Q xs ys) : Option.Rel Q xs.getLast? ys.getLast? := by
  rw [getLast?_eq_head?_reverse, getLast?_eq_head?_reverse]
  have hrev := forall₂_reverse_iff.2 h
  generalize xs.reverse = us, ys.reverse = vs at hrev
  cases hrev with
  | nil => exact .none
  | cons hx _ => exact .some hx

/-- The terminators of blocks that are twins. -/
theorem TwinBlocks.terminator {k : Nat} {b b' : BlockId} (h : TwinBlocks g g' N k b b') :
    Option.Rel (Twin g g' N) (g.terminator b) (g'.terminator b') := by
  cases k with
  | zero => exact h.elim
  | succ k =>
    have hlast := getLast?_rel h
    unfold Graph.terminator
    generalize (g.block b).ops.getLast? = x, (g'.block b').ops.getLast? = y at hlast
    cases hlast with
    | none => exact .none
    | some hi =>
      simp only [hi.1.kind]
      split
      · exact .some hi.1
      · exact .none

end Terminators

/-- Functions of one name whose bodies are twins, and not nested deeper than their graphs allow. -/
structure TwinFuncs (g g' : Graph) (N : ValueId → ValueId → Prop) (f f' : FuncId) : Prop where
  naming : Naming g g' N
  name : (g'.func f').name = (g.func f).name
  bodies : ∃ b b' k, (g.func f).body = some b ∧ (g'.func f').body = some b' ∧
    Forall₂ N (g.block b).args (g'.block b').args ∧ TwinBlocks g g' N k b b' ∧
    k ≤ g.ops.size + 1 ∧ k ≤ g'.ops.size + 1

end ConvNest.Program
