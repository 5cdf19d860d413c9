/-
# Effects of edits on the entries of a graph

What each primitive change of a graph does to each entry: the entry it names, and no other.
-/
import ConvNest.Proofs.Outcome
import Mathlib.Data.List.Nodup

namespace ConvNest.Program

open List

namespace Graph

/-! ## 1. Changing one entry -/

section Modify

variable (g : Graph)

@[simp] theorem op_modifyOp (i j : OpId) (f : Op → Op) :
    (g.modifyOp i f).op j =
      if i = j ∧ i.idx < g.ops.size then f (g.op j) else g.op j := by
  cases i with
  | mk i => cases j with
    | mk j =>
      simp only [modifyOp, op, Array.getD_eq_getD_getElem?, Array.getElem?_modify]
      by_cases h : i = j
      · subst h
        by_cases hi : i < g.ops.size
        · simp [hi]
        · simp [hi]
      · simp [h]

section

variable (i : OpId) (f : Op → Op)

@[simp] theorem value_modifyOp (v : ValueId) : (g.modifyOp i f).value v = g.value v := rfl

@[simp] theorem block_modifyOp (b : BlockId) : (g.modifyOp i f).block b = g.block b := rfl

@[simp] theorem opsSize_modifyOp : (g.modifyOp i f).ops.size = g.ops.size := by simp [modifyOp]

@[simp] theorem values_modifyOp : (g.modifyOp i f).values = g.values := rfl

@[simp] theorem blocks_modifyOp : (g.modifyOp i f).blocks = g.blocks := rfl

@[simp] theorem funcs_modifyOp : (g.modifyOp i f).funcs = g.funcs := rfl

end

@[simp] theorem value_modifyValue (u v : ValueId) (f : Value → Value) :
    (g.modifyValue u f).value v =
      if u = v ∧ u.idx < g.values.size then f (g.value v) else g.value v := by
  cases u with
  | mk u => cases v with
    | mk v =>
      simp only [modifyValue, value, Array.getD_eq_getD_getElem?, Array.getElem?_modify]
      by_cases h : u = v
      · subst h
        by_cases hu : u < g.values.size
        · simp [hu]
        · simp [hu]
      · simp [h]

section

variable (u : ValueId) (f : Value → Value)

@[simp] theorem op_modifyValue (i : OpId) : (g.modifyValue u f).op i = g.op i := rfl

@[simp] theorem valuesSize_modifyValue :
    (g.modifyValue u f).values.size = g.values.size := by simp [modifyValue]

@[simp] theorem ops_modifyValue : (g.modifyValue u f).ops = g.ops := rfl

@[simp] theorem blocks_modifyValue : (g.modifyValue u f).blocks = g.blocks := rfl

@[simp] theorem funcs_modifyValue : (g.modifyValue u f).funcs = g.funcs := rfl

end

@[simp] theorem block_modifyBlock (b c : BlockId) (f : Block → Block) :
    (g.modifyBlock b f).block c =
      if b = c ∧ b.idx < g.blocks.size then f (g.block c) else g.block c := by
  cases b with
  | mk b => cases c with
    | mk c =>
      simp only [modifyBlock, block, Array.getD_eq_getD_getElem?, Array.getElem?_modify]
      by_cases h : b = c
      · subst h
        by_cases hb : b < g.blocks.size
        · simp [hb]
        · simp [hb]
      · simp [h]

variable (b : BlockId) (f : Block → Block)

@[simp] theorem op_modifyBlock (i : OpId) : (g.modifyBlock b f).op i = g.op i := rfl

@[simp] theorem value_modifyBlock (v : ValueId) : (g.modifyBlock b f).value v = g.value v := rfl

@[simp] theorem blocksSize_modifyBlock :
    (g.modifyBlock b f).blocks.size = g.blocks.size := by simp [modifyBlock]

@[simp] theorem ops_modifyBlock : (g.modifyBlock b f).ops = g.ops := rfl

@[simp] theorem values_modifyBlock : (g.modifyBlock b f).values = g.values := rfl

@[simp] theorem funcs_modifyBlock : (g.modifyBlock b f).funcs = g.funcs := rfl

end Modify

/-! ## 2. New entries -/

/-- The graph with one more operation. -/
def pushOp (g : Graph) (x : Op) : Graph := { g with ops := g.ops.push x }

/-- The graph with more values. -/
def pushValues (g : Graph) (xs : List Value) : Graph := { g with values := g.values ++ xs.toArray }

/-- The graph with one more block. -/
def pushBlock (g : Graph) (x : Block) : Graph := { g with blocks := g.blocks.push x }

/-- The name of the next operation. -/
def nextOp (g : Graph) : OpId := ⟨g.ops.size⟩

/-- The name of the next block. -/
def nextBlock (g : Graph) : BlockId := ⟨g.blocks.size⟩

/-- The names of the next values. -/
def nextValues (g : Graph) (n : Nat) : List ValueId :=
  (List.range n).map fun k => ⟨g.values.size + k⟩

section Push

variable (g : Graph) {v : ValueId}

@[simp] theorem op_pushOp (x : Op) (i : OpId) :
    (g.pushOp x).op i = if i = g.nextOp then x else g.op i := by
  cases i with
  | mk i =>
    simp only [pushOp, op, nextOp, Array.getD_eq_getD_getElem?, Array.getElem?_push]
    by_cases h : i = g.ops.size <;> simp [h]

@[simp] theorem value_pushOp (x : Op) (v : ValueId) : (g.pushOp x).value v = g.value v := rfl

@[simp] theorem block_pushOp (x : Op) (b : BlockId) : (g.pushOp x).block b = g.block b := rfl

@[simp] theorem opsSize_pushOp (x : Op) : (g.pushOp x).ops.size = g.ops.size + 1 := by simp [pushOp]

@[simp] theorem values_pushOp (x : Op) : (g.pushOp x).values = g.values := rfl

@[simp] theorem blocks_pushOp (x : Op) : (g.pushOp x).blocks = g.blocks := rfl

section

variable (x : Block)

@[simp] theorem block_pushBlock (b : BlockId) :
    (g.pushBlock x).block b = if b = g.nextBlock then x else g.block b := by
  cases b with
  | mk b =>
    simp only [pushBlock, block, nextBlock, Array.getD_eq_getD_getElem?, Array.getElem?_push]
    by_cases h : b = g.blocks.size <;> simp [h]

@[simp] theorem blocksSize_pushBlock : (g.pushBlock x).blocks.size = g.blocks.size + 1 := by
  simp [pushBlock]

@[simp] theorem values_pushBlock : (g.pushBlock x).values = g.values := rfl

end

theorem value_pushValues_old (xs : List Value) (h : v.idx < g.values.size) :
    (g.pushValues xs).value v = g.value v := by
  simp [pushValues, value, Array.getElem?_append, h]

theorem value_pushValues_new (xs : List Value) {k : Nat} {x : Value} (h : xs[k]? = some x) :
    (g.pushValues xs).value ⟨g.values.size + k⟩ = x := by
  have : ¬ g.values.size + k < g.values.size := by omega
  simp [this, pushValues, value, Array.getElem?_append, h]

theorem value_of_le (h : g.values.size ≤ v.idx) : g.value v = default := by
  simp [value, h]

theorem block_of_le {b : BlockId} (h : g.blocks.size ≤ b.idx) : g.block b = default := by
  simp [block, h]

@[simp] theorem default_operands : (default : Op).operands = [] := rfl

@[simp] theorem default_results : (default : Op).results = [] := rfl

@[simp] theorem default_body : (default : Op).body = none := rfl

@[simp] theorem default_ops : (default : Block).ops = [] := rfl

@[simp] theorem default_args : (default : Block).args = [] := rfl

@[simp] theorem default_parentOp : (default : Block).parentOp = none := rfl

@[simp] theorem default_uses : (default : Value).uses = [] := rfl

theorem op_of_le {i : OpId} (h : g.ops.size ≤ i.idx) : g.op i = default := by
  simp [op, h]

section

variable {g} {i : OpId} {b : BlockId} {v : ValueId}

/-- Entries that are not empty are in the graph. -/
theorem lt_of_op_ne (h : g.op i ≠ default) : i.idx < g.ops.size := by
  by_contra hge
  exact h (g.op_of_le (Nat.le_of_not_lt hge))

theorem lt_of_parent (h : (g.op i).parent = some b) : i.idx < g.ops.size :=
  lt_of_op_ne fun heq => by rw [heq] at h; cases h

theorem lt_of_operand {k : Nat} (h : (g.op i).operands[k]? = some v) :
    i.idx < g.ops.size :=
  lt_of_op_ne fun heq => by rw [heq] at h; cases h

theorem lt_of_listed (h : i ∈ (g.block b).ops) : b.idx < g.blocks.size := by
  by_contra hge
  rw [g.block_of_le (Nat.le_of_not_lt hge)] at h
  cases h

theorem lt_of_use {u : Use} (h : u ∈ (g.value v).uses) : v.idx < g.values.size := by
  by_contra hge
  rw [g.value_of_le (Nat.le_of_not_lt hge)] at h
  cases h

end

section

variable (xs : List Value)

@[simp] theorem op_pushValues (i : OpId) : (g.pushValues xs).op i = g.op i := rfl

@[simp] theorem block_pushValues (b : BlockId) : (g.pushValues xs).block b = g.block b := rfl

@[simp] theorem valuesSize_pushValues :
    (g.pushValues xs).values.size = g.values.size + xs.length := by simp [pushValues]

@[simp] theorem ops_pushValues : (g.pushValues xs).ops = g.ops := rfl

@[simp] theorem blocks_pushValues : (g.pushValues xs).blocks = g.blocks := rfl

@[simp] theorem funcs_pushValues : (g.pushValues xs).funcs = g.funcs := rfl

end

theorem nextValues_getElem? (n k : Nat) :
    (g.nextValues n)[k]? = if k < n then some ⟨g.values.size + k⟩ else none := by
  simp only [nextValues]
  split
  · next h => simp [getElem?_range h]
  · next h => simp [getElem?_eq_none (show (List.range n).length ≤ k by simpa using h)]

theorem mem_nextValues {n : Nat} :
    v ∈ g.nextValues n ↔ g.values.size ≤ v.idx ∧ v.idx < g.values.size + n := by
  simp only [nextValues, mem_map, mem_range]
  constructor
  · rintro ⟨k, hk, rfl⟩
    exact ⟨Nat.le_add_right _ _, Nat.add_lt_add_left hk _⟩
  · rintro ⟨hle, hlt⟩
    exact ⟨v.idx - g.values.size, by omega, by cases v; simp at hle ⊢; omega⟩

theorem nextValues_nodup (n : Nat) : (g.nextValues n).Nodup :=
  List.Nodup.map (fun i j h => by simpa using h) nodup_range

end Push

/-! ## 3. Uses -/

/-- The graph in which operands of an operation, from a position on, are entered in the use
lists. -/
def addUses (g : Graph) (i : OpId) (vs : List ValueId) (k : Nat) : Graph :=
  (vs.zipIdx k).foldl (fun g p =>
    g.modifyValue p.1 fun x => { x with uses := x.uses ++ [⟨i, p.2⟩] }) g

/-- The positions of a value among operands, from a position on, as uses of an operation. -/
def usesOf (i : OpId) (v : ValueId) (vs : List ValueId) (k : Nat) : List Use :=
  (vs.zipIdx k).filterMap fun p => if p.1 = v then some ⟨i, p.2⟩ else none

section Uses

variable (g : Graph)

theorem addUses_cons (i : OpId) (v : ValueId) (vs : List ValueId) (k : Nat) :
    g.addUses i (v :: vs) k =
      (g.modifyValue v fun x => { x with uses := x.uses ++ [⟨i, k⟩] }).addUses i vs (k + 1) := rfl

theorem usesOf_cons (i : OpId) (u v : ValueId) (vs : List ValueId) (k : Nat) :
    usesOf i u (v :: vs) k =
      if v = u then ⟨i, k⟩ :: usesOf i u vs (k + 1) else usesOf i u vs (k + 1) := by
  simp only [usesOf]
  by_cases h : v = u <;> simp [h]

theorem mem_usesOf {i : OpId} {v : ValueId} {vs : List ValueId} {k : Nat} {u : Use} :
    u ∈ usesOf i v vs k ↔ u.op = i ∧ k ≤ u.index ∧ vs[u.index - k]? = some v := by
  simp only [usesOf, mem_filterMap, Prod.exists, Option.ite_none_right_eq_some,
    Option.some.injEq, mem_zipIdx_iff_le_and_getElem?_sub]
  constructor
  · rintro ⟨a, j, ⟨hle, ha⟩, rfl, rfl⟩
    exact ⟨rfl, hle, ha⟩
  · rintro ⟨rfl, hle, hv⟩
    exact ⟨v, u.index, ⟨hle, hv⟩, rfl, rfl⟩

theorem usesOf_nodup (i : OpId) (v : ValueId) (vs : List ValueId) (k : Nat) :
    (usesOf i v vs k).Nodup := by
  induction vs generalizing k with
  | nil => simp [usesOf]
  | cons u vs ih =>
    rw [usesOf_cons]
    split
    · refine nodup_cons.2 ⟨fun h => ?_, ih (k + 1)⟩
      exact Nat.not_succ_le_self k (mem_usesOf.1 h).2.1
    · exact ih (k + 1)

variable (i : OpId) (vs : List ValueId) (k : Nat)

@[simp] theorem ops_addUses : (g.addUses i vs k).ops = g.ops := by
  induction vs generalizing g k with
  | nil => rfl
  | cons v vs ih => rw [addUses_cons, ih, ops_modifyValue]

@[simp] theorem blocks_addUses : (g.addUses i vs k).blocks = g.blocks := by
  induction vs generalizing g k with
  | nil => rfl
  | cons v vs ih => rw [addUses_cons, ih, blocks_modifyValue]

@[simp] theorem funcs_addUses : (g.addUses i vs k).funcs = g.funcs := by
  induction vs generalizing g k with
  | nil => rfl
  | cons v vs ih => rw [addUses_cons, ih, funcs_modifyValue]

@[simp] theorem op_addUses (j : OpId) :
    (g.addUses i vs k).op j = g.op j := by rw [op, ops_addUses, op]

@[simp] theorem block_addUses (b : BlockId) : (g.addUses i vs k).block b = g.block b := by
  rw [block, blocks_addUses, block]

@[simp] theorem valuesSize_addUses : (g.addUses i vs k).values.size = g.values.size := by
  induction vs generalizing g k with
  | nil => rfl
  | cons v vs ih => rw [addUses_cons, ih, valuesSize_modifyValue]

theorem value_addUses (v : ValueId) :
    (g.addUses i vs k).value v =
      if v.idx < g.values.size then
        { g.value v with uses := (g.value v).uses ++ usesOf i v vs k }
      else g.value v := by
  induction vs generalizing g k with
  | nil => simp [addUses, usesOf]
  | cons u vs ih =>
    rw [addUses_cons, ih, value_modifyValue, valuesSize_modifyValue, usesOf_cons]
    by_cases h : u = v
    · subst h
      by_cases hu : u.idx < g.values.size <;> simp [hu]
    · simp [h]

end Uses

/-! ## 4. Operations -/

/-- New values of the given types. -/
def freshValues (owner : Owner) (tys : List Ty) : List Value :=
  tys.zipIdx.map fun p => ⟨p.1, owner, p.2, []⟩

theorem freshValues_getElem? (owner : Owner) (tys : List Ty) (k : Nat) :
    (freshValues owner tys)[k]? = tys[k]?.map fun t => ⟨t, owner, k, []⟩ := by
  simp only [freshValues, getElem?_map, getElem?_zipIdx]
  cases tys[k]? <;> simp

@[simp] theorem freshValues_length (owner : Owner) (tys : List Ty) :
    (freshValues owner tys).length = tys.length := by simp [freshValues]

variable {tys : List Ty}

theorem value_pushValues_fresh (g : Graph) (owner : Owner) {k : Nat} {t : Ty}
    (hk : tys[k]? = some t) :
    (g.pushValues (freshValues owner tys)).value ⟨g.values.size + k⟩ = ⟨t, owner, k, []⟩ :=
  value_pushValues_new g _ (by rw [freshValues_getElem?, hk]; rfl)

/-- New values are used by nothing. -/
theorem uses_pushValues (g : Graph) (owner : Owner) (tys : List Ty) {v : ValueId}
    (hv : g.values.size ≤ v.idx) : ((g.pushValues (freshValues owner tys)).value v).uses = [] := by
  obtain ⟨k, hk⟩ := Nat.exists_eq_add_of_le hv
  obtain rfl : v = ⟨g.values.size + k⟩ := congrArg ValueId.mk hk
  cases hty : tys[k]? with
  | some t => rw [value_pushValues_fresh g owner hty]
  | none =>
    rw [value_of_le]
    · rfl
    · rw [valuesSize_pushValues, freshValues_length]
      exact Nat.add_le_add_left (getElem?_eq_none_iff.1 hty) _

/-- New values have the types that were asked for. -/
theorem map_ty_nextValues {g g' : Graph}
    (h : ∀ (k : Nat) t, tys[k]? = some t → g'.ty ⟨g.values.size + k⟩ = t) :
    (g.nextValues tys.length).map g'.ty = tys := by
  refine ext_getElem? fun k => ?_
  rw [getElem?_map, nextValues_getElem?]
  split
  · next hk => rw [Option.map_some, h k _ (getElem?_eq_getElem hk), getElem?_eq_getElem hk]
  · next hk => simp [hk]

/-- The graph in which a reserved operation has its operands, results and body, and the body knows
nothing about it. -/
def described (g : Graph) (i : OpId) (operands : List ValueId) (tys : List Ty)
    (body : Option BlockId) : Graph :=
  let g := (g.modifyOp i fun x => { x with operands := operands, body := body }).addUses i
    operands 0
  (g.pushValues (freshValues (.result i) tys)).modifyOp i fun x =>
    { x with results := g.nextValues tys.length }

/-- The graph in which a reserved operation has its operands, results and body. -/
def complete (g : Graph) (i : OpId) (operands : List ValueId) (tys : List Ty)
    (body : Option BlockId) : Graph :=
  match body with
  | none => g.described i operands tys none
  | some b =>
    (g.described i operands tys (some b)).modifyBlock b fun x => { x with parentOp := some i }

section Complete

variable {g : Graph} {i : OpId} {operands : List ValueId} {tys : List Ty} {body : Option BlockId}

theorem op_described (hi : i.idx < g.ops.size) (j : OpId) :
    (g.described i operands tys body).op j = if i = j then
      { g.op j with operands := operands, body := body, results := g.nextValues tys.length }
    else g.op j := by
  have hnext (g' : Graph) (h : g'.values.size = g.values.size) :
      g'.nextValues tys.length = g.nextValues tys.length := by simp [nextValues, h]
  by_cases hij : i = j
  · subst hij
    simp [described, hi, hnext]
  · simp [described, hij]

theorem op_complete (hi : i.idx < g.ops.size) (j : OpId) :
    (g.complete i operands tys body).op j = if i = j then
      { g.op j with operands := operands, body := body, results := g.nextValues tys.length }
    else g.op j := by
  unfold complete
  cases body <;> exact op_described hi j

theorem opsSize_described : (g.described i operands tys body).ops.size = g.ops.size := by
  simp [described]

theorem opsSize_complete : (g.complete i operands tys body).ops.size = g.ops.size := by
  unfold complete
  cases body <;> exact opsSize_described

theorem valuesSize_described :
    (g.described i operands tys body).values.size = g.values.size + tys.length := by
  simp [described]

theorem valuesSize_complete :
    (g.complete i operands tys body).values.size = g.values.size + tys.length := by
  unfold complete
  cases body <;> exact valuesSize_described

theorem blocks_described : (g.described i operands tys body).blocks = g.blocks := by
  simp [described]

theorem block_described (b : BlockId) : (g.described i operands tys body).block b = g.block b := by
  unfold Graph.block
  rw [blocks_described]

theorem blocksSize_complete : (g.complete i operands tys body).blocks.size = g.blocks.size := by
  unfold complete
  cases body <;> simp [blocks_described]

theorem funcs_complete : (g.complete i operands tys body).funcs = g.funcs := by
  unfold complete
  cases body <;> simp [described]

theorem block_complete (b : BlockId) : (g.complete i operands tys body).block b =
    if body = some b ∧ b.idx < g.blocks.size then { g.block b with parentOp := some i }
    else g.block b := by
  unfold complete
  cases body with
  | none => simp [block_described]
  | some c =>
    by_cases hc : c = b
    · subst hc
      simp [block_described, blocks_described]
    · simp [hc, block_described]

variable (g) (i) (operands) (body) {v : ValueId}

theorem value_described_old (tys : List Ty) (hv : v.idx < g.values.size) :
    (g.described i operands tys body).value v =
      { g.value v with uses := (g.value v).uses ++ usesOf i v operands 0 } := by
  simp [described, value_pushValues_old, value_addUses, hv]

theorem value_complete_old (tys : List Ty) (hv : v.idx < g.values.size) :
    (g.complete i operands tys body).value v =
      { g.value v with uses := (g.value v).uses ++ usesOf i v operands 0 } := by
  unfold complete
  cases body <;> exact value_described_old g i operands _ tys hv

theorem value_described_new {tys : List Ty} {k : Nat} {t : Ty} (hk : tys[k]? = some t) :
    (g.described i operands tys body).value ⟨g.values.size + k⟩ = ⟨t, .result i, k, []⟩ := by
  have hpush := value_pushValues_fresh ((g.modifyOp i fun x =>
    { x with operands := operands, body := body }).addUses i operands 0) (.result i) hk
  simpa [described] using hpush

theorem value_complete_new {tys : List Ty} {k : Nat} {t : Ty} (hk : tys[k]? = some t) :
    (g.complete i operands tys body).value ⟨g.values.size + k⟩ = ⟨t, .result i, k, []⟩ := by
  unfold complete
  cases body <;> exact value_described_new g i operands _ hk

theorem tys_complete (tys : List Ty) :
    (g.nextValues tys.length).map (g.complete i operands tys body).ty = tys :=
  map_ty_nextValues fun _ _ hk => congrArg Value.ty (value_complete_new g i operands body hk)

theorem uses_described_new (tys : List Ty) (hv : g.values.size ≤ v.idx) :
    ((g.described i operands tys body).value v).uses = [] := by
  have hpush := uses_pushValues ((g.modifyOp i fun x =>
    { x with operands := operands, body := body }).addUses i operands 0) (.result i) tys (v := v)
  rw [valuesSize_addUses, values_modifyOp] at hpush
  simpa [described] using hpush hv

theorem uses_complete_new (tys : List Ty) (hv : g.values.size ≤ v.idx) :
    ((g.complete i operands tys body).value v).uses = [] := by
  unfold complete
  cases body <;> exact uses_described_new g i operands _ tys hv

end Complete

/-! ## 5. Blocks and places -/

/-- The graph with one more block, with arguments of the given types. -/
def withBlock (g : Graph) (tys : List Ty) : Graph :=
  ((g.pushBlock ⟨[], [], none, none⟩).pushValues
    (freshValues (.argument g.nextBlock) tys)).modifyBlock g.nextBlock fun x =>
      { x with args := g.nextValues tys.length }

/-- The graph in which an operation is one of those of a block. -/
def put (g : Graph) (b : BlockId) (ops : List OpId) (i : OpId) : Graph :=
  (g.modifyBlock b fun x => { x with ops := ops }).modifyOp i fun x => { x with parent := some b }

section Blocks

variable (g : Graph)

section

variable (tys : List Ty)

@[simp] theorem op_withBlock (i : OpId) : (g.withBlock tys).op i = g.op i := rfl

@[simp] theorem ops_withBlock : (g.withBlock tys).ops = g.ops := rfl

@[simp] theorem blocksSize_withBlock :
    (g.withBlock tys).blocks.size = g.blocks.size + 1 := by simp [withBlock]

@[simp] theorem valuesSize_withBlock :
    (g.withBlock tys).values.size = g.values.size + tys.length := by simp [withBlock]

theorem block_withBlock (b : BlockId) : (g.withBlock tys).block b =
    if b = g.nextBlock then ⟨g.nextValues tys.length, [], none, none⟩ else g.block b := by
  simp only [withBlock, block_modifyBlock, block_pushValues, block_pushBlock]
  by_cases h : b = g.nextBlock
  · subst h
    simp [nextBlock]
  · rw [if_neg h, if_neg h, if_neg fun hb => h hb.1.symm]

theorem value_withBlock_old {v : ValueId} (hv : v.idx < g.values.size) :
    (g.withBlock tys).value v = g.value v :=
  value_pushValues_old (g.pushBlock ⟨[], [], none, none⟩) _ hv

end

theorem value_withBlock_new {tys : List Ty} {k : Nat} {t : Ty} (hk : tys[k]? = some t) :
    (g.withBlock tys).value ⟨g.values.size + k⟩ = ⟨t, .argument g.nextBlock, k, []⟩ :=
  value_pushValues_fresh (g.pushBlock ⟨[], [], none, none⟩) _ hk

theorem tys_withBlock (tys : List Ty) : (g.nextValues tys.length).map (g.withBlock tys).ty = tys :=
  map_ty_nextValues fun _ _ hk => congrArg Value.ty (value_withBlock_new g hk)

theorem uses_withBlock_new (tys : List Ty) {v : ValueId} (hv : g.values.size ≤ v.idx) :
    ((g.withBlock tys).value v).uses = [] :=
  uses_pushValues (g.pushBlock ⟨[], [], none, none⟩) _ tys hv

section

variable (b : BlockId) (ops : List OpId) (i : OpId)

@[simp] theorem value_put (v : ValueId) : (g.put b ops i).value v = g.value v := rfl

@[simp] theorem values_put : (g.put b ops i).values = g.values := rfl

@[simp] theorem opsSize_put : (g.put b ops i).ops.size = g.ops.size := by simp [put]

@[simp] theorem blocksSize_put : (g.put b ops i).blocks.size = g.blocks.size := by simp [put]

theorem op_put (j : OpId) : (g.put b ops i).op j =
    if i = j ∧ i.idx < g.ops.size then { g.op j with parent := some b } else g.op j :=
  op_modifyOp _ _ _ _

end

theorem block_put (b c : BlockId) (ops : List OpId) (i : OpId) : (g.put b ops i).block c =
    if b = c ∧ b.idx < g.blocks.size then { g.block c with ops := ops } else g.block c := by
  simp [put]

theorem put_insertIdx (b : BlockId) (pos : Nat) (i : OpId) :
    g.put b ((g.block b).ops.insertIdx pos i) i = (g.modifyBlock b fun x =>
      { x with ops := x.ops.insertIdx pos i }).modifyOp i fun x => { x with parent := some b } := by
  unfold put
  congr 1
  simp only [modifyBlock, Graph.mk.injEq, true_and, and_true]
  refine Array.ext_getElem? fun k => ?_
  simp only [Array.getElem?_modify]
  split
  · next hk =>
    subst hk
    cases hb : g.blocks[b.idx]? with
    | none => rfl
    | some x => simp [block, hb]
  · rfl

end Blocks

end Graph

namespace Edit

open Graph

section Steps

variable {e e' : Editor} {pre : List OpId}
variable {u : Unit} {i : OpId} {b : BlockId}

/-- The editor with another graph. -/
def onGraph (e : Editor) (g : Graph) : Editor := { e with graph := g }

theorem graph_ok {g : Graph} : graph e = .ok g e' ↔ e.graph = g ∧ e = e' := by
  show EStateM.Result.ok e.graph e = .ok g e' ↔ _
  simp

section Reading

variable {α : Type} {a : α}

theorem atPoint_ok {p : InsertionPoint} {act : Edit α} :
    atPoint p act e = .ok a e' ↔
      ∃ e₁, act { e with point := p } = .ok a e₁ ∧ e' = { e₁ with point := e.point } := by
  unfold atPoint
  cases act { e with point := p } with
  | ok x e₁ =>
    simp only [EStateM.Result.ok.injEq]
    constructor
    · rintro ⟨rfl, rfl⟩
      exact ⟨e₁, ⟨rfl, rfl⟩, rfl⟩
    · rintro ⟨_, ⟨rfl, rfl⟩, rfl⟩
      exact ⟨rfl, rfl⟩
  | error f e₁ => simp

theorem tyOf_ok {v : ValueId} {t : Ty} : tyOf v e = .ok t e' ↔ e.graph.ty v = t ∧ e = e' := by
  constructor
  · intro h
    obtain ⟨g, e1, h1, h⟩ := state_bind_eq_ok.1 h
    obtain ⟨rfl, rfl⟩ := graph_ok.1 h1
    exact state_pure_eq_ok.1 h
  · rintro ⟨rfl, rfl⟩
    rfl

/-- Checks that change nothing, one by one. -/
theorem forM_check_ok {β : Type} {xs : List β} {f : β → Edit Unit} {Q : Editor → β → Prop}
    (hf : ∀ x e u e', f x e = .ok u e' ↔ Q e x ∧ e = e') {u : Unit} :
    xs.forM f e = .ok u e' ↔ (∀ x ∈ xs, Q e x) ∧ e = e' := by
  induction xs with
  | nil =>
    have step : ([] : List β).forM f = pure () := rfl
    rw [step, state_pure_eq_ok]
    simp
  | cons x xs ih =>
    have step : (x :: xs).forM f = (f x >>= fun _ => xs.forM f) := rfl
    rw [step, state_bind_eq_ok]
    constructor
    · rintro ⟨v, e1, h1, h⟩
      obtain ⟨hx, rfl⟩ := (hf x e v e1).1 h1
      obtain ⟨hxs, rfl⟩ := ih.1 h
      exact ⟨by simpa using ⟨hx, hxs⟩, rfl⟩
    · rintro ⟨h, rfl⟩
      have h : Q e x ∧ ∀ y ∈ xs, Q e y := by simpa using h
      exact ⟨(), e, (hf x e () e).2 ⟨h.1, rfl⟩, ih.2 ⟨h.2, rfl⟩⟩

theorem lift_ok {x : Except Fault α} : (liftM x : Edit α) e = .ok a e' ↔ x = .ok a ∧ e = e' := by
  cases x with
  | ok b =>
    constructor
    · intro h
      obtain ⟨rfl, rfl⟩ := EStateM.Result.ok.inj h
      exact ⟨rfl, rfl⟩
    · rintro ⟨h, rfl⟩
      cases h
      rfl
  | error f => exact ⟨fun h => (nomatch h), fun h => (nomatch h.1)⟩

end Reading

theorem newValues_eq (owner : Owner) (tys : List Ty) :
    newValues owner tys e = .ok (e.graph.nextValues tys.length)
      (onGraph e (e.graph.pushValues (freshValues owner tys))) := rfl

theorem reserveOp_eq (kind : Kind) (attr : Attr) :
    reserveOp kind attr e = .ok e.graph.nextOp
      (onGraph e (e.graph.pushOp ⟨kind, [], [], attr, none, none, false⟩)) := rfl

theorem addUses_eq (i : OpId) (vs : List ValueId) (k : Nat) :
    ((vs.zipIdx k).forM fun p => addUse p.1 ⟨i, p.2⟩ : Edit Unit) e =
      .ok () (onGraph e (e.graph.addUses i vs k)) := by
  induction vs generalizing e k with
  | nil => rfl
  | cons v vs ih =>
    have step : ((v :: vs).zipIdx k).forM (fun p => addUse p.1 ⟨i, p.2⟩) e =
        ((vs.zipIdx (k + 1)).forM fun p => addUse p.1 ⟨i, p.2⟩ : Edit Unit)
          (onGraph e (e.graph.modifyValue v fun x => { x with uses := x.uses ++ [⟨i, k⟩] })) := rfl
    rw [step, ih]
    rfl

theorem demand_ok {c : Bool} {f : Fault} : demand c f e = .ok u e' ↔ c = true ∧ e = e' := by
  cases c with
  | true => simp [demand, pure, EStateM.pure]
  | false => exact iff_of_false state_throw_ne_ok (by simp)

theorem adopt_ok : adopt i b e = .ok u e' ↔
    (e.graph.block b).parentOp = none ∧
      e' = onGraph e (e.graph.modifyBlock b fun x => { x with parentOp := some i }) := by
  unfold adopt
  simp only [state_bind_eq_ok, graph_ok, and_assoc, exists_and_left, exists_eq_left']
  cases hp : (e.graph.block b).parentOp with
  | some owner => exact iff_of_false state_throw_ne_ok (by simp)
  | none => exact state_modify_eq_ok.trans ⟨fun h => ⟨rfl, h.symm⟩, fun h => h.2.symm⟩

theorem completeOp_ok {operands : List ValueId} {tys : List Ty} {body : Option BlockId} :
    completeOp i operands tys body e = .ok u e' ↔
      (∀ b, body = some b → (e.graph.block b).parentOp = none) ∧
        e' = onGraph e (e.graph.complete i operands tys body) := by
  unfold completeOp
  simp only [state_bind_eq_ok, modifyGraph, state_modify_eq_ok, addUses_eq, newValues_eq,
    EStateM.Result.ok.injEq, and_assoc, exists_and_left, exists_eq_left', exists_const, true_and]
  cases body with
  | none => exact ⟨fun h => ⟨by simp, (EStateM.Result.ok.inj h).2.symm⟩, fun h => h.2 ▸ rfl⟩
  | some b =>
    refine adopt_ok.trans (and_congr ?_ Iff.rfl)
    simp [onGraph]

theorem newBlock_eq (tys : List Ty) :
    newBlock tys e = .ok e.graph.nextBlock (onGraph e (e.graph.withBlock tys)) := rfl

theorem op_ok {x : Op} : op i e = .ok x e' ↔ e.graph.op i = x ∧ e = e' := by
  show EStateM.Result.ok (e.graph.op i) e = .ok x e' ↔ _
  simp

theorem place_ok {pos : Nat} : place b pos i e = .ok u e' ↔
    (e.graph.op i).parent = none ∧
      e' = onGraph e (e.graph.put b ((e.graph.block b).ops.insertIdx pos i) i) := by
  unfold place
  simp only [state_bind_eq_ok, op_ok, demand_ok, modifyGraph, state_modify_eq_ok, and_assoc,
    exists_and_left, exists_eq_left', exists_const, put_insertIdx, Option.isNone_iff_eq_none]
  exact and_congr_right fun _ => eq_comm

/-- The insertion point is between the operations `pre` and `post` of a block. -/
structure AtPoint (e : Editor) (b : BlockId) (pre post : List OpId) : Prop where
  lt : b.idx < e.graph.blocks.size
  block : e.point.block = some b
  ops : (e.graph.block b).ops = pre ++ post
  none : e.point.before = none → post = []
  some : ∀ o, e.point.before = some o → o ∉ pre ∧ ∃ rest, post = o :: rest

theorem findIdx?_append {rest : List OpId} {o : OpId} (h : o ∉ pre) :
    (pre ++ o :: rest).findIdx? (· == o) = some pre.length := by
  induction pre with
  | nil => simp [findIdx?_cons]
  | cons p pre ih =>
    have hne : (p == o) = false := by
      simp only [beq_eq_false_iff_ne]
      rintro rfl
      exact h mem_cons_self
    rw [cons_append, findIdx?_cons, hne]
    simp [ih fun hmem => h (mem_cons_of_mem _ hmem)]

theorem insertIdx_append {α : Type} (pre post : List α) (x : α) :
    (pre ++ post).insertIdx pre.length x = pre ++ x :: post := by
  induction pre with
  | nil => simp
  | cons p pre ih => simpa using ih

theorem append_ok : append b i e = .ok u e' ↔
    (e.graph.op i).parent = none ∧
      e' = onGraph e (e.graph.put b ((e.graph.block b).ops ++ i :: []) i) := by
  have hend := insertIdx_append (e.graph.block b).ops [] i
  rw [append_nil] at hend
  rw [← hend]
  exact place_ok

theorem insert_ok {post : List OpId} (hat : AtPoint e b pre post) : insert i e = .ok u e' ↔
      (e.graph.op i).parent = none ∧ e' = onGraph e (e.graph.put b (pre ++ i :: post) i) := by
  unfold insert
  simp only [state_bind_eq_ok, state_get_eq_ok, graph_ok, and_assoc, exists_and_left,
    exists_eq_left', hat.block]
  cases hbefore : e.point.before with
  | none =>
    obtain rfl := hat.none hbefore
    have hops := hat.ops
    rw [append_nil] at hops
    rw [← hops]
    exact append_ok
  | some o =>
    obtain ⟨hno, rest, rfl⟩ := hat.some o hbefore
    simp only [hat.ops, findIdx?_append hno]
    rw [place_ok, hat.ops, insertIdx_append]

end Steps

end Edit

end ConvNest.Program
