/-
# Twins evaluate alike

Functions that are twins come to the same results on the same arguments, and end by the same faults
(`TwinFuncs.run`).  The data of the two evaluations are kept under different names: `Tracks` says
that values which correspond have the same datum, or both none.
-/
import ConvNest.Program.Eval
import ConvNest.Proofs.Twins

namespace ConvNest.Program

open List

/-- Values that correspond have the same datum, or none. -/
def Tracks (N : ValueId → ValueId → Prop) (E E' : Env) : Prop :=
  ∀ v v', N v v' → E'[v'.idx]? = E[v.idx]?

section Values

variable {g g' : Graph} {N : ValueId → ValueId → Prop} {v v' : ValueId} {vs vs' : List ValueId}

variable (hN : Naming g g' N)

include hN

theorem datum_matches (hv : N v v') :
    Matches (Tracks N) (Eval.datum g v) (Eval.datum g' v') Eq := by
  refine .get_bind fun E E' hE => ?_
  rw [hE v v' hv]
  cases E[v.idx]? with
  | some d => exact .pure rfl
  | none =>
    rw [(hN.same hv).text]
    exact .throw _

theorem tensor_matches (hv : N v v') :
    Matches (Tracks N) (Eval.tensor g v) (Eval.tensor g' v') Eq := by
  refine .same (datum_matches hN hv) fun d => ?_
  cases d with
  | tensor t => exact .pure rfl
  | _ => exact .throw _

theorem scalar_matches (hv : N v v') :
    Matches (Tracks N) (Eval.scalar g v) (Eval.scalar g' v') Eq := by
  refine .same (datum_matches hN hv) fun d => ?_
  cases d with
  | scalar s => exact .pure rfl
  | _ => exact .throw _

theorem index_matches (hv : N v v') :
    Matches (Tracks N) (Eval.index g v) (Eval.index g' v') Eq := by
  refine .same (datum_matches hN hv) fun d => ?_
  cases d with
  | index n => exact .pure rfl
  | _ => exact .throw _

theorem word_matches {x x' : Index} (hx : x.Corresponds N x') :
    Matches (Tracks N) (Eval.word g x) (Eval.word g' x') Eq := by
  cases hx with
  | static n => exact .pure rfl
  | dynamic hv => exact index_matches hN hv

theorem define_matches (hv : N v v') (d : Datum) :
    Matches (Tracks N) (Eval.define v d) (Eval.define v' d) Eq := by
  refine .of_states (fun _ => rfl) (fun _ => rfl) fun E E' hE => ⟨fun u u' hu => ?_, rfl⟩
  have hidx : v.idx = u.idx ↔ v'.idx = u'.idx := by
    have h := hN.one hv hu
    constructor
    · intro heq
      rw [h.1 (by cases v; cases u; simpa using heq)]
    · intro heq
      rw [h.2 (by cases v'; cases u'; simpa using heq)]
  simp only [Std.TreeMap.getElem?_insert, Nat.compare_eq_eq, hidx]
  split
  · rfl
  · exact hE u u' hu

theorem defineAll_matches (hvs : Forall₂ N vs vs') (ds : List Datum) :
    Matches (Tracks N) (Eval.defineAll vs ds) (Eval.defineAll vs' ds) Eq := by
  induction hvs generalizing ds with
  | nil =>
    cases ds with
    | nil => exact .pure rfl
    | cons d ds => exact .throw _
  | cons hv _ ih =>
    cases ds with
    | nil => exact .pure rfl
    | cons d ds => exact .bind (define_matches hN hv d) fun _ _ _ => ih ds

theorem bindCarried_matches (hvs : Forall₂ N vs vs') (ds : List Datum) :
    Matches (Tracks N) (Eval.bindCarried vs ds) (Eval.bindCarried vs' ds) Eq := by
  induction hvs generalizing ds with
  | nil => exact .pure rfl
  | cons hv _ ih =>
    cases ds with
    | nil => exact .throw _
    | cons d ds => exact .bind (define_matches hN hv d) fun _ _ _ => ih ds

end Values

/-! ## 1. Operations without a body -/

section Leaves

variable {g g' : Graph} {N : ValueId → ValueId → Prop} {i i' : OpId}

section

variable (hN : Naming g g' N) (h : Twin g g' N i i')

include hN h

theorem constant_matches : Matches (Tracks N) (Eval.constant g i) (Eval.constant g' i') Eq := by
  unfold Eval.constant
  rw [h.attr]
  cases (g.op i).attr with
  | constant n x =>
    refine .read (h.result 0) fun r r' hr => ?_
    simp only [(hN.same hr).ty]
    split
    · exact define_matches hN hr _
    · split
      · exact define_matches hN hr _
      · exact define_matches hN hr _
  | _ => exact .throw _

theorem binary_matches : Matches (Tracks N) (Eval.binary g i) (Eval.binary g' i') Eq := by
  unfold Eval.binary
  rw [h.kind]
  refine .read (h.result 0) fun r r' hr => ?_
  refine .read (h.operand 0) fun v v' hv => .same (scalar_matches hN hv) fun x => ?_
  refine .read (h.operand 1) fun w w' hw => .same (scalar_matches hN hw) fun y => ?_
  exact .ask fun z => define_matches hN hr _

theorem widen_matches : Matches (Tracks N) (Eval.widen g i) (Eval.widen g' i') Eq := by
  unfold Eval.widen
  rw [h.kind]
  refine .read (h.operand 0) fun v v' hv => .same (scalar_matches hN hv) fun x => ?_
  refine .read (h.result 0) fun r r' hr => ?_
  rw [(hN.same hr).ty]
  exact define_matches hN hr _

theorem affine_matches : Matches (Tracks N) (Eval.affine g i) (Eval.affine g' i') Eq := by
  unfold Eval.affine
  rw [h.attr]
  cases (g.op i).attr with
  | affine m =>
    refine .same (.mapM_eq h.operands fun v v' hv => index_matches hN hv) fun ns => ?_
    refine .ask fun ds => ?_
    refine .ask fun ss => .ask fun vs => ?_
    exact .ask fun n => .read (h.result 0) fun r r' hr => define_matches hN hr _
  | _ => exact .throw _

theorem tensorDim_matches : Matches (Tracks N) (Eval.tensorDim g i) (Eval.tensorDim g' i') Eq := by
  unfold Eval.tensorDim
  rw [h.attr]
  refine .read (h.operand 0) fun v v' hv => .same (tensor_matches hN hv) fun t => ?_
  refine .read (h.result 0) fun r r' hr => ?_
  cases (g.op i).attr with
  | axis a =>
    exact .ask fun d => define_matches hN hr _
  | _ => exact .throw _

theorem collapse_matches : Matches (Tracks N) (Eval.collapse g i) (Eval.collapse g' i') Eq := by
  unfold Eval.collapse
  rw [h.attr]
  refine .read (h.operand 0) fun v v' hv => .same (tensor_matches hN hv) fun t => ?_
  cases (g.op i).attr with
  | reshape groups =>
    refine .ask fun dims => .read (h.result 0) fun r r' hr => .ask fun s => ?_
    exact .ask fun u => define_matches hN hr _
  | _ => exact .throw _

theorem expand_matches : Matches (Tracks N) (Eval.expand g i) (Eval.expand g' i') Eq := by
  refine .read (h.operand 0) fun v v' hv => .same (tensor_matches hN hv) fun t => ?_
  refine .read (h.result 0) fun r r' hr => ?_
  simp only [(hN.same hr).ty]
  exact .bind (.lift (.refl _)) fun _ _ _ => .ask fun u => define_matches hN hr _

end

theorem sliceWords_matches (hN : Naming g g' N) {os os' zs zs' : List Index}
    (hos : Forall₂ (Index.Corresponds N) os os') (hzs : Forall₂ (Index.Corresponds N) zs zs') :
    Matches (Tracks N) (Eval.sliceWords g os zs) (Eval.sliceWords g' os' zs') Eq := by
  induction hos generalizing zs zs' with
  | nil =>
    refine .pure ?_
    rw [map_const', map_const', hzs.length_eq]
  | cons ho _ ih =>
    refine .same (word_matches hN ho) fun a => ?_
    cases hzs with
    | nil => exact .throw _
    | cons hz hzs =>
      exact .same (word_matches hN hz) fun b => .same (ih hzs) fun p => .pure rfl

variable (hN : Naming g g' N) (h : Twin g g' N i i')

include hN h

theorem extractSlice_matches :
    Matches (Tracks N) (Eval.extractSlice g i) (Eval.extractSlice g' i') Eq := by
  refine .read (h.operand 0) fun v v' hv => .same (tensor_matches hN hv) fun t => ?_
  refine .read h.offsetsAndSizes fun p p' hp => .same (sliceWords_matches hN hp.1 hp.2) fun q => ?_
  exact .read (h.result 0) fun r r' hr => .ask fun u => define_matches hN hr _

theorem insertSlice_matches :
    Matches (Tracks N) (Eval.insertSlice g i) (Eval.insertSlice g' i') Eq := by
  refine .read (h.operand 0) fun v v' hv => .same (tensor_matches hN hv) fun t => ?_
  refine .read (h.operand 1) fun w w' hw => .same (tensor_matches hN hw) fun d => ?_
  refine .read h.offsetsAndSizes fun p p' hp => .same (sliceWords_matches hN hp.1 hp.2) fun q => ?_
  exact .read (h.result 0) fun r r' hr => .ask fun u => define_matches hN hr _

theorem conv_matches : Matches (Tracks N) (Eval.conv g i) (Eval.conv g' i') Eq := by
  refine .same (.lift h.convAttr) fun p => .read (h.result 0) fun r r' hr => ?_
  refine .read (h.operand 0) fun v v' hv => .same (tensor_matches hN hv) fun input => ?_
  refine .read (h.operand 1) fun w w' hw => .same (tensor_matches hN hw) fun filter => ?_
  refine .read (h.operand 2) fun u u' hu => .same (tensor_matches hN hu) fun output => ?_
  exact .ask fun t => define_matches hN hr _

end Leaves

/-! ## 2. Operations with a body -/

section Regions

variable {g g' : Graph} {N : ValueId → ValueId → Prop} {i i' : OpId}
  {block block' : BlockId → Eval (List Datum)}

theorem loop_matches {R : Env → Env → Prop} {body body' : Int64 → List Datum → Eval (List Datum)}
    (h : ∀ iv ds, Matches R (body iv ds) (body' iv ds) Eq) (upper step : Int64) (fuel : Nat)
    (iv : Int64) (ds : List Datum) :
    Matches R (Eval.loop upper step body fuel iv ds)
      (Eval.loop upper step body' fuel iv ds) Eq := by
  induction fuel generalizing iv ds with
  | zero => exact .throw _
  | succ fuel ih =>
    unfold Eval.loop
    split
    · exact .same (h iv ds) fun next => ih _ _
    · exact .pure rfl

/-- What runs the bodies of twins runs them alike. -/
def BodiesMatch (g g' : Graph) (N : ValueId → ValueId → Prop) (i i' : OpId)
    (block block' : BlockId → Eval (List Datum)) : Prop :=
  ∀ c c', (g.op i).body = some c → (g'.op i').body = some c' →
    Matches (Tracks N) (block c) (block' c') Eq

theorem forLoop_matches (hN : Naming g g' N) (h : Twin g g' N i i')
    (hb : BodiesMatch g g' N i i' block block') :
    Matches (Tracks N) (Eval.forLoop g block i) (Eval.forLoop g' block' i') Eq := by
  refine .read (h.operand 0) fun v v' hv => .same (index_matches hN hv) fun lower => ?_
  refine .read (h.operand 1) fun w w' hw => .same (index_matches hN hw) fun upper => ?_
  refine .read (h.operand 2) fun u u' hu => .same (index_matches hN hu) fun step => ?_
  split
  · exact .throw_bind _
  refine .read h.inits fun xs xs' hxs => .same (.mapM_eq hxs fun x x' hx => datum_matches hN hx)
    fun inits => ?_
  refine .read h.carried fun args args' hargs => ?_
  refine .bind (loop_matches (fun iv ds => ?_) _ _ _ _ _) ?_
  · refine .read h.inductionVar fun x x' hx => .bind (define_matches hN hx _) fun _ _ _ => ?_
    refine .bind (bindCarried_matches hN hargs ds) fun _ _ _ => ?_
    exact .read h.bodyId fun c c' hc => hb c c' hc.1 hc.2.1
  · rintro ds _ rfl
    exact defineAll_matches hN h.results ds

theorem bindElements_matches (hN : Naming g g' N) {args args' : List ValueId}
    (hargs : Forall₂ N args args') (point syms : List Int64) (maps : List Affine.Map)
    (operands : List Tensor) :
    Matches (Tracks N) (Eval.bindElements point syms maps args operands)
      (Eval.bindElements point syms maps args' operands) Eq := by
  induction maps generalizing args args' operands with
  | nil => exact .pure rfl
  | cons m ms ih =>
    refine .ask fun indices => ?_
    cases operands with
    | nil => exact .throw _
    | cons t ts =>
      refine .ask fun s => ?_
      cases hargs with
      | nil => exact .throw _
      | cons hv hvs =>
        exact .bind (define_matches hN hv _) fun _ _ _ => .same (ih hvs ts) fun rest => .pure rfl

/-- A step that does not look at the data of values. -/
theorem storeYields_matches (ds : List Datum) (indices : List (List Int64)) (outs : List Tensor) :
    Matches (Tracks N) (Eval.storeYields ds indices outs)
      (Eval.storeYields ds indices outs) Eq := by
  induction ds generalizing indices outs with
  | nil => exact .pure rfl
  | cons d ds ih =>
    cases d with
    | scalar s =>
      cases indices with
      | nil => exact .throw _
      | cons is rest =>
        cases outs with
        | nil => exact .throw _
        | cons t ts =>
          exact .ask fun u => .same (ih rest ts) fun us => .pure rfl
    | _ => exact .throw _

variable (hN : Naming g g' N) (h : Twin g g' N i i') (hb : BodiesMatch g g' N i i' block block')

include hN h hb

theorem generic_matches :
    Matches (Tracks N) (Eval.generic g block i) (Eval.generic g' block' i') Eq := by
  refine .same (.lift h.genericAttr) fun a => .read h.shaped fun shaped shaped' hshaped => ?_
  refine .read h.inputs fun ins ins' hins => ?_
  refine .same (.mapM_eq hshaped fun v v' hv => tensor_matches hN hv) fun operands => ?_
  refine .read h.symbols fun xs xs' hxs => .same (.mapM_eq hxs fun x x' hx => index_matches hN hx)
    fun syms => ?_
  refine .ask fun sides => .read h.bodyId fun c c' hc => ?_
  dsimp only
  rw [hshaped.length_eq, hins.length_eq]
  split
  · exact .throw_bind _
  rw [Box.foldM_eq_foldlM, Box.foldM_eq_foldlM]
  refine .bind (.foldlM (fun outs point => ?_) _ _) ?_
  · refine .same (bindElements_matches hN hc.2.2 _ _ _ _) fun indices => ?_
    exact .same (hb c c' hc.1 hc.2.1) fun yields => storeYields_matches _ _ _
  · rintro outs _ rfl
    exact defineAll_matches hN h.results _

theorem op_matches : Matches (Tracks N) (Eval.op g block i) (Eval.op g' block' i') Eq := by
  unfold Eval.op
  rw [h.kind]
  cases g.kind i with
  | constant => exact constant_matches hN h
  | addInt | mulInt | addFloat | mulFloat => exact binary_matches hN h
  | extendInt | extendFloat | intToFloat => exact widen_matches hN h
  | affineApply | affineMin => exact affine_matches hN h
  | tensorDim => exact tensorDim_matches hN h
  | collapse => exact collapse_matches hN h
  | expand => exact expand_matches hN h
  | extractSlice => exact extractSlice_matches hN h
  | insertSlice => exact insertSlice_matches hN h
  | conv => exact conv_matches hN h
  | generic => exact generic_matches hN h hb
  | forLoop => exact forLoop_matches hN h hb
  | _ => exact .throw _

end Regions

/-! ## 3. Blocks and functions -/

section Blocks

variable {g g' : Graph} {N : ValueId → ValueId → Prop}

theorem ops_matches (hN : Naming g g' N) {block block' : BlockId → Eval (List Datum)}
    {is is' : List OpId}
    (h : Forall₂ (fun i i' => Twin g g' N i i' ∧ BodiesMatch g g' N i i' block block') is is') :
    Matches (Tracks N) (Eval.ops g block is) (Eval.ops g' block' is') Eq := by
  induction h with
  | nil => exact .throw _
  | cons hi _ ih =>
    unfold Eval.ops
    rw [hi.1.kind]
    split
    · exact .mapM_eq hi.1.operands fun v v' hv => datum_matches hN hv
    · exact .bind (op_matches hN hi.1 hi.2) fun _ _ _ => ih

/-- Blocks that are twins evaluate alike, however deep they may be nested beyond what they are. -/
theorem block_matches (hN : Naming g g' N) {k : Nat} {b b' : BlockId} (h : TwinBlocks g g' N k b b')
    {fuel fuel' : Nat} (hle : k ≤ fuel) (hle' : k ≤ fuel') :
    Matches (Tracks N) (Eval.block g fuel b) (Eval.block g' fuel' b') Eq := by
  induction k generalizing b b' fuel fuel' with
  | zero => exact h.elim
  | succ k ih =>
    obtain ⟨fuel, rfl⟩ := Nat.exists_eq_add_of_lt (Nat.lt_of_lt_of_le (Nat.succ_pos k) hle)
    obtain ⟨fuel', rfl⟩ := Nat.exists_eq_add_of_lt (Nat.lt_of_lt_of_le (Nat.succ_pos k) hle')
    refine ops_matches hN (Forall₂.imp (fun i i' hi => ⟨hi.1, fun c c' hc hc' => ?_⟩) h)
    exact ih (hi.2 c c' hc hc') (by omega) (by omega)

theorem bindArguments_matches (hN : Naming g g' N) {vs vs' : List ValueId} (hvs : Forall₂ N vs vs')
    (k : Nat) (ts : List Tensor) :
    Matches (Tracks N) (Eval.bindArguments g k vs ts) (Eval.bindArguments g' k vs' ts) Eq := by
  induction hvs generalizing k ts with
  | nil => exact .pure rfl
  | cons hv _ ih =>
    cases ts with
    | nil => exact .pure rfl
    | cons t ts =>
      unfold Eval.bindArguments
      simp only [(hN.same hv).ty]
      split
      · exact .throw_bind _
      · exact .bind (define_matches hN hv _) fun _ _ _ => ih _ _

variable {f f' : FuncId} (h : TwinFuncs g g' N f f') (args : List Tensor)

include h

theorem func_matches : Matches (Tracks N) (Eval.func g f args) (Eval.func g' f' args) Eq := by
  obtain ⟨b, b', k, hb, hb', hargs, hblocks, hle, hle'⟩ := h.bodies
  unfold Eval.func
  rw [hb, hb']
  refine .bind (.lift (.ok ⟨rfl, rfl⟩)) (Q := fun c c' => c = b ∧ c' = b') ?_
  rintro _ _ ⟨rfl, rfl⟩
  simp only [h.name, hargs.length_eq]
  split
  · exact .throw_bind _
  refine .bind (bindArguments_matches h.naming hargs 0 args) fun _ _ _ => ?_
  refine .same (block_matches h.naming hblocks hle hle') fun ds => .mapM_same (fun d => ?_) ds
  cases d with
  | tensor t => exact .pure rfl
  | _ => exact .throw _

/-- **Functions that are twins come to the same results, or end by the same fault.** -/
theorem TwinFuncs.run : g'.run f' args = g.run f args := by
  unfold Graph.run EStateM.run
  rcases func_matches h args ∅ ∅ fun _ _ _ =>
    rfl with ⟨ts, _, E, E', h1, h2, -, rfl⟩ | ⟨f, E, E', h1, h2⟩
  · rw [h1, h2]
  · rw [h1, h2]

end Blocks

end ConvNest.Program
