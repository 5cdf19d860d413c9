/-
# Twins print alike

Functions that are twins have the same text (`TwinFuncs.print`): values get their names in the order
in which they are met, and values that correspond are met together.
-/
import ConvNest.Program.Printer
import ConvNest.Proofs.Twins

namespace ConvNest.Program

open List

/-- As many names have been given, and values that correspond have the same one, or none. -/
structure SameNames (N : ValueId → ValueId → Prop) (s s' : Names) : Prop where
  args : s'.args = s.args
  results : s'.results = s.results
  table : ∀ v v', N v v' → s'.table[v']? = s.table[v]?

section Values

variable {g g' : Graph} {N : ValueId → ValueId → Prop} {v v' : ValueId} {vs vs' : List ValueId}

theorem SameNames.insert (hN : Naming g g' N) {s s' : Names} (h : SameNames N s s') (hv : N v v')
    (n : String) (args results : Nat) :
    SameNames N ⟨s.table.insert v n, args, results⟩ ⟨s'.table.insert v' n, args, results⟩ where
  args := rfl
  results := rfl
  table u u' hu := by
    have hone := hN.one hv hu
    simp only [Std.HashMap.getElem?_insert, beq_iff_eq, hone]
    split
    · rfl
    · exact h.table u u' hu

theorem isEmpty_eq (hvs : Forall₂ N vs vs') : vs'.isEmpty = vs.isEmpty := by
  cases hvs <;> rfl

variable (hN : Naming g g' N)

include hN

theorem argName_matches (hv : N v v') :
    Matches (SameNames N) (Print.argName v) (Print.argName v') Eq := by
  refine .of_states (fun _ => rfl) (fun _ => rfl) fun s s' hs => ?_
  rw [hs.args, hs.results]
  exact ⟨hs.insert hN hv _ _ _, rfl⟩

theorem name_matches (hv : N v v') :
    Matches (SameNames N) (Print.name g v) (Print.name g' v') Eq := by
  have hsame := hN.same hv
  refine .get_bind fun s s' hs => ?_
  rw [hs.table v v' hv]
  cases s.table[v]? with
  | some n => exact .pure rfl
  | none =>
    rcases hsame.owner with ⟨b, b', ho, ho'⟩ | ⟨i, i', ho, ho', -, -⟩
    · simp only [ho, ho']
      exact .pure rfl
    · simp only [ho, ho', hsame.constIndex, hs.results, hs.args]
      refine .ask fun c => .bind (.set (hs.insert hN hv _ _ _)) fun _ _ _ => .pure rfl

theorem names_matches (hvs : Forall₂ N vs vs') :
    Matches (SameNames N) (Print.names g vs) (Print.names g' vs') Eq := by
  exact .same (.mapM_eq hvs fun v v' hv => name_matches hN hv) fun ns => .pure rfl

theorem types_eq (hvs : Forall₂ N vs vs') : Print.types g' vs' = Print.types g vs := by
  have htys := congrArg (List.map Ty.text) (hN.tys hvs)
  rw [map_map, map_map] at htys
  exact congrArg Text.commas htys

theorem index_prints {x x' : Index} (hx : x.Corresponds N x') :
    Matches (SameNames N) (Print.index g x) (Print.index g' x') Eq := by
  cases hx with
  | static n => exact .pure rfl
  | dynamic hv => exact name_matches hN hv

theorem typedArg_matches (hv : N v v') :
    Matches (SameNames N) (Print.typedArg g v) (Print.typedArg g' v') Eq := by
  refine .same (argName_matches hN hv) fun n => ?_
  rw [(hN.same hv).ty]
  exact .pure rfl

end Values

/-! ## 1. Operations without a body -/

section Leaves

variable {g g' : Graph} {N : ValueId → ValueId → Prop} {i i' : OpId}

variable (hN : Naming g g' N) (h : Twin g g' N i i')

include hN h

theorem constant_prints : Matches (SameNames N) (Print.constant g i) (Print.constant g' i') Eq := by
  unfold Print.constant
  rw [h.attr, h.kind]
  cases (g.op i).attr with
  | constant n x =>
    refine .read (h.result 0) fun r r' hr => ?_
    rw [(hN.same hr).ty]
    exact .pure rfl
  | _ => exact .throw _

theorem affine_prints : Matches (SameNames N) (Print.affine g i) (Print.affine g' i') Eq := by
  unfold Print.affine
  rw [h.attr, h.kind]
  cases (g.op i).attr with
  | affine m =>
    exact .same (names_matches hN h.operands) fun ns => .pure rfl
  | _ => exact .throw _

theorem tensorDim_prints :
    Matches (SameNames N) (Print.tensorDim g i) (Print.tensorDim g' i') Eq := by
  unfold Print.tensorDim
  rw [h.attr, h.kind]
  refine .read (h.operand 0) fun v v' hv => .same (name_matches hN hv) fun n => ?_
  cases (g.op i).attr with
  | axis a =>
    rw [(hN.same hv).ty]
    exact .pure rfl
  | _ => exact .throw _

theorem reshape_prints : Matches (SameNames N) (Print.reshape g i) (Print.reshape g' i') Eq := by
  unfold Print.reshape
  rw [h.attr, h.kind]
  refine .read (h.operand 0) fun v v' hv => .same (name_matches hN hv) fun n => ?_
  cases (g.op i).attr with
  | reshape gs =>
    refine .read (h.result 0) fun r r' hr => ?_
    rw [(hN.same hv).ty, (hN.same hr).ty]
    exact .pure rfl
  | _ => exact .throw _

theorem slice_prints : Matches (SameNames N) (Print.slice g i) (Print.slice g' i') Eq := by
  unfold Print.slice
  rw [h.kind]
  refine .read h.offsetsAndSizes ?_
  rintro ⟨os, zs⟩ ⟨os', zs'⟩ ⟨hos, hzs⟩
  have hones : os'.map (fun _ => "1") = os.map fun _ => "1" := by
    rw [map_const', map_const', Forall₂.length_eq hos]
  have hindex := fun x x' hx => @index_prints g g' N hN x x' hx
  refine .read (h.operand 0) fun v v' hv => .read h.sliceDest fun d d' hd => ?_
  cases hd with
  | some hd =>
    refine .same (name_matches hN hv) fun s => .same (name_matches hN hd) fun t => ?_
    refine .same (.mapM_eq hos hindex) fun as => ?_
    refine .same (.mapM_eq hzs hindex) fun bs => ?_
    simp only [hones, (hN.same hv).ty, (hN.same hd).ty]
    exact .pure rfl
  | none =>
    refine .same (name_matches hN hv) fun s => .same (.mapM_eq hos hindex) fun as => ?_
    refine .same (.mapM_eq hzs hindex) fun bs => ?_
    refine .read (h.result 0) fun r r' hr => ?_
    simp only [hones, (hN.same hv).ty, (hN.same hr).ty]
    exact .pure rfl

theorem conv_prints : Matches (SameNames N) (Print.conv g i) (Print.conv g' i') Eq := by
  unfold Print.conv
  rw [h.kind]
  refine .same (.lift h.convAttr) fun p => ?_
  refine .read (.firstItems h.operands 2) fun ins ins' hins => .same (names_matches hN hins)
    fun insText => ?_
  refine .read (h.operand 2) fun out out' hout => .same (name_matches hN hout) fun outText => ?_
  refine .read (h.result 0) fun r r' hr => ?_
  simp only [types_eq hN hins, (hN.same hout).ty, (hN.same hr).ty]
  exact .pure rfl

theorem plain_prints : Matches (SameNames N) (Print.plain g i) (Print.plain g' i') Eq := by
  have hkind : (g'.op i').kind = (g.op i).kind := h.kind
  unfold Print.plain
  simp only [hkind, isEmpty_eq h.operands, isEmpty_eq h.results, types_eq hN h.operands,
    types_eq hN h.results]
  refine .part (fun operands => .pure rfl) fun hrest => ?_
  exact .same (names_matches hN h.operands) fun ns => .bind (.pure rfl) fun _ _ heq => heq ▸ hrest _

end Leaves

/-! ## 2. Operations with a body -/

section Regions

variable {g g' : Graph} {N : ValueId → ValueId → Prop} {i i' : OpId}
  {block block' : BlockId → Print String}

/-- What prints the bodies of twins prints them alike. -/
def BodiesPrint (g g' : Graph) (N : ValueId → ValueId → Prop) (i i' : OpId)
    (block block' : BlockId → Print String) : Prop :=
  ∀ c c', (g.op i).body = some c → (g'.op i').body = some c' →
    Matches (SameNames N) (block c) (block' c') Eq

theorem generic_prints (hN : Naming g g' N) (h : Twin g g' N i i')
    (hb : BodiesPrint g g' N i i' block block') (pad : String) :
    Matches (SameNames N) (Print.generic g block pad i) (Print.generic g' block' pad i') Eq := by
  unfold Print.generic
  rw [h.kind]
  refine .same (.lift h.genericAttr) fun a => ?_
  refine .read h.inputs fun ins ins' hins => .same (names_matches hN hins) fun insText => ?_
  refine .read h.outputs fun outs outs' houts => .same (names_matches hN houts) fun outsText => ?_
  refine .read h.symbols fun syms syms' hsyms => ?_
  rw [isEmpty_eq hsyms]
  refine .part (fun symsText => ?_) fun hrest => ?_
  · refine .read h.bodyId fun c c' hc => ?_
    refine .same (.mapM_eq hc.2.2 fun v v' hv => typedArg_matches hN hv) fun args => ?_
    refine .same (hb c c' hc.1 hc.2.1) fun body => ?_
    simp only [types_eq hN hins, types_eq hN houts, types_eq hN h.results]
    exact .pure rfl
  · exact .same (names_matches hN hsyms) fun ns => .bind (.pure rfl) fun _ _ heq => heq ▸ hrest _

theorem carriedPairs_matches (hN : Naming g g' N) {args args' inits inits' : List ValueId}
    (hargs : Forall₂ N args args') (hinits : Forall₂ N inits inits') :
    Matches (SameNames N) (Print.carriedPairs g args inits)
      (Print.carriedPairs g' args' inits') Eq := by
  induction hargs generalizing inits inits' with
  | nil =>
    refine .pure ?_
    rw [map_const', map_const', hinits.length_eq]
  | cons ha _ ih =>
    cases hinits with
    | nil => exact .throw _
    | cons hx hxs =>
      refine .same (argName_matches hN ha) fun a => .same (name_matches hN hx) fun n => ?_
      exact .same (ih hxs) fun rest => .pure rfl

variable (hN : Naming g g' N) (h : Twin g g' N i i') (hb : BodiesPrint g g' N i i' block block')

include hN h hb

theorem forLoop_prints (pad : String) :
    Matches (SameNames N) (Print.forLoop g block pad i) (Print.forLoop g' block' pad i') Eq := by
  unfold Print.forLoop
  rw [h.kind, h.carriedCount]
  refine .read h.inductionVar fun v v' hv => .same (argName_matches hN hv) fun iv => ?_
  refine .read h.bounds fun bs bs' hbs => .same (name_matches hN hbs.1) fun lower => ?_
  refine .same (name_matches hN hbs.2.1) fun upper => .same (name_matches hN hbs.2.2) fun step => ?_
  refine .part (fun carried => ?_) fun hrest => ?_
  · exact .read h.bodyId fun c c' hc => .same (hb c c' hc.1 hc.2.1) fun body => .pure rfl
  · refine .read h.carried fun args args' hargs => .read h.inits fun xs xs' hxs => ?_
    refine .same (carriedPairs_matches hN hargs hxs) fun pairs => ?_
    rw [types_eq hN h.results]
    exact .bind (.pure rfl) fun _ _ heq => heq ▸ hrest _

theorem op_prints (depth : Nat) :
    Matches (SameNames N) (Print.op g block depth i) (Print.op g' block' depth i') Eq := by
  have hkind : (g'.op i').kind = (g.op i).kind := h.kind
  unfold Print.op
  simp only [hkind, isEmpty_eq h.results]
  refine .part (fun results => ?_) fun hrest => ?_
  · have hpads {x : Print String} {y : Print String} (hxy : Matches (SameNames N) x y Eq) :
        Matches (SameNames N) (x >>= fun rest => pure (Print.indent depth ++ results ++ rest))
          (y >>= fun rest => pure (Print.indent depth ++ results ++ rest)) Eq := by
      refine .bind hxy ?_
      rintro rest _ rfl
      exact .pure rfl
    cases (g.op i).kind with
    | constant => exact hpads (constant_prints hN h)
    | affineApply | affineMin => exact hpads (affine_prints hN h)
    | tensorDim => exact hpads (tensorDim_prints hN h)
    | collapse | expand => exact hpads (reshape_prints hN h)
    | extractSlice | insertSlice => exact hpads (slice_prints hN h)
    | conv => exact hpads (conv_prints hN h)
    | generic => exact hpads (generic_prints hN h hb _)
    | forLoop => exact hpads (forLoop_prints hN h hb _)
    | _ => exact hpads (plain_prints hN h)
  · refine .same (names_matches hN h.results) fun ns => ?_
    exact .bind (.pure rfl) fun _ _ heq => heq ▸ hrest _

end Regions

/-! ## 3. Blocks and functions -/

section Blocks

variable {g g' : Graph} {N : ValueId → ValueId → Prop}

/-- Blocks that are twins print alike, however deep they may be nested beyond what they are. -/
theorem block_prints (hN : Naming g g' N) {k : Nat} {b b' : BlockId} (h : TwinBlocks g g' N k b b')
    {fuel fuel' : Nat} (hle : k ≤ fuel) (hle' : k ≤ fuel') (depth : Nat) :
    Matches (SameNames N) (Print.block g fuel depth b) (Print.block g' fuel' depth b') Eq := by
  induction k generalizing b b' fuel fuel' depth with
  | zero => exact h.elim
  | succ k ih =>
    obtain ⟨fuel, rfl⟩ := Nat.exists_eq_add_of_lt (Nat.lt_of_lt_of_le (Nat.succ_pos k) hle)
    obtain ⟨fuel', rfl⟩ := Nat.exists_eq_add_of_lt (Nat.lt_of_lt_of_le (Nat.succ_pos k) hle')
    refine .bind (.mapM_eq h fun i i' hi => op_prints hN hi.1 (fun c c' hc hc' => ?_) depth) ?_
    · exact ih (hi.2 c c' hc hc') (by omega) (by omega) (depth + 1)
    · rintro texts _ rfl
      exact .pure rfl

variable {f f' : FuncId} (h : TwinFuncs g g' N f f')

include h

theorem resultTypes_eq : g'.resultTypes f' = g.resultTypes f := by
  obtain ⟨b, b', k, hb, hb', -, hblocks, -, -⟩ := h.bodies
  have hterm := hblocks.terminator
  have hreturn : Agree (g.returnOf f) (g'.returnOf f') (Option.Rel (Twin g g' N)) := by
    unfold Graph.returnOf
    rw [hb, hb']
    refine .bind (Q := fun c c' => c = b ∧ c' = b') (.ok ⟨rfl, rfl⟩) ?_
    rintro c c' ⟨rfl, rfl⟩
    generalize g.terminator c = x, g'.terminator c' = y at hterm ⊢
    cases hterm with
    | none => exact .ok .none
    | some hi =>
      simp only [hi.kind]
      refine .ok ?_
      split
      · exact .some hi
      · exact .none
  refine (Agree.eq (.bind hreturn fun x y hxy => ?_)).symm
  cases hxy with
  | none => exact .ok rfl
  | some hi => exact .ok (h.naming.tys hi.operands).symm

theorem func_prints : Matches (SameNames N) (Print.func g f) (Print.func g' f') Eq := by
  have hresults := resultTypes_eq h
  obtain ⟨b, b', k, hb, hb', hargs, hblocks, hle, hle'⟩ := h.bodies
  unfold Print.func
  rw [hb, hb', hresults, h.name]
  refine .bind (.lift (.ok ⟨rfl, rfl⟩)) (Q := fun c c' => c = b ∧ c' = b') ?_
  rintro _ _ ⟨rfl, rfl⟩
  refine .same (.mapM_eq hargs fun v v' hv => typedArg_matches h.naming hv) fun args => ?_
  refine .ask fun tys => ?_
  exact .same (block_prints h.naming hblocks hle hle' 1) fun body => .pure rfl

/-- **Functions that are twins have the same text.** -/
theorem TwinFuncs.print : g'.print f' = g.print f := by
  have hstart : SameNames N ⟨∅, 0, 0⟩ ⟨∅, 0, 0⟩ := ⟨rfl, rfl, fun _ _ _ => by simp⟩
  unfold Graph.print EStateM.run
  rcases func_prints h _ _ hstart with ⟨t, _, s, s', h1, h2, -, rfl⟩ | ⟨f, s, s', h1, h2⟩
  · rw [h1, h2]
  · rw [h1, h2]

end Blocks

end ConvNest.Program
