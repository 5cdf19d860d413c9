/-
# What every run of a verified function keeps

Along every run of a function that keeps the rules, whether it succeeds or ends by a fault, all
values that an operation can see have data, and all data fit the types of their values.  What it
means to fit is a parameter `Fits`: with nothing asked of data, this says that no value is read
before it is defined; with the kinds and shapes of data, that evaluation is sound for types.

`Disciplined` is what a node has to do for that beyond the rules.  The step lemmas are one for each
step of the evaluator, `op_sound` is the one for an operation, and `func_sound` is what a whole run
keeps.
-/
import ConvNest.Proofs.Aftermath
import ConvNest.Proofs.Harmless
import ConvNest.Proofs.Monitor
import ConvNest.Proofs.Verified

namespace ConvNest.Program

open Node List

section Soundness

variable (g : Graph) (Fits : Ty → Datum → Prop)

/-- All data of an environment fit. -/
def FitEnv (E : Env) : Prop := ∀ (v : ValueId) d, E[v.idx]? = some d → Fits (g.ty v) d

/-- Values have data, and all data fit. -/
structure Stocked (V : List ValueId) (E : Env) : Prop where
  defined : ∀ v ∈ V, ∃ d, E[v.idx]? = some d
  fit : FitEnv g Fits E

/-- A fault that does not say that the program is incomplete; all data fit. -/
def Calm (f : Fault) (E : Env) : Prop := f.incomplete = false ∧ FitEnv g Fits E

/-- Data that fit types, one by one. -/
abbrev FitTys (tys : List Ty) (ds : List Datum) : Prop := Forall₂ Fits tys ds

/-- What the evaluation comes to where the values `V` have data; its faults are calm. -/
abbrev Calmly (V : List ValueId) {α : Type} (x : Eval α) (Q : α → Env → Prop) : Prop :=
  Leaves (Calm g Fits) (Stocked g Fits V) x Q

variable {g Fits}
variable {V : List ValueId} {E : Env}

theorem Stocked.mono {W : List ValueId} (h : Stocked g Fits V E) (hsub : W ⊆ V) :
    Stocked g Fits W E :=
  ⟨fun v hv => h.defined v (hsub hv), h.fit⟩

theorem Stocked.calm (h : Stocked g Fits V E) {f : Fault} (hf : f.incomplete = false) :
    Calm g Fits f E := ⟨hf, h.fit⟩

theorem Stocked.insert (h : Stocked g Fits V E) {v : ValueId} {d : Datum}
    (hd : Fits (g.ty v) d) : Stocked g Fits (v :: V) (E.insert v.idx d) := by
  refine ⟨fun u hu => ?_, fun u c hc => ?_⟩
  · rw [env_insert]
    split
    · exact ⟨d, rfl⟩
    · next hne => exact h.defined u ((mem_cons.1 hu).resolve_left fun heq => hne heq.symm)
  · rw [env_insert] at hc
    split at hc
    · next heq => exact heq ▸ Option.some.inj hc ▸ hd
    · exact h.fit u c hc

/-! ## 1. Steps of the evaluator -/

section Steps

variable {V : List ValueId} {ts : List Tensor}
variable {v : ValueId} {vs : List ValueId} {ds : List Datum}

theorem datum_sound (hv : v ∈ V) : Calmly g Fits V (Eval.datum g v) fun d E =>
      Fits (g.ty v) d ∧ Stocked g Fits V E := by
  refine .of_ok fun E h => ?_
  obtain ⟨d, hd⟩ := h.defined v hv
  refine ⟨d, E, ?_, h.fit v d hd, h⟩
  refine state_bind_ok E rfl ?_
  simp only [hd]
  rfl

theorem tensor_sound (hv : v ∈ V) : Calmly g Fits V (Eval.tensor g v) fun t E =>
      Fits (g.ty v) (.tensor t) ∧ Stocked g Fits V E := by
  refine .bind (datum_sound hv) fun d => ?_
  cases d with
  | tensor t => exact .pure fun _ h => h
  | _ => exact .throw fun _ h => h.2.calm rfl

theorem index_sound (hv : v ∈ V) :
    Calmly g Fits V (Eval.index g v) fun _ => Stocked g Fits V := by
  refine .bind (datum_sound hv) fun d => ?_
  cases d with
  | index n => exact .pure fun _ h => h.2
  | _ => exact .throw fun _ h => h.2.calm rfl

/-- Values that are read one by one. -/
theorem mapM_sound {σ α β : Type} {I : Fault → σ → Prop} {P : σ → Prop} {f : α → EStateM Fault σ β}
    {R : α → β → Prop} {vs : List α}
    (h : ∀ v ∈ vs, Leaves I P (f v) fun b s => R v b ∧ P s) :
    Leaves I P (vs.mapM f) fun bs s => Forall₂ R vs bs ∧ P s := by
  induction vs with
  | nil => exact .pure fun _ hs => ⟨.nil, hs⟩
  | cons v vs ih =>
    rw [mapM_cons]
    refine .bind (h v mem_cons_self) fun b => .given fun hb => ?_
    refine .bind (ih fun u hu => h u (mem_cons_of_mem _ hu)) fun bs => ?_
    exact .pure fun _ hs => ⟨.cons hb hs.1, hs.2⟩

theorem data_sound (hvs : vs ⊆ V) :
    Calmly g Fits V (vs.mapM (Eval.datum g)) fun ds E =>
      FitTys Fits (vs.map g.ty) ds ∧ Stocked g Fits V E :=
  (mapM_sound fun _ hv => datum_sound (hvs hv)).weaken fun _ _ h =>
    ⟨forall₂_map_left_iff.2 h.1, h.2⟩

theorem define_sound {d : Datum} (hd : Fits (g.ty v) d) :
    Calmly g Fits V (Eval.define v d) fun _ => Stocked g Fits (v :: V) :=
  .modify fun _ h => h.insert hd

theorem indices_sound (hvs : vs ⊆ V) :
    Calmly g Fits V (vs.mapM (Eval.index g)) fun _ => Stocked g Fits V :=
  (mapM_sound (R := fun _ _ => True) fun _ hv =>
    (index_sound (hvs hv)).weaken fun _ _ h => ⟨trivial, h⟩).weaken fun _ _ h => h.2

/-- What gives data to values one by one. -/
theorem defined_cons {E : Env} (h : Stocked g Fits (vs ++ v :: V) E) :
    Stocked g Fits (v :: vs ++ V) E :=
  h.mono perm_middle.symm.subset

theorem defineAll_sound (h : FitTys Fits (vs.map g.ty) ds) :
    Calmly g Fits V (Eval.defineAll vs ds) fun _ => Stocked g Fits (vs ++ V) := by
  induction vs generalizing ds V with
  | nil =>
    cases h
    exact .pure fun _ h => h
  | cons v vs ih =>
    cases h with
    | cons hd hds => exact .bind (define_sound hd) fun _ => (ih hds).weaken fun _ _ => defined_cons

theorem bindCarried_sound (h : FitTys Fits (vs.map g.ty) ds) :
    Calmly g Fits V (Eval.bindCarried vs ds) fun _ => Stocked g Fits (vs ++ V) := by
  rw [bindCarried_eq (by simpa using h.length_eq.symm)]
  exact defineAll_sound h

theorem bindElements_sound (point syms : List Int64) {maps : List Affine.Map}
    (hlen : maps.length = vs.length)
    (h : Forall₂ (fun v t => ∀ is s, t.scalarAt is = .ok s → Fits (g.ty v) (.scalar s)) vs ts) :
    Calmly g Fits V (Eval.bindElements point syms maps vs ts) fun _ =>
      Stocked g Fits (vs ++ V) := by
  induction maps generalizing vs ts V with
  | nil =>
    obtain rfl := length_eq_zero_iff.1 hlen.symm
    exact .pure fun _ h => h
  | cons m maps ih =>
    cases h with
    | nil => exact absurd hlen (by simp)
    | @cons v t vs ts ht hts =>
      refine .bind (Q := fun _ => Stocked g Fits V) (.lift ?_ fun _ _ _ h => h) fun is => ?_
      · exact fun f _ hf h => h.calm (Eval.harmless_indexIn _ _ _ _ f hf)
      refine .bind (Q := fun s E => Fits (g.ty v) (.scalar s) ∧ Stocked g Fits V E) (.lift ?_ ?_)
        fun s => .given fun hs => ?_
      · exact fun f _ hf h => h.calm (Tensor.harmless_scalarAt _ _ f hf)
      · exact fun s _ hs h => ⟨ht is s hs, h⟩
      refine .bind (define_sound hs) fun _ => ?_
      exact .bind (ih (Nat.succ.inj hlen) hts) fun iss => .pure fun _ => defined_cons

theorem storeYields_sound {ys : List Ty} {os : List Ty}
    (hstore : Forall₂ (fun y o =>
      ∀ s t t' is, Fits y (.scalar s) → Fits o (.tensor t) → t.setScalar is s = .ok t' →
        Fits o (.tensor t')) ys os)
    (hds : FitTys Fits ys ds) (iss : List (List Int64)) (hts : FitTys Fits os (ts.map .tensor)) :
    Calmly g Fits V (Eval.storeYields ds iss ts) fun ts' E =>
      FitTys Fits os (ts'.map .tensor) ∧ Stocked g Fits V E := by
  induction hstore generalizing ds iss ts with
  | nil =>
    cases hds
    exact .pure fun _ h => ⟨hts, h⟩
  | @cons y o ys os hyo _ ih =>
    cases hds with
    | @cons _ d _ ds hd hds =>
      cases d with
      | tensor _ => exact .throw fun _ h => h.calm rfl
      | index _ => exact .throw fun _ h => h.calm rfl
      | scalar s =>
        cases iss with
        | nil => exact .throw fun _ h => h.calm rfl
        | cons is iss =>
          cases ts with
          | nil => exact .throw fun _ h => h.calm rfl
          | cons t ts =>
            obtain ⟨ht, hts⟩ := forall₂_cons.1 hts
            refine .bind (Q := fun t' E => Fits o (.tensor t') ∧ Stocked g Fits V E) (.lift ?_ ?_)
              fun t' => .given fun ht' => ?_
            · exact fun f _ hf h => h.calm (Tensor.harmless_setScalar _ _ _ f hf)
            · exact fun t' _ ht' h => ⟨hyo s t t' is hd ht ht', h⟩
            exact .bind (ih hds iss hts) fun ts' => .pure fun _ h => ⟨.cons ht' h.1, h.2⟩

end Steps

/-! ## 2. Operations without a body -/

section Leaf

variable {V : List ValueId} {i : OpId}
variable {α : Type} {n : Node}

theorem ask_sound {x : Except Fault α} (hx : Harmless x) :
    Calmly g Fits V (liftM x : Eval α) fun a E => x = .ok a ∧ Stocked g Fits V E :=
  .lift (fun f _ hf h => h.calm (hx f hf)) fun _ _ ha h => ⟨ha, h⟩

theorem operand_sound (hops : (g.op i).operands ⊆ V) (k : Nat) :
    Calmly g Fits V (liftM (g.operand i k) : Eval ValueId) fun v E =>
      v ∈ V ∧ Stocked g Fits V E :=
  (ask_sound (harmless_itemAt _ _)).weaken fun _ _ h =>
    ⟨hops (mem_of_getElem? (itemAt_ok.1 h.1)), h.2⟩

theorem scalar_sound {v : ValueId} (hv : v ∈ V) :
    Calmly g Fits V (Eval.scalar g v) fun _ => Stocked g Fits V := by
  refine .bind (datum_sound hv) fun d => ?_
  cases d with
  | scalar s => exact .pure fun _ h => h.2
  | _ => exact .throw fun _ h => h.2.calm rfl

theorem word_sound {j : Index} (hj : ∀ v, j = .dynamic v → v ∈ V) :
    Calmly g Fits V (Eval.word g j) fun _ => Stocked g Fits V := by
  cases j with
  | static n => exact .pure fun _ h => h
  | dynamic v => exact index_sound (hj v rfl)

theorem sliceWords_sound {os zs : List Index}
    (h : ∀ v, .dynamic v ∈ os ∨ .dynamic v ∈ zs → v ∈ V) :
    Calmly g Fits V (Eval.sliceWords g os zs) fun _ => Stocked g Fits V := by
  induction os generalizing zs with
  | nil => exact .pure fun _ h => h
  | cons o os ih =>
    refine .bind (word_sound fun v hv => h v (.inl (hv ▸ mem_cons_self))) fun a => ?_
    cases zs with
    | nil => exact .throw fun _ h => h.calm rfl
    | cons z zs =>
      refine .bind (word_sound fun v hv => h v (.inr (hv ▸ mem_cons_self))) fun b => ?_
      refine .bind (ih fun v hv => h v (hv.imp (mem_cons_of_mem _) (mem_cons_of_mem _)))
        fun p => .pure fun _ h => h

/-- An evaluation whose faults do not say that the program is incomplete, where values have data. -/
abbrev Sober (g : Graph) (Fits : Ty → Datum → Prop) (V : List ValueId) {α : Type} (x : Eval α) :
    Prop :=
  Calmly g Fits V x fun _ _ => True

theorem sober_define (r : ValueId) (d : Datum) : Sober g Fits V (Eval.define r d) :=
  .modify fun _ _ => trivial

theorem sober_result {k : ValueId → Eval Unit} (hk : ∀ r, Sober g Fits V (k r)) :
    Sober g Fits V (liftM (g.result i 0) >>= k) :=
  .bind (ask_sound (harmless_itemAt _ _)) fun r => .given fun _ => hk r

theorem sober_tensor (hops : (g.op i).operands ⊆ V) (n : Nat) {k : Tensor → Eval Unit}
    (hk : ∀ t, Sober g Fits V (k t)) :
    Sober g Fits V (liftM (g.operand i n) >>= fun v => Eval.tensor g v >>= k) :=
  .bind (operand_sound hops n) fun _ => .given fun hv => .bind (tensor_sound hv) fun t =>
    .given fun _ => hk t

theorem sober_scalar (hops : (g.op i).operands ⊆ V) (n : Nat) {k : Scalar → Eval Unit}
    (hk : ∀ s, Sober g Fits V (k s)) :
    Sober g Fits V (liftM (g.operand i n) >>= fun v => Eval.scalar g v >>= k) :=
  .bind (operand_sound hops n) fun _ => .given fun hv => .bind (scalar_sound hv) hk

theorem sober_ask {x : Except Fault α} (hx : Harmless x) {k : α → Eval Unit}
    (hk : ∀ a, Sober g Fits V (k a)) : Sober g Fits V (liftM x >>= k) :=
  .bind (ask_sound hx) fun a => .given fun _ => hk a

theorem sober_slice (hn : Here g n) (hops : n.head.operands ⊆ V)
    {k : List Int64 × List Int64 → Eval Unit} (hk : ∀ p, Sober g Fits V (k p)) :
    Sober g Fits V
      (liftM (g.offsetsAndSizes n.id) >>= fun p => Eval.sliceWords g p.1 p.2 >>= k) := by
  refine .bind (ask_sound (harmless_offsetsAndSizes g n.id)) fun p => .given fun hp => ?_
  have hoz : n.head.offsetsAndSizes = some (p.1, p.2) := by
    rw [← toOption_offsetsAndSizes hn, hp]
    rfl
  exact .bind (sliceWords_sound fun v hv => hops (offsetsAndSizes_subset hoz v hv)) hk

theorem sober_throw {f : Fault} (hf : f.incomplete = false) : Sober g Fits V (throw f : Eval α) :=
  .throw fun _ h => h.calm hf

theorem sober_constant : Sober g Fits V (Eval.constant g i) := by
  unfold Eval.constant
  cases (g.op i).attr with
  | constant n x =>
    refine sober_result fun r => ?_
    dsimp only
    split
    · exact sober_define _ _
    · split <;> exact sober_define _ _
  | _ => exact sober_throw rfl

theorem sober_affine (hops : (g.op i).operands ⊆ V) : Sober g Fits V (Eval.affine g i) := by
  unfold Eval.affine
  cases (g.op i).attr with
  | affine m =>
    refine .bind (indices_sound hops) fun ns => ?_
    refine sober_ask (harmless_firstItems _ _) fun ds => sober_ask (harmless_itemsAfter _ _)
      fun ss => ?_
    refine sober_ask (harmless_mapEval m ds ss) fun vs => sober_ask (Eval.harmless_least vs)
      fun n => ?_
    exact sober_result fun r => sober_define _ _
  | _ => exact sober_throw rfl

theorem sober_tensorDim (hops : (g.op i).operands ⊆ V) : Sober g Fits V (Eval.tensorDim g i) := by
  refine sober_tensor hops 0 fun t => sober_result fun r => ?_
  cases (g.op i).attr with
  | axis a => exact sober_ask (harmless_dimAt _ a) fun d => sober_define _ _
  | _ => exact sober_throw rfl

theorem sober_collapse (hops : (g.op i).operands ⊆ V) : Sober g Fits V (Eval.collapse g i) := by
  refine sober_tensor hops 0 fun t => ?_
  cases (g.op i).attr with
  | reshape groups =>
    refine sober_ask (Eval.harmless_groupSizes _ groups) fun ds => sober_result fun r => ?_
    refine sober_ask (harmless_make _ ds) fun s => sober_ask (Tensor.harmless_reshape t s)
      fun u => ?_
    exact sober_define _ _
  | _ => exact sober_throw rfl

/-- An operation without a body that ends by a fault, ends by one that does not say that the program
is incomplete. -/
theorem sober_leaf (hn : Here g n) (hops : n.head.operands ⊆ V)
    (hl : n.head.kind ≠ .forLoop) (hg : n.head.kind ≠ .generic)
    (block : BlockId → Eval (List Datum)) : Sober g Fits V (Eval.op g block n.id) := by
  have hV : (g.op n.id).operands ⊆ V := by rwa [hn.operands]
  unfold Eval.op
  rw [hn.kind]
  cases hk : n.head.kind with
  | forLoop => exact absurd hk hl
  | generic => exact absurd hk hg
  | constant => exact sober_constant
  | addInt | mulInt | addFloat | mulFloat =>
    refine sober_result fun r => sober_scalar hV 0 fun x => sober_scalar hV 1 fun y => ?_
    exact sober_ask (Eval.harmless_arith _ x y) fun z => sober_define _ _
  | extendInt | extendFloat | intToFloat =>
    exact sober_scalar hV 0 fun x => sober_result fun r => sober_define _ _
  | affineApply | affineMin => exact sober_affine hV
  | tensorDim => exact sober_tensorDim hV
  | collapse => exact sober_collapse hV
  | expand =>
    refine sober_tensor hV 0 fun t => sober_result fun r => ?_
    refine sober_ask (.mapError (fun _ => rfl) _) fun _ => ?_
    exact sober_ask (Tensor.harmless_reshape t _) fun u => sober_define _ _
  | extractSlice =>
    refine sober_tensor hV 0 fun t => sober_slice hn hops fun p => sober_result fun r => ?_
    exact sober_ask (Tensor.harmless_extractSlice t _ _) fun u => sober_define _ _
  | insertSlice =>
    refine sober_tensor hV 0 fun t => sober_tensor hV 1 fun u => sober_slice hn hops fun p => ?_
    refine sober_result fun r => ?_
    exact sober_ask (Tensor.harmless_insertSlice t u _ _) fun w => sober_define _ _
  | conv =>
    refine sober_ask (harmless_convAttr g n.id) fun p => sober_result fun r => ?_
    refine sober_tensor hV 0 fun t => sober_tensor hV 1 fun u => sober_tensor hV 2 fun w => ?_
    exact sober_ask (Tensor.harmless_conv2d t u w _ _) fun z => sober_define _ _
  | genericYield | loopYield | funcReturn | other m => exact sober_throw rfl

/-- What a node has to do for its data to fit. -/
structure Disciplined (g : Graph) (Fits : Ty → Datum → Prop) (n : Node) : Prop where
  leaf : n.structured = false → ∀ S : Store, (∀ v d, S v = some d → Fits (g.ty v) d) →
    ∀ r d, n.head.results[0]? = some r → n.head.leaf (g.ty r) S = some d → Fits (g.ty r) d
  element : n.head.kind = .generic → ∀ (k : Nat) v a t is s, n.head.operands[k]? = some v →
    n.args[k]? = some a → Fits (g.ty v) (.tensor t) → t.scalarAt is = .ok s →
      Fits (g.ty a) (.scalar s)
  store : n.head.kind = .generic → ∀ m ∈ n.nodes, m.head.kind.isTerminator = true →
    ∀ (k : Nat) y r s t t' is, m.head.operands[k]? = some y → n.head.results[k]? = some r →
      Fits (g.ty y) (.scalar s) → Fits (g.ty r) (.tensor t) → t.setScalar is s = .ok t' →
        Fits (g.ty r) (.tensor t')

theorem structured_false_iff :
    n.structured = false ↔ n.head.kind ≠ .forLoop ∧ n.head.kind ≠ .generic := by
  simp [structured]

/-- An operation without a body gives its first result a datum that fits. -/
theorem leaf_sound (hn : Here g n) (hops : n.head.operands ⊆ V)
    (hs : n.structured = false) (hd : Disciplined g Fits n) (block : BlockId → Eval (List Datum)) :
    Calmly g Fits V (Eval.op g block n.id) fun _ =>
      Stocked g Fits (n.head.results.take 1 ++ V) := by
  obtain ⟨hl, hg⟩ := structured_false_iff.1 hs
  intro E hE
  refine ⟨fun a E' hok => ?_, (sober_leaf hn hops hl hg block E hE).2⟩
  have hout := outcome_leaf (E := E) (S := fun v => E[v.idx]?) hn (fun _ _ => rfl) hl hg block
  rw [outcome_eq_some.2 hok] at hout
  obtain ⟨d, hleaf, hres⟩ := Option.bind_eq_some_iff.1 hout.symm
  obtain ⟨r, hr, heq⟩ := Option.map_eq_some_iff.1 hres
  obtain ⟨-, rfl⟩ := Prod.mk.inj heq
  rw [hn.tys, getElem?_map, hr] at hleaf
  have hone : n.head.results.take 1 = [r] := by
    rw [take_one, head?_eq_getElem?, hr]
    rfl
  rw [hone]
  exact hE.insert (hd.leaf hs _ hE.fit r d hr hleaf)

end Leaf

/-! ## 3. Monitored evaluations -/

section Monitoring

open Monitored

/-- All moments so far show data that fit, and no operation that starts is erased. -/
def Orderly (g : Graph) (Fits : Ty → Datum → Prop) (l : List Moment) : Prop :=
  ∀ m ∈ l, FitEnv g Fits m.env ∧ ∀ i, m.op = some i → (g.op i).erased = false

/-- What holds of the state of a monitored evaluation where `V` is visible. -/
structure Sound (g : Graph) (Fits : Ty → Datum → Prop) (V : List ValueId) (s : Env × List Moment) :
    Prop where
  stocked : Stocked g Fits V s.1
  orderly : Orderly g Fits s.2

/-- What holds at a fault. -/
def Halted (g : Graph) (Fits : Ty → Datum → Prop) (f : Fault) (s : Env × List Moment) : Prop :=
  f.incomplete = false ∧ Orderly g Fits s.2

/-- What a monitored evaluation comes to where `V` is visible. -/
abbrev Soundly (g : Graph) (Fits : Ty → Datum → Prop) (V : List ValueId) {α : Type}
    (x : Monitored α) (Q : α → Env × List Moment → Prop) : Prop :=
  Leaves (Halted g Fits) (Sound g Fits V) x Q

variable {V W : List ValueId} {s : Env × List Moment} {α β : Type} {i : OpId} {x : Eval α}
  {R : β → Env × List Moment → Prop}

theorem Sound.mono (h : Sound g Fits V s) (hsub : W ⊆ V) :
    Sound g Fits W s := ⟨h.stocked.mono hsub, h.orderly⟩

theorem Sound.halted (h : Sound g Fits V s) {f : Fault} (hf : f.incomplete = false) :
    Halted g Fits f s := ⟨hf, h.orderly⟩

theorem Orderly.append {l : List Moment} (h : Orderly g Fits l) {m : Moment}
    (hm : FitEnv g Fits m.env) (hop : ∀ i, m.op = some i → (g.op i).erased = false) :
    Orderly g Fits (l ++ [m]) := by
  intro k hk
  rcases mem_append.1 hk with hk | hk
  · exact h k hk
  · obtain rfl := mem_singleton.1 hk
    exact ⟨hm, hop⟩

theorem lift_sound {Q : α → Prop} (h : Calmly g Fits V x fun a E => Q a ∧ Stocked g Fits W E) :
    Soundly g Fits V (lift x) fun a s => Q a ∧ Sound g Fits W s := by
  intro s hs
  have hx := h s.1 hs.stocked
  have hnone : ∀ E i, (Moment.mk none E).op = some i → (g.op i).erased = false := by
    intro E i hi
    cases hi
  unfold lift
  cases hr : x s.1 with
  | ok a E =>
    refine ⟨fun b s' hb => ?_, fun f s' hf => absurd hf (by simp)⟩
    obtain ⟨rfl, rfl⟩ := EStateM.Result.ok.inj hb
    obtain ⟨hq, hE⟩ := hx.1 a E hr
    exact ⟨hq, hE, hs.orderly.append hE.fit (hnone E)⟩
  | error f E =>
    refine ⟨fun b s' hb => absurd hb (by simp), fun f' s' hf => ?_⟩
    obtain ⟨rfl, rfl⟩ := EStateM.Result.error.inj hf
    obtain ⟨hf, hE⟩ := hx.2 f E hr
    exact ⟨hf, hs.orderly.append hE (hnone E)⟩

/-- A step of whose result nothing has to be known. -/
theorem lift_any_sound (h : Calmly g Fits V x fun _ => Stocked g Fits W) :
    Soundly g Fits V (lift x) fun _ => Sound g Fits W :=
  (lift_sound (Q := fun _ => True) (h.weaken fun _ _ hE => ⟨trivial, hE⟩)).weaken fun _ _ hs => hs.2

theorem consult_bind {x : Except Fault α} {f : α → Monitored β} (hx : Harmless x)
    (hf : ∀ a, x = .ok a → Soundly g Fits V (f a) R) :
    Soundly g Fits V (liftM x >>= f) R :=
  .bind (.lift (fun f _ hf h => h.halted (hx f hf)) fun _ _ ha h => ⟨ha, h⟩) fun a => .given (hf a)

theorem start_sound (hi : (g.op i).erased = false) :
    Soundly g Fits V (start i) fun _ => Sound g Fits V :=
  .modify fun s h => ⟨h.stocked, h.orderly.append h.stocked.fit fun j hj => by
    obtain rfl := Option.some.inj hj
    exact hi⟩

/-- What a loop carries stays what it is in every iteration. -/
theorem loop_sound {upper step : Int64} {body : Int64 → List Datum → Monitored (List Datum)}
    {C : List Datum → Prop} (h : ∀ iv ds, C ds →
      Soundly g Fits V (body iv ds) fun ds' s => C ds' ∧ Sound g Fits V s)
    (fuel : Nat) (iv : Int64) {ds : List Datum} (hds : C ds) :
    Soundly g Fits V (loop upper step body fuel iv ds) fun ds' s =>
      C ds' ∧ Sound g Fits V s := by
  induction fuel generalizing iv ds with
  | zero => exact .throw fun _ hs => hs.halted rfl
  | succ fuel ih =>
    unfold loop
    split
    · exact .bind (h iv ds hds) fun next => .given fun hn => ih (iv + step) hn
    · exact .pure fun _ hs => ⟨hds, hs⟩

/-- A node of a function that keeps the rules, whose data fit, and which reads values of a kind
`Read` only.  An operation without a body gives its first result a datum; nothing reads the
others. -/
structure Proper (g : Graph) (Fits : Ty → Datum → Prop) (Read : ValueId → Prop) (n : Node) :
    Prop where
  rules : Rules g n
  discipline : Disciplined g Fits n
  reads : ∀ v ∈ n.head.operands, Read v
  spare : n.structured = false → ∀ v ∈ n.head.results.drop 1, ¬ Read v

variable {Read : ValueId → Prop}

/-- What a block has to give back: data that fit the operands of its terminator.  Of the values in
scope, those that may be read have data. -/
def BlockSound (g : Graph) (Fits : Ty → Datum → Prop) (Read : ValueId → Prop)
    (blk : BlockId → Monitored (List Datum)) : Prop :=
  ∀ b args ns W V, Holds g b args ns → ScopedAll (args ++ W) ns → (∀ v ∈ W, Read v → v ∈ V) →
    (∀ m ∈ subsAll ns, Proper g Fits Read m) → (∃ m ∈ ns, m.head.kind.isTerminator = true) →
      Soundly g Fits (args ++ V) (blk b) fun ds s =>
        (∃ m ∈ ns, m.head.kind.isTerminator = true ∧ FitTys Fits (m.head.operands.map g.ty) ds) ∧
          Sound g Fits (args ++ V) s

variable {n : Node} {blk : BlockId → Monitored (List Datum)} {ns : List Node} {args : List Tensor}

/-- A bound of a loop. -/
theorem bound_sound (hops : (g.op i).operands ⊆ V) (k : Nat) {f : Int64 → Monitored β}
    (hf : ∀ n, Soundly g Fits V (f n) R) :
    Soundly g Fits V
      (liftM (g.operand i k) >>= fun v => lift (Eval.index g v) >>= f) R := by
  refine consult_bind (harmless_itemAt _ _) fun v hv => ?_
  have hmem := hops (mem_of_getElem? (itemAt_ok.1 hv))
  exact .bind (lift_any_sound (index_sound hmem)) hf

/-- What is known of a node where it is executed, with the values `W` in scope and data for `V`. -/
structure Placed (g : Graph) (Fits : Ty → Datum → Prop) (Read : ValueId → Prop) (W V : List ValueId)
    (n : Node) : Prop where
  held : Held g [n]
  inScope : n.Scoped W
  supplied : ∀ v ∈ W, Read v → v ∈ V
  proper : ∀ m ∈ n.subs, Proper g Fits Read m

namespace Placed

variable (h : Placed g Fits Read W V n)
include h

theorem here : Here g n := h.held.here mem_cons_self

theorem own : Proper g Fits Read n := h.proper n (self_mem_subs n)

theorem rules : Rules g n := h.own.rules

theorem discipline : Disciplined g Fits n := h.own.discipline

theorem headOperands : n.head.operands ⊆ V := fun v hv =>
  h.supplied v ((scoped_iff.1 h.inScope).1 v hv) (h.own.reads v hv)

theorem operands : (g.op n.id).operands ⊆ V := by
  rw [h.here.operands]
  exact h.headOperands

/-- The body of a node runs where its arguments have data. -/
theorem body (hblk : BlockSound g Fits Read blk) {b : BlockId}
    (hb : n.body = some b) (hend : ∃ m ∈ n.nodes, m.head.kind.isTerminator = true) :
    Soundly g Fits (n.args ++ V) (blk b) fun ds s =>
      (∃ m ∈ n.nodes, m.head.kind.isTerminator = true ∧
        FitTys Fits (m.head.operands.map g.ty) ds) ∧ Sound g Fits (n.args ++ V) s :=
  hblk b n.args n.nodes W V (h.held.body (mem_subsAll_of_mem mem_cons_self) hb)
    (scoped_iff.1 h.inScope).2 h.supplied
    (fun m hm => h.proper m (by rw [subs_eq]; exact mem_cons_of_mem _ hm)) hend

end Placed

theorem Node.Ends.exists_terminator {k : Kind} (h : Ends k ns) (hk : k.isTerminator = true) :
    ∃ m ∈ ns, m.head.kind.isTerminator = true := by
  obtain ⟨init, last, rfl, hlast, -⟩ := h
  exact ⟨last, by simp, hlast ▸ hk⟩

section

variable (hindex : ∀ k, Fits .index (.index k)) (hblk : BlockSound g Fits Read blk)
  (h : Placed g Fits Read W V n) (hk : n.head.kind = .forLoop)

include hindex hblk h hk

/-- One iteration of a loop. -/
theorem iteration_sound (iv : Int64) {carried : List Datum}
    (hc : FitTys Fits (n.head.results.map g.ty) carried) :
    Soundly g Fits V (do
      lift (Eval.define (← g.inductionVar n.id) (.index iv))
      lift (Eval.bindCarried (n.args.drop 1) carried)
      blk (← g.bodyId n.id)) fun ds s =>
        FitTys Fits (n.head.results.map g.ty) ds ∧ Sound g Fits V s := by
  obtain ⟨b, hb⟩ := h.rules.counts.hasBody (by simp [structured, hk])
  refine consult_bind (harmless_inductionVar g n.id) fun v hv => ?_
  have hv : n.args[0]? = some v := by
    simp only [Graph.inductionVar, Graph.bodyOf, h.here.body, hb] at hv
    rw [← h.here.bodyArgs b hb]
    exact itemAt_ok.1 hv
  have hargs : n.args = v :: n.args.drop 1 := by
    cases hn : n.args with
    | nil => simp [hn] at hv
    | cons w ws =>
      rw [hn] at hv
      cases hv
      rfl
  have hty : Fits (g.ty v) (.index iv) := by
    rw [h.rules.loopVariable hk v hv]
    exact hindex iv
  have hcarried : FitTys Fits ((n.args.drop 1).map g.ty) carried := by
    rw [h.rules.loopArgs hk]
    exact hc
  refine .bind (lift_any_sound (define_sound hty)) fun _ => ?_
  refine .bind (lift_any_sound (bindCarried_sound hcarried)) fun _ => ?_
  refine consult_bind (harmless_present _) fun b' hb' => ?_
  obtain rfl : b = b' := Option.some.inj (hb.symm.trans (h.here.body ▸ present_ok.1 hb'))
  refine .mono (h.body hblk hb ((h.rules.loopEnd hk).exists_terminator rfl)) ?_ ?_
    fun _ _ hf => hf
  · intro s hs
    refine hs.mono fun u hu => ?_
    rw [hargs] at hu
    exact perm_middle.symm.subset hu
  · rintro ds s ⟨⟨m, hm, ht, hds⟩, hsound⟩
    rw [h.rules.loopYields hk m hm ht] at hds
    exact ⟨hds, hsound.mono fun u hu => mem_append_right _ hu⟩

theorem forLoop_sound :
    Soundly g Fits V (forLoop g blk n.id) fun _ =>
      Sound g Fits (n.head.results ++ V) := by
  obtain ⟨b, hb⟩ := h.rules.counts.hasBody (by simp [structured, hk])
  refine bound_sound h.operands 0 fun lower => bound_sound h.operands 1 fun upper =>
    bound_sound h.operands 2 fun step => ?_
  by_cases hstep : step ≤ 0
  · simp only [hstep]
    exact .throw_bind fun _ hs => hs.halted rfl
  simp only [hstep]
  refine consult_bind (harmless_itemsAfter _ _) fun inits hinits => ?_
  obtain ⟨-, -, rfl⟩ := itemsAfter_ok.1 hinits
  refine .bind (lift_sound (data_sound fun v hv => h.operands (mem_of_mem_drop hv))) fun ds =>
    .given fun hds => ?_
  rw [h.here.operands, show (3 : Int).toNat = 3 from rfl, h.rules.loopInits hk] at hds
  refine consult_bind (harmless_carried g n.id) fun args hargs => ?_
  obtain rfl : args = n.args.drop 1 := by
    simp only [Graph.carried, Graph.bodyOf, h.here.body, hb] at hargs
    rw [← h.here.bodyArgs b hb]
    exact (itemsAfter_ok.1 hargs).2.2
  refine .bind (loop_sound (fun iv ds hds => iteration_sound hindex hblk h hk iv hds) _ lower hds)
    fun results => .given fun hresults => ?_
  rw [h.here.results]
  exact lift_any_sound (defineAll_sound hresults)

end

section Generic

variable {a : GenericAttr} {ins outs : List Tensor}
variable {vs : List ValueId}

/-! What a generic operation reads off its own attribute. -/

section

variable (hn : Here g n) (hga : g.genericAttr n.id = .ok a)

include hn hga

theorem genericAttr_ok : n.head.attr = .generic a := by
  rw [← hn.attr]
  unfold Graph.genericAttr at hga
  split at hga
  · next heq => rw [heq, Except.ok.inj hga]
  · cases hga

theorem shaped_ok (hvs : g.shaped n.id = .ok vs) :
    vs = n.head.operands.take (a.inputs.toInt + n.head.results.length).toNat := by
  unfold Graph.shaped at hvs
  rw [hga] at hvs
  rw [(firstItems_ok.1 hvs).2.2, Graph.shapedCount, hn.operands, hn.results]

theorem inputs_ok (hvs : g.inputs n.id = .ok vs) :
    vs = n.head.operands.take a.inputs.toInt.toNat := by
  unfold Graph.inputs at hvs
  rw [hga] at hvs
  rw [(firstItems_ok.1 hvs).2.2, hn.operands]

theorem symbols_subset (hvs : g.symbols n.id = .ok vs) : vs ⊆ n.head.operands := by
  unfold Graph.symbols at hvs
  rw [hga] at hvs
  rw [(itemsAfter_ok.1 hvs).2.2, hn.operands]
  exact fun v hv => mem_of_mem_drop hv

end

section

variable (h : Placed g Fits Read W V n) (hk : n.head.kind = .generic)

include h hk

/-- The inputs and the outputs of a generic operation fit its operands, as they are at any point. -/
theorem shaped_sound (ha : n.head.attr = .generic a)
    (hins : FitTys Fits ((n.head.operands.take a.inputs.toInt.toNat).map g.ty) (ins.map .tensor))
    (houts : FitTys Fits (n.head.results.map g.ty) (outs.map .tensor)) :
    FitTys Fits ((n.head.operands.take (a.inputs.toInt + n.head.results.length).toNat).map g.ty)
      ((ins ++ outs).map .tensor) := by
  rw [← take_append_drop a.inputs.toInt.toNat (n.head.operands.take _), take_take,
    Nat.min_eq_left (by omega), map_append, h.rules.outputs a hk ha, map_append]
  exact rel_append hins houts

/-- Data that fit the operands fit the inputs, and the results. -/
theorem unshaped_sound (ha : n.head.attr = .generic a) {ts : List Tensor}
    (hts : FitTys Fits
      ((n.head.operands.take (a.inputs.toInt + n.head.results.length).toNat).map g.ty)
      (ts.map .tensor)) :
    FitTys Fits ((n.head.operands.take a.inputs.toInt.toNat).map g.ty)
        ((ts.take a.inputs.toInt.toNat).map .tensor) ∧
      FitTys Fits (n.head.results.map g.ty) ((ts.drop a.inputs.toInt.toNat).map .tensor) := by
  constructor
  · have htake := forall₂_take a.inputs.toInt.toNat hts
    rwa [← map_take, ← map_take, take_take, Nat.min_eq_left (by omega)] at htake
  · have hdrop := forall₂_drop a.inputs.toInt.toNat hts
    rwa [← map_drop, ← map_drop, h.rules.outputs a hk ha] at hdrop

/-- The elements of operands fit the arguments of the body. -/
theorem elements_sound (ha : n.head.attr = .generic a)
    (hins : FitTys Fits ((n.head.operands.take a.inputs.toInt.toNat).map g.ty) (ins.map .tensor))
    (houts : FitTys Fits (n.head.results.map g.ty) (outs.map .tensor)) :
    Forall₂ (fun v t => ∀ is s, t.scalarAt is = .ok s → Fits (g.ty v) (.scalar s)) n.args
      (ins ++ outs) := by
  have hall := forall₂_map_right_iff.1 (forall₂_map_left_iff.1 (shaped_sound h hk ha hins houts))
  obtain ⟨hlen, hfit⟩ := forall₂_iff_get.1 hall
  have hcount := h.rules.counts.maps a hk ha
  have hargs := h.rules.counts.args a hk ha
  have hops := (h.rules.inputs a hk ha).2
  rw [length_take] at hlen
  refine forall₂_iff_get.2 ⟨by omega, fun k hk₁ hk₂ is s hs => ?_⟩
  have hk₃ : k < (n.head.operands.take (a.inputs.toInt + n.head.results.length).toNat).length := by
    rw [length_take]
    omega
  refine h.discipline.element hk k _ _ _ is s ?_ (getElem?_eq_getElem hk₁) (hfit k hk₃ hk₂) hs
  rw [get_eq_getElem, getElem_take]
  exact getElem?_eq_getElem (by omega)

/-- What a body yields can be stored in the outputs. -/
theorem stores_sound {m : Node} (hm : m ∈ n.nodes) (ht : m.head.kind.isTerminator = true) :
    Forall₂ (fun y o => ∀ s t t' is, Fits y (.scalar s) → Fits o (.tensor t) →
      t.setScalar is s = .ok t' → Fits o (.tensor t')) (m.head.operands.map g.ty)
      (n.head.results.map g.ty) := by
  refine forall₂_map_left_iff.2 (forall₂_map_right_iff.2 ?_)
  have hlen := h.rules.counts.yields (by simp [structured, hk]) m hm ht
  refine forall₂_iff_get.2 ⟨hlen, fun k hy hr s t t' is => ?_⟩
  exact h.discipline.store hk m hm ht k _ _ s t t' is (getElem?_eq_getElem hy)
    (getElem?_eq_getElem hr)

end

variable (hblk : BlockSound g Fits Read blk) (h : Placed g Fits Read W V n)
  (hk : n.head.kind = .generic)

include hblk h hk

/-- One point of a generic operation. -/
theorem genericPoint_sound (ha : n.head.attr = .generic a) {b : BlockId} (hb : n.body = some b)
    (syms point : List Int64)
    (hins : FitTys Fits ((n.head.operands.take a.inputs.toInt.toNat).map g.ty) (ins.map .tensor))
    (houts : FitTys Fits (n.head.results.map g.ty) (outs.map .tensor)) :
    Soundly g Fits V
      (genericPoint a.maps n.args ins syms (blk b) outs point) fun outs' s =>
        FitTys Fits (n.head.results.map g.ty) (outs'.map .tensor) ∧ Sound g Fits V s := by
  have hargs := (h.rules.counts.args a hk ha).symm
  refine .bind
    (lift_any_sound (bindElements_sound point syms hargs (elements_sound h hk ha hins houts)))
    fun indices => ?_
  refine .bind (h.body hblk hb ((h.rules.genericEnd hk).exists_terminator rfl)) fun ds =>
    .given fun hds => ?_
  obtain ⟨m, hm, ht, hds⟩ := hds
  refine (lift_sound (storeYields_sound (stores_sound h hk hm ht) hds _ houts)).weaken ?_
  exact fun outs' s hs => ⟨hs.1, hs.2.mono fun u hu => mem_append_right _ hu⟩

theorem generic_sound :
    Soundly g Fits V (generic g blk n.id) fun _ =>
      Sound g Fits (n.head.results ++ V) := by
  obtain ⟨b, hb⟩ := h.rules.counts.hasBody (by simp [structured, hk])
  refine consult_bind (harmless_genericAttr g n.id) fun a hga => ?_
  have ha := genericAttr_ok h.here hga
  refine consult_bind (harmless_shaped g n.id) fun shaped hshaped => ?_
  obtain rfl := shaped_ok h.here hga hshaped
  refine consult_bind (harmless_inputs g n.id) fun inputs hinputs => ?_
  obtain rfl := inputs_ok h.here hga hinputs
  refine .bind (lift_sound (mapM_sound fun v hv =>
    tensor_sound (h.headOperands (mem_of_mem_take hv)))) fun ts => .given fun hts => ?_
  refine consult_bind (harmless_symbols g n.id) fun symbols hsymbols => ?_
  have hvisible : symbols ⊆ V := fun v hv => h.headOperands (symbols_subset h.here hga hsymbols hv)
  refine .bind (lift_any_sound (indices_sound hvisible)) fun syms => ?_
  refine consult_bind (Eval.harmless_loopRanges _ _ _) fun sides _ => ?_
  refine consult_bind (harmless_present _) fun b' hb' => ?_
  obtain rfl : b = b' := Option.some.inj (hb.symm.trans (h.here.body ▸ present_ok.1 hb'))
  dsimp only
  split
  · exact .throw_bind fun _ hs => hs.halted rfl
  have hlen : (n.head.operands.take a.inputs.toInt.toNat).length = a.inputs.toInt.toNat := by
    have hin := h.rules.inputs a hk ha
    rw [length_take]
    omega
  obtain ⟨hins, houts⟩ := unshaped_sound h hk ha
    (forall₂_map_left_iff.2 (forall₂_map_right_iff.2 hts))
  rw [h.here.bodyArgs b hb, Box.foldM_eq_foldlM, h.here.results, hlen]
  -- the outputs fit the results before and after every point
  let J (outs : List Tensor) (s : Env × List Moment) : Prop :=
    FitTys Fits (n.head.results.map g.ty) (outs.map .tensor) ∧ Sound g Fits V s
  refine .bind (Q := J) ?_ fun outs => .given fun hres => lift_any_sound (defineAll_sound hres)
  refine .mono (.foldlM (J := J) (fun p _ outs => .given fun ho => ?_) _) (fun s hs => ⟨houts, hs⟩)
    (fun _ _ hs => hs) fun _ _ hf => hf
  exact genericPoint_sound hblk h hk ha hb syms p hins ho

end Generic

/-! ## 4. Blocks and functions -/

section

variable (hindex : ∀ k, Fits .index (.index k))

include hindex

/-- **An operation that starts where values have data gives data to those of its results that may be
read.** -/
theorem op_sound (hblk : BlockSound g Fits Read blk) (h : Placed g Fits Read W V n) :
    ∃ rs, (∀ v ∈ n.head.results, Read v → v ∈ rs) ∧
      Soundly g Fits V (op g blk n.id) fun _ => Sound g Fits (rs ++ V) := by
  by_cases hl : n.head.kind = .forLoop
  · refine ⟨n.head.results, fun v hv _ => hv, ?_⟩
    simpa only [op, h.here.kind, hl] using forLoop_sound hindex hblk h hl
  by_cases hg : n.head.kind = .generic
  · refine ⟨n.head.results, fun v hv _ => hv, ?_⟩
    simpa only [op, h.here.kind, hg] using generic_sound hblk h hg
  have hs : n.structured = false := structured_false_iff.2 ⟨hl, hg⟩
  refine ⟨n.head.results.take 1, fun v hv hread => ?_, ?_⟩
  · rw [← take_append_drop 1 n.head.results, mem_append] at hv
    exact hv.resolve_right fun hv => h.own.spare hs v hv hread
  · have hop : op g blk n.id = lift (Eval.op g (fun _ => throw (.stuck .kind)) n.id) := by
      unfold op
      rw [h.here.kind]
      split
      · exact absurd ‹_› hg
      · exact absurd ‹_› hl
      · rfl
    rw [hop]
    exact lift_any_sound (leaf_sound h.here h.headOperands hs h.discipline _)

theorem ops_sound (hblk : BlockSound g Fits Read blk) {ns : List Node} (hheld : Held g ns)
    (hscope : ScopedAll W ns) (hsupplied : ∀ v ∈ W, Read v → v ∈ V)
    (hproper : ∀ m ∈ subsAll ns, Proper g Fits Read m)
    (hend : ∃ m ∈ ns, m.head.kind.isTerminator = true) :
    Soundly g Fits V (ops g blk (ns.map Node.id)) fun ds s =>
      (∃ m ∈ ns, m.head.kind.isTerminator = true ∧ FitTys Fits (m.head.operands.map g.ty) ds) ∧
        Sound g Fits V s := by
  induction ns generalizing W V with
  | nil =>
    obtain ⟨m, hm, -⟩ := hend
    cases hm
  | cons n ns ih =>
    obtain ⟨hhead, htail⟩ := held_cons.1 hheld
    obtain ⟨hn, hns⟩ := scopedAll_cons.1 hscope
    have hplaced : Placed g Fits Read W V n := ⟨hhead, hn, hsupplied, fun m hm => hproper m (by
      exact mem_append_left _ hm)⟩
    refine .bind (start_sound hplaced.here.present) fun _ => ?_
    rw [hplaced.here.kind]
    split
    · next ht =>
      refine (lift_sound (data_sound hplaced.operands)).weaken fun ds s hs => ?_
      rw [hplaced.here.operands] at hs
      exact ⟨⟨n, mem_cons_self, ht, hs.1⟩, hs.2⟩
    · next ht =>
      have hrest : ∃ m ∈ ns, m.head.kind.isTerminator = true := by
        obtain ⟨m, hm, hmt⟩ := hend
        rcases mem_cons.1 hm with rfl | hm
        · exact absurd hmt ht
        · exact ⟨m, hm, hmt⟩
      obtain ⟨rs, hrs, hop⟩ := op_sound hindex hblk hplaced
      have hsupplied' : ∀ v ∈ n.head.results ++ W, Read v → v ∈ rs ++ V := by
        intro v hv hread
        rcases mem_append.1 hv with hv | hv
        · exact mem_append_left _ (hrs v hv hread)
        · exact mem_append_right _ (hsupplied v hv hread)
      refine .bind hop fun _ => (ih htail hns hsupplied' (fun m hm => hproper m (by
        exact mem_append_right _ hm)) hrest).weaken ?_
      rintro ds s ⟨⟨m, hm, hmt, hds⟩, hs⟩
      exact ⟨⟨m, mem_cons_of_mem _ hm, hmt, hds⟩,
        hs.mono fun u hu => mem_append_right _ hu⟩

theorem block_sound (fuel : Nat) : BlockSound g Fits Read (block g fuel) := by
  induction fuel with
  | zero => exact fun _ _ _ _ _ _ _ _ _ _ => .throw fun _ hs => hs.halted rfl
  | succ fuel ih =>
    intro b args ns W V hb hscope hsupplied hproper hend
    rw [block, hb.ops]
    refine ops_sound hindex ih hb.held hscope (fun v hv hread => ?_) hproper hend
    rcases mem_append.1 hv with hv | hv
    · exact mem_append_left _ hv
    · exact mem_append_right _ (hsupplied v hv hread)

end

theorem bindArguments_sound
    (hargs : ∀ v, ∀ t ∈ args, (g.ty v).isTensor = true → (g.ty v).shape.compatible t.shape = true →
      Fits (g.ty v) (.tensor t))
    (k : Nat) {vs : List ValueId} (hlen : args.length = vs.length) :
    Calmly g Fits V (Eval.bindArguments g k vs args) fun _ =>
      Stocked g Fits (vs ++ V) := by
  induction args generalizing k vs V with
  | nil =>
    obtain rfl := length_eq_zero_iff.1 hlen.symm
    exact .pure fun _ h => h
  | cons t ts ih =>
    cases vs with
    | nil => exact absurd hlen (by simp)
    | cons v vs =>
      rw [Eval.bindArguments]
      split
      · exact .throw_bind fun _ h => h.calm rfl
      · next hty =>
        simp only [Bool.or_eq_true, Bool.not_eq_true', not_or, Bool.not_eq_false] at hty
        refine .bind (define_sound (hargs v t mem_cons_self hty.1 hty.2)) fun _ => ?_
        exact (ih (fun v u hu => hargs v u (mem_cons_of_mem _ hu)) (k + 1)
          (Nat.succ.inj hlen)).weaken fun _ _ => defined_cons

/-- **What every run of a function keeps**, whether it succeeds or ends by a fault. -/
theorem func_sound (hindex : ∀ k, Fits .index (.index k)) {f : FuncId} {b : BlockId}
    {params : List ValueId} (hbody : (g.func f).body = some b) (hholds : Holds g b params ns)
    (hscope : ScopedAll params ns) (hproper : ∀ m ∈ subsAll ns, Proper g Fits Read m)
    (hend : Ends .funcReturn ns)
    (hargs : ∀ v, ∀ t ∈ args, (g.ty v).isTensor = true → (g.ty v).shape.compatible t.shape = true →
      Fits (g.ty v) (.tensor t)) :
    (∀ e, g.run f args = .error e → e.incomplete = false) ∧ Orderly g Fits (g.moments f args) := by
  have hrun : Leaves (Halted g Fits) (Sound g Fits []) (func g f args) fun _ s =>
      Orderly g Fits s.2 := by
    refine consult_bind (harmless_present _) fun b' hb' => ?_
    obtain rfl : b = b' := Option.some.inj (hbody.symm.trans (present_ok.1 hb'))
    dsimp only
    rw [hholds.args]
    split
    · exact .throw_bind fun _ hs => hs.halted rfl
    next hlen =>
    refine .bind (lift_any_sound (bindArguments_sound hargs 0 (not_not.1 hlen))) fun _ => ?_
    refine .bind (block_sound hindex _ b params ns [] [] hholds (by simpa using hscope)
      (by simp) hproper (hend.exists_terminator rfl)) fun ds => .given fun _ => ?_
    refine (mapM_sound (R := fun _ _ => True) (P := Sound g Fits (params ++ [])) fun d _ =>
      ?_).weaken
      fun _ _ hs => hs.2.orderly
    cases d with
    | tensor t => exact .pure fun _ hs => ⟨trivial, hs⟩
    | _ => exact .throw fun _ hs => hs.halted rfl
  have hstart : Sound g Fits [] (∅, []) := by
    refine ⟨⟨fun v hv => (not_mem_nil hv).elim, fun v d hd => ?_⟩, fun m hm => ?_⟩
    · simp at hd
    · cases hm
  have hend := hrun _ hstart
  rcases g.run_eq_monitored f args with ⟨ts, s, hm, hr, hmoments⟩ | ⟨e, s, hm, hr, hmoments⟩
  · rw [hmoments]
    exact ⟨fun e he => absurd (hr.symm.trans he) (by simp), hend.1 ts s hm⟩
  · rw [hmoments]
    obtain ⟨he, ho⟩ := hend.2 e s hm
    exact ⟨fun e' he' => Except.error.inj (hr.symm.trans he') ▸ he, ho⟩

end Monitoring

end Soundness

end ConvNest.Program
