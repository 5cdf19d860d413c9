/-
# Environments and stores

The evaluator keeps the data of every value it ever met in one environment.  This file compares its
steps with those of the meaning of trees, for an environment and a store that agree on the operands:
reading operands, operations without a body, and giving data to values.
-/
import ConvNest.Proofs.Trace

namespace ConvNest.Program

open List

variable {E F : Env} {vs V us : List ValueId} {v : ValueId} {S : Store}

/-- Environment and store give the same data to some values. -/
def Agrees (V : List ValueId) (E : Env) (S : Store) : Prop := ∀ v ∈ V, E[v.idx]? = S v

/-- No data for some values. -/
def Quiet (D : List ValueId) (E : Env) : Prop := ∀ v ∈ D, E[v.idx]? = none

/-- Nothing has changed but the data of some values. -/
def Changed (vs : List ValueId) (E E' : Env) : Prop :=
  ∀ k, (∀ v ∈ vs, v.idx ≠ k) → E'[k]? = E[k]?

theorem ValueId.idx_inj {u : ValueId} : u.idx = v.idx ↔ u = v := by
  cases u
  cases v
  simp

theorem env_insert (E : Env) (v u : ValueId) (d : Datum) :
    (E.insert v.idx d)[u.idx]? = if v = u then some d else E[u.idx]? := by
  rw [Std.TreeMap.getElem?_insert]
  simp only [Nat.compare_eq_eq, ValueId.idx_inj]

theorem Agrees.mono {W : List ValueId} (h : Agrees W E S) (hvw : V ⊆ W) : Agrees V E S :=
  fun v hv => h v (hvw hv)

theorem Changed.refl (vs : List ValueId) (E : Env) : Changed vs E E := fun _ _ => rfl

theorem Changed.trans {G : Env} (h : Changed us E F) (h' : Changed vs F G) :
    Changed (us ++ vs) E G := fun k hk =>
  (h' k fun v hv => hk v (mem_append_right _ hv)).trans
    (h k fun v hv => hk v (mem_append_left _ hv))

theorem Changed.mono (h : Changed us E F) (hsub : us ⊆ vs) : Changed vs E F :=
  fun k hk => h k fun v hv => hk v (hsub hv)

theorem Changed.same (h : Changed vs E F) (hv : v ∉ vs) : F[v.idx]? = E[v.idx]? :=
  h v.idx fun _ hu heq => hv (ValueId.idx_inj.1 heq ▸ hu)

theorem Changed.agrees (h : Changed vs E F) (hV : ∀ v ∈ V, v ∉ vs) (ha : Agrees V E S) :
    Agrees V F S := fun v hv =>
  (h.same (hV v hv)).trans (ha v hv)

theorem Changed.quiet {D : List ValueId} (h : Changed vs E F)
    (hD : ∀ v ∈ D, v ∉ vs) (hq : Quiet D E) : Quiet D F := fun v hv =>
  (h.same (hD v hv)).trans (hq v hv)

/-! ## 1. Reading operands -/

section Reading

variable {g : Graph} {n : Node} {E : Env} {S : Store} {α : Type}
variable {v : ValueId} {os zs : List Index}

section

variable (h : E[v.idx]? = S v)

include h

theorem outcome_datum : outcome (Eval.datum g v) E = (S v).map (·, E) := by
  simp only [Eval.datum, outcome_bind, outcome_get, Option.bind_some, h]
  cases S v <;> rfl

theorem outcome_tensor : outcome (Eval.tensor g v) E = (S.tensor v).map (·, E) := by
  simp only [Eval.tensor, outcome_bind, outcome_datum h, Store.tensor]
  rcases S v with _ | (_ | _ | _) <;> rfl

theorem outcome_scalar : outcome (Eval.scalar g v) E = (S.scalar v).map (·, E) := by
  simp only [Eval.scalar, outcome_bind, outcome_datum h, Store.scalar]
  rcases S v with _ | (_ | _ | _) <;> rfl

theorem outcome_index : outcome (Eval.index g v) E = (S.index v).map (·, E) := by
  simp only [Eval.index, outcome_bind, outcome_datum h, Store.index]
  rcases S v with _ | (_ | _ | _) <;> rfl

end

theorem outcome_mapM_of {f : ValueId → Eval β} {k : ValueId → Option β} {vs : List ValueId}
    (h : ∀ v ∈ vs, outcome (f v) E = (k v).map (·, E)) :
    outcome (vs.mapM f) E = (vs.mapM k).map (·, E) := by
  induction vs with
  | nil => rfl
  | cons v vs ih =>
    have rest := ih fun u hu => h u (mem_cons_of_mem _ hu)
    simp only [mapM_cons, outcome_bind, h v mem_cons_self]
    cases k v with
    | none => rfl
    | some b =>
      simp only [Option.map_some, Option.bind_some, rest]
      cases vs.mapM k <;> rfl

variable {β : Type} {h : Head}

section

variable (hn : Node.Here g n)

include hn

/-- Reading an operand, with whatever state the evaluation has. -/
theorem read_operand {σ : Type} {s : σ} {r : ValueId → EStateM Fault σ α} {d : ValueId → Option α}
    (hr : ∀ v ∈ n.head.operands, outcome (r v) s = (d v).map (·, s)) (k : Nat)
    (f : α → EStateM Fault σ β) :
    outcome (liftM (g.operand n.id k) >>= fun v => r v >>= f) s =
      (n.head.operands[k]?.bind d).bind fun a => outcome (f a) s := by
  simp only [outcome_bind, ConvNest.outcome_lift, Graph.operand, hn.operands, toOption_itemAt]
  cases hk : n.head.operands[k]? with
  | none => rfl
  | some v =>
    simp only [Option.map_some, Option.bind_some, hr v (mem_of_getElem? hk)]
    cases d v <;> rfl

variable (ha : Agrees n.head.operands E S)

include ha

theorem read_tensor (k : Nat) (f : Tensor → Eval β) :
    outcome (liftM (g.operand n.id k) >>= fun v => Eval.tensor g v >>= f) E =
      (n.head.operands[k]?.bind S.tensor).bind fun t => outcome (f t) E :=
  read_operand hn (fun v hv => outcome_tensor (ha v hv)) k f

theorem read_scalar (k : Nat) (f : Scalar → Eval β) :
    outcome (liftM (g.operand n.id k) >>= fun v => Eval.scalar g v >>= f) E =
      (n.head.operands[k]?.bind S.scalar).bind fun t => outcome (f t) E :=
  read_operand hn (fun v hv => outcome_scalar (ha v hv)) k f

theorem read_indices (f : List Int64 → Eval β) :
    outcome ((g.op n.id).operands.mapM (Eval.index g) >>= f) E =
      (n.head.operands.mapM S.index).bind fun ns => outcome (f ns) E := by
  rw [outcome_bind, hn.operands, outcome_mapM_of fun v hv => outcome_index (ha v hv)]
  cases n.head.operands.mapM S.index <;> rfl

end

theorem ask (x : Except Fault α) (f : α → Eval β) :
    outcome (liftM x >>= f) E = x.toOption.bind fun a => outcome (f a) E := by
  cases x <;> rfl

theorem toOption_result (hn : Node.Here g n) (k : Nat) :
    (g.result n.id k).toOption = n.head.results[k]? := by
  rw [Graph.result, hn.results, toOption_itemAt]

theorem outcome_define (v : ValueId) (d : Datum) :
    outcome (Eval.define v d) E = some ((), E.insert v.idx d) := rfl

/-! ## 2. Slices -/

theorem resolveMarks_subset {ns : List Int64} {vs left : List ValueId} {is : List Index}
    (h : Graph.resolveMarks ns vs = .ok (is, left)) :
    (∀ v, .dynamic v ∈ is → v ∈ vs) ∧ left ⊆ vs := by
  induction ns generalizing vs is with
  | nil =>
    obtain ⟨rfl, rfl⟩ := h
    simp
  | cons n ns ih =>
    unfold Graph.resolveMarks at h
    split at h
    · cases vs with
      | nil => simp at h
      | cons v vs =>
        obtain ⟨⟨rest, left'⟩, hr, h⟩ := except_bind_eq_ok.1 h
        cases except_pure_eq_ok.1 h
        obtain ⟨hi, hl⟩ := ih hr
        refine ⟨fun u hu => ?_, fun u hu => mem_cons_of_mem _ (hl hu)⟩
        rcases mem_cons.1 hu with hu | hu
        · cases hu
          exact mem_cons_self
        · exact mem_cons_of_mem _ (hi u hu)
    · obtain ⟨⟨rest, left'⟩, hr, h⟩ := except_bind_eq_ok.1 h
      cases except_pure_eq_ok.1 h
      obtain ⟨hi, hl⟩ := ih hr
      refine ⟨fun u hu => ?_, hl⟩
      rcases mem_cons.1 hu with hu | hu
      · cases hu
      · exact hi u hu

theorem toOption_offsetsAndSizes (hn : Node.Here g n) :
    (g.offsetsAndSizes n.id).toOption = n.head.offsetsAndSizes := by
  simp only [Graph.offsetsAndSizes, Graph.sliceAttr, hn.attr, hn.operands, hn.kind,
    Head.offsetsAndSizes]
  cases n.head.attr with
  | slice a =>
    simp only [toOption_bind]
    rfl
  | _ => rfl

/-- Offsets and sizes come after the tensors. -/
theorem offsetsAndSizes_subset_drop (hoz : h.offsetsAndSizes = some (os, zs)) :
    ∀ v, .dynamic v ∈ os ∨ .dynamic v ∈ zs →
      v ∈ h.operands.drop (if h.kind = .insertSlice then 2 else 1) := by
  unfold Head.offsetsAndSizes at hoz
  cases ha : h.attr with
  | slice a =>
    simp only [ha, Option.bind_eq_bind, Option.bind_eq_some_iff, toOption_eq_some] at hoz
    obtain ⟨⟨os', left⟩, ho, ⟨zs', left'⟩, hz, heq⟩ := hoz
    obtain ⟨rfl, rfl⟩ := heq
    rintro v (hv | hv)
    · exact (resolveMarks_subset ho).1 v hv
    · exact (resolveMarks_subset ho).2 ((resolveMarks_subset hz).1 v hv)
  | _ => simp [ha] at hoz

theorem offsetsAndSizes_subset (hoz : h.offsetsAndSizes = some (os, zs)) :
    ∀ v, .dynamic v ∈ os ∨ .dynamic v ∈ zs → v ∈ h.operands :=
  fun v hv => mem_of_mem_drop (offsetsAndSizes_subset_drop hoz v hv)

theorem outcome_word {i : Index} (h : ∀ v, i = .dynamic v → E[v.idx]? = S v) :
    outcome (Eval.word g i) E = (S.word i).map (·, E) := by
  cases i with
  | static n => rfl
  | dynamic v => exact outcome_index (h v rfl)

theorem outcome_sliceWords (h : ∀ v, .dynamic v ∈ os ∨ .dynamic v ∈ zs → E[v.idx]? = S v) :
    outcome (Eval.sliceWords g os zs) E = (Head.sliceWords S os zs).map (·, E) := by
  induction os generalizing zs with
  | nil => rfl
  | cons o os ih =>
    have first := outcome_word (g := g) (i := o) fun v hv => h v (.inl (hv ▸ mem_cons_self))
    simp only [Eval.sliceWords, Head.sliceWords, outcome_bind, first]
    cases S.word o with
    | none => rfl
    | some a =>
      cases zs with
      | nil => rfl
      | cons z zs =>
        have second := outcome_word (g := g) (i := z) fun v hv => h v (.inr (hv ▸ mem_cons_self))
        have rest := @ih zs fun v hv => h v
          (hv.imp (mem_cons_of_mem _) (mem_cons_of_mem _))
        simp only [Option.map_some, Option.bind_some, outcome_bind, second]
        cases S.word z with
        | none => rfl
        | some b =>
          simp only [Option.map_some, Option.bind_some, rest]
          cases Head.sliceWords S os zs <;> rfl

theorem read_slice (hn : Node.Here g n) (ha : Agrees n.head.operands E S)
    (f : List Int64 × List Int64 → Eval β) :
    outcome (liftM (g.offsetsAndSizes n.id) >>= fun p => Eval.sliceWords g p.1 p.2 >>= f) E =
      (n.head.offsetsAndSizes.bind fun p => Head.sliceWords S p.1 p.2).bind
        fun p => outcome (f p) E := by
  rw [ask, toOption_offsetsAndSizes hn]
  cases hoz : n.head.offsetsAndSizes with
  | none => rfl
  | some p =>
    simp only [Option.bind_some, outcome_bind,
      outcome_sliceWords fun v hv => ha v (offsetsAndSizes_subset hoz v hv)]
    cases Head.sliceWords S p.1 p.2 <;> rfl

/-! ## 3. Operations without a body -/

/-- An operation without a body gives its first result the datum of `leaf`. -/
theorem outcome_leaf (hn : Node.Here g n) (ha : Agrees n.head.operands E S)
    (hl : n.head.kind ≠ .forLoop) (hg : n.head.kind ≠ .generic)
    (block : BlockId → Eval (List Datum)) :
    outcome (Eval.op g block n.id) E =
      (n.head.tys[0]?.bind fun ty => n.head.leaf ty S).bind fun d =>
        n.head.results[0]?.map fun r => ((), E.insert r.idx d) := by
  have htys : n.head.tys[0]? = n.head.results[0]?.map g.ty := by rw [hn.tys, getElem?_map]
  rw [htys]
  cases hk : n.head.kind with
  | forLoop => exact absurd hk hl
  | generic => exact absurd hk hg
  | constant =>
    simp only [Eval.op, hn.kind, hk, Eval.constant, hn.attr, Head.leaf, Head.constant]
    cases n.head.attr with
    | constant m x =>
      simp only [ask, toOption_result hn]
      cases n.head.results[0]? with
      | none => rfl
      | some r =>
        simp only [Option.bind_some, Option.map_some]
        split
        · rfl
        · split <;> rfl
    | _ => cases n.head.results[0]? <;> rfl
  | addInt | mulInt | addFloat | mulFloat =>
    simp only [Eval.op, hn.kind, hk, Eval.binary, Head.leaf, Head.binary, ask, toOption_result hn,
      read_scalar hn ha, outcome_define]
    cases n.head.results[0]? <;> simp [Option.bind_assoc]
  | extendInt | extendFloat | intToFloat =>
    simp only [Eval.op, hn.kind, hk, Eval.widen, Head.leaf, Head.widen, ask, toOption_result hn,
      read_scalar hn ha, outcome_define]
    cases n.head.results[0]? <;> simp [Option.bind_assoc]
  | affineApply | affineMin =>
    simp only [Eval.op, hn.kind, hk, Eval.affine, Head.leaf, Head.affine, hn.attr]
    cases n.head.attr with
    | affine m =>
      simp only [read_indices hn ha, ask, toOption_result hn, outcome_define]
      cases n.head.results[0]? <;> simp [Option.bind_assoc]
    | _ => cases n.head.results[0]? <;> rfl
  | tensorDim =>
    simp only [Eval.op, hn.kind, hk, Eval.tensorDim, Head.leaf, Head.tensorDim,
      read_tensor hn ha, hn.attr]
    cases n.head.attr <;> simp only [ask, toOption_result hn, outcome_define] <;>
      cases n.head.results[0]? <;> simp [Option.bind_assoc]
  | collapse =>
    simp only [Eval.op, hn.kind, hk, Eval.collapse, Head.leaf, Head.collapse,
      read_tensor hn ha, hn.attr]
    cases n.head.attr <;> simp only [ask, toOption_result hn, outcome_define] <;>
      cases n.head.results[0]? <;> simp [Option.bind_assoc]
  | expand =>
    simp only [Eval.op, hn.kind, hk, Eval.expand, Head.leaf, Head.expand, ask,
      toOption_result hn, read_tensor hn ha]
    cases n.head.results[0]? <;> simp [Option.bind_assoc, outcome_define]
  | extractSlice =>
    simp only [Eval.op, hn.kind, hk, Eval.extractSlice, Head.leaf, Head.extractSlice,
      read_slice hn ha, read_tensor hn ha, ask, toOption_result hn]
    cases n.head.results[0]? <;> simp [Option.bind_assoc, outcome_define]
  | insertSlice =>
    simp only [Eval.op, hn.kind, hk, Eval.insertSlice, Head.leaf, Head.insertSlice,
      read_slice hn ha, read_tensor hn ha, ask, toOption_result hn]
    cases n.head.results[0]? <;> simp [Option.bind_assoc, outcome_define]
  | conv =>
    simp only [Eval.op, hn.kind, hk, Eval.conv, Graph.convAttr, Head.leaf, Head.conv,
       read_tensor hn ha, ask, toOption_result hn, hn.attr]
    cases n.head.attr <;> cases n.head.results[0]? <;>
      simp [Option.bind_assoc, outcome_define]
  | genericYield | loopYield | funcReturn | other m =>
    simp only [Eval.op, hn.kind, hk, Head.leaf]
    cases n.head.results[0]? <;> rfl

end Reading

/-! ## 4. Giving data to values -/

section Assigning

variable {E F : Env} {S : Store} {V vs : List ValueId} {ds : List Datum}

/-- Values have got the given data, one by one, and nothing else has changed. -/
structure Assigned (vs : List ValueId) (ds : List Datum) (E F : Env) : Prop where
  changed : Changed vs E F
  data : ∀ (k : Nat) (v : ValueId), vs[k]? = some v → F[v.idx]? = ds[k]?

theorem Assigned.agrees (h : Assigned vs ds E F) (hvs : vs.Nodup) (hV : ∀ v ∈ V, v ∉ vs)
    (ha : Agrees V E S) : Agrees (vs ++ V) F (S.assign vs ds) := by
  intro v hv
  rcases mem_append.1 hv with hv | hv
  · obtain ⟨k, hk⟩ := getElem?_of_mem hv
    rw [h.data k v hk, Store.assign_getElem hvs hk]
  · rw [Store.assign_of_notMem (hV v hv)]
    exact h.changed.agrees hV ha v hv

theorem Assigned.cons {v : ValueId} {d : Datum} (hv : v ∉ vs)
    (h : Assigned vs ds (E.insert v.idx d) F) : Assigned (v :: vs) (d :: ds) E F where
  changed k hk := by
    rw [h.changed k fun u hu => hk u (mem_cons_of_mem _ hu)]
    have := hk v mem_cons_self
    rw [Std.TreeMap.getElem?_insert]
    simp [this]
  data k u hu := by
    cases k with
    | zero =>
      obtain rfl : v = u := by simpa using hu
      rw [h.changed.same hv, env_insert]
      simp
    | succ k => simpa using h.data k u (by simpa using hu)

theorem assigned_nil : Assigned [] [] E E := ⟨Changed.refl _ _, by simp⟩

theorem outcome_defineAll (hvs : vs.Nodup) (h : ds.length = vs.length) :
    ∃ F, outcome (Eval.defineAll vs ds) E = some ((), F) ∧ Assigned vs ds E F := by
  induction vs generalizing ds E with
  | nil =>
    obtain rfl : ds = [] := length_eq_zero_iff.1 h
    exact ⟨E, rfl, assigned_nil⟩
  | cons v vs ih =>
    obtain ⟨d, ds, rfl⟩ := exists_cons_of_length_eq_add_one h
    obtain ⟨F, hF, ha⟩ := ih (E := E.insert v.idx d) (nodup_cons.1 hvs).2
      (Nat.succ.inj h)
    exact ⟨F, by simpa only [Eval.defineAll, outcome_bind, outcome_define,
      Option.bind_some] using hF, ha.cons (nodup_cons.1 hvs).1⟩

theorem bindCarried_eq (h : ds.length = vs.length) :
    Eval.bindCarried vs ds = Eval.defineAll vs ds := by
  induction vs generalizing ds with
  | nil =>
    obtain rfl : ds = [] := length_eq_zero_iff.1 h
    rfl
  | cons v vs ih =>
    obtain ⟨d, ds, rfl⟩ := exists_cons_of_length_eq_add_one h
    rw [Eval.bindCarried, ih (Nat.succ.inj h), Eval.defineAll]

theorem outcome_bindCarried (hvs : vs.Nodup) (h : ds.length = vs.length) :
    ∃ F, outcome (Eval.bindCarried vs ds) E = some ((), F) ∧ Assigned vs ds E F :=
  bindCarried_eq h ▸ outcome_defineAll hvs h

theorem toOption_mapM {α β ε : Type} (f : α → Except ε β) (xs : List α) :
    (xs.mapM f).toOption = xs.mapM fun x => (f x).toOption := by
  induction xs with
  | nil => rfl
  | cons x xs ih => simp only [mapM_cons, toOption_bind, ih]; rfl

theorem toOption_indexIn (point syms : List Int64) (t : Tensor) (m : Affine.Map) :
    (Eval.indexIn point syms (some t) m).toOption =
      m.results.mapM fun e => (e.eval point syms).toOption := by
  rw [Eval.indexIn, toOption_mapM]
  congr
  funext e
  cases e.eval point syms <;> rfl

theorem outcome_bindElements {point syms : List Int64} {maps : List Affine.Map}
    {args : List ValueId} {operands : List Tensor} (hargs : args.Nodup)
    (h : args.length = maps.length) :
    Option.Rel (fun p es => p.1 = es.map (·.1) ∧ Assigned args (es.map fun e => .scalar e.2) E p.2)
      (outcome (Eval.bindElements point syms maps args operands) E)
      (Head.elements point syms maps operands) := by
  induction maps generalizing args operands E with
  | nil =>
    obtain rfl : args = [] := length_eq_zero_iff.1 h
    exact .some ⟨rfl, assigned_nil⟩
  | cons m ms ih =>
    obtain ⟨v, vs, rfl⟩ := exists_cons_of_length_eq_add_one h
    cases operands with
    | nil =>
      simp only [Eval.bindElements, ask]
      cases (Eval.indexIn point syms ([] : List Tensor).head? m).toOption <;> exact .none
    | cons t ts =>
      simp only [Eval.bindElements, Head.elements, ask, head?_cons, toOption_indexIn]
      cases m.results.mapM fun e => (e.eval point syms).toOption with
      | none => exact .none
      | some indices =>
        simp only [Option.bind_some, Option.bind_eq_bind]
        cases (t.scalarAt indices).toOption with
        | none => exact .none
        | some s =>
          simp only [Option.bind_some, outcome_bind, outcome_define]
          refine rel_bind (ih (E := E.insert v.idx (.scalar s)) (nodup_cons.1 hargs).2
            (Nat.succ.inj h)) fun p es hp => ?_
          exact .some ⟨by simp [hp.1], hp.2.cons (nodup_cons.1 hargs).1⟩

theorem outcome_storeYields (ys : List Datum) (indices : List (List Int64)) (outs : List Tensor) :
    outcome (Eval.storeYields ys indices outs) E = (Head.store ys indices outs).map (·, E) := by
  induction ys generalizing indices outs with
  | nil => rfl
  | cons y ys ih =>
    cases y with
    | scalar s =>
      cases indices with
      | nil => rfl
      | cons index rest =>
        cases outs with
        | nil => rfl
        | cons t ts =>
          simp only [Eval.storeYields, Head.store, ask]
          cases (t.setScalar index s).toOption with
          | none => rfl
          | some u =>
            simp only [outcome_bind, ih]
            cases Head.store ys rest ts <;> rfl
    | _ => rfl

theorem store_length {ys : List Datum} {indices : List (List Int64)} {outs outs' : List Tensor}
    (h : Head.store ys indices outs = some outs') : outs'.length = outs.length := by
  induction ys generalizing indices outs outs' with
  | nil =>
    cases h
    rfl
  | cons y ys ih =>
    cases y with
    | scalar s =>
      cases indices with
      | nil => cases h
      | cons index rest =>
        cases outs with
        | nil => cases h
        | cons t ts =>
          simp only [Head.store, Option.bind_eq_bind, Option.bind_eq_some_iff] at h
          obtain ⟨u, -, us, hus, heq⟩ := h
          cases heq
          simp [ih hus]
    | _ => cases h

end Assigning

end ConvNest.Program
