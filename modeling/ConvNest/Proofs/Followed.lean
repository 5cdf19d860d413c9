/-
# What requests do to handles

A request to a rewriter reports what it replaces and erases, and handles and the journal follow.
Creating, copying and rewiring report nothing and erase nothing (`Still`).  Replacing exchanges an
operation for another one in the lists of handles, and erasing drops what it erases from them:
`Followed` covers both.  Whatever a request does, and whether it ends by a fault or not, is a
sequence of such changes (`Rewrite.run_follows`).
-/
import ConvNest.Proofs.RewriteUses

namespace ConvNest.Program

open Graph List

/-! ## 1. Edits that report nothing -/

/-- Nothing has been reported or erased. -/
structure Still (e e' : Editor) : Prop where
  handles : e'.handles = e.handles
  journal : e'.journal = e.journal
  size : e.graph.ops.size ≤ e'.graph.ops.size
  erased : ∀ i, i.idx < e.graph.ops.size → (e'.graph.op i).erased = (e.graph.op i).erased

namespace Still

variable {e₀ e e' : Editor} {α β : Type} {xs : List α}

theorem refl (e : Editor) : Still e e := ⟨rfl, rfl, Nat.le_refl _, fun _ _ => rfl⟩

theorem trans (h : Still e₀ e) (h' : Still e e') : Still e₀ e' where
  handles := h'.handles.trans h.handles
  journal := h'.journal.trans h.journal
  size := Nat.le_trans h.size h'.size
  erased i hi := (h'.erased i (Nat.lt_of_lt_of_le hi h.size)).trans (h.erased i hi)

/-- Computations that report and erase nothing, also if they end by a fault. -/
def By (x : Edit α) : Prop := ∀ e₀, Leaves (fun _ => Still e₀) (Still e₀) x fun _ => Still e₀

theorem bind {x : Edit α} {k : α → Edit β} (hx : By x) (hk : ∀ a, By (k a)) : By (x >>= k) :=
  fun e₀ =>
  .bind (hx e₀) fun a => hk a e₀

theorem pure (a : α) : By (Pure.pure a) := fun _ => .pure fun _ he => he

theorem throw (f : Fault) : By (MonadExcept.throw f : Edit α) := fun _ => .throw fun _ he => he

theorem lift (x : Except Fault α) : By (liftM x : Edit α) :=
  fun _ => .lift (fun _ _ _ he => he) fun _ _ _ he => he

theorem demand (c : Bool) (f : Fault) : By (Edit.demand c f) :=
  fun _ => .demand (fun _ he => he) fun _ _ he => he

theorem get : By (MonadState.get : Edit Editor) := fun _ => .of_ok fun e he => ⟨e, e, rfl, he⟩

theorem graph : By Edit.graph := fun _ => .of_ok fun e he => ⟨e.graph, e, rfl, he⟩

theorem op (i : OpId) : By (Edit.op i) := fun _ => .of_ok fun e he => ⟨e.graph.op i, e, rfl, he⟩

theorem setPoint (p : InsertionPoint) : By (Edit.setPoint p) := fun _ =>
  .modify fun _ he => ⟨he.handles, he.journal, he.size, he.erased⟩

theorem forM {k : α → Edit PUnit} (h : ∀ x, By (k x)) : By (xs.forM k) := fun e₀ =>
  .forM fun x _ => h x e₀

theorem foldlM {k : β → α → Edit β} (h : ∀ b x, By (k b x)) (b : β) : By (xs.foldlM k b) :=
  fun e₀ => .foldlM (J := fun _ => Still e₀) (fun x _ b => h b x e₀) b

theorem modifyGraph {k : Graph → Graph} (hsize : ∀ g, g.ops.size ≤ (k g).ops.size)
    (h : ∀ g i, i.idx < g.ops.size → ((k g).op i).erased = (g.op i).erased) :
    By (Edit.modifyGraph k) :=
  fun _ => .modify fun e he => he.trans ⟨rfl, rfl, hsize e.graph, h e.graph⟩

theorem modifyOp (i : OpId) {k : Op → Op} (h : ∀ x, (k x).erased = x.erased) :
    By (Edit.modifyGraph fun g => g.modifyOp i k) := by
  refine modifyGraph (fun g => Nat.le_of_eq (opsSize_modifyOp g i k).symm) fun g j _ => ?_
  rw [op_modifyOp]
  split
  · exact h _
  · rfl

theorem modifyValue (v : ValueId) (k : Value → Value) :
    By (Edit.modifyGraph fun g => g.modifyValue v k) :=
  modifyGraph (fun _ => Nat.le_refl _) fun _ _ _ => rfl

theorem modifyBlock (b : BlockId) (k : Block → Block) :
    By (Edit.modifyGraph fun g => g.modifyBlock b k) :=
  modifyGraph (fun _ => Nat.le_refl _) fun _ _ _ => rfl

/-! ### Creating -/

theorem newValues (owner : Owner) (tys : List Ty) : By (Edit.newValues owner tys) :=
  bind graph fun _ => bind (modifyGraph (fun _ => Nat.le_refl _) fun _ _ _ => rfl) fun _ => pure _

theorem newBlock (tys : List Ty) : By (Edit.newBlock tys) :=
  bind graph fun _ => bind (modifyGraph (fun _ => Nat.le_refl _) fun _ _ _ => rfl) fun _ =>
    bind (newValues _ _) fun _ => bind (modifyBlock _ _) fun _ => pure _

theorem reserveOp (kind : Kind) (attr : Attr) : By (Edit.reserveOp kind attr) := by
  refine bind graph fun _ => bind (modifyGraph (fun g => ?_) fun g i hi => ?_) fun _ => pure _
  · simp
  · have hne : i ≠ g.nextOp := by
      rintro rfl
      exact Nat.lt_irrefl _ hi
    exact congrArg Op.erased ((op_pushOp g _ i).trans (if_neg hne))

theorem adopt (i : OpId) (b : BlockId) : By (Edit.adopt i b) := by
  refine bind graph fun g => ?_
  split
  · exact throw _
  · exact modifyBlock _ _

theorem completeOp (i : OpId) (operands : List ValueId) (tys : List Ty) (body : Option BlockId) :
    By (Edit.completeOp i operands tys body) := by
  refine bind (modifyOp i fun _ => rfl) fun _ => bind (forM fun _ => modifyValue _ _) fun _ =>
    bind (newValues _ tys) fun _ => bind (modifyOp i fun _ => rfl) fun _ => ?_
  split
  · exact pure _
  · exact adopt i _

theorem place (b : BlockId) (pos : Nat) (i : OpId) : By (Edit.place b pos i) :=
  bind (op i) fun _ => bind (demand _ _) fun _ => bind (modifyBlock _ _) fun _ =>
    modifyOp i fun _ => rfl

theorem append (b : BlockId) (i : OpId) : By (Edit.append b i) := bind graph fun _ => place b _ i

theorem insert (i : OpId) : By (Edit.insert i) := fun e₀ =>
  .insert (fun _ _ he => he) fun _ b pos he _ _ _ heq => place b pos i e₀ _ (heq ▸ he)

theorem create (kind : Kind) (operands : List ValueId) (tys : List Ty) (attr : Attr)
    (body : Option BlockId) : By (Edit.create kind operands tys attr body) :=
  bind (bind (reserveOp kind attr) fun i => bind (completeOp i operands tys body) fun _ => pure i)
    fun i =>
    bind (insert i) fun _ => pure i

/-! ### Copying and rewiring -/

theorem completeCopy (g : Graph) (i copy : OpId) (operands : List ValueId) (body : Option BlockId)
    (m : Mapping) : By (Edit.completeCopy g i copy operands body m) :=
  bind (completeOp copy operands _ body) fun _ => bind (op copy) fun _ =>
  bind (lift _) fun _ => pure _

theorem copyWithin (n : Nat) (i : OpId) (m : Mapping) : By (Edit.copyWithin n i m) := by
  induction n generalizing i m with
  | zero => exact throw _
  | succ n ih =>
    refine bind graph fun g => bind (reserveOp _ _) fun copy => ?_
    split
    · exact completeCopy _ _ _ _ _ _
    · refine bind (newBlock _) fun b' => bind graph fun _ => bind (lift _) fun m =>
        bind ?_ fun m' =>
        completeCopy _ _ _ _ _ _
      exact foldlM (fun m j => bind (ih j m) fun _ => bind (append b' _) fun _ => pure _) m

theorem clone (i : OpId) (m : Mapping) : By (Edit.clone i m) :=
  bind (bind graph fun _ => copyWithin _ i m) fun r => bind (insert r.1) fun _ => pure r

theorem setOperand (i : OpId) (k : Nat) (v : ValueId) : By (Edit.setOperand i k v) :=
  bind (op i) fun _ => bind (lift _) fun _ => bind (modifyValue _ _) fun _ =>
    bind (modifyOp i fun _ => rfl) fun _ => modifyValue _ _

theorem replaceUses (src dst : ValueId) : By (Edit.replaceUses src dst) := by
  unfold Edit.replaceUses
  split
  · exact pure _
  · exact bind graph fun g => bind (demand _ _) fun _ => forM fun u => setOperand _ _ _

theorem checkUnused (g : Graph) (i : OpId) (r : ValueId) : By (Edit.checkUnused g i r) :=
  forM fun _ => demand _ _

theorem leave (i : OpId) : By (Edit.leave i) := by
  refine bind get fun e => ?_
  split
  · refine bind ?_ fun p => setPoint p
    exact bind (op i) fun _ => bind (lift _) fun _ => bind graph fun _ => pure _
  · exact pure _

theorem dropOperands (i : OpId) : By (Edit.dropOperands i) :=
  bind (op i) fun _ => forM fun p => modifyValue p.1 _

theorem unplace (i : OpId) : By (Edit.unplace i) := by
  refine bind graph fun g => ?_
  split
  · exact pure _
  · exact bind (demand _ _) fun _ => bind (modifyBlock _ _) fun _ => modifyOp i fun _ => rfl

theorem newFunc (name : String) (tys : List Ty) : By (Edit.newFunc name tys) :=
  bind graph fun _ => bind (newBlock tys) fun b =>
    bind (modifyGraph (fun _ => Nat.le_refl _) fun _ _ _ => rfl) fun _ => bind (modifyBlock b _)
      fun _ => pure _

theorem cloneFunc (f : FuncId) : By (Edit.cloneFunc f) := by
  refine bind graph fun g => bind (bind graph fun _ => lift _) fun b => bind (newFunc _ _) fun f' =>
    bind (bind graph fun _ => lift _) fun b' => bind graph fun _ => bind (lift _) fun m => ?_
  refine bind (foldlM (fun m i => ?_) m) fun _ => pure _
  exact bind (bind graph fun _ => copyWithin _ i m) fun _ => bind (append b' _) fun _ => pure _

end Still

/-! ## 2. Handles -/

namespace HandleTable

variable (t : HandleTable)

theorem mapTracked_mapTracked (k l : Handle → Tracked → Tracked) :
    (t.mapTracked k).mapTracked l = t.mapTracked fun h x => l h (k h x) := by
  simp [mapTracked]

theorem mapTracked_id : t.mapTracked (fun _ x => x) = t := by
  simp [mapTracked]

/-- Operations that are dropped one after the other. -/
theorem foldl_erased (D : List OpId) : D.foldl erased t =
    t.mapTracked fun _ x => { x with ops := x.ops.filter (· ∉ D) } := by
  induction D generalizing t with
  | nil => simp [mapTracked_id]
  | cons i D ih =>
    rw [foldl_cons, ih, erased, mapTracked_mapTracked]
    simp only [filter_filter, mem_cons, not_or, Bool.decide_and, Bool.and_comm]

theorem find?_mapTracked (k : Handle → Tracked → Tracked) (h : Handle) :
    (t.mapTracked k).find? h = (t.find? h).map (k h) := by
  unfold find? mapTracked
  induction t.entries with
  | nil => rfl
  | cons p ps ih =>
    rw [map_cons, lookup_cons, lookup_cons, ih]
    by_cases hp : h = p.1
    · simp [hp]
    · simp [beq_eq_false_iff_ne.2 hp]

end HandleTable

/-- In the lists of handles operations have been exchanged for others, as `ρ` says, and the
operations `D`, which are erased now, have been dropped.  The journal has got the events `l`. -/
structure Followed (ρ : OpId → OpId) (D : List OpId) (l : List Event) (e e' : Editor) : Prop where
  handles : e'.handles = e.handles.mapTracked fun _ x =>
    { x with ops := (x.ops.map ρ).filter (· ∉ D) }
  journal : e'.journal = e.journal ++ l
  size : e.graph.ops.size ≤ e'.graph.ops.size
  erased : ∀ i, i.idx < e.graph.ops.size →
    (e'.graph.op i).erased = ((e.graph.op i).erased || decide (i ∈ D))
  replaced : ∀ i, ρ i = i ∨ ((ρ i).idx < e.graph.ops.size ∧ (e.graph.op (ρ i)).erased = false) ∧
    ∃ values, .replaced i values ∈ l

/-- Changes that handles have followed, one after the other. -/
abbrev FollowedAll (e e' : Editor) : Prop :=
  Relation.ReflTransGen (fun e e' => ∃ ρ D l, Followed ρ D l e e') e e'

variable {e e' : Editor}

theorem Still.followed (h : Still e e') : Followed id [] [] e e' where
  handles := by simp [h.handles, HandleTable.mapTracked_id]
  journal := by simp [h.journal]
  size := h.size
  erased i hi := by simp [h.erased i hi]
  replaced _ := .inl rfl

theorem Still.follows (h : Still e e') : FollowedAll e e' := .single ⟨_, _, _, h.followed⟩

variable {values : List ValueId}

/-- The operation that stands for replacement values is in the graph and defines one of them. -/
theorem definerOf_some {g : Graph} {d : OpId} (h : HandleTable.definerOf g values = some d) :
    d.idx < g.ops.size ∧ ∃ v ∈ values, g.definingOp v = some d := by
  unfold HandleTable.definerOf at h
  split at h
  · cases h
  · next v vs =>
    split at h
    · next i hi =>
      split at h
      · next hres =>
        cases h
        refine ⟨lt_of_op_ne fun heq => ?_, v, mem_cons_self, hi⟩
        rw [heq] at hres
        cases hres
      · cases h
    · cases h

/-- A replacement is noted. -/
theorem noteReplaced_followed (e : Editor) (i : OpId)
    (h : ∀ v ∈ values, ∀ d, e.graph.definingOp v = some d → (e.graph.op d).erased = false) :
    ∃ ρ, Followed ρ [] [.replaced i values] e (e.noteReplaced i values) := by
  cases hd : HandleTable.definerOf e.graph values with
  | none =>
    refine ⟨id, ?_, rfl, Nat.le_refl _, fun _ _ => by simp [Editor.noteReplaced], fun _ => .inl rfl⟩
    simp [Editor.noteReplaced, HandleTable.replaced, hd, HandleTable.mapTracked_id]
  | some d =>
    obtain ⟨hlt, v, hv, hdef⟩ := definerOf_some hd
    refine ⟨fun j => if j = i then d else j, ?_, rfl, Nat.le_refl _,
      fun _ _ => by simp [Editor.noteReplaced], fun j => ?_⟩
    · simp [Editor.noteReplaced, HandleTable.replaced, hd]
    · by_cases hj : j = i
      · subst hj
        simp [hlt, h v hv d hdef]
      · simp [hj]

/-! ## 3. Erasing and replacing -/

namespace Edit

variable {e₀ : Editor}

/-- What erasing does once its checks have passed. -/
theorem eraseAll_follows {I : Fault → Editor → Prop} {e : Editor} (hexact : Exact e.graph)
    (i : OpId) (D : List OpId) :
    Leaves I (· = e) (do
      D.forM fun j => modify fun e => e.noteErased j
      D.forM dropOperands
      unplace i
      D.forM fun j => modifyGraph fun g => g.modifyOp j fun y => { y with erased := true })
      fun _ e' => Followed id D (D.map .erased) e e' := by
  obtain ⟨g, hg, -, -, hops, -, herased⟩ := eraseAll_eq hexact i D
  refine .of_ok ?_
  rintro _ rfl
  refine ⟨(), _, hg, ?_, rfl, Nat.le_of_eq hops.symm, herased, fun _ => .inl rfl⟩
  simp [onGraph, Editor.noteGone, HandleTable.foldl_erased]

/-- **Handles follow an erasure.** -/
theorem erase_follows (h : Booked e₀) (i : OpId) :
    Leaves (fun _ => Still e₀) (· = e₀) (erase i) fun _ e => FollowedAll e₀ e := by
  refine .step rfl (.bind (Q := fun _ => (· = e₀)) (.demand ?_ fun _ _ he => he) fun _ =>
    .bind (Q := fun _ => (· = e₀)) ?_ fun _ => ?_)
  · rintro _ rfl
    exact .refl _
  · refine .forM fun r _ => .forM fun u _ => .demand ?_ fun _ _ he => he
    rintro _ rfl
    exact .refl _
  · have hleave : Leaves (fun _ => Still e₀) (· = e₀) (leave i) fun _ => Still e₀ :=
      fun _ he => Still.leave i e₀ _ (he ▸ .refl _)
    refine .bind (Q := fun _ e => Still e₀ e ∧ Booked e)
      ((Leaves.both hleave (leave_leaves i h.kept)).mono (fun _ he => ⟨he, he⟩)
        (fun _ _ he => ⟨he.1, he.2.1.toBooked⟩) fun _ _ he => he.1) fun _ => .each fun e he => ?_
    · refine (eraseAll_follows he.2.exact i _).weaken fun _ e' hf => ?_
      exact he.1.follows.tail ⟨_, _, _, hf⟩

/-- **Handles follow a replacement**, also one that ends by a fault. -/
theorem replaceOp_follows (h : Booked e₀) (i : OpId) {values : List ValueId}
    (hknown : ∀ v ∈ values, v.idx < e₀.graph.values.size)
    (hvalues : ∀ v ∈ values, ∀ d, e₀.graph.definingOp v = some d → (e₀.graph.op d).erased = false) :
    Leaves (fun _ => FollowedAll e₀) (· = e₀) (replaceOp i values) fun _ => FollowedAll e₀ := by
  obtain ⟨ρ, hnote⟩ := noteReplaced_followed e₀ i hvalues
  have hfirst : FollowedAll e₀ (e₀.noteReplaced i values) := .single ⟨_, _, _, hnote⟩
  refine .step rfl (.bind (Q := fun _ => (· = e₀)) (.demand ?_ fun _ _ he => he) fun _ =>
    .step rfl ?_)
  · rintro _ rfl
    exact .refl
  · refine .bind (Q := fun _ e => Still (e₀.noteReplaced i values) e ∧ Booked e)
      (.mono (.forM (I := fun _ => Still (e₀.noteReplaced i values))
        (P := fun e => Still (e₀.noteReplaced i values) e ∧ Kept False e ∧
          e.graph.values.size = e₀.graph.values.size) fun p hp => ?_) ?_
            (fun _ _ he => ⟨he.1, he.2.1.toBooked⟩)
        fun _ _ he => hfirst.trans he.follows) fun _ => .each fun e he => ?_
    · exact .mono (.both (Still.replaceUses p.1 p.2 _)
        (replaceUses_leaves p.1 (hknown p.2 (of_mem_zip hp).2))) (fun _ he => he) (fun _ _ he => he)
        fun _ _ he => he.1
    · rintro _ rfl
      exact ⟨.refl _, Booked.kept ⟨h.exact, h.point⟩, rfl⟩
    · refine (erase_follows he.2 i).mono (fun _ heq => heq) (fun _ e' hf => ?_) fun _ e' hf => ?_
      · exact (hfirst.trans he.1.follows).trans hf
      · exact (hfirst.trans he.1.follows).trans hf.follows

end Edit

namespace Rewrite

/-- The values that a request puts in the place of others are not defined by erased operations. -/
def Defined (g : Graph) (r : Rewrite) : Prop :=
  ∀ i values, r = .replaceOp i values → ∀ v ∈ values, ∀ d,
  g.definingOp v = some d → (g.op d).erased = false

/-- Only a replacement and a removal change handles. -/
theorem still_or (r : Rewrite) :
    Still.By r.run ∨ (∃ i values, r = .replaceOp i values) ∨ ∃ i, r = .erase i := by
  cases r with
  | setPoint p => exact .inl (Still.setPoint p)
  | newBlock tys => exact .inl (Still.bind (Still.newBlock tys) fun _ => Still.pure _)
  | create kind operands tys attr body =>
    exact .inl (Still.bind (Still.create kind operands tys attr body) fun _ => Still.pure _)
  | clone i m => exact .inl (Still.bind (Still.clone i m) fun _ => Still.pure _)
  | replaceUses src dst => exact .inl (Still.replaceUses src dst)
  | replaceOp i values => exact .inr (.inl ⟨i, values, rfl⟩)
  | erase i => exact .inr (.inr ⟨i, rfl⟩)

/-- **Handles follow every request**, also one that ends by a fault. -/
theorem run_follows (r : Rewrite) {e : Editor} (he : Booked e) (hknown : r.Known e.graph)
    (hdefined : r.Defined e.graph) : FollowedAll e (r.run.after e) := by
  rcases r.still_or with hstill | ⟨i, values, rfl⟩ | ⟨i, rfl⟩
  · exact ((hstill e).after (J := Still e) (.refl e)).follows
  · exact (Edit.replaceOp_follows he i hknown.2 (hdefined i values rfl)).after rfl
  · exact ((Edit.erase_follows he i).mono (fun _ he => he) (fun _ _ he => he)
      fun _ _ he => Still.follows he : Leaves (fun _ => FollowedAll e) _ _ _).after rfl

end Rewrite

end ConvNest.Program
