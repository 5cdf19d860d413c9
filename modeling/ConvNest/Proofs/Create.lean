/-
# Creating operations

`create` emits one node.  For an operation without a body the node is all there is (`create_leaf`).
A loop or a generic operation is created with an empty body, into which more is emitted: `Opened` is
the state in between, and `Opened.close` gives the emission of the whole.
-/
import ConvNest.Proofs.Emission

namespace ConvNest.Program

open Node List

namespace Graph

/-- The graph with one more operation, outside of every block. -/
def withOp (g : Graph) (kind : Kind) (operands : List ValueId) (tys : List Ty) (attr : Attr)
    (body : Option BlockId) : Graph :=
  (g.pushOp ⟨kind, [], [], attr, none, none, false⟩).complete g.nextOp operands tys body

section WithOp

variable (g : Graph) (kind : Kind) (operands : List ValueId) (tys : List Ty) (attr : Attr)
  (body : Option BlockId)

theorem nextOp_lt (x : Op) : g.nextOp.idx < (g.pushOp x).ops.size := by
  rw [opsSize_pushOp]
  exact Nat.lt_succ_self _

theorem op_withOp (j : OpId) : (g.withOp kind operands tys attr body).op j =
    if j = g.nextOp then ⟨kind, operands, g.nextValues tys.length, attr, body, none, false⟩
    else g.op j := by
  rw [withOp, op_complete (g.nextOp_lt _)]
  by_cases hj : g.nextOp = j
  · subst hj
    simp [nextValues]
  · have hj' : j ≠ g.nextOp := fun h => hj h.symm
    simp [hj, hj']

theorem opsSize_withOp : (g.withOp kind operands tys attr body).ops.size = g.ops.size + 1 := by
  rw [withOp, opsSize_complete, opsSize_pushOp]

theorem valuesSize_withOp :
    (g.withOp kind operands tys attr body).values.size = g.values.size + tys.length := by
  rw [withOp, valuesSize_complete, values_pushOp]

theorem blocksSize_withOp : (g.withOp kind operands tys attr body).blocks.size = g.blocks.size := by
  rw [withOp, blocksSize_complete, blocks_pushOp]

theorem block_withOp (b : BlockId) : (g.withOp kind operands tys attr body).block b =
    if body = some b ∧ b.idx < g.blocks.size then { g.block b with parentOp := some g.nextOp }
    else g.block b := by
  rw [withOp, block_complete, blocks_pushOp, block_pushOp]

theorem value_withOp_old {v : ValueId} (hv : v.idx < g.values.size) :
    (g.withOp kind operands tys attr body).value v =
      { g.value v with uses := (g.value v).uses ++ usesOf g.nextOp v operands 0 } := by
  rw [withOp, value_complete_old _ _ _ _ _ (by simpa using hv), value_pushOp]

theorem ty_withOp_new : (g.nextValues tys.length).map (g.withOp kind operands tys attr body).ty =
    tys :=
  (g.pushOp ⟨kind, [], [], attr, none, none, false⟩).tys_complete g.nextOp operands body tys

end WithOp

end Graph

open Graph

namespace Sane

theorem withOp {g : Graph} (hg : Sane g) (kind : Kind) (operands : List ValueId) (tys : List Ty)
    (attr : Attr) {body : Option BlockId}
    (hbody : ∀ b, body = some b → b.idx < g.blocks.size ∧ (g.block b).parentOp = none) :
    Sane (g.withOp kind operands tys attr body) :=
  (hg.reserve kind attr).complete ⟨g.nextOp_lt _, by simp, by simp⟩ operands tys hbody

end Sane

namespace Edit

variable {e e' : Editor} {b : BlockId} {pre post : List OpId} {kind : Kind}
  {operands : List ValueId} {tys : List Ty} {attr : Attr} {body : Option BlockId} {i : OpId}

theorem newOp_ok : newOp kind operands tys attr body e = .ok i e' ↔
    (∀ b, body = some b → (e.graph.block b).parentOp = none) ∧ i = e.graph.nextOp ∧
      e' = onGraph e (e.graph.withOp kind operands tys attr body) := by
  unfold newOp
  simp only [state_bind_eq_ok, reserveOp_eq, EStateM.Result.ok.injEq, and_assoc, exists_and_left,
    exists_eq_left', completeOp_ok, exists_eq_left, exists_const, state_pure_eq_ok]
  exact and_congr Iff.rfl (and_congr eq_comm eq_comm)

/-- The graph in which a new operation stands between `pre` and `post`. -/
def created (g : Graph) (b : BlockId) (pre post : List OpId) (kind : Kind) (operands : List ValueId)
    (tys : List Ty) (attr : Attr) (body : Option BlockId) : Graph :=
  (g.withOp kind operands tys attr body).put b (pre ++ g.nextOp :: post) g.nextOp

theorem AtPoint.withOp (hat : AtPoint e b pre post) :
    AtPoint (onGraph e (e.graph.withOp kind operands tys attr body)) b pre post := by
  refine ⟨?_, hat.block, ?_, hat.none, hat.some⟩
  · rw [onGraph, blocksSize_withOp]
    exact hat.lt
  · rw [onGraph, block_withOp]
    split <;> exact hat.ops

/-- **An operation can be created at every insertion point.** -/
theorem create_eq (hat : AtPoint e b pre post)
    (hbody : ∀ c, body = some c → (e.graph.block c).parentOp = none) :
    create kind operands tys attr body e = .ok e.graph.nextOp
      (onGraph e (created e.graph b pre post kind operands tys attr body)) :=
  state_bind_ok _ (newOp_ok.2 ⟨hbody, rfl, rfl⟩) (state_bind_ok ()
    ((insert_ok hat.withOp).2 ⟨by simp [onGraph, op_withOp], rfl⟩) rfl)

section Created

variable (g : Graph) (b : BlockId) (pre post : List OpId) (kind : Kind) (operands : List ValueId)
  (tys : List Ty) (attr : Attr) (body : Option BlockId)

theorem op_created (j : OpId) : (created g b pre post kind operands tys attr body).op j =
    if j = g.nextOp then ⟨kind, operands, g.nextValues tys.length, attr, body, some b, false⟩
    else g.op j := by
  rw [created, op_put, op_withOp, opsSize_withOp]
  by_cases hj : j = g.nextOp
  · subst hj
    simp [nextOp]
  · rw [if_neg hj, if_neg fun h => hj h.1.symm, if_neg hj]

theorem opsSize_created :
    (created g b pre post kind operands tys attr body).ops.size = g.ops.size + 1 := by
  rw [created, opsSize_put, opsSize_withOp]

theorem valuesSize_created :
    (created g b pre post kind operands tys attr body).values.size =
      g.values.size + tys.length := by
  rw [created, values_put, valuesSize_withOp]

theorem blocksSize_created :
    (created g b pre post kind operands tys attr body).blocks.size = g.blocks.size := by
  rw [created, blocksSize_put, blocksSize_withOp]

theorem ops_created (hb : b.idx < g.blocks.size) :
    ((created g b pre post kind operands tys attr body).block b).ops = pre ++ g.nextOp :: post := by
  rw [created, block_put, blocksSize_withOp, if_pos ⟨rfl, hb⟩]

theorem ty_created : (g.nextValues tys.length).map
    (created g b pre post kind operands tys attr body).ty = tys :=
  g.ty_withOp_new kind operands tys attr body

theorem uses_created {k : Nat} {v : ValueId} (hk : operands[k]? = some v)
    (hv : v.idx < g.values.size) : ⟨g.nextOp, k⟩ ∈
      ((created g b pre post kind operands tys attr body).value v).uses := by
  rw [created, value_put, value_withOp_old _ _ _ _ _ _ hv]
  exact mem_append_right _ (mem_usesOf.2 ⟨rfl, Nat.zero_le _, hk⟩)

end Created

theorem sane_created {g : Graph} (hg : Sane g) (hops : (g.block b).ops = pre ++ post)
    (hbody : ∀ b, body = some b → b.idx < g.blocks.size ∧ (g.block b).parentOp = none) :
    Sane (created g b pre post kind operands tys attr body) := by
  refine (hg.withOp kind operands tys attr hbody).put ?_ ?_ (fun c hc => ?_) ?_
  · rw [opsSize_withOp]
    exact Nat.lt_succ_self _
  · rw [op_withOp, if_pos rfl]
  · rw [op_withOp, if_pos rfl] at hc
    rw [block_withOp, if_pos ⟨hc, (hbody c hc).1⟩]
  · rw [block_withOp]
    split <;> exact hops

theorem extends_created {g₀ g : Graph} (h : Extends g₀ g (some b))
    (hbody : ∀ c, body = some c → g₀.blocks.size ≤ c.idx) :
    Extends g₀ (created g b pre post kind operands tys attr body) (some b) :=
  ((h.pushOp _).complete h.opsLe (g.nextOp_lt _) operands tys hbody).put h.opsLe _

/-- The insertion point after a new operation. -/
theorem AtPoint.push (hat : AtPoint e b pre post) {g : Graph} {i : OpId}
    (hlt : b.idx < g.blocks.size) (hops : (g.block b).ops = pre ++ [i] ++ post) (hnew : i ∉ post) :
    AtPoint (onGraph e g) b (pre ++ [i]) post := by
  refine ⟨hlt, hat.block, hops, hat.none, fun o ho => ?_⟩
  obtain ⟨hno, rest, rfl⟩ := hat.some o ho
  refine ⟨fun hmem => ?_, rest, rfl⟩
  rcases mem_append.1 hmem with hmem | hmem
  · exact hno hmem
  · obtain rfl := mem_singleton.1 hmem
    exact hnew mem_cons_self

theorem AtPoint.created (hat : AtPoint e b pre post) (hg : Sane e.graph) :
    AtPoint (onGraph e (created e.graph b pre post kind operands tys attr body)) b
      (pre ++ [e.graph.nextOp]) post := by
  refine hat.push ?_ ?_ fun hmem => ?_
  · rw [blocksSize_created]
    exact hat.lt
  · rw [ops_created _ _ _ _ _ _ _ _ _ hat.lt, append_assoc, singleton_append]
  · exact Nat.lt_irrefl _ (hg.parent b e.graph.nextOp (by rw [hat.ops]; simp [hmem])).1

/-! ## 2. Operations without a body -/

variable {P : Graph → Node → Prop} {V : List ValueId}

/-- A new operation without a body. -/
def leafNode (g : Graph) (kind : Kind) (operands : List ValueId) (tys : List Ty) (attr : Attr) :
    Node :=
  .mk g.nextOp ⟨kind, operands, g.nextValues tys.length, tys, attr⟩ none [] []

theorem create_leaf (hs : Start V b pre post e) (hops : ∀ v ∈ operands, v ∈ V)
    (hP : P (created e.graph b pre post kind operands tys attr none)
      (leafNode e.graph kind operands tys attr)) :
    Emitted P V b pre post e (onGraph e (created e.graph b pre post kind operands tys attr none))
      [leafNode e.graph kind operands tys attr] := by
  have hresults : ∀ v ∈ e.graph.nextValues tys.length, e.graph.values.size ≤ v.idx ∧
      v.idx < e.graph.values.size + tys.length := fun v hv => (mem_nextValues _).1 hv
  have hhere : Here (created e.graph b pre post kind operands tys attr none)
      (leafNode e.graph kind operands tys attr) := by
    have hop := op_created e.graph b pre post kind operands tys attr none e.graph.nextOp
    rw [if_pos rfl] at hop
    refine ⟨?_, ?_, ?_, ?_, ?_, ?_, ?_, ?_, ?_, ?_, ?_, ?_⟩ <;>
      simp only [leafNode, id_mk, head_mk, body_mk, Graph.kind, hop]
    · exact (ty_created e.graph b pre post kind operands tys attr none).symm
    · intro k v hv
      exact uses_created _ _ _ _ _ _ _ _ _ hv (hs.visible v (hops v (mem_of_getElem? hv)))
    · simp
    · simp
    · simp
    · simp
  have hheld : Held (created e.graph b pre post kind operands tys attr none)
      [leafNode e.graph kind operands tys attr] :=
    held_single.2 ⟨hhere, by simp [leafNode]⟩
  refine
    { grows := extends_created (.refl _ _) (by simp)
      next := ⟨sane_created hs.sane hs.place.ops (by simp), hs.place.created hs.sane, ?_⟩
      point := rfl
      held := hheld
      placed := ?_
      opsNew := ?_
      covers := ?_
      defsNew := ?_
      inScope := ?_
      every := ?_ }
  · intro v hv
    simp only [onGraph, valuesSize_created]
    rcases mem_append.1 hv with hv | hv
    · exact (hresults v (by simpa [outs, leafNode] using hv)).2
    · exact Nat.lt_add_right _ (hs.visible v hv)
  · simp [leafNode, onGraph, op_created]
  · simp [leafNode, subs, nextOp]
  · intro i hle hlt
    simp only [onGraph, opsSize_created] at hlt
    have heq : i = e.graph.nextOp :=
      congrArg OpId.mk (Nat.le_antisymm (Nat.le_of_lt_succ hlt) hle)
    simp [heq, leafNode, ids, subs]
  · intro v hv
    exact (hresults v (by simpa [defs_single, leafNode] using hv)).1
  · simpa [leafNode, scoped_iff] using hops
  · simpa [leafNode, subs, onGraph] using hP

/-! ## 3. Operations with a body -/

section Opened

variable (e b pre post kind operands tys attr) (argTys : List Ty)

/-- The state in which an operation has been created with an empty body, and the insertion point is
in the body. -/
def opened : Editor :=
  { e with
    graph := created (e.graph.withBlock argTys) b pre post kind operands tys attr
      (some e.graph.nextBlock)
    point := pointAtEnd e.graph.nextBlock }

/-- A new operation with a body. -/
def regionNode (ns : List Node) : Node :=
  .mk e.graph.nextOp ⟨kind, operands, (e.graph.withBlock argTys).nextValues tys.length, tys, attr⟩
    (some e.graph.nextBlock) (e.graph.nextValues argTys.length) ns

variable {e b pre post kind operands tys attr argTys}

theorem mem_openedResults {v : ValueId} :
    v ∈ (e.graph.withBlock argTys).nextValues tys.length ↔
      e.graph.values.size + argTys.length ≤ v.idx ∧
        v.idx < e.graph.values.size + argTys.length + tys.length := by
  rw [mem_nextValues, valuesSize_withBlock]

theorem valuesSize_opened : (opened e b pre post kind operands tys attr argTys).graph.values.size =
    e.graph.values.size + argTys.length + tys.length := by
  rw [opened, valuesSize_created, valuesSize_withBlock]

theorem extends_opened :
    Extends e.graph (opened e b pre post kind operands tys attr argTys).graph (some b) :=
  extends_created ((Extends.refl _ _).withBlock argTys) (by simp [nextBlock])

theorem block_opened (hs : Start V b pre post e) :
    (opened e b pre post kind operands tys attr argTys).graph.block e.graph.nextBlock =
      ⟨e.graph.nextValues argTys.length, [], some e.graph.nextOp, none⟩ := by
  have hne : ¬ (b = e.graph.nextBlock ∧
      b.idx < ((e.graph.withBlock argTys).withOp kind operands tys attr
        (some e.graph.nextBlock)).blocks.size) := by
    rintro ⟨rfl, -⟩
    exact Nat.lt_irrefl _ hs.place.lt
  rw [opened, created, block_put, if_neg hne, block_withOp, blocksSize_withBlock,
    if_pos ⟨rfl, Nat.lt_succ_self _⟩, block_withBlock, if_pos rfl]
  rfl

theorem sane_opened (hs : Start V b pre post e) :
    Sane (opened e b pre post kind operands tys attr argTys).graph := by
  refine sane_created (hs.sane.withBlock argTys) ?_ ?_
  · have hne : b ≠ e.graph.nextBlock := by
      rintro rfl
      exact Nat.lt_irrefl _ hs.place.lt
    rw [block_withBlock, if_neg hne]
    exact hs.place.ops
  · intro c hc
    cases hc
    rw [blocksSize_withBlock, block_withBlock, if_pos rfl]
    exact ⟨Nat.lt_succ_self _, rfl⟩

/-- More can be emitted into the new body. -/
theorem start_opened (hs : Start V b pre post e) :
    Start (e.graph.nextValues argTys.length ++ V) e.graph.nextBlock [] []
      (opened e b pre post kind operands tys attr argTys) where
  sane := sane_opened hs
  place := by
    refine ⟨?_, rfl, ?_, fun _ => rfl, fun o ho => (nomatch ho)⟩
    · rw [opened, blocksSize_created, blocksSize_withBlock]
      exact Nat.lt_succ_self _
    · rw [block_opened hs]
      rfl
  visible v hv := by
    rw [valuesSize_opened]
    rcases mem_append.1 hv with hv | hv
    · have := ((mem_nextValues _).1 hv).2
      omega
    · have := hs.visible v hv
      omega

variable {e₃ : Editor} {ns : List Node} (hs : Start V b pre post e) (hops : ∀ v ∈ operands, v ∈ V)
  (h : Emitted P (e.graph.nextValues argTys.length ++ V) e.graph.nextBlock [] []
    (opened e b pre post kind operands tys attr argTys) e₃ ns)

include hs hops h

/-- What has been emitted into the new body is the body of the new operation. -/
theorem here_opened :
    Here e₃.graph (regionNode e kind operands tys attr argTys ns) ∧
      (e₃.graph.op e.graph.nextOp).parent = some b := by
  have hlt : e.graph.nextOp.idx <
      (opened e b pre post kind operands tys attr argTys).graph.ops.size := by
    rw [opened, opsSize_created]
    exact Nat.lt_succ_self _
  have hop : e₃.graph.op e.graph.nextOp = ⟨kind, operands,
      (e.graph.withBlock argTys).nextValues tys.length, attr, some e.graph.nextBlock, some b,
      false⟩ := by
    rw [h.grows.op _ hlt, opened, op_created]
    exact if_pos rfl
  have hargs : (e₃.graph.block e.graph.nextBlock).args = e.graph.nextValues argTys.length := by
    rw [h.grows.args _ (start_opened hs).place.lt, block_opened hs]
  have hbody : (e₃.graph.block e.graph.nextBlock).ops = ns.map Node.id := by
    simpa using h.next.place.ops
  refine ⟨?_, by rw [hop]⟩
  refine ⟨?_, ?_, ?_, ?_, ?_, ?_, ?_, ?_, ?_, ?_, ?_, ?_⟩ <;>
    simp only [regionNode, id_mk, head_mk, body_mk, Graph.kind, hop]
  · conv_lhs => rw [← ty_created (e.graph.withBlock argTys) b pre post kind operands tys attr
      (some e.graph.nextBlock)]
    refine map_congr_left fun v hv => (h.grows.ty v ?_).symm
    rw [valuesSize_opened]
    exact (mem_openedResults.1 hv).2
  · intro k v hv
    refine h.grows.uses v _ (uses_created _ _ _ _ _ _ _ _ _ hv ?_)
    have := hs.visible v (hops v (mem_of_getElem? hv))
    rw [valuesSize_withBlock]
    omega
  · intro c hc
    cases hc
    exact hargs
  · intro c hc
    cases hc
    exact hbody
  · exact fun h => absurd h (Option.some_ne_none _)
  · exact h.placed

/-- **An operation with a body is emitted with all that has been emitted into its body.** -/
theorem close (hP : P e₃.graph (regionNode e kind operands tys attr argTys ns)) :
    Emitted P V b pre post e { e₃ with point := e.point }
      [regionNode e kind operands tys attr argTys ns] := by
  obtain ⟨hhere, hparent⟩ := here_opened hs hops h
  have hlt : b.idx < (opened e b pre post kind operands tys attr argTys).graph.blocks.size :=
    Nat.lt_of_lt_of_le hs.place.lt extends_opened.blocksLe
  have hne : some b ≠ some e.graph.nextBlock := fun heq => by
    cases heq
    exact Nat.lt_irrefl _ hs.place.lt
  have hargs {v : ValueId} (hv : v ∈ e.graph.nextValues argTys.length) :=
    (mem_nextValues _).1 hv
  have hfresh {v : ValueId} (hv : v ∈ (e.graph.withBlock argTys).nextValues tys.length) :=
    mem_openedResults.1 hv
  have hvalues := h.grows.valuesLe
  rw [valuesSize_opened] at hvalues
  have hplace : AtPoint { e₃ with point := e.point } b (pre ++ [e.graph.nextOp]) post := by
    refine ⟨Nat.lt_of_lt_of_le hlt h.grows.blocksLe, hs.place.block, ?_, hs.place.none, ?_⟩
    · show (e₃.graph.block b).ops = _
      rw [h.grows.block b hlt hne, opened, ops_created _ _ _ _ _ _ _ _ _
        (Nat.lt_of_lt_of_le hs.place.lt (by simp)), append_assoc, singleton_append]
      rfl
    · intro o ho
      obtain ⟨hno, rest, rfl⟩ := hs.place.some o ho
      refine ⟨fun hmem => ?_, rest, rfl⟩
      rcases mem_append.1 hmem with hmem | hmem
      · exact hno hmem
      · obtain rfl := mem_singleton.1 hmem
        have hold := (hs.sane.parent b e.graph.nextOp (by rw [hs.place.ops]; simp)).1
        exact Nat.lt_irrefl _ hold
  refine
    { grows := extends_opened.inside (Nat.le_refl _) h.grows
      next := ⟨h.next.sane, hplace, ?_⟩
      point := rfl
      held := held_single.2 ⟨hhere, h.held⟩
      placed := ?_
      opsNew := ?_
      covers := ?_
      defsNew := ?_
      inScope := ?_
      every := ?_ }
  · intro v hv
    show v.idx < e₃.graph.values.size
    rcases mem_append.1 hv with hv | hv
    · have := (hfresh (by simpa [outs, regionNode] using hv)).2
      omega
    · have := hs.visible v hv
      omega
  · simpa [regionNode] using hparent
  · intro m hm
    simp only [subsAll_cons, subsAll_nil, append_nil, subs_eq, mem_cons] at hm
    rcases hm with rfl | hm
    · exact Nat.le_refl _
    · exact Nat.le_trans extends_opened.opsLe (h.opsNew m hm)
  · intro i hle hlt
    have hsize : (opened e b pre post kind operands tys attr argTys).graph.ops.size =
        e.graph.ops.size + 1 := by simp [opened, opsSize_created]
    simp only [ids, subsAll_cons, subsAll_nil, append_nil, subs_eq, map_cons, mem_cons]
    rcases Nat.lt_or_ge i.idx (e.graph.ops.size + 1) with hi | hi
    · exact .inl (congrArg OpId.mk (Nat.le_antisymm (Nat.le_of_lt_succ hi) hle))
    · exact .inr (h.covers i (hsize ▸ hi) hlt)
  · intro v hv
    rw [defs_single] at hv
    simp only [mem_append] at hv
    rcases hv with (hv | hv) | hv
    · have := (hfresh hv).1
      omega
    · exact (hargs hv).1
    · exact Nat.le_trans extends_opened.valuesLe (h.defsNew v hv)
  · rw [scopedAll_cons, scoped_iff]
    exact ⟨⟨hops, h.inScope⟩, scopedAll_nil _⟩
  · intro m hm
    simp only [subsAll_cons, subsAll_nil, append_nil, subs_eq, mem_cons] at hm
    rcases hm with rfl | hm
    · exact hP
    · exact h.every m hm

end Opened

end Edit

end ConvNest.Program
