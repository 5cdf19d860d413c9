/-
# What new operations leave alone

An edit that creates operations changes nothing that was there before: operations, values and blocks
keep what they have, but for the block that the new operations are placed in and for the use lists,
which grow.  `Extends` says so for graphs.

`Emitted` is what a builder function does from one editor to the next: between the operations `pre`
and `post` of a block it has placed the trees `ns`, whose operands are visible and whose names are
all new.  Emissions that follow one another compose (`Emitted.trans`).
-/
import ConvNest.Proofs.Renaming
import ConvNest.Proofs.SaneEdit

namespace ConvNest.Program

open Node Graph List

/-! ## 1. Graphs that grow -/

/-- What the graph `g` has, `g'` has too, but for the operations of one block. -/
structure Extends (g g' : Graph) (b : Option BlockId) : Prop where
  opsLe : g.ops.size ≤ g'.ops.size
  valuesLe : g.values.size ≤ g'.values.size
  blocksLe : g.blocks.size ≤ g'.blocks.size
  op : ∀ i, i.idx < g.ops.size → g'.op i = g.op i
  ty : ∀ v, v.idx < g.values.size → g'.ty v = g.ty v
  owner : ∀ v, v.idx < g.values.size → (g'.value v).owner = (g.value v).owner
  index : ∀ v, v.idx < g.values.size → (g'.value v).index = (g.value v).index
  users : ∀ v, ∃ us, (g'.value v).uses = (g.value v).uses ++ us ∧ ∀ u ∈ us, g.ops.size ≤ u.op.idx
  block : ∀ c, c.idx < g.blocks.size → some c ≠ b → g'.block c = g.block c
  args : ∀ c, c.idx < g.blocks.size → (g'.block c).args = (g.block c).args
  parentOp : ∀ c, c.idx < g.blocks.size → (g'.block c).parentOp = (g.block c).parentOp
  func : ∀ c, c.idx < g.blocks.size → (g'.block c).func = (g.block c).func
  funcs : g'.funcs = g.funcs

namespace Extends

variable {g g' g'' : Graph} {b : Option BlockId} {c : BlockId} {i : OpId}

theorem refl (g : Graph) (b : Option BlockId) : Extends g g b where
  opsLe := Nat.le_refl _
  valuesLe := Nat.le_refl _
  blocksLe := Nat.le_refl _
  op _ _ := rfl
  ty _ _ := rfl
  owner _ _ := rfl
  index _ _ := rfl
  users _ := ⟨[], (append_nil _).symm, by simp⟩
  block _ _ _ := rfl
  args _ _ := rfl
  parentOp _ _ := rfl
  func _ _ := rfl
  funcs := rfl

/-- Use lists keep what they have. -/
theorem uses (h : Extends g g' b) (v : ValueId) (u : Use) (hu : u ∈ (g.value v).uses) :
    u ∈ (g'.value v).uses := by
  obtain ⟨us, heq, -⟩ := h.users v
  rw [heq]
  exact mem_append_left _ hu

/-- Users that come one after the other. -/
theorem users_trans {xs ys zs : List Use} {k l : Nat} (hle : k ≤ l)
    (h : ∃ us, ys = xs ++ us ∧ ∀ u ∈ us, k ≤ u.op.idx)
    (h' : ∃ us, zs = ys ++ us ∧ ∀ u ∈ us, l ≤ u.op.idx) :
    ∃ us, zs = xs ++ us ∧ ∀ u ∈ us, k ≤ u.op.idx := by
  obtain ⟨us, rfl, hus⟩ := h
  obtain ⟨us', rfl, hus'⟩ := h'
  refine ⟨us ++ us', append_assoc _ _ _, fun u hu => ?_⟩
  rcases mem_append.1 hu with hu | hu
  · exact hus u hu
  · exact Nat.le_trans hle (hus' u hu)

/-- The later changes may be in any block that is none of the old ones, but for one. -/
theorem followed {c : Option BlockId} (h : Extends g g' b) (h' : Extends g' g'' c)
    (hc : ∀ d : BlockId, d.idx < g.blocks.size → some d ≠ b → some d ≠ c) : Extends g g'' b where
  opsLe := Nat.le_trans h.opsLe h'.opsLe
  valuesLe := Nat.le_trans h.valuesLe h'.valuesLe
  blocksLe := Nat.le_trans h.blocksLe h'.blocksLe
  op i hi := (h'.op i (Nat.lt_of_lt_of_le hi h.opsLe)).trans (h.op i hi)
  ty v hv := (h'.ty v (Nat.lt_of_lt_of_le hv h.valuesLe)).trans (h.ty v hv)
  owner v hv := (h'.owner v (Nat.lt_of_lt_of_le hv h.valuesLe)).trans (h.owner v hv)
  index v hv := (h'.index v (Nat.lt_of_lt_of_le hv h.valuesLe)).trans (h.index v hv)
  users v := users_trans h.opsLe (h.users v) (h'.users v)
  block d hd hb :=
  (h'.block d (Nat.lt_of_lt_of_le hd h.blocksLe) (hc d hd hb)).trans (h.block d hd hb)
  args d hd := (h'.args d (Nat.lt_of_lt_of_le hd h.blocksLe)).trans (h.args d hd)
  parentOp d hd := (h'.parentOp d (Nat.lt_of_lt_of_le hd h.blocksLe)).trans (h.parentOp d hd)
  func d hd := (h'.func d (Nat.lt_of_lt_of_le hd h.blocksLe)).trans (h.func d hd)
  funcs := h'.funcs.trans h.funcs

theorem trans (h : Extends g g' b) (h' : Extends g' g'' b) : Extends g g'' b :=
  h.followed h' fun _ _ hd => hd

/-- What happens in a block that is new changes nothing that was there. -/
theorem inside (h₀ : Extends g g' b) (hc : g.blocks.size ≤ c.idx) (h : Extends g' g'' (some c)) :
    Extends g g'' b :=
  h₀.followed h fun _ hd _ heq => Nat.not_lt.2 hc (Option.some.inj heq ▸ hd)

/-- More may change. -/
theorem weaken (h : Extends g g' none) (b : Option BlockId) : Extends g g' b :=
  { h with block := fun c hc _ => h.block c hc (by simp) }

theorem pushOp (h : Extends g g' b) (x : Op) : Extends g (g'.pushOp x) b :=
  { h with
    opsLe := by
      rw [opsSize_pushOp]
      exact Nat.le_succ_of_le h.opsLe
    op := fun i hi => by
      have hne : i ≠ g'.nextOp := by
        rintro rfl
        exact Nat.not_lt.2 h.opsLe hi
      rw [op_pushOp, if_neg hne]
      exact h.op i hi }

/-- An edit of new entries, that lets new operations use the old values. -/
theorem edited (h : Extends g g' b) (opsLe : g'.ops.size ≤ g''.ops.size)
    (valuesLe : g'.values.size ≤ g''.values.size) (blocksLe : g'.blocks.size ≤ g''.blocks.size)
    (op : ∀ i, i.idx < g.ops.size → g''.op i = g'.op i)
    (value : ∀ v, v.idx < g'.values.size → ∃ us, g''.value v =
      { g'.value v with uses := (g'.value v).uses ++ us } ∧ ∀ u ∈ us, g.ops.size ≤ u.op.idx)
    (uses : ∀ v, g'.values.size ≤ v.idx → (g''.value v).uses = [])
    (block : ∀ c, c.idx < g.blocks.size → g''.block c = g'.block c) (funcs : g''.funcs = g'.funcs) :
    Extends g g'' b := by
  have hold {v : ValueId} (hv : v.idx < g.values.size) := value v (Nat.lt_of_lt_of_le hv h.valuesLe)
  refine
    { opsLe := Nat.le_trans h.opsLe opsLe
      valuesLe := Nat.le_trans h.valuesLe valuesLe
      blocksLe := Nat.le_trans h.blocksLe blocksLe
      op := fun i hi => (op i hi).trans (h.op i hi)
      ty := fun v hv => ?_
      owner := fun v hv => ?_
      index := fun v hv => ?_
      users := fun v => ?_
      block := fun c hc hb => (block c hc).trans (h.block c hc hb)
      args := fun c hc => ?_
      parentOp := fun c hc => ?_
      func := fun c hc => ?_
      funcs := funcs.trans h.funcs }
  · obtain ⟨us, heq, -⟩ := hold hv
    rw [Graph.ty, heq]
    exact h.ty v hv
  · obtain ⟨us, heq, -⟩ := hold hv
    rw [heq]
    exact h.owner v hv
  · obtain ⟨us, heq, -⟩ := hold hv
    rw [heq]
    exact h.index v hv
  · by_cases hv : v.idx < g'.values.size
    · obtain ⟨us, heq, hus⟩ := value v hv
      exact users_trans (Nat.le_refl _) (h.users v) ⟨us, by rw [heq], hus⟩
    · rw [g.value_of_le (Nat.le_trans h.valuesLe (Nat.le_of_not_lt hv)),
        uses v (Nat.le_of_not_lt hv)]
      exact ⟨[], rfl, by simp⟩
  · rw [block c hc]
    exact h.args c hc
  · rw [block c hc]
    exact h.parentOp c hc
  · rw [block c hc]
    exact h.func c hc

theorem withBlock (h : Extends g g' b) (tys : List Ty) : Extends g (g'.withBlock tys) b := by
  refine h.edited (Nat.le_refl _) ?_ ?_ (fun _ _ => rfl) (fun v hv => ⟨[], ?_, by simp⟩)
    (fun v hv => uses_withBlock_new g' tys hv) (fun c hc => ?_) rfl
  · rw [valuesSize_withBlock]
    exact Nat.le_add_right _ _
  · rw [blocksSize_withBlock]
    exact Nat.le_succ _
  · rw [value_withBlock_old g' tys hv, append_nil]
  · have hne : c ≠ g'.nextBlock := by
      rintro rfl
      exact Nat.not_lt.2 h.blocksLe hc
    rw [block_withBlock, if_neg hne]

theorem complete (h : Extends g g' b) (hi : g.ops.size ≤ i.idx) (hlt : i.idx < g'.ops.size)
    (operands : List ValueId) (tys : List Ty) {body : Option BlockId}
    (hbody : ∀ c, body = some c → g.blocks.size ≤ c.idx) :
    Extends g (g'.complete i operands tys body) b := by
  refine h.edited (opsSize_complete ▸ Nat.le_refl _) ?_ (blocksSize_complete ▸ Nat.le_refl _)
    (fun j hj => ?_)
    (fun v hv => ⟨_, g'.value_complete_old i operands body tys hv,
      fun u hu => (mem_usesOf.1 hu).1 ▸ hi⟩)
    (fun v hv => g'.uses_complete_new i operands body tys hv) (fun c hc => ?_) funcs_complete
  · rw [valuesSize_complete]
    exact Nat.le_add_right _ _
  · have hne : i ≠ j := by
      rintro rfl
      exact Nat.not_lt.2 hi hj
    rw [op_complete hlt, if_neg hne]
  · rw [block_complete, if_neg]
    rintro ⟨hb, -⟩
    exact Nat.not_lt.2 (hbody c hb) hc

theorem put (h : Extends g g' (some c)) (hi : g.ops.size ≤ i.idx) (ops : List OpId) :
    Extends g (g'.put c ops i) (some c) := by
  have hblock {d : BlockId} : ((g'.put c ops i).block d).args = (g'.block d).args ∧
      ((g'.put c ops i).block d).parentOp = (g'.block d).parentOp ∧
      ((g'.put c ops i).block d).func = (g'.block d).func := by
    rw [block_put]
    split <;> exact ⟨rfl, rfl, rfl⟩
  refine
    { opsLe := ?_
      valuesLe := h.valuesLe
      blocksLe := ?_
      op := ?_
      ty := h.ty
      owner := h.owner
      index := h.index
      users := h.users
      block := ?_
      args := fun d hd => hblock.1.trans (h.args d hd)
      parentOp := fun d hd => hblock.2.1.trans (h.parentOp d hd)
      func := fun d hd => hblock.2.2.trans (h.func d hd)
      funcs := h.funcs }
  · rw [opsSize_put]
    exact h.opsLe
  · rw [blocksSize_put]
    exact h.blocksLe
  · intro j hj
    have hne : i ≠ j := by
      rintro rfl
      exact Nat.not_lt.2 hi hj
    rw [op_put, if_neg fun heq => hne heq.1]
    exact h.op j hj
  · intro d hd hne
    rw [block_put, if_neg fun heq => hne (congrArg _ heq.1.symm)]
    exact h.block d hd hne

end Extends

/-! ## 2. Trees in a graph that grows -/

section Trees

variable {g g' : Graph} {b : Option BlockId} {ns : List Node}

variable {n : Node} {V : List ValueId}

/-- A node only looks at its operation, its body, the types of its results and the use lists. -/
theorem Node.Here.congr (hn : Here g n) (hop : g'.op n.id = g.op n.id)
    (hargs : ∀ c, n.body = some c → (g'.block c).args = (g.block c).args)
    (hops : ∀ c, n.body = some c → (g'.block c).ops = (g.block c).ops)
    (hty : ∀ v ∈ n.head.results, g'.ty v = g.ty v)
    (huses : ∀ k v, n.head.operands[k]? = some v → ⟨n.id, k⟩ ∈ (g.value v).uses →
      ⟨n.id, k⟩ ∈ (g'.value v).uses)
    (hplaced : ∀ m ∈ n.nodes, (g'.op m.id).parent = (g.op m.id).parent) : Here g' n where
  kind := by
    rw [Graph.kind, hop]
    exact hn.kind
  operands := hop ▸ hn.operands
  results := hop ▸ hn.results
  attr := hop ▸ hn.attr
  tys := hn.tys.trans (map_congr_left fun v hv => (hty v hv).symm)
  body := hop ▸ hn.body
  present := hop ▸ hn.present
  used k v hv := huses k v hv (hn.used k v hv)
  bodyArgs c hc := (hargs c hc).trans (hn.bodyArgs c hc)
  bodyOps c hc := (hops c hc).trans (hn.bodyOps c hc)
  noBody := hn.noBody
  placed m hm := (hplaced m hm).trans (hn.placed m hm)

theorem Extends.here (h : Extends g g' b) (hg : Sane g) (hn : Here g n)
    (hlt : n.id.idx < g.ops.size) (hb : ∀ c, n.body = some c → some c ≠ b) : Here g' n := by
  have hbody {c : BlockId} (hc : n.body = some c) : g'.block c = g.block c :=
    h.block c (hg.body n.id c (hn.body.trans hc)) (hb c hc)
  refine hn.congr (h.op n.id hlt) (fun c hc => by rw [hbody hc]) (fun c hc => by rw [hbody hc])
    (fun v hv => h.ty v (owner_of_mem_results hg (hn.results ▸ hv)).1)
    (fun k v _ hu => h.uses v _ hu) fun m hm => ?_
  obtain ⟨c, -, hmem⟩ := hn.child_mem hm
  rw [h.op m.id (hg.parent c _ hmem).1]

/-- A graph that grows elsewhere holds the trees that it held. -/
theorem Extends.held (h : Extends g g' b) (hg : Sane g) (hns : Held g ns)
    (hlt : ∀ n ∈ ns, n.id.idx < g.ops.size)
    (hb : ∀ m ∈ subsAll ns, ∀ c, m.body = some c → some c ≠ b) : Held g' ns := fun m hm =>
  h.here hg (hns m hm) (hns.ids_lt hg hlt m.id (mem_map_of_mem hm)) (hb m hm)

theorem Extends.natural (h : Extends g g' b) {P : Graph → Node → Prop} (hP : Natural P)
    (hn : ∀ v ∈ n.names, v.idx < g.values.size) (hp : P g n) : P g' n :=
  hP (like_refl n) (fun v hv => h.ty v (hn v hv)) hp

theorem operands_visible (h : ScopedAll V ns) :
    ∀ m ∈ subsAll ns, ∀ v ∈ m.head.operands, v ∈ V ++ defs ns := by
  induction ns using forest generalizing V with
  | nil => simp
  | cons n ns body rest =>
    intro m hm v hv
    obtain ⟨hn, hns⟩ := scopedAll_cons.1 h
    obtain ⟨hops, hnodes⟩ := scoped_iff.1 hn
    rw [defs_cons, defs_single]
    rcases mem_subsAll_cons.1 hm with rfl | hm | hm
    · exact mem_append_left _ (hops v hv)
    · have := body hnodes m hm v hv
      grind
    · have := rest hns m hm v hv
      grind

/-- All values that the nodes of trees mention are visible from outside or defined in the trees. -/
theorem names_visible (h : ScopedAll V ns) : ∀ m ∈ subsAll ns, ∀ v ∈ m.names, v ∈ V ++ defs ns := by
  intro m hm v hv
  simp only [names, mem_append, mem_flatMap] at hv
  rcases hv with ((hv | hv) | hv) | ⟨k, hk, hv⟩
  · exact operands_visible h m hm v hv
  · exact mem_append_right _ (mem_defs.2 ⟨m, hm, mem_append_left _ hv⟩)
  · exact mem_append_right _ (mem_defs.2 ⟨m, hm, mem_append_right _ hv⟩)
  · exact operands_visible h k (nodes_mem_subsAll hm hk) v hv

theorem Node.Held.defs_lt (hg : Sane g) (h : Held g ns) : ∀ v ∈ defs ns, v.idx < g.values.size := by
  intro v hv
  obtain ⟨m, hm, hvm⟩ := mem_defs.1 hv
  exact ((h m hm).own_owner hg hvm).1

end Trees

/-! ## 3. Emissions -/

/-- New operations are placed between `pre` and `post` in the block, where `V` is visible. -/
structure Start (V : List ValueId) (b : BlockId) (pre post : List OpId) (e : Editor) : Prop where
  sane : Sane e.graph
  place : Edit.AtPoint e b pre post
  visible : ∀ v ∈ V, v.idx < e.graph.values.size

/-- The trees `ns` have been placed between `pre` and `post` in the block, and nothing else has
changed.  Every node of them has the property `P`. -/
structure Emitted (P : Graph → Node → Prop) (V : List ValueId) (b : BlockId) (pre post : List OpId)
    (e e' : Editor) (ns : List Node) : Prop where
  grows : Extends e.graph e'.graph (some b)
  next : Start (outs ns ++ V) b (pre ++ ns.map Node.id) post e'
  point : e'.point = e.point
  held : Held e'.graph ns
  placed : ∀ n ∈ ns, (e'.graph.op n.id).parent = some b
  opsNew : ∀ m ∈ subsAll ns, e.graph.ops.size ≤ m.id.idx
  covers : ∀ i : OpId, e.graph.ops.size ≤ i.idx → i.idx < e'.graph.ops.size → i ∈ ids ns
  defsNew : ∀ v ∈ defs ns, e.graph.values.size ≤ v.idx
  inScope : ScopedAll V ns
  every : ∀ m ∈ subsAll ns, P e'.graph m

section Emissions

variable {P : Graph → Node → Prop} {V W : List ValueId} {b : BlockId} {pre post : List OpId}
  {e e' e'' : Editor} {ns ms : List Node}

theorem Start.congr (h : Start V b pre post e) (hw : ∀ v ∈ W, v ∈ V) {pre' : List OpId}
    (hpre : pre' = pre) : Start W b pre' post e :=
  ⟨h.sane, hpre ▸ h.place, fun v hv => h.visible v (hw v hv)⟩

/-- Nothing has been placed. -/
theorem Emitted.refl (h : Start V b pre post e) : Emitted P V b pre post e e [] where
  grows := .refl _ _
  next := h.congr (by simp [outs]) (by simp)
  point := rfl
  held := held_nil _
  placed := by simp
  opsNew := by simp
  covers _ hle hlt := absurd hlt (Nat.not_lt.2 hle)
  defsNew := by simp
  inScope := scopedAll_nil V
  every := by simp

section

variable {m : Node} (h : Emitted P V b pre post e e' ns)

include h

theorem Emitted.id_lt {n : Node} (hn : n ∈ ns) : n.id.idx < e'.graph.ops.size := by
  refine (h.next.sane.parent b n.id ?_).1
  rw [h.next.place.ops]
  exact mem_append_left _ (mem_append_right _ (mem_map_of_mem hn))

/-- The block that nodes are placed in is the body of none of them. -/
theorem Emitted.body_ne (he : Start V b pre post e) (hm : m ∈ subsAll ns) {c : BlockId}
    (hc : m.body = some c) :
    c ≠ b := by
  rintro rfl
  have howns := h.held.owns h.next.sane (fun n hn => h.next.sane.owns n.id c (h.placed n hn)) hm
  have howner := howns c ((h.held m hm).body.trans hc)
  rw [h.grows.parentOp c he.place.lt] at howner
  exact Nat.not_lt.2 (h.opsNew m hm) (he.sane.owner c m.id howner)

theorem Emitted.names_lt (hm : m ∈ subsAll ns) {v : ValueId} (hv : v ∈ m.names) :
    v.idx < e'.graph.values.size := by
  rcases mem_append.1 (names_visible h.inScope m hm v hv) with hv | hv
  · exact h.next.visible v (mem_append_right _ hv)
  · exact h.held.defs_lt h.next.sane v hv

end

/-- Emissions that follow one another. -/
theorem Emitted.trans (hP : Natural P) (he : Start V b pre post e)
    (h : Emitted P V b pre post e e' ns)
    (h' : Emitted P (outs ns ++ V) b (pre ++ ns.map Node.id) post e' e'' ms) :
    Emitted P V b pre post e e'' (ns ++ ms) where
  grows := h.grows.trans h'.grows
  next := h'.next.congr (by grind [outs_append]) (by simp)
  point := h'.point.trans h.point
  held := held_append.2 ⟨h'.grows.held h.next.sane h.held (fun _ hn => h.id_lt hn)
    fun m hm c hc heq => h.body_ne he hm hc (Option.some.inj heq), h'.held⟩
  placed n hn := by
    rcases mem_append.1 hn with hn | hn
    · rw [h'.grows.op n.id (h.id_lt hn)]
      exact h.placed n hn
    · exact h'.placed n hn
  opsNew m hm := by
    rcases mem_append.1 (subsAll_append ns ms ▸ hm) with hm | hm
    · exact h.opsNew m hm
    · exact Nat.le_trans h.grows.opsLe (h'.opsNew m hm)
  covers i hle hlt := by
    rw [ids_append, mem_append]
    rcases Nat.lt_or_ge i.idx e'.graph.ops.size with hi | hi
    · exact .inl (h.covers i hle hi)
    · exact .inr (h'.covers i hi hlt)
  defsNew v hv := by
    rcases mem_append.1 (defs_append ns ms ▸ hv) with hv | hv
    · exact h.defsNew v hv
    · exact Nat.le_trans h.grows.valuesLe (h'.defsNew v hv)
  inScope := scopedAll_append.2 ⟨h.inScope, h'.inScope⟩
  every m hm := by
    rcases mem_append.1 (subsAll_append ns ms ▸ hm) with hm | hm
    · exact h'.grows.natural hP (fun v hv => h.names_lt hm hv) (h.every m hm)
    · exact h'.every m hm

end Emissions

end ConvNest.Program
