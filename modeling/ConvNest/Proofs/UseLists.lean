/-
# Use lists are exact

The use list of a value names exactly the operands of operations that are not erased and that are
the value, each once.  `Exact` says so, with what it takes to keep it: everything that an entry
names is in the graph, and an operation that knows its block is in it.

It holds after every request to a rewriter, also after one that ended by a fault: an operation whose
body belonged to another one is left behind with its operands entered.
-/
import ConvNest.Proofs.Aftermath
import ConvNest.Proofs.Rewire
import ConvNest.Proofs.SaneCheck

namespace ConvNest.Program

open Graph List

/-- Use lists name the operands of the operations that are not erased. -/
structure Exact (g : Graph) : Prop where
  tidy : Tidy g
  listed : ∀ i, (g.op i).erased = false → Listed g i
  live : ∀ v u, u ∈ (g.value v).uses → (g.op u.op).erased = false
  operands : ∀ i, ∀ v ∈ (g.op i).operands, v.idx < g.values.size
  results : ∀ i, ∀ v ∈ (g.op i).results, v.idx < g.values.size
  args : ∀ b, ∀ v ∈ (g.block b).args, v.idx < g.values.size
  placed : ∀ i b, (g.op i).parent = some b → i ∈ (g.block b).ops

theorem Graph.op_nextOp (g : Graph) : g.op g.nextOp = default := op_of_le _ (Nat.le_refl _)

theorem Graph.block_nextBlock (g : Graph) : g.block g.nextBlock = default :=
  block_of_le _ (Nat.le_refl _)

/-- The graph in which an operation has its operands, and they are entered in the use lists. -/
def Graph.entered (g : Graph) (i : OpId) (operands : List ValueId) (body : Option BlockId) :
    Graph :=
  (g.modifyOp i fun x => { x with operands := operands, body := body }).addUses i operands 0

section Entered

variable {g : Graph} {i : OpId} (operands : List ValueId) (body : Option BlockId)

theorem Graph.op_entered (hi : i.idx < g.ops.size) (j : OpId) :
    (g.entered i operands body).op j =
      if i = j then { g.op j with operands := operands, body := body } else g.op j := by
  rw [entered, op_addUses, op_modifyOp]
  simp [hi]

theorem Graph.uses_entered {v : ValueId} (hv : v.idx < g.values.size) :
    ((g.entered i operands body).value v).uses = (g.value v).uses ++ usesOf i v operands 0 := by
  rw [entered, value_addUses, value_modifyOp, values_modifyOp, if_pos hv]

theorem Graph.uses_entered_of_le {v : ValueId} (hv : g.values.size ≤ v.idx) :
    ((g.entered i operands body).value v).uses = [] := by
  rw [entered, value_addUses, value_modifyOp, values_modifyOp, if_neg (Nat.not_lt.2 hv),
    g.value_of_le hv]
  rfl

theorem Graph.valuesSize_entered : (g.entered i operands body).values.size = g.values.size := by
  rw [entered, valuesSize_addUses, values_modifyOp]

theorem Graph.block_entered (b : BlockId) : (g.entered i operands body).block b = g.block b := by
  rw [entered, block_addUses, block_modifyOp]

/-- A use is an old one or one of the operation. -/
theorem Graph.mem_uses_entered {v : ValueId} {u : Use}
    (h : u ∈ ((g.entered i operands body).value v).uses) : u ∈ (g.value v).uses ∨ u.op = i := by
  rcases Nat.lt_or_ge v.idx g.values.size with hv | hv
  · rw [uses_entered operands body hv] at h
    exact (mem_append.1 h).imp id fun hu => (mem_usesOf.1 hu).1
  · rw [uses_entered_of_le operands body hv] at h
    cases h

end Entered

/-- An operation that has a name and no operands yet. -/
structure Open (g : Graph) (i : OpId) : Prop extends Sane.Reserved g i where
  live : (g.op i).erased = false

namespace Exact

variable {g g' : Graph} {u : Use} {i : OpId}

theorem mem_uses (hg : Exact g) {v : ValueId} : u ∈ (g.value v).uses ↔
    u.op.idx < g.ops.size ∧ (g.op u.op).erased = false ∧
      (g.op u.op).operands[u.index]? = some v := by
  constructor
  · intro h
    exact ⟨use_op_lt hg.tidy h, hg.live v u h, hg.tidy.used v u h⟩
  · rintro ⟨-, hlive, hop⟩
    exact hg.listed u.op hlive u.index v hop

/-! ## 1. Entries that change nothing about uses -/

/-- Some operations are erased: the use lists no longer name them, and nothing else about uses has
changed. -/
theorem forget {D : List OpId} (hg : Exact g)
    (huses : ∀ v, (g'.value v).uses.Sublist (g.value v).uses)
    (hmem : ∀ v, ∀ u ∈ (g.value v).uses, u ∈ (g'.value v).uses ↔ u.op ∉ D)
    (hsize : g.values.size ≤ g'.values.size) (hop : ∀ j, (g'.op j).operands = (g.op j).operands)
    (herased : ∀ j, j.idx < g.ops.size → (g'.op j).erased = ((g.op j).erased || decide (j ∈ D)))
    (hresults : ∀ j, ∀ v ∈ (g'.op j).results, v.idx < g'.values.size)
    (hargs : ∀ b, ∀ v ∈ (g'.block b).args, v.idx < g'.values.size)
    (hplaced : ∀ j b, (g'.op j).parent = some b → j ∈ (g'.block b).ops) : Exact g' := by
  refine ⟨⟨?_, ?_⟩, ?_, ?_, ?_, hresults, hargs, hplaced⟩
  · intro v u hu
    rw [hop]
    exact hg.tidy.used v u ((huses v).subset hu)
  · exact fun v => (hg.tidy.usesNodup v).sublist (huses v)
  · intro j hj k v hk
    rw [hop] at hk
    rw [herased j (lt_of_operand hk), Bool.or_eq_false_iff, decide_eq_false_iff_not] at hj
    exact (hmem v _ (hg.listed j hj.1 k v hk)).2 hj.2
  · intro v u hu
    have hold := (huses v).subset hu
    rw [herased u.op (use_op_lt hg.tidy hold), hg.live v u hold, Bool.false_or,
      decide_eq_false_iff_not]
    exact (hmem v u hold).1 hu
  · intro j v hv
    rw [hop] at hv
    exact Nat.lt_of_lt_of_le (hg.operands j v hv) hsize

/-- Nothing about uses has changed. -/
theorem of_uses (hg : Exact g) (huses : ∀ v, (g'.value v).uses = (g.value v).uses)
    (hsize : g.values.size ≤ g'.values.size)
    (hop : ∀ j, (g'.op j).operands = (g.op j).operands ∧ (g'.op j).erased = (g.op j).erased)
    (hresults : ∀ j, ∀ v ∈ (g'.op j).results, v ∈ (g.op j).results ∨ v.idx < g'.values.size)
    (hargs : ∀ b, ∀ v ∈ (g'.block b).args, v ∈ (g.block b).args ∨ v.idx < g'.values.size)
    (hplaced : ∀ j b, (g'.op j).parent = some b →
      (g.op j).parent = some b ∧ (g'.block b).ops = (g.block b).ops ∨ j ∈ (g'.block b).ops) :
        Exact g' := by
  refine hg.forget (D := []) (fun v => by rw [huses]) (fun v u hu => by simp [huses, hu]) hsize
    (fun j => (hop j).1) (fun j _ => by simp [(hop j).2]) (fun j v hv => ?_) (fun b v hv => ?_)
    fun j b hb => ?_
  · exact (hresults j v hv).elim (fun h => Nat.lt_of_lt_of_le (hg.results j v h) hsize) id
  · exact (hargs b v hv).elim (fun h => Nat.lt_of_lt_of_le (hg.args b v h) hsize) id
  · exact (hplaced j b hb).elim (fun h => h.2 ▸ hg.placed j b h.1) id

theorem empty : Exact Graph.empty where
  tidy := Sane.empty.tidy
  listed i _ k v h := by simp [Graph.empty, Graph.op] at h
  live v u h := by simp [Graph.empty, Graph.value] at h
  operands i v h := by simp [Graph.empty, Graph.op] at h
  results i v h := by simp [Graph.empty, Graph.op] at h
  args b v h := by simp [Graph.empty, Graph.block] at h
  placed i b h := by
    cases h

/-- Nothing depends on where blocks belong, nor on functions. -/
theorem of_entries (hg : Exact g) (hop : ∀ i, g'.op i = g.op i)
    (hvalue : ∀ v, g'.value v = g.value v) (hsize : g'.values.size = g.values.size)
    (hargs : ∀ b, (g'.block b).args = (g.block b).args)
    (hops : ∀ b, (g'.block b).ops = (g.block b).ops) : Exact g' :=
  hg.of_uses (fun v => by rw [hvalue]) (Nat.le_of_eq hsize.symm) (fun j => by simp [hop])
    (fun j v hv => .inl (hop j ▸ hv)) (fun b v hv => .inl (hargs b ▸ hv))
    fun j b hb => .inl ⟨hop j ▸ hb, hops b⟩

theorem pushOp (hg : Exact g) (kind : Kind) (attr : Attr) :
    Exact (g.pushOp ⟨kind, [], [], attr, none, none, false⟩) := by
  have hop (j : OpId) : ∃ k a, (g.pushOp ⟨kind, [], [], attr, none, none, false⟩).op j =
      { g.op j with kind := k, attr := a } := by
    rw [op_pushOp]
    split
    · next heq => exact ⟨kind, attr, by rw [heq, op_nextOp]; rfl⟩
    · exact ⟨_, _, rfl⟩
  refine hg.of_uses (fun _ => rfl) (Nat.le_refl _) (fun j => ?_) (fun j v hv => ?_)
    (fun _ _ hv => .inl hv) fun j b hb => ?_
  all_goals obtain ⟨k, a, hj⟩ := hop j
  · rw [hj]
    exact ⟨rfl, rfl⟩
  · rw [hj] at hv
    exact .inl hv
  · rw [hj] at hb
    exact .inl ⟨hb, rfl⟩

/-- New values are used by nothing. -/
theorem pushValues (hg : Exact g) (owner : Owner) (tys : List Ty) :
    Exact (g.pushValues (freshValues owner tys)) := by
  refine hg.of_uses (fun v => ?_) (by simp) (fun _ => ⟨rfl, rfl⟩) (fun _ _ hv => .inl hv)
    (fun _ _ hv => .inl hv) fun _ _ hb => .inl ⟨hb, rfl⟩
  by_cases hv : v.idx < g.values.size
  · rw [value_pushValues_old _ _ hv]
  · rw [uses_pushValues _ _ _ (Nat.le_of_not_lt hv), g.value_of_le (Nat.le_of_not_lt hv)]
    rfl

theorem withBlock (hg : Exact g) (tys : List Ty) : Exact (g.withBlock tys) := by
  have hvalues := hg.pushValues (.argument g.nextBlock) tys
  refine hvalues.of_uses (fun _ => rfl) (Nat.le_refl _) (fun _ => ⟨rfl, rfl⟩)
    (fun _ _ hv => .inl hv) (fun b v hv => ?_) fun i b hi => ?_
  · rw [block_withBlock] at hv
    split at hv
    · exact .inr (by simpa using ((mem_nextValues _).1 hv).2)
    · exact .inl hv
  · rw [block_withBlock]
    split
    · next heq =>
      have hmem := hg.placed i b hi
      rw [heq, block_nextBlock] at hmem
      cases hmem
    · exact .inl ⟨hi, rfl⟩

/-! ## 2. Operations -/

/-- An operation gets its operands. -/
theorem enter (hg : Exact g) (hi : Open g i) {operands : List ValueId}
    (hops : ∀ v ∈ operands, v.idx < g.values.size) (body : Option BlockId) :
    Exact (g.entered i operands body) := by
  have hop := op_entered operands body hi.lt
  have hsize := valuesSize_entered (g := g) (i := i) operands body
  refine
    { tidy := hg.tidy.enters operands hi.operands (fun j => ?_) fun v => ?_
      listed := fun j hj k v h => ?_
      live := fun v u h => ?_
      operands := fun j v h => ?_
      results := fun j v h => ?_
      args := fun b v h => ?_
      placed := fun j b h => ?_ }
  · rw [hop]
    split <;> rfl
  · rcases Nat.lt_or_ge v.idx g.values.size with hv | hv
    · exact .inl (uses_entered operands body hv)
    · exact .inr (uses_entered_of_le operands body hv)
  · rw [hop] at hj h
    split at h
    · next heq =>
      subst heq
      rw [uses_entered operands body (hops v (mem_of_getElem? h))]
      exact mem_append_right _ (mem_usesOf.2 ⟨rfl, Nat.zero_le _, by simpa using h⟩)
    · next hne =>
      rw [if_neg hne] at hj
      have hold := hg.listed j hj k v h
      rw [uses_entered operands body (lt_of_use hold)]
      exact mem_append_left _ hold
  · rw [hop]
    rcases mem_uses_entered operands body h with hu | rfl
    · have hlive := hg.live v u hu
      split <;> exact hlive
    · rw [if_pos rfl]
      exact hi.live
  · rw [hop] at h
    rw [hsize]
    split at h
    · exact hops v h
    · exact hg.operands j v h
  · rw [hop] at h
    rw [hsize]
    refine hg.results j v ?_
    split at h <;> exact h
  · rw [block_entered] at h
    rw [hsize]
    exact hg.args b v h
  · rw [block_entered]
    rw [hop] at h
    refine hg.placed j b ?_
    split at h <;> exact h

/-- An operation gets its results. -/
theorem setResults (hg : Exact g) (i : OpId) {results : List ValueId}
    (h : ∀ v ∈ results, v.idx < g.values.size) :
    Exact (g.modifyOp i fun x => { x with results := results }) := by
  refine hg.of_uses (fun _ => rfl) (Nat.le_refl _) (fun j => ?_) (fun j v hv => ?_)
    (fun _ _ hv => .inl hv) fun j b hb => ?_
  · rw [op_modifyOp]
    split <;> exact ⟨rfl, rfl⟩
  · rw [op_modifyOp] at hv
    split at hv
    · exact .inr (h v hv)
    · exact .inl hv
  · rw [op_modifyOp] at hb
    split at hb <;> exact .inl ⟨hb, rfl⟩

/-- An operation is placed in a block. -/
theorem put (hg : Exact g) {b : BlockId} (hb : b.idx < g.blocks.size) {ops : List OpId}
    (hi : i ∈ ops) (hops : ∀ j ∈ (g.block b).ops, j ∈ ops) : Exact (g.put b ops i) := by
  refine hg.of_uses (fun _ => rfl) (Nat.le_refl _) (fun j => ?_) (fun j v hv => .inl ?_)
    (fun c v hv => .inl ?_) fun j c hc => ?_
  · rw [op_put]
    split <;> exact ⟨rfl, rfl⟩
  · rw [op_put] at hv
    split at hv <;> exact hv
  · rw [block_put] at hv
    split at hv <;> exact hv
  · rw [op_put] at hc
    rw [block_put]
    split at hc
    · next h =>
      cases hc
      rw [if_pos ⟨rfl, hb⟩]
      exact .inr (h.1 ▸ hi)
    · split
      · next h => exact .inr (hops j (h.1 ▸ hg.placed j c hc))
      · exact .inl ⟨hc, rfl⟩

/-! ## 3. Rewiring and erasing -/

theorem reassign (hg : Exact g) {old new : ValueId} (hu : u ∈ (g.value old).uses) (hne : old ≠ new)
    (hnew : new.idx < g.values.size) : Exact (g.reassign u old new) := by
  have hop (j : OpId) : ∃ os, (g.reassign u old new).op j = { g.op j with operands := os } := by
    rw [op_reassign]
    split <;> exact ⟨_, rfl⟩
  refine ⟨hg.tidy.reassign hu hne hnew, ?_, ?_, ?_, ?_, ?_, ?_⟩
  · intro j hj
    obtain ⟨os, hos⟩ := hop j
    rw [hos] at hj
    exact (hg.listed j hj).reassign hg.tidy hu hne hnew
  · intro v w hw
    obtain ⟨os, hos⟩ := hop w.op
    rw [hos]
    rw [mem_uses_reassign hg.tidy hu hne hnew] at hw
    split at hw
    · next heq => exact heq ▸ hg.live old u hu
    · exact hg.live v w hw
  · intro j v hv
    rw [valuesSize_reassign]
    obtain ⟨k, hk⟩ := getElem?_of_mem hv
    rw [operands_reassign hg.tidy hu] at hk
    split at hk
    · exact Option.some.inj hk ▸ hnew
    · exact hg.operands j v (mem_of_getElem? hk)
  · intro j v hv
    obtain ⟨os, hos⟩ := hop j
    rw [hos] at hv
    rw [valuesSize_reassign]
    exact hg.results j v hv
  · intro b v hv
    rw [valuesSize_reassign]
    exact hg.args b v hv
  · intro j b hb
    obtain ⟨os, hos⟩ := hop j
    rw [hos] at hb
    exact hg.placed j b hb

/-- What is asked of the entry of an operation, if the graph is sane. -/
def Entry (g : Graph) (i : OpId) : Prop :=
  ((g.op i).erased = false → ∀ p ∈ (g.op i).operands.zipIdx, ⟨i, p.2⟩ ∈ (g.value p.1).uses) ∧
  (∀ v ∈ (g.op i).operands, v.idx < g.values.size) ∧
    ∀ b ∈ (g.op i).parent.toList, i ∈ (g.block b).ops

instance (g : Graph) (i : OpId) : Decidable (Entry g i) :=
  inferInstanceAs (Decidable (_ ∧ _ ∧ _))

/-- The use lists of a sane graph are exact if the entries in use say so. -/
theorem of_sane (hs : Sane g) (hops : ∀ k < g.ops.size, Entry g ⟨k⟩)
    (hlive : ∀ k < g.values.size, ∀ u ∈ (g.value ⟨k⟩).uses, (g.op u.op).erased = false) :
    Exact g := by
  have hentry (i : OpId) : Entry g i := by
    by_cases hlt : i.idx < g.ops.size
    · exact hops i.idx hlt
    · rw [Entry, op_of_le _ (Nat.not_lt.1 hlt)]
      exact ⟨fun _ => by simp, by simp, fun b hb => absurd (Option.mem_toList.1 hb)
        (Option.some_ne_none b).symm⟩
  refine ⟨hs.tidy, fun i hi k v hk => ?_, fun v u hu => ?_, fun i => (hentry i).2.1,
    fun i v hv => ?_, fun b v hv => ?_, fun i b hb => (hentry i).2.2 b (Option.mem_toList.2 hb)⟩
  · exact (hentry i).1 hi (v, k) (mk_mem_zipIdx_iff_getElem?.2 hk)
  · exact hlive v.idx (lt_of_use hu) u hu
  · obtain ⟨k, hk⟩ := getElem?_of_mem hv
    exact (hs.results i k v hk).1
  · obtain ⟨k, hk⟩ := getElem?_of_mem hv
    exact (hs.args b k v hk).1

end Exact

end ConvNest.Program
