/-
# Replacing and erasing operations

An operation whose use list entries are all there is `Listed`.  The operands of such an operation
follow a replacement of uses: `Moved` says so for one value, and `Rewired` for the results of an
operation that is replaced and erased.
-/
import ConvNest.Proofs.SaneEdit

namespace ConvNest.Program

open Graph List

/-- Every operand of an operation is entered in the use list of its value. -/
def Listed (g : Graph) (j : OpId) : Prop :=
  ∀ k v, (g.op j).operands[k]? = some v → ⟨j, k⟩ ∈ (g.value v).uses

/-! ## 1. One operand -/

namespace Graph

/-- The graph in which an operand that is `old` has become `new`. -/
def reassign (g : Graph) (u : Use) (old new : ValueId) : Graph :=
  ((g.modifyValue old fun x => { x with uses := x.uses.erase u }).modifyOp u.op fun x =>
    { x with operands := x.operands.set u.index new }).modifyValue new fun x =>
      { x with uses := x.uses ++ [u] }

variable (g : Graph) (u : Use) (old new : ValueId)

theorem op_reassign (j : OpId) : (g.reassign u old new).op j =
    if u.op = j ∧ u.op.idx < g.ops.size then
      { g.op j with operands := (g.op j).operands.set u.index new }
    else g.op j := by
  simp only [reassign, op_modifyValue, op_modifyOp]
  rfl

theorem opsSize_reassign : (g.reassign u old new).ops.size = g.ops.size := by simp [reassign]

theorem valuesSize_reassign : (g.reassign u old new).values.size = g.values.size := by
  simp [reassign]

theorem blocks_reassign : (g.reassign u old new).blocks = g.blocks := rfl

theorem funcs_reassign : (g.reassign u old new).funcs = g.funcs := rfl

theorem uses_reassign {v : ValueId} (hv : v.idx < g.values.size) :
    ((g.reassign u old new).value v).uses =
      (if old = v then (g.value v).uses.erase u else (g.value v).uses) ++
        if new = v then [u] else [] := by
  simp only [reassign]
  by_cases hold : old = v <;> by_cases hnew : new = v <;> subst_vars <;> simp_all

theorem value_reassign (v : ValueId) : ∃ us, (g.reassign u old new).value v =
    { g.value v with uses := us } := by
  simp only [reassign, value_modifyValue, value_modifyOp]
  split <;> split <;> exact ⟨_, rfl⟩

end Graph

section Reassign

variable {g : Graph} {u : Use} {old new : ValueId}

theorem use_op_lt (hg : Tidy g) {v : ValueId} (h : u ∈ (g.value v).uses) :
    u.op.idx < g.ops.size :=
  lt_of_operand (hg.used v u h)

section

variable (hg : Tidy g) (hu : u ∈ (g.value old).uses)

include hg hu

/-- The operands after one of them has been reassigned. -/
theorem operands_reassign (j : OpId) (k : Nat) :
    ((g.reassign u old new).op j).operands[k]? =
      if u = ⟨j, k⟩ then some new else (g.op j).operands[k]? := by
  have hin := hg.used old u hu
  rw [op_reassign]
  by_cases hj : u.op = j
  · subst hj
    rw [if_pos ⟨rfl, use_op_lt hg hu⟩]
    by_cases hk : u.index = k
    · subst hk
      simp [getElem?_set_self (List.getElem?_eq_some_iff.1 hin).1]
    · rw [if_neg fun h => hk (congrArg Use.index h)]
      simp [getElem?_set_ne hk]
  · rw [if_neg fun h => hj h.1, if_neg fun h => hj (congrArg Use.op h)]

theorem mem_uses_reassign (hne : old ≠ new) (hnew : new.idx < g.values.size) {v : ValueId}
    {w : Use} :
    w ∈ ((g.reassign u old new).value v).uses ↔
      if w = u then v = new else w ∈ (g.value v).uses := by
  by_cases hv : v.idx < g.values.size
  · rw [uses_reassign _ _ _ _ hv]
    have huses := hg.usesNodup v
    by_cases hw : w = u
    · subst hw
      by_cases ho : old = v
      · subst ho
        simp [huses.not_mem_erase, hne, hne.symm]
      · have hnot : w ∉ (g.value v).uses := fun h =>
          ho (Option.some.inj ((hg.used old w hu).symm.trans (hg.used v w h)))
        by_cases hn : new = v
        · simp [hn]
        · simp [ho, hn, hnot, Ne.symm hn]
    · rw [if_neg hw]
      by_cases ho : old = v
      · subst ho
        simp [mem_erase_of_ne hw, hne.symm]
      · by_cases hn : new = v <;> simp [ho, hw]
  · have hle := Nat.le_of_not_lt hv
    rw [value_of_le _ (by rw [valuesSize_reassign]; exact hle), g.value_of_le hle]
    by_cases hw : w = u
    · have hvn : v ≠ new := by
        rintro rfl
        exact hv hnew
      simp [hvn]
    · simp [hw]

theorem Tidy.reassign (hne : old ≠ new) (hnew : new.idx < g.values.size) :
    Tidy (g.reassign u old new) := by
  refine ⟨?_, ?_⟩
  · intro v w h
    rw [mem_uses_reassign hg hu hne hnew] at h
    rw [operands_reassign hg hu]
    by_cases hw : w = u
    · rw [if_pos hw] at h
      rw [if_pos (by cases w; exact hw.symm), h]
    · rw [if_neg hw] at h
      rw [if_neg fun heq => hw (by cases w; exact heq.symm)]
      exact hg.used v w h
  · intro v
    by_cases hv : v.idx < g.values.size
    · rw [uses_reassign _ _ _ _ hv]
      have huses := hg.usesNodup v
      by_cases ho : old = v
      · subst ho
        simpa [hne.symm] using huses.erase u
      · by_cases hn : new = v
        · have hnot : u ∉ (g.value v).uses := fun h =>
            ho (Option.some.inj ((hg.used old u hu).symm.trans (hg.used v u h)))
          simpa [ho, hn, nodup_append] using ⟨huses, fun w hw heq => hnot (heq ▸ hw)⟩
        · simpa [ho, hn] using huses
    · rw [value_of_le _ (by rw [valuesSize_reassign]; exact Nat.le_of_not_lt hv)]
      exact nodup_nil

end

theorem Sane.reassign (hg : Sane g) (hu : u ∈ (g.value old).uses) (hne : old ≠ new)
    (hnew : new.idx < g.values.size) : Sane (g.reassign u old new) := by
  have hop (j : OpId) : ∃ os, (g.reassign u old new).op j = { g.op j with operands := os } := by
    rw [op_reassign]
    split <;> exact ⟨_, rfl⟩
  refine hg.of_entries (hg.tidy.reassign hu hne hnew)
    ⟨opsSize_reassign _ _ _ _, valuesSize_reassign _ _ _ _, rfl⟩ (fun j => ?_) (fun j b h => ?_)
    (fun v => ?_) (fun _ => ⟨rfl, rfl⟩) (fun b j h => ?_) hg.opsNodup
  · obtain ⟨os, hos⟩ := hop j
    rw [hos]
    exact ⟨rfl, rfl⟩
  · obtain ⟨os, hos⟩ := hop j
    rw [hos] at h
    exact hg.owns j b h
  · obtain ⟨us, hus⟩ := g.value_reassign u old new v
    rw [hus]
    exact ⟨rfl, rfl⟩
  · obtain ⟨os, hos⟩ := hop j
    rw [hos]
    exact hg.parent b j h

theorem Listed.reassign (hg : Tidy g) (hu : u ∈ (g.value old).uses) (hne : old ≠ new)
    (hnew : new.idx < g.values.size) {j : OpId} (hj : Listed g j) :
    Listed (g.reassign u old new) j := by
  intro k v h
  rw [operands_reassign hg hu] at h
  rw [mem_uses_reassign hg hu hne hnew]
  by_cases hjk : u = ⟨j, k⟩
  · rw [if_pos hjk] at h
    rw [if_pos hjk.symm]
    exact (Option.some.inj h).symm
  · rw [if_neg hjk] at h
    rw [if_neg fun heq => hjk heq.symm]
    exact hj k v h

end Reassign

/-! ## 2. All uses of a value -/

/-- The value that takes the place of a value, where `ps` are replaced one after the other. -/
def moved (ps : List (ValueId × ValueId)) (v : ValueId) : ValueId :=
  ps.foldl (fun v p => if v = p.1 then p.2 else v) v

/-- Only operands and use lists have changed. -/
structure Rerouted (g g' : Graph) : Prop where
  sane : Sane g'
  opsSize : g'.ops.size = g.ops.size
  valuesSize : g'.values.size = g.values.size
  blocks : g'.blocks = g.blocks
  funcs : g'.funcs = g.funcs
  value : ∀ v, ∃ us, g'.value v = { g.value v with uses := us }
  op : ∀ j, ∃ os, g'.op j = { g.op j with operands := os }

namespace Rerouted

variable {g g' g'' : Graph}

theorem refl (hg : Sane g) : Rerouted g g :=
  ⟨hg, rfl, rfl, rfl, rfl, fun _ => ⟨_, rfl⟩, fun _ => ⟨_, rfl⟩⟩

theorem trans (h : Rerouted g g') (h' : Rerouted g' g'') : Rerouted g g'' where
  sane := h'.sane
  opsSize := h'.opsSize.trans h.opsSize
  valuesSize := h'.valuesSize.trans h.valuesSize
  blocks := h'.blocks.trans h.blocks
  funcs := h'.funcs.trans h.funcs
  value v := by
    obtain ⟨us, hus⟩ := h.value v
    obtain ⟨us', hus'⟩ := h'.value v
    exact ⟨us', by rw [hus', hus]⟩
  op j := by
    obtain ⟨os, hos⟩ := h.op j
    obtain ⟨os', hos'⟩ := h'.op j
    exact ⟨os', by rw [hos', hos]⟩

theorem block (h : Rerouted g g') (b : BlockId) : g'.block b = g.block b := by
  unfold Graph.block
  rw [h.blocks]

theorem reassign {u : Use} {old new : ValueId} (hg : Sane g) (hu : u ∈ (g.value old).uses)
    (hne : old ≠ new) (hnew : new.idx < g.values.size) : Rerouted g (g.reassign u old new) where
  sane := hg.reassign hu hne hnew
  opsSize := opsSize_reassign ..
  valuesSize := valuesSize_reassign ..
  blocks := blocks_reassign ..
  funcs := funcs_reassign ..
  value := value_reassign g u old new
  op j := by
    rw [op_reassign]
    split
    all_goals exact ⟨_, rfl⟩

end Rerouted

/-- The uses of values have been replaced: the operands of listed operations have followed. -/
structure Moved (ps : List (ValueId × ValueId)) (g g' : Graph) : Prop extends Rerouted g g' where
  operands : ∀ j, Listed g j → (g'.op j).operands = (g.op j).operands.map (moved ps) ∧ Listed g' j

namespace Moved

variable {ps qs : List (ValueId × ValueId)} {g g' g'' : Graph}

theorem refl (hg : Sane g) : Moved [] g g :=
  ⟨.refl hg, fun _ hj => ⟨(map_id _).symm, hj⟩⟩

theorem trans (h : Moved ps g g') (h' : Moved qs g' g'') : Moved (ps ++ qs) g g'' where
  toRerouted := h.toRerouted.trans h'.toRerouted
  operands j hj := by
    obtain ⟨h1, hj'⟩ := h.operands j hj
    obtain ⟨h2, hj''⟩ := h'.operands j hj'
    refine ⟨?_, hj''⟩
    rw [h2, h1, map_map]
    exact map_congr_left fun v _ => by simp [moved]

end Moved

namespace Edit

variable {e : Editor} {new old : ValueId} {u : Use}

theorem setOperand_eq (h : (e.graph.op u.op).operands[u.index]? = some old) :
    setOperand u.op u.index new e = .ok () (onGraph e (e.graph.reassign u old new)) :=
  state_bind_ok _ rfl (state_bind_ok old (lift_ok.2 ⟨itemAt_ok.2 h, rfl⟩) rfl)

/-- The state in which some of the uses of a value have been reassigned. -/
structure Reassigned (old new : ValueId) (g₀ g : Graph) (done : List Use) :
    Prop extends Rerouted g₀ g where
  operands : ∀ j k, (g.op j).operands[k]? =
    if ⟨j, k⟩ ∈ done then some new else (g₀.op j).operands[k]?
  listed : ∀ j, Listed g₀ j → Listed g j
  left : ∀ v, v ≠ new → ∀ u, u ∈ (g.value v).uses ↔ u ∈ (g₀.value v).uses ∧ u ∉ done

variable {g g₀ : Graph} {done : List Use}

theorem Reassigned.refl (hg : Sane g) (old new : ValueId) : Reassigned old new g g [] :=
  ⟨.refl hg, by simp, fun _ hj => hj, by simp⟩

theorem reassigned_step (h : Reassigned old new g₀ g done) (hu : u ∈ (g.value old).uses)
    (hne : old ≠ new) (hnew : new.idx < g₀.values.size) :
    Reassigned old new g₀ (g.reassign u old new) (done ++ [u]) := by
  have hnew' : new.idx < g.values.size := h.valuesSize ▸ hnew
  refine ⟨h.toRerouted.trans (.reassign h.sane hu hne hnew'), ?_, ?_, ?_⟩
  · intro j k
    rw [operands_reassign h.sane.tidy hu, h.operands]
    by_cases hjk : u = ⟨j, k⟩
    · simp [hjk]
    · have hjk' : ¬ (⟨j, k⟩ : Use) = u := fun heq => hjk heq.symm
      simp [hjk, hjk']
  · exact fun j hj => (h.listed j hj).reassign h.sane.tidy hu hne hnew'
  · intro v hv w
    rw [mem_uses_reassign h.sane.tidy hu hne hnew', mem_append, mem_singleton, not_or]
    by_cases hw : w = u
    · simp [hw, hv]
    · simp [hw, h.left v hv]

theorem reassign_all (hne : old ≠ new) (hnew : new.idx < g₀.values.size) (us : List Use)
    (hr : Reassigned old new g₀ e.graph done) (hus : us.Nodup)
    (hin : ∀ u ∈ us, u ∈ (e.graph.value old).uses) :
    ∃ g, us.forM (fun u => setOperand u.op u.index new) e = .ok () (onGraph e g) ∧
      Reassigned old new g₀ g (done ++ us) := by
  induction us generalizing e done with
  | nil => exact ⟨e.graph, rfl, by simpa using hr⟩
  | cons u us ih =>
    have hu := hin u mem_cons_self
    obtain ⟨hnot, hus⟩ := nodup_cons.1 hus
    obtain ⟨g, hrun, hall⟩ := @ih (onGraph e (e.graph.reassign u old new)) _
      (reassigned_step hr hu hne hnew) hus fun w hw => by
        rw [onGraph, mem_uses_reassign hr.sane.tidy hu hne (hr.valuesSize ▸ hnew),
          if_neg fun heq : w = u => hnot (heq ▸ hw)]
        exact hin w (mem_cons_of_mem _ hw)
    refine ⟨g, ?_, by simpa using hall⟩
    exact state_bind_ok () (setOperand_eq (hr.sane.used old u hu)) hrun

/-- The uses of a value can be replaced by those of another value of its type.  Then it is not used
any more, and no other one is used more than before. -/
theorem replaceUses_ok (hg : Sane e.graph) (hne : old ≠ new) (hnew : new.idx < e.graph.values.size)
    (hty : e.graph.ty new = e.graph.ty old) :
    ∃ g, replaceUses old new e = .ok () (onGraph e g) ∧ Moved [(old, new)] e.graph g ∧
      (g.value old).uses = [] ∧ ∀ v, v ≠ new → (g.value v).uses ⊆ (e.graph.value v).uses := by
  obtain ⟨g, hrun, hall⟩ := reassign_all hne hnew _ (.refl hg old new)
    (hg.usesNodup old) fun _ hu => hu
  rw [nil_append] at hall
  refine ⟨g, ?_, ⟨hall.toRerouted, fun j hj => ⟨?_, hall.listed j hj⟩⟩, ?_,
    fun v hv u hu => ((hall.left v hv u).1 hu).1⟩
  · unfold replaceUses
    rw [if_neg hne]
    refine state_bind_ok _ rfl (state_bind_ok () (demand_ok.2 ⟨?_, rfl⟩) hrun)
    simp [hty, Ty.replaceableBy]
  · refine ext_getElem? fun k => ?_
    rw [hall.operands, getElem?_map]
    cases hk : (e.graph.op j).operands[k]? with
    | none =>
      rw [if_neg fun hmem => ?_]
      · rfl
      · have := hg.used old _ hmem
        rw [hk] at this
        cases this
    | some v =>
      by_cases hv : v = old
      · subst hv
        rw [if_pos (hj k v hk)]
        simp [moved]
      · rw [if_neg fun hmem => hv (Option.some.inj (hk.symm.trans (hg.used old _ hmem)))]
        simp [moved, hv]
  · refine eq_nil_iff_forall_not_mem.2 fun u hu => ?_
    have := (hall.left old hne u).1 hu
    exact this.2 this.1

end Edit

/-! ## 3. Erasing -/

/-- Use lists have lost entries of some operations, and nothing else has changed. -/
structure Dropped (D : List OpId) (g g' : Graph) : Prop where
  ops : g'.ops = g.ops
  blocks : g'.blocks = g.blocks
  funcs : g'.funcs = g.funcs
  valuesSize : g'.values.size = g.values.size
  value : ∀ v, ∃ us, g'.value v = { g.value v with uses := us } ∧ us.Sublist (g.value v).uses ∧
    ∀ u ∈ (g.value v).uses, u.op ∉ D → u ∈ us

namespace Dropped

variable {D : List OpId} {g g' g'' : Graph}

theorem refl (D : List OpId) (g : Graph) : Dropped D g g :=
  ⟨rfl, rfl, rfl, rfl, fun _ => ⟨_, rfl, List.Sublist.refl _, fun _ hu _ => hu⟩⟩

theorem trans (h : Dropped D g g') (h' : Dropped D g' g'') : Dropped D g g'' where
  ops := h'.ops.trans h.ops
  blocks := h'.blocks.trans h.blocks
  funcs := h'.funcs.trans h.funcs
  valuesSize := h'.valuesSize.trans h.valuesSize
  value v := by
    obtain ⟨us, hus, hsub, hkeep⟩ := h.value v
    obtain ⟨us', hus', hsub', hkeep'⟩ := h'.value v
    rw [hus] at hus' hsub' hkeep'
    exact ⟨us', hus', hsub'.trans hsub, fun u hu hd => hkeep' u (hkeep u hu hd) hd⟩

theorem removeUse (g : Graph) (v : ValueId) {u : Use} (hu : u.op ∈ D) :
    Dropped D g (g.modifyValue v fun x => { x with uses := x.uses.erase u }) where
  ops := rfl
  blocks := rfl
  funcs := rfl
  valuesSize := valuesSize_modifyValue _ _ _
  value w := by
    rw [value_modifyValue]
    split
    · refine ⟨_, rfl, erase_sublist, fun x hx hd => (mem_erase_of_ne ?_).2 hx⟩
      rintro rfl
      exact hd hu
    · exact ⟨_, rfl, List.Sublist.refl _, fun _ hx _ => hx⟩

variable (h : Dropped D g g')

include h

theorem op (j : OpId) : g'.op j = g.op j := by
  unfold Graph.op
  rw [h.ops]

theorem block (b : BlockId) : g'.block b = g.block b := by
  unfold Graph.block
  rw [h.blocks]

theorem tidy (hg : Tidy g) : Tidy g' := by
  refine ⟨fun v u hu => ?_, fun v => ?_⟩
  all_goals obtain ⟨us, hus, hsub, -⟩ := h.value v
  · rw [h.op]
    rw [hus] at hu
    exact hg.used v u (hsub.subset hu)
  · rw [hus]
    exact (hg.usesNodup v).sublist hsub

theorem sane (hg : Sane g) : Sane g' := by
  refine hg.of_entries (h.tidy hg.tidy) ⟨by rw [h.ops], h.valuesSize, by rw [h.blocks]⟩
    (fun i => by simp [h.op]) (fun i b hb => hg.owns i b (h.op i ▸ hb)) (fun v => ?_)
    (fun b => by simp [h.block]) (fun b i hi => ?_) fun b => h.block b ▸ hg.opsNodup b
  · obtain ⟨us, hus, -⟩ := h.value v
    rw [hus]
    exact ⟨rfl, rfl⟩
  · rw [h.op]
    exact hg.parent b i (h.block b ▸ hi)

end Dropped

namespace Edit

variable {e e' : Editor} {D : List OpId}

/-- Operands that are taken off the use lists are on none of them. -/
theorem dropOperands_eq {i : OpId} (hi : i ∈ D) (vs : List ValueId) (k : Nat) :
    ∃ g, ((vs.zipIdx k).forM fun p => removeUse p.1 ⟨i, p.2⟩ : Edit Unit) e = .ok () (onGraph e g) ∧
      Dropped D e.graph g ∧
        ∀ v, (e.graph.value v).uses.Nodup → ∀ u ∈ (g.value v).uses, u ∉ usesOf i v vs k := by
  induction vs generalizing e k with
  | nil => exact ⟨e.graph, rfl, .refl _ _, by simp [usesOf]⟩
  | cons w vs ih =>
    obtain ⟨g, hg, hd, hgone⟩ := @ih (onGraph e (e.graph.modifyValue w fun x =>
      { x with uses := x.uses.erase ⟨i, k⟩ })) (k + 1)
    have hfirst := Dropped.removeUse e.graph w (u := ⟨i, k⟩) hi
    refine ⟨g, hg, hfirst.trans hd, fun v hv u hu => ?_⟩
    have hlater := hgone v (by
      obtain ⟨us, hus, hsub, -⟩ := hfirst.value v
      rw [onGraph, hus]
      exact hv.sublist hsub) u hu
    rw [usesOf_cons]
    split
    · next heq =>
      subst heq
      refine fun hmem => (mem_cons.1 hmem).elim ?_ hlater
      rintro rfl
      obtain ⟨us, hus, hsub, -⟩ := hd.value w
      rw [hus] at hu
      have hmem := hsub.subset hu
      have hw := lt_of_use hmem
      rw [onGraph, valuesSize_modifyValue] at hw
      rw [onGraph, value_modifyValue, if_pos ⟨rfl, hw⟩] at hmem
      exact hv.not_mem_erase hmem
    · exact hlater

/-- Operations whose operands are taken off the use lists are on none of them. -/
theorem dropAll_eq (is : List OpId) (h : ∀ i ∈ is, i ∈ D) :
    ∃ g, (is.forM dropOperands : Edit Unit) e = .ok () (onGraph e g) ∧ Dropped D e.graph g ∧
      (Tidy e.graph → ∀ v, ∀ u ∈ (g.value v).uses, u.op ∉ is) := by
  induction is generalizing e with
  | nil => exact ⟨e.graph, rfl, .refl _ _, by simp⟩
  | cons i is ih =>
    obtain ⟨g₁, h1, hd1, hgone1⟩ := @dropOperands_eq e D i (h i mem_cons_self)
      (e.graph.op i).operands 0
    obtain ⟨g₂, h2, hd2, hgone2⟩ := @ih (onGraph e g₁) fun j hj => h j (mem_cons_of_mem _ hj)
    refine ⟨g₂, state_bind_ok () h1 h2, hd1.trans hd2, fun ht v u hu hmem => ?_⟩
    refine (mem_cons.1 hmem).elim ?_ (hgone2 (hd1.tidy ht) v u hu)
    rintro rfl
    obtain ⟨us, hus, hsub, -⟩ := hd2.value v
    rw [hus] at hu
    have hold : u ∈ (g₁.value v).uses := hsub.subset hu
    refine hgone1 v (ht.usesNodup v) u hold (mem_usesOf.2 ⟨rfl, Nat.zero_le _, ?_⟩)
    rw [← hd1.op]
    exact (hd1.tidy ht).used v u hold

end Edit

/-- Some operations have been marked as erased, and nothing else has changed. -/
structure Marked (D : List OpId) (g g' : Graph) : Prop where
  values : g'.values = g.values
  blocks : g'.blocks = g.blocks
  funcs : g'.funcs = g.funcs
  opsSize : g'.ops.size = g.ops.size
  op : ∀ j, ∃ x, g'.op j = { g.op j with erased := x } ∧ (j ∉ D → x = (g.op j).erased)

namespace Marked

variable {D : List OpId} {g g' g'' : Graph}

theorem refl (D : List OpId) (g : Graph) : Marked D g g :=
  ⟨rfl, rfl, rfl, rfl, fun _ => ⟨_, rfl, fun _ => rfl⟩⟩

theorem trans (h : Marked D g g') (h' : Marked D g' g'') : Marked D g g'' where
  values := h'.values.trans h.values
  blocks := h'.blocks.trans h.blocks
  funcs := h'.funcs.trans h.funcs
  opsSize := h'.opsSize.trans h.opsSize
  op j := by
    obtain ⟨x, hx, hkeep⟩ := h.op j
    obtain ⟨x', hx', hkeep'⟩ := h'.op j
    rw [hx] at hx' hkeep'
    exact ⟨x', hx', fun hd => (hkeep' hd).trans (hkeep hd)⟩

theorem mark (g : Graph) {i : OpId} (hi : i ∈ D) :
    Marked D g (g.modifyOp i fun x => { x with erased := true }) where
  values := rfl
  blocks := rfl
  funcs := rfl
  opsSize := opsSize_modifyOp _ _ _
  op j := by
    rw [op_modifyOp]
    split
    · next h =>
      refine ⟨true, rfl, fun hd => absurd ?_ hd⟩
      exact h.1 ▸ hi
    · exact ⟨_, rfl, fun _ => rfl⟩

theorem value (h : Marked D g g') (v : ValueId) : g'.value v = g.value v := by
  unfold Graph.value
  rw [h.values]

theorem block (h : Marked D g g') (b : BlockId) : g'.block b = g.block b := by
  unfold Graph.block
  rw [h.blocks]

theorem sane (h : Marked D g g') (hg : Sane g) : Sane g' := by
  refine hg.of_entries ⟨fun v u hu => ?_, fun v => h.value v ▸ hg.usesNodup v⟩
    ⟨h.opsSize, by rw [h.values], by rw [h.blocks]⟩ (fun i => ?_) (fun i b hb => ?_)
    (fun v => by simp [h.value]) (fun b => by simp [h.block]) (fun b i hi => ?_)
    fun b => h.block b ▸ hg.opsNodup b
  · obtain ⟨x, hx, -⟩ := h.op u.op
    rw [hx]
    exact hg.used v u (h.value v ▸ hu)
  · obtain ⟨x, hx, -⟩ := h.op i
    rw [hx]
    exact ⟨rfl, rfl⟩
  · obtain ⟨x, hx, -⟩ := h.op i
    rw [hx] at hb
    exact hg.owns i b hb
  · obtain ⟨x, hx, -⟩ := h.op i
    rw [hx]
    exact hg.parent b i (h.block b ▸ hi)

end Marked

/-- The graph in which an operation is in no block. -/
def Graph.takeOut (g : Graph) (b : BlockId) (i : OpId) : Graph :=
  (g.modifyBlock b fun x => { x with ops := x.ops.erase i }).modifyOp i fun x =>
    { x with parent := none }

theorem Graph.op_takeOut (g : Graph) (b : BlockId) (i j : OpId) : (g.takeOut b i).op j =
    if i = j ∧ i.idx < g.ops.size then { g.op j with parent := none } else g.op j :=
  op_modifyOp _ _ _ _

theorem Graph.block_takeOut (g : Graph) (b c : BlockId) (i : OpId) : (g.takeOut b i).block c =
    if b = c ∧ b.idx < g.blocks.size then { g.block c with ops := (g.block c).ops.erase i }
    else g.block c := by
  simp only [takeOut, block_modifyOp, block_modifyBlock]

variable {g g' : Graph} {ps : List (ValueId × ValueId)}

theorem Sane.takeOut (hg : Sane g) (b : BlockId) (i : OpId) (hp : (g.op i).parent = some b) :
    Sane (g.takeOut b i) := by
  refine hg.of_entries ⟨fun v u h => ?_, hg.usesNodup⟩ (by simp [Graph.takeOut]) (fun j => ?_)
    (fun j c hc => ?_) (fun _ => ⟨rfl, rfl⟩) (fun c => ?_) (fun c j h => ?_) fun c => ?_
  · have := hg.used v u h
    rw [op_takeOut]
    split <;> exact this
  · rw [op_takeOut]
    split <;> exact ⟨rfl, rfl⟩
  · rw [op_takeOut] at hc
    split at hc
    · cases hc
    · exact hg.owns j c hc
  · rw [block_takeOut]
    split <;> exact ⟨rfl, rfl⟩
  · rw [block_takeOut] at h
    have hmem : j ∈ (g.block c).ops := by
      split at h
      · exact mem_of_mem_erase h
      · exact h
    obtain ⟨hlt, hj⟩ := hg.parent c j hmem
    have hij : i ≠ j := by
      rintro rfl
      obtain rfl : b = c := Option.some.inj (hp.symm.trans hj)
      rw [if_pos ⟨rfl, lt_of_listed hmem⟩] at h
      exact (hg.opsNodup b).not_mem_erase h
    rw [op_takeOut, if_neg fun h => hij h.1]
    exact ⟨hlt, hj⟩
  · rw [block_takeOut]
    split
    · exact (hg.opsNodup c).erase i
    · exact hg.opsNodup c

/-- Takes note of erasures. -/
def Editor.noteGone (e : Editor) (D : List OpId) : Editor :=
  { e with handles := D.foldl HandleTable.erased e.handles, journal := e.journal ++ D.map .erased }

/-- Operations have been removed from the program, and the first of them from its block. -/
structure Removed (D : List OpId) (i : OpId) (b : BlockId) (g g' : Graph) : Prop where
  sane : Sane g'
  opsSize : g'.ops.size = g.ops.size
  valuesSize : g'.values.size = g.values.size
  blocksSize : g'.blocks.size = g.blocks.size
  funcs : g'.funcs = g.funcs
  erased : ∀ j ∈ D, j.idx < g.ops.size → (g'.op j).erased = true
  block : ∀ c, c ≠ b → g'.block c = g.block c
  ops : (g'.block b).ops = (g.block b).ops.erase i
  around : (g'.block b).args = (g.block b).args ∧ (g'.block b).parentOp = (g.block b).parentOp ∧
    (g'.block b).func = (g.block b).func

theorem Removed.after {D : List OpId} {i : OpId} {b : BlockId} {g'' : Graph}
    (h : Removed D i b g' g'') (hr : Rerouted g g') : Removed D i b g g'' where
  sane := h.sane
  opsSize := h.opsSize.trans hr.opsSize
  valuesSize := h.valuesSize.trans hr.valuesSize
  blocksSize := by rw [h.blocksSize, hr.blocks]
  funcs := h.funcs.trans hr.funcs
  erased j hj hlt := h.erased j hj (hr.opsSize ▸ hlt)
  block c hc := (h.block c hc).trans (hr.block c)
  ops := hr.block b ▸ h.ops
  around := hr.block b ▸ h.around

/-- Operations have been erased: they are out of the use lists too. -/
structure Erased (D : List OpId) (i : OpId) (b : BlockId) (g g' : Graph) :
    Prop extends Removed D i b g g' where
  op : ∀ j, j ∉ D → g'.op j = g.op j
  value : ∀ v, ∃ us, g'.value v = { g.value v with uses := us } ∧
    ∀ u ∈ (g.value v).uses, u.op ∉ D → u ∈ us

namespace Edit

variable {e e' : Editor} {b : BlockId}
variable {i : OpId} {u : Unit}

theorem markAll_eq {D : List OpId} (is : List OpId) (h : ∀ i ∈ is, i ∈ D) :
    ∃ g, (is.forM (fun j => modifyGraph fun g => g.modifyOp j fun y => { y with erased := true }) :
      Edit Unit) e = .ok () (onGraph e g) ∧ Marked D e.graph g ∧ ∀ j, j.idx < e.graph.ops.size →
        (g.op j).erased = ((e.graph.op j).erased || decide (j ∈ is)) := by
  induction is generalizing e with
  | nil => exact ⟨e.graph, rfl, .refl _ _, by simp⟩
  | cons i is ih =>
    obtain ⟨g, hg, hm, herased⟩ := @ih
      (onGraph e (e.graph.modifyOp i fun x => { x with erased := true }))
      fun j hj => h j (mem_cons_of_mem _ hj)
    refine ⟨g, hg, (Marked.mark e.graph (h i mem_cons_self)).trans hm, fun j hj => ?_⟩
    rw [herased j (by rwa [onGraph, opsSize_modifyOp])]
    by_cases hij : i = j
    · subst hij
      simp [Edit.onGraph, hj]
    · have hji : ¬ j = i := fun heq => hij heq.symm
      simp [Edit.onGraph, hij, hji]

theorem noteErased_eq (D : List OpId) (e : Editor) :
    (D.forM (fun j => modify fun e => e.noteErased j) : Edit Unit) e = .ok () (e.noteGone D) := by
  induction D generalizing e with
  | nil => simp only [Editor.noteGone, map_nil, append_nil]; rfl
  | cons i D ih =>
    refine (ih (e.noteErased i)).trans ?_
    simp [Editor.noteErased, Editor.noteGone]

theorem checkUnused_ok {g : Graph} {r : ValueId} : checkUnused g i r e = .ok u e' ↔
      (∀ w ∈ (g.value r).uses, g.isAncestor i w.op = true) ∧ e = e' := by
  exact forM_check_ok fun _ _ _ _ => demand_ok

theorem leave_eq (hp : (e.graph.op i).parent = some b) :
    ∃ e₁, leave i e = .ok () e₁ ∧ e₁.graph = e.graph := by
  by_cases hbefore : e.point.before = some i
  · obtain ⟨p, hafter⟩ : ∃ p, pointAfter i e = .ok p e := ⟨_, state_bind_ok _ rfl
      (state_bind_ok b (lift_ok.2 ⟨present_ok.2 hp, rfl⟩) rfl)⟩
    refine ⟨{ e with point := p }, state_bind_ok e rfl ?_, rfl⟩
    rw [if_pos hbefore]
    exact state_bind_ok p hafter rfl
  · exact ⟨e, state_bind_ok e rfl (by rw [if_neg hbefore]; rfl), rfl⟩

theorem unplace_eq (hp : (e.graph.op i).parent = some b) (hmem : i ∈ (e.graph.block b).ops) :
    unplace i e = .ok () (onGraph e (e.graph.takeOut b i)) := by
  refine state_bind_ok _ rfl ?_
  simp only [hp]
  exact state_bind_ok () (demand_ok.2 ⟨by simpa using hmem, rfl⟩) rfl

theorem self_mem_subtree (g : Graph) (i : OpId) : i ∈ g.subtree i := by
  unfold Graph.subtree Graph.walk
  cases g.ops.size <;> simp [Graph.walkWithin]

/-- **Erasing takes an operation whose results are not used, and all those nested in it, out of the
program.** -/
theorem erase_ok (hg : Sane e.graph) (hp : (e.graph.op i).parent = some b)
    (hmem : i ∈ (e.graph.block b).ops) (hlive : (e.graph.op i).erased = false)
    (hunused : ∀ r ∈ (e.graph.op i).results, (e.graph.value r).uses = []) :
    ∃ e', erase i e = .ok () e' ∧ Erased (e.graph.subtree i) i b e.graph e'.graph := by
  obtain ⟨e₁, hleft, hleave⟩ := leave_eq hp
  have hnote := noteErased_eq (e.graph.subtree i) e₁
  obtain ⟨g₁, hdrop, hdropped, -⟩ := @dropAll_eq (e₁.noteGone (e.graph.subtree i))
    (e.graph.subtree i) (e.graph.subtree i) fun _ h => h
  rw [show (e₁.noteGone _).graph = e.graph from hleave] at hdropped
  have hp' : (g₁.op i).parent = some b := by rw [hdropped.op, hp]
  obtain ⟨g₂, hmark, hmarked, herased⟩ := @markAll_eq (onGraph (e₁.noteGone (e.graph.subtree i))
    (g₁.takeOut b i)) (e.graph.subtree i) (e.graph.subtree i) fun _ h => h
  refine ⟨_, state_bind_ok _ rfl (state_bind_ok () (demand_ok.2 ⟨by simp [hlive], rfl⟩)
    (state_bind_ok () ((forM_check_ok fun _ _ _ _ => checkUnused_ok).2 ⟨fun r hr w hw => ?_, rfl⟩)
    (state_bind_ok () hleft (state_bind_ok () hnote (state_bind_ok () hdrop
    (state_bind_ok () (unplace_eq hp' (by rwa [onGraph, hdropped.block])) hmark)))))), ?_⟩
  · rw [hunused r hr] at hw
    cases hw
  have hb := lt_of_listed hmem
  have hsane₁ := hdropped.sane hg
  have hblock (c : BlockId) : g₂.block c = if b = c then
      { e.graph.block c with ops := (e.graph.block c).ops.erase i } else e.graph.block c := by
    rw [hmarked.block, onGraph, block_takeOut, hdropped.blocks, hdropped.block]
    by_cases hc : b = c <;> simp [hc]
    intro hlt
    exact absurd (hc ▸ hb) (Nat.not_lt.2 hlt)
  have hsize : (g₁.takeOut b i).ops.size = e.graph.ops.size := by
    rw [← hdropped.ops]
    simp [Graph.takeOut]
  refine ⟨⟨hmarked.sane (hsane₁.takeOut b i hp'), ?_, ?_, ?_, ?_, ?_, ?_, ?_, ?_⟩, ?_, ?_⟩
  · rw [onGraph, hmarked.opsSize, onGraph, hsize]
  · rw [onGraph, hmarked.values, ← hdropped.valuesSize]
    rfl
  · rw [onGraph, hmarked.blocks, ← hdropped.blocks]
    simp [Graph.takeOut, onGraph]
  · rw [onGraph, hmarked.funcs, ← hdropped.funcs]
    rfl
  · intro j hj hlt
    rw [onGraph, herased j (by rwa [onGraph, hsize])]
    simp [hj]
  · intro c hc
    rw [onGraph, hblock, if_neg fun h => hc h.symm]
  · rw [onGraph, hblock, if_pos rfl]
  · rw [onGraph, hblock, if_pos rfl]
    exact ⟨rfl, rfl, rfl⟩
  · intro j hj
    obtain ⟨x, hx, hkeep⟩ := hmarked.op j
    have hij : i ≠ j := by
      rintro rfl
      exact hj (self_mem_subtree _ _)
    rw [onGraph, hx, hkeep hj, onGraph, op_takeOut, if_neg fun h => hij h.1, hdropped.op]
  · intro v
    obtain ⟨us, hus, -, hkeep⟩ := hdropped.value v
    refine ⟨us, ?_, hkeep⟩
    rw [onGraph, hmarked.value]
    exact hus

end Edit

/-! ## 4. Replacing -/

theorem walkWithin_congr (hbody : ∀ i, g'.bodyOps i = g.bodyOps i) (descend : OpId → Bool) (n : Nat)
    (i : OpId) :
    g'.walkWithin descend n i = g.walkWithin descend n i := by
  induction n generalizing i with
  | zero => rfl
  | succ n ih =>
    simp only [Graph.walkWithin, hbody]
    rw [funext ih]

theorem Moved.subtree (h : Moved ps g g') (i : OpId) :
    g'.subtree i = g.subtree i := by
  unfold Graph.subtree Graph.walk
  rw [h.opsSize]
  refine walkWithin_congr (fun j => ?_) _ _ _
  obtain ⟨os, hos⟩ := h.op j
  unfold Graph.bodyOps Graph.block
  rw [hos, h.blocks]

/-- An operation has been replaced: listed operations use the replacements, and the operation has
been erased with the operations `D`. -/
structure Rewired (ps : List (ValueId × ValueId)) (D : List OpId) (i : OpId) (b : BlockId)
    (g g' : Graph) : Prop extends Removed D i b g g' where
  op : ∀ j, j ∉ D → Listed g j →
    g'.op j = { g.op j with operands := (g.op j).operands.map (moved ps) } ∧ Listed g' j
  value : ∀ v, ∃ us, g'.value v = { g.value v with uses := us }

/-- What is needed to replace values one after the other. -/
structure Replaceable (g : Graph) (ps : List (ValueId × ValueId)) : Prop where
  new : ∀ p ∈ ps, p.2.idx < g.values.size
  types : ∀ p ∈ ps, g.ty p.2 = g.ty p.1
  apart : ∀ p ∈ ps, ∀ q ∈ ps, p.2 ≠ q.1

theorem Replaceable.tail {p : ValueId × ValueId} (h : Replaceable g (p :: ps))
    (hm : Moved [p] g g') :
    Replaceable g' ps where
  new q hq := by
    rw [hm.valuesSize]
    exact h.new q (mem_cons_of_mem _ hq)
  types q hq := by
    obtain ⟨_, h1⟩ := hm.value q.1
    obtain ⟨_, h2⟩ := hm.value q.2
    have := h.types q (mem_cons_of_mem _ hq)
    simp only [Graph.ty, h1, h2] at this ⊢
    exact this
  apart q hq r hr := h.apart q (mem_cons_of_mem _ hq) r (mem_cons_of_mem _ hr)

namespace Edit

variable {e : Editor}

/-- Values that have been replaced one after the other are not used any more. -/
theorem replaceAll_ok (hg : Sane e.graph) {ps : List (ValueId × ValueId)}
    (hps : Replaceable e.graph ps) : ∃ g, ps.forM (fun p => replaceUses p.1 p.2) e = .ok ()
    (onGraph e g) ∧
      Moved ps e.graph g ∧ (∀ p ∈ ps, (g.value p.1).uses = []) ∧
      ∀ v, (∀ p ∈ ps, v ≠ p.2) → (g.value v).uses ⊆ (e.graph.value v).uses := by
  induction ps generalizing e with
  | nil => exact ⟨e.graph, rfl, .refl hg, by simp, fun _ _ _ hu => hu⟩
  | cons p ps ih =>
    have hp := mem_cons_self (a := p) (l := ps)
    obtain ⟨g₁, hrun, hm, hfirst, hkeep⟩ := replaceUses_ok hg
      (fun heq => hps.apart p hp p hp heq.symm) (hps.new p hp) (hps.types p hp)
    obtain ⟨g₂, hruns, hm', hrest, hkeep'⟩ := @ih (onGraph e g₁) hm.sane (hps.tail hm)
    refine ⟨g₂, state_bind_ok () hrun hruns, hm.trans hm', fun q hq => ?_, fun v hv u hu =>
      hkeep v (hv p hp) (hkeep' v (fun q hq => hv q (mem_cons_of_mem _ hq)) hu)⟩
    rcases mem_cons.1 hq with rfl | hq
    · have hsub := hkeep' q.1 fun r hr heq => hps.apart r (mem_cons_of_mem _ hr) q hp heq.symm
      rw [onGraph, hfirst] at hsub
      exact subset_nil.1 hsub
    · exact hrest q hq

/-- **An operation can be replaced by values of the types of its results**: all uses are moved, and
it is erased. -/
theorem replaceOp_ok (hg : Sane e.graph) {i : OpId} {b : BlockId}
    (hp : (e.graph.op i).parent = some b) (hmem : i ∈ (e.graph.block b).ops)
    (hlive : (e.graph.op i).erased = false) {values : List ValueId}
    (hlen : values.length = (e.graph.op i).results.length)
    (hps : Replaceable e.graph ((e.graph.op i).results.zip values)) :
    ∃ e', replaceOp i values e = .ok () e' ∧
      Rewired ((e.graph.op i).results.zip values) (e.graph.subtree i) i b e.graph e'.graph := by
  obtain ⟨g, hrun, hmoved, hunused, -⟩ := @replaceAll_ok (e.noteReplaced i values) hg _ hps
  have hmoved : Moved ((e.graph.op i).results.zip values) e.graph g := hmoved
  obtain ⟨os, hos⟩ := hmoved.op i
  obtain ⟨e', herase, herased⟩ := @erase_ok (onGraph (e.noteReplaced i values) g) b i hmoved.sane
    (by rw [onGraph, hos, hp]) (by rwa [onGraph, hmoved.block])
    (by rw [onGraph, hos, hlive]) fun r hr => by
      rw [onGraph, hos] at hr
      obtain ⟨k, hk⟩ := mem_iff_getElem?.1 hr
      have hv : k < values.length := by
        rw [hlen]
        exact (List.getElem?_eq_some_iff.1 hk).1
      exact hunused (r, values[k])
        (mem_of_getElem? (getElem?_zip_eq_some.2 ⟨hk, getElem?_eq_getElem hv⟩))
  rw [onGraph, hmoved.subtree] at herased
  refine ⟨e', ?_, herased.toRemoved.after hmoved.toRerouted, ?_, ?_⟩
  · refine state_bind_ok _ rfl (state_bind_ok () (demand_ok.2 ⟨by simp [hlen], rfl⟩) ?_)
    exact state_bind_ok () rfl (state_bind_ok () hrun herase)
  · intro j hj hlisted
    obtain ⟨hops, hlisted'⟩ := hmoved.operands j hlisted
    obtain ⟨os, hos⟩ := hmoved.op j
    have hop := herased.op j hj
    refine ⟨?_, fun k v hv => ?_⟩
    · rw [hop, ← hops, hos]
    · rw [hop] at hv
      obtain ⟨us, hus, hkeep⟩ := herased.value v
      rw [hus]
      exact hkeep _ (hlisted' k v hv) hj
  · intro v
    obtain ⟨us, hus⟩ := hmoved.value v
    obtain ⟨us', hus', -⟩ := herased.value v
    exact ⟨us', by rw [hus', hus]⟩

end Edit

end ConvNest.Program
