/-
# Edits keep the books

Every change that the editing operations make to a graph leaves a sane graph sane.
-/
import ConvNest.Proofs.GraphEdit
import ConvNest.Proofs.Sane

namespace ConvNest.Program

open Graph List

/-- Use lists name operands that are the value, each once. -/
structure Tidy (g : Graph) : Prop where
  used : ∀ v u, u ∈ (g.value v).uses → (g.op u.op).operands[u.index]? = some v
  usesNodup : ∀ v, (g.value v).uses.Nodup

theorem Sane.tidy {g : Graph} (hg : Sane g) : Tidy g := ⟨hg.used, hg.usesNodup⟩

/-- An operation without operands gets some, and is entered in their use lists; values without a use
may be new. -/
theorem Tidy.enters {g g' : Graph} {i : OpId} (hg : Tidy g) (operands : List ValueId)
    (hi : (g.op i).operands = [])
    (hop : ∀ j, (g'.op j).operands = if i = j then operands else (g.op j).operands)
    (huses : ∀ v, (g'.value v).uses = (g.value v).uses ++ usesOf i v operands 0 ∨
      (g'.value v).uses = []) : Tidy g' := by
  have apart {v : ValueId} {u : Use} (hu : u ∈ (g.value v).uses) : u.op ≠ i := by
    intro heq
    have hused := hg.used v u hu
    rw [heq, hi] at hused
    cases hused
  refine ⟨fun v u hu => ?_, fun v => ?_⟩
  · rcases huses v with h | h
    · rw [h, mem_append] at hu
      rw [hop]
      rcases hu with hu | hu
      · rw [if_neg (apart hu).symm]
        exact hg.used v u hu
      · obtain ⟨heq, -, hidx⟩ := mem_usesOf.1 hu
        rw [if_pos heq.symm]
        simpa using hidx
    · rw [h] at hu
      cases hu
  · rcases huses v with h | h
    · rw [h]
      refine nodup_append.2 ⟨hg.usesNodup v, usesOf_nodup i v operands 0, ?_⟩
      rintro u hu u' hu' rfl
      exact apart hu (mem_usesOf.1 hu').1
    · rw [h]
      exact nodup_nil

namespace Sane

variable {g : Graph}

/-- Operands and uses may change as long as they fit, and operations may change their places. -/
theorem of_entries {g' : Graph} (hg : Sane g) (ht : Tidy g')
    (hsizes : g'.ops.size = g.ops.size ∧ g'.values.size = g.values.size ∧
      g'.blocks.size = g.blocks.size)
    (hop : ∀ i, (g'.op i).results = (g.op i).results ∧ (g'.op i).body = (g.op i).body)
    (howns : ∀ i b, (g'.op i).parent = some b → g.OwnsBody i)
    (hvalue : ∀ v, (g'.value v).owner = (g.value v).owner ∧ (g'.value v).index = (g.value v).index)
    (hblock : ∀ b, (g'.block b).args = (g.block b).args ∧
      (g'.block b).parentOp = (g.block b).parentOp)
    (hparent : ∀ b i, i ∈ (g'.block b).ops → i.idx < g.ops.size ∧ (g'.op i).parent = some b)
    (hnodup : ∀ b, (g'.block b).ops.Nodup) : Sane g' where
  results i k r h := by
    rw [hsizes.2.1, (hvalue r).1, (hvalue r).2]
    exact hg.results i k r ((hop i).1 ▸ h)
  args b k a h := by
    rw [hsizes.2.1, (hvalue a).1, (hvalue a).2]
    exact hg.args b k a ((hblock b).1 ▸ h)
  parent b i h := hsizes.1 ▸ hparent b i h
  opsNodup := hnodup
  body i b h := hsizes.2.2 ▸ hg.body i b ((hop i).2 ▸ h)
  owns i c hc b h := (hblock b).2 ▸ howns i c hc b ((hop i).2 ▸ h)
  owner b i h := hsizes.1 ▸ hg.owner b i ((hblock b).2 ▸ h)
  used := ht.used
  usesNodup := ht.usesNodup

/-! ## 1. New entries -/

theorem empty : Sane Graph.empty where
  results i k r h := by simp [Graph.empty, op_of_le] at h
  args b k a h := by simp [Graph.empty, Graph.block] at h
  parent b i h := by simp [Graph.empty, Graph.block] at h
  opsNodup b := by simp [Graph.empty, Graph.block]
  body i b h := by simp [Graph.empty, Graph.op] at h
  owns i c _ b h := by simp [Graph.empty, Graph.op] at h
  owner b i h := by simp [Graph.empty, Graph.block] at h
  used v u h := by simp [Graph.empty, Graph.value] at h
  usesNodup v := by simp [Graph.empty, Graph.value]

theorem reserve (hg : Sane g) (kind : Kind) (attr : Attr) :
    Sane (g.pushOp ⟨kind, [], [], attr, none, none, false⟩) where
  results i k r h := by
    rw [op_pushOp] at h
    split at h
    · simp at h
    · simpa using hg.results i k r h
  args b k a h := by simpa using hg.args b k a h
  parent b i h := by
    have hp := hg.parent b i h
    have hne : i ≠ g.nextOp := by
      rintro rfl
      exact Nat.lt_irrefl _ hp.1
    rw [opsSize_pushOp, op_pushOp, if_neg hne]
    exact ⟨Nat.lt_succ_of_lt hp.1, hp.2⟩
  opsNodup b := hg.opsNodup b
  body i b h := by
    rw [op_pushOp] at h
    split at h
    · simp at h
    · exact hg.body i b h
  owns i c hc b h := by
    rw [op_pushOp] at hc h
    split at h
    · simp at h
    · next hne =>
      rw [if_neg hne] at hc
      exact hg.owns i c hc b h
  owner b i h := by
    rw [opsSize_pushOp]
    exact Nat.lt_succ_of_lt (hg.owner b i h)
  used v u h := by
    have hu := hg.used v u h
    have hne : u.op ≠ g.nextOp := by
      intro heq
      rw [heq, op_of_le g (i := g.nextOp) (Nat.le_refl _)] at hu
      cases hu
    rw [op_pushOp, if_neg hne]
    exact hu
  usesNodup v := hg.usesNodup v

/-- An operation that has been reserved and not completed. -/
structure Reserved (g : Graph) (i : OpId) : Prop where
  lt : i.idx < g.ops.size
  operands : (g.op i).operands = []
  loose : (g.op i).parent = none

/-- An operation gets a body in the graph, which may belong to another one as long as the operation
has no place. -/
theorem described (hg : Sane g) {i : OpId} (hi : Reserved g i) (operands : List ValueId)
    (tys : List Ty) {body : Option BlockId} (hbody : ∀ b, body = some b → b.idx < g.blocks.size) :
    Sane (g.described i operands tys body) := by
  have old {v : ValueId} (hv : v.idx < g.values.size) :=
    g.value_described_old i operands body tys hv
  have htidy : Tidy (g.described i operands tys body) := by
    refine hg.tidy.enters operands hi.operands (fun j => ?_) fun v => ?_
    · rw [op_described hi.lt]
      split <;> rfl
    · by_cases hv : v.idx < g.values.size
      · exact .inl (by rw [old hv])
      · exact .inr (uses_described_new _ _ _ _ _ (Nat.le_of_not_lt hv))
  refine
    { results := ?_
      args := ?_
      parent := ?_
      opsNodup := ?_
      body := ?_
      owns := ?_
      owner := ?_
      used := htidy.used
      usesNodup := htidy.usesNodup }
  · intro j k r h
    rw [op_described hi.lt] at h
    rw [valuesSize_described]
    split at h
    · next hij =>
      subst hij
      simp only [nextValues_getElem?] at h
      split at h
      · next hk =>
        cases h
        rw [value_described_new _ _ _ _ (getElem?_eq_getElem hk)]
        exact ⟨Nat.add_lt_add_left hk _, rfl, rfl⟩
      · cases h
    · obtain ⟨hlt, howner, hindex⟩ := hg.results j k r h
      rw [old hlt]
      exact ⟨Nat.lt_add_right _ hlt, howner, hindex⟩
  · intro b k a h
    rw [block_described] at h
    obtain ⟨hlt, howner, hindex⟩ := hg.args b k a h
    rw [valuesSize_described, old hlt]
    exact ⟨Nat.lt_add_right _ hlt, howner, hindex⟩
  · intro b j h
    rw [block_described] at h
    obtain ⟨hlt, hp⟩ := hg.parent b j h
    rw [opsSize_described, op_described hi.lt]
    refine ⟨hlt, ?_⟩
    split <;> exact hp
  · intro b
    rw [block_described]
    exact hg.opsNodup b
  · intro j b h
    rw [op_described hi.lt] at h
    rw [blocks_described]
    split at h
    · exact hbody b h
    · exact hg.body j b h
  · intro j c hc b h
    rw [op_described hi.lt] at hc h
    rw [block_described]
    split at h
    · next hij =>
      subst hij
      rw [if_pos rfl, hi.loose] at hc
      cases hc
    · next hij =>
      rw [if_neg hij] at hc
      exact hg.owns j c hc b h
  · intro b j h
    rw [opsSize_described]
    exact hg.owner b j (block_described b ▸ h)

/-- A block without an owner gets one. -/
theorem adopt (hg : Sane g) {i : OpId} (hi : i.idx < g.ops.size) {b : BlockId}
    (hb : (g.block b).parentOp = none) :
    Sane (g.modifyBlock b fun x => { x with parentOp := some i }) := by
  have hblock (c : BlockId) : ∃ p,
    (g.modifyBlock b fun x => { x with parentOp := some i }).block c =
      { g.block c with parentOp := p } ∧ (p = (g.block c).parentOp ∨ c = b ∧ p = some i) := by
    rw [block_modifyBlock]
    split
    · next h => exact ⟨_, rfl, .inr ⟨h.1.symm, rfl⟩⟩
    · exact ⟨_, rfl, .inl rfl⟩
  refine
    { results := hg.results
      args := fun c k a h => ?_
      parent := fun c j h => ?_
      opsNodup := fun c => ?_
      body := fun j c h => ?_
      owns := fun j d hd c h => ?_
      owner := fun c j h => ?_
      used := hg.used
      usesNodup := hg.usesNodup }
  all_goals obtain ⟨p, hc, hp⟩ := hblock c
  · rw [hc] at h
    exact hg.args c k a h
  · rw [hc] at h
    exact hg.parent c j h
  · rw [hc]
    exact hg.opsNodup c
  · rw [blocksSize_modifyBlock]
    exact hg.body j c h
  · have hown := hg.owns j d hd c h
    rw [hc]
    rcases hp with rfl | ⟨rfl, -⟩
    · exact hown
    · rw [hb] at hown
      cases hown
  · rw [hc] at h
    rcases hp with rfl | ⟨-, rfl⟩
    · exact hg.owner c j h
    · exact Option.some.inj h ▸ hi

theorem complete (hg : Sane g) {i : OpId} (hi : Reserved g i) (operands : List ValueId)
    (tys : List Ty) {body : Option BlockId}
    (hbody : ∀ b, body = some b → b.idx < g.blocks.size ∧ (g.block b).parentOp = none) :
    Sane (g.complete i operands tys body) := by
  have h := hg.described hi operands tys fun b hb => (hbody b hb).1
  unfold Graph.complete
  cases body with
  | none => exact h
  | some b =>
    refine h.adopt ?_ ?_
    · rw [opsSize_described]
      exact hi.lt
    · rw [block_described]
      exact (hbody b rfl).2

theorem withBlock (hg : Sane g) (tys : List Ty) : Sane (g.withBlock tys) where
  results i k r h := by
    obtain ⟨hlt, howner, hindex⟩ := hg.results i k r h
    rw [valuesSize_withBlock, value_withBlock_old g tys hlt]
    exact ⟨Nat.lt_add_right _ hlt, howner, hindex⟩
  args b k a h := by
    rw [block_withBlock] at h
    rw [valuesSize_withBlock]
    split at h
    · next hb =>
      subst hb
      simp only [nextValues_getElem?] at h
      split at h
      · next hk =>
        cases h
        rw [value_withBlock_new g (getElem?_eq_getElem hk)]
        exact ⟨Nat.add_lt_add_left hk _, rfl, rfl⟩
      · cases h
    · obtain ⟨hlt, howner, hindex⟩ := hg.args b k a h
      rw [value_withBlock_old g tys hlt]
      exact ⟨Nat.lt_add_right _ hlt, howner, hindex⟩
  parent b i h := by
    rw [block_withBlock] at h
    split at h
    · cases h
    · exact hg.parent b i h
  opsNodup b := by
    rw [block_withBlock]
    split
    · exact nodup_nil
    · exact hg.opsNodup b
  body i b h := by
    rw [blocksSize_withBlock]
    exact Nat.lt_succ_of_lt (hg.body i b h)
  owns i c hc b h := by
    have hne : b ≠ g.nextBlock := by
      rintro rfl
      exact Nat.lt_irrefl _ (hg.body i _ h)
    rw [block_withBlock, if_neg hne]
    exact hg.owns i c hc b h
  owner b i h := by
    rw [block_withBlock] at h
    split at h
    · cases h
    · exact hg.owner b i h
  used v u h := by
    by_cases hv : v.idx < g.values.size
    · rw [value_withBlock_old g tys hv] at h
      exact hg.used v u h
    · rw [uses_withBlock_new g tys (Nat.le_of_not_lt hv)] at h
      cases h
  usesNodup v := by
    by_cases hv : v.idx < g.values.size
    · rw [value_withBlock_old g tys hv]
      exact hg.usesNodup v
    · rw [uses_withBlock_new g tys (Nat.le_of_not_lt hv)]
      exact nodup_nil

/-! ## 2. Places -/

theorem put (hg : Sane g) {b : BlockId} {pre post : List OpId} {i : OpId} (hi : i.idx < g.ops.size)
    (hp : (g.op i).parent = none) (hi' : g.OwnsBody i) (hops : (g.block b).ops = pre ++ post) :
    Sane (g.put b (pre ++ i :: post) i) := by
  have outside {c : BlockId} : i ∉ (g.block c).ops := fun hmem => by
    have := (hg.parent c i hmem).2
    rw [hp] at this
    cases this
  refine hg.of_entries ⟨fun v u h => ?_, hg.usesNodup⟩ (by simp) (fun j => ?_) (fun j c hc => ?_)
    (fun _ => ⟨rfl, rfl⟩) (fun c => ?_) (fun c j h => ?_) fun c => ?_
  · rw [op_put]
    have := hg.used v u h
    split <;> exact this
  · rw [op_put]
    split <;> exact ⟨rfl, rfl⟩
  · rw [op_put] at hc
    split at hc
    · next h => exact h.1 ▸ hi'
    · exact hg.owns j c hc
  · rw [block_put]
    split <;> exact ⟨rfl, rfl⟩
  · rw [op_put]
    rw [block_put] at h
    split at h
    · next hc =>
      obtain ⟨rfl, hlt⟩ := hc
      by_cases hij : i = j
      · subst hij
        rw [if_pos ⟨rfl, hi⟩]
        exact ⟨hi, rfl⟩
      · rw [if_neg fun h => hij h.1]
        refine hg.parent b j ?_
        rw [hops]
        simp only [mem_append, mem_cons] at h ⊢
        rcases h with h | h | h
        · exact .inl h
        · exact absurd h.symm hij
        · exact .inr h
    · have hij : i ≠ j := by
        rintro rfl
        exact outside h
      rw [if_neg fun h => hij h.1]
      exact hg.parent c j h
  · rw [block_put]
    split
    · have hnodup := hg.opsNodup b
      have hout : i ∉ (g.block b).ops := outside
      rw [hops] at hnodup hout
      exact (perm_middle.nodup_iff).2 (nodup_cons.2 ⟨hout, hnodup⟩)
    · exact hg.opsNodup c

end Sane

end ConvNest.Program
