/-
# Sane graphs can be recognized

`Sane` speaks of all names of operations, values and blocks.  Names that a graph does not use stand
for empty entries, so it is enough to look at those in use (`Sane.iff_entries`), and `Sane` can be
decided.
-/
import ConvNest.Proofs.SaneEdit

namespace ConvNest.Program

open Graph List

/-- What is asked of the entry of an operation. -/
def SaneOp (g : Graph) (i : OpId) : Prop :=
  (∀ p ∈ (g.op i).results.zipIdx, p.1.idx < g.values.size ∧ (g.value p.1).owner = .result i ∧
    (g.value p.1).index = p.2) ∧
  ∀ b ∈ (g.op i).body.toList, b.idx < g.blocks.size ∧
    ((g.op i).parent.isSome → (g.block b).parentOp = some i)

/-- What is asked of the entry of a block. -/
def SaneBlock (g : Graph) (b : BlockId) : Prop :=
  (∀ p ∈ (g.block b).args.zipIdx, p.1.idx < g.values.size ∧ (g.value p.1).owner = .argument b ∧
    (g.value p.1).index = p.2) ∧
  (∀ i ∈ (g.block b).ops, i.idx < g.ops.size ∧ (g.op i).parent = some b) ∧
  (g.block b).ops.Nodup ∧ ∀ i ∈ (g.block b).parentOp.toList, i.idx < g.ops.size

/-- What is asked of the entry of a value. -/
def SaneValue (g : Graph) (v : ValueId) : Prop :=
  (∀ u ∈ (g.value v).uses, (g.op u.op).operands[u.index]? = some v) ∧ (g.value v).uses.Nodup

instance (g : Graph) (i : OpId) : Decidable (SaneOp g i) :=
  inferInstanceAs (Decidable (_ ∧ _))

instance (g : Graph) (b : BlockId) : Decidable (SaneBlock g b) :=
  inferInstanceAs (Decidable (_ ∧ _ ∧ _ ∧ _))

instance (g : Graph) (v : ValueId) : Decidable (SaneValue g v) :=
  inferInstanceAs (Decidable (_ ∧ _))

/-- A graph is sane if the entries in use are. -/
theorem Sane.iff_entries {g : Graph} : Sane g ↔ (∀ k < g.ops.size, SaneOp g ⟨k⟩) ∧
    (∀ k < g.blocks.size, SaneBlock g ⟨k⟩) ∧ ∀ k < g.values.size, SaneValue g ⟨k⟩ := by
  constructor
  · intro h
    refine ⟨fun k _ => ⟨fun p hp => ?_, fun b hb => ?_⟩, fun k _ => ⟨fun p hp => ?_, ?_, ?_, ?_⟩,
      fun k _ => ⟨h.used _, h.usesNodup _⟩⟩
    · exact h.results _ _ _ (mk_mem_zipIdx_iff_getElem?.1 hp)
    · refine ⟨h.body _ _ (Option.mem_toList.1 hb), fun hp => ?_⟩
      obtain ⟨c, hc⟩ := Option.isSome_iff_exists.1 hp
      exact h.owns _ c hc b (Option.mem_toList.1 hb)
    · exact h.args _ _ _ (mk_mem_zipIdx_iff_getElem?.1 hp)
    · exact h.parent _
    · exact h.opsNodup _
    · exact fun i hi => h.owner _ _ (Option.mem_toList.1 hi)
  · rintro ⟨hops, hblocks, hvalues⟩
    have hop (i : OpId) : SaneOp g i := by
      by_cases hlt : i.idx < g.ops.size
      · exact hops i.idx hlt
      · rw [SaneOp, op_of_le _ (Nat.not_lt.1 hlt)]
        exact ⟨fun p hp => absurd hp (by simp), fun b hb => absurd hb (by simp)⟩
    have hblock (b : BlockId) : SaneBlock g b := by
      by_cases hlt : b.idx < g.blocks.size
      · exact hblocks b.idx hlt
      · rw [SaneBlock, block_of_le _ (Nat.not_lt.1 hlt)]
        exact ⟨fun p hp => absurd hp (by simp), fun i hi => absurd hi (by simp),
          List.nodup_nil, fun i hi => absurd hi (by simp)⟩
    have hvalue (v : ValueId) : SaneValue g v := by
      by_cases hlt : v.idx < g.values.size
      · exact hvalues v.idx hlt
      · rw [SaneValue, value_of_le _ (Nat.not_lt.1 hlt)]
        exact ⟨fun u hu => absurd hu (by simp), List.nodup_nil⟩
    exact
      { results := fun i k r h => (hop i).1 (r, k) (mk_mem_zipIdx_iff_getElem?.2 h)
        args := fun b k a h => (hblock b).1 (a, k) (mk_mem_zipIdx_iff_getElem?.2 h)
        parent := fun b => (hblock b).2.1
        opsNodup := fun b => (hblock b).2.2.1
        body := fun i b h => ((hop i).2 b (Option.mem_toList.2 h)).1
        owns := fun i c hc b h => ((hop i).2 b (Option.mem_toList.2 h)).2 (by simp [hc])
        owner := fun b i h => (hblock b).2.2.2 i (Option.mem_toList.2 h)
        used := fun v => (hvalue v).1
        usesNodup := fun v => (hvalue v).2 }

instance (g : Graph) : Decidable (Sane g) := decidable_of_iff _ Sane.iff_entries.symm

end ConvNest.Program
