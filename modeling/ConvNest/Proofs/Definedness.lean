/-
# Verified functions read what they have defined

Verification keeps one set of visible values, which it extends from operation to operation and cuts
back at the end of every body; a run keeps one environment for all bodies and all their iterations.
The two fit together: a run of a verified function never reads a value that has no datum yet, never
comes to the end of a block without a terminator, and never starts an operation that is erased
(`verify_defined`).

An operation without a body may be created with any number of results, and gives a datum to the
first one only.  Verification takes all of them for defined, so a function that reads another one is
verified and fails (`verify_defined_twin`).
-/
import ConvNest.Program.Build
import ConvNest.Proofs.Contents
import ConvNest.Proofs.Soundness

namespace ConvNest.Program

open Node

/-- No operation of the function reads another result than the first one of an operation without a
body. -/
def Graph.ReadsFirst (g : Graph) (f : FuncId) : Prop :=
  ∀ i j, g.Contains f i → g.Contains f j → g.kind i ≠ .forLoop → g.kind i ≠ .generic →
    ∀ v ∈ (g.op i).results.drop 1, v ∉ (g.op j).operands

section Definedness

variable {g : Graph} {f : FuncId}

/-- Nothing is asked of data here: every node keeps to that. -/
theorem disciplined_of_true {g : Graph} (n : Node) : Disciplined g (fun _ _ => True) n where
  leaf _ _ _ _ _ _ _ := trivial
  element _ _ _ _ _ _ _ _ _ _ _ := trivial
  store _ _ _ _ _ _ _ _ _ _ _ _ _ _ _ _ := trivial

/-- **A run of a verified function never reads a value before it is defined, never runs out of a
block, and never starts an erased operation**, at any depth and in any iteration.  What `verify`
takes for visible at an operation was given a datum by the operations before it and by those around
it, and the data of an earlier iteration only add to that.  It asks nothing of the number of results
of an operation without a body, of which only the first gets a datum: `ReadsFirst` says that no
other one is read. -/
theorem verify_defined (hf : g.verify f = .ok ()) (hfirst : g.ReadsFirst f) (args : List Tensor) :
    (∀ v, g.run f args ≠ .error (.undefinedValue v)) ∧ g.run f args ≠ .error .noTerminator ∧
      ∀ m ∈ g.moments f args, ∀ i, m.op = some i → (g.op i).erased = false := by
  obtain ⟨b, params, ns, hb, hholds, hscope, hrules, hends⟩ := verify_holds hf
  let Read (v : ValueId) : Prop := ∃ m ∈ subsAll ns, v ∈ m.head.operands
  have hproper : ∀ n ∈ subsAll ns, Proper g (fun _ _ => True) Read n := by
    intro n hn
    refine ⟨hrules n hn, disciplined_of_true n, fun v hv => ⟨n, hn, hv⟩, ?_⟩
    rintro hs v hv ⟨m, hm, hread⟩
    obtain ⟨hl, hg⟩ := structured_false_iff.1 hs
    have hn' := hholds.held n hn
    have hm' := hholds.held m hm
    rw [← hn'.kind] at hl hg
    rw [← hn'.results] at hv
    rw [← hm'.operands] at hread
    exact hfirst n.id m.id ((hholds.contains_iff hb).2 ⟨n, hn, rfl⟩)
      ((hholds.contains_iff hb).2 ⟨m, hm, rfl⟩) hl hg v hv hread
  have hsound : (∀ e, g.run f args = .error e → e.incomplete = false) ∧
      Orderly g (fun _ _ => True) (g.moments f args) :=
    func_sound (fun _ => trivial) hb hholds hscope hproper hends fun _ _ _ _ _ => trivial
  obtain ⟨hfault, hmoments⟩ := hsound
  refine ⟨fun v hv => ?_, fun hv => ?_, fun m hm => (hmoments m hm).2⟩
  · exact absurd (hfault _ hv) (by simp [Fault.incomplete])
  · exact absurd (hfault _ hv) (by simp [Fault.incomplete])

end Definedness

/-! ## Functions that read one result, and two -/

/-- Operations with at most one result. -/
theorem readsFirst_of_single {g : Graph} (h : ∀ o ∈ g.ops, o.results.length ≤ 1) (f : FuncId) :
    g.ReadsFirst f := by
  intro i _ _ _ _ _ v hv
  rw [List.drop_eq_nil_of_le] at hv
  · cases hv
  · by_cases hi : i.idx < g.ops.size
    · exact h _ (by simp [Graph.op, hi])
    · rw [g.op_of_le (Nat.le_of_not_lt hi)]
      exact Nat.zero_le _

/-- A function that adds its argument to itself twice, in a loop around a generic operation. -/
def doubler : Editor :=
  let build : Edit Unit := do
    let f ← Edit.newFunc "doubler" [.tensor (.ofSizes .int32 [4])]
    Edit.setPoint (Edit.pointAtEnd (← Edit.bodyOf f))
    let zero ← Edit.constIndex 0
    let two ← Edit.constIndex 2
    let one ← Edit.constIndex 1
    let (outer, _) ← Edit.forLoop zero two one [⟨0⟩] fun _ carried => do
      let acc ← itemAt carried 0
      let along : Affine.Map := ⟨1, 0, [.dim 0]⟩
      let (sum, _) ← Edit.generic [acc] [acc] [] [along, along] [.parallel] fun args => do
        let x ← itemAt args 0
        let y ← itemAt args 1
        return ([← Edit.add x y], ())
      return ((← Edit.op sum).results, ())
    discard (Edit.funcReturn (← Edit.op outer).results)
  Edit.after build .empty

theorem verify_defined_doubler :
    doubler.graph.verify ⟨0⟩ = .ok () ∧ doubler.graph.ReadsFirst ⟨0⟩ ∧
    ∀ args, (∀ v, doubler.graph.run ⟨0⟩ args ≠ .error (.undefinedValue v)) ∧
      doubler.graph.run ⟨0⟩ args ≠ .error .noTerminator ∧
      ∀ m ∈ doubler.graph.moments ⟨0⟩ args, ∀ i, m.op = some i →
        (doubler.graph.op i).erased = false := by
  have hverify : doubler.graph.verify ⟨0⟩ = .ok () := toOption_eq_some.1 (by decide +kernel)
  have hfirst : doubler.graph.ReadsFirst ⟨0⟩ := readsFirst_of_single (by decide +kernel) _
  exact ⟨hverify, hfirst, verify_defined hverify hfirst⟩

/-- A function with a constant that has two results, the second of which is read. -/
def twin : Editor :=
  let build : Edit Unit := do
    let f ← Edit.newFunc "twin" [.tensor (.ofSizes .int32 [2])]
    Edit.setPoint (Edit.pointAtEnd (← Edit.bodyOf f))
    let c ← Edit.create .constant [] [.index, .index] (.constant 1 0) none
    discard (Edit.affineApply ⟨1, 0, [.dim 0]⟩ [← itemAt (← Edit.op c).results 1])
    discard (Edit.funcReturn [⟨0⟩])
  Edit.after build .empty

/-- Verification takes a result for defined that no operation gives a datum. -/
theorem verify_defined_twin :
    twin.graph.verify ⟨0⟩ = .ok () ∧
      twin.graph.run ⟨0⟩ [⟨.int32, [2], .ints #[10, 20]⟩] =
        .error (.undefinedValue "arith.constant#1 : index") := by
  constructor
  · exact toOption_eq_some.1 (by decide +kernel)
  · rfl

end ConvNest.Program
