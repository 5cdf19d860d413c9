/-
# How often a loop runs

The bounds and the step of a loop ask for as many iterations as the step goes into the range,
rounded up (`tripCount`).  The variable is a word, and as long as the value after the last one is a
word too, the loop runs so often and ends.  Otherwise the variable wraps around below the upper
bound, and the loop goes on (`Eval.forLoop_eq`).
-/
import ConvNest.Program.Build
import ConvNest.Program.Eval
import ConvNest.Program.Rewriter
import ConvNest.Proofs.Outcome
import ConvNest.Proofs.WordArith

namespace ConvNest.Program

open List

/-- The number of iterations that the bounds and the step of a loop ask for. -/
def tripCount (lower upper step : Int64) : Nat :=
  (-((lower.toInt - upper.toInt) / step.toInt)).toNat

/-- The variable of a loop in the given iteration, counted from zero. -/
def valueAt (lower step : Int64) (k : Nat) : Int64 := .ofInt (lower.toInt + k * step.toInt)

section Values

variable {lower upper step : Int64} {k : Nat}

theorem valueAt_zero : valueAt lower step 0 = lower := by simp [valueAt]

theorem valueAt_succ : valueAt lower step k + step = valueAt lower step (k + 1) := by
  have hnext : lower.toInt + ((k + 1 : Nat) : Int) * step.toInt = lower.toInt + k * step.toInt +
      step.toInt := by
    rw [Nat.cast_succ, add_mul, one_mul, add_assoc]
  rw [valueAt, valueAt, hnext, Int64.ofInt_add _ step.toInt, Int64.ofInt_toInt]

theorem toInt_valueAt (h : Word.Fits (lower.toInt + k * step.toInt)) :
    (valueAt lower step k).toInt = lower.toInt + k * step.toInt := by
  rw [valueAt, Int64.toInt_ofInt]
  exact Word.bmod_of_fits h

variable (hstep : 0 < step)

include hstep

theorem lt_of_lt_tripCount (hk : k < tripCount lower upper step) :
    lower.toInt + k * step.toInt < upper.toInt := by
  have hquot : (lower.toInt - upper.toInt) / step.toInt < -(k : Int) := by
    rw [tripCount] at hk
    omega
  rw [Int.ediv_lt_iff_lt_mul (Word.toInt_pos hstep), Int.neg_mul] at hquot
  omega

theorem le_tripCount (lower upper : Int64) :
    upper.toInt ≤ lower.toInt + tripCount lower upper step * step.toInt := by
  have hquot : -(tripCount lower upper step : Int) ≤ (lower.toInt - upper.toInt) / step.toInt := by
    rw [tripCount]
    omega
  rw [Int.le_ediv_iff_mul_le (Word.toInt_pos hstep), Int.neg_mul] at hquot
  omega

/-- No value that the bounds ask for wraps around. -/
theorem fits_of_lt_tripCount (hk : k < tripCount lower upper step) :
    Word.Fits (lower.toInt + k * step.toInt) := by
  have hlow := lower.le_toInt
  have hhigh := upper.toInt_lt
  have hlt := lt_of_lt_tripCount hstep hk
  have hnonneg : 0 ≤ k * step.toInt := mul_nonneg (by omega) (Word.toInt_pos hstep).le
  exact ⟨by omega, by omega⟩

theorem tripCount_lt_wordCount (lower upper : Int64) :
    tripCount lower upper step < Eval.wordCount := by
  have hlow := lower.le_toInt
  have hhigh := upper.toInt_lt
  by_contra hge
  have hpos := Word.toInt_pos hstep
  have hlt : lower.toInt + ((2 ^ 64 - 1 : Nat) : Int) * step.toInt < upper.toInt :=
    lt_of_lt_tripCount hstep (by simp only [Eval.wordCount, UInt64.size] at hge; omega)
  omega

/-- The value after the last one that the bounds ask for ends the loop, unless it wraps around. -/
theorem valueAt_tripCount : valueAt lower step (tripCount lower upper step) < upper ↔
    ¬ Word.Fits (lower.toInt + tripCount lower upper step * step.toInt) := by
  have hle := le_tripCount hstep lower upper
  rw [Int64.lt_iff_toInt_lt]
  constructor
  · intro hlt hfits
    rw [toInt_valueAt hfits] at hlt
    omega
  · intro hfits
    have hlow := lower.le_toInt
    have hword := step.toInt_lt
    have hlast : lower.toInt + tripCount lower upper step * step.toInt <
        upper.toInt + step.toInt := by
      cases hn : tripCount lower upper step with
      | zero =>
        refine absurd ?_ hfits
        rw [hn, Nat.cast_zero, zero_mul, add_zero]
        exact Word.fits_toInt lower
      | succ n =>
        have : lower.toInt + n * step.toInt < upper.toInt := lt_of_lt_tripCount hstep (by omega)
        rw [Nat.cast_succ, add_mul, one_mul]
        omega
    have hnonneg : 0 ≤ tripCount lower upper step * step.toInt :=
      mul_nonneg (by omega) (Word.toInt_pos hstep).le
    rw [Word.Fits] at hfits
    rw [valueAt, Int64.toInt_ofInt, show Int64.size = 2 ^ 64 from rfl, Int.bmod_def]
    omega

end Values

namespace Eval

/-- One iteration of a loop, whose body is run by `block`. -/
def iteration (g : Graph) (block : BlockId → Eval (List Datum)) (i : OpId) (args : List ValueId)
    (carried : List Datum) (iv : Int64) : Eval (List Datum) := do
  define (← g.inductionVar i) (.index iv)
  bindCarried args carried
  block (← g.bodyId i)

section Loops

variable {lower upper step : Int64} {f : List Datum → Int64 → Eval (List Datum)}

/-- While its variable is below the upper bound, a loop walks over the values of the variable. -/
theorem loop_while {m n j : Nat} (h : ∀ k < n, valueAt lower step (j + k) < upper)
    (c : List Datum) :
    loop upper step (fun iv c => f c iv) (m + n) (valueAt lower step j) c = (do
      let c ← ((range' j n).map (valueAt lower step)).foldlM f c
      loop upper step (fun iv c => f c iv) m (valueAt lower step (j + n)) c) := by
  induction n generalizing j c with
  | zero => simp
  | succ n ih =>
    have hrest : ∀ k < n, valueAt lower step (j + 1 + k) < upper := fun k hk => by
      rw [Nat.add_assoc, Nat.add_comm 1]
      exact h (k + 1) (by omega)
    rw [← Nat.add_assoc, loop, if_pos (show valueAt lower step j < upper from h 0 (by omega)),
      range'_succ, map_cons, foldlM_cons, bind_assoc]
    refine bind_congr fun c => ?_
    rw [valueAt_succ, ih hrest, Nat.add_assoc j, Nat.add_comm 1]

/-- A loop makes the iterations that its bounds ask for, and then ends or goes on. -/
theorem loop_eq (hstep : 0 < step) (c : List Datum) :
    loop upper step (fun iv c => f c iv) wordCount lower c = (do
      let n := tripCount lower upper step
      let c ← ((range n).map (valueAt lower step)).foldlM f c
      if Word.Fits (lower.toInt + n * step.toInt) then pure c
      else do
        let c ← f c (valueAt lower step n)
        loop upper step (fun iv c => f c iv) (wordCount - n - 1)
          (valueAt lower step (n + 1)) c) := by
  have hcount := tripCount_lt_wordCount hstep lower upper
  have hbelow : ∀ k < tripCount lower upper step, valueAt lower step (0 + k) < upper := by
    intro k hk
    rw [Nat.zero_add, Int64.lt_iff_toInt_lt, toInt_valueAt (fits_of_lt_tripCount hstep hk)]
    exact lt_of_lt_tripCount hstep hk
  have hwhile := loop_while (m := wordCount - tripCount lower upper step) (f := f) hbelow c
  rw [Nat.sub_add_cancel hcount.le, valueAt_zero, ← range_eq_range', Nat.zero_add] at hwhile
  rw [hwhile]
  refine bind_congr fun c => ?_
  obtain ⟨m, hm⟩ : ∃ m, wordCount - tripCount lower upper step = m + 1 :=
    ⟨_, (Nat.sub_add_cancel (by omega)).symm⟩
  rw [hm, loop, Nat.add_sub_cancel, valueAt_succ]
  by_cases hfits : Word.Fits (lower.toInt + tripCount lower upper step * step.toInt)
  · rw [if_neg fun hlt => (valueAt_tripCount hstep).1 hlt hfits, if_pos hfits]
  · rw [if_pos ((valueAt_tripCount hstep).2 hfits), if_neg hfits]

/-- **A loop runs its body as often as its bounds ask for**, with the values that they ask for,
threading the carried data through; and that is all, as long as the value after the last one is a
word.  Otherwise the variable wraps around, the body runs at least once more, and the loop goes on
from there. -/
theorem forLoop_eq (g : Graph) (block : BlockId → Eval (List Datum)) (i : OpId) :
    (forLoop g block i = do
      let lower ← index g (← g.operand i 0)
      let upper ← index g (← g.operand i 1)
      let step ← index g (← g.operand i 2)
      if step ≤ 0 then throw (.loopStep step)
      let inits ← (← g.inits i).mapM (datum g)
      let args ← g.carried i
      let n := tripCount lower upper step
      let outs ← ((range n).map (valueAt lower step)).foldlM (iteration g block i args) inits
      let outs ← (if Word.Fits (lower.toInt + n * step.toInt) then pure outs else do
        let outs ← iteration g block i args outs (valueAt lower step n)
        loop upper step (fun iv c => iteration g block i args c iv) (wordCount - n - 1)
          (valueAt lower step (n + 1)) outs)
      defineAll (g.op i).results outs) ∧
    ∀ lower upper step : Int64, 0 < step → ∀ k < tripCount lower upper step,
      (valueAt lower step k).toInt = lower.toInt + k * step.toInt := by
  refine ⟨?_, fun lower upper step hstep k hk => toInt_valueAt (fits_of_lt_tripCount hstep hk)⟩
  unfold forLoop
  refine bind_congr fun _ => bind_congr fun lower => bind_congr fun _ => bind_congr fun upper =>
    bind_congr fun _ =>
    bind_congr fun step => ?_
  by_cases hneg : step ≤ 0
  · simp only [hneg, if_true]
    rfl
  · have hstep : 0 < step := Int64.not_le.1 hneg
    simp only [hneg, if_false]
    refine bind_congr fun _ => bind_congr fun inits => bind_congr fun args => ?_
    rw [← bind_assoc]
    exact congrArg (· >>= defineAll (g.op i).results) (loop_eq hstep inits)

/-- A function with a loop from one to eight in steps of three, which hands on its variable. -/
def stepping : Editor :=
  let build : Edit Unit := do
    let f ← Edit.newFunc "stepping" []
    Edit.setPoint (Edit.pointAtEnd (← Edit.bodyOf f))
    let one ← Edit.constIndex 1
    let eight ← Edit.constIndex 8
    let three ← Edit.constIndex 3
    let _ ← Edit.forLoop one eight three [one] fun iv _ => return ([iv], ())
  Edit.after build .empty

/-- The longest loop that ends at all runs once for each word but the last.  The loop of `stepping`
runs at one, four and seven, and hands on the seven. -/
theorem forLoop_eq_longest : tripCount (-2 ^ 63) (2 ^ 63 - 1) 1 = 2 ^ 64 - 1 ∧
    (valueAt (-2 ^ 63) 1 (2 ^ 64 - 2)).toInt =
      (-2 ^ 63 : Int64).toInt + ((2 ^ 64 - 2 : Nat) : Int) * (1 : Int64).toInt ∧
    tripCount 1 8 3 = 3 ∧
    (do
      define ⟨0⟩ (.index 1)
      define ⟨1⟩ (.index 8)
      define ⟨2⟩ (.index 3)
      forLoop stepping.graph (fun _ => do return [← datum stepping.graph ⟨3⟩]) ⟨3⟩
      index stepping.graph ⟨5⟩ : Eval Int64).run' ∅ = some 7 := by
  refine ⟨by decide +kernel, ?_, by decide +kernel, ?_⟩
  · exact (forLoop_eq .empty (fun _ => pure []) ⟨0⟩).2 _ (2 ^ 63 - 1) _ (by decide) _
      (by decide +kernel)
  · rw [(forLoop_eq stepping.graph _ ⟨3⟩).1]
    decide +kernel

end Loops

/-- Near the end of the words a loop passes its upper bound: one iteration is asked for, and three
are made. -/
theorem loop_overruns : tripCount (2 ^ 63 - 3) (2 ^ 63 - 1) 6148914691236517206 = 1 ∧
    (outcome (loop (2 ^ 63 - 1) 6148914691236517206 (fun iv c => pure (.index iv :: c)) wordCount
      (2 ^ 63 - 3) []) ∅).map (·.1.length) = some 3 :=
  ⟨by decide +kernel, by decide +kernel⟩

end Eval

end ConvNest.Program
