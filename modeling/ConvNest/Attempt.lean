/-
# Attempts

Work on a program can end in three ways: with a result, with a failure, or by a fault.  An `Attempt`
edits the program, and keeps its changes when it fails; an `Inquiry` only looks at it.
-/
import ConvNest.Failure
import ConvNest.Program.Edit

namespace ConvNest

open Program

/-- A question about a program that can fail. -/
abbrev Inquiry := ExceptT Failure (Except Fault)

/-- An edit of a program that can fail. -/
abbrev Attempt := ExceptT Failure Edit

/-- Fails unless something holds. -/
@[macro_inline] def Inquiry.demand (holds : Bool) (why : Failure) : Inquiry Unit :=
  if holds then pure () else throw why

/-- A question is an attempt that changes nothing. -/
instance : MonadLift Inquiry Attempt :=
  ⟨fun q => ExceptT.mk (liftM (n := Edit) q.run)⟩

end ConvNest
