/-!
# How a call ends early

`include/mwr/core/report.h` has two ways to give up.  `MWR_REPORT` throws a
`mwr::report` with a formatted message, which a caller may catch.  `MWR_ERROR`
prints the message and aborts the process.  The embedding adds the two ways in
which a translated function can go wrong without saying so: an access outside
the memory it may touch, and a loop or a recursion that uses up the bound the
embedding gives it.  The theorems of this project show that neither happens.
-/

namespace Mwr

/-- The reasons for which a call does not return. -/
inductive Fault where
  /-- `MWR_REPORT`: an exception with its message. -/
  | report (message : String)
  /-- `MWR_ERROR`: the message is printed and the process aborts. -/
  | error (message : String)
  /-- An access through a null or dangling pointer, or outside a buffer. -/
  | segfault
  /-- The bound that the embedding puts on a loop or a recursion ran out. -/
  | fuel
  deriving DecidableEq, Repr

/-- `MWR_REPORT_ON(cond, message)`. -/
def reportOn {σ : Type} (cond : Prop) [Decidable cond] (message : String) :
    StateT σ (Except Fault) Unit :=
  if cond then throw (.report message) else pure ()

/-- `MWR_ERROR_ON(cond, message)`. -/
def errorOn {σ : Type} (cond : Prop) [Decidable cond] (message : String) :
    StateT σ (Except Fault) Unit :=
  if cond then throw (.error message) else pure ()

theorem reportOn_run {σ : Type} {cond : Prop} [Decidable cond] (h : ¬ cond) (message : String)
    (s : σ) : (reportOn cond message).run s = .ok ((), s) := by
  rw [reportOn, if_neg h]
  rfl

end Mwr
