import Mathlib.Algebra.Ring.Int.Defs
import Mathlib.Algebra.Ring.Nat

/-!
# `flagcxResult_t`

The result codes shared by every component (`flagcx/include/flagcx.h`).
-/

namespace FlagCX

/-- `flagcxResult_t`, without the `flagcxNumResults` marker. -/
inductive Result where
  | success
  | unhandledDeviceError
  | systemError
  | internalError
  | invalidArgument
  | invalidUsage
  | remoteError
  | inProgress
  | unhandledCCLError
  | notSupported
  deriving DecidableEq, Repr

/-- `FLAGCXCHECK` goes on after these. -/
def Result.accepted (result : Result) : Bool := result = .success ∨ result = .inProgress

end FlagCX
