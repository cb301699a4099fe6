-- Why a search for programs gave no answer.
import SymbolInduction.Panic

namespace SymbolInduction

/-- The failures that a search reports. -/
inductive OracleError where
  | unavailable (reason : String)
  | timeout
  deriving DecidableEq, Inhabited

/-- What is said of a failed search. -/
def OracleError.message : OracleError → String
  | .unavailable reason => "oracle unavailable: " ++ reason
  | .timeout => "oracle timed out"

/-- Why a search ends without findings: it reports a failure, or the program
stops in it. -/
inductive OracleFailure where
  | reported (e : OracleError)
  | panicked (p : Panic)
  deriving DecidableEq, Inhabited

end SymbolInduction
