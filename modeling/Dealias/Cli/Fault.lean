import Dealias.Project.Basic
import Dealias.Run

/-!
# Faults of the command

Whatever keeps the command from finishing, with the text that is shown.
-/

namespace Dealias.Cli

/-- Why the command fails. -/
inductive CommandFault where
  | project (fault : ProjectFault)
  | run (fault : RunFault)
  | store (fault : StoreFault)
  | custom (text : String)
deriving DecidableEq, Repr

namespace CommandFault

/-- The wording of a fault. -/
def message : CommandFault → String
  | project fault => "Configuration error: " ++ fault.message
  | run fault => "Rewrite failed: " ++ fault.message
  | store fault => fault.message
  | custom text => text

/-- The text of the final report.  A fault of the run speaks for itself there. -/
def report : CommandFault → String
  | run fault => fault.message
  | fault => fault.message

/-- The fault with a text in front that says what was under way. -/
def inContext (fault : CommandFault) (activity : String) : CommandFault :=
  custom (activity ++ ": " ++ fault.message)

end CommandFault
end Dealias.Cli
