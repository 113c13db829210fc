/-!
# Events

What a run tells about itself while it works: a message with named values, at one of three levels.
-/

namespace Dealias

/-- How serious an event is. -/
inductive Level where
  | info
  | warning
  | failure
deriving DecidableEq, Repr

/-- The name of a level in a log line. -/
def Level.label : Level → String
  | info => "INFO"
  | warning => "WARN"
  | failure => "ERROR"

/-- A message with named values. -/
structure Event where
  level : Level
  message : String
  fields : List (String × String)
deriving DecidableEq, Repr

/-- An event as one log line. -/
def Event.line (event : Event) : String :=
  String.intercalate "|"
    (event.level.label :: event.message ::
      event.fields.map fun field => field.1 ++ "=" ++ field.2)

end Dealias
