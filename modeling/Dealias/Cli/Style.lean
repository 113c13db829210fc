import Dealias.Settings.Layers

/-!
# Styled text

Colours on a terminal, and the status lines that use them.
-/

namespace Dealias.Cli

/-- How a text is shown. -/
inductive Style where
  | title
  | good
  | notice
  | bad
  | goodSign
  | infoSign
  | warningSign
  | errorSign
deriving DecidableEq, Repr

/-- The codes that turn a style on. -/
def Style.codes : Style → String
  | title => "1;4"
  | good => "32"
  | notice => "33"
  | bad => "31"
  | goodSign => "32;1"
  | infoSign => "34;1"
  | warningSign => "33;1"
  | errorSign => "31;1"

/-- Show a text in a style if colours are on. -/
def paint (coloured : Bool) (style : Style) (text : String) : String :=
  if coloured then "\x1b[" ++ style.codes ++ "m" ++ text ++ "\x1b[0m" else text

/-- Whether a variable is set, to whatever value. -/
def isSet (environment : Environment) (name : String) : Bool :=
  environment.entries.any fun entry => entry.1 == name

/-- Whether colours are wanted: `NO_COLOR` turns them off, `FORCE_COLOR` turns them on, and
otherwise the terminal decides. -/
def wantsColours (environment : Environment) (terminalHasColours : Bool) : Bool :=
  if isSet environment "NO_COLOR" then false
  else isSet environment "FORCE_COLOR" || terminalHasColours

/-- Whether colours are on. -/
def coloursOn (noColor : Bool) (environment : Environment) (terminalHasColours : Bool) : Bool :=
  !noColor && wantsColours environment terminalHasColours

/-! ## Status lines -/

/-- A line about something done. -/
def successLine (coloured : Bool) (text : String) : String :=
  paint coloured .goodSign "✓" ++ " " ++ text

/-- A line of information. -/
def infoLine (coloured : Bool) (text : String) : String :=
  paint coloured .infoSign "ℹ" ++ " " ++ text

/-- A warning. -/
def warningLine (coloured : Bool) (text : String) : String :=
  paint coloured .warningSign "⚠" ++ " " ++ paint coloured .notice text

/-- A line about a failure. -/
def errorLine (coloured : Bool) (text : String) : String :=
  paint coloured .errorSign "✗" ++ " " ++ paint coloured .bad text

end Dealias.Cli
