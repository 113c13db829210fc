import Dealias.Number.Rounding

/-!
# Durations

A duration is shown in milliseconds below one second, in seconds with two decimal places below one
minute, and in minutes and seconds from there on.
-/

namespace Dealias.Cli

/-- A span of time: whole seconds, and nanoseconds below one second. -/
structure Duration where
  seconds : Nat
  nanoseconds : Fin 1000000000
deriving DecidableEq, Repr

namespace Duration

/-- The duration of some seconds and some nanoseconds, however many. -/
def make (seconds nanoseconds : Nat) : Duration where
  seconds := seconds + nanoseconds / 1000000000
  nanoseconds := ⟨nanoseconds % 1000000000, Nat.mod_lt _ (by decide)⟩

/-- The whole milliseconds of a duration. -/
def milliseconds (duration : Duration) : Nat :=
  duration.seconds * 1000 + duration.nanoseconds.val / 1000000

/-- The seconds of a duration, as a number with 53 significant bits. -/
def inSeconds (duration : Duration) : Rat :=
  roundToDouble (roundToDouble (mkRat duration.seconds 1) +
    roundToDouble (mkRat duration.nanoseconds.val 1000000000))

/-- A duration as a text. -/
def text (duration : Duration) : String :=
  if duration.milliseconds < 1000 then toString duration.milliseconds ++ "ms"
  else if duration.milliseconds < 60000 then toFixed 2 duration.inSeconds ++ "s"
  else toString (duration.seconds / 60) ++ "m " ++ toString (duration.seconds % 60) ++ "s"

end Duration
end Dealias.Cli
