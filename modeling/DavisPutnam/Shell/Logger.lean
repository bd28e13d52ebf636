import DavisPutnam.Log

/-!
Setting up the log.

The filters come from outside, in the language of a logging library. Only the bare names
of levels are understood here, and any other filter is passed over without a notice. The
answer of the command does not depend on this, since it is the same for every logger.
-/

namespace DavisPutnam.Shell

/-- The place of a level in the order of weight, from 1. -/
def rank : Level → Nat
  | .error => 1
  | .warn => 2
  | .info => 3
  | .debug => 4
  | .trace => 5

/-- Whether a message of the given level is shown. -/
def admits (threshold : Threshold) (level : Level) : Bool :=
  match threshold with
  | none => false
  | some lightest => rank level ≤ rank lightest

/-- The threshold that a name asks for, in upper or lower case. -/
def threshold? (name : String) : Option Threshold :=
  match name.toLower with
  | "off" => some none
  | "error" => some (some .error)
  | "warn" => some (some .warn)
  | "info" => some (some .info)
  | "debug" => some (some .debug)
  | "trace" => some (some .trace)
  | _ => none

/-- Sets up the log by the level that the filters name if they name one, else by the
threshold. -/
def setUp (threshold : Threshold) (filters : Option String) : Logger where
  shows message := admits ((filters.bind threshold?).getD threshold) message.level

end DavisPutnam.Shell
