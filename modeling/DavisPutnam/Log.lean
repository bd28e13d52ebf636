/-!
The log: messages, and what is shown of them.

What is shown is settled by the library that the command logs with, from the threshold
that the command asks for and the filters that it is started with. So a logger stands
here for any choice of messages, and for whatever is reported while it is set up.
-/

namespace DavisPutnam

/-- The weight of a log message, gravest first. -/
inductive Level where
  | error
  | warn
  | info
  | debug
  | trace
deriving DecidableEq, Repr

/-- The name in front of a message of this level. -/
def Level.name : Level → String
  | .error => "ERROR"
  | .warn => "WARN"
  | .info => "INFO"
  | .debug => "DEBUG"
  | .trace => "TRACE"

/-- A log message, with the part of the program that it comes from. -/
structure Message where
  target : String
  level : Level
  text : String
deriving DecidableEq, Repr

/-- The lightest level that is asked for; `none` asks for no message. -/
abbrev Threshold := Option Level

/-- The threshold for a number of requests for more messages. -/
def Threshold.ofVerbosity : Nat → Threshold
  | 0 => some .warn
  | 1 => some .info
  | 2 => some .debug
  | _ => some .trace

/-- A log that is set up. -/
structure Logger where
  /-- Which messages are shown. -/
  shows : Message → Bool
  /-- The lines on standard error about the filters that make no sense. -/
  notices : List String := []

end DavisPutnam
