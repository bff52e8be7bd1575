import ContentSecurity.Defect
/-!
# Events

What a reader or an editor of policies did that somebody may want to know.  Events are values: the
functions that give rise to them return them in the order in which they happened.
-/

namespace ContentSecurity

/-- How much attention an event asks for. -/
inductive Level where
  | trace
  | debug
  | warn
  deriving DecidableEq, Repr

/-- The word for a level. -/
def Level.name : Level → String
  | .trace => "TRACE"
  | .debug => "DEBUG"
  | .warn => "WARN"

/-- Something that happened. -/
inductive Event where
  /-- The value of a directive is about to be read. -/
  | dispatching (name value : String)
  /-- A directive that takes no value has one. -/
  | ignoredValue (value name : String)
  /-- A directive of the header repeats a name. -/
  | duplicate (writtenName : String)
  /-- A directive of the header has an unknown name. -/
  | unrecognized (writtenName : String)
  /-- A directive was added whose name is present already. -/
  | alreadyPresent (name : String)
  /-- A directive was made up to hold sources. -/
  | synthesised (name : String)
  /-- A parse tree has an unexpected shape. -/
  | defect (fault : Defect)
  deriving DecidableEq, Repr

namespace Event

def level : Event → Level
  | .dispatching .. => .trace
  | .defect _ => .warn
  | _ => .debug

/-- An event in words. -/
def message : Event → String
  | .dispatching name value => "Dispatching directive " ++ name ++ " = " ++ Text.quoted value
  | .ignoredValue value name =>
    "Ignoring value " ++ Text.quoted value ++ " of valueless directive " ++ name
  | .duplicate writtenName => "Ineffective duplicate directive " ++ writtenName
  | .unrecognized writtenName => "Unrecognized directive " ++ writtenName
  | .alreadyPresent name => "Directive " ++ name ++ " already present, stored as ineffective"
  | .synthesised name => "Synthesising " ++ name ++ " for merged sources"
  | .defect fault => "CSP grammar/dispatcher mismatch: " ++ fault.message

/-- What a log keeps of an event. -/
def record (event : Event) : Level × String :=
  (event.level, event.message)

end Event

end ContentSecurity
