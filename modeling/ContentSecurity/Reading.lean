import ContentSecurity.Error
import ContentSecurity.Event
/-!
# Readings

A reading is the result of reading something, an error or a value, together with the events that
happened until then.  Readings follow each other with `bind`: the events add up, and after an error
nothing more is read.
-/

namespace ContentSecurity

/-- What was read, or why it could not be, and what happened on the way. -/
structure Reading (α : Type) where
  events : List Event
  result : Except Error α

namespace Reading

variable {α β : Type}

/-- Nothing happens, and this is the value. -/
protected def pure (value : α) : Reading α :=
  ⟨[], .ok value⟩

/-- Read on with the value, if there is one. -/
protected def bind (first : Reading α) (next : α → Reading β) : Reading β :=
  match first.result with
  | .ok value => ⟨first.events ++ (next value).events, (next value).result⟩
  | .error error => ⟨first.events, .error error⟩

/-- The same with another value. -/
protected def map (f : α → β) (reading : Reading α) : Reading β :=
  { reading with result := reading.result.map f }

instance : Monad Reading where
  pure := Reading.pure
  bind := Reading.bind
  map := Reading.map

/-- The result of something that gives rise to no event. -/
def ofExcept (result : Except Error α) : Reading α :=
  ⟨[], result⟩

/-- Events that happen now. -/
def emitAll (events : List Event) : Reading Unit :=
  ⟨events, .ok ()⟩

/-- An event that happens now. -/
def emit (event : Event) : Reading Unit :=
  emitAll [event]

/-- A parse tree has a defect, which is both an event and an error. -/
def report (fault : Defect) : Reading α :=
  ⟨[.defect fault], .error (.defect fault)⟩

/-- The same with another error. -/
def mapError (f : Error → Error) (reading : Reading α) : Reading α :=
  { reading with result := reading.result.mapError f }

end Reading

end ContentSecurity
