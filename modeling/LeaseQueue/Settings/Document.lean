/-
  Documents: the untyped values that settings are written in.

  A reader of a type is a partial function from documents. A record type is
  written with its fields by name, in any order and among others, or as the
  list of all its fields in their order.
-/

namespace LeaseQueue

/-- An untyped value. -/
inductive Document where
  | null
  | bool (b : Bool)
  /-- A whole number, written as one. -/
  | whole (n : Int)
  /-- Any other number. -/
  | real (x : Float)
  | text (s : String)
  | list (items : List Document)
  | record (fields : List (String × Document))

namespace Document

def asBool? : Document → Option Bool
  | .bool b => some b
  | _ => none

def asText? : Document → Option String
  | .text s => some s
  | _ => none

def asList? : Document → Option (List Document)
  | .list items => some items
  | _ => none

/-- A natural number below the bound; a number with a fraction or an exponent is none. -/
def asNatBelow? (bound : Nat) : Document → Option Nat
  | .whole (.ofNat n) => if n < bound then some n else none
  | _ => none

def asFloat? : Document → Option Float
  | .whole n => some (Float.ofInt n)
  | .real x => some x
  | _ => none

/-- The named fields of a record; `none` for one that is not there. Of two fields of one name the
last counts. -/
def fields? (names : List String) : Document → Option (List (Option Document))
  | .record fields => some (names.map fun n => fields.reverse.lookup n)
  | .list items => if items.length = names.length then some (items.map some) else none
  | _ => none

/-- A field that must be there. -/
def required {α : Type} (read : Document → Option α) : Option Document → Option α
  | none => none
  | some d => read d

/-- A field that may be missing or null. -/
def optional {α : Type} (read : Document → Option α) : Option Document → Option (Option α)
  | none => some none
  | some .null => some none
  | some d => (read d).map some

/-- A field that may be missing, but not null. -/
def defaulted {α : Type} (value : α) (read : Document → Option α) : Option Document → Option α
  | none => some value
  | some d => read d

end Document

end LeaseQueue
