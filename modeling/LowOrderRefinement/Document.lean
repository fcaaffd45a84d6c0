/-! Documents: trees of values as they are stored and exchanged in text. A number keeps
whether it was written as a whole number, because sizes are. A negative zero is
no whole number, and its sign is kept. -/

namespace LowOrderRefinement

-- powers have one meaning, whatever is imported
attribute [local instance (1100)] instPowNat

/-- A tree of values. -/
inductive Document
  | null
  | bool (value : Bool)
  | integer (value : Int)
  /-- The number `mantissa / 10 ^ places` with its sign. -/
  | decimal (negative : Bool) (mantissa places : Nat)
  | string (value : String)
  | list (items : List Document)
  | object (fields : List (String × Document))
deriving Inhabited

namespace Document

def floatOfInt (n : Int) : Float :=
  let magnitude := Float.ofNat n.natAbs
  if n < 0 then -magnitude else magnitude

def bool? : Document → Option Bool
  | bool b => some b
  | _ => none

def size? : Document → Option Nat
  | integer n => if 0 ≤ n ∧ n < 2 ^ (64 : Nat) then some n.toNat else none
  | _ => none

/-- The floating-point number nearest to a number. -/
def float? : Document → Option Float
  | integer n => some (floatOfInt n)
  | decimal negative mantissa places =>
    let magnitude := Float.ofScientific mantissa true places
    some (if negative then -magnitude else magnitude)
  | _ => none

def optional? {β : Type} (decode : Document → Option β) : Document → Option (Option β)
  | null => some none
  | d => (decode d).map some

/-- One of several names, alone or as the only field of an object without a value. -/
def choice? {β : Type} (choices : List (String × β)) : Document → Option β
  | string name => choices.lookup name
  | object [(name, null)] => choices.lookup name
  | _ => none

def ofChoice {β : Type} [DecidableEq β] (choices : List (String × β)) (value : β) : Document :=
  match choices.find? fun c => c.2 = value with
  | some (name, _) => string name
  | none => null

/-- The named fields of a record, which is written as an object or as the list of its values. -/
def fields? (names : List String) : Document → Option (List (Option Document))
  | object fields => some (names.map fun name => fields.lookup name)
  | list items =>
    if items.length ≤ names.length then
      some (names.zipIdx.map fun (_, i) => items[i]?)
    else none
  | _ => none

def required? {β : Type} (decode : Document → Option β) (field : Option Document) : Option β :=
  field.bind decode

/-- A field with a value for when it is not there. -/
def defaulted? {β : Type} (default : β) (decode : Document → Option β) :
    Option Document → Option β
  | none => some default
  | some d => decode d

end Document

end LowOrderRefinement
