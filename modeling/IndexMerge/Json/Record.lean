import IndexMerge.Json.Reader

/-!
# Records in JSON

A record is given as an object, or as an array of its first fields in order. A field is given at
most once. Whether there may be other fields is up to the record.
-/

namespace IndexMerge.Json

/-- The fields of a record that a value gives. -/
def record? (names : List String) (allowsOthers : Bool) : Json → Option (List (String × Json))
  | array items => if items.length ≤ names.length then some (names.zip items) else none
  | object fields => do
    let fields ← fields.mapM fun (name, value) => name.map (·, value)
    let known := fields.filter fun (name, _) => names.contains name
    if !allowsOthers && known.length != fields.length then none
    if names.any fun name => 1 < known.countP (·.1 == name) then none
    return known
  | _ => none

/-- A number below a bound, written with digits only. -/
def nat? (bound : Nat) : Json → Option Nat
  | number literal => do
    let digits := literal.toList
    if !digits.all Char.isDigit then none
    let n := digits.foldl (fun n c => 10 * n + (c.toNat - 48)) 0
    if n < bound then some n else none
  | _ => none

/-- A truth value. -/
def bool? : Json → Option Bool
  | bool value => some value
  | _ => none

/-- A number of 16 bits. -/
def u16? (value : Json) : Option UInt16 := (value.nat? UInt16.size).map UInt16.ofNat

/-- A number of 32 bits. -/
def u32? (value : Json) : Option UInt32 := (value.nat? UInt32.size).map UInt32.ofNat

/-- An array of numbers of 32 bits. -/
def words? : Json → Option (List UInt32)
  | array items => items.mapM u32?
  | _ => none

/-- A field that has to be given. -/
def required? {α : Type} (fields : List (String × Json)) (name : String)
    (decode : Json → Option α) : Option α :=
  fields.lookup name >>= decode

/-- A field that may be left out. -/
def optional? {α : Type} (fields : List (String × Json)) (name : String)
    (decode : Json → Option α) (default : α) : Option α :=
  match fields.lookup name with
  | some value => decode value
  | none => some default

end IndexMerge.Json
