import Barline.Json.Value

/-!
# Reading typed data out of JSON

Readers for the shapes that documents are made of.  A record is an object with
named fields; it may also be given as an array of its fields in their order.
Names that a record does not know are ignored, but a name that it knows may
occur only once.

A value that has to be looked at more than once before its shape is known is
first kept whole, and then it must be sound all through: see `Json.isSound`.
-/

namespace Barline.Json

/-! ## Scalars -/

/-- A text. -/
def string? : Json → Option String
  | .string s => s
  | _ => none

/-- A truth value. -/
def bool? : Json → Option Bool
  | .bool b => some b
  | _ => none

/-- An integer in a range that lies within `-2 ^ 63 … 2 ^ 64 - 1`. -/
def integerIn? (bottom top : Int) : Json → Option Int
  | .number n => n.toInt?.filter fun i => decide (bottom ≤ i ∧ i ≤ top)
  | _ => none

/-- A natural number up to a bound. -/
def natural? (top : Nat) (v : Json) : Option Nat :=
  (integerIn? 0 top v).map Int.toNat

/-- A number of any form. -/
def float? : Json → Option Float
  | .number n => n.parts.scaled?
  | _ => none

/-- An integer of eight bits. -/
def uint8? (v : Json) : Option UInt8 := (natural? 255 v).map Nat.toUInt8

/-- An integer of sixteen bits. -/
def uint16? (v : Json) : Option UInt16 := (natural? 65535 v).map Nat.toUInt16

/-- An integer of thirty-two bits. -/
def uint32? (v : Json) : Option UInt32 := (natural? 0xFFFFFFFF v).map Nat.toUInt32

/-- An integer of sixty-four bits. -/
def uint64? (v : Json) : Option UInt64 := (natural? 0xFFFFFFFFFFFFFFFF v).map Nat.toUInt64

/-- A signed integer of eight bits. -/
def int8? (v : Json) : Option Int8 := (integerIn? (-128) 127 v).map Int8.ofInt

/-- A signed integer of sixteen bits. -/
def int16? (v : Json) : Option Int16 := (integerIn? (-32768) 32767 v).map Int16.ofInt

/-- A signed integer of thirty-two bits. -/
def int32? (v : Json) : Option Int32 := (integerIn? (-0x80000000) 0x7FFFFFFF v).map Int32.ofInt

/-- A signed integer of sixty-four bits. -/
def int64? (v : Json) : Option Int64 :=
  (integerIn? (-0x8000000000000000) 0x7FFFFFFFFFFFFFFF v).map Int64.ofInt

/-! ## Containers -/

/-- A list, each item read the same way. -/
def list? {α : Type} (read : Json → Option α) : Json → Option (List α)
  | .array items => items.mapM read
  | _ => none

/-- A value that may be null. -/
def nullable? {α : Type} (read : Json → Option α) : Json → Option (Option α)
  | .null => some none
  | v => (read v).map some

/-- One of several names, written as a string or as the only name of an object
whose value `isUnit` accepts. -/
def choice? (isUnit : Json → Bool) : Json → Option String
  | .string s => s
  | .object [(name, v)] => if isUnit v then name else none
  | _ => none

/-- Whether a value is null. -/
def isNull : Json → Bool
  | .null => true
  | _ => false

/-- Whether a value is null or an object without members. -/
def isVoid : Json → Bool
  | .null => true
  | .object [] => true
  | _ => false

/-! ## Records -/

/-- What a record says about one of its fields. -/
inductive Field where
  | given (v : Json)
  /-- The record is an object, and does not name the field. -/
  | unnamed
  /-- The record is an array, and ends before the field. -/
  | cut
  deriving Repr

namespace Field

/-- A field that has to be there. -/
def required? {α : Type} (read : Json → Option α) : Field → Option α
  | given v => read v
  | _ => none

/-- A field with a value of its own when it is left out. -/
def orElse? {α : Type} (missing : α) (read : Json → Option α) : Field → Option α
  | given v => read v
  | _ => some missing

/-- A field that may be null, or left out of an object but not of an array. -/
def optional? {α : Type} (read : Json → Option α) : Field → Option (Option α)
  | given v => nullable? read v
  | unnamed => some none
  | cut => none

/-- A field that may be null or left out. -/
def omissible? {α : Type} (read : Json → Option α) : Field → Option (Option α) :=
  orElse? none (nullable? read)

end Field

/-- The field of a name in an object; `none` when it is given more than once. -/
def namedField? (members : List (Option String × Json)) (name : String) : Option Field :=
  match members.filter fun m => m.1 == some name with
  | [] => some .unnamed
  | [m] => some (.given m.2)
  | _ => none

/-- The first `count` fields of an array; `none` when there are more. -/
def placedFields? : Nat → List Json → Option (List Field)
  | 0, [] => some []
  | 0, _ => none
  | count + 1, [] => (placedFields? count []).map (.cut :: ·)
  | count + 1, v :: rest => (placedFields? count rest).map (.given v :: ·)

/-- The fields of a record given as an object. -/
def objectFields? (names : List String) : Json → Option (List Field)
  | .object members =>
    if members.all fun m => m.1.isSome then names.mapM (namedField? members) else none
  | _ => none

/-- The fields of a record, in the order of their names. -/
def fields? (names : List String) : Json → Option (List Field)
  | .array items => placedFields? names.length items
  | v => objectFields? names v

/-- A record with a tag: the tag and the record without it.  As an array the tag
comes first; as an object it is the only member called `tagName`. -/
def tagged? (tagName : String) : Json → Option (String × Json)
  | .array (.string (some tag) :: rest) => some (tag, .array rest)
  | .object members =>
    match members.partition fun m => m.1 == some tagName with
    | ([(_, .string (some tag))], rest) => some (tag, .object rest)
    | _ => none
  | _ => none

/-! ## Values that are kept -/

mutual

/-- Whether a value can be kept: every literal is a text, every number has a
binary64, and containers nest no deeper than `depth`. -/
def isSound (depth : Nat) : Json → Bool
  | .null => true
  | .bool _ => true
  | .number n => n.parts.scaled?.isSome
  | .string s => s.isSome
  | .array items => match depth with
    | 0 => false
    | depth + 1 => areSound depth items
  | .object members => match depth with
    | 0 => false
    | depth + 1 => membersAreSound depth members

/-- Whether all values of an array can be kept. -/
def areSound (depth : Nat) : List Json → Bool
  | [] => true
  | v :: rest => isSound depth v && areSound depth rest

/-- Whether all members of an object can be kept. -/
def membersAreSound (depth : Nat) : List (Option String × Json) → Bool
  | [] => true
  | (name, v) :: rest => name.isSome && isSound depth v && membersAreSound depth rest

end

/-- Containers nest this deep in a value that is kept. -/
def nestingLimit : Nat := 127

/-- Reads a value that is kept whole, inside `above` other containers. -/
def kept? {α : Type} (above : Nat) (read : Json → Option α) (v : Json) : Option α :=
  if isSound (nestingLimit - above) v then read v else none

end Barline.Json
