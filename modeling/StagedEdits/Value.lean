import StagedEdits.Identity
import StagedEdits.Numeric.Positional
import StagedEdits.SortedMap

/-!
# Field values and records

A field holds a `Value`.  Floating point values are kept as bit patterns, so that two of them are
equal exactly when their bits are.  A `Record` maps field names to values in the order of the
names; a *row* is a record with the identity fields `id` and `commit_id`.
-/

namespace StagedEdits

/-- The content of a field. -/
inductive Value where
  | null
  | boolean (b : Bool)
  | integer (n : Int)
  | float (bits : UInt64)
  | text (s : String)
  | bytes (octets : List UInt8)
  /-- A reference to an item of the same session. -/
  | ref (id : ItemId)
deriving DecidableEq, Inhabited

namespace Value

def isNull : Value → Bool
  | null => true
  | _ => false

def text? : Value → Option String
  | text s => some s
  | _ => none

def integer? : Value → Option Int
  | integer n => some n
  | _ => none

def ref? : Value → Option ItemId
  | ref id => some id
  | _ => none

/-- A value as messages show it: text between single quotes, unescaped, and of bytes only their
number. -/
def display : Value → String
  | null => "null"
  | boolean b => if b then "true" else "false"
  | integer n => toString n
  | float bits => Binary64.text bits
  | text s => "'" ++ s ++ "'"
  | bytes octets => "<" ++ toString octets.length ++ " bytes>"
  | ref id => id.text

@[simp] theorem isNull_iff {v : Value} : v.isNull = true ↔ v = null := by
  cases v <;> simp [isNull]

end Value

/-- Field names with their values. -/
abbrev Record := SortedMap String Value

namespace Record

/-- The field that holds the identity of a row. -/
def idField : String := "id"

/-- The field that holds the commit which wrote a row. -/
def commitField : String := "commit_id"

/-- The value of a field; a field that is absent counts as null. -/
def value (r : Record) (field : String) : Value := (r.get? field).getD .null

/-- The identity that a row carries. -/
def dbId? (row : Record) : Option DbId := ((row.get? idField).bind Value.integer?).map DbId.mk

/-- The commit that a row says it was written by. -/
def commitId? (row : Record) : Option CommitId :=
  ((row.get? commitField).bind Value.integer?).map CommitId.mk

end Record

end StagedEdits
