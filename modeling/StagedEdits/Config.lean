/-!
# Settings of a session

A `Config` says how a session deals with conflicts and when it fetches on its own.  It can be read
from a tree of settings, in which every part that is left out has its default.
-/

namespace StagedEdits

/-- Which side of a conflict wins. -/
inductive Choice where
  /-- Keep the local edit; the next commit overwrites what is stored. -/
  | keepLocal
  /-- Take what is stored; the local edit is discarded. -/
  | takeStored
deriving DecidableEq, Repr, Inhabited

/-- The settings of a session. -/
structure Config where
  /-- The side that wins a conflict nobody else decides. -/
  policy : Choice := .keepLocal
  /-- Refresh before a commit when someone else has committed. -/
  refreshBeforeCommit : Bool := true
  /-- Fetch the tables that a table refers to before the table itself. -/
  fetchReferenced : Bool := true
  /-- The name recorded with commits. -/
  user : String := "spinedb"
deriving DecidableEq, Repr, Inhabited

/-- A tree of settings. -/
inductive Setting where
  | null
  | boolean (b : Bool)
  | number
  | text (s : String)
  | list (items : List Setting)
  | object (fields : List (String × Setting))
deriving Inhabited

namespace Setting

def boolean? : Setting → Option Bool
  | boolean b => some b
  | _ => none

def text? : Setting → Option String
  | text s => some s
  | _ => none

end Setting

/-- The choice that a policy name stands for. -/
def Choice.ofName? (s : String) : Option Choice :=
  if s = "keep_in_memory" then some keepLocal
  else if s = "use_in_db" then some takeStored
  else none

/-- A policy is given by its name, or by an object whose only key is the name, with null as its
value. -/
def Choice.ofSetting? : Setting → Option Choice
  | .text s => ofName? s
  | .object [(s, .null)] => ofName? s
  | _ => none

namespace Config

/-- Reads a part with `read`; a part that is left out has its default. -/
def part {α : Type} (fallback : α) (read : Setting → Option α) : Option Setting → Option α
  | none => some fallback
  | some s => read s

/-- Puts a configuration together from the settings of its four parts. -/
def ofParts? (policy refresh fetch user : Option Setting) : Option Config := do
  let defaults : Config := {}
  return {
    policy := ← part defaults.policy Choice.ofSetting? policy
    refreshBeforeCommit := ← part defaults.refreshBeforeCommit Setting.boolean? refresh
    fetchReferenced := ← part defaults.fetchReferenced Setting.boolean? fetch
    user := ← part defaults.user Setting.text? user }

/-- Reads a configuration: an object with the parts under their names, where other names are
ignored, or a list of at most the four parts in order. -/
def ofSetting? : Setting → Option Config
  | .object fields =>
    ofParts? (fields.lookup "conflict_policy") (fields.lookup "refresh_before_commit")
      (fields.lookup "fetch_referenced_types") (fields.lookup "user")
  | .list items =>
    if items.length ≤ 4 then ofParts? items[0]? items[1]? items[2]? items[3]? else none
  | _ => none

end Config

end StagedEdits
