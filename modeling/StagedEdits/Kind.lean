import StagedEdits.Value

/-!
# The schema

Every item is of one of seven kinds.  A kind fixes the fields of its items, which of them are
required, what the others default to, which groups of fields identify an item among its kind, and
which fields refer to items of other kinds.

* `rank_lt_of_mem_references`: a kind comes after the kinds it refers to, so references never run
  in a circle.
-/

namespace StagedEdits

/-- The kinds of items. -/
inductive Kind where
  | alternative
  | scenario
  | scenarioAlternative
  | entityClass
  | entity
  | parameterDefinition
  | parameterValue
deriving DecidableEq, Repr, Inhabited

namespace Kind

/-- All kinds, each after the kinds it refers to. -/
def all : List Kind :=
  [alternative, scenario, scenarioAlternative, entityClass, entity, parameterDefinition,
    parameterValue]

/-- The position of a kind among all. -/
def rank : Kind → Nat
  | alternative => 0
  | scenario => 1
  | scenarioAlternative => 2
  | entityClass => 3
  | entity => 4
  | parameterDefinition => 5
  | parameterValue => 6

def name : Kind → String
  | alternative => "alternative"
  | scenario => "scenario"
  | scenarioAlternative => "scenario_alternative"
  | entityClass => "entity_class"
  | entity => "entity"
  | parameterDefinition => "parameter_definition"
  | parameterValue => "parameter_value"

/-- The kind with the given name. -/
def ofName? (s : String) : Option Kind := all.find? fun k => k.name = s

/-- The fields of the content of an item. -/
def fields : Kind → List String
  | alternative => ["name", "description"]
  | scenario => ["name", "description", "active"]
  | scenarioAlternative => ["scenario_id", "alternative_id", "rank"]
  | entityClass => ["name", "description"]
  | entity => ["class_id", "name", "description"]
  | parameterDefinition => ["entity_class_id", "name", "default_value", "description"]
  | parameterValue => ["parameter_definition_id", "entity_id", "alternative_id", "value"]

/-- The fields that must have a value other than null. -/
def required : Kind → List String
  | alternative => ["name"]
  | scenario => ["name"]
  | scenarioAlternative => ["scenario_id", "alternative_id", "rank"]
  | entityClass => ["name"]
  | entity => ["class_id", "name"]
  | parameterDefinition => ["entity_class_id", "name"]
  | parameterValue => ["parameter_definition_id", "entity_id", "alternative_id", "value"]

/-- The value a new item has in a field that was left out: descriptions are empty, scenarios are
not active, and everything else is null. -/
def defaultValue (k : Kind) (field : String) : Value :=
  if field = "description" then .text ""
  else if k = scenario ∧ field = "active" then .boolean false
  else .null

/-- The groups of fields that no two items of the kind may agree on. -/
def uniqueKeys : Kind → List (List String)
  | alternative => [["name"]]
  | scenario => [["name"]]
  | scenarioAlternative => [["scenario_id", "alternative_id"], ["scenario_id", "rank"]]
  | entityClass => [["name"]]
  | entity => [["class_id", "name"]]
  | parameterDefinition => [["entity_class_id", "name"]]
  | parameterValue => [["parameter_definition_id", "entity_id", "alternative_id"]]

/-- The fields that refer to other items, each with the kind it refers to. -/
def references : Kind → List (String × Kind)
  | alternative => []
  | scenario => []
  | scenarioAlternative => [("scenario_id", scenario), ("alternative_id", alternative)]
  | entityClass => []
  | entity => [("class_id", entityClass)]
  | parameterDefinition => [("entity_class_id", entityClass)]
  | parameterValue =>
    [("parameter_definition_id", parameterDefinition), ("entity_id", entity),
      ("alternative_id", alternative)]

def isField (k : Kind) (field : String) : Bool := field ∈ k.fields

/-- The kinds that items of kind `k` refer to. -/
def referenced (k : Kind) : List Kind := k.references.map (·.2)

/-- The kinds whose items refer to items of kind `k`. -/
def referrers (k : Kind) : List Kind := all.filter fun other => k ∈ other.referenced

/-- The kinds that `k` refers to, directly or through others, each after those it refers to. -/
def dependencies (k : Kind) : List Kind :=
  let needed := all.reverse.foldl
    (fun needed other => if other ∈ needed then needed ++ other.referenced else needed) k.referenced
  all.filter (· ∈ needed)

/-- The given kinds with every kind that refers to one of them, directly or through others. -/
def withDependents (kinds : List Kind) : List Kind :=
  all.foldl (fun doomed k => if k.referenced.any (· ∈ doomed) then k :: doomed else doomed) kinds

/-! ### Order -/

instance : Ord Kind := ⟨compareOn rank⟩

instance : Std.TransOrd Kind := inferInstanceAs (Std.TransCmp (compareOn rank))

theorem rank_injective {a b : Kind} (h : a.rank = b.rank) : a = b := by
  revert h; cases a <;> cases b <;> decide

instance : Std.LawfulEqOrd Kind where
  compare_self := @Std.ReflCmp.compare_self _ (compareOn rank) _
  eq_of_compare h := rank_injective (@Std.LawfulEqCmp.eq_of_compare _ compare _ _ _ h)

theorem mem_all (k : Kind) : k ∈ all := by cases k <;> decide

/-- A kind comes after the kinds that it refers to. -/
theorem rank_lt_of_mem_references {k target : Kind} {field : String}
    (h : (field, target) ∈ k.references) : target.rank < k.rank := by
  cases k <;> simp only [references, List.mem_cons, Prod.mk.injEq, List.not_mem_nil] at h <;>
    rcases h with h | h | h | h <;> simp_all [rank]

@[simp] theorem ofName?_name (k : Kind) : ofName? k.name = some k := by cases k <;> decide

/-! ### Contents and keys -/

/-- The content of an item with the given row: every field of the kind, null where the row has
none. -/
def contentOf (k : Kind) (row : Record) : Record :=
  .ofList (k.fields.map fun field => (field, row.value field))

end Kind

/-- The values of one of the unique keys of a kind, with the position of the key. -/
structure UniqueKey where
  index : Nat
  values : List Value
deriving DecidableEq

namespace Kind

/-- The unique keys that a record has; a key with a null part does not exist. -/
def keysOf (k : Kind) (r : Record) : List UniqueKey :=
  k.uniqueKeys.zipIdx.filterMap fun (fields, index) =>
    let values := fields.map r.value
    if .null ∈ values then none else some ⟨index, values⟩

/-- A key as messages show it: each field with its value. -/
def keyText (k : Kind) (key : UniqueKey) : String :=
  let fields := (k.uniqueKeys[key.index]?).getD []
  ", ".intercalate ((fields.zip key.values).map fun (field, v) => field ++ " " ++ v.display)

end Kind

/-- Names an item together with its kind. -/
structure ItemRef where
  kind : Kind
  id : ItemId
deriving DecidableEq, Repr

end StagedEdits
