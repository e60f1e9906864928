import StagedEdits.Store.Basic

/-!
# Stores that fail on demand

`Faulty σ` behaves as the store it wraps, except where it was told otherwise: it can refuse a call,
give out fewer identities than were reserved, and show other rows than there are.
-/

namespace StagedEdits

/-- A store with faults to come. -/
structure Faulty (σ : Type) where
  inner : σ
  /-- The call to refuse next, after letting a number of its kind pass. -/
  armed : Option (StoreCall × Nat) := none
  /-- How many identities the next successful reservation gives out at most. -/
  shortened : Option Nat := none
  /-- Rows shown instead of those there are. -/
  overrides : SortedMap Kind (List Record) := .empty

namespace Faulty

variable {σ α : Type}

/-- Lets a call of the given kind pass, or refuses it once its turn has come. -/
def guard (call : StoreCall) : StoreM (Faulty σ) Unit := fun f =>
  match f.armed with
  | none => (.ok (), f)
  | some (armed, skip) =>
    if armed = call then
      match skip with
      | 0 => (.error (.storeFailed (.injected call)), { f with armed := none })
      | skip + 1 => (.ok (), { f with armed := some (armed, skip) })
    else (.ok (), f)

/-- Makes a call on the wrapped store. -/
def forward (call : StoreM σ α) : StoreM (Faulty σ) α := fun f =>
  let (result, inner) := call f.inner
  (result, { f with inner := inner })

/-- Gives out what a successful reservation is shortened to. -/
def shorten (ids : List DbId) : StoreM (Faulty σ) (List DbId) := fun f =>
  match f.shortened with
  | none => (.ok ids, f)
  | some keep => (.ok (ids.take keep), { f with shortened := none })

instance [Store σ] : Store (Faulty σ) where
  fetch kind := do
    guard .fetch
    match (← get).overrides.get? kind with
    | some rows => return rows
    | none => forward (Store.fetch kind)
  reserve kind count := do
    guard .reserve
    shorten (← forward (Store.reserve kind count))
  apply info batch := do
    guard .apply
    forward (Store.apply info batch)
  commitCount := do
    guard .count
    forward Store.commitCount

end Faulty

end StagedEdits
