import StagedEdits.Kind

/-!
# The index of unique keys

`KeyIndex` says which item was the last to take each unique key.  Taking a key that another item
has hands it over; giving a key up works only for the item that has it.

* `holder?_hold`, `holder?_release`: what the two updates do to a look-up.
-/

namespace StagedEdits

/-- The holders of unique keys, the first entry of a key counting. -/
structure KeyIndex where
  entries : List (UniqueKey × ItemId)

namespace KeyIndex

def empty : KeyIndex := ⟨[]⟩

instance : Inhabited KeyIndex := ⟨empty⟩

/-- The item that holds a key. -/
def holder? (ix : KeyIndex) (key : UniqueKey) : Option ItemId :=
  (ix.entries.find? fun e => e.1 = key).map (·.2)

/-- Nobody holds the key afterwards. -/
def drop (ix : KeyIndex) (key : UniqueKey) : KeyIndex :=
  ⟨ix.entries.filter fun e => e.1 ≠ key⟩

/-- Item `i` takes the key. -/
def hold (ix : KeyIndex) (i : ItemId) (key : UniqueKey) : KeyIndex :=
  ⟨(key, i) :: (ix.drop key).entries⟩

/-- Item `i` gives the key up, if it holds it. -/
def release (ix : KeyIndex) (i : ItemId) (key : UniqueKey) : KeyIndex :=
  if ix.holder? key = some i then ix.drop key else ix

/-! ### Look-ups after an update -/

@[simp] theorem holder?_empty (key : UniqueKey) : empty.holder? key = none := rfl

@[simp] theorem holder?_drop (ix : KeyIndex) (key key' : UniqueKey) :
    (ix.drop key).holder? key' = if key' = key then none else ix.holder? key' := by
  rw [holder?, drop, List.find?_filter]
  by_cases hk : key' = key
  · rw [if_pos hk, List.find?_eq_none.2 (by simp [hk]), Option.map_none]
  · rw [if_neg hk, holder?]
    congr 2
    funext e
    by_cases he : e.1 = key' <;> simp_all

@[simp] theorem holder?_hold (ix : KeyIndex) (i : ItemId) (key key' : UniqueKey) :
    (ix.hold i key).holder? key' = if key' = key then some i else ix.holder? key' := by
  have h := holder?_drop ix key key'
  by_cases hk : key' = key
  · simp [holder?, hold, hk]
  · rw [if_neg hk] at h ⊢
    rw [← h, holder?, holder?, hold, List.find?_cons_of_neg (by simpa using Ne.symm hk)]

@[simp] theorem holder?_release (ix : KeyIndex) (i : ItemId) (key key' : UniqueKey) :
    (ix.release i key).holder? key' =
      if key' = key ∧ ix.holder? key = some i then none else ix.holder? key' := by
  rw [release]
  by_cases h : ix.holder? key = some i <;> by_cases hk : key' = key <;> simp_all

end KeyIndex

end StagedEdits
