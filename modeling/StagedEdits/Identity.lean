/-!
# The identities of items, rows and commits

An item is named by an `ItemId` within its session, a row by a `DbId` within its table of the
database, a commit by its `CommitId`.  The first two are ordered by their numbers.
-/

namespace StagedEdits

/-- Names an item within a session; the session gives the names out in order, none twice. -/
structure ItemId where
  val : Nat
deriving DecidableEq, Repr, Inhabited

/-- Names a row within its table of the database. -/
structure DbId where
  val : Int
deriving DecidableEq, Repr, Inhabited

/-- Names a commit of the database. -/
structure CommitId where
  val : Int
deriving DecidableEq, Repr, Inhabited

namespace ItemId

instance : Ord ItemId := ⟨compareOn val⟩

instance : Std.TransOrd ItemId := inferInstanceAs (Std.TransCmp (compareOn val))

instance : Std.LawfulEqOrd ItemId where
  compare_self := @Std.ReflCmp.compare_self _ (compareOn val) _
  eq_of_compare {a b} h := by
    cases a; cases b
    exact congrArg ItemId.mk (@Std.LawfulEqCmp.eq_of_compare _ compare _ _ _ h)

/-- The identity that is given out first. -/
def first : ItemId := ⟨1⟩

/-- The identity that is given out after this one. -/
def next (id : ItemId) : ItemId := ⟨id.val + 1⟩

/-- An identity in a message: its number after a `#`. -/
def text (id : ItemId) : String := "#" ++ toString id.val

end ItemId

namespace DbId

instance : Ord DbId := ⟨compareOn val⟩

instance : Std.TransOrd DbId := inferInstanceAs (Std.TransCmp (compareOn val))

instance : Std.LawfulEqOrd DbId where
  compare_self := @Std.ReflCmp.compare_self _ (compareOn val) _
  eq_of_compare {a b} h := by
    cases a; cases b
    exact congrArg DbId.mk (@Std.LawfulEqCmp.eq_of_compare _ compare _ _ _ h)

/-- The number of a row in a message. -/
def text (id : DbId) : String := toString id.val

end DbId

end StagedEdits
