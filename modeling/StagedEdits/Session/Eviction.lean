import StagedEdits.Session.Basic

/-!
# Evicting items

An item whose row is gone is taken out of the session, and with it everything that refers to it,
directly or through others, whether it has pending edits or not.  Since a kind comes after the
kinds it refers to, one sweep over the kinds in order finds them all.  Going from each item to those
that refer to it leaves the same session and the same number (`Session.evict_eq_evictDepthFirst`).
-/

namespace StagedEdits

/-- A sweep on its way: the session, the items that are gone, and how many the sweep took out. -/
structure Sweep where
  session : Session
  gone : List ItemRef
  evicted : Nat

namespace Sweep

/-- The items of a kind that refer to one that is gone. -/
def orphans (w : Sweep) (kind : Kind) : List Item :=
  (w.session.all kind).filter fun item => item.references.any (· ∈ w.gone)

/-- Takes out the items of one kind that refer to one that is gone. -/
def step (w : Sweep) (kind : Kind) : Sweep :=
  let orphans := w.orphans kind
  { session := orphans.foldl (fun s item => s.drop item.ref) w.session
    gone := w.gone ++ orphans.map Item.ref
    evicted := w.evicted + orphans.length }

end Sweep

namespace Session

/-- Takes out every item that refers to one of the given items, directly or through others. -/
def evictReferrers (s : Session) (gone : List ItemRef) : Sweep :=
  Kind.all.foldl Sweep.step ⟨s, gone, 0⟩

/-- Takes an item out, if it is there, and every item that refers to it.  Gives the session and
the number of items taken out. -/
def evict (s : Session) (r : ItemRef) : Session × Nat :=
  match s.item? r with
  | none => (s, 0)
  | some _ =>
    let sweep := (s.drop r).evictReferrers [r]
    (sweep.session, sweep.evicted + 1)

end Session

end StagedEdits
