import StagedEdits.Proofs.Commit
import StagedEdits.Proofs.Reconcile
import StagedEdits.Workspace

/-!
# What every command keeps, on any store

A store may show any rows at all, and a resolver may answer as it likes.  Even then the items of a
session stay where they belong (`Session.Housed`), identities are given out in order, and only a
refresh or a commit changes what the session knows of the commits (`Session.Follows`).

* `Session.Housed.follows_update`, `Session.Housed.follows_remove` and their like: edits.
* `Session.Housed.follows_reconcile`: taking rows in.
* `Session.Housed.committed`: noting a commit.
-/

namespace StagedEdits

/-! ### Items keep their names -/

namespace Item

variable (item : Item)

theorem ref_claim (row : Record) : (item.claim row).ref = item.ref := by
  unfold claim
  dsimp only
  split <;> rfl

theorem ref_backToRow : item.backToRow.ref = item.ref := by
  unfold backToRow
  split
  · unfold reverted
    split <;> rfl
  · rfl
  · rfl

theorem ref_rolledBack {item b : Item} (h : item.rolledBack? = some b) : b.ref = item.ref := by
  unfold rolledBack? at h
  split at h
  · cases h
  · cases h
  · split at h
    · exact Option.some.inj h ▸ (ref_backToRow _).trans (ref_restored _)
    · exact Option.some.inj h ▸ rfl
  · exact Option.some.inj h ▸ (ref_backToRow _).trans (ref_restored _)

end Item

namespace Session

/-! ### Items stay where they belong -/

/-- Every item is in the table of its kind, and its identity was given out. -/
structure Housed (s : Session) : Prop where
  item_kind : ∀ ⦃r item⦄, s.item? r = some item → item.kind = r.kind
  given : ∀ ⦃r item⦄, s.item? r = some item → r.id.val < s.nextId.val

/-- `s'` can come after `s` in a command, as long as the session learns of no commit. -/
structure Follows (s s' : Session) : Prop where
  knownCommits : s'.knownCommits = s.knownCommits
  nextId_le : s.nextId.val ≤ s'.nextId.val
  housed : s'.Housed

variable {s s' s'' : Session}

theorem Follows.refl (hs : s.Housed) : s.Follows s := ⟨rfl, Nat.le_refl _, hs⟩

theorem Follows.trans (h : s.Follows s') (h' : s'.Follows s'') : s.Follows s'' :=
  ⟨h'.knownCommits.trans h.knownCommits, Nat.le_trans h.nextId_le h'.nextId_le, h'.housed⟩

theorem Housed.ref_eq (h : s.Housed) {r : ItemRef} {item : Item} (hi : s.item? r = some item) :
    item.ref = r := by
  obtain ⟨kind, id⟩ := r
  show ItemRef.mk item.kind item.id = _
  rw [h.item_kind hi, item_id hi]

theorem Housed.named (h : s.Housed) : s.Named := fun _ _ => h.ref_eq

/-- A session is as tidy as one that has its items under the same names. -/
theorem Housed.of_subset (h : s.Housed) (hnext : s.nextId.val ≤ s'.nextId.val)
    (hitem : ∀ ⦃r b⦄, s'.item? r = some b → ∃ a, s.item? r = some a ∧ b.ref = a.ref) :
    s'.Housed where
  item_kind r b hb := by
    obtain ⟨a, ha, href⟩ := hitem hb
    exact (congrArg ItemRef.kind href).trans (h.item_kind ha)
  given r b hb := by
    obtain ⟨a, ha, -⟩ := hitem hb
    exact Nat.lt_of_lt_of_le (h.given ha) hnext

theorem housed_new (config : Config) (count : Nat) : (new config count).Housed where
  item_kind _ _ h := nomatch h
  given _ _ h := nomatch h

/-! ### Single items -/

theorem follows_put (hs : s.Housed) {item : Item} (h : item.id.val < s.nextId.val) :
    s.Follows (s.put item) := by
  refine ⟨rfl, Nat.le_refl _, ?_, ?_⟩
  · intro r b hb
    rw [item?_put] at hb
    split at hb
    next heq => rw [heq, ← Option.some.inj hb]; rfl
    next => exact hs.item_kind hb
  · intro r b hb
    rw [item?_put] at hb
    split at hb
    next heq => rw [heq]; exact h
    next => exact hs.given hb

/-- An item may be replaced by one of the same name. -/
theorem Housed.follows_replace (hs : s.Housed) {r : ItemRef} {a b : Item}
    (ha : s.item? r = some a) (href : b.ref = a.ref) : s.Follows (s.put b) := by
  refine follows_put hs ?_
  have hid : b.id = a.id := congrArg ItemRef.id href
  rw [hid, item_id ha]
  exact hs.given ha

theorem Housed.follows_drop (hs : s.Housed) (r : ItemRef) : s.Follows (s.drop r) := by
  have hnext : s.nextId.val ≤ (s.drop r).nextId.val := Nat.le_of_eq (by rw [nextId_drop])
  exact ⟨(sameFrame_drop s r).knownCommits, hnext,
    hs.of_subset hnext fun _ b hb => ⟨b, item?_of_drop hb, rfl⟩⟩

theorem Housed.modify_eq_put (hs : s.Housed) {r : ItemRef} {a : Item} {f : Item → Item}
    (ha : s.item? r = some a) (hf : ∀ item, (f item).ref = item.ref) : s.modify r f = s.put (f a) :=
  hs.named.modify_eq_put ha hf

theorem Housed.item?_modify (hs : s.Housed) {r : ItemRef} {a : Item} {f : Item → Item}
    (ha : s.item? r = some a) (hf : ∀ item, (f item).ref = item.ref) (r' : ItemRef) :
    (s.modify r f).item? r' = if r' = r then some (f a) else s.item? r' :=
  hs.named.item?_modify ha hf r'

theorem Housed.follows_modify (hs : s.Housed) (r : ItemRef) {f : Item → Item}
    (hf : ∀ item, (f item).ref = item.ref) : s.Follows (s.modify r f) := by
  rw [hs.named.modify_eq hf]
  split
  next => exact .refl hs
  next item hitem => exact hs.follows_replace hitem (hf item)

/-- An identity is given out, and the item that has it is put in. -/
theorem Housed.follows_new (hs : s.Housed) {item : Item} (hid : item.id = s.nextId) :
    s.Follows ({ s with nextId := s.nextId.next }.put item) := by
  have hnext : s.Follows { s with nextId := s.nextId.next } :=
    ⟨rfl, Nat.le_succ _, hs.of_subset (Nat.le_succ _) fun _ b hb => ⟨b, hb, rfl⟩⟩
  exact hnext.trans (follows_put hnext.housed (hid ▸ Nat.lt_succ_self _))

/-! ### Edits -/

theorem Housed.follows_add (hs : s.Housed) {kind : Kind} {given : Record} {id : ItemId}
    (h : s.add kind given = .ok (id, s')) : s.Follows s' := by
  obtain ⟨-, rfl, -⟩ := add_eq_ok h
  exact hs.follows_new rfl

theorem Housed.follows_update (hs : s.Housed) {r : ItemRef} {changes : Record}
    (h : s.update r changes = .ok s') : s.Follows s' := by
  obtain ⟨-, -, -, -, -, rfl⟩ := update_eq_ok h
  exact hs.follows_modify r (·.ref_edit changes)

theorem Housed.follows_remove (hs : s.Housed) {r : ItemRef} {refs : List ItemRef}
    (h : s.remove r = .ok (refs, s')) : s.Follows s' :=
  remove_induction (fun _ r _ source _ ht =>
    ht.trans (ht.housed.follows_modify r (·.ref_markRemoved source))) h (.refl hs)

theorem Housed.follows_restore (hs : s.Housed) {r : ItemRef} {refs : List ItemRef}
    (h : s.restore r = .ok (refs, s')) : s.Follows s' :=
  restore_induction (fun _ r _ _ ht => ht.trans (ht.housed.follows_modify r Item.ref_restored)) h
    (.refl hs)

theorem Housed.follows_reset (hs : s.Housed) (kinds : List Kind) : s.Follows (s.reset kinds) :=
  ⟨rfl, Nat.le_refl _, hs.of_subset (Nat.le_refl _) fun _ b hb => ⟨b, item?_reset hb, rfl⟩⟩

end Session

/-- Rolling a table back gives no item another name. -/
theorem Table.get?_of_rollBack {t : Table} {id : ItemId} {b : Item}
    (h : t.rollBack.get? id = some b) : ∃ a, t.get? id = some a ∧ b.ref = a.ref := by
  have hstep : ∀ (t : Table) (id' : ItemId) {b}, (t.rollBackItem id').get? id = some b →
      ∃ a, t.get? id = some a ∧ b.ref = a.ref := by
    intro t id' b hb
    unfold rollBackItem at hb
    split at hb
    next => exact ⟨b, hb, rfl⟩
    next item hitem =>
      split at hb
      next =>
        rw [get?_erase] at hb
        split at hb
        next => cases hb
        next => exact ⟨b, hb, rfl⟩
      next item' hrolled =>
        have href := Item.ref_rolledBack hrolled
        rw [get?_insert] at hb
        split at hb
        next hid =>
          have hid' : id = item.id := hid.trans (congrArg ItemRef.id href)
          refine ⟨item, ?_, Option.some.inj hb ▸ href⟩
          rw [hid', t.id_eq hitem, hitem]
        next => exact ⟨b, hb, rfl⟩
  have hfold : ∀ (ids : List ItemId) (t : Table) {b}, (ids.foldl rollBackItem t).get? id = some b →
      ∃ a, t.get? id = some a ∧ b.ref = a.ref := by
    intro ids
    induction ids with
    | nil => exact fun t b hb => ⟨b, hb, rfl⟩
    | cons id' ids ih =>
      intro t b hb
      obtain ⟨a, ha, href⟩ := ih _ hb
      obtain ⟨a', ha', href'⟩ := hstep t id' ha
      exact ⟨a', ha', href.trans href'⟩
  rw [rollBack_eq] at h
  exact hfold _ _ h

namespace Session

variable {s s' s'' : Session}

theorem Housed.follows_rollBack (hs : s.Housed) (h : s.rollBack = .ok s') : s.Follows s' := by
  have htable := table_rollBack h
  obtain rfl := rollBack_eq_ok h
  refine ⟨rfl, Nat.le_refl _, hs.of_subset (Nat.le_refl _) fun r b hb => ?_⟩
  rw [item?_eq, htable] at hb
  obtain ⟨a, ha, href⟩ := Table.get?_of_rollBack hb
  exact ⟨a, by rw [item?_eq]; exact ha, href⟩

/-! ### Taking rows in -/

theorem Housed.follows_markFetched (hs : s.Housed) (kind : Kind) :
    s.Follows (s.markFetched kind) :=
  ⟨rfl, Nat.le_refl _, hs.of_subset (Nat.le_refl _) fun r b hb =>
    ⟨b, (item?_markFetched s kind r).symm.trans hb, rfl⟩⟩

theorem Housed.follows_foldl_drop (hs : s.Housed) (items : List Item) :
    s.Follows (items.foldl (fun s item => s.drop item.ref) s) := by
  induction items generalizing s with
  | nil => exact .refl hs
  | cons item items ih =>
    have hstep := hs.follows_drop item.ref
    exact hstep.trans (ih hstep.housed)

theorem Housed.follows_evictReferrers (hs : s.Housed) (gone : List ItemRef) :
    s.Follows (s.evictReferrers gone).session :=
  evictReferrers_induction (K := fun w => s.Follows w.session) (.refl hs) fun w kind h =>
    h.trans (h.housed.follows_foldl_drop (w.orphans kind))

theorem Housed.follows_evict (hs : s.Housed) (r : ItemRef) : s.Follows (s.evict r).1 := by
  unfold evict
  split
  next => exact .refl hs
  next =>
    dsimp only
    have hdrop := hs.follows_drop r
    exact hdrop.trans (hdrop.housed.follows_evictReferrers [r])

end Session

namespace Absorption

variable {a a' : Absorption}

/-- The items of the session are where they belong, and those set aside have identities that were
given out. -/
structure Housed (a : Absorption) : Prop where
  session : a.session.Housed
  conflicts : ∀ c ∈ a.conflicts, c.item.id.val < a.session.nextId.val

theorem Housed.of_follows (h : a.Housed) (hf : a.session.Follows a'.session)
    (hc : a'.conflicts = a.conflicts) : a'.Housed :=
  ⟨hf.housed, fun c hmem => Nat.lt_of_lt_of_le (h.conflicts c (hc ▸ hmem)) hf.nextId_le⟩

/-- Taking in one finding. -/
theorem Housed.step (h : a.Housed) (kind : Kind) (f : Finding) :
    a.session.Follows (a.step kind f).session ∧ (a.step kind f).Housed := by
  have hlift : ∀ {a' : Absorption}, a.session.Follows a'.session → a'.conflicts = a.conflicts →
      a.session.Follows a'.session ∧ a'.Housed := fun hf hc => ⟨hf, h.of_follows hf hc⟩
  have hs := h.session
  cases f with
  | unknown row => exact hlift (hs.follows_new rfl) rfl
  | same id => exact hlift (.refl hs) rfl
  | gone id => exact hlift (hs.follows_evict ⟨kind, id⟩) rfl
  | changed id row =>
    unfold Absorption.step
    dsimp only
    split
    next => exact hlift (.refl hs) rfl
    next item hitem => exact hlift (hs.follows_replace (b := item.adopt row) hitem rfl) rfl
  | twin id row =>
    unfold Absorption.step
    dsimp only
    split
    next => exact hlift (.refl hs) rfl
    next item hitem => exact hlift (hs.follows_replace hitem (item.ref_claim row)) rfl
  | conflict id row d =>
    unfold Absorption.step
    dsimp only
    split
    next => exact hlift (.refl hs) rfl
    next item hitem =>
      have hdrop := hs.follows_drop ⟨kind, id⟩
      refine ⟨hdrop, hdrop.housed, fun c hc => Nat.lt_of_lt_of_le ?_ hdrop.nextId_le⟩
      rcases List.mem_append.1 hc with hc | hc
      · exact h.conflicts c hc
      · obtain rfl := List.mem_singleton.1 hc
        rw [Session.item_id hitem]
        exact hs.given hitem

end Absorption

/-- Answers without a fault are about the items in conflict. -/
theorem item_mem_of_contractFault? {conflicts : List Conflict} {answers : List Resolved}
    (h : contractFault? conflicts answers = none) :
    ∀ r ∈ answers, ∃ c ∈ conflicts, c.item = r.item := by
  have hgo : ∀ (answers : List Resolved) (seen : List ItemId),
      contractFault?.go conflicts seen answers = none →
        ∀ r ∈ answers, ∃ c ∈ conflicts, c.item = r.item := by
    intro answers
    induction answers with
    | nil => exact fun _ _ r hr => absurd hr List.not_mem_nil
    | cons r answers ih =>
      intro seen h r' hr'
      rw [contractFault?.go] at h
      split at h
      next => cases h
      next =>
        split at h
        next hany =>
          rcases List.mem_cons.1 hr' with rfl | hr'
          · obtain ⟨c, hc, heq⟩ := List.any_eq_true.1 hany
            exact ⟨c, hc, by simpa using heq⟩
          · exact ih _ h r' hr'
        next => cases h
  unfold contractFault? at h
  split at h
  next => cases h
  next => exact hgo answers [] h

namespace Session

variable {s s' s'' : Session}

/-- Putting in items whose identities were given out. -/
theorem Housed.follows_foldl {α : Type} {f : Session → α → Session} {l : List α} {n : Nat}
    (hf : ∀ x ∈ l, ∀ s : Session, s.Housed → n ≤ s.nextId.val → s.Follows (f s x))
    (hs : s.Housed) (hn : n ≤ s.nextId.val) : s.Follows (l.foldl f s) := by
  induction l generalizing s with
  | nil => exact .refl hs
  | cons x l ih =>
    have hstep := hf x (List.mem_cons_self ..) s hs hn
    exact hstep.trans (ih (fun y hy => hf y (List.mem_cons_of_mem _ hy)) hstep.housed
      (Nat.le_trans hn hstep.nextId_le))

theorem Housed.follows_putBack (hs : s.Housed) {conflicts : List Conflict}
    (h : ∀ c ∈ conflicts, c.item.id.val < s.nextId.val) : s.Follows (s.putBack conflicts) :=
  hs.follows_foldl (fun c hc _ hs' hn => follows_put hs' (Nat.lt_of_lt_of_le (h c hc) hn))
    (Nat.le_refl _)

theorem Housed.follows_answered (hs : s.Housed) {r : Resolved}
    (h : r.item.id.val < s.nextId.val) : s.Follows (s.answered r) := by
  rw [answered_eq]
  split
  next b hb =>
    have hid : b.id = r.item.id := congrArg ItemRef.id (Resolved.ref_outcome? hb)
    exact follows_put hs (hid ▸ h)
  next => exact .refl hs

/-- Carrying out answers that keep the contract, before anything is evicted. -/
theorem Housed.follows_foldl_answered (hs : s.Housed) {conflicts : List Conflict}
    (h : ∀ c ∈ conflicts, c.item.id.val < s.nextId.val) {answers ordered : List Resolved}
    (hfault : contractFault? conflicts answers = none) (hperm : ordered.Perm answers) :
    s.Follows (ordered.foldl answered s) := by
  refine hs.follows_foldl (fun r hr s' hs' hn => ?_) (Nat.le_refl _)
  obtain ⟨c, hc, hitem⟩ := item_mem_of_contractFault? hfault r (hperm.mem_iff.1 hr)
  exact hs'.follows_answered (hitem ▸ Nat.lt_of_lt_of_le (h c hc) hn)

theorem Housed.follows_settle (hs : s.Housed) {conflicts : List Conflict}
    (h : ∀ c ∈ conflicts, c.item.id.val < s.nextId.val) (answers : List Resolved) :
    s.Follows (s.settle conflicts answers).2 := by
  cases hfault : contractFault? conflicts answers with
  | some fault =>
    rw [settle_eq_error s hfault]
    exact hs.follows_putBack h
  | none =>
    obtain ⟨ordered, hperm, heq⟩ := exists_settle_eq s hfault
    have hanswered := hs.follows_foldl_answered h hfault hperm
    rw [heq]
    exact hanswered.trans (hanswered.housed.follows_evictReferrers _)

/-- What holds when a fetch begins, and is kept whenever a finding is taken in, holds once all of them
are.  In contrast to `absorb_induction` nothing is asked of the rows. -/
theorem Housed.absorb_induction (hs : s.Housed) (kind : Kind) (rows : List Record)
    {K : Absorption → Prop} (hstart : ∀ skipped, K ⟨s.markFetched kind, { skipped := skipped }, []⟩)
    (hstep : ∀ f ∈ (s.table kind).findings (s.readable kind rows), ∀ a : Absorption, a.Housed → K a →
      K (a.step kind f)) : K (s.absorb kind rows) := by
  have hhoused : ∀ report, Absorption.Housed ⟨s.markFetched kind, report, []⟩ := fun _ =>
    ⟨(hs.follows_markFetched kind).housed, fun _ hc => absurd hc List.not_mem_nil⟩
  have hall : (s.absorb kind rows).Housed ∧ K (s.absorb kind rows) :=
    List.foldlRecOn (motive := fun a : Absorption => a.Housed ∧ K a) _ _ ⟨hhoused _, hstart _⟩
      fun a ha f hf => ⟨(ha.1.step kind f).2, hstep f hf a ha.1 ha.2⟩
  exact hall.2

theorem Housed.absorb (hs : s.Housed) (kind : Kind) (rows : List Record) :
    s.Follows (s.absorb kind rows).session ∧ (s.absorb kind rows).Housed := by
  have hmark := hs.follows_markFetched kind
  refine hs.absorb_induction kind rows
    (K := fun a => s.Follows a.session ∧ a.Housed)
    (fun _ => ⟨hmark, hmark.housed, fun _ hc => absurd hc List.not_mem_nil⟩) fun f _ a ha h => ?_
  obtain ⟨hfollows, hhoused⟩ := ha.step kind f
  exact ⟨h.1.trans hfollows, hhoused⟩

/-- Fetching a table, whatever its rows and the answers. -/
theorem Housed.follows_reconcile (hs : s.Housed) (kind : Kind) (rows : List Record)
    (answer : List Conflict → List Resolved) :
    s.Follows (s.reconcile kind rows answer).2.1 := by
  obtain ⟨habsorb, hend⟩ := hs.absorb kind rows
  have hsettle := hend.session.follows_settle hend.conflicts (answer (s.absorb kind rows).conflicts)
  rcases s.session_reconcile kind rows answer with h | h <;> rw [h]
  · exact habsorb
  · exact habsorb.trans hsettle

/-! ### Committing -/

/-- Writing the pending items changes none of their names. -/
theorem Housed.follows_written (hs : s.Housed) (pending : List Pending)
    (reserved : List (ItemId × DbId)) (commit : CommitId) :
    s.Follows (pending.foldl
      (fun s p => (p.updates ++ p.additions).foldl
        (fun s r => s.modify r (writeItem reserved commit r)) s) s) :=
  hs.follows_foldl (fun _ _ _ hs' _ =>
    hs'.follows_foldl (fun r _ _ hs'' _ => hs''.follows_modify r (ref_writeItem reserved commit r))
      (Nat.le_refl _)) (Nat.le_refl _)

theorem Housed.committed (hs : s.Housed) (pending : List Pending)
    (reserved : List (ItemId × DbId)) (commit : CommitId) :
    (s.committed pending reserved commit).Housed := by
  refine (hs.follows_written pending reserved commit).housed.of_subset (Nat.le_refl _)
    fun r b hb => ⟨b, ?_, rfl⟩
  unfold Session.committed at hb
  rw [item?_dropRemoved, Option.filter_eq_some_iff] at hb
  exact hb.1

end Session

end StagedEdits
