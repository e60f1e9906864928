import StagedEdits.Proofs.Dependents

/-!
# What a fetch severs

A fetch that drops an item of its table drops whatever depends on it, removed or not, pending or not
(`Session.Severs`): of the other tables it drops these items and no others, what it leaves of them is as
it was, and nothing that it leaves refers to an item that it dropped.  While the findings are carried out,
an item that was set aside counts as one that is there; nothing that refers to it is evicted before it is
decided on, and that happens in a second sweep, after all answers are carried out.

* `Absorption.Severing`: what is kept while the findings are carried out.
* `Workspace.severs_of_fetch`: the result for every fetch of a single table that succeeds.
-/

namespace StagedEdits

namespace Session

variable {s s' : Session} {kind : Kind} {r : ItemRef}

/-- Item `r` of `s` is not in `s'` any more. -/
def Drops (s s' : Session) (r : ItemRef) : Prop := (∃ x, s.item? r = some x) ∧ s'.item? r = none

/-- Of the tables other than that of `kind`, session `s'` lacks orphans of `s` and nothing else; and
nothing that is left refers to an item that is missing. -/
structure Prunes (s : Session) (kind : Kind) (s' : Session) : Prop where
  other : ∀ ⦃r x⦄, r.kind ≠ kind → s.item? r = some x → s'.item? r = some x ∨ s.Orphans s' r x
  subset : ∀ ⦃r x⦄, r.kind ≠ kind → s'.item? r = some x → s.item? r = some x
  targets : s.KeepsTargets s'

/-- Session `s'` is `s` with another table of `kind`, out of the other tables of which exactly the items
were taken that depend on a dropped item of that kind. -/
structure Severs (s : Session) (kind : Kind) (s' : Session) : Prop where
  drops_iff : ∀ r, r.kind ≠ kind → (s.Drops s' r ↔
    s.DependsOn (fun _ => True) (fun q => q.kind = kind ∧ s.Drops s' q) r)
  kept : ∀ r, r.kind ≠ kind → ¬ s.Drops s' r → s'.item? r = s.item? r
  closed : ∀ ⦃r y⦄, s'.item? r = some y → ∀ target ∈ y.references, ¬ s.Drops s' target

/-- What depends on a dropped item is dropped, as nothing that is left refers to one that is not. -/
theorem Prunes.drops_of_dependsOn (hs : s.Housed) (h : s.Prunes kind s')
    (hr : s.DependsOn (fun _ => True) (fun q => q.kind = kind ∧ s.Drops s' q) r) :
    kind.rank ≤ r.kind.rank ∧ s.Drops s' r := by
  induction hr with
  | given hgiven => exact ⟨Nat.le_of_eq (congrArg Kind.rank hgiven.1.symm), hgiven.2⟩
  | @refers r target item hitem _ htarget _ ih =>
    have hlt := Item.rank_lt_of_mem_references htarget
    rw [hs.item_kind hitem] at hlt
    refine ⟨Nat.le_trans ih.1 (Nat.le_of_lt hlt), ⟨item, hitem⟩, ?_⟩
    have hne : r.kind ≠ kind := fun he => Nat.lt_irrefl _ (Nat.lt_of_le_of_lt ih.1 (he ▸ hlt))
    refine Option.eq_none_iff_forall_ne_some.2 fun y hy => ?_
    obtain rfl := Option.some.inj ((h.subset hne hy).symm.trans hitem)
    obtain ⟨z, hz⟩ := h.targets hy target htarget ih.2.1
    rw [ih.2.2] at hz
    cases hz

/-- What is dropped depends on a dropped item of the kind: an orphan refers to an item of an earlier
kind that is dropped, and so on down to one of that kind. -/
theorem Prunes.dependsOn_of_drops (hs : s.Housed) (h : s.Prunes kind s') (hr : s.Drops s' r) :
    s.DependsOn (fun _ => True) (fun q => q.kind = kind ∧ s.Drops s' q) r := by
  induction hn : r.kind.rank using Nat.strongRecOn generalizing r with
  | ind n ih =>
    by_cases hk : r.kind = kind
    · exact .given ⟨hk, hr⟩
    obtain ⟨x, hx⟩ := hr.1
    rcases h.other hk hx with hkept | ⟨-, target, htarget, hy, hgone⟩
    · rw [hr.2] at hkept
      cases hkept
    · have hlt := Item.rank_lt_of_mem_references htarget
      rw [hs.item_kind hx, hn] at hlt
      exact .refers hx trivial htarget (ih _ hlt ⟨hy, hgone⟩ rfl)

theorem Prunes.severs (hs : s.Housed) (h : s.Prunes kind s') : s.Severs kind s' where
  drops_iff _ _ := ⟨h.dependsOn_of_drops hs, fun hr => (h.drops_of_dependsOn hs hr).2⟩
  kept r hk hnot := by
    cases hx : s.item? r with
    | none =>
      refine Option.eq_none_iff_forall_ne_some.2 fun y hy => ?_
      cases hx.symm.trans (h.subset hk hy)
    | some x => exact (h.other hk hx).resolve_right fun horphan => hnot ⟨⟨x, hx⟩, horphan.1⟩
  closed r y hy target htarget hdrop := by
    obtain ⟨z, hz⟩ := h.targets hy target htarget hdrop.1
    rw [hdrop.2] at hz
    cases hz

end Session

/-! ### Carrying the findings out -/

namespace Absorption

open Session

variable {s₀ : Session} {kind : Kind} {a a' : Absorption} {f : Finding} {r : ItemRef}

/-- What is left of the other tables while the findings about one are carried out refers to items of
session `s₀` only if they are there or set aside. -/
def Severing (s₀ : Session) (kind : Kind) (a : Absorption) : Prop :=
  ∀ ⦃r x⦄, r.kind ≠ kind → a.session.item? r = some x →
    ∀ target ∈ x.references, (∃ y, s₀.item? target = some y) → a.Has target

/-- A finding that takes nothing out of the session for good, and leaves the other tables alone. -/
theorem Severing.proceed (h : Severing s₀ kind a)
    (hother : ∀ ⦃r x⦄, r.kind ≠ kind → a'.session.item? r = some x → a.session.item? r = some x)
    (hhas : ∀ ⦃r⦄, a.Has r → a'.Has r) : Severing s₀ kind a' :=
  fun _ _ hk hx target htarget hy => hhas (h hk (hother hk hx) target htarget hy)

/-- An item of the fetched table is put in. -/
theorem Severing.put (h : Severing s₀ kind a) {b : Item} (hkind : b.kind = kind)
    (hitem : ∀ r, a'.session.item? r = if r = b.ref then some b else a.session.item? r)
    (hconf : a'.conflicts = a.conflicts) : Severing s₀ kind a' := by
  refine h.proceed (fun r x hk hx => ?_) fun r hr => ?_
  · rw [hitem, if_neg] at hx
    · exact hx
    · rintro rfl
      exact hk hkind
  · unfold Has
    rw [hitem, hconf]
    split
    next => exact .inl ⟨b, rfl⟩
    next => exact hr

/-- What taking in one finding severs. -/
theorem Severing.step (ha : a.Housed) (h : Severing s₀ kind a) (f : Finding) :
    Severing s₀ kind (a.step kind f) := by
  cases f with
  | same id => exact h
  | unknown row =>
    exact h.put (b := .loaded a.session.nextId kind row) rfl (fun r => item?_put ..) rfl
  | changed id row =>
    unfold Absorption.step
    dsimp only
    split
    next => exact h
    next y hy =>
      exact h.put (b := y.adopt row) (ha.session.item_kind hy) (fun r => item?_put ..) rfl
  | twin id row =>
    unfold Absorption.step
    dsimp only
    split
    next => exact h
    next y hy =>
      have hkind := congrArg ItemRef.kind ((y.ref_claim row).trans (ha.session.ref_eq hy))
      exact h.put (b := y.claim row) hkind (fun r => item?_put ..) rfl
  | conflict id row d =>
    unfold Absorption.step
    dsimp only
    split
    next => exact h
    next y hy =>
      refine h.proceed (fun r x _ hx => item?_of_drop hx) fun r hr => ?_
      unfold Has
      rw [item?_drop]
      split
      next he =>
        exact .inr ⟨⟨y, row⟩, List.mem_append_right _ (List.mem_singleton.2 rfl),
          (ha.session.ref_eq hy).trans he.symm⟩
      next =>
        refine hr.imp_right ?_
        rintro ⟨c, hc, href⟩
        exact ⟨c, List.mem_append_left _ hc, href⟩
  | gone id =>
    intro r x hk hx target htarget hy
    have hevict : (a.step kind (.gone id)).session = (a.session.evict ⟨kind, id⟩).1 := rfl
    rw [hevict] at hx
    refine (h hk (item?_of_evict hx) target htarget hy).imp_left fun hz => ?_
    rw [hevict]
    exact ha.session.named.keepsTargets_evict _ hx target htarget hz

/-! ### Deciding on what is set aside -/

/-- Session `t` has the items that were set aside back, but for those that are gone. -/
structure Decides (a : Absorption) (gone : List ItemRef) (t : Session) : Prop where
  same : ∀ ⦃r⦄, (∀ c ∈ a.conflicts, c.item.ref ≠ r) → t.item? r = a.session.item? r
  back : ∀ c ∈ a.conflicts, (∃ x, t.item? c.item.ref = some x) ∨ c.item.ref ∈ gone
  gone : ∀ r ∈ gone, t.item? r = none ∧ ∃ c ∈ a.conflicts, c.item.ref = r

/-- Carrying out answers that keep the contract, before anything is evicted. -/
theorem Protects.decides (h : Protects s₀ kind a) {answers ordered : List Resolved}
    (hfault : contractFault? a.conflicts answers = none) (hperm : ordered.Perm answers) :
    a.Decides (conceded ordered) (ordered.foldl answered a.session) := by
  obtain ⟨-, hanswer⟩ := exists_answer_of_contractFault? hfault
  have hmem : ∀ r ∈ ordered, ∃ c ∈ a.conflicts, c.item = r.item := fun r hr =>
    item_mem_of_contractFault? hfault r (hperm.mem_iff.1 hr)
  have hrefs := nodup_refs_of_contractFault? hfault hperm
  obtain ⟨hin, hout⟩ := item?_foldl_answered hrefs a.session fun r hr _ => by
    obtain ⟨c, hc, heq⟩ := hmem r hr
    rw [← heq]
    exact (h.aside c hc).2.2
  constructor
  case same =>
    intro r hr
    refine hout r fun hmem' => ?_
    obtain ⟨r', hr', rfl⟩ := List.mem_map.1 hmem'
    obtain ⟨c, hc, heq⟩ := hmem r' hr'
    exact hr c hc (congrArg Item.ref heq)
  case back =>
    intro c hc
    obtain ⟨r, hr, heq⟩ := hanswer c hc
    have hr := hperm.mem_iff.2 hr
    rw [← heq]
    exact back_or_conceded hr (hin r hr)
  case gone =>
    intro q hq
    obtain ⟨r, hr, hnone, rfl⟩ := mem_conceded_iff.1 hq
    obtain ⟨c, hc, heq⟩ := hmem r hr
    exact ⟨(hin r hr).trans hnone, c, hc, congrArg Item.ref heq⟩

section

variable {gone : List ItemRef} {t : Session} (h : Protects s₀ kind a) (hdec : a.Decides gone t)

include h hdec

/-- Deciding leaves the other tables alone. -/
theorem Decides.item?_of_ne (hk : r.kind ≠ kind) : t.item? r = a.session.item? r :=
  hdec.same fun c hc he => hk (he ▸ (h.aside c hc).1)

/-- What is evicted in the end is in other tables, whose kind depends on the fetched one. -/
theorem Decides.evicts : Evicts kind t (t.evictReferrers gone).session := by
  refine evicts_evictReferrers fun r hr => ?_
  obtain ⟨-, c, hc, rfl⟩ := hdec.gone r hr
  exact (h.aside c hc).1

/-- Of the other tables, what is missing in the end is an orphan. -/
theorem Decides.other_of_protects (ht : t.Housed) {x : Item} (hk : r.kind ≠ kind)
    (hx : s₀.item? r = some x) : (t.evictReferrers gone).session.item? r = some x ∨
      s₀.Orphans (t.evictReferrers gone).session r x := by
  have hnone : ∀ {r}, t.item? r = none → (t.evictReferrers gone).session.item? r = none := by
    intro r hr
    refine Option.eq_none_iff_forall_ne_some.2 fun y hy => ?_
    rw [item?_of_evictReferrers hy] at hr
    cases hr
  rcases h.other hk hx with hold | ⟨hr, target, htarget, hy, hgone, haway⟩
  · rw [← hdec.item?_of_ne h hk] at hold
    cases hw : (t.evictReferrers gone).session.item? r with
    | some y => exact .inl (hold ▸ (item?_of_evictReferrers hw).symm)
    | none =>
      obtain ⟨target, htarget, hcause⟩ := cause_evictReferrers ht.named hold hw
      refine .inr ⟨hw, target, htarget, ?_⟩
      rcases hcause with hgone | ⟨⟨y, hy⟩, hwt⟩
      · obtain ⟨htn, c, hc, rfl⟩ := hdec.gone target hgone
        exact ⟨(h.aside c hc).2.1, hnone htn⟩
      · have hkt : target.kind ≠ kind := by
          rintro rfl
          rw [item?_eq, (hdec.evicts h).table_eq (Kind.not_mem_dependencies_self _), ← item?_eq,
            hy] at hwt
          cases hwt
        rw [hdec.item?_of_ne h hkt] at hy
        exact ⟨⟨y, h.subset hkt hy⟩, hwt⟩
  · exact .inr ⟨hnone ((hdec.item?_of_ne h hk).trans hr), target, htarget, hy,
      hnone ((hdec.same haway).trans hgone)⟩

/-- What is left in the end has all that it refers to. -/
theorem Decides.keepsTargets (ht : t.Housed) (hsever : Severing s₀ kind a) :
    s₀.KeepsTargets (t.evictReferrers gone).session := by
  intro r x hx target htarget hy
  have hxt := item?_of_evictReferrers hx
  by_cases hk : r.kind = kind
  · -- what an item of this kind refers to comes before the kind
    have hrank := Item.rank_lt_of_mem_references htarget
    rw [ht.item_kind hxt, hk] at hrank
    have hne : target.kind ≠ kind := fun he => Nat.lt_irrefl _ (he ▸ hrank)
    have hdep : kind ∉ target.kind.dependencies := fun hd =>
      Nat.lt_asymm hrank (Kind.rank_lt_of_mem_dependencies hd)
    rw [item?_eq, (hdec.evicts h).table_eq hdep, ← item?_eq, hdec.item?_of_ne h hne,
      h.below hne hdep]
    exact hy
  · rw [hdec.item?_of_ne h hk] at hxt
    obtain ⟨hnot, hkept⟩ := targets_evictReferrers ht.named hx htarget
    refine hkept ?_
    have hhas := hsever hk hxt target htarget hy
    by_cases hc : ∃ c ∈ a.conflicts, c.item.ref = target
    · obtain ⟨c, hc, rfl⟩ := hc
      exact (hdec.back c hc).resolve_right hnot
    · rw [hdec.same fun c hc' href => hc ⟨c, hc', href⟩]
      exact hhas.resolve_right hc

theorem Decides.prunes (ht : t.Housed) (hsever : Severing s₀ kind a) :
    s₀.Prunes kind (t.evictReferrers gone).session where
  other _ _ hk hx := hdec.other_of_protects h ht hk hx
  subset r x hk hx := by
    have hxt := item?_of_evictReferrers hx
    rw [hdec.item?_of_ne h hk] at hxt
    exact h.subset hk hxt
  targets := hdec.keepsTargets h ht hsever

end

end Absorption

/-! ### A whole fetch -/

namespace Session

variable {s s' : Session} {kind : Kind}

theorem severing_absorb (hs : s.Housed) (kind : Kind) (rows : List Record) :
    Absorption.Severing s kind (s.absorb kind rows) := by
  refine hs.absorb_induction kind rows (fun _ r x _ hx target _ hy => .inl ?_)
    fun f _ a ha h => h.step ha f
  obtain ⟨y, hy⟩ := hy
  exact ⟨y, (item?_markFetched s kind target).trans hy⟩

/-- Fetching a table, whatever its rows, with answers that are accepted. -/
theorem prunes_reconcile (hs : s.Housed) {rows : List Record}
    {answer : List Conflict → List Resolved} {report : FetchReport} {conflicts : List Conflict}
    (h : s.reconcile kind rows answer = (.ok report, s', conflicts)) : s.Prunes kind s' := by
  have habsorb := protects_absorb hs kind rows
  have hsever := severing_absorb hs kind rows
  rcases s.reconcile_cases kind rows answer with
    ⟨hnil, hrec⟩ | ⟨-, _, -, hrec⟩ | ⟨-, hfault, _, -, hrec⟩ <;> cases hrec.symm.trans h
  · -- without conflicts there is nothing to decide on
    have hdec : (s.absorb kind rows).Decides [] (s.absorb kind rows).session := by
      refine ⟨fun _ _ => rfl, fun c hc => ?_, fun r hr => absurd hr List.not_mem_nil⟩
      rw [hnil] at hc
      exact absurd hc List.not_mem_nil
    have hprunes := hdec.prunes habsorb habsorb.housed.session hsever
    rwa [evictReferrers_nil] at hprunes
  · obtain ⟨ordered, hperm, hsettle⟩ := exists_settle_eq (s.absorb kind rows).session hfault
    have hfollows := habsorb.housed.session.follows_foldl_answered habsorb.housed.conflicts hfault hperm
    have hprunes := (habsorb.decides hfault hperm).prunes habsorb hfollows.housed hsever
    rwa [← hsettle] at hprunes

end Session

namespace Connection

variable {σ : Type} [Store σ]

theorem prunes_fetchTable {resolver : Resolver} {kind : Kind} {c c' : Connection σ}
    {report : FetchReport} (hc : c.session.Housed)
    (h : fetchTable resolver kind c = (.ok report, c')) : c.session.Prunes kind c'.session := by
  obtain ⟨rows, store, s', conflicts, hrec, rfl⟩ := fetchTable_eq_ok h
  exact Session.prunes_reconcile hc hrec

end Connection

namespace Workspace

/-- When a fetch of a single table succeeds, in any workspace and whatever the store shows and the
resolver answers: an item of another table is dropped just in case it depends on an item of this table
that is dropped; the other items of other tables are as they were; and no item refers to one that was
dropped. -/
theorem severs_of_fetch {σ : Type} [Store σ] {w w' : Workspace σ} {name : String} {s : Session}
    {kind : Kind} {resolver : Option Resolver} {report : FetchReport}
    {passes : List (List Conflict)} (hw : w.Attained) (hs : w.session? name = some s)
    (hsingle : s.fetchOrder kind = [kind])
    (h : w.perform name s (.fetch kind resolver) = (.ok (.report report), passes, w')) :
    ∃ s', w'.session? name = some s' ∧ s.Severs kind s' := by
  have hhoused := hw.housed hs
  unfold perform at h
  rw [Command.run_fetch, Connection.fetch_eq] at h
  dsimp only at h
  rw [hsingle, List.mapM_cons, ConnectionM.run_bind] at h
  rcases hrun : Connection.fetchTable ((Command.fetch kind resolver).resolver s) kind
    ⟨s, w.store, []⟩ with ⟨e | r, c⟩ <;> rw [hrun] at h
  · cases h
  · cases h
    exact ⟨c.session, (SortedMap.get?_insert ..).trans (if_pos rfl),
      (Connection.prunes_fetchTable (c := ⟨s, w.store, []⟩) hhoused hrun).severs hhoused⟩

/-- A session has stored a class with a plant.  Another one removes the class; meanwhile the session
removes the plant, adds a second one, and gives it a size. -/
def vanishingClass : List Event :=
  [.connect "a" {}, .ask "a" (.add .alternative (.ofList [("name", .text "base")])),
    .ask "a" (.add .entityClass (.ofList [("name", .text "unit")])),
    .ask "a" (.add .entity (.ofList [("class_id", .ref ⟨2⟩), ("name", .text "plant")])),
    .ask "a" (.commit "plant"), .connect "b" {}, .ask "b" (.fetch .entityClass none),
    .ask "b" (.remove ⟨.entityClass, ⟨1⟩⟩), .ask "b" (.commit "no units"),
    .ask "a" (.remove ⟨.entity, ⟨3⟩⟩),
    .ask "a" (.add .entity (.ofList [("class_id", .ref ⟨2⟩), ("name", .text "second")])),
    .ask "a" (.add .parameterDefinition
      (.ofList [("entity_class_id", .ref ⟨2⟩), ("name", .text "size")])),
    .ask "a" (.add .parameterValue (.ofList [("parameter_definition_id", .ref ⟨5⟩),
      ("entity_id", .ref ⟨4⟩), ("alternative_id", .ref ⟨1⟩), ("value", .integer 7)]))]

set_option maxRecDepth 4000 in
/-- With the class go both plants, the removed and the new one, the definition of the size and its
value; the alternative stays. -/
theorem severs_of_fetch_of_vanishingClass : ∃ (w w' : Workspace Database) (s s' : Session)
    (report : FetchReport) (passes : List (List Conflict)), w.Attained ∧ w.session? "a" = some s ∧
      s.fetchOrder .entityClass = [.entityClass] ∧
      w.perform "a" s (.fetch .entityClass none) = (.ok (.report report), passes, w') ∧
      w'.session? "a" = some s' ∧ s.Severs .entityClass s' ∧
      s.Drops s' ⟨.entityClass, ⟨2⟩⟩ ∧ s.Drops s' ⟨.entity, ⟨3⟩⟩ ∧ s.Drops s' ⟨.entity, ⟨4⟩⟩ ∧
      s.Drops s' ⟨.parameterDefinition, ⟨5⟩⟩ ∧ s.Drops s' ⟨.parameterValue, ⟨6⟩⟩ ∧
      (s'.item? ⟨.alternative, ⟨1⟩⟩).isSome = true := by
  have hcheck : (((new .empty).after vanishingClass).session? "a").any (fun s =>
      let (reply, _, w') := ((new .empty).after vanishingClass).perform "a" s
        (.fetch .entityClass none)
      decide (s.fetchOrder .entityClass = [.entityClass]) &&
        decide (reply = .ok (.report { evicted := 5 })) && (w'.session? "a").any fun s' =>
          ([⟨.entityClass, ⟨2⟩⟩, ⟨.entity, ⟨3⟩⟩, ⟨.entity, ⟨4⟩⟩, ⟨.parameterDefinition, ⟨5⟩⟩,
            ⟨.parameterValue, ⟨6⟩⟩] : List ItemRef).all (fun r =>
              (s.item? r).isSome && (s'.item? r).isNone) &&
            (s'.item? ⟨.alternative, ⟨1⟩⟩).isSome) = true := by
    decide +kernel
  obtain ⟨s, hs, hcheck⟩ := (Option.any_eq_true ..).1 hcheck
  rcases hrun : ((new .empty).after vanishingClass).perform "a" s (.fetch .entityClass none) with
    ⟨reply, passes, w'⟩
  rw [hrun] at hcheck
  dsimp only at hcheck
  simp only [Bool.and_eq_true, decide_eq_true_eq] at hcheck
  obtain ⟨⟨horder, rfl⟩, hfound⟩ := hcheck
  have hw := (Attained.new Database.empty).after vanishingClass
  obtain ⟨s', hs', hsevers⟩ := severs_of_fetch hw hs horder hrun
  rw [hs', Option.any_some] at hfound
  obtain ⟨hdropped, hkept⟩ := Bool.and_eq_true_iff.1 hfound
  have hdrops : ∀ r ∈ ([⟨.entityClass, ⟨2⟩⟩, ⟨.entity, ⟨3⟩⟩, ⟨.entity, ⟨4⟩⟩,
      ⟨.parameterDefinition, ⟨5⟩⟩, ⟨.parameterValue, ⟨6⟩⟩] : List ItemRef), s.Drops s' r := by
    intro r hr
    obtain ⟨hsome, hnone⟩ := Bool.and_eq_true_iff.1 (List.all_eq_true.1 hdropped r hr)
    exact ⟨Option.isSome_iff_exists.1 hsome, Option.isNone_iff_eq_none.1 hnone⟩
  exact ⟨_, w', s, s', _, passes, hw, hs, horder, hrun, hs', hsevers, hdrops _ (by simp),
    hdrops _ (by simp), hdrops _ (by simp), hdrops _ (by simp), hdrops _ (by simp), hkept⟩

end Workspace

end StagedEdits
