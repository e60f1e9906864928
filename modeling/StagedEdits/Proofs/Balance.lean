import StagedEdits.Proofs.Severance
import StagedEdits.Store.Faulty

/-!
# The balance of a fetch

The report of a fetch or refresh balances: the items that are there afterwards, over all tables, are those
that were there before and the added ones, less the evicted ones.  Every item is in one place at a time: in
the session, set aside with a conflict, or among those that were counted when they were taken out.  So an
item that several evictions come upon is counted by the first one only.

* `Session.size_evictReferrers`: an eviction counts what it takes out.
* `Absorption.Balances`: what is kept while the findings are carried out, and some items are set aside.
* `Workspace.balance_of_report`: the result for every command that gives a report.
-/

namespace StagedEdits

theorem Table.size_eq_count (t : Table) : t.size = t.count fun _ => true := by
  rw [count_eq_countP, List.countP_true]
  exact (List.length_map ..).symm

namespace Session

/-! ### Counting items -/

/-- The number of items over all tables, removed ones included. -/
def size (s : Session) : Nat := s.tables.weight Table.size

theorem size_eq_count (s : Session) : s.size = s.count fun _ => true :=
  SortedMap.total_congr fun t _ => t.size_eq_count

variable {s s' : Session}

theorem size_put_of_none {item : Item} (h : s.item? item.ref = none) :
    (s.put item).size = s.size + 1 := by
  have hcount := s.count_put item fun _ => true
  rw [h] at hcount
  rw [size_eq_count, size_eq_count]
  exact hcount

/-- An item may be replaced by one of the same name. -/
theorem size_replace (hs : s.Housed) {r : ItemRef} {a b : Item} (ha : s.item? r = some a)
    (href : b.ref = a.ref) : (s.put b).size = s.size := by
  have hcount := s.count_put b fun _ => true
  rw [href, hs.ref_eq ha, ha] at hcount
  rw [size_eq_count, size_eq_count]
  exact Nat.succ.inj hcount

theorem size_drop {r : ItemRef} {item : Item} (h : s.item? r = some item) :
    (s.drop r).size + 1 = s.size := by
  have hcount := s.count_drop r fun _ => true
  rw [h] at hcount
  rw [size_eq_count, size_eq_count]
  exact hcount

theorem size_markFetched (s : Session) (kind : Kind) : (s.markFetched kind).size = s.size := by
  have hcount := s.count_setTable kind (s.table kind) fun _ => true
  rw [size_eq_count, size_eq_count]
  exact Nat.add_right_cancel hcount

/-! ### Evictions -/

theorem size_foldl_drop {items : List Item} (hnodup : (items.map Item.ref).Nodup)
    (h : ∀ item ∈ items, ∃ x, s.item? item.ref = some x) :
    (items.foldl (fun s item => s.drop item.ref) s).size + items.length = s.size := by
  induction items generalizing s with
  | nil => rfl
  | cons item items ih =>
    obtain ⟨hnot, hnodup⟩ := List.nodup_cons.1 hnodup
    obtain ⟨x, hx⟩ := h item (List.mem_cons_self ..)
    have hdrop := size_drop hx
    have hrest := ih (s := s.drop item.ref) hnodup fun item' hmem => by
      rw [item?_drop, if_neg fun heq => hnot (List.mem_map.2 ⟨item', hmem, heq⟩)]
      exact h item' (List.mem_cons_of_mem _ hmem)
    rw [List.foldl_cons, List.length_cons]
    omega

/-- The orphans of one kind are different items of the session, and the sweep counts them. -/
theorem size_step {w : Sweep} (hs : w.session.Housed) (kind : Kind) :
    (w.step kind).session.size + (w.step kind).evicted = w.session.size + w.evicted := by
  have hthere : ∀ item ∈ w.orphans kind, ∃ x, w.session.item? item.ref = some x := by
    intro item hmem
    have hitem := mem_all_iff.1 (List.mem_filter.1 hmem).1
    exact ⟨item, by rw [hs.ref_eq hitem]; exact hitem⟩
  have hsession : (w.step kind).session =
      (w.orphans kind).foldl (fun s item => s.drop item.ref) w.session := rfl
  have hevicted : (w.step kind).evicted = w.evicted + (w.orphans kind).length := rfl
  have hdrops := size_foldl_drop (nodup_orphans w kind) hthere
  rw [hsession, hevicted]
  omega

/-- An eviction counts what it takes out. -/
theorem size_evictReferrers (hs : s.Housed) (gone : List ItemRef) :
    (s.evictReferrers gone).session.size + (s.evictReferrers gone).evicted = s.size := by
  have hsweep : s.Follows (s.evictReferrers gone).session ∧ (s.evictReferrers gone).session.size +
      (s.evictReferrers gone).evicted = s.size :=
    evictReferrers_induction
      (K := fun w => s.Follows w.session ∧ w.session.size + w.evicted = s.size) ⟨.refl hs, rfl⟩
      fun w kind ⟨hfollows, hsize⟩ =>
        ⟨hfollows.trans (hfollows.housed.follows_foldl_drop (w.orphans kind)),
          (size_step hfollows.housed kind).trans hsize⟩
  exact hsweep.2

theorem size_evict (hs : s.Housed) (r : ItemRef) : (s.evict r).1.size + (s.evict r).2 = s.size := by
  unfold evict
  split
  next => rfl
  next item hitem =>
    have hdrop := size_drop hitem
    have hsweep := size_evictReferrers (hs.follows_drop r).housed [r]
    dsimp only
    omega

end Session

/-! ### Carrying the findings out -/

namespace Absorption

open Session

/-- Of a session with `n` items, and those added since, all are there, set aside or counted as evicted. -/
structure Balances (n : Nat) (a : Absorption) : Prop where
  size : a.session.size + a.conflicts.length + a.report.evicted = n + a.report.added
  conflicts : a.report.conflicts = 0

variable {n : Nat} {a : Absorption} {kind : Kind}

/-- What taking in one finding keeps. -/
theorem Balances.step (ha : a.Housed) (h : Balances n a) (f : Finding) :
    Balances n (a.step kind f) := by
  have hsize := h.size
  cases f with
  | same id => exact h
  | unknown row =>
    -- the new item has an identity that no item has yet
    have hnone : a.session.item? (Item.loaded a.session.nextId kind row).ref = none :=
      Option.eq_none_iff_forall_ne_some.2 fun x hx => Nat.lt_irrefl _ (ha.session.given hx)
    have hput : (a.step kind (.unknown row)).session.size = a.session.size + 1 :=
      size_put_of_none (s := { a.session with nextId := a.session.nextId.next }) hnone
    refine ⟨?_, h.conflicts⟩
    rw [hput]
    show _ + a.conflicts.length + a.report.evicted = n + (a.report.added + 1)
    omega
  | changed id row =>
    unfold Absorption.step
    dsimp only
    split
    next => exact h
    next item hitem =>
      refine ⟨?_, h.conflicts⟩
      dsimp only
      rw [size_replace (b := item.adopt row) ha.session hitem rfl]
      exact hsize
  | twin id row =>
    unfold Absorption.step
    dsimp only
    split
    next => exact h
    next item hitem =>
      refine ⟨?_, h.conflicts⟩
      dsimp only
      rw [size_replace ha.session hitem (item.ref_claim row)]
      exact hsize
  | conflict id row d =>
    unfold Absorption.step
    dsimp only
    split
    next => exact h
    next item hitem =>
      have hdrop := size_drop hitem
      refine ⟨?_, h.conflicts⟩
      dsimp only
      rw [List.length_append, List.length_singleton]
      omega
  | gone id =>
    have hevict := size_evict ha.session ⟨kind, id⟩
    refine ⟨?_, h.conflicts⟩
    show (a.session.evict ⟨kind, id⟩).1.size + a.conflicts.length +
      (a.report.evicted + (a.session.evict ⟨kind, id⟩).2) = n + a.report.added
    omega

end Absorption

namespace Session

variable {s s' : Session} {kind : Kind} {rows : List Record}

theorem balances_absorb (hs : s.Housed) (kind : Kind) (rows : List Record) :
    Absorption.Balances s.size (s.absorb kind rows) :=
  hs.absorb_induction kind rows (fun _ => ⟨s.size_markFetched kind, rfl⟩) fun f _ _ ha h => h.step ha f

/-! ### Settling the conflicts -/

/-- Of items that were set aside, carrying the answers out puts all back but those that are conceded. -/
theorem size_foldl_answered {answers : List Resolved}
    (hnodup : (answers.map (·.item.ref)).Nodup) (habsent : ∀ r ∈ answers, s.item? r.item.ref = none) :
    (answers.foldl answered s).size + (conceded answers).length = s.size + answers.length := by
  induction answers generalizing s with
  | nil => rfl
  | cons r answers ih =>
    obtain ⟨hnot, hnodup⟩ := List.nodup_cons.1 hnodup
    have hnone := habsent r (List.mem_cons_self ..)
    have hrest := fun r' hr' => habsent r' (List.mem_cons_of_mem _ hr')
    rw [List.foldl_cons, List.length_cons]
    cases hb : r.outcome? with
    | none =>
      have hstep : s.answered r = s := by rw [answered_eq, hb]
      have hsize := ih hnodup hrest
      rw [hstep, conceded_cons_of_none hb, List.length_cons]
      omega
    | some b =>
      have href := Resolved.ref_outcome? hb
      have hstep : s.answered r = s.put b := by rw [answered_eq, hb]
      have hput : (s.put b).size = s.size + 1 := size_put_of_none (href ▸ hnone)
      have hsize := ih (s := s.put b) hnodup fun r' hr' => by
        rw [item?_put, href, if_neg fun heq => hnot (List.mem_map.2 ⟨r', hr', heq⟩)]
        exact hrest r' hr'
      rw [hstep, conceded_cons_of_some hb]
      omega

/-- Settling conflicts counts the items that are not put back, and those that are evicted with them. -/
theorem size_settle {a : Absorption} (h : Absorption.Protects s kind a) {answers : List Resolved}
    (hfault : contractFault? a.conflicts answers = none) {evicted : Nat}
    (hok : (a.session.settle a.conflicts answers).1 = .ok evicted) :
    (a.session.settle a.conflicts answers).2.size + evicted =
      a.session.size + a.conflicts.length := by
  obtain ⟨ordered, hperm, hsettle⟩ := exists_settle_eq_ok a.session hfault
  rw [hsettle] at hok ⊢
  have hevicted := Except.ok.inj hok
  have habsent : ∀ r ∈ ordered, a.session.item? r.item.ref = none := by
    intro r hr
    obtain ⟨c, hc, heq⟩ := item_mem_of_contractFault? hfault r (hperm.mem_iff.1 hr)
    rw [← heq]
    exact (h.aside c hc).2.2
  have hback := size_foldl_answered (nodup_refs_of_contractFault? hfault hperm) habsent
  have hfollows := h.housed.session.follows_foldl_answered h.housed.conflicts hfault hperm
  have hsweep := size_evictReferrers hfollows.housed (conceded ordered)
  have hlen : ordered.length = a.conflicts.length :=
    hperm.length_eq.trans (length_of_contractFault? hfault)
  dsimp only
  omega

/-- The report on one table balances, whatever its rows and the answers that are accepted. -/
theorem balance_reconcile (hs : s.Housed) {answer : List Conflict → List Resolved}
    {report : FetchReport} {conflicts : List Conflict}
    (h : s.reconcile kind rows answer = (.ok report, s', conflicts)) :
    s'.size + report.evicted = s.size + report.added ∧ report.conflicts = conflicts.length := by
  have hbalance := balances_absorb hs kind rows
  have hsize := hbalance.size
  rcases s.reconcile_cases kind rows answer with
    ⟨hnil, hrec⟩ | ⟨-, _, -, hrec⟩ | ⟨-, hfault, evicted, hok, hrec⟩ <;> cases hrec.symm.trans h
  · rw [hnil] at hsize
    exact ⟨hsize, hbalance.conflicts⟩
  · have hsettle := size_settle (protects_absorb hs kind rows) hfault hok
    refine ⟨?_, rfl⟩
    dsimp only
    omega

end Session

/-! ### Fetching and refreshing -/

namespace Connection

open ConnectionM

variable {σ : Type}

/-- The number of conflicts that were handed to the resolver, over all passes. -/
def handed (c : Connection σ) : Nat := c.passes.flatten.length

/-- What a report says of the items and the conflicts from connection `c` to `c'`. -/
structure Balances (c c' : Connection σ) (report : FetchReport) : Prop where
  size : c'.session.size + report.evicted = c.session.size + report.added
  handed : c'.handed = c.handed + report.conflicts

theorem Balances.refl (c : Connection σ) : Balances c c {} := ⟨rfl, rfl⟩

theorem Balances.trans {c c' c'' : Connection σ} {report report' : FetchReport}
    (h : Balances c c' report) (h' : Balances c' c'' report') :
    Balances c c'' (report + report') := by
  have hsize := h.size
  have hsize' := h'.size
  refine ⟨?_, ?_⟩
  · show _ + (report.evicted + report'.evicted) = _ + (report.added + report'.added)
    omega
  · show _ = _ + (report.conflicts + report'.conflicts)
    rw [h'.handed, h.handed, Nat.add_assoc]

variable [Store σ] {resolver : Resolver}

theorem balances_fetchTable {kind : Kind} {c c' : Connection σ} {report : FetchReport}
    (hc : c.session.Housed) (h : fetchTable resolver kind c = (.ok report, c')) :
    Balances c c' report := by
  obtain ⟨rows, store, s', conflicts, hrec, rfl⟩ := fetchTable_eq_ok h
  obtain ⟨hsize, hconflicts⟩ := Session.balance_reconcile hc hrec
  refine ⟨hsize, ?_⟩
  unfold handed
  rw [hconflicts]
  dsimp only
  split
  next hnil => rw [hnil]; rfl
  next => rw [List.flatten_append, List.length_append, List.flatten_singleton]

/-- Tables are fetched one after the other, after those that `report` is about. -/
theorem Balances.mapM {kinds : List Kind} {c₀ c c' : Connection σ} {report : FetchReport}
    {reports : List FetchReport} (hc : c.session.Housed) (h₀ : Balances c₀ c report)
    (h : kinds.mapM (fetchTable resolver) c = (.ok reports, c')) :
    Balances c₀ c' (reports.foldl (· + ·) report) := by
  induction kinds generalizing c report reports with
  | nil =>
    cases h
    exact h₀
  | cons kind kinds ih =>
    obtain ⟨first, rest, c₁, hrun, hrest, rfl⟩ := mapM_cons_eq_ok h
    have hc₁ := (proceeds_fetchTable Store.respects_true resolver kind c hc).session.housed
    rw [hrun] at hc₁
    have hfirst := h₀.trans (balances_fetchTable hc hrun)
    have hall := ih hc₁ hfirst hrest
    exact hall

theorem balances_fetch {kind : Kind} {c c' : Connection σ} {report : FetchReport}
    (hc : c.session.Housed) (h : fetch resolver kind c = (.ok report, c')) :
    Balances c c' report := by
  rw [fetch_eq] at h
  split at h
  next reports c₁ hrun =>
    cases h
    exact (Balances.refl c).mapM hc hrun
  next => cases h

theorem balances_refresh {c c' : Connection σ} {report : FetchReport} (hc : c.session.Housed)
    (h : refresh resolver c = (.ok report, c')) : Balances c c' report := by
  obtain ⟨count, store, reports, c₁, -, hrun, rfl, rfl⟩ := refresh_eq_ok h
  have hbalance := Balances.mapM (c := { c with store := store }) hc (.refl _) hrun
  exact ⟨hbalance.size, hbalance.handed⟩

end Connection

/-- Whatever command gives a report, the report balances. -/
theorem Command.balances_run {σ : Type} [Store σ] {command : Command} {c c' : Connection σ}
    {report : FetchReport} (hc : c.session.Housed)
    (h : command.run c = (.ok (.report report), c')) : Connection.Balances c c' report := by
  have hreply := replies_of_run h
  cases command with
  | fetch kind resolver =>
    obtain ⟨report', hrun, heq⟩ := run_fetch_eq_ok h
    cases heq
    exact Connection.balances_fetch hc hrun
  | refresh resolver =>
    obtain ⟨report', hrun, heq⟩ := run_refresh_eq_ok h
    cases heq
    exact Connection.balances_refresh hc hrun
  | _ => exact absurd hreply id

namespace Workspace

/-- In any workspace, whatever the store shows and the resolver answers: when a fetch or a refresh gives a
report, the session has as many items as before, the added ones more and the evicted ones less, and as many
conflicts are reported as were handed to the resolver over all passes. -/
theorem balance_of_report {σ : Type} [Store σ] {w w' : Workspace σ} {name : String} {s : Session}
    {command : Command} {report : FetchReport} {passes : List (List Conflict)} (hw : w.Attained)
    (hs : w.session? name = some s)
    (hrun : w.perform name s command = (.ok (.report report), passes, w')) :
    ∃ s', w'.session? name = some s' ∧ s'.size + report.evicted = s.size + report.added ∧
      report.conflicts = passes.flatten.length := by
  rcases hresult : command.run ⟨s, w.store, []⟩ with ⟨reply, c'⟩
  unfold perform at hrun
  rw [hresult] at hrun
  cases hrun
  have hbalance := Command.balances_run (hw.housed hs) hresult
  refine ⟨c'.session, (SortedMap.get?_insert ..).trans (if_pos rfl), hbalance.size, ?_⟩
  exact (hbalance.handed.trans (Nat.zero_add _)).symm

/-- From now on the store shows other rows of a table. -/
def showing (w : Workspace (Faulty Database)) (kind : Kind) (rows : List Record) :
    Workspace (Faulty Database) :=
  { w with store := { w.store with overrides := w.store.overrides.insert kind rows } }

/-- A session has fetched two classes of the same identity, one without, and an entity of the first two.
It has changed the class that now stands for the row; then only another class without an identity is
left. -/
def unidentifiedRows : Workspace (Faulty Database) :=
  let classes := [.ofList [("id", .integer 1), ("name", .text "fish")],
    .ofList [("id", .integer 1), ("name", .text "bird")], .ofList [("name", .text "tree")]]
  let entities := [.ofList [("id", .integer 1), ("class_id", .integer 1), ("name", .text "nemo")]]
  let w := ((new { inner := .empty }).connect "a" {}).2
  let w := ((w.showing .entityClass classes).showing .entity entities).ask "a" (.fetch .entity none)
  let w := w.ask "a" (.update ⟨.entityClass, ⟨2⟩⟩ (.ofList [("description", .text "mine")]))
  w.showing .entityClass [.ofList [("name", .text "rock")]]

set_option maxRecDepth 4000 in
/-- Of four items, the changed class is conceded and the entity goes with it, while the new class
arrives. -/
theorem balance_of_report_of_unidentifiedRows : ∃ (w w' : Workspace (Faulty Database))
    (s s' : Session) (report : FetchReport) (passes : List (List Conflict)), w.Attained ∧
      w.session? "a" = some s ∧ s.size = 4 ∧
      w.perform "a" s (.fetch .entityClass (some Choice.takeStored.resolver)) =
        (.ok (.report report), passes, w') ∧
      report = { added := 1, evicted := 2, conflicts := 1 } ∧ w'.session? "a" = some s' ∧
      s'.size + report.evicted = s.size + report.added ∧
      report.conflicts = passes.flatten.length := by
  have hcheck : (unidentifiedRows.session? "a").any (fun s =>
      let reply := (unidentifiedRows.perform "a" s
        (.fetch .entityClass (some Choice.takeStored.resolver))).1
      decide (s.size = 4) &&
        decide (reply = .ok (.report { added := 1, evicted := 2, conflicts := 1 }))) = true := by
    decide +kernel
  obtain ⟨s, hs, hcheck⟩ := (Option.any_eq_true ..).1 hcheck
  obtain ⟨hsize, hreply⟩ := Bool.and_eq_true_iff.1 hcheck
  have hreply := of_decide_eq_true hreply
  rcases hrun : unidentifiedRows.perform "a" s (.fetch .entityClass (some Choice.takeStored.resolver))
    with ⟨reply, passes, w'⟩
  rw [hrun] at hreply
  obtain rfl : reply = _ := hreply
  have hw : unidentifiedRows.Attained := by
    have hconnected := (Attained.new ({ inner := .empty } : Faulty Database)).connect "a" {}
    exact (((hconnected.meanwhile _).meanwhile _).ask "a" _ |>.ask "a" _).meanwhile _
  obtain ⟨s', hs', hbalance⟩ := balance_of_report hw hs hrun
  exact ⟨_, w', s, s', _, passes, hw, hs, of_decide_eq_true hsize, hrun, rfl, hs', hbalance⟩

end Workspace

end StagedEdits
