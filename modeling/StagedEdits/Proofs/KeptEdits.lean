import StagedEdits.Proofs.AnyStore
import StagedEdits.Proofs.Binding
import StagedEdits.Proofs.Protection
import StagedEdits.Proofs.StoredSide

/-!
# Edits that are kept

When all conflicts of a fetch or refresh are decided for the session, no pending edit gets lost: an
item with an edit keeps its content and stays pending, or its edit turns out to be what the database
says already (`Item.Keeps`).  Only if an item that it refers to is taken out, it goes as well.  All
this holds for any store and after anything that may have happened before (`Workspace.Attained`).
-/

namespace StagedEdits

namespace Session

variable {s s' s'' : Session} {kind : Kind} {kinds : List Kind}

/-- `s'` is `s` after the given tables were fetched without losing an edit. -/
structure KeepsEdits (kinds : List Kind) (s s' : Session) : Prop where
  follows : s.Follows s'
  fetched : ∀ ⦃r x⦄, r.kind ∈ kinds → s.item? r = some x → x.Pending →
    (∃ b, s'.item? r = some b ∧ x.Keeps b) ∨ s.Orphans s' r x
  other : ∀ ⦃r x⦄, r.kind ∉ kinds → s.item? r = some x → s'.item? r = some x ∨ s.Orphans s' r x
  subset : ∀ ⦃r x⦄, r.kind ∉ kinds → s'.item? r = some x → s.item? r = some x
  absent : ∀ ⦃r⦄, r.id.val < s.nextId.val → s.item? r = none → s'.item? r = none
  below : ∀ ⦃r⦄, (∀ k ∈ kinds, r.kind.rank < k.rank) → s'.item? r = s.item? r

theorem KeepsEdits.pending (h : KeepsEdits kinds s s') {r : ItemRef} {x : Item}
    (hx : s.item? r = some x) (hp : x.Pending) :
    (∃ b, s'.item? r = some b ∧ x.Keeps b) ∨ s.Orphans s' r x := by
  by_cases hk : r.kind ∈ kinds
  · exact h.fetched hk hx hp
  · exact (h.other hk hx).imp_left fun hsame => ⟨x, hsame, .refl hp⟩

theorem KeepsEdits.refl (hs : s.Housed) : KeepsEdits [] s s where
  follows := .refl hs
  fetched _ _ hk := absurd hk List.not_mem_nil
  other _ _ _ hx := .inl hx
  subset _ _ _ hx := hx
  absent _ _ hx := hx
  below _ _ := rfl

/-- Tables are fetched in the order of their kinds.  What refers to an item that one of them has lost
is not loaded again, and what one of them has loaded is not lost through a later one. -/
theorem KeepsEdits.cons (hs : s.Housed) (h : KeepsEdits [kind] s s') (h' : KeepsEdits kinds s' s'')
    (hrank : ∀ k ∈ kinds, kind.rank < k.rank) : KeepsEdits (kind :: kinds) s s'' := by
  have hgiven : ∀ {r x}, s.item? r = some x → r.id.val < s'.nextId.val := fun hx =>
    Nat.lt_of_lt_of_le (hs.given hx) h.follows.nextId_le
  have hearly : ∀ {r x}, s.item? r = some x → s.Orphans s' r x → s.Orphans s'' r x := by
    rintro r x hx ⟨hr, target, htarget, ⟨y, hy⟩, ht⟩
    exact ⟨h'.absent (hgiven hx) hr, target, htarget, ⟨y, hy⟩, h'.absent (hgiven hy) ht⟩
  have hlate : ∀ {r x}, s'.Orphans s'' r x → s.Orphans s'' r x := by
    rintro r x ⟨hr, target, htarget, ⟨y, hy⟩, ht⟩
    have hk : target.kind ∉ [kind] := by
      intro hk
      have hsame := h'.below (r := target) (List.mem_singleton.1 hk ▸ hrank)
      rw [ht, hy] at hsame
      cases hsame
    exact ⟨hr, target, htarget, ⟨y, h.subset hk hy⟩, ht⟩
  have hnot : ∀ {r : ItemRef}, r.kind ∈ kinds → r.kind ∉ [kind] := by
    intro r hk hmem
    rw [List.mem_singleton.1 hmem] at hk
    exact Nat.lt_irrefl _ (hrank kind hk)
  refine ⟨h.follows.trans h'.follows, fun r x hk hx hp => ?_, fun r x hk hx => ?_,
    fun r x hk hx => ?_, fun r hr hx => ?_, fun r hk => ?_⟩
  · rcases List.mem_cons.1 hk with hk | hk
    · rcases h.fetched (List.mem_singleton.2 hk) hx hp with ⟨b, hb, hkeep⟩ | horphan
      · exact .inl ⟨b, (h'.below (hk ▸ hrank)).trans hb, hkeep⟩
      · exact .inr (hearly hx horphan)
    · rcases h.other (hnot hk) hx with hsame | horphan
      · exact (h'.fetched hk hsame hp).imp_right hlate
      · exact .inr (hearly hx horphan)
  · obtain ⟨hne, hk⟩ := not_or.1 (mt List.mem_cons.2 hk)
    rcases h.other (mt List.mem_singleton.1 hne) hx with hsame | horphan
    · exact (h'.other hk hsame).imp_right hlate
    · exact .inr (hearly hx horphan)
  · obtain ⟨hne, hk⟩ := not_or.1 (mt List.mem_cons.2 hk)
    exact h.subset (mt List.mem_singleton.1 hne) (h'.subset hk hx)
  · exact h'.absent (Nat.lt_of_lt_of_le hr h.follows.nextId_le) (h.absent hr hx)
  · rw [h'.below fun k hk' => hk k (List.mem_cons_of_mem _ hk'),
      h.below fun k hk' => hk k (List.mem_singleton.1 hk' ▸ List.mem_cons_self ..)]

end Session

/-- A table is fetched without losing an edit, once the items set aside are back. -/
theorem Absorption.Protects.keepsEdits {s s' : Session} {kind : Kind} {a : Absorption}
    (hs : s.Housed) (h : Protects s kind a) (hfollows : a.session.Follows s')
    (hback : ∀ c ∈ a.conflicts, c.item.status = .toUpdate →
      ∃ b, s'.item? c.item.ref = some b ∧ c.item.Keeps b)
    (hsame : ∀ r, (∀ c ∈ a.conflicts, c.item.ref ≠ r) → s'.item? r = a.session.item? r) :
    s.KeepsEdits [kind] s' where
  follows := h.follows.trans hfollows
  fetched r x hk hx hp := by
    obtain ⟨k, id⟩ := r
    obtain rfl : k = kind := List.mem_singleton.1 hk
    rcases h.own hx hp with ⟨b, hb, hkeep, -⟩ | ⟨hst, c, hc, rfl⟩
    · refine .inl ⟨b, ?_, hkeep⟩
      rw [hsame _ fun c hc heq => by rw [← heq, (h.aside c hc).2.2] at hb; cases hb]
      exact hb
    · rw [← hs.ref_eq hx]
      exact .inl (hback c hc hst)
  other r x hk hx := by
    have hk : r.kind ≠ kind := mt List.mem_singleton.2 hk
    rw [hsame r fun c hc heq => hk (heq ▸ (h.aside c hc).1)]
    refine (h.other hk hx).imp_right ?_
    rintro ⟨hr, target, htarget, hy, ht, haway⟩
    rw [← hsame r fun c hc heq => hk (heq ▸ (h.aside c hc).1)] at hr
    exact ⟨hr, target, htarget, hy, (hsame target haway).trans ht⟩
  subset r x hk hx := by
    have hk : r.kind ≠ kind := mt List.mem_singleton.2 hk
    rw [hsame r fun c hc heq => hk (heq ▸ (h.aside c hc).1)] at hx
    exact h.subset hk hx
  absent r hr hx := by
    rw [hsame r fun c hc heq => by
      obtain ⟨-, ⟨y, hy⟩, -⟩ := h.aside c hc
      rw [heq, hx] at hy
      cases hy]
    exact h.absent hr hx
  below r hk := by
    have hlt := hk kind (List.mem_singleton.2 rfl)
    have hne : r.kind ≠ kind := fun heq => Nat.lt_irrefl _ (heq ▸ hlt)
    rw [hsame r fun c hc heq => hne (heq ▸ (h.aside c hc).1)]
    exact h.below hne fun hd => Nat.lt_asymm hlt (Kind.rank_lt_of_mem_dependencies hd)

namespace Session

variable {s s' : Session} {kind : Kind} {kinds : List Kind}

theorem protects_absorb (hs : s.Housed) (kind : Kind) (rows : List Record) :
    Absorption.Protects s kind (s.absorb kind rows) := by
  have hstart : ∀ report, Absorption.Protects s kind ⟨s.markFetched kind, report, []⟩ := by
    intro report
    have hmark := hs.follows_markFetched kind
    have hsame := item?_markFetched s kind
    exact {
      follows := hmark
      housed := ⟨hmark.housed, fun _ hc => absurd hc List.not_mem_nil⟩
      own := fun id x hx hp => .inl ⟨x, (hsame _).trans hx, .refl hp, fun _ => rfl⟩
      other := fun r x _ hx => .inl ((hsame r).trans hx)
      subset := fun r x _ hx => (hsame r).symm.trans hx
      absent := fun r _ hx => (hsame r).trans hx
      below := fun r _ _ => hsame r
      aside := fun _ hc => absurd hc List.not_mem_nil }
  exact hs.absorb_induction kind rows (fun _ => hstart _) fun f hf a _ ha =>
    ha.step hs (Table.concerns_of_mem_findings hf)

/-- Fetching a table, if all its conflicts are decided for the session. -/
theorem keepsEdits_reconcile (hs : s.Housed) {rows : List Record}
    {answer : List Conflict → List Resolved} {report : FetchReport} {conflicts : List Conflict}
    (h : s.reconcile kind rows answer = (.ok report, s', conflicts))
    (hkeep : conflicts ≠ [] → ∀ r ∈ answer conflicts, r.choice = .keepLocal) :
    s.KeepsEdits [kind] s' := by
  have habsorb := protects_absorb hs kind rows
  have hsettle := habsorb.housed.session.follows_settle habsorb.housed.conflicts
    (answer (s.absorb kind rows).conflicts)
  rcases s.reconcile_cases kind rows answer with
    ⟨hnil, hrec⟩ | ⟨-, _, -, hrec⟩ | ⟨hne, hfault, _, -, hrec⟩ <;> cases hrec.symm.trans h
  · refine habsorb.keepsEdits hs (.refl habsorb.housed.session) (fun c hc => ?_) fun _ _ => rfl
    rw [hnil] at hc
    exact absurd hc List.not_mem_nil
  · obtain ⟨hback, hsame⟩ := settle_of_keepLocal hfault (hkeep hne) (s.absorb kind rows).session
    exact habsorb.keepsEdits hs hsettle hback hsame

end Session

/-! ### Fetching and refreshing -/

namespace Connection

open ConnectionM

variable {σ : Type} [Store σ] {resolver : Resolver}

/-- The tables of a command are fetched without losing an edit, if the resolver gives all conflicts to
the session. -/
def Keeps (resolver : Resolver) (kinds : List Kind) (c c' : Connection σ) : Prop :=
  ∃ passes, c'.passes = c.passes ++ passes ∧
    (resolver.GivesAll .keepLocal c.passes passes → c.session.KeepsEdits kinds c'.session)

theorem keeps_fetchTable {kind : Kind} {c c' : Connection σ} {report : FetchReport}
    (hc : c.session.Housed) (h : fetchTable resolver kind c = (.ok report, c')) :
    Keeps resolver [kind] c c' := by
  obtain ⟨rows, store, s', conflicts, hrec, rfl⟩ := fetchTable_eq_ok h
  by_cases hnil : conflicts = []
  · refine ⟨[], by rw [if_pos hnil, List.append_nil], fun _ => ?_⟩
    exact Session.keepsEdits_reconcile hc hrec fun hne => absurd hnil hne
  · refine ⟨[conflicts], by rw [if_neg hnil], fun hall => ?_⟩
    exact Session.keepsEdits_reconcile hc hrec fun _ => hall.1

theorem keeps_mapM {kinds : List Kind} (hrank : kinds.Pairwise fun a b => a.rank < b.rank)
    {c c' : Connection σ} {reports : List FetchReport} (hc : c.session.Housed)
    (h : kinds.mapM (fetchTable resolver) c = (.ok reports, c')) : Keeps resolver kinds c c' := by
  induction kinds generalizing c reports with
  | nil =>
    cases h
    exact ⟨[], (List.append_nil _).symm, fun _ => .refl hc⟩
  | cons kind kinds ih =>
    obtain ⟨hfirst, hrank⟩ := List.pairwise_cons.1 hrank
    obtain ⟨report, rest, c₁, hrun, hrest, rfl⟩ := mapM_cons_eq_ok h
    have hc₁ := (proceeds_fetchTable Store.respects_true resolver kind c hc).session.housed
    rw [hrun] at hc₁
    obtain ⟨passes, hpasses, hkeep⟩ := keeps_fetchTable hc hrun
    obtain ⟨passes', hpasses', hkeep'⟩ := ih hrank hc₁ hrest
    refine ⟨passes ++ passes', ?_, fun hall => ?_⟩
    · rw [hpasses', hpasses, List.append_assoc]
    · obtain ⟨hhead, htail⟩ := Resolver.givesAll_append.1 hall
      rw [← hpasses] at htail
      exact (hkeep hhead).cons hc (hkeep' htail) hfirst

theorem keeps_fetch {kind : Kind} {c c' : Connection σ} {report : FetchReport}
    (hc : c.session.Housed) (h : fetch resolver kind c = (.ok report, c')) :
    Keeps resolver (c.session.fetchOrder kind) c c' := by
  rw [fetch_eq] at h
  split at h
  next reports c₁ hrun =>
    cases h
    exact keeps_mapM (Session.pairwise_rank_fetchOrder c.session kind) hc hrun
  next => cases h

theorem keeps_refresh {c c' : Connection σ} {report : FetchReport} (hc : c.session.Housed)
    (h : refresh resolver c = (.ok report, c')) :
    ∃ c₁, Keeps resolver c.session.refreshOrder c c₁ ∧ c'.passes = c₁.passes ∧
      ∀ r, c'.session.item? r = c₁.session.item? r := by
  obtain ⟨count, store, reports, c₁, -, hrun, -, rfl⟩ := refresh_eq_ok h
  exact ⟨c₁, keeps_mapM (Session.pairwise_rank_refreshOrder c.session)
    (c := { c with store := store }) hc hrun, rfl, fun _ => rfl⟩

end Connection

/-- A fetch or refresh that succeeds loses no edit, if all its conflicts are decided for the
session. -/
theorem Command.keeps_run {σ : Type} [Store σ] {command : Command} (hpull : command.isPull = true)
    {c c' : Connection σ} {reply : Reply} (hc : c.session.Housed)
    (h : command.run c = (.ok reply, c')) :
    ∃ kinds c₁, Connection.Keeps (command.resolver c.session) kinds c c₁ ∧
      c'.passes = c₁.passes ∧ ∀ r, c'.session.item? r = c₁.session.item? r := by
  cases command with
  | fetch kind resolver =>
    obtain ⟨report, hrun, -⟩ := run_fetch_eq_ok h
    exact ⟨_, c', Connection.keeps_fetch hc hrun, rfl, fun _ => rfl⟩
  | refresh resolver =>
    obtain ⟨report, hrun, -⟩ := run_refresh_eq_ok h
    exact ⟨_, Connection.keeps_refresh hc hrun⟩
  | _ => cases hpull

namespace Workspace

variable {σ : Type} [Store σ] {w : Workspace σ} {name : String} {s : Session}

/-- What a workspace can come to be, whatever others do to the store. -/
inductive Attained : Workspace σ → Prop
  | new (store : σ) : Attained (new store)
  | connect {w : Workspace σ} (h : w.Attained) (name : String) (config : Config) :
      Attained (w.connect name config).2
  | perform {w : Workspace σ} (h : w.Attained) {name : String} {s : Session}
      (hs : w.session? name = some s) (command : Command) : Attained (w.perform name s command).2.2
  | meanwhile {w : Workspace σ} (h : w.Attained) (store : σ) : Attained { w with store := store }

/-- The sessions after one was opened. -/
theorem session_of_connect {n : String} {config : Config}
    (hs : (w.connect n config).2.session? name = some s) :
    w.session? name = some s ∨ ∃ count, s = .new config count := by
  unfold Workspace.connect at hs
  split at hs
  next => exact .inl hs
  next count store _ =>
    have hinsert : (w.sessions.insert n (.new config count)).get? name = some s := hs
    rw [SortedMap.get?_insert] at hinsert
    split at hinsert
    next => exact .inr ⟨count, (Option.some.inj hinsert).symm⟩
    next => exact .inl hinsert

/-- What new sessions have and commands keep, all sessions have. -/
theorem Attained.session {I : Session → Prop} (hw : w.Attained)
    (hnew : ∀ config count, I (.new config count))
    (hrun : ∀ (command : Command) {c : Connection σ}, I c.session → I (command.run c).2.session)
    (hs : w.session? name = some s) : I s := by
  induction hw generalizing name s with
  | new store => cases hs
  | connect h n config ih =>
    rcases session_of_connect hs with hs | ⟨count, rfl⟩
    · exact ih hs
    · exact hnew config count
  | perform h hn command ih =>
    rw [session?_perform] at hs
    split at hs
    next => exact Option.some.inj hs ▸ hrun command (ih hn)
    next => exact ih hs
  | meanwhile h store ih => exact ih hs

/-- In every workspace the items of all sessions are where they belong. -/
theorem Attained.housed (hw : w.Attained) (hs : w.session? name = some s) : s.Housed :=
  hw.session Session.housed_new Command.housed_run hs

/-- The workspace after something was asked of a session; nothing happens if it is not open. -/
def ask (w : Workspace σ) (name : String) (command : Command) : Workspace σ :=
  match w.session? name with
  | none => w
  | some s => (w.perform name s command).2.2

theorem Attained.ask (hw : w.Attained) (name : String) (command : Command) :
    (w.ask name command).Attained := by
  unfold Workspace.ask
  split
  next => exact hw
  next s hs => exact hw.perform hs command

/-- Whatever store a session works on and whatever has happened before: when a fetch or a refresh
succeeds and all its conflicts are decided for the session, every item with a pending edit still has
it, or it has taken over a row with the same content, or it is gone together with an item that it
refers to. -/
theorem edits_kept (hw : w.Attained) (hs : w.session? name = some s) {command : Command}
    (hpull : command.isPull = true) {report : FetchReport} {passes : List (List Conflict)}
    {w' : Workspace σ} (hrun : w.perform name s command = (.ok (.report report), passes, w'))
    (hkeep : (command.resolver s).GivesAll .keepLocal [] passes) :
    ∃ s', w'.session? name = some s' ∧ ∀ r a, s.item? r = some a → a.Pending →
      (∃ b, s'.item? r = some b ∧ a.Keeps b) ∨ s.Orphans s' r a := by
  have hhoused := hw.housed hs
  rcases hresult : command.run ⟨s, w.store, []⟩ with ⟨result, c'⟩
  have hperform : w.perform name s command =
      (result, c'.passes, { store := c'.store, sessions := w.sessions.insert name c'.session }) := by
    unfold perform
    rw [hresult]
  rw [hperform] at hrun
  cases hrun
  obtain ⟨kinds, c₁, ⟨passes, hpasses, hkeeps⟩, hsame, hitems⟩ :=
    Command.keeps_run hpull hhoused hresult
  have hpasses : c₁.passes = passes := hpasses
  refine ⟨c'.session, (SortedMap.get?_insert ..).trans (if_pos rfl), fun r a ha hp => ?_⟩
  rw [hsame, hpasses] at hkeep
  unfold Session.Orphans
  simp only [hitems]
  exact (hkeeps hkeep).pending ha hp

/-- Every run of events over a database leads to such a workspace. -/
theorem Attained.after {w : Workspace Database} (hw : w.Attained) (events : List Event) :
    (w.after events).Attained := by
  induction events generalizing w with
  | nil => exact hw
  | cons e events ih =>
    refine ih (w := w.act e) ?_
    cases e with
    | connect name config => exact hw.connect name config
    | ask name command => exact hw.ask name command

/-- A session changes an alternative, adds another one and adds an entity.  Meanwhile someone changes
the first alternative too, adds the same second one and removes the class of the entity. -/
def editedMeanwhile : List Event :=
  [.connect "a" {}, .ask "a" (.fetch .alternative none), .ask "a" (.fetch .entity none),
    .ask "a" (.add .alternative (.ofList [("name", .text "base")])),
    .ask "a" (.add .entityClass (.ofList [("name", .text "unit")])), .ask "a" (.commit "add"),
    .connect "b" {}, .ask "b" (.fetch .alternative none), .ask "b" (.fetch .entityClass none),
    .ask "a" (.update ⟨.alternative, .first⟩ (.ofList [("description", .text "mine")])),
    .ask "a" (.add .alternative (.ofList [("name", .text "low")])),
    .ask "a" (.add .entity (.ofList [("name", .text "plant"), ("class_id", .ref ⟨2⟩)])),
    .ask "b" (.update ⟨.alternative, .first⟩ (.ofList [("description", .text "theirs")])),
    .ask "b" (.add .alternative (.ofList [("name", .text "low")])),
    .ask "b" (.remove ⟨.entityClass, ⟨2⟩⟩), .ask "b" (.commit "change")]

set_option maxRecDepth 4000 in
/-- The first alternative stays pending, the second one takes over the row of its twin, and the entity
is gone with its class. -/
theorem edits_kept_of_editedMeanwhile : ∃ (w w' : Workspace Database) (s : Session)
    (report : FetchReport) (passes : List (List Conflict)), w.Attained ∧
      w.session? "a" = some s ∧ (Command.refresh none).isPull = true ∧
      w.perform "a" s (.refresh none) = (.ok (.report report), passes, w') ∧
      report = { adopted := 1, evicted := 2, conflicts := 1 } ∧
      ((Command.refresh none).resolver s).GivesAll .keepLocal [] passes ∧
      ∃ s', w'.session? "a" = some s' ∧ ∀ r a, s.item? r = some a → a.Pending →
        (∃ b, s'.item? r = some b ∧ a.Keeps b) ∨ s.Orphans s' r a := by
  have hcheck : (((new .empty).after editedMeanwhile).session? "a").any (fun s =>
      let (reply, passes, _) := ((new .empty).after editedMeanwhile).perform "a" s (.refresh none)
      decide (reply = .ok (.report { adopted := 1, evicted := 2, conflicts := 1 })) &&
        decide (((Command.refresh none).resolver s).GivesAll .keepLocal [] passes)) = true := by
    decide +kernel
  obtain ⟨s, hs, hcheck⟩ := (Option.any_eq_true ..).1 hcheck
  rcases hrun : ((new .empty).after editedMeanwhile).perform "a" s (.refresh none) with
    ⟨reply, passes, w'⟩
  rw [hrun] at hcheck
  obtain ⟨hreply, hkeep⟩ := Bool.and_eq_true_iff.1 hcheck
  obtain rfl := of_decide_eq_true hreply
  have hkeep := of_decide_eq_true hkeep
  have hw := (Attained.new Database.empty).after editedMeanwhile
  exact ⟨_, w', s, _, passes, hw, hs, rfl, hrun, rfl, hkeep, edits_kept hw hs rfl hrun hkeep⟩

end Workspace

end StagedEdits
