import StagedEdits.Proofs.Binding
import StagedEdits.Proofs.SingleWriter
import StagedEdits.Proofs.Truth

/-!
# Sessions that look before they edit

An attentive session has the default settings, and has fetched all tables before it edits anything.
When it knows all commits, it mirrors what it has fetched; so it does whenever it writes.  Of the
commits of others it need not know.
-/

namespace StagedEdits

theorem Kind.mem_dependencies_trans {a b c : Kind} (h : a ∈ b.dependencies)
    (h' : b ∈ c.dependencies) : a ∈ c.dependencies := by
  revert h h'
  cases c <;> cases b <;> first
    | (intro _ h'; exact absurd h' (by decide))
    | (cases a <;> decide)

/-- What attentive sessions keep true of a database. -/
structure Database.Intact (db : Database) : Prop extends db.Regular where
  references : db.ReferencesHold
  keys : db.KeysDistinct

namespace Session

variable {s s' : Session} {db db₁ db' : Database} {kind : Kind}

/-! ### Nothing pending -/

theorem Fetches.clean {rows : List Record} (h : s.Fetches kind rows s') (hc : s.Clean) :
    s'.Clean := by
  rintro ⟨k, id⟩ item hi
  by_cases hk : k = kind
  · subst hk
    cases h.origin hi with
    | kept hitem => exact hc hitem
    | loaded => rfl
    | changed _ hst => exact hst
    | twin hitem hst =>
      rw [hc hitem] at hst
      cases hst
    | settled hitem hd =>
      unfold Item.divergence? at hd
      rw [hc hitem] at hd
      cases hd
  · exact hc (h.item? (r := ⟨k, id⟩) hk hi)

theorem Pulls.clean {kinds : List Kind} (hp : Pulls db kinds s s') (hc : s.Clean) : s'.Clean := by
  induction hp with
  | nil => exact hc
  | cons hf _ ih => exact ih (hf.clean hc)

/-- A clean session has nothing to write. -/
theorem pending_eq_nil (hc : s.Clean) : s.pending = [] := by
  have hget : ∀ {kind id item}, (s.table kind).get? id = some item → item.status = .committed :=
    fun {kind id _} hi => hc (r := ⟨kind, id⟩) (by rw [item?_eq]; exact hi)
  rw [pending_eq, List.filter_eq_nil_iff]
  intro p hp hne
  obtain ⟨kind, -, rfl⟩ := List.mem_map.1 hp
  have hadd : (s.table kind).pending.toAdd = [] := List.eq_nil_iff_forall_not_mem.2 fun id hid => by
    obtain ⟨item, hi, hst⟩ := Table.mem_pending_toAdd.1 hid
    rw [hget hi] at hst
    cases hst
  have hupdate : (s.table kind).pending.toUpdate = [] :=
    List.eq_nil_iff_forall_not_mem.2 fun id hid => by
      obtain ⟨item, hi, hst⟩ := Table.mem_pending_toUpdate.1 hid
      rw [hget hi] at hst
      cases hst
  have hremove : (s.table kind).pending.toRemove = [] :=
    List.eq_nil_iff_forall_not_mem.2 fun id hid => by
      obtain ⟨item, hi, hst, -⟩ := Table.mem_pending_toRemove.1 hid
      rw [hget hi] at hst
      cases hst
  rw [Pending.isEmpty_iff.2 ⟨hadd, hupdate, hremove⟩] at hne
  cases hne

/-! ### Mirrored tables -/

theorem Mirrors.congr (h : s.Mirrors db kind) (hitem : ∀ r, s'.item? r = s.item? r)
    (hs : s.WellFormed) (hs' : s'.WellFormed) : s'.Mirrors db kind :=
  h.of_sameRows (fun r d row => by rw [hitem]) hs hs'

/-- Tables fetched in order, each after those it refers to, are all mirrored in the end, and so is
what was mirrored before and does not depend on them. -/
theorem Pulls.mirrors {kinds : List Kind} (hp : Pulls db kinds s s') {H : Kind → Prop}
    (hsorted : kinds.Pairwise fun a b => a.rank < b.rank) (hs : s.WellFormed) (hf : s.Faithful)
    (hdb : db.Intact) (hheld : ∀ t, H t → s.Mirrors db t)
    (hstable : ∀ t, H t → ∀ k ∈ kinds, t ≠ k ∧ k ∉ t.dependencies)
    (hrefs : ∀ k ∈ kinds, ∀ t ∈ k.referenced, H t ∨ t ∈ kinds) {k : Kind}
    (hk : H k ∨ k ∈ kinds) : s'.Mirrors db k := by
  induction hp generalizing H with
  | nil => exact hheld k (hk.resolve_right List.not_mem_nil)
  | @cons kind kinds s s₁ _ hfetch _ ih =>
    obtain ⟨hfirst, hrest⟩ := List.pairwise_cons.1 hsorted
    have hlt : ∀ t ∈ kind.referenced, t.rank < kind.rank := fun t ht =>
      Kind.rank_lt_of_mem_dependencies (Kind.mem_dependencies_of_referenced ht (.inl rfl))
    have hmirrors : s₁.Mirrors db kind := by
      refine hfetch.mirrors hs hf hdb.toSound hdb.references fun t ht => hheld t ?_
      refine (hrefs kind (List.mem_cons_self ..) t ht).resolve_right fun hmem => ?_
      rcases List.mem_cons.1 hmem with rfl | hmem
      · exact Nat.lt_irrefl _ (hlt t ht)
      · exact Nat.lt_asymm (hlt t ht) (hfirst t hmem)
    refine ih (H := fun t => H t ∨ t = kind) hrest hfetch.wellFormed
      (hfetch.faithful hs hf hdb.toSound hdb.shaped) ?_ ?_ ?_ ?_
    · rintro t (ht | rfl)
      · obtain ⟨hne, hdep⟩ := hstable t ht kind (List.mem_cons_self ..)
        exact hfetch.mirrors_other hne hdep (hheld t ht)
      · exact hmirrors
    · rintro t (ht | rfl) k hk
      · exact hstable t ht k (List.mem_cons_of_mem _ hk)
      · refine ⟨?_, fun hdep => ?_⟩
        · rintro rfl
          exact Nat.lt_irrefl _ (hfirst t hk)
        · exact Nat.lt_asymm (hfirst k hk) (Kind.rank_lt_of_mem_dependencies hdep)
    · intro k hk t ht
      rcases hrefs k (List.mem_cons_of_mem _ hk) t ht with hheld | hmem
      · exact .inl (.inl hheld)
      · rcases List.mem_cons.1 hmem with rfl | hmem
        · exact .inl (.inr rfl)
        · exact .inr hmem
    · rcases hk with hk | hk
      · exact .inl (.inl hk)
      · rcases List.mem_cons.1 hk with rfl | hk
        · exact .inl (.inr rfl)
        · exact .inr hk

/-! ### Fetching with dependencies -/

theorem mem_fetchOrder_iff (hconfig : s.config.fetchReferenced = true) {k : Kind} :
    k ∈ s.fetchOrder kind ↔ (k ∈ kind.dependencies ∧ k ∉ s.fetched) ∨ k = kind := by
  unfold fetchOrder
  rw [hconfig, if_pos rfl, List.mem_append, List.mem_filter, List.mem_singleton, decide_eq_true_iff]

/-- The tables that a fetch takes in come with their dependencies, unless these were fetched before. -/
theorem dependencies_of_mem_fetchOrder (hconfig : s.config.fetchReferenced = true) {k : Kind}
    (hk : k ∈ s.fetchOrder kind) : ∀ t ∈ k.dependencies, t ∈ s.fetchOrder kind ∨ t ∈ s.fetched := by
  intro t ht
  have hdep : t ∈ kind.dependencies := by
    rcases (mem_fetchOrder_iff hconfig).1 hk with ⟨hk, -⟩ | rfl
    · exact Kind.mem_dependencies_trans ht hk
    · exact ht
  by_cases hmem : t ∈ s.fetched
  · exact .inr hmem
  · exact .inl ((mem_fetchOrder_iff hconfig).2 (.inl ⟨hdep, hmem⟩))

theorem Pulls.closed (hp : Pulls db (s.fetchOrder kind) s s')
    (hconfig : s.config.fetchReferenced = true)
    (hclosed : ∀ ⦃k⦄, k ∈ s.fetched → ∀ t ∈ k.dependencies, t ∈ s.fetched) :
    ∀ ⦃k⦄, k ∈ s'.fetched → ∀ t ∈ k.dependencies, t ∈ s'.fetched := by
  intro k hk t ht
  rw [hp.mem_fetched_iff] at hk ⊢
  rcases hk with hk | hk
  · exact dependencies_of_mem_fetchOrder hconfig hk t ht
  · exact .inr (hclosed hk t ht)

/-- A session that mirrors what it has fetched does so after fetching another table. -/
theorem Pulls.mirrors_fetched (hp : Pulls db (s.fetchOrder kind) s s') (hs : s.WellFormed)
    (hf : s.Faithful) (hdb : db.Intact) (hconfig : s.config.fetchReferenced = true)
    (hclosed : ∀ ⦃k⦄, k ∈ s.fetched → ∀ t ∈ k.dependencies, t ∈ s.fetched)
    (hm : ∀ k ∈ s.fetched, s.Mirrors db k) (hkind : kind ∉ s.fetched) :
    ∀ k ∈ s'.fetched, s'.Mirrors db k := by
  intro k hk
  have hnot : ∀ {k}, k ∈ s.fetchOrder kind → k ∉ s.fetched := by
    intro k hk
    rcases (mem_fetchOrder_iff hconfig).1 hk with ⟨-, hk⟩ | rfl
    · exact hk
    · exact hkind
  refine hp.mirrors (H := (· ∈ s.fetched)) (pairwise_rank_fetchOrder s kind) hs hf hdb hm ?_ ?_
    (hp.mem_fetched_iff.1 hk).symm
  · intro t ht k hk
    exact ⟨fun he => hnot hk (he ▸ ht), fun hdep => hnot hk (hclosed ht k hdep)⟩
  · intro k hk t ht
    exact (dependencies_of_mem_fetchOrder hconfig hk t
      (Kind.mem_dependencies_of_referenced ht (.inl rfl))).symm

/-! ### Attentive sessions -/

/-- A session with the default settings that has looked at all tables before it edits. -/
structure Attentive (s : Session) (db : Database) : Prop extends s.Regular db where
  candid : s.Candid
  config : s.config = {}
  closed : ∀ ⦃k⦄, k ∈ s.fetched → ∀ t ∈ k.dependencies, t ∈ s.fetched
  ready : (∀ k, k ∈ s.fetched) ∨ s.Clean
  mirrors : s.knownCommits = db.commits.length → ∀ k ∈ s.fetched, s.Mirrors db k

theorem attentive_new (db : Database) : (new {} db.commits.length).Attentive db where
  toRegular := ⟨informed_new {} db, fun _ _ h => nomatch h⟩
  candid := candid_new {} _
  config := rfl
  closed := fun _ hk => absurd hk List.not_mem_nil
  ready := .inr fun _ _ h => nomatch h
  mirrors := fun _ _ hk => absurd hk List.not_mem_nil

/-- What others commit is for a session to be found out later. -/
theorem Attentive.advances (h : s.Attentive db) (ha : db.Advances db') : s.Attentive db' where
  toRegular := h.toRegular.advances ha
  candid := h.candid
  config := h.config
  closed := h.closed
  ready := h.ready
  mirrors := by
    intro heq k hk
    have hle := h.known_le
    have hcommits := ha.commits_le
    refine (h.mirrors (by omega) k hk).of_rows fun d => ?_
    exact (ha.row? k d).resolve_right fun hnew => by omega

/-- What an edit of items has to keep. -/
theorem Attentive.of_edit (h : s.Attentive db) (hreg : s'.Regular db) (hcandid : s'.Candid)
    (hframe : SameFrame s s') (hsame : s.SameRows s')
    (hready : (∀ k, k ∈ s.fetched) ∨ s'.Clean) : s'.Attentive db where
  toRegular := hreg
  candid := hcandid
  config := hframe.config.trans h.config
  closed := by
    rw [hframe.fetched]
    exact h.closed
  ready := hready.imp_left fun hall => hframe.fetched ▸ hall
  mirrors := by
    rw [hframe.knownCommits, hframe.fetched]
    exact fun heq k hk => (h.mirrors heq k hk).of_sameRows hsame h.toWellFormed hreg.toWellFormed

/-- Fetching tables for the first time; a session that knows all commits looks at a table again
without any effect. -/
theorem Attentive.fetches (h : s.Attentive db) (hdb : db.Intact) (hreg : s'.Regular db)
    (hp : Pulls db (s.fetchOrder kind) s s')
    (hquiet : kind ∈ s.fetched → s.knownCommits = db.commits.length →
      ∀ r, s'.item? r = s.item? r) : s'.Attentive db := by
  have hconfig : s.config.fetchReferenced = true := by rw [h.config]
  constructor
  case toRegular => exact hreg
  case candid => exact hp.candid h.toWellFormed h.candid hdb.toSound hdb.shaped
  case config => exact hp.config.trans h.config
  case closed => exact hp.closed hconfig h.closed
  case ready => exact h.ready.imp (fun hall k => hp.mem_fetched_iff.2 (.inr (hall k))) hp.clean
  case mirrors =>
    intro heq k hk
    rw [hp.knownCommits] at heq
    by_cases hkind : kind ∈ s.fetched
    · refine (h.mirrors heq k ?_).congr (hquiet hkind heq) h.toWellFormed hreg.toWellFormed
      rcases hp.mem_fetched_iff.1 hk with hk | hk
      · rcases (mem_fetchOrder_iff hconfig).1 hk with ⟨hk, -⟩ | rfl
        · exact h.closed hkind k hk
        · exact hkind
      · exact hk
    · exact hp.mirrors_fetched h.toWellFormed h.candid.faithful hdb hconfig h.closed (h.mirrors heq)
        hkind k hk

/-- After a refresh a session mirrors all that it has fetched. -/
theorem Attentive.refreshed (h : s.Attentive db) (hdb : db.Intact)
    (hp : Pulls db s.refreshOrder s s') (hreg : (s'.upToDate db).Regular db) :
    (s'.upToDate db).Attentive db := by
  have hfetched : ∀ {k}, k ∈ (s'.upToDate db).fetched ↔ k ∈ s.fetched := fun {k} => by
    have hk : k ∈ (s'.upToDate db).fetched ↔ k ∈ s'.fetched := Iff.rfl
    rw [hk, hp.mem_fetched_iff, mem_refreshOrder_iff, or_self]
  constructor
  case toRegular => exact hreg
  case candid => exact (hp.candid h.toWellFormed h.candid hdb.toSound hdb.shaped).upToDate
  case config => exact hp.config.trans h.config
  case closed => exact fun k hk t ht => hfetched.2 (h.closed (hfetched.1 hk) t ht)
  case ready => exact h.ready.imp (fun hall k => hfetched.2 (hall k)) hp.clean
  case mirrors =>
    intro _ k hk
    have hm : s'.Mirrors db k := by
      refine hp.mirrors (H := fun _ => False) (pairwise_rank_refreshOrder s) h.toWellFormed
        h.candid.faithful hdb (fun _ ht => ht.elim) (fun _ ht => ht.elim) ?_
        (.inr (mem_refreshOrder_iff.2 (hfetched.1 hk)))
      intro k hk t ht
      rw [mem_refreshOrder_iff] at hk ⊢
      exact .inr (h.closed hk t (Kind.mem_dependencies_of_referenced ht (.inl rfl)))
    exact hm.congr (fun _ => rfl) (hp.wellFormed h.toWellFormed) hreg.toWellFormed

theorem Attentive.atCommit (h : s.Attentive db) (hdb : db.Intact) :
    (s.atCommit db).Attentive db := by
  have hreg := h.toRegular.atCommit hdb.toRegular
  rcases atCommit_cases h.toWellFormed hdb.toSound with ⟨heq, -⟩ | ⟨-, s₁, heq, hp⟩
  · rw [heq]; exact h
  · rw [heq] at hreg ⊢
    exact h.refreshed hdb hp hreg

theorem Attentive.known_atCommit (h : s.Attentive db) (hdb : db.Intact) :
    (s.atCommit db).knownCommits = db.commits.length :=
  h.toInformed.known_atCommit hdb.toSound (by rw [h.config])

/-- A session with something to write is aligned with the database when it writes. -/
theorem Attentive.aligned (h : s.Attentive db) (hknown : s.knownCommits = db.commits.length)
    (hpending : s.pending ≠ []) : s.Aligned db where
  toWellFormed := h.toWellFormed
  bounded := h.bounded
  faithful := h.candid.faithful
  mirrors := fun k => h.mirrors hknown k
    (h.ready.resolve_right (fun hc => hpending (pending_eq_nil hc)) k)

/-- A commit in which live items refer to live items only leaves the database intact, and the session
attentive. -/
theorem Attentive.commits {reserved : List (ItemId × DbId)} {id : CommitId} (h : s.Attentive db)
    (hdb : db.Intact) (hknown : s.knownCommits = db.commits.length) (hlive : s.ReferencesLive)
    (hres : s.Reserves db reserved db₁) (hc : s.Commits db reserved id s' db')
    (hreg : s'.Regular db') (hregdb : db'.Regular) : s'.Attentive db' ∧ db'.Intact := by
  have haligned := h.aligned hknown hc.pending_ne
  have ha := hc.aligned haligned hlive hres
  have hclean := hc.clean h.toWellFormed hres
  refine ⟨⟨hreg, candid_of_clean ha.faithful hclean, hc.config.trans h.config, ?_, .inr hclean,
    fun _ k _ => ha.mirrors k⟩, hregdb, ha.referencesHold,
    hc.keysDistinct haligned hlive hres hdb.keys⟩
  rw [hc.fetched]
  exact h.closed

end Session

end StagedEdits
