import Mathlib.Tactic.ByContra
import StagedEdits.Proofs.Foreign

/-!
# Noticing the commits of others

A session keeps a single number of commits that it knows of.  It counts its own commit only if that
is the very next one, and a refresh raises the number to what there was when the refresh began.
`Watch` keeps instead what matters: where the last refresh began, and which commits the session has
made since it was opened.  The two always agree on whether others have committed since
(`Watch.Explains.lt_iff`), however the sessions and the other users of the database take turns.
-/

namespace StagedEdits

/-! ### What a command learns of the commits -/

namespace Command

/-- The number of commits when a refresh begins; there is none if the refresh fails. -/
def startOf (resolver : Resolver) (c : Connection Contended) : Option Nat :=
  match (Connection.refresh resolver c).1 with
  | .ok _ => some c.store.count
  | .error _ => none

/-- The number of commits when the refresh begins that a command carries out with success, be it all
that the command does, or what it does before it commits. -/
def refreshStart? (command : Command) (c : Connection Contended) : Option Nat :=
  match command with
  | refresh _ => startOf (command.resolver c.session) c
  | commit comment =>
    if Text.isBlank comment then none
    else (Connection.refreshPoint? c).bind (startOf c.session.config.policy.resolver)
  | _ => none

end Command

/-- A session that was refreshed from a number of commits on, if at all, with success. -/
structure Refreshed (c : Connection Contended) (start? : Option Nat) (c' : Connection Contended) :
    Prop where
  housed : c'.session.Housed
  start_le : c.store.count ≤ start?.getD c.store.count
  le_count : start?.getD c.store.count ≤ c'.store.count
  knownCommits : c'.session.knownCommits =
    start?.elim c.session.knownCommits (max c.session.knownCommits)

/-- What a session learns of the commits through a command, by the reply to it. -/
inductive Learns (c : Connection Contended) (start? : Option Nat) :
    Except Error Reply → Connection Contended → Prop
  | refreshed {reply : Except Error Reply} {c' : Connection Contended} (h : Refreshed c start? c')
      (hreply : ∀ id, reply ≠ .ok (.commit id)) : Learns c start? reply c'
  /-- The session counts its commit only if it is the next one. -/
  | committed {n : Nat} {mid c' : Connection Contended} (h : Refreshed c start? mid)
      (hle : mid.store.count ≤ n) (hlt : n < c'.store.count) (housed : c'.session.Housed)
      (hknown : c'.session.knownCommits =
        if n = mid.session.knownCommits then n + 1 else mid.session.knownCommits) :
      Learns c start? (.ok (.commit ⟨n + 1⟩)) c'

theorem Refreshed.count_le {c c' : Connection Contended} {start? : Option Nat}
    (h : Refreshed c start? c') : c.store.count ≤ c'.store.count :=
  Nat.le_trans h.start_le h.le_count

/-- Afterwards there are no fewer commits, and items are still where they belong. -/
theorem Learns.keeps {c c' : Connection Contended} {start? : Option Nat}
    {reply : Except Error Reply} (h : Learns c start? reply c') :
    c'.session.Housed ∧ c.store.count ≤ c'.store.count := by
  cases h with
  | refreshed h _ => exact ⟨h.housed, h.count_le⟩
  | committed h hle hlt housed _ =>
    exact ⟨housed, Nat.le_trans h.count_le (Nat.le_trans hle (Nat.le_of_lt hlt))⟩

namespace Command

open ConnectionM

variable {c c' : Connection Contended}

/-- Only commits reply with a commit. -/
theorem reply_ne_commit {command : Command} (h : command.isCommit = false) (id : CommitId) :
    (command.run c).1 ≠ .ok (.commit id) := by
  intro heq
  have hrun : command.run c = (.ok (.commit id), (command.run c).2) := Prod.ext heq rfl
  have hreply := replies_of_run hrun
  cases command with
  | commit comment => cases h
  | _ => exact hreply

theorem refreshed_of_follows (h : c.Follows (·.count ≤ ·.count) c') : Refreshed c none c' :=
  ⟨h.session.housed, Nat.le_refl _, h.store, h.session.knownCommits⟩

/-- A refresh that begins after some calls of the same command. -/
theorem refreshed_refresh (h : c.Follows (·.count ≤ ·.count) c') (resolver : Resolver) :
    Refreshed c (startOf resolver c') (Connection.refresh resolver c').2 := by
  have hR := Contended.respects_count
  unfold startOf
  rcases Connection.refresh_cases hR resolver h.session.housed with
    ⟨e, he, hf⟩ | ⟨report, count, mid, hcount, hf, hrun⟩
  · rw [he]
    exact refreshed_of_follows ⟨h.session.trans hf.session, hR.trans h.store hf.store⟩
  · have hcount : c'.store.count = count := Except.ok.inj hcount
    rw [hrun]
    refine ⟨hf.session.housed.of_subset (Nat.le_refl _) fun _ b hb => ⟨b, hb, rfl⟩, h.store,
      hf.store, ?_⟩
    show max mid.session.knownCommits count = max c.session.knownCommits c'.store.count
    rw [hf.session.knownCommits, h.session.knownCommits, hcount]

theorem refreshed_refreshIfStale (hc : c.session.Housed) :
    Refreshed c ((Connection.refreshPoint? c).bind (startOf c.session.config.policy.resolver))
      (Connection.refreshIfStale c).2 := by
  rcases Connection.refreshIfStale_cases Contended.respects_count hc with
    ⟨hnone, h⟩ | ⟨c', hsome, h, hrun⟩
  · rw [hnone]
    exact refreshed_of_follows h
  · rw [hsome, hrun]
    exact refreshed_refresh h c.session.config.policy.resolver

theorem learns_refresh (hc : c.session.Housed) (resolver : Option Resolver) :
    Learns c ((refresh resolver).refreshStart? c) ((refresh resolver).run c).1
      ((refresh resolver).run c).2 := by
  refine .refreshed ?_ (reply_ne_commit rfl)
  rw [run_refresh]
  exact refreshed_refresh ⟨.refl hc, Nat.le_refl _⟩ ((refresh resolver).resolver c.session)

theorem learns_commit (hc : c.session.Housed) (comment : String) :
    Learns c ((commit comment).refreshStart? c) ((commit comment).run c).1
      ((commit comment).run c).2 := by
  have hstale := refreshed_refreshIfStale hc
  have hnot : ∀ e id, (.error e : Except Error Reply) ≠ .ok (.commit id) := fun _ _ => nofun
  rw [run_commit]
  unfold refreshStart?
  dsimp only
  rcases hrun : Connection.refreshIfStale c with ⟨e | _, c₁⟩ <;> rw [hrun] at hstale
  · rw [Connection.commit_eq_of_error hrun]
    split
    · exact .refreshed (refreshed_of_follows ⟨.refl hc, Nat.le_refl _⟩) (hnot _)
    · exact .refreshed hstale (hnot _)
  · rw [Connection.commit_eq hrun]
    split
    · exact .refreshed (refreshed_of_follows ⟨.refl hc, Nat.le_refl _⟩) (hnot _)
    · rcases Connection.writePending_ends Contended.respects_count comment hstale.housed with
        ⟨e, he, hf⟩ | ⟨id, info, batch, pending, reserved, mid, hf, happly, hok, hsession, hstore⟩
      · rw [he]
        refine .refreshed ⟨hf.session.housed, hstale.start_le,
          Nat.le_trans hstale.le_count hf.store, ?_⟩ (hnot _)
        rw [hf.session.knownCommits, hstale.knownCommits]
      · obtain ⟨rfl, hlt⟩ := Contended.apply_eq_ok happly
        rw [hok]
        refine .committed hstale hf.store (hstore ▸ hlt) ?_ ?_
        · rw [hsession]
          exact hstale.housed.committed pending reserved _
        · rw [hsession]
          unfold Session.committed
          dsimp only
          split
          next heq => rw [if_pos (by omega)]; omega
          next hne => rw [if_neg (by omega)]

/-- What a session learns of the commits through a command. -/
theorem learns_run (hc : c.session.Housed) (command : Command) :
    Learns c (command.refreshStart? c) (command.run c).1 (command.run c).2 := by
  have hother : command.isCommit = false → (∀ resolver, command ≠ .refresh resolver) →
      command.refreshStart? c = none →
      Learns c (command.refreshStart? c) (command.run c).1 (command.run c).2 := by
    intro hcommit hrefresh hstart
    rw [hstart]
    exact .refreshed (refreshed_of_follows
      (proceeds_run Contended.respects_count command hcommit hrefresh c hc)) (reply_ne_commit hcommit)
  cases command with
  | refresh resolver => exact learns_refresh hc resolver
  | commit comment => exact learns_commit hc comment
  | _ => exact hother rfl (fun _ => nofun) rfl

end Command

/-! ### Watching a session -/

/-- What decides whether others have committed behind the back of a session. -/
structure Watch where
  /-- The number of commits when the session was opened or, if it was refreshed with success since,
  when the last such refresh began. -/
  since : Nat
  /-- The commits that the session has made since it was opened. -/
  own : List CommitId

namespace Watch

/-- Notes what a command of the session did. -/
def noting (h : Watch) (start? : Option Nat) (reply : Except Error Reply) : Watch where
  since := start?.getD h.since
  own := match reply with
    | .ok (.commit id) => h.own ++ [id]
    | _ => h.own

/-- Whether there is a commit that the session has not made, after the point that counts. -/
def Foreign (h : Watch) (count : Nat) : Prop :=
  ∃ i : Nat, h.since < i ∧ i ≤ count ∧ (⟨i⟩ : CommitId) ∉ h.own

/-- The commits up to the number that a session knows of are its own from the point that counts, and
the next one is not. -/
structure Explains (h : Watch) (known count : Nat) : Prop where
  since_le : h.since ≤ known
  known_le : known ≤ count
  mem_own : ∀ i : Nat, h.since < i → i ≤ known → (⟨i⟩ : CommitId) ∈ h.own
  next_not_mem : (⟨known + 1⟩ : CommitId) ∉ h.own
  own_le : ∀ id ∈ h.own, id.val ≤ count

variable {h : Watch} {known count count' : Nat}

/-- The session knows of fewer commits than there are just if one of them is foreign. -/
theorem Explains.lt_iff (he : h.Explains known count) : known < count ↔ h.Foreign count := by
  constructor
  · intro hlt
    exact ⟨known + 1, Nat.lt_succ_of_le he.since_le, hlt, he.next_not_mem⟩
  · rintro ⟨i, hsince, hle, hnot⟩
    by_contra hge
    exact hnot (he.mem_own i hsince (Nat.le_trans hle (Nat.le_of_not_lt hge)))

theorem Explains.mono (he : h.Explains known count) (hle : count ≤ count') :
    h.Explains known count' :=
  { he with
    known_le := Nat.le_trans he.known_le hle
    own_le := fun id hid => Int.le_trans (he.own_le id hid) (Int.ofNat_le.2 hle) }

/-- When a session has just learned of all commits, none of them is foreign. -/
theorem explains_of_all {own : List CommitId} (hown : ∀ id ∈ own, id.val ≤ count) :
    Explains ⟨count, own⟩ count count where
  since_le := Nat.le_refl _
  known_le := Nat.le_refl _
  mem_own i hlt hle := absurd hle (Nat.not_le_of_lt hlt)
  next_not_mem hmem := by
    have hle := hown _ hmem
    dsimp only at hle
    omega
  own_le := hown

/-- A refresh moves the point that counts. -/
theorem Explains.refreshed (he : h.Explains known count) {start? : Option Nat}
    (hstart : count ≤ start?.getD count) (hle : start?.getD count ≤ count') :
    Explains ⟨start?.getD h.since, h.own⟩ (start?.elim known (max known)) count' := by
  cases start? with
  | none => exact he.mono hle
  | some n =>
    have hmax : max known n = n := Nat.max_eq_right (Nat.le_trans he.known_le hstart)
    show Explains ⟨n, h.own⟩ (max known n) count'
    rw [hmax]
    have hall : Explains ⟨n, h.own⟩ n n := explains_of_all fun id hid =>
      Int.le_trans (he.own_le id hid) (Int.ofNat_le.2 hstart)
    exact hall.mono hle

/-- The session counts a commit of its own if it is the next one; otherwise a foreign one came before
it. -/
theorem Explains.committed (he : h.Explains known count) {n : Nat} (hle : count ≤ n)
    (hlt : n < count') :
    Explains ⟨h.since, h.own ++ [⟨n + 1⟩]⟩ (if n = known then n + 1 else known) count' := by
  have hknown := he.known_le
  have hsince := he.since_le
  have hown : ∀ id ∈ h.own ++ [(⟨n + 1⟩ : CommitId)], id.val ≤ (n + 1 : Nat) := by
    intro id hid
    rcases List.mem_append.1 hid with hid | hid
    · have hold := he.own_le id hid
      omega
    · rw [List.mem_singleton.1 hid]
      exact Int.le_refl _
  have hcount : ∀ id ∈ h.own ++ [(⟨n + 1⟩ : CommitId)], id.val ≤ (count' : Nat) := by
    intro id hid
    have hold := hown id hid
    omega
  split
  next heq =>
    subst heq
    refine ⟨Nat.le_succ_of_le hsince, hlt, fun i hi hle' => ?_, fun hmem => ?_, hcount⟩
    · rcases Nat.lt_or_eq_of_le hle' with hi' | rfl
      · exact List.mem_append_left _ (he.mem_own i hi (Nat.le_of_lt_succ hi'))
      · exact List.mem_append_right _ (List.mem_singleton.2 rfl)
    · have hold := hown _ hmem
      dsimp only at hold
      omega
  next hne =>
    refine ⟨hsince, by omega, fun i hi hle' => List.mem_append_left _ (he.mem_own i hi hle'),
      fun hmem => ?_, hcount⟩
    rcases List.mem_append.1 hmem with hmem | hmem
    · exact he.next_not_mem hmem
    · have hval := congrArg CommitId.val (List.mem_singleton.1 hmem)
      dsimp only at hval
      omega

/-- What a command of the session does to the commits is noted. -/
theorem Explains.learns {c c' : Connection Contended} {start? : Option Nat}
    {reply : Except Error Reply} (hl : Learns c start? reply c')
    (he : h.Explains c.session.knownCommits c.store.count) :
    (h.noting start? reply).Explains c'.session.knownCommits c'.store.count := by
  cases hl with
  | refreshed hr hreply =>
    have hown : h.noting start? reply = ⟨start?.getD h.since, h.own⟩ := by
      unfold noting
      split
      next id => exact absurd rfl (hreply id)
      next => rfl
    rw [hown, hr.knownCommits]
    exact he.refreshed hr.start_le hr.le_count
  | committed hr hle hlt housed hknown =>
    have hmid := he.refreshed hr.start_le hr.le_count
    rw [← hr.knownCommits] at hmid
    rw [hknown]
    exact hmid.committed hle hlt

end Watch

/-! ### Sessions and others taking turns -/

/-- What can happen to a database that several sessions and others use. -/
inductive Happening where
  /-- A session is opened. -/
  | connect (name : String) (config : Config)
  /-- A command is given to a session, and others call the database between the calls that the
  command makes; nothing happens if the session is not open. -/
  | ask (name : String) (command : Command) (meanwhile : List (List ForeignCall))
  /-- Others call the database between two commands. -/
  | call (x : ForeignCall)

namespace Workspace

/-- The workspace as a command finds it that others are going to interrupt. -/
def amid (w : Workspace Database) (meanwhile : List (List ForeignCall)) : Workspace Contended :=
  ⟨⟨w.store, meanwhile⟩, w.sessions⟩

/-- The workspace after an interrupted command. -/
def undisturbed (w : Workspace Contended) : Workspace Database := ⟨w.store.db, w.sessions⟩

/-- What a happening does. -/
def happen (w : Workspace Database) : Happening → Workspace Database
  | .connect name config => (w.connect name config).2
  | .ask name command meanwhile =>
    match w.session? name with
    | none => w
    | some s => ((w.amid meanwhile).perform name s command).2.2.undisturbed
  | .call x => { w with store := w.store.afterCall x }

/-- What becomes of the watch on a session when something happens. -/
def watchAfter (w : Workspace Database) (name : String) (h : Watch) : Happening → Watch
  | .connect n _ => if n = name then ⟨w.store.commits.length, []⟩ else h
  | .ask n command meanwhile =>
    match w.session? n with
    | none => h
    | some s =>
      if n = name then
        h.noting (command.refreshStart? ⟨s, ⟨w.store, meanwhile⟩, []⟩)
          ((w.amid meanwhile).perform n s command).1
      else h
  | .call _ => h

/-- An empty database and what happened to it since, with a watch on the session `name`. -/
def watched (name : String) (happenings : List Happening) : Workspace Database × Watch :=
  happenings.foldl (fun (w, h) x => (w.happen x, w.watchAfter name h x)) (new .empty, ⟨0, []⟩)

/-- The items of all sessions are where they belong, and the watch explains what `name` knows. -/
structure Observed (name : String) (w : Workspace Database) (h : Watch) : Prop where
  housed : ∀ n s, w.session? n = some s → s.Housed
  explains : ∀ s, w.session? name = some s → h.Explains s.knownCommits w.store.commits.length

variable {w : Workspace Database} {name : String} {h : Watch}

/-- One happening. -/
theorem Observed.step (ho : Observed name w h) (x : Happening) :
    Observed name (w.happen x) (w.watchAfter name h x) := by
  cases x with
  | call x =>
    refine ⟨ho.housed, fun s hs => (ho.explains s hs).mono ?_⟩
    exact w.store.commits_length_le_afterCalls [x]
  | connect n config =>
    have hsession : ∀ n' s, ((w.connect n config).2).session? n' = some s →
        (n' = n ∧ s = .new config w.store.commits.length) ∨ (n' ≠ n ∧ w.session? n' = some s) := by
      intro n' s hs
      have hinsert : ((w.connect n config).2).session? n' =
          if n' = n then some (.new config w.store.commits.length) else w.session? n' :=
        SortedMap.get?_insert ..
      rw [hinsert] at hs
      split at hs
      next heq => exact .inl ⟨heq, (Option.some.inj hs).symm⟩
      next hne => exact .inr ⟨hne, hs⟩
    refine ⟨fun n' s hs => ?_, fun s hs => ?_⟩
    · rcases hsession n' s hs with ⟨-, rfl⟩ | ⟨-, hold⟩
      · exact Session.housed_new config _
      · exact ho.housed n' s hold
    · unfold watchAfter
      dsimp only
      rcases hsession name s hs with ⟨heq, rfl⟩ | ⟨hne, hold⟩
      · rw [if_pos heq.symm]
        exact Watch.explains_of_all fun _ hmem => absurd hmem List.not_mem_nil
      · rw [if_neg (Ne.symm hne)]
        exact ho.explains s hold
  | ask n command meanwhile =>
    unfold happen watchAfter
    dsimp only
    cases hs : w.session? n with
    | none => exact ho
    | some s =>
      have hlearns := Command.learns_run (c := ⟨s, ⟨w.store, meanwhile⟩, []⟩) (ho.housed n s hs)
        command
      obtain ⟨hhoused, hcount⟩ := hlearns.keeps
      have hsession := (w.amid meanwhile).session?_perform n s command
      refine ⟨fun n' s' hs' => ?_, fun s' hs' => ?_⟩
      · have hs' : ((w.amid meanwhile).perform n s command).2.2.session? n' = some s' := hs'
        rw [hsession] at hs'
        split at hs'
        next => exact Option.some.inj hs' ▸ hhoused
        next => exact ho.housed n' s' hs'
      · have hs' : ((w.amid meanwhile).perform n s command).2.2.session? name = some s' := hs'
        rw [hsession] at hs'
        by_cases heq : n = name
        · subst heq
          rw [if_pos rfl] at hs'
          dsimp only
          rw [if_pos rfl, ← Option.some.inj hs']
          exact (ho.explains s hs).learns hlearns
        · rw [if_neg (Ne.symm heq)] at hs'
          dsimp only
          rw [if_neg heq]
          exact (ho.explains s' hs').mono hcount

theorem observed_watched (name : String) (happenings : List Happening) :
    Observed name (watched name happenings).1 (watched name happenings).2 := by
  have hfold : ∀ (happenings : List Happening) (x : Workspace Database × Watch),
      Observed name x.1 x.2 →
        Observed name
          (happenings.foldl (fun (w, h) x => (w.happen x, w.watchAfter name h x)) x).1
          (happenings.foldl (fun (w, h) x => (w.happen x, w.watchAfter name h x)) x).2 := by
    intro happenings
    induction happenings with
    | nil => exact fun _ hx => hx
    | cons x happenings ih => exact fun _ ho => ih _ (ho.step x)
  exact hfold happenings _ ⟨fun _ _ hs => (nomatch hs), fun _ hs => (nomatch hs)⟩

/-- A session says that others have committed exactly if there is a commit of someone else since it
was opened and, if it was refreshed with success since, since the last such refresh began.  This holds
however sessions, their commands and the calls of others have followed each other or overlapped. -/
theorem externalCommits_iff (happenings : List Happening) {s : Session}
    (hs : (watched name happenings).1.session? name = some s)
    (meanwhile : List (List ForeignCall)) :
    ∃ b, (((watched name happenings).1.amid meanwhile).perform name s .hasExternalCommits).1 =
        .ok (.flag b) ∧
      (b = true ↔
        (watched name happenings).2.Foreign (watched name happenings).1.store.commits.length) := by
  refine ⟨_, rfl, ?_⟩
  rw [decide_eq_true_iff]
  exact ((observed_watched name happenings).explains s hs).lt_iff

/-- A session adds an alternative and commits it, without a refresh.  Between the reservation of the
row and the write someone else commits. -/
def interruptedCommit : List Happening :=
  [.connect "a" { refreshBeforeCommit := false },
    .ask "a" (.add .alternative (.ofList [("name", .text "base")])) [],
    .ask "a" (.commit "add") [[.write ⟨"meanwhile", "b"⟩ []]]]

/-- The first of the two commits is foreign. -/
theorem externalCommits_of_interruptedCommit : ∃ s : Session,
    (watched "a" interruptedCommit).1.session? "a" = some s ∧
      (watched "a" interruptedCommit).2.own = [⟨2⟩] ∧
      ∃ b, (((watched "a" interruptedCommit).1.amid []).perform "a" s .hasExternalCommits).1 =
          .ok (.flag b) ∧
        (b = true ↔ (watched "a" interruptedCommit).2.Foreign
          (watched "a" interruptedCommit).1.store.commits.length) := by
  have hopen : ((watched "a" interruptedCommit).1.session? "a").isSome = true := by decide +kernel
  have hown : (watched "a" interruptedCommit).2.own = [⟨2⟩] := by decide +kernel
  obtain ⟨s, hs⟩ := Option.isSome_iff_exists.1 hopen
  exact ⟨s, hs, hown, externalCommits_iff interruptedCommit hs []⟩

end Workspace

end StagedEdits
