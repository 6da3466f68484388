import BlunMq.Lib.Steps
import BlunMq.Raft.DiskEngine
import BlunMq.Raft.LogCalls

/-!
# The log store across crashes

A run is any sequence of calls, crashes and orderly re-opens. A purge is two writes, so
it has two more ways to go: the compaction may fail, which the engine keeps to itself,
and a crash may come between the two. The votes, commit marks and purge marks go through
synced writes under keys of their own, so each reader returns the last one written.
-/

namespace BlunMq

inductive DiskAct (δ : Type)
  | call (c : StoreCall δ)
  | purgeUncompacted (logId : LogId)
  | purgeTorn (logId : LogId)
  | reopen
  | crash
  deriving DecidableEq, Repr

namespace DiskAct
variable {δ : Type}

def savedVote : DiskAct δ → Option Vote
  | .call (.saveVote vote) => some vote
  | _ => none

def savedCommitted : DiskAct δ → Option (Option LogId)
  | .call (.saveCommitted committed) => some committed
  | _ => none

/-- A torn purge counts: its mark is written. -/
def purged : DiskAct δ → Option LogId
  | .call (.purge p) | .purgeUncompacted p | .purgeTorn p => some p
  | _ => none

def writes : DiskAct δ → Bool
  | .call (.append _) | .call (.purge _) | .call (.saveVote _) | .call (.saveCommitted _)
  | .purgeUncompacted _ | .purgeTorn _ => true
  | _ => false

def lastOf {α : Type} (f : DiskAct δ → Option α) (acts : List (DiskAct δ)) : Option α :=
  (acts.filterMap f).getLast?

theorem lastOf_snoc {α : Type} (f : DiskAct δ → Option α) (acts : List (DiskAct δ))
    (a : DiskAct δ) : lastOf f (acts ++ [a]) = (f a).or (lastOf f acts) := by
  rw [lastOf, List.filterMap_append, List.getLast?_append]
  cases h : f a <;> simp [h, lastOf]

end DiskAct

namespace RaftEngineLogStore
variable {δ : Type} (E : DurableEngine) (codec : LogCodec δ)

/-- The first of the two writes of `purge`. -/
def writePurged (s : E.State) (logId : LogId) : E.State :=
  (writeMessage E.toRaftEngine codec.logId s LAST_PURGED_KEY logId).1

/-- The engine is only asked to append what it accepts. -/
inductive DiskStep : E.State → DiskAct δ → E.State → Prop
  | call {s : E.State} {c : StoreCall δ}
      (h : ∀ es, c = .append es →
        (E.region s REGION_ID).Accepts (es.map (encodeEntry codec))) :
      DiskStep s (.call c) (callStep E.toRaftEngine codec s c)
  | purgeUncompacted {s : E.State} {p : LogId} :
      DiskStep s (.purgeUncompacted p) (writePurged E codec s p)
  | purgeTorn {s s' : E.State} {p : LogId} (h : E.crash (writePurged E codec s p) s') :
      DiskStep s (.purgeTorn p) s'
  | reopen {s : E.State} : DiskStep s .reopen (E.reopen s)
  | crash {s s' : E.State} (h : E.crash s s') : DiskStep s .crash s'

structure RegionShows (r : Region) (v : LogView δ) : Prop where
  vote : r.message VOTE_KEY = v.vote.map (messageBlob codec.vote)
  lastPurged : r.message LAST_PURGED_KEY = v.lastPurged.map (messageBlob codec.logId)
  committed : r.message COMMITTED_KEY = v.committed.map (messageBlob codec.committed)
  entries : r.entries = v.entries.map (encodeEntry codec)
  increasing : v.entries.Pairwise fun a b => a.logId.index < b.logId.index

variable {E codec}

theorem shows_iff {s : E.State} {v : LogView δ} :
    Shows E.toRaftEngine codec s v ↔ RegionShows codec (E.region s REGION_ID) v :=
  ⟨fun h => ⟨h.vote, h.lastPurged, h.committed, h.entries, h.increasing⟩,
    fun h => ⟨h.vote, h.lastPurged, h.committed, h.entries, h.increasing⟩⟩

def LogView.compact (v : LogView δ) (i : UInt64) : LogView δ :=
  { v with entries := v.entries.filter fun x => decide (i ≤ x.logId.index) }

theorem RegionShows.compact {r : Region} {v : LogView δ} (h : RegionShows codec r v)
    (i : UInt64) : RegionShows codec (r.compact i) (v.compact i) := by
  refine ⟨h.vote, h.lastPurged, h.committed, ?_, h.increasing.filter _⟩
  show List.filter _ r.entries = _
  rw [h.entries, List.filter_map]
  rfl

theorem RegionShows.foldl_compact (is : List UInt64) {r : Region} {v : LogView δ}
    (h : RegionShows codec r v) :
    ∃ entries, RegionShows codec (is.foldl Region.compact r) { v with entries := entries } := by
  induction is generalizing r v with
  | nil => exact ⟨v.entries, h⟩
  | cons i is ih =>
    obtain ⟨entries, h'⟩ := ih (h.compact i)
    exact ⟨entries, h'⟩

theorem pending_writeMessage {α : Type} (serde : SerdeJson α) (s : E.State) (key : String)
    (value : α) :
    E.pending (writeMessage E.toRaftEngine serde s key value).1 REGION_ID = [] :=
  E.pending_write _ _ _ (E.write_putMessage _ _ _ _ true).1

theorem pending_append {s : E.State} {es : List (Entry δ)}
    (h : (E.region s REGION_ID).Accepts (es.map (encodeEntry codec))) :
    E.pending (append E.toRaftEngine codec s es).1 REGION_ID = [] :=
  E.pending_write _ _ _ (E.write_addEntries _ _ _ true h).1

variable (E codec) in
def Durable (s : E.State) (vote : Option Vote) (purged : Option LogId)
    (committed : Option (Option LogId)) : Prop :=
  ∃ entries, RegionShows codec (E.synced s REGION_ID) ⟨vote, purged, committed, entries⟩

theorem Shows.writePurged {s : E.State} {v : LogView δ} (h : Shows E.toRaftEngine codec s v)
    (p : LogId) :
    Shows E.toRaftEngine codec (writePurged E codec s p) { v with lastPurged := some p } := by
  obtain ⟨-, hw⟩ := writeMessage_eq (E := E.toRaftEngine) codec.logId s LAST_PURGED_KEY p
  refine ⟨?_, ?_, ?_, ?_, h.increasing⟩ <;>
    simp only [RaftEngineLogStore.writePurged, hw, Region.put]
  · exact h.vote
  · simp
  · exact h.committed
  · exact h.entries

theorem durable_of_shows {s : E.State} {v : LogView δ} (h : Shows E.toRaftEngine codec s v)
    (hp : E.pending s REGION_ID = []) : Durable E codec s v.vote v.lastPurged v.committed := by
  have hr := shows_iff.mp h
  rw [E.region_of_pending hp] at hr
  exact ⟨v.entries, hr⟩

section Steps
variable {s s' : E.State} {vote : Option Vote} {purged : Option LogId}
  {committed : Option (Option LogId)}

theorem Durable.shows (h : Durable E codec s vote purged committed) :
    ∃ entries, Shows E.toRaftEngine codec s ⟨vote, purged, committed, entries⟩ := by
  obtain ⟨entries, h⟩ := h
  obtain ⟨entries, h⟩ := h.foldl_compact (E.pending s REGION_ID)
  rw [← E.region_eq] at h
  exact ⟨entries, shows_iff.mpr h⟩

theorem Durable.congr (h : Durable E codec s vote purged committed)
    (hs : E.synced s' REGION_ID = E.synced s REGION_ID) :
    Durable E codec s' vote purged committed := by
  obtain ⟨entries, h⟩ := h
  exact ⟨entries, hs ▸ h⟩

theorem Durable.crash (h : Durable E codec s vote purged committed) (hc : E.crash s s') :
    Durable E codec s' vote purged committed :=
  h.congr (E.crash_synced s s' REGION_ID hc)

theorem Durable.writePurged (h : Durable E codec s vote purged committed) (p : LogId) :
    Durable E codec (writePurged E codec s p) vote (some p) committed := by
  obtain ⟨entries, hs⟩ := h.shows
  exact durable_of_shows (hs.writePurged p) (pending_writeMessage _ _ _ _)

theorem purge_eq (s : E.State) (p : LogId) :
    (purge E.toRaftEngine codec s p).1 =
      E.compactTo (writePurged E codec s p) REGION_ID (p.index + 1) := by
  obtain ⟨hr, -⟩ := writeMessage_eq (E := E.toRaftEngine) codec.logId s LAST_PURGED_KEY p
  simp only [purge, hr]
  rfl

theorem Durable.purge (h : Durable E codec s vote purged committed) (p : LogId) :
    Durable E codec (purge E.toRaftEngine codec s p).1 vote (some p) committed := by
  refine (h.writePurged p).congr ?_
  rw [purge_eq]
  exact E.synced_compactTo _ _ _

end Steps

theorem Durable.call {s : E.State} {vote : Option Vote} {purged : Option LogId}
    {committed : Option (Option LogId)} (h : Durable E codec s vote purged committed)
    {c : StoreCall δ} (hc : ∀ es, c = .append es →
      (E.region s REGION_ID).Accepts (es.map (encodeEntry codec))) :
    Durable E codec (callStep E.toRaftEngine codec s c)
      ((DiskAct.savedVote (.call c)).or vote) ((DiskAct.purged (.call c)).or purged)
      ((DiskAct.savedCommitted (.call c)).or committed) := by
  obtain ⟨entries, hs⟩ := h.shows
  cases c with
  | append es =>
    have hacc := hc es rfl
    have hv := (hs.append (hs.accepts_iff.mp hacc)).2
    cases es with
    | nil => exact absurd rfl hacc.nonempty
    | cons e es => exact durable_of_shows hv (pending_append hacc)
  | saveVote x => exact durable_of_shows (hs.saveVote x).2 (pending_writeMessage _ _ _ _)
  | saveCommitted x => exact durable_of_shows (hs.saveCommitted x).2 (pending_writeMessage _ _ _ _)
  | purge p => exact h.purge p
  | truncate l => exact h
  | readVote => exact h
  | readCommitted => exact h
  | getLogState => exact h
  | tryGetLogEntries range => exact h

theorem Durable.step {s s' : E.State} {vote : Option Vote} {purged : Option LogId}
    {committed : Option (Option LogId)} {a : DiskAct δ}
    (h : Durable E codec s vote purged committed) (hs : DiskStep E codec s a s') :
    Durable E codec s' (a.savedVote.or vote) (a.purged.or purged)
      (a.savedCommitted.or committed) := by
  cases hs with
  | call hc => exact h.call hc
  | purgeUncompacted => exact h.writePurged _
  | purgeTorn hc => exact (h.writePurged _).crash hc
  | reopen => exact h.congr (E.synced_reopen _ _)
  | crash hc => exact h.crash hc

theorem Durable.openEmpty : Durable E codec E.openEmpty none none none :=
  durable_of_shows Shows.openEmpty (E.pending_openEmpty _)

theorem durable_run {acts : List (DiskAct δ)} {s : E.State}
    (h : Lts.Steps (DiskStep E codec) E.openEmpty acts s) :
    Durable E codec s (DiskAct.lastOf DiskAct.savedVote acts) (DiskAct.lastOf DiskAct.purged acts)
      (DiskAct.lastOf DiskAct.savedCommitted acts) := by
  refine h.trace_invariant
    (P := fun acts s => Durable E codec s (DiskAct.lastOf DiskAct.savedVote acts)
      (DiskAct.lastOf DiskAct.purged acts) (DiskAct.lastOf DiskAct.savedCommitted acts))
    ?_ Durable.openEmpty
  intro acts s a t hd hs
  simp only [DiskAct.lastOf_snoc]
  exact hd.step hs

theorem written_writeMessage {α : Type} (serde : SerdeJson α) (s : E.State) (key : String)
    (value : α) :
    (E.region (writeMessage E.toRaftEngine serde s key value).1 REGION_ID).written = true := by
  obtain ⟨-, hw⟩ := writeMessage_eq (E := E.toRaftEngine) serde s key value
  rw [hw]
  rfl

theorem written_crash {s s' : E.State} (h : E.crash s s') :
    (E.region s' REGION_ID).written = (E.region s REGION_ID).written := by
  rw [E.region_eq, E.region_eq s, Region.foldl_compact_written, Region.foldl_compact_written,
    E.crash_synced s s' REGION_ID h]

theorem written_call {s : E.State} {c : StoreCall δ} (hc : ∀ es, c = .append es →
      (E.region s REGION_ID).Accepts (es.map (encodeEntry codec))) :
    (E.region (callStep E.toRaftEngine codec s c) REGION_ID).written =
      ((E.region s REGION_ID).written || DiskAct.writes (.call c)) := by
  cases c with
  | append es =>
    have hacc := hc es rfl
    show (E.region (E.write s [.addEntries REGION_ID (es.map (encodeEntry codec))] true).1
      REGION_ID).written = _
    rw [(E.write_addEntries _ _ _ true hacc).2, Region.add_written hacc.nonempty]
    exact (Bool.or_true _).symm
  | purge p =>
    show (E.region (purge E.toRaftEngine codec s p).1 REGION_ID).written = _
    rw [purge_eq, E.region_compactTo]
    exact (written_writeMessage _ _ _ _).trans (Bool.or_true _).symm
  | saveVote vote => exact (written_writeMessage _ _ _ _).trans (Bool.or_true _).symm
  | saveCommitted c => exact (written_writeMessage _ _ _ _).trans (Bool.or_true _).symm
  | truncate | readVote | readCommitted | getLogState | tryGetLogEntries =>
    exact (Bool.or_false _).symm

theorem DiskStep.written {s s' : E.State} {a : DiskAct δ} (h : DiskStep E codec s a s') :
    (E.region s' REGION_ID).written = ((E.region s REGION_ID).written || a.writes) := by
  cases h with
  | call hc => exact written_call hc
  | purgeUncompacted => exact (written_writeMessage _ _ _ _).trans (Bool.or_true _).symm
  | purgeTorn hc =>
    rw [written_crash hc]
    exact (written_writeMessage _ _ _ _).trans (Bool.or_true _).symm
  | reopen =>
    rw [E.region_reopen]
    exact (Bool.or_false _).symm
  | crash hc =>
    rw [written_crash hc]
    exact (Bool.or_false _).symm

theorem written_run {acts : List (DiskAct δ)} {s : E.State}
    (h : Lts.Steps (DiskStep E codec) E.openEmpty acts s) :
    (E.region s REGION_ID).written = acts.any DiskAct.writes := by
  refine h.trace_invariant (P := fun acts s =>
    (E.region s REGION_ID).written = acts.any DiskAct.writes) ?_ ?_
  · intro acts s a t hs hstep
    rw [hstep.written, hs, List.any_append, List.any_cons, List.any_nil, Bool.or_false]
  · rw [E.region_openEmpty]
    rfl

variable (E codec) in
structure SameLog (s s' : E.State) : Prop where
  entries : (E.region s' REGION_ID).entries = (E.region s REGION_ID).entries
  getLogState : getLogState E.toRaftEngine codec s' = getLogState E.toRaftEngine codec s

variable (E codec) in
def SameReads (s s' : E.State) : Prop :=
  ∀ range, tryGetLogEntries E.toRaftEngine codec s' range =
    tryGetLogEntries E.toRaftEngine codec s range

theorem Shows.sameLog {s s' : E.State} {v v' : LogView δ} (h : Shows E.toRaftEngine codec s v)
    (h' : Shows E.toRaftEngine codec s' v') (hp : v'.lastPurged = v.lastPurged)
    (he : v'.entries = v.entries) : SameLog E codec s s' where
  entries := by rw [h'.entries, h.entries, he]
  getLogState := by rw [h'.getLogState, h.getLogState, LogView.lastLogId, LogView.lastLogId, hp, he]

/-- The first write to a store is seen by the range reads: there is a log now, and it is too
short for them. -/
theorem SameLog.sameReads_iff {s s' : E.State} {v' : LogView δ} (h : SameLog E codec s s')
    (h' : Shows E.toRaftEngine codec s' v') (hw : (E.region s' REGION_ID).written = true) :
    SameReads E codec s s' ↔ (E.region s REGION_ID).written = true := by
  constructor
  · intro hsame
    by_contra hnot
    have hunwritten : (E.region s REGION_ID).written = false := by simpa using hnot
    have hread : tryGetLogEntries E.toRaftEngine codec s ⟨.included 0, .excluded 5⟩ = .ok [] := by
      rw [tryGetLogEntries, E.fetch_unwritten s REGION_ID _ _ hunwritten]
      rfl
    rw [← hsame] at hread
    have hcovers := (fetch_iff h' _ _).mp (fetch_of_read hread) hw
    rw [if_pos (by decide)] at hcovers
    obtain ⟨first, hfirst, -⟩ := (h'.covers_iff _ _).mpr hcovers
    rw [h.entries, (E.region s REGION_ID).unwritten hunwritten] at hfirst
    cases hfirst
  · intro hwritten range
    rw [tryGetLogEntries, tryGetLogEntries,
      E.fetch_congr s s' REGION_ID _ _ (hw.trans hwritten.symm) h.entries]

variable (E codec)

/-- Whatever came in between, each key reads back its last completed write, and saving a vote
or a commit mark changes neither the log nor the other keys. It changes no range read either
exactly when something was written to the store before. -/
theorem metadata_last_write_wins {acts : List (DiskAct δ)} {s : E.State}
    (h : Lts.Steps (DiskStep E codec) E.openEmpty acts s) :
    readVote E.toRaftEngine codec s = .ok (DiskAct.lastOf DiskAct.savedVote acts) ∧
    readCommitted E.toRaftEngine codec s =
      .ok (DiskAct.lastOf DiskAct.savedCommitted acts).join ∧
    (∃ last, getLogState E.toRaftEngine codec s =
      .ok ⟨DiskAct.lastOf DiskAct.purged acts, last⟩) ∧
    (∀ vote, SameLog E codec s (saveVote E.toRaftEngine codec s vote).1 ∧
      readCommitted E.toRaftEngine codec (saveVote E.toRaftEngine codec s vote).1 =
        readCommitted E.toRaftEngine codec s ∧
      (SameReads E codec s (saveVote E.toRaftEngine codec s vote).1 ↔
        acts.any DiskAct.writes = true)) ∧
    ∀ c, SameLog E codec s (saveCommitted E.toRaftEngine codec s c).1 ∧
      readVote E.toRaftEngine codec (saveCommitted E.toRaftEngine codec s c).1 =
        readVote E.toRaftEngine codec s ∧
      (SameReads E codec s (saveCommitted E.toRaftEngine codec s c).1 ↔
        acts.any DiskAct.writes = true) := by
  obtain ⟨entries, hs⟩ := (durable_run h).shows
  rw [← written_run h]
  refine ⟨hs.readVote, hs.readCommitted, ⟨_, hs.getLogState⟩, fun vote => ?_, fun c => ?_⟩
  · have hsaved := (hs.saveVote vote).2
    have hlog := hs.sameLog hsaved rfl rfl
    refine ⟨hlog, ?_, hlog.sameReads_iff hsaved (written_writeMessage _ _ _ _)⟩
    rw [hsaved.readCommitted, hs.readCommitted]
  · have hsaved := (hs.saveCommitted c).2
    have hlog := hs.sameLog hsaved rfl rfl
    refine ⟨hlog, ?_, hlog.sameReads_iff hsaved (written_writeMessage _ _ _ _)⟩
    rw [hsaved.readVote, hs.readVote]

theorem first_vote_fails_reads :
    let codec := LogCodec.json Json.queueRequest
    let range : Range := ⟨.included 0, .excluded 5⟩
    let saved := (saveVote diskEngine.toRaftEngine codec diskEngine.openEmpty ⟨⟨1, 1⟩, true⟩).1
    tryGetLogEntries diskEngine.toRaftEngine codec diskEngine.openEmpty range = .ok [] ∧
      tryGetLogEntries diskEngine.toRaftEngine codec saved range =
        .error (.engine .entryNotFound) ∧
      ¬ ∀ (acts : List (DiskAct QueueRequest)) (s : diskEngine.State),
        Lts.Steps (DiskStep diskEngine codec) diskEngine.openEmpty acts s →
          ∀ vote,
            SameReads diskEngine codec s (saveVote diskEngine.toRaftEngine codec s vote).1 := by
  intro codec range saved
  have hbefore : tryGetLogEntries diskEngine.toRaftEngine codec diskEngine.openEmpty range =
      .ok [] := by decide +kernel
  have hafter : tryGetLogEntries diskEngine.toRaftEngine codec saved range =
      .error (.engine .entryNotFound) := by decide +kernel
  refine ⟨hbefore, hafter, fun h => ?_⟩
  have hsame := h [] _ (.nil _) ⟨⟨1, 1⟩, true⟩ range
  rw [hbefore] at hsame
  cases hafter.symm.trans hsame

theorem metadata_last_write_wins_purged :
    let codec := LogCodec.json Json.queueRequest
    let e : UInt64 → Entry QueueRequest := fun i => ⟨⟨⟨1, 1⟩, i⟩, .blank⟩
    ∃ s, Lts.Steps (DiskStep diskEngine codec) diskEngine.openEmpty
        [.call (.saveVote ⟨⟨1, 1⟩, true⟩), .call (.append [e 0, e 1]), .call (.saveCommitted none),
          .call (.saveVote ⟨⟨2, 3⟩, false⟩), .call (.purge (e 0).logId), .crash] s ∧
      readVote diskEngine.toRaftEngine codec s = .ok (some ⟨⟨2, 3⟩, false⟩) ∧
      readCommitted diskEngine.toRaftEngine codec s = .ok none ∧
      (∃ last, getLogState diskEngine.toRaftEngine codec s = .ok ⟨some (e 0).logId, last⟩) ∧
      SameReads diskEngine codec s
        (saveVote diskEngine.toRaftEngine codec s ⟨⟨3, 3⟩, false⟩).1 := by
  intro codec e
  let acts : List (DiskAct QueueRequest) :=
    [.call (.saveVote ⟨⟨1, 1⟩, true⟩), .call (.append [e 0, e 1]), .call (.saveCommitted none),
      .call (.saveVote ⟨⟨2, 3⟩, false⟩), .call (.purge (e 0).logId), .crash]
  obtain ⟨s, h⟩ : ∃ s, Lts.Steps (DiskStep diskEngine codec) diskEngine.openEmpty acts s := by
    refine ⟨_, .cons (.call nofun) (.cons (.call ?_) (.cons (.call nofun) (.cons (.call nofun)
      (.cons (.call nofun) (.single (.crash fun r => ⟨rfl, List.prefix_rfl⟩))))))⟩
    rintro es ⟨⟩
    exact (Shows.openEmpty.saveVote _).2.accepts_iff.mpr ⟨by simp, by simp [e], nofun, nofun, nofun⟩
  obtain ⟨hv, hc, hp, hvote, -⟩ := metadata_last_write_wins diskEngine codec h
  exact ⟨s, h, hv, hc, hp, (hvote _).2.2.mpr rfl⟩

end RaftEngineLogStore
end BlunMq
