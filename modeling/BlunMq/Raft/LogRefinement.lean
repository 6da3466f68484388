import BlunMq.Lib.Steps
import BlunMq.Raft.LogStore

/-!
# The log store against an abstract Raft log

`RaftLog` is the log a Raft node believes it has: truncation and purging drop
entries at once. The store leaves a truncated suffix where it is until an append
overwrites it, so the two agree as long as no truncation drops anything.
-/

namespace BlunMq

inductive LogOp (δ : Type)
  | append (entries : List (Entry δ))
  | truncate (logId : LogId)
  | purge (logId : LogId)
  | reopen
  deriving DecidableEq, Repr

structure RaftLog (δ : Type) where
  lastPurged : Option LogId
  entries : List (Entry δ)
  deriving DecidableEq, Repr

def LogId.Precedes (a b : LogId) : Prop := a.index < b.index ∧ a.leaderId.term ≤ b.leaderId.term

def LogId.FollowedBy (a b : LogId) : Prop :=
  b.index.toNat = a.index.toNat + 1 ∧ a.leaderId.term ≤ b.leaderId.term

instance LogId.precedes_trans : IsTrans LogId LogId.Precedes :=
  ⟨fun _ _ _ h h' => ⟨UInt64.lt_trans h.1 h'.1, UInt64.le_trans h.2 h'.2⟩⟩

theorem LogId.FollowedBy.precedes {a b : LogId} (h : a.FollowedBy b) : a.Precedes b := by
  refine ⟨?_, h.2⟩
  have hi := h.1
  rw [UInt64.lt_iff_toNat_lt]
  omega

namespace RaftLog
variable {δ : Type}

def empty : RaftLog δ := ⟨none, []⟩

def lastLogId (log : RaftLog δ) : Option LogId :=
  log.entries.getLast?.map Entry.logId <|> log.lastPurged

def step (log : RaftLog δ) : LogOp δ → RaftLog δ
  | .append es => { log with entries := log.entries ++ es }
  | .truncate l =>
    { log with entries := log.entries.filter fun e => decide (e.logId.index < l.index) }
  | .purge p => ⟨some p, log.entries.filter fun e => decide (p.index < e.logId.index)⟩
  | .reopen => log

def Permits (log : RaftLog δ) : LogOp δ → Prop
  | .append es => es ≠ [] ∧ (log.lastLogId.toList ++ es.map Entry.logId).IsChain LogId.FollowedBy
  | _ => True

/-- A truncation that drops nothing; a purge whose index has a successor and behind
which no entry of an older term is left. -/
def Harmless (log : RaftLog δ) : LogOp δ → Prop
  | .append _ => True
  | .truncate l => ∀ e ∈ log.entries, e.logId.index < l.index
  | .purge p => (∀ e ∈ log.entries, p.index < e.logId.index →
      p.leaderId.term ≤ e.logId.leaderId.term) ∧ (p.index = 18446744073709551615 → log.entries = [])
  | .reopen => True

def ids (log : RaftLog δ) : List LogId := log.lastPurged.toList ++ log.entries.map Entry.logId

theorem lastLogId_eq (log : RaftLog δ) : log.lastLogId = log.ids.getLast? := by
  rw [lastLogId, ids, List.getLast?_append, List.getLast?_map]
  cases log.lastPurged <;> simp

def Ordered (log : RaftLog δ) : Prop := log.ids.Pairwise LogId.Precedes

theorem Ordered.append {log : RaftLog δ} (h : log.Ordered) {es : List (Entry δ)}
    (hp : log.Permits (.append es)) : (log.step (.append es)).Ordered := by
  obtain ⟨-, hc⟩ := hp
  rw [lastLogId_eq] at hc
  have hchain : (log.ids ++ es.map Entry.logId).IsChain LogId.Precedes := by
    rw [List.isChain_append] at hc ⊢
    refine ⟨List.isChain_iff_pairwise.mpr h, hc.2.1.imp fun _ _ => LogId.FollowedBy.precedes, ?_⟩
    intro x hx y hy
    refine LogId.FollowedBy.precedes (hc.2.2 x ?_ y hy)
    rw [Option.mem_def.mp hx]
    rfl
  simpa [Ordered, ids, step] using List.isChain_iff_pairwise.mp hchain

theorem Ordered.append_index_lt {log : RaftLog δ} (h : log.Ordered) {e : Entry δ}
    {es : List (Entry δ)} (hp : log.Permits (.append (e :: es))) :
    ∀ x ∈ log.entries, x.logId.index < e.logId.index := by
  have ho := h.append hp
  rw [Ordered, ids, step, List.map_append, ← List.append_assoc, List.pairwise_append] at ho
  exact fun x hx => (ho.2.2 x.logId
    (List.mem_append_right _ (List.mem_map_of_mem hx)) e.logId (by simp)).1

theorem Ordered.purge {log : RaftLog δ} (h : log.Ordered) {p : LogId}
    (hp : log.Harmless (.purge p)) : (log.step (.purge p)).Ordered := by
  have hes : (log.entries.map Entry.logId).Pairwise LogId.Precedes :=
    (List.pairwise_append.mp h).2.1
  refine List.pairwise_cons.mpr ⟨?_, ?_⟩
  · intro id hid
    obtain ⟨e, he, rfl⟩ := List.mem_map.mp hid
    obtain ⟨hmem, hlt⟩ := List.mem_filter.mp he
    have hlt : p.index < e.logId.index := by simpa using hlt
    exact ⟨hlt, hp.1 e hmem hlt⟩
  · exact hes.sublist (List.filter_sublist.map Entry.logId)

theorem Ordered.index_le_last {log : RaftLog δ} (h : log.Ordered) {last id : LogId}
    (hl : log.ids.getLast? = some last) (hid : id ∈ log.ids) : id.index ≤ last.index := by
  obtain ⟨pre, hpre⟩ := List.getLast?_eq_some_iff.mp hl
  rw [hpre] at hid
  rcases List.mem_append.mp hid with hmem | hmem
  · rw [Ordered, hpre, List.pairwise_append] at h
    exact UInt64.le_of_lt (h.2.2 id hmem last (by simp)).1
  · rw [List.mem_singleton.mp hmem]
    exact UInt64.le_refl _

end RaftLog

namespace RaftEngineLogStore
variable {δ : Type} (E : RaftEngine) (codec : LogCodec δ)

def logStep (s : E.State) : LogOp δ → E.State
  | .append es => (append E codec s es).1
  | .truncate l => (truncate E s l).1
  | .purge p => (purge E codec s p).1
  | .reopen => E.reopen s

def LogStep (w : E.State × RaftLog δ) (op : LogOp δ) (w' : E.State × RaftLog δ) : Prop :=
  w.2.Permits op ∧ w' = (logStep E codec w.1 op, w.2.step op)

/-- What the readers of the store must report of the abstract log. -/
structure Refines (s : E.State) (log : RaftLog δ) : Prop where
  logState : getLogState E codec s = .ok ⟨log.lastPurged, log.lastLogId⟩
  present : ∀ range es, tryGetLogEntries E codec s range = .ok es → ∀ e ∈ es, e ∈ log.entries
  ordered : ∀ range es, tryGetLogEntries E codec s range = .ok es →
    (log.lastPurged.toList ++ es.map Entry.logId).Pairwise LogId.Precedes

structure Holds (w : E.State × RaftLog δ) : Prop where
  shows : Shows E codec w.1 ⟨none, w.2.lastPurged, none, w.2.entries⟩
  ordered : w.2.Ordered

variable {E codec}

theorem Holds.accepts {w : E.State × RaftLog δ} (h : Holds E codec w) {es : List (Entry δ)}
    (hp : w.2.Permits (.append es)) :
    (⟨none, w.2.lastPurged, none, w.2.entries⟩ : LogView δ).Accepts es :=
  LogView.accepts_of_isChain h.shows.increasing (fun _ _ h => h.1) hp.1 hp.2

theorem append_view_eq {log : RaftLog δ} (ho : log.Ordered) {es : List (Entry δ)}
    (hp : log.Permits (.append es)) :
    LogView.append ⟨none, log.lastPurged, none, log.entries⟩ es =
      ⟨none, log.lastPurged, none, log.entries ++ es⟩ := by
  obtain ⟨e, es, rfl⟩ := List.exists_cons_of_ne_nil hp.1
  exact LogView.append_of_lt (ho.append_index_lt hp)

theorem purge_view_eq {log : RaftLog δ} {p : LogId} (hp : log.Harmless (.purge p)) :
    LogView.purge ⟨none, log.lastPurged, none, log.entries⟩ p =
      ⟨none, some p, none, (log.step (.purge p)).entries⟩ := by
  simp only [LogView.purge, RaftLog.step, LogView.mk.injEq, true_and]
  by_cases hmax : p.index = 18446744073709551615
  · simp [hp.2 hmax]
  · refine List.filter_congr fun x _ => ?_
    simp only [decide_eq_decide, UInt64.le_iff_toNat_le, UInt64.lt_iff_toNat_lt,
      UInt64.toNat_succ hmax]
    omega

theorem Holds.step {w w' : E.State × RaftLog δ} {op : LogOp δ} (h : Holds E codec w)
    (hs : LogStep E codec w op w') (hh : w.2.Harmless op) : Holds E codec w' := by
  obtain ⟨hp, rfl⟩ := hs
  cases op with
  | append es =>
    refine ⟨?_, h.ordered.append hp⟩
    have hs := (h.shows.append (h.accepts hp)).2
    rwa [append_view_eq h.ordered hp] at hs
  | truncate l =>
    have hkeep : w.2.step (.truncate l) = w.2 := by
      simp only [RaftLog.step]
      rw [List.filter_eq_self.mpr fun x hx => by simpa using hh x hx]
    rw [hkeep]
    exact h
  | purge p =>
    refine ⟨?_, h.ordered.purge hh⟩
    have hs := (h.shows.purge p).2
    rwa [purge_view_eq hh] at hs
  | reopen => exact ⟨h.shows.reopen, h.ordered⟩

theorem Holds.refines {w : E.State × RaftLog δ} (h : Holds E codec w) :
    Refines E codec w.1 w.2 where
  logState := h.shows.getLogState
  present range es hes e he := by
    rw [h.shows.tryGetLogEntries_ok hes] at he
    exact (List.mem_filter.mp he).1
  ordered range es hes := by
    rw [h.shows.tryGetLogEntries_ok hes]
    refine h.ordered.sublist ?_
    exact (List.Sublist.refl _).append (List.filter_sublist.map Entry.logId)

theorem Holds.truncate_refines_iff {w : E.State × RaftLog δ} (h : Holds E codec w) (l : LogId) :
    Refines E codec (logStep E codec w.1 (.truncate l)) (w.2.step (.truncate l)) ↔
      w.2.Harmless (.truncate l) := by
  constructor
  · intro hr e he
    have hstate := hr.logState
    rw [show getLogState E codec (logStep E codec w.1 (.truncate l)) = _
      from h.shows.getLogState] at hstate
    obtain ⟨last, hlast⟩ : ∃ last, w.2.ids.getLast? = some last :=
      ⟨_, List.getLast?_eq_some_getLast (by simp [RaftLog.ids, List.ne_nil_of_mem he])⟩
    have hle := h.ordered.index_le_last hlast
      (List.mem_append_right _ (List.mem_map_of_mem he))
    have hmem : last ∈ (w.2.step (.truncate l)).ids := by
      have heq : w.2.lastLogId = (w.2.step (.truncate l)).lastLogId := by
        injection hstate with hstate
        injection hstate
      rw [RaftLog.lastLogId_eq, RaftLog.lastLogId_eq, hlast] at heq
      exact List.mem_of_getLast? heq.symm
    rcases List.mem_append.mp hmem with hp | hp
    · -- the purged id lies before every entry
      have hlt := (List.pairwise_append.mp h.ordered).2.2 last hp e.logId
        (List.mem_map_of_mem he)
      exact absurd hlt.1 (UInt64.not_lt.mpr hle)
    · obtain ⟨x, hx, rfl⟩ := List.mem_map.mp hp
      have hx' : x.logId.index < l.index := by simpa using (List.mem_filter.mp hx).2
      exact UInt64.lt_of_le_of_lt hle hx'
  · intro hh
    have hs : LogStep E codec w (.truncate l)
        (logStep E codec w.1 (.truncate l), w.2.step (.truncate l)) := ⟨trivial, rfl⟩
    exact (h.step hs hh).refines

variable (E codec)

theorem logStore_refines_raftLog {ops : List (LogOp δ)} {w : E.State × RaftLog δ}
    (h : Lts.Steps (fun w op w' => LogStep E codec w op w' ∧ w.2.Harmless op)
      (E.openEmpty, RaftLog.empty) ops w) : Refines E codec w.1 w.2 := by
  have hstart : Holds E codec (E.openEmpty, RaftLog.empty) :=
    ⟨Shows.openEmpty, List.Pairwise.nil⟩
  have hw : Holds E codec w :=
    h.invariant (fun _ _ _ hw hs => Holds.step hw hs.1 hs.2) hstart
  exact hw.refines

theorem stale_suffix_behind_snapshot :
    let codec := LogCodec.json Json.queueRequest
    let old : List (Entry QueueRequest) :=
      [⟨⟨⟨1, 1⟩, 0⟩, .blank⟩, ⟨⟨⟨1, 1⟩, 1⟩, .blank⟩, ⟨⟨⟨1, 1⟩, 2⟩, .blank⟩]
    let installed : LogId := ⟨⟨3, 2⟩, 1⟩
    ∃ w, Lts.Steps (LogStep memEngine codec) (memEngine.openEmpty, RaftLog.empty)
        [.append old, .truncate installed, .purge installed, .reopen] w ∧
      w.2.lastLogId = some installed ∧
      getLogState memEngine codec w.1 = .ok ⟨some installed, some ⟨⟨1, 1⟩, 2⟩⟩ ∧
      ¬ Refines memEngine codec w.1 w.2 := by
  intro codec old installed
  have hstate : getLogState memEngine codec
      ([.append old, .truncate installed, .purge installed, .reopen].foldl
        (logStep memEngine codec) memEngine.openEmpty) =
      .ok ⟨some installed, some ⟨⟨1, 1⟩, 2⟩⟩ := by decide +kernel
  refine ⟨_, .cons ⟨⟨by decide, ?_⟩, rfl⟩
    (.cons ⟨trivial, rfl⟩ (.cons ⟨trivial, rfl⟩ (.single ⟨trivial, rfl⟩))), rfl, hstate, ?_⟩
  · simp [RaftLog.lastLogId, RaftLog.empty, old, LogId.FollowedBy]
  · intro hr
    exact absurd (hstate.symm.trans hr.logState) (by decide)

theorem logStore_refines_raftLog_after_purge :
    let codec := LogCodec.json Json.queueRequest
    let e0 : Entry QueueRequest := ⟨⟨⟨1, 1⟩, 0⟩, .normal (.publish "spam" [7])⟩
    let e1 : Entry QueueRequest := ⟨⟨⟨2, 2⟩, 1⟩, .blank⟩
    ∃ w, Lts.Steps (fun w op w' => LogStep memEngine codec w op w' ∧ w.2.Harmless op)
        (memEngine.openEmpty, RaftLog.empty)
        [.append [e0, e1], .truncate ⟨⟨2, 2⟩, 2⟩, .purge e0.logId, .reopen] w ∧
      w.2 = ⟨some e0.logId, [e1]⟩ ∧ Refines memEngine codec w.1 w.2 := by
  intro codec e0 e1
  obtain ⟨w, h, hw⟩ : ∃ w, Lts.Steps
      (fun w op w' => LogStep memEngine codec w op w' ∧ w.2.Harmless op)
      (memEngine.openEmpty, RaftLog.empty)
      [.append [e0, e1], .truncate ⟨⟨2, 2⟩, 2⟩, .purge e0.logId, .reopen] w ∧
        w.2 = ⟨some e0.logId, [e1]⟩ := by
    refine ⟨_, .cons ⟨⟨⟨by decide, ?_⟩, rfl⟩, trivial⟩ (.cons ⟨⟨trivial, rfl⟩, ?_⟩
      (.cons ⟨⟨trivial, rfl⟩, ?_⟩ (.single ⟨⟨trivial, rfl⟩, trivial⟩))), rfl⟩
    · simp [RaftLog.lastLogId, RaftLog.empty, e0, e1, LogId.FollowedBy]
    · simp only [RaftLog.Harmless]
      decide
    · simp only [RaftLog.Harmless]
      decide
  exact ⟨w, h, hw, logStore_refines_raftLog memEngine codec h⟩

end RaftEngineLogStore
end BlunMq
