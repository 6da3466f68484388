import BlunMq.Lib.Steps
import BlunMq.Raft.LogCalls
import BlunMq.Raft.StateMachine

/-!
# Restarting a node of the queue group

The log, the vote and the committed id are on disk; queues, counters and the
current snapshot are in memory only. A restarted node has no snapshot to load, so
it has to replay the log from its first entry, which a purge has removed.
-/

namespace BlunMq

structure GroupLog (δ : Type) where
  entries : List (Entry δ)
  position : ∀ (i : ℕ) (e : Entry δ), entries[i]? = some e → e.logId.index.toNat = i

namespace GroupLog
variable {δ : Type} (log : GroupLog δ)

def single (e : Entry δ) (h : e.logId.index = 0) : GroupLog δ where
  entries := [e]
  position i x hx := by
    cases i with
    | zero =>
      cases hx
      rw [h]
      rfl
    | succ i => cases hx

def committed : CommittedLog δ where
  entries := log.entries
  increasing := by
    refine List.pairwise_iff_getElem.mpr fun i j hi hj hij => ?_
    rw [UInt64.lt_iff_toNat_lt, log.position i _ (List.getElem?_eq_getElem hi),
      log.position j _ (List.getElem?_eq_getElem hj)]
    exact hij

end GroupLog

def LogId.nextIndex : Option LogId → ℕ
  | none => 0
  | some id => id.index.toNat + 1

structure Node (E : RaftEngine) where
  disk : E.State
  cell : QueueState
  store : Store
  snapshots : List SnapshotMeta

inductive NodeOp
  | append (entries : List (Entry QueueRequest))
  | saveCommitted (committed : Option LogId)
  | apply (entries : List (Entry QueueRequest))
  | build (nanos : ℕ)
  | install (snapshot : Snapshot)
  | purge (logId : LogId)

namespace Node
open RaftEngineLogStore
variable (E : RaftEngine) (codec : LogCodec QueueRequest) (serde : SerdeJson SnapshotPayload)
  (log : GroupLog QueueRequest)

def start : Node E := ⟨E.openEmpty, QueueState.default, Store.new, []⟩

def step (n : Node E) : NodeOp → Node E
  | .append es => { n with disk := (append E codec n.disk es).1 }
  | .saveCommitted c => { n with disk := (saveCommitted E codec n.disk c).1 }
  | .apply es =>
    let w := (StateMachineStore.apply (n.cell, n.store) es).1
    { n with cell := w.1, store := w.2 }
  | .build nanos =>
    let built := StateMachineStore.buildSnapshot serde n.cell nanos n.store.getSnapshotBuilder
    { n with snapshots := built.2.info :: n.snapshots }
  | .install snap =>
    let w := (StateMachineStore.installSnapshot serde (n.cell, n.store) snap.info snap.data).1
    { n with cell := w.1, store := w.2, snapshots := snap.info :: n.snapshots }
  | .purge id => { n with disk := (purge E codec n.disk id).1 }

/-- The calls openraft makes: entries come from the group's log in order, snapshots
from replicas of it, and a purge stays within some snapshot. -/
def Permits (n : Node E) : NodeOp → Prop
  | .append es => ∃ st, getLogState E codec n.disk = .ok st ∧ es ≠ [] ∧
      es <+: log.entries.drop (LogId.nextIndex st.lastLogId)
  | .saveCommitted c => ∀ id ∈ c, ∃ e ∈ log.entries, e.logId = id
  | .apply es => es <+: log.entries.drop (LogId.nextIndex n.store.lastApplied)
  | .build _ => True
  | .install snap => ∃ r nanos, StateMachineStore.IsReplica serde log.committed r ∧
      snap = (StateMachineStore.buildSnapshot serde r.1 nanos r.2.getSnapshotBuilder).2
  | .purge id => (∃ e ∈ log.entries, e.logId = id) ∧
      ∃ info ∈ n.snapshots, ∃ last, info.lastLogId = some last ∧ id.index ≤ last.index

def Step (n : Node E) (op : NodeOp) (n' : Node E) : Prop :=
  n.Permits E codec serde log op ∧ n' = n.step E codec serde op

/-- Loads the current snapshot of a fresh store if there is one, then applies what
the log store returns after `last_applied` up to the committed id. -/
def recover (disk : E.State) : Except StorageError (QueueState × Store) := do
  let fresh : QueueState × Store := (QueueState.default, Store.new)
  let w := match fresh.2.getCurrentSnapshot with
    | some snap => (StateMachineStore.installSnapshot serde fresh snap.info snap.data).1
    | none => fresh
  let committed ← readCommitted E codec disk
  match committed with
  | none => pure w
  | some id =>
    let startBound := match w.2.appliedState.1 with
      | some last => Bound.excluded last.index
      | none => Bound.unbounded
    let entries ← tryGetLogEntries E codec disk ⟨startBound, .included id.index⟩
    pure (StateMachineStore.apply w entries).1

def replayed (committed : Option LogId) : QueueState × Store :=
  (StateMachineStore.apply (QueueState.default, Store.new) (log.committed.upTo committed)).1

def Recovers (n : Node E) : Prop :=
  ∃ committed w, readCommitted E codec (E.reopen n.disk) = .ok committed ∧
    recover E codec serde (E.reopen n.disk) = .ok w ∧
    w.1 = (replayed log committed).1 ∧
    w.2.lastMembership = (replayed log committed).2.lastMembership ∧
    w.2.lastApplied = (replayed log committed).2.lastApplied

end Node

namespace NodeOp

def saved (ops : List NodeOp) : Option LogId :=
  (ops.filterMap fun
    | .saveCommitted c => some c
    | _ => none).getLast?.join

def appended (ops : List NodeOp) : ℕ :=
  (ops.map fun
    | .append es => es.length
    | _ => 0).sum

/-- A purge removes the first entry, unless its index has no successor: then the
compaction index wraps to 0. -/
def removes : NodeOp → Bool
  | .purge id => id.index != 18446744073709551615
  | _ => false

/-- Nothing is committed; or nothing was purged and the committed entry is among the
appended ones, none of which has the last index. -/
def Replayable (ops : List NodeOp) : Prop :=
  ∀ id ∈ saved ops, (∀ op ∈ ops, op.removes = false) ∧ id.index.toNat < appended ops ∧
    appended ops < 2 ^ 64

theorem saved_concat (ops : List NodeOp) (op : NodeOp) :
    saved (ops ++ [op]) = match op with
      | .saveCommitted c => c
      | _ => saved ops := by
  cases op <;> simp [saved]

theorem appended_concat (ops : List NodeOp) (op : NodeOp) :
    appended (ops ++ [op]) = match op with
      | .append es => appended ops + es.length
      | _ => appended ops := by
  cases op <;> simp [appended]

theorem removes_of_concat {ops : List NodeOp} {op : NodeOp} (hr : op.removes = false)
    (h : ∃ o ∈ ops ++ [op], o.removes = true) : ∃ o ∈ ops, o.removes = true := by
  obtain ⟨o, ho, hro⟩ := h
  rcases List.mem_append.mp ho with ho | ho
  · exact ⟨o, ho, hro⟩
  · rw [List.mem_singleton.mp ho, hr] at hro
    cases hro

end NodeOp

namespace GroupLog
variable {δ : Type} (log : GroupLog δ)

theorem mem_position {e : Entry δ} (he : e ∈ log.entries) :
    log.entries[e.logId.index.toNat]? = some e := by
  obtain ⟨i, hi⟩ := List.mem_iff_getElem?.mp he
  rwa [log.position i e hi]

theorem index_of_prefix_drop {k : ℕ} {es : List (Entry δ)} (hes : es <+: log.entries.drop k)
    {i : ℕ} {e : Entry δ} (he : es[i]? = some e) : e.logId.index.toNat = k + i := by
  refine log.position (k + i) e ?_
  rw [← List.getElem?_drop]
  exact getElem?_of_isPrefix hes he

theorem nextIndex_take {k : ℕ} (hk : k ≤ log.entries.length) :
    LogId.nextIndex ((log.entries.take k).getLast?.map Entry.logId) = k := by
  cases k with
  | zero => rfl
  | succ k =>
    have he : log.entries[k]? = some log.entries[k] := List.getElem?_eq_getElem hk
    have hl : (log.entries.take (k + 1)).getLast? = some log.entries[k] := by
      rw [List.take_add_one, he, Option.toList_some, List.getLast?_concat]
    rw [hl]
    simp only [Option.map_some, LogId.nextIndex, log.position k _ he]

theorem filter_take_eq_upTo {k : ℕ} {id : LogId} (hk : id.index.toNat < k)
    (hmax : id.index ≠ 18446744073709551615) :
    ((log.entries.take k).filter fun e =>
        decide ((0 : UInt64) ≤ e.logId.index ∧ e.logId.index < id.index + 1)) =
      log.committed.upTo (some id) := by
  have hsucc : (id.index + 1).toNat = id.index.toNat + 1 := UInt64.toNat_succ hmax
  have hrest : (log.entries.drop k).filter
      (fun e => decide (e.logId.index ≤ id.index)) = [] := by
    apply List.filter_eq_nil_iff.mpr
    intro e he
    obtain ⟨i, hi⟩ := List.mem_iff_getElem?.mp he
    rw [List.getElem?_drop] at hi
    have := log.position _ e hi
    simp only [decide_eq_true_eq, UInt64.le_iff_toNat_le]
    omega
  rw [CommittedLog.upTo]
  show _ = log.entries.filter _
  conv_rhs => rw [← List.take_append_drop k log.entries, List.filter_append, hrest,
    List.append_nil]
  refine List.filter_congr fun e _ => ?_
  simp only [decide_eq_decide, UInt64.le_iff_toNat_le, UInt64.lt_iff_toNat_lt, hsucc]
  simp

end GroupLog

namespace Node
open RaftEngineLogStore
variable (E : RaftEngine) (codec : LogCodec QueueRequest) (serde : SerdeJson SnapshotPayload)
  (log : GroupLog QueueRequest)

/-- What the disk holds after the calls `ops`: pieces of the group's log and the last
saved id. Without a purge the entries are the first of the log, and after one the
first entry is gone for good. -/
structure DiskAfter (ops : List NodeOp) (n : Node E) (v : LogView QueueRequest) : Prop where
  shows : Shows E codec n.disk v
  saved : v.committed.join = NodeOp.saved ops
  saved_mem : ∀ id ∈ NodeOp.saved ops, ∃ e ∈ log.entries, e.logId = id
  entries_mem : ∀ e ∈ v.entries, e ∈ log.entries
  unpurged : (∀ op ∈ ops, op.removes = false) →
    (∀ id ∈ v.lastPurged, id.index = 18446744073709551615) ∧
    NodeOp.appended ops ≤ log.entries.length ∧
    v.entries = log.entries.take (NodeOp.appended ops)
  purged : (∃ op ∈ ops, op.removes = true) → v.lastPurged ≠ none ∧
    ∀ e ∈ v.entries, 0 < e.logId.index.toNat

variable {E codec serde log}
variable {ops : List NodeOp} {n : Node E} {v : LogView QueueRequest}

theorem DiskAfter.append_view (h : DiskAfter E codec log ops n v)
    {es : List (Entry QueueRequest)} (hne : es ≠ [])
    (hes : es <+: log.entries.drop (LogId.nextIndex v.lastLogId)) :
    v.Accepts es ∧ v.append es = { v with entries := v.entries ++ es } := by
  obtain ⟨e, es, rfl⟩ := List.exists_cons_of_ne_nil hne
  have hfirst : e.logId.index.toNat = LogId.nextIndex v.lastLogId :=
    log.index_of_prefix_drop hes (i := 0) rfl
  have hnext : ∀ last ∈ v.entries.getLast?, e.logId.index.toNat = last.logId.index.toNat + 1 := by
    intro last hl
    have hl' : v.entries.getLast? = some last := hl
    rw [hfirst]
    simp [LogView.lastLogId, hl', LogId.nextIndex]
  have hold : ∀ x ∈ v.entries, x.logId.index < e.logId.index := by
    intro x hx
    obtain ⟨last, hl⟩ : ∃ last, v.entries.getLast? = some last :=
      ⟨_, List.getLast?_eq_some_getLast (List.ne_nil_of_mem hx)⟩
    have hle := Shows.index_le_last h.shows hl hx
    have := hnext last hl
    rw [UInt64.lt_iff_toNat_lt]
    omega
  refine ⟨LogView.accepts_of_next h.shows.increasing hne ?_ ?_, LogView.append_of_lt hold⟩
  · refine List.isChain_iff_getElem.mpr fun i hi => ?_
    have ha := log.index_of_prefix_drop hes (List.getElem?_eq_getElem (show i < _ by omega))
    have hb := log.index_of_prefix_drop hes (List.getElem?_eq_getElem hi)
    omega
  · rintro _ ⟨⟩
    exact hnext

theorem nextIndex_of_unpurged {k : ℕ} {es : List (Entry QueueRequest)}
    (hmax : ∀ id ∈ v.lastPurged, id.index = 18446744073709551615)
    (hle : k ≤ log.entries.length) (hentries : v.entries = log.entries.take k) (hne : es ≠ [])
    (hes : es <+: log.entries.drop (LogId.nextIndex v.lastLogId)) :
    LogId.nextIndex v.lastLogId = k := by
  cases hl : (log.entries.take k).getLast? with
  | some last =>
    have hk := log.nextIndex_take hle
    rw [hl] at hk
    rw [LogView.lastLogId, hentries, hl]
    exact hk
  | none =>
    have hk := log.nextIndex_take hle
    rw [hl] at hk
    rw [LogView.lastLogId, hentries, hl] at hes ⊢
    cases hp : v.lastPurged with
    | none => exact hk
    | some id =>
      -- the log has at most 2 ^ 64 entries, so nothing follows the last index
      rw [hp] at hes
      have hlen := hes.length_le
      have hbound := log.committed.length_le
      have hid : id.index.toNat = 18446744073709551615 := by
        rw [hmax id hp]
        rfl
      have hpos := List.length_pos_iff.mpr hne
      have : log.committed.entries.length = log.entries.length := rfl
      simp [LogId.nextIndex] at hlen
      omega

theorem DiskAfter.start : DiskAfter E codec log [] (start E) LogView.empty where
  shows := Shows.openEmpty
  saved := rfl
  saved_mem := by simp [NodeOp.saved]
  entries_mem := by simp [LogView.empty]
  unpurged _ := ⟨by simp [LogView.empty], Nat.zero_le _, rfl⟩
  purged := by simp

theorem DiskAfter.keep (h : DiskAfter E codec log ops n v) {n' : Node E} {op : NodeOp}
    (hd : n'.disk = n.disk) (hs : NodeOp.saved (ops ++ [op]) = NodeOp.saved ops)
    (ha : NodeOp.appended (ops ++ [op]) = NodeOp.appended ops) (hr : op.removes = false) :
    DiskAfter E codec log (ops ++ [op]) n' v where
  shows := hd ▸ h.shows
  saved := hs ▸ h.saved
  saved_mem := hs ▸ h.saved_mem
  entries_mem := h.entries_mem
  unpurged hno := ha ▸ h.unpurged fun o ho => hno o (List.mem_append_left _ ho)
  purged hsome := h.purged (NodeOp.removes_of_concat hr hsome)

theorem DiskAfter.append (h : DiskAfter E codec log ops n v) {es : List (Entry QueueRequest)}
    (hp : n.Permits E codec serde log (.append es)) :
    DiskAfter E codec log (ops ++ [.append es]) (n.step E codec serde (.append es))
      { v with entries := v.entries ++ es } := by
  obtain ⟨st, hst, hne, hes⟩ := hp
  rw [h.shows.getLogState] at hst
  cases hst
  obtain ⟨hacc, hview⟩ := h.append_view hne hes
  have hmem : ∀ e ∈ es, e ∈ log.entries := fun e he =>
    List.mem_of_mem_drop (hes.subset he)
  refine ⟨hview ▸ (h.shows.append hacc).2, ?_, ?_, ?_, ?_, ?_⟩
  · rw [NodeOp.saved_concat]
    exact h.saved
  · rw [NodeOp.saved_concat]
    exact h.saved_mem
  · intro e he
    exact (List.mem_append.mp he).elim (h.entries_mem e) (hmem e)
  · intro hno
    obtain ⟨hmax, hle, hentries⟩ := h.unpurged fun o ho => hno o (List.mem_append_left _ ho)
    have hnext : LogId.nextIndex v.lastLogId = NodeOp.appended ops :=
      nextIndex_of_unpurged hmax hle hentries hne hes
    rw [hnext] at hes
    have hlen := hes.length_le
    rw [List.length_drop] at hlen
    rw [NodeOp.appended_concat]
    refine ⟨hmax, by simp only; omega, ?_⟩
    show v.entries ++ es = _
    rw [List.take_add, ← List.prefix_iff_eq_take.mp hes, hentries]
  · intro hsome
    obtain ⟨hpurged, hpos⟩ := h.purged (NodeOp.removes_of_concat rfl hsome)
    refine ⟨hpurged, fun e he => ?_⟩
    rcases List.mem_append.mp he with he | he
    · exact hpos e he
    · obtain ⟨i, hi⟩ := List.mem_iff_getElem?.mp he
      rw [log.index_of_prefix_drop hes hi]
      obtain ⟨id, hid⟩ := Option.ne_none_iff_exists'.mp hpurged
      cases hl : v.entries.getLast? with
      | none => simp [LogView.lastLogId, hl, hid, LogId.nextIndex]
      | some last => simp [LogView.lastLogId, hl, LogId.nextIndex]

theorem DiskAfter.saveCommitted (h : DiskAfter E codec log ops n v) {c : Option LogId}
    (hp : n.Permits E codec serde log (.saveCommitted c)) :
    DiskAfter E codec log (ops ++ [.saveCommitted c]) (n.step E codec serde (.saveCommitted c))
      { v with committed := some c } := by
  refine ⟨(h.shows.saveCommitted c).2, ?_, ?_, h.entries_mem, ?_, ?_⟩
  · rw [NodeOp.saved_concat]
    rfl
  · rw [NodeOp.saved_concat]
    exact hp
  · intro hno
    rw [NodeOp.appended_concat]
    exact h.unpurged fun o ho => hno o (List.mem_append_left _ ho)
  · exact fun hsome => h.purged (NodeOp.removes_of_concat rfl hsome)

theorem DiskAfter.purge (h : DiskAfter E codec log ops n v) (id : LogId) :
    DiskAfter E codec log (ops ++ [.purge id]) (n.step E codec serde (.purge id))
      (v.purge id) := by
  have hsub : ∀ e ∈ (v.purge id).entries, e ∈ v.entries := fun e he =>
    (List.mem_filter.mp he).1
  refine ⟨(h.shows.purge id).2, ?_, ?_, fun e he => h.entries_mem e (hsub e he), ?_, ?_⟩
  · rw [NodeOp.saved_concat]
    exact h.saved
  · rw [NodeOp.saved_concat]
    exact h.saved_mem
  · intro hno
    have hmax : id.index = 18446744073709551615 := by
      simpa [NodeOp.removes] using hno (.purge id) (by simp)
    obtain ⟨-, hle, hentries⟩ := h.unpurged fun o ho => hno o (List.mem_append_left _ ho)
    rw [NodeOp.appended_concat]
    refine ⟨by simpa [LogView.purge] using hmax, hle, ?_⟩
    rw [← hentries, LogView.purge, hmax]
    exact List.filter_eq_self.mpr fun e _ => by simp
  · rintro ⟨o, ho, hro⟩
    refine ⟨by simp [LogView.purge], fun e he => ?_⟩
    rcases List.mem_append.mp ho with ho | ho
    · exact (h.purged ⟨o, ho, hro⟩).2 e (hsub e he)
    · rw [List.mem_singleton.mp ho] at hro
      have hmax : id.index ≠ 18446744073709551615 := by simpa [NodeOp.removes] using hro
      have hle : id.index + 1 ≤ e.logId.index := by simpa using (List.mem_filter.mp he).2
      rw [UInt64.le_iff_toNat_le, UInt64.toNat_succ hmax] at hle
      omega

theorem DiskAfter.step (h : DiskAfter E codec log ops n v) {n' : Node E} {op : NodeOp}
    (hs : Step E codec serde log n op n') : ∃ v', DiskAfter E codec log (ops ++ [op]) n' v' := by
  obtain ⟨hp, rfl⟩ := hs
  cases op with
  | append es => exact ⟨_, h.append hp⟩
  | saveCommitted c => exact ⟨_, h.saveCommitted hp⟩
  | apply es =>
    exact ⟨v, h.keep rfl (NodeOp.saved_concat _ _) (NodeOp.appended_concat _ _) rfl⟩
  | build nanos =>
    exact ⟨v, h.keep rfl (NodeOp.saved_concat _ _) (NodeOp.appended_concat _ _) rfl⟩
  | install snap =>
    exact ⟨v, h.keep rfl (NodeOp.saved_concat _ _) (NodeOp.appended_concat _ _) rfl⟩
  | purge id => exact ⟨_, h.purge id⟩

theorem diskAfter_run (h : Lts.Steps (Step E codec serde log) (Node.start E) ops n) :
    ∃ v, DiskAfter E codec log ops n v := by
  refine h.trace_invariant (P := fun ops n => ∃ v, DiskAfter E codec log ops n v) ?_
    ⟨_, DiskAfter.start⟩
  rintro ops n op n' ⟨v, hv⟩ hs
  exact hv.step hs

theorem upTo_getLast? {id : LogId} (hid : ∃ e ∈ log.entries, e.logId = id) :
    (log.committed.upTo (some id)).getLast?.map Entry.logId = some id := by
  obtain ⟨e, he, rfl⟩ := hid
  have hpos := log.mem_position he
  have hlt : e.logId.index.toNat < log.entries.length := (List.getElem?_eq_some_iff.mp hpos).1
  have hlast : log.committed.lastId (e.logId.index.toNat + 1) = some e.logId :=
    log.committed.lastId_succ _ e hpos
  rw [← hlast, log.committed.upTo_lastId _ hlt]
  rfl

theorem applied_lastApplied (es : List (Entry QueueRequest)) :
    (StateMachineStore.apply (QueueState.default, Store.new) es).1.2.lastApplied =
      es.getLast?.map Entry.logId := by
  rw [StateMachineStore.apply, Store.apply_eq_run]
  exact Store.final_lastApplied _ _ es

theorem replayed_lastApplied {id : LogId} (hid : ∃ e ∈ log.entries, e.logId = id) :
    (replayed log (some id)).2.lastApplied = some id :=
  (applied_lastApplied _).trans (upTo_getLast? hid)

theorem recover_none {s : E.State} (hc : readCommitted E codec s = .ok none) :
    recover E codec serde s = .ok (QueueState.default, Store.new) := by
  simp only [recover, hc]
  rfl

theorem recover_some {s : E.State} {id : LogId} (hc : readCommitted E codec s = .ok (some id)) :
    recover E codec serde s =
      (tryGetLogEntries E codec s ⟨.unbounded, .included id.index⟩).map fun es =>
        (StateMachineStore.apply (QueueState.default, Store.new) es).1 := by
  simp only [recover, hc]
  show (tryGetLogEntries E codec s ⟨.unbounded, .included id.index⟩ >>= fun es =>
    pure (StateMachineStore.apply (QueueState.default, Store.new) es).1) = _
  cases tryGetLogEntries E codec s ⟨.unbounded, .included id.index⟩ <;> rfl

theorem DiskAfter.read_all (h : DiskAfter E codec log ops n v) {id : LogId}
    (hno : ∀ op ∈ ops, op.removes = false) (hlt : id.index.toNat < NodeOp.appended ops)
    (hbound : NodeOp.appended ops < 2 ^ 64) :
    tryGetLogEntries E codec (E.reopen n.disk) ⟨.unbounded, .included id.index⟩ =
      .ok (log.committed.upTo (some id)) := by
  have hmax : id.index ≠ 18446744073709551615 := by
    intro heq
    rw [heq] at hlt
    simp only [UInt64.reduceToNat] at hlt
    omega
  obtain ⟨-, hle, hentries⟩ := h.unpurged hno
  rw [← log.filter_take_eq_upTo hlt hmax, ← hentries]
  refine h.shows.reopen.tryGetLogEntries_of_fetch ?_
  obtain ⟨k, hk⟩ : ∃ k, NodeOp.appended ops = k + 1 := ⟨NodeOp.appended ops - 1, by omega⟩
  have hfirst : log.entries[0]? = some log.entries[0] := List.getElem?_eq_getElem (by omega)
  have hlast : log.entries[k]? = some log.entries[k] := List.getElem?_eq_getElem (by omega)
  have hhead : v.entries.head? = some log.entries[0] := by
    rw [hentries, hk, List.head?_take, List.head?_eq_getElem?, hfirst]
    simp
  have hend : v.entries.getLast? = some log.entries[k] := by
    rw [hentries, hk, List.take_add_one, hlast, Option.toList_some, List.getLast?_concat]
  refine E.fetch_within ((h.shows.reopen.covers_iff _ _).mpr
    ⟨log.entries[0], hhead, log.entries[k], hend, ?_, ?_, fun htop => ?_⟩) ?_
  · rw [UInt64.le_iff_toNat_le]
    exact (log.position 0 _ hfirst).le
  · show (id.index + 1).toNat ≤ log.entries[k].logId.index.toNat + 1
    rw [UInt64.toNat_succ hmax, log.position k _ hlast]
    omega
  · have hpos := log.position k _ hlast
    rw [htop] at hpos
    simp only [UInt64.reduceToNat] at hpos
    omega
  · rw [UInt64.lt_iff_toNat_lt]
    show 0 < (id.index + 1).toNat
    rw [UInt64.toNat_succ hmax]
    omega

theorem DiskAfter.read_some (h : DiskAfter E codec log ops n v) {id : LogId}
    {es : List (Entry QueueRequest)}
    (hr : tryGetLogEntries E codec (E.reopen n.disk) ⟨.unbounded, .included id.index⟩ = .ok es)
    (hlast : es.getLast?.map Entry.logId = some id) :
    (∀ op ∈ ops, op.removes = false) ∧ id.index.toNat < NodeOp.appended ops ∧
      NodeOp.appended ops < 2 ^ 64 := by
  have hes := h.shows.reopen.tryGetLogEntries_ok hr
  obtain ⟨last, hl, rfl⟩ := Option.map_eq_some_iff.mp hlast
  have hmem := List.mem_of_getLast? hl
  rw [hes] at hmem
  obtain ⟨hstored, hrange⟩ := List.mem_filter.mp hmem
  have hstop : last.logId.index < last.logId.index + 1 := (of_decide_eq_true hrange).2
  have hmax : last.logId.index ≠ 18446744073709551615 := by
    intro heq
    rw [heq] at hstop
    exact absurd hstop (by decide)
  -- the engine has answered, so the interval lies within the stored entries
  obtain ⟨first, hfirst, newest, hnewest, hlow, -, htop⟩ : LogView.Covers v 0
      (last.logId.index + 1) := by
    have hwritten : (E.region (E.reopen n.disk) REGION_ID).written = true := by
      by_contra hnot
      have hnil := (E.region (E.reopen n.disk) REGION_ID).unwritten (by simpa using hnot)
      rw [h.shows.reopen.entries, List.map_eq_nil_iff] at hnil
      rw [hnil] at hstored
      cases hstored
    have hanswer := (fetch_iff h.shows.reopen 0 (last.logId.index + 1)).mp
      (fetch_of_read hr) hwritten
    rwa [if_pos (UInt64.lt_iff_toNat_lt.mpr
      (by rw [UInt64.toNat_succ hmax]; exact Nat.succ_pos _))] at hanswer
  have hno : ∀ op ∈ ops, op.removes = false := by
    by_contra hsome
    have hpos := (h.purged (by simpa using hsome)).2 first (List.mem_of_head? hfirst)
    have hzero := UInt64.le_iff_toNat_le.mp hlow
    simp only [UInt64.reduceToNat] at hzero
    omega
  obtain ⟨-, hle, hentries⟩ := h.unpurged hno
  refine ⟨hno, ?_, ?_⟩
  · rw [hentries] at hstored
    obtain ⟨i, hi⟩ := List.mem_iff_getElem?.mp hstored
    rw [List.getElem?_take] at hi
    split at hi
    · rename_i hlt
      rw [log.position i _ hi]
      exact hlt
    · cases hi
  · by_contra hmany
    -- the newest of 2 ^ 64 entries would have the last index
    have hnew : log.entries[NodeOp.appended ops - 1]? = some newest := by
      rw [← hnewest, hentries, List.getLast?_eq_getElem?, List.length_take, Nat.min_eq_left hle]
      exact (List.getElem?_take_of_lt (by omega)).symm
    have hindex := log.position _ _ hnew
    have hlen : log.entries.length ≤ 2 ^ 64 := log.committed.length_le
    refine htop (UInt64.toNat_inj.mp ?_)
    simp only [UInt64.reduceToNat]
    omega

variable (E codec serde log)

theorem recovers_iff {ops : List NodeOp} {n : Node E}
    (h : Lts.Steps (Step E codec serde log) (Node.start E) ops n) :
    n.Recovers E codec serde log ↔ NodeOp.Replayable ops := by
  obtain ⟨v, hv⟩ := diskAfter_run h
  have hc : readCommitted E codec (E.reopen n.disk) = .ok (NodeOp.saved ops) := by
    rw [hv.shows.reopen.readCommitted, hv.saved]
  constructor
  · rintro ⟨c, w, hc', hw, -, -, hlast⟩ id hid
    rw [hc] at hc'
    cases hc'
    have hid' : NodeOp.saved ops = some id := hid
    rw [hid'] at hc hlast
    rw [recover_some hc] at hw
    cases hr : tryGetLogEntries E codec (E.reopen n.disk) ⟨.unbounded, .included id.index⟩ with
    | error err =>
      rw [hr] at hw
      cases hw
    | ok es =>
      rw [hr] at hw
      cases hw
      refine hv.read_some hr ?_
      rw [replayed_lastApplied (hv.saved_mem id hid)] at hlast
      exact (applied_lastApplied es).symm.trans hlast
  · intro hok
    cases hid : NodeOp.saved ops with
    | none =>
      rw [hid] at hc
      exact ⟨none, _, hc, recover_none hc, rfl, rfl, rfl⟩
    | some id =>
      rw [hid] at hc
      obtain ⟨hno, hlt, hbound⟩ := hok id hid
      refine ⟨some id, replayed log (some id), hc, ?_, rfl, rfl, rfl⟩
      rw [recover_some hc, hv.read_all hno hlt hbound]
      rfl

theorem steps_single (e : Entry QueueRequest) (h : e.logId.index = 0) :
    Lts.Steps (Step E codec serde (GroupLog.single e h)) (Node.start E)
      [.append [e], .saveCommitted (some e.logId), .apply [e], .build 1]
      ([.append [e], .saveCommitted (some e.logId), .apply [e], .build 1].foldl
        (Node.step E codec serde) (Node.start E)) := by
  refine .cons ⟨⟨_, Shows.openEmpty.getLogState, List.cons_ne_nil _ _, List.prefix_rfl⟩, rfl⟩
    (.cons ⟨?_, rfl⟩ (.cons ⟨List.prefix_rfl, rfl⟩ (.single ⟨trivial, rfl⟩)))
  rintro id ⟨⟩
  exact ⟨e, List.mem_singleton_self e, rfl⟩

theorem restart_loses_purged_message :
    let codec := LogCodec.json Json.queueRequest
    let serde := Json.serde Json.snapshotPayload
    let e : Entry QueueRequest := ⟨⟨⟨1, 1⟩, 0⟩, .normal (.publish "spam" [7])⟩
    ∃ (log : GroupLog QueueRequest) (n : Node memEngine), log.entries = [e] ∧
      Lts.Steps (Step memEngine codec serde log) (Node.start memEngine)
        [.append [e], .saveCommitted (some e.logId), .apply [e], .build 1, .purge e.logId] n ∧
      n.cell.queues["spam"]? = some [(0, [7])] ∧
      recover memEngine codec serde (memEngine.reopen n.disk) =
        .error (.engine .entryNotFound) ∧
      ¬ n.Recovers memEngine codec serde log := by
  intro codec serde e
  have hrec : recover memEngine codec serde (memEngine.reopen
      ([.append [e], .saveCommitted (some e.logId), .apply [e], .build 1, .purge e.logId].foldl
        (Node.step memEngine codec serde) (Node.start memEngine)).disk) =
      .error (.engine .entryNotFound) := by decide +kernel
  refine ⟨GroupLog.single e rfl, _, rfl,
    .snoc (steps_single memEngine codec serde e rfl) ⟨⟨⟨e, List.mem_singleton_self e, rfl⟩,
      _, List.mem_cons_self, e.logId, rfl, UInt64.le_refl _⟩, rfl⟩, by decide +kernel, hrec, ?_⟩
  rintro ⟨c, w, -, hw, -⟩
  cases hrec.symm.trans hw

theorem recovers_iff_unpurged :
    let codec := LogCodec.json Json.queueRequest
    let serde := Json.serde Json.snapshotPayload
    let e : Entry QueueRequest := ⟨⟨⟨1, 1⟩, 0⟩, .normal (.publish "spam" [7])⟩
    ∃ (log : GroupLog QueueRequest) (n : Node memEngine), log.entries = [e] ∧
      Lts.Steps (Step memEngine codec serde log) (Node.start memEngine)
        [.append [e], .saveCommitted (some e.logId), .apply [e], .build 1] n ∧
      n.Recovers memEngine codec serde log := by
  intro codec serde e
  have h := steps_single memEngine codec serde e rfl
  refine ⟨GroupLog.single e rfl, _, rfl, h,
    (recovers_iff memEngine codec serde (GroupLog.single e rfl) h).mpr ?_⟩
  rintro id ⟨⟩
  exact ⟨by simp [NodeOp.removes], by decide, by decide⟩

end Node
end BlunMq
