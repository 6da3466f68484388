import BlunMq.Lib.MapTotal
import BlunMq.Raft.StateMachine

/-!
# The offset counters stay behind the log

Every publish moves one counter by one, and it is an entry of its own. A counter could
only go round if all `2^64` log indices held publishes to its queue. Then its queue would
hold `2^64` messages, which is more than the length of a `VecDeque` counts.
-/

namespace BlunMq
namespace QueueState

def offsetTotal (s : QueueState) : ℕ := MapTotal.total UInt64.toNat s.nextOffset

def queuedTotal (s : QueueState) : ℕ := MapTotal.total List.length s.queues

/-- The number of queued messages as `depths` reports it. -/
def depthTotal (s : QueueState) : ℕ := MapTotal.total UInt64.toNat s.depths

/-- The length of a `VecDeque` is a `usize`. -/
def Fits (s : QueueState) : Prop := ∀ q, (s.queues.getD q []).length < 2 ^ 64

theorem depthTotal_eq (s : QueueState) :
    s.depthTotal = MapTotal.total (fun l => l.length % 2 ^ 64) s.queues := by
  rw [depthTotal, depths, MapTotal.total_map]
  simp only [UInt64.toNat_ofNat']

theorem offsetTotal_publish (s : QueueState) (queue : String) (payload : Bytes) :
    (s.apply (.publish queue payload)).1.offsetTotal + (s.nextOffset.getD queue 0).toNat =
      s.offsetTotal + (s.nextOffset.getD queue 0 + 1).toNat :=
  MapTotal.total_insert UInt64.toNat s.nextOffset queue _ rfl

theorem queuedTotal_publish (s : QueueState) (queue : String) (payload : Bytes) :
    (s.apply (.publish queue payload)).1.queuedTotal = s.queuedTotal + 1 := by
  have h := MapTotal.total_insert List.length s.queues queue
    (s.queues.getD queue [] ++ [(s.nextOffset.getD queue 0, payload)]) (d := []) rfl
  rw [List.length_append, List.length_singleton] at h
  change (s.apply (.publish queue payload)).1.queuedTotal + _ = s.queuedTotal + _ at h
  omega

theorem offsetTotal_pop (s : QueueState) (queue : String) :
    (s.apply (.pop queue)).1.offsetTotal = s.offsetTotal := by
  cases h : s.queues.getD queue [] with
  | nil => rw [apply_pop_nil h]
  | cons front rest => rw [apply_pop_cons h]; rfl

theorem queuedTotal_pop_le (s : QueueState) (queue : String) :
    (s.apply (.pop queue)).1.queuedTotal ≤ s.queuedTotal := by
  cases h : s.queues.getD queue [] with
  | nil => rw [apply_pop_nil h]
  | cons front rest =>
    have ht := MapTotal.total_insert List.length s.queues queue rest (d := []) rfl
    rw [h, List.length_cons] at ht
    rw [apply_pop_cons h]
    change MapTotal.total List.length (s.queues.insert queue rest) ≤
      MapTotal.total List.length s.queues
    omega

theorem offsetTotal_apply_le (s : QueueState) (r : QueueRequest) :
    (s.apply r).1.offsetTotal ≤ s.offsetTotal + 1 := by
  cases r with
  | publish queue payload =>
    have h := offsetTotal_publish s queue payload
    have hadd := UInt64.toNat_add (s.nextOffset.getD queue 0) 1
    have hmod := Nat.mod_le ((s.nextOffset.getD queue 0).toNat + (1 : UInt64).toNat) (2 ^ 64)
    rw [UInt64.toNat_one] at hadd hmod
    omega
  | pop queue =>
    rw [offsetTotal_pop]
    exact Nat.le_succ _

theorem offsetTotal_le_length (reqs : List QueueRequest) :
    (finalState reqs).offsetTotal ≤ reqs.length := by
  induction reqs using List.reverseRecOn with
  | nil => exact le_rfl
  | append_singleton reqs r ih =>
    have h := offsetTotal_apply_le (finalState reqs) r
    rw [finalState, Mealy.final_concat, List.length_append, List.length_singleton]
    change ((finalState reqs).apply r).1.offsetTotal ≤ _
    omega

theorem nextOffset_toNat {reqs : List QueueRequest} {q : String}
    (h : (publishedTo q reqs).length < 2 ^ 64) :
    ((finalState reqs).nextOffset.getD q 0).toNat = (publishedTo q reqs).length := by
  rw [(finalState_represents reqs).getD_nextOffset, bankOf_pushed, UInt64.toNat_ofNat_of_lt' h]

theorem queuedTotal_le_offsetTotal {reqs : List QueueRequest}
    (h : ∀ q, (publishedTo q reqs).length < 2 ^ 64) :
    (finalState reqs).queuedTotal ≤ (finalState reqs).offsetTotal := by
  induction reqs using List.reverseRecOn with
  | nil => exact le_rfl
  | append_singleton reqs r ih =>
    have hlonger : ∀ q, (publishedTo q reqs).length ≤ (publishedTo q (reqs ++ [r])).length :=
      fun q => ((List.sublist_append_left reqs [r]).filterMap _).length_le
    have ih := ih fun q => (hlonger q).trans_lt (h q)
    rw [finalState, Mealy.final_concat]
    change ((finalState reqs).apply r).1.queuedTotal ≤ ((finalState reqs).apply r).1.offsetTotal
    cases r with
    | publish queue payload =>
      have hlen := h queue
      have hpub : publishedTo queue (reqs ++ [.publish queue payload]) =
          publishedTo queue reqs ++ [payload] := by simp [publishedTo]
      rw [hpub, List.length_append, List.length_singleton] at hlen
      have hnext : ((finalState reqs).nextOffset.getD queue 0).toNat =
          (publishedTo queue reqs).length := nextOffset_toNat (by omega)
      have hsucc : ((finalState reqs).nextOffset.getD queue 0 + 1).toNat =
          ((finalState reqs).nextOffset.getD queue 0).toNat + 1 := by
        rw [UInt64.toNat_add, UInt64.toNat_one, hnext, Nat.mod_eq_of_lt hlen]
      have ho := offsetTotal_publish (finalState reqs) queue payload
      rw [queuedTotal_publish]
      omega
    | pop queue =>
      rw [offsetTotal_pop]
      exact (queuedTotal_pop_le _ _).trans ih

theorem queues_of_publishes {q : String} {reqs : List QueueRequest}
    (h : ∀ r ∈ reqs, ∃ payload, r = .publish q payload) :
    ((finalState reqs).queues.getD q []).length = reqs.length ∧
      ∀ q', q' ≠ q → (finalState reqs).queues[q']? = none := by
  induction reqs using List.reverseRecOn with
  | nil => exact ⟨rfl, fun q' _ => Std.ExtTreeMap.getElem?_empty⟩
  | append_singleton reqs r ih =>
    obtain ⟨hlen, hnone⟩ := ih fun r hr => h r (List.mem_append_left [_] hr)
    obtain ⟨payload, rfl⟩ := h r (by simp)
    rw [finalState, Mealy.final_concat]
    change (((finalState reqs).apply _).1.queues.getD q []).length = _ ∧
      ∀ q', q' ≠ q → ((finalState reqs).apply _).1.queues[q']? = none
    simp only [apply, Map.getElem?_insert, Std.ExtTreeMap.getD_insert_self, List.length_append,
      List.length_singleton]
    refine ⟨by rw [hlen], fun q' hq => ?_⟩
    rw [if_neg (Ne.symm hq), hnone q' hq]

theorem all_publishes {q : String} {reqs : List QueueRequest} (hlen : reqs.length ≤ 2 ^ 64)
    (h : 2 ^ 64 ≤ (publishedTo q reqs).length) :
    reqs.length = 2 ^ 64 ∧ ∀ r ∈ reqs, ∃ payload, r = .publish q payload := by
  have hle : (publishedTo q reqs).length ≤ reqs.length := List.length_filterMap_le _ _
  have heq : (publishedTo q reqs).length = reqs.length := by omega
  refine ⟨by omega, fun r hr => ?_⟩
  have hsome := List.filterMap_length_eq_length.mp heq r hr
  cases r with
  | publish queue payload =>
    by_cases hq : queue = q
    · exact ⟨payload, by rw [hq]⟩
    · simp [hq] at hsome
  | pop queue => cases hsome

theorem queuedTotal_le_of_fits {reqs : List QueueRequest} (hlen : reqs.length ≤ 2 ^ 64)
    (hfits : (finalState reqs).Fits) :
    (finalState reqs).queuedTotal ≤ (finalState reqs).offsetTotal := by
  refine queuedTotal_le_offsetTotal fun q => ?_
  by_contra hfull
  obtain ⟨hall, hpub⟩ := all_publishes hlen (Nat.le_of_not_lt hfull)
  have hq := hfits q
  rw [(queues_of_publishes hpub).1] at hq
  omega

theorem depthTotal_le_queuedTotal (s : QueueState) : s.depthTotal ≤ s.queuedTotal := by
  rw [depthTotal_eq]
  exact MapTotal.total_mono fun l => Nat.mod_le _ _

theorem depthTotal_le_offsetTotal {reqs : List QueueRequest} (hlen : reqs.length ≤ 2 ^ 64) :
    (finalState reqs).depthTotal ≤ (finalState reqs).offsetTotal := by
  by_cases hsmall : ∀ q, (publishedTo q reqs).length < 2 ^ 64
  · exact (depthTotal_le_queuedTotal _).trans (queuedTotal_le_offsetTotal hsmall)
  · obtain ⟨q, hq⟩ := not_forall.mp hsmall
    obtain ⟨hall, hpub⟩ := all_publishes hlen (Nat.le_of_not_lt hq)
    obtain ⟨hqueue, hnone⟩ := queues_of_publishes hpub
    have hzero : (finalState reqs).depthTotal = 0 := by
      rw [depthTotal_eq]
      refine MapTotal.total_eq_zero fun q' l hl => ?_
      by_cases hq' : q' = q
      · rw [Std.ExtTreeMap.getD_eq_getD_getElem?, ← hq', hl, Option.getD_some] at hqueue
        rw [hqueue, hall, Nat.mod_self]
      · rw [hnone q' hq'] at hl
        cases hl
    omega

end QueueState

namespace StateMachineStore

def InOrder (store : Store) (es : List (Entry QueueRequest)) : Prop :=
  (store.lastApplied.toList ++ es.map Entry.logId).Pairwise fun a b => a.index < b.index

/-- A snapshot is installed as another store of this kind built it. -/
inductive Reachable (serde : SerdeJson SnapshotPayload) : QueueState × Store → Prop
  | start : Reachable serde (QueueState.default, Store.new)
  | apply {w : QueueState × Store} (es : List (Entry QueueRequest)) (h : Reachable serde w)
      (hes : InOrder w.2 es) : Reachable serde (apply w es).1
  | install {w source : QueueState × Store} (nanos : ℕ) (h : Reachable serde w)
      (hs : Reachable serde source) :
      Reachable serde (installSnapshot serde w
        (buildSnapshot serde source.1 nanos source.2.getSnapshotBuilder).2.info
        (buildSnapshot serde source.1 nanos source.2.getSnapshotBuilder).2.data).1

def indicesUsed (store : Store) : ℕ := store.lastApplied.elim 0 fun id => id.index.toNat + 1

theorem apply_lastApplied (w : QueueState × Store) (es : List (Entry QueueRequest)) :
    (apply w es).1.2.lastApplied = (es.getLast?.map Entry.logId).or w.2.lastApplied := by
  rw [apply, Store.apply_eq_run]
  change (Mealy.final (Store.applyEntry machine) w es).2.lastApplied = _
  induction es using List.reverseRecOn with
  | nil => rfl
  | append_singleton es e _ => simp [Mealy.final_concat]

theorem apply_cell (w : QueueState × Store) (es : List (Entry QueueRequest)) :
    (apply w es).1.1 = Mealy.final QueueState.apply w.1 (requests es) := by
  rw [apply, Store.apply_eq_run]
  exact final_cell w es

namespace InOrder
variable {store : Store} {es : List (Entry QueueRequest)}

theorem take (h : InOrder store es) (i : ℕ) : InOrder store (es.take i) := by
  refine h.sublist (List.Sublist.append_left ?_ _)
  exact (List.take_sublist i es).map _

theorem last_lt {w : QueueState × Store} (h : InOrder w.2 es) {i : ℕ} {e : Entry QueueRequest}
    (he : es[i]? = some e) {id : LogId}
    (hid : (StateMachineStore.apply w (es.take i)).1.2.lastApplied = some id) :
    id.index < e.logId.index := by
  have hmem : id ∈ w.2.lastApplied.toList ++ (es.take i).map Entry.logId := by
    rw [apply_lastApplied, Option.or_eq_some_iff, Option.map_eq_some_iff] at hid
    rcases hid with ⟨a, ha, rfl⟩ | ⟨-, hw⟩
    · exact List.mem_append_right _ (List.mem_map_of_mem (List.mem_of_getLast? ha))
    · rw [hw]
      exact List.mem_append_left _ (by simp)
  have hnext : InOrder w.2 (es.take (i + 1)) := h.take (i + 1)
  rw [InOrder, List.take_add_one, he, Option.toList_some, List.map_append,
    ← List.append_assoc] at hnext
  exact (List.pairwise_append.mp hnext).2.2 id hmem e.logId (by simp)

end InOrder

theorem Reachable.history {serde : SerdeJson SnapshotPayload} {w : QueueState × Store}
    (h : Reachable serde w) :
    ∃ log : CommittedLog QueueRequest, w.1 = QueueState.finalState (requests log.entries) ∧
      w.2.lastApplied = log.entries.getLast?.map Entry.logId := by
  induction h with
  | start => exact ⟨⟨[], List.Pairwise.nil⟩, rfl, rfl⟩
  | @apply w es _ hes ih =>
    obtain ⟨log, hcell, hlast⟩ := ih
    obtain ⟨-, hincreasing, hafter⟩ := List.pairwise_append.mp hes
    have hcross : ∀ a ∈ log.entries, ∀ b ∈ es, a.logId.index < b.logId.index := by
      intro a ha b hb
      rcases List.eq_nil_or_concat' log.entries with hnil | ⟨before, l, hbefore⟩
      · rw [hnil] at ha
        cases ha
      · have hlb : l.logId.index < b.logId.index := by
          refine hafter l.logId ?_ b.logId (List.mem_map_of_mem hb)
          rw [hlast, hbefore, List.getLast?_concat]
          exact List.mem_singleton.mpr rfl
        have hinc := log.increasing
        rw [hbefore] at ha hinc
        rcases List.mem_append.mp ha with ha | ha
        · exact UInt64.lt_trans ((List.pairwise_append.mp hinc).2.2 a ha l (by simp)) hlb
        · rw [List.mem_singleton.mp ha]
          exact hlb
    refine ⟨⟨log.entries ++ es, ?_⟩, ?_, ?_⟩
    · rw [List.pairwise_map] at hincreasing
      exact List.pairwise_append.mpr ⟨log.increasing, hincreasing, hcross⟩
    · have happ : requests (log.entries ++ es) = requests log.entries ++ requests es :=
        List.filterMap_append
      rw [apply_cell, hcell, happ, QueueState.finalState, QueueState.finalState,
        Mealy.final_append]
    · rw [apply_lastApplied, hlast, List.getLast?_append]
      cases es.getLast? <;> rfl
  | @install w source nanos _ _ _ ihs =>
    obtain ⟨log, hcell, hlast⟩ := ihs
    rw [installSnapshot, buildSnapshot, Store.installSnapshot_built]
    exact ⟨log, hcell, hlast⟩

theorem length_le_indicesUsed {store : Store} {log : CommittedLog QueueRequest}
    (h : store.lastApplied = log.entries.getLast?.map Entry.logId) :
    (requests log.entries).length ≤ indicesUsed store := by
  have hreq : (requests log.entries).length ≤ log.entries.length := List.length_filterMap_le _ _
  rw [indicesUsed, h]
  cases hl : log.entries.getLast? with
  | none =>
    rw [List.getLast?_eq_none_iff] at hl
    rw [hl]
    exact Nat.zero_le _
  | some e =>
    have he : log.entries[log.entries.length - 1]? = some e := by
      rw [← List.getLast?_eq_getElem?, hl]
    have hpos := log.position_le_index he
    change _ ≤ e.logId.index.toNat + 1
    omega

theorem IsReplica.reachable {serde : SerdeJson SnapshotPayload} {log : CommittedLog QueueRequest}
    {w : QueueState × Store} (h : IsReplica serde log w) : Reachable serde w := by
  induction h with
  | start => exact .start
  | @apply w es hw hes ih =>
    refine .apply es ih ?_
    obtain ⟨n, hn⟩ := hw.atPosition
    rw [hn.lastApplied, log.upTo_lastId n hn.le] at hes
    have hinc := log.increasing.sublist hes.sublist
    obtain ⟨-, hes', hcross⟩ := List.pairwise_append.mp hinc
    refine List.pairwise_append.mpr ⟨?_, List.pairwise_map.mpr hes', ?_⟩
    · cases w.2.lastApplied with
      | none => exact List.Pairwise.nil
      | some id => exact List.pairwise_singleton _ _
    · intro id hid b hb
      obtain ⟨e, he, rfl⟩ := List.mem_map.mp hb
      rw [hn.lastApplied, CommittedLog.lastId, Option.mem_toList, Option.map_eq_some_iff] at hid
      obtain ⟨a, ha, rfl⟩ := hid
      exact hcross a (List.mem_of_getLast? ha) e he
  | install nanos _ _ ih ihs => exact .install nanos ih ihs

theorem offsetTotal_le_indicesUsed {serde : SerdeJson SnapshotPayload} {w : QueueState × Store}
    (h : Reachable serde w) : w.1.offsetTotal ≤ indicesUsed w.2 := by
  obtain ⟨log, hcell, hlast⟩ := h.history
  rw [hcell]
  exact (QueueState.offsetTotal_le_length _).trans (length_le_indicesUsed hlast)

theorem indicesUsed_take_le {w : QueueState × Store} {es : List (Entry QueueRequest)}
    (hes : InOrder w.2 es) {i : ℕ} {e : Entry QueueRequest} (he : es[i]? = some e) :
    indicesUsed (apply w (es.take i)).1.2 ≤ e.logId.index.toNat := by
  rw [indicesUsed]
  cases hid : (apply w (es.take i)).1.2.lastApplied with
  | none => exact Nat.zero_le _
  | some id =>
    have hlt := hes.last_lt he hid
    rw [UInt64.lt_iff_toNat_lt] at hlt
    exact hlt

theorem offset_counters_bounded (serde : SerdeJson SnapshotPayload) {w : QueueState × Store}
    (h : Reachable serde w) :
    w.1.offsetTotal ≤ indicesUsed w.2 ∧
      w.1.depthTotal ≤ w.1.offsetTotal ∧
      (w.1.Fits ∨ indicesUsed w.2 < 2 ^ 64 → w.1.queuedTotal ≤ w.1.offsetTotal) ∧
      ∀ es : List (Entry QueueRequest), InOrder w.2 es →
        ∀ (i : ℕ) (e : Entry QueueRequest) (queue : String) (payload : Bytes),
          es[i]? = some e → e.payload = .normal (.publish queue payload) →
          e.logId.index.toNat < 2 ^ 64 - 1 →
          let before := (apply w (es.take i)).1.1
          (before.nextOffset.getD queue 0 + 1).toNat =
            (before.nextOffset.getD queue 0).toNat + 1 := by
  obtain ⟨log, hcell, hlast⟩ := h.history
  have hlen := length_le_indicesUsed hlast
  have hall : (requests log.entries).length ≤ 2 ^ 64 :=
    (List.length_filterMap_le _ _).trans log.length_le
  refine ⟨offsetTotal_le_indicesUsed h, ?_, ?_, ?_⟩
  · rw [hcell]
    exact QueueState.depthTotal_le_offsetTotal hall
  · rw [hcell]
    rintro (hfits | hused)
    · exact QueueState.queuedTotal_le_of_fits hall hfits
    · refine QueueState.queuedTotal_le_offsetTotal fun q => ?_
      have hq : (QueueState.publishedTo q (requests log.entries)).length ≤ _ :=
        List.length_filterMap_le _ _
      omega
  · intro es hes i e queue payload he _ hindex before
    have hbefore : before.offsetTotal ≤ e.logId.index.toNat :=
      (offsetTotal_le_indicesUsed (h.apply (es.take i) (hes.take i))).trans
        (indicesUsed_take_le hes he)
    have hqueue : (before.nextOffset.getD queue 0).toNat ≤ before.offsetTotal :=
      MapTotal.le_total (d := 0) rfl
    rw [UInt64.toNat_add, UInt64.toNat_one, Nat.mod_eq_of_lt (by omega)]

theorem offset_counters_bounded_after_install :
    let serde := Json.serde Json.snapshotPayload
    let es : List (Entry QueueRequest) :=
      [⟨⟨⟨1, 1⟩, 3⟩, .normal (.publish "spam" [7])⟩,
        ⟨⟨⟨1, 1⟩, 5⟩, .normal (.publish "ham" [])⟩]
    let source := (apply (QueueState.default, Store.new) es).1
    let snap := (buildSnapshot serde source.1 1 source.2.getSnapshotBuilder).2
    let w := (installSnapshot serde (QueueState.default, Store.new) snap.info snap.data).1
    let next : List (Entry QueueRequest) :=
      [⟨⟨⟨2, 2⟩, 6⟩, .normal (.publish "ham" [1])⟩, ⟨⟨⟨2, 2⟩, 9⟩, .normal (.publish "spam" [8])⟩]
    let before := (apply w (next.take 1)).1.1
    Reachable serde w ∧ w.1.offsetTotal ≤ indicesUsed w.2 ∧
      before.nextOffset.getD "spam" 0 = 1 ∧
      (before.nextOffset.getD "spam" 0 + 1).toNat =
        (before.nextOffset.getD "spam" 0).toNat + 1 := by
  intro serde es source snap w next before
  have hsource : Reachable serde source := .apply es .start (by simp [InOrder, es, Store.new])
  have hw : Reachable serde w := .install 1 .start hsource
  have hlast : w.2.lastApplied = some ⟨⟨1, 1⟩, 5⟩ := by decide +kernel
  obtain ⟨htotal, -, -, hincrement⟩ := offset_counters_bounded serde hw
  refine ⟨hw, htotal, by decide +kernel, hincrement next ?_ 1 _ "spam" [8] rfl rfl (by decide)⟩
  rw [InOrder, hlast]
  decide

end StateMachineStore
end BlunMq
