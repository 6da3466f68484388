import BlunMq.Raft.Json
import BlunMq.Raft.QueueState
import BlunMq.Raft.Replica

/-!
# The queue group's state-machine store

`StateMachineStore` is the common store over `QueueState`. The snapshot payload
turns `Bytes` into `Vec<u8>` entry by entry and keeps both maps, so a replica
that starts from another one's snapshot continues with the same offsets.
-/

namespace BlunMq

namespace StateMachineStore

def save (state : QueueState) : SnapshotPayload where
  queues := state.queues.map fun _ v => v.map fun x => (x.1, x.2)
  nextOffset := state.nextOffset

def load (payload : SnapshotPayload) : QueueState where
  queues := payload.queues.map fun _ v => v.map fun x => (x.1, x.2)
  nextOffset := payload.nextOffset

theorem load_save (s : QueueState) : load (save s) = s := by
  apply QueueState.ext_lookup
  · intro q
    simp [load, save]
  · intro q
    rfl

def machine : Machine QueueState QueueRequest QueueResponse SnapshotPayload where
  apply := QueueState.apply
  noCommand := QueueResponse.default
  save := save
  load := load
  load_save := load_save

def apply (w : QueueState × Store) (entries : List (Entry QueueRequest)) :
    (QueueState × Store) × List QueueResponse :=
  Store.apply machine w entries

def buildSnapshot (serde : SerdeJson SnapshotPayload) (cell : QueueState) (nanos : ℕ)
    (self : Store) : Store × Snapshot :=
  Store.buildSnapshot machine serde cell nanos self

def installSnapshot (serde : SerdeJson SnapshotPayload) (w : QueueState × Store)
    (info : SnapshotMeta) (data : Bytes) : (QueueState × Store) × Outcome Unit Unit :=
  Store.installSnapshot machine serde w info data

def requests (es : List (Entry QueueRequest)) : List QueueRequest :=
  es.filterMap fun e =>
    match e.payload with
    | .normal req => some req
    | _ => none

/-- The queue state that applying `es` once each, from the first, results in. -/
def stateAfter (es : List (Entry QueueRequest)) : QueueState :=
  (apply (QueueState.default, Store.new) es).1.1

theorem final_cell (w : QueueState × Store) (es : List (Entry QueueRequest)) :
    (Mealy.final (Store.applyEntry machine) w es).1 =
      Mealy.final QueueState.apply w.1 (requests es) := by
  induction es generalizing w with
  | nil => rfl
  | cons e es ih =>
    rw [Mealy.final_cons, ih, Store.applyEntry]
    cases hp : e.payload <;> simp [requests, hp, machine]

theorem stateAfter_eq (es : List (Entry QueueRequest)) :
    stateAfter es = QueueState.finalState (requests es) := by
  rw [stateAfter, apply, Store.apply_eq_run]
  exact final_cell _ es

theorem replay_cell (log : CommittedLog QueueRequest) (n : ℕ) :
    (log.replay machine QueueState.default n).1 = stateAfter (log.entries.take n) := by
  rw [stateAfter, apply, Store.apply_eq_run]
  rfl

theorem publishedTo_requests_le (log : CommittedLog QueueRequest) (n : ℕ) (q : String) :
    (QueueState.publishedTo q (requests (log.entries.take n))).length ≤ 2 ^ 64 := by
  calc
    _ ≤ (requests (log.entries.take n)).length := List.length_filterMap_le _ _
    _ ≤ (log.entries.take n).length := List.length_filterMap_le _ _
    _ ≤ log.entries.length := List.length_take_le' _ _
    _ ≤ 2 ^ 64 := log.length_le

theorem take_split (log : CommittedLog QueueRequest) {i n : ℕ} (h : i ≤ n) :
    requests (log.entries.take n) =
      requests (log.entries.take i) ++ requests ((log.entries.take n).drop i) := by
  rw [requests, requests, requests, ← List.filterMap_append, ← log.take_eq_append h]

def IsReplica (serde : SerdeJson SnapshotPayload) (log : CommittedLog QueueRequest)
    (w : QueueState × Store) : Prop :=
  Replica machine serde QueueState.default log w

def applyBatches : QueueState × Store → List (List (Entry QueueRequest)) →
    (QueueState × Store) × List QueueResponse
  | w, [] => (w, [])
  | w, b :: bs =>
    let first := apply w b
    let rest := applyBatches first.1 bs
    (rest.1, first.2 ++ rest.2)

theorem applyBatches_eq_run (w : QueueState × Store) (bs : List (List (Entry QueueRequest))) :
    applyBatches w bs = Mealy.run (Store.applyEntry machine) w bs.flatten := by
  rw [← Mealy.batches_eq_run]
  induction bs generalizing w with
  | nil => rfl
  | cons b bs ih =>
    simp only [applyBatches, apply, Store.apply_eq_run, ih]
    rfl

theorem replicas_agree (serde : SerdeJson SnapshotPayload) (log : CommittedLog QueueRequest)
    {r r' : QueueState × Store} (h : IsReplica serde log r) (h' : IsReplica serde log r')
    (hid : r.2.lastApplied = r'.2.lastApplied) :
    r.1 = r'.1 ∧ r.2.lastMembership = r'.2.lastMembership ∧
      ∀ bs bs' : List (List (Entry QueueRequest)), bs.flatten = bs'.flatten →
        (applyBatches r bs).2 = (applyBatches r' bs').2 ∧
        (applyBatches r bs).2.length = bs.flatten.length ∧
        ∀ (j : ℕ) (e : Entry QueueRequest), bs.flatten[j]? = some e →
          (applyBatches r bs).2[j]? =
            some (Store.applyEntry machine (apply r (bs.flatten.take j)).1 e).2 := by
  obtain ⟨n, hn⟩ := h.atPosition
  obtain ⟨i, hi⟩ := h'.atPosition
  obtain ⟨-, hc, hm⟩ := hn.unique hi hid
  refine ⟨hc, hm, fun bs bs' hbs => ?_⟩
  simp only [applyBatches_eq_run, ← hbs]
  refine ⟨(Store.run_congr machine bs.flatten hc hm).2,
    Mealy.length_outputs (Store.applyEntry machine) r bs.flatten, fun j e he => ?_⟩
  have ho := Mealy.outputs_getElem? (Store.applyEntry machine) r bs.flatten j
  rw [he] at ho
  rw [apply, Store.apply_eq_run]
  exact ho

theorem replicas_agree_after_install :
    let serde := Json.serde Json.snapshotPayload
    let log := CommittedLog.single ⟨⟨⟨1, 1⟩, 0⟩, .normal (.publish "spam" [7])⟩
    let r := (apply (QueueState.default, Store.new) log.entries).1
    let snap := (buildSnapshot serde r.1 1 r.2.getSnapshotBuilder).2
    let r' := (installSnapshot serde (QueueState.default, Store.new) snap.info snap.data).1
    let pop : Entry QueueRequest := ⟨⟨⟨1, 1⟩, 1⟩, .normal (.pop "spam")⟩
    IsReplica serde log r ∧ IsReplica serde log r' ∧ r.1 = r'.1 ∧
      (applyBatches r [[pop]]).2 = (applyBatches r' [[], [pop]]).2 := by
  intro serde log r snap r' pop
  have hr : IsReplica serde log r := .apply log.entries .start List.prefix_rfl
  have hr' : IsReplica serde log r' := .install 1 .start hr
  have h := replicas_agree serde log hr hr' (by
    simp only [r', snap, installSnapshot, buildSnapshot, Store.installSnapshot_built]
    rfl)
  exact ⟨hr, hr', h.1, (h.2.2 _ _ rfl).1⟩

end StateMachineStore
end BlunMq
