import BlunMq.Host.RaftRpc
import BlunMq.Raft.NodeStateMachine
import BlunMq.Raft.StateMachine

/-!
# Bytes from a peer

A node reads JSON that a peer wrote in eight places: the answers to its own three Raft
calls, the payloads of the three calls it serves, and the snapshots its two state machines
install. The service turns a decoding error into a `Status`. The other five places
`expect` the bytes to decode.
-/

namespace BlunMq

def Outcome.ending {ε α : Type} : Outcome ε α → Outcome Unit Unit
  | .ok _ => .ok ()
  | .err _ => .err ()
  | .panic message => .panic message

def Outcome.ofExcept {ε α : Type} : Except ε α → Outcome ε α
  | .ok a => .ok a
  | .error e => .err e

/-- What a node decodes with. -/
structure PeerBytes where
  impl : RaftRpcImpl
  queuePayload : SerdeJson SnapshotPayload
  nodePayload : SerdeJson (Map UInt64 String)

inductive Received
  | nodesResponse (m : Rpc) (rpc : m.Request NodeCommand) (answer : RaftEnvelope)
  | spamResponse (m : Rpc) (rpc : m.Request QueueRequest) (answer : RaftEnvelope)
  | request (m : Rpc) (envelope : RaftEnvelope)
  | queueSnapshot (info : SnapshotMeta) (data : Bytes)
  | nodeSnapshot (info : SnapshotMeta) (data : Bytes)

def Received.isRequest : Received → Bool
  | request _ _ => true
  | _ => false

namespace PeerBytes
variable (sites : PeerBytes)

/-- What a Raft instance does to its state machine goes through its log, later, and is no
part of the call. -/
structure World where
  queue : QueueState × Store
  nodes : NodeDirectory × Store
  rpc : sites.impl.World

def receive (w : sites.World) : Received → sites.World × Outcome Unit Unit
  | .nodesResponse m rpc answer =>
    let client : RaftEnvelope → _ × Except Status RaftEnvelope := fun _ => (w, .ok answer)
    let r := NetworkConnection.send sites.impl.nodeCodec .nodes m client rpc
    (r.1, r.2.ending)
  | .spamResponse m rpc answer =>
    let client : RaftEnvelope → _ × Except Status RaftEnvelope := fun _ => (w, .ok answer)
    let r := NetworkConnection.send sites.impl.queueCodec .spam m client rpc
    (r.1, r.2.ending)
  | .request m envelope =>
    let r := sites.impl.rpc w.rpc (m, envelope)
    ({ w with rpc := r.1 }, (Outcome.ofExcept r.2).ending)
  | .queueSnapshot info data =>
    let r := StateMachineStore.installSnapshot sites.queuePayload w.queue info data
    ({ w with queue := r.1 }, r.2.ending)
  | .nodeSnapshot info data =>
    let r := NodeStateMachineStore.installSnapshot sites.nodePayload w.nodes info data
    ({ w with nodes := r.1 }, r.2.ending)

def decodes : Received → Bool
  | .nodesResponse m _ answer =>
    ((sites.impl.nodeCodec.response m).fromSlice answer.payload).isSome
  | .spamResponse m _ answer =>
    ((sites.impl.queueCodec.response m).fromSlice answer.payload).isSome
  | .request m envelope =>
    match groupOf envelope with
    | .nodes => (decoded sites.impl.nodeCodec (m, envelope)).isSome
    | .spam => (decoded sites.impl.queueCodec (m, envelope)).isSome
  | .queueSnapshot _ data => (sites.queuePayload.fromSlice data).isSome
  | .nodeSnapshot _ data => (sites.nodePayload.fromSlice data).isSome

/-- No panic, and bytes that do not decode are an error and change nothing. -/
structure Disciplined (w : sites.World) (x : Received) : Prop where
  noPanic : ∀ message, (sites.receive w x).2 ≠ .panic message
  isErr : sites.decodes x = false → (sites.receive w x).2 = .err ()
  unchanged : sites.decodes x = false → (sites.receive w x).1 = w

section Sites
variable {δ : Type}

theorem send_ending (codec : RpcCodec δ) (group : RaftGroup) {σ : Type} (w : σ) (m : Rpc)
    (rpc : m.Request δ) (answer : RaftEnvelope) :
    let client : RaftEnvelope → _ × Except Status RaftEnvelope := fun _ => (w, .ok answer)
    let r := NetworkConnection.send codec group m client rpc
    r.1 = w ∧ r.2.ending =
      if ((codec.response m).fromSlice answer.payload).isSome then .ok ()
      else .panic "deserializable" := by
  intro client r
  refine ⟨rfl, ?_⟩
  simp only [r, client, NetworkConnection.send]
  cases (codec.response m).fromSlice answer.payload <;> rfl

theorem handle_ending (raft : RaftInstance δ) (codec : RpcCodec δ) (serdeError : Bytes → String)
    (w : Seen raft) (x : Rpc × RaftEnvelope) (h : (decoded codec x).isSome = false) :
    handle raft codec serdeError x.1 w x.2.payload =
      (w, .error (toStatus (serdeError x.2.payload))) := by
  rw [decoded, Option.isSome_map, Option.isSome_eq_false_iff, Option.isNone_iff_eq_none] at h
  rw [handle, h]

theorem installSnapshot_ending {σ ρ π : Type} (machine : Machine σ δ ρ π) (serde : SerdeJson π)
    (w : σ × Store) (info : SnapshotMeta) (data : Bytes) :
    (Store.installSnapshot machine serde w info data).2.ending =
      if (serde.fromSlice data).isSome then .ok ()
      else .panic "snapshot payload deserializes" := by
  rw [Store.installSnapshot]
  cases serde.fromSlice data <;> rfl

theorem installSnapshot_unchanged {σ ρ π : Type} (machine : Machine σ δ ρ π)
    (serde : SerdeJson π) (w : σ × Store) (info : SnapshotMeta) (data : Bytes)
    (h : (serde.fromSlice data).isSome = false) :
    (Store.installSnapshot machine serde w info data).1 = w := by
  rw [Option.isSome_eq_false_iff, Option.isNone_iff_eq_none] at h
  rw [Store.installSnapshot, h]

end Sites

theorem rpc_undecoded (w : sites.impl.World) (m : Rpc) (envelope : RaftEnvelope)
    (h : sites.decodes (.request m envelope) = false) :
    sites.impl.rpc w (m, envelope) =
      (w, .error (toStatus (sites.impl.serdeError envelope.payload))) := by
  rw [RaftRpcImpl.rpc_eq, RaftRpcImpl.dispatch]
  rw [decodes] at h
  cases hgroup : groupOf envelope with
  | nodes =>
    rw [hgroup] at h
    have hhandle := handle_ending sites.impl.nodeRaft sites.impl.nodeCodec sites.impl.serdeError
      w.node (m, envelope) h
    simp only [hhandle]
    rfl
  | spam =>
    rw [hgroup] at h
    have hhandle := handle_ending sites.impl.queueRaft sites.impl.queueCodec
      sites.impl.serdeError w.queue (m, envelope) h
    simp only [hhandle]
    rfl

theorem receive_unchanged (w : sites.World) (x : Received) (h : sites.decodes x = false) :
    (sites.receive w x).1 = w := by
  cases x with
  | nodesResponse m rpc answer => rfl
  | spamResponse m rpc answer => rfl
  | request m envelope => rw [receive, sites.rpc_undecoded w.rpc m envelope h]
  | queueSnapshot info data =>
    rw [receive, StateMachineStore.installSnapshot, installSnapshot_unchanged _ _ _ _ _ h]
  | nodeSnapshot info data =>
    rw [receive, NodeStateMachineStore.installSnapshot, installSnapshot_unchanged _ _ _ _ _ h]

theorem receive_request (w : sites.World) (m : Rpc) (envelope : RaftEnvelope) :
    sites.Disciplined w (.request m envelope) where
  noPanic message := by
    rw [receive]
    cases (sites.impl.rpc w.rpc (m, envelope)).2 <;> exact fun h => by cases h
  isErr h := by
    rw [receive, sites.rpc_undecoded w.rpc m envelope h]
    rfl
  unchanged h := sites.receive_unchanged w _ h

theorem receive_ending (w : sites.World) (x : Received) (h : x.isRequest = false) :
    ∃ message, (sites.receive w x).2 = if sites.decodes x then .ok () else .panic message := by
  cases x with
  | request m envelope => cases h
  | nodesResponse m rpc answer => exact ⟨_, (send_ending _ _ w m rpc answer).2⟩
  | spamResponse m rpc answer => exact ⟨_, (send_ending _ _ w m rpc answer).2⟩
  | queueSnapshot info data =>
    exact ⟨_, installSnapshot_ending StateMachineStore.machine _ w.queue info data⟩
  | nodeSnapshot info data =>
    exact ⟨_, installSnapshot_ending NodeStateMachineStore.machine _ w.nodes info data⟩

theorem disciplined_iff (w : sites.World) (x : Received) :
    sites.Disciplined w x ↔ sites.decodes x = true ∨ x.isRequest = true := by
  cases hrequest : x.isRequest with
  | true =>
    cases x with
    | request m envelope => exact ⟨fun _ => Or.inr rfl, fun _ => sites.receive_request w m envelope⟩
    | _ => cases hrequest
  | false =>
    obtain ⟨message, hending⟩ := sites.receive_ending w x hrequest
    rw [or_iff_left Bool.false_ne_true]
    cases hdecodes : sites.decodes x with
    | true =>
      rw [if_pos hdecodes] at hending
      refine iff_of_true ⟨fun _ h => ?_, fun h => ?_, fun h => ?_⟩ rfl
      · rw [hending] at h
        cases h
      · rw [hdecodes] at h
        cases h
      · rw [hdecodes] at h
        cases h
    | false =>
      rw [if_neg (by rw [hdecodes]; exact Bool.false_ne_true)] at hending
      exact iff_of_false (fun h => h.noPanic message hending) Bool.false_ne_true

def stopped : PeerBytes where
  impl := ⟨RaftRpcImpl.stopped NodeCommand, RaftRpcImpl.stopped QueueRequest,
    .json Json.nodeCommand, .json Json.queueRequest, fun _ => "Error(\"\")"⟩
  queuePayload := Json.serde Json.snapshotPayload
  nodePayload := Json.serde Json.nodes

theorem empty_bytes_panic :
    let w : stopped.World := ⟨(QueueState.default, Store.new), (NodeDirectory.default, Store.new),
      ⟨((), []), ((), [])⟩⟩
    let answer : Received := .spamResponse .vote ⟨⟨⟨3, 2⟩, false⟩, none⟩ ⟨[], 1⟩
    let snapshot : Received := .queueSnapshot ⟨none, StoredMembership.default, "1"⟩ []
    (stopped.decodes answer = false ∧ (stopped.receive w answer).2 = .panic "deserializable" ∧
        ¬ stopped.Disciplined w answer) ∧
      stopped.decodes snapshot = false ∧
        (stopped.receive w snapshot).2 = .panic "snapshot payload deserializes" ∧
        ¬ stopped.Disciplined w snapshot := by
  intro w answer snapshot
  have hanswer : (stopped.receive w answer).2 = .panic "deserializable" := by rfl
  have hsnapshot : (stopped.receive w snapshot).2 = .panic "snapshot payload deserializes" := by
    rfl
  exact ⟨⟨rfl, hanswer, fun h => h.noPanic _ hanswer⟩,
    rfl, hsnapshot, fun h => h.noPanic _ hsnapshot⟩

end PeerBytes
end BlunMq
