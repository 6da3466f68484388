import BlunMq.Raft.Network
import BlunMq.Host.Publish

/-!
# The Raft service of a node

One service hands every envelope to one of the node's two Raft instances, by its tag. A
tag the protocol does not declare goes to the queue group. What an instance sees of the
envelopes is the list of calls made on it; it depends on the envelopes of its own group
and on nothing else.
-/

namespace BlunMq

/-- An `openraft::Raft`. An error comes as its `Debug` text. -/
structure RaftInstance (δ : Type) where
  State : Type
  call : ∀ m : Rpc, State → m.Request δ → State × Except String m.Response

abbrev Call (δ : Type) := (m : Rpc) × m.Request δ

def toStatus (err : String) : Status := ⟨.internal, err⟩

def groupOf (envelope : RaftEnvelope) : RaftGroup :=
  (RaftGroup.tryFrom envelope.group).getD .spam

abbrev Seen {δ : Type} (raft : RaftInstance δ) := raft.State × List (Call δ)

/-- What a branch of a handler does with a payload. `serdeError` is the `Debug` text of
the decoding error. -/
def handle {δ : Type} (raft : RaftInstance δ) (codec : RpcCodec δ) (serdeError : Bytes → String)
    (m : Rpc) (w : Seen raft) (payload : Bytes) : Seen raft × Except Status Bytes :=
  match (codec.request m).fromSlice payload with
  | none => (w, .error (toStatus (serdeError payload)))
  | some req =>
    let resp := raft.call m w.1 req
    ((resp.1, w.2 ++ [⟨m, req⟩]),
      (resp.2.mapError toStatus).map (codec.response m).toVec)

structure RaftRpcImpl where
  nodeRaft : RaftInstance NodeCommand
  queueRaft : RaftInstance QueueRequest
  nodeCodec : RpcCodec NodeCommand
  queueCodec : RpcCodec QueueRequest
  serdeError : Bytes → String

namespace RaftRpcImpl
variable (impl : RaftRpcImpl)

structure World where
  node : Seen impl.nodeRaft
  queue : Seen impl.queueRaft

/-- The answer carries the tag of the request, declared or not. -/
def dispatch (m : Rpc) (w : impl.World) (envelope : RaftEnvelope) :
    impl.World × Except Status RaftEnvelope :=
  match groupOf envelope with
  | .nodes =>
    let r := handle impl.nodeRaft impl.nodeCodec impl.serdeError m w.node envelope.payload
    ({ w with node := r.1 }, r.2.map fun payload => ⟨payload, envelope.group⟩)
  | .spam =>
    let r := handle impl.queueRaft impl.queueCodec impl.serdeError m w.queue envelope.payload
    ({ w with queue := r.1 }, r.2.map fun payload => ⟨payload, envelope.group⟩)

def appendEntries (w : impl.World) (envelope : RaftEnvelope) :
    impl.World × Except Status RaftEnvelope := impl.dispatch .appendEntries w envelope

def vote (w : impl.World) (envelope : RaftEnvelope) :
    impl.World × Except Status RaftEnvelope := impl.dispatch .vote w envelope

def installSnapshot (w : impl.World) (envelope : RaftEnvelope) :
    impl.World × Except Status RaftEnvelope := impl.dispatch .installSnapshot w envelope

def rpc (w : impl.World) (received : Rpc × RaftEnvelope) :
    impl.World × Except Status RaftEnvelope :=
  match received.1 with
  | .appendEntries => impl.appendEntries w received.2
  | .vote => impl.vote w received.2
  | .installSnapshot => impl.installSnapshot w received.2

def serve (w : impl.World) (received : List (Rpc × RaftEnvelope)) : impl.World :=
  received.foldl (fun w x => (impl.rpc w x).1) w

theorem rpc_eq (w : impl.World) (x : Rpc × RaftEnvelope) :
    impl.rpc w x = impl.dispatch x.1 w x.2 := by
  obtain ⟨m, envelope⟩ := x
  cases m <;> rfl

end RaftRpcImpl

theorem groupOf_eq_nodes_iff (e : RaftEnvelope) : groupOf e = .nodes ↔ e.group = 0 := by
  unfold groupOf RaftGroup.tryFrom
  split
  · simp_all
  · split <;> simp_all

theorem groupOf_eq_spam_iff (e : RaftEnvelope) : groupOf e = .spam ↔ e.group ≠ 0 := by
  rw [ne_eq, ← groupOf_eq_nodes_iff]
  cases groupOf e <;> simp

def forNodes (x : Rpc × RaftEnvelope) : Bool := decide (x.2.group = 0)

def forQueue (x : Rpc × RaftEnvelope) : Bool := decide (x.2.group ≠ 0)

def decoded {δ : Type} (codec : RpcCodec δ) (x : Rpc × RaftEnvelope) : Option (Call δ) :=
  ((codec.request x.1).fromSlice x.2.payload).map fun req => ⟨x.1, req⟩

def handleAll {δ : Type} (raft : RaftInstance δ) (codec : RpcCodec δ)
    (serdeError : Bytes → String) (w : Seen raft) (received : List (Rpc × RaftEnvelope)) :
    Seen raft :=
  received.foldl (fun w x => (handle raft codec serdeError x.1 w x.2.payload).1) w

theorem handle_calls {δ : Type} (raft : RaftInstance δ) (codec : RpcCodec δ)
    (serdeError : Bytes → String) (w : Seen raft) (x : Rpc × RaftEnvelope) :
    (handle raft codec serdeError x.1 w x.2.payload).1.2 = w.2 ++ (decoded codec x).toList := by
  unfold handle decoded
  cases (codec.request x.1).fromSlice x.2.payload <;> simp

theorem handleAll_calls {δ : Type} (raft : RaftInstance δ) (codec : RpcCodec δ)
    (serdeError : Bytes → String) (w : Seen raft) (received : List (Rpc × RaftEnvelope)) :
    (handleAll raft codec serdeError w received).2 = w.2 ++ received.filterMap (decoded codec) := by
  induction received generalizing w with
  | nil => simp [handleAll]
  | cons x received ih =>
    have hx := handle_calls raft codec serdeError w x
    rw [handleAll, List.foldl_cons]
    refine (ih _).trans ?_
    rw [hx, List.append_assoc, List.filterMap_cons]
    cases decoded codec x <;> rfl

namespace RaftRpcImpl
variable (impl : RaftRpcImpl)

theorem dispatch_node (m : Rpc) (w : impl.World) (e : RaftEnvelope) :
    (impl.dispatch m w e).1.node =
      if e.group = 0 then
        (handle impl.nodeRaft impl.nodeCodec impl.serdeError m w.node e.payload).1
      else w.node := by
  unfold dispatch
  split
  · rename_i h
    rw [if_pos ((groupOf_eq_nodes_iff e).mp h)]
  · rename_i h
    rw [if_neg ((groupOf_eq_spam_iff e).mp h)]

theorem dispatch_queue (m : Rpc) (w : impl.World) (e : RaftEnvelope) :
    (impl.dispatch m w e).1.queue =
      if e.group ≠ 0 then
        (handle impl.queueRaft impl.queueCodec impl.serdeError m w.queue e.payload).1
      else w.queue := by
  unfold dispatch
  split
  · rename_i h
    rw [if_neg (not_not.mpr ((groupOf_eq_nodes_iff e).mp h))]
  · rename_i h
    rw [if_pos ((groupOf_eq_spam_iff e).mp h)]

theorem serve_node (w : impl.World) (received : List (Rpc × RaftEnvelope)) :
    (impl.serve w received).node =
      handleAll impl.nodeRaft impl.nodeCodec impl.serdeError w.node (received.filter forNodes) := by
  induction received generalizing w with
  | nil => rfl
  | cons x received ih =>
    rw [serve, List.foldl_cons]
    refine (ih _).trans ?_
    rw [rpc_eq, dispatch_node, List.filter_cons]
    by_cases h : x.2.group = 0
    · simp [forNodes, h, handleAll]
    · simp [forNodes, h]

theorem serve_queue (w : impl.World) (received : List (Rpc × RaftEnvelope)) :
    (impl.serve w received).queue =
      handleAll impl.queueRaft impl.queueCodec impl.serdeError w.queue
        (received.filter forQueue) := by
  induction received generalizing w with
  | nil => rfl
  | cons x received ih =>
    rw [serve, List.foldl_cons]
    refine (ih _).trans ?_
    rw [rpc_eq, dispatch_queue, List.filter_cons]
    by_cases h : x.2.group = 0
    · simp [forQueue, h]
    · simp [forQueue, h, handleAll]

theorem decoded_envelope {δ : Type} (codec : RpcCodec δ) (group : RaftGroup) (m : Rpc)
    (req : m.Request δ) :
    decoded codec (m, NetworkConnection.envelope codec group m req) = some ⟨m, req⟩ := by
  simp [decoded, NetworkConnection.envelope, (codec.request m).fromSlice_toVec]

theorem raft_groups_isolated (w : impl.World) (received : List (Rpc × RaftEnvelope)) :
    (impl.serve w received).node.2 =
      w.node.2 ++ (received.filter forNodes).filterMap (decoded impl.nodeCodec) ∧
    (impl.serve w received).queue.2 =
      w.queue.2 ++ (received.filter forQueue).filterMap (decoded impl.queueCodec) ∧
    (∀ received', received'.filter forNodes = received.filter forNodes →
      (impl.serve w received').node = (impl.serve w received).node) ∧
    (∀ received', received'.filter forQueue = received.filter forQueue →
      (impl.serve w received').queue = (impl.serve w received).queue) ∧
    (∀ m req, let x := (m, NetworkConnection.envelope impl.nodeCodec .nodes m req)
      forNodes x = true ∧ decoded impl.nodeCodec x = some ⟨m, req⟩) ∧
    ∀ m req, let x := (m, NetworkConnection.envelope impl.queueCodec .spam m req)
      forQueue x = true ∧ decoded impl.queueCodec x = some ⟨m, req⟩ := by
  refine ⟨?_, ?_, ?_, ?_, ?_, ?_⟩
  · rw [serve_node, handleAll_calls]
  · rw [serve_queue, handleAll_calls]
  · intro received' h
    rw [serve_node, serve_node, h]
  · intro received' h
    rw [serve_queue, serve_queue, h]
  · exact fun m req => ⟨rfl, decoded_envelope _ _ _ _⟩
  · exact fun m req => ⟨rfl, decoded_envelope _ _ _ _⟩

def stopped (δ : Type) : RaftInstance δ := ⟨Unit, fun _ s _ => (s, .error "Fatal(Stopped)")⟩

theorem unknown_tag_reaches_queue_raft :
    let impl : RaftRpcImpl := ⟨stopped NodeCommand, stopped QueueRequest,
      .json Json.nodeCommand, .json Json.queueRequest, fun _ => "Error(\"\")"⟩
    let w : impl.World := ⟨((), []), ((), [])⟩
    let req : VoteRequest := ⟨⟨⟨3, 2⟩, false⟩, none⟩
    let e : RaftEnvelope := ⟨(impl.nodeCodec.request .vote).toVec req, 7⟩
    RaftGroup.tryFrom e.group = none ∧ (impl.serve w []).queue.2 = [] ∧
      (impl.serve w [(.vote, e)]).queue.2 = [⟨.vote, req⟩] := by
  intro impl w req e
  refine ⟨rfl, rfl, ?_⟩
  rw [serve_queue, handleAll_calls]
  have hdecoded : decoded impl.queueCodec (.vote, e) = some ⟨.vote, req⟩ :=
    decoded_envelope impl.queueCodec .spam .vote req
  have hfilter : [(Rpc.vote, e)].filter forQueue = [(Rpc.vote, e)] := rfl
  rw [hfilter, List.filterMap_cons, hdecoded]
  rfl

end RaftRpcImpl
end BlunMq
