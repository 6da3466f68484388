import BlunMq.Lib.Mealy
import BlunMq.Host.RaftRpc

/-!
# Two Raft groups on one network

Every node serves both groups on one port, and openraft reaches a peer through the address
book of the calling node. When the books are right, each group is as if it were alone and
called the instances of its peers directly: the tags, the JSON and the shared service can
not be told from a plain call. A call may be refused before it arrives, and an answer may be
lost on the way back.
-/

namespace BlunMq.RaftNetwork

inductive Fate
  | delivered
  | refused (status : Status)
  | lost (status : Status)

/-- The nodes: the program they run, the address book of each, which node listens at an
address, and the transport's error where none does. -/
structure Deployment where
  impl : RaftRpcImpl
  peers : UInt64 → Map UInt64 String
  fromShared : String → Bool
  listening : String → Option UInt64
  connectError : Status

structure GroupCall (δ : Type) where
  caller : UInt64
  target : UInt64
  method : Rpc
  request : method.Request δ
  fate : Fate

abbrev Answer := (m : Rpc) × Outcome Status m.Response

inductive Act
  | nodes (call : GroupCall NodeCommand)
  | spam (call : GroupCall QueueRequest)

section Direct
variable {δ : Type} (raft : RaftInstance δ)

def served (st : Seen raft) (m : Rpc) (req : m.Request δ) : Seen raft :=
  ((raft.call m st.1 req).1, st.2 ++ [⟨m, req⟩])

def answered (st : Seen raft) (m : Rpc) (req : m.Request δ) : Outcome Status m.Response :=
  match (raft.call m st.1 req).2 with
  | .ok resp => .ok resp
  | .error err => .err (toStatus err)

def direct (w : UInt64 → Seen raft) (c : GroupCall δ) : (UInt64 → Seen raft) × Answer :=
  let st := w c.target
  match c.fate with
  | .refused status => (w, ⟨c.method, .err status⟩)
  | .lost status =>
    (Function.update w c.target (served raft st c.method c.request), ⟨c.method, .err status⟩)
  | .delivered =>
    (Function.update w c.target (served raft st c.method c.request),
      ⟨c.method, answered raft st c.method c.request⟩)

end Direct

namespace Deployment
variable (D : Deployment)

abbrev World := UInt64 → D.impl.World

/-- What the transport does with an envelope for the service at `addr`. -/
def deliver (fate : Fate) (w : D.World) (addr : String) (m : Rpc) (envelope : RaftEnvelope) :
    D.World × Except Status RaftEnvelope :=
  match D.listening addr with
  | none => (w, .error D.connectError)
  | some id =>
    let r := D.impl.rpc (w id) (m, envelope)
    match fate with
    | .refused status => (w, .error status)
    | .lost status => (Function.update w id r.1, .error status)
    | .delivered => (Function.update w id r.1, r.2)

def call {δ : Type} (codec : RpcCodec δ) (group : RaftGroup) (w : D.World) (c : GroupCall δ) :
    D.World × Answer :=
  match (Network.mk (D.peers c.caller) group).newClient D.fromShared c.target with
  | .panic message => (w, ⟨c.method, .panic message⟩)
  | .ok conn =>
    let r := NetworkConnection.send codec conn.group c.method
      (D.deliver c.fate w conn.addr c.method) c.request
    (r.1, ⟨c.method, r.2⟩)

def step (w : D.World) : Act → D.World × (RaftGroup × Answer)
  | .nodes c =>
    let r := D.call D.impl.nodeCodec .nodes w c
    (r.1, .nodes, r.2)
  | .spam c =>
    let r := D.call D.impl.queueCodec .spam w c
    (r.1, .spam, r.2)

/-- Every entry of an address book is the address that node listens at. -/
def Deployed : Prop :=
  ∀ (n target : UInt64) (addr : String), (D.peers n)[target]? = some addr →
    D.fromShared addr = true ∧ D.listening addr = some target

/-- The caller's book has the target. -/
def Known : Act → Prop
  | .nodes c => c.target ∈ D.peers c.caller
  | .spam c => c.target ∈ D.peers c.caller

/-- How a node's service treats the envelopes of one group: `part` is what the group sees of
a node, `rest` what it does not. -/
structure Serves {δ τ : Type} (raft : RaftInstance δ) (codec : RpcCodec δ) (group : RaftGroup)
    (part : D.impl.World → Seen raft) (rest : D.impl.World → τ) : Prop where
  own : ∀ w m req, part (D.impl.rpc w (m, NetworkConnection.envelope codec group m req)).1 =
    served raft (part w) m req
  other : ∀ w m req, rest (D.impl.rpc w (m, NetworkConnection.envelope codec group m req)).1 =
    rest w
  answer : ∀ w m req, (D.impl.rpc w (m, NetworkConnection.envelope codec group m req)).2 =
    ((raft.call m (part w).1 req).2.mapError toStatus).map fun resp =>
      ⟨(codec.response m).toVec resp, group.toI32⟩

theorem handle_envelope {δ : Type} (raft : RaftInstance δ) (codec : RpcCodec δ)
    (serdeError : Bytes → String) (group : RaftGroup) (st : Seen raft) (m : Rpc)
    (req : m.Request δ) :
    handle raft codec serdeError m st (NetworkConnection.envelope codec group m req).payload =
      (served raft st m req,
        ((raft.call m st.1 req).2.mapError toStatus).map (codec.response m).toVec) := by
  rw [NetworkConnection.envelope, handle, (codec.request m).fromSlice_toVec]
  rfl

theorem serves_nodes : D.Serves D.impl.nodeRaft D.impl.nodeCodec .nodes
    RaftRpcImpl.World.node RaftRpcImpl.World.queue := by
  have hdispatch : ∀ w m req, D.impl.rpc w (m, NetworkConnection.envelope D.impl.nodeCodec .nodes
      m req) = ({ w with node := served D.impl.nodeRaft w.node m req },
        ((D.impl.nodeRaft.call m w.node.1 req).2.mapError toStatus).map fun resp =>
          ⟨(D.impl.nodeCodec.response m).toVec resp, RaftGroup.nodes.toI32⟩) := by
    intro w m req
    rw [RaftRpcImpl.rpc_eq, RaftRpcImpl.dispatch]
    split
    · rw [handle_envelope]
      cases (D.impl.nodeRaft.call m w.node.1 req).2 <;> rfl
    · rename_i h
      exact absurd rfl ((groupOf_eq_spam_iff _).mp h)
  exact ⟨fun w m req => by rw [hdispatch], fun w m req => by rw [hdispatch],
    fun w m req => by rw [hdispatch]⟩

theorem serves_queue : D.Serves D.impl.queueRaft D.impl.queueCodec .spam
    RaftRpcImpl.World.queue RaftRpcImpl.World.node := by
  have hdispatch : ∀ w m req, D.impl.rpc w (m, NetworkConnection.envelope D.impl.queueCodec .spam
      m req) = ({ w with queue := served D.impl.queueRaft w.queue m req },
        ((D.impl.queueRaft.call m w.queue.1 req).2.mapError toStatus).map fun resp =>
          ⟨(D.impl.queueCodec.response m).toVec resp, RaftGroup.spam.toI32⟩) := by
    intro w m req
    rw [RaftRpcImpl.rpc_eq, RaftRpcImpl.dispatch]
    split
    · rename_i h
      have hzero := (groupOf_eq_nodes_iff _).mp h
      exact absurd hzero (show ¬ (1 : Int32) = 0 by decide)
    · rw [handle_envelope]
      cases (D.impl.queueRaft.call m w.queue.1 req).2 <;> rfl
  exact ⟨fun w m req => by rw [hdispatch], fun w m req => by rw [hdispatch],
    fun w m req => by rw [hdispatch]⟩

section Call
variable {D} {δ τ : Type} {raft : RaftInstance δ} {codec : RpcCodec δ} {group : RaftGroup}
  {part : D.impl.World → Seen raft} {rest : D.impl.World → τ}

theorem call_eq (hD : D.Deployed) (codec : RpcCodec δ) (group : RaftGroup) (w : D.World)
    (c : GroupCall δ) (hknown : c.target ∈ D.peers c.caller) :
    ∃ addr, D.listening addr = some c.target ∧ D.call codec group w c =
      let r := NetworkConnection.send codec group c.method (D.deliver c.fate w addr c.method)
        c.request
      (r.1, ⟨c.method, r.2⟩) := by
  obtain ⟨addr, haddr⟩ : ∃ addr, (D.peers c.caller)[c.target]? = some addr :=
    ⟨_, Std.ExtTreeMap.getElem?_eq_some_getElem hknown⟩
  obtain ⟨hshared, hlistening⟩ := hD _ _ _ haddr
  refine ⟨addr, hlistening, ?_⟩
  simp only [call, Network.newClient, haddr, hshared, if_true]

theorem rest_update (hs : D.Serves raft codec group part rest) (w : D.World) (target : UInt64)
    (m : Rpc) (req : m.Request δ) (id : UInt64) :
    rest (Function.update w target
      (D.impl.rpc (w target) (m, NetworkConnection.envelope codec group m req)).1 id) =
      rest (w id) := by
  rw [Function.apply_update (fun _ => rest), hs.other]
  exact congrFun (Function.update_eq_self target fun i => rest (w i)) id

theorem call_direct (hD : D.Deployed) (hs : D.Serves raft codec group part rest) (w : D.World)
    (c : GroupCall δ) (hknown : c.target ∈ D.peers c.caller) :
    part ∘ (D.call codec group w c).1 = (direct raft (part ∘ w) c).1 ∧
      (D.call codec group w c).2 = (direct raft (part ∘ w) c).2 ∧
      rest ∘ (D.call codec group w c).1 = rest ∘ w := by
  obtain ⟨addr, hlistening, hcall⟩ := call_eq hD codec group w c hknown
  rw [hcall]
  have hown : part ∘ Function.update w c.target (D.impl.rpc (w c.target)
      (c.method, NetworkConnection.envelope codec group c.method c.request)).1 =
      Function.update (part ∘ w) c.target (served raft ((part ∘ w) c.target) c.method
        c.request) := by
    rw [Function.comp_update, hs.own]
    rfl
  have hother := rest_update hs w c.target c.method c.request
  cases hfate : c.fate with
  | refused status =>
    simp only [NetworkConnection.send, deliver, hlistening, direct, hfate]
    exact ⟨trivial, trivial, trivial⟩
  | lost status =>
    simp only [NetworkConnection.send, deliver, hlistening, direct, hfate]
    exact ⟨hown, trivial, funext hother⟩
  | delivered =>
    simp only [NetworkConnection.send, deliver, hlistening, direct, hfate, hs.answer]
    refine ⟨hown, ?_, funext hother⟩
    -- the answer comes back as the instance gave it
    rw [answered, Function.comp_apply]
    cases (raft.call c.method (part (w c.target)).1 c.request).2 with
    | error err => rfl
    | ok resp => simp only [Except.mapError, Except.map, (codec.response c.method).fromSlice_toVec]

end Call

def nodesCall : Act → Option (GroupCall NodeCommand)
  | .nodes c => some c
  | .spam _ => none

def spamCall : Act → Option (GroupCall QueueRequest)
  | .nodes _ => none
  | .spam c => some c

def answerTo (group : RaftGroup) (out : RaftGroup × Answer) : Option Answer :=
  if out.1 = group then some out.2 else none

theorem groups_as_if_alone (hD : D.Deployed) (w : D.World) (acts : List Act)
    (hknown : ∀ a ∈ acts, D.Known a) :
    (RaftRpcImpl.World.node ∘ Mealy.final D.step w acts =
        Mealy.final (direct D.impl.nodeRaft) (RaftRpcImpl.World.node ∘ w)
          (acts.filterMap nodesCall) ∧
      (Mealy.outputs D.step w acts).filterMap (answerTo .nodes) =
        Mealy.outputs (direct D.impl.nodeRaft) (RaftRpcImpl.World.node ∘ w)
          (acts.filterMap nodesCall)) ∧
    RaftRpcImpl.World.queue ∘ Mealy.final D.step w acts =
        Mealy.final (direct D.impl.queueRaft) (RaftRpcImpl.World.queue ∘ w)
          (acts.filterMap spamCall) ∧
      (Mealy.outputs D.step w acts).filterMap (answerTo .spam) =
        Mealy.outputs (direct D.impl.queueRaft) (RaftRpcImpl.World.queue ∘ w)
          (acts.filterMap spamCall) := by
  constructor
  · refine Mealy.run_component D.step (direct D.impl.nodeRaft) (RaftRpcImpl.World.node ∘ ·)
      nodesCall (answerTo .nodes) ?_ ?_ w
    · intro w a ha b hb
      cases a with
      | nodes c =>
        obtain rfl : c = b := Option.some.inj hb
        obtain ⟨hpart, hanswer, -⟩ := call_direct hD D.serves_nodes w c (hknown _ ha)
        exact ⟨hpart, congrArg some hanswer⟩
      | spam c => exact absurd hb (Option.not_mem_none b)
    · intro w a ha hnone
      cases a with
      | nodes c => exact absurd hnone (Option.some_ne_none c)
      | spam c =>
        obtain ⟨-, -, hrest⟩ := call_direct hD D.serves_queue w c (hknown _ ha)
        exact ⟨hrest, rfl⟩
  · refine Mealy.run_component D.step (direct D.impl.queueRaft) (RaftRpcImpl.World.queue ∘ ·)
      spamCall (answerTo .spam) ?_ ?_ w
    · intro w a ha b hb
      cases a with
      | nodes c => exact absurd hb (Option.not_mem_none b)
      | spam c =>
        obtain rfl : c = b := Option.some.inj hb
        obtain ⟨hpart, hanswer, -⟩ := call_direct hD D.serves_queue w c (hknown _ ha)
        exact ⟨hpart, congrArg some hanswer⟩
    · intro w a ha hnone
      cases a with
      | nodes c =>
        obtain ⟨-, -, hrest⟩ := call_direct hD D.serves_nodes w c (hknown _ ha)
        exact ⟨hrest, rfl⟩
      | spam c => exact absurd hnone (Option.some_ne_none c)

def agreeing (δ : Type) : RaftInstance δ where
  State := Unit
  call
    | .appendEntries, s, _ => (s, .ok .success)
    | .vote, s, req => (s, .ok ⟨req.vote, true, none⟩)
    | .installSnapshot, s, req => (s, .ok ⟨req.vote⟩)

def pair : Deployment where
  impl := ⟨agreeing NodeCommand, agreeing QueueRequest, .json Json.nodeCommand,
    .json Json.queueRequest, fun _ => "Error(\"\")"⟩
  peers _ := ((∅ : Map UInt64 String).insert 1 "http://node1").insert 2 "http://node2"
  fromShared _ := true
  listening addr := if addr = "http://node1" then some 1 else
    if addr = "http://node2" then some 2 else none
  connectError := ⟨.unavailable, "tcp connect error"⟩

theorem pair_deployed : pair.Deployed := by
  intro n target addr h
  simp only [pair, Std.ExtTreeMap.getElem?_insert, Std.compare_eq_iff_eq] at h
  split at h
  · subst target
    obtain rfl := Option.some.inj h
    exact ⟨rfl, rfl⟩
  · split at h
    · subst target
      obtain rfl := Option.some.inj h
      exact ⟨rfl, rfl⟩
    · simp at h

theorem groups_as_if_alone_pair :
    let req : VoteRequest := ⟨⟨⟨1, 1⟩, false⟩, none⟩
    let acts : List Act := [.nodes ⟨1, 2, .vote, req, .delivered⟩,
      .spam ⟨2, 1, .vote, req, .lost ⟨.unavailable, "broken pipe"⟩⟩]
    let w : pair.World := fun _ => ⟨((), []), ((), [])⟩
    (Mealy.final pair.step w acts 2).node = ((), [⟨.vote, req⟩]) ∧
      (Mealy.final pair.step w acts 1).queue = ((), [⟨.vote, req⟩]) ∧
      (Mealy.outputs pair.step w acts).filterMap (answerTo .nodes) =
        [⟨.vote, .ok ⟨req.vote, true, none⟩⟩] := by
  intro req acts w
  have hknown : ∀ a ∈ acts, pair.Known a := by
    intro a ha
    have hbook : ∀ n, (1 : UInt64) ∈ pair.peers n ∧ (2 : UInt64) ∈ pair.peers n := by
      simp [pair]
    simp only [acts, List.mem_cons, List.not_mem_nil, or_false] at ha
    obtain rfl | rfl := ha
    · exact (hbook 1).2
    · exact (hbook 2).1
  obtain ⟨⟨hnode, hanswers⟩, hqueue, -⟩ := groups_as_if_alone pair pair_deployed w acts hknown
  exact ⟨congrFun hnode 2, congrFun hqueue 1, hanswers⟩

end Deployment

end BlunMq.RaftNetwork
