import BlunMq.Raft.Json

/-!
# Raft messages between the nodes

Both groups send their requests through one gRPC service, in envelopes that carry the
JSON text of a request and the tag of the group. The request and response types are
openraft's. A connection belongs to one group and tags what it sends.
-/

namespace BlunMq

inductive RaftGroup
  | nodes
  | spam
  deriving DecidableEq, Repr

def RaftGroup.toI32 : RaftGroup → Int32
  | .nodes => 0
  | .spam => 1

/-- The generated `TryFrom<i32>`: the enum is open on the wire. -/
def RaftGroup.tryFrom (tag : Int32) : Option RaftGroup :=
  if tag = 0 then some .nodes else if tag = 1 then some .spam else none

structure RaftEnvelope where
  payload : Bytes
  group : Int32
  deriving DecidableEq, Repr

structure AppendEntriesRequest (δ : Type) where
  vote : Vote
  prevLogId : Option LogId
  entries : List (Entry δ)
  leaderCommit : Option LogId
  deriving DecidableEq, Repr

inductive AppendEntriesResponse
  | success
  | partialSuccess (matching : Option LogId)
  | conflict
  | higherVote (vote : Vote)
  deriving DecidableEq, Repr

structure VoteRequest where
  vote : Vote
  lastLogId : Option LogId
  deriving DecidableEq, Repr

structure VoteResponse where
  vote : Vote
  voteGranted : Bool
  lastLogId : Option LogId
  deriving DecidableEq, Repr

structure InstallSnapshotRequest where
  vote : Vote
  info : SnapshotMeta
  offset : UInt64
  data : Bytes
  done : Bool
  deriving DecidableEq, Repr

structure InstallSnapshotResponse where
  vote : Vote
  deriving DecidableEq, Repr

inductive Rpc
  | appendEntries
  | vote
  | installSnapshot
  deriving DecidableEq, Repr

/-- A vote request is the same on the wire in both groups. -/
def Rpc.Request (δ : Type) : Rpc → Type
  | .appendEntries => AppendEntriesRequest δ
  | .vote => VoteRequest
  | .installSnapshot => InstallSnapshotRequest

def Rpc.Response : Rpc → Type
  | .appendEntries => AppendEntriesResponse
  | .vote => VoteResponse
  | .installSnapshot => InstallSnapshotResponse

/-- A connection as `new_client` makes it; the first call dials. -/
structure NetworkConnection where
  addr : String
  group : RaftGroup
  deriving DecidableEq, Repr

structure Network where
  peers : Map UInt64 String
  group : RaftGroup

/-- `fromShared` says which texts `Channel::from_shared` takes for an address. -/
def Network.newClient (fromShared : String → Bool) (self : Network) (target : UInt64) :
    Outcome Empty NetworkConnection :=
  match self.peers[target]? with
  | none => .panic ("unknown raft peer id " ++ toString target)
  | some addr =>
    if fromShared addr then .ok ⟨addr, self.group⟩ else .panic "valid grpc address"

structure RpcCodec (δ : Type) where
  request : ∀ m : Rpc, SerdeJson (m.Request δ)
  response : ∀ m : Rpc, SerdeJson m.Response

namespace NetworkConnection
variable {δ : Type} {σ ε : Type} (codec : RpcCodec δ) (group : RaftGroup)

def envelope (m : Rpc) (rpc : m.Request δ) : RaftEnvelope :=
  ⟨(codec.request m).toVec rpc, group.toI32⟩

/-- The three calls of a connection: the transport's error is passed on, an answer that is
no response is a panic. -/
def send (m : Rpc) (client : RaftEnvelope → σ × Except ε RaftEnvelope) (rpc : m.Request δ) :
    σ × Outcome ε m.Response :=
  let resp := client (envelope codec group m rpc)
  (resp.1, match resp.2 with
    | .error err => .err err
    | .ok answer =>
      match (codec.response m).fromSlice answer.payload with
      | some r => .ok r
      | none => .panic "deserializable")

def appendEntries (client : RaftEnvelope → σ × Except ε RaftEnvelope)
    (rpc : AppendEntriesRequest δ) : σ × Outcome ε AppendEntriesResponse :=
  send codec group .appendEntries client rpc

def vote (client : RaftEnvelope → σ × Except ε RaftEnvelope) (rpc : VoteRequest) :
    σ × Outcome ε VoteResponse :=
  send codec group .vote client rpc

def installSnapshot (client : RaftEnvelope → σ × Except ε RaftEnvelope)
    (rpc : InstallSnapshotRequest) : σ × Outcome ε InstallSnapshotResponse :=
  send codec group .installSnapshot client rpc

end NetworkConnection

namespace Json
open Printer

theorem stops_brace : ascii "\x7d" ≠ [] ∧ Stops (ascii "\x7d") := by decide

def storedMembership : Printer StoredMembership :=
  (wrap (ascii "\x7b\"log_id\":")
    (pair committed (ascii ",\"membership\":") (by decide) membership) (ascii "\x7d")
    stops_brace).imap (fun m => (m.logId, m.membership)) (fun x => some ⟨x.1, x.2⟩) fun _ => rfl

def snapshotMeta : Printer SnapshotMeta :=
  (wrap (ascii "\x7b\"last_log_id\":")
    (pair committed (ascii ",\"last_membership\":") (by decide)
      (pair storedMembership (ascii ",\"snapshot_id\":") (by decide) str))
    (ascii "\x7d") stops_brace).imap (fun m => (m.lastLogId, m.lastMembership, m.snapshotId))
    (fun x => some ⟨x.1, x.2.1, x.2.2⟩) fun _ => rfl

theorem avoids_entry {δ : Type} (req : Printer δ) : (entry req).Avoids 93 :=
  fun e => avoids_wrap (l := ascii "\x7b\"log_id\":") (by decide) (by decide)
    (e.logId, e.payload)

def appendEntriesRequest {δ : Type} (req : Printer δ) : Printer (AppendEntriesRequest δ) :=
  (wrap (ascii "\x7b\"vote\":")
    (pair vote (ascii ",\"prev_log_id\":") (by decide)
      (pair committed (ascii ",\"entries\":") (by decide)
        (pair (array (entry req) (avoids_entry req)) (ascii ",\"leader_commit\":") (by decide)
          committed)))
    (ascii "\x7d") stops_brace).imap
    (fun r => (r.vote, r.prevLogId, r.entries, r.leaderCommit))
    (fun x => some ⟨x.1, x.2.1, x.2.2.1, x.2.2.2⟩) fun _ => rfl

def appendEntriesResponse : Printer AppendEntriesResponse :=
  (choice (ascii "\"")
    (choice (ascii "Success\"") unit (ascii "Conflict\"") unit (by decide)) (ascii "\x7b\"")
    (choice (ascii "PartialSuccess\":") (wrap [] committed (ascii "\x7d") stops_brace)
      (ascii "HigherVote\":") (wrap [] vote (ascii "\x7d") stops_brace) (by decide))
    (by decide)).imap
    (fun
      | .success => .inl (.inl ())
      | .conflict => .inl (.inr ())
      | .partialSuccess matching => .inr (.inl matching)
      | .higherVote vote => .inr (.inr vote))
    (fun
      | .inl (.inl ()) => some .success
      | .inl (.inr ()) => some .conflict
      | .inr (.inl matching) => some (.partialSuccess matching)
      | .inr (.inr vote) => some (.higherVote vote))
    fun r => by cases r <;> rfl

def voteRequest : Printer VoteRequest :=
  (wrap (ascii "\x7b\"vote\":") (pair vote (ascii ",\"last_log_id\":") (by decide) committed)
    (ascii "\x7d") stops_brace).imap (fun r => (r.vote, r.lastLogId))
    (fun x => some ⟨x.1, x.2⟩) fun _ => rfl

def voteResponse : Printer VoteResponse :=
  (wrap (ascii "\x7b\"vote\":")
    (pair vote (ascii ",\"vote_granted\":") (by decide)
      (pair bool (ascii ",\"last_log_id\":") (by decide) committed))
    (ascii "\x7d") stops_brace).imap (fun r => (r.vote, r.voteGranted, r.lastLogId))
    (fun x => some ⟨x.1, x.2.1, x.2.2⟩) fun _ => rfl

def installSnapshotRequest : Printer InstallSnapshotRequest :=
  (wrap (ascii "\x7b\"vote\":")
    (pair vote (ascii ",\"meta\":") (by decide)
      (pair snapshotMeta (ascii ",\"offset\":") (by decide)
        (pair u64 (ascii ",\"data\":") (by decide)
          (pair bytes (ascii ",\"done\":") (by decide) bool))))
    (ascii "\x7d") stops_brace).imap
    (fun r => (r.vote, r.info, r.offset, r.data, r.done))
    (fun x => some ⟨x.1, x.2.1, x.2.2.1, x.2.2.2.1, x.2.2.2.2⟩) fun _ => rfl

def installSnapshotResponse : Printer InstallSnapshotResponse :=
  (wrap (ascii "\x7b\"vote\":") vote (ascii "\x7d") stops_brace).imap (fun r => r.vote)
    (fun x => some ⟨x⟩) fun _ => rfl

theorem stops_braces : ascii "\x7d\x7d" ≠ [] ∧ Stops (ascii "\x7d\x7d") := by decide

def nodeCommand : Printer NodeCommand :=
  (wrap (ascii "\x7b\"UpsertNode\":\x7b\"id\":")
    (pair u64 (ascii ",\"addr\":") (by decide) str) (ascii "\x7d\x7d") stops_braces).imap
    (fun
      | .upsertNode id addr => (id, addr))
    (fun x => some (.upsertNode x.1 x.2)) fun c => by cases c; rfl

end Json

def RpcCodec.json {δ : Type} (req : Printer δ) : RpcCodec δ where
  request
    | .appendEntries => Json.serde (Json.appendEntriesRequest req)
    | .vote => Json.serde Json.voteRequest
    | .installSnapshot => Json.serde Json.installSnapshotRequest
  response
    | .appendEntries => Json.serde Json.appendEntriesResponse
    | .vote => Json.serde Json.voteResponse
    | .installSnapshot => Json.serde Json.installSnapshotResponse

end BlunMq
