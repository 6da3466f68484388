import BlunMq.Host.Publish

/-!
# The consume handler and its pop workers

Every `consume` stream runs 32 copies of the worker loop over one bounded channel.
A worker's place in the loop is its `Pc`; the awaits of the loop are the places
where other tasks can run, so one step of the cluster is what one task does between
two of them. `pop_via_forward` opens a whole stream on the node it takes for the
leader and waits for that stream's first item.

A proposal whose caller got an error may still be committed: it moves to `inFlight`
with the publishes, whose answers no worker waits for.
-/

namespace BlunMq

abbrev Item := UInt64 × Bytes

inductive Kind
  | subscribe (queue : String)
  | ack (offset : UInt64)
  deriving DecidableEq, Repr

/-- The queue a new stream subscribes to, from the first inbound message: none if the
client closed the stream, an error if the transport failed. -/
def consume (first : Option (Except Status (Option Kind))) : Except Status String :=
  match first with
  | none => .error ⟨.invalidArgument, "expected Subscribe as first message"⟩
  | some (.error status) => .error status
  | some (.ok (some (.subscribe queue))) => .ok queue
  | some (.ok _) => .error ⟨.invalidArgument, "first message must be Subscribe"⟩

def POP_CONCURRENCY : ℕ := 32

def CHANNEL_CAPACITY : ℕ := POP_CONCURRENCY * 4

/-- Where a worker waits. In `proposing` the response is there once the entry has been
applied; `dialing` and `receiving` are the two awaits of `pop_via_forward`. -/
inductive Pc
  | ready
  | proposing (response : Option QueueResponse)
  | dialing (leader : UInt64)
  | receiving (stream : ℕ)
  | sending (item : Item)
  | sleeping
  | stopped
  deriving DecidableEq, Repr

def Pc.afterPop : Option Item → Pc
  | some item => .sending item
  | none => .sleeping

/-- The `ForwardToLeader` arm: a known leader is dialed, otherwise the worker sleeps. -/
def Pc.afterForward (peers : Map UInt64 String) (leaderId : Option UInt64) : Pc :=
  match leaderId.bind fun id => peers[id]?.map fun addr => (id, addr) with
  | some (id, _) => .dialing id
  | none => .sleeping

/-- One open or closed stream. `wire` holds what was sent on to a forwarding node and
not read there yet; a client's stream emits directly. -/
structure Stream where
  queue : String
  client : Bool
  workers : List Pc
  channel : List Item
  wire : List Item
  isOpen : Bool
  deriving DecidableEq, Repr

namespace Stream

def start (queue : String) (client : Bool) : Stream :=
  ⟨queue, client, List.replicate POP_CONCURRENCY .ready, [], [], true⟩

def put (st : Stream) (i : ℕ) (pc : Pc) : Stream := { st with workers := st.workers.set i pc }

end Stream

structure Emission where
  stream : ℕ
  queue : String
  item : Item
  deriving DecidableEq, Repr

structure Cluster where
  log : CommittedLog QueueRequest
  inFlight : List QueueRequest
  streams : List Stream
  emitted : List Emission

namespace Cluster

def start : Cluster := ⟨CommittedLog.empty, [], [], []⟩

def update (s : Cluster) (sid : ℕ) (st : Stream) : Cluster :=
  { s with streams := s.streams.set sid st }

def opened (s : Cluster) (queue : String) (client : Bool) : Cluster :=
  { s with streams := s.streams ++ [Stream.start queue client] }

/-- A proposal given up before it was applied stays in flight. -/
def abandon (s : Cluster) (queue : String) (response : Option QueueResponse) : Cluster :=
  match response with
  | none => { s with inFlight := s.inFlight ++ [.pop queue] }
  | some _ => s

end Cluster

inductive Act
  | publish (queue : String) (payload : Bytes)
  | consume (first : Option (Except Status (Option Kind)))
  | propose (sid i : ℕ)
  | commit (sid i : ℕ) (id : LogId)
  | commitInFlight (k : ℕ) (id : LogId)
  | commitOther (e : Entry QueueRequest)
  | answer (sid i : ℕ)
  | fail (sid i : ℕ)
  | forwardToLeader (sid i : ℕ) (leaderId : Option UInt64)
  | accept (sid i : ℕ)
  | rpcError (sid i : ℕ)
  | receive (sid i : ℕ)
  | timeout (sid i : ℕ)
  | send (sid i : ℕ)
  | pull (sid : ℕ)
  | close (sid : ℕ)
  | wake (sid i : ℕ)

variable (peers : Map UInt64 String)

inductive Step : Cluster → Act → Cluster → Prop
  -- producers and clients
  | publish (s : Cluster) (queue : String) (payload : Bytes) :
      Step s (.publish queue payload)
        { s with inFlight := s.inFlight ++ [.publish queue payload] }
  | subscribed {s : Cluster} {first : Option (Except Status (Option Kind))} {queue : String}
      (h : consume first = .ok queue) : Step s (.consume first) (s.opened queue true)
  | rejected {s : Cluster} {first : Option (Except Status (Option Kind))} {status : Status}
      (h : consume first = .error status) : Step s (.consume first) s
  -- the Raft group
  | commit {s : Cluster} {sid i : ℕ} {id : LogId} {st : Stream}
      {log' : CommittedLog QueueRequest} {r : QueueResponse}
      (hst : s.streams[sid]? = some st) (hw : st.workers[i]? = some (.proposing none))
      (hc : s.log.commit ⟨id, .normal (.pop st.queue)⟩ = some (log', r)) :
      Step s (.commit sid i id)
        { s.update sid (st.put i (.proposing (some r))) with log := log' }
  | commitInFlight {s : Cluster} {k : ℕ} {id : LogId} {req : QueueRequest}
      {log' : CommittedLog QueueRequest} {r : QueueResponse}
      (hk : s.inFlight[k]? = some req)
      (hc : s.log.commit ⟨id, .normal req⟩ = some (log', r)) :
      Step s (.commitInFlight k id) { s with log := log', inFlight := s.inFlight.eraseIdx k }
  | commitOther {s : Cluster} {e : Entry QueueRequest} {log' : CommittedLog QueueRequest}
      {r : QueueResponse} (he : ∀ req, e.payload ≠ .normal req)
      (hc : s.log.commit e = some (log', r)) : Step s (.commitOther e) { s with log := log' }
  -- the worker loop
  | propose {s : Cluster} {sid i : ℕ} {st : Stream} (hst : s.streams[sid]? = some st)
      (hw : st.workers[i]? = some .ready) :
      Step s (.propose sid i) (s.update sid (st.put i (.proposing none)))
  | answer {s : Cluster} {sid i : ℕ} {st : Stream} {r : QueueResponse}
      (hst : s.streams[sid]? = some st) (hw : st.workers[i]? = some (.proposing (some r))) :
      Step s (.answer sid i) (s.update sid (st.put i (.afterPop r.popped)))
  | fail {s : Cluster} {sid i : ℕ} {st : Stream} {response : Option QueueResponse}
      (hst : s.streams[sid]? = some st) (hw : st.workers[i]? = some (.proposing response)) :
      Step s (.fail sid i) ((s.update sid (st.put i .sleeping)).abandon st.queue response)
  | forwardToLeader {s : Cluster} {sid i : ℕ} {leaderId : Option UInt64} {st : Stream}
      {response : Option QueueResponse} (hst : s.streams[sid]? = some st)
      (hw : st.workers[i]? = some (.proposing response)) :
      Step s (.forwardToLeader sid i leaderId)
        ((s.update sid (st.put i (.afterForward peers leaderId))).abandon st.queue response)
  | send {s : Cluster} {sid i : ℕ} {st : Stream} {item : Item}
      (hst : s.streams[sid]? = some st) (hw : st.workers[i]? = some (.sending item))
      (hopen : st.isOpen = true) (hroom : st.channel.length < CHANNEL_CAPACITY) :
      Step s (.send sid i)
        (s.update sid { st.put i .ready with channel := st.channel ++ [item] })
  | sendClosed {s : Cluster} {sid i : ℕ} {st : Stream} {item : Item}
      (hst : s.streams[sid]? = some st) (hw : st.workers[i]? = some (.sending item))
      (hclosed : st.isOpen = false) : Step s (.send sid i) (s.update sid (st.put i .stopped))
  | wake {s : Cluster} {sid i : ℕ} {st : Stream} (hst : s.streams[sid]? = some st)
      (hw : st.workers[i]? = some .sleeping) :
      Step s (.wake sid i) (s.update sid (st.put i .ready))
  -- `pop_via_forward`
  | accept {s : Cluster} {sid i : ℕ} {st : Stream} {leader : UInt64}
      (hst : s.streams[sid]? = some st) (hw : st.workers[i]? = some (.dialing leader)) :
      Step s (.accept sid i)
        ((s.update sid (st.put i (.receiving s.streams.length))).opened st.queue false)
  | refused {s : Cluster} {sid i : ℕ} {st : Stream} {leader : UInt64}
      (hst : s.streams[sid]? = some st) (hw : st.workers[i]? = some (.dialing leader)) :
      Step s (.rpcError sid i) (s.update sid (st.put i .sleeping))
  | broken {s : Cluster} {sid i : ℕ} {st : Stream} {child : ℕ}
      (hst : s.streams[sid]? = some st) (hw : st.workers[i]? = some (.receiving child)) :
      Step s (.rpcError sid i) (s.update sid (st.put i .sleeping))
  | receive {s : Cluster} {sid i child : ℕ} {st ch : Stream} {item : Item} {rest : List Item}
      (hch : s.streams[child]? = some ch) (hwire : ch.wire = item :: rest)
      (hst : (s.update child { ch with wire := rest }).streams[sid]? = some st)
      (hw : st.workers[i]? = some (.receiving child)) :
      Step s (.receive sid i) ((s.update child { ch with wire := rest }).update sid
        (st.put i (.afterPop (some item))))
  | timeout {s : Cluster} {sid i child : ℕ} {st : Stream} (hst : s.streams[sid]? = some st)
      (hw : st.workers[i]? = some (.receiving child)) :
      Step s (.timeout sid i) (s.update sid (st.put i (.afterPop none)))
  -- the response stream
  | emit {s : Cluster} {sid : ℕ} {st : Stream} {item : Item} {rest : List Item}
      (hst : s.streams[sid]? = some st) (hclient : st.client = true)
      (hchan : st.channel = item :: rest) :
      Step s (.pull sid) { s.update sid { st with channel := rest } with
        emitted := s.emitted ++ [⟨sid, st.queue, item⟩] }
  | relay {s : Cluster} {sid : ℕ} {st : Stream} {item : Item} {rest : List Item}
      (hst : s.streams[sid]? = some st) (hclient : st.client = false)
      (hchan : st.channel = item :: rest) :
      Step s (.pull sid)
        (s.update sid { st with channel := rest, wire := st.wire ++ [item] })
  | close {s : Cluster} {sid : ℕ} {st : Stream} (hst : s.streams[sid]? = some st) :
      Step s (.close sid) (s.update sid { st with channel := [], isOpen := false })

end BlunMq
