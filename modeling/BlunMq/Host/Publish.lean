import BlunMq.Lib.Steps
import BlunMq.Raft.Group

/-!
# The publish handler and its forwarding hops

A `publish` call proposes its message on the node it reached. If that node is not the
leader it calls the publish handler of the node it takes for the leader, which does
the same. Every run of the handler is an `Activation`; `root` is the client call it
serves. The offset comes from the state machine, travels back over the hops, and is
unwrapped with a default at each of them.
-/

namespace BlunMq

inductive Code
  | invalidArgument
  | unavailable
  | internal
  | other (code : ℕ)
  deriving DecidableEq, Repr

structure Status where
  code : Code
  message : String
  deriving DecidableEq, Repr

namespace Publish

def leaderAddress (peers : Map UInt64 String) (leaderId : Option UInt64) :
    Except Status (UInt64 × String) :=
  match leaderId with
  | none => .error ⟨.unavailable, "no raft leader elected yet"⟩
  | some id =>
    match peers[id]? with
    | none => .error ⟨.internal, "unknown leader address"⟩
    | some addr => .ok (id, addr)

def forwardResponse (offset : UInt64) : QueueResponse := ⟨some offset, none⟩

/-- `published_offset.unwrap_or_default()`. -/
def offsetOf (response : QueueResponse) : UInt64 := response.publishedOffset.getD 0

/-- Where an activation waits: in `client_write`, with the response there once the entry
has been applied; for the peer to take the call; for the peer's answer; or at the end of
`propose`, before the offset is unwrapped. -/
inductive Pc
  | proposing (response : Option QueueResponse)
  | dialing (leader : UInt64)
  | forwarding (child : ℕ)
  | answering (response : QueueResponse)
  | done (result : Except Status UInt64)

structure Activation where
  root : ℕ
  queue : String
  payload : Bytes
  pc : Pc

/-- `roots` names, for each log entry, the client call whose proposal it is. -/
structure World where
  log : CommittedLog QueueRequest
  roots : List (Option ℕ)
  calls : List Activation

def World.start : World := ⟨CommittedLog.empty, [], []⟩

def World.move (s : World) (a : ℕ) (call : Activation) (pc : Pc) : World :=
  { s with calls := s.calls.set a { call with pc := pc } }

def World.spawn (s : World) (root : ℕ) (queue : String) (payload : Bytes) : World :=
  { s with calls := s.calls ++ [⟨root, queue, payload, .proposing none⟩] }

inductive Act
  | call (queue : String) (payload : Bytes)
  | commit (a : ℕ) (id : LogId)
  | commitOther (e : Entry QueueRequest)
  | ok (a : ℕ)
  | error (a : ℕ) (err : String)
  | forwardToLeader (a : ℕ) (leaderId : Option UInt64)
  | accept (a : ℕ)
  | rpcError (a : ℕ) (status : Status)
  | answer (a : ℕ)
  | respond (a : ℕ)

variable (peers : Map UInt64 String)

/-- One step of the publishers. A proposal given up after an error may still be
committed, as one of the entries of `commitOther`. -/
inductive Step : World → Act → World → Prop
  | call (s : World) (queue : String) (payload : Bytes) :
      Step s (.call queue payload) (s.spawn s.calls.length queue payload)
  | commit {s : World} {a : ℕ} {id : LogId} {call : Activation}
      {log' : CommittedLog QueueRequest} {r : QueueResponse} (ha : s.calls[a]? = some call)
      (hpc : call.pc = .proposing none)
      (hc : s.log.commit ⟨id, .normal (.publish call.queue call.payload)⟩ = some (log', r)) :
      Step s (.commit a id) { s.move a call (.proposing (some r)) with
        log := log', roots := s.roots ++ [some call.root] }
  | commitOther {s : World} {e : Entry QueueRequest} {log' : CommittedLog QueueRequest}
      {r : QueueResponse} (hc : s.log.commit e = some (log', r)) :
      Step s (.commitOther e) { s with log := log', roots := s.roots ++ [none] }
  | ok {s : World} {a : ℕ} {call : Activation} {r : QueueResponse}
      (ha : s.calls[a]? = some call) (hpc : call.pc = .proposing (some r)) :
      Step s (.ok a) (s.move a call (.answering r))
  | error {s : World} {a : ℕ} {err : String} {call : Activation}
      {response : Option QueueResponse} (ha : s.calls[a]? = some call)
      (hpc : call.pc = .proposing response) :
      Step s (.error a err)
        (s.move a call (.done (.error ⟨.internal, "raft write failed: " ++ err⟩)))
  | forwarded {s : World} {a : ℕ} {leaderId : Option UInt64} {call : Activation}
      {leader : UInt64} {addr : String} (ha : s.calls[a]? = some call)
      (hpc : call.pc = .proposing none) (hl : leaderAddress peers leaderId = .ok (leader, addr)) :
      Step s (.forwardToLeader a leaderId) (s.move a call (.dialing leader))
  | leaderless {s : World} {a : ℕ} {leaderId : Option UInt64} {call : Activation}
      {status : Status} (ha : s.calls[a]? = some call) (hpc : call.pc = .proposing none)
      (hl : leaderAddress peers leaderId = .error status) :
      Step s (.forwardToLeader a leaderId) (s.move a call (.done (.error status)))
  | accept {s : World} {a : ℕ} {call : Activation} {leader : UInt64}
      (ha : s.calls[a]? = some call) (hpc : call.pc = .dialing leader) :
      Step s (.accept a) ((s.move a call (.forwarding s.calls.length)).spawn call.root call.queue
        call.payload)
  | unreachable {s : World} {a : ℕ} {status : Status} {call : Activation} {leader : UInt64}
      (ha : s.calls[a]? = some call) (hpc : call.pc = .dialing leader) :
      Step s (.rpcError a status) (s.move a call (.done (.error status)))
  | broken {s : World} {a : ℕ} {status : Status} {call : Activation} {child : ℕ}
      (ha : s.calls[a]? = some call) (hpc : call.pc = .forwarding child) :
      Step s (.rpcError a status) (s.move a call (.done (.error status)))
  | answered {s : World} {a child : ℕ} {call peer : Activation} {offset : UInt64}
      (ha : s.calls[a]? = some call) (hpc : call.pc = .forwarding child)
      (hchild : s.calls[child]? = some peer) (hdone : peer.pc = .done (.ok offset)) :
      Step s (.answer a) (s.move a call (.answering (forwardResponse offset)))
  | refused {s : World} {a child : ℕ} {call peer : Activation} {status : Status}
      (ha : s.calls[a]? = some call) (hpc : call.pc = .forwarding child)
      (hchild : s.calls[child]? = some peer) (hdone : peer.pc = .done (.error status)) :
      Step s (.answer a) (s.move a call (.done (.error status)))
  | respond {s : World} {a : ℕ} {call : Activation} {r : QueueResponse}
      (ha : s.calls[a]? = some call) (hpc : call.pc = .answering r) :
      Step s (.respond a) (s.move a call (.done (.ok (offsetOf r))))

def publishedBefore (log : CommittedLog QueueRequest) (q : String) (n : ℕ) : ℕ :=
  (QueueState.publishedTo q (StateMachineStore.requests (log.entries.take n))).length

structure OwnEntry (s : World) (root : ℕ) (queue : String) (payload : Bytes) (n : ℕ) : Prop where
  owner : s.roots[n]? = some (some root)
  entry : ∃ e, s.log.entries[n]? = some e ∧ e.payload = .normal (.publish queue payload)

def Stamped (s : World) (call : Activation) (offset : UInt64) : Prop :=
  ∃ n, OwnEntry s call.root call.queue call.payload n ∧
    offset.toNat = publishedBefore s.log call.queue n

def Tracked (s : World) (call : Activation) : Prop :=
  match call.pc with
  | .proposing (some r) => ∃ o, r.publishedOffset = some o ∧ Stamped s call o
  | .answering r => ∃ o, r.publishedOffset = some o ∧ Stamped s call o
  | .done (.ok o) => Stamped s call o
  | .forwarding child => ∃ peer, s.calls[child]? = some peer ∧ peer.root = call.root ∧
      peer.queue = call.queue ∧ peer.payload = call.payload
  | _ => True

structure Invariant (s : World) : Prop where
  length : s.roots.length = s.log.entries.length
  tracked : ∀ call ∈ s.calls, Tracked s call

variable {peers} {s s' : World} {a : ℕ} {call : Activation}

structure Extends (s s' : World) : Prop where
  log : s.log.entries <+: s'.log.entries
  roots : s.roots <+: s'.roots
  calls : ∀ (child : ℕ) (peer : Activation), s.calls[child]? = some peer →
    ∃ peer', s'.calls[child]? = some peer' ∧ peer'.root = peer.root ∧ peer'.queue = peer.queue ∧
      peer'.payload = peer.payload

theorem Stamped.mono (h : Extends s s') {o : UInt64} (ho : Stamped s call o) :
    Stamped s' call o := by
  obtain ⟨n, ⟨howner, e, he, hp⟩, hcount⟩ := ho
  refine ⟨n, ⟨getElem?_of_isPrefix h.roots howner, e, getElem?_of_isPrefix h.log he, hp⟩, ?_⟩
  have hn := (List.getElem?_eq_some_iff.mp he).1
  obtain ⟨t, ht⟩ := h.log
  rw [hcount, publishedBefore, publishedBefore, ← ht, List.take_append_of_le_length hn.le]

theorem Tracked.mono (h : Extends s s') (ht : Tracked s call) : Tracked s' call := by
  unfold Tracked at ht ⊢
  split at ht
  · obtain ⟨o, hr, ho⟩ := ht
    exact ⟨o, hr, ho.mono h⟩
  · obtain ⟨o, hr, ho⟩ := ht
    exact ⟨o, hr, ho.mono h⟩
  · exact ht.mono h
  · obtain ⟨peer, hpeer, hroot, hqueue, hpayload⟩ := ht
    obtain ⟨peer', hpeer', hr, hq, hp⟩ := h.calls _ _ hpeer
    exact ⟨peer', hpeer', hr.trans hroot, hq.trans hqueue, hp.trans hpayload⟩
  · trivial

theorem extends_move (ha : s.calls[a]? = some call) (pc : Pc) : Extends s (s.move a call pc) := by
  refine ⟨List.prefix_rfl, List.prefix_rfl, fun child peer hpeer => ?_⟩
  by_cases h : a = child
  · subst h
    rw [ha] at hpeer
    cases hpeer
    exact ⟨_, List.getElem?_set_self (List.getElem?_eq_some_iff.mp ha).1, rfl, rfl, rfl⟩
  · exact ⟨peer, by rw [World.move, List.getElem?_set_ne h, hpeer], rfl, rfl, rfl⟩

theorem extends_spawn (s : World) (root : ℕ) (queue : String) (payload : Bytes) :
    Extends s (s.spawn root queue payload) :=
  ⟨List.prefix_rfl, List.prefix_rfl, fun _ peer hpeer =>
    ⟨peer, getElem?_of_isPrefix (List.prefix_append _ _) hpeer, rfl, rfl, rfl⟩⟩

theorem extends_commit {e : Entry QueueRequest} {log' : CommittedLog QueueRequest}
    {r : QueueResponse} (hc : s.log.commit e = some (log', r)) (root : Option ℕ) :
    Extends s { s with log := log', roots := s.roots ++ [root] } := by
  refine ⟨?_, List.prefix_append _ _, fun _ peer hpeer => ⟨peer, hpeer, rfl, rfl, rfl⟩⟩
  rw [CommittedLog.commit_entries hc]
  exact List.prefix_append _ _

theorem Invariant.lookup (h : Invariant s) (ha : s.calls[a]? = some call) : Tracked s call :=
  h.tracked call (List.mem_of_getElem? ha)

theorem Invariant.move (h : Invariant s) (ha : s.calls[a]? = some call) {pc : Pc}
    (ht : Tracked s { call with pc := pc }) : Invariant (s.move a call pc) := by
  refine ⟨h.length, fun x hx => ?_⟩
  rcases List.mem_or_eq_of_mem_set hx with hx | rfl
  · exact (h.tracked x hx).mono (extends_move ha pc)
  · exact ht.mono (extends_move ha pc)

theorem Invariant.spawn (h : Invariant s) (root : ℕ) (queue : String) (payload : Bytes) :
    Invariant (s.spawn root queue payload) := by
  refine ⟨h.length, fun x hx => ?_⟩
  rcases List.mem_append.mp hx with hx | hx
  · exact (h.tracked x hx).mono (extends_spawn s root queue payload)
  · rw [List.mem_singleton.mp hx]
    trivial

theorem Invariant.commit (h : Invariant s) {e : Entry QueueRequest}
    {log' : CommittedLog QueueRequest} {r : QueueResponse}
    (hc : s.log.commit e = some (log', r)) (root : Option ℕ) :
    Invariant { s with log := log', roots := s.roots ++ [root] } := by
  refine ⟨?_, fun x hx => (h.tracked x hx).mono (extends_commit hc root)⟩
  simp [CommittedLog.commit_entries hc, h.length]

theorem commit_publish {log log' : CommittedLog QueueRequest} {r : QueueResponse} {id : LogId}
    {queue : String} {payload : Bytes}
    (hc : log.commit ⟨id, .normal (.publish queue payload)⟩ = some (log', r)) :
    ∃ o, r.publishedOffset = some o ∧
      o.toNat = publishedBefore log' queue log.entries.length := by
  have hrep := QueueState.finalState_represents (StateMachineStore.requests log.entries)
  rw [← log.state_eq] at hrep
  refine ⟨log.state.nextOffset.getD queue 0, ?_, ?_⟩
  · rw [(CommittedLog.commit_normal hc).1]
    rfl
  · have hentries := CommittedLog.commit_entries hc
    have hlen : (log.published queue).length < 2 ^ 64 := by
      have h1 : (log.published queue).length ≤ log.entries.length :=
        (List.length_filterMap_le _ _).trans (List.length_filterMap_le _ _)
      have h2 := log'.length_le
      rw [hentries, List.length_append, List.length_singleton] at h2
      omega
    rw [CommittedLog.published] at hlen
    rw [hrep.getD_nextOffset, QueueState.bankOf_pushed, UInt64.toNat_ofNat_of_lt' hlen,
      publishedBefore, hentries, List.take_left']
    rfl

theorem Invariant.accept (h : Invariant s) (ha : s.calls[a]? = some call) :
    Invariant ((s.move a call (.forwarding s.calls.length)).spawn call.root call.queue
      call.payload) := by
  refine ⟨h.length, fun x hx => ?_⟩
  have hext := extends_spawn (s.move a call (.forwarding s.calls.length)) call.root call.queue
    call.payload
  rcases List.mem_append.mp hx with hx | hx
  · rcases List.mem_or_eq_of_mem_set hx with hx | rfl
    · exact ((h.tracked x hx).mono (extends_move ha _)).mono hext
    · exact ⟨⟨call.root, call.queue, call.payload, .proposing none⟩,
        by simp [World.spawn, World.move], rfl, rfl, rfl⟩
  · rw [List.mem_singleton.mp hx]
    trivial

theorem Invariant.step {act : Act} (h : Invariant s) (hstep : Step peers s act s') :
    Invariant s' := by
  cases hstep with
  | call queue payload => exact h.spawn _ _ _
  | @commit a id call log' r ha hpc hc =>
    refine Invariant.move (h.commit hc (some call.root)) ha ?_
    obtain ⟨o, hr, ho⟩ := commit_publish hc
    refine ⟨o, hr, s.log.entries.length, ⟨?_, ?_⟩, ho⟩
    · simp [← h.length]
    · exact ⟨⟨id, .normal (.publish call.queue call.payload)⟩,
        by simp [CommittedLog.commit_entries hc], rfl⟩
  | commitOther hc => exact h.commit hc none
  | ok ha hpc =>
    refine h.move ha ?_
    have ht := h.lookup ha
    rw [Tracked, hpc] at ht
    exact ht
  | error ha | forwarded ha | leaderless ha | unreachable ha | broken ha | refused ha =>
    exact h.move ha trivial
  | @accept a call leader ha hpc =>
    exact h.accept ha
  | @answered a child call peer offset ha hpc hchild hdone =>
    refine h.move ha ⟨offset, rfl, ?_⟩
    have ht := h.lookup ha
    rw [Tracked, hpc] at ht
    obtain ⟨peer', hpeer', hroot, hqueue, hpayload⟩ := ht
    rw [hchild] at hpeer'
    cases hpeer'
    have hp := h.lookup hchild
    rw [Tracked, hdone] at hp
    unfold Stamped at hp ⊢
    rwa [hroot, hqueue, hpayload] at hp
  | @respond a call r ha hpc =>
    refine h.move ha ?_
    have ht := h.lookup ha
    rw [Tracked, hpc] at ht
    obtain ⟨o, hr, ho⟩ := ht
    show Stamped s call (offsetOf r)
    rw [offsetOf, hr]
    exact ho

theorem invariant_run {as : List Act} (h : Lts.Steps (Step peers) World.start as s) :
    Invariant s :=
  h.invariant (P := Invariant) (fun _ _ _ hs hstep => hs.step hstep)
    ⟨rfl, fun _ hx => by cases hx⟩

theorem publishedBefore_lt {log : CommittedLog QueueRequest} {q : String} {payload : Bytes}
    {n m : ℕ} {e : Entry QueueRequest} (he : log.entries[n]? = some e)
    (hp : e.payload = .normal (.publish q payload)) (hnm : n < m) :
    publishedBefore log q n < publishedBefore log q m := by
  have hsucc : publishedBefore log q (n + 1) = publishedBefore log q n + 1 := by
    rw [publishedBefore, List.take_add_one, he]
    simp [StateMachineStore.requests, QueueState.publishedTo, hp, publishedBefore]
  have hmono : publishedBefore log q (n + 1) ≤ publishedBefore log q m :=
    (((List.take_sublist_take_left hnm).filterMap _).filterMap _).length_le
  omega

structure Acknowledged (s : World) (a : ℕ) (call : Activation) (offset : UInt64) : Prop where
  lookup : s.calls[a]? = some call
  client : call.root = a
  done : call.pc = .done (.ok offset)

end Publish
end BlunMq
