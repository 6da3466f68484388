import BlunMq.Lib.Sampled
import BlunMq.Raft.Replication
import BlunMq.Raft.StateMachine

/-!
# Status reports

`watch_status` and the two HTTP routes report the queue depths of their own node and the
leaders of both groups. A turn reads the depths under the lock and then awaits one leader
after the other, while entries are applied and snapshots installed. Nodes lag behind each
other, so two reports may differ; but as long as no snapshot is built late, every report is
of one position of the log.
-/

namespace BlunMq.Status
open StateMachineStore Replication

structure StatusPayload where
  nodeId : String
  queueDepths : Map String UInt64
  nodesGroupLeader : Option UInt64
  queueGroupLeader : Option UInt64

structure StatusUpdate where
  nodeId : String
  queueDepths : Map String UInt64
  nodesGroupLeader : UInt64
  queueGroupLeader : UInt64

inductive Endpoint
  | watchStatus
  | statusOnce
  | statusStream
  deriving DecidableEq

inductive Report
  | update (u : StatusUpdate)
  | payload (p : StatusPayload)

def Report.queueDepths : Report → Map String UInt64
  | update u => u.queueDepths
  | payload p => p.queueDepths

/-- The gRPC report has no absent leader: `unwrap_or_default` makes it 0. -/
def Endpoint.report (endpoint : Endpoint) (nodeId : String) (queueDepths : Map String UInt64)
    (nodesGroupLeader queueGroupLeader : Option UInt64) : Report :=
  match endpoint with
  | watchStatus =>
    .update ⟨nodeId, queueDepths, nodesGroupLeader.getD 0, queueGroupLeader.getD 0⟩
  | statusOnce => .payload ⟨nodeId, queueDepths, nodesGroupLeader, queueGroupLeader⟩
  | statusStream => .payload ⟨nodeId, queueDepths, nodesGroupLeader, queueGroupLeader⟩

@[simp] theorem Endpoint.report_queueDepths (endpoint : Endpoint) (nodeId : String)
    (queueDepths : Map String UInt64) (nodesGroupLeader queueGroupLeader : Option UInt64) :
    (endpoint.report nodeId queueDepths nodesGroupLeader queueGroupLeader).queueDepths =
      queueDepths := by
  cases endpoint <;> rfl

/-- How far the current turn is, and what it holds already. -/
inductive Turn
  | idle
  | depths (queueDepths : Map String UInt64)
  | nodesLeader (queueDepths : Map String UInt64) (leader : Option UInt64)
  | closed

structure Stream where
  endpoint : Endpoint
  node : ℕ
  turn : Turn
  reports : List Report

/-- The name of a node, and what `current_leader` of each group says there. -/
structure Node where
  nodeId : String
  nodesLeader : Option UInt64
  queueLeader : Option UInt64

structure World where
  group : Replication.World QueueState QueueRequest
  nodes : List Node
  streams : List Stream

def World.start (ids : List String) : World :=
  ⟨.start QueueState.default ids.length, ids.map fun id => ⟨id, none, none⟩, []⟩

def World.setStream (s : World) (k : ℕ) (stream : Stream) : World :=
  { s with streams := s.streams.set k stream }

/-- The streams of a process end with it. -/
def Stream.stop (act : Replication.Act QueueRequest) (stream : Stream) : Stream :=
  match act with
  | .restart i => if stream.node = i then { stream with turn := .closed } else stream
  | _ => stream

inductive Act
  | group (act : Replication.Act QueueRequest)
  | elect (i : ℕ) (nodesLeader queueLeader : Option UInt64)
  | subscribe (i : ℕ) (endpoint : Endpoint)
  | readDepths (k : ℕ)
  | readNodesLeader (k : ℕ)
  | report (k : ℕ)
  | close (k : ℕ)

variable (serde : SerdeJson SnapshotPayload)

inductive Step : World → Act → World → Prop
  | group {s : World} {act : Replication.Act QueueRequest}
      {group' : Replication.World QueueState QueueRequest}
      (h : Replication.Step machine serde QueueState.default s.group act group') :
      Step s (.group act) ⟨group', s.nodes, s.streams.map (Stream.stop act)⟩
  | elect {s : World} {i : ℕ} {node : Node} {nodesLeader queueLeader : Option UInt64}
      (hi : s.nodes[i]? = some node) :
      Step s (.elect i nodesLeader queueLeader)
        { s with nodes := s.nodes.set i ⟨node.nodeId, nodesLeader, queueLeader⟩ }
  | subscribe {s : World} {i : ℕ} {w : QueueState × Store} (endpoint : Endpoint)
      (hi : s.group.replicas[i]? = some w) :
      Step s (.subscribe i endpoint)
        { s with streams := s.streams ++ [⟨endpoint, i, .idle, []⟩] }
  | readDepths {s : World} {k : ℕ} {stream : Stream} {w : QueueState × Store}
      (hk : s.streams[k]? = some stream) (hturn : stream.turn = .idle)
      (hw : s.group.replicas[stream.node]? = some w) :
      Step s (.readDepths k) (s.setStream k { stream with turn := .depths w.1.depths })
  | readNodesLeader {s : World} {k : ℕ} {stream : Stream} {node : Node}
      {d : Map String UInt64} (hk : s.streams[k]? = some stream) (hturn : stream.turn = .depths d)
      (hnode : s.nodes[stream.node]? = some node) :
      Step s (.readNodesLeader k)
        (s.setStream k { stream with turn := .nodesLeader d node.nodesLeader })
  | report {s : World} {k : ℕ} {stream : Stream} {node : Node} {d : Map String UInt64}
      {leader : Option UInt64} (hk : s.streams[k]? = some stream)
      (hturn : stream.turn = .nodesLeader d leader) (hnode : s.nodes[stream.node]? = some node) :
      Step s (.report k)
        (s.setStream k { stream with
          turn := if stream.endpoint = .statusOnce then .closed else .idle
          reports := stream.reports ++
            [stream.endpoint.report node.nodeId d leader node.queueLeader] })
  | close {s : World} {k : ℕ} {stream : Stream} (hk : s.streams[k]? = some stream) :
      Step s (.close k) (s.setStream k { stream with turn := .closed })

def TimelyStep (s : World) (act : Act) (s' : World) : Prop :=
  Step serde s act s' ∧ ∀ a, act = .group a → Timely s.group a

def Shows (log : CommittedLog QueueRequest) (n : ℕ) (queueDepths : Map String UInt64) : Prop :=
  n ≤ log.entries.length ∧ queueDepths = (stateAfter (log.entries.take n)).depths

abbrev StandsAt (log : CommittedLog QueueRequest) (n : ℕ) (w : QueueState × Store) : Prop :=
  Stands machine QueueState.default log n w.2.lastApplied w.2.lastMembership

def Stream.seen (stream : Stream) : List (Map String UInt64) :=
  stream.reports.map Report.queueDepths ++
    match stream.turn with
    | .depths d => [d]
    | .nodesLeader d _ => [d]
    | _ => []

/-- What the stream has read is of positions from `lo` on, in order, and its node, as long as
the stream is open, stands where the last of them is or beyond. -/
def Tracks (lo : ℕ) (s : World) (stream : Stream) : Prop :=
  ∃ hi, Sampled (Shows s.group.log) lo hi stream.seen ∧
    (stream.turn ≠ .closed → lo ≤ hi ∧ ∃ w, s.group.replicas[stream.node]? = some w ∧
      StandsAt s.group.log hi w)

structure Ordered (lo : ℕ → ℕ → ℕ) (s : World) : Prop where
  sound : Sound machine serde QueueState.default False s.group
  ahead : ∀ (i n : ℕ) w, s.group.replicas[i]? = some w → StandsAt s.group.log n w →
    ∀ k, s.streams.length ≤ k → lo k i ≤ n
  streams : ∀ k stream, s.streams[k]? = some stream → Tracks (lo k stream.node) s stream

variable {serde} {log log' : CommittedLog QueueRequest} {lo : ℕ → ℕ → ℕ} {s s' : World}
  {act : Act} {acts : List Act}

theorem Shows.grow {n : ℕ} {d : Map String UInt64} (h : Shows log n d)
    (hlog : log.entries <+: log'.entries) : Shows log' n d := by
  obtain ⟨hle, hd⟩ := h
  obtain ⟨more, hmore⟩ := hlog
  refine ⟨?_, ?_⟩
  · rw [← hmore, List.length_append]
    exact Nat.le_add_right_of_le hle
  · rw [hd, ← hmore, List.take_append_of_le_length hle]

theorem shows_of_sound {group : Replication.World QueueState QueueRequest} {i n : ℕ}
    {w : QueueState × Store} (h : Sound machine serde QueueState.default False group)
    (hi : group.replicas[i]? = some w) (hn : StandsAt group.log n w) :
    Shows group.log n w.1.depths := by
  obtain ⟨⟨m, hm, es, hes, hcell⟩, -⟩ := h.replicas w (List.mem_of_getElem? hi)
  cases hm.unique hn
  refine ⟨hn.le, ?_⟩
  rw [hcell, hes.eq_take not_false, stateAfter_eq]
  exact congrArg QueueState.depths (final_cell _ _)

theorem Tracks.close {lo : ℕ} {stream : Stream} (h : Tracks lo s stream) :
    Tracks lo s { stream with turn := .closed } := by
  obtain ⟨hi, hseen, -⟩ := h
  refine ⟨hi, ?_, fun hopen => absurd rfl hopen⟩
  rw [Stream.seen, List.append_nil]
  exact hseen.of_append

theorem Stream.stop_node (act : Replication.Act QueueRequest) (stream : Stream) :
    (stream.stop act).node = stream.node := by
  unfold Stream.stop
  split
  · split <;> rfl
  · rfl

theorem Stream.stop_of_ne {act : Replication.Act QueueRequest} {stream : Stream}
    (h : act ≠ .restart stream.node) : stream.stop act = stream := by
  unfold Stream.stop
  split
  · exact if_neg fun heq => h (congrArg _ heq.symm)
  · rfl

theorem Tracks.group {lo : ℕ} {stream : Stream} (h : Tracks lo s stream)
    (hsound : Sound machine serde QueueState.default False s.group)
    {act : Replication.Act QueueRequest} {group' : Replication.World QueueState QueueRequest}
    (hs : Replication.Step machine serde QueueState.default s.group act group') :
    Tracks lo ⟨group', s.nodes, s.streams.map (Stream.stop act)⟩ (stream.stop act) := by
  by_cases hact : act = .restart stream.node
  · obtain ⟨hi, hseen, -⟩ := h.close
    have hstop : stream.stop act = { stream with turn := .closed } := by
      rw [hact]
      exact if_pos rfl
    rw [hstop]
    exact ⟨hi, hseen.mono fun _ _ hx => hx.grow hs.log_grows, fun hopen => absurd rfl hopen⟩
  · obtain ⟨hi, hseen, hopen⟩ := h
    rw [Stream.stop_of_ne hact]
    have hgrown := hseen.mono fun _ _ hx => hx.grow hs.log_grows
    by_cases hturn : stream.turn = .closed
    · exact ⟨hi, hgrown, fun hne => absurd hturn hne⟩
    · obtain ⟨hle, w, hw, hat⟩ := hopen hturn
      obtain ⟨p, v, hp, hv, hstands⟩ := hsound.advances hs hw hact hat
      exact ⟨p, hgrown.rise hp, fun _ => ⟨hle.trans hp, v, hv, hstands⟩⟩

namespace Ordered

theorem start (ids : List String) : Ordered serde (fun _ _ => 0) (World.start ids) where
  sound := Sound.start _
  ahead _ _ _ _ _ _ _ := Nat.zero_le _
  streams k stream hk := by cases hk

theorem setStream (h : Ordered serde lo s) {k : ℕ} {stream stream' : Stream}
    (hk : s.streams[k]? = some stream) (hnode : stream'.node = stream.node)
    (htracks : Tracks (lo k stream.node) s stream') :
    Ordered serde lo (s.setStream k stream') where
  sound := h.sound
  ahead i n w hw hn j hj := h.ahead i n w hw hn j (by simpa [World.setStream] using hj)
  streams j other hj := by
    rcases eq_or_ne k j with rfl | hne
    · have hother : stream' = other := by
        simpa [World.setStream, (List.getElem?_eq_some_iff.mp hk).1] using hj
      rw [← hother, hnode]
      exact htracks
    · rw [World.setStream, List.getElem?_set_ne hne] at hj
      exact h.streams j other hj

theorem subscribe (h : Ordered serde lo s) {i : ℕ} {w : QueueState × Store} (endpoint : Endpoint)
    (hi : s.group.replicas[i]? = some w) :
    Ordered serde lo { s with streams := s.streams ++ [⟨endpoint, i, .idle, []⟩] } where
  sound := h.sound
  ahead j n v hv hn k hk := by
    refine h.ahead j n v hv hn k ?_
    rw [List.length_append] at hk
    exact Nat.le_of_add_right_le hk
  streams k stream hk := by
    rw [List.getElem?_append] at hk
    split at hk
    · exact h.streams k stream hk
    · rename_i hlt
      have hstream := List.mem_singleton.mp (List.mem_of_getElem? hk)
      obtain ⟨⟨n, hn, -⟩, -⟩ := h.sound.replicas w (List.mem_of_getElem? hi)
      rw [hstream]
      exact ⟨n, .nil, fun _ => ⟨h.ahead i n w hi hn k (Nat.le_of_not_lt hlt), w, hi, hn⟩⟩

theorem group (h : Ordered serde lo s) {act : Replication.Act QueueRequest}
    {group' : Replication.World QueueState QueueRequest}
    (hs : Replication.Step machine serde QueueState.default s.group act group')
    (htimely : Timely s.group act) (hrestart : ∀ i, act = .restart i → ∀ k, lo k i = 0) :
    Ordered serde lo ⟨group', s.nodes, s.streams.map (Stream.stop act)⟩ where
  sound := h.sound.step hs (.inr htimely)
  ahead i n w hw hn k hk := by
    by_cases hact : act = .restart i
    · rw [hrestart i hact k]
      exact Nat.zero_le n
    · have hlt : i < s.group.replicas.length := by
        rw [← hs.length_replicas]
        exact (List.getElem?_eq_some_iff.mp hw).1
      have hold : s.group.replicas[i]? = some s.group.replicas[i] := List.getElem?_eq_getElem hlt
      obtain ⟨⟨m, hm, -⟩, -⟩ := h.sound.replicas _ (List.mem_of_getElem? hold)
      obtain ⟨p, v, hle, hv, hp⟩ := h.sound.advances hs hold hact hm
      cases hw.symm.trans hv
      cases hn.unique hp
      rw [List.length_map] at hk
      exact (h.ahead i m _ hold hm k hk).trans hle
  streams k stream hk := by
    obtain ⟨old, hold, rfl⟩ : ∃ old, s.streams[k]? = some old ∧ old.stop act = stream := by
      simpa using hk
    rw [Stream.stop_node]
    exact (h.streams k old hold).group h.sound hs

theorem step (h : Ordered serde lo s) (hs : TimelyStep serde s act s')
    (hrestart : ∀ i, act = .group (.restart i) → ∀ k, lo k i = 0) : Ordered serde lo s' := by
  obtain ⟨hs, htimely⟩ := hs
  cases hs with
  | @group act group' hstep =>
    exact h.group hstep (htimely _ rfl) fun i hact => hrestart i (congrArg Act.group hact)
  | elect hi => exact ⟨h.sound, h.ahead, h.streams⟩
  | subscribe endpoint hi => exact h.subscribe endpoint hi
  | @readDepths k stream w hk hturn hw =>
    obtain ⟨hi, hseen, hopen⟩ := h.streams k stream hk
    obtain ⟨hle, v, hv, hat⟩ := hopen (by simp [hturn])
    cases hw.symm.trans hv
    refine h.setStream hk rfl ⟨hi, ?_, fun _ => ⟨hle, w, hw, hat⟩⟩
    rw [Stream.seen, hturn, List.append_nil] at hseen
    exact hseen.read hle (shows_of_sound h.sound hw hat)
  | @readNodesLeader k stream node d hk hturn hnode =>
    obtain ⟨hi, hseen, hopen⟩ := h.streams k stream hk
    rw [Stream.seen, hturn] at hseen
    exact h.setStream hk rfl ⟨hi, hseen, fun _ => hopen (by simp [hturn])⟩
  | @report k stream node d leader hk hturn hnode =>
    obtain ⟨hi, hseen, hopen⟩ := h.streams k stream hk
    refine h.setStream hk rfl ⟨hi, ?_, fun _ => hopen (by simp [hturn])⟩
    rw [Stream.seen, hturn] at hseen
    -- what was held becomes what was reported
    by_cases honce : stream.endpoint = .statusOnce
    · simpa [Stream.seen, honce] using hseen
    · simpa [Stream.seen, honce] using hseen
  | @close k stream hk => exact h.setStream hk rfl (h.streams k stream hk).close

theorem run (h : Ordered serde lo s) (hrun : Lts.Steps (TimelyStep serde) s acts s')
    (hrestart : ∀ i, .group (.restart i) ∈ acts → ∀ k, lo k i = 0) : Ordered serde lo s' := by
  induction hrun with
  | nil => exact h
  | snoc _ hstep ih =>
    refine (ih fun i hi => hrestart i (List.mem_append_left _ hi)).step hstep fun i hact => ?_
    exact hrestart i (List.mem_append_right _ (List.mem_singleton.mpr hact.symm))

end Ordered

def publishedAt (log : CommittedLog QueueRequest) (n : ℕ) (q : String) : List Bytes :=
  QueueState.publishedTo q (requests (log.entries.take n))

def poppedAt (log : CommittedLog QueueRequest) (n : ℕ) (q : String) : List (UInt64 × Bytes) :=
  QueueState.poppedFrom q (requests (log.entries.take n))
    (QueueState.responses (requests (log.entries.take n)))

structure Reported (log : CommittedLog QueueRequest) (n : ℕ) (r : Report) : Prop where
  le : n ≤ log.entries.length
  depth : ∀ q, ∃ waiting, (poppedAt log n q).length + waiting = (publishedAt log n q).length ∧
    r.queueDepths[q]? = if publishedAt log n q = [] then none else some (UInt64.ofNat waiting)

theorem Shows.reported {n : ℕ} {r : Report} (h : Shows log n r.queueDepths) :
    Reported log n r where
  le := h.1
  depth q := by
    let reqs := requests (log.entries.take n)
    have hbank := QueueState.finalState_represents reqs
    have htaken := (QueueState.bankOf reqs q).taken_le
    refine ⟨(QueueState.bankOf reqs q).waiting.length, ?_, ?_⟩
    · rw [Fifo.length_waiting, poppedAt, publishedAt, ← QueueState.bankOf_taken,
        ← QueueState.bankOf_pushed]
      exact Nat.add_sub_cancel' htaken
    · rw [h.2, stateAfter_eq, QueueState.depths, Std.ExtTreeMap.getElem?_map, hbank.queues,
        QueueState.entry, QueueState.bankOf_pushed, publishedAt]
      split <;> simp

theorem publishedAt_mono (log : CommittedLog QueueRequest) {n m : ℕ} (h : n ≤ m) (q : String) :
    publishedAt log n q <+: publishedAt log m q := by
  rw [publishedAt, publishedAt, take_split log h, QueueState.publishedTo, QueueState.publishedTo,
    List.filterMap_append]
  exact List.prefix_append _ _

theorem Reported.mem_iff {n : ℕ} {r : Report} (h : Reported log n r) (q : String) :
    q ∈ r.queueDepths ↔ publishedAt log n q ≠ [] := by
  obtain ⟨_, -, hdepth⟩ := h.depth q
  rw [Std.ExtTreeMap.mem_iff_isSome_getElem?, hdepth]
  split <;> simp [*]

theorem Reported.later {n m : ℕ} {r r' : Report} (h : Reported log n r) (h' : Reported log m r')
    (hle : n ≤ m) {q : String} (hq : q ∈ r.queueDepths) : q ∈ r'.queueDepths :=
  (h'.mem_iff q).mpr ((publishedAt_mono log hle q).ne_nil ((h.mem_iff q).mp hq))

/-- As long as no snapshot is built late, every report of every stream, on any node and over
any run, is of one position of the log: it lists exactly the queues published to by then, with
what was not popped by then. The positions of one stream never fall, so no queue ever vanishes
from it. A stream opened after its node had applied `n` entries reports no earlier position,
unless the node restarts. -/
theorem reports_on_one_timeline {ids : List String} {s s' : World} {before after : List Act}
    (hbefore : Lts.Steps (TimelyStep serde) (World.start ids) before s)
    (hafter : Lts.Steps (TimelyStep serde) s after s') {i n : ℕ} {w : QueueState × Store}
    (hw : s.group.replicas[i]? = some w) (hn : n ≤ s.group.log.entries.length)
    (happlied : w.2.lastApplied = s.group.log.lastId n) (hrestart : .group (.restart i) ∉ after)
    {k : ℕ} {stream : Stream} (hk : s'.streams[k]? = some stream) :
    (∃ positions : List ℕ, List.Forall₂ (Reported s'.group.log) positions stream.reports ∧
      positions.Pairwise (· ≤ ·) ∧
      (stream.node = i → s.streams.length ≤ k → ∀ p ∈ positions, n ≤ p)) ∧
    stream.reports.Pairwise fun r r' => ∀ q ∈ r.queueDepths, q ∈ r'.queueDepths := by
  have hordered := (Ordered.start ids).run hbefore fun _ _ _ => rfl
  -- promise position `n` to what node `i` serves from here on
  let lo : ℕ → ℕ → ℕ := fun j a => if a = i ∧ s.streams.length ≤ j then n else 0
  have hlo : Ordered serde lo s := by
    refine ⟨hordered.sound, fun a p v hv hp j _ => ?_, fun j old hj => ?_⟩
    · by_cases hai : a = i ∧ s.streams.length ≤ j
      · have hsame : v = w := Option.some.inj (hv.symm.trans (hai.1 ▸ hw))
        have hpn : n = p := s.group.log.lastId_injective hn hp.le
          (happlied.symm.trans (hsame ▸ hp.lastLogId))
        exact (if_pos hai).trans_le hpn.le
      · exact (if_neg hai).trans_le (Nat.zero_le p)
    · have hlt : ¬ s.streams.length ≤ j :=
        Nat.not_le_of_lt (List.getElem?_eq_some_iff.mp hj).1
      have hzero : lo j old.node = 0 := if_neg fun hai => hlt hai.2
      rw [hzero]
      exact hordered.streams j old hj
  have hfinal : Ordered serde lo s' := by
    refine hlo.run hafter fun a ha j => if_neg ?_
    rintro ⟨rfl, -⟩
    exact hrestart ha
  obtain ⟨hi, hseen, -⟩ := hfinal.streams k stream hk
  have hreported : Sampled (Reported s'.group.log) (lo k stream.node) hi stream.reports := by
    obtain ⟨ps, hshows, hrest⟩ := hseen.of_append
    exact ⟨ps, (List.forall₂_map_right_iff.mp hshows).imp fun _ _ h => h.reported, hrest⟩
  constructor
  · obtain ⟨ps, hps, hsorted, hbounds⟩ := hreported
    refine ⟨ps, hps, hsorted, fun hi hk p hp => ?_⟩
    have hlo : lo k stream.node = n := if_pos ⟨hi, hk⟩
    exact hlo ▸ (hbounds p hp).1
  · exact hreported.pairwise fun _ _ _ _ hle h h' _ hq => h.later h' hle hq

theorem reports_on_one_timeline_popped :
    let serde := Json.serde Json.snapshotPayload
    let publish : Entry QueueRequest := ⟨⟨⟨1, 1⟩, 0⟩, .normal (.publish "spam" [7])⟩
    let pop : Entry QueueRequest := ⟨⟨⟨1, 1⟩, 1⟩, .normal (.pop "spam")⟩
    ∃ s s' stream, Lts.Steps (TimelyStep serde) (World.start ["node-1", "node-2"])
        [.group (.commit publish), .group (.apply 0)] s ∧
      Lts.Steps (TimelyStep serde) s
        [.subscribe 0 .watchStatus, .readDepths 0, .group (.commit pop), .group (.apply 0),
          .readNodesLeader 0, .report 0, .readDepths 0, .readNodesLeader 0, .report 0] s' ∧
      s'.streams[0]? = some stream ∧ stream.reports.length = 2 ∧
      ∃ positions, List.Forall₂ (Reported s'.group.log) positions stream.reports ∧
        positions.Pairwise (· ≤ ·) ∧ ∀ p ∈ positions, 1 ≤ p := by
  intro serde publish pop
  let log : CommittedLog QueueRequest := .single publish
  let log' : CommittedLog QueueRequest := ⟨[publish, pop], by decide⟩
  have hcommit : ∀ (t : World) (e : Entry QueueRequest) (a : Replication.Act QueueRequest),
      Act.group (.commit e) = .group a → Timely t.group a := fun _ _ _ h => by cases h; trivial
  have happly : ∀ (t : World) (a : Replication.Act QueueRequest),
      Act.group (.apply 0) = .group a → Timely t.group a := fun _ _ h => by cases h; trivial
  obtain ⟨s, w, hbefore, hlog, hstreams, hw, happlied, hnext⟩ : ∃ s w,
      Lts.Steps (TimelyStep serde) (World.start ["node-1", "node-2"])
        [.group (.commit publish), .group (.apply 0)] s ∧ s.group.log = log ∧ s.streams = [] ∧
      s.group.replicas[0]? = some w ∧ w.2.lastApplied = log.lastId 1 ∧
      ∃ s' stream, Lts.Steps (TimelyStep serde) s
        [.subscribe 0 .watchStatus, .readDepths 0, .group (.commit pop), .group (.apply 0),
          .readNodesLeader 0, .report 0, .readDepths 0, .readNodesLeader 0, .report 0] s' ∧
        s'.streams[0]? = some stream ∧ stream.node = 0 ∧ stream.reports.length = 2 :=
    ⟨_, _, .cons ⟨.group (.commit (show log.entries = _ from rfl)), hcommit _ _⟩
        (.single ⟨.group (.apply (e := publish) rfl (by decide +kernel)), happly _⟩),
      rfl, rfl, rfl, rfl, _, _,
      .cons ⟨.subscribe _ rfl, fun _ h => by cases h⟩
        (.cons ⟨.readDepths rfl rfl rfl, fun _ h => by cases h⟩
        (.cons ⟨.group (.commit (show log'.entries = _ from rfl)), hcommit _ _⟩
        (.cons ⟨.group (.apply (e := pop) rfl (by decide +kernel)), happly _⟩
        (.cons ⟨.readNodesLeader rfl rfl rfl, fun _ h => by cases h⟩
        (.cons ⟨.report rfl rfl rfl, fun _ h => by cases h⟩
        (.cons ⟨.readDepths rfl rfl rfl, fun _ h => by cases h⟩
        (.cons ⟨.readNodesLeader rfl rfl rfl, fun _ h => by cases h⟩
        (.single ⟨.report rfl rfl rfl, fun _ h => by cases h⟩)))))))), rfl, rfl, rfl⟩
  obtain ⟨s', stream, hafter, hk, hserved, hlen⟩ := hnext
  obtain ⟨⟨positions, hps, hsorted, hfrom⟩, -⟩ := reports_on_one_timeline hbefore hafter hw
    (n := 1) (by rw [hlog]; exact le_rfl) (by rw [hlog]; exact happlied) (by simp) hk
  exact ⟨s, s', stream, hbefore, hafter, hk, hlen, positions, hps, hsorted,
    hfrom hserved (by simp [hstreams])⟩

end BlunMq.Status
