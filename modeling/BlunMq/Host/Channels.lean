import BlunMq.Lib.Mealy
import BlunMq.Lib.Memo
import BlunMq.Host.Consume

/-!
# The channels between the nodes

A node that is not the leader forwards what it gets. Its publish handlers and its pop
workers share one table of channels, filled on demand and keyed by the node id of the
leader; dialing for every message is what it is there to avoid. `fromShared` stands for
`Channel::from_shared`, with the text of its error.
-/

namespace BlunMq
namespace Channels

/-- A lazy channel. Two channels with one number are clones of each other. -/
structure Channel where
  number : ℕ
  addr : String
  deriving DecidableEq, Repr

abbrev ForwardChannels := Memo.Table UInt64 Channel compare

inductive Message
  | publish (queue : String) (payload : Bytes)
  | subscribe (queue : String)
  deriving DecidableEq

/-- What `client_write` returned; other errors come as their `Debug` text. -/
inductive Written
  | ok (resp : QueueResponse)
  | forwardToLeader (leaderId : Option UInt64)
  | failed (debug : String)

inductive Hop
  | reply (result : Except Status QueueResponse)
  | call (leader : UInt64) (channel : Channel) (message : Message)
  | popped (item : Option Item)
  | sleep

variable (fromShared : String → Except String Unit) (peers : Map UInt64 String)

def connectLazy (addr : String) (number : ℕ) : Except Status Channel :=
  match fromShared addr with
  | .error e => .error ⟨.internal, e⟩
  | .ok () => .ok ⟨number, addr⟩

def channelFor (channels : ForwardChannels) (id : UInt64) (addr : String) :
    ForwardChannels × Except Status Channel := channels.get id (connectLazy fromShared addr)

def forward (channels : ForwardChannels) (leaderId : UInt64) (addr : String)
    (req : QueueRequest) : ForwardChannels × Hop :=
  let channel := channelFor fromShared channels leaderId addr
  (channel.1, match channel.2 with
    | .error status => .reply (.error status)
    | .ok ch =>
      match req with
      | .publish queue payload => .call leaderId ch (.publish queue payload)
      | .pop _ => .reply (.error ⟨.unavailable, "retry against leader"⟩))

def propose (channels : ForwardChannels) (answer : Written) (req : QueueRequest) :
    ForwardChannels × Hop :=
  match answer with
  | .ok resp => (channels, .reply (.ok resp))
  | .forwardToLeader leaderId =>
    match Publish.leaderAddress peers leaderId with
    | .error status => (channels, .reply (.error status))
    | .ok (id, addr) => forward fromShared channels id addr req
  | .failed debug => (channels, .reply (.error ⟨.internal, "raft write failed: " ++ debug⟩))

/-- `pop_via_forward` has the lookup of `channel_for` written out. -/
def popViaForward (channels : ForwardChannels) (leaderId : UInt64) (addr queue : String) :
    ForwardChannels × Except Status (Channel × Message) :=
  let channel := channels.get leaderId (connectLazy fromShared addr)
  (channel.1, channel.2.map fun ch => (ch, .subscribe queue))

def workerPop (channels : ForwardChannels) (answer : Written) (queue : String) :
    ForwardChannels × Hop :=
  match answer with
  | .ok resp => (channels, .popped resp.popped)
  | .forwardToLeader leaderId =>
    match leaderId.bind fun id => peers[id]?.map fun addr => (id, addr) with
    | some (id, addr) =>
      let call := popViaForward fromShared channels id addr queue
      (call.1, match call.2 with
        | .ok (ch, message) => .call id ch message
        | .error _ => .sleep)
    | none => (channels, .sleep)
  | .failed _ => (channels, .sleep)

inductive Act
  | propose (answer : Written) (req : QueueRequest)
  | pop (answer : Written) (queue : String)

def step (channels : ForwardChannels) : Act → ForwardChannels × Hop
  | .propose answer req => propose fromShared peers channels answer req
  | .pop answer queue => workerPop fromShared peers channels answer queue

variable {fromShared peers} {t t' : ForwardChannels} {act : Act} {hop : Hop}

theorem connectLazy_eq_ok {addr : String} {n : ℕ} {ch : Channel}
    (h : connectLazy fromShared addr n = .ok ch) : fromShared addr = .ok () ∧ ch = ⟨n, addr⟩ := by
  unfold connectLazy at h
  split at h
  · cases h
  · rename_i hok
    cases h
    exact ⟨hok, rfl⟩

theorem leaderAddress_eq_ok {leaderId : Option UInt64} {id : UInt64} {addr : String}
    (h : Publish.leaderAddress peers leaderId = .ok (id, addr)) : peers[id]? = some addr := by
  unfold Publish.leaderAddress at h
  split at h
  · cases h
  · split at h
    · cases h
    · rename_i hfound
      cases h
      exact hfound

theorem bind_peers_eq_some {leaderId : Option UInt64} {id : UInt64} {addr : String}
    (h : (leaderId.bind fun id => peers[id]?.map fun addr => (id, addr)) = some (id, addr)) :
    leaderId = some id ∧ peers[id]? = some addr := by
  obtain ⟨id', rfl, hmap⟩ := Option.bind_eq_some_iff.mp h
  obtain ⟨addr', hfound, heq⟩ := Option.map_eq_some_iff.mp hmap
  cases heq
  exact ⟨rfl, hfound⟩

inductive Uses (fromShared : String → Except String Unit) (peers : Map UInt64 String)
    (t : ForwardChannels) : ForwardChannels → Hop → Prop
  | none {hop : Hop} (h : ∀ leader ch message, hop ≠ .call leader ch message) :
      Uses fromShared peers t t hop
  | channel {leader : UInt64} {addr : String} {hop : Hop} (haddr : peers[leader]? = some addr)
      (h : ∀ leader' ch message, hop = .call leader' ch message → leader' = leader ∧
        (t.get leader (connectLazy fromShared addr)).2 = .ok ch) :
      Uses fromShared peers t (t.get leader (connectLazy fromShared addr)).1 hop

theorem forward_uses {leader : UInt64} {addr : String} (haddr : peers[leader]? = some addr)
    (t : ForwardChannels) (req : QueueRequest) :
    Uses fromShared peers t (forward fromShared t leader addr req).1
      (forward fromShared t leader addr req).2 := by
  refine .channel haddr fun leader' ch message h => ?_
  simp only [forward, channelFor] at h
  split at h
  · cases h
  · rename_i ch' hch
    split at h
    · cases h
      exact ⟨rfl, hch⟩
    · cases h

theorem popViaForward_uses {leader : UInt64} {addr : String} (haddr : peers[leader]? = some addr)
    (t : ForwardChannels) (queue : String) :
    Uses fromShared peers t (popViaForward fromShared t leader addr queue).1
      (match (popViaForward fromShared t leader addr queue).2 with
        | .ok (ch, message) => .call leader ch message
        | .error _ => .sleep) := by
  refine .channel haddr fun leader' ch message h => ?_
  simp only [popViaForward] at h
  cases hget : (t.get leader (connectLazy fromShared addr)).2 with
  | error status =>
    rw [hget] at h
    cases h
  | ok ch' =>
    rw [hget] at h
    cases h
    exact ⟨rfl, rfl⟩

theorem step_uses (fromShared : String → Except String Unit) (peers : Map UInt64 String)
    (t : ForwardChannels) (act : Act) :
    Uses fromShared peers t (step fromShared peers t act).1 (step fromShared peers t act).2 := by
  cases act with
  | propose answer req =>
    cases answer with
    | ok resp => exact .none fun _ _ _ h => by cases h
    | failed debug => exact .none fun _ _ _ h => by cases h
    | forwardToLeader leaderId =>
      simp only [step, propose]
      split
      · exact .none fun _ _ _ h => by cases h
      · rename_i id addr hl
        exact forward_uses (leaderAddress_eq_ok hl) t req
  | pop answer queue =>
    cases answer with
    | ok resp => exact .none fun _ _ _ h => by cases h
    | failed debug => exact .none fun _ _ _ h => by cases h
    | forwardToLeader leaderId =>
      simp only [step, workerPop]
      split
      · rename_i id addr hl
        exact popViaForward_uses (bind_peers_eq_some hl).2 t queue
      · exact .none fun _ _ _ h => by cases h

structure Kept (fromShared : String → Except String Unit) (peers : Map UInt64 String)
    (t : ForwardChannels) : Prop extends t.Sound where
  dials : ∀ x ∈ t.made, peers[x.1]? = some x.2.addr ∧ fromShared x.2.addr = .ok ()
  numbered : ∀ (i : ℕ) (x : UInt64 × Channel), t.made[i]? = some x → x.2.number = i

theorem Kept.get {leader : UInt64} {addr : String} (h : Kept fromShared peers t)
    (haddr : peers[leader]? = some addr) :
    Kept fromShared peers (t.get leader (connectLazy fromShared addr)).1 where
  toSound := h.toSound.get leader _
  dials x hx := by
    rcases Memo.Table.mem_made_get hx with hx | ⟨hkey, hmade⟩
    · exact h.dials x hx
    · obtain ⟨hok, hch⟩ := connectLazy_eq_ok hmade
      rw [hkey, hch]
      exact ⟨haddr, hok⟩
  numbered i x hx := by
    rcases t.get_cases leader (connectLazy fromShared addr) with
      ⟨a, -, heq⟩ | ⟨e, -, -, heq⟩ | ⟨a, -, hmade, heq⟩
    · rw [heq] at hx
      exact h.numbered i x hx
    · rw [heq] at hx
      exact h.numbered i x hx
    · rw [heq] at hx
      obtain ⟨-, rfl⟩ := connectLazy_eq_ok hmade
      rcases Nat.lt_or_ge i t.made.length with hi | hi
      · rw [List.getElem?_append_left hi] at hx
        exact h.numbered i x hx
      · have hlt := (List.getElem?_eq_some_iff.mp hx).1
        rw [List.length_append, List.length_singleton] at hlt
        obtain rfl : i = t.made.length := by omega
        rw [List.getElem?_concat_length] at hx
        cases hx
        rfl

theorem Kept.step (h : Kept fromShared peers t) (act : Act) :
    let r := step fromShared peers t act
    Kept fromShared peers r.1 ∧ t.made <+: r.1.made ∧
      ∀ leader ch message, r.2 = .call leader ch message → (leader, ch) ∈ r.1.made := by
  intro r
  have huses := step_uses fromShared peers t act
  change Uses fromShared peers t r.1 r.2 at huses
  generalize r.1 = t', r.2 = hop at huses
  cases huses with
  | none hcall => exact ⟨h, List.prefix_rfl, fun leader ch message heq => absurd heq (hcall _ _ _)⟩
  | channel haddr hcall =>
    refine ⟨h.get haddr, t.made_get _ _, fun leader ch message heq => ?_⟩
    obtain ⟨rfl, hch⟩ := hcall leader ch message heq
    exact h.toSound.mem_made hch

theorem Kept.run (h : Kept fromShared peers t) (acts : List Act) :
    Kept fromShared peers (Mealy.final (Channels.step fromShared peers) t acts) ∧
    t.made <+: (Mealy.final (Channels.step fromShared peers) t acts).made ∧
      ∀ leader ch message,
        .call leader ch message ∈ Mealy.outputs (Channels.step fromShared peers) t acts →
        (leader, ch) ∈ (Mealy.final (Channels.step fromShared peers) t acts).made := by
  induction acts generalizing t with
  | nil => exact ⟨h, List.prefix_rfl, by simp⟩
  | cons act acts ih =>
    obtain ⟨hkept, hpre, hcall⟩ := h.step act
    obtain ⟨hkept', hpre', hcalls⟩ := ih hkept
    refine ⟨hkept', hpre.trans hpre', fun leader ch message hmem => ?_⟩
    rcases List.mem_cons.mp hmem with heq | hmem
    · exact hpre'.subset (hcall leader ch message heq.symm)
    · exact hcalls leader ch message hmem

theorem kept_empty (fromShared : String → Except String Unit) (peers : Map UInt64 String) :
    Kept fromShared peers Memo.Table.empty where
  toSound := Memo.Table.sound_empty
  dials x hx := by cases hx
  numbered i x hx := by cases hx

theorem Kept.length_le (h : Kept fromShared peers t) : t.made.length ≤ peers.size := by
  have hsub : t.made.map Prod.fst ⊆ peers.keys := by
    intro id hid
    obtain ⟨x, hx, rfl⟩ := List.mem_map.mp hid
    refine Std.ExtTreeMap.mem_keys.mpr (Std.ExtTreeMap.mem_iff_isSome_getElem?.mpr ?_)
    rw [(h.dials x hx).1]
    rfl
  have hle := (List.subperm_of_subset h.once hsub).length_le
  rwa [List.length_map, Std.ExtTreeMap.length_keys] at hle

theorem Kept.forward_publish {leader : UInt64} {addr : String} (h : Kept fromShared peers t)
    (haddr : peers[leader]? = some addr) (queue : String) (payload : Bytes) :
    let hop := (Channels.step fromShared peers t
      (.propose (.forwardToLeader (some leader)) (.publish queue payload))).2
    (fromShared addr = .ok () → ∃ ch, hop = .call leader ch (.publish queue payload)) ∧
      ∀ e, fromShared addr = .error e → hop = .reply (.error ⟨.internal, e⟩) := by
  simp only [Channels.step, propose, Publish.leaderAddress, haddr, forward, channelFor]
  rcases t.get_cases leader (connectLazy fromShared addr) with
    ⟨ch, hfound, heq⟩ | ⟨status, -, hfail, heq⟩ | ⟨ch, -, hmade, heq⟩
  · obtain ⟨hpeer, hok⟩ := h.dials _ ((h.entries leader ch).mp hfound)
    rw [haddr] at hpeer
    rw [← Option.some.inj hpeer] at hok
    simp [heq, hok]
  · rw [connectLazy] at hfail
    cases hshared : fromShared addr with
    | ok u => simp [hshared] at hfail
    | error e =>
      simp only [hshared] at hfail
      simp [heq, ← Except.error.inj hfail]
  · simp [heq, (connectLazy_eq_ok hmade).1]

def Hop.publishPc : Hop → Publish.Pc
  | .reply (.ok resp) => .answering resp
  | .reply (.error status) => .done (.error status)
  | .call leader _ _ => .dialing leader
  | .popped _ | .sleep => .proposing none

def Hop.workerPc : Hop → Pc
  | .call leader _ _ => .dialing leader
  | .popped item => .afterPop item
  | .reply _ | .sleep => .sleeping

theorem move_move {s : Publish.World} {a : ℕ} {call : Publish.Activation} (pc pc' : Publish.Pc) :
    (s.move a call pc).move a { call with pc := pc } pc' = s.move a call pc' := by
  simp only [Publish.World.move, List.set_set]

/-- Where `propose` takes an activation is where the steps of the publish handlers take it:
a channel that can not be had is one of their failed calls. -/
theorem propose_steps {s : Publish.World} {a : ℕ} {call : Publish.Activation}
    (ha : s.calls[a]? = some call) (hpc : call.pc = .proposing none) (t : ForwardChannels)
    (leaderId : Option UInt64) :
    ∃ as, Lts.Steps (Publish.Step peers) s as (s.move a call (propose fromShared peers t
      (.forwardToLeader leaderId) (.publish call.queue call.payload)).2.publishPc) := by
  rw [propose]
  cases hl : Publish.leaderAddress peers leaderId with
  | error status => exact ⟨_, .single (.leaderless ha hpc hl)⟩
  | ok x =>
    obtain ⟨leader, addr⟩ := x
    have hfirst := Publish.Step.forwarded ha hpc hl
    simp only [forward]
    cases (channelFor fromShared t leader addr).2 with
    | ok ch => exact ⟨_, .single hfirst⟩
    | error status =>
      have hmoved : (s.move a call (.dialing leader)).calls[a]? =
          some { call with pc := .dialing leader } :=
        List.getElem?_set_self (List.getElem?_eq_some_iff.mp ha).1
      have hsecond : Publish.Step peers _ (.rpcError a status) _ := .unreachable hmoved rfl
      rw [move_move] at hsecond
      exact ⟨_, .cons hfirst (.single hsecond)⟩

theorem workerPop_steps {s : Cluster} {sid i : ℕ} {st : Stream} (hst : s.streams[sid]? = some st)
    (hw : st.workers[i]? = some (.proposing none)) (t : ForwardChannels)
    (leaderId : Option UInt64) :
    ∃ as, Lts.Steps (BlunMq.Step peers) s as ((s.update sid (st.put i (workerPop fromShared peers t
      (.forwardToLeader leaderId) st.queue).2.workerPc)).abandon st.queue none) := by
  have hfirst : BlunMq.Step peers s (.forwardToLeader sid i leaderId) _ := .forwardToLeader hst hw
  rw [Pc.afterForward] at hfirst
  rw [workerPop]
  cases hl : leaderId.bind fun id => peers[id]?.map fun addr => (id, addr) with
  | none =>
    simp only [hl] at hfirst
    exact ⟨_, .single hfirst⟩
  | some x =>
    obtain ⟨leader, addr⟩ := x
    simp only [hl] at hfirst
    simp only
    cases (popViaForward fromShared t leader addr st.queue).2 with
    | ok call => exact ⟨_, .single hfirst⟩
    | error status =>
      have hdialing : ((s.update sid (st.put i (.dialing leader))).abandon st.queue
          none).streams[sid]? = some (st.put i (.dialing leader)) :=
        List.getElem?_set_self (List.getElem?_eq_some_iff.mp hst).1
      have hworker : (st.put i (.dialing leader)).workers[i]? = some (.dialing leader) :=
        List.getElem?_set_self (List.getElem?_eq_some_iff.mp hw).1
      have hsecond : BlunMq.Step peers _ (.rpcError sid i) _ := .refused hdialing hworker
      have hstate : ((s.update sid (st.put i (.dialing leader))).abandon st.queue none).update sid
          ((st.put i (.dialing leader)).put i .sleeping) =
          (s.update sid (st.put i .sleeping)).abandon st.queue none := by
        simp only [Cluster.update, Cluster.abandon, Stream.put, List.set_set]
      rw [hstate] at hsecond
      exact ⟨_, .cons hfirst (.single hsecond)⟩

structure Followed (peers : Map UInt64 String) (acts : List Act) (hops : List Hop) : Prop where
  publish : ∀ (i : ℕ) leaderId hop (s : Publish.World) a call,
    acts[i]? = some (.propose (.forwardToLeader leaderId) (.publish call.queue call.payload)) →
    hops[i]? = some hop → s.calls[a]? = some call → call.pc = .proposing none →
    ∃ as, Lts.Steps (Publish.Step peers) s as (s.move a call hop.publishPc)
  pop : ∀ (i : ℕ) leaderId hop (s : Cluster) sid j st,
    acts[i]? = some (.pop (.forwardToLeader leaderId) st.queue) → hops[i]? = some hop →
    s.streams[sid]? = some st → st.workers[j]? = some (.proposing none) →
    ∃ as, Lts.Steps (BlunMq.Step peers) s as
      ((s.update sid (st.put j hop.workerPc)).abandon st.queue none)

theorem followed_outputs (t : ForwardChannels) (acts : List Act) :
    Followed peers acts (Mealy.outputs (Channels.step fromShared peers) t acts) := by
  constructor
  · intro i leaderId hop s a call hact hhop ha hpc
    rw [Mealy.outputs_getElem?, hact] at hhop
    cases hhop
    exact propose_steps ha hpc _ leaderId
  · intro i leaderId hop s sid j st hact hhop hst hw
    rw [Mealy.outputs_getElem?, hact] at hhop
    cases hhop
    exact workerPop_steps hst hw _ leaderId

theorem channels_reused (fromShared : String → Except String Unit) (peers : Map UInt64 String)
    (acts : List Act) :
    let hops := Mealy.outputs (Channels.step fromShared peers) Memo.Table.empty acts
    (∀ leader ch message, .call leader ch message ∈ hops → peers[leader]? = some ch.addr) ∧
    (∀ leader ch message, .call leader ch message ∈ hops →
      ∀ leader' ch' message', .call leader' ch' message' ∈ hops →
        (leader = leader' → ch = ch') ∧ (ch.number = ch'.number → leader = leader')) ∧
    (Mealy.final (Channels.step fromShared peers) Memo.Table.empty acts).made.length ≤
      peers.size ∧
    (∀ (i : ℕ) leader addr queue payload, peers[leader]? = some addr →
      acts[i]? = some (.propose (.forwardToLeader (some leader)) (.publish queue payload)) →
      (fromShared addr = .ok () →
        ∃ ch, hops[i]? = some (.call leader ch (.publish queue payload))) ∧
      ∀ e, fromShared addr = .error e → hops[i]? = some (.reply (.error ⟨.internal, e⟩))) ∧
    Followed peers acts hops := by
  intro hops
  obtain ⟨hkept, -, hcalls⟩ := (kept_empty fromShared peers).run acts
  refine ⟨fun leader ch message h => (hkept.dials _ (hcalls leader ch message h)).1, ?_,
    hkept.length_le, ?_, followed_outputs _ acts⟩
  · intro leader ch message h leader' ch' message' h'
    have hmade := hcalls leader ch message h
    have hmade' := hcalls leader' ch' message' h'
    refine ⟨fun heq => ?_, fun heq => ?_⟩
    · rw [← heq] at hmade'
      exact hkept.unique hmade hmade'
    · obtain ⟨i, hi⟩ := List.mem_iff_getElem?.mp hmade
      obtain ⟨j, hj⟩ := List.mem_iff_getElem?.mp hmade'
      have hij : i = j := by
        rw [← hkept.numbered i _ hi, ← hkept.numbered j _ hj]
        exact heq
      rw [hij, hj] at hi
      exact (congrArg Prod.fst (Option.some.inj hi)).symm
  · intro i leader addr queue payload haddr hact
    obtain ⟨hbefore, -, -⟩ := (kept_empty fromShared peers).run (acts.take i)
    have hhop := Mealy.outputs_getElem? (Channels.step fromShared peers) Memo.Table.empty acts i
    rw [hact] at hhop
    obtain ⟨hok, herror⟩ := hbefore.forward_publish haddr queue payload
    refine ⟨fun hshared => ?_, fun e hshared => ?_⟩
    · obtain ⟨ch, hch⟩ := hok hshared
      exact ⟨ch, hhop.trans (congrArg some hch)⟩
    · exact hhop.trans (congrArg some (herror e hshared))

end Channels
end BlunMq
