import BlunMq.Lib.Steps
import BlunMq.Raft.NodeDirectoryLaws

/-!
# The registration loop

Every node proposes its own address to the nodes group until the proposal returns
`Ok`. Unlike the publish handler the loop does not pass the proposal on: an answer
that names the leader is one more reason to sleep and to try again on the same node.
-/

namespace BlunMq

/-- The environment of one node; `grpcAddr` is the fallback for a node its own peer
list leaves out. -/
structure NodeConfig where
  peers : Map UInt64 String
  grpcAddr : String

namespace NodeConfig

def selfAddr (node : NodeConfig) (nodeNum : UInt64) : String :=
  node.peers[nodeNum]?.getD node.grpcAddr

def registration (node : NodeConfig) (nodeNum : UInt64) : NodeCommand :=
  .upsertNode nodeNum (node.selfAddr nodeNum)

end NodeConfig

namespace Registration

/-- The nodes group at one moment: its leader, whom each node takes for the leader, and
which node reaches which. -/
structure Leadership where
  leader : Option UInt64
  known : UInt64 → Option UInt64
  reachable : UInt64 → UInt64 → Bool

inductive Answer
  | committing
  | forwardToLeader (leaderId : Option UInt64)

def Leadership.clientWrite (now : Leadership) (n : UInt64) : Answer :=
  if now.leader = some n then .committing else .forwardToLeader (now.known n)

inductive Loop
  | retrying
  | writing
  | registered
  deriving DecidableEq

def Loop.next : Answer → Loop
  | .committing => .writing
  -- the `Err` arm sleeps and retries, whatever the error says
  | .forwardToLeader _ => .retrying

structure World where
  log : CommittedLog NodeCommand
  now : Leadership
  loops : UInt64 → Loop

def World.start : World :=
  ⟨⟨[], List.Pairwise.nil⟩, ⟨none, fun _ => none, fun _ _ => false⟩, fun _ => .retrying⟩

def World.move (s : World) (n : UInt64) (l : Loop) : World :=
  { s with loops := Function.update s.loops n l }

theorem World.move_loops (s : World) (n m : UInt64) (l : Loop) :
    (s.move n l).loops m = if m = n then l else s.loops m := Function.update_apply _ _ _ _

def World.committed (s : World) (log' : CommittedLog NodeCommand) : World :=
  { s with log := log' }

inductive Act
  | elect (now : Leadership)
  | attempt (n : UInt64) (now : Leadership)
  | commit (n : UInt64) (id : LogId)
  | commitOther (e : Entry NodeCommand)

variable (nodes : Map UInt64 NodeConfig)

inductive Step : World → Act → World → Prop
  | elect (s : World) (now : Leadership) : Step s (.elect now) { s with now := now }
  | attempt {s : World} {n : UInt64} {node : NodeConfig} (hn : nodes[n]? = some node)
      (hloop : s.loops n = .retrying) :
      Step s (.attempt n s.now) (s.move n (Loop.next (s.now.clientWrite n)))
  | commit {s : World} {n : UInt64} {node : NodeConfig} {id : LogId}
      {log' : CommittedLog NodeCommand} (hn : nodes[n]? = some node)
      (hloop : s.loops n = .writing)
      (hlog : log'.entries = s.log.entries ++ [⟨id, .normal (node.registration n)⟩]) :
      Step s (.commit n id) ((s.move n .registered).committed log')
  -- openraft's own entries; nothing else proposes to this group
  | commitOther {s : World} {e : Entry NodeCommand} {log' : CommittedLog NodeCommand}
      (he : ∀ cmd, e.payload ≠ .normal cmd) (hlog : log'.entries = s.log.entries ++ [e]) :
      Step s (.commitOther e) (s.committed log')

def InformedAttempt (as : List Act) (n : UInt64) : Prop :=
  ∃ now l, Act.attempt n now ∈ as ∧ now.leader = some l ∧ now.known n = some l ∧
    now.reachable n l = true

def LedAttempt (as : List Act) (n : UInt64) : Prop :=
  ∃ now, Act.attempt n now ∈ as ∧ now.leader = some n

/-- A loop has left `retrying` just when it asked its own node as the leader, and the
log holds an address for exactly the nodes whose loop has ended. -/
structure Invariant (as : List Act) (s : World) : Prop where
  led : ∀ n, s.loops n = .retrying ↔ ¬ LedAttempt as n
  written : ∀ n node, nodes[n]? = some node →
    LastWrite.last n (NodeStateMachineStore.upserts s.log.entries) =
      if s.loops n = .registered then some (node.selfAddr n) else none

variable {nodes} {s s' : World} {as : List Act} {a : Act}

theorem ledAttempt_concat (n : UInt64) :
    LedAttempt (as ++ [a]) n ↔
      LedAttempt as n ∨ ∃ now, a = .attempt n now ∧ now.leader = some n := by
  constructor
  · rintro ⟨now, hmem, hnow⟩
    rcases List.mem_append.mp hmem with h | h
    · exact Or.inl ⟨now, h, hnow⟩
    · exact Or.inr ⟨now, (List.mem_singleton.mp h).symm, hnow⟩
  · rintro (⟨now, hmem, hnow⟩ | ⟨now, rfl, hnow⟩)
    · exact ⟨now, List.mem_append_left _ hmem, hnow⟩
    · exact ⟨now, by simp, hnow⟩

theorem ledAttempt_concat_of_ne (ha : ∀ n now, a ≠ .attempt n now) (n : UInt64) :
    LedAttempt (as ++ [a]) n ↔ LedAttempt as n := by
  rw [ledAttempt_concat]
  exact or_iff_left fun ⟨now, h, _⟩ => ha n now h

theorem upserts_concat_other {es : List (Entry NodeCommand)} {e : Entry NodeCommand}
    (he : ∀ cmd, e.payload ≠ .normal cmd) :
    NodeStateMachineStore.upserts (es ++ [e]) = NodeStateMachineStore.upserts es := by
  rw [NodeStateMachineStore.upserts_append]
  cases hp : e.payload with
  | blank => simp [NodeStateMachineStore.upserts, hp]
  | membership mem => simp [NodeStateMachineStore.upserts, hp]
  | normal cmd => exact absurd hp (he cmd)

namespace Invariant

theorem start : Invariant nodes [] World.start where
  led n := by simp [World.start, LedAttempt]
  written n node hn := rfl

theorem attempt (h : Invariant nodes as s) {n : UInt64} (hloop : s.loops n = .retrying) :
    Invariant nodes (as ++ [.attempt n s.now])
      (s.move n (Loop.next (s.now.clientWrite n))) where
  led m := by
    rw [ledAttempt_concat, World.move_loops]
    by_cases hm : m = n
    · subst hm
      have hnot := (h.led m).mp hloop
      by_cases hleader : s.now.leader = some m
      · simp [Leadership.clientWrite, Loop.next, hleader]
      · simp [Leadership.clientWrite, Loop.next, hleader, hnot]
    · rw [if_neg hm, h.led m]
      simp [Ne.symm hm]
  written m node hm := by
    rw [World.move_loops]
    refine (h.written m node hm).trans ?_
    by_cases hmn : m = n
    · subst hmn
      by_cases hleader : s.now.leader = some m <;>
        simp [Leadership.clientWrite, Loop.next, hleader, hloop]
    · rw [if_neg hmn]

theorem commit (h : Invariant nodes as s) {n : UInt64} {node : NodeConfig} {id : LogId}
    {log' : CommittedLog NodeCommand} (hn : nodes[n]? = some node) (hloop : s.loops n = .writing)
    (hlog : log'.entries = s.log.entries ++ [⟨id, .normal (node.registration n)⟩]) :
    Invariant nodes (as ++ [.commit n id]) ((s.move n .registered).committed log') where
  led m := by
    rw [ledAttempt_concat_of_ne (by simp), ← h.led m]
    change (s.move n .registered).loops m = _ ↔ _
    rw [World.move_loops]
    by_cases hm : m = n
    · subst hm
      simp [hloop]
    · rw [if_neg hm]
  written m node' hm := by
    have hup : NodeStateMachineStore.upserts [⟨id, .normal (node.registration n)⟩] =
        [(n, node.selfAddr n)] := rfl
    change LastWrite.last m (NodeStateMachineStore.upserts log'.entries) =
      if (s.move n .registered).loops m = .registered then _ else _
    rw [hlog, NodeStateMachineStore.upserts_append, hup, LastWrite.last_append,
      LastWrite.last_singleton, h.written m node' hm, World.move_loops]
    by_cases hmn : m = n
    · subst hmn
      rw [hn] at hm
      cases hm
      simp
    · simp [hmn, Ne.symm hmn]

theorem step (h : Invariant nodes as s) (hs : Step nodes s a s') :
    Invariant nodes (as ++ [a]) s' := by
  cases hs with
  | elect now =>
    exact ⟨fun n => by rw [ledAttempt_concat_of_ne (by simp)]; exact h.led n, h.written⟩
  | attempt hn hloop => exact h.attempt hloop
  | commit hn hloop hlog => exact h.commit hn hloop hlog
  | commitOther he hlog =>
    refine ⟨fun n => ?_, fun n node hn => ?_⟩
    · rw [ledAttempt_concat_of_ne (by simp)]
      exact h.led n
    · rw [World.committed, hlog, upserts_concat_other he]
      exact h.written n node hn

theorem run (h : Lts.Steps (Step nodes) World.start as s) : Invariant nodes as s :=
  h.trace_invariant (fun _ _ _ _ hi hs => hi.step hs) start

end Invariant

theorem registered_iff (h : Lts.Steps (Step nodes) World.start as s)
    (hsettled : ∀ n, s.loops n ≠ .writing) {w : NodeDirectory × Store}
    (hw : AtPosition NodeStateMachineStore.machine NodeDirectory.default s.log
      s.log.entries.length w) {n : UInt64} {node : NodeConfig} (hn : nodes[n]? = some node) :
    w.1.nodes[n]? = some (node.selfAddr n) ↔ LedAttempt as n := by
  have hi := Invariant.run h
  have hw' := hw.cell
  rw [hw', NodeStateMachineStore.replay_nodes, List.take_length, hi.written n node hn]
  have hled := hi.led n
  cases hloop : s.loops n with
  | writing => exact absurd hloop (hsettled n)
  | retrying => simpa using hled.mp hloop
  | registered =>
    have : LedAttempt as n := by
      by_contra hnot
      simp [hled.mpr hnot] at hloop
    simpa using this

theorem directory_complete_iff (h : Lts.Steps (Step nodes) World.start as s)
    (hsettled : ∀ n, s.loops n ≠ .writing) {w : NodeDirectory × Store}
    (hw : AtPosition NodeStateMachineStore.machine NodeDirectory.default s.log
      s.log.entries.length w) :
    (∀ (n : UInt64) (node : NodeConfig), nodes[n]? = some node →
      w.1.nodes[n]? = some (node.selfAddr n)) ↔
      ∀ (n : UInt64) (node : NodeConfig), nodes[n]? = some node → LedAttempt as n := by
  constructor
  · intro hcomplete n node hn
    exact (registered_iff h hsettled hw hn).mp (hcomplete n node hn)
  · intro hled n node hn
    exact (registered_iff h hsettled hw hn).mpr (hled n node hn)

def World.turn (s : World) (now : Leadership) (n : UInt64) (log' : CommittedLog NodeCommand) :
    World :=
  ((World.mk s.log now s.loops |>.move n .writing).move n .registered).committed log'

theorem turn_steps {now : Leadership} {n : UInt64} {node : NodeConfig} (id : LogId)
    (log' : CommittedLog NodeCommand) (hn : nodes[n]? = some node)
    (hloop : s.loops n = .retrying) (hnow : now.leader = some n)
    (hlog : log'.entries = s.log.entries ++ [⟨id, .normal (node.registration n)⟩]) :
    Lts.Steps (Step nodes) s [.elect now, .attempt n now, .commit n id] (s.turn now n log') := by
  have hattempt : Step nodes ⟨s.log, now, s.loops⟩ (.attempt n now)
      ((World.mk s.log now s.loops).move n .writing) := by
    have h := Step.attempt (s := ⟨s.log, now, s.loops⟩) hn hloop
    simpa [Leadership.clientWrite, hnow, Loop.next] using h
  have hwriting : ((World.mk s.log now s.loops).move n .writing).loops n = .writing := by
    rw [World.move_loops, if_pos rfl]
  exact .cons (.elect s now) (.cons hattempt (.single (.commit hn hwriting hlog)))

theorem turn_loops (now : Leadership) (n m : UInt64) (log' : CommittedLog NodeCommand) :
    (s.turn now n log').loops m = if m = n then .registered else s.loops m := by
  change ((World.move _ n .writing).move n .registered).loops m = _
  rw [World.move_loops, World.move_loops]
  by_cases h : m = n <;> simp [h]

theorem turn_settled (h : ∀ m, s.loops m ≠ .writing) (now : Leadership) (n : UInt64)
    (log' : CommittedLog NodeCommand) : ∀ m, (s.turn now n log').loops m ≠ .writing := by
  intro m
  rw [turn_loops]
  split
  · exact Loop.noConfusion
  · exact h m

theorem start_settled (m : UInt64) : World.start.loops m ≠ .writing := Loop.noConfusion

def pair : Map UInt64 NodeConfig :=
  let peers := ((∅ : Map UInt64 String).insert 1 "http://one").insert 2 "http://two"
  ((∅ : Map UInt64 NodeConfig).insert 1 ⟨peers, "0.0.0.0:5001"⟩).insert 2 ⟨peers, "0.0.0.0:5002"⟩

theorem pair_cases {n : UInt64} {node : NodeConfig} (h : pair[n]? = some node) : n = 1 ∨ n = 2 := by
  by_contra hn
  have h1 : 1 ≠ n := fun h => hn (Or.inl h.symm)
  have h2 : 2 ≠ n := fun h => hn (Or.inr h.symm)
  simp [pair, h1, h2] at h

def ledBy (n : UInt64) : Leadership := ⟨some n, fun _ => some n, fun _ _ => true⟩

def upsertEntry (i n : UInt64) (addr : String) : Entry NodeCommand :=
  ⟨⟨⟨1, 1⟩, i⟩, .normal (.upsertNode n addr)⟩

theorem follower_never_registered :
    let as : List Act := [.elect (ledBy 1), .attempt 1 (ledBy 1), .commit 1 ⟨⟨1, 1⟩, 0⟩,
      .attempt 2 (ledBy 1)]
    ∃ s w, Lts.Steps (Step pair) World.start as s ∧ (∀ n, s.loops n ≠ .writing) ∧
      AtPosition NodeStateMachineStore.machine NodeDirectory.default s.log
        s.log.entries.length w ∧
      (∀ n node, pair[n]? = some node → InformedAttempt as n) ∧
      ¬ ∀ (n : UInt64) (node : NodeConfig), pair[n]? = some node →
        w.1.nodes[n]? = some (node.selfAddr n) := by
  intro as
  let log : CommittedLog NodeCommand := .single (upsertEntry 0 1 "http://one")
  have hturn : Lts.Steps (Step pair) World.start _ (World.start.turn (ledBy 1) 1 log) :=
    turn_steps ⟨⟨1, 1⟩, 0⟩ log rfl rfl rfl rfl
  have hloop : (World.start.turn (ledBy 1) 1 log).loops 2 = .retrying := by
    rw [turn_loops]
    rfl
  have hpair : pair[(2 : UInt64)]? = some _ := rfl
  have hattempt := Step.attempt hpair hloop
  have hw : AtPosition NodeStateMachineStore.machine NodeDirectory.default log log.entries.length
      (log.replay _ _ log.entries.length) := AtPosition.replay le_rfl
  refine ⟨_, _, hturn.snoc hattempt, fun n => ?_, hw, fun n node hn => ?_, fun h => ?_⟩
  · rw [World.move_loops]
    split
    · exact Loop.noConfusion
    · exact turn_settled start_settled _ _ _ n
  · obtain rfl | rfl := pair_cases hn
    · exact ⟨ledBy 1, 1, by simp [as], rfl, rfl, rfl⟩
    · exact ⟨ledBy 1, 1, by simp [as], rfl, rfl, rfl⟩
  · have h2 := h 2 _ rfl
    rw [NodeStateMachineStore.replay_nodes] at h2
    simp [log, CommittedLog.single, NodeStateMachineStore.upserts, upsertEntry, LastWrite.last,
      LastWrite.writesTo] at h2

theorem directory_complete_iff_handover :
    let log : CommittedLog NodeCommand :=
      ⟨[upsertEntry 0 1 "http://one", upsertEntry 1 2 "http://two"], by decide⟩
    let directory := (log.replay NodeStateMachineStore.machine NodeDirectory.default 2).1
    ∀ (n : UInt64) (node : NodeConfig), pair[n]? = some node →
      directory.nodes[n]? = some (node.selfAddr n) := by
  intro log directory
  let first : CommittedLog NodeCommand := .single (upsertEntry 0 1 "http://one")
  have h1 : Lts.Steps (Step pair) World.start _ (World.start.turn (ledBy 1) 1 first) :=
    turn_steps ⟨⟨1, 1⟩, 0⟩ first rfl rfl rfl rfl
  have hloop : (World.start.turn (ledBy 1) 1 first).loops 2 = .retrying := by
    rw [turn_loops]
    rfl
  have h2 : Lts.Steps (Step pair) _ _ (World.turn _ (ledBy 2) 2 log) :=
    turn_steps ⟨⟨1, 1⟩, 1⟩ log rfl hloop rfl rfl
  have hsettled := turn_settled (turn_settled start_settled (ledBy 1) 1 first) (ledBy 2) 2 log
  have hiff := directory_complete_iff (h1.trans h2) hsettled (AtPosition.replay le_rfl)
  refine hiff.mpr fun n node hn => ?_
  obtain rfl | rfl := pair_cases hn
  · exact ⟨ledBy 1, by simp, rfl⟩
  · exact ⟨ledBy 2, by simp, rfl⟩

end Registration
end BlunMq
