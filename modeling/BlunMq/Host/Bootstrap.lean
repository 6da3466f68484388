import BlunMq.Host.Peers
import BlunMq.Host.Publish
import BlunMq.Host.Registration
import BlunMq.Raft.Network

/-!
# Starting the cluster

Every node reads its peers from `MQ_PEERS`. The node whose number is the lowest there tries
to initialize each of the two groups, up to twenty times a start; the others wait to be
replicated to. Nodes may be started, stopped and started again at any time. If they were
all given the same peers, the groups are initialized with those and by one node only.
-/

namespace BlunMq
namespace Bootstrap

/-- `peers.keys().next()`: the keys of a `BTreeMap` come in ascending order. -/
def lowestId (peers : Map UInt64 String) : Option UInt64 := peers.keys.head?

/-- What a started node knows of its peers, and whether it is the one to bootstrap. A text
that can not be read and an empty list are panics. -/
def startUp (nodeNum : UInt64) (text : String) : Except String (Map UInt64 String × Bool) :=
  match Peers.parsePeers text with
  | .error message => .error message
  | .ok peers =>
    match lowestId peers with
    | none => .error "MQ_PEERS must not be empty"
    | some id => .ok (peers, decide (nodeNum = id))

inductive Loop
  | notMine
  | trying (attempt : ℕ)
  | over
  deriving DecidableEq

def ATTEMPTS : ℕ := 20

def Loop.next (attempt : ℕ) : Except String Unit → Loop
  | .ok () => .over
  | .error _ => if attempt < ATTEMPTS then .trying (attempt + 1) else .over

structure Node where
  peers : Map UInt64 String
  loop : RaftGroup → Loop

structure Call where
  node : UInt64
  group : RaftGroup
  members : Map UInt64 String
  answer : Except String Unit

structure World where
  nodes : UInt64 → Option Node
  calls : List Call

def World.start : World := ⟨fun _ => none, []⟩

inductive Act
  | start (n : UInt64) (text : String)
  | stop (n : UInt64)
  | attempt (n : UInt64) (group : RaftGroup) (answer : Except String Unit)

inductive Step : World → Act → World → Prop
  | start {s : World} {n : UInt64} {text : String} {peers : Map UInt64 String} {lowest : Bool}
      (h : startUp n text = .ok (peers, lowest)) :
      Step s (.start n text) { s with
        nodes := Function.update s.nodes n
          (some ⟨peers, fun _ => if lowest then .trying 1 else .notMine⟩) }
  | panic {s : World} {n : UInt64} {text message : String} (h : startUp n text = .error message) :
      Step s (.start n text) { s with nodes := Function.update s.nodes n none }
  | stop (s : World) (n : UInt64) :
      Step s (.stop n) { s with nodes := Function.update s.nodes n none }
  | attempt {s : World} {n : UInt64} {group : RaftGroup} {answer : Except String Unit}
      {node : Node} {k : ℕ} (hn : s.nodes n = some node) (hloop : node.loop group = .trying k) :
      Step s (.attempt n group answer)
        { nodes := Function.update s.nodes n
            (some { node with loop := Function.update node.loop group (Loop.next k answer) }),
          calls := s.calls ++ [⟨n, group, node.peers, answer⟩] }

theorem startUp_eq_ok {n : UInt64} {text : String} {peers : Map UInt64 String} {lowest : Bool}
    (h : startUp n text = .ok (peers, lowest)) :
    Peers.parsePeers text = .ok peers ∧ (lowest = true ↔ lowestId peers = some n) := by
  unfold startUp at h
  split at h
  · cases h
  · rename_i found hparse
    split at h
    · cases h
    · rename_i id hmin
      cases h
      rw [hmin, decide_eq_true_eq, Option.some.injEq]
      exact ⟨hparse, eq_comm⟩

theorem lowestId_le {peers : Map UInt64 String} {n : UInt64} (h : lowestId peers = some n) :
    n ∈ peers ∧ ∀ id ∈ peers, n ≤ id := by
  obtain ⟨others, hkeys⟩ := List.head?_eq_some_iff.mp h
  have hmem : ∀ id, id ∈ peers ↔ id ∈ n :: others := fun id => by
    rw [← hkeys, Std.ExtTreeMap.mem_keys]
  have hordered := peers.ordered_keys
  rw [hkeys, List.pairwise_cons] at hordered
  refine ⟨(hmem n).mpr List.mem_cons_self, fun id hid => ?_⟩
  rcases List.mem_cons.mp ((hmem id).mp hid) with rfl | hid
  · exact UInt64.le_refl _
  · exact UInt64.le_of_lt (Std.compare_eq_lt.mp (hordered.1 id hid))

def Loop.left : Loop → ℕ
  | .trying attempt => ATTEMPTS + 1 - attempt
  | _ => 0

def Loop.chance : Loop → ℕ
  | .trying _ => 1
  | _ => 0

def callsOf (group : RaftGroup) (calls : List Call) : ℕ :=
  calls.countP fun c => decide (c.group = group)

def successesOf (group : RaftGroup) (calls : List Call) : ℕ :=
  calls.countP fun c => decide (c.group = group) && c.answer.isOk

def isStart (n : UInt64) : Act → Bool
  | .start m _ => decide (m = n)
  | _ => false

def starts (n : UInt64) (as : List Act) : ℕ := as.countP (isStart n)

def loopIn (node : Option Node) (group : RaftGroup) : Loop :=
  match node with
  | some node => node.loop group
  | none => .notMine

/-- `m` is what every node was told; only its lowest id ever tries. -/
structure Invariant (m : Map UInt64 String) (as : List Act) (s : World) : Prop where
  told : ∀ n node, s.nodes n = some node → node.peers = m
  mine : ∀ n group k, loopIn (s.nodes n) group = .trying k →
    lowestId m = some n ∧ 1 ≤ k ∧ k ≤ ATTEMPTS
  calls : ∀ c ∈ s.calls, lowestId m = some c.node ∧ c.members = m
  budget : ∀ lowest, lowestId m = some lowest → ∀ group,
    callsOf group s.calls + (loopIn (s.nodes lowest) group).left ≤ ATTEMPTS * starts lowest as
  chances : ∀ lowest, lowestId m = some lowest → ∀ group,
    successesOf group s.calls + (loopIn (s.nodes lowest) group).chance ≤ starts lowest as

variable {m : Map UInt64 String} {as : List Act} {s s' : World} {n : UInt64} {group : RaftGroup}

theorem starts_concat (n : UInt64) (as : List Act) (a : Act) :
    starts n (as ++ [a]) = starts n as + if isStart n a then 1 else 0 := by
  rw [starts, List.countP_append, List.countP_singleton]
  rfl

theorem Loop.next_left {k : ℕ} (hk : k ≤ ATTEMPTS) (answer : Except String Unit) :
    (Loop.next k answer).left + 1 ≤ (Loop.trying k).left := by
  have hpos : 1 ≤ (Loop.trying k).left := by
    simp only [left]
    omega
  cases answer with
  | ok u => exact hpos
  | error e =>
    simp only [next]
    split
    · simp only [left]
      omega
    · exact hpos

theorem Loop.next_eq_trying {k j : ℕ} {answer : Except String Unit}
    (h : Loop.next k answer = .trying j) : j = k + 1 ∧ k < ATTEMPTS := by
  cases answer with
  | ok u => cases h
  | error e =>
    simp only [next] at h
    split at h
    · rename_i hlt
      cases h
      exact ⟨rfl, hlt⟩
    · cases h

theorem Loop.next_chance (k : ℕ) (answer : Except String Unit) :
    (Loop.next k answer).chance + (if answer.isOk then 1 else 0) ≤ (Loop.trying k).chance := by
  cases answer with
  | ok u => exact le_rfl
  | error e =>
    simp only [next]
    split
    · exact le_rfl
    · exact Nat.zero_le 1

theorem callsOf_concat (g : RaftGroup) (calls : List Call) (c : Call) :
    callsOf g (calls ++ [c]) = callsOf g calls + if c.group = g then 1 else 0 := by
  rw [callsOf, List.countP_append, List.countP_singleton]
  simp only [decide_eq_true_eq]
  rfl

theorem successesOf_concat (g : RaftGroup) (calls : List Call) (c : Call) :
    successesOf g (calls ++ [c]) =
      successesOf g calls + if c.group = g ∧ c.answer.isOk = true then 1 else 0 := by
  rw [successesOf, List.countP_append, List.countP_singleton]
  simp only [Bool.and_eq_true, decide_eq_true_eq]
  rfl

namespace Invariant

theorem start : Invariant m [] World.start where
  told n node h := by cases h
  mine n group k h := by cases h
  calls c h := by cases h
  budget lowest _ group := by simp [World.start, callsOf, loopIn, Loop.left]
  chances lowest _ group := by simp [World.start, successesOf, loopIn, Loop.chance]

theorem starts_le (n : UInt64) (as : List Act) (a : Act) : starts n as ≤ starts n (as ++ [a]) := by
  rw [starts_concat]
  exact Nat.le_add_right _ _

theorem paid_replace {left : Loop → ℕ} {rate spent : ℕ} {lowest : UInt64} {a : Act}
    {node : Option Node} (hfirst : left (.trying 1) = rate) (hnone : left .notMine = 0)
    (hloop : loopIn node group = .trying 1 ∧ isStart n a = true ∨ loopIn node group = .notMine)
    (h : spent + left (loopIn (s.nodes lowest) group) ≤ rate * starts lowest as) :
    spent + left (loopIn (Function.update s.nodes n node lowest) group) ≤
      rate * starts lowest (as ++ [a]) := by
  have hle := Nat.mul_le_mul_left rate (starts_le lowest as a)
  rw [Function.update_apply]
  split
  · rename_i heq
    subst heq
    rcases hloop with ⟨htrying, hstart⟩ | hidle
    · rw [htrying, hfirst, starts_concat, if_pos hstart, Nat.mul_succ]
      omega
    · rw [hidle, hnone]
      omega
  · omega

theorem replace (h : Invariant m as s) {a : Act} {node : Option Node}
    (htold : ∀ x, node = some x → x.peers = m)
    (hloop : ∀ group, loopIn node group = .trying 1 ∧ lowestId m = some n ∧ isStart n a = true ∨
      loopIn node group = .notMine) :
    Invariant m (as ++ [a]) { s with nodes := Function.update s.nodes n node } := by
  have hpaid : ∀ group, loopIn node group = .trying 1 ∧ isStart n a = true ∨
      loopIn node group = .notMine := fun group =>
    (hloop group).imp (fun htrying => ⟨htrying.1, htrying.2.2⟩) id
  refine ⟨fun l x hl => ?_, fun l group k hl => ?_, h.calls, fun lowest hlowest group => ?_,
    fun lowest hlowest group => ?_⟩
  · simp only [Function.update_apply] at hl
    split at hl
    · exact htold x hl
    · exact h.told l x hl
  · simp only [Function.update_apply] at hl
    split at hl
    · rename_i heq
      rcases hloop group with ⟨htrying, hmin, -⟩ | hidle
      · obtain rfl : 1 = k := Loop.trying.inj (htrying.symm.trans hl)
        exact ⟨heq ▸ hmin, le_rfl, by decide⟩
      · cases hidle.symm.trans hl
    · exact h.mine l group k hl
  · exact paid_replace rfl rfl (hpaid group) (h.budget lowest hlowest group)
  · have hchance := h.chances lowest hlowest group
    rw [← Nat.one_mul (starts _ _)] at hchance ⊢
    exact paid_replace rfl rfl (hpaid group) hchance

theorem paid_attempt {left : Loop → ℕ} {spent cost total k : ℕ} {answer : Except String Unit}
    {g : RaftGroup} {loop : RaftGroup → Loop} (hloop : loop group = .trying k)
    (hcost : left (Loop.next k answer) + (if group = g then cost else 0) ≤ left (.trying k))
    (h : spent + left (loop g) ≤ total) :
    spent + (if group = g then cost else 0) +
      left (Function.update loop group (Loop.next k answer) g) ≤ total := by
  rw [Function.update_apply]
  by_cases hg : g = group
  · subst hg
    rw [hloop] at h
    rw [if_pos rfl] at hcost ⊢
    rw [if_pos rfl]
    omega
  · rw [if_neg hg, if_neg (Ne.symm hg)]
    exact h

theorem attempt (h : Invariant m as s) {answer : Except String Unit} {node : Node} {k : ℕ}
    (hn : s.nodes n = some node) (hloop : node.loop group = .trying k) :
    Invariant m (as ++ [.attempt n group answer])
      { nodes := Function.update s.nodes n
          (some { node with loop := Function.update node.loop group (Loop.next k answer) }),
        calls := s.calls ++ [⟨n, group, node.peers, answer⟩] } := by
  have hpeers := h.told n node hn
  have hnode : ∀ g, loopIn (s.nodes n) g = node.loop g := fun g => by rw [hn]; rfl
  obtain ⟨hmin, hk, hk'⟩ := h.mine n group k ((hnode group).trans hloop)
  have hstarts : ∀ l, starts l (as ++ [.attempt n group answer]) = starts l as := fun l =>
    starts_concat l as _
  refine ⟨fun l x hl => ?_, fun l g j hl => ?_, fun c hc => ?_, fun lowest hlowest g => ?_,
    fun lowest hlowest g => ?_⟩
  · simp only [Function.update_apply] at hl
    split at hl
    · cases hl
      exact hpeers
    · exact h.told l x hl
  · simp only [Function.update_apply] at hl
    split at hl
    · rename_i heq
      subst heq
      simp only [loopIn, Function.update_apply] at hl
      split at hl
      · obtain ⟨rfl, hlt⟩ := Loop.next_eq_trying hl
        exact ⟨hmin, Nat.succ_le_succ (Nat.zero_le k), hlt⟩
      · exact h.mine l g j ((hnode g).trans hl)
    · exact h.mine l g j hl
  · rcases List.mem_append.mp hc with hc | hc
    · exact h.calls c hc
    · rw [List.mem_singleton.mp hc]
      exact ⟨hmin, hpeers⟩
  · obtain rfl : n = lowest := Option.some.inj (hmin.symm.trans hlowest)
    have hold := h.budget n hlowest g
    rw [hnode] at hold
    rw [hstarts, callsOf_concat]
    simp only [Function.update_self]
    refine paid_attempt hloop ?_ hold
    have hleft := Loop.next_left hk' answer
    split <;> omega
  · obtain rfl : n = lowest := Option.some.inj (hmin.symm.trans hlowest)
    have hold := h.chances n hlowest g
    rw [hnode] at hold
    rw [hstarts, successesOf_concat]
    simp only [Function.update_self, ite_and]
    refine paid_attempt hloop ?_ hold
    have hchance := Loop.next_chance k answer
    split <;> omega

theorem step (h : Invariant m as s) {a : Act} (hs : Step s a s')
    (htold : ∀ n text, a = .start n text → Peers.parsePeers text = .ok m) :
    Invariant m (as ++ [a]) s' := by
  cases hs with
  | @start n text peers lowest hup =>
    obtain ⟨hparse, hlowest⟩ := startUp_eq_ok hup
    obtain rfl : peers = m := Except.ok.inj (hparse.symm.trans (htold _ _ rfl))
    refine h.replace (fun x hx => by cases hx; rfl) fun group => ?_
    cases lowest with
    | true => exact .inl ⟨rfl, hlowest.mp rfl, decide_eq_true rfl⟩
    | false => exact .inr rfl
  | panic => exact h.replace (fun x hx => by cases hx) fun group => .inr rfl
  | stop n => exact h.replace (fun x hx => by cases hx) fun group => .inr rfl
  | attempt hn hloop => exact h.attempt hn hloop

theorem run (h : Lts.Steps Step World.start as s)
    (htold : ∀ n text, Act.start n text ∈ as → Peers.parsePeers text = .ok m) :
    Invariant m as s := by
  induction h with
  | nil => exact start
  | snoc _ hstep ih =>
    refine (ih fun n text hmem => htold n text (List.mem_append_left _ hmem)).step hstep ?_
    exact fun n text ha => htold n text (by simp [ha])

end Invariant

theorem one_cluster (h : Lts.Steps Step World.start as s)
    (htold : ∀ n text, Act.start n text ∈ as → Peers.parsePeers text = .ok m) :
    (∀ c ∈ s.calls, lowestId m = some c.node ∧ (∀ id ∈ m, c.node ≤ id) ∧ c.members = m) ∧
    (∀ lowest, lowestId m = some lowest → ∀ group,
      callsOf group s.calls ≤ ATTEMPTS * starts lowest as ∧
      successesOf group s.calls ≤ starts lowest as) ∧
    ∀ n node, s.nodes n = some node → ∀ (id : UInt64) (addr : String), m[id]? = some addr →
      Publish.leaderAddress node.peers (some id) = .ok (id, addr) ∧
      (∀ grpcAddr, (NodeConfig.mk node.peers grpcAddr).selfAddr id = addr) ∧
      ∀ fromShared group, fromShared addr = true →
        (Network.mk node.peers group).newClient fromShared id = .ok ⟨addr, group⟩ := by
  have hinv := Invariant.run h htold
  refine ⟨fun c hc => ?_, fun lowest hlowest group => ⟨?_, ?_⟩, fun n node hn id addr haddr => ?_⟩
  · obtain ⟨hlowest, hmembers⟩ := hinv.calls c hc
    exact ⟨hlowest, (lowestId_le hlowest).2, hmembers⟩
  · exact (Nat.le_add_right _ _).trans (hinv.budget lowest hlowest group)
  · exact (Nat.le_add_right _ _).trans (hinv.chances lowest hlowest group)
  · rw [hinv.told n node hn]
    refine ⟨?_, fun grpcAddr => ?_, fun fromShared group hshared => ?_⟩
    · simp only [Publish.leaderAddress, haddr]
    · simp only [NodeConfig.selfAddr, haddr, Option.getD_some]
    · simp only [Network.newClient, haddr, hshared, if_true]

theorem one_cluster_pair :
    let m := Peers.collect [(1, "http://one"), (2, "http://two")]
    ∃ s, Lts.Steps Step World.start [.start 2 "1=http://one,2=http://two",
        .start 1 "1 = http://one , 2 = http://two,", .attempt 1 .nodes (.error "NotInMembers"),
        .attempt 1 .nodes (.ok ()), .attempt 1 .spam (.ok ())] s ∧ s.calls.length = 3 ∧
      (∀ c ∈ s.calls, c.node = 1 ∧ c.members = m) ∧ callsOf .nodes s.calls ≤ 20 := by
  intro m
  have h1 : startUp 1 "1 = http://one , 2 = http://two," = .ok (m, true) := by decide +kernel
  have h2 : startUp 2 "1=http://one,2=http://two" = .ok (m, false) := by decide +kernel
  obtain ⟨s, hrun, hcalls⟩ : ∃ s, Lts.Steps Step World.start
      [.start 2 "1=http://one,2=http://two", .start 1 "1 = http://one , 2 = http://two,",
        .attempt 1 .nodes (.error "NotInMembers"), .attempt 1 .nodes (.ok ()),
        .attempt 1 .spam (.ok ())] s ∧ s.calls.length = 3 :=
    ⟨_, .cons (.start h2) (.cons (.start h1) (.cons (.attempt rfl rfl) (.cons
      (.attempt rfl rfl) (.single (.attempt rfl rfl))))), rfl⟩
  have hmin : lowestId m = some 1 := by decide +kernel
  obtain ⟨hmade, hbudget, -⟩ := one_cluster hrun (m := m) (by
    intro n text hmem
    simp only [List.mem_cons, List.not_mem_nil, or_false, reduceCtorEq, Act.start.injEq] at hmem
    obtain ⟨rfl, rfl⟩ | ⟨rfl, rfl⟩ := hmem
    · exact (startUp_eq_ok h2).1
    · exact (startUp_eq_ok h1).1)
  refine ⟨s, hrun, hcalls, fun c hc => ?_, (hbudget 1 hmin .nodes).1⟩
  obtain ⟨hnode, -, hmembers⟩ := hmade c hc
  exact ⟨Option.some.inj (hnode.symm.trans hmin), hmembers⟩

end Bootstrap
end BlunMq
