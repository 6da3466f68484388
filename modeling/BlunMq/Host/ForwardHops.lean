import BlunMq.Lib.Tally
import BlunMq.Host.Publish

/-!
# How far a publish call is forwarded

Nothing in `propose` or `forward` counts the hops of a call. What ends them is the term of
the hints: the node a hint names is at least at the hint's term when the call reaches it,
and if that node sends the call on, it does so on a hint of a later term.
-/

namespace BlunMq
namespace ForwardHops

/-- The vote of every node. `winner` names the one node that can be committed as leader of
a term, and a node that others follow at a term has itself reached it. -/
structure Votes (winner : UInt64 → UInt64) where
  vote : UInt64 → Vote
  unique : ∀ n, (vote n).committed = true → (vote n).leaderId.nodeId = winner (vote n).leaderId.term
  reached : ∀ n, (vote n).committed = true →
    (vote n).leaderId.term ≤ (vote (vote n).leaderId.nodeId).leaderId.term

def Votes.term {winner : UInt64 → UInt64} (votes : Votes winner) (n : UInt64) : UInt64 :=
  (votes.vote n).leaderId.term

structure World (winner : UInt64 → UInt64) where
  group : Publish.World
  nodes : List UInt64
  votes : Votes winner

def World.start {winner : UInt64 → UInt64} (votes : Votes winner) : World winner :=
  ⟨Publish.World.start, [], votes⟩

inductive Act
  | elect
  | call (node : UInt64) (queue : String) (payload : Bytes)
  | forward (root : ℕ) (term : UInt64)
  | hop (root : Option ℕ) (act : Publish.Act)

def Act.root? : Act → Option ℕ
  | .elect | .call _ _ _ => none
  | .forward root _ => some root
  | .hop root _ => root

def hintsOf (root : ℕ) (as : List Act) : List UInt64 :=
  as.filterMap fun
    | .forward r term => if r = root then some term else none
    | _ => none

def isFor (root : ℕ) (act : Act) : Bool := decide (act.root? = some root)

def stepsOf (root : ℕ) (as : List Act) : ℕ := as.countP (isFor root)

def mover : Publish.Act → Option ℕ
  | .call _ _ | .commitOther _ => none
  | .commit a _ | .ok a | .error a _ | .forwardToLeader a _ | .accept a | .rpcError a _
  | .answer a | .respond a => some a

def rootOf (group : Publish.World) (act : Publish.Act) : Option ℕ :=
  (mover act).bind fun a => group.calls[a]?.map Publish.Activation.root

variable (peers : Map UInt64 String) {winner : UInt64 → UInt64}

def Stays : Publish.Act → Prop
  | .call _ _ | .accept _ => False
  | .forwardToLeader _ leaderId => ∃ status, Publish.leaderAddress peers leaderId = .error status
  | _ => True

/-- A hint comes from a node that follows a leader, and carries that node's current term. A
node that follows itself takes the write, so a hint names another node. -/
inductive Step : World winner → Act → World winner → Prop
  | elect (s : World winner) (votes : Votes winner) (h : ∀ n, s.votes.term n ≤ votes.term n) :
      Step s .elect { s with votes := votes }
  | call (s : World winner) {node : UInt64} (queue : String) (payload : Bytes)
      (hnode : node ∈ peers) :
      Step s (.call node queue payload) { s with
        group := s.group.spawn s.group.calls.length queue payload, nodes := s.nodes ++ [node] }
  | forward {s : World winner} {a : ℕ} {call : Publish.Activation} {node t leader : UInt64}
      {addr : String} (ha : s.group.calls[a]? = some call) (hpc : call.pc = .proposing none)
      (hnode : s.nodes[a]? = some node) (hvote : s.votes.vote node = ⟨⟨t, leader⟩, true⟩)
      (hne : leader ≠ node) (hl : Publish.leaderAddress peers (some leader) = .ok (leader, addr)) :
      Step s (.forward call.root t) { s with group := s.group.move a call (.dialing leader) }
  | accept {s : World winner} {a : ℕ} {call : Publish.Activation} {leader : UInt64}
      (ha : s.group.calls[a]? = some call) (hpc : call.pc = .dialing leader) :
      Step s (.hop (some call.root) (.accept a)) { s with
        group := (s.group.move a call (.forwarding s.group.calls.length)).spawn call.root call.queue
          call.payload
        nodes := s.nodes ++ [leader] }
  | stay {s : World winner} {act : Publish.Act} {group : Publish.World}
      (hact : Stays peers act) (hstep : Publish.Step peers s.group act group) :
      Step s (.hop (rootOf s.group act) act) { s with group := group }

/-- More than the steps an activation has left, by its place. An activation that calls a
peer pays for the one it starts there. -/
def weight : Publish.Pc → ℕ
  | .proposing none => 4
  | .proposing (some _) => 2
  | .dialing _ => 7
  | .forwarding _ => 2
  | .answering _ => 1
  | .done _ => 0

def weightFor (root : ℕ) (call : Publish.Activation) : ℕ :=
  if call.root = root then weight call.pc else 0

def work (root : ℕ) (group : Publish.World) : ℕ := Tally.total (weightFor root) group.calls

def target (node : UInt64) : Publish.Pc → Option UInt64
  | .proposing none => some node
  | .dialing leader => some leader
  | _ => none

theorem weight_pos {pc : Publish.Pc} (h : ∀ result, pc ≠ .done result) : 0 < weight pc := by
  cases pc with
  | proposing response => cases response <;> simp [weight]
  | done result => exact absurd rfl (h result)
  | dialing leader | forwarding child | answering response => simp [weight]

variable {peers} {g g' : Publish.World}

theorem stays_cases {act : Publish.Act} (hstep : Publish.Step peers g act g')
    (hact : Stays peers act) :
    (rootOf g act = none ∧ g'.calls = g.calls) ∨
    ∃ a call pc, g.calls[a]? = some call ∧ rootOf g act = some call.root ∧
      g'.calls = g.calls.set a { call with pc := pc } ∧ (∀ node, target node pc = none) ∧
      weight pc < weight call.pc := by
  cases hstep with
  | call => exact hact.elim
  | accept => exact hact.elim
  | forwarded ha hpc hl =>
    obtain ⟨status, hstatus⟩ := hact
    rw [hl] at hstatus
    cases hstatus
  | commitOther hc => exact Or.inl ⟨rfl, rfl⟩
  | commit ha hpc | ok ha hpc | leaderless ha hpc | unreachable ha hpc | broken ha hpc
  | refused ha hpc | answered ha hpc | respond ha hpc =>
    refine Or.inr ⟨_, _, _, ha, ?_, rfl, fun _ => rfl, ?_⟩
    · simp [rootOf, mover, ha]
    · rw [hpc]
      simp [weight]
  | error ha hpc =>
    refine Or.inr ⟨_, _, _, ha, ?_, rfl, fun _ => rfl, weight_pos fun result h => ?_⟩
    · simp [rootOf, mover, ha]
    · rw [hpc] at h
      cases h

theorem hintsOf_concat (root : ℕ) (as : List Act) (act : Act) :
    hintsOf root (as ++ [act]) = hintsOf root as ++ hintsOf root [act] := List.filterMap_append

theorem stepsOf_concat (root : ℕ) (as : List Act) (act : Act) :
    stepsOf root (as ++ [act]) = stepsOf root as + if act.root? = some root then 1 else 0 := by
  rw [stepsOf, List.countP_append, List.countP_singleton, isFor]
  simp only [decide_eq_true_eq]
  rfl

theorem hintsOf_hop (root : ℕ) (as : List Act) {act : Act} (h : ∀ r t, act ≠ .forward r t) :
    hintsOf root (as ++ [act]) = hintsOf root as := by
  cases act with
  | forward r t => exact absurd rfl (h r t)
  | elect | call _ _ _ | hop _ _ => rw [hintsOf_concat]; exact List.append_nil _

theorem hintsOf_forward (root r : ℕ) (t : UInt64) :
    hintsOf r [.forward root t] = if root = r then [t] else [] := by
  by_cases h : root = r <;> simp [hintsOf, h]

theorem stepsOf_of_root {r : ℕ} {act : Act} (h : act.root? = some r) (root : ℕ) (as : List Act) :
    stepsOf root (as ++ [act]) = stepsOf root as + if r = root then 1 else 0 := by
  simp only [stepsOf_concat, h, Option.some.injEq]

theorem work_of_lt {root : ℕ} (h : ∀ call ∈ g.calls, call.root < root) : work root g = 0 := by
  refine List.sum_eq_zero fun n hn => ?_
  obtain ⟨call, hcall, rfl⟩ := List.mem_map.mp hn
  exact if_neg (h call hcall).ne

structure At (calls : List Publish.Activation) (nodes : List UInt64) (a : ℕ)
    (call : Publish.Activation) (n : UInt64) : Prop where
  lookup : calls[a]? = some call
  place : ∃ node, nodes[a]? = some node ∧ target node call.pc = some n

section At
variable {calls : List Publish.Activation} {nodes : List UInt64} {a b : ℕ}
  {call x y : Publish.Activation} {pc : Publish.Pc} {m n : UInt64}

theorem At.set_cases (h : At (calls.set a { call with pc := pc }) nodes b y n) :
    (b = a ∧ y = { call with pc := pc } ∧
        ∃ node, nodes[a]? = some node ∧ target node pc = some n) ∨
      b ≠ a ∧ At calls nodes b y n := by
  have hlookup := h.lookup
  by_cases hb : b = a
  · subst hb
    rw [List.getElem?_set_self'] at hlookup
    obtain ⟨old, -, rfl⟩ := Option.map_eq_some_iff.mp hlookup
    exact Or.inl ⟨rfl, rfl, h.place⟩
  · rw [List.getElem?_set_ne (Ne.symm hb)] at hlookup
    exact Or.inr ⟨hb, hlookup, h.place⟩

theorem At.of_set (hpc : ∀ node, target node pc = none)
    (h : At (calls.set a { call with pc := pc }) nodes b y n) : b ≠ a ∧ At calls nodes b y n := by
  rcases h.set_cases with ⟨-, -, node, -, hnode⟩ | hb
  · rw [hpc] at hnode
    cases hnode
  · exact hb

theorem At.concat_cases (hlen : nodes.length = calls.length)
    (h : At (calls ++ [x]) (nodes ++ [m]) b y n) :
    (b = calls.length ∧ y = x ∧ target m x.pc = some n) ∨ At calls nodes b y n := by
  obtain ⟨hlookup, node, hnode, htarget⟩ := h
  have hb : b < calls.length ∨ b = calls.length := by
    have hlt := (List.getElem?_eq_some_iff.mp hlookup).1
    rw [List.length_append, List.length_singleton] at hlt
    omega
  rcases hb with hb | rfl
  · rw [List.getElem?_append_left hb] at hlookup
    rw [List.getElem?_append_left (by omega)] at hnode
    exact Or.inr ⟨hlookup, node, hnode, htarget⟩
  · rw [List.getElem?_concat_length] at hlookup
    rw [← hlen, List.getElem?_concat_length] at hnode
    cases hlookup
    cases hnode
    exact Or.inl ⟨rfl, rfl, htarget⟩

end At

theorem leader_mem {leader : UInt64} {addr : String}
    (hl : Publish.leaderAddress peers (some leader) = .ok (leader, addr)) : leader ∈ peers := by
  simp only [Publish.leaderAddress] at hl
  split at hl
  · cases hl
  · rename_i found hfound
    exact Std.ExtTreeMap.mem_iff_isSome_getElem?.mpr (by rw [hfound]; rfl)

/-- The last hint of a call named the node that the call has reached or is to reach, and
that node has reached the term of the hint. -/
structure Invariant (peers : Map UInt64 String) (terms : Finset UInt64) (as : List Act)
    (s : World winner) : Prop where
  length : s.nodes.length = s.group.calls.length
  root_lt : ∀ call ∈ s.group.calls, call.root < s.group.calls.length
  fresh : ∀ root, s.group.calls.length ≤ root → hintsOf root as = [] ∧ stepsOf root as = 0
  known : ∀ a call n, At s.group.calls s.nodes a call n → n ∈ peers
  alone : ∀ a b call call' n n', At s.group.calls s.nodes a call n →
    At s.group.calls s.nodes b call' n' → call.root = call'.root → a = b
  arrived : ∀ a call n, At s.group.calls s.nodes a call n →
    ∀ t ∈ (hintsOf call.root as).getLast?, winner t = n ∧ t ≤ s.votes.term n
  increasing : ∀ root, (hintsOf root as).Pairwise (· < ·)
  within : ∀ root, ∀ t ∈ hintsOf root as, t ∈ terms
  work : ∀ root, stepsOf root as + work root s.group ≤ 4 * ((hintsOf root as).length + 1)

namespace Invariant
variable {terms : Finset UInt64} {as : List Act} {s : World winner}

theorem start (votes : Votes winner) : Invariant peers terms [] (World.start votes) where
  length := rfl
  root_lt _ h := by cases h
  fresh _ _ := ⟨rfl, rfl⟩
  known _ _ _ h := by cases h.lookup
  alone _ _ _ _ _ _ h := by cases h.lookup
  arrived _ _ _ h := by cases h.lookup
  increasing _ := List.Pairwise.nil
  within _ _ h := by cases h
  work _ := Nat.zero_le _

theorem elect (h : Invariant peers terms as s) {votes : Votes winner}
    (hvotes : ∀ n, s.votes.term n ≤ votes.term n) :
    Invariant peers terms (as ++ [Act.elect]) { s with votes := votes } := by
  have hhints : ∀ root : ℕ, hintsOf root (as ++ [Act.elect]) = hintsOf root as :=
    fun root => hintsOf_hop root as (by simp)
  have hsteps : ∀ root : ℕ, stepsOf root (as ++ [Act.elect]) = stepsOf root as :=
    fun root => stepsOf_concat root as .elect
  constructor
  · exact h.length
  · exact h.root_lt
  · simpa only [hhints, hsteps] using h.fresh
  · exact h.known
  · exact h.alone
  · intro a call n hat t ht
    rw [hhints] at ht
    obtain ⟨hwinner, hle⟩ := h.arrived a call n hat t ht
    exact ⟨hwinner, UInt64.le_trans hle (hvotes n)⟩
  · simpa only [hhints] using h.increasing
  · simpa only [hhints] using h.within
  · simpa only [hhints, hsteps] using h.work

theorem call (h : Invariant peers terms as s) {node : UInt64} {queue : String} {payload : Bytes}
    (hnode : node ∈ peers) :
    Invariant peers terms (as ++ [Act.call node queue payload]) { s with
      group := s.group.spawn s.group.calls.length queue payload, nodes := s.nodes ++ [node] } := by
  have hhints : ∀ root : ℕ, hintsOf root (as ++ [Act.call node queue payload]) = hintsOf root as :=
    fun root => hintsOf_hop root as (by simp)
  have hsteps : ∀ root : ℕ, stepsOf root (as ++ [Act.call node queue payload]) = stepsOf root as :=
    fun root => stepsOf_concat root as (.call node queue payload)
  have hold : ∀ {a call n}, At s.group.calls s.nodes a call n → call.root < s.group.calls.length :=
    fun hat => h.root_lt _ (List.mem_of_getElem? hat.lookup)
  constructor
  · simp [Publish.World.spawn, h.length]
  · intro call hcall
    simp only [Publish.World.spawn, List.length_append, List.length_singleton]
    rcases List.mem_append.mp hcall with hcall | hcall
    · exact Nat.lt_succ_of_lt (h.root_lt call hcall)
    · rw [List.mem_singleton.mp hcall]
      exact Nat.lt_succ_self _
  · intro root hroot
    simp only [Publish.World.spawn, List.length_append, List.length_singleton] at hroot
    rw [hhints, hsteps]
    exact h.fresh root (by omega)
  · intro a call n hat
    rcases hat.concat_cases h.length with ⟨-, rfl, htarget⟩ | hat
    · cases htarget
      exact hnode
    · exact h.known a call n hat
  · intro a b call call' n n' ha hb hroot
    rcases ha.concat_cases h.length with ⟨rfl, rfl, -⟩ | ha <;>
      rcases hb.concat_cases h.length with ⟨rfl, rfl, -⟩ | hb
    · rfl
    · exact absurd hroot (hold hb).ne'
    · exact absurd hroot (hold ha).ne
    · exact h.alone a b call call' n n' ha hb hroot
  · intro a call n hat t ht
    rw [hhints] at ht
    rcases hat.concat_cases h.length with ⟨-, rfl, -⟩ | hat
    · rw [(h.fresh _ le_rfl).1] at ht
      cases ht
    · exact h.arrived a call n hat t ht
  · simpa only [hhints] using h.increasing
  · simpa only [hhints] using h.within
  · intro root
    rw [hhints, hsteps, ForwardHops.work, Publish.World.spawn, Tally.total_append,
      Tally.total_cons, Tally.total_nil, add_zero]
    change stepsOf root as + (ForwardHops.work root s.group + _) ≤ _
    by_cases hroot : s.group.calls.length = root
    · subst hroot
      rw [work_of_lt h.root_lt, (h.fresh _ le_rfl).1, (h.fresh _ le_rfl).2, weightFor, if_pos rfl]
      exact le_rfl
    · rw [weightFor, if_neg hroot]
      exact h.work root

theorem later_hint (h : Invariant peers terms as s) {a : ℕ} {call : Publish.Activation}
    {node t leader : UInt64} (hat : At s.group.calls s.nodes a call node)
    (hvote : s.votes.vote node = ⟨⟨t, leader⟩, true⟩) (hne : leader ≠ node) :
    ∀ t' ∈ hintsOf call.root as, t' < t := by
  have hlast : ∀ t' ∈ (hintsOf call.root as).getLast?, t' < t := by
    intro t' ht'
    obtain ⟨hwinner, hle⟩ := h.arrived a call node hat t' ht'
    have hunique := s.votes.unique node (by rw [hvote])
    rw [Votes.term, hvote] at hle
    rw [hvote] at hunique
    refine UInt64.lt_of_le_of_ne hle fun heq => ?_
    subst heq
    exact hne (hunique.trans hwinner)
  intro t' ht'
  rcases List.eq_nil_or_concat' (hintsOf call.root as) with hnil | ⟨before, last, hconcat⟩
  · rw [hnil] at ht'
    cases ht'
  · have hlt : last < t := hlast last (by rw [hconcat, List.getLast?_concat]; rfl)
    have hincreasing := h.increasing call.root
    rw [hconcat] at ht' hincreasing
    rcases List.mem_append.mp ht' with ht' | ht'
    · exact UInt64.lt_trans ((List.pairwise_append.mp hincreasing).2.2 t' ht' last (by simp)) hlt
    · rw [List.mem_singleton.mp ht']
      exact hlt

theorem root_lt_set (h : Invariant peers terms as s) {a : ℕ} {call : Publish.Activation}
    (ha : s.group.calls[a]? = some call) (pc : Publish.Pc) :
    ∀ x ∈ s.group.calls.set a { call with pc := pc }, x.root < s.group.calls.length := by
  intro x hx
  rcases List.mem_or_eq_of_mem_set hx with hx | rfl
  · exact h.root_lt x hx
  · exact h.root_lt call (List.mem_of_getElem? ha)

theorem work_set {a : ℕ} {call : Publish.Activation} (ha : g.calls[a]? = some call)
    (pc : Publish.Pc) (root : ℕ) :
    Tally.total (weightFor root) (g.calls.set a { call with pc := pc }) +
      (if call.root = root then weight call.pc else 0) =
    ForwardHops.work root g + if call.root = root then weight pc else 0 :=
  Tally.total_set (weightFor root) ha { call with pc := pc }

theorem forward (h : Invariant peers terms as s) {a : ℕ} {call : Publish.Activation}
    {node t leader : UInt64} (ha : s.group.calls[a]? = some call)
    (hpc : call.pc = .proposing none) (hnode : s.nodes[a]? = some node)
    (hvote : s.votes.vote node = ⟨⟨t, leader⟩, true⟩) (hne : leader ≠ node)
    (hleader : leader ∈ peers) (hterms : ∀ n ∈ peers, s.votes.term n ∈ terms) :
    Invariant peers terms (as ++ [Act.forward call.root t])
      { s with group := s.group.move a call (.dialing leader) } := by
  have hat : At s.group.calls s.nodes a call node := ⟨ha, node, hnode, by rw [hpc]; rfl⟩
  have hhints : ∀ root : ℕ, hintsOf root (as ++ [Act.forward call.root t]) =
      hintsOf root as ++ if call.root = root then [t] else [] := fun root => by
    rw [hintsOf_concat, hintsOf_forward]
  have hsteps : ∀ root : ℕ, stepsOf root (as ++ [Act.forward call.root t]) =
      stepsOf root as + if call.root = root then 1 else 0 :=
    fun root => stepsOf_of_root rfl root as
  have hroot : call.root < s.group.calls.length := h.root_lt call (List.mem_of_getElem? ha)
  have hlen : (s.group.calls.set a { call with pc := .dialing leader }).length =
      s.group.calls.length := List.length_set
  constructor
  · exact h.length.trans hlen.symm
  · exact fun x hx => (h.root_lt_set ha _ x hx).trans_eq hlen.symm
  · intro root hle
    have hle : s.group.calls.length ≤ root := hlen.symm.le.trans hle
    rw [hhints, hsteps, if_neg (by omega), if_neg (by omega), List.append_nil]
    exact h.fresh root hle
  · intro b x n hb
    rcases hb.set_cases with ⟨-, -, _, _, htarget⟩ | ⟨-, hb⟩
    · cases htarget
      exact hleader
    · exact h.known b x n hb
  · intro b b' x x' n n' hb hb' heq
    rcases hb.set_cases with ⟨rfl, rfl, -⟩ | ⟨hbne, hb⟩ <;>
      rcases hb'.set_cases with ⟨rfl, rfl, -⟩ | ⟨hbne', hb'⟩
    · rfl
    · exact h.alone _ _ _ _ _ _ hat hb' heq
    · exact h.alone _ _ _ _ _ _ hb hat heq
    · exact h.alone _ _ _ _ _ _ hb hb' heq
  · intro b x n hb t' ht'
    rw [hhints] at ht'
    rcases hb.set_cases with ⟨rfl, rfl, _, _, htarget⟩ | ⟨hbne, hb⟩
    · cases htarget
      rw [if_pos rfl, List.getLast?_concat] at ht'
      cases ht'
      have hunique := s.votes.unique node (by rw [hvote])
      have hreached := s.votes.reached node (by rw [hvote])
      rw [hvote] at hunique hreached
      exact ⟨hunique.symm, hreached⟩
    · have hother : call.root ≠ x.root := fun heq => hbne (h.alone _ _ _ _ _ _ hb hat heq.symm)
      rw [if_neg hother, List.append_nil] at ht'
      exact h.arrived b x n hb t' ht'
  · intro root
    rw [hhints]
    by_cases heq : call.root = root
    · subst heq
      rw [if_pos rfl]
      refine List.pairwise_append.mpr ⟨h.increasing _, List.pairwise_singleton _ _, ?_⟩
      intro t' ht' t'' ht''
      rw [List.mem_singleton.mp ht'']
      exact h.later_hint hat hvote hne t' ht'
    · rw [if_neg heq, List.append_nil]
      exact h.increasing root
  · intro root t' ht'
    rw [hhints, List.mem_append] at ht'
    rcases ht' with ht' | ht'
    · exact h.within root t' ht'
    · split at ht'
      · have hterm := hterms node (h.known a call node hat)
        rw [List.mem_singleton.mp ht']
        rwa [Votes.term, hvote] at hterm
      · cases ht'
  · intro root
    have hset := work_set ha (.dialing leader) root
    have hwork := h.work root
    rw [hhints, hsteps, List.length_append]
    change _ + Tally.total (weightFor root) (s.group.calls.set a _) ≤ _
    by_cases heq : call.root = root
    · simp only [heq, if_true, hpc, weight, List.length_singleton] at hset ⊢
      omega
    · simp only [heq, if_false, List.length_nil] at hset ⊢
      omega

theorem accept (h : Invariant peers terms as s) {a : ℕ} {call : Publish.Activation}
    {leader : UInt64} (ha : s.group.calls[a]? = some call) (hpc : call.pc = .dialing leader) :
    Invariant peers terms (as ++ [Act.hop (some call.root) (.accept a)]) { s with
      group := (s.group.move a call (.forwarding s.group.calls.length)).spawn call.root call.queue
        call.payload
      nodes := s.nodes ++ [leader] } := by
  have hhints : ∀ root : ℕ, hintsOf root (as ++ [Act.hop (some call.root) (.accept a)]) =
      hintsOf root as := fun root => hintsOf_hop root as (by simp)
  have hsteps : ∀ root : ℕ, stepsOf root (as ++ [Act.hop (some call.root) (.accept a)]) =
      stepsOf root as + if call.root = root then 1 else 0 :=
    fun root => stepsOf_of_root rfl root as
  have hroot : call.root < s.group.calls.length := h.root_lt call (List.mem_of_getElem? ha)
  obtain ⟨node, hnode⟩ : ∃ node, s.nodes[a]? = some node :=
    ⟨_, List.getElem?_eq_getElem (by rw [h.length]; exact (List.getElem?_eq_some_iff.mp ha).1)⟩
  have hat : At s.group.calls s.nodes a call leader := ⟨ha, node, hnode, by rw [hpc]; rfl⟩
  have hlen : s.nodes.length =
      (s.group.calls.set a { call with pc := .forwarding s.group.calls.length }).length :=
    h.length.trans List.length_set.symm
  have hold : ∀ {b x n}, At (s.group.calls.set a { call with
      pc := .forwarding s.group.calls.length }) s.nodes b x n →
      b ≠ a ∧ At s.group.calls s.nodes b x n := fun hb => hb.of_set fun _ => rfl
  constructor
  · simp [Publish.World.spawn, Publish.World.move, h.length]
  · intro x hx
    simp only [Publish.World.spawn, Publish.World.move, List.length_append, List.length_set,
      List.length_singleton]
    rcases List.mem_append.mp hx with hx | hx
    · exact Nat.lt_succ_of_lt (h.root_lt_set ha _ x hx)
    · rw [List.mem_singleton.mp hx]
      exact Nat.lt_succ_of_lt hroot
  · intro root hle
    simp only [Publish.World.spawn, Publish.World.move, List.length_append, List.length_set,
      List.length_singleton] at hle
    rw [hhints, hsteps, if_neg (by omega)]
    exact h.fresh root (by omega)
  · intro b x n hb
    rcases hb.concat_cases hlen with ⟨-, rfl, htarget⟩ | hb
    · cases htarget
      exact h.known a call leader hat
    · exact h.known b x n (hold hb).2
  · intro b b' x x' n n' hb hb' heq
    rcases hb.concat_cases hlen with ⟨rfl, rfl, -⟩ | hb <;>
      rcases hb'.concat_cases hlen with ⟨rfl, rfl, -⟩ | hb'
    · rfl
    · exact absurd (h.alone _ _ _ _ _ _ hat (hold hb').2 heq).symm (hold hb').1
    · exact absurd (h.alone _ _ _ _ _ _ (hold hb).2 hat heq) (hold hb).1
    · exact h.alone _ _ _ _ _ _ (hold hb).2 (hold hb').2 heq
  · intro b x n hb t ht
    rw [hhints] at ht
    rcases hb.concat_cases hlen with ⟨rfl, rfl, htarget⟩ | hb
    · cases htarget
      exact h.arrived a call leader hat t ht
    · exact h.arrived b x n (hold hb).2 t ht
  · simpa only [hhints] using h.increasing
  · simpa only [hhints] using h.within
  · intro root
    have hset := work_set ha (.forwarding s.group.calls.length) root
    have hwork := h.work root
    rw [hhints, hsteps, ForwardHops.work, Publish.World.spawn, Publish.World.move,
      Tally.total_append, Tally.total_cons, Tally.total_nil, add_zero, weightFor]
    by_cases heq : call.root = root
    · simp only [heq, if_true, hpc, weight] at hset ⊢
      omega
    · simp only [heq, if_false] at hset ⊢
      omega

theorem stay (h : Invariant peers terms as s) {act : Publish.Act} {group : Publish.World}
    (hact : Stays peers act) (hstep : Publish.Step peers s.group act group) :
    Invariant peers terms (as ++ [Act.hop (rootOf s.group act) act]) { s with group := group } := by
  have hhints : ∀ root : ℕ, hintsOf root (as ++ [Act.hop (rootOf s.group act) act]) =
      hintsOf root as := fun root => hintsOf_hop root as (by simp)
  rcases stays_cases hstep hact with ⟨hroot, hcalls⟩ | ⟨a, call, pc, ha, hroot, hcalls, hpc, hlt⟩
  · have hsteps : ∀ root : ℕ, stepsOf root (as ++ [Act.hop (rootOf s.group act) act]) =
        stepsOf root as := fun root => by
      rw [stepsOf_concat, Act.root?, hroot]
      rfl
    constructor
    · exact h.length.trans (by rw [hcalls])
    · simpa only [hcalls] using h.root_lt
    · simpa only [hcalls, hhints, hsteps] using h.fresh
    · simpa only [hcalls] using h.known
    · simpa only [hcalls] using h.alone
    · simpa only [hcalls, hhints] using h.arrived
    · simpa only [hhints] using h.increasing
    · simpa only [hhints] using h.within
    · simpa only [hhints, hsteps, ForwardHops.work, hcalls] using h.work
  · have hact : (Act.hop (rootOf s.group act) act).root? = some call.root := hroot
    have hsteps : ∀ root : ℕ, stepsOf root (as ++ [Act.hop (rootOf s.group act) act]) =
        stepsOf root as + if call.root = root then 1 else 0 :=
      fun root => stepsOf_of_root hact root as
    have hold : ∀ {b x n}, At group.calls s.nodes b x n → At s.group.calls s.nodes b x n := by
      intro b x n hb
      rw [hcalls] at hb
      exact (hb.of_set hpc).2
    have hlen : group.calls.length = s.group.calls.length := by rw [hcalls, List.length_set]
    constructor
    · exact h.length.trans hlen.symm
    · intro x hx
      rw [hcalls] at hx
      exact (h.root_lt_set ha pc x hx).trans_eq hlen.symm
    · intro root hle
      have hle : s.group.calls.length ≤ root := hlen.symm.le.trans hle
      have hlt := h.root_lt call (List.mem_of_getElem? ha)
      rw [hhints, hsteps, if_neg (by omega)]
      exact h.fresh root hle
    · exact fun b x n hb => h.known b x n (hold hb)
    · exact fun b b' x x' n n' hb hb' => h.alone b b' x x' n n' (hold hb) (hold hb')
    · intro b x n hb
      rw [hhints]
      exact h.arrived b x n (hold hb)
    · simpa only [hhints] using h.increasing
    · simpa only [hhints] using h.within
    · intro root
      have hset := work_set ha pc root
      have hwork := h.work root
      rw [hhints, hsteps, ForwardHops.work, hcalls]
      by_cases heq : call.root = root
      · simp only [heq, if_true] at hset ⊢
        omega
      · simp only [heq, if_false] at hset ⊢
        omega

theorem step (h : Invariant peers terms as s) {act : Act} {s' : World winner}
    (hterms : ∀ n ∈ peers, s.votes.term n ∈ terms) (hstep : Step peers s act s') :
    Invariant peers terms (as ++ [act]) s' := by
  cases hstep with
  | elect votes hvotes => exact h.elect hvotes
  | call queue payload hnode => exact h.call hnode
  | forward ha hpc hnode hvote hne hl =>
    exact h.forward ha hpc hnode hvote hne (leader_mem hl) hterms
  | accept ha hpc => exact h.accept ha hpc
  | stay hact hstep => exact h.stay hact hstep

theorem length_hints_le (h : Invariant peers terms as s) (root : ℕ) :
    (hintsOf root as).length ≤ terms.card := by
  have hnodup : (hintsOf root as).Nodup := (h.increasing root).imp fun hlt => UInt64.ne_of_lt hlt
  rw [← List.toFinset_card_of_nodup hnodup]
  exact Finset.card_le_card fun t ht => h.within root t (List.mem_toFinset.mp ht)

end Invariant

def Within (peers : Map UInt64 String) (terms : Finset UInt64) (s : World winner) (act : Act)
    (s' : World winner) : Prop :=
  (∀ n ∈ peers, s.votes.term n ∈ terms) ∧ Step peers s act s'

def Ended (root : ℕ) (s : World winner) : Prop :=
  ∃ call result, s.group.calls[root]? = some call ∧ call.pc = .done result

theorem invariant_run {terms : Finset UInt64} {votes : Votes winner} {as : List Act}
    {s : World winner} (h : Lts.Steps (Within peers terms) (World.start votes) as s) :
    Invariant peers terms as s :=
  h.trace_invariant (fun _ _ _ _ hs hstep => hs.step hstep.1 hstep.2) (Invariant.start votes)

theorem exists_step (peers : Map UInt64 String) {s : World winner} {a : ℕ}
    {call : Publish.Activation} (ha : s.group.calls[a]? = some call)
    (hpc : ∀ result, call.pc ≠ .done result) :
    ∃ act s', act.root? = some call.root ∧ Step peers s act s' := by
  have hmove : ∀ act group, mover act = some a → Stays peers act →
      Publish.Step peers s.group act group →
      ∃ act s', act.root? = some call.root ∧ Step peers s act s' := by
    intro act group hmover hact hstep
    refine ⟨.hop (rootOf s.group act) act, { s with group := group }, ?_, .stay hact hstep⟩
    simp [Act.root?, rootOf, hmover, ha]
  cases h : call.pc with
  | proposing response => exact hmove (.error a "") _ rfl trivial (.error ha h)
  | dialing leader =>
    exact hmove (.rpcError a ⟨.unavailable, ""⟩) _ rfl trivial (.unreachable ha h)
  | forwarding child => exact hmove (.rpcError a ⟨.unavailable, ""⟩) _ rfl trivial (.broken ha h)
  | answering response => exact hmove (.respond a) _ rfl trivial (.respond ha h)
  | done result => exact absurd h (hpc result)

theorem stepsOf_le {terms : Finset UInt64} {votes : Votes winner} {as : List Act}
    {s : World winner} (h : Lts.Steps (Within peers terms) (World.start votes) as s) (root : ℕ) :
    stepsOf root as ≤ 4 * (terms.card + 1) := by
  have hwork := (invariant_run h).work root
  have hle := (invariant_run h).length_hints_le root
  omega

/-- The hints that a call is forwarded on have ever later terms, so it is forwarded at most
once for each term that occurs, its handlers take a bounded number of steps between them,
and there is such a step until the call has ended: it ends in every run in which proposals
and RPCs return or fail. -/
theorem publish_forwarding_ends (peers : Map UInt64 String) (terms : Finset UInt64)
    (votes : Votes winner) :
    (∀ as s, Lts.Steps (Within peers terms) (World.start votes) as s → ∀ root,
      (hintsOf root as).Pairwise (· < ·) ∧ (hintsOf root as).length ≤ terms.card ∧
      stepsOf root as ≤ 4 * (terms.card + 1) ∧
      ∀ call, s.group.calls[root]? = some call → call.root = root → ¬ Ended root s →
        ∃ act s', act.root? = some root ∧ Step peers s act s') ∧
    ∀ (run : ℕ → World winner) (act : ℕ → Act), run 0 = World.start votes →
      (∀ i, Within peers terms (run i) (act i) (run (i + 1))) →
      ∀ root start : ℕ,
        (∀ i, start ≤ i → ¬ Ended root (run i) → ∃ j, i ≤ j ∧ (act j).root? = some root) →
        ∃ i, start ≤ i ∧ Ended root (run i) := by
  refine ⟨fun as s h root => ?_, fun run act hstart hsteps root start hfair => ?_⟩
  · have hinv := invariant_run h
    refine ⟨hinv.increasing root, hinv.length_hints_le root, stepsOf_le h root, ?_⟩
    intro call hcall hroot hended
    have hnext := exists_step peers hcall fun result hpc =>
      hended ⟨call, result, hcall, hpc⟩
    rwa [hroot] at hnext
  · have hbound : ∀ n, (Lts.labels act n).countP (isFor root) ≤ 4 * (terms.card + 1) := by
      intro n
      have h := Lts.steps_of_forall hsteps n
      rw [hstart] at h
      exact stepsOf_le h root
    refine Lts.eventually_of_bounded hbound fun i hi hended => ?_
    obtain ⟨j, hj, hfor⟩ := hfair i hi hended
    exact ⟨j, hj, by rw [isFor, decide_eq_true_eq, hfor]⟩

theorem publish_forwarding_ends_once :
    let peers : Map UInt64 String :=
      ((∅ : Map UInt64 String).insert 1 "http://node1").insert 2 "http://node2"
    let votes : Votes fun _ => 2 :=
      ⟨fun _ => ⟨⟨1, 2⟩, true⟩, fun _ _ => rfl, fun _ _ => UInt64.le_refl 1⟩
    let world : List Publish.Activation → List UInt64 → World fun _ => 2 :=
      fun calls nodes => ⟨⟨CommittedLog.empty, [], calls⟩, nodes, votes⟩
    let call : Publish.Pc → Publish.Activation := fun pc => ⟨0, "spam", [7], pc⟩
    let failed : Publish.Pc := .done (.error ⟨.internal, "raft write failed: " ++ "timeout"⟩)
    let states := [World.start votes, world [call (.proposing none)] [1],
      world [call (.dialing 2)] [1],
      world [call (.forwarding 1), call (.proposing none)] [1, 2],
      world [call (.forwarding 1), call failed] [1, 2]]
    let as : List Act := [.call 1 "spam" [7], .forward 0 1, .hop (some 0) (.accept 0),
      .hop (some 0) (.error 1 "timeout"), .hop (some 0) (.answer 0)]
    let last := world [call failed, call failed] [1, 2]
    let run : ℕ → World fun _ => 2 := fun i => states.getD i last
    Lts.Steps (Within peers {1}) (World.start votes) as last ∧ (hintsOf 0 as).length ≤ 1 ∧
      ∃ i, 1 ≤ i ∧ Ended 0 (run i) := by
  intro peers votes world call failed states as last run
  have hterms : ∀ n ∈ peers, votes.term n ∈ ({1} : Finset UInt64) :=
    fun _ _ => Finset.mem_singleton_self 1
  have hone : (1 : UInt64) ∈ peers := by decide +kernel
  have hl : Publish.leaderAddress peers (some 2) = .ok (2, "http://node2") := by decide +kernel
  have herror : Stays peers (.error 1 "timeout") := trivial
  have hanswer : Stays peers (.answer 0) := trivial
  have h1 : (run 1).group.calls[0]? = some (call (.proposing none)) := rfl
  have h2 : (run 2).group.calls[0]? = some (call (.dialing 2)) := rfl
  have h3 : (run 3).group.calls[1]? = some (call (.proposing none)) := rfl
  have h4 : (run 4).group.calls[0]? = some (call (.forwarding 1)) := rfl
  have hsteps : ∀ i, Within peers {1} (run i) (as.getD i .elect) (run (i + 1)) := by
    intro i
    rcases i with _ | _ | _ | _ | _ | i
    · exact ⟨hterms, .call _ _ _ hone⟩
    · exact ⟨hterms, .forward h1 rfl rfl rfl (by decide) hl⟩
    · exact ⟨hterms, .accept h2 rfl⟩
    · exact ⟨hterms, .stay herror (.error h3 rfl)⟩
    · exact ⟨hterms, .stay hanswer (.refused h4 rfl rfl rfl)⟩
    · exact ⟨hterms, .elect _ _ fun n => UInt64.le_refl _⟩
  have hends := publish_forwarding_ends peers {1} votes
  have hrun := Lts.steps_of_forall hsteps 5
  refine ⟨hrun, (hends.1 as last hrun 0).2.1, hends.2 run _ rfl hsteps 0 1 fun i _ hended => ?_⟩
  by_cases hi : i ≤ 4
  · exact ⟨4, hi, rfl⟩
  · obtain ⟨n, rfl⟩ : ∃ n, i = n + 5 := ⟨i - 5, by omega⟩
    exact absurd ⟨call failed, _, rfl, rfl⟩ hended

end ForwardHops
end BlunMq
