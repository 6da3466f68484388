import BlunMq.Lib.Tally
import BlunMq.Host.Publish

/-!
# Who proposed what

Every activation of the publish handler works for a client call, and every activation has
made one proposal. It waits for the response, has given the proposal up, or the message is
in the log.
-/

namespace BlunMq

def payloadOn (q : String) : QueueRequest → Multiset Bytes
  | .publish queue payload => if queue = q then {payload} else 0
  | .pop _ => 0

namespace Publish
variable {peers : Map UInt64 String} {s s' : World} {act : Act}

def Act.Local : Act → Prop
  | .commit _ _ | .commitOther _ => False
  | _ => True

theorem Step.log_of_local (h : Step peers s act s') (hlocal : act.Local) :
    s'.log = s.log ∧ s'.roots = s.roots := by
  cases h with
  | commit => exact hlocal.elim
  | commitOther => exact hlocal.elim
  | call | ok | error | forwarded | leaderless | accept | unreachable | broken | answered
    | refused | respond => exact ⟨rfl, rfl⟩

theorem Extends.refl (s : World) : Extends s s :=
  ⟨List.prefix_rfl, List.prefix_rfl, fun _ peer hpeer => ⟨peer, hpeer, rfl, rfl, rfl⟩⟩

theorem Extends.trans {s'' : World} (h : Extends s s') (h' : Extends s' s'') : Extends s s'' := by
  refine ⟨h.log.trans h'.log, h.roots.trans h'.roots, fun child peer hpeer => ?_⟩
  obtain ⟨peer', hpeer', hroot, hqueue, hpayload⟩ := h.calls child peer hpeer
  obtain ⟨peer'', hpeer'', hroot', hqueue', hpayload'⟩ := h'.calls child peer' hpeer'
  exact ⟨peer'', hpeer'', hroot'.trans hroot, hqueue'.trans hqueue, hpayload'.trans hpayload⟩

theorem Step.extends (h : Step peers s act s') : Extends s s' := by
  cases h with
  | call => exact extends_spawn _ _ _ _
  | @commit a id call log' r ha hpc hc =>
    have ha' : { s with log := log', roots := s.roots ++ [some call.root] }.calls[a]? =
        some call := ha
    exact (extends_commit hc (some call.root)).trans (extends_move ha' (.proposing (some r)))
  | commitOther hc => exact extends_commit hc none
  | ok ha | error ha | forwarded ha | leaderless ha | unreachable ha | broken ha | answered ha
    | refused ha | respond ha => exact extends_move ha _
  | accept ha => exact (extends_move ha _).trans (extends_spawn _ _ _ _)

structure Rooted (s : World) : Prop where
  roots : ∀ root, some root ∈ s.roots → root < s.calls.length
  client : ∀ call ∈ s.calls, ∃ client, s.calls[call.root]? = some client ∧
    client.root = call.root ∧ client.queue = call.queue ∧ client.payload = call.payload

namespace Rooted
variable {a : ℕ}

theorem start : Rooted World.start :=
  ⟨(fun _ h => by cases h), fun _ h => by cases h⟩

theorem lookup (h : Rooted s) {call : Activation} (ha : s.calls[a]? = some call) :
    call.root < s.calls.length := by
  obtain ⟨client, hclient, -⟩ := h.client call (List.mem_of_getElem? ha)
  exact (List.getElem?_eq_some_iff.mp hclient).1

theorem mono (h : Rooted s) (hext : Extends s s') {call : Activation} (hmem : call ∈ s.calls) :
    ∃ client, s'.calls[call.root]? = some client ∧ client.root = call.root ∧
      client.queue = call.queue ∧ client.payload = call.payload := by
  obtain ⟨client, hclient, hroot, hqueue, hpayload⟩ := h.client call hmem
  obtain ⟨client', hclient', hroot', hqueue', hpayload'⟩ := hext.calls _ client hclient
  exact ⟨client', hclient', hroot'.trans hroot, hqueue'.trans hqueue, hpayload'.trans hpayload⟩

theorem move (h : Rooted s) {call : Activation} (ha : s.calls[a]? = some call) (pc : Pc) :
    Rooted (s.move a call pc) where
  roots root hroot := by
    rw [World.move, List.length_set]
    exact h.roots root hroot
  client x hx := by
    have hext := extends_move ha pc
    rcases List.mem_or_eq_of_mem_set hx with hx | hx
    · exact h.mono hext hx
    · rw [hx]
      have hcall := h.mono hext (List.mem_of_getElem? ha)
      exact hcall

theorem append (h : Rooted s) (log' : CommittedLog QueueRequest) {root : Option ℕ}
    (hroot : ∀ n ∈ root, n < s.calls.length) :
    Rooted { s with log := log', roots := s.roots ++ [root] } where
  roots n hn := by
    rcases List.mem_append.mp hn with hn | hn
    · exact h.roots n hn
    · exact hroot n (List.mem_singleton.mp hn).symm
  client := h.client

theorem spawn (h : Rooted s) {root : ℕ} {queue : String} {payload : Bytes}
    (hclient : root = s.calls.length ∨ ∃ call ∈ s.calls, call.root = root ∧ call.queue = queue ∧
      call.payload = payload) : Rooted (s.spawn root queue payload) where
  roots n hn := by
    rw [World.spawn, List.length_append]
    exact Nat.lt_add_right _ (h.roots n hn)
  client x hx := by
    have hext := extends_spawn s root queue payload
    rcases List.mem_append.mp hx with hx | hx
    · exact h.mono hext hx
    · rw [List.mem_singleton.mp hx]
      rcases hclient with hroot | ⟨call, hmem, hroot, hqueue, hpayload⟩
      · rw [hroot]
        exact ⟨_, List.getElem?_concat_length, rfl, rfl, rfl⟩
      · have hcall := h.mono hext hmem
        rwa [hroot, hqueue, hpayload] at hcall

theorem step (h : Rooted s) (hstep : Step peers s act s') : Rooted s' := by
  cases hstep with
  | call queue payload => exact h.spawn (.inl rfl)
  | @commit a id call log' r ha hpc hc =>
    have hroot : ∀ n ∈ some call.root, n < s.calls.length := fun n hn => by
      cases hn
      exact h.lookup ha
    have happend := h.append log' hroot
    have ha' : { s with log := log', roots := s.roots ++ [some call.root] }.calls[a]? =
        some call := ha
    exact happend.move ha' (.proposing (some r))
  | @commitOther e log' r hc => exact h.append log' fun n hn => by cases hn
  | ok ha | error ha | forwarded ha | leaderless ha | unreachable ha | broken ha | answered ha
    | refused ha | respond ha => exact h.move ha _
  | @accept a call leader ha hpc =>
    refine (h.move ha _).spawn (.inr ⟨{ call with pc := .forwarding s.calls.length }, ?_, rfl, rfl,
      rfl⟩)
    exact List.mem_set (List.getElem?_eq_some_iff.mp ha).1 _

end Rooted

theorem rooted_run {as : List Act} (h : Lts.Steps (Step peers) World.start as s) : Rooted s :=
  h.invariant (P := Rooted) (fun _ _ _ hs hstep => hs.step hstep) .start

theorem extends_run {as : List Act} (h : Lts.Steps (Step peers) s as s') : Extends s s' := by
  induction h with
  | nil => exact .refl s
  | snoc _ hstep ih => exact ih.trans hstep.extends

theorem published_at {log : CommittedLog QueueRequest} {queue : String} {payload : Bytes} {n : ℕ}
    {e : Entry QueueRequest} (he : log.entries[n]? = some e)
    (hp : e.payload = .normal (.publish queue payload)) :
    (log.published queue)[publishedBefore log queue n]? = some payload := by
  have hsplit : log.entries = log.entries.take n ++ e :: log.entries.drop (n + 1) := by
    obtain ⟨hlt, rfl⟩ := List.getElem?_eq_some_iff.mp he
    rw [List.getElem_cons_drop, List.take_append_drop]
  have hpublished : log.published queue =
      QueueState.publishedTo queue (StateMachineStore.requests (log.entries.take n)) ++ payload ::
        QueueState.publishedTo queue (StateMachineStore.requests (log.entries.drop (n + 1))) := by
    rw [CommittedLog.published]
    conv_lhs => rw [hsplit]
    simp [StateMachineStore.requests, QueueState.publishedTo, hp]
  rw [hpublished, publishedBefore, List.getElem?_append_right le_rfl, Nat.sub_self]
  rfl

theorem publishedBefore_length (log : CommittedLog QueueRequest) (queue : String) :
    publishedBefore log queue log.entries.length = (log.published queue).length := by
  rw [publishedBefore, List.take_length]
  rfl

theorem Stamped.lt {call : Activation} {offset : UInt64} (h : Stamped s call offset) :
    offset.toNat < (s.log.published call.queue).length := by
  obtain ⟨n, ⟨-, e, he, hp⟩, hcount⟩ := h
  rw [hcount, ← publishedBefore_length]
  exact publishedBefore_lt he hp (List.getElem?_eq_some_iff.mp he).1

theorem entry_after_call (hinv : Invariant s) (hroot : Rooted s) (hext : Extends s s')
    {queue : String} {payload : Bytes} {n : ℕ}
    (hown : OwnEntry s' s.calls.length queue payload n) : s.log.entries.length ≤ n := by
  by_contra hlt
  rw [← hinv.length, not_le] at hlt
  have hsame := getElem?_of_isPrefix hext.roots (List.getElem?_eq_getElem hlt)
  rw [hown.owner] at hsame
  have hmem : some s.calls.length ∈ s.roots := by
    rw [Option.some.inj hsame]
    exact List.getElem_mem hlt
  exact lt_irrefl _ (hroot.roots _ hmem)

theorem publishedBefore_extends (hext : Extends s s') (queue : String) {n : ℕ}
    (hn : s.log.entries.length ≤ n) :
    (s.log.published queue).length ≤ publishedBefore s'.log queue n := by
  have hle : s'.log.entries.take s.log.entries.length <+: s'.log.entries.take n :=
    List.take_prefix_take_left hn
  rw [← List.prefix_iff_eq_take.mp hext.log] at hle
  exact ((hle.filterMap _).filterMap _).length_le

def Activation.unanswered (call : Activation) : List QueueRequest :=
  match call.pc with
  | .proposing none => [.publish call.queue call.payload]
  | _ => []

/-- The proposal that a step of the handlers gives up. It stays in flight. -/
def givenUp (calls : List Activation) : Act → List QueueRequest
  | .error a _ | .forwardToLeader a _ => (calls[a]?.map Activation.unanswered).getD []
  | _ => []

theorem Activation.unanswered_cases (call : Activation) :
    call.unanswered = [] ∨ call.unanswered = [.publish call.queue call.payload] := by
  unfold Activation.unanswered
  split
  · exact .inr rfl
  · exact .inl rfl

theorem givenUp_cases (calls : List Activation) (act : Act) :
    givenUp calls act = [] ∨ ∃ queue payload, givenUp calls act = [.publish queue payload] := by
  cases act with
  | error a _ | forwardToLeader a _ =>
    rw [givenUp]
    cases calls[a]? with
    | none => exact .inl rfl
    | some call => exact call.unanswered_cases.imp_right fun h => ⟨_, _, h⟩
  | _ => exact .inl rfl

def proposed (q : String) (call : Activation) : Multiset Bytes :=
  payloadOn q (.publish call.queue call.payload)

def pending (q : String) (call : Activation) : Multiset Bytes :=
  match call.pc with
  | .proposing none => proposed q call
  | _ => 0

section Ledger
variable {a : ℕ} {call : Activation}

theorem total_proposed_move (ha : s.calls[a]? = some call) (pc : Pc) (q : String) :
    Tally.total (proposed q) (s.move a call pc).calls = Tally.total (proposed q) s.calls :=
  add_right_cancel (Tally.total_set (proposed q) ha { call with pc := pc })

theorem total_pending_move (ha : s.calls[a]? = some call) (pc : Pc) (q : String) :
    Tally.total (pending q) (s.move a call pc).calls + pending q call =
      Tally.total (pending q) s.calls + pending q { call with pc := pc } :=
  Tally.total_set (pending q) ha { call with pc := pc }

theorem total_unanswered (call : Activation) (q : String) :
    Tally.total (payloadOn q) call.unanswered = pending q call := by
  unfold Activation.unanswered pending
  split <;> simp [proposed]

theorem ledger_move (ha : s.calls[a]? = some call) {pc : Pc} (q : String)
    (hpc : pending q { call with pc := pc } = 0) :
    Tally.total (proposed q) (s.move a call pc).calls + Tally.total (pending q) s.calls =
      Tally.total (proposed q) s.calls + pending q call +
        Tally.total (pending q) (s.move a call pc).calls := by
  have h := total_pending_move ha pc q
  rw [hpc, add_zero] at h
  rw [total_proposed_move ha, ← h]
  abel

theorem ledger_spawn (s : World) (root : ℕ) (queue : String) (payload : Bytes) (q : String) :
    Tally.total (proposed q) (s.spawn root queue payload).calls + Tally.total (pending q) s.calls =
      Tally.total (proposed q) s.calls +
        Tally.total (pending q) (s.spawn root queue payload).calls := by
  simp only [World.spawn, Tally.total_append, Tally.total_cons, Tally.total_nil, pending]
  abel

theorem pending_eq_zero {q : String} (hpc : call.pc ≠ .proposing none) : pending q call = 0 := by
  unfold pending
  split
  · exact absurd ‹_› hpc
  · rfl

theorem ledger_answered (ha : s.calls[a]? = some call) {pc : Pc} (q : String)
    (hpc : call.pc ≠ .proposing none) (hpc' : pending q { call with pc := pc } = 0) :
    Tally.total (proposed q) (s.move a call pc).calls + Tally.total (pending q) s.calls =
      Tally.total (proposed q) s.calls + Tally.total (pending q) (s.move a call pc).calls := by
  have h := ledger_move ha q hpc'
  rwa [pending_eq_zero hpc, add_zero] at h

theorem Step.ledger (h : Step peers s act s') (hlocal : act.Local) (q : String) :
    Tally.total (proposed q) s'.calls + Tally.total (pending q) s.calls =
      Tally.total (proposed q) s.calls + Tally.total (payloadOn q) (givenUp s.calls act) +
        Tally.total (pending q) s'.calls := by
  cases h with
  | commit | commitOther => exact hlocal.elim
  | call queue payload =>
    simp only [givenUp, Tally.total_nil, add_zero]
    exact ledger_spawn s _ queue payload q
  | error ha hpc | forwarded ha hpc | leaderless ha hpc =>
    rw [givenUp, ha, Option.map_some, Option.getD_some, total_unanswered]
    exact ledger_move ha q rfl
  | ok ha hpc | unreachable ha hpc | broken ha hpc | answered ha hpc | refused ha hpc
    | respond ha hpc =>
    simp only [givenUp, Tally.total_nil, add_zero]
    exact ledger_answered ha q (by rw [hpc]; simp) rfl
  | @accept a call leader ha hpc =>
    have hmove : Tally.total (proposed q) (s.move a call (.forwarding s.calls.length)).calls +
        Tally.total (pending q) s.calls = _ := ledger_answered ha q (by rw [hpc]; simp) rfl
    have hspawn := ledger_spawn (s.move a call (.forwarding s.calls.length)) call.root call.queue
      call.payload q
    simp only [givenUp, Tally.total_nil, add_zero]
    refine add_right_cancel
      (b := Tally.total (pending q) (s.move a call (.forwarding s.calls.length)).calls) ?_
    rw [add_right_comm, hspawn, add_right_comm, hmove]
    abel

end Ledger

end Publish

end BlunMq
