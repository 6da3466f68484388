import BlunMq.Lib.Reorder
import BlunMq.Host.ClosedStreams

/-!
# In what order a stream emits

One client stream on the leader is the only consumer of its queue. Pops leave the queue
in order, but each of the 32 workers sends its message when it is scheduled, so a message
can be overtaken by those of the other workers. With one worker this is the sequential
loop, and the order is that of the queue.
-/

namespace BlunMq

def serving (log : CommittedLog QueueRequest) (requests : List QueueRequest) (q : String) :
    Cluster := ⟨log, requests, [Stream.start q true], []⟩

/-- The leader answers every proposal and the client stays; nobody else consumes. -/
def Sole : Act → Prop
  | .publish _ _ | .commitInFlight _ _ | .commitOther _ | .propose _ _ | .commit _ _ _
  | .answer _ _ | .send _ _ | .wake _ _ | .pull _ => True
  | _ => False

def poppedSince (log₀ log : CommittedLog QueueRequest) (q : String) : List Item :=
  (log.popped q).drop (log₀.popped q).length

/-- What popping one at a time gets: everything published to the queue, in log order,
from the first message that was not popped yet. -/
def sequential (log₀ log : CommittedLog QueueRequest) (q : String) : List Item :=
  ((Fifo.numbered (log.published q)).map QueueState.toItem).drop (log₀.popped q).length

theorem poppedSince_isPrefix (log₀ log : CommittedLog QueueRequest) (q : String) :
    poppedSince log₀ log q <+: sequential log₀ log q := by
  have hpre : log.popped q <+: (Fifo.numbered (log.published q)).map QueueState.toItem := by
    rw [CommittedLog.popped_eq, Fifo.served, QueueState.bankOf_pushed]
    exact (List.take_prefix _ _).map _
  exact hpre.drop _

structure Alone (q : String) (n : ℕ) (s : Cluster) (st : Stream) : Prop where
  only : s.streams = [st]
  queue : st.queue = q
  isOpen : st.isOpen = true
  client : st.client = true
  wire : st.wire = []
  staffed : st.workers.length = POP_CONCURRENCY
  idle : ∀ i pc, st.workers[i]? = some pc → n ≤ i → pc = .ready
  requests : ∀ req ∈ s.inFlight, req ≠ .pop q

variable {peers : Map UInt64 String} {log₀ : CommittedLog QueueRequest} {q : String} {n : ℕ}
  {s s' : Cluster} {st st' : Stream} {a : Act}

namespace Alone

theorem start (log : CommittedLog QueueRequest) {requests : List QueueRequest}
    (h : ∀ req ∈ requests, req ≠ .pop q) (n : ℕ) :
    Alone q n (serving log requests q) (Stream.start q true) where
  only := rfl
  queue := rfl
  isOpen := rfl
  client := rfl
  wire := rfl
  staffed := List.length_replicate
  idle _ _ hi _ := List.eq_of_mem_replicate (List.mem_of_getElem? hi)
  requests := h

theorem lookup (h : Alone q n s st) {sid : ℕ} {x : Stream} (hx : s.streams[sid]? = some x) :
    sid = 0 ∧ x = st := by
  rw [h.only] at hx
  cases sid with
  | zero => exact ⟨rfl, (Option.some.inj hx).symm⟩
  | succ k => cases hx

theorem lt (h : Alone q n s st) {i : ℕ} {pc : Pc} (hw : st.workers[i]? = some pc)
    (hpc : pc ≠ .ready) : i < n := by
  by_contra hi
  exact hpc (h.idle i pc hw (Nat.not_lt.mp hi))

theorem put (h : Alone q n s st) {i : ℕ} (hi : i < n) (pc : Pc) (channel : List Item)
    (log : CommittedLog QueueRequest) (emitted : List Emission) :
    Alone q n ⟨log, s.inFlight, [{ st.put i pc with channel := channel }], emitted⟩
      { st.put i pc with channel := channel } where
  only := rfl
  queue := h.queue
  isOpen := h.isOpen
  client := h.client
  wire := h.wire
  staffed := List.length_set.trans h.staffed
  idle j pc' hj hn := by
    have hne : i ≠ j := by omega
    rw [Stream.put, List.getElem?_set_ne hne] at hj
    exact h.idle j pc' hj hn
  requests := h.requests

theorem update_eq (h : Alone q n s st) (st' : Stream) :
    s.update 0 st' = ⟨s.log, s.inFlight, [st'], s.emitted⟩ := by
  rw [Cluster.update, h.only]
  rfl

theorem emit (h : Alone q n s st) (channel : List Item) (emitted : List Emission) :
    Alone q n ⟨s.log, s.inFlight, [{ st with channel := channel }], emitted⟩
      { st with channel := channel } :=
  ⟨rfl, h.queue, h.isOpen, h.client, h.wire, h.staffed, h.idle, h.requests⟩

end Alone

theorem emittedOn_concat (es : List Emission) (log : CommittedLog QueueRequest)
    (requests : List QueueRequest) (streams : List Stream) (sid : ℕ) (q : String) (item : Item) :
    (⟨log, requests, streams, es ++ [⟨sid, q, item⟩]⟩ : Cluster).emittedOn q =
      (⟨log, requests, streams, es⟩ : Cluster).emittedOn q ++ [item] := by
  simp [Cluster.emittedOn, List.filterMap_append]

theorem Alone.step (h : Alone q n s st) (hstep : Step peers s a s') (ha : Sole a)
    (hn : ∀ sid i, a = .propose sid i → i < n) :
    ∃ st', Alone q n s' st' ∧ s.log.popped q <+: s'.log.popped q ∧
      (s'.emittedOn q ++ st'.channel = s.emittedOn q ++ st.channel ∨
        ∃ (i : ℕ) (item : Item), st.workers[i]? = some (.sending item) ∧ s'.log = s.log ∧
          s'.emittedOn q ++ st'.channel = s.emittedOn q ++ st.channel ++ [item]) := by
  cases hstep with
  | publish queue payload =>
    refine ⟨st, { h with requests := fun req hreq => ?_ }, List.prefix_rfl, .inl rfl⟩
    rcases List.mem_append.mp hreq with hreq | hreq
    · exact h.requests req hreq
    · rw [List.mem_singleton.mp hreq]
      simp
  | commitInFlight hk hc =>
    refine ⟨st, { h with requests := fun req hreq => ?_ }, ?_, .inl rfl⟩
    · exact h.requests req (List.mem_of_mem_eraseIdx hreq)
    · rw [CommittedLog.commit_popped hc q]
      exact List.prefix_append _ _
  | commitOther he hc =>
    refine ⟨st, { h with }, ?_, .inl rfl⟩
    rw [CommittedLog.commit_popped hc q]
    exact List.prefix_append _ _
  | @commit sid i id x log' r hst hw hc =>
    obtain ⟨rfl, rfl⟩ := h.lookup hst
    rw [h.update_eq]
    refine ⟨_, h.put (h.lt hw (by simp)) (.proposing (some r)) x.channel log' s.emitted, ?_,
      .inl rfl⟩
    rw [CommittedLog.commit_popped hc q]
    exact List.prefix_append _ _
  | @propose sid i x hst hw =>
    obtain ⟨rfl, rfl⟩ := h.lookup hst
    rw [h.update_eq]
    exact ⟨_, h.put (hn 0 i rfl) (.proposing none) x.channel s.log s.emitted, List.prefix_rfl,
      .inl rfl⟩
  | @answer sid i x r hst hw =>
    obtain ⟨rfl, rfl⟩ := h.lookup hst
    rw [h.update_eq]
    exact ⟨_, h.put (h.lt hw (by simp)) (.afterPop r.popped) x.channel s.log s.emitted,
      List.prefix_rfl, .inl rfl⟩
  | @send sid i x item hst hw hopen hroom =>
    obtain ⟨rfl, rfl⟩ := h.lookup hst
    rw [h.update_eq]
    refine ⟨_, h.put (h.lt hw (by simp)) .ready (x.channel ++ [item]) s.log s.emitted,
      List.prefix_rfl, .inr ⟨i, item, hw, rfl, ?_⟩⟩
    exact (List.append_assoc _ _ _).symm
  | sendClosed hst hw hclosed =>
    obtain ⟨rfl, rfl⟩ := h.lookup hst
    rw [h.isOpen] at hclosed
    cases hclosed
  | @wake sid i x hst hw =>
    obtain ⟨rfl, rfl⟩ := h.lookup hst
    rw [h.update_eq]
    exact ⟨_, h.put (h.lt hw (by simp)) .ready x.channel s.log s.emitted, List.prefix_rfl,
      .inl rfl⟩
  | @emit sid x item rest hst hclient hchan =>
    obtain ⟨rfl, rfl⟩ := h.lookup hst
    rw [h.update_eq]
    refine ⟨_, h.emit rest _, List.prefix_rfl, .inl ?_⟩
    rw [h.queue]
    refine (congrArg (· ++ rest) (emittedOn_concat s.emitted _ _ _ 0 q item)).trans ?_
    rw [hchan, List.append_assoc]
    rfl
  | relay hst hclient hchan =>
    obtain ⟨rfl, rfl⟩ := h.lookup hst
    rw [h.client] at hclient
    cases hclient
  | subscribed | rejected | fail | forwardToLeader | accept | refused | broken | receive | timeout
    | close => exact ha.elim

theorem Pc.card_held_le (pc : Pc) : Multiset.card pc.held ≤ 1 := by
  cases pc with
  | proposing r =>
    cases r with
    | none => exact Nat.zero_le 1
    | some r => cases hp : r.popped <;> simp [Pc.held, hp]
  | sending item => exact le_rfl
  | _ => exact Nat.zero_le 1

theorem card_held_le {pcs : List Pc} {n : ℕ}
    (h : ∀ i pc, pcs[i]? = some pc → n ≤ i → pc = .ready) :
    Multiset.card (Tally.total Pc.held pcs) ≤ n := by
  induction pcs generalizing n with
  | nil => exact Nat.zero_le n
  | cons pc pcs ih =>
    rw [Tally.total_cons, Multiset.card_add]
    cases n with
    | zero =>
      have hready : pc = .ready := h 0 pc rfl le_rfl
      have hrest := ih (n := 0) fun i pc' hi _ => h (i + 1) pc' hi (Nat.zero_le _)
      rw [hready]
      simpa [Pc.held] using hrest
    | succ n =>
      have hrest := ih (n := n) fun i pc' hi hn => h (i + 1) pc' hi (Nat.succ_le_succ hn)
      have hpc := pc.card_held_le
      omega

theorem Alone.carried (h : Alone q n s st) (hl : Linked s.streams) (hstep : Step peers s a s')
    (ha : Sole a) :
    s'.carried q + (s.log.popped q : Multiset Item) = s.carried q + s'.log.popped q := by
  cases a with
  | commitInFlight k id =>
    cases hstep with
    | @commitInFlight _ _ req log' r hk hc =>
      have hne : EntryPayload.normal req ≠ .normal (.pop q) := by
        intro heq
        injection heq with heq
        exact h.requests req (List.mem_of_getElem? hk) heq
      rw [CommittedLog.commit_popped hc q, CommittedLog.poppedBy, if_neg hne, List.append_nil]
      rfl
  | send sid i =>
    refine hstep.carried_eq hl (fun x hx => ?_) q
    rw [(h.lookup hx).2]
    exact h.isOpen
  | publish | commitOther | commit | propose | answer | wake | pull =>
    exact hstep.carried_eq hl trivial q
  | consume | fail | forwardToLeader | accept | rpcError | receive | timeout | close =>
    exact ha.elim

structure Serving (log₀ : CommittedLog QueueRequest) (q : String) (n : ℕ) (s : Cluster)
    (st : Stream) : Prop where
  alone : Alone q n s st
  linked : Linked s.streams
  account : s.carried q + (log₀.popped q : Multiset Item) = s.log.popped q
  since : log₀.popped q <+: s.log.popped q
  order : Reorder.Within n (s.emittedOn q ++ st.channel) (poppedSince log₀ s.log q)

theorem poppedSince_append {log₀ log : CommittedLog QueueRequest}
    (h : log₀.popped q <+: log.popped q) :
    log₀.popped q ++ poppedSince log₀ log q = log.popped q := by
  obtain ⟨t, ht⟩ := h
  rw [poppedSince, ← ht, List.drop_left]

namespace Serving

theorem balance (h : Serving log₀ q n s st) :
    (s.emittedOn q : Multiset Item) + st.contents = poppedSince log₀ s.log q := by
  have hcarried : s.carried q = st.contents + s.emittedOn q := by
    rw [Cluster.carried, h.alone.only, Tally.total_cons, Tally.total_nil, add_zero, Stream.carried,
      onQueue, if_pos h.alone.queue]
  have haccount := h.account
  rw [hcarried, ← poppedSince_append h.since, ← Multiset.coe_add, add_comm] at haccount
  rw [add_comm]
  exact add_left_cancel haccount

theorem length_since (h : Serving log₀ q n s st) :
    (poppedSince log₀ s.log q).length ≤ (s.emittedOn q ++ st.channel).length + n := by
  have hcard := congrArg Multiset.card h.balance
  have hheld := card_held_le h.alone.idle
  rw [Stream.contents, h.alone.wire, Multiset.card_add, Multiset.card_add, Multiset.card_add]
    at hcard
  simp only [Multiset.coe_card, List.length_nil] at hcard
  rw [List.length_append]
  omega

theorem mem_since (h : Serving log₀ q n s st) {i : ℕ} {item : Item}
    (hw : st.workers[i]? = some (.sending item)) : item ∈ poppedSince log₀ s.log q := by
  have hheld : item ∈ Tally.total Pc.held st.workers :=
    Tally.mem_total.mpr ⟨_, List.mem_of_getElem? hw, Multiset.mem_singleton_self item⟩
  have hmem : item ∈ (s.emittedOn q : Multiset Item) + st.contents :=
    Multiset.mem_add.mpr (.inr (Multiset.mem_add.mpr (.inr hheld)))
  rw [h.balance] at hmem
  exact hmem

theorem start (log : CommittedLog QueueRequest) {requests : List QueueRequest}
    (h : ∀ req ∈ requests, req ≠ .pop q) (n : ℕ) :
    Serving log q n (serving log requests q) (Stream.start q true) where
  alone := Alone.start log h n
  linked := linked_start.concat_start q true
  account := by
    have h0 : (serving log requests q).carried q = 0 := by
      rw [Cluster.carried, serving, Tally.total_cons, Tally.total_nil, Stream.carried,
        Stream.contents_start, onQueue_zero]
      rfl
    rw [h0, zero_add]
    rfl
  since := List.prefix_rfl
  order := Reorder.Within.nil n _

theorem step (h : Serving log₀ q n s st) (hstep : Step peers s a s') (ha : Sole a)
    (hn : ∀ sid i, a = .propose sid i → i < n) : ∃ st', Serving log₀ q n s' st' := by
  obtain ⟨st', halone, hpop, hsent⟩ := h.alone.step hstep ha hn
  have haccount := h.alone.carried h.linked hstep ha
  refine ⟨st', halone, hstep.linked h.linked, ?_, h.since.trans hpop, ?_⟩
  · refine add_right_cancel (b := (s.log.popped q : Multiset Item)) ?_
    calc
      _ = s'.carried q + s.log.popped q + log₀.popped q := by abel
      _ = s.carried q + s'.log.popped q + log₀.popped q := by rw [haccount]
      _ = s.carried q + log₀.popped q + s'.log.popped q := by abel
      _ = _ := by rw [h.account, add_comm]
  · rcases hsent with hsame | ⟨i, item, hw, hlog, hnext⟩
    · rw [hsame]
      exact h.order.mono (hpop.drop _)
    · rw [hnext, hlog]
      exact h.order.concat (h.mem_since hw) h.length_since

theorem nodup (h : Serving log₀ q n s st) : (s.emittedOn q).Nodup := by
  have hle : (s.emittedOn q : Multiset Item) ≤ poppedSince log₀ s.log q := by
    rw [← h.balance]
    exact Multiset.le_add_right _ _
  have hpopped : (s.log.popped q).Nodup := (s.log.popped_nodup q).of_map _
  exact Multiset.coe_nodup.mp
    (Multiset.nodup_of_le hle (Multiset.coe_nodup.mpr ((List.drop_sublist _ _).nodup hpopped)))

theorem within (h : Serving log₀ q n s st) :
    Reorder.Within n (s.emittedOn q) (sequential log₀ s.log q) :=
  h.order.of_append.mono (poppedSince_isPrefix log₀ s.log q)

end Serving

variable {requests : List QueueRequest} {as : List Act}

theorem serving_run (hreq : ∀ req ∈ requests, req ≠ .pop q)
    (h : Lts.Steps (fun s a s' => Step peers s a s' ∧ Sole a ∧
      ∀ sid i, a = .propose sid i → i < n) (serving log₀ requests q) as s) :
    ∃ st, Serving log₀ q n s st := by
  refine h.invariant (P := fun s => ∃ st, Serving log₀ q n s st) ?_
    ⟨_, Serving.start log₀ hreq n⟩
  rintro s a s' ⟨st, hs⟩ ⟨hstep, ha, hn⟩
  exact hs.step hstep ha hn

theorem one_worker_in_order (hreq : ∀ req ∈ requests, req ≠ .pop q)
    (h : Lts.Steps (fun s a s' => Step peers s a s' ∧ Sole a ∧
      ∀ sid i, a = .propose sid i → i < 1) (serving log₀ requests q) as s) :
    s.emittedOn q <+: sequential log₀ s.log q := by
  obtain ⟨st, hs⟩ := serving_run hreq h
  exact hs.within.isPrefix hs.nodup

theorem emission_nearly_in_order (peers : Map UInt64 String)
    (log₀ : CommittedLog QueueRequest) {requests : List QueueRequest} {q : String}
    (hreq : ∀ req ∈ requests, req ≠ .pop q) {as : List Act} {s : Cluster}
    (h : Lts.Steps (fun s a s' => Step peers s a s' ∧ Sole a) (serving log₀ requests q) as s) :
    (s.emittedOn q).Nodup ∧
    Reorder.Within POP_CONCURRENCY (s.emittedOn q) (sequential log₀ s.log q) ∧
    ∃ st popped, s.streams = [st] ∧ popped <+: sequential log₀ s.log q ∧
      (s.emittedOn q : Multiset Item) + st.contents = (popped : Multiset Item) := by
  have hrun : ∃ st, Serving log₀ q POP_CONCURRENCY s st := by
    refine h.invariant (P := fun s => ∃ st, Serving log₀ q POP_CONCURRENCY s st) ?_
      ⟨_, Serving.start log₀ hreq POP_CONCURRENCY⟩
    rintro s a s' ⟨st, hs⟩ ⟨hstep, ha⟩
    refine hs.step hstep ha fun sid i hai => ?_
    subst hai
    have hstaffed : Staffed s := by
      intro x hx
      rw [hs.alone.only] at hx
      rw [List.mem_singleton.mp hx]
      exact hs.alone.staffed
    exact hstaffed.lt hstep.propose_pc.1
  obtain ⟨st, hs⟩ := hrun
  exact ⟨hs.nodup, hs.within, st, _, hs.alone.only, poppedSince_isPrefix log₀ s.log q, hs.balance⟩

theorem second_worker_overtakes :
    let log : CommittedLog QueueRequest :=
      ⟨[⟨⟨⟨1, 1⟩, 0⟩, .normal (.publish "spam" [7])⟩,
        ⟨⟨⟨1, 1⟩, 1⟩, .normal (.publish "spam" [8])⟩], by decide⟩
    ∃ s, Lts.Steps (fun s a s' => Step ∅ s a s' ∧ Sole a) (serving log [] "spam")
        [.propose 0 0, .propose 0 1, .commit 0 0 ⟨⟨1, 1⟩, 2⟩, .commit 0 1 ⟨⟨1, 1⟩, 3⟩,
          .answer 0 0, .answer 0 1, .send 0 1, .send 0 0, .pull 0, .pull 0] s ∧
      s.emittedOn "spam" = [(1, [8]), (0, [7])] ∧
      sequential log s.log "spam" = [(0, [7]), (1, [8])] := by
  intro log
  refine ⟨_, .cons ⟨.propose rfl rfl, trivial⟩ (.cons ⟨.propose rfl rfl, trivial⟩ (.cons
    ⟨.commit rfl rfl (CommittedLog.commit_of_lt (by decide +kernel)), trivial⟩ (.cons
    ⟨.commit rfl rfl (CommittedLog.commit_of_lt (by decide +kernel)), trivial⟩ (.cons
    ⟨.answer rfl rfl, trivial⟩ (.cons ⟨.answer rfl rfl, trivial⟩ (.cons
    ⟨.send rfl (show _ = some (Pc.sending (1, [8])) by decide +kernel) rfl (by decide), trivial⟩
    (.cons
    ⟨.send rfl (show _ = some (Pc.sending (0, [7])) by decide +kernel) rfl (by decide), trivial⟩
    (.cons ⟨.emit rfl rfl rfl, trivial⟩ (.single ⟨.emit rfl rfl rfl, trivial⟩))))))))), rfl, ?_⟩
  decide +kernel

theorem emission_nearly_in_order_overtaken :
    let log : CommittedLog QueueRequest :=
      ⟨[⟨⟨⟨1, 1⟩, 0⟩, .normal (.publish "spam" [7])⟩,
        ⟨⟨⟨1, 1⟩, 1⟩, .normal (.publish "spam" [8])⟩], by decide⟩
    ∃ s, Lts.Steps (fun s a s' => Step ∅ s a s' ∧ Sole a) (serving log [.pop "ham"] "spam")
        [.propose 0 3, .propose 0 5, .commit 0 3 ⟨⟨1, 1⟩, 2⟩, .commitInFlight 0 ⟨⟨1, 1⟩, 3⟩,
          .commit 0 5 ⟨⟨1, 1⟩, 4⟩, .answer 0 5, .send 0 5, .pull 0] s ∧
      s.emittedOn "spam" = [(1, [8])] ∧
      Reorder.Within POP_CONCURRENCY (s.emittedOn "spam") (sequential log s.log "spam") ∧
      ∃ st popped, s.streams = [st] ∧ popped <+: sequential log s.log "spam" ∧
        (s.emittedOn "spam" : Multiset Item) + st.contents = (popped : Multiset Item) := by
  intro log
  obtain ⟨s, h, he⟩ : ∃ s,
      Lts.Steps (fun s a s' => Step ∅ s a s' ∧ Sole a) (serving log [.pop "ham"] "spam")
        [.propose 0 3, .propose 0 5, .commit 0 3 ⟨⟨1, 1⟩, 2⟩, .commitInFlight 0 ⟨⟨1, 1⟩, 3⟩,
          .commit 0 5 ⟨⟨1, 1⟩, 4⟩, .answer 0 5, .send 0 5, .pull 0] s ∧
      s.emittedOn "spam" = [(1, [8])] :=
    ⟨_, .cons ⟨.propose rfl rfl, trivial⟩ (.cons ⟨.propose rfl rfl, trivial⟩ (.cons
      ⟨.commit rfl rfl (CommittedLog.commit_of_lt (by decide +kernel)), trivial⟩ (.cons
      ⟨.commitInFlight rfl (CommittedLog.commit_of_lt (by decide +kernel)), trivial⟩ (.cons
      ⟨.commit rfl rfl (CommittedLog.commit_of_lt (by decide +kernel)), trivial⟩ (.cons
      ⟨.answer rfl rfl, trivial⟩ (.cons
      ⟨.send rfl (show _ = some (Pc.sending (1, [8])) by decide +kernel) rfl (by decide), trivial⟩
      (.single ⟨.emit rfl rfl rfl, trivial⟩))))))), rfl⟩
  obtain ⟨-, hwithin, hkept⟩ := emission_nearly_in_order ∅ log (by simp) h
  exact ⟨s, h, he, hwithin, hkept⟩

end BlunMq
