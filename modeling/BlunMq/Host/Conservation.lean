import BlunMq.Host.ForwardedWires

/-!
# Every message accounted for

The audit of a run notes, step by step, which messages are lost and why. Nothing else
leaves the account: what was published to a queue is still queued, in a worker's hands, in
a channel, on a wire that somebody reads, emitted, or among the losses.
-/

namespace BlunMq

/-- A proposal whose caller has gone; the receiver of a stream dropped with messages in its
channel; a message sent to a closed stream; or a message of a forwarded stream from which
`pop_via_forward` has taken its one item, or has given up waiting for it. -/
inductive Cause
  | proposal
  | close (sid : ℕ)
  | send (sid : ℕ)
  | forward (sid : ℕ)
  deriving DecidableEq

structure Loss where
  cause : Cause
  queue : String
  item : Item
  deriving DecidableEq

namespace Loss

def all (cause : Cause) (queue : String) (items : List Item) : List Loss :=
  items.map fun item => ⟨cause, queue, item⟩

def lostOn (q : String) (ls : List Loss) : List Item :=
  ls.filterMap fun l => if l.queue = q then some l.item else none

def count (cause : Cause) (ls : List Loss) : ℕ := ls.countP fun l => decide (l.cause = cause)

theorem lostOn_append (q : String) (ls ls' : List Loss) :
    lostOn q (ls ++ ls') = lostOn q ls ++ lostOn q ls' := List.filterMap_append

theorem lostOn_all (cause : Cause) (queue q : String) (items : List Item) :
    (lostOn q (all cause queue items) : Multiset Item) = onQueue queue q items := by
  rw [lostOn, all, List.filterMap_map, onQueue]
  by_cases h : queue = q
  · have hall : items.filterMap (some : Item → Option Item) = items := List.filterMap_some
    simp only [Function.comp_def, h, if_true, hall]
  · simp [h]

theorem count_append (cause : Cause) (ls ls' : List Loss) :
    count cause (ls ++ ls') = count cause ls + count cause ls' := List.countP_append

theorem count_all (cause cause' : Cause) (queue : String) (items : List Item) :
    count cause (all cause' queue items) = if cause' = cause then items.length else 0 := by
  rw [count, all, List.countP_map]
  by_cases h : cause' = cause
  · simp [Function.comp_def, h]
  · simp [Function.comp_def, h]

theorem mem_all {cause : Cause} {queue : String} {items : List Item} {l : Loss}
    (h : l ∈ all cause queue items) : l.cause = cause ∧ l.queue = queue := by
  obtain ⟨item, -, rfl⟩ := List.mem_map.mp h
  exact ⟨rfl, rfl⟩

end Loss

def Pc.inHand : Pc → Option Item
  | .proposing (some r) => r.popped
  | .sending item => some item
  | _ => none

theorem Pc.held_eq (pc : Pc) : pc.held = (pc.inHand.toList : Multiset Item) := by
  cases pc with
  | proposing response => cases response <;> rfl
  | ready | dialing _ | receiving _ | sending _ | sleeping | stopped => rfl

namespace Cluster

def dropped (s : Cluster) (cause : Cause) (sid i : ℕ) : List Loss :=
  match s.streams[sid]? with
  | some st => Loss.all cause st.queue ((st.workers[i]?.bind Pc.inHand).toList)
  | none => []

/-- What is lost in a step other than on a wire. A pop committed for a caller that has gone
takes the first message of its queue. -/
def lossesAtHand (s : Cluster) : Act → List Loss
  | .fail sid i | .forwardToLeader sid i _ => s.dropped .proposal sid i
  | .commitInFlight k _ =>
    match s.inFlight[k]? with
    | some (.pop queue) => Loss.all .proposal queue (s.log.waiting queue).head?.toList
    | _ => []
  | .send sid i =>
    match s.streams[sid]? with
    | some st => if st.isOpen then [] else s.dropped (.send sid) sid i
    | none => []
  | .close sid =>
    match s.streams[sid]? with
    | some st => Loss.all (.close sid) st.queue st.channel
    | none => []
  | _ => []

def queueOf (s : Cluster) (k : ℕ) : String := (s.streams[k]?.map Stream.queue).getD ""

def lossesOnWire (s : Cluster) (a : Act) : List Loss :=
  match s.strands a with
  | some (k, items) => Loss.all (.forward k) (s.queueOf k) items
  | none => []

def losses (s : Cluster) (a : Act) : List Loss := s.lossesAtHand a ++ s.lossesOnWire a

/-- What stream `k` carries of `q` and somebody can still get. -/
def transitAt (s : Cluster) (q : String) (k : ℕ) : Multiset Item :=
  match s.streams[k]? with
  | some st => onQueue st.queue q ((st.channel : Multiset Item) +
      (if s.attended k then (st.wire : Multiset Item) else 0) + Tally.total Pc.held st.workers)
  | none => 0

def inTransit (s : Cluster) (q : String) : Multiset Item :=
  ∑ k ∈ Finset.range s.streams.length, s.transitAt q k

theorem dropped_eq {s : Cluster} {sid i : ℕ} {st : Stream} {pc : Pc} {cause : Cause}
    (hst : s.streams[sid]? = some st) (hw : st.workers[i]? = some pc) :
    s.dropped cause sid i = Loss.all cause st.queue pc.inHand.toList := by
  rw [dropped, hst]
  simp only [hw, Option.bind_some]

end Cluster

structure Audited where
  cluster : Cluster
  lost : List Loss

def Audited.start : Audited := ⟨Cluster.start, []⟩

def Audit (peers : Map UInt64 String) (w : Audited) (a : Act) (w' : Audited) : Prop :=
  Step peers w.cluster a w'.cluster ∧ w'.lost = w.lost ++ w.cluster.losses a

variable {peers : Map UInt64 String} {s s' : Cluster} {a : Act} {as : List Act}

theorem audit_of_steps (h : Lts.Steps (Step peers) Cluster.start as s) :
    ∃ lost, Lts.Steps (Audit peers) Audited.start as ⟨s, lost⟩ := by
  induction h with
  | nil => exact ⟨[], .nil _⟩
  | @snoc t u as a _ hstep ih =>
    obtain ⟨lost, hrun⟩ := ih
    exact ⟨lost ++ t.losses a, hrun.snoc ⟨hstep, rfl⟩⟩

/-- A worker of a client's stream forwards its pop and stops waiting too early: what the stream
it has opened sends on is lost. The answer to another worker's pop is lost too, and the client
disconnects. -/
def disconnecting : List Act :=
  [.publish "spam" [7], .publish "spam" [8], .commitInFlight 0 ⟨⟨1, 1⟩, 0⟩,
    .commitInFlight 0 ⟨⟨1, 1⟩, 1⟩, .consume (some (.ok (some (.subscribe "spam")))), .propose 0 0,
    .forwardToLeader 0 0 (some 1), .accept 0 0, .propose 1 0, .commit 1 0 ⟨⟨1, 1⟩, 2⟩,
    .answer 1 0, .send 1 0, .timeout 0 0, .pull 1, .propose 0 1, .commit 0 1 ⟨⟨1, 1⟩, 3⟩,
    .fail 0 1, .close 0]

theorem disconnecting_steps :
    ∃ s, Lts.Steps (Step oneNode) Cluster.start disconnecting s ∧
      s.log.published "spam" = [[7], [8]] ∧ s.log.waiting "spam" = [] ∧
      s.emittedOn "spam" = [] ∧ s.inTransit "spam" = 0 :=
  ⟨_, .cons (.publish _ _ _) (.cons (.publish _ _ _)
    (.cons (.commitInFlight rfl
    (CommittedLog.commit_of_lt (by simp [Cluster.start, CommittedLog.empty])))
    (.cons (.commitInFlight rfl (CommittedLog.commit_of_lt (by decide +kernel)))
    (.cons (.subscribed rfl) (.cons (.propose rfl rfl) (.cons (.forwardToLeader rfl rfl)
    (.cons (.accept rfl (show _ = some (Pc.dialing 1) by decide +kernel)) (.cons (.propose rfl rfl)
    (.cons (.commit rfl rfl (CommittedLog.commit_of_lt (by decide +kernel)))
    (.cons (.answer rfl rfl)
    (.cons (.send rfl
      (show _ = some (Pc.sending (0, [7])) by decide +kernel) rfl (by decide))
    (.cons (@Step.timeout _ _ 0 0 1 _ rfl (by decide +kernel)) (.cons (.relay rfl rfl rfl)
    (.cons (.propose rfl rfl)
    (.cons (.commit rfl rfl (CommittedLog.commit_of_lt (by decide +kernel))) (.cons (.fail rfl rfl)
    (.single (.close rfl)))))))))))))))))), by decide +kernel,
    by decide +kernel, by decide +kernel, by decide +kernel⟩

theorem lossesAtHand_of_lossless (hs : Lossless s a) : s.lossesAtHand a = [] := by
  cases a with
  | fail | forwardToLeader | close => exact hs.elim
  | send sid i =>
    rw [Cluster.lossesAtHand]
    cases hst : s.streams[sid]? with
    | none => rfl
    | some st => exact if_pos (hs st hst)
  | commitInFlight k id =>
    rw [Cluster.lossesAtHand]
    cases hk : s.inFlight[k]? with
    | none => rfl
    | some req =>
      cases req with
      | publish queue payload => rfl
      | pop queue => exact absurd rfl (hs _ hk queue)
  | _ => rfl

theorem carried_dropped {sid i : ℕ} {st : Stream} {pc : Pc} (hst : s.streams[sid]? = some st)
    (hw : st.workers[i]? = some pc) (cause : Cause) {pc' : Pc} (hpc' : pc'.held = 0) (q : String) :
    (s.update sid (st.put i pc')).carried q + Loss.lostOn q (s.dropped cause sid i) =
      s.carried q := by
  have h := Cluster.carried_trade hst (st.put i pc') rfl (Stream.contents_put hw pc') q
  rw [hpc', onQueue_zero, add_zero, Pc.held_eq] at h
  rw [Cluster.dropped_eq hst hw, Loss.lostOn_all, h]

theorem carried_closed {sid : ℕ} {st : Stream} (hst : s.streams[sid]? = some st) (q : String) :
    (s.update sid { st with channel := [], isOpen := false }).carried q +
      onQueue st.queue q st.channel = s.carried q := by
  have hcont : { st with channel := [], isOpen := false }.contents + st.channel =
      st.contents + 0 := by
    simp only [Stream.contents, Multiset.coe_nil]
    abel
  have h := Cluster.carried_trade hst { st with channel := [], isOpen := false } rfl hcont q
  rwa [onQueue_zero, add_zero] at h

theorem poppedBy_inFlight {k : ℕ} {id : LogId} {req : QueueRequest}
    {log' : CommittedLog QueueRequest} {r : QueueResponse} (hk : s.inFlight[k]? = some req)
    (hc : s.log.commit ⟨id, .normal req⟩ = some (log', r)) (q : String) :
    (CommittedLog.poppedBy q ⟨id, .normal req⟩ r : Multiset Item) =
      Loss.lostOn q (s.lossesAtHand (.commitInFlight k id)) := by
  rw [Cluster.lossesAtHand, hk, CommittedLog.poppedBy]
  cases req with
  | publish queue payload => simp [Loss.lostOn]
  | pop queue =>
    have hr : r.popped = (s.log.waiting queue).head? := by
      rw [(CommittedLog.commit_normal hc).1]
      exact (s.log.state.getD_pop queue queue).2
    simp only [Loss.lostOn_all, onQueue, hr]
    by_cases hq : queue = q <;> simp [hq]

theorem Step.carried_lost (h : Step peers s a s') (hl : Linked s.streams) (q : String) :
    s'.carried q + Loss.lostOn q (s.lossesAtHand a) + (s.log.popped q : Multiset Item) =
      s.carried q + s'.log.popped q := by
  by_cases hs : Lossless s a
  · rw [lossesAtHand_of_lossless hs]
    exact (congrArg (· + _) (add_zero _)).trans (h.carried_eq hl hs q)
  · cases h with
    | publish | subscribed | rejected | commit | commitOther | propose | answer | wake | accept
      | refused | broken | receive | timeout | emit | relay => exact absurd trivial hs
    | commitInFlight hk hc =>
      rw [CommittedLog.commit_popped hc q, ← Multiset.coe_add, poppedBy_inFlight hk hc q]
      change s.carried q + _ + _ = s.carried q + _
      abel
    | fail hst hw =>
      rw [Cluster.carried_abandon, Cluster.abandon_log]
      exact congrArg (· + _) (carried_dropped hst hw .proposal rfl q)
    | @forwardToLeader sid i leaderId st response hst hw =>
      have hheld : (Pc.afterForward peers leaderId).held = 0 := by
        unfold Pc.afterForward
        split <;> rfl
      rw [Cluster.carried_abandon, Cluster.abandon_log]
      exact congrArg (· + _) (carried_dropped hst hw .proposal hheld q)
    | send hst hw hopen hroom =>
      refine absurd (fun st hst' => ?_) hs
      rw [hst] at hst'
      cases hst'
      exact hopen
    | @sendClosed sid i st item hst hw hclosed =>
      have hlost : s.lossesAtHand (.send sid i) = s.dropped (.send sid) sid i := by
        rw [Cluster.lossesAtHand, hst]
        exact if_neg (by rw [hclosed]; exact Bool.false_ne_true)
      rw [hlost]
      exact congrArg (· + _) (carried_dropped hst hw (.send sid) rfl q)
    | @close sid st hst =>
      have hlost : s.lossesAtHand (.close sid) = Loss.all (.close sid) st.queue st.channel := by
        rw [Cluster.lossesAtHand, hst]
      rw [hlost, Loss.lostOn_all]
      exact congrArg (· + _) (carried_closed hst q)

namespace Cluster

def strandedOn (s : Cluster) (q : String) (k : ℕ) : Multiset Item :=
  onQueue (s.queueOf k) q (s.strandedAt k)

def stranded (s : Cluster) (q : String) : Multiset Item :=
  ∑ k ∈ Finset.range s.streams.length, s.strandedOn q k

theorem carried_eq_inTransit (s : Cluster) (q : String) :
    s.carried q = s.inTransit q + s.stranded q + s.emittedOn q := by
  rw [carried, Tally.total_eq_sum, inTransit, stranded, ← Finset.sum_add_distrib]
  congr 1
  refine Finset.sum_congr rfl fun k _ => ?_
  rw [transitAt, strandedOn, queueOf, strandedAt]
  cases s.streams[k]? with
  | none => simp
  | some st =>
    simp only [Option.map_some, Option.getD_some, Stream.carried, Stream.contents, ← onQueue_add]
    congr 1
    split
    · rw [Multiset.coe_nil]
      abel
    · abel

theorem strandedOn_none {s : Cluster} {k : ℕ} (h : s.streams[k]? = none) (q : String) :
    s.strandedOn q k = 0 := by
  rw [strandedOn, strandedAt, h]
  exact onQueue_zero _ _

end Cluster

theorem Step.strandedOn (h : Step peers s a s') (hatt : Attendance s) (q : String) (k : ℕ) :
    s'.strandedOn q k =
      s.strandedOn q k + onQueue (s.queueOf k) q (strandedIn (s.strands a) k) := by
  have hat := h.wired.strandedAt hatt k
  rw [Cluster.strandedOn, hat, ← Multiset.coe_add, onQueue_add, Cluster.strandedOn]
  cases hst : s.streams[k]? with
  | some st =>
    obtain ⟨st', hst', hkept⟩ := h.evolves.kept k st hst
    have hqueue : s'.queueOf k = s.queueOf k := by
      rw [Cluster.queueOf, Cluster.queueOf, hst, hst', Option.map_some, Option.map_some,
        hkept.queue]
    rw [hqueue]
  | none =>
    -- a stream that is not there yet
    have hnil : strandedIn (s.strands a) k = [] := by
      cases ho : s.strands a with
      | none => rfl
      | some x =>
        refine if_neg fun hk => ?_
        obtain ⟨st, hst'⟩ := h.wired.known hatt ho
        rw [← hk, hst] at hst'
        cases hst'
    rw [hnil, Cluster.strandedAt, hst]
    simp

theorem Step.stranded (h : Step peers s a s') (hatt : Attendance s) (q : String) :
    s'.stranded q = s.stranded q + Loss.lostOn q (s.lossesOnWire a) := by
  have hle : s.streams.length ≤ s'.streams.length := by
    by_contra hlt
    obtain ⟨st', hst', -⟩ := h.evolves.kept s'.streams.length _
      (List.getElem?_eq_getElem (Nat.lt_of_not_le hlt))
    exact lt_irrefl _ (List.getElem?_eq_some_iff.mp hst').1
  have hold : s.stranded q = ∑ k ∈ Finset.range s'.streams.length, s.strandedOn q k := by
    refine Finset.sum_subset (Finset.range_subset_range.mpr hle) fun k _ hk => ?_
    exact Cluster.strandedOn_none
      (List.getElem?_eq_none (Nat.le_of_not_lt fun hlt => hk (Finset.mem_range.mpr hlt))) q
  rw [hold, Cluster.stranded, Finset.sum_congr rfl fun k _ => h.strandedOn hatt q k,
    Finset.sum_add_distrib]
  congr 1
  rw [Cluster.lossesOnWire]
  cases ho : s.strands a with
  | none => simp [strandedIn, Loss.lostOn]
  | some x =>
    obtain ⟨c, items⟩ := x
    obtain ⟨st, hst⟩ := h.wired.known hatt ho
    have hc : c ∈ Finset.range s'.streams.length :=
      Finset.mem_range.mpr ((List.getElem?_eq_some_iff.mp hst).1.trans_le hle)
    rw [Finset.sum_eq_single_of_mem c hc fun k _ hk => by simp [strandedIn, hk]]
    simp only [strandedIn, if_true, Loss.lostOn_all]

theorem cause_atHand {l : Loss} (hl : l ∈ s.lossesAtHand a) (k : ℕ) : l.cause ≠ .forward k := by
  have hdropped : ∀ {cause sid i}, l ∈ s.dropped cause sid i → l.cause = cause := by
    intro cause sid i hl
    rw [Cluster.dropped] at hl
    split at hl
    · exact (Loss.mem_all hl).1
    · cases hl
  cases a with
  | fail | forwardToLeader =>
    rw [hdropped hl]
    simp
  | commitInFlight =>
    rw [Cluster.lossesAtHand] at hl
    split at hl
    · rw [(Loss.mem_all hl).1]
      simp
    · cases hl
  | send =>
    rw [Cluster.lossesAtHand] at hl
    split at hl
    · split at hl
      · cases hl
      · rw [hdropped hl]
        simp
    · cases hl
  | close =>
    rw [Cluster.lossesAtHand] at hl
    split at hl
    · rw [(Loss.mem_all hl).1]
      simp
    · cases hl
  | _ => cases hl

theorem cause_onWire {l : Loss} (hl : l ∈ s.lossesOnWire a) : ∃ k, l.cause = .forward k := by
  rw [Cluster.lossesOnWire] at hl
  split at hl
  · exact ⟨_, (Loss.mem_all hl).1⟩
  · cases hl

theorem Step.count_forward (h : Step peers s a s') (hatt : Attendance s) (k : ℕ) :
    (s'.strandedAt k).length = (s.strandedAt k).length + Loss.count (.forward k) (s.losses a) := by
  have hnone : Loss.count (.forward k) (s.lossesAtHand a) = 0 :=
    List.countP_eq_zero.mpr fun l hl => by simp [cause_atHand hl k]
  rw [h.wired.strandedAt hatt k, List.length_append, Cluster.losses, Loss.count_append, hnone,
    zero_add, Cluster.lossesOnWire]
  congr 1
  cases s.strands a with
  | none => rfl
  | some x =>
    simp only [strandedIn, Loss.count_all, Cause.forward.injEq]
    split <;> simp_all [eq_comm]

namespace CommittedLog

def items (log : CommittedLog QueueRequest) (q : String) : List Item :=
  (Fifo.numbered (log.published q)).map QueueState.toItem

theorem popped_append_waiting (log : CommittedLog QueueRequest) (q : String) :
    log.popped q ++ log.waiting q = log.items q := by
  have hrep := QueueState.finalState_represents (StateMachineStore.requests log.entries)
  rw [← log.state_eq] at hrep
  rw [popped_eq, waiting, hrep.getD_queues, ← List.map_append, Fifo.served_append_waiting,
    QueueState.bankOf_pushed]
  rfl

theorem mem_items {log : CommittedLog QueueRequest} {q : String} {o : UInt64} {payload : Bytes} :
    (o, payload) ∈ log.items q ↔ (log.published q)[o.toNat]? = some payload := by
  have hle := log.length_published_le q
  rw [items, List.mem_map]
  constructor
  · rintro ⟨x, hx, heq⟩
    have hlt := QueueState.numbered_lt hx
    cases heq
    rw [UInt64.toNat_ofNat_of_lt' (hlt.trans_le hle)]
    exact Fifo.mem_numbered.mp hx
  · intro h
    exact ⟨(o.toNat, payload), Fifo.mem_numbered.mpr h, by simp [QueueState.toItem]⟩

theorem items_nodup (log : CommittedLog QueueRequest) (q : String) : (log.items q).Nodup := by
  have hle := log.length_published_le q
  refine List.Nodup.of_map (fun item => item.1.toNat) ?_
  have hfst : (log.items q).map (fun item => item.1.toNat) =
      (Fifo.numbered (log.published q)).map Prod.fst := by
    rw [items, List.map_map]
    exact List.map_congr_left fun x hx =>
      UInt64.toNat_ofNat_of_lt' ((QueueState.numbered_lt hx).trans_le hle)
  rw [hfst, Fifo.numbered_map_fst]
  exact List.nodup_range

end CommittedLog

structure Balanced (w : Audited) : Prop where
  linked : Linked w.cluster.streams
  attendance : Attendance w.cluster
  popped : ∀ q, w.cluster.carried q + Loss.lostOn q w.lost =
    (w.cluster.log.popped q : Multiset Item) + w.cluster.stranded q
  wires : ∀ k, Loss.count (.forward k) w.lost = (w.cluster.strandedAt k).length

theorem Balanced.step {w w' : Audited} (h : Balanced w) (hstep : Audit peers w a w') :
    Balanced w' where
  linked := hstep.1.linked h.linked
  attendance := h.attendance.step hstep.1
  popped q := by
    have heq := hstep.1.carried_lost h.linked q
    have hbefore := h.popped q
    rw [hstep.2, Loss.lostOn_append, Cluster.losses, Loss.lostOn_append, ← Multiset.coe_add,
      ← Multiset.coe_add, hstep.1.stranded h.attendance q]
    refine add_right_cancel (b := (w.cluster.log.popped q : Multiset Item)) ?_
    calc
      _ = (w'.cluster.carried q + Loss.lostOn q (w.cluster.lossesAtHand a) +
            w.cluster.log.popped q) + Loss.lostOn q w.lost +
              Loss.lostOn q (w.cluster.lossesOnWire a) := by abel
      _ = (w.cluster.carried q + Loss.lostOn q w.lost) + w'.cluster.log.popped q +
            Loss.lostOn q (w.cluster.lossesOnWire a) := by
        rw [heq]
        abel
      _ = _ := by
        rw [hbefore]
        abel
  wires k := by
    rw [hstep.2, Loss.count_append, h.wires k, hstep.1.count_forward h.attendance k]

theorem Balanced.popped_eq {w : Audited} (h : Balanced w) (q : String) :
    (w.cluster.log.popped q : Multiset Item) =
      w.cluster.inTransit q + w.cluster.emittedOn q + Loss.lostOn q w.lost := by
  refine add_right_cancel (b := w.cluster.stranded q) ?_
  rw [← h.popped q, Cluster.carried_eq_inTransit]
  abel

theorem Balanced.items {w : Audited} (h : Balanced w) (q : String) :
    (w.cluster.log.items q : Multiset Item) =
      w.cluster.log.waiting q + w.cluster.inTransit q + w.cluster.emittedOn q +
        Loss.lostOn q w.lost := by
  rw [← CommittedLog.popped_append_waiting, ← Multiset.coe_add, h.popped_eq q]
  abel

theorem balanced_run {w : Audited} (h : Lts.Steps (Audit peers) Audited.start as w) : Balanced w :=
  h.invariant (P := Balanced) (fun _ _ _ hw hstep => hw.step hstep)
    ⟨linked_start, .start, fun _ => rfl, fun _ => rfl⟩

theorem every_message_accounted (h : Lts.Steps (Step peers) Cluster.start as s) :
    ∃ lost, Lts.Steps (Audit peers) Audited.start as ⟨s, lost⟩ ∧
      ∀ q, (s.log.items q : Multiset Item) =
        s.log.waiting q + s.inTransit q + s.emittedOn q + Loss.lostOn q lost := by
  obtain ⟨lost, haudit⟩ := audit_of_steps h
  exact ⟨lost, haudit, (balanced_run haudit).items⟩

theorem every_message_accounted_disconnecting :
    ∃ s lost, Lts.Steps (Audit oneNode) Audited.start disconnecting ⟨s, lost⟩ ∧
      s.log.published "spam" = [[7], [8]] ∧
      (Loss.lostOn "spam" lost : Multiset Item) = s.log.items "spam" := by
  obtain ⟨s, hrun, hpublished, hwaiting, hemitted, htransit⟩ := disconnecting_steps
  obtain ⟨lost, haudit, haccount⟩ := every_message_accounted hrun
  refine ⟨s, lost, haudit, hpublished, ?_⟩
  rw [haccount, hwaiting, hemitted, htransit, Multiset.coe_nil, add_zero, zero_add, zero_add]

namespace Stream

def stoppedWorkers (st : Stream) : ℕ :=
  Tally.total (fun pc => if pc = Pc.stopped then 1 else 0) st.workers

theorem stoppedWorkers_put {st : Stream} {i : ℕ} {pc : Pc} (hw : st.workers[i]? = some pc)
    (hpc : pc ≠ .stopped) (pc' : Pc) :
    (st.put i pc').stoppedWorkers = st.stoppedWorkers + if pc' = .stopped then 1 else 0 := by
  have h := Tally.total_set (fun pc => if pc = Pc.stopped then 1 else 0) hw pc'
  rwa [if_neg hpc, add_zero] at h

theorem stoppedWorkers_le (st : Stream) : st.stoppedWorkers ≤ st.workers.length := by
  refine Tally.total_le_length fun pc _ => ?_
  split
  · exact le_rfl
  · exact Nat.zero_le 1

end Stream

/-- What the losses say about one stream: each of its stopped workers took a message with
it, and the close took what the channel held. -/
structure Books (lost : List Loss) (sid : ℕ) (st : Stream) : Prop where
  staffed : st.workers.length = POP_CONCURRENCY
  room : st.channel.length ≤ CHANNEL_CAPACITY
  queue : ∀ l ∈ lost, l.cause = .send sid ∨ l.cause = .close sid → l.queue = st.queue
  stopped : Loss.count (.send sid) lost = st.stoppedWorkers
  whileOpen : st.isOpen = true → st.stoppedWorkers = 0 ∧ Loss.count (.close sid) lost = 0
  onceClosed : st.isOpen = false → st.channel = [] ∧
    Loss.count (.close sid) lost ≤ CHANNEL_CAPACITY

namespace Books
variable {lost new : List Loss} {sid i : ℕ} {st : Stream} {pc pc' : Pc}

theorem start (sid : ℕ) (queue : String) (client : Bool)
    (h : ∀ l ∈ lost, l.cause ≠ .send sid ∧ l.cause ≠ .close sid) :
    Books lost sid (Stream.start queue client) := by
  have hsend : Loss.count (.send sid) lost = 0 :=
    List.countP_eq_zero.mpr fun l hl => by simp [(h l hl).1]
  have hclose : Loss.count (.close sid) lost = 0 :=
    List.countP_eq_zero.mpr fun l hl => by simp [(h l hl).2]
  have hstopped : (Stream.start queue client).stoppedWorkers = 0 :=
    Tally.total_replicate_zero _ _ rfl
  refine ⟨List.length_replicate, Nat.zero_le _, fun l hl hcause => ?_, hsend.trans hstopped.symm,
    fun _ => ⟨hstopped, hclose⟩, fun h => by cases h⟩
  exact absurd hcause (not_or.mpr (h l hl))

theorem append (h : Books lost sid st)
    (hnew : ∀ l ∈ new, l.cause ≠ .send sid ∧ l.cause ≠ .close sid) :
    Books (lost ++ new) sid st := by
  have hsend : Loss.count (.send sid) new = 0 :=
    List.countP_eq_zero.mpr fun l hl => by simp [(hnew l hl).1]
  have hclose : Loss.count (.close sid) new = 0 :=
    List.countP_eq_zero.mpr fun l hl => by simp [(hnew l hl).2]
  constructor
  · exact h.staffed
  · exact h.room
  · intro l hl hcause
    rcases List.mem_append.mp hl with hl | hl
    · exact h.queue l hl hcause
    · exact absurd hcause (not_or.mpr (hnew l hl))
  · rw [Loss.count_append, hsend, add_zero]
    exact h.stopped
  · rw [Loss.count_append, hclose, add_zero]
    exact h.whileOpen
  · rw [Loss.count_append, hclose, add_zero]
    exact h.onceClosed

theorem put (h : Books lost sid st) (hw : st.workers[i]? = some pc) (hpc : pc ≠ .stopped)
    (hpc' : pc' ≠ .stopped) : Books lost sid (st.put i pc') := by
  have hstopped := Stream.stoppedWorkers_put hw hpc pc'
  rw [if_neg hpc', add_zero] at hstopped
  constructor
  · exact List.length_set.trans h.staffed
  · exact h.room
  · exact h.queue
  · exact h.stopped.trans hstopped.symm
  · exact fun hopen => ⟨hstopped.trans (h.whileOpen hopen).1, (h.whileOpen hopen).2⟩
  · exact h.onceClosed

theorem send {item : Item} (h : Books lost sid st) (hw : st.workers[i]? = some (.sending item))
    (hopen : st.isOpen = true) (hroom : st.channel.length < CHANNEL_CAPACITY) :
    Books lost sid { st.put i .ready with channel := st.channel ++ [item] } := by
  have hput : Books lost sid (st.put i .ready) := h.put hw (by simp) (by simp)
  refine ⟨hput.staffed, ?_, hput.queue, hput.stopped, hput.whileOpen, fun hclosed => ?_⟩
  · rw [List.length_append, List.length_singleton]
    exact hroom
  · cases hopen.symm.trans hclosed

theorem queue_append {cause : Cause} {items : List Item} (h : Books lost sid st) :
    ∀ l ∈ lost ++ Loss.all cause st.queue items, l.cause = .send sid ∨ l.cause = .close sid →
      l.queue = st.queue := by
  intro l hl hcause
  rcases List.mem_append.mp hl with hl | hl
  · exact h.queue l hl hcause
  · exact (Loss.mem_all hl).2

theorem sendClosed {item : Item} (h : Books lost sid st)
    (hw : st.workers[i]? = some (.sending item)) (hclosed : st.isOpen = false) :
    Books (lost ++ Loss.all (.send sid) st.queue [item]) sid (st.put i .stopped) := by
  have hstopped := Stream.stoppedWorkers_put hw (by simp) .stopped
  rw [if_pos rfl] at hstopped
  constructor
  · exact List.length_set.trans h.staffed
  · exact h.room
  · exact h.queue_append
  · rw [Loss.count_append, Loss.count_all, if_pos rfl, h.stopped, hstopped]
    rfl
  · intro hopen
    cases hopen.symm.trans hclosed
  · intro _
    rw [Loss.count_append, Loss.count_all, if_neg (by simp), add_zero]
    exact h.onceClosed hclosed

theorem pull {item : Item} {rest : List Item} (h : Books lost sid st)
    (hchan : st.channel = item :: rest) (wire : List Item) :
    Books lost sid { st with channel := rest, wire := wire } := by
  have hroom := h.room
  rw [hchan, List.length_cons] at hroom
  refine ⟨h.staffed, Nat.le_of_succ_le hroom, h.queue, h.stopped, h.whileOpen, fun hclosed => ?_⟩
  have hnil := (h.onceClosed hclosed).1
  rw [hchan] at hnil
  cases hnil

theorem close (h : Books lost sid st) :
    Books (lost ++ Loss.all (.close sid) st.queue st.channel) sid
      { st with channel := [], isOpen := false } := by
  have hsend : Loss.count (.send sid) (Loss.all (.close sid) st.queue st.channel) = 0 := by
    rw [Loss.count_all, if_neg (by simp)]
  have hclose : Loss.count (.close sid) (Loss.all (.close sid) st.queue st.channel) =
      st.channel.length := by
    rw [Loss.count_all, if_pos rfl]
  refine ⟨h.staffed, Nat.zero_le _, h.queue_append, ?_, (fun hopen => by cases hopen),
    fun _ => ⟨rfl, ?_⟩⟩
  · rw [Loss.count_append, hsend, add_zero]
    exact h.stopped
  · rw [Loss.count_append, hclose]
    cases hopen : st.isOpen with
    | true =>
      rw [(h.whileOpen hopen).2, zero_add]
      exact h.room
    | false =>
      rw [(h.onceClosed hopen).1, List.length_nil, add_zero]
      exact (h.onceClosed hopen).2

end Books

structure Booked (lost : List Loss) (streams : List Stream) : Prop where
  books : ∀ (sid : ℕ) (st : Stream), streams[sid]? = some st → Books lost sid st
  known : ∀ l ∈ lost, ∀ sid, l.cause = .send sid ∨ l.cause = .close sid → sid < streams.length

namespace Booked
variable {lost new : List Loss} {streams : List Stream} {k i : ℕ} {x x' : Stream} {pc pc' : Pc}

theorem append (h : Booked lost streams)
    (hnew : ∀ l ∈ new, ∀ sid, l.cause ≠ .send sid ∧ l.cause ≠ .close sid) :
    Booked (lost ++ new) streams where
  books sid st hst := (h.books sid st hst).append fun l hl => hnew l hl sid
  known l hl sid hcause := by
    rcases List.mem_append.mp hl with hl | hl
    · exact h.known l hl sid hcause
    · exact absurd hcause (not_or.mpr (hnew l hl sid))

theorem append_proposal (h : Booked lost streams) (hnew : ∀ l ∈ new, l.cause = .proposal) :
    Booked (lost ++ new) streams :=
  h.append fun l hl sid => by
    rw [hnew l hl]
    exact ⟨by simp, by simp⟩

theorem update (h : Booked lost streams) (hx : streams[k]? = some x)
    (hnew : ∀ l ∈ new, l.cause = .send k ∨ l.cause = .close k) (hk : Books (lost ++ new) k x') :
    Booked (lost ++ new) (streams.set k x') where
  books sid st hst := by
    by_cases hsid : k = sid
    · subst hsid
      rw [List.getElem?_set_self (List.getElem?_eq_some_iff.mp hx).1] at hst
      cases hst
      exact hk
    · rw [List.getElem?_set_ne hsid] at hst
      refine (h.books sid st hst).append fun l hl => ?_
      rcases hnew l hl with hc | hc
      · rw [hc]
        exact ⟨by simpa using hsid, by simp⟩
      · rw [hc]
        exact ⟨by simp, by simpa using hsid⟩
  known l hl sid hcause := by
    rw [List.length_set]
    rcases List.mem_append.mp hl with hl | hl
    · exact h.known l hl sid hcause
    · have hsid : k = sid := by
        rcases hnew l hl with hc | hc <;> rw [hc] at hcause <;> simpa using hcause
      rw [← hsid]
      exact (List.getElem?_eq_some_iff.mp hx).1

theorem update_same (h : Booked lost streams) (hx : streams[k]? = some x)
    (hk : Books lost k x') : Booked lost (streams.set k x') := by
  have hset : Booked (lost ++ []) (streams.set k x') :=
    h.update hx (fun l hl => by cases hl) (by rwa [List.append_nil])
  rwa [List.append_nil] at hset

theorem put (h : Booked lost streams) (hx : streams[k]? = some x) (hw : x.workers[i]? = some pc)
    (hpc : pc ≠ .stopped) (hpc' : pc' ≠ .stopped) : Booked lost (streams.set k (x.put i pc')) :=
  h.update_same hx ((h.books k x hx).put hw hpc hpc')

theorem opened (h : Booked lost streams) (queue : String) (client : Bool) :
    Booked lost (streams ++ [Stream.start queue client]) where
  books sid st hst := by
    by_cases hsid : sid < streams.length
    · rw [List.getElem?_append_left hsid] at hst
      exact h.books sid st hst
    · have hlt := (List.getElem?_eq_some_iff.mp hst).1
      rw [List.length_append, List.length_singleton] at hlt
      obtain rfl : sid = streams.length := by omega
      rw [List.getElem?_concat_length] at hst
      cases hst
      refine Books.start _ queue client fun l hl => ⟨fun hc => ?_, fun hc => ?_⟩
      · exact lt_irrefl _ (h.known l hl _ (Or.inl hc))
      · exact lt_irrefl _ (h.known l hl _ (Or.inr hc))
  known l hl sid hcause := by
    rw [List.length_append]
    exact Nat.lt_add_right _ (h.known l hl sid hcause)

end Booked

theorem Pc.afterPop_ne_stopped (x : Option Item) : Pc.afterPop x ≠ .stopped := by
  cases x <;> simp [Pc.afterPop]

theorem Pc.afterForward_ne_stopped (peers : Map UInt64 String) (leaderId : Option UInt64) :
    Pc.afterForward peers leaderId ≠ .stopped := by
  unfold Pc.afterForward
  split <;> simp

theorem Step.booked_atHand {lost : List Loss} (h : Step peers s a s') (hb : Booked lost s.streams) :
    Booked (lost ++ s.lossesAtHand a) s'.streams := by
  cases h with
  | publish | rejected | commitOther => simpa only [Cluster.lossesAtHand, List.append_nil] using hb
  | commitInFlight hk hc =>
    refine hb.append_proposal fun l hl => ?_
    rw [Cluster.lossesAtHand, hk] at hl
    split at hl
    · exact (Loss.mem_all hl).1
    · cases hl
  | subscribed =>
    simp only [Cluster.lossesAtHand, List.append_nil]
    exact hb.opened _ _
  | commit hst hw | propose hst hw | wake hst hw | refused hst hw | broken hst hw =>
    simp only [Cluster.lossesAtHand, List.append_nil]
    exact hb.put hst hw (by simp) (by simp)
  | answer hst hw | timeout hst hw =>
    simp only [Cluster.lossesAtHand, List.append_nil]
    exact hb.put hst hw (by simp) (Pc.afterPop_ne_stopped _)
  | fail hst hw =>
    simp only [Cluster.lossesAtHand, Cluster.dropped_eq hst hw, Cluster.abandon_streams]
    exact (hb.put hst hw (by simp) (by simp)).append_proposal fun _ hl => (Loss.mem_all hl).1
  | forwardToLeader hst hw =>
    simp only [Cluster.lossesAtHand, Cluster.dropped_eq hst hw, Cluster.abandon_streams]
    exact (hb.put hst hw (by simp) (Pc.afterForward_ne_stopped _ _)).append_proposal fun _ hl =>
      (Loss.mem_all hl).1
  | @send sid i st item hst hw hopen hroom =>
    have hnone : s.lossesAtHand (.send sid i) = [] := by
      rw [Cluster.lossesAtHand, hst]
      exact if_pos hopen
    rw [hnone, List.append_nil]
    exact hb.update_same hst ((hb.books _ _ hst).send hw hopen hroom)
  | @sendClosed sid i st item hst hw hclosed =>
    have hlost : s.lossesAtHand (.send sid i) = Loss.all (.send sid) st.queue [item] := by
      rw [Cluster.lossesAtHand, hst]
      simp only [hclosed, Bool.false_eq_true, if_false]
      exact Cluster.dropped_eq hst hw
    rw [hlost]
    exact hb.update hst (fun l hl => Or.inl (Loss.mem_all hl).1)
      ((hb.books _ _ hst).sendClosed hw hclosed)
  | accept hst hw =>
    simp only [Cluster.lossesAtHand, List.append_nil]
    exact (hb.put hst hw (by simp) (by simp)).opened _ _
  | @receive sid i child st ch item rest hch hwire hst hw =>
    simp only [Cluster.lossesAtHand, List.append_nil]
    have hb' : Booked lost (s.update child { ch with wire := rest }).streams := by
      have hbooks := hb.books child ch hch
      exact hb.update_same hch ⟨hbooks.staffed, hbooks.room, hbooks.queue, hbooks.stopped,
        hbooks.whileOpen, hbooks.onceClosed⟩
    exact hb'.put hst hw (by simp) (Pc.afterPop_ne_stopped _)
  | emit hst hclient hchan | relay hst hclient hchan =>
    simp only [Cluster.lossesAtHand, List.append_nil]
    exact hb.update_same hst ((hb.books _ _ hst).pull hchan _)
  | @close sid st hst =>
    have hlost : s.lossesAtHand (.close sid) = Loss.all (.close sid) st.queue st.channel := by
      rw [Cluster.lossesAtHand, hst]
    rw [hlost]
    exact hb.update hst (fun l hl => Or.inr (Loss.mem_all hl).1) (hb.books _ _ hst).close

theorem Step.booked {lost : List Loss} (h : Step peers s a s') (hb : Booked lost s.streams) :
    Booked (lost ++ s.losses a) s'.streams := by
  rw [Cluster.losses, ← List.append_assoc]
  refine (h.booked_atHand hb).append fun l hl sid => ?_
  obtain ⟨k, hk⟩ := cause_onWire hl
  rw [hk]
  exact ⟨by simp, by simp⟩

theorem booked_run {w : Audited} (h : Lts.Steps (Audit peers) Audited.start as w) :
    Booked w.lost w.cluster.streams := by
  refine h.invariant (P := fun w => Booked w.lost w.cluster.streams) (fun w a w' hw hstep => ?_)
    ⟨(fun sid st hst => by cases hst), fun l hl => by cases hl⟩
  rw [hstep.2]
  exact hstep.1.booked hw

theorem count_eq_zero_of_lostOn {lost : List Loss} {sid : ℕ} {st : Stream}
    (hb : Books lost sid st) (h : Loss.lostOn st.queue lost = []) :
    Loss.count (.send sid) lost = 0 := by
  refine List.countP_eq_zero.mpr fun l hl => ?_
  rw [decide_eq_true_eq]
  intro hcause
  have hmem : l.item ∈ Loss.lostOn st.queue lost :=
    List.mem_filterMap.mpr ⟨l, hl, if_pos (hb.queue l hl (Or.inl hcause))⟩
  rw [h] at hmem
  cases hmem

/-- The receiver of a stream that goes away costs at most what the channel and the workers of
the stream can hold. A client's own stream loses nothing else; a forwarded one loses in addition
what is on its wire that nobody reads. Each worker that stops has taken a message with it, so as
long as nothing is published to a queue, none of its streams has lost a worker, however many are
closed. -/
theorem disconnect_losses_bounded {w : Audited} (h : Lts.Steps (Audit peers) Audited.start as w) :
    (∀ sid st, w.cluster.streams[sid]? = some st →
      Loss.count (.send sid) w.lost = st.stoppedWorkers ∧
      Loss.count (.close sid) w.lost + Loss.count (.send sid) w.lost ≤
        CHANNEL_CAPACITY + POP_CONCURRENCY ∧
      Loss.count (.forward sid) w.lost = (w.cluster.strandedAt sid).length ∧
      (st.client = true → Loss.count (.forward sid) w.lost = 0) ∧
      (st.isOpen = true →
        Loss.count (.close sid) w.lost = 0 ∧ Loss.count (.send sid) w.lost = 0)) ∧
    ∀ q, w.cluster.log.published q = [] → ∀ st ∈ w.cluster.streams, st.queue = q →
      st.stoppedWorkers = 0 := by
  have hbooked := booked_run h
  have hbalanced := balanced_run h
  constructor
  · intro sid st hst
    have hb := hbooked.books sid st hst
    have hsend : Loss.count (.send sid) w.lost ≤ POP_CONCURRENCY := by
      rw [hb.stopped, ← hb.staffed]
      exact st.stoppedWorkers_le
    refine ⟨hb.stopped, ?_, hbalanced.wires sid, fun hclient => ?_, fun hopen => ?_⟩
    · cases hopen : st.isOpen with
      | true =>
        rw [(hb.whileOpen hopen).2, zero_add]
        exact Nat.le_add_left_of_le hsend
      | false => exact Nat.add_le_add (hb.onceClosed hopen).2 hsend
    · rw [hbalanced.wires sid, Cluster.strandedAt_eq, Cluster.wireOf_eq hst,
        hbalanced.attendance.clients hst hclient, ite_self]
      rfl
    · exact ⟨(hb.whileOpen hopen).2, hb.stopped.trans (hb.whileOpen hopen).1⟩
  · intro q hq st hmem hqueue
    obtain ⟨sid, hst⟩ := List.mem_iff_getElem?.mp hmem
    have hb := hbooked.books sid st hst
    have hpopped : w.cluster.log.popped q = [] := by
      have hsplit := w.cluster.log.popped_append_waiting q
      rw [CommittedLog.items, hq] at hsplit
      exact (List.append_eq_nil_iff.mp hsplit).1
    have hlost := hbalanced.popped_eq q
    rw [hpopped, Multiset.coe_nil, eq_comm, add_eq_zero, Multiset.coe_eq_zero] at hlost
    rw [← hb.stopped]
    exact count_eq_zero_of_lostOn hb (by rw [hqueue]; exact hlost.2)

theorem disconnect_losses_bounded_disconnecting :
    ∃ w, Lts.Steps (Audit oneNode) Audited.start disconnecting w ∧
      ∀ sid st, w.cluster.streams[sid]? = some st →
        Loss.count (.close sid) w.lost + Loss.count (.send sid) w.lost ≤ 160 := by
  obtain ⟨s, hrun, -⟩ := disconnecting_steps
  obtain ⟨lost, haudit⟩ := audit_of_steps hrun
  exact ⟨⟨s, lost⟩, haudit, fun sid st hst =>
    ((disconnect_losses_bounded haudit).1 sid st hst).2.1⟩

end BlunMq
