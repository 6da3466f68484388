import BlunMq.Host.Delivery

/-!
# One forwarded pop against one pop

`pop_via_forward` is meant to stand for a single `Pop` on the leader. It opens a
stream there whose 32 workers keep popping, takes the first item or gives up after
300 ms, and drops the stream. Here the call is the queue's only consumer and no RPC
fails: stream 0 is the caller's, with the one worker that is inside the call, and
stream 1 is the one opened on the leader.
-/

namespace BlunMq

def forwarded (log : CommittedLog QueueRequest) (q : String) : Cluster :=
  ⟨log, [], [⟨q, true, [.receiving 1], [], [], true⟩, Stream.start q false], []⟩

namespace Cluster

def result (s : Cluster) : Option (Option Item) :=
  match s.streams[0]?.bind fun st => st.workers[0]? with
  | some (Pc.sending item) => some (some item)
  | some Pc.sleeping => some none
  | _ => none

end Cluster

/-- The call is the only consumer and no RPC fails: the leader's workers run, the
caller receives or times out, and the stream is dropped after that. -/
def Scheduled (s : Cluster) : Act → Prop
  | .publish _ _ | .commitInFlight _ _ | .commitOther _ => True
  | .propose sid _ | .commit sid _ _ | .answer sid _ | .send sid _ | .wake sid _ | .pull sid =>
    sid = 1
  | .receive sid _ | .timeout sid _ => sid = 0
  | .close sid => sid = 1 ∧ s.result ≠ none
  | _ => False

def publishedIn (q : String) (as : List Act) : List Bytes :=
  as.filterMap fun
    | .publish queue payload => if queue = q then some payload else none
    | _ => none

/-- The effect of a single pop since `log`: the message returned is the only one taken
off the queue, and none is if none was returned. -/
def OnePop (log : CommittedLog QueueRequest) (q : String) (s : Cluster) : Prop :=
  match s.result with
  | none => True
  | some (some item) => s.log.popped q = log.popped q ++ [item]
  | some none => s.log.popped q = log.popped q

/-- At its return and ever after the call has had the effect of one pop, whatever the
schedule, with publishes to the queue among `ps`, in that order. -/
def AlwaysOnePop (peers : Map UInt64 String) (log : CommittedLog QueueRequest) (q : String)
    (ps : List Bytes) : Prop :=
  ∀ as s, Lts.Steps (fun s a s' => Step peers s a s' ∧ Scheduled s a) (forwarded log q) as s →
    publishedIn q as <+: ps → OnePop log q s

variable {peers : Map UInt64 String} {log : CommittedLog QueueRequest} {q : String}
  {s s' : Cluster} {a : Act} {as : List Act}

structure Idle (log : CommittedLog QueueRequest) (q : String) (s : Cluster) : Prop where
  waiting : s.log.waiting q = []
  popped : s.log.popped q = log.popped q
  inFlight : ∀ payload, .publish q payload ∉ s.inFlight

theorem Idle.commit (h : Idle log q s) {e : Entry QueueRequest} {log' : CommittedLog QueueRequest}
    {r : QueueResponse} (hc : s.log.commit e = some (log', r))
    (he : ∀ payload, e.payload ≠ .normal (.publish q payload)) :
    log'.waiting q = [] ∧ log'.popped q = log.popped q := by
  obtain ⟨hw, hp⟩ := CommittedLog.commit_empty hc h.waiting he
  exact ⟨hw, hp.trans h.popped⟩

theorem Idle.abandon (h : Idle log q s) (queue : String) (response : Option QueueResponse) :
    Idle log q (s.abandon queue response) := by
  cases response with
  | none =>
    refine ⟨h.waiting, h.popped, fun payload hmem => ?_⟩
    rcases List.mem_append.mp hmem with hmem | hmem
    · exact h.inFlight payload hmem
    · cases List.mem_singleton.mp hmem
  | some r => exact h

theorem Idle.step (h : Idle log q s) (hstep : Step peers s a s')
    (ha : ∀ payload, a ≠ .publish q payload) : Idle log q s' := by
  cases hstep with
  | publish queue payload =>
    refine ⟨h.waiting, h.popped, fun p hmem => ?_⟩
    rcases List.mem_append.mp hmem with hmem | hmem
    · exact h.inFlight p hmem
    · cases List.mem_singleton.mp hmem
      exact ha _ rfl
  | commit hst hw hc =>
    obtain ⟨hwait, hpop⟩ := h.commit hc (by simp)
    exact ⟨hwait, hpop, h.inFlight⟩
  | @commitInFlight k id req log' r hk hc =>
    have hreq : ∀ payload, (EntryPayload.normal req) ≠ .normal (.publish q payload) := by
      intro payload heq
      cases heq
      exact h.inFlight payload (List.mem_of_getElem? hk)
    obtain ⟨hwait, hpop⟩ := h.commit hc hreq
    exact ⟨hwait, hpop, fun p hmem => h.inFlight p (List.mem_of_mem_eraseIdx hmem)⟩
  | commitOther he hc =>
    obtain ⟨hwait, hpop⟩ := h.commit hc fun payload => he _
    exact ⟨hwait, hpop, h.inFlight⟩
  | fail hst | forwardToLeader hst =>
    apply Idle.abandon
    exact ⟨h.waiting, h.popped, h.inFlight⟩
  | subscribed | rejected | propose | answer | send | sendClosed | wake | accept | refused
    | broken | receive | timeout | emit | relay | close =>
    exact ⟨h.waiting, h.popped, h.inFlight⟩

theorem publishedIn_concat (q : String) (as : List Act) (a : Act) :
    publishedIn q (as ++ [a]) = publishedIn q as ++ publishedIn q [a] := List.filterMap_append

theorem idle_run (h : Lts.Steps (Step peers) (forwarded log q) as s)
    (hq : log.waiting q = []) (hpub : publishedIn q as = []) : Idle log q s := by
  refine h.trace_invariant (P := fun as s => publishedIn q as = [] → Idle log q s) ?_
    (fun _ => ⟨hq, rfl, by simp [forwarded]⟩) hpub
  intro as s a s' ih hstep hnil
  rw [publishedIn_concat, List.append_eq_nil_iff] at hnil
  refine (ih hnil.1).step hstep fun payload ha => ?_
  subst ha
  simp [publishedIn] at hnil

theorem linked_forwarded (log : CommittedLog QueueRequest) (q : String) :
    Linked (forwarded log q).streams := by
  intro st hst child hc
  rcases List.mem_cons.mp hst with rfl | hst
  · cases List.mem_singleton.mp hc
    exact ⟨Stream.start q false, rfl, rfl⟩
  · rw [List.mem_singleton.mp hst] at hc
    exact absurd (List.eq_of_mem_replicate hc) (by simp)

theorem carried_forwarded (log : CommittedLog QueueRequest) (q : String) :
    (forwarded log q).carried q = 0 := by
  have h0 : Stream.carried q ⟨q, true, [.receiving 1], [], [], true⟩ = 0 := by
    rw [Stream.carried]
    exact (congrArg (onQueue q q) rfl).trans (onQueue_zero q q)
  have h1 : (Stream.start q false).carried q = 0 := by
    rw [Stream.carried, Stream.contents_start, onQueue_zero]
  simp [Cluster.carried, forwarded, Cluster.emittedOn, h0, h1]

theorem result_carried (h : Lts.Steps (Step peers) (forwarded log q) as s) {item : Item}
    (hr : s.result = some (some item)) : item ∈ s.carried q := by
  obtain ⟨st, hst, hqueue⟩ : ∃ st, s.streams[0]? = some st ∧ st.queue = q := by
    refine h.invariant (P := fun s => ∃ st, s.streams[0]? = some st ∧ st.queue = q) ?_
      ⟨_, rfl, rfl⟩
    rintro s a s' ⟨st, hst, hq⟩ hstep
    obtain ⟨st', hst', hk⟩ := hstep.evolves.kept _ _ hst
    exact ⟨st', hst', hk.queue.trans hq⟩
  have hw : st.workers[0]? = some (.sending item) := by
    rw [Cluster.result, hst] at hr
    simp only [Option.bind_some] at hr
    split at hr
    · rename_i hpc
      cases hr
      exact hpc
    · cases hr
    · cases hr
  refine Multiset.mem_add.mpr (.inl (Tally.mem_total.mpr ⟨st, List.mem_of_getElem? hst, ?_⟩))
  rw [Stream.carried, onQueue, if_pos hqueue, Stream.contents]
  exact Multiset.mem_add.mpr (.inr (Tally.mem_total.mpr
    ⟨_, List.mem_of_getElem? hw, Multiset.mem_singleton_self item⟩))

theorem onePop_of_empty (hq : log.waiting q = []) : AlwaysOnePop peers log q [] := by
  intro as s h hpub
  have hsteps : Lts.Steps (Step peers) (forwarded log q) as s := h.mono fun _ _ _ hs => hs.1
  have hidle := idle_run hsteps hq (List.prefix_nil.mp hpub)
  unfold OnePop
  split
  · trivial
  · rename_i item hr
    -- a returned message would have been popped
    have hle := run_carried_le hsteps (linked_forwarded log q) q
    rw [carried_forwarded, zero_add, hidle.popped] at hle
    have hzero : s.carried q = 0 := by
      have h0 : s.carried q + (log.popped q : Multiset Item) ≤ 0 + log.popped q := by
        rwa [zero_add]
      exact Multiset.le_zero.mp (le_of_add_le_add_right h0)
    have hmem := result_carried hsteps hr
    rw [hzero] at hmem
    exact absurd hmem (Multiset.notMem_zero _)
  · exact hidle.popped

theorem forwarded_commit_publish (peers : Map UInt64 String) (q : String) (payload : Bytes)
    {id : LogId} (hid : ∀ x ∈ log.entries, x.logId.index < id.index) :
    Lts.Steps (fun s a s' => Step peers s a s' ∧ Scheduled s a) (forwarded log q)
      [.publish q payload, .commitInFlight 0 id]
      (forwarded (log.extend ⟨id, .normal (.publish q payload)⟩ hid) q) :=
  .cons ⟨.publish _ _ _, trivial⟩
    (.single ⟨.commitInFlight rfl (CommittedLog.commit_of_lt hid), trivial⟩)

theorem late_pop (peers : Map UInt64 String) {id : LogId}
    (hid : ∀ x ∈ log.entries, x.logId.index < id.index)
    {item : Item} {rest : List Item} (hq : log.waiting q = item :: rest) :
    ∃ s, Lts.Steps (fun s a s' => Step peers s a s' ∧ Scheduled s a) (forwarded log q)
        [.propose 1 0, .timeout 0 0, .commit 1 0 id] s ∧
      s.result = some none ∧ s.log.popped q = log.popped q ++ [item] := by
  have hc := CommittedLog.commit_of_lt (e := ⟨id, .normal (.pop q)⟩) hid
  refine ⟨_, .cons ⟨.propose rfl rfl, rfl⟩ (.cons ⟨@Step.timeout _ _ 0 0 1 _ rfl rfl, rfl⟩
    (.single ⟨.commit rfl rfl hc, rfl⟩)), rfl, ?_⟩
  refine (CommittedLog.commit_popped hc q).trans ?_
  have hpop : (log.response ⟨id, .normal (.pop q)⟩).popped = some item := by
    rw [(CommittedLog.commit_normal hc).1, (log.state.getD_pop q q).2]
    exact congrArg List.head? hq
  simp [CommittedLog.poppedBy, hpop]

/-- The forwarded pop is one pop under every schedule exactly when there is nothing to
pop: the queue is empty and nothing is published to it. The hypothesis leaves room for
two more log indices. -/
theorem alwaysOnePop_iff (peers : Map UInt64 String) (log : CommittedLog QueueRequest)
    (q : String) (ps : List Bytes) (hroom : ∀ e ∈ log.entries, e.logId.index.toNat + 2 < 2 ^ 64) :
    AlwaysOnePop peers log q ps ↔ log.state.queues.getD q [] = [] ∧ ps = [] := by
  obtain ⟨n, hn, hfresh⟩ := CommittedLog.exists_fresh log.entries hroom
  have hid : ∀ x ∈ log.entries, x.logId.index < (⟨⟨0, 0⟩, UInt64.ofNat n⟩ : LogId).index := by
    intro x hx
    rw [UInt64.lt_iff_toNat_lt, UInt64.toNat_ofNat_of_lt' (Nat.lt_of_succ_lt hn)]
    exact hfresh x hx
  constructor
  · intro h
    have hempty : log.waiting q = [] := by
      by_contra hne
      obtain ⟨item, rest, hq⟩ := List.exists_cons_of_ne_nil hne
      obtain ⟨s, hs, hr, hpop⟩ := late_pop peers hid hq
      have hone := h _ s hs (by simp [publishedIn])
      simp [OnePop, hr, hpop] at hone
    refine ⟨hempty, ?_⟩
    by_contra hne
    obtain ⟨payload, ps, rfl⟩ := List.exists_cons_of_ne_nil hne
    have hpub := forwarded_commit_publish peers q payload hid
    let e : Entry QueueRequest := ⟨⟨⟨0, 0⟩, UInt64.ofNat n⟩, .normal (.publish q payload)⟩
    have hc := CommittedLog.commit_of_lt (e := e) hid
    obtain ⟨item, hq⟩ : ∃ item, (log.extend e hid).waiting q = [item] := by
      rw [CommittedLog.waiting, CommittedLog.commit_state hc, QueueState.getD_publish, if_pos rfl,
        show log.state.queues.getD q [] = [] from hempty]
      exact ⟨_, rfl⟩
    have hid' : ∀ x ∈ (log.extend e hid).entries,
        x.logId.index < (⟨⟨0, 0⟩, UInt64.ofNat (n + 1)⟩ : LogId).index := by
      intro x hx
      rw [UInt64.lt_iff_toNat_lt, UInt64.toNat_ofNat_of_lt' hn]
      rcases List.mem_append.mp hx with hx | hx
      · exact (hfresh x hx).trans (Nat.lt_succ_self n)
      · rw [List.mem_singleton.mp hx, UInt64.toNat_ofNat_of_lt' (Nat.lt_of_succ_lt hn)]
        exact Nat.lt_succ_self n
    obtain ⟨s, hs, hr, hpop⟩ := late_pop peers hid' hq
    have hone := h _ s (hpub.trans hs) (by simp [publishedIn])
    rw [CommittedLog.commit_popped hc] at hpop
    simp [OnePop, hr, hpop] at hone
  · rintro ⟨hq, rfl⟩
    exact onePop_of_empty hq

theorem forwarded_pop_takes_two :
    let log : CommittedLog QueueRequest :=
      ⟨[⟨⟨⟨1, 2⟩, 0⟩, .normal (.publish "spam" [7])⟩,
        ⟨⟨⟨1, 2⟩, 1⟩, .normal (.publish "spam" [8])⟩], by decide⟩
    ∃ s, Lts.Steps (fun s a s' => Step ∅ s a s' ∧ Scheduled s a) (forwarded log "spam")
        [.propose 1 0, .propose 1 1, .commit 1 0 ⟨⟨1, 2⟩, 2⟩, .commit 1 1 ⟨⟨1, 2⟩, 3⟩,
          .answer 1 0, .send 1 0, .pull 1, .receive 0 0, .close 1] s ∧
      s.result = some (some (0, [7])) ∧ s.log.popped "spam" = [(0, [7]), (1, [8])] ∧
      ¬ OnePop log "spam" s := by
  intro log
  obtain ⟨s, h, hr, hp⟩ : ∃ s,
      Lts.Steps (fun s a s' => Step ∅ s a s' ∧ Scheduled s a) (forwarded log "spam")
        [.propose 1 0, .propose 1 1, .commit 1 0 ⟨⟨1, 2⟩, 2⟩, .commit 1 1 ⟨⟨1, 2⟩, 3⟩,
          .answer 1 0, .send 1 0, .pull 1, .receive 0 0, .close 1] s ∧
      s.result = some (some (0, [7])) ∧ s.log.popped "spam" = [(0, [7]), (1, [8])] :=
    ⟨_, .cons ⟨.propose rfl rfl, rfl⟩ (.cons ⟨.propose rfl rfl, rfl⟩ (.cons
      ⟨.commit rfl rfl (CommittedLog.commit_of_lt (by decide +kernel)), rfl⟩ (.cons
      ⟨.commit rfl rfl (CommittedLog.commit_of_lt (by decide +kernel)), rfl⟩ (.cons
      ⟨.answer rfl rfl, rfl⟩ (.cons
      ⟨.send rfl (show _ = some (Pc.sending (0, [7])) by decide +kernel) rfl (by decide), rfl⟩
      (.cons
      ⟨.relay rfl rfl rfl, rfl⟩ (.cons
      ⟨@Step.receive _ _ 0 0 1 _ _ _ _ rfl rfl rfl (by decide +kernel), rfl⟩ (.single
      ⟨.close rfl, rfl, by decide +kernel⟩)))))))), by decide +kernel, by decide +kernel⟩
  refine ⟨s, h, hr, hp, ?_⟩
  rw [OnePop, hr, hp]
  decide +kernel

theorem alwaysOnePop_iff_drained_queue :
    let log : CommittedLog QueueRequest :=
      ⟨[⟨⟨⟨1, 2⟩, 0⟩, .normal (.publish "spam" [7])⟩, ⟨⟨⟨1, 2⟩, 1⟩, .normal (.pop "spam")⟩],
        by decide⟩
    log.popped "spam" = [(0, [7])] ∧ AlwaysOnePop ∅ log "spam" [] := by
  intro log
  exact ⟨by decide +kernel,
    (alwaysOnePop_iff ∅ log "spam" [] (by decide +kernel)).mpr ⟨by decide +kernel, rfl⟩⟩

end BlunMq
