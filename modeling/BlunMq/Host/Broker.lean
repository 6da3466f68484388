import BlunMq.Host.Conservation
import BlunMq.Host.DeliveryLaws
import BlunMq.Host.PublishLaws

/-!
# Producers and consumers on one log

The publish handlers and the consume streams of a cluster write to the same replicated
log. A publish given up by its caller may still be committed, as a pop may. Projected to
either side, a run of the broker is a run of that side, so what holds of all its runs holds
here, and the offset a producer is told can be compared with what a consumer receives.
-/

namespace BlunMq

theorem Step.log_cases {peers : Map UInt64 String} {s s' : Cluster} {a : Act}
    (h : Step peers s a s') : s'.log = s.log ∨ ∃ e r, s.log.commit e = some (s'.log, r) := by
  cases h with
  | commit _ _ hc | commitInFlight _ hc | commitOther _ hc => exact .inr ⟨_, _, hc⟩
  | fail | forwardToLeader => exact .inl (Cluster.abandon_log _ _ _)
  | publish | subscribed | rejected | propose | answer | send | sendClosed | wake | accept
    | refused | broken | receive | timeout | emit | relay | close => exact .inl rfl

def Cluster.demand (s : Cluster) (q : String) : Multiset Bytes :=
  (s.log.published q : Multiset Bytes) + Tally.total (payloadOn q) s.inFlight

theorem CommittedLog.commit_published {log log' : CommittedLog QueueRequest} {id : LogId}
    {req : QueueRequest} {r : QueueResponse}
    (hc : log.commit ⟨id, .normal req⟩ = some (log', r)) (q : String) :
    (log'.published q : Multiset Bytes) = log.published q + payloadOn q req := by
  rw [published, (commit_normal hc).2, QueueState.publishedTo, List.filterMap_append,
    ← Multiset.coe_add]
  refine congrArg _ ?_
  cases req with
  | publish queue payload => by_cases hq : queue = q <;> simp [payloadOn, hq]
  | pop queue => rfl

theorem Step.demand_eq {peers : Map UInt64 String} {s s' : Cluster} {a : Act}
    (h : Step peers s a s') (ha : ∀ queue payload, a ≠ .publish queue payload) (q : String) :
    s'.demand q = s.demand q := by
  have habandon : ∀ (t : Cluster) (queue : String) (response : Option QueueResponse),
      (t.abandon queue response).demand q = t.demand q := fun t queue response => by
    cases response with
    | none => simp [Cluster.abandon, Cluster.demand, Tally.total_append, payloadOn]
    | some r => rfl
  cases h with
  | publish => exact absurd rfl (ha _ _)
  | commit _ _ hc =>
    exact congrArg (· + _) ((CommittedLog.commit_published hc q).trans (add_zero _))
  | commitInFlight hk hc =>
    have herase := Tally.total_eraseIdx (payloadOn q) hk
    rw [Cluster.demand, CommittedLog.commit_published hc q, Cluster.demand, ← herase]
    abel
  | @commitOther e log' r he hc =>
    have hsame : log'.published q = s.log.published q := by
      obtain ⟨id, payload⟩ := e
      cases payload with
      | normal req => exact absurd rfl (he req)
      | blank | membership => simp [CommittedLog.published, CommittedLog.commit_entries hc,
          StateMachineStore.requests]
    rw [Cluster.demand, hsame, Cluster.demand]
  | fail | forwardToLeader => exact habandon _ _ _
  | subscribed | rejected | propose | answer | send | sendClosed | wake | accept | refused
    | broken | receive | timeout | emit | relay | close => rfl

namespace Broker

/-- `roots` names, for each log entry, the client call that waits for its response. -/
structure World where
  cluster : Cluster
  roots : List (Option ℕ)
  calls : List Publish.Activation

def World.start : World := ⟨Cluster.start, [], []⟩

def World.publishers (w : World) : Publish.World := ⟨w.cluster.log, w.roots, w.calls⟩

inductive Act
  | publish (act : Publish.Act)
  | consume (act : BlunMq.Act)

variable (peers : Map UInt64 String)

/-- Producers enter the cluster through the publish handlers only. -/
inductive Step : World → Act → World → Prop
  | serve {w : World} {act : Publish.Act} {p : Publish.World} (hlocal : act.Local)
      (h : Publish.Step peers w.publishers act p) :
      Step w (.publish act)
        ⟨{ w.cluster with inFlight := w.cluster.inFlight ++ Publish.givenUp w.calls act },
          w.roots, p.calls⟩
  | commit {w : World} {a : ℕ} {id : LogId} {p : Publish.World}
      (h : Publish.Step peers w.publishers (.commit a id) p) :
      Step w (.publish (.commit a id)) ⟨{ w.cluster with log := p.log }, p.roots, p.calls⟩
  | consume {w : World} {act : BlunMq.Act} {c : Cluster}
      (hact : ∀ queue payload, act ≠ .publish queue payload)
      (h : BlunMq.Step peers w.cluster act c) :
      Step w (.consume act)
        ⟨c, w.roots ++ List.replicate (c.log.entries.length - w.cluster.log.entries.length) none,
          w.calls⟩

variable {peers} {w w' : World} {act : Act} {acts : List Act}

theorem Step.publishers (h : Step peers w act w') :
    ∃ bs, Lts.Steps (Publish.Step peers) w.publishers bs w'.publishers := by
  cases h with
  | @serve act p hlocal h =>
    obtain ⟨hlog, hroots⟩ := h.log_of_local hlocal
    have hp : p = ⟨w.publishers.log, w.publishers.roots, p.calls⟩ := by rw [← hlog, ← hroots]
    rw [hp] at h
    exact ⟨[act], .single h⟩
  | @commit a id p h => exact ⟨[.commit a id], .single h⟩
  | @consume act c hact h =>
    rcases h.log_cases with hlog | ⟨e, r, hc⟩
    · refine ⟨[], ?_⟩
      rw [World.publishers, World.publishers, hlog, Nat.sub_self, List.replicate_zero,
        List.append_nil]
      exact .nil _
    · have hlen : c.log.entries.length - w.cluster.log.entries.length = 1 := by
        rw [CommittedLog.commit_entries hc, List.length_append, List.length_singleton]
        omega
      refine ⟨[.commitOther e], ?_⟩
      rw [World.publishers, hlen]
      exact .single (Publish.Step.commitOther hc)

theorem Step.cluster (h : Step peers w act w') :
    ∃ bs, Lts.Steps (BlunMq.Step peers) w.cluster bs w'.cluster := by
  cases h with
  | @serve act p hlocal h =>
    rcases Publish.givenUp_cases w.calls act with hnone | ⟨queue, payload, hone⟩
    · rw [hnone, List.append_nil]
      exact ⟨[], .nil _⟩
    · rw [hone]
      exact ⟨[.publish queue payload], .single (.publish _ queue payload)⟩
  | @commit a id p h =>
    cases h with
    | @commit a id call log' r ha hpc hc =>
      have hlast : (w.cluster.inFlight ++
          [QueueRequest.publish call.queue call.payload])[w.cluster.inFlight.length]? =
            some (.publish call.queue call.payload) := List.getElem?_concat_length
      have herase : (w.cluster.inFlight ++ [QueueRequest.publish call.queue call.payload]).eraseIdx
          w.cluster.inFlight.length = w.cluster.inFlight := by
        rw [List.eraseIdx_append_of_length_le le_rfl, Nat.sub_self]
        exact List.append_nil _
      have hcommit : BlunMq.Step peers _ (.commitInFlight w.cluster.inFlight.length id) _ :=
        .commitInFlight (s := { w.cluster with inFlight := w.cluster.inFlight ++
          [QueueRequest.publish call.queue call.payload] }) hlast hc
      simp only [herase] at hcommit
      exact ⟨[.publish call.queue call.payload, .commitInFlight w.cluster.inFlight.length id],
        .cons (.publish _ _ _) (.single hcommit)⟩
  | consume hact h => exact ⟨[_], .single h⟩

theorem publishers_run (h : Lts.Steps (Step peers) w acts w') :
    ∃ bs, Lts.Steps (Publish.Step peers) w.publishers bs w'.publishers :=
  h.simulation World.publishers fun _ _ _ hstep => hstep.publishers

theorem cluster_run (h : Lts.Steps (Step peers) w acts w') :
    ∃ bs, Lts.Steps (BlunMq.Step peers) w.cluster bs w'.cluster :=
  h.simulation World.cluster fun _ _ _ hstep => hstep.cluster

theorem invariant_run (h : Lts.Steps (Step peers) World.start acts w) :
    Publish.Invariant w.publishers ∧ Publish.Rooted w.publishers := by
  obtain ⟨bs, hrun⟩ := publishers_run h
  exact ⟨Publish.invariant_run hrun, Publish.rooted_run hrun⟩

theorem emitted_published (h : Lts.Steps (Step peers) World.start acts w) {e : Emission}
    (he : e ∈ w.cluster.emitted) :
    (w.cluster.log.published e.queue)[e.item.1.toNat]? = some e.item.2 := by
  obtain ⟨bs, hrun⟩ := cluster_run h
  have hmem : e.item ∈ (w.cluster.emittedOn e.queue : Multiset Item) :=
    List.mem_filterMap.mpr ⟨e, he, if_pos rfl⟩
  exact w.cluster.log.mem_popped (Multiset.mem_of_le (emittedOn_le_popped hrun e.queue) hmem)

theorem acknowledged_stamped (h : Lts.Steps (Step peers) World.start acts w) {a : ℕ}
    {call : Publish.Activation} {offset : UInt64}
    (hack : Publish.Acknowledged w.publishers a call offset) :
    Publish.Stamped w.publishers call offset := by
  have htracked := (invariant_run h).1.lookup hack.lookup
  rwa [Publish.Tracked, hack.done] at htracked

def delivering : List Act :=
  [.publish (.call "spam" [7]), .publish (.commit 0 ⟨⟨1, 1⟩, 0⟩), .publish (.ok 0),
    .publish (.respond 0), .consume (.consume (some (.ok (some (.subscribe "spam"))))),
    .consume (.propose 0 0), .consume (.commit 0 0 ⟨⟨1, 1⟩, 1⟩), .consume (.answer 0 0),
    .consume (.send 0 0), .consume (.pull 0)]

theorem delivering_steps :
    ∃ w, Lts.Steps (Step ∅) World.start delivering w ∧
      w.calls = [⟨0, "spam", [7], .done (.ok 0)⟩] ∧
      w.cluster.emitted = [⟨0, "spam", (0, [7])⟩] ∧
      ∀ x ∈ w.cluster.log.entries, x.logId.index < 2 := by
  refine ⟨_, .cons (.serve trivial (.call _ _ _)) (.cons (.commit (.commit rfl rfl
    (CommittedLog.commit_of_lt (by simp [World.publishers, World.start, Cluster.start,
      Publish.World.spawn, CommittedLog.empty])))) (.cons (.serve trivial (.ok rfl rfl)) (.cons
    (.serve trivial (.respond rfl rfl)) (.cons (.consume (by simp) (.subscribed rfl)) (.cons
    (.consume (by simp) (.propose rfl rfl)) (.cons (.consume (by simp) (.commit rfl rfl
    (CommittedLog.commit_of_lt (by decide +kernel)))) (.cons
    (.consume (by simp) (.answer rfl rfl)) (.cons (.consume (by simp) (.send rfl
    (show _ = some (Pc.sending (0, [7])) by decide +kernel) rfl (by decide)))
    (.single (.consume (by simp) (.emit rfl rfl rfl))))))))))), ?_, rfl, ?_⟩
  · have hoffset : ∀ o : UInt64, o = 0 →
        [(⟨0, "spam", [7], .done (.ok o)⟩ : Publish.Activation)] =
          [⟨0, "spam", [7], .done (.ok 0)⟩] := fun o ho => by rw [ho]
    exact hoffset _ (by decide +kernel)
  · decide +kernel

theorem call_in_real_time {u v : World} {bs : List Act} {queue : String}
    {payload : Bytes} (h : Lts.Steps (Step peers) World.start acts w)
    (hcall : Step peers w (.publish (.call queue payload)) u)
    (hrun : Lts.Steps (Step peers) u bs v) {call : Publish.Activation} {offset : UInt64}
    (hack : Publish.Acknowledged v.publishers w.calls.length call offset) :
    (call.queue = queue ∧ call.payload = payload) ∧
    (w.cluster.log.published queue).length ≤ offset.toNat ∧
    (v.cluster.log.published queue)[offset.toNat]? = some payload ∧
    (∀ a earlier o, Publish.Acknowledged w.publishers a earlier o → earlier.queue = queue →
      o < offset) ∧
    ∀ e ∈ w.cluster.emitted, e.queue = queue → e.item.1 < offset := by
  have hv : Lts.Steps (Step peers) World.start (acts ++ .publish (.call queue payload) :: bs) v :=
    h.trans (.cons hcall hrun)
  obtain ⟨hinv, hrooted⟩ := invariant_run h
  obtain ⟨cs, hext⟩ := publishers_run hrun
  obtain ⟨ds, hlater⟩ := publishers_run (Lts.Steps.cons hcall hrun)
  obtain ⟨hqueue, hpayload⟩ : call.queue = queue ∧ call.payload = payload := by
    have hspawned : u.calls[w.calls.length]? =
        some ⟨w.calls.length, queue, payload, .proposing none⟩ := by
      cases hcall with
      | serve hlocal hstep =>
        cases hstep with
        | call => exact List.getElem?_concat_length
    obtain ⟨call', hcall', -, hqueue, hpayload⟩ := (Publish.extends_run hext).calls _ _ hspawned
    rw [hack.lookup] at hcall'
    cases hcall'
    exact ⟨hqueue, hpayload⟩
  obtain ⟨n, hown, hcount⟩ := acknowledged_stamped hv hack
  rw [hqueue, hpayload, hack.client] at hown
  rw [hqueue] at hcount
  have hafter := Publish.entry_after_call hinv hrooted (Publish.extends_run hlater) hown
  have hlow : (w.cluster.log.published queue).length ≤ offset.toNat := by
    rw [hcount]
    exact Publish.publishedBefore_extends (Publish.extends_run hlater) queue hafter
  refine ⟨⟨hqueue, hpayload⟩, hlow, ?_, fun a earlier o hearlier hq => ?_, fun e he hq => ?_⟩
  · obtain ⟨e, he, hp⟩ := hown.entry
    rw [hcount]
    exact Publish.published_at he hp
  · have hlt := (acknowledged_stamped h hearlier).lt
    rw [hq] at hlt
    exact UInt64.lt_iff_toNat_lt.mpr (hlt.trans_le hlow)
  · have hlt := (List.getElem?_eq_some_iff.mp (emitted_published h he)).1
    rw [hq] at hlt
    exact UInt64.lt_iff_toNat_lt.mpr (hlt.trans_le hlow)

/-- Each run of the publish handler has made one proposal: it is waiting for it, has given it
up, or its message is in the log. -/
def Ledger (w : World) : Prop :=
  ∀ q, Tally.total (Publish.proposed q) w.calls =
    w.cluster.demand q + Tally.total (Publish.pending q) w.calls

theorem Ledger.step (hw : Ledger w) (h : Step peers w act w') : Ledger w' := by
  intro q
  have hbefore := hw q
  cases h with
  | @serve act p hlocal h =>
    have hledger := h.ledger hlocal q
    have hdemand : Cluster.demand { w.cluster with
        inFlight := w.cluster.inFlight ++ Publish.givenUp w.calls act } q =
          w.cluster.demand q + Tally.total (payloadOn q) (Publish.givenUp w.calls act) := by
      rw [Cluster.demand, Tally.total_append, Cluster.demand, add_assoc]
    rw [hdemand]
    refine add_right_cancel (b := Tally.total (Publish.pending q) w.calls) ?_
    refine hledger.trans ?_
    rw [show w.publishers.calls = w.calls from rfl, hbefore]
    abel
  | @commit a id p h =>
    cases h with
    | @commit a id call log' r ha hpc hc =>
      have hproposed := Publish.total_proposed_move ha (.proposing (some r)) q
      have hpending := Publish.total_pending_move ha (.proposing (some r)) q
      have hcall : Publish.pending q call = payloadOn q (.publish call.queue call.payload) := by
        rw [Publish.pending, hpc]
        rfl
      have hdemand : Cluster.demand { w.cluster with log := log' } q =
          w.cluster.demand q + Publish.pending q call := by
        rw [Cluster.demand, CommittedLog.commit_published hc q, Cluster.demand, hcall]
        exact add_right_comm _ _ _
      refine hproposed.trans (hbefore.trans ?_)
      refine Eq.trans ?_ (congrArg (· + _) hdemand.symm)
      rw [add_assoc, add_comm (Publish.pending q call)]
      exact congrArg _ (hpending.trans (add_zero _)).symm
  | consume hact h =>
    rw [h.demand_eq hact]
    exact hbefore

theorem ledger_run (h : Lts.Steps (Step peers) World.start acts w) : Ledger w :=
  h.invariant (P := Ledger) (fun _ _ _ hw hstep => hw.step hstep) fun _ => rfl

theorem every_proposal_accounted (h : Lts.Steps (Step peers) World.start acts w) :
    (∀ q, Tally.total (Publish.proposed q) w.calls =
      (w.cluster.log.published q : Multiset Bytes) + Tally.total (payloadOn q) w.cluster.inFlight +
        Tally.total (Publish.pending q) w.calls) ∧
    ∀ e ∈ w.cluster.emitted, ∃ (a : ℕ) (client : Publish.Activation), w.calls[a]? = some client ∧
      client.root = a ∧ client.queue = e.queue ∧ client.payload = e.item.2 := by
  have hledger := ledger_run h
  refine ⟨hledger, fun e he => ?_⟩
  have hpublished : e.item.2 ∈ (w.cluster.log.published e.queue : Multiset Bytes) :=
    List.mem_of_getElem? (emitted_published h he)
  have hproposed : e.item.2 ∈ Tally.total (Publish.proposed e.queue) w.calls := by
    rw [hledger]
    exact Multiset.mem_add.mpr (.inl (Multiset.mem_add.mpr (.inl hpublished)))
  obtain ⟨call, hmem, hcall⟩ := Tally.mem_total.mp hproposed
  obtain ⟨client, hclient, hroot, hqueue, hpayload⟩ := (invariant_run h).2.client call hmem
  rw [Publish.proposed, payloadOn] at hcall
  split at hcall
  · rename_i hq
    refine ⟨call.root, client, hclient, hroot, hqueue.trans hq, hpayload.trans ?_⟩
    exact (Multiset.mem_singleton.mp hcall).symm
  · exact absurd hcall (Multiset.notMem_zero _)

theorem every_proposal_accounted_delivering :
    ∃ w, Lts.Steps (Step ∅) World.start delivering w ∧
      w.cluster.emitted = [⟨0, "spam", (0, [7])⟩] ∧
      ∃ (a : ℕ) (client : Publish.Activation), w.calls[a]? = some client ∧ client.root = a ∧
        client.payload = [7] := by
  obtain ⟨w, hrun, -, hemitted, -⟩ := delivering_steps
  have hmem : (⟨0, "spam", (0, [7])⟩ : Emission) ∈ w.cluster.emitted := by
    rw [hemitted]
    exact List.mem_singleton_self _
  obtain ⟨a, client, hclient, hroot, -, hpayload⟩ := (every_proposal_accounted hrun).2 _ hmem
  exact ⟨w, hrun, hemitted, a, client, hclient, hroot, hpayload⟩

theorem acknowledged_once (h : Lts.Steps (Step peers) World.start acts w) :
    ∃ as lost, Lts.Steps (Audit peers) Audited.start as ⟨w.cluster, lost⟩ ∧
      ∀ a call offset, Publish.Acknowledged w.publishers a call offset →
        Multiset.count (offset, call.payload) ((w.cluster.log.waiting call.queue : Multiset Item) +
          w.cluster.inTransit call.queue + w.cluster.emittedOn call.queue +
            Loss.lostOn call.queue lost) = 1 ∧
        ∀ e ∈ w.cluster.emitted, e.queue = call.queue → e.item.1 = offset →
          e.item.2 = call.payload := by
  obtain ⟨as, hrun⟩ := cluster_run h
  obtain ⟨lost, haudit⟩ := audit_of_steps hrun
  refine ⟨as, lost, haudit, fun a call offset hack => ?_⟩
  have hat : (w.cluster.log.published call.queue)[offset.toNat]? = some call.payload := by
    obtain ⟨n, hown, hcount⟩ := acknowledged_stamped h hack
    obtain ⟨e, he, hp⟩ := hown.entry
    rw [hcount]
    exact Publish.published_at he hp
  constructor
  · rw [← (balanced_run haudit).items call.queue]
    exact Multiset.count_eq_one_of_mem (w.cluster.log.items_nodup call.queue)
      (w.cluster.log.mem_items.mpr hat)
  · intro e he hq hoffset
    have hsame := emitted_published h he
    rw [hq, hoffset, hat] at hsame
    exact (Option.some.inj hsame).symm

end Broker

end BlunMq
