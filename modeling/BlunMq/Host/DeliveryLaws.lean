import BlunMq.Host.Delivery

/-!
# What consumers get

At most one emission per offset in every run, and none missing in the runs where
every proposal is answered and no receiver is dropped.
-/

namespace BlunMq

variable {peers : Map UInt64 String} {s s' : Cluster} {a : Act} {as : List Act}

theorem emittedOn_le_popped (h : Lts.Steps (Step peers) Cluster.start as s) (q : String) :
    (s.emittedOn q : Multiset Item) ≤ s.log.popped q :=
  (Multiset.le_add_left _ _).trans (carried_le_popped h q)

theorem count_emitted (es : List Emission) (q : String) (o : UInt64) :
    (es.map fun e => (e.queue, e.item.1)).count (q, o) =
      ((es.filterMap fun e => if e.queue = q then some e.item else none).map Prod.fst).count o := by
  induction es with
  | nil => rfl
  | cons e es ih =>
    rw [List.map_cons, List.count_cons, ih]
    by_cases hq : e.queue = q
    · rw [List.filterMap_cons_some (by rw [if_pos hq]), List.map_cons, List.count_cons]
      simp [hq]
    · rw [List.filterMap_cons_none (by rw [if_neg hq])]
      simp [hq]

theorem emitted_at_most_once (h : Lts.Steps (Step peers) Cluster.start as s) :
    (s.emitted.map fun e => (e.queue, e.item.1)).Nodup ∧
      ∀ e ∈ s.emitted, (s.log.published e.queue)[e.item.1.toNat]? = some e.item.2 := by
  constructor
  · refine List.nodup_iff_count_le_one.mpr ?_
    rintro ⟨q, o⟩
    rw [count_emitted]
    have hle : ((s.emittedOn q).map Prod.fst : Multiset UInt64) ≤
        ((s.log.popped q).map Prod.fst : List UInt64) := by
      rw [← Multiset.map_coe, ← Multiset.map_coe]
      exact Multiset.map_le_map (emittedOn_le_popped h q)
    have hnodup := Multiset.nodup_of_le hle (Multiset.coe_nodup.mpr (s.log.popped_nodup q))
    exact List.nodup_iff_count_le_one.mp (Multiset.coe_nodup.mp hnodup) o
  · intro e he
    have hmem : e.item ∈ s.emittedOn e.queue :=
      List.mem_filterMap.mpr ⟨e, he, if_pos rfl⟩
    have hpop : e.item ∈ (s.log.popped e.queue : Multiset Item) :=
      Multiset.mem_of_le (emittedOn_le_popped h e.queue) hmem
    exact s.log.mem_popped hpop

theorem emitted_at_most_once_forwarded :
    let peers : Map UInt64 String := (∅ : Map UInt64 String).insert 2 "http://node2"
    ∃ s, Lts.Steps (Step peers) Cluster.start
        [.publish "spam" [7], .commitInFlight 0 ⟨⟨1, 2⟩, 0⟩,
          .consume (some (.ok (some (.subscribe "spam")))), .propose 0 0,
          .forwardToLeader 0 0 (some 2), .accept 0 0, .propose 1 0, .commit 1 0 ⟨⟨1, 2⟩, 1⟩,
          .answer 1 0, .send 1 0, .pull 1, .receive 0 0, .send 0 0, .pull 0] s ∧
      s.emitted = [⟨0, "spam", (0, [7])⟩] ∧
      (s.emitted.map fun e => (e.queue, e.item.1)).Nodup ∧
      ∀ e ∈ s.emitted, (s.log.published e.queue)[e.item.1.toNat]? = some e.item.2 := by
  intro peers
  obtain ⟨s, h, he⟩ : ∃ s, Lts.Steps (Step peers) Cluster.start
      [.publish "spam" [7], .commitInFlight 0 ⟨⟨1, 2⟩, 0⟩,
        .consume (some (.ok (some (.subscribe "spam")))), .propose 0 0,
        .forwardToLeader 0 0 (some 2), .accept 0 0, .propose 1 0, .commit 1 0 ⟨⟨1, 2⟩, 1⟩,
        .answer 1 0, .send 1 0, .pull 1, .receive 0 0, .send 0 0, .pull 0] s ∧
      s.emitted = [⟨0, "spam", (0, [7])⟩] :=
    ⟨_, .cons (.publish _ _ _) (.cons
      (.commitInFlight rfl
        (CommittedLog.commit_of_lt (by simp [Cluster.start, CommittedLog.empty])))
      (.cons (.subscribed rfl) (.cons (.propose rfl rfl) (.cons (.forwardToLeader rfl rfl)
      (.cons (.accept rfl (show _ = some (Pc.dialing 2) by decide +kernel))
      (.cons (.propose rfl rfl)
      (.cons (.commit rfl rfl (CommittedLog.commit_of_lt (by decide +kernel)))
      (.cons (.answer rfl rfl) (.cons (.send rfl
        (show _ = some (Pc.sending (0, [7])) by decide +kernel) rfl (by decide))
      (.cons (.relay rfl rfl rfl) (.cons
        (@Step.receive _ _ 0 0 1 _ _ _ _ rfl rfl rfl (by decide +kernel))
      (.cons (.send rfl (show _ = some (Pc.sending (0, [7])) by decide +kernel) rfl (by decide))
      (.single (.emit rfl rfl rfl)))))))))))))), rfl⟩
  exact ⟨s, h, he, emitted_at_most_once h⟩

/-- Where an offset handed out by `Publish` can be found: still queued, in the response
or hands of a worker, in a stream's channel, or emitted. -/
inductive Located (s : Cluster) (q : String) (o : UInt64) : Prop
  | queued {payload : Bytes} (h : (o, payload) ∈ s.log.state.queues.getD q [])
  | worker {sid i : ℕ} {st : Stream} {pc : Pc} {payload : Bytes}
      (hst : s.streams[sid]? = some st) (hq : st.queue = q) (hw : st.workers[i]? = some pc)
      (h : (o, payload) ∈ pc.held)
  | channel {sid : ℕ} {st : Stream} {payload : Bytes} (hst : s.streams[sid]? = some st)
      (hq : st.queue = q) (h : (o, payload) ∈ st.channel)
  | emitted {e : Emission} (h : e ∈ s.emitted) (hq : e.queue = q) (ho : e.item.1 = o)

/-- What happens while every `client_write` returns `Ok` on a stable leader and no
receiver is dropped. -/
def Act.Direct : Act → Prop
  | .publish _ _ | .consume _ | .propose _ _ | .commit _ _ _ | .commitInFlight _ _
  | .commitOther _ | .answer _ _ | .send _ _ | .pull _ | .wake _ _ => True
  | _ => False

def Stream.Attached (st : Stream) : Prop := st.isOpen = true ∧ st.client = true ∧ st.wire = []

structure Settled (s : Cluster) : Prop where
  linked : Linked s.streams
  attached : ∀ st ∈ s.streams, st.Attached
  publishes : ∀ req ∈ s.inFlight, ∀ q, req ≠ .pop q
  exact : ∀ q, s.carried q = s.log.popped q

theorem settled_start : Settled Cluster.start where
  linked := linked_start
  attached _ h := by cases h
  publishes _ h := by cases h
  exact _ := rfl

theorem attached_set {streams : List Stream} {sid : ℕ} {st st' : Stream}
    (h : ∀ x ∈ streams, x.Attached) (hst : streams[sid]? = some st)
    (ho : st'.isOpen = st.isOpen) (hc : st'.client = st.client) (hw : st'.wire = st.wire) :
    ∀ x ∈ streams.set sid st', x.Attached := by
  intro x hx
  rcases List.mem_or_eq_of_mem_set hx with hx | rfl
  · exact h x hx
  · rw [Stream.Attached, ho, hc, hw]
    exact h st (List.mem_of_getElem? hst)

theorem Settled.lossless (h : Settled s) (ha : a.Direct) : Lossless s a := by
  cases a with
  | fail | forwardToLeader | close => exact ha.elim
  | send sid i => exact fun st hst => (h.attached st (List.mem_of_getElem? hst)).1
  | commitInFlight k id => exact fun req hreq => h.publishes req (List.mem_of_getElem? hreq)
  | _ => trivial

theorem Step.attached (h : Step peers s a s') (ha : a.Direct)
    (hs : ∀ st ∈ s.streams, st.Attached) : ∀ st ∈ s'.streams, st.Attached := by
  cases h with
  | publish | rejected | commitInFlight | commitOther => exact hs
  | subscribed h =>
    intro st hst
    rcases List.mem_append.mp hst with hst | hst
    · exact hs st hst
    · rw [List.mem_singleton.mp hst]
      exact ⟨rfl, rfl, rfl⟩
  | commit hst | propose hst | answer hst | send hst | sendClosed hst | wake hst | emit hst =>
    exact attached_set hs hst rfl rfl rfl
  | relay hst hclient _ =>
    rw [(hs _ (List.mem_of_getElem? hst)).2.1] at hclient
    cases hclient
  | fail | forwardToLeader | accept | refused | broken | receive | timeout | close =>
    exact ha.elim

theorem Step.publishes (h : Step peers s a s') (ha : a.Direct)
    (hs : ∀ req ∈ s.inFlight, ∀ q, req ≠ .pop q) : ∀ req ∈ s'.inFlight, ∀ q, req ≠ .pop q := by
  cases h with
  | publish queue payload =>
    intro req hreq
    rcases List.mem_append.mp hreq with hreq | hreq
    · exact hs req hreq
    · rw [List.mem_singleton.mp hreq]
      simp
  | commitInFlight hk hc => exact fun req hreq => hs req (List.mem_of_mem_eraseIdx hreq)
  | subscribed | rejected | commit | commitOther | propose | answer | send | sendClosed | wake
    | emit | relay => exact hs
  | fail | forwardToLeader | accept | refused | broken | receive | timeout | close =>
    exact ha.elim

theorem Settled.step (h : Settled s) (hstep : Step peers s a s') (ha : a.Direct) :
    Settled s' where
  linked := hstep.linked h.linked
  attached := hstep.attached ha h.attached
  publishes := hstep.publishes ha h.publishes
  exact q := by
    have heq := hstep.carried_eq h.linked (h.lossless ha) q
    rw [h.exact q, add_comm] at heq
    exact add_left_cancel heq

theorem Settled.locate (h : Settled s) {q : String} {o : UInt64} {payload : Bytes}
    (hx : (o, payload) ∈ s.carried q) : Located s q o := by
  rcases Multiset.mem_add.mp hx with hx | hx
  · obtain ⟨st, hmem, hst⟩ := Tally.mem_total.mp hx
    obtain ⟨sid, hsid⟩ := List.mem_iff_getElem?.mp hmem
    unfold Stream.carried onQueue at hst
    split at hst
    · rename_i hq
      rw [Stream.contents, (h.attached st hmem).2.2, Multiset.coe_nil, add_zero] at hst
      rcases Multiset.mem_add.mp hst with hc | hw
      · exact .channel hsid hq hc
      · obtain ⟨pc, hpc, hheld⟩ := Tally.mem_total.mp hw
        obtain ⟨i, hi⟩ := List.mem_iff_getElem?.mp hpc
        exact .worker hsid hq hi hheld
    · exact absurd hst (Multiset.notMem_zero _)
  · obtain ⟨e, he, heq⟩ := List.mem_filterMap.mp hx
    split at heq
    · rename_i hq
      exact .emitted he hq (congrArg Prod.fst (Option.some.inj heq))
    · cases heq

theorem direct_path_keeps (h : Lts.Steps (fun s a s' => Step peers s a s' ∧ a.Direct)
    Cluster.start as s) {q : String} {o : UInt64} (ho : o < s.log.state.nextOffset.getD q 0) :
    Located s q o := by
  have hs : Settled s :=
    h.invariant (P := Settled) (fun _ _ _ hs hstep => hs.step hstep.1 hstep.2) settled_start
  rcases s.log.queued_or_popped ho with ⟨payload, hp⟩ | ⟨payload, hp⟩
  · exact .queued hp
  · have hmem : (o, payload) ∈ s.carried q := by
      rw [hs.exact q]
      exact hp
    exact hs.locate hmem

theorem direct_path_keeps_sent :
    ∃ s, Lts.Steps (fun s a s' => Step ∅ s a s' ∧ a.Direct) Cluster.start
        [.publish "spam" [7], .publish "spam" [8], .commitInFlight 0 ⟨⟨1, 1⟩, 0⟩,
          .commitInFlight 0 ⟨⟨1, 1⟩, 1⟩, .consume (some (.ok (some (.subscribe "spam")))),
          .propose 0 5, .commit 0 5 ⟨⟨1, 1⟩, 2⟩, .answer 0 5, .send 0 5] s ∧
      s.log.state.nextOffset.getD "spam" 0 = 2 ∧ Located s "spam" 0 ∧ Located s "spam" 1 := by
  obtain ⟨s, h, hn⟩ : ∃ s, Lts.Steps (fun s a s' => Step ∅ s a s' ∧ a.Direct) Cluster.start
      [.publish "spam" [7], .publish "spam" [8], .commitInFlight 0 ⟨⟨1, 1⟩, 0⟩,
        .commitInFlight 0 ⟨⟨1, 1⟩, 1⟩, .consume (some (.ok (some (.subscribe "spam")))),
        .propose 0 5, .commit 0 5 ⟨⟨1, 1⟩, 2⟩, .answer 0 5, .send 0 5] s ∧
      s.log.state.nextOffset.getD "spam" 0 = 2 :=
    ⟨_, .cons ⟨.publish _ _ _, trivial⟩ (.cons ⟨.publish _ _ _, trivial⟩ (.cons
      ⟨.commitInFlight rfl
        (CommittedLog.commit_of_lt (by simp [Cluster.start, CommittedLog.empty])), trivial⟩ (.cons
      ⟨.commitInFlight rfl (CommittedLog.commit_of_lt (by decide +kernel)), trivial⟩ (.cons
      ⟨.subscribed rfl, trivial⟩ (.cons ⟨.propose rfl rfl, trivial⟩ (.cons
      ⟨.commit rfl rfl (CommittedLog.commit_of_lt (by decide +kernel)), trivial⟩ (.cons
      ⟨.answer rfl rfl, trivial⟩ (.single
      ⟨.send rfl (show _ = some (Pc.sending (0, [7])) by decide +kernel) rfl (by decide),
        trivial⟩)))))))),
      by decide +kernel⟩
  exact ⟨s, h, hn, direct_path_keeps h (by rw [hn]; decide),
    direct_path_keeps h (by rw [hn]; decide)⟩

end BlunMq
