import BlunMq.Lib.Steps
import BlunMq.Lib.Tally
import BlunMq.Host.Consume

/-!
# Where a popped message can be

A message taken out of the replicated queue is in the response to a worker's
proposal, in a worker's hands, in a channel, on the wire of a forwarded stream,
emitted to a client, or lost. Counted with multiplicity, the places that are not
lost never hold more than the pops of the log handed out, and without errors and
closed streams they hold exactly that.
-/

namespace BlunMq

def Pc.held : Pc → Multiset Item
  | .proposing (some r) => r.popped.toList
  | .sending item => {item}
  | _ => 0

def onQueue (queue q : String) (m : Multiset Item) : Multiset Item := if queue = q then m else 0

theorem onQueue_add (queue q : String) (m m' : Multiset Item) :
    onQueue queue q (m + m') = onQueue queue q m + onQueue queue q m' := by
  unfold onQueue
  split <;> simp

@[simp] theorem onQueue_zero (queue q : String) : onQueue queue q 0 = 0 := ite_self 0

namespace Stream

def contents (st : Stream) : Multiset Item :=
  (st.channel : Multiset Item) + st.wire + Tally.total Pc.held st.workers

def carried (q : String) (st : Stream) : Multiset Item := onQueue st.queue q st.contents

theorem contents_start (queue : String) (client : Bool) : (start queue client).contents = 0 := by
  rw [contents, start, Tally.total_replicate_zero Pc.held _ rfl]
  rfl

theorem contents_put {st : Stream} {i : ℕ} {pc : Pc} (hw : st.workers[i]? = some pc) (pc' : Pc) :
    (st.put i pc').contents + pc.held = st.contents + pc'.held := by
  have h := Tally.total_set Pc.held hw pc'
  simp only [contents, put]
  rw [add_assoc, h, ← add_assoc]

end Stream

namespace Cluster

def emittedOn (s : Cluster) (q : String) : List Item :=
  s.emitted.filterMap fun e => if e.queue = q then some e.item else none

def carried (s : Cluster) (q : String) : Multiset Item :=
  Tally.total (Stream.carried q) s.streams + (s.emittedOn q : Multiset Item)

variable {s : Cluster} {sid : ℕ} {st : Stream}

theorem carried_trade (hst : s.streams[sid]? = some st) (st' : Stream) (hq : st'.queue = st.queue)
    {x y : Multiset Item} (hc : st'.contents + x = st.contents + y) (q : String) :
    (s.update sid st').carried q + onQueue st.queue q x =
      s.carried q + onQueue st.queue q y := by
  have htotal := Tally.total_set (Stream.carried q) hst st'
  have hstream : st'.carried q + onQueue st.queue q x = st.carried q + onQueue st.queue q y := by
    rw [Stream.carried, Stream.carried, hq, ← onQueue_add, ← onQueue_add, hc]
  have hemitted : (s.update sid st').emittedOn q = s.emittedOn q := rfl
  refine add_right_cancel (b := st.carried q) ?_
  rw [carried, carried, hemitted, update]
  calc
    _ = Tally.total (Stream.carried q) (s.streams.set sid st') + st.carried q +
          (s.emittedOn q + onQueue st.queue q x) := by abel
    _ = Tally.total (Stream.carried q) s.streams + s.emittedOn q +
          (st'.carried q + onQueue st.queue q x) := by
      rw [htotal]
      abel
    _ = _ := by
      rw [hstream]
      abel

theorem carried_update (hst : s.streams[sid]? = some st) (st' : Stream)
    (hq : st'.queue = st.queue) (hc : st'.contents = st.contents) (q : String) :
    (s.update sid st').carried q = s.carried q := by
  have h := carried_trade hst st' hq (x := 0) (y := 0) (by rw [hc]) q
  simpa only [onQueue_zero, add_zero] using h

theorem carried_update_le (hst : s.streams[sid]? = some st) (st' : Stream)
    (hq : st'.queue = st.queue) (hc : st'.contents ≤ st.contents) (q : String) :
    (s.update sid st').carried q ≤ s.carried q := by
  obtain ⟨x, hx⟩ := Multiset.le_iff_exists_add.mp hc
  have h := carried_trade hst st' hq (x := x) (y := 0) (by rw [hx, add_zero]) q
  rw [onQueue_zero, add_zero] at h
  rw [← h]
  exact Multiset.le_add_right _ _

theorem carried_put (hst : s.streams[sid]? = some st) {i : ℕ} {pc : Pc}
    (hw : st.workers[i]? = some pc) (pc' : Pc) (hh : pc'.held = pc.held) (q : String) :
    (s.update sid (st.put i pc')).carried q = s.carried q := by
  have h := Stream.contents_put hw pc'
  rw [hh] at h
  exact carried_update hst (st.put i pc') rfl (add_right_cancel h) q

theorem carried_put_le (hst : s.streams[sid]? = some st) {i : ℕ} {pc : Pc}
    (hw : st.workers[i]? = some pc) (pc' : Pc) (hh : pc'.held = 0) (q : String) :
    (s.update sid (st.put i pc')).carried q ≤ s.carried q := by
  have h := Stream.contents_put hw pc'
  rw [hh, add_zero] at h
  refine carried_update_le hst (st.put i pc') rfl ?_ q
  rw [← h]
  exact Multiset.le_add_right _ _

theorem carried_opened (s : Cluster) (queue : String) (client : Bool) (q : String) :
    (s.opened queue client).carried q = s.carried q := by
  have h0 : (Stream.start queue client).carried q = 0 := by
    rw [Stream.carried, Stream.contents_start, onQueue_zero]
  simp [carried, opened, emittedOn, Tally.total_append, h0]

@[simp] theorem carried_abandon (s : Cluster) (queue : String)
    (response : Option QueueResponse) (q : String) :
    (s.abandon queue response).carried q = s.carried q := by
  cases response <;> rfl

@[simp] theorem abandon_log (s : Cluster) (queue : String) (response : Option QueueResponse) :
    (s.abandon queue response).log = s.log := by
  cases response <;> rfl

@[simp] theorem abandon_streams (s : Cluster) (queue : String)
    (response : Option QueueResponse) : (s.abandon queue response).streams = s.streams := by
  cases response <;> rfl

end Cluster

def Linked (streams : List Stream) : Prop :=
  ∀ st ∈ streams, ∀ child, Pc.receiving child ∈ st.workers →
    ∃ ch, streams[child]? = some ch ∧ ch.queue = st.queue

namespace Linked
variable {streams : List Stream} {sid : ℕ} {st st' : Stream}

theorem lookup_set (hst : streams[sid]? = some st) (st' : Stream) (hq : st'.queue = st.queue)
    {child : ℕ} {ch : Stream} (hch : streams[child]? = some ch) :
    ∃ ch', (streams.set sid st')[child]? = some ch' ∧ ch'.queue = ch.queue := by
  by_cases h : sid = child
  · subst h
    rw [hst] at hch
    cases hch
    exact ⟨st', List.getElem?_set_self (List.getElem?_eq_some_iff.mp hst).1, hq⟩
  · exact ⟨ch, by rw [List.getElem?_set_ne h, hch], rfl⟩

theorem set (h : Linked streams) (hst : streams[sid]? = some st) (hq : st'.queue = st.queue)
    (hw : ∀ child, Pc.receiving child ∈ st'.workers → Pc.receiving child ∈ st.workers) :
    Linked (streams.set sid st') := by
  intro x hx child hc
  have hold : ∃ y ∈ streams, Pc.receiving child ∈ y.workers ∧ y.queue = x.queue := by
    rcases List.mem_or_eq_of_mem_set hx with hx | rfl
    · exact ⟨x, hx, hc, rfl⟩
    · exact ⟨st, List.mem_of_getElem? hst, hw child hc, hq.symm⟩
  obtain ⟨y, hy, hcy, hqy⟩ := hold
  obtain ⟨ch, hch, hqch⟩ := h y hy child hcy
  obtain ⟨ch', hch', hqch'⟩ := lookup_set hst st' hq hch
  exact ⟨ch', hch', by rw [hqch', hqch, hqy]⟩

theorem put (h : Linked streams) (hst : streams[sid]? = some st) (i : ℕ) {pc : Pc}
    (hpc : ∀ child, pc ≠ .receiving child) : Linked (streams.set sid (st.put i pc)) := by
  refine h.set hst rfl fun child hc => ?_
  rcases List.mem_or_eq_of_mem_set hc with hc | hc
  · exact hc
  · exact absurd hc.symm (hpc child)

theorem concat_start (h : Linked streams) (queue : String) (client : Bool) :
    Linked (streams ++ [Stream.start queue client]) := by
  intro x hx child hc
  rcases List.mem_append.mp hx with hx | hx
  · obtain ⟨ch, hch, hq⟩ := h x hx child hc
    exact ⟨ch, getElem?_of_isPrefix (List.prefix_append _ _) hch, hq⟩
  · rw [List.mem_singleton.mp hx] at hc
    exact absurd (List.eq_of_mem_replicate hc) (by simp)

theorem accept (h : Linked streams) (hst : streams[sid]? = some st) (i : ℕ) :
    Linked (streams.set sid (st.put i (.receiving streams.length)) ++
      [Stream.start st.queue false]) := by
  have hlen : (streams.set sid (st.put i (.receiving streams.length))).length = streams.length :=
    List.length_set
  intro x hx child hc
  rcases List.mem_append.mp hx with hx | hx
  · have hsid := (List.getElem?_eq_some_iff.mp hst).1
    obtain ⟨y, hy, hcy, hqy⟩ | ⟨rfl, hqx⟩ :
        (∃ y ∈ streams, Pc.receiving child ∈ y.workers ∧ y.queue = x.queue) ∨
          (child = streams.length ∧ x.queue = st.queue) := by
      rcases List.mem_or_eq_of_mem_set hx with hx | rfl
      · exact .inl ⟨x, hx, hc, rfl⟩
      · rcases List.mem_or_eq_of_mem_set hc with hc | hc
        · exact .inl ⟨st, List.mem_of_getElem? hst, hc, rfl⟩
        · cases hc
          exact .inr ⟨rfl, rfl⟩
    · obtain ⟨ch, hch, hqch⟩ := h y hy child hcy
      obtain ⟨ch', hch', hqch'⟩ :=
        lookup_set hst (st.put i (.receiving streams.length)) rfl hch
      exact ⟨ch', getElem?_of_isPrefix (List.prefix_append _ _) hch', by rw [hqch', hqch, hqy]⟩
    · exact ⟨Stream.start st.queue false, by simp, by rw [hqx]; rfl⟩
  · rw [List.mem_singleton.mp hx] at hc
    exact absurd (List.eq_of_mem_replicate hc) (by simp)

end Linked

variable {peers : Map UInt64 String} {s s' : Cluster} {a : Act}

theorem Pc.afterPop_ne (x : Option Item) (child : ℕ) : Pc.afterPop x ≠ .receiving child := by
  cases x <;> simp [Pc.afterPop]

theorem Pc.afterForward_ne (peers : Map UInt64 String) (leaderId : Option UInt64) (child : ℕ) :
    Pc.afterForward peers leaderId ≠ .receiving child := by
  unfold Pc.afterForward
  split <;> simp

theorem Step.linked (h : Step peers s a s') (hl : Linked s.streams) : Linked s'.streams := by
  cases h with
  | publish | rejected | commitInFlight | commitOther => exact hl
  | subscribed h => exact hl.concat_start _ _
  | commit hst | propose hst | sendClosed hst | wake hst | refused hst | broken hst =>
    exact hl.put hst _ (by simp)
  | answer hst | timeout hst => exact hl.put hst _ (Pc.afterPop_ne _)
  | fail hst =>
    rw [Cluster.abandon_streams]
    exact hl.put hst _ (by simp)
  | forwardToLeader hst =>
    rw [Cluster.abandon_streams]
    exact hl.put hst _ (Pc.afterForward_ne _ _)
  | send hst =>
    refine hl.set hst rfl fun child hc => ?_
    rcases List.mem_or_eq_of_mem_set hc with hc | hc
    · exact hc
    · cases hc
  | accept hst => exact hl.accept hst _
  | @receive sid i child st ch item rest hch hwire hst hw =>
    have hl' : Linked (s.update child { ch with wire := rest }).streams :=
      hl.set hch rfl fun _ hc => hc
    exact hl'.put hst i (Pc.afterPop_ne _)
  | emit hst | relay hst | close hst => exact hl.set hst rfl fun _ hc => hc

structure Stream.Kept (st st' : Stream) : Prop where
  queue : st'.queue = st.queue
  client : st'.client = st.client
  closed : st.isOpen = false → st'.isOpen = false
  staffed : st'.workers.length = st.workers.length

theorem Stream.Kept.refl (st : Stream) : st.Kept st := ⟨rfl, rfl, id, rfl⟩

theorem Stream.Kept.trans {st st' st'' : Stream} (h : st.Kept st') (h' : st'.Kept st'') :
    st.Kept st'' :=
  ⟨h'.queue.trans h.queue, h'.client.trans h.client, fun hc => h'.closed (h.closed hc),
    h'.staffed.trans h.staffed⟩

theorem Stream.kept_put (st : Stream) (i : ℕ) (pc : Pc) : st.Kept (st.put i pc) :=
  ⟨rfl, rfl, id, List.length_set⟩

structure Cluster.Evolves (s s' : Cluster) : Prop where
  kept : ∀ (sid : ℕ) (st : Stream), s.streams[sid]? = some st →
    ∃ st', s'.streams[sid]? = some st' ∧ st.Kept st'
  fresh : ∀ (sid : ℕ) (st' : Stream), s'.streams[sid]? = some st' → s.streams[sid]? = none →
    ∃ queue client, (Stream.start queue client).Kept st'

namespace Cluster.Evolves

theorem of_eq (h : s'.streams = s.streams) : s.Evolves s' where
  kept sid st hst := ⟨st, by rw [h, hst], .refl st⟩
  fresh sid st' hst' hst := by
    rw [h, hst] at hst'
    cases hst'

theorem trans {s'' : Cluster} (h : s.Evolves s') (h' : s'.Evolves s'') : s.Evolves s'' where
  kept sid st hst := by
    obtain ⟨st', hst', hk⟩ := h.kept sid st hst
    obtain ⟨st'', hst'', hk'⟩ := h'.kept sid st' hst'
    exact ⟨st'', hst'', hk.trans hk'⟩
  fresh sid st'' hst'' hst := by
    cases hst' : s'.streams[sid]? with
    | none => exact h'.fresh sid st'' hst'' hst'
    | some st' =>
      obtain ⟨queue, client, hk⟩ := h.fresh sid st' hst' hst
      obtain ⟨x, hx, hk'⟩ := h'.kept sid st' hst'
      rw [hst''] at hx
      cases hx
      exact ⟨queue, client, hk.trans hk'⟩

theorem update {k : ℕ} {st : Stream} (hst : s.streams[k]? = some st) (st' : Stream)
    (hk : st.Kept st') : s.Evolves (s.update k st') where
  kept sid x hx := by
    by_cases h : k = sid
    · subst h
      rw [hst] at hx
      cases hx
      exact ⟨st', List.getElem?_set_self (List.getElem?_eq_some_iff.mp hst).1, hk⟩
    · exact ⟨x, (List.getElem?_set_ne h).trans hx, .refl x⟩
  fresh sid x hx hnone := by
    have hlt := (List.getElem?_eq_some_iff.mp hx).1
    rw [Cluster.update, List.length_set] at hlt
    exact absurd hlt (Nat.not_lt.mpr (List.getElem?_eq_none_iff.mp hnone))

theorem put {k : ℕ} {st : Stream} (hst : s.streams[k]? = some st) (i : ℕ) (pc : Pc) :
    s.Evolves (s.update k (st.put i pc)) := update hst _ (st.kept_put i pc)

theorem opened (s : Cluster) (queue : String) (client : Bool) :
    s.Evolves (s.opened queue client) where
  kept sid st hst := ⟨st, getElem?_of_isPrefix (List.prefix_append _ _) hst, .refl st⟩
  fresh sid x hx hnone := by
    rw [Cluster.opened, List.getElem?_append_right (List.getElem?_eq_none_iff.mp hnone)] at hx
    rw [List.mem_singleton.mp (List.mem_of_getElem? hx)]
    exact ⟨queue, client, .refl _⟩

end Cluster.Evolves

theorem Step.evolves (h : Step peers s a s') : s.Evolves s' := by
  cases h with
  | publish | rejected | commitInFlight | commitOther => exact .of_eq rfl
  | subscribed => exact .opened s _ true
  | commit hst => exact (Cluster.Evolves.put hst _ _).trans (.of_eq rfl)
  | propose hst | answer hst | sendClosed hst | wake hst | refused hst | broken hst
    | timeout hst => exact .put hst _ _
  | fail hst | forwardToLeader hst =>
    exact (Cluster.Evolves.put hst _ _).trans (.of_eq (Cluster.abandon_streams _ _ _))
  | send hst => exact .update hst _ ⟨rfl, rfl, id, List.length_set⟩
  | accept hst => exact (Cluster.Evolves.put hst _ _).trans (.opened _ _ _)
  | @receive sid i child st ch item rest hch hwire hst =>
    have hread : s.Evolves (s.update child { ch with wire := rest }) :=
      .update hch _ ⟨rfl, rfl, id, rfl⟩
    exact hread.trans (.put hst _ _)
  | @emit sid st item rest hst =>
    have hpulled : s.Evolves (s.update sid { st with channel := rest }) :=
      .update hst _ ⟨rfl, rfl, id, rfl⟩
    exact hpulled.trans (.of_eq rfl)
  | relay hst => exact .update hst _ ⟨rfl, rfl, id, rfl⟩
  | close hst => exact .update hst _ ⟨rfl, rfl, fun _ => rfl, rfl⟩

/-- Steps that lose nothing: no proposal is given up, no closed channel is written to,
no receiver is dropped, and no pop is committed whose caller has gone. -/
def Lossless (s : Cluster) : Act → Prop
  | .fail _ _ => False
  | .forwardToLeader _ _ _ => False
  | .close _ => False
  | .send sid _ => ∀ st ∈ s.streams[sid]?, st.isOpen = true
  | .commitInFlight k _ => ∀ req ∈ s.inFlight[k]?, ∀ q, req ≠ .pop q
  | _ => True

theorem carried_commit {sid i : ℕ} {st : Stream} {r : QueueResponse}
    (hst : s.streams[sid]? = some st) (hw : st.workers[i]? = some (.proposing none))
    (id : LogId) (q : String) :
    (s.update sid (st.put i (.proposing (some r)))).carried q =
      s.carried q + (CommittedLog.poppedBy q ⟨id, .normal (.pop st.queue)⟩ r : Multiset Item) := by
  have h := Cluster.carried_trade hst (st.put i (.proposing (some r))) rfl
    (Stream.contents_put hw _) q
  rw [show (Pc.proposing none).held = 0 from rfl, onQueue_zero, add_zero] at h
  rw [h, onQueue, CommittedLog.poppedBy]
  by_cases hq : st.queue = q
  · simp [hq, Pc.held]
  · simp [hq]

theorem carried_send {sid i : ℕ} {st : Stream} {item : Item} (hst : s.streams[sid]? = some st)
    (hw : st.workers[i]? = some (.sending item)) (q : String) :
    (s.update sid { st.put i .ready with channel := st.channel ++ [item] }).carried q =
      s.carried q := by
  refine Cluster.carried_update hst { st.put i .ready with channel := st.channel ++ [item] }
    rfl ?_ q
  have hput := Stream.contents_put hw .ready
  simp only [Stream.contents, Stream.put, Pc.held, add_zero] at hput ⊢
  rw [← hput, ← Multiset.coe_add, Multiset.coe_singleton]
  abel

theorem carried_relay {sid : ℕ} {st : Stream} {item : Item} {rest : List Item}
    (hst : s.streams[sid]? = some st) (hchan : st.channel = item :: rest) (q : String) :
    (s.update sid { st with channel := rest, wire := st.wire ++ [item] }).carried q =
      s.carried q := by
  refine Cluster.carried_update hst { st with channel := rest, wire := st.wire ++ [item] }
    rfl ?_ q
  simp only [Stream.contents, hchan]
  rw [← Multiset.coe_add, Multiset.coe_singleton, ← Multiset.cons_coe, ← Multiset.singleton_add]
  abel

theorem carried_emit {sid : ℕ} {st : Stream} {item : Item} {rest : List Item}
    (hst : s.streams[sid]? = some st) (hchan : st.channel = item :: rest) (q : String) :
    Cluster.carried { s.update sid { st with channel := rest } with
      emitted := s.emitted ++ [⟨sid, st.queue, item⟩] } q = s.carried q := by
  have hcont : { st with channel := rest }.contents + {item} = st.contents + 0 := by
    simp only [Stream.contents, hchan]
    rw [← Multiset.cons_coe, ← Multiset.singleton_add]
    abel
  have h := Cluster.carried_trade hst { st with channel := rest } rfl hcont q
  rw [onQueue_zero, add_zero] at h
  rw [← h]
  simp only [Cluster.carried, Cluster.emittedOn, Cluster.update, List.filterMap_append, onQueue,
    ← Multiset.coe_add, add_assoc]
  split <;> simp_all

theorem carried_receive {sid i child : ℕ} {st ch : Stream} {item : Item} {rest : List Item}
    (hl : Linked s.streams) (hch : s.streams[child]? = some ch) (hwire : ch.wire = item :: rest)
    (hst : (s.update child { ch with wire := rest }).streams[sid]? = some st)
    (hw : st.workers[i]? = some (.receiving child)) (q : String) :
    ((s.update child { ch with wire := rest }).update sid
      (st.put i (.afterPop (some item)))).carried q = s.carried q := by
  have hqueue : ch.queue = st.queue := by
    have hl' : Linked (s.update child { ch with wire := rest }).streams :=
      hl.set hch rfl fun _ hc => hc
    obtain ⟨ch', hch', hq⟩ :=
      hl' st (List.mem_of_getElem? hst) child (List.mem_of_getElem? hw)
    have hself : (s.update child { ch with wire := rest }).streams[child]? =
        some { ch with wire := rest } :=
      List.getElem?_set_self (List.getElem?_eq_some_iff.mp hch).1
    rw [hself] at hch'
    cases hch'
    exact hq
  have hcont : { ch with wire := rest }.contents + {item} = ch.contents + 0 := by
    simp only [Stream.contents, hwire]
    rw [← Multiset.cons_coe, ← Multiset.singleton_add]
    abel
  have h1 := Cluster.carried_trade hch { ch with wire := rest } rfl hcont q
  have h2 := Cluster.carried_trade hst (st.put i (.afterPop (some item))) rfl
    (Stream.contents_put hw _) q
  rw [onQueue_zero, add_zero] at h1
  rw [show (Pc.receiving child).held = 0 from rfl, onQueue_zero, add_zero] at h2
  rw [h2, ← h1, hqueue]
  rfl

theorem Step.carried_eq (h : Step peers s a s') (hl : Linked s.streams) (hs : Lossless s a)
    (q : String) :
    s'.carried q + (s.log.popped q : Multiset Item) = s.carried q + s'.log.popped q := by
  cases h with
  | publish | rejected => rfl
  | subscribed h => exact congrArg (· + _) (Cluster.carried_opened s _ _ q)
  | @commit sid i id st log' r hst hw hc =>
    refine (congrArg (· + _) (carried_commit hst hw id q)).trans ?_
    rw [CommittedLog.commit_popped hc q, ← Multiset.coe_add]
    abel
  | commitInFlight hk hc =>
    have hno := hs _ hk
    rw [CommittedLog.commit_popped hc q, CommittedLog.poppedBy, if_neg, List.append_nil]
    · rfl
    · intro heq
      injection heq with heq
      exact hno q heq
  | commitOther he hc =>
    rw [CommittedLog.commit_popped hc q, CommittedLog.poppedBy, if_neg (he _), List.append_nil]
    rfl
  | propose hst hw =>
    exact congrArg (· + _) (Cluster.carried_put hst hw (.proposing none) rfl q)
  | @answer sid i st r hst hw =>
    refine congrArg (· + _) (Cluster.carried_put hst hw _ ?_ q)
    cases hp : r.popped <;> simp [Pc.held, Pc.afterPop, hp]
  | fail => exact hs.elim
  | forwardToLeader => exact hs.elim
  | send hst hw hopen hroom => exact congrArg (· + _) (carried_send hst hw q)
  | sendClosed hst hw hclosed =>
    rw [hs _ hst] at hclosed
    cases hclosed
  | wake hst hw => exact congrArg (· + _) (Cluster.carried_put hst hw .ready rfl q)
  | accept hst hw =>
    exact congrArg (· + _) ((Cluster.carried_opened _ _ _ q).trans
      (Cluster.carried_put hst hw (.receiving s.streams.length) rfl q))
  | refused hst hw => exact congrArg (· + _) (Cluster.carried_put hst hw .sleeping rfl q)
  | broken hst hw => exact congrArg (· + _) (Cluster.carried_put hst hw .sleeping rfl q)
  | receive hch hwire hst hw => exact congrArg (· + _) (carried_receive hl hch hwire hst hw q)
  | timeout hst hw =>
    exact congrArg (· + _) (Cluster.carried_put hst hw (.afterPop none) rfl q)
  | emit hst hclient hchan => exact congrArg (· + _) (carried_emit hst hchan q)
  | relay hst hclient hchan => exact congrArg (· + _) (carried_relay hst hchan q)
  | close => exact hs.elim

theorem Step.carried_le (h : Step peers s a s') (hl : Linked s.streams) (q : String) :
    s'.carried q + (s.log.popped q : Multiset Item) ≤ s.carried q + s'.log.popped q := by
  by_cases hs : Lossless s a
  · exact (h.carried_eq hl hs q).le
  · cases h with
    | publish | subscribed | rejected | commit | commitOther | propose | answer | wake | accept
      | refused | broken | receive | timeout | emit | relay => exact absurd trivial hs
    | commitInFlight hk hc =>
      rw [CommittedLog.commit_popped hc q, ← Multiset.coe_add]
      exact add_le_add le_rfl (Multiset.le_add_right _ _)
    | fail hst hw =>
      rw [Cluster.carried_abandon, Cluster.abandon_log]
      exact add_le_add (Cluster.carried_put_le hst hw .sleeping rfl q) le_rfl
    | @forwardToLeader sid i leaderId st response hst hw =>
      rw [Cluster.carried_abandon, Cluster.abandon_log]
      refine add_le_add (Cluster.carried_put_le hst hw _ ?_ q) le_rfl
      unfold Pc.afterForward
      split <;> rfl
    | send hst hw hopen hroom => exact add_le_add (carried_send hst hw q).le le_rfl
    | sendClosed hst hw hclosed =>
      exact add_le_add (Cluster.carried_put_le hst hw .stopped rfl q) le_rfl
    | @close sid st hst =>
      refine add_le_add (Cluster.carried_update_le hst
        { st with channel := [], isOpen := false } rfl ?_ q) le_rfl
      simp only [Stream.contents]
      exact add_le_add (add_le_add (Multiset.zero_le _) le_rfl) le_rfl

variable {as : List Act}

theorem run_linked (h : Lts.Steps (Step peers) s as s') (hl : Linked s.streams) :
    Linked s'.streams :=
  h.invariant (P := fun s => Linked s.streams) (fun _ _ _ hs hstep => hstep.linked hs) hl

theorem run_carried_le (h : Lts.Steps (Step peers) s as s') (hl : Linked s.streams) (q : String) :
    s'.carried q + (s.log.popped q : Multiset Item) ≤ s.carried q + s'.log.popped q := by
  induction h with
  | nil => exact le_rfl
  | @snoc t u as a hrun hstep ih =>
    have hle := hstep.carried_le (run_linked hrun hl) q
    refine le_of_add_le_add_right (a := t.carried q + (t.log.popped q : Multiset Item)) ?_
    calc
      _ = (u.carried q + t.log.popped q) + (t.carried q + s.log.popped q) := by abel
      _ ≤ (t.carried q + u.log.popped q) + (s.carried q + t.log.popped q) := add_le_add hle ih
      _ = _ := by abel

theorem linked_start : Linked Cluster.start.streams := by
  intro st hst
  cases hst

theorem carried_le_popped (h : Lts.Steps (Step peers) Cluster.start as s) (q : String) :
    s.carried q ≤ s.log.popped q := by
  have hrun := run_carried_le h linked_start q
  have h0 : Cluster.start.log.popped q = [] := rfl
  have h1 : Cluster.start.carried q = 0 := rfl
  rw [h0, h1, zero_add] at hrun
  exact (Multiset.le_add_right _ _).trans hrun

end BlunMq
