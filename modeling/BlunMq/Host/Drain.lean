import BlunMq.Host.Conservation

/-!
# A stream can always be drained

Errors, timeouts, disconnects and elections may have left the workers of a stream anywhere
in their loop. As long as the client has not closed it, the stream is not stuck: its own
tasks, the leader and the client can go on until everything in the stream and in its queue
has reached the client.
-/

namespace BlunMq
namespace Drain

/-- `k` log indices are left. -/
def Room (log : CommittedLog QueueRequest) (k : ℕ) : Prop :=
  ∃ n, n + k ≤ 2 ^ 64 ∧ ∀ e ∈ log.entries, e.logId.index.toNat < n

theorem Room.mono {log : CommittedLog QueueRequest} {k k' : ℕ} (h : Room log k) (hk : k' ≤ k) :
    Room log k' := by
  obtain ⟨n, hn, hlt⟩ := h
  exact ⟨n, by omega, hlt⟩

theorem Room.commit_pop {log : CommittedLog QueueRequest} {k : ℕ} (h : Room log (k + 1))
    (queue : String) :
    ∃ id log' r, log.commit ⟨id, .normal (.pop queue)⟩ = some (log', r) ∧ Room log' k ∧
      r.popped = (log.waiting queue).head? ∧ log'.waiting queue = (log.waiting queue).tail := by
  obtain ⟨n, hn, hlt⟩ := h
  have hindex : (UInt64.ofNat n).toNat = n := 
    UInt64.toNat_ofNat_of_lt' (show n < 2 ^ 64 by omega)
  let e : Entry QueueRequest := ⟨⟨⟨1, 1⟩, UInt64.ofNat n⟩, .normal (.pop queue)⟩
  have hfresh : ∀ x ∈ log.entries, x.logId.index < e.logId.index := by
    intro x hx
    rw [UInt64.lt_iff_toNat_lt, hindex]
    exact hlt x hx
  have hc := CommittedLog.commit_of_lt hfresh
  obtain ⟨htail, hhead⟩ := log.state.getD_pop queue queue
  refine ⟨_, _, _, hc, ⟨n + 1, by omega, fun x hx => ?_⟩, ?_, ?_⟩
  · rw [CommittedLog.commit_entries hc] at hx
    rcases List.mem_append.mp hx with hx | hx
    · exact (hlt x hx).trans (Nat.lt_succ_self n)
    · rw [List.mem_singleton.mp hx, hindex]
      exact Nat.lt_succ_self n
  · rw [(CommittedLog.commit_normal hc).1]
    exact hhead
  · rw [CommittedLog.waiting, CommittedLog.commit_state hc, htail, if_pos rfl]
    rfl

def pending : Pc → ℕ
  | .proposing none => 1
  | _ => 0

def toGo : Pc → ℕ
  | .ready | .stopped => 0
  | .sleeping => 1
  | .dialing _ | .receiving _ | .sending _ => 2
  | .proposing (some _) => 3
  | .proposing none => 4

def left (s : Cluster) (st : Stream) : ℕ :=
  Tally.total toGo st.workers + st.channel.length + 4 * (s.log.waiting st.queue).length

structure Attended (sid : ℕ) (s : Cluster) (st : Stream) : Prop where
  here : s.streams[sid]? = some st
  client : st.client = true
  isOpen : st.isOpen = true
  wire : st.wire = []
  staffed : st.workers.length = POP_CONCURRENCY
  running : Pc.stopped ∉ st.workers

structure Drainable (sid : ℕ) (s : Cluster) (st : Stream) : Prop extends Attended sid s st where
  room : Room s.log (Tally.total pending st.workers + (s.log.waiting st.queue).length)

/-- Steps of the workers of stream `sid`, of the leader that answers them, and of the
client that reads. -/
def By (sid : ℕ) : Act → Prop
  | .propose k _ | .commit k _ _ | .answer k _ | .send k _ | .wake k _ | .rpcError k _
  | .timeout k _ | .pull k => k = sid
  | _ => False

variable {peers : Map UInt64 String} {sid i : ℕ} {s s' : Cluster} {st st' : Stream} {pc pc' : Pc}

structure Served (peers : Map UInt64 String) (sid : ℕ) (s : Cluster) (st : Stream)
    (out : List Item) (s' : Cluster) (st' : Stream) : Prop where
  steps : ∃ as, Lts.Steps (Step peers) s as s' ∧ ∀ a ∈ as, By sid a
  queue : st'.queue = st.queue
  emitted : s'.emitted = s.emitted ++ out.map (Emission.mk sid st.queue)
  account : (out : Multiset Item) + (st'.contents + s'.log.waiting st.queue) =
    st.contents + s.log.waiting st.queue

namespace Served

theorem refl (peers : Map UInt64 String) (sid : ℕ) (s : Cluster) (st : Stream) :
    Served peers sid s st [] s st where
  steps := ⟨[], .nil s, fun _ ha => by cases ha⟩
  queue := rfl
  emitted := (List.append_nil _).symm
  account := zero_add _

theorem trans {out out' : List Item} {s'' : Cluster} {st'' : Stream}
    (h : Served peers sid s st out s' st') (h' : Served peers sid s' st' out' s'' st'') :
    Served peers sid s st (out ++ out') s'' st'' := by
  obtain ⟨as, hrun, hby⟩ := h.steps
  obtain ⟨as', hrun', hby'⟩ := h'.steps
  have hacc := h.account
  have hacc' := h'.account
  have hemit := h'.emitted
  rw [h.queue] at hacc' hemit
  constructor
  · exact ⟨as ++ as', hrun.trans hrun', fun a ha => (List.mem_append.mp ha).elim (hby a) (hby' a)⟩
  · exact h'.queue.trans h.queue
  · rw [hemit, h.emitted, List.map_append, List.append_assoc]
  · rw [← hacc, ← hacc', ← Multiset.coe_add]
    abel

theorem quiet {a : Act} (hstep : Step peers s a s') (hby : By sid a) (hq : st'.queue = st.queue)
    (he : s'.emitted = s.emitted)
    (hc : st'.contents + s'.log.waiting st.queue = st.contents + s.log.waiting st.queue) :
    Served peers sid s st [] s' st' where
  steps := ⟨[a], .single hstep, fun _ hb => by rw [List.mem_singleton.mp hb]; exact hby⟩
  queue := hq
  emitted := by rw [he, List.map_nil, List.append_nil]
  account := by rw [hc, Multiset.coe_nil, zero_add]

end Served

theorem Attended.put (h : Attended sid s st) (hpc' : pc' ≠ .stopped) :
    Attended sid (s.update sid (st.put i pc')) (st.put i pc') where
  here := List.getElem?_set_self (List.getElem?_eq_some_iff.mp h.here).1
  client := h.client
  isOpen := h.isOpen
  wire := h.wire
  staffed := List.length_set.trans h.staffed
  running hmem := by
    rcases List.mem_or_eq_of_mem_set hmem with hmem | heq
    · exact h.running hmem
    · exact hpc' heq.symm

theorem left_put (sid : ℕ) (s : Cluster) (hw : st.workers[i]? = some pc) (pc' : Pc) :
    left (s.update sid (st.put i pc')) (st.put i pc') + toGo pc = left s st + toGo pc' := by
  have htotal := Tally.total_set toGo hw pc'
  change Tally.total toGo (st.workers.set i pc') + st.channel.length +
    4 * (s.log.waiting st.queue).length + toGo pc = _
  rw [left]
  omega

def Progress (peers : Map UInt64 String) (sid : ℕ) (s : Cluster) (st : Stream) : Prop :=
  ∃ out s' st', Served peers sid s st out s' st' ∧ Drainable sid s' st' ∧ left s' st' < left s st

theorem Drainable.advance (h : Drainable sid s st) (hw : st.workers[i]? = some pc) {a : Act}
    (hstep : Step peers s a (s.update sid (st.put i pc'))) (hby : By sid a)
    (hpc' : pc' ≠ .stopped) (hp : pending pc' ≤ pending pc) (hheld : pc'.held = pc.held)
    (hlt : toGo pc' < toGo pc) : Progress peers sid s st := by
  have hcont := Stream.contents_put hw pc'
  rw [hheld] at hcont
  have hleft := left_put sid s hw pc'
  have htotal := Tally.total_set pending hw pc'
  refine ⟨[], s.update sid (st.put i pc'), st.put i pc', .quiet hstep hby rfl rfl ?_,
    ⟨h.put hpc', h.room.mono ?_⟩, by omega⟩
  · rw [add_right_cancel hcont]
    rfl
  · change Tally.total pending (st.workers.set i pc') + (s.log.waiting st.queue).length ≤ _
    omega

theorem head_add_tail (l : List Item) : (l.head?.toList : Multiset Item) + l.tail = l := by
  cases l with
  | nil => rfl
  | cons x l => rfl

theorem Attended.commit {k : ℕ} (h : Attended sid s st)
    (hw : st.workers[i]? = some (.proposing none)) (hroom : Room s.log (k + 1)) :
    ∃ s' r, let st' := st.put i (.proposing (some r))
      Served peers sid s st [] s' st' ∧ Attended sid s' st' ∧ Room s'.log k ∧
        s'.log.waiting st.queue = (s.log.waiting st.queue).tail := by
  obtain ⟨id, log', r, hc, hroom', hhead, htail⟩ := hroom.commit_pop st.queue
  have hput : Attended sid _ (st.put i (.proposing (some r))) := h.put (by simp)
  refine ⟨{ s.update sid (st.put i (.proposing (some r))) with log := log' }, r,
    .quiet (.commit h.here hw hc) rfl rfl rfl ?_, ⟨hput.here, hput.client, hput.isOpen, hput.wire,
      hput.staffed, hput.running⟩, hroom', htail⟩
  have hcont : (st.put i (.proposing (some r))).contents = st.contents + r.popped.toList :=
    (add_zero _).symm.trans (Stream.contents_put hw (.proposing (some r)))
  have hsplit := head_add_tail (s.log.waiting st.queue)
  rw [← htail, ← hhead] at hsplit
  rw [← hsplit, ← add_assoc]
  exact congrArg (· + _) hcont

theorem Drainable.send {item : Item} (h : Drainable sid s st)
    (hw : st.workers[i]? = some (.sending item)) (hchan : st.channel = []) :
    Progress peers sid s st := by
  have hput : Attended sid _ (st.put i .ready) := h.put (by simp)
  have hcap : st.channel.length < CHANNEL_CAPACITY := by simp [hchan, CHANNEL_CAPACITY,
    POP_CONCURRENCY]
  have hcont := Stream.contents_put hw .ready
  have hleft := left_put sid s hw .ready
  have htotal := Tally.total_set pending hw .ready
  let st' : Stream := { st.put i .ready with channel := st.channel ++ [item] }
  refine ⟨[], s.update sid st', st', .quiet (.send h.here hw h.isOpen hcap) rfl rfl rfl ?_,
    ⟨⟨?_, hput.client, hput.isOpen, hput.wire, hput.staffed, hput.running⟩, h.room.mono ?_⟩, ?_⟩
  · have hkeep : st'.contents = st.contents := by
      rw [show (Pc.ready).held = 0 from rfl, add_zero] at hcont
      rw [← hcont]
      simp only [st', Stream.contents, Stream.put, Pc.held]
      rw [← Multiset.coe_add, Multiset.coe_singleton]
      abel
    rw [hkeep]
    rfl
  · exact List.getElem?_set_self (List.getElem?_eq_some_iff.mp h.here).1
  · change Tally.total pending (st.workers.set i .ready) + (s.log.waiting st.queue).length ≤ _
    exact Nat.add_le_add_right (Nat.le_of_eq htotal) _
  · have hlength : left (s.update sid st') st' =
        left (s.update sid (st.put i .ready)) (st.put i .ready) + 1 := by
      change Tally.total toGo (st.workers.set i .ready) + (st.channel ++ [item]).length +
        4 * (s.log.waiting st.queue).length = Tally.total toGo (st.workers.set i .ready) +
          st.channel.length + 4 * (s.log.waiting st.queue).length + 1
      rw [List.length_append, List.length_singleton]
      omega
    rw [hlength]
    simp only [toGo] at hleft
    omega

theorem Drainable.pull {item : Item} {rest : List Item} (h : Drainable sid s st)
    (hchan : st.channel = item :: rest) : Progress peers sid s st := by
  have hcont : ({ st with channel := rest } : Stream).contents + {item} = st.contents := by
    simp only [Stream.contents, hchan]
    rw [← Multiset.cons_coe, ← Multiset.singleton_add]
    abel
  refine ⟨[item], { s.update sid { st with channel := rest } with
    emitted := s.emitted ++ [⟨sid, st.queue, item⟩] }, { st with channel := rest }, ?_,
    ⟨⟨?_, h.client, h.isOpen, h.wire, h.staffed, h.running⟩, h.room⟩, ?_⟩
  · refine ⟨⟨[.pull sid], .single (.emit h.here h.client hchan), ?_⟩, rfl, rfl, ?_⟩
    · intro a ha
      rw [List.mem_singleton.mp ha]
      rfl
    · rw [← hcont, Multiset.coe_singleton]
      change {item} + (_ + (s.log.waiting st.queue : Multiset Item)) = _
      abel
  · exact List.getElem?_set_self (List.getElem?_eq_some_iff.mp h.here).1
  · change Tally.total toGo st.workers + rest.length + 4 * (s.log.waiting st.queue).length < _
    rw [left, hchan, List.length_cons]
    omega

theorem Drainable.worker (h : Drainable sid s st) (hchan : st.channel = [])
    (hw : st.workers[i]? = some pc) (hpc : 0 < toGo pc) : Progress peers sid s st := by
  cases pc with
  | ready | stopped => exact absurd hpc (lt_irrefl 0)
  | sleeping => exact h.advance hw (.wake h.here hw) rfl (by simp) le_rfl rfl Nat.zero_lt_one
  | dialing leader =>
    exact h.advance hw (.refused h.here hw) rfl (by simp) le_rfl rfl (Nat.lt_succ_self 1)
  | receiving child =>
    exact h.advance hw (.timeout h.here hw) rfl (by simp [Pc.afterPop]) le_rfl rfl
      (Nat.lt_succ_self 1)
  | sending item => exact h.send hw hchan
  | proposing response =>
    cases response with
    | none =>
      have htotal := fun pc' => Tally.total_set pending hw pc'
      have hroom : Room s.log (Tally.total pending st.workers +
          (s.log.waiting st.queue).length - 1 + 1) := by
        refine h.room.mono ?_
        have h0 := htotal .ready
        simp only [pending] at h0
        omega
      obtain ⟨s', r, hserved, hattended, hroom', htail⟩ := h.commit hw hroom
      have hpending := htotal (.proposing (some r))
      have hgo := Tally.total_set toGo hw (.proposing (some r))
      have hlength : (s'.log.waiting st.queue).length ≤ (s.log.waiting st.queue).length := by
        rw [htail, List.length_tail]
        exact Nat.sub_le _ 1
      refine ⟨[], s', st.put i (.proposing (some r)), hserved, ⟨hattended, hroom'.mono ?_⟩, ?_⟩
      · change Tally.total pending (st.workers.set i _) + (s'.log.waiting st.queue).length ≤ _
        simp only [pending] at hpending
        omega
      · change Tally.total toGo (st.workers.set i _) + st.channel.length +
          4 * (s'.log.waiting st.queue).length < _
        simp only [toGo] at hgo
        rw [left]
        omega
    | some r =>
      have hstep : Step peers s _ _ := .answer h.here hw
      refine h.advance hw hstep rfl (Pc.afterPop_ne_stopped _) ?_ ?_ ?_
      · cases r.popped <;> exact le_rfl
      · cases hpop : r.popped <;> simp [Pc.held, Pc.afterPop, hpop]
      · cases r.popped <;> simp [Pc.afterPop, toGo]

theorem Drainable.pop (h : Drainable sid s st) (hw : st.workers[i]? = some .ready)
    (hwaiting : 0 < (s.log.waiting st.queue).length) : Progress peers sid s st := by
  let s₁ := s.update sid (st.put i (.proposing none))
  let st₁ := st.put i (.proposing none)
  have hfirst : Served peers sid s st [] s₁ st₁ := by
    refine .quiet (.propose h.here hw) rfl rfl rfl ?_
    have hcont : st₁.contents + 0 = st.contents + 0 := Stream.contents_put hw (.proposing none)
    rw [add_right_cancel hcont]
    rfl
  have hattended : Attended sid s₁ st₁ := h.put (by simp)
  have hw₁ : st₁.workers[i]? = some (.proposing none) :=
    List.getElem?_set_self (List.getElem?_eq_some_iff.mp hw).1
  have hroom : Room s₁.log (Tally.total pending st.workers +
      (s.log.waiting st.queue).length - 1 + 1) := by
    refine h.room.mono ?_
    omega
  obtain ⟨s', r, hserved, hattended', hroom', htail⟩ := hattended.commit hw₁ hroom
  have hlength : (s'.log.waiting st.queue).length + 1 = (s.log.waiting st.queue).length := by
    have hcut : s'.log.waiting st.queue = (s.log.waiting st.queue).tail := htail
    rw [hcut, List.length_tail]
    omega
  have hpending := Tally.total_set pending hw (.proposing none)
  have hpending₁ := Tally.total_set pending hw₁ (.proposing (some r))
  have hgo := Tally.total_set toGo hw (.proposing none)
  have hgo₁ := Tally.total_set toGo hw₁ (.proposing (some r))
  change _ = Tally.total pending (st.workers.set i _) + _ at hpending₁
  change _ = Tally.total toGo (st.workers.set i _) + _ at hgo₁
  simp only [pending] at hpending hpending₁
  simp only [toGo] at hgo hgo₁
  refine ⟨[], s', st₁.put i (.proposing (some r)), hfirst.trans hserved,
    ⟨hattended', hroom'.mono ?_⟩, ?_⟩
  · change Tally.total pending (st₁.workers.set i _) + (s'.log.waiting st.queue).length ≤ _
    omega
  · change Tally.total toGo (st₁.workers.set i _) + st.channel.length +
      4 * (s'.log.waiting st.queue).length < _
    rw [left]
    omega

theorem Drainable.progress (h : Drainable sid s st) (hleft : 0 < left s st) :
    Progress peers sid s st := by
  cases hchan : st.channel with
  | cons item rest => exact h.pull hchan
  | nil =>
    by_cases hbusy : ∃ (i : ℕ) (pc : Pc), st.workers[i]? = some pc ∧ 0 < toGo pc
    · obtain ⟨i, pc, hw, hpc⟩ := hbusy
      exact h.worker hchan hw hpc
    · -- every worker is at the start of its loop: the next message is for the first
      have hidle : ∀ (i : ℕ) (pc : Pc), st.workers[i]? = some pc → toGo pc = 0 :=
        fun i pc hw => Nat.eq_zero_of_not_pos fun hpos => hbusy ⟨i, pc, hw, hpos⟩
      obtain ⟨pc, hw⟩ : ∃ pc, st.workers[0]? = some pc := by
        refine ⟨_, List.getElem?_eq_getElem ?_⟩
        rw [h.staffed]
        decide
      have hready : pc = .ready := by
        have hzero := hidle 0 pc hw
        have hne : pc ≠ .stopped := fun heq => h.running (heq ▸ List.mem_of_getElem? hw)
        cases pc with
        | ready => rfl
        | stopped => exact absurd rfl hne
        | sleeping | dialing | receiving | sending => cases hzero
        | proposing response => cases response <;> cases hzero
      have htotal : Tally.total toGo st.workers = 0 := by
        refine Tally.total_eq_zero fun pc hmem => ?_
        obtain ⟨i, hi⟩ := List.mem_iff_getElem?.mp hmem
        exact hidle i pc hi
      rw [left, htotal, hchan, List.length_nil] at hleft
      exact h.pop (hready ▸ hw) (by omega)

theorem Drainable.done (h : Drainable sid s st) (hleft : left s st = 0) :
    st.contents = 0 ∧ s.log.waiting st.queue = [] := by
  rw [left] at hleft
  have htotal : Tally.total toGo st.workers = 0 := by omega
  have hchan : st.channel = [] := List.eq_nil_of_length_eq_zero (by omega)
  refine ⟨?_, List.eq_nil_of_length_eq_zero (by omega)⟩
  have hheld : Tally.total Pc.held st.workers = 0 := by
    refine Tally.total_eq_zero fun pc hmem => ?_
    have hzero := Tally.eq_zero_of_total htotal pc hmem
    cases pc with
    | proposing response => cases response <;> cases hzero
    | sending => cases hzero
    | ready | dialing | receiving | sleeping | stopped => rfl
  rw [Stream.contents, hchan, h.wire, hheld]
  rfl

theorem Drainable.drain (peers : Map UInt64 String) (h : Drainable sid s st) :
    ∃ out s' st', Served peers sid s st out s' st' ∧ Drainable sid s' st' ∧ left s' st' = 0 := by
  let Reaches (x y : Cluster × Stream) := ∃ out, Served peers sid x.1 x.2 out y.1 y.2
  obtain ⟨⟨s', st'⟩, ⟨out, hserved⟩, h', hdone⟩ := Lts.reach_zero (T := Reaches)
    (P := fun x => Drainable sid x.1 x.2) (fun x => left x.1 x.2)
    (fun x => ⟨[], .refl peers sid x.1 x.2⟩)
    (fun _ _ _ ⟨out, hxy⟩ ⟨out', hyz⟩ => ⟨out ++ out', hxy.trans hyz⟩)
    (fun x hx hpos => by
      obtain ⟨out, s', st', hserved, h', hlt⟩ := hx.progress hpos
      exact ⟨(s', st'), ⟨out, hserved⟩, h', hlt⟩) (s, st) h
  exact ⟨out, s', st', hserved, h', hdone⟩

def Unwired (streams : List Stream) : Prop := ∀ st ∈ streams, st.client = true → st.wire = []

theorem Unwired.set {streams : List Stream} (h : Unwired streams)
    (hst' : st'.client = true → st'.wire = []) (sid : ℕ) : Unwired (streams.set sid st') := by
  intro x hx hclient
  rcases List.mem_or_eq_of_mem_set hx with hx | rfl
  · exact h x hx hclient
  · exact hst' hclient

theorem Unwired.same {streams : List Stream} (h : Unwired streams)
    (hst : streams[sid]? = some st) (hc : st'.client = st.client) (hw : st'.wire = st.wire) :
    Unwired (streams.set sid st') := by
  refine h.set (fun hclient => ?_) sid
  rw [hw]
  exact h st (List.mem_of_getElem? hst) (hc ▸ hclient)

theorem Unwired.concat_start {streams : List Stream} (h : Unwired streams) (queue : String)
    (client : Bool) : Unwired (streams ++ [Stream.start queue client]) := by
  intro x hx hclient
  rcases List.mem_append.mp hx with hx | hx
  · exact h x hx hclient
  · rw [List.mem_singleton.mp hx]
    rfl

theorem Unwired.step {a : Act} (h : Unwired s.streams) (hstep : Step peers s a s') :
    Unwired s'.streams := by
  cases hstep with
  | publish | rejected | commitInFlight | commitOther => exact h
  | subscribed => exact h.concat_start _ _
  | commit hst | propose hst | answer hst | sendClosed hst | wake hst | refused hst | broken hst
    | timeout hst => exact h.same hst rfl rfl
  | fail hst | forwardToLeader hst =>
    rw [Cluster.abandon_streams]
    exact h.same hst rfl rfl
  | send hst => exact h.same hst rfl rfl
  | @accept sid i st leader hst =>
    have hput : Unwired (s.update sid (st.put i (.receiving s.streams.length))).streams :=
      h.same hst rfl rfl
    exact hput.concat_start _ _
  | @receive sid i child st ch item rest hch hwire hst =>
    have hread : Unwired (s.update child { ch with wire := rest }).streams := by
      refine h.set (fun hclient => ?_) child
      have hnil := h ch (List.mem_of_getElem? hch) hclient
      rw [hwire] at hnil
      cases hnil
    exact hread.same hst rfl rfl
  | emit hst | close hst => exact h.same hst rfl rfl
  | relay hst hclient =>
    refine h.set (fun htrue => ?_) _
    cases hclient.symm.trans htrue

theorem Unwired.run {as : List Act} (h : Lts.Steps (Step peers) Cluster.start as s) :
    Unwired s.streams :=
  h.invariant (P := fun s => Unwired s.streams) (fun _ _ _ hs hstep => hs.step hstep)
    fun _ hx => by cases hx

theorem attended_run {as : List Act} (h : Lts.Steps (Step peers) Cluster.start as s)
    (hst : s.streams[sid]? = some st) (hclient : st.client = true) (hopen : st.isOpen = true) :
    Attended sid s st := by
  obtain ⟨lost, haudit⟩ := audit_of_steps h
  have hbooks := (booked_run haudit).books sid st hst
  refine ⟨hst, hclient, hopen, Unwired.run h st (List.mem_of_getElem? hst) hclient,
    hbooks.staffed, fun hmem => ?_⟩
  have hzero := Tally.eq_zero_of_total (hbooks.whileOpen hopen).1 .stopped hmem
  exact absurd hzero (by simp)

theorem stream_drains {as : List Act} (h : Lts.Steps (Step peers) Cluster.start as s)
    (hst : s.streams[sid]? = some st) (hclient : st.client = true) (hopen : st.isOpen = true)
    (hroom : Room s.log (POP_CONCURRENCY + (s.log.waiting st.queue).length)) :
    ∃ (as' : List Act) (s' : Cluster) (st' : Stream) (out : List Item),
      Lts.Steps (Step peers) s as' s' ∧ (∀ a ∈ as', By sid a) ∧
      s'.streams[sid]? = some st' ∧ st'.isOpen = true ∧ st'.contents = 0 ∧
      s'.log.waiting st.queue = [] ∧
      s'.emitted = s.emitted ++ out.map (Emission.mk sid st.queue) ∧
      (out : Multiset Item) = st.contents + s.log.waiting st.queue := by
  have hattended := attended_run h hst hclient hopen
  have hpending : Tally.total pending st.workers ≤ POP_CONCURRENCY := by
    rw [← hattended.staffed]
    refine Tally.total_le_length fun pc _ => ?_
    cases pc with
    | proposing response =>
      cases response with
      | none => exact le_rfl
      | some r => exact Nat.zero_le 1
    | _ => exact Nat.zero_le 1
  have hdrainable : Drainable sid s st := ⟨hattended, hroom.mono (by omega)⟩
  obtain ⟨out, s', st', hserved, h', hdone⟩ := hdrainable.drain peers
  obtain ⟨as', hrun, hby⟩ := hserved.steps
  obtain ⟨hcontents, hwaiting⟩ := h'.done hdone
  rw [hserved.queue] at hwaiting
  have haccount := hserved.account
  rw [hcontents, hwaiting, Multiset.coe_nil, add_zero, add_zero] at haccount
  exact ⟨as', s', st', out, hrun, hby, h'.here, h'.isOpen, hcontents, hwaiting, hserved.emitted,
    haccount⟩

def interrupted : List Act :=
  [.publish "spam" [7], .publish "spam" [8], .commitInFlight 0 ⟨⟨1, 1⟩, 0⟩,
    .commitInFlight 0 ⟨⟨1, 1⟩, 1⟩, .consume (some (.ok (some (.subscribe "spam")))), .propose 0 0,
    .commit 0 0 ⟨⟨1, 1⟩, 2⟩, .fail 0 0, .propose 0 1, .forwardToLeader 0 1 (some 9)]

theorem stream_drains_interrupted :
    ∃ s as' s', Lts.Steps (Step ∅) Cluster.start interrupted s ∧
      Lts.Steps (Step ∅) s as' s' ∧ (∀ a ∈ as', By 0 a) ∧
      s'.emitted = [⟨0, "spam", (1, [8])⟩] := by
  obtain ⟨s, st, hrun, hst, hclient, hopen, hqueue, hemitted, hroom, hcarried⟩ :
      ∃ s st, Lts.Steps (Step ∅) Cluster.start interrupted s ∧
      s.streams[0]? = some st ∧ st.client = true ∧ st.isOpen = true ∧ st.queue = "spam" ∧
      s.emitted = [] ∧ (∀ e ∈ s.log.entries, e.logId.index.toNat < 3) ∧
      st.contents = 0 ∧ s.log.waiting st.queue = [(1, [8])] :=
    ⟨_, _, .cons (.publish _ _ _) (.cons (.publish _ _ _) (.cons
      (.commitInFlight rfl
        (CommittedLog.commit_of_lt (by simp [Cluster.start, CommittedLog.empty])))
      (.cons (.commitInFlight rfl (CommittedLog.commit_of_lt (by decide +kernel))) (.cons
      (.subscribed rfl) (.cons (.propose rfl rfl) (.cons
      (.commit rfl rfl (CommittedLog.commit_of_lt (by decide +kernel))) (.cons (.fail rfl rfl)
      (.cons (.propose rfl rfl) (.single (.forwardToLeader rfl rfl)))))))))),
      rfl, rfl, rfl, rfl, rfl, by decide +kernel, by decide +kernel, by decide +kernel⟩
  obtain ⟨hcontents, hwaiting⟩ := hcarried
  obtain ⟨as', s', -, out, hrun', hby, -, -, -, -, hout, haccount⟩ :=
    stream_drains hrun hst hclient hopen ⟨3, by rw [hwaiting]; decide, hroom⟩
  rw [hcontents, hwaiting, zero_add, Multiset.coe_eq_coe, List.perm_singleton] at haccount
  rw [haccount, hemitted, hqueue] at hout
  exact ⟨s, as', s', hrun, hrun', hby, hout⟩

end Drain
end BlunMq
