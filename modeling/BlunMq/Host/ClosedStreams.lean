import BlunMq.Host.Delivery

/-!
# Pop workers of a stream nobody reads

A worker learns that its stream's receiver is gone only when it has an item to send.
Every other way round the loop ends in a sleep and a new proposal, so a closed stream
goes on popping while its queue is empty and takes up to one message per worker later.
The workers of a forwarded stream know nothing of the stream they pop for, and go on when
that is closed. `Moves` is all that can happen to one worker in one step.
-/

namespace BlunMq

namespace Pc

def Active : Pc → Prop
  | .proposing _ | .dialing _ | .receiving _ | .sending _ => True
  | _ => False

def Past : Pc → Prop
  | .dialing _ | .receiving _ | .sending _ | .stopped => True
  | _ => False

def Rested : Pc → Prop
  | .ready | .sleeping => True
  | _ => False

theorem Past.not_rested {pc : Pc} (h : pc.Past) : ¬ pc.Rested := by
  cases pc with
  | ready | sleeping => exact h.elim
  | _ => exact id

theorem Past.ne_proposing {pc : Pc} (h : pc.Past) (r : Option QueueResponse) :
    pc ≠ .proposing r := by
  rintro rfl
  exact h

theorem afterPop_some (item : Item) : (afterPop (some item)).Past := trivial

theorem afterForward_cases (peers : Map UInt64 String) (leaderId : Option UInt64) :
    afterForward peers leaderId = .sleeping ∨ (afterForward peers leaderId).Past := by
  unfold afterForward
  split
  · exact .inr trivial
  · exact .inl rfl

end Pc

namespace Cluster

def pc (s : Cluster) (sid i : ℕ) : Option Pc := s.streams[sid]?.bind fun st => st.workers[i]?

def Closed (s : Cluster) (sid : ℕ) : Prop :=
  ∃ st, s.streams[sid]? = some st ∧ st.isOpen = false

variable {s : Cluster} {k j sid i : ℕ} {x x' : Stream} {p p' q : Pc}

theorem pc_eq (hst : s.streams[k]? = some x) (hw : x.workers[j]? = some p) :
    s.pc k j = some p := by
  rw [pc, hst]
  exact hw

theorem lookup_update (hst : s.streams[k]? = some x) :
    (s.update k x').streams[sid]? = if sid = k then some x' else s.streams[sid]? := by
  have hlt := (List.getElem?_eq_some_iff.mp hst).1
  by_cases h : sid = k
  · subst h
    rw [if_pos rfl]
    exact List.getElem?_set_self hlt
  · rw [if_neg h]
    exact List.getElem?_set_ne (Ne.symm h)

theorem pc_update (hst : s.streams[k]? = some x) (hw : x'.workers = x.workers) :
    (s.update k x').pc sid i = s.pc sid i := by
  rw [pc, pc, lookup_update hst]
  split
  · rename_i h
    rw [h, hst, Option.bind_some, Option.bind_some, hw]
  · rfl

theorem pc_update_set (hst : s.streams[k]? = some x) (hw : x.workers[j]? = some p)
    (hx' : x'.workers = x.workers.set j p') :
    (s.update k x').pc sid i = if sid = k ∧ i = j then some p' else s.pc sid i := by
  have hlt := (List.getElem?_eq_some_iff.mp hw).1
  rw [pc, pc, lookup_update hst]
  by_cases h : sid = k
  · subst h
    rw [if_pos rfl, hst, Option.bind_some, Option.bind_some, hx']
    by_cases hij : i = j
    · subst hij
      rw [if_pos ⟨rfl, rfl⟩, List.getElem?_set_self hlt]
    · rw [if_neg (fun h => hij h.2), List.getElem?_set_ne (Ne.symm hij)]
  · rw [if_neg h, if_neg (fun h' => h h'.1)]

theorem pc_opened {queue : String} {client : Bool} (h : s.pc sid i = some p) :
    (s.opened queue client).pc sid i = some p := by
  obtain ⟨st, hst, hw⟩ := Option.bind_eq_some_iff.mp h
  have hst' := getElem?_of_isPrefix (List.prefix_append s.streams [Stream.start queue client]) hst
  exact Option.bind_eq_some_iff.mpr ⟨st, hst', hw⟩

theorem pc_abandon (queue : String) (response : Option QueueResponse) :
    (s.abandon queue response).pc sid i = s.pc sid i := by
  rw [pc, abandon_streams]
  rfl

end Cluster

/-- The ways round the loop that end in a sleep: an empty pop, a failed proposal, no
leader to forward to, or a forwarded pop that brought nothing. -/
def FallsAsleep (peers : Map UInt64 String) (s : Cluster) (sid i : ℕ) : Act → Prop
  | .answer k j => k = sid ∧ j = i ∧
      ∃ r, s.pc k j = some (.proposing (some r)) ∧ r.popped = none
  | .fail k j | .rpcError k j | .timeout k j => k = sid ∧ j = i
  | .forwardToLeader k j leaderId => k = sid ∧ j = i ∧ Pc.afterForward peers leaderId = .sleeping
  | _ => False

/-- A worker gets back to where it proposes next. -/
def GoesRound (peers : Map UInt64 String) (s : Cluster) (sid i : ℕ) (a : Act) : Prop :=
  FallsAsleep peers s sid i a ∨ a = .send sid i ∧ ¬ s.Closed sid

inductive Moves (peers : Map UInt64 String) (s : Cluster) (sid i : ℕ) (a : Act) : Pc → Pc → Prop
  | stays (pc : Pc) : Moves peers s sid i a pc pc
  | proposes (h : a = .propose sid i) : Moves peers s sid i a .ready (.proposing none)
  | applied (r : QueueResponse) :
      Moves peers s sid i a (.proposing none) (.proposing (some r))
  | goesOn {pc pc' : Pc} (h : pc.Active) (h' : pc'.Past) : Moves peers s sid i a pc pc'
  | fallsAsleep {pc : Pc} (h : pc.Active) (hf : FallsAsleep peers s sid i a) :
      Moves peers s sid i a pc .sleeping
  | wakes : Moves peers s sid i a .sleeping .ready
  | sent {item : Item} (ha : a = .send sid i) (h : ¬ s.Closed sid) :
      Moves peers s sid i a (.sending item) .ready

variable {peers : Map UInt64 String} {s s' : Cluster} {a : Act} {sid i : ℕ} {pc : Pc}

theorem Moves.put {k j : ℕ} {x x' : Stream} {p p' : Pc} (hpc : s.pc sid i = some pc)
    (hst : s.streams[k]? = some x) (hw : x.workers[j]? = some p)
    (hx' : x'.workers = x.workers.set j p')
    (hm : sid = k → i = j → Moves peers s sid i a p p') :
    ∃ pc', (s.update k x').pc sid i = some pc' ∧ Moves peers s sid i a pc pc' := by
  rw [Cluster.pc_update_set hst hw hx']
  by_cases h : sid = k ∧ i = j
  · obtain ⟨rfl, rfl⟩ := h
    rw [Cluster.pc_eq hst hw] at hpc
    cases hpc
    exact ⟨p', if_pos ⟨rfl, rfl⟩, hm rfl rfl⟩
  · exact ⟨pc, by rw [if_neg h, hpc], .stays pc⟩

theorem Moves.same {k : ℕ} {x x' : Stream} (hpc : s.pc sid i = some pc)
    (hst : s.streams[k]? = some x) (hx' : x'.workers = x.workers) :
    ∃ pc', (s.update k x').pc sid i = some pc' ∧ Moves peers s sid i a pc pc' :=
  ⟨pc, by rw [Cluster.pc_update hst hx', hpc], .stays pc⟩

theorem Step.moves (h : Step peers s a s') (hpc : s.pc sid i = some pc) :
    ∃ pc', s'.pc sid i = some pc' ∧ Moves peers s sid i a pc pc' := by
  cases h with
  | publish | rejected | commitInFlight | commitOther => exact ⟨pc, hpc, .stays pc⟩
  | subscribed => exact ⟨pc, Cluster.pc_opened hpc, .stays pc⟩
  | @commit k j id st log' r hst hw hc =>
    exact Moves.put hpc hst hw rfl fun _ _ => .applied r
  | propose hst hw =>
    exact Moves.put hpc hst hw rfl fun h1 h2 => .proposes (by rw [h1, h2])
  | @answer k j st r hst hw =>
    refine Moves.put hpc hst hw rfl fun h1 h2 => ?_
    cases hr : r.popped with
    | none =>
      exact .fallsAsleep trivial ⟨h1.symm, h2.symm, r, Cluster.pc_eq hst hw, hr⟩
    | some item => exact .goesOn trivial (Pc.afterPop_some item)
  | fail hst hw =>
    rw [Cluster.pc_abandon]
    exact Moves.put hpc hst hw rfl fun h1 h2 => .fallsAsleep trivial ⟨h1.symm, h2.symm⟩
  | @forwardToLeader k j leaderId st response hst hw =>
    rw [Cluster.pc_abandon]
    refine Moves.put hpc hst hw rfl fun h1 h2 => ?_
    rcases Pc.afterForward_cases peers leaderId with hs | hp
    · rw [hs]
      exact .fallsAsleep trivial ⟨h1.symm, h2.symm, hs⟩
    · exact .goesOn trivial hp
  | @send k j st item hst hw hopen hroom =>
    refine Moves.put hpc hst hw rfl fun h1 h2 => .sent (by rw [h1, h2]) ?_
    rintro ⟨x, hx, hclosed⟩
    rw [h1, hst] at hx
    cases hx
    rw [hopen] at hclosed
    cases hclosed
  | sendClosed hst hw hclosed =>
    exact Moves.put hpc hst hw rfl fun _ _ => .goesOn trivial (trivial : Pc.stopped.Past)
  | wake hst hw => exact Moves.put hpc hst hw rfl fun _ _ => .wakes
  | @accept k j st leader hst hw =>
    have hm : ∃ pc', (s.update k (st.put j (.receiving s.streams.length))).pc sid i = some pc' ∧
        Moves peers s sid i (.accept k j) pc pc' :=
      Moves.put hpc hst hw rfl fun _ _ => .goesOn trivial trivial
    obtain ⟨pc', hpc', hm⟩ := hm
    exact ⟨pc', Cluster.pc_opened hpc', hm⟩
  | refused hst hw | broken hst hw =>
    exact Moves.put hpc hst hw rfl fun h1 h2 => .fallsAsleep trivial ⟨h1.symm, h2.symm⟩
  | timeout hst hw =>
    exact Moves.put hpc hst hw rfl fun h1 h2 => .fallsAsleep trivial ⟨h1.symm, h2.symm⟩
  | @receive k j child st ch item rest hch hwire hst hw =>
    -- taking the item off the wire moves no worker
    have hsame : (s.update child { ch with wire := rest }).pc sid i = s.pc sid i :=
      Cluster.pc_update hch rfl
    have hpc' := hsame.trans hpc
    have hlookup : ((s.update child { ch with wire := rest }).update k
        (st.put j (.afterPop (some item)))).pc sid i = _ := Cluster.pc_update_set hst hw rfl
    rw [hlookup]
    by_cases h : sid = k ∧ i = j
    · obtain ⟨rfl, rfl⟩ := h
      rw [Cluster.pc_eq hst hw] at hpc'
      cases hpc'
      exact ⟨_, if_pos ⟨rfl, rfl⟩, .goesOn trivial (Pc.afterPop_some item)⟩
    · exact ⟨pc, by rw [if_neg h, hpc'], .stays pc⟩
  | emit hst | relay hst | close hst => exact Moves.same hpc hst rfl

theorem Step.closed (h : Step peers s a s') (hc : s.Closed sid) : s'.Closed sid := by
  obtain ⟨st, hst, hclosed⟩ := hc
  obtain ⟨st', hst', hk⟩ := h.evolves.kept sid st hst
  exact ⟨st', hst', hk.closed hclosed⟩

def Staffed (s : Cluster) : Prop := ∀ st ∈ s.streams, st.workers.length = POP_CONCURRENCY

theorem Step.staffed (h : Step peers s a s') (hs : Staffed s) : Staffed s' := by
  intro st' hmem
  obtain ⟨sid, hst'⟩ := List.mem_iff_getElem?.mp hmem
  cases hst : s.streams[sid]? with
  | none =>
    obtain ⟨queue, client, hk⟩ := h.evolves.fresh sid st' hst' hst
    exact hk.staffed.trans List.length_replicate
  | some st =>
    obtain ⟨x, hx, hk⟩ := h.evolves.kept sid st hst
    rw [hst'] at hx
    cases hx
    exact hk.staffed.trans (hs st (List.mem_of_getElem? hst))

theorem Staffed.lt (hs : Staffed s) (h : s.pc sid i = some pc) : i < POP_CONCURRENCY := by
  obtain ⟨st, hst, hw⟩ := Option.bind_eq_some_iff.mp h
  rw [← hs st (List.mem_of_getElem? hst)]
  exact (List.getElem?_eq_some_iff.mp hw).1

theorem Step.propose_pc (h : Step peers s (.propose sid i) s') :
    s.pc sid i = some .ready ∧ s'.pc sid i = some (.proposing none) := by
  cases h with
  | propose hst hw =>
    refine ⟨Cluster.pc_eq hst hw, ?_⟩
    rw [Cluster.pc_update_set hst hw rfl, if_pos ⟨rfl, rfl⟩]

theorem Step.commit_pc {id : LogId} (h : Step peers s (.commit sid i id) s') :
    s.pc sid i = some (.proposing none) := by
  cases h with
  | commit hst hw hc => exact Cluster.pc_eq hst hw

theorem Step.close_closed (h : Step peers s (.close sid) s') : s'.Closed sid := by
  cases h with
  | close hst => exact ⟨_, by rw [Cluster.lookup_update hst, if_pos rfl], rfl⟩

namespace Act

def closes (sid : ℕ) : Act → Bool
  | .close k => k == sid
  | _ => false

def sinceClose (sid : ℕ) (as : List Act) : List Act := as.dropWhile fun a => !a.closes sid

/-- The stream a step opens, as the workers it pops for, given those of the streams there are.
`pop_via_forward` opens a stream for a worker, and so for all that this one pops for. -/
def opens (streams : List (List (ℕ × ℕ))) : Act → List (List (ℕ × ℕ))
  | .consume first =>
    match BlunMq.consume first with
    | .ok _ => [[]]
    | .error _ => []
  | .accept k j => [(k, j) :: streams[k]?.getD []]
  | _ => []

def opened (as : List Act) : List (List (ℕ × ℕ)) :=
  as.foldl (fun streams a => streams ++ opens streams a) []

def origins (as : List Act) (k : ℕ) : List (ℕ × ℕ) := (opened as)[k]?.getD []

/-- Stream `k` was opened for a worker of stream `sid`, directly or over several hops. -/
def PopsFor (as : List Act) (k sid : ℕ) : Prop := ∃ x ∈ origins as k, x.1 = sid

def proposes (sid i : ℕ) : Act → Bool
  | .propose k j => k == sid && j == i
  | _ => false

/-- The proposal is one of worker `i` itself, or of a stream that pops for it. -/
def causedBy (origins : ℕ → List (ℕ × ℕ)) (sid i : ℕ) : Act → Bool
  | .propose k j => k == sid && j == i || (origins k).contains (sid, i)
  | _ => false

def ownSince (sid i : ℕ) (as : List Act) : ℕ := (sinceClose sid as).countP (proposes sid i)

def proposalsSince (sid i : ℕ) (as : List Act) : ℕ :=
  (sinceClose sid as).countP (causedBy (origins as) sid i)

theorem eq_propose {a : Act} (h : a.proposes sid i = true) : a = .propose sid i := by
  cases a <;> simp_all [proposes]

theorem eq_close {a : Act} (h : a.closes sid = true) : a = .close sid := by
  cases a <;> simp_all [closes]

theorem ownSince_concat (sid i : ℕ) (as : List Act) (a : Act) :
    ownSince sid i (as ++ [a]) = ownSince sid i as +
      if sinceClose sid as ≠ [] ∧ a.proposes sid i = true then 1 else 0 := by
  rw [ownSince, ownSince, sinceClose, sinceClose, List.dropWhile_append]
  cases h : as.dropWhile fun a => !a.closes sid with
  | nil =>
    cases hc : a.closes sid with
    | false => simp [hc]
    | true => simp [eq_close hc, closes, proposes]
  | cons b bs =>
    simp only [List.isEmpty_cons, Bool.false_eq_true, if_false, List.countP_append,
      List.countP_cons, List.countP_nil, ne_eq, reduceCtorEq, not_false_eq_true, true_and,
      Nat.zero_add]

theorem sinceClose_concat_ne_nil {as : List Act} {a : Act} :
    sinceClose sid (as ++ [a]) ≠ [] ↔ sinceClose sid as ≠ [] ∨ a = .close sid := by
  rw [sinceClose, sinceClose, List.dropWhile_append]
  cases h : as.dropWhile fun a => !a.closes sid with
  | nil =>
    cases hc : a.closes sid with
    | false =>
      have hne : a ≠ .close sid := by
        rintro rfl
        simp [closes] at hc
      simp [hc, hne]
    | true => simp [eq_close hc, closes]
  | cons b bs => simp

theorem mem_sinceClose_concat {as : List Act} {a b : Act} (h : b ∈ sinceClose sid (as ++ [a])) :
    b ∈ sinceClose sid as ∨ b = a ∧ (sinceClose sid as ≠ [] ∨ a = .close sid) := by
  have hne : sinceClose sid as ≠ [] ∨ a = .close sid :=
    sinceClose_concat_ne_nil.mp (List.ne_nil_of_mem h)
  rw [sinceClose, List.dropWhile_append] at h
  split at h
  · have hmem := (List.dropWhile_sublist _).subset h
    exact .inr ⟨List.mem_singleton.mp hmem, hne⟩
  · rcases List.mem_append.mp h with h | h
    · exact .inl h
    · exact .inr ⟨List.mem_singleton.mp h, hne⟩

theorem opened_concat (as : List Act) (a : Act) :
    opened (as ++ [a]) = opened as ++ opens (opened as) a := List.foldl_append

theorem origins_concat {as : List Act} {k : ℕ} (h : k < (opened as).length) (a : Act) :
    origins (as ++ [a]) k = origins as k := by
  rw [origins, origins, opened_concat, List.getElem?_append_left h]

theorem popsFor_concat {as : List Act} {k : ℕ} (h : k < (opened as).length) (a : Act) :
    PopsFor (as ++ [a]) k sid ↔ PopsFor as k sid := by
  rw [PopsFor, PopsFor, origins_concat h]

theorem popsFor_new {as : List Act} {k : ℕ} {a : Act} (hk : (opened as).length ≤ k)
    (h : PopsFor (as ++ [a]) k sid) :
    ∃ parent j, a = .accept parent j ∧ (parent = sid ∨ PopsFor as parent sid) := by
  obtain ⟨x, hx, rfl⟩ := h
  rw [origins, opened_concat, List.getElem?_append_right hk] at hx
  cases hget : (opens (opened as) a)[k - (opened as).length]? with
  | none =>
    rw [hget] at hx
    cases hx
  | some ys =>
    rw [hget, Option.getD_some] at hx
    have hys := List.mem_of_getElem? hget
    cases a with
    | consume first =>
      simp only [opens] at hys
      split at hys
      · cases List.mem_singleton.mp hys
        cases hx
      · cases hys
    | accept parent j =>
      cases List.mem_singleton.mp hys
      rcases List.mem_cons.mp hx with rfl | hx
      · exact ⟨parent, j, rfl, .inl rfl⟩
      · exact ⟨parent, j, rfl, .inr ⟨x, hx, rfl⟩⟩
    | _ => cases hys

end Act

def Recorded (peers : Map UInt64 String) (w : List Act × Cluster) (a : Act)
    (w' : List Act × Cluster) : Prop :=
  Step peers w.2 a w'.2 ∧ w'.1 = w.1 ++ [a]

/-- No worker that has proposed since its stream was closed falls asleep again. Whatever pops
for a stream is in the middle of a round when that is closed, and does not get back to the start
of one; nor is another stream opened for it. -/
structure StopsInTime (peers : Map UInt64 String) (w : List Act × Cluster) (a : Act) : Prop where
  awake : ∀ sid i, FallsAsleep peers w.2 sid i a → Act.ownSince sid i w.1 = 0
  underway : ∀ sid k j pc, a = .close sid → Act.PopsFor w.1 k sid → w.2.pc k j = some pc →
    ¬ pc.Rested
  onward : ∀ sid k j, GoesRound peers w.2 k j a → Act.PopsFor w.1 k sid →
    Act.sinceClose sid w.1 = []
  unopened : ∀ sid k j, a = .accept k j → k = sid ∨ Act.PopsFor w.1 k sid →
    Act.sinceClose sid w.1 = []

def StoppingStep (peers : Map UInt64 String) (w : List Act × Cluster) (a : Act)
    (w' : List Act × Cluster) : Prop :=
  Recorded peers w a w' ∧ StopsInTime peers w a

/-- Every worker of the closed stream has stopped or has had its one further proposal
answered, one way or another, and nothing that pops for the stream waits for an answer. -/
structure Spent (w : List Act × Cluster) (sid : ℕ) : Prop where
  closed : Act.sinceClose sid w.1 ≠ []
  workers : ∀ i < POP_CONCURRENCY, ∃ pc, w.2.pc sid i = some pc ∧
    (pc = .stopped ∨ 0 < Act.ownSince sid i w.1 ∧ pc ≠ .proposing none)
  nested : ∀ k j, Act.PopsFor w.1 k sid → w.2.pc k j ≠ some (.proposing none)

structure Drains (w : List Act × Cluster) : Prop where
  staffed : Staffed w.2
  opened : (Act.opened w.1).length = w.2.streams.length
  known : ∀ k j, .propose k j ∈ w.1 → k < w.2.streams.length
  underway : ∀ sid k j pc, Act.sinceClose sid w.1 ≠ [] → Act.PopsFor w.1 k sid →
    w.2.pc k j = some pc → ¬ pc.Rested
  idle : ∀ sid k j, .propose k j ∈ Act.sinceClose sid w.1 → ¬ Act.PopsFor w.1 k sid
  closed : ∀ sid, Act.sinceClose sid w.1 ≠ [] → w.2.Closed sid
  once : ∀ sid i, Act.ownSince sid i w.1 ≤ 1
  busy : ∀ sid i, 0 < Act.ownSince sid i w.1 →
    ∃ pc, w.2.pc sid i = some pc ∧ ¬ pc.Rested
  workers : ∀ sid i, .propose sid i ∈ w.1 → i < POP_CONCURRENCY

variable {w w' : List Act × Cluster}

theorem Step.length_opens (h : Step peers s a s') (streams : List (List (ℕ × ℕ))) :
    s.streams.length + (Act.opens streams a).length = s'.streams.length := by
  cases h with
  | subscribed hq => simp [Act.opens, hq, Cluster.opened]
  | rejected hq => simp [Act.opens, hq]
  | accept hst => simp [Act.opens, Cluster.opened, Cluster.update]
  | fail hst | forwardToLeader hst => simp [Act.opens, Cluster.update]
  | publish | commitInFlight | commitOther => rfl
  | commit hst | propose hst | answer hst | send hst | sendClosed hst | wake hst | refused hst
    | broken hst | receive hst | timeout hst | emit hst | relay hst | close hst =>
    simp [Act.opens, Cluster.update]

theorem Step.propose_lt (h : Step peers s (.propose sid i) s') : sid < s.streams.length := by
  cases h with
  | propose hst hw => exact (List.getElem?_eq_some_iff.mp hst).1

theorem Drains.ownSince_step (h : Drains w) (hr : Recorded peers w a w') (sid i : ℕ) :
    Act.ownSince sid i w'.1 = Act.ownSince sid i w.1 ∨
      a = .propose sid i ∧ Act.ownSince sid i w.1 = 0 ∧
        Act.ownSince sid i w'.1 = 1 := by
  obtain ⟨hs, hw⟩ := hr
  rw [hw, Act.ownSince_concat]
  split
  · rename_i hc
    have ha := Act.eq_propose hc.2
    subst ha
    have hzero : Act.ownSince sid i w.1 = 0 := by
      by_contra hne
      obtain ⟨pc, hpc, hrest⟩ := h.busy sid i (Nat.pos_of_ne_zero hne)
      rw [hs.propose_pc.1] at hpc
      cases hpc
      exact hrest trivial
    exact .inr ⟨rfl, hzero, by rw [hzero]⟩
  · exact .inl rfl

theorem Staffed.exists_pc (hs : Staffed s) {k j : ℕ} (hk : k < s.streams.length)
    (hj : j < POP_CONCURRENCY) : ∃ pc, s.pc k j = some pc := by
  have hst := List.getElem?_eq_getElem hk
  rw [← hs _ (List.mem_of_getElem? hst)] at hj
  exact ⟨_, Cluster.pc_eq hst (List.getElem?_eq_getElem hj)⟩

theorem not_rested_step (hrest : ¬ pc.Rested) {pc' : Pc} (hround : ¬ GoesRound peers s sid i a)
    (hm : Moves peers s sid i a pc pc') : ¬ pc'.Rested := by
  cases hm with
  | stays => exact hrest
  | proposes | wakes => exact absurd trivial hrest
  | applied => exact id
  | goesOn _ h => exact h.not_rested
  | fallsAsleep _ hf => exact absurd (.inl hf) hround
  | sent ha h => exact absurd (.inr ⟨ha, h⟩) hround

theorem Drains.underway_step (h : Drains w) (hstep : StoppingStep peers w a w') {k j : ℕ}
    (hclosed : Act.sinceClose sid w'.1 ≠ []) (hk : Act.PopsFor w'.1 k sid)
    (hpc' : w'.2.pc k j = some pc) : ¬ pc.Rested := by
  obtain ⟨⟨hs, hw⟩, hstop⟩ := hstep
  rw [hw, Act.sinceClose_concat_ne_nil] at hclosed
  rw [hw] at hk
  by_cases hlt : k < w.2.streams.length
  · rw [Act.popsFor_concat (h.opened ▸ hlt)] at hk
    obtain ⟨pc₀, hpc⟩ := h.staffed.exists_pc hlt ((hs.staffed h.staffed).lt hpc')
    obtain ⟨pc₁, hpc₁, hm⟩ := hs.moves hpc
    cases hpc'.symm.trans hpc₁
    rcases hclosed with hclosed | rfl
    · exact not_rested_step (h.underway sid k j pc₀ hclosed hk hpc)
        (fun hround => hclosed (hstop.onward sid k j hround hk)) hm
    · refine not_rested_step (hstop.underway sid k j pc₀ rfl hk hpc) ?_ hm
      rintro (hf | ⟨ha, -⟩)
      · exact hf
      · cases ha
  · -- the stream has just been opened, and so not for a closed one
    obtain ⟨parent, i, rfl, hparent⟩ := Act.popsFor_new (h.opened ▸ Nat.le_of_not_lt hlt) hk
    rcases hclosed with hclosed | ha
    · exact absurd (hstop.unopened sid parent i rfl hparent) hclosed
    · cases ha

theorem Drains.idle_step (h : Drains w) {k j : ℕ} (hs : Step peers w.2 (.propose k j) s')
    (hk : Act.PopsFor w.1 k sid) : Act.sinceClose sid w.1 = [] := by
  by_contra hclosed
  exact h.underway sid k j .ready hclosed hk hs.propose_pc.1 trivial

theorem Drains.step (h : Drains w) (hstep : StoppingStep peers w a w') : Drains w' := by
  obtain ⟨hr, hstop⟩ := hstep
  obtain ⟨hs, hw⟩ := hr
  have hlength := hs.length_opens (Act.opened w.1)
  have hknown : ∀ k j, .propose k j ∈ w'.1 → k < w.2.streams.length := by
    intro k j hmem
    rw [hw, List.mem_append, List.mem_singleton] at hmem
    rcases hmem with hmem | rfl
    · exact h.known k j hmem
    · exact hs.propose_lt
  refine ⟨hs.staffed h.staffed, ?_, fun k j hmem => ?_, fun sid k j pc => ?_,
    fun sid k j hmem hk => ?_, ?_, ?_, ?_, ?_⟩
  · rw [hw, Act.opened_concat, List.length_append, h.opened, hlength]
  · exact (hknown k j hmem).trans_le (hlength ▸ Nat.le_add_right _ _)
  · exact h.underway_step ⟨⟨hs, hw⟩, hstop⟩
  · have hlt := hknown k j ((List.dropWhile_sublist _).subset hmem)
    rw [hw] at hmem hk
    rw [Act.popsFor_concat (h.opened ▸ hlt)] at hk
    rcases Act.mem_sinceClose_concat hmem with hmem | ⟨rfl, hclosed⟩
    · exact h.idle sid k j hmem hk
    · rcases hclosed with hclosed | ha
      · exact hclosed (h.idle_step hs hk)
      · cases ha
  · intro sid hne
    rw [hw, Act.sinceClose_concat_ne_nil] at hne
    rcases hne with hne | rfl
    · exact hs.closed (h.closed sid hne)
    · exact hs.close_closed
  · intro sid i
    rcases h.ownSince_step ⟨hs, hw⟩ sid i with heq | ⟨-, -, heq⟩
    · rw [heq]
      exact h.once sid i
    · rw [heq]
  · intro sid i hpos
    rcases h.ownSince_step ⟨hs, hw⟩ sid i with heq | ⟨rfl, -, -⟩
    · rw [heq] at hpos
      obtain ⟨pc, hpc, hrest⟩ := h.busy sid i hpos
      obtain ⟨pc', hpc', hm⟩ := hs.moves hpc
      have hclosed : w.2.Closed sid := h.closed sid fun hnil => by
        rw [Act.ownSince, hnil] at hpos
        exact absurd hpos (lt_irrefl 0)
      refine ⟨pc', hpc', not_rested_step hrest ?_ hm⟩
      rintro (hf | ⟨-, hopen⟩)
      · exact hpos.ne' (hstop.awake sid i hf)
      · exact hopen hclosed
    · exact ⟨_, hs.propose_pc.2, id⟩
  · intro sid i hmem
    rw [hw, List.mem_append, List.mem_singleton] at hmem
    rcases hmem with hmem | rfl
    · exact h.workers sid i hmem
    · exact h.staffed.lt hs.propose_pc.1

theorem Moves.of_stopped {pc' : Pc} (hm : Moves peers s sid i a .stopped pc') : pc' = .stopped := by
  cases hm with
  | stays => rfl
  | goesOn h => exact h.elim
  | fallsAsleep h => exact h.elim

theorem answered_step (hrest : ¬ pc.Rested) (hne : pc ≠ .proposing none)
    {pc' : Pc} (hm : Moves peers s sid i a pc pc') : pc' ≠ .proposing none := by
  cases hm with
  | stays => exact hne
  | proposes => exact absurd trivial hrest
  | applied => exact absurd rfl hne
  | goesOn _ h => exact h.ne_proposing none
  | fallsAsleep | wakes | sent => simp

theorem Step.fresh_pc (h : Step peers s a s') {k j : ℕ} (hk : s.streams[k]? = none)
    (hpc : s'.pc k j = some pc) : pc = .ready := by
  have hready : ∀ {t : Cluster} {queue : String} {client : Bool}, t.streams[k]? = none →
      (t.opened queue client).pc k j = some pc → pc = .ready := by
    intro t queue client ht hpc
    rw [Cluster.pc, Cluster.opened, List.getElem?_append_right (List.getElem?_eq_none_iff.mp ht),
      List.getElem?_singleton] at hpc
    split at hpc
    · exact List.eq_of_mem_replicate (List.mem_of_getElem? hpc)
    · cases hpc
  have hsame : s'.streams.length = s.streams.length → pc = .ready := by
    intro hlen
    rw [List.getElem?_eq_none_iff, ← hlen, ← List.getElem?_eq_none_iff] at hk
    rw [Cluster.pc, hk] at hpc
    cases hpc
  cases h with
  | subscribed => exact hready hk hpc
  | accept hst =>
    refine hready ?_ hpc
    rwa [List.getElem?_eq_none_iff, Cluster.update, List.length_set, ← List.getElem?_eq_none_iff]
  | publish | rejected | commitInFlight | commitOther => exact hsame rfl
  | fail hst | forwardToLeader hst => exact hsame (by simp [Cluster.update])
  | commit hst | propose hst | answer hst | send hst | sendClosed hst | wake hst | refused hst
    | broken hst | receive hst | timeout hst | emit hst | relay hst | close hst =>
    exact hsame (by simp [Cluster.update])

theorem Spent.nested_step (h : Spent w sid) (hd : Drains w) (hstep : StoppingStep peers w a w')
    {k : ℕ} (hk : Act.PopsFor w'.1 k sid) (j : ℕ) : w'.2.pc k j ≠ some (.proposing none) := by
  obtain ⟨⟨hs, hw⟩, hstop⟩ := hstep
  intro hpc'
  cases hst : w.2.streams[k]? with
  | none => cases hs.fresh_pc hst hpc'
  | some st =>
    have hlt := (List.getElem?_eq_some_iff.mp hst).1
    rw [hw, Act.popsFor_concat (hd.opened ▸ hlt)] at hk
    obtain ⟨pc, hpc⟩ := hd.staffed.exists_pc hlt ((hs.staffed hd.staffed).lt hpc')
    obtain ⟨pc', hpc'', hm⟩ := hs.moves hpc
    cases hpc'.symm.trans hpc''
    cases hm with
    | stays => exact h.nested k j hk hpc
    | proposes ha =>
      subst ha
      exact h.closed (hd.idle_step hs hk)
    | goesOn _ hp => exact hp.ne_proposing none rfl

theorem Spent.step (h : Spent w sid) (hd : Drains w) (hstep : StoppingStep peers w a w') :
    Spent w' sid ∧ ∀ k j id, a = .commit k j id → k < w.2.streams.length ∧ k ≠ sid ∧
      ¬ Act.PopsFor w.1 k sid := by
  obtain ⟨hr, hstop⟩ := id hstep
  obtain ⟨hs, hw⟩ := id hr
  refine ⟨⟨?_, fun i hi => ?_, fun k j hk => h.nested_step hd hstep hk j⟩, ?_⟩
  · rw [hw, Act.sinceClose_concat_ne_nil]
    exact .inl h.closed
  · obtain ⟨pc, hpc, hdone⟩ := h.workers i hi
    obtain ⟨pc', hpc', hm⟩ := hs.moves hpc
    refine ⟨pc', hpc', ?_⟩
    rcases hdone with rfl | ⟨hpos, hnp⟩
    · exact .inl hm.of_stopped
    · right
      obtain ⟨pc₀, hpc₀, hrest⟩ := hd.busy sid i hpos
      rw [hpc] at hpc₀
      cases hpc₀
      refine ⟨?_, answered_step hrest hnp hm⟩
      rcases hd.ownSince_step hr sid i with heq | ⟨-, hzero, -⟩
      · rwa [heq]
      · exact absurd hzero hpos.ne'
  · rintro k j id rfl
    have hpc := hs.commit_pc
    obtain ⟨st, hst, -⟩ := Option.bind_eq_some_iff.mp hpc
    refine ⟨(List.getElem?_eq_some_iff.mp hst).1, ?_, fun hk => h.nested k j hk hpc⟩
    rintro rfl
    obtain ⟨pc, hpc', hdone⟩ := h.workers j (hd.staffed.lt hpc)
    rw [hpc] at hpc'
    cases hpc'
    rcases hdone with h | ⟨-, h⟩
    · cases h
    · exact h rfl

theorem asleep_proposes_again (hpc : s.pc sid i = some .sleeping) :
    ∃ s', Lts.Steps (Step peers) s [.wake sid i, .propose sid i] s' := by
  obtain ⟨st, hst, hw⟩ := Option.bind_eq_some_iff.mp hpc
  have hlt := (List.getElem?_eq_some_iff.mp hw).1
  have hawake : (s.update sid (st.put i .ready)).streams[sid]? = some (st.put i .ready) := by
    rw [Cluster.lookup_update hst, if_pos rfl]
  have hready : (st.put i .ready).workers[i]? = some .ready := List.getElem?_set_self hlt
  exact ⟨_, .cons (.wake hst hw) (.single (.propose hawake hready))⟩

def oneNode : Map UInt64 String := (∅ : Map UInt64 String).insert 1 "http://node1"

/-- The worker of the closed stream never sleeps: the stream opened for it proposes twice. -/
theorem closed_stream_forwards_on :
    let as : List Act := [.consume (some (.ok (some (.subscribe "spam")))), .propose 0 0,
      .close 0, .forwardToLeader 0 0 (some 1), .accept 0 0, .propose 1 0, .propose 1 1]
    ∃ s, Lts.Steps (Step oneNode) Cluster.start as s ∧ Act.proposalsSince 0 0 as = 2 :=
  ⟨_, .cons (.subscribed rfl) (.cons (.propose rfl rfl) (.cons (.close rfl) (.cons
    (.forwardToLeader rfl rfl) (.cons (.accept rfl (show _ = some (Pc.dialing 1) by decide +kernel))
    (.cons (.propose rfl rfl) (.single (.propose rfl rfl))))))), rfl⟩

namespace StoppingStep
variable {as : List Act} {k j : ℕ} {st : Stream}

theorem of (h : Step peers s a s') (hawake : ∀ sid i, ¬ FallsAsleep peers s sid i a)
    (hsend : ∀ sid i, a ≠ .send sid i) (hclose : ∀ sid, a ≠ .close sid)
    (haccept : ∀ sid i, a ≠ .accept sid i) :
    StoppingStep peers (as, s) a (as ++ [a], s') := by
  refine ⟨⟨h, rfl⟩, fun sid i hf => absurd hf (hawake sid i),
    fun sid _ _ _ ha => absurd ha (hclose sid), ?_, fun _ k j ha => absurd ha (haccept k j)⟩
  rintro _ k j (hf | ⟨ha, -⟩)
  · exact absurd hf (hawake k j)
  · exact absurd ha (hsend k j)

theorem propose (h : Step peers s (.propose k j) s') :
    StoppingStep peers (as, s) (.propose k j) (as ++ [.propose k j], s') :=
  .of h (fun _ _ hf => hf) (fun _ _ ha => by cases ha) (fun _ ha => by cases ha)
    fun _ _ ha => by cases ha

theorem sendClosed {item : Item} (hst : s.streams[k]? = some st)
    (hw : st.workers[j]? = some (.sending item)) (hclosed : st.isOpen = false) :
    StoppingStep peers (as, s) (.send k j)
      (as ++ [.send k j], s.update k (st.put j .stopped)) := by
  refine ⟨⟨.sendClosed hst hw hclosed, rfl⟩, nofun, nofun, ?_, nofun⟩
  rintro _ k j (hf | ⟨ha, hopen⟩)
  · exact hf.elim
  · cases ha
    exact absurd ⟨st, hst, hclosed⟩ hopen

theorem close (hst : s.streams[k]? = some st)
    (hunderway : ∀ c i pc, Act.PopsFor as c k → s.pc c i = some pc → ¬ pc.Rested) :
    StoppingStep peers (as, s) (.close k)
      (as ++ [.close k], s.update k { st with channel := [], isOpen := false }) := by
  refine ⟨⟨.close hst, rfl⟩, nofun, ?_, ?_, nofun⟩
  · rintro _ c i pc ⟨⟩
    exact hunderway c i pc
  · rintro _ c i (hf | ⟨ha, -⟩)
    · exact hf.elim
    · cases ha

theorem accept {leader : UInt64} (hst : s.streams[k]? = some st)
    (hw : st.workers[j]? = some (.dialing leader))
    (hopen : ∀ sid, k = sid ∨ Act.PopsFor as k sid → Act.sinceClose sid as = []) :
    StoppingStep peers (as, s) (.accept k j) (as ++ [.accept k j],
      (s.update k (st.put j (.receiving s.streams.length))).opened st.queue false) := by
  refine ⟨⟨.accept hst hw, rfl⟩, nofun, nofun, ?_, ?_⟩
  · rintro _ c i (hf | ⟨ha, -⟩)
    · exact hf.elim
    · cases ha
  · rintro sid _ _ ⟨⟩ h
    exact hopen sid h

end StoppingStep

/-- The pop of a worker is forwarded, and all workers of the stream opened for it propose. -/
def forwarding : List Act :=
  [.publish "spam" [7], .publish "spam" [8], .commitInFlight 0 ⟨⟨1, 1⟩, 0⟩,
    .commitInFlight 0 ⟨⟨1, 1⟩, 1⟩, .consume (some (.ok (some (.subscribe "spam")))), .propose 0 0,
    .forwardToLeader 0 0 (some 1), .accept 0 0] ++ (List.range 32).map (.propose 1)

end BlunMq
