import BlunMq.Lib.Fifo
import BlunMq.Raft.Types

/-!
# The replicated queue state

`QueueState.apply` is the deterministic core of the queue group. Its two maps
are updated by separate code in the two requests; over any run they represent a
bank of FIFO queues in which a message's offset is the number of messages
published to its queue before it.
-/

namespace BlunMq

structure QueueState where
  queues : Map String (List (UInt64 × Bytes))
  nextOffset : Map String UInt64
  deriving DecidableEq

namespace QueueState

def default : QueueState := ⟨∅, ∅⟩

def depths (s : QueueState) : Map String UInt64 :=
  s.queues.map fun _ q => UInt64.ofNat q.length

/-- The offset counter is incremented unchecked; a release build wraps at `2^64`. -/
def apply (s : QueueState) : QueueRequest → QueueState × QueueResponse
  | .publish queue payload =>
    let offset := s.nextOffset.getD queue 0
    ({ queues := s.queues.insert queue (s.queues.getD queue [] ++ [(offset, payload)])
       nextOffset := s.nextOffset.insert queue (offset + 1) },
      { publishedOffset := some offset, popped := none })
  | .pop queue =>
    match s.queues[queue]? with
    | some (front :: rest) =>
      ({ s with queues := s.queues.insert queue rest },
        { publishedOffset := none, popped := some front })
    | some [] => (s, { publishedOffset := none, popped := none })
    | none => (s, { publishedOffset := none, popped := none })

@[ext] theorem ext_lookup {s t : QueueState} (hq : ∀ q : String, s.queues[q]? = t.queues[q]?)
    (hn : ∀ q : String, s.nextOffset[q]? = t.nextOffset[q]?) : s = t := by
  cases s
  cases t
  congr
  · exact Std.ExtTreeMap.ext_getElem? hq
  · exact Std.ExtTreeMap.ext_getElem? hn

theorem apply_pop_nil {s : QueueState} {queue : String} (h : s.queues.getD queue [] = []) :
    s.apply (.pop queue) = (s, ⟨none, none⟩) := by
  rw [Std.ExtTreeMap.getD_eq_getD_getElem?] at h
  simp only [apply]
  split
  · rename_i hq
    simp [hq] at h
  · rfl
  · rfl

theorem apply_pop_cons {s : QueueState} {queue : String} {front : UInt64 × Bytes}
    {rest : List (UInt64 × Bytes)} (h : s.queues.getD queue [] = front :: rest) :
    s.apply (.pop queue) =
      ({ s with queues := s.queues.insert queue rest }, ⟨none, some front⟩) := by
  rw [Std.ExtTreeMap.getD_eq_getD_getElem?] at h
  cases hq : s.queues[queue]? with
  | none => simp [hq] at h
  | some xs =>
    have hxs : xs = front :: rest := by simpa [hq] using h
    simp only [apply, hq, hxs]

def toItem (x : ℕ × Bytes) : UInt64 × Bytes := (UInt64.ofNat x.1, x.2)

def toRequest : QueueRequest → Fifo.Request String Bytes
  | .publish queue payload => .push queue payload
  | .pop queue => .pop queue

def toResponse : Fifo.Answer Bytes → QueueResponse
  | .pushed n => { publishedOffset := some (UInt64.ofNat n), popped := none }
  | .popped r => { publishedOffset := none, popped := r.map toItem }

def entry {α : Type} (f : Fifo Bytes) (a : α) : Option α :=
  if f.pushed = [] then none else some a

/-- The representation: waiting messages under their offsets, and a counter equal
to the number of messages ever published. -/
structure Represents (s : QueueState) (b : Fifo.Bank String Bytes) : Prop where
  queues : ∀ q, s.queues[q]? = entry (b q) ((b q).waiting.map toItem)
  nextOffset : ∀ q, s.nextOffset[q]? = entry (b q) (UInt64.ofNat (b q).pushed.length)

theorem represents_default : Represents default Fifo.Bank.start := by
  constructor <;> intro q <;> simp [default, entry, Fifo.Bank.start, Fifo.empty]

theorem getD_entry {α : Type} (f : Fifo Bytes) (a d : α) (h : f.pushed = [] → a = d) :
    (entry f a).getD d = a := by
  unfold entry
  split
  · rename_i he
    exact (h he).symm
  · rfl

theorem Represents.getD_queues {s : QueueState} {b : Fifo.Bank String Bytes}
    (h : Represents s b) (q : String) :
    s.queues.getD q [] = (b q).waiting.map toItem := by
  rw [Std.ExtTreeMap.getD_eq_getD_getElem?, h.queues]
  apply getD_entry
  intro he
  simp [Fifo.waiting, Fifo.numbered, he]

theorem Represents.getD_nextOffset {s : QueueState} {b : Fifo.Bank String Bytes}
    (h : Represents s b) (q : String) :
    s.nextOffset.getD q 0 = UInt64.ofNat (b q).pushed.length := by
  rw [Std.ExtTreeMap.getD_eq_getD_getElem?, h.nextOffset]
  apply getD_entry
  intro he
  simp [he]

theorem represents_publish {s : QueueState} {b : Fifo.Bank String Bytes}
    (h : Represents s b) (queue : String) (payload : Bytes) :
    Represents (s.apply (.publish queue payload)).1
      (Function.update b queue ((b queue).push payload)) := by
  constructor <;> intro q <;> by_cases hq : queue = q
  · subst hq
    simp [apply, h.getD_queues, h.getD_nextOffset, entry, Fifo.waiting_push, toItem]
  · simp [apply, Map.getElem?_insert, h.queues, hq, Ne.symm hq]
  · subst hq
    simp [apply, h.getD_nextOffset, entry]
  · simp [apply, Map.getElem?_insert, h.nextOffset, hq, Ne.symm hq]

theorem represents_pop {s : QueueState} {b : Fifo.Bank String Bytes}
    (h : Represents s b) (queue : String) :
    Represents (s.apply (.pop queue)).1 (Function.update b queue (b queue).pop.1) ∧
      (s.apply (.pop queue)).2 = ⟨none, (b queue).pop.2.map toItem⟩ := by
  obtain ⟨hout, hrest⟩ := (b queue).pop_waiting
  have hs := h.getD_queues queue
  rw [hout]
  by_cases hlt : (b queue).taken < (b queue).pushed.length
  · -- A message is waiting: both sides hand out the head and keep the tail.
    have hne : (b queue).pushed ≠ [] := by
      intro he
      simp [he] at hlt
    have hw := (b queue).waiting_of_lt hlt
    rw [hw, List.map_cons] at hs
    rw [apply_pop_cons hs]
    refine ⟨⟨fun q => ?_, fun q => ?_⟩, by simp [hw]⟩ <;> by_cases hq : queue = q
    · subst hq
      simp [entry, hne, hrest, hw]
    · simp [Map.getElem?_insert, h.queues, hq, Ne.symm hq]
    · subst hq
      simp [h.nextOffset, entry]
    · simp [h.nextOffset, Ne.symm hq]
  · -- Nothing is waiting: the queue is absent or drained and neither side moves.
    have hw := (b queue).waiting_of_not_lt hlt
    have hb : Function.update b queue (b queue).pop.1 = b := by
      rw [Fifo.pop_of_not_lt _ hlt]
      exact Function.update_eq_self queue b
    rw [hw, List.map_nil] at hs
    rw [hb, apply_pop_nil hs, hw]
    exact ⟨h, rfl⟩

theorem apply_represents (s : QueueState) (b : Fifo.Bank String Bytes) (r : QueueRequest)
    (h : Represents s b) :
    Represents (s.apply r).1 (Fifo.Bank.step b (toRequest r)).1 ∧
      (s.apply r).2 = toResponse (Fifo.Bank.step b (toRequest r)).2 := by
  cases r with
  | publish queue payload =>
    refine ⟨represents_publish h queue payload, ?_⟩
    simp [apply, toRequest, Fifo.Bank.step, toResponse, h.getD_nextOffset]
  | pop queue =>
    exact represents_pop h queue

theorem Represents.unique {s t : QueueState} {b : Fifo.Bank String Bytes}
    (hs : Represents s b) (ht : Represents t b) : s = t := by
  apply ext_lookup
  · intro q
    rw [hs.queues, ht.queues]
  · intro q
    rw [hs.nextOffset, ht.nextOffset]

/-- Requests that leave the state alone: pops on an empty or unknown queue. -/
def Inert (s : QueueState) : QueueRequest → Prop
  | .publish _ _ => False
  | .pop queue => s.queues.getD queue [] = []

theorem apply_eq_self_iff (s : QueueState) (r : QueueRequest) :
    (s.apply r).1 = s ↔ Inert s r := by
  cases r with
  | publish queue payload =>
    refine ⟨fun h => ?_, False.elim⟩
    -- The counter of the queue moves by one, and one is not zero modulo `2^64`.
    have hn := congrArg (fun t : QueueState => t.nextOffset.getD queue 0) h
    simp [apply] at hn
  | pop queue =>
    cases hq : s.queues.getD queue [] with
    | nil => simp [apply_pop_nil hq, Inert, hq]
    | cons front rest =>
      rw [apply_pop_cons hq, Inert, hq]
      refine ⟨fun h => ?_, fun h => by cases h⟩
      have hl := congrArg (fun t : QueueState => t.queues.getD queue []) h
      simp [hq] at hl

theorem getD_publish (s : QueueState) (queue q : String) (payload : Bytes) :
    (s.apply (.publish queue payload)).1.queues.getD q [] =
      s.queues.getD q [] ++ if queue = q then [(s.nextOffset.getD queue 0, payload)] else [] := by
  simp only [apply, Std.ExtTreeMap.getD_insert, Std.LawfulEqCmp.compare_eq_iff_eq]
  by_cases h : queue = q
  · subst h
    simp
  · simp [h]

theorem getD_pop (s : QueueState) (queue q : String) :
    (s.apply (.pop queue)).1.queues.getD q [] =
        (if queue = q then (s.queues.getD q []).tail else s.queues.getD q []) ∧
      (s.apply (.pop queue)).2.popped = (s.queues.getD queue []).head? := by
  cases hq : s.queues.getD queue [] with
  | nil =>
    rw [apply_pop_nil hq]
    refine ⟨?_, rfl⟩
    by_cases h : queue = q
    · simp [← h, hq]
    · simp [h]
  | cons front rest =>
    rw [apply_pop_cons hq]
    refine ⟨?_, rfl⟩
    by_cases h : queue = q
    · simp [← h, hq]
    · simp [h, Std.ExtTreeMap.getD_insert]

def finalState (reqs : List QueueRequest) : QueueState := Mealy.final apply default reqs

def responses (reqs : List QueueRequest) : List QueueResponse := Mealy.outputs apply default reqs

def publishedTo (q : String) (reqs : List QueueRequest) : List Bytes :=
  reqs.filterMap fun
    | .publish queue payload => if queue = q then some payload else none
    | .pop _ => none

def poppedFrom (q : String) (reqs : List QueueRequest) (rs : List QueueResponse) :
    List (UInt64 × Bytes) :=
  (reqs.zip rs).filterMap fun
    | (.pop queue, r) => if queue = q then r.popped else none
    | (.publish _ _, _) => none

def bankOf (reqs : List QueueRequest) : Fifo.Bank String Bytes :=
  Mealy.final Fifo.Bank.step Fifo.Bank.start (reqs.map toRequest)

theorem finalState_represents (reqs : List QueueRequest) :
    Represents (finalState reqs) (bankOf reqs) :=
  (Mealy.run_simulation apply Fifo.Bank.step toRequest toResponse apply_represents
    represents_default reqs).1

theorem responses_eq (reqs : List QueueRequest) :
    responses reqs = (Mealy.outputs Fifo.Bank.step Fifo.Bank.start (reqs.map toRequest)).map
      toResponse :=
  (Mealy.run_simulation apply Fifo.Bank.step toRequest toResponse apply_represents
    represents_default reqs).2

theorem bankOf_pushed (reqs : List QueueRequest) (q : String) :
    (bankOf reqs q).pushed = publishedTo q reqs := by
  rw [bankOf, (Fifo.Bank.run_at _ q).1, Fifo.Bank.pushesTo, publishedTo, List.filterMap_map]
  apply List.filterMap_congr
  intro r _
  cases r <;> rfl

theorem poppedFrom_toResponse (q : String) (reqs : List QueueRequest)
    (as : List (Fifo.Answer Bytes)) :
    poppedFrom q reqs (as.map toResponse) =
      (Fifo.Bank.popsFrom q (reqs.map toRequest) as).map toItem := by
  induction reqs generalizing as with
  | nil => rfl
  | cons r reqs ih =>
    cases as with
    | nil => rfl
    | cons a as =>
      have h := ih as
      simp only [poppedFrom, Fifo.Bank.popsFrom] at h
      cases r with
      | publish queue payload =>
        simpa [poppedFrom, Fifo.Bank.popsFrom, toRequest] using h
      | pop queue =>
        by_cases hq : queue = q <;> cases a with
        | pushed n => simpa [poppedFrom, Fifo.Bank.popsFrom, toRequest, toResponse, hq] using h
        | popped x =>
          cases x <;> simpa [poppedFrom, Fifo.Bank.popsFrom, toRequest, toResponse, hq] using h

theorem bankOf_served (reqs : List QueueRequest) (q : String) :
    (bankOf reqs q).served.map toItem = poppedFrom q reqs (responses reqs) := by
  rw [responses_eq, poppedFrom_toResponse, bankOf, (Fifo.Bank.run_at _ q).2]

theorem bankOf_taken (reqs : List QueueRequest) (q : String) :
    (bankOf reqs q).taken = (poppedFrom q reqs (responses reqs)).length := by
  rw [← bankOf_served, List.length_map, Fifo.length_served]

theorem bankOf_grows (reqs more : List QueueRequest) (q : String) :
    (bankOf reqs q).Grows (bankOf (reqs ++ more) q) := by
  unfold bankOf
  rw [List.map_append, Mealy.final_append]
  exact Fifo.Bank.final_grows _ _ q

theorem bankOf_eq_of_finalState_eq (reqs more : List QueueRequest)
    (hpub : ∀ q, (publishedTo q (reqs ++ more)).length ≤ 2 ^ 64)
    (h : finalState reqs = finalState (reqs ++ more)) : bankOf reqs = bankOf (reqs ++ more) := by
  funext q
  have hg := bankOf_grows reqs more q
  have hr := finalState_represents reqs
  have hr' := finalState_represents (reqs ++ more)
  have hn := hr.nextOffset q
  have hw := hr.queues q
  rw [h, hr'.nextOffset] at hn
  rw [h, hr'.queues] at hw
  have hb := hpub q
  rw [← bankOf_pushed] at hb
  have hle := hg.1.length_le
  have hlen : (bankOf reqs q).pushed.length = (bankOf (reqs ++ more) q).pushed.length := by
    unfold entry at hn
    split at hn <;> split at hn <;> rename_i he' he
    · rw [he, he']
    · cases hn
    · cases hn
    · have hpos := List.length_pos_of_ne_nil he
      have heq := congrArg UInt64.toNat (Option.some.inj hn)
      simp only [UInt64.toNat_ofNat'] at heq
      omega
  have hp := hg.1.eq_of_length hlen
  apply hg.eq_of_counts hlen
  have hwait : (bankOf (reqs ++ more) q).waiting.length = (bankOf reqs q).waiting.length := by
    have hd := congrArg (fun x => (x.getD []).length) hw
    rw [getD_entry _ _ _ (by intro he; simp [Fifo.waiting, Fifo.numbered, he]),
      getD_entry _ _ _ (by intro he; simp [Fifo.waiting, Fifo.numbered, he])] at hd
    simpa using hd
  have ht := (bankOf reqs q).taken_le
  have ht' := (bankOf (reqs ++ more) q).taken_le
  rw [Fifo.length_waiting, Fifo.length_waiting] at hwait
  omega

theorem finalState_squeeze (reqs mid last : List QueueRequest)
    (hpub : ∀ q, (publishedTo q (reqs ++ (mid ++ last))).length ≤ 2 ^ 64)
    (h : finalState reqs = finalState (reqs ++ (mid ++ last))) :
    finalState (reqs ++ mid) = finalState reqs := by
  have hb := bankOf_eq_of_finalState_eq reqs (mid ++ last) hpub h
  have hmid : bankOf (reqs ++ mid) = bankOf reqs := by
    funext q
    apply Fifo.Grows.antisymm _ (bankOf_grows reqs mid q)
    have hg := bankOf_grows (reqs ++ mid) last q
    rwa [List.append_assoc, ← hb] at hg
  have hr := finalState_represents (reqs ++ mid)
  rw [hmid] at hr
  exact hr.unique (finalState_represents reqs)

theorem responses_getElem? (reqs : List QueueRequest) (i : ℕ) (r : QueueRequest)
    (h : reqs[i]? = some r) :
    (responses reqs)[i]? =
      some (toResponse (Fifo.Bank.step (bankOf (reqs.take i)) (toRequest r)).2) := by
  rw [responses_eq, List.getElem?_map, Mealy.outputs_getElem?, List.getElem?_map, h,
    ← List.map_take]
  rfl

theorem responses_take (reqs : List QueueRequest) (i : ℕ) :
    (responses reqs).take i = responses (reqs.take i) := by
  have h := Mealy.outputs_append apply default (reqs.take i) (reqs.drop i)
  rw [List.take_append_drop] at h
  by_cases hi : i ≤ reqs.length
  · rw [responses, h, List.take_left' (by simp [hi])]
    rfl
  · rw [List.take_of_length_le (by simp [responses]; omega),
      List.take_of_length_le (by omega)]

def natItem (x : UInt64 × Bytes) : ℕ × Bytes := (x.1.toNat, x.2)

theorem natItem_map_toItem (xs : List (ℕ × Bytes)) (h : ∀ x ∈ xs, x.1 < 2 ^ 64) :
    (xs.map toItem).map natItem = xs := by
  rw [List.map_map]
  conv_rhs => rw [← List.map_id xs]
  apply List.map_congr_left
  intro x hx
  have hlt := h x hx
  simp only [Function.comp_apply, toItem, natItem, id_eq]
  rw [UInt64.toNat_ofNat_of_lt' hlt]

theorem numbered_lt {xs : List Bytes} {x : ℕ × Bytes} (hx : x ∈ Fifo.numbered xs) :
    x.1 < xs.length := by
  obtain ⟨hlt, -⟩ := List.getElem?_eq_some_iff.mp (Fifo.mem_numbered.mp hx)
  exact hlt

/-- What a run of publishes and pops must look like from outside: `P q` below is
`publishedTo q reqs` and `k q` the number of successful pops on `q`. -/
structure FifoHistory (reqs : List QueueRequest) (s : QueueState) (rs : List QueueResponse) :
    Prop where
  queues : ∀ q, (s.queues[q]?).map (List.map natItem) =
    if publishedTo q reqs = [] then none
    else some ((Fifo.numbered (publishedTo q reqs)).drop (poppedFrom q reqs rs).length)
  nextOffset : ∀ q, (s.nextOffset[q]?).map UInt64.toNat =
    if publishedTo q reqs = [] then none else some (publishedTo q reqs).length
  publish : ∀ (i : ℕ) q p, reqs[i]? = some (.publish q p) →
    ∃ o, rs[i]? = some ⟨some o, none⟩ ∧ o.toNat = (publishedTo q (reqs.take i)).length
  popOrder : ∀ q, (poppedFrom q reqs rs).map natItem =
    (Fifo.numbered (publishedTo q reqs)).take (poppedFrom q reqs rs).length
  popNone : ∀ (i : ℕ) q, reqs[i]? = some (.pop q) → ∃ x, rs[i]? = some ⟨none, x⟩ ∧
    (x = none ↔ (poppedFrom q (reqs.take i) (rs.take i)).length =
      (publishedTo q (reqs.take i)).length)
  depths : ∀ q, (s.depths[q]?).map UInt64.toNat =
    if publishedTo q reqs = [] then none
    else some ((publishedTo q reqs).length - (poppedFrom q reqs rs).length)

theorem run_fifoHistory (reqs : List QueueRequest)
    (hpub : ∀ q, (publishedTo q reqs).length < 2 ^ 64) :
    FifoHistory reqs (finalState reqs) (responses reqs) := by
  have hrep := finalState_represents reqs
  have hsmall : ∀ q, ∀ x ∈ Fifo.numbered (publishedTo q reqs), x.1 < 2 ^ 64 :=
    fun q x hx => (numbered_lt hx).trans (hpub q)
  have hwait : ∀ q, (bankOf reqs q).waiting =
      (Fifo.numbered (publishedTo q reqs)).drop (poppedFrom q reqs (responses reqs)).length := by
    intro q
    rw [Fifo.waiting, bankOf_pushed, bankOf_taken]
  constructor
  · intro q
    rw [hrep.queues, entry, bankOf_pushed, hwait]
    split
    · rfl
    · rw [Option.map_some, natItem_map_toItem]
      exact fun x hx => hsmall q x (List.mem_of_mem_drop hx)
  · intro q
    rw [hrep.nextOffset, entry, bankOf_pushed]
    split
    · rfl
    · rw [Option.map_some, UInt64.toNat_ofNat_of_lt' (hpub q)]
  · intro i q p hi
    have hlen : (publishedTo q (reqs.take i)).length ≤ (publishedTo q reqs).length :=
      ((List.take_sublist i reqs).filterMap _).length_le
    refine ⟨UInt64.ofNat (publishedTo q (reqs.take i)).length, ?_, ?_⟩
    · rw [responses_getElem? reqs i _ hi]
      simp [toRequest, Fifo.Bank.step, toResponse, bankOf_pushed]
    · exact UInt64.toNat_ofNat_of_lt' (hlen.trans_lt (hpub q))
  · intro q
    rw [← bankOf_served, List.length_map, Fifo.length_served, natItem_map_toItem]
    · rw [Fifo.served, bankOf_pushed]
    · intro x hx
      rw [Fifo.served, bankOf_pushed] at hx
      exact hsmall q x (List.mem_of_mem_take hx)
  · intro i q hi
    refine ⟨_, responses_getElem? reqs i _ hi, ?_⟩
    rw [responses_take, ← bankOf_taken, ← bankOf_pushed, ← Fifo.pop_none_iff]
    exact Option.map_eq_none_iff
  · intro q
    have hq := hrep.queues q
    rw [depths, Std.ExtTreeMap.getElem?_map, hq, entry, bankOf_pushed]
    split
    · rfl
    · rw [Option.map_some, Option.map_some, List.length_map, hwait, List.length_drop,
        Fifo.length_numbered, UInt64.toNat_ofNat_of_lt']
      exact (Nat.sub_le _ _).trans_lt (hpub q)

theorem run_fifoHistory_refilled :
    let reqs : List QueueRequest := [.publish "spam" [7], .pop "spam", .pop "spam",
      .pop "ham", .publish "spam" [8]]
    responses reqs = [⟨some 0, none⟩, ⟨none, some (0, [7])⟩, ⟨none, none⟩, ⟨none, none⟩,
        ⟨some 1, none⟩] ∧
      FifoHistory reqs (finalState reqs) (responses reqs) := by
  intro reqs
  refine ⟨by decide, run_fifoHistory reqs fun q => ?_⟩
  have hle : (publishedTo q reqs).length ≤ reqs.length := List.length_filterMap_le _ _
  exact hle.trans_lt (by decide)

end QueueState
end BlunMq
