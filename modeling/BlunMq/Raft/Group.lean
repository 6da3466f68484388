import BlunMq.Raft.StateMachine

/-!
# The queue group as its clients see it

Of openraft the request handlers rely on this much: a proposal that is committed
becomes one more entry of the log, replicas apply the entries once each in that
order, and a `client_write` that returns `Ok` returns the response of its own entry.
-/

namespace BlunMq.CommittedLog
open StateMachineStore

def extend (log : CommittedLog QueueRequest) (e : Entry QueueRequest)
    (h : ∀ x ∈ log.entries, x.logId.index < e.logId.index) : CommittedLog QueueRequest :=
  ⟨log.entries ++ [e], List.pairwise_append.mpr
    ⟨log.increasing, List.pairwise_singleton _ _, fun x hx _ hy =>
      List.mem_singleton.mp hy ▸ h x hx⟩⟩

/-- The response an entry gets from a replica that has applied everything before it. -/
def response (log : CommittedLog QueueRequest) (e : Entry QueueRequest) : QueueResponse :=
  (Store.applyEntry machine (apply (QueueState.default, Store.new) log.entries).1 e).2

def commit (log : CommittedLog QueueRequest) (e : Entry QueueRequest) :
    Option (CommittedLog QueueRequest × QueueResponse) :=
  if h : ∀ x ∈ log.entries, x.logId.index < e.logId.index then
    some (log.extend e h, log.response e)
  else none

def empty : CommittedLog QueueRequest := ⟨[], List.Pairwise.nil⟩

variable (log : CommittedLog QueueRequest)

def state : QueueState := stateAfter log.entries

def waiting (q : String) : List (UInt64 × Bytes) := log.state.queues.getD q []

def popped (q : String) : List (UInt64 × Bytes) :=
  QueueState.poppedFrom q (requests log.entries) (QueueState.responses (requests log.entries))

def published (q : String) : List Bytes := QueueState.publishedTo q (requests log.entries)

def poppedBy (q : String) (e : Entry QueueRequest) (r : QueueResponse) : List (UInt64 × Bytes) :=
  if e.payload = .normal (.pop q) then r.popped.toList else []

variable {log} {log' : CommittedLog QueueRequest} {e : Entry QueueRequest} {r : QueueResponse}

theorem commit_of_lt (h : ∀ x ∈ log.entries, x.logId.index < e.logId.index) :
    log.commit e = some (log.extend e h, log.response e) := dif_pos h

theorem commit_eq_some (h : log.commit e = some (log', r)) :
    log'.entries = log.entries ++ [e] ∧ r = log.response e := by
  unfold commit at h
  split at h
  · cases h
    exact ⟨rfl, rfl⟩
  · cases h

theorem commit_entries (h : log.commit e = some (log', r)) : log'.entries = log.entries ++ [e] :=
  (commit_eq_some h).1

theorem state_eq (log : CommittedLog QueueRequest) :
    log.state = QueueState.finalState (requests log.entries) := stateAfter_eq log.entries

theorem commit_normal {req : QueueRequest} {id : LogId}
    (h : log.commit ⟨id, .normal req⟩ = some (log', r)) :
    r = (log.state.apply req).2 ∧ requests log'.entries = requests log.entries ++ [req] := by
  refine ⟨?_, ?_⟩
  · rw [(commit_eq_some h).2]
    rfl
  · rw [commit_entries h]
    simp [requests]

theorem responses_concat (reqs : List QueueRequest) (req : QueueRequest) :
    QueueState.responses (reqs ++ [req]) =
      QueueState.responses reqs ++ [((QueueState.finalState reqs).apply req).2] :=
  Mealy.outputs_concat _ _ _ _

theorem commit_popped (h : log.commit e = some (log', r)) (q : String) :
    log'.popped q = log.popped q ++ poppedBy q e r := by
  obtain ⟨id, payload⟩ := e
  cases payload with
  | blank => simp [popped, poppedBy, commit_entries h, requests]
  | membership mem => simp [popped, poppedBy, commit_entries h, requests]
  | normal req =>
    obtain ⟨hr, hreqs⟩ := commit_normal h
    rw [popped, hreqs, responses_concat, QueueState.poppedFrom,
      List.zip_append (by simp [QueueState.responses]), List.filterMap_append]
    congr 1
    rw [← state_eq, ← hr]
    cases req with
    | publish queue payload => simp [poppedBy]
    | pop queue =>
      by_cases hq : queue = q
      · subst hq
        cases hp : r.popped <;> simp [poppedBy, hp]
      · simp [poppedBy, hq]

theorem commit_state (h : log.commit e = some (log', r)) :
    log'.state = match e.payload with
      | .normal req => (log.state.apply req).1
      | _ => log.state := by
  rw [state_eq, state_eq, commit_entries h, requests, List.filterMap_append]
  cases hp : e.payload with
  | normal req => simp [hp, QueueState.finalState, Mealy.final_concat, requests]
  | blank => simp [hp, requests]
  | membership mem => simp [hp, requests]

theorem commit_empty {q : String} (h : log.commit e = some (log', r)) (hq : log.waiting q = [])
    (he : ∀ payload, e.payload ≠ .normal (.publish q payload)) :
    log'.waiting q = [] ∧ log'.popped q = log.popped q := by
  rw [commit_popped h q, waiting, commit_state h, poppedBy]
  unfold waiting at hq
  obtain ⟨id, payload⟩ := e
  cases payload with
  | blank => simpa using hq
  | membership mem => simpa using hq
  | normal req =>
    cases req with
    | publish queue payload =>
      have hne : queue ≠ q := fun hqueue => he payload (by rw [hqueue])
      simp only [QueueState.getD_publish, if_neg hne, hq]
      simp
    | pop queue =>
      simp only [(log.state.getD_pop queue q).1, hq]
      refine ⟨by simp, ?_⟩
      by_cases hqueue : queue = q
      · subst hqueue
        rw [(commit_normal h).1, (log.state.getD_pop queue queue).2, hq]
        simp
      · simp [hqueue]

variable (log)

theorem length_published_le (q : String) : (log.published q).length ≤ 2 ^ 64 := by
  have h := publishedTo_requests_le log log.entries.length q
  rwa [List.take_length] at h

theorem popped_eq (q : String) :
    log.popped q = (QueueState.bankOf (requests log.entries) q).served.map QueueState.toItem :=
  (QueueState.bankOf_served _ q).symm

theorem mem_served_toNat {q : String} {x : ℕ × Bytes}
    (hx : x ∈ (QueueState.bankOf (requests log.entries) q).served) :
    (QueueState.toItem x).1.toNat = x.1 ∧ (log.published q)[x.1]? = some x.2 := by
  have hmem : x ∈ Fifo.numbered (log.published q) := by
    have := List.mem_of_mem_take hx
    rwa [QueueState.bankOf_pushed] at this
  have hlt := QueueState.numbered_lt hmem
  have hle := log.length_published_le q
  exact ⟨UInt64.toNat_ofNat_of_lt' (hlt.trans_le hle), Fifo.mem_numbered.mp hmem⟩

theorem mem_popped {q : String} {o : UInt64} {p : Bytes} (h : (o, p) ∈ log.popped q) :
    (log.published q)[o.toNat]? = some p := by
  rw [popped_eq] at h
  obtain ⟨x, hx, heq⟩ := List.mem_map.mp h
  obtain ⟨hn, hp⟩ := log.mem_served_toNat hx
  rw [heq] at hn
  cases heq
  rwa [← hn] at hp

theorem popped_nodup (q : String) : ((log.popped q).map Prod.fst).Nodup := by
  rw [popped_eq, List.map_map]
  refine List.Nodup.of_map UInt64.toNat ?_
  rw [List.map_map]
  have hfst : (QueueState.bankOf (requests log.entries) q).served.map
      (UInt64.toNat ∘ Prod.fst ∘ QueueState.toItem) =
      (QueueState.bankOf (requests log.entries) q).served.map Prod.fst :=
    List.map_congr_left fun x hx => (log.mem_served_toNat hx).1
  rw [hfst, Fifo.served, List.map_take, Fifo.numbered_map_fst]
  exact (List.take_sublist _ _).nodup List.nodup_range

theorem queued_or_popped {q : String} {o : UInt64} (h : o < log.state.nextOffset.getD q 0) :
    (∃ p, (o, p) ∈ log.state.queues.getD q []) ∨ ∃ p, (o, p) ∈ log.popped q := by
  have hrep := QueueState.finalState_represents (requests log.entries)
  rw [← state_eq] at hrep
  rw [hrep.getD_nextOffset, UInt64.lt_iff_toNat_lt, UInt64.toNat_ofNat'] at h
  have hlt : o.toNat < (QueueState.bankOf (requests log.entries) q).pushed.length :=
    h.trans_le (Nat.mod_le _ _)
  obtain ⟨p, hp⟩ : ∃ p, (QueueState.bankOf (requests log.entries) q).pushed[o.toNat]? = some p :=
    ⟨_, List.getElem?_eq_getElem hlt⟩
  have hmem := Fifo.mem_numbered.mpr hp
  rw [← Fifo.served_append_waiting] at hmem
  have hitem : QueueState.toItem (o.toNat, p) = (o, p) := by simp [QueueState.toItem]
  rcases List.mem_append.mp hmem with hs | hw
  · refine .inr ⟨p, ?_⟩
    rw [popped_eq, ← hitem]
    exact List.mem_map_of_mem hs
  · refine .inl ⟨p, ?_⟩
    rw [hrep.getD_queues, ← hitem]
    exact List.mem_map_of_mem hw

theorem exists_fresh (es : List (Entry QueueRequest))
    (h : ∀ e ∈ es, e.logId.index.toNat + 2 < 2 ^ 64) :
    ∃ n, n + 1 < 2 ^ 64 ∧ ∀ e ∈ es, e.logId.index.toNat < n := by
  induction es with
  | nil => exact ⟨0, by norm_num, by simp⟩
  | cons e es ih =>
    obtain ⟨n, hn, hlt⟩ := ih fun x hx => h x (List.mem_cons_of_mem _ hx)
    have he := h e List.mem_cons_self
    refine ⟨max n (e.logId.index.toNat + 1), by omega, fun x hx => ?_⟩
    rcases List.mem_cons.mp hx with rfl | hx
    · omega
    · have := hlt x hx
      omega

end BlunMq.CommittedLog
