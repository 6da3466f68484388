import BlunMq.Raft.QueueState

/-!
# Queues do not interfere

The two maps of the queue state are created lazily and updated by separate code, but
a request reads and writes only the entries under its own queue name. What happens to
one queue is therefore decided by the requests on it alone.
-/

namespace BlunMq

def QueueRequest.queue : QueueRequest → String
  | .publish queue _ => queue
  | .pop queue => queue

namespace QueueState

structure Cell where
  queue : Option (List (UInt64 × Bytes))
  nextOffset : Option UInt64

def cell (s : QueueState) (q : String) : Cell := ⟨s.queues[q]?, s.nextOffset[q]?⟩

def Cell.apply (c : Cell) : QueueRequest → Cell × QueueResponse
  | .publish _ payload =>
    let offset := c.nextOffset.getD 0
    (⟨some (c.queue.getD [] ++ [(offset, payload)]), some (offset + 1)⟩, ⟨some offset, none⟩)
  | .pop _ =>
    match c.queue with
    | some (front :: rest) => (⟨some rest, c.nextOffset⟩, ⟨none, some front⟩)
    | _ => (c, ⟨none, none⟩)

theorem cell_apply_own (s : QueueState) (r : QueueRequest) :
    (s.apply r).1.cell r.queue = ((s.cell r.queue).apply r).1 ∧
      (s.apply r).2 = ((s.cell r.queue).apply r).2 := by
  cases r with
  | publish queue payload =>
    simp [apply, cell, Cell.apply, QueueRequest.queue, Std.ExtTreeMap.getD_eq_getD_getElem?]
  | pop queue =>
    simp only [apply, cell, Cell.apply, QueueRequest.queue]
    split <;> rename_i hq <;> simp [hq]

theorem cell_apply_other (s : QueueState) (r : QueueRequest) {q : String} (h : r.queue ≠ q) :
    (s.apply r).1.cell q = s.cell q := by
  cases r with
  | publish queue payload =>
    have hq : queue ≠ q := h
    simp [apply, cell, Map.getElem?_insert, hq]
  | pop queue =>
    have hq : queue ≠ q := h
    simp only [apply, cell]
    split <;> simp [Map.getElem?_insert, hq]

def requestsOn (q : String) (reqs : List QueueRequest) : List QueueRequest :=
  reqs.filter fun r => r.queue = q

def responsesOn (q : String) (reqs : List QueueRequest) (rs : List QueueResponse) :
    List QueueResponse :=
  ((reqs.zip rs).filter fun x => x.1.queue = q).map Prod.snd

theorem run_cell (s : QueueState) (reqs : List QueueRequest) (q : String) :
    (Mealy.final apply s reqs).cell q = Mealy.final Cell.apply (s.cell q) (requestsOn q reqs) ∧
      responsesOn q reqs (Mealy.outputs apply s reqs) =
        Mealy.outputs Cell.apply (s.cell q) (requestsOn q reqs) := by
  refine Mealy.run_project apply Cell.apply (fun s => s.cell q) (fun r => r.queue = q) ?_ ?_ s reqs
  · intro s r hr
    obtain rfl : r.queue = q := of_decide_eq_true hr
    exact cell_apply_own s r
  · intro s r hr
    exact cell_apply_other s r (of_decide_eq_false hr)

theorem ext_cell {s t : QueueState} (h : ∀ q, s.cell q = t.cell q) : s = t := by
  apply ext_lookup
  · intro q
    exact congrArg Cell.queue (h q)
  · intro q
    exact congrArg Cell.nextOffset (h q)

theorem queues_do_not_interfere (s : QueueState) (reqs reqs' : List QueueRequest)
    (h : ∀ q, requestsOn q reqs = requestsOn q reqs') :
    Mealy.final apply s reqs = Mealy.final apply s reqs' ∧
      ∀ q, responsesOn q reqs (Mealy.outputs apply s reqs) =
        responsesOn q reqs' (Mealy.outputs apply s reqs') := by
  refine ⟨ext_cell fun q => ?_, fun q => ?_⟩
  · rw [(run_cell s reqs q).1, (run_cell s reqs' q).1, h q]
  · rw [(run_cell s reqs q).2, (run_cell s reqs' q).2, h q]

theorem queues_do_not_interfere_swapped :
    let reqs : List QueueRequest := [.publish "spam" [7], .publish "ham" [8], .pop "spam"]
    let reqs' : List QueueRequest := [.publish "ham" [8], .publish "spam" [7], .pop "spam"]
    reqs ≠ reqs' ∧ finalState reqs = finalState reqs' ∧
      responsesOn "spam" reqs (responses reqs) = responsesOn "spam" reqs' (responses reqs') := by
  intro reqs reqs'
  have h := queues_do_not_interfere default reqs reqs' fun q => by
    by_cases hs : "spam" = q
    · subst hs
      decide
    · by_cases hh : "ham" = q
      · subst hh
        decide
      · simp [reqs, reqs', requestsOn, QueueRequest.queue, hs, hh]
  exact ⟨by decide, h.1, h.2 "spam"⟩

end QueueState
end BlunMq
