import BlunMq.Host.ClosedStreams

/-!
# The wire of a forwarded stream

`pop_via_forward` waits for one item of the stream it has opened and then drops the receiving
end. One worker waits for a forwarded stream at most. What is on the wire when that worker goes
on, and what the stream sends on later, nobody can read any more: it is stranded.
-/

namespace BlunMq

namespace Cluster

def attended (s : Cluster) (k : ℕ) : Bool :=
  s.streams.any fun st => decide (Pc.receiving k ∈ st.workers)

/-- The items on the wire of stream `k` that nobody can read. -/
def strandedAt (s : Cluster) (k : ℕ) : List Item :=
  match s.streams[k]? with
  | some st => if s.attended k then [] else st.wire
  | none => []

def awaited (s : Cluster) (sid i : ℕ) : Option ℕ :=
  match s.pc sid i with
  | some (.receiving child) => some child
  | _ => none

def wireOf (s : Cluster) (k : ℕ) : List Item := (s.streams[k]?.map Stream.wire).getD []

/-- What a step strands, and on which stream. A worker that has its item, or waits no longer,
strands the rest; a stream nobody waits for strands what it sends on. -/
def strands (s : Cluster) : Act → Option (ℕ × List Item)
  | .receive sid i => (s.awaited sid i).map fun k => (k, (s.wireOf k).tail)
  | .timeout sid i | .rpcError sid i => (s.awaited sid i).map fun k => (k, s.wireOf k)
  | .pull sid =>
    match s.streams[sid]? with
    | some st => if st.client || s.attended sid then none else some (sid, st.channel.head?.toList)
    | none => none
  | _ => none

variable {s s' : Cluster} {sid i k j : ℕ} {x x' : Stream} {p p' : Pc}

theorem attended_iff : s.attended k = true ↔ ∃ sid i, s.pc sid i = some (.receiving k) := by
  rw [attended, List.any_eq_true]
  constructor
  · rintro ⟨st, hst, hk⟩
    obtain ⟨sid, hsid⟩ := List.mem_iff_getElem?.mp hst
    obtain ⟨i, hi⟩ := List.mem_iff_getElem?.mp (of_decide_eq_true hk)
    exact ⟨sid, i, pc_eq hsid hi⟩
  · rintro ⟨sid, i, hpc⟩
    obtain ⟨st, hst, hw⟩ := Option.bind_eq_some_iff.mp hpc
    exact ⟨st, List.mem_of_getElem? hst, decide_eq_true (List.mem_of_getElem? hw)⟩

theorem attended_congr
    (h : ∀ sid i, s'.pc sid i = some (.receiving k) ↔ s.pc sid i = some (.receiving k)) :
    s'.attended k = s.attended k := by
  rw [Bool.eq_iff_iff, attended_iff, attended_iff]
  simp only [h]

theorem strandedAt_eq (s : Cluster) (k : ℕ) :
    s.strandedAt k = if s.attended k then [] else s.wireOf k := by
  rw [strandedAt, wireOf]
  cases s.streams[k]? with
  | none => simp
  | some st => rfl

end Cluster

/-- At most one worker waits for a stream, and it is a forwarded one. A client's stream has no
wire. -/
structure Attendance (s : Cluster) : Prop where
  once {k sid i sid' i' : ℕ} : s.pc sid i = some (.receiving k) →
    s.pc sid' i' = some (.receiving k) → sid = sid' ∧ i = i'
  forwarded {k sid i : ℕ} : s.pc sid i = some (.receiving k) →
    ∃ st, s.streams[k]? = some st ∧ st.client = false
  clients {k : ℕ} {st : Stream} : s.streams[k]? = some st → st.client = true → st.wire = []

inductive Wired (s s' : Cluster) : Option (ℕ × List Item) → Prop
  | same (hpc : ∀ sid i k, s'.pc sid i = some (.receiving k) ↔ s.pc sid i = some (.receiving k))
      (hwire : ∀ k, s'.wireOf k = s.wireOf k) : Wired s s' none
  | waits {sid i : ℕ} (hpc : ∀ sid' i' k, s'.pc sid' i' = some (.receiving k) ↔
        s.pc sid' i' = some (.receiving k) ∨ sid' = sid ∧ i' = i ∧ k = s.streams.length)
      (hnew : ∃ st, s'.streams[s.streams.length]? = some st ∧ st.client = false)
      (hwire : ∀ k, s'.wireOf k = s.wireOf k) : Wired s s' none
  | leaves {sid i child : ℕ} {rest : List Item} (hw : s.pc sid i = some (.receiving child))
      (hpc : ∀ sid' i' k, s'.pc sid' i' = some (.receiving k) ↔
        s.pc sid' i' = some (.receiving k) ∧ ¬ (sid' = sid ∧ i' = i))
      (hwire : ∀ k, s'.wireOf k = if k = child then rest else s.wireOf k) :
      Wired s s' (some (child, rest))
  | sends {sid : ℕ} {st : Stream} {item : Item} (hst : s.streams[sid]? = some st)
      (hclient : st.client = false)
      (hpc : ∀ sid i k, s'.pc sid i = some (.receiving k) ↔ s.pc sid i = some (.receiving k))
      (hwire : ∀ k, s'.wireOf k = if k = sid then s.wireOf sid ++ [item] else s.wireOf k) :
      Wired s s' (if s.attended sid then none else some (sid, [item]))

section Step
variable {s s' : Cluster} {sid i k j c : ℕ} {x x' : Stream} {p p' : Pc}

theorem receiving_put (hst : s.streams[k]? = some x) (hw : x.workers[j]? = some p)
    (hx' : x'.workers = x.workers.set j p') :
    (s.update k x').pc sid i = some (.receiving c) ↔
      if sid = k ∧ i = j then p' = .receiving c else s.pc sid i = some (.receiving c) := by
  rw [Cluster.pc_update_set hst hw hx']
  split <;> simp

theorem receiving_put_same (hst : s.streams[k]? = some x) (hw : x.workers[j]? = some p)
    (hx' : x'.workers = x.workers.set j p') (hp : ∀ c, p ≠ .receiving c)
    (hp' : ∀ c, p' ≠ .receiving c) :
    (s.update k x').pc sid i = some (.receiving c) ↔ s.pc sid i = some (.receiving c) := by
  rw [receiving_put hst hw hx']
  split
  · rename_i h
    rw [h.1, h.2, Cluster.pc_eq hst hw]
    simp [hp c, hp' c]
  · rfl

theorem receiving_opened (queue : String) (client : Bool) :
    (s.opened queue client).pc sid i = some (.receiving c) ↔ s.pc sid i = some (.receiving c) := by
  rw [Cluster.pc, Cluster.pc, Cluster.opened, List.getElem?_append]
  split
  · rfl
  · rename_i h
    rw [List.getElem?_eq_none (Nat.le_of_not_lt h), List.getElem?_singleton]
    split
    · simp [Stream.start, List.getElem?_replicate]
    · rfl

theorem wireOf_update (hst : s.streams[k]? = some x) :
    (s.update k x').wireOf c = if c = k then x'.wire else s.wireOf c := by
  rw [Cluster.wireOf, Cluster.lookup_update hst]
  split <;> rfl

theorem wireOf_update_same (hst : s.streams[k]? = some x) (hwire : x'.wire = x.wire) :
    (s.update k x').wireOf c = s.wireOf c := by
  rw [wireOf_update hst]
  split
  · rename_i h
    rw [h, Cluster.wireOf, hst, hwire]
    rfl
  · rfl

theorem wireOf_opened (queue : String) (client : Bool) :
    (s.opened queue client).wireOf c = s.wireOf c := by
  rw [Cluster.wireOf, Cluster.wireOf, Cluster.opened, List.getElem?_append]
  split
  · rfl
  · rename_i h
    rw [List.getElem?_eq_none (Nat.le_of_not_lt h), List.getElem?_singleton]
    split <;> rfl

theorem Wired.update (hst : s.streams[k]? = some x) (hw : x.workers[j]? = some p) (p' : Pc)
    (hx' : x'.workers = x.workers.set j p') (hwire : x'.wire = x.wire)
    (hp : ∀ c, p ≠ .receiving c) (hp' : ∀ c, p' ≠ .receiving c) :
    Wired s (s.update k x') none :=
  .same (fun _ _ _ => receiving_put_same hst hw hx' hp hp') fun _ => wireOf_update_same hst hwire

theorem Wired.put (hst : s.streams[k]? = some x) (hw : x.workers[j]? = some p) (p' : Pc)
    (hp : ∀ c, p ≠ .receiving c) (hp' : ∀ c, p' ≠ .receiving c) :
    Wired s (s.update k (x.put j p')) none := .update hst hw p' rfl rfl hp hp'

theorem Wired.of_streams {o : Option (ℕ × List Item)} (h : Wired s s' o) {t : Cluster}
    (ht : t.streams = s'.streams) : Wired s t o := by
  have hpc : ∀ sid i, t.pc sid i = s'.pc sid i := fun sid i => by rw [Cluster.pc, ht]; rfl
  have hwire : ∀ k, t.wireOf k = s'.wireOf k := fun k => by rw [Cluster.wireOf, ht]; rfl
  cases h with
  | same h hw => exact .same (by simpa only [hpc] using h) (by simpa only [hwire] using hw)
  | waits h hnew hw =>
    exact .waits (by simpa only [hpc] using h) (by rwa [ht]) (by simpa only [hwire] using hw)
  | leaves hc h hw =>
    exact .leaves hc (by simpa only [hpc] using h) (by simpa only [hwire] using hw)
  | sends hst hclient h hw =>
    exact .sends hst hclient (by simpa only [hpc] using h) (by simpa only [hwire] using hw)

theorem Wired.leave {child : ℕ} {rest : List Item} {t : Cluster} (p' : Pc)
    (hread : ∀ sid i, t.pc sid i = s.pc sid i)
    (hwire : ∀ k, t.wireOf k = if k = child then rest else s.wireOf k)
    (hst : t.streams[k]? = some x) (hw : x.workers[j]? = some (.receiving child))
    (hp' : ∀ c, p' ≠ .receiving c) :
    Wired s (t.update k (x.put j p')) (some (child, rest)) := by
  refine @Wired.leaves _ _ k j _ _ ?_ (fun sid i c => ?_) fun c => ?_
  · rw [← hread]
    exact Cluster.pc_eq hst hw
  · have hput : (t.update k (x.put j p')).pc sid i = some (.receiving c) ↔
        if sid = k ∧ i = j then p' = .receiving c else t.pc sid i = some (.receiving c) :=
      receiving_put hst hw rfl
    rw [hput, ← hread]
    split
    · rename_i h
      simp [hp' c, h]
    · rename_i h
      simp [h]
  · have hsame : (t.update k (x.put j p')).wireOf c = t.wireOf c := wireOf_update_same hst rfl
    rw [hsame, hwire]

theorem Cluster.awaited_eq {child : ℕ} (hst : s.streams[k]? = some x)
    (hw : x.workers[j]? = some (.receiving child)) : s.awaited k j = some child := by
  rw [Cluster.awaited, Cluster.pc_eq hst hw]

theorem Cluster.wireOf_eq (hst : s.streams[k]? = some x) : s.wireOf k = x.wire := by
  rw [Cluster.wireOf, hst]
  rfl

theorem Wired.unchanged (hst : s.streams[k]? = some x) (hworkers : x'.workers = x.workers)
    (hwire : x'.wire = x.wire) : Wired s (s.update k x') none := by
  have hpc : ∀ sid i, (s.update k x').pc sid i = s.pc sid i := fun _ _ =>
    Cluster.pc_update hst hworkers
  exact .same (fun _ _ _ => by rw [hpc]) fun _ => wireOf_update_same hst hwire

theorem Wired.accept {leader : UInt64} (hst : s.streams[k]? = some x)
    (hw : x.workers[j]? = some (.dialing leader)) :
    Wired s ((s.update k (x.put j (.receiving s.streams.length))).opened x.queue false) none := by
  refine @Wired.waits _ _ k j (fun sid i c => ?_) ⟨Stream.start x.queue false, ?_, rfl⟩
    fun c => ?_
  · have hput : (s.update k (x.put j (.receiving s.streams.length))).pc sid i =
        some (.receiving c) ↔ if sid = k ∧ i = j then
          Pc.receiving s.streams.length = .receiving c else s.pc sid i = some (.receiving c) :=
      receiving_put hst hw rfl
    rw [receiving_opened, hput]
    split
    · rename_i h
      rw [h.1, h.2, Cluster.pc_eq hst hw]
      simp [eq_comm]
    · rename_i h
      constructor
      · exact .inl
      · rintro (h' | ⟨h1, h2, -⟩)
        · exact h'
        · exact absurd ⟨h1, h2⟩ h
  · rw [Cluster.opened, Cluster.update, List.getElem?_append_right (by simp)]
    simp
  · have hsame : (s.update k (x.put j (.receiving s.streams.length))).wireOf c = s.wireOf c :=
      wireOf_update_same hst rfl
    rw [wireOf_opened, hsame]

variable {peers : Map UInt64 String} {a : Act}

theorem Step.wired (h : Step peers s a s') : Wired s s' (s.strands a) := by
  cases h with
  | publish | rejected | commitInFlight | commitOther =>
    exact .same (fun _ _ _ => Iff.rfl) fun _ => rfl
  | subscribed =>
    exact .same (fun _ _ _ => receiving_opened _ _) fun _ => wireOf_opened _ _
  | @commit _ _ _ _ _ r hst hw =>
    exact (Wired.put hst hw (.proposing (some r)) (by simp) (by simp)).of_streams rfl
  | propose hst hw => exact .put hst hw (.proposing none) (by simp) (by simp)
  | sendClosed hst hw => exact .put hst hw .stopped (by simp) (by simp)
  | wake hst hw => exact .put hst hw .ready (by simp) (by simp)
  | answer hst hw => exact .put hst hw _ (by simp) (Pc.afterPop_ne _)
  | fail hst hw =>
    exact (Wired.put hst hw .sleeping (by simp) (by simp)).of_streams
      (Cluster.abandon_streams _ _ _)
  | forwardToLeader hst hw =>
    exact (Wired.put hst hw _ (by simp) (Pc.afterForward_ne _ _)).of_streams
      (Cluster.abandon_streams _ _ _)
  | send hst hw => exact .update hst hw .ready rfl rfl (by simp) (by simp)
  | accept hst hw => exact .accept hst hw
  | @refused sid i st leader hst hw =>
    have hnone : s.strands (.rpcError sid i) = none := by
      rw [Cluster.strands, Cluster.awaited, Cluster.pc_eq hst hw]
      rfl
    rw [hnone]
    exact .put hst hw .sleeping (by simp) (by simp)
  | @broken sid i st child hst hw =>
    have hsome : s.strands (.rpcError sid i) = some (child, s.wireOf child) := by
      rw [Cluster.strands, Cluster.awaited_eq hst hw]
      rfl
    rw [hsome]
    exact .leave .sleeping (fun _ _ => rfl) (fun k => by split <;> simp_all) hst hw (by simp)
  | @timeout sid i child st hst hw =>
    have hsome : s.strands (.timeout sid i) = some (child, s.wireOf child) := by
      rw [Cluster.strands, Cluster.awaited_eq hst hw]
      rfl
    rw [hsome]
    exact .leave _ (fun _ _ => rfl) (fun k => by split <;> simp_all) hst hw (Pc.afterPop_ne _)
  | @receive sid i child st ch item rest hch hwire hst hw =>
    have hread : ∀ sid i, (s.update child { ch with wire := rest }).pc sid i = s.pc sid i :=
      fun _ _ => Cluster.pc_update hch rfl
    have hsome : s.strands (.receive sid i) = some (child, rest) := by
      have hawaited : s.awaited sid i = some child := by
        rw [Cluster.awaited, ← hread, Cluster.pc_eq hst hw]
      rw [Cluster.strands, hawaited, Option.map_some, Cluster.wireOf_eq hch, hwire]
      rfl
    rw [hsome]
    exact .leave _ hread (fun _ => wireOf_update hch) hst hw (Pc.afterPop_ne _)
  | @emit sid st item rest hst hclient hchan =>
    have hnone : s.strands (.pull sid) = none := by
      rw [Cluster.strands, hst]
      simp [hclient]
    have hpulled : Wired s (s.update sid { st with channel := rest }) none :=
      .unchanged hst rfl rfl
    rw [hnone]
    exact hpulled.of_streams rfl
  | @relay sid st item rest hst hclient hchan =>
    have hstrands : s.strands (.pull sid) =
        if s.attended sid then none else some (sid, [item]) := by
      rw [Cluster.strands, hst]
      simp [hclient, hchan]
    have hpc : ∀ sid' i', (s.update sid { st with channel := rest, wire := st.wire ++ [item] }).pc
        sid' i' = s.pc sid' i' := fun _ _ => Cluster.pc_update hst rfl
    rw [hstrands]
    refine .sends hst hclient (fun _ _ _ => by rw [hpc]) fun k => ?_
    rw [wireOf_update hst, Cluster.wireOf_eq hst]
  | close hst => exact .unchanged hst rfl rfl

theorem Attendance.start : Attendance Cluster.start where
  once h := by cases h
  forwarded h := by cases h
  clients h := by cases h

theorem Cluster.Evolves.forwarded (h : s.Evolves s') (hst : s.streams[k]? = some x)
    (hx : x.client = false) : ∃ x', s'.streams[k]? = some x' ∧ x'.client = false := by
  obtain ⟨x', hx', hkept⟩ := h.kept k x hst
  exact ⟨x', hx', hkept.client.trans hx⟩

theorem Cluster.Evolves.ne_of_client (h : s.Evolves s') (hst : s.streams[j]? = some x)
    (hx : x.client = false) (hst' : s'.streams[k]? = some x') (hx' : x'.client = true) :
    k ≠ j := by
  rintro rfl
  obtain ⟨y, hy, hfalse⟩ := h.forwarded hst hx
  cases hst'.symm.trans hy
  cases hx'.symm.trans hfalse

theorem Attendance.client_wire (h : Attendance s) (hevolves : s.Evolves s')
    (hst' : s'.streams[k]? = some x') (hx' : x'.client = true)
    (hwire : s'.wireOf k = s.wireOf k) : x'.wire = [] := by
  rw [← Cluster.wireOf_eq hst', hwire]
  cases hst : s.streams[k]? with
  | none =>
    rw [Cluster.wireOf, hst]
    rfl
  | some x =>
    obtain ⟨y, hy, hkept⟩ := hevolves.kept k x hst
    cases hst'.symm.trans hy
    rw [Cluster.wireOf_eq hst]
    exact h.clients hst (hkept.client.symm.trans hx')

theorem Attendance.step (h : Attendance s) (hs : Step peers s a s') : Attendance s' := by
  have hevolves := hs.evolves
  have hwired := hs.wired
  generalize s.strands a = o at hwired
  cases hwired with
  | same hpc hwire =>
    refine ⟨fun h1 h2 => h.once ((hpc _ _ _).mp h1) ((hpc _ _ _).mp h2), fun h1 => ?_,
      fun hst' hclient => h.client_wire hevolves hst' hclient (hwire _)⟩
    obtain ⟨st, hst, hclient⟩ := h.forwarded ((hpc _ _ _).mp h1)
    exact hevolves.forwarded hst hclient
  | @waits sid i hpc hnew hwire =>
    -- nobody was waiting for the stream that has just been opened
    have hfresh : ∀ {sid i}, s.pc sid i ≠ some (.receiving s.streams.length) := by
      intro sid i h'
      obtain ⟨st, hst, -⟩ := h.forwarded h'
      exact lt_irrefl _ (List.getElem?_eq_some_iff.mp hst).1
    refine ⟨fun h1 h2 => ?_, fun h1 => ?_,
      fun hst' hclient => h.client_wire hevolves hst' hclient (hwire _)⟩
    · rcases (hpc _ _ _).mp h1 with h1 | ⟨hs1, hi1, hk⟩ <;>
        rcases (hpc _ _ _).mp h2 with h2 | ⟨hs2, hi2, hk'⟩
      · exact h.once h1 h2
      · exact absurd (hk' ▸ h1) hfresh
      · exact absurd (hk ▸ h2) hfresh
      · exact ⟨hs1.trans hs2.symm, hi1.trans hi2.symm⟩
    · rcases (hpc _ _ _).mp h1 with h1 | ⟨-, -, rfl⟩
      · obtain ⟨st, hst, hclient⟩ := h.forwarded h1
        exact hevolves.forwarded hst hclient
      · exact hnew
  | @leaves sid i child rest hw hpc hwire =>
    refine ⟨fun h1 h2 => h.once ((hpc _ _ _).mp h1).1 ((hpc _ _ _).mp h2).1, fun h1 => ?_,
      fun hst' hclient => ?_⟩
    · obtain ⟨st, hst, hclient⟩ := h.forwarded ((hpc _ _ _).mp h1).1
      exact hevolves.forwarded hst hclient
    · obtain ⟨st, hst, hfalse⟩ := h.forwarded hw
      refine h.client_wire hevolves hst' hclient ?_
      rw [hwire, if_neg (hevolves.ne_of_client hst hfalse hst' hclient)]
  | sends hst hfalse hpc hwire =>
    refine ⟨fun h1 h2 => h.once ((hpc _ _ _).mp h1) ((hpc _ _ _).mp h2), fun h1 => ?_,
      fun hst' hclient => ?_⟩
    · obtain ⟨st, hst', hclient⟩ := h.forwarded ((hpc _ _ _).mp h1)
      exact hevolves.forwarded hst' hclient
    · refine h.client_wire hevolves hst' hclient ?_
      rw [hwire, if_neg (hevolves.ne_of_client hst hfalse hst' hclient)]

def strandedIn : Option (ℕ × List Item) → ℕ → List Item
  | some (child, items), k => if k = child then items else []
  | none, _ => []

theorem Wired.strandedAt {o : Option (ℕ × List Item)} (h : Wired s s' o) (hatt : Attendance s)
    (k : ℕ) : s'.strandedAt k = s.strandedAt k ++ strandedIn o k := by
  rw [Cluster.strandedAt_eq, Cluster.strandedAt_eq]
  cases h with
  | same hpc hwire =>
    rw [Cluster.attended_congr fun _ _ => hpc _ _ _, hwire]
    exact (List.append_nil _).symm
  | @waits sid i hpc hnew hwire =>
    rw [hwire]
    by_cases hk : k = s.streams.length
    · subst hk
      have hnil : s.wireOf s.streams.length = [] := by
        rw [Cluster.wireOf, List.getElem?_eq_none le_rfl]
        rfl
      simp [hnil, strandedIn]
    · have hsame : s'.attended k = s.attended k := Cluster.attended_congr fun sid' i' => by
        rw [hpc]
        exact or_iff_left fun h' => hk h'.2.2
      rw [hsame]
      exact (List.append_nil _).symm
  | @leaves sid i child rest hw hpc hwire =>
    rw [hwire]
    by_cases hk : k = child
    · subst hk
      have hwas : s.attended k = true := Cluster.attended_iff.mpr ⟨sid, i, hw⟩
      have hnow : s'.attended k = false := by
        rw [← Bool.not_eq_true, Cluster.attended_iff]
        rintro ⟨sid', i', h'⟩
        obtain ⟨hold, hne⟩ := (hpc _ _ _).mp h'
        exact hne (hatt.once hold hw)
      simp [hwas, hnow, strandedIn]
    · have hsame : s'.attended k = s.attended k := Cluster.attended_congr fun sid' i' => by
        rw [hpc]
        refine and_iff_left_of_imp fun h' heq => hk ?_
        rw [heq.1, heq.2, hw] at h'
        cases h'
        rfl
      rw [hsame, if_neg hk, strandedIn, if_neg hk, List.append_nil]
  | @sends sid st item hst hclient hpc hwire =>
    rw [Cluster.attended_congr fun _ _ => hpc _ _ _, hwire]
    by_cases hk : k = sid
    · subst hk
      cases hattended : s.attended k <;> simp [strandedIn]
    · rw [if_neg hk]
      cases hattended : s.attended sid <;> simp [strandedIn, hk]

theorem Wired.known {o : Option (ℕ × List Item)} (h : Wired s s' o) (hatt : Attendance s)
    {items : List Item} (ho : o = some (k, items)) : ∃ st, s.streams[k]? = some st := by
  cases h with
  | same | waits => cases ho
  | leaves hw =>
    cases ho
    obtain ⟨st, hst, -⟩ := hatt.forwarded hw
    exact ⟨st, hst⟩
  | sends hst =>
    split at ho
    · cases ho
    · cases ho
      exact ⟨_, hst⟩

end Step

end BlunMq
