import BlunMq.Raft.LogStore

/-!
# Calls on a log store, and what a range read answers

`StoreCall` is one call on the store, reader or writer. A truncation changes nothing,
so the suffix it names is dropped by the append that follows it, whatever votes and
commit marks are saved in between. A range is turned into a pair of `u64` before the
engine sees it; `Readable` says when the engine's answer is the range's own contents.
-/

namespace BlunMq

inductive StoreCall (δ : Type)
  | append (entries : List (Entry δ))
  | truncate (logId : LogId)
  | purge (logId : LogId)
  | saveVote (vote : Vote)
  | saveCommitted (committed : Option LogId)
  | readVote
  | readCommitted
  | getLogState
  | tryGetLogEntries (range : Range)
  deriving DecidableEq, Repr

namespace StoreCall
variable {δ : Type}

def KeepsLog : StoreCall δ → Prop
  | .append _ | .purge _ => False
  | _ => True

def truncated : StoreCall δ → Option UInt64
  | .truncate l => some l.index
  | _ => none

end StoreCall

namespace RaftEngineLogStore
variable {δ : Type} (E : RaftEngine) (codec : LogCodec δ)

def callStep (s : E.State) : StoreCall δ → E.State
  | .append es => (append E codec s es).1
  | .truncate l => (truncate E s l).1
  | .purge p => (purge E codec s p).1
  | .saveVote vote => (saveVote E codec s vote).1
  | .saveCommitted c => (saveCommitted E codec s c).1
  | .readVote | .readCommitted | .getLogState | .tryGetLogEntries _ => s

def LogView.call (v : LogView δ) : StoreCall δ → LogView δ
  | .append es => v.append es
  | .purge p => v.purge p
  | .saveVote vote => { v with vote := some vote }
  | .saveCommitted c => { v with committed := some c }
  | _ => v

/-- Only a batch can be refused. -/
def LogView.Allows (v : LogView δ) : StoreCall δ → Prop
  | .append es => v.Accepts es
  | _ => True

variable {E codec}

theorem Shows.call {s : E.State} {v : LogView δ} (h : Shows E codec s v) {c : StoreCall δ}
    (hc : v.Allows c) : Shows E codec (callStep E codec s c) (v.call c) := by
  cases c with
  | append es => exact (h.append hc).2
  | purge p => exact (h.purge p).2
  | saveVote vote => exact (h.saveVote vote).2
  | saveCommitted c => exact (h.saveCommitted c).2
  | truncate l => exact h
  | readVote => exact h
  | readCommitted => exact h
  | getLogState => exact h
  | tryGetLogEntries range => exact h

theorem index_le_top (i : UInt64) : i ≤ 18446744073709551615 := by
  have := i.toNat_lt
  rw [UInt64.le_iff_toNat_le]
  show i.toNat ≤ 18446744073709551615
  omega

/-- No bound is moved past the last `u64`. -/
def Range.Fits (range : Range) : Prop :=
  range.startBound ≠ .excluded 18446744073709551615 ∧
    range.endBound ≠ .included 18446744073709551615

def Range.contains (range : Range) (i : UInt64) : Bool :=
  (match range.startBound with
    | .included s => decide (s ≤ i)
    | .excluded s => decide (s < i)
    | .unbounded => true) &&
  (match range.endBound with
    | .included e => decide (i ≤ e)
    | .excluded e => decide (i < e)
    | .unbounded => true)

theorem Range.start_le_iff {range : Range} (h : range.startBound ≠ .excluded 18446744073709551615)
    (i : UInt64) :
    Range.start range ≤ i ↔
      match range.startBound with
      | .included s => s ≤ i
      | .excluded s => s < i
      | .unbounded => True := by
  unfold Range.start
  cases hb : range.startBound with
  | included s => exact Iff.rfl
  | excluded s =>
    have hs : s ≠ 18446744073709551615 := fun h' => h (by rw [hb, h'])
    simp only [UInt64.le_iff_toNat_le, UInt64.lt_iff_toNat_lt, UInt64.toNat_succ hs]
    omega
  | unbounded => simp [UInt64.le_iff_toNat_le]

theorem Range.lt_stop_iff {range : Range} (h : range.endBound ≠ .included 18446744073709551615)
    (i : UInt64) :
    i < Range.stop range ∨ range.endBound = .unbounded ↔
      match range.endBound with
      | .included e => i ≤ e
      | .excluded e => i < e
      | .unbounded => True := by
  unfold Range.stop
  cases hb : range.endBound with
  | included e =>
    have he : e ≠ 18446744073709551615 := fun h' => h (by rw [hb, h'])
    simp only [reduceCtorEq, or_false, UInt64.le_iff_toNat_le, UInt64.lt_iff_toNat_lt,
      UInt64.toNat_succ he]
    omega
  | excluded e => simp
  | unbounded => simp

theorem Range.contains_iff {range : Range} (h : Range.Fits range) (i : UInt64) :
    Range.contains range i = true ↔
      Range.start range ≤ i ∧ (i < Range.stop range ∨ range.endBound = .unbounded) := by
  rw [Range.start_le_iff h.1, Range.lt_stop_iff h.2, Range.contains, Bool.and_eq_true]
  cases range.startBound <;> cases range.endBound <;> simp

variable (E) in
/-- The bounds fit, an unbounded end hides no entry at the last `u64`, and in a store that
was ever written to the interval lies between the first entry and the place after the last,
or it is empty and small enough to make room for: `stop - start` wraps. -/
structure Readable (s : E.State) (v : LogView δ) (range : Range) : Prop where
  fits : Range.Fits range
  top : range.endBound = .unbounded → ∀ x ∈ v.entries, x.logId.index ≠ 18446744073709551615
  covered : (E.region s REGION_ID).written = true → Range.start range < Range.stop range →
    LogView.Covers v (Range.start range) (Range.stop range)
  room : (E.region s REGION_ID).written = true → Range.stop range ≤ Range.start range →
    (Range.stop range - Range.start range).toNat ≤ E.capacity

section Reads
variable {s : E.State} {v : LogView δ} {range : Range}

theorem fetch_iff (h : Shows E codec s v) (b e : UInt64) :
    (∃ bs, E.fetchEntriesTo s REGION_ID b e = .ok bs) ↔
      ((E.region s REGION_ID).written = true →
        if b < e then LogView.Covers v b e else (e - b).toNat ≤ E.capacity) := by
  cases hw : (E.region s REGION_ID).written with
  | false =>
    simp only [Bool.false_eq_true, false_implies, iff_true]
    exact ⟨[], E.fetch_unwritten s REGION_ID b e hw⟩
  | true => simp only [forall_const, E.fetch_answers s REGION_ID b e hw, Region.Answers,
      h.covers_iff]

theorem Readable.fetch (hr : Readable E s v range) (h : Shows E codec s v) :
    E.fetchEntriesTo s REGION_ID (Range.start range) (Range.stop range) =
      .ok ((E.region s REGION_ID).between (Range.start range) (Range.stop range)) := by
  obtain ⟨bs, hbs⟩ := (fetch_iff h (Range.start range) (Range.stop range)).mpr fun hw => by
    split_ifs with hlt
    · exact hr.covered hw hlt
    · exact hr.room hw (UInt64.not_lt.mp hlt)
  rw [hbs, E.fetch_ok s REGION_ID _ _ bs hbs]

theorem Readable.filter_eq (hr : Readable E s v range) :
    (v.entries.filter fun x =>
      decide (Range.start range ≤ x.logId.index ∧ x.logId.index < Range.stop range)) =
      v.entries.filter fun x => Range.contains range x.logId.index := by
  refine List.filter_congr fun x hx => ?_
  rw [Bool.eq_iff_iff, decide_eq_true_eq, Range.contains_iff hr.fits]
  refine and_congr_right fun _ => ⟨Or.inl, ?_⟩
  rintro (hlt | hu)
  · exact hlt
  · -- the unbounded end stands for the last `u64` itself
    have hne := hr.top hu x hx
    have hx := x.logId.index.toNat_lt
    have hne' : x.logId.index.toNat ≠ 18446744073709551615 :=
      fun h' => hne (UInt64.toNat_inj.mp h')
    rw [Range.stop, hu, UInt64.lt_iff_toNat_lt]
    show x.logId.index.toNat < 18446744073709551615
    omega

theorem Readable.read (hr : Readable E s v range) (h : Shows E codec s v) :
    tryGetLogEntries E codec s range =
      .ok (v.entries.filter fun x => Range.contains range x.logId.index) := by
  rw [h.tryGetLogEntries_of_fetch (hr.fetch h), hr.filter_eq]

theorem fetch_of_read {es : List (Entry δ)} (hes : tryGetLogEntries E codec s range = .ok es) :
    ∃ bs, E.fetchEntriesTo s REGION_ID (Range.start range) (Range.stop range) = .ok bs := by
  cases hf : E.fetchEntriesTo s REGION_ID (Range.start range) (Range.stop range) with
  | error err =>
    rw [tryGetLogEntries, hf] at hes
    cases hes
  | ok bs => exact ⟨bs, rfl⟩

theorem read_lt_top (h : Shows E codec s v) {es : List (Entry δ)}
    (hes : tryGetLogEntries E codec s range = .ok es) {x : Entry δ} (hx : x ∈ es) :
    x.logId.index ≠ 18446744073709551615 := by
  rw [h.tryGetLogEntries_ok hes] at hx
  have hlt : x.logId.index < Range.stop range := (by simpa using (List.mem_filter.mp hx).2 :
    Range.start range ≤ x.logId.index ∧ x.logId.index < Range.stop range).2
  intro heq
  rw [heq, UInt64.lt_iff_toNat_lt] at hlt
  have := (Range.stop range).toNat_lt
  simp only [UInt64.reduceToNat] at hlt
  omega

variable (range) in
theorem tryGetLogEntries_eq_contained_iff (h : Shows E codec s v) :
    (Range.Fits range ∧ tryGetLogEntries E codec s range =
      .ok (v.entries.filter fun x => Range.contains range x.logId.index)) ↔
      Readable E s v range := by
  constructor
  · rintro ⟨hfits, hread⟩
    have hanswer := (fetch_iff h (Range.start range) (Range.stop range)).mp (fetch_of_read hread)
    refine ⟨hfits, fun hu x hx htop => ?_, fun hw hlt => ?_, fun hw hle => ?_⟩
    · have hc : Range.contains range x.logId.index = true :=
        (Range.contains_iff hfits _).mpr ⟨htop ▸ index_le_top _, .inr hu⟩
      exact read_lt_top h hread (List.mem_filter.mpr ⟨hx, hc⟩) htop
    · have hcovered := hanswer hw
      rwa [if_pos hlt] at hcovered
    · have hroom := hanswer hw
      rwa [if_neg (UInt64.not_lt.mpr hle)] at hroom
  · intro hr
    exact ⟨hr.fits, hr.read h⟩

end Reads

theorem open_range_past_the_log :
    let codec := LogCodec.json Json.queueRequest
    let entry : Entry QueueRequest := ⟨⟨⟨1, 1⟩, 0⟩, .blank⟩
    let s := callStep memEngine codec memEngine.openEmpty (.append [entry])
    let range : Range := ⟨.included 0, .unbounded⟩
    Shows memEngine codec s ⟨none, none, none, [entry]⟩ ∧
      Range.contains range entry.logId.index = true ∧
      tryGetLogEntries memEngine codec s range =
        .error (.engine (.other "capacity overflow")) := by
  intro codec entry s range
  have hacc : (LogView.empty : LogView QueueRequest).Allows (.append [entry]) :=
    ⟨by simp, by simp, nofun, nofun, nofun⟩
  exact ⟨Shows.openEmpty.call hacc, by decide, by decide +kernel⟩

theorem tryGetLogEntries_eq_contained_middle :
    let codec := LogCodec.json Json.queueRequest
    let e : UInt64 → Entry QueueRequest := fun i => ⟨⟨⟨1, 1⟩, i⟩, .normal (.pop "spam")⟩
    let s := callStep memEngine codec memEngine.openEmpty (.append [e 4, e 5, e 6])
    tryGetLogEntries memEngine codec s ⟨.excluded 4, .included 5⟩ = .ok [e 5] := by
  intro codec e s
  have hacc : (LogView.empty : LogView QueueRequest).Allows (.append [e 4, e 5, e 6]) :=
    ⟨by simp, by simp [e], nofun, nofun, nofun⟩
  have hs : Shows memEngine codec s ⟨none, none, none, [e 4, e 5, e 6]⟩ :=
    Shows.openEmpty.call hacc
  have hr : Readable memEngine s ⟨none, none, none, [e 4, e 5, e 6]⟩
      ⟨.excluded 4, .included 5⟩ := by
    refine ⟨⟨by decide, by decide⟩, by simp, fun _ _ => ⟨e 4, rfl, e 6, rfl, ?_, ?_, ?_⟩,
      fun _ hle => absurd hle (by decide)⟩
    · decide
    · decide
    · decide
  exact ((tryGetLogEntries_eq_contained_iff ⟨.excluded 4, .included 5⟩ hs).mpr hr).2

structure TruncatesTo (calls : List (StoreCall δ)) (first last t : UInt64) : Prop where
  keepsLog : ∀ c ∈ calls, c.KeepsLog
  within : ∀ u ∈ calls.filterMap StoreCall.truncated, first ≤ u ∧ u ≤ last
  backwards : (calls.filterMap StoreCall.truncated).Pairwise (· ≥ ·)
  final : (calls.filterMap StoreCall.truncated).getLast? = some t

theorem Shows.run_keepsLog {calls : List (StoreCall δ)} (hk : ∀ c ∈ calls, c.KeepsLog) :
    ∀ {s : E.State} {v : LogView δ}, Shows E codec s v → ∃ vote committed,
      Shows E codec (calls.foldl (callStep E codec) s)
        ⟨vote, v.lastPurged, committed, v.entries⟩ := by
  induction calls with
  | nil => exact fun {_ v} h => ⟨v.vote, v.committed, h⟩
  | cons c calls ih =>
    intro s v h
    have hkeep := hk c (by simp)
    have hallow : v.Allows c := by
      cases c with
      | append es => exact hkeep.elim
      | _ => trivial
    obtain ⟨vote, committed, hrun⟩ := ih (fun c hc => hk c (by simp [hc])) (h.call hallow)
    refine ⟨vote, committed, ?_⟩
    cases c with
    | append es => exact hkeep.elim
    | purge p => exact hkeep.elim
    | _ => exact hrun

theorem Range.startBound_ne_of_contains {range : Range} {i : UInt64}
    (hi : Range.contains range i = true) :
    range.startBound ≠ .excluded 18446744073709551615 := by
  intro hs
  rw [Range.contains, hs] at hi
  have hlt : (18446744073709551615 : UInt64) < i := by simpa using (Bool.and_eq_true_iff.mp hi).1
  exact absurd (index_le_top i) (UInt64.not_le.mpr hlt)

theorem Range.contains_top {range : Range} {i : UInt64} (hi : Range.contains range i = true)
    (hend : range.endBound = .included 18446744073709551615 ∨ range.endBound = .unbounded) :
    Range.contains range 18446744073709551615 = true := by
  have hstart : (match range.startBound with
      | .included s => decide (s ≤ 18446744073709551615)
      | .excluded s => decide (s < 18446744073709551615)
      | .unbounded => true) = true := by
    have hs := (Bool.and_eq_true_iff.mp hi).1
    cases hb : range.startBound with
    | included s => simpa using index_le_top s
    | excluded s =>
      rw [hb] at hs
      simpa using UInt64.lt_of_lt_of_le (by simpa using hs) (index_le_top i)
    | unbounded => rfl
  rw [Range.contains, hstart]
  rcases hend with h | h <;> simp [h]

theorem readable_of_contains {s : E.State} {v : LogView δ} {first last : Entry δ} {range : Range}
    (hf : v.entries.head? = some first) (hl : v.entries.getLast? = some last)
    (hlast : last.logId.index ≠ 18446744073709551615) {i : UInt64}
    (hi : Range.contains range i = true)
    (hin : ∀ j, Range.contains range j = true →
      first.logId.index ≤ j ∧ j ≤ last.logId.index) : Readable E s v range := by
  have htop : ¬ Range.contains range 18446744073709551615 = true := fun h =>
    hlast (UInt64.le_antisymm (index_le_top _) (hin _ h).2)
  have hend : ∀ h : range.endBound = .included 18446744073709551615 ∨
      range.endBound = .unbounded, False := fun h => htop (Range.contains_top hi h)
  have hfits : Range.Fits range :=
    ⟨Range.startBound_ne_of_contains hi, fun h => hend (.inl h)⟩
  have hiff : ∀ j, Range.contains range j = true ↔
      Range.start range ≤ j ∧ j < Range.stop range := by
    intro j
    rw [Range.contains_iff hfits]
    exact and_congr_right fun _ => ⟨fun h => h.resolve_right fun hu => hend (.inr hu), Or.inl⟩
  obtain ⟨hi1, hi2⟩ := (hiff i).mp hi
  have hlt : Range.start range < Range.stop range := UInt64.lt_of_le_of_lt hi1 hi2
  have hlt' := UInt64.lt_iff_toNat_lt.mp hlt
  -- the two ends of the interval are contained in the range
  have hpred : (Range.stop range - 1).toNat = (Range.stop range).toNat - 1 := by
    rw [UInt64.toNat_sub_of_le _ _ (UInt64.le_iff_toNat_le.mpr (by
      rw [UInt64.toNat_one]; omega))]
    rfl
  have hlow := hin _ ((hiff (Range.start range)).mpr ⟨UInt64.le_refl _, hlt⟩)
  have hhigh := hin _ ((hiff (Range.stop range - 1)).mpr (by
    rw [UInt64.le_iff_toNat_le, UInt64.lt_iff_toNat_lt, hpred]
    omega))
  rw [UInt64.le_iff_toNat_le (a := Range.stop range - 1), hpred] at hhigh
  refine ⟨hfits, fun hu => (hend (.inr hu)).elim, fun _ _ => ⟨first, hf, last, hl, hlow.1, ?_,
    hlast⟩, fun _ hle => absurd hlt (UInt64.not_lt.mpr hle)⟩
  omega

theorem append_refused {s : E.State} {v : LogView δ} (h : Shows E codec s v) {x : Entry δ}
    (hx : x ∈ v.entries) (htop : x.logId.index = 18446744073709551615) {es : List (Entry δ)}
    (hne : es ≠ []) : (append E codec s es).2 ≠ .ok () := by
  have hwrite := E.write_refused s REGION_ID (es.map (encodeEntry codec)) true (by simpa using hne)
    ⟨encodeEntry codec x, by
      rw [h.entries]
      exact List.mem_map_of_mem hx, htop⟩
  intro hok
  simp only [append] at hok
  cases hw : (E.write s [.addEntries REGION_ID (es.map (encodeEntry codec))] true).2 with
  | ok u => exact hwrite hw
  | error err =>
    rw [hw] at hok
    cases hok

variable (E codec) in
/-- What truncating leaves to the append: the batch is stored behind the old entries below its
first index, and every range from the first entry to the new last one is read back. -/
structure Completes (w : E.State × Except StorageError Unit) (lastPurged : Option LogId)
    (first : UInt64) (kept batch : List (Entry δ)) : Prop where
  ok : w.2 = .ok ()
  logState : getLogState E codec w.1 = .ok ⟨lastPurged, batch.getLast?.map Entry.logId⟩
  blobs : ∀ blob ∈ (E.region w.1 REGION_ID).entries,
    ∃ entry, decodeEntry codec blob = .ok entry ∧ entry.logId.index = blob.index
  reads : ∀ range : Range, (∃ i, Range.contains range i = true) →
    (∀ i, Range.contains range i = true → first ≤ i ∧
      ∀ e ∈ batch.getLast?, i ≤ e.logId.index) →
    tryGetLogEntries E codec w.1 range =
      .ok ((kept ++ batch).filter fun x => Range.contains range x.logId.index)

section Completed
variable {s : E.State} {v : LogView δ} {first last : Entry δ} {calls : List (StoreCall δ)}
  {t : UInt64} {batch : List (Entry δ)}

theorem kept_head (e : Entry δ) (es : List (Entry δ))
    (hinc : v.entries.Pairwise fun a b => a.logId.index < b.logId.index)
    (hf : v.entries.head? = some first) (hle : first.logId.index ≤ e.logId.index) :
    ∃ x, (v.entries.filter (fun x => decide (x.logId.index < e.logId.index)) ++
        e :: es).head? = some x ∧ x.logId.index = first.logId.index := by
  obtain ⟨rest, hrest⟩ := List.head?_eq_some_iff.mp hf
  rw [hrest] at hinc ⊢
  by_cases hlt : first.logId.index < e.logId.index
  · exact ⟨first, by simp [hlt], rfl⟩
  · have heq : e.logId.index = first.logId.index :=
      UInt64.le_antisymm (UInt64.not_lt.mp hlt) hle
    refine ⟨e, ?_, heq⟩
    have hnone : (first :: rest).filter (fun x => decide (x.logId.index < e.logId.index)) = [] := by
      refine List.filter_eq_nil_iff.mpr fun x hx => ?_
      rw [decide_eq_true_eq, UInt64.not_lt, heq]
      rcases List.mem_cons.mp hx with rfl | hx
      · exact UInt64.le_refl _
      · exact UInt64.le_of_lt ((List.pairwise_cons.mp hinc).1 x hx)
    rw [hnone]
    rfl

theorem getLast?_append_cons {α : Type} (xs : List α) (y : α) (ys : List α) :
    (xs ++ y :: ys).getLast? = (y :: ys).getLast? := by
  rw [List.getLast?_append, List.getLast?_eq_some_getLast (List.cons_ne_nil y ys)]
  rfl

theorem Shows.completes {w : E.State × Except StorageError Unit} {e : Entry δ}
    {es : List (Entry δ)} (hok : w.2 = .ok ())
    (hw : Shows E codec w.1 (v.append (e :: es)))
    (hinc : v.entries.Pairwise fun a b => a.logId.index < b.logId.index)
    (hf : v.entries.head? = some first) (hle : first.logId.index ≤ e.logId.index)
    (htop : ∀ x ∈ e :: es, x.logId.index ≠ 18446744073709551615) :
    Completes E codec w v.lastPurged first.logId.index
      (v.entries.filter fun x => decide (x.logId.index < e.logId.index)) (e :: es) := by
  have hlast := List.getLast?_eq_some_getLast (List.cons_ne_nil e es)
  refine ⟨hok, ?_, ?_, ?_⟩
  · rw [hw.getLogState, LogView.lastLogId, LogView.append, getLast?_append_cons, hlast]
    rfl
  · intro blob hblob
    rw [hw.entries] at hblob
    obtain ⟨x, -, rfl⟩ := List.mem_map.mp hblob
    exact ⟨x, decode_encodeEntry x, rfl⟩
  · rintro range ⟨i, hi⟩ hin
    obtain ⟨x, hx, hxi⟩ := kept_head e es hinc hf hle
    exact (readable_of_contains hx ((getLast?_append_cons _ e es).trans hlast)
      (htop _ (List.getLast_mem _)) hi
      fun j hj => ⟨hxi ▸ (hin j hj).1, (hin j hj).2 _ hlast⟩).read hw

theorem Completes.below {w : E.State × Except StorageError Unit} {e : Entry δ}
    {es : List (Entry δ)} (hw : Shows E codec w.1 (v.append (e :: es)))
    (h : Completes E codec w v.lastPurged first.logId.index
      (v.entries.filter fun x => decide (x.logId.index < e.logId.index)) (e :: es)) :
    ∀ x ∈ e :: es, x.logId.index ≠ 18446744073709551615 := by
  intro x hx htop
  have hmem : x ∈ (v.append (e :: es)).entries := List.mem_append_right _ hx
  have hself : Range.contains ⟨.included x.logId.index, .included x.logId.index⟩ x.logId.index =
      true := by simp [Range.contains]
  refine read_lt_top hw (h.reads _ ⟨_, hself⟩ fun i hi => ?_)
    (List.mem_filter.mpr ⟨hmem, hself⟩) htop
  have hi : i = x.logId.index := by
    simp only [Range.contains, Bool.and_eq_true, decide_eq_true_eq] at hi
    exact UInt64.le_antisymm hi.2 hi.1
  subst hi
  refine ⟨htop ▸ index_le_top _, fun last hl => UInt64.le_iff_toNat_le.mpr ?_⟩
  exact hw.index_le_last ((getLast?_append_cons _ e es).trans hl) hmem

/-- An append at the truncation point leaves the old entries below it and the batch, read
back in every range, exactly when none of the entries has the last `u64` for an index. -/
theorem append_completes_truncation (h : Shows E codec s v) (hf : v.entries.head? = some first)
    (hl : v.entries.getLast? = some last)
    (hcalls : TruncatesTo calls first.logId.index last.logId.index t)
    (hbatch : batch.IsChain fun a b => b.logId.index.toNat = a.logId.index.toNat + 1)
    (hfirst : batch.head?.map (fun e => e.logId.index) = some t) :
    Completes E codec (append E codec (calls.foldl (callStep E codec) s) batch) v.lastPurged
        first.logId.index (v.entries.filter fun x => decide (x.logId.index < t)) batch ↔
      ∀ x ∈ v.entries ++ batch, x.logId.index ≠ 18446744073709551615 := by
  obtain ⟨vote, committed, hrun⟩ := h.run_keepsLog hcalls.keepsLog
  obtain ⟨hlow, hhigh⟩ := hcalls.within t (List.mem_of_getLast? hcalls.final)
  obtain ⟨e, hhead, rfl⟩ := Option.map_eq_some_iff.mp hfirst
  obtain ⟨es, rfl⟩ := List.head?_eq_some_iff.mp hhead
  have happend : (∀ x ∈ v.entries, x.logId.index ≠ 18446744073709551615) →
      (append E codec (calls.foldl (callStep E codec) s) (e :: es)).2 = .ok () ∧
        Shows E codec (append E codec (calls.foldl (callStep E codec) s) (e :: es)).1
          (LogView.append ⟨vote, v.lastPurged, committed, v.entries⟩ (e :: es)) := by
    refine fun hbelow => hrun.append ⟨by simp, hbatch, hbelow, ?_, ?_⟩
    · rintro _ ⟨⟩ x hx
      cases hf.symm.trans hx
      exact hlow
    · rintro _ ⟨⟩ x hx
      cases hl.symm.trans hx
      have := UInt64.le_iff_toNat_le.mp hhigh
      omega
  constructor
  · intro hcompletes
    have hold : ∀ x ∈ v.entries, x.logId.index ≠ 18446744073709551615 := fun x hx htop =>
      append_refused hrun hx htop (by simp) hcompletes.ok
    intro x hx
    rcases List.mem_append.mp hx with hx | hx
    · exact hold x hx
    · exact hcompletes.below (v := ⟨vote, v.lastPurged, committed, v.entries⟩)
        (happend hold).2 x hx
  · intro htop
    obtain ⟨hok, hw⟩ := happend fun x hx => htop x (List.mem_append_left _ hx)
    exact hw.completes (v := ⟨vote, v.lastPurged, committed, v.entries⟩) hok h.increasing hf hlow
      fun x hx => htop x (List.mem_append_right _ hx)

end Completed

theorem last_index_not_read_back :
    let codec := LogCodec.json Json.queueRequest
    let e : UInt64 → UInt64 → Entry QueueRequest := fun term i => ⟨⟨⟨term, 1⟩, i⟩, .blank⟩
    let next : UInt64 := 18446744073709551614
    let top : UInt64 := 18446744073709551615
    let s := callStep memEngine codec memEngine.openEmpty (.append [e 1 next])
    let w := append memEngine codec
      ([.truncate (e 1 next).logId].foldl (callStep memEngine codec) s) [e 2 next, e 2 top]
    Shows memEngine codec s ⟨none, none, none, [e 1 next]⟩ ∧
      TruncatesTo ([.truncate (e 1 next).logId] : List (StoreCall QueueRequest)) next next next ∧
      w.2 = .ok () ∧ getLogState memEngine codec w.1 = .ok ⟨none, some (e 2 top).logId⟩ ∧
      tryGetLogEntries memEngine codec w.1 ⟨.included next, .included next⟩ =
        .error (.engine .entryNotFound) ∧
      ¬ Completes memEngine codec w none next [] [e 2 next, e 2 top] := by
  intro codec e next top s w
  have hacc : (LogView.empty : LogView QueueRequest).Allows (.append [e 1 next]) :=
    ⟨by simp, by simp, nofun, nofun, nofun⟩
  have hread : tryGetLogEntries memEngine codec w.1 ⟨.included next, .included next⟩ =
      .error (.engine .entryNotFound) := by decide +kernel
  refine ⟨Shows.openEmpty.call hacc, ⟨by simp [StoreCall.KeepsLog], ?_, ?_, ?_⟩, ?_, ?_, hread,
    fun hcompletes => ?_⟩
  · simp [StoreCall.truncated, e]
  · simp [StoreCall.truncated]
  · simp [StoreCall.truncated, e]
  · decide +kernel
  · decide +kernel
  · have hok := hcompletes.reads ⟨.included next, .included next⟩ ⟨next, by decide⟩ fun i hi => by
      have hi : next ≤ i ∧ i ≤ next := by simpa [Range.contains] using hi
      refine ⟨hi.1, ?_⟩
      rintro _ ⟨⟩
      exact UInt64.le_trans hi.2 (by decide)
    rw [hread] at hok
    cases hok

theorem append_completes_truncation_shorter :
    let codec := LogCodec.json Json.queueRequest
    let e : UInt64 → UInt64 → Entry QueueRequest := fun t i => ⟨⟨⟨t, 1⟩, i⟩, .blank⟩
    let s := callStep memEngine codec memEngine.openEmpty (.append [e 1 4, e 1 5, e 1 6])
    let calls : List (StoreCall QueueRequest) :=
      [.truncate (e 1 6).logId, .saveVote ⟨⟨2, 2⟩, false⟩, .truncate (e 1 5).logId, .readVote]
    let w := append memEngine codec (calls.foldl (callStep memEngine codec) s) [e 2 5]
    getLogState memEngine codec w.1 = .ok ⟨none, some (e 2 5).logId⟩ ∧
      tryGetLogEntries memEngine codec w.1 ⟨.included 4, .included 5⟩ = .ok [e 1 4, e 2 5] := by
  intro codec e s calls w
  have hacc : (LogView.empty : LogView QueueRequest).Allows (.append [e 1 4, e 1 5, e 1 6]) :=
    ⟨by simp, by simp [e], nofun, nofun, nofun⟩
  have hs : Shows memEngine codec s ⟨none, none, none, [e 1 4, e 1 5, e 1 6]⟩ :=
    Shows.openEmpty.call hacc
  have hcalls : TruncatesTo calls 4 6 5 := by
    have htruncated : calls.filterMap StoreCall.truncated = [6, 5] := rfl
    refine ⟨by simp [calls, StoreCall.KeepsLog], ?_, ?_, ?_⟩
    · simp [htruncated]
    · simp [htruncated]
    · simp [htruncated]
  have hchain : [e 2 5].IsChain fun a b => b.logId.index.toNat = a.logId.index.toNat + 1 := by simp
  have hcompletes := (append_completes_truncation hs rfl rfl hcalls hchain rfl).mpr (by simp [e])
  refine ⟨hcompletes.logState, hcompletes.reads ⟨.included 4, .included 5⟩ ⟨4, by decide⟩ ?_⟩
  intro i hi
  have hin : 4 ≤ i ∧ i ≤ 5 := by simpa [Range.contains] using hi
  refine ⟨hin.1, fun x hx => ?_⟩
  cases hx
  exact hin.2

end RaftEngineLogStore
end BlunMq
