import BlunMq.Raft.Engine
import BlunMq.Raft.Json

/-!
# The log store over raft-engine

`RaftEngineLogStore` is generic in the command type and in the engine. Every call
returns the engine's next state with the call's result; the flush callback of
`append` is given the same result. `LogView` is what the store's own readers see of
an engine state, and there is one lemma per call that says what it does to the view.
-/

namespace BlunMq

structure LogCodec (δ : Type) where
  entry : SerdeJson (Entry δ)
  logId : SerdeJson LogId
  committed : SerdeJson (Option LogId)
  vote : SerdeJson Vote

def LogCodec.json {δ : Type} (req : Printer δ) : LogCodec δ where
  entry := Json.serde (Json.entry req)
  logId := Json.serde Json.logId
  committed := Json.serde Json.committed
  vote := Json.serde Json.vote

/-- `to_storage_err` wraps every error alike; the wrapped error is kept. -/
inductive StorageError
  | engine (source : EngineError)
  | json
  deriving DecidableEq, Repr

inductive Bound
  | included (index : UInt64)
  | excluded (index : UInt64)
  | unbounded
  deriving DecidableEq, Repr

structure Range where
  startBound : Bound
  endBound : Bound
  deriving DecidableEq, Repr

structure LogState where
  lastPurgedLogId : Option LogId
  lastLogId : Option LogId
  deriving DecidableEq, Repr

namespace RaftEngineLogStore

def REGION_ID : UInt64 := 1

def VOTE_KEY : String := "vote"
def LAST_PURGED_KEY : String := "last_purged"
def COMMITTED_KEY : String := "committed"

variable {δ : Type} (E : RaftEngine) (codec : LogCodec δ)

def encodeEntry (entry : Entry δ) : Blob := ⟨entry.logId.index, codec.entry.toVec entry⟩

def fromSlice {α : Type} (serde : SerdeJson α) (data : Bytes) : Except StorageError α :=
  match serde.fromSlice data with
  | some a => .ok a
  | none => .error .json

def decodeEntry (blob : Blob) : Except StorageError (Entry δ) := fromSlice codec.entry blob.data

/-- The bound arithmetic is on `u64` and wraps. -/
def Range.start (range : Range) : UInt64 :=
  match range.startBound with
  | .included s => s
  | .excluded s => s + 1
  | .unbounded => 0

def Range.stop (range : Range) : UInt64 :=
  match range.endBound with
  | .included e => e + 1
  | .excluded e => e
  | .unbounded => 18446744073709551615

def getBlobMessage (self : E.State) (key : String) : Except StorageError (Option Blob) :=
  (E.getMessage self REGION_ID key).mapError .engine

/-- `get_blob_message(key)?.map(from_slice).transpose()`. -/
def readMessage {α : Type} (serde : SerdeJson α) (self : E.State) (key : String) :
    Except StorageError (Option α) := do
  let blob ← getBlobMessage E self key
  blob.mapM fun b => fromSlice serde b.data

def writeMessage {α : Type} (serde : SerdeJson α) (self : E.State) (key : String) (value : α) :
    E.State × Except StorageError Unit :=
  let blob : Blob := ⟨0, serde.toVec value⟩
  let written := E.write self [.putMessage REGION_ID key blob] true
  (written.1, written.2.mapError .engine)

def tryGetLogEntries (self : E.State) (range : Range) :
    Except StorageError (List (Entry δ)) := do
  let blobs ← (E.fetchEntriesTo self REGION_ID (Range.start range) (Range.stop range)).mapError
    .engine
  blobs.mapM (decodeEntry codec)

def getLogState (self : E.State) : Except StorageError LogState := do
  let lastPurgedLogId ← readMessage E codec.logId self LAST_PURGED_KEY
  let lastLogId ← match E.lastIndex self REGION_ID with
    | some idx => do
      let entry ← (E.getEntry self REGION_ID idx).mapError .engine
      let decoded ← entry.mapM (decodeEntry codec)
      pure (decoded.map Entry.logId)
    | none => pure none
  pure ⟨lastPurgedLogId, lastLogId <|> lastPurgedLogId⟩

def saveVote (self : E.State) (vote : Vote) : E.State × Except StorageError Unit :=
  writeMessage E codec.vote self VOTE_KEY vote

def saveCommitted (self : E.State) (committed : Option LogId) :
    E.State × Except StorageError Unit :=
  writeMessage E codec.committed self COMMITTED_KEY committed

/-- A key never written and a saved `None` read alike. -/
def readCommitted (self : E.State) : Except StorageError (Option LogId) :=
  (readMessage E codec.committed self COMMITTED_KEY).map Option.join

def readVote (self : E.State) : Except StorageError (Option Vote) :=
  readMessage E codec.vote self VOTE_KEY

def append (self : E.State) (entries : List (Entry δ)) : E.State × Except StorageError Unit :=
  let blobs := entries.map (encodeEntry codec)
  let written := E.write self [.addEntries REGION_ID blobs] true
  (written.1, written.2.mapError .engine)

/-- The suffix is left to a later `append`. -/
def truncate (self : E.State) (_logId : LogId) : E.State × Except StorageError Unit :=
  (self, .ok ())

/-- The key is written first; a failed write returns before the compaction. -/
def purge (self : E.State) (logId : LogId) : E.State × Except StorageError Unit :=
  let written := writeMessage E codec.logId self LAST_PURGED_KEY logId
  match written.2 with
  | .error err => (written.1, .error err)
  | .ok () => (E.compactTo written.1 REGION_ID (logId.index + 1), .ok ())

/-- The contents of a log store; `committed` tells a key never written from `None`. -/
structure LogView (δ : Type) where
  vote : Option Vote
  lastPurged : Option LogId
  committed : Option (Option LogId)
  entries : List (Entry δ)

def LogView.empty : LogView δ := ⟨none, none, none, []⟩

def LogView.lastLogId (v : LogView δ) : Option LogId :=
  v.entries.getLast?.map Entry.logId <|> v.lastPurged

def LogView.append (v : LogView δ) : List (Entry δ) → LogView δ
  | [] => v
  | e :: es =>
    { v with entries :=
        v.entries.filter (fun x => decide (x.logId.index < e.logId.index)) ++ e :: es }

theorem LogView.append_of_lt {v : LogView δ} {e : Entry δ} {es : List (Entry δ)}
    (h : ∀ x ∈ v.entries, x.logId.index < e.logId.index) :
    v.append (e :: es) = { v with entries := v.entries ++ e :: es } := by
  rw [LogView.append, List.filter_eq_self.mpr fun x hx => by simpa using h x hx]

def LogView.purge (v : LogView δ) (logId : LogId) : LogView δ :=
  { v with
    lastPurged := some logId
    entries := v.entries.filter fun x => decide (logId.index + 1 ≤ x.logId.index) }

structure LogView.Accepts (v : LogView δ) (es : List (Entry δ)) : Prop where
  nonempty : es ≠ []
  consecutive : es.IsChain fun a b => b.logId.index.toNat = a.logId.index.toNat + 1
  below : ∀ x ∈ v.entries, x.logId.index ≠ 18446744073709551615
  start : ∀ e ∈ es.head?, ∀ first ∈ v.entries.head?, first.logId.index ≤ e.logId.index
  noHole : ∀ e ∈ es.head?, ∀ last ∈ v.entries.getLast?,
    e.logId.index.toNat ≤ last.logId.index.toNat + 1

abbrev LogView.Increasing (v : LogView δ) : Prop :=
  v.entries.Pairwise fun a b => a.logId.index < b.logId.index

theorem LogView.Increasing.le_last {v : LogView δ} (h : v.Increasing) {last x : Entry δ}
    (hl : v.entries.getLast? = some last) (hx : x ∈ v.entries) :
    x.logId.index.toNat ≤ last.logId.index.toNat := by
  obtain ⟨pre, hpre⟩ := List.getLast?_eq_some_iff.mp hl
  unfold LogView.Increasing at h
  rw [hpre, List.pairwise_append] at h
  rw [hpre] at hx
  rcases List.mem_append.mp hx with hmem | hmem
  · exact (UInt64.lt_iff_toNat_lt.mp (h.2.2 x hmem last (by simp))).le
  · rw [List.mem_singleton.mp hmem]

theorem LogView.accepts_of_next {v : LogView δ} (hinc : v.Increasing) {es : List (Entry δ)}
    (hne : es ≠ []) (hc : es.IsChain fun a b => b.logId.index.toNat = a.logId.index.toNat + 1)
    (hnext : ∀ e ∈ es.head?, ∀ last ∈ v.entries.getLast?,
      e.logId.index.toNat = last.logId.index.toNat + 1) : v.Accepts es := by
  obtain ⟨e, es, rfl⟩ := List.exists_cons_of_ne_nil hne
  have hlt : ∀ x ∈ v.entries, x.logId.index.toNat < e.logId.index.toNat := by
    intro x hx
    have hl := List.getLast?_eq_some_getLast (List.ne_nil_of_mem hx)
    have hle := hinc.le_last hl hx
    have := hnext e rfl _ hl
    omega
  refine ⟨hne, hc, fun x hx htop => ?_, ?_, ?_⟩
  · have hx := hlt x hx
    have := e.logId.index.toNat_lt
    rw [htop] at hx
    simp only [UInt64.reduceToNat] at hx
    omega
  · rintro _ ⟨⟩ first hf
    exact UInt64.le_iff_toNat_le.mpr (hlt first (List.mem_of_head? hf)).le
  · rintro _ ⟨⟩ last hl
    exact (hnext e rfl last hl).le

theorem LogView.accepts_of_isChain {v : LogView δ} (hinc : v.Increasing) {es : List (Entry δ)}
    {R : LogId → LogId → Prop} (hR : ∀ a b, R a b → b.index.toNat = a.index.toNat + 1)
    (hne : es ≠ []) (hc : (v.lastLogId.toList ++ es.map Entry.logId).IsChain R) :
    v.Accepts es := by
  rw [List.isChain_append] at hc
  refine LogView.accepts_of_next hinc hne ?_ fun e he last hl => ?_
  · have hes := hc.2.1
    rw [List.isChain_map] at hes
    exact hes.imp fun a b hab => hR _ _ hab
  · have hl' : v.entries.getLast? = some last := hl
    have he' : es.head? = some e := he
    exact hR _ _ (hc.2.2 last.logId (by simp [LogView.lastLogId, hl']) e.logId (by simp [he']))

def LogView.Covers (v : LogView δ) (b e : UInt64) : Prop :=
  ∃ first ∈ v.entries.head?, ∃ last ∈ v.entries.getLast?, first.logId.index ≤ b ∧
    e.toNat ≤ last.logId.index.toNat + 1 ∧ last.logId.index ≠ 18446744073709551615

def messageBlob {α : Type} (serde : SerdeJson α) (value : α) : Blob := ⟨0, serde.toVec value⟩

structure Shows (s : E.State) (v : LogView δ) : Prop where
  vote : (E.region s REGION_ID).message VOTE_KEY = v.vote.map (messageBlob codec.vote)
  lastPurged : (E.region s REGION_ID).message LAST_PURGED_KEY =
    v.lastPurged.map (messageBlob codec.logId)
  committed : (E.region s REGION_ID).message COMMITTED_KEY =
    v.committed.map (messageBlob codec.committed)
  entries : (E.region s REGION_ID).entries = v.entries.map (encodeEntry codec)
  increasing : v.Increasing

variable {E codec}

@[simp] theorem fromSlice_toVec {α : Type} (serde : SerdeJson α) (a : α) :
    fromSlice serde (serde.toVec a) = .ok a := by
  simp [fromSlice, serde.fromSlice_toVec]

@[simp] theorem decode_encodeEntry (e : Entry δ) :
    decodeEntry codec (encodeEntry codec e) = .ok e :=
  fromSlice_toVec codec.entry e

theorem mapM_decodeEntry (es : List (Entry δ)) :
    (es.map (encodeEntry codec)).mapM (decodeEntry codec) = .ok es := by
  induction es with
  | nil => rfl
  | cons e es ih =>
    rw [List.map_cons, List.mapM_cons, decode_encodeEntry, ih]
    rfl

theorem readMessage_eq {α : Type} {serde : SerdeJson α} {s : E.State} {key : String}
    {value : Option α}
    (h : (E.region s REGION_ID).message key = value.map (messageBlob serde)) :
    readMessage E serde s key = .ok value := by
  simp only [readMessage, getBlobMessage, E.getMessage_eq, h]
  cases value with
  | none => rfl
  | some a =>
    show (fun x => some x) <$> fromSlice serde (serde.toVec a) = _
    rw [fromSlice_toVec]
    rfl

theorem writeMessage_eq {α : Type} (serde : SerdeJson α) (s : E.State) (key : String)
    (value : α) :
    (writeMessage E serde s key value).2 = .ok () ∧
      E.region (writeMessage E serde s key value).1 REGION_ID =
        (E.region s REGION_ID).put key (messageBlob serde value) := by
  obtain ⟨hr, hs⟩ := E.write_putMessage s REGION_ID key (messageBlob serde value) true
  refine ⟨?_, hs⟩
  show Except.mapError StorageError.engine _ = _
  rw [show (E.write s [.putMessage REGION_ID key ⟨0, serde.toVec value⟩] true).2 = .ok ()
    from hr]
  rfl

namespace Shows
variable {s : E.State} {v : LogView δ}

theorem openEmpty : Shows E codec E.openEmpty LogView.empty := by
  constructor <;> simp [E.region_openEmpty, Region.empty, LogView.empty, LogView.Increasing]

theorem reopen (h : Shows E codec s v) : Shows E codec (E.reopen s) v := by
  have hr := E.region_reopen s REGION_ID
  exact ⟨hr ▸ h.vote, hr ▸ h.lastPurged, hr ▸ h.committed, hr ▸ h.entries, h.increasing⟩

theorem saveVote (h : Shows E codec s v) (vote : Vote) :
    (saveVote E codec s vote).2 = .ok () ∧
      Shows E codec (RaftEngineLogStore.saveVote E codec s vote).1
        { v with vote := some vote } := by
  obtain ⟨hr, hs⟩ := writeMessage_eq (E := E) codec.vote s VOTE_KEY vote
  refine ⟨hr, ?_, ?_, ?_, ?_, h.increasing⟩ <;>
    simp only [RaftEngineLogStore.saveVote, hs, Region.put]
  · simp
  · exact h.lastPurged
  · exact h.committed
  · exact h.entries

theorem saveCommitted (h : Shows E codec s v) (committed : Option LogId) :
    (saveCommitted E codec s committed).2 = .ok () ∧
      Shows E codec (RaftEngineLogStore.saveCommitted E codec s committed).1
        { v with committed := some committed } := by
  obtain ⟨hr, hs⟩ := writeMessage_eq (E := E) codec.committed s COMMITTED_KEY committed
  refine ⟨hr, ?_, ?_, ?_, ?_, h.increasing⟩ <;>
    simp only [RaftEngineLogStore.saveCommitted, hs, Region.put]
  · exact h.vote
  · exact h.lastPurged
  · simp
  · exact h.entries

theorem purge (h : Shows E codec s v) (logId : LogId) :
    (purge E codec s logId).2 = .ok () ∧
      Shows E codec (RaftEngineLogStore.purge E codec s logId).1 (v.purge logId) := by
  obtain ⟨hr, hs⟩ := writeMessage_eq (E := E) codec.logId s LAST_PURGED_KEY logId
  simp only [RaftEngineLogStore.purge, hr]
  refine ⟨trivial, ?_, ?_, ?_, ?_, h.increasing.filter _⟩ <;>
    simp only [E.region_compactTo, hs, Region.put, Region.compact, LogView.purge]
  · exact h.vote
  · simp
  · exact h.committed
  · rw [h.entries, List.filter_map]
    rfl

theorem accepts_iff (h : Shows E codec s v) {es : List (Entry δ)} :
    (E.region s REGION_ID).Accepts (es.map (encodeEntry codec)) ↔ v.Accepts es := by
  have hentries := h.entries
  constructor
  · rintro ⟨hne, hchain, hbelow, hstart, hhole⟩
    rw [hentries] at hbelow hstart hhole
    simp only [List.head?_map, List.getLast?_map, Option.mem_map, List.mem_map,
      forall_exists_index, and_imp, forall_apply_eq_imp_iff₂] at hbelow hstart hhole
    exact ⟨fun hes => hne (by rw [hes]; rfl), (List.isChain_map _).mp hchain, hbelow, hstart,
      hhole⟩
  · rintro ⟨hne, hchain, hbelow, hstart, hhole⟩
    refine ⟨fun hes => hne (List.map_eq_nil_iff.mp hes), (List.isChain_map _).mpr hchain, ?_, ?_,
      ?_⟩
    all_goals
      rw [hentries]
      simp only [List.head?_map, List.getLast?_map, Option.mem_map, List.mem_map,
        forall_exists_index, and_imp, forall_apply_eq_imp_iff₂]
    · exact hbelow
    · exact hstart
    · exact hhole

theorem append (h : Shows E codec s v) {es : List (Entry δ)} (hes : v.Accepts es) :
    (append E codec s es).2 = .ok () ∧
      Shows E codec (RaftEngineLogStore.append E codec s es).1 (v.append es) := by
  obtain ⟨hr, hs⟩ := E.write_addEntries s REGION_ID _ true (h.accepts_iff.mpr hes)
  refine ⟨by simp only [RaftEngineLogStore.append, hr]; rfl, ?_⟩
  obtain ⟨e, es, rfl⟩ := List.exists_cons_of_ne_nil hes.nonempty
  have hentries : ((E.region s REGION_ID).add ((e :: es).map (encodeEntry codec))).entries =
      (v.append (e :: es)).entries.map (encodeEntry codec) := by
    rw [List.map_cons, Region.add, LogView.append, List.map_append]
    show List.filter _ (E.region s REGION_ID).entries ++ _ = _
    rw [h.entries, List.filter_map]
    rfl
  refine ⟨?_, ?_, ?_, ?_, ?_⟩
  · rw [RaftEngineLogStore.append, hs]
    exact h.vote
  · rw [RaftEngineLogStore.append, hs]
    exact h.lastPurged
  · rw [RaftEngineLogStore.append, hs]
    exact h.committed
  · rw [RaftEngineLogStore.append, hs]
    exact hentries
  · have hlt : (e :: es).Pairwise fun a b => a.logId.index < b.logId.index := by
      have htrans : IsTrans (Entry δ) fun a b => a.logId.index < b.logId.index :=
        ⟨fun _ _ _ => UInt64.lt_trans⟩
      refine List.isChain_iff_pairwise.mp (hes.consecutive.imp fun a b hab => ?_)
      rw [UInt64.lt_iff_toNat_lt]
      omega
    refine List.pairwise_append.mpr ⟨h.increasing.filter _, hlt, fun a ha b hb => ?_⟩
    have hae : a.logId.index < e.logId.index := by simpa using (List.mem_filter.mp ha).2
    rcases List.mem_cons.mp hb with rfl | hb
    · exact hae
    · exact UInt64.lt_trans hae ((List.pairwise_cons.mp hlt).1 b hb)

theorem readVote (h : Shows E codec s v) : readVote E codec s = .ok v.vote :=
  readMessage_eq h.vote

theorem readCommitted (h : Shows E codec s v) :
    readCommitted E codec s = .ok v.committed.join := by
  rw [RaftEngineLogStore.readCommitted, readMessage_eq h.committed]
  rfl

theorem index_le_last (h : Shows E codec s v) {last x : Entry δ}
    (hl : v.entries.getLast? = some last) (hx : x ∈ v.entries) :
    x.logId.index.toNat ≤ last.logId.index.toNat := h.increasing.le_last hl hx

theorem find?_last (h : Shows E codec s v) {last : Entry δ} (hl : v.entries.getLast? = some last) :
    ((E.region s REGION_ID).entries.find? fun b => b.index == last.logId.index) =
      some (encodeEntry codec last) := by
  obtain ⟨pre, hpre⟩ := List.getLast?_eq_some_iff.mp hl
  have hlt : v.entries.Pairwise fun a b => a.logId.index < b.logId.index := h.increasing
  rw [hpre, List.pairwise_append] at hlt
  rw [h.entries, hpre, List.map_append, List.find?_append, List.find?_eq_none.mpr]
  · simp [encodeEntry]
  · intro b hb
    obtain ⟨a, ha, rfl⟩ := List.mem_map.mp hb
    have := hlt.2.2 a ha last (by simp)
    rw [UInt64.lt_iff_toNat_lt] at this
    simp only [encodeEntry, beq_iff_eq, ← UInt64.toNat_inj]
    omega

theorem getLogState (h : Shows E codec s v) :
    getLogState E codec s = .ok ⟨v.lastPurged, v.lastLogId⟩ := by
  have hlast : E.lastIndex s REGION_ID = v.entries.getLast?.map fun e => e.logId.index := by
    rw [E.lastIndex_eq, h.entries, List.getLast?_map, Option.map_map]
    rfl
  unfold RaftEngineLogStore.getLogState
  rw [readMessage_eq h.lastPurged, hlast, LogView.lastLogId]
  cases hl : v.entries.getLast? with
  | none => rfl
  | some last =>
    simp only [Option.map_some, E.getEntry_eq, find?_last h hl]
    have hd : (some (encodeEntry codec last)).mapM (decodeEntry codec) = .ok (some last) := by
      rw [Option.mapM_some, decode_encodeEntry]
      rfl
    simp only [Except.mapError, bind, Except.bind, hd]
    rfl

theorem covers_iff (h : Shows E codec s v) (b e : UInt64) :
    (E.region s REGION_ID).Covers b e ↔ LogView.Covers v b e := by
  rw [Region.Covers, LogView.Covers, h.entries, List.head?_map, List.getLast?_map]
  constructor
  · rintro ⟨_, hhead, _, hlast, hcovers⟩
    obtain ⟨first, hf, rfl⟩ := Option.mem_map.mp hhead
    obtain ⟨last, hl, rfl⟩ := Option.mem_map.mp hlast
    exact ⟨first, hf, last, hl, hcovers⟩
  · rintro ⟨first, hf, last, hl, hcovers⟩
    exact ⟨_, Option.mem_map_of_mem _ hf, _, Option.mem_map_of_mem _ hl, hcovers⟩

theorem between_eq (h : Shows E codec s v) (b e : UInt64) :
    (E.region s REGION_ID).between b e =
      (v.entries.filter fun x => decide (b ≤ x.logId.index ∧ x.logId.index < e)).map
        (encodeEntry codec) := by
  rw [Region.between, h.entries, List.filter_map]
  rfl

theorem tryGetLogEntries_of_fetch (h : Shows E codec s v) {range : Range}
    (hf : E.fetchEntriesTo s REGION_ID (Range.start range) (Range.stop range) =
      .ok ((E.region s REGION_ID).between (Range.start range) (Range.stop range))) :
    tryGetLogEntries E codec s range =
      .ok (v.entries.filter fun x =>
        decide (Range.start range ≤ x.logId.index ∧ x.logId.index < Range.stop range)) := by
  unfold tryGetLogEntries
  rw [hf, between_eq h]
  exact mapM_decodeEntry _

theorem tryGetLogEntries_ok (h : Shows E codec s v) {range : Range} {es : List (Entry δ)}
    (hes : tryGetLogEntries E codec s range = .ok es) :
    es = v.entries.filter fun x =>
      decide (Range.start range ≤ x.logId.index ∧ x.logId.index < Range.stop range) := by
  cases hf : E.fetchEntriesTo s REGION_ID (Range.start range) (Range.stop range) with
  | error err =>
    rw [tryGetLogEntries, hf] at hes
    cases hes
  | ok bs =>
    have hbs := E.fetch_ok s REGION_ID _ _ bs hf
    rw [tryGetLogEntries_of_fetch h (hbs ▸ hf)] at hes
    exact (Except.ok.inj hes).symm

end Shows
end RaftEngineLogStore
end BlunMq
