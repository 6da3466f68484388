import BlunMq.Host.Peers

/-!
# Exactly what a peer list may be

What `parse_peers` takes and what it panics at, for every text; what the addresses it
takes look like; and what becomes of two lists that are joined.
-/

namespace BlunMq
namespace Peers

/-- `src` is a number below 2^64 in decimal digits, perhaps with a plus sign. -/
def ReadsId (src : List Char) (id : UInt64) : Prop :=
  ∃ digits, (src = digits ∨ src = '+' :: digits) ∧ digits ≠ [] ∧
    (∀ c ∈ digits, c.isDigit = true) ∧ Nat.ofDigitChars 10 digits 0 = id.toNat

theorem parseDigits_eq_ok_iff {result : ℕ} {digits : List Char} {id : UInt64}
    (hr : result < 2 ^ 64) : parseDigits result digits = .ok id ↔
      (∀ c ∈ digits, c.isDigit = true) ∧ Nat.ofDigitChars 10 digits result = id.toNat := by
  constructor
  · intro h
    induction digits generalizing result with
    | nil =>
      rw [parseDigits] at h
      cases h
      exact ⟨(fun _ hc => by cases hc), by
        rw [Nat.ofDigitChars_nil, UInt64.toNat_ofNat_of_lt' hr]⟩
    | cons c digits ih =>
      rw [parseDigits] at h
      split at h
      · rename_i hc
        simp only at h
        split at h
        · cases h
        · rename_i hnext
          obtain ⟨hd, hval⟩ := ih (by omega) h
          refine ⟨fun d hmem => ?_, ?_⟩
          · rcases List.mem_cons.mp hmem with rfl | hmem
            · exact hc
            · exact hd d hmem
          · rw [Nat.ofDigitChars_cons]
            exact hval
      · cases h
  · intro h
    obtain ⟨hd, hval⟩ := h
    have hlt : Nat.ofDigitChars 10 digits result < 2 ^ 64 := hval ▸ id.toNat_lt
    rw [parseDigits_eq hd hlt, hval, UInt64.ofNat_toNat]

theorem parseU64_eq_ok_iff {src : List Char} {id : UInt64} :
    parseU64 src = .ok id ↔ ReadsId src id := by
  have hzero : 0 < 2 ^ 64 := by norm_num
  constructor
  · intro h
    rw [parseU64] at h
    split at h
    · cases h
    · rename_i hne
      split at h
      · cases h
      · rename_i hsign
        split at h
        · rename_i hplus
          obtain ⟨hd, hval⟩ := (parseDigits_eq_ok_iff hzero).mp h
          have hsrc : src = '+' :: src.tail := (List.cons_head?_tail hplus).symm
          refine ⟨src.tail, .inr hsrc, fun hnil => hsign (.inl ?_), hd, hval⟩
          rw [hsrc, hnil]
        · obtain ⟨hd, hval⟩ := (parseDigits_eq_ok_iff hzero).mp h
          exact ⟨src, .inl rfl, hne, hd, hval⟩
  · intro h
    obtain ⟨digits, hsrc, hne, hd, hval⟩ := h
    have hdigits := (parseDigits_eq_ok_iff hzero).mpr ⟨hd, hval⟩
    rcases hsrc with rfl | rfl
    · have hplus : '+' ∉ src := fun h => by cases hd '+' h
      have hminus : '-' ∉ src := fun h => by cases hd '-' h
      rw [parseU64, if_neg hne, if_neg, if_neg]
      · exact hdigits
      · exact fun hhead => hplus (List.mem_of_head? hhead)
      · rintro (heq | heq)
        · exact hplus (by simp [heq])
        · exact hminus (by simp [heq])
    · have hhead : ('+' :: digits).head? = some '+' := rfl
      rw [parseU64, if_neg (List.cons_ne_nil _ _), if_neg, if_pos hhead]
      · exact hdigits
      · rintro (heq | heq)
        · exact hne (List.cons.inj heq).2
        · cases heq

/-- `part` reads `id=addr`: the first equals sign ends the id, and blanks around either do
not count. -/
def Reads (part : List Char) (peer : UInt64 × String) : Prop :=
  ∃ before after, part = before ++ '=' :: after ∧ '=' ∉ before ∧
    ReadsId (trim before) peer.1 ∧ peer.2 = String.ofList (trim after)

def Complaint (part : List Char) (message : String) : Prop :=
  '=' ∉ part ∧ message = "invalid MQ_PEERS entry: " ++ String.ofList part ∨
    ∃ before after kind, part = before ++ '=' :: after ∧ '=' ∉ before ∧
      parseU64 (trim before) = .error kind ∧
      message = "peer id must be a u64: ParseIntError \x7b kind: " ++ kind.debug ++ " \x7d"

theorem parsePart_eq_ok_iff {part : List Char} {peer : UInt64 × String} :
    parsePart part = .ok peer ↔ Reads part peer := by
  constructor
  · intro h
    rw [parsePart] at h
    split at h
    · cases h
    · rename_i before after hsplit
      split at h
      · cases h
      · rename_i id hid
        cases h
        obtain ⟨hpart, hmem⟩ := Text.splitOnce_eq_some_iff.mp hsplit
        exact ⟨before, after, hpart, hmem, parseU64_eq_ok_iff.mp hid, rfl⟩
  · intro h
    obtain ⟨before, after, hpart, hmem, hid, haddr⟩ := h
    have hsplit := Text.splitOnce_eq_some_iff.mpr ⟨hpart, hmem⟩
    simp only [parsePart, hsplit, parseU64_eq_ok_iff.mpr hid, ← haddr]

theorem parsePart_eq_error_iff {part : List Char} {message : String} :
    parsePart part = .error message ↔ Complaint part message := by
  constructor
  · intro h
    rw [parsePart] at h
    split at h
    · rename_i hsplit
      exact .inl ⟨Text.splitOnce_eq_none_iff.mp hsplit, (Except.error.inj h).symm⟩
    · rename_i before after hsplit
      split at h
      · rename_i kind hid
        obtain ⟨hpart, hmem⟩ := Text.splitOnce_eq_some_iff.mp hsplit
        exact .inr ⟨before, after, kind, hpart, hmem, hid, (Except.error.inj h).symm⟩
      · cases h
  · intro h
    rcases h with ⟨hmem, hmessage⟩ | ⟨before, after, kind, hpart, hmem, hid, hmessage⟩
    · simp only [parsePart, Text.splitOnce_eq_none_iff.mpr hmem, hmessage]
    · have hsplit := Text.splitOnce_eq_some_iff.mpr ⟨hpart, hmem⟩
      simp only [parsePart, hsplit, hid, hmessage]

def entries (s : String) : List (List Char) := (s.toList.splitOn ',').filter notBlank

theorem parsePeers_eq_map (s : String) :
    parsePeers s = ((entries s).mapM parsePart).map collect := by
  rw [parsePeers, entries]
  cases ((s.toList.splitOn ',').filter notBlank).mapM parsePart <;> rfl

theorem parsePeers_eq_ok_iff {s : String} {m : Map UInt64 String} :
    parsePeers s = .ok m ↔ ∃ ws, List.Forall₂ Reads (entries s) ws ∧ collect ws = m := by
  have hread : ∀ ws, (entries s).mapM parsePart = .ok ws ↔ List.Forall₂ Reads (entries s) ws := by
    intro ws
    simp only [Text.mapM_eq_ok_iff, parsePart_eq_ok_iff]
  simp only [parsePeers_eq_map, ← hread]
  cases (entries s).mapM parsePart <;> simp [Except.map]

theorem parsePeers_eq_error_iff {s : String} {message : String} :
    parsePeers s = .error message ↔ (entries s).mapM parsePart = .error message := by
  rw [parsePeers_eq_map]
  cases (entries s).mapM parsePart <;> simp [Except.map]

theorem parsePeers_exact (s : String) :
    (∀ m, parsePeers s = .ok m ↔ ∃ ws, List.Forall₂ Reads (entries s) ws ∧
      ∀ id : UInt64, m[id]? = LastWrite.last id ws) ∧
    ∀ message, parsePeers s = .error message ↔ ∃ good bad others,
      entries s = good ++ bad :: others ∧ (∀ part ∈ good, ∃ peer, Reads part peer) ∧
      Complaint bad message := by
  constructor
  · intro m
    rw [parsePeers_eq_ok_iff]
    have hcollect : ∀ ws, collect ws = m ↔ ∀ id : UInt64, m[id]? = LastWrite.last id ws := by
      intro ws
      simp only [← getElem?_collect, eq_comm]
      exact ⟨fun h id => h ▸ rfl, Std.ExtTreeMap.ext_getElem?⟩
    simp only [hcollect]
  · intro message
    rw [parsePeers_eq_error_iff, Text.mapM_eq_error_iff]
    simp only [parsePart_eq_ok_iff, parsePart_eq_error_iff]

theorem Reads.noComma {part : List Char} {peer : UInt64 × String} (h : Reads part peer)
    (hpart : ',' ∉ part) : ',' ∉ peer.2.toList ∧ trim peer.2.toList = peer.2.toList := by
  obtain ⟨before, after, rfl, -, -, haddr⟩ := h
  rw [haddr, String.toList_ofList]
  refine ⟨fun hmem => hpart ?_, Text.trim_trim after⟩
  exact List.mem_append_right _ (List.mem_cons_of_mem _ (Text.trim_subset after hmem))

theorem entries_noComma {s : String} {part : List Char} (h : part ∈ entries s) : ',' ∉ part :=
  Text.not_mem_of_mem_splitOn (List.mem_of_mem_filter h)

theorem parsePeers_wellFormed {s : String} {m : Map UInt64 String} (h : parsePeers s = .ok m)
    {id : UInt64} {addr : String} (hid : m[id]? = some addr) :
    ',' ∉ addr.toList ∧ trim addr.toList = addr.toList := by
  obtain ⟨ws, hreads, rfl⟩ := parsePeers_eq_ok_iff.mp h
  rw [getElem?_collect] at hid
  obtain ⟨part, hpart, hread⟩ := Text.exists_of_forall₂ hreads (LastWrite.mem_of_last hid)
  exact hread.noComma (entries_noComma hpart)

def write (peers : List (UInt64 × String)) : String :=
  ",".intercalate (peers.map fun x => x.1.toNat.repr ++ "=" ++ x.2)

theorem exists_parts {peers : List (UInt64 × String)}
    (h : ∀ x ∈ peers, ',' ∉ x.2.toList ∧ trim x.2.toList = x.2.toList) :
    ∃ parts, write peers = render parts ∧ pairs parts = peers := by
  suffices hparts : ∃ parts : List Part, parts.map Part.text =
      peers.map (fun x => x.1.toNat.repr ++ "=" ++ x.2) ∧ pairs parts = peers by
    obtain ⟨parts, htext, hpairs⟩ := hparts
    exact ⟨parts, by rw [write, render, htext], hpairs⟩
  induction peers with
  | nil => exact ⟨[], rfl, rfl⟩
  | cons x peers ih =>
    obtain ⟨parts, htext, hpairs⟩ := ih fun y hy => h y (List.mem_cons_of_mem _ hy)
    obtain ⟨hcomma, htrim⟩ := h x List.mem_cons_self
    refine ⟨.peer noBlank x.1 noBlank noBlank ⟨x.2, hcomma, htrim⟩ noBlank :: parts, ?_, ?_⟩
    · rw [List.map_cons, List.map_cons, htext]
      simp [Part.text, noBlank]
    · exact congrArg (x :: ·) hpairs

theorem parsePeers_write {s : String} {m : Map UInt64 String} (h : parsePeers s = .ok m) :
    (∀ (id : UInt64) (addr : String), m[id]? = some addr →
      ',' ∉ addr.toList ∧ trim addr.toList = addr.toList) ∧
    ∀ peers : List (UInt64 × String), peers.Perm m.toList → parsePeers (write peers) = .ok m := by
  refine ⟨fun id addr => parsePeers_wellFormed h, fun peers hperm => ?_⟩
  have hwell : ∀ x ∈ peers, ',' ∉ x.2.toList ∧ trim x.2.toList = x.2.toList := by
    intro x hx
    have hfound := Std.ExtTreeMap.mem_toList_iff_getElem?_eq_some.mp (hperm.mem_iff.mp hx)
    exact parsePeers_wellFormed h hfound
  obtain ⟨parts, htext, hpairs⟩ := exists_parts hwell
  rw [htext, parsePeers_eq, hpairs, collect_of_perm hperm]

theorem parsePeers_write_reordered :
    let m := collect [(1, "http://one"), (2, "http://two")]
    parsePeers " 1 = http://one , ,+2=http://two," = .ok m ∧
      parsePeers (write [(2, "http://two"), (1, "http://one")]) = .ok m := by
  intro m
  have hread : parsePeers " 1 = http://one , ,+2=http://two," = .ok m := by decide +kernel
  exact ⟨hread, (parsePeers_write hread).2 _ (by decide +kernel)⟩

theorem entries_append (s t : String) : entries (s ++ "," ++ t) = entries s ++ entries t := by
  have hlist : (s ++ "," ++ t).toList = s.toList ++ ',' :: t.toList := by
    rw [String.toList_append, String.toList_append, List.append_assoc]
    rfl
  rw [entries, hlist, List.splitOn_append_cons_self, List.filter_append]
  rfl

theorem parsePeers_append (s t : String) :
    (∀ m n, parsePeers s = .ok m → parsePeers t = .ok n →
      ∃ both, parsePeers (s ++ "," ++ t) = .ok both ∧ ∀ id : UInt64, both[id]? = n[id]?.or m[id]?) ∧
    (∀ message, parsePeers (s ++ "," ++ t) = .error message ↔ parsePeers s = .error message ∨
      (∃ m, parsePeers s = .ok m) ∧ parsePeers t = .error message) := by
  constructor
  · intro m n hm hn
    obtain ⟨ws, hws, rfl⟩ := parsePeers_eq_ok_iff.mp hm
    obtain ⟨vs, hvs, rfl⟩ := parsePeers_eq_ok_iff.mp hn
    refine ⟨collect (ws ++ vs), parsePeers_eq_ok_iff.mpr ⟨ws ++ vs, ?_, rfl⟩, fun id => ?_⟩
    · rw [entries_append]
      exact List.rel_append hws hvs
    · simp only [getElem?_collect, LastWrite.last_append]
  · intro message
    simp only [parsePeers_eq_map, entries_append, List.mapM_append]
    cases (entries s).mapM parsePart with
    | error e => simp [bind, Except.bind, Except.map]
    | ok ws =>
      cases (entries t).mapM parsePart <;> simp [bind, Except.bind, pure, Except.pure, Except.map]

end Peers
end BlunMq
