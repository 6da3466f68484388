import BlunMq.Lib.LastWrite
import BlunMq.Lib.Text
import BlunMq.Raft.Types

/-!
# The peer list of a node

Membership and the forwarding table of every node come from the one string `MQ_PEERS`.
`parse_peers` splits it at its commas, drops the blank parts and reads the others as
`id=addr`; it has no error value and panics on a part it cannot read.
-/

namespace BlunMq
namespace Peers

/-- `char::is_whitespace`: the Unicode property `White_Space`. -/
def isWhitespace (c : Char) : Bool :=
  decide (9 ≤ c.toNat ∧ c.toNat ≤ 13 ∨ 0x2000 ≤ c.toNat ∧ c.toNat ≤ 0x200A ∨
    c.toNat ∈ [0x20, 0x85, 0xA0, 0x1680, 0x2028, 0x2029, 0x202F, 0x205F, 0x3000])

def trim (s : List Char) : List Char := Text.trim isWhitespace s

inductive IntErrorKind
  | empty
  | invalidDigit
  | posOverflow
  deriving DecidableEq, Repr

def IntErrorKind.debug : IntErrorKind → String
  | empty => "Empty"
  | invalidDigit => "InvalidDigit"
  | posOverflow => "PosOverflow"

/-- The multiplication by ten and the addition are checked one after the other; whichever
fails, the kind is the same. -/
def parseDigits : ℕ → List Char → Except IntErrorKind UInt64
  | result, [] => .ok (UInt64.ofNat result)
  | result, c :: digits =>
    if c.isDigit then
      let next := 10 * result + (c.toNat - '0'.toNat)
      if 2 ^ 64 ≤ next then .error .posOverflow else parseDigits next digits
    else .error .invalidDigit

def parseU64 (src : List Char) : Except IntErrorKind UInt64 :=
  if src = [] then .error .empty
  else if src = ['+'] ∨ src = ['-'] then .error .invalidDigit
  else if src.head? = some '+' then parseDigits 0 src.tail
  else parseDigits 0 src

/-- The error is the message of the panic. -/
def parsePart (part : List Char) : Except String (UInt64 × String) :=
  match Text.splitOnce '=' part with
  | none => .error ("invalid MQ_PEERS entry: " ++ String.ofList part)
  | some (id, addr) =>
    match parseU64 (trim id) with
    | .error kind =>
      .error ("peer id must be a u64: ParseIntError \x7b kind: " ++ kind.debug ++ " \x7d")
    | .ok id => .ok (id, String.ofList (trim addr))

def notBlank (part : List Char) : Bool := decide (trim part ≠ [])

/-- `BTreeMap::from_iter` keeps the last value of a key. -/
def collect (pairs : List (UInt64 × String)) : Map UInt64 String :=
  pairs.foldl (fun peers x => peers.insert x.1 x.2) ∅

def parsePeers (s : String) : Except String (Map UInt64 String) := do
  let pairs ← ((s.toList.splitOn ',').filter notBlank).mapM parsePart
  return collect pairs

structure Blank where
  text : String
  blank : ∀ c ∈ text.toList, isWhitespace c = true

structure Addr where
  text : String
  noComma : ',' ∉ text.toList
  trimmed : trim text.toList = text.toList

inductive Part
  | blank (text : Blank)
  | peer (beforeId : Blank) (id : UInt64) (afterId beforeAddr : Blank) (addr : Addr)
    (afterAddr : Blank)

namespace Part

def text : Part → String
  | blank b => b.text
  | peer b1 id b2 b3 addr b4 =>
    b1.text ++ id.toNat.repr ++ b2.text ++ "=" ++ b3.text ++ addr.text ++ b4.text

def pair? : Part → Option (UInt64 × String)
  | blank _ => none
  | peer _ id _ _ addr _ => some (id, addr.text)

end Part

def render (parts : List Part) : String := ",".intercalate (parts.map Part.text)

def pairs (parts : List Part) : List (UInt64 × String) := parts.filterMap Part.pair?

theorem le_ofDigitChars (result : ℕ) (digits : List Char) :
    result ≤ Nat.ofDigitChars 10 digits result := by
  induction digits generalizing result with
  | nil => simp
  | cons c digits ih =>
    rw [Nat.ofDigitChars_cons]
    have hnext := ih (10 * result + (c.toNat - '0'.toNat))
    omega

theorem parseDigits_eq {result : ℕ} {digits : List Char} (hd : ∀ c ∈ digits, c.isDigit = true)
    (h : Nat.ofDigitChars 10 digits result < 2 ^ 64) :
    parseDigits result digits = .ok (UInt64.ofNat (Nat.ofDigitChars 10 digits result)) := by
  induction digits generalizing result with
  | nil => rw [parseDigits, Nat.ofDigitChars_nil]
  | cons c digits ih =>
    rw [Nat.ofDigitChars_cons] at h ⊢
    have hc : c.isDigit = true := hd c List.mem_cons_self
    have hle := le_ofDigitChars (10 * result + (c.toNat - '0'.toNat)) digits
    rw [parseDigits, if_pos hc, if_neg (by omega)]
    exact ih (fun d hmem => hd d (List.mem_cons_of_mem _ hmem)) h

theorem isDigit_toDigits {n : ℕ} {c : Char} (h : c ∈ Nat.toDigits 10 n) : c.isDigit = true :=
  Nat.isDigit_of_mem_toDigits (by omega) (by omega) h

theorem parseU64_toDigits (id : UInt64) : parseU64 (Nat.toDigits 10 id.toNat) = .ok id := by
  have hplus : '+' ∉ Nat.toDigits 10 id.toNat := fun h => by
    have := isDigit_toDigits h
    simp at this
  have hminus : '-' ∉ Nat.toDigits 10 id.toNat := fun h => by
    have := isDigit_toDigits h
    simp at this
  have hsign : ¬ (Nat.toDigits 10 id.toNat = ['+'] ∨ Nat.toDigits 10 id.toNat = ['-']) := by
    rintro (h | h)
    · exact hplus (by simp [h])
    · exact hminus (by simp [h])
  have hhead : ¬ (Nat.toDigits 10 id.toNat).head? = some '+' :=
    fun h => hplus (List.mem_of_head? h)
  rw [parseU64, if_neg Nat.toDigits_ne_nil, if_neg hsign, if_neg hhead,
    parseDigits_eq (fun _ => isDigit_toDigits), Nat.ofDigitChars_ten_toDigits, UInt64.ofNat_toNat]
  rw [Nat.ofDigitChars_ten_toDigits]
  exact id.toNat_lt

theorem isWhitespace_of_isDigit {c : Char} (h : c.isDigit = true) : isWhitespace c = false := by
  rw [Char.isDigit_iff_toNat] at h
  have hzero : '0'.toNat = 48 := rfl
  have hnine : '9'.toNat = 57 := rfl
  simp only [isWhitespace, List.mem_cons, List.not_mem_nil, or_false, decide_eq_false_iff_not]
  omega

theorem not_mem_blank {c : Char} (hc : isWhitespace c = false) (b : Blank) :
    c ∉ b.text.toList := by
  intro h
  rw [b.blank c h] at hc
  cases hc

theorem not_mem_toDigits {c : Char} (hc : c.isDigit = false) (n : ℕ) :
    c ∉ Nat.toDigits 10 n := by
  intro h
  rw [isDigit_toDigits h] at hc
  cases hc

theorem trim_between (b b' : Blank) {l : List Char} (h : trim l = l) :
    trim (b.text.toList ++ l ++ b'.text.toList) = l := by
  rw [trim, Text.trim_append b.blank b'.blank]
  exact h

theorem trim_toDigits (n : ℕ) : trim (Nat.toDigits 10 n) = Nat.toDigits 10 n :=
  Text.trim_eq_self fun _ h => isWhitespace_of_isDigit (isDigit_toDigits h)

namespace Part
variable (b1 b2 b3 b4 : Blank) (id : UInt64) (addr : Addr)

theorem toList_peer : (peer b1 id b2 b3 addr b4).text.toList =
    (b1.text.toList ++ Nat.toDigits 10 id.toNat ++ b2.text.toList) ++
      '=' :: (b3.text.toList ++ addr.text.toList ++ b4.text.toList) := by
  simp only [text, String.toList_append, Nat.toList_repr, List.append_assoc]
  rfl

theorem parsePart_peer :
    parsePart (peer b1 id b2 b3 addr b4).text.toList = .ok (id, addr.text) := by
  have hequals : '=' ∉ b1.text.toList ++ Nat.toDigits 10 id.toNat ++ b2.text.toList := by
    rw [List.mem_append, List.mem_append, not_or, not_or]
    exact ⟨⟨not_mem_blank rfl b1, not_mem_toDigits rfl _⟩, not_mem_blank rfl b2⟩
  rw [parsePart, toList_peer, Text.splitOnce_append hequals]
  simp only [trim_between _ _ (trim_toDigits _), trim_between _ _ addr.trimmed,
    parseU64_toDigits, String.ofList_toList]

theorem notBlank_peer : notBlank (peer b1 id b2 b3 addr b4).text.toList = true := by
  rw [notBlank, decide_eq_true_eq, ne_eq, trim, Text.trim_eq_nil_iff, toList_peer]
  intro h
  have hequals := h '=' (List.mem_append_right _ List.mem_cons_self)
  cases hequals

theorem notBlank_blank (b : Blank) : notBlank (blank b).text.toList = false := by
  rw [notBlank, decide_eq_false_iff_not, not_not, trim, Text.trim_eq_nil_iff]
  exact b.blank

theorem comma_not_mem (part : Part) : ',' ∉ part.text.toList := by
  cases part with
  | blank b => exact not_mem_blank rfl b
  | peer b1 id b2 b3 addr b4 =>
    rw [toList_peer]
    simp only [List.mem_append, List.mem_cons, not_or]
    exact ⟨⟨⟨not_mem_blank rfl b1, not_mem_toDigits rfl _⟩, not_mem_blank rfl b2⟩, by decide,
      ⟨not_mem_blank rfl b3, addr.noComma⟩, not_mem_blank rfl b4⟩

end Part

theorem toList_render (parts : List Part) :
    (render parts).toList = [','].intercalate (parts.map fun part => part.text.toList) := by
  rw [render, String.toList_intercalate, List.map_map]
  rfl

theorem mapM_parsePart (parts : List Part) :
    ((parts.map fun part => part.text.toList).filter notBlank).mapM parsePart =
      .ok (pairs parts) := by
  induction parts with
  | nil => rfl
  | cons part parts ih =>
    rw [List.map_cons]
    cases part with
    | blank b =>
      rw [List.filter_cons_of_neg (by rw [Part.notBlank_blank]; exact Bool.false_ne_true), ih]
      rfl
    | peer b1 id b2 b3 addr b4 =>
      rw [List.filter_cons_of_pos (Part.notBlank_peer b1 b2 b3 b4 id addr), List.mapM_cons,
        Part.parsePart_peer, ih]
      rfl

theorem parsePeers_eq (parts : List Part) :
    parsePeers (render parts) = .ok (collect (pairs parts)) := by
  have hcomma : ∀ l ∈ parts.map fun part => part.text.toList, ',' ∉ l := by
    intro l hl
    obtain ⟨part, -, rfl⟩ := List.mem_map.mp hl
    exact part.comma_not_mem
  rw [parsePeers, toList_render, Text.filter_splitOn_intercalate rfl hcomma, mapM_parsePart]
  rfl

theorem getElem?_collect (ws : List (UInt64 × String)) (id : UInt64) :
    (collect ws)[id]? = LastWrite.last id ws := by
  induction ws using List.reverseRecOn with
  | nil => exact Std.ExtTreeMap.getElem?_empty
  | append_singleton ws w ih =>
    rw [collect, List.foldl_append, LastWrite.last_append, LastWrite.last_singleton]
    change ((collect ws).insert w.1 w.2)[id]? = _
    rw [Map.getElem?_insert, ih]
    split <;> rfl

theorem collect_of_perm {ws : List (UInt64 × String)} {m : Map UInt64 String}
    (h : ws.Perm m.toList) : collect ws = m := by
  have hkeys : (ws.map Prod.fst).Nodup := by
    rw [(h.map Prod.fst).nodup_iff, List.Nodup, List.pairwise_map]
    exact m.distinct_keys_toList.imp fun hab heq => hab (by rw [heq, Std.ReflOrd.compare_self])
  refine Std.ExtTreeMap.ext_getElem? fun id => Option.ext fun addr => ?_
  rw [getElem?_collect, LastWrite.last_eq_some_iff hkeys, h.mem_iff,
    Std.ExtTreeMap.mem_toList_iff_getElem?_eq_some]

theorem parsePeers_render (parts : List Part) :
    (∃ m, parsePeers (render parts) = .ok m ∧
      ∀ id : UInt64, m[id]? = LastWrite.last id (pairs parts)) ∧
    ∀ m : Map UInt64 String, (pairs parts).Perm m.toList → parsePeers (render parts) = .ok m := by
  refine ⟨⟨collect (pairs parts), parsePeers_eq parts, getElem?_collect _⟩, fun m hm => ?_⟩
  rw [parsePeers_eq, collect_of_perm hm]

namespace AppHost

def grpcPorts : List (UInt64 × ℕ) := [(1, 5001), (2, 5002), (3, 5003)]

def peers : String :=
  ",".intercalate (grpcPorts.map fun kv => kv.1.toNat.repr ++ "=http://localhost:" ++ kv.2.repr)

end AppHost

def noBlank : Blank := ⟨"", by simp⟩

def localhost (port : ℕ) : Addr where
  text := "http://localhost:" ++ port.repr
  noComma := by
    rw [String.toList_append, Nat.toList_repr, List.mem_append, not_or]
    exact ⟨by decide, not_mem_toDigits rfl port⟩
  trimmed := by
    have hscheme : ∀ c ∈ "http://localhost:".toList, isWhitespace c = false := by
      simp [isWhitespace]
    rw [String.toList_append, Nat.toList_repr]
    refine Text.trim_eq_self fun c hc => ?_
    rcases List.mem_append.mp hc with hc | hc
    · exact hscheme c hc
    · exact isWhitespace_of_isDigit (isDigit_toDigits hc)

def appHostParts : List Part :=
  AppHost.grpcPorts.map fun kv => .peer noBlank kv.1 noBlank noBlank (localhost kv.2) noBlank

theorem parsePeers_appHost :
    let m := collect (pairs appHostParts)
    parsePeers AppHost.peers = .ok m ∧ m[(2 : UInt64)]? = some "http://localhost:5002" := by
  intro m
  have hpeers : render appHostParts = AppHost.peers := by decide
  have hread := (parsePeers_render appHostParts).2 m (by decide)
  rw [hpeers] at hread
  exact ⟨hread, by decide⟩

end Peers
end BlunMq
