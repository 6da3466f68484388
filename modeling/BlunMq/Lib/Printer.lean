import Mathlib.Data.List.Basic
import Mathlib.Data.Nat.Digits.Defs
import Mathlib.Data.Nat.Digits.Lemmas
import Mathlib.Data.List.TakeDrop

/-!
# Invertible printers for compact JSON text

A `Printer α` writes a value as bytes and reads it back from the front of a
longer input. The law only speaks of inputs where the text is not followed by a
digit, which is what a decimal number needs. Each combinator keeps the law, so a
format assembled from them reads back what it wrote.
-/

/-- The bytes after a text do not continue a decimal number. -/
def Stops (rest : List UInt8) : Prop := ∀ b ∈ rest.head?, ¬ (48 ≤ b.toNat ∧ b.toNat ≤ 57)

instance : (rest : List UInt8) → Decidable (Stops rest)
  | [] => isTrue (by simp [Stops])
  | b :: _ => decidable_of_iff (¬ (48 ≤ b.toNat ∧ b.toNat ≤ 57)) (by simp [Stops])

structure Printer (α : Type*) where
  print : α → List UInt8
  parse : List UInt8 → Option (α × List UInt8)
  parse_print : ∀ a rest, Stops rest → parse (print a ++ rest) = some (a, rest)

namespace Printer
variable {α β : Type*}

def ascii (s : String) : List UInt8 := s.toList.map fun c => UInt8.ofNat c.toNat

def token (t s : List UInt8) : Option (List UInt8) :=
  if t <+: s then some (s.drop t.length) else none

@[simp] theorem token_append (t s : List UInt8) : token t (t ++ s) = some s := by
  simp [token]

theorem token_ne {t u : List UInt8} (htu : ¬ t <+: u) (hut : ¬ u <+: t) (s : List UInt8) :
    token t (u ++ s) = none := by
  apply if_neg
  intro h
  rcases List.prefix_or_prefix_of_prefix h (List.prefix_append u s) with hp | hp
  · exact htu hp
  · exact hut hp

theorem stops_append {t : List UInt8} (ht : t ≠ []) (hs : Stops t) (s : List UInt8) :
    Stops (t ++ s) := by
  cases t with
  | nil => exact absurd rfl ht
  | cons b t => exact hs

def unit : Printer Unit where
  print _ := []
  parse s := some ((), s)
  parse_print _ _ _ := rfl

def imap (f : β → α) (g : α → Option β) (h : ∀ b, g (f b) = some b) (p : Printer α) :
    Printer β where
  print b := p.print (f b)
  parse s := (p.parse s).bind fun r => (g r.1).map fun b => (b, r.2)
  parse_print b rest hr := by simp [p.parse_print _ rest hr, h]

def wrap (l : List UInt8) (p : Printer α) (r : List UInt8) (hr : r ≠ [] ∧ Stops r) :
    Printer α where
  print a := l ++ p.print a ++ r
  parse s := (token l s).bind fun s => (p.parse s).bind fun x =>
    (token r x.2).map fun s => (x.1, s)
  parse_print a rest _ := by
    simp [p.parse_print a (r ++ rest) (stops_append hr.1 hr.2 rest)]

def pair (p : Printer α) (sep : List UInt8) (hsep : sep ≠ [] ∧ Stops sep) (q : Printer β) :
    Printer (α × β) where
  print x := p.print x.1 ++ sep ++ q.print x.2
  parse s := (p.parse s).bind fun x => (token sep x.2).bind fun s =>
    (q.parse s).map fun y => ((x.1, y.1), y.2)
  parse_print x rest hr := by
    simp [p.parse_print x.1 (sep ++ (q.print x.2 ++ rest)) (stops_append hsep.1 hsep.2 _),
      q.parse_print x.2 rest hr]

/-- Two alternatives told apart by opening tokens, neither a prefix of the other. -/
def choice (l : List UInt8) (p : Printer α) (r : List UInt8) (q : Printer β)
    (hlr : ¬ l <+: r ∧ ¬ r <+: l) : Printer (α ⊕ β) where
  print
    | .inl a => l ++ p.print a
    | .inr b => r ++ q.print b
  parse s :=
    match token l s with
    | some s => (p.parse s).map fun x => (.inl x.1, x.2)
    | none => (token r s).bind fun s => (q.parse s).map fun x => (.inr x.1, x.2)
  parse_print x rest hr := by
    cases x with
    | inl a => simp [p.parse_print a rest hr]
    | inr b =>
      have hn := token_ne hlr.1 hlr.2 (q.print b ++ rest)
      simp [hn, q.parse_print b rest hr]

def isDigit (b : UInt8) : Bool := decide (48 ≤ b.toNat ∧ b.toNat ≤ 57)

def digitBytes (n : ℕ) : List UInt8 :=
  if n = 0 then [48] else (Nat.digits 10 n).reverse.map fun d => UInt8.ofNat (48 + d)

def readNat (s : List UInt8) : Option (ℕ × List UInt8) :=
  let ds := s.takeWhile isDigit
  if ds = [] then none
  else some (Nat.ofDigits 10 (ds.reverse.map fun b => b.toNat - 48), s.dropWhile isDigit)

theorem digitByte_toNat {d : ℕ} (h : d < 10) : (UInt8.ofNat (48 + d)).toNat = 48 + d := by
  simp only [UInt8.toNat_ofNat']
  omega

theorem digitBytes_isDigit (n : ℕ) : ∀ b ∈ digitBytes n, isDigit b = true := by
  intro b hb
  unfold digitBytes at hb
  split at hb
  · simp only [List.mem_singleton] at hb
    subst hb
    decide
  · obtain ⟨d, hd, rfl⟩ := List.mem_map.mp hb
    have hlt : d < 10 := Nat.digits_lt_base (by decide) (List.mem_reverse.mp hd)
    simp only [isDigit, digitByte_toNat hlt, decide_eq_true_eq]
    omega

theorem digitBytes_ne_nil (n : ℕ) : digitBytes n ≠ [] := by
  unfold digitBytes
  split
  · simp
  · rename_i h
    simpa [Nat.digits_eq_nil_iff_eq_zero] using h

theorem ofDigits_digitBytes (n : ℕ) :
    Nat.ofDigits 10 ((digitBytes n).reverse.map fun b => b.toNat - 48) = n := by
  unfold digitBytes
  split
  · rename_i h
    simp [h]
  · have hd : ((Nat.digits 10 n).reverse.map fun d => UInt8.ofNat (48 + d)).reverse.map
        (fun b => b.toNat - 48) = Nat.digits 10 n := by
      rw [← List.map_reverse, List.reverse_reverse, List.map_map]
      conv_rhs => rw [← List.map_id (Nat.digits 10 n)]
      apply List.map_congr_left
      intro d hd
      have hlt : d < 10 := Nat.digits_lt_base (by decide) hd
      simp only [Function.comp_apply, digitByte_toNat hlt, id_eq]
      omega
    rw [hd, Nat.ofDigits_digits]

theorem span_digits (ds rest : List UInt8) (hd : ∀ b ∈ ds, isDigit b = true) (hr : Stops rest) :
    (ds ++ rest).takeWhile isDigit = ds ∧ (ds ++ rest).dropWhile isDigit = rest := by
  induction ds with
  | nil =>
    cases rest with
    | nil => exact ⟨rfl, rfl⟩
    | cons b rest =>
      have hb : isDigit b = false := by
        have := hr b rfl
        simpa [isDigit] using this
      simp [hb]
  | cons b ds ih =>
    have hb := hd b List.mem_cons_self
    obtain ⟨ht, hdr⟩ := ih fun c hc => hd c (List.mem_cons_of_mem _ hc)
    simp [hb, ht, hdr]

def nat : Printer ℕ where
  print := digitBytes
  parse := readNat
  parse_print n rest hr := by
    obtain ⟨ht, hd⟩ := span_digits (digitBytes n) rest (digitBytes_isDigit n) hr
    simp only [readNat, ht, hd, digitBytes_ne_nil, ↓reduceIte, ofDigits_digitBytes]

def hexByte (n : UInt8) : UInt8 := if n.toNat < 10 then 48 + n else 87 + n

def unhexByte (b : UInt8) : UInt8 := if b.toNat < 58 then b - 48 else b - 87

/-- Quotes and backslashes are escaped by a backslash, control bytes as `\u00hl`. -/
def escape (b : UInt8) : List UInt8 :=
  if b = 34 then [92, 34]
  else if b = 92 then [92, 92]
  else if b.toNat < 32 then [92, 117, 48, 48, hexByte (b / 16), hexByte (b % 16)]
  else [b]

def readQuoted : List UInt8 → Option (List UInt8 × List UInt8)
  | [] => none
  | b :: s =>
    if b = 34 then some ([], s)
    else if b = 92 then
      match s with
      | [] => none
      | c :: s =>
        if c = 117 then
          match s with
          | _ :: _ :: h :: l :: s =>
            (readQuoted s).map fun r => ((16 * unhexByte h + unhexByte l) :: r.1, r.2)
          | _ => none
        else (readQuoted s).map fun r => (c :: r.1, r.2)
    else (readQuoted s).map fun r => (b :: r.1, r.2)

theorem unhex_hex : ∀ n : Fin 32,
    16 * unhexByte (hexByte (UInt8.ofNat n / 16)) + unhexByte (hexByte (UInt8.ofNat n % 16)) =
      UInt8.ofNat n := by
  decide

theorem unhex_hex_of_lt (b : UInt8) (hb : b.toNat < 32) :
    16 * unhexByte (hexByte (b / 16)) + unhexByte (hexByte (b % 16)) = b := by
  have h := unhex_hex ⟨b.toNat, hb⟩
  simpa using h

theorem readQuoted_escape (b : UInt8) (s : List UInt8) :
    readQuoted (escape b ++ s) = (readQuoted s).map fun r => (b :: r.1, r.2) := by
  rw [readQuoted.eq_def]
  by_cases h34 : b = 34
  · simp [escape, h34]
  · by_cases h92 : b = 92
    · simp [escape, h92]
    · by_cases hc : b.toNat < 32
      · simp [escape, h34, h92, hc, unhex_hex_of_lt b hc]
      · simp [escape, h34, h92, hc]

theorem readQuoted_flatMap (bs rest : List UInt8) :
    readQuoted (bs.flatMap escape ++ 34 :: rest) = some (bs, rest) := by
  induction bs with
  | nil =>
    rw [readQuoted.eq_def]
    simp
  | cons b bs ih =>
    rw [List.flatMap_cons, List.append_assoc, readQuoted_escape, ih]
    rfl

def utf8 (s : String) : List UInt8 := s.toByteArray.data.toList

theorem fromUTF8?_utf8 (s : String) : String.fromUTF8? ⟨⟨utf8 s⟩⟩ = some s := by
  have h : (⟨⟨utf8 s⟩⟩ : ByteArray) = s.toByteArray := rfl
  rw [h, String.fromUTF8?, dif_pos s.isValidUTF8]
  rfl

def str : Printer String where
  print s := 34 :: (utf8 s).flatMap escape ++ [34]
  parse s := (token [34] s).bind fun s => (readQuoted s).bind fun r =>
    (String.fromUTF8? ⟨⟨r.1⟩⟩).map fun t => (t, r.2)
  parse_print s rest _ := by
    have ht : token [34] (34 :: (utf8 s).flatMap escape ++ [34] ++ rest) =
        some ((utf8 s).flatMap escape ++ 34 :: rest) := by
      simpa using token_append [34] ((utf8 s).flatMap escape ++ 34 :: rest)
    simp only [ht, Option.bind_some, readQuoted_flatMap, fromUTF8?_utf8, Option.map_some]

def Avoids (p : Printer α) (b : UInt8) : Prop := ∀ a, ∃ c t, p.print a = c :: t ∧ c ≠ b

def joinItems (p : Printer α) (close : UInt8) : List α → List UInt8
  | [] => []
  | [a] => p.print a ++ [close]
  | a :: as => p.print a ++ 44 :: joinItems p close as

def readItems (p : Printer α) (close : UInt8) : ℕ → List UInt8 → Option (List α × List UInt8)
  | 0, _ => none
  | n + 1, s => (p.parse s).bind fun x =>
    match x.2 with
    | [] => none
    | b :: s =>
      if b = close then some ([x.1], s)
      else if b = 44 then (readItems p close n s).map fun r => (x.1 :: r.1, r.2)
      else none

theorem length_joinItems (p : Printer α) (close : UInt8) (as : List α) :
    as.length ≤ (joinItems p close as).length := by
  induction as with
  | nil => simp
  | cons a as ih =>
    cases as with
    | nil => simp [joinItems]
    | cons b bs =>
      simp only [joinItems, List.length_cons, List.length_append] at ih ⊢
      omega

theorem readItems_joinItems (p : Printer α) (close : UInt8) (hc : Stops [close]) (h44 : close ≠ 44)
    (as : List α) (has : as ≠ []) (n : ℕ) (hn : as.length ≤ n) (rest : List UInt8) :
    readItems p close n (joinItems p close as ++ rest) = some (as, rest) := by
  induction as generalizing n with
  | nil => exact absurd rfl has
  | cons a as ih =>
    obtain ⟨n, rfl⟩ : ∃ m, n = m + 1 := ⟨n - 1, by simp at hn; omega⟩
    cases as with
    | nil =>
      have hp := p.parse_print a (close :: rest) hc
      simp [readItems, joinItems, hp]
    | cons b bs =>
      have hp := p.parse_print a (44 :: (joinItems p close (b :: bs) ++ rest))
        (stops_append (List.cons_ne_nil 44 []) (by decide) _)
      have hr := ih (by simp) n (by simpa using hn)
      simp only [readItems, joinItems, List.append_assoc, List.cons_append, hp, hr,
        Option.bind_some, Ne.symm h44, ↓reduceIte, Option.map_some]

def list (opn close : UInt8) (p : Printer α) (hp : p.Avoids close)
    (hc : Stops [close] ∧ close ≠ 44) : Printer (List α) where
  print as := opn :: if as = [] then [close] else joinItems p close as
  parse s := (token [opn] s).bind fun s =>
    match token [close] s with
    | some s => some ([], s)
    | none => readItems p close s.length s
  parse_print as rest _ := by
    by_cases has : as = []
    · subst has
      have h1 := token_append [opn] (close :: rest)
      have h2 := token_append [close] rest
      simp only [List.singleton_append] at h1 h2
      simp [h1, h2]
    · have h1 := token_append [opn] (joinItems p close as ++ rest)
      have h2 : token [close] (joinItems p close as ++ rest) = none := by
        obtain ⟨a, as, rfl⟩ := List.exists_cons_of_ne_nil has
        obtain ⟨c, t, ht, hne⟩ := hp a
        apply if_neg
        cases as with
        | nil => simp [joinItems, ht, Ne.symm hne]
        | cons b bs => simp [joinItems, ht, Ne.symm hne]
      have h3 := readItems_joinItems p close hc.1 hc.2 as has
        (joinItems p close as ++ rest).length
        ((length_joinItems p close as).trans (by simp)) rest
      simp only [List.singleton_append] at h1
      simp only [has, ↓reduceIte, List.cons_append, h1, Option.bind_some, h2, h3]

def null : List UInt8 := ascii "null"

def opt (p : Printer α) (hp : p.Avoids 110) : Printer (Option α) where
  print
    | none => null
    | some a => p.print a
  parse s :=
    match token null s with
    | some s => some (none, s)
    | none => (p.parse s).map fun x => (some x.1, x.2)
  parse_print x rest hr := by
    cases x with
    | none => simp
    | some a =>
      obtain ⟨c, t, ht, hne⟩ := hp a
      have hn : token null (p.print a ++ rest) = none := by
        apply if_neg
        have h110 : null = 110 :: [117, 108, 108] := by decide
        rw [ht, h110]
        simp [Ne.symm hne]
      simp [hn, p.parse_print a rest hr]

def decode (p : Printer α) (s : List UInt8) : Option α :=
  match p.parse s with
  | some (a, []) => some a
  | _ => none

theorem decode_print (p : Printer α) (a : α) : p.decode (p.print a) = some a := by
  have h := p.parse_print a [] (by decide)
  rw [List.append_nil] at h
  simp [decode, h]

end Printer
