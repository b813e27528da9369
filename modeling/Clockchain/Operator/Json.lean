import Clockchain.Operator.Python
import Mathlib.Data.Nat.Digits.Lemmas

/-!
# Canonical JSON

`json.dumps` with sorted keys and no spaces, and `json.loads`, on ASCII. What is written for a
document of strings without control characters, natural numbers and dicts is read back.
-/

namespace Clockchain.Operator
open Codec
set_option autoImplicit false

/-- The conversions of a `float`. -/
structure Floats where
  repr : BitVec 64 → Bytes
  read : Bytes → BitVec 64

/-! ## `json.dumps` -/

/-- `\uXXXX`. -/
def unicode (n : Nat) : Bytes :=
  [0x5c, 0x75, UInt8.ofNat (hexDigit (n / 4096 % 16)), UInt8.ofNat (hexDigit (n / 256 % 16)),
    UInt8.ofNat (hexDigit (n / 16 % 16)), UInt8.ofNat (hexDigit (n % 16))]

/-- A code point of a string; what is not ASCII is written in units of sixteen bits. -/
def escape (c : Nat) : Bytes :=
  if c = 0x22 then [0x5c, 0x22]
  else if c = 0x5c then [0x5c, 0x5c]
  else if c = 0x0a then [0x5c, 0x6e]
  else if c = 0x0d then [0x5c, 0x72]
  else if c = 0x09 then [0x5c, 0x74]
  else if c = 0x0c then [0x5c, 0x66]
  else if c = 0x08 then [0x5c, 0x62]
  else if 0x20 ≤ c ∧ c ≤ 0x7e then [UInt8.ofNat c]
  else if c < 0x10000 then unicode c
  else unicode (0xd800 + (c - 0x10000) / 1024 % 1024) ++ unicode (0xdc00 + (c - 0x10000) % 1024)

def quote (s : Text) : Bytes := 0x22 :: (s.flatMap escape ++ [0x22])

/-- `str(n)`. -/
def digits (n : Nat) : Bytes :=
  if n = 0 then [0x30] else (Nat.digits 10 n).reverse.map fun d => UInt8.ofNat (48 + d)

def intText (n : Int) : Bytes := if n < 0 then 0x2d :: digits n.natAbs else digits n.natAbs

section
variable (fl : Floats)

mutual

/-- `json.dumps(d, sort_keys=True, separators=(',', ':')).encode()`. -/
def dumps : Py → Bytes
  | .null => utf8 "null"
  | .bool true => utf8 "true"
  | .bool false => utf8 "false"
  | .int n => intText n
  | .float x => fl.repr x
  | .str s => quote s
  | .list [] => [0x5b, 0x5d]
  | .list (v :: vs) => 0x5b :: (dumps v ++ dumpsItems vs)
  | .dict [] => [0x7b, 0x7d]
  | .dict ((k, v) :: items) => 0x7b :: (quote k ++ 0x3a :: (dumps v ++ dumpsMembers items))

def dumpsItems : List Py → Bytes
  | [] => [0x5d]
  | v :: vs => 0x2c :: (dumps v ++ dumpsItems vs)

def dumpsMembers : List (Text × Py) → Bytes
  | [] => [0x7d]
  | (k, v) :: items => 0x2c :: (quote k ++ 0x3a :: (dumps v ++ dumpsMembers items))

end

end

/-! ## `json.loads` -/

def isBlank (b : UInt8) : Bool := b = 0x20 || b = 0x09 || b = 0x0a || b = 0x0d

def skip (bs : Bytes) : Bytes := bs.dropWhile isBlank

def isDigit (b : UInt8) : Bool := 0x30 ≤ b && b ≤ 0x39

def hexUnit (a b c d : UInt8) : Option Nat := do
  let a ← hexValue a.toNat
  let b ← hexValue b.toNat
  let c ← hexValue c.toNat
  let d ← hexValue d.toNat
  return ((a * 16 + b) * 16 + c) * 16 + d

def unescape (b : UInt8) : Option Nat :=
  if b = 0x22 ∨ b = 0x5c ∨ b = 0x2f then some b.toNat
  else if b = 0x62 then some 0x08
  else if b = 0x66 then some 0x0c
  else if b = 0x6e then some 0x0a
  else if b = 0x72 then some 0x0d
  else if b = 0x74 then some 0x09
  else none

/-- The rest of a string and of its text, surrogates still apart. -/
def scanUnits : Bytes → Option (Text × Bytes)
  | [] => none
  | b :: bs =>
    if b = 0x22 then some ([], bs)
    else if b = 0x5c then
      match bs with
      | 0x75 :: a :: b :: c :: d :: bs => do
        let unit ← hexUnit a b c d
        let (s, rest) ← scanUnits bs
        return (unit :: s, rest)
      | e :: bs => do
        let c ← unescape e
        let (s, rest) ← scanUnits bs
        return (c :: s, rest)
      | [] => none
    else if b < 0x20 ∨ 0x80 ≤ b then none
    else do
      let (s, rest) ← scanUnits bs
      return (b.toNat :: s, rest)

/-- A high and a low surrogate in a row are one code point. -/
def joinPairs : Text → Text
  | [] => []
  | [c] => [c]
  | a :: b :: s =>
    if 0xd800 ≤ a ∧ a ≤ 0xdbff ∧ 0xdc00 ≤ b ∧ b ≤ 0xdfff then
      (0x10000 + (a - 0xd800) * 1024 + (b - 0xdc00)) :: joinPairs s
    else a :: joinPairs (b :: s)

/-- A string after its opening quote. -/
def scanString (bs : Bytes) : Option (Text × Bytes) :=
  (scanUnits bs).map fun (s, rest) => (joinPairs s, rest)

def natOf (ds : Bytes) : Nat := ds.foldl (fun n d => 10 * n + (d.toNat - 48)) 0

/-- `(0|[1-9][0-9]*)`. -/
def scanWhole : Bytes → Option (Bytes × Bytes)
  | [] => none
  | b :: bs =>
    if b = 0x30 then some ([b], bs)
    else if isDigit b then some (b :: bs.takeWhile isDigit, bs.dropWhile isDigit)
    else none

/-- `(\.[0-9]+)?`, or with the exponent's letter and sign before the digits. -/
def scanFraction : Bytes → Bytes × Bytes
  | 0x2e :: d :: bs =>
    if isDigit d then (0x2e :: d :: bs.takeWhile isDigit, bs.dropWhile isDigit)
    else ([], 0x2e :: d :: bs)
  | bs => ([], bs)

def scanExponent : Bytes → Bytes × Bytes
  | e :: s :: d :: bs =>
    if (e = 0x65 ∨ e = 0x45) ∧ isDigit s then
      (e :: s :: (d :: bs).takeWhile isDigit, (d :: bs).dropWhile isDigit)
    else if (e = 0x65 ∨ e = 0x45) ∧ (s = 0x2b ∨ s = 0x2d) ∧ isDigit d then
      (e :: s :: d :: bs.takeWhile isDigit, bs.dropWhile isDigit)
    else ([], e :: s :: d :: bs)
  | [e, d] => if (e = 0x65 ∨ e = 0x45) ∧ isDigit d then ([e, d], []) else ([], [e, d])
  | bs => ([], bs)

/-- `sys.get_int_max_str_digits()`. -/
def maxStrDigits : Nat := 4300

section
variable (fl : Floats)

def scanNumber (bs : Bytes) : Option (Py × Bytes) := do
  let negative := bs.head? = some 0x2d
  let (whole, rest) ← scanWhole (if negative then bs.tail else bs)
  let (fraction, rest) := scanFraction rest
  let (exponent, rest) := scanExponent rest
  if fraction = [] ∧ exponent = [] then
    if maxStrDigits < whole.length then none
    else some (.int (if negative then -(natOf whole : Int) else natOf whole), rest)
  else
    let digits := whole ++ fraction ++ exponent
    some (.float (fl.read (if negative then 0x2d :: digits else digits)), rest)

/-- What a word stands for, and what follows it. -/
def scanWord (bs : Bytes) : Option (Py × Bytes) :=
  [("null", Py.null), ("true", .bool true), ("false", .bool false),
    ("NaN", .float (fl.read (utf8 "NaN"))), ("Infinity", .float (fl.read (utf8 "Infinity"))),
    ("-Infinity", .float (fl.read (utf8 "-Infinity")))].findSome? fun (word, value) =>
      if (utf8 word).isPrefixOf bs then some (value, bs.drop (utf8 word).length) else none

/-- `d[k] = v`, the items staying in the order of their keys. -/
def setItem (k : Text) (v : Py) : List (Text × Py) → List (Text × Py)
  | [] => [(k, v)]
  | (k', v') :: items =>
    if k < k' then (k, v) :: (k', v') :: items
    else if k = k' then (k, v) :: items
    else (k', v') :: setItem k v items

mutual

/-- `scan_once`. -/
def scanValue : Nat → Bytes → Option (Py × Bytes)
  | 0, _ => none
  | fuel + 1, bs =>
    match bs with
    | 0x22 :: bs => (scanString bs).map fun (s, rest) => (.str s, rest)
    | 0x7b :: bs =>
      match skip bs with
      | 0x7d :: rest => some (.dict [], rest)
      | bs => (scanMembers fuel [] bs).map fun (items, rest) => (.dict items, rest)
    | 0x5b :: bs =>
      match skip bs with
      | 0x5d :: rest => some (.list [], rest)
      | bs => (scanItems fuel bs).map fun (items, rest) => (.list items, rest)
    | bs => (scanWord fl bs).or (scanNumber fl bs)

/-- A member and what follows it up to the closing brace, after the items before. -/
def scanMembers : Nat → List (Text × Py) → Bytes → Option (List (Text × Py) × Bytes)
  | 0, _, _ => none
  | fuel + 1, items, bs =>
    match bs with
    | 0x22 :: bs => do
      let (k, bs) ← scanString bs
      match skip bs with
      | 0x3a :: bs => do
        let (v, bs) ← scanValue fuel (skip bs)
        match skip bs with
        | 0x7d :: rest => some (setItem k v items, rest)
        | 0x2c :: bs => scanMembers fuel (setItem k v items) (skip bs)
        | _ => none
      | _ => none
    | _ => none

def scanItems : Nat → Bytes → Option (List Py × Bytes)
  | 0, _ => none
  | fuel + 1, bs => do
    let (v, bs) ← scanValue fuel bs
    match skip bs with
    | 0x5d :: rest => some ([v], rest)
    | 0x2c :: bs => do
      let (vs, rest) ← scanItems fuel (skip bs)
      return (v :: vs, rest)
    | _ => none

end

/-- `json.loads`: a value, and white space around it. A value takes a byte at least, so the
length of the input is enough. -/
def loads (bs : Bytes) : Option Py := do
  let (v, rest) ← scanValue fl (bs.length + 1) (skip bs)
  if skip rest = [] then some v else none

end

/-! ## Strings are read back -/

/-- A code point that needs no escape but the two of a quote and a backslash. -/
def Printable (s : Text) : Prop := ∀ c ∈ s, 0x20 ≤ c ∧ c ≤ 0x7e

theorem scanUnits_plain {c : Nat} (hc : 0x20 ≤ c ∧ c ≤ 0x7e) (hq : c ≠ 0x22) (hb : c ≠ 0x5c)
    (bs : Bytes) : scanUnits (UInt8.ofNat c :: bs) =
      (scanUnits bs).map fun (s, rest) => (c :: s, rest) := by
  have hval : (UInt8.ofNat c).toNat = c := by
    rw [UInt8.toNat_ofNat', Nat.mod_eq_of_lt (by omega)]
  have hne : ∀ b : UInt8, c ≠ b.toNat → UInt8.ofNat c ≠ b := by
    intro b h heq
    exact h (hval.symm.trans (congrArg UInt8.toNat heq))
  have hrange : ¬ (UInt8.ofNat c < 0x20 ∨ 0x80 ≤ UInt8.ofNat c) := by
    rw [UInt8.lt_iff_toNat_lt, UInt8.le_iff_toNat_le, hval]
    change ¬ (c < 32 ∨ 128 ≤ c)
    omega
  rw [scanUnits.eq_def]
  dsimp only
  rw [if_neg (hne 0x22 hq), if_neg (hne 0x5c hb), if_neg hrange, hval]
  cases scanUnits bs <;> rfl

theorem scanUnits_escape {c : Nat} (hc : 0x20 ≤ c ∧ c ≤ 0x7e) (bs : Bytes) :
    scanUnits (escape c ++ bs) = (scanUnits bs).map fun (s, rest) => (c :: s, rest) := by
  by_cases hq : c = 0x22
  · subst hq
    change scanUnits (0x5c :: 0x22 :: bs) = _
    rw [scanUnits.eq_def]
    change (scanUnits bs).bind _ = _
    cases scanUnits bs <;> rfl
  by_cases hb : c = 0x5c
  · subst hb
    change scanUnits (0x5c :: 0x5c :: bs) = _
    rw [scanUnits.eq_def]
    change (scanUnits bs).bind _ = _
    cases scanUnits bs <;> rfl
  · rw [escape, if_neg hq, if_neg hb, if_neg (by omega), if_neg (by omega), if_neg (by omega),
      if_neg (by omega), if_neg (by omega), if_pos hc]
    exact scanUnits_plain hc hq hb bs

theorem scanUnits_quote {s : Text} (h : Printable s) (rest : Bytes) :
    scanUnits (s.flatMap escape ++ 0x22 :: rest) = some (s, rest) := by
  induction s with
  | nil =>
    change scanUnits (0x22 :: rest) = _
    rw [scanUnits.eq_def]
    rfl
  | cons c s ih =>
    obtain ⟨hc, hs⟩ := List.forall_mem_cons.mp h
    rw [List.flatMap_cons, List.append_assoc, scanUnits_escape hc, ih hs]
    rfl

theorem joinPairs_printable {s : Text} (h : Printable s) : joinPairs s = s := by
  induction s with
  | nil => rfl
  | cons a s ih =>
    obtain ⟨ha, hs⟩ := List.forall_mem_cons.mp h
    cases s with
    | nil => rfl
    | cons b s => rw [joinPairs, if_neg (by omega), ih hs]

theorem scanString_quote {s : Text} (h : Printable s) (rest : Bytes) :
    scanString (s.flatMap escape ++ 0x22 :: rest) = some (s, rest) := by
  rw [scanString, scanUnits_quote h, Option.map_some]
  dsimp only
  rw [joinPairs_printable h]

/-! ## Numbers are read back -/

/-- What may follow a value inside a document, or its end. -/
def Follows (rest : Bytes) : Prop := ∀ b ∈ rest.head?, b = 0x2c ∨ b = 0x7d

theorem digit_toNat {d : Nat} (h : d < 10) : (UInt8.ofNat (48 + d)).toNat = 48 + d := by
  rw [UInt8.toNat_ofNat', Nat.mod_eq_of_lt (by omega)]

theorem isDigit_ne {b c : UInt8} (hb : isDigit b = true) (hc : isDigit c = false) : b ≠ c := by
  rintro rfl
  rw [hb] at hc
  cases hc

theorem isDigit_digit {d : Nat} (h : d < 10) : isDigit (UInt8.ofNat (48 + d)) = true := by
  rw [isDigit, Bool.and_eq_true, decide_eq_true_iff, decide_eq_true_iff, UInt8.le_iff_toNat_le,
    UInt8.le_iff_toNat_le, digit_toNat h]
  change 48 ≤ 48 + d ∧ 48 + d ≤ 57
  omega

theorem natOf_digits {ds : List Nat} (h : ∀ d ∈ ds, d < 10) :
    natOf (ds.reverse.map fun d => UInt8.ofNat (48 + d)) = Nat.ofDigits 10 ds := by
  induction ds with
  | nil => rfl
  | cons d ds ih =>
    obtain ⟨hd, hds⟩ := List.forall_mem_cons.mp h
    have hstep := ih hds
    rw [natOf] at hstep ⊢
    rw [List.reverse_cons, List.map_append, List.foldl_append, hstep, Nat.ofDigits_cons]
    change 10 * Nat.ofDigits 10 ds + ((UInt8.ofNat (48 + d)).toNat - 48) = _
    rw [digit_toNat hd, Nat.add_sub_cancel_left, Nat.add_comm]

theorem natOf_text (n : Nat) : natOf (digits n) = n := by
  rw [digits]
  by_cases hn : n = 0
  · rw [if_pos hn, hn]
    rfl
  · rw [if_neg hn, natOf_digits fun d hd => Nat.digits_lt_base (by decide) hd, Nat.ofDigits_digits]

theorem takeWhile_digits {ds rest : Bytes} (h : ∀ b ∈ ds, isDigit b = true)
    (hrest : ∀ b ∈ rest.head?, isDigit b = false) :
    (ds ++ rest).takeWhile isDigit = ds ∧ (ds ++ rest).dropWhile isDigit = rest := by
  induction ds with
  | nil =>
    cases rest with
    | nil => exact ⟨rfl, rfl⟩
    | cons b rest =>
      have hb := hrest b rfl
      rw [List.nil_append, List.takeWhile_cons, List.dropWhile_cons, hb]
      exact ⟨rfl, rfl⟩
  | cons d ds ih =>
    obtain ⟨hd, hds⟩ := List.forall_mem_cons.mp h
    obtain ⟨htake, hdrop⟩ := ih hds
    rw [List.cons_append, List.takeWhile_cons, List.dropWhile_cons, hd]
    exact ⟨congrArg (d :: ·) htake, hdrop⟩

/-- A number is a zero alone, or digits that do not start with one. -/
theorem digits_cons (n : Nat) : ∃ b bs, digits n = b :: bs ∧ isDigit b = true ∧
    (b = 0x30 → bs = []) ∧ ∀ d ∈ bs, isDigit d = true := by
  by_cases hn : n = 0
  · exact ⟨0x30, [], if_pos hn, rfl, fun _ => rfl, by simp⟩
  have hne : Nat.digits 10 n ≠ [] := Nat.digits_ne_nil_iff_ne_zero.mpr hn
  have hlast := Nat.getLast_digit_ne_zero 10 hn
  have hall : ∀ d ∈ Nat.digits 10 n, d < 10 := fun d hd => Nat.digits_lt_base (by decide) hd
  refine ⟨UInt8.ofNat (48 + (Nat.digits 10 n).getLast hne),
    (Nat.digits 10 n).dropLast.reverse.map fun d => UInt8.ofNat (48 + d), ?_, ?_, ?_, ?_⟩
  · rw [digits, if_neg hn]
    conv_lhs => rw [← List.dropLast_append_getLast hne, List.reverse_append]
    rfl
  · exact isDigit_digit (hall _ (List.getLast_mem hne))
  · intro h
    have := congrArg UInt8.toNat h
    rw [digit_toNat (hall _ (List.getLast_mem hne))] at this
    change 48 + _ = 48 at this
    omega
  · intro d hd
    obtain ⟨x, hx, rfl⟩ := List.mem_map.mp hd
    exact isDigit_digit (hall x (List.mem_of_mem_dropLast (List.mem_reverse.mp hx)))

theorem Follows.not_digit {rest : Bytes} (h : Follows rest) :
    ∀ b ∈ rest.head?, isDigit b = false := by
  intro b hb
  rcases h b hb with rfl | rfl <;> rfl

theorem scanWhole_digits (n : Nat) {rest : Bytes} (h : Follows rest) :
    scanWhole (digits n ++ rest) = some (digits n, rest) := by
  obtain ⟨b, bs, heq, hb, hzero, hall⟩ := digits_cons n
  rw [heq, List.cons_append, scanWhole]
  by_cases hz : b = 0x30
  · rw [if_pos hz, hzero hz]
    rfl
  · obtain ⟨htake, hdrop⟩ := takeWhile_digits hall h.not_digit
    rw [if_neg hz, if_pos hb, htake, hdrop]

theorem scanFraction_follows {rest : Bytes} (h : Follows rest) :
    scanFraction rest = ([], rest) := by
  cases rest with
  | nil => rfl
  | cons b rest =>
    rcases h b rfl with rfl | rfl
    all_goals
      rw [scanFraction]
      intro d bs heq
      cases heq

theorem scanExponent_follows {rest : Bytes} (h : Follows rest) :
    scanExponent rest = ([], rest) := by
  match rest with
  | [] => rfl
  | [b] => rfl
  | [b, c] =>
    rcases h b rfl with rfl | rfl
    all_goals rfl
  | b :: c :: d :: rest =>
    rcases h b rfl with rfl | rfl
    all_goals
      rw [scanExponent, if_neg (fun h => by simp at h), if_neg (fun h => by simp at h)]

theorem length_digits {n k : Nat} (h : n < 10 ^ k) (hk : 0 < k) : (digits n).length ≤ k := by
  rw [digits]
  split
  · exact hk
  · rw [List.length_map, List.length_reverse]
    exact (Nat.digits_length_le_iff (by decide) n).mpr h

variable (fl : Floats)

theorem scanNumber_digits {n : Nat} (hn : n < 2 ^ 64) {rest : Bytes} (h : Follows rest) :
    scanNumber fl (digits n ++ rest) = some (.int n, rest) := by
  obtain ⟨b, bs, heq, hb, -, -⟩ := digits_cons n
  have hsign : (digits n ++ rest).head? ≠ some 0x2d := by
    rw [heq]
    intro h
    obtain rfl : b = 0x2d := Option.some.inj h
    cases hb
  have hlen : ¬ maxStrDigits < (digits n).length := by
    have := length_digits (n := n) (k := 20) (hn.trans (by decide)) (by decide)
    rw [maxStrDigits]
    omega
  rw [scanNumber]
  simp only [hsign, if_false, scanWhole_digits n h,
    scanFraction_follows h, scanExponent_follows h, Option.bind_eq_bind, Option.bind_some,
    and_self, if_true, if_neg hlen, natOf_text]

theorem scanWord_digits {b : UInt8} (hb : isDigit b = true) (bs : Bytes) :
    scanWord fl (b :: bs) = none := by
  have hword : ∀ w ∈ ["null", "true", "false", "NaN", "Infinity", "-Infinity"],
      (utf8 w).isPrefixOf (b :: bs) = false := by
    have hhead : ∀ w ∈ ["null", "true", "false", "NaN", "Infinity", "-Infinity"],
        ∃ c cs, utf8 w = c :: cs ∧ isDigit c = false := by
      intro w hw
      simp only [List.mem_cons, List.not_mem_nil, or_false] at hw
      rcases hw with rfl | rfl | rfl | rfl | rfl | rfl
      all_goals exact ⟨_, _, rfl, rfl⟩
    intro w hw
    obtain ⟨c, cs, hc, hdigit⟩ := hhead w hw
    have hne : (c == b) = false :=
      beq_eq_false_iff_ne.mpr (isDigit_ne hb hdigit).symm
    rw [hc, List.isPrefixOf_cons_cons, hne, Bool.false_and]
  simp only [List.forall_mem_cons, List.not_mem_nil, false_imp_iff, implies_true, and_true] at hword
  obtain ⟨h1, h2, h3, h4, h5, h6⟩ := hword
  simp only [scanWord, List.findSome?_cons, List.findSome?_nil, h1, h2, h3, h4, h5, h6,
    Bool.false_eq_true, if_false]

/-! ## Documents are read back -/

/-- Strings without control characters, natural numbers of 64 bits, and dicts of them. -/
inductive Plain : Py → Prop where
  | int {n : Nat} (h : n < 2 ^ 64) : Plain (.int n)
  | str {s : Text} (h : Printable s) : Plain (.str s)
  | dict {items : List (Text × Py)} (sorted : (items.map Prod.fst).Pairwise (· < ·))
      (keys : ∀ entry ∈ items, Printable entry.1) (values : ∀ entry ∈ items, Plain entry.2) :
      Plain (.dict items)

/-- The value is read back, whatever follows it. -/
structure Reads (v : Py) : Prop where
  starts : ∃ b bs, dumps fl v = b :: bs ∧ isBlank b = false
  scans : ∀ {fuel : Nat} {rest : Bytes}, (dumps fl v).length ≤ fuel → Follows rest →
    scanValue fl fuel (dumps fl v ++ rest) = some (v, rest)

theorem skip_reads {v : Py} (h : Reads fl v) (rest : Bytes) :
    skip (dumps fl v ++ rest) = dumps fl v ++ rest := by
  obtain ⟨b, bs, heq, hb⟩ := h.starts
  rw [heq, List.cons_append, skip, List.dropWhile_cons, hb]
  rfl

theorem setItem_last {items : List (Text × Py)} {k : Text} (v : Py)
    (h : ∀ entry ∈ items, entry.1 < k) : setItem k v items = items ++ [(k, v)] := by
  induction items with
  | nil => rfl
  | cons entry items ih =>
    obtain ⟨hentry, hitems⟩ := List.forall_mem_cons.mp h
    rw [setItem, if_neg (List.lt_asymm hentry), if_neg (fun heq => List.lt_irrefl _ (heq ▸ hentry)),
      ih hitems, List.cons_append]

theorem before_lt {before items : List (Text × Py)} {k : Text} {v : Py}
    (h : ((before ++ (k, v) :: items).map Prod.fst).Pairwise (· < ·)) :
    ∀ entry ∈ before, entry.1 < k := by
  rw [List.map_append, List.pairwise_append] at h
  exact fun entry hentry => h.2.2 _ (List.mem_map_of_mem hentry) _ List.mem_cons_self

theorem reads_str {s : Text} (h : Printable s) : Reads fl (.str s) := by
  refine ⟨⟨0x22, _, rfl, rfl⟩, fun {fuel rest} hfuel _ => ?_⟩
  have hshape : dumps fl (.str s) ++ rest = 0x22 :: (s.flatMap escape ++ 0x22 :: rest) := by
    change (0x22 :: (s.flatMap escape ++ [0x22])) ++ rest = _
    rw [List.cons_append, List.append_assoc]
    rfl
  match fuel with
  | 0 => exact absurd hfuel (by change ¬ (quote s).length ≤ 0; simp [quote])
  | fuel + 1 =>
    rw [hshape, scanValue, scanString_quote h]
    rfl

theorem reads_int {n : Nat} (h : n < 2 ^ 64) : Reads fl (.int n) := by
  have htext : dumps fl (.int n) = digits n := by
    change intText n = _
    rw [intText, if_neg (by omega), Int.natAbs_natCast]
  obtain ⟨b, bs, heq, hb, -⟩ := digits_cons n
  refine ⟨⟨b, bs, htext.trans heq, ?_⟩, fun {fuel rest} hfuel hrest => ?_⟩
  · have hne : ∀ c, isDigit c = false → b ≠ c := fun c => isDigit_ne hb
    simp only [isBlank, decide_eq_false (hne 0x20 rfl), decide_eq_false (hne 0x09 rfl),
      decide_eq_false (hne 0x0a rfl), decide_eq_false (hne 0x0d rfl), Bool.or_false]
  match fuel with
  | 0 => exact absurd hfuel (by rw [htext, heq]; simp)
  | fuel + 1 =>
    have hscan := scanNumber_digits fl h hrest
    rw [htext]
    rw [heq, List.cons_append] at hscan ⊢
    have hdefault : scanValue fl (fuel + 1) (b :: (bs ++ rest)) =
        (scanWord fl (b :: (bs ++ rest))).or (scanNumber fl (b :: (bs ++ rest))) := by
      rw [scanValue]
      all_goals
        intro cs h
        exact isDigit_ne hb rfl (List.cons.inj h).1
    rw [hdefault, scanWord_digits fl hb, hscan]
    rfl

/-- What a member is written as, and the members after it. -/
def memberText (k : Text) (v : Py) (items : List (Text × Py)) : Bytes :=
  quote k ++ 0x3a :: (dumps fl v ++ dumpsMembers fl items)

theorem dumps_dict (k : Text) (v : Py) (items : List (Text × Py)) :
    dumps fl (.dict ((k, v) :: items)) = 0x7b :: memberText fl k v items := rfl

theorem dumpsMembers_cons (k : Text) (v : Py) (items : List (Text × Py)) :
    dumpsMembers fl ((k, v) :: items) = 0x2c :: memberText fl k v items := rfl

theorem follows_members (items : List (Text × Py)) (rest : Bytes) :
    Follows (dumpsMembers fl items ++ rest) := by
  intro b hb
  cases items with
  | nil => exact Or.inr (Option.some.inj hb).symm
  | cons entry items => exact Or.inl (Option.some.inj hb).symm

theorem memberText_append (k : Text) (v : Py) (items : List (Text × Py)) (rest : Bytes) :
    memberText fl k v items ++ rest = 0x22 :: (k.flatMap escape ++ 0x22 :: 0x3a ::
      (dumps fl v ++ (dumpsMembers fl items ++ rest))) := by
  simp only [memberText, quote, List.cons_append, List.append_assoc, List.nil_append]

/-- One member is read, and what is left are the members after it. -/
theorem scanMembers_member {k : Text} {v : Py} {before : List (Text × Py)} {fuel : Nat}
    (hk : Printable k) (hv : Reads fl v) (hfuel : (dumps fl v).length ≤ fuel)
    (hbefore : ∀ entry ∈ before, entry.1 < k) {items : List (Text × Py)} {rest : Bytes} :
    (items = [] → scanMembers fl (fuel + 1) before (memberText fl k v items ++ rest) =
      some (before ++ [(k, v)], rest)) ∧
    ∀ k' v' items', items = (k', v') :: items' →
      scanMembers fl (fuel + 1) before (memberText fl k v items ++ rest) =
        scanMembers fl fuel (before ++ [(k, v)]) (memberText fl k' v' items' ++ rest) := by
  have hcolon : ∀ bs, skip (0x3a :: bs) = 0x3a :: bs := fun _ => rfl
  have hscan := hv.scans hfuel (follows_members fl items rest)
  rw [memberText_append, scanMembers, scanString_quote hk]
  simp only [Option.bind_eq_bind, Option.bind_some, hcolon, skip_reads fl hv, hscan,
    setItem_last v hbefore]
  constructor
  · rintro rfl
    rfl
  · rintro k' v' items' rfl
    rw [dumpsMembers_cons, List.cons_append, memberText_append]
    rfl

theorem length_memberText (k : Text) (v : Py) (items : List (Text × Py)) :
    (dumps fl v).length + (dumpsMembers fl items).length + 3 ≤
      (memberText fl k v items).length := by
  simp only [memberText, quote, List.length_append, List.length_cons, List.length_nil]
  omega

/-- The members of a dict are read back after the ones before them. -/
theorem scanMembers_reads {items : List (Text × Py)} :
    ∀ {k : Text} {v : Py} {before : List (Text × Py)} {fuel : Nat} (rest : Bytes),
      ((before ++ (k, v) :: items).map Prod.fst).Pairwise (· < ·) →
      (∀ entry ∈ (k, v) :: items, Printable entry.1 ∧ Reads fl entry.2) →
      (memberText fl k v items).length ≤ fuel →
      scanMembers fl fuel before (memberText fl k v items ++ rest) =
        some (before ++ (k, v) :: items, rest) := by
  induction items with
  | nil =>
    intro k v before fuel rest hsorted hitems hfuel
    obtain ⟨⟨hk, hv⟩, -⟩ := List.forall_mem_cons.mp hitems
    have hlen := length_memberText fl k v []
    obtain ⟨fuel, rfl⟩ := Nat.exists_eq_succ_of_ne_zero (show fuel ≠ 0 by omega)
    exact (scanMembers_member fl hk hv (by dsimp only; omega) (before_lt hsorted)).1 rfl
  | cons entry items ih =>
    intro k v before fuel rest hsorted hitems hfuel
    obtain ⟨⟨hk, hv⟩, hitems⟩ := List.forall_mem_cons.mp hitems
    have hlen := length_memberText fl k v (entry :: items)
    obtain ⟨fuel, rfl⟩ := Nat.exists_eq_succ_of_ne_zero (show fuel ≠ 0 by omega)
    rw [(scanMembers_member fl hk hv (by dsimp only; omega) (before_lt hsorted)).2 _ _ _ rfl]
    have hnext : (memberText fl entry.1 entry.2 items).length ≤ fuel := by
      change (dumps fl v).length + (memberText fl entry.1 entry.2 items).length + 1 + 3 ≤ _ at hlen
      omega
    have hrest := @ih entry.1 entry.2 (before ++ [(k, v)]) fuel rest
      (by rwa [List.append_assoc]) hitems hnext
    rw [List.append_assoc] at hrest
    exact hrest

theorem Plain.reads {v : Py} (h : Plain v) : Reads fl v := by
  induction h with
  | int h => exact reads_int fl h
  | str h => exact reads_str fl h
  | @dict items sorted keys values ih =>
    cases items with
    | nil =>
      refine ⟨⟨0x7b, _, rfl, rfl⟩, fun {fuel rest} hfuel _ => ?_⟩
      have hpos : 2 ≤ fuel := hfuel
      obtain ⟨fuel, rfl⟩ := Nat.exists_eq_succ_of_ne_zero (show fuel ≠ 0 by omega)
      rfl
    | cons entry items =>
      obtain ⟨k, v⟩ := entry
      refine ⟨⟨0x7b, _, rfl, rfl⟩, fun {fuel rest} hfuel _ => ?_⟩
      rw [dumps_dict, List.length_cons] at hfuel
      obtain ⟨fuel, rfl⟩ := Nat.exists_eq_succ_of_ne_zero (show fuel ≠ 0 by omega)
      have hscan := @scanMembers_reads fl items k v [] fuel rest sorted
        (fun entry hentry => ⟨keys entry hentry, ih entry hentry⟩) (Nat.le_of_succ_le_succ hfuel)
      rw [memberText_append] at hscan
      rw [dumps_dict, List.cons_append, memberText_append]
      change (scanMembers fl fuel [] _).map _ = _
      rw [hscan]
      rfl

/-- What is written for a plain document is read back. -/
theorem loads_dumps {v : Py} (h : Plain v) : loads fl (dumps fl v) = some v := by
  have hreads := h.reads fl
  have hskip := skip_reads fl hreads []
  have hend : Follows [] := nofun
  have hscan := hreads.scans (Nat.le_succ (dumps fl v).length) hend
  rw [List.append_nil] at hskip hscan
  rw [loads, hskip, hscan]
  rfl

/-! ## A plain document is one line -/

def Graphic (bs : Bytes) : Prop := ∀ b ∈ bs, 0x20 ≤ b

theorem Graphic.append {a b : Bytes} (ha : Graphic a) (hb : Graphic b) : Graphic (a ++ b) :=
  List.forall_mem_append.mpr ⟨ha, hb⟩

theorem Graphic.cons {b : UInt8} {bs : Bytes} (hb : 0x20 ≤ b) (h : Graphic bs) :
    Graphic (b :: bs) := List.forall_mem_cons.mpr ⟨hb, h⟩

theorem graphic_quote {s : Text} (h : Printable s) : Graphic (quote s) := by
  refine .cons (by decide) (.append ?_ (.cons (by decide) (by simp [Graphic])))
  intro b hb
  obtain ⟨c, hc, hb⟩ := List.mem_flatMap.mp hb
  obtain ⟨hlow, hhigh⟩ := h c hc
  rw [escape] at hb
  split at hb
  · simp only [List.mem_cons, List.not_mem_nil, or_false] at hb
    rcases hb with rfl | rfl <;> decide
  split at hb
  · simp only [List.mem_cons, List.not_mem_nil, or_false] at hb
    rcases hb with rfl | rfl <;> decide
  rw [if_neg (by omega), if_neg (by omega), if_neg (by omega), if_neg (by omega),
    if_neg (by omega), if_pos ⟨hlow, hhigh⟩, List.mem_singleton] at hb
  rw [hb, UInt8.le_iff_toNat_le, UInt8.toNat_ofNat', Nat.mod_eq_of_lt (by omega)]
  exact hlow

theorem graphic_int (n : Nat) : Graphic (dumps fl (.int n)) := by
  have htext : dumps fl (.int n) = digits n := by
    change intText n = _
    rw [intText, if_neg (by omega), Int.natAbs_natCast]
  obtain ⟨b, bs, heq, hb, -, hall⟩ := digits_cons n
  have hdigit : ∀ d, isDigit d = true → (0x20 : UInt8) ≤ d := by
    intro d hd
    rw [isDigit, Bool.and_eq_true, decide_eq_true_iff, decide_eq_true_iff] at hd
    exact UInt8.le_trans (by decide) hd.1
  rw [htext, heq]
  exact .cons (hdigit b hb) fun d hd => hdigit d (hall d hd)

theorem graphic_members {items : List (Text × Py)}
    (h : ∀ entry ∈ items, Printable entry.1 ∧ Graphic (dumps fl entry.2)) :
    Graphic (dumpsMembers fl items) := by
  induction items with
  | nil => exact .cons (by decide) (by simp [Graphic])
  | cons entry items ih =>
    obtain ⟨⟨hk, hv⟩, hitems⟩ := List.forall_mem_cons.mp h
    exact .cons (by decide) (.append (graphic_quote hk)
      (.cons (by decide) (.append hv (ih hitems))))

theorem Plain.graphic {v : Py} (h : Plain v) : Graphic (dumps fl v) := by
  induction h with
  | @int n => exact graphic_int fl n
  | str h => exact graphic_quote h
  | @dict items sorted keys values ih =>
    cases items with
    | nil => exact .cons (by decide) (.cons (by decide) (by simp [Graphic]))
    | cons entry items =>
      have hall := graphic_members fl fun e he => ⟨keys e he, ih e he⟩
      rw [dumpsMembers] at hall
      exact .cons (by decide) (List.forall_mem_cons.mp hall).2

end Clockchain.Operator
