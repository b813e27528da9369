import Clockchain.Json
import Mathlib.Tactic.Common

/-!
# The text of a document

Two documents with one text are equal: what follows a number starts with no digit, and all else
that a document writes shows where it ends.
-/

namespace Json
set_option autoImplicit false

/-! ## Strings -/

def hexValue (c : Char) : Nat := if c.isDigit then c.toNat - 48 else c.toNat - 87

/-- The first character of an escaped text, and the rest of the text. -/
def unescape : List Char → Option (Char × List Char)
  | '\\' :: '"' :: rest => some ('"', rest)
  | '\\' :: '\\' :: rest => some ('\\', rest)
  | '\\' :: 'b' :: rest => some (.ofNat 8, rest)
  | '\\' :: 't' :: rest => some (.ofNat 9, rest)
  | '\\' :: 'n' :: rest => some (.ofNat 10, rest)
  | '\\' :: 'f' :: rest => some (.ofNat 12, rest)
  | '\\' :: 'r' :: rest => some (.ofNat 13, rest)
  | '\\' :: 'u' :: '0' :: '0' :: a :: b :: rest =>
    some (.ofNat (16 * hexValue a + hexValue b), rest)
  | c :: rest => some (c, rest)
  | [] => none

theorem hexValue_hexDigit : ∀ d < 16, hexValue (hexDigit d) = d := by decide

theorem unescape_escape (c : Char) (rest : List Char) :
    unescape (escape c ++ rest) = some (c, rest) := by
  have hself : ∀ n, c.toNat = n → Char.ofNat n = c := by
    rintro n rfl
    exact Char.ofNat_toNat c
  unfold escape
  split
  · next h => rw [h]; rfl
  split
  · next h => rw [h]; rfl
  next hquote hslash =>
  split
  · next h => rw [← hself 8 h]; rfl
  split
  · next h => rw [← hself 9 h]; rfl
  split
  · next h => rw [← hself 10 h]; rfl
  split
  · next h => rw [← hself 12 h]; rfl
  split
  · next h => rw [← hself 13 h]; rfl
  split
  · next hlow =>
    have hhigh : c.toNat / 16 < 16 := by omega
    have hmod : c.toNat % 16 < 16 := Nat.mod_lt _ (by decide)
    have hvalue : 16 * (c.toNat / 16) + c.toNat % 16 = c.toNat := Nat.div_add_mod _ _
    change some (Char.ofNat (16 * hexValue (hexDigit (c.toNat / 16)) +
      hexValue (hexDigit (c.toNat % 16))), rest) = _
    rw [hexValue_hexDigit _ hhigh, hexValue_hexDigit _ hmod, hvalue, Char.ofNat_toNat]
  · have hplain : ∀ d, d ≠ '\\' → unescape (d :: rest) = some (d, rest) := by
      intro d hd
      unfold unescape
      split <;> simp_all
    exact hplain c hslash

/-- No escaped text ends a string. -/
theorem escape_ne_quote (c : Char) (rest tail : List Char) :
    escape c ++ rest ≠ '"' :: tail := by
  intro h
  have hc := unescape_escape c rest
  have hquote : unescape ('"' :: tail) = some ('"', tail) := rfl
  rw [h, hquote, Option.some.injEq, Prod.mk.injEq] at hc
  obtain ⟨rfl, rfl⟩ := hc
  have hlen := congrArg List.length h
  simp [escape] at hlen

theorem escaped_append {cs ds s t : List Char}
    (h : cs.flatMap escape ++ '"' :: s = ds.flatMap escape ++ '"' :: t) : cs = ds ∧ s = t := by
  induction cs generalizing ds with
  | nil =>
    cases ds with
    | nil => exact ⟨rfl, (List.cons.inj h).2⟩
    | cons d ds =>
      rw [List.flatMap_nil, List.nil_append, List.flatMap_cons, List.append_assoc] at h
      exact absurd h.symm (escape_ne_quote _ _ _)
  | cons c cs ih =>
    cases ds with
    | nil =>
      rw [List.flatMap_nil, List.nil_append, List.flatMap_cons, List.append_assoc] at h
      exact absurd h (escape_ne_quote _ _ _)
    | cons d ds =>
      rw [List.flatMap_cons, List.flatMap_cons, List.append_assoc, List.append_assoc] at h
      have hread := congrArg unescape h
      rw [unescape_escape, unescape_escape, Option.some.injEq, Prod.mk.injEq] at hread
      obtain ⟨rfl, hrest⟩ := hread
      obtain ⟨rfl, rfl⟩ := ih hrest
      exact ⟨rfl, rfl⟩

theorem quote_append {a b : String} {s t : List Char} (h : quote a ++ s = quote b ++ t) :
    a = b ∧ s = t := by
  simp only [quote, List.cons_append, List.append_assoc, List.nil_append, List.cons.injEq,
    true_and] at h
  obtain ⟨hab, hst⟩ := escaped_append h
  exact ⟨String.toList_inj.mp hab, hst⟩

/-! ## Numbers -/

/-- The text does not go on with a digit. -/
def Ended (s : List Char) : Prop := ∀ c rest, s = c :: rest → c.isDigit = false

theorem Ended.nil : Ended [] := by
  rintro c rest ⟨⟩

theorem ended_cons {c : Char} {s : List Char} (h : c.isDigit = false) : Ended (c :: s) := by
  intro d rest hd
  rw [← (List.cons.inj hd).1]
  exact h

theorem takeWhile_ended {ds s : List Char} (hds : ∀ c ∈ ds, c.isDigit = true) (hs : Ended s) :
    (ds ++ s).takeWhile Char.isDigit = ds := by
  induction ds with
  | nil =>
    cases s with
    | nil => rfl
    | cons c s => rw [List.nil_append, List.takeWhile_cons_of_neg (by simp [hs c s rfl])]
  | cons d ds ih =>
    rw [List.cons_append, List.takeWhile_cons_of_pos (hds d List.mem_cons_self),
      ih fun c hc => hds c (List.mem_cons_of_mem d hc)]

theorem digits_append {m n : Nat} {s t : List Char} (hs : Ended s) (ht : Ended t)
    (h : Nat.toDigits 10 m ++ s = Nat.toDigits 10 n ++ t) : m = n ∧ s = t := by
  have hdigit : ∀ k, ∀ c ∈ Nat.toDigits 10 k, c.isDigit = true :=
    fun _ _ hc => Nat.isDigit_of_mem_toDigits (by decide) (by decide) hc
  have hdigits := congrArg (List.takeWhile Char.isDigit) h
  rw [takeWhile_ended (hdigit m) hs, takeWhile_ended (hdigit n) ht] at hdigits
  have hvalue := congrArg (Nat.ofDigitChars 10 · 0) hdigits
  rw [Nat.ofDigitChars_toDigits (by decide) (by decide),
    Nat.ofDigitChars_toDigits (by decide) (by decide)] at hvalue
  rw [hdigits] at h
  exact ⟨hvalue, List.append_cancel_left h⟩

/-! ## Values -/

def Value.kind : Value → Nat
  | .null => 0
  | .bool _ => 1
  | .num _ => 2
  | .str _ => 3
  | .arr _ => 4
  | .obj _ => 5

/-- The kind of a value, by the character it starts with. -/
def kindOf (c : Char) : Nat :=
  if c = 'n' then 0
  else if c = 't' ∨ c = 'f' then 1
  else if c.isDigit then 2
  else if c = '"' then 3
  else if c = '[' then 4
  else if c = '\x7b' then 5
  else 6

theorem kindOf_digit {c : Char} (h : c.isDigit = true) : kindOf c = 2 := by
  have hne : ∀ d : Char, d.isDigit = false → c ≠ d := by
    rintro d hd rfl
    rw [h] at hd
    exact Bool.noConfusion hd
  rw [kindOf, if_neg (hne 'n' rfl), if_neg (not_or.mpr ⟨hne 't' rfl, hne 'f' rfl⟩), if_pos h]

theorem write_starts (v : Value) : ∃ c rest, write v = c :: rest ∧ kindOf c = v.kind := by
  cases v with
  | null => exact ⟨_, _, rfl, rfl⟩
  | bool b => cases b <;> exact ⟨_, _, rfl, rfl⟩
  | num n =>
    obtain ⟨c, rest, hdigits⟩ := List.exists_cons_of_ne_nil (Nat.toDigits_ne_nil (n := n) (b := 10))
    have hc : c ∈ Nat.toDigits 10 n := by
      rw [hdigits]
      exact List.mem_cons_self
    exact ⟨c, rest, hdigits, kindOf_digit (Nat.isDigit_of_mem_toDigits (by decide) (by decide) hc)⟩
  | str s => exact ⟨_, _, rfl, rfl⟩
  | arr items => cases items <;> exact ⟨_, _, rfl, rfl⟩
  | obj members => cases members <;> exact ⟨_, _, rfl, rfl⟩

/-- Values that start alike are of one kind. -/
theorem kind_of_write {v w : Value} {s t : List Char} (h : write v ++ s = write w ++ t) :
    v.kind = w.kind := by
  obtain ⟨c, rest, hv, hc⟩ := write_starts v
  obtain ⟨d, tail, hw, hd⟩ := write_starts w
  rw [hv, hw] at h
  rw [← hc, ← hd, (List.cons.inj h).1]

theorem write_ne_close (v : Value) (s t : List Char) : write v ++ s ≠ ']' :: t := by
  obtain ⟨c, rest, hwrite, hkind⟩ := write_starts v
  rw [hwrite]
  intro h
  obtain ⟨rfl, -⟩ := List.cons.inj h
  cases v <;> nomatch hkind

theorem writeItems_ended (vs : List Value) (s : List Char) : Ended (writeItems vs ++ s) := by
  cases vs <;> exact ended_cons rfl

theorem writeMembers_ended (members : List (String × Value)) (s : List Char) :
    Ended (writeMembers members ++ s) := by
  cases members <;> exact ended_cons rfl

mutual

theorem write_append (v w : Value) (s t : List Char) (hs : Ended s) (ht : Ended t)
    (h : write v ++ s = write w ++ t) : v = w ∧ s = t :=
  match v, w, kind_of_write h, h with
  | .null, .null, _, h => ⟨rfl, List.append_cancel_left h⟩
  | .bool b, .bool b', _, h => by
    cases b <;> cases b' <;> simp_all [write]
  | .num m, .num n, _, h => by
    obtain ⟨rfl, rfl⟩ := digits_append hs ht h
    exact ⟨rfl, rfl⟩
  | .str a, .str b, _, h => by
    obtain ⟨rfl, rfl⟩ := quote_append h
    exact ⟨rfl, rfl⟩
  | .arr [], .arr [], _, h => ⟨rfl, List.append_cancel_left h⟩
  | .arr [], .arr (w :: ws), _, h => by
    simp only [write, List.cons_append, List.append_assoc, List.nil_append, List.cons.injEq,
      true_and] at h
    exact absurd h.symm (write_ne_close _ _ _)
  | .arr (v :: vs), .arr [], _, h => by
    simp only [write, List.cons_append, List.append_assoc, List.nil_append, List.cons.injEq,
      true_and] at h
    exact absurd h (write_ne_close _ _ _)
  | .arr (v :: vs), .arr (w :: ws), _, h => by
    simp only [write, List.cons_append, List.append_assoc, List.cons.injEq, true_and] at h
    obtain ⟨rfl, hrest⟩ := write_append v w _ _ (writeItems_ended vs s) (writeItems_ended ws t) h
    obtain ⟨rfl, rfl⟩ := writeItems_append vs ws s t hrest
    exact ⟨rfl, rfl⟩
  | .obj [], .obj [], _, h => ⟨rfl, List.append_cancel_left h⟩
  | .obj [], .obj ((name, w) :: ws), _, h => by
    simp [write, quote] at h
  | .obj ((name, v) :: vs), .obj [], _, h => by
    simp [write, quote] at h
  | .obj ((name, v) :: vs), .obj ((name', w) :: ws), _, h => by
    simp only [write, List.cons_append, List.append_assoc, List.cons.injEq, true_and] at h
    obtain ⟨rfl, hrest⟩ := quote_append h
    obtain ⟨rfl, hmembers⟩ := write_append v w _ _ (writeMembers_ended vs s)
      (writeMembers_ended ws t) (List.cons.inj hrest).2
    obtain ⟨rfl, rfl⟩ := writeMembers_append vs ws s t hmembers
    exact ⟨rfl, rfl⟩

theorem writeItems_append : ∀ (vs ws : List Value) (s t : List Char),
    writeItems vs ++ s = writeItems ws ++ t → vs = ws ∧ s = t
  | [], [], s, t, h => ⟨rfl, List.append_cancel_left h⟩
  | [], w :: ws, s, t, h => by simp [writeItems] at h
  | v :: vs, [], s, t, h => by simp [writeItems] at h
  | v :: vs, w :: ws, s, t, h => by
    simp only [writeItems, List.cons_append, List.append_assoc, List.cons.injEq, true_and] at h
    obtain ⟨rfl, hrest⟩ := write_append v w _ _ (writeItems_ended vs s) (writeItems_ended ws t) h
    obtain ⟨rfl, rfl⟩ := writeItems_append vs ws s t hrest
    exact ⟨rfl, rfl⟩

theorem writeMembers_append : ∀ (vs ws : List (String × Value)) (s t : List Char),
    writeMembers vs ++ s = writeMembers ws ++ t → vs = ws ∧ s = t
  | [], [], s, t, h => ⟨rfl, List.append_cancel_left h⟩
  | [], (name, w) :: ws, s, t, h => by simp [writeMembers] at h
  | (name, v) :: vs, [], s, t, h => by simp [writeMembers] at h
  | (name, v) :: vs, (name', w) :: ws, s, t, h => by
    simp only [writeMembers, List.cons_append, List.append_assoc, List.cons.injEq, true_and] at h
    obtain ⟨rfl, hrest⟩ := quote_append h
    obtain ⟨rfl, hmembers⟩ := write_append v w _ _ (writeMembers_ended vs s)
      (writeMembers_ended ws t) (List.cons.inj hrest).2
    obtain ⟨rfl, rfl⟩ := writeMembers_append vs ws s t hmembers
    exact ⟨rfl, rfl⟩

end

theorem write_injective : Function.Injective write := by
  intro v w h
  refine (write_append v w [] [] .nil .nil ?_).1
  rw [h]

theorem bytes_injective : Function.Injective bytes := by
  intro v w h
  have hdata : (String.ofList (write v)).toUTF8 = (String.ofList (write w)).toUTF8 :=
    ByteArray.ext (Array.toList_inj.mp h)
  have htext : String.ofList (write v) = String.ofList (write w) := String.toByteArray_inj.mp hdata
  have hchars := congrArg String.toList htext
  rw [String.toList_ofList, String.toList_ofList] at hchars
  exact write_injective hchars

end Json
