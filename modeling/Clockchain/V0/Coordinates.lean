import Clockchain.V0.Calendars

/-!
# Coordinates on the wire

`parse_as_of`, `render` and `whole_ticks_i64` of `cc-node/src/coord.rs` at any split. The canonical
spelling gives its coordinate back; the whole count is there exactly when it names the coordinate.
-/

namespace Clockchain.V0
open Codec
open V1.Publisher (isWhitespace)
open Publisher (Text decimal hexDigits hexDecode hexDecode_hexDigits hexDigits_length mem_hexDigits)
open Migrator (fitsI64 trim trim_of_solid isWhitespace_of_digit parseI64 parse_decimal)
open Tick (toCanonBytes fromCanonBytes fromWholeTicks)
set_option autoImplicit false

/-! ## The source -/

inductive CoordError where
  | missing
  | malformed (raw : Text)
  | sentinel
  deriving Repr, DecidableEq

/-- `strip_prefix("0x")`, or else `"0X"`. -/
def stripHex : Text → Option Text
  | '0' :: 'x' :: rest => some rest
  | '0' :: 'X' :: rest => some rest
  | _ => none

def parseAsOf (split : BitVec 32) (raw : Option Text) : Except CoordError Tick := do
  let some raw := raw | throw .missing
  let s := trim raw
  if s.isEmpty then throw .missing
  let tick ← match stripHex s with
    | some hexpart =>
      if hexpart.bytes.length ≠ 64 then throw (.malformed raw)
      let some bytes := hexDecode hexpart | throw (.malformed raw)
      if bytes.length ≠ 32 then throw (.malformed raw)
      pure (fromCanonBytes bytes)
    | none =>
      let some whole := parseI64 s | throw (.malformed raw)
      pure (fromWholeTicks (BitVec.ofInt 64 whole) split)
  if tick = sentinel then throw .sentinel
  return tick

/-- `whole_ticks` is an `i64`. -/
structure Coord where
  canonical : Text
  wholeTicks : Option (BitVec 64)
  deriving Repr, DecidableEq

def wholeTicksI64 (split : BitVec 32) (t : Tick) : Option (BitVec 64) :=
  let s := split.toNat
  if s % 8 ≠ 0 ∨ 192 < s then none
  else
    let b := flipSign t.toCanonBytes
    let keep := 32 - s / 8
    let candidate := BitVec.ofNat 64 (beNat (b.extract (keep - 8) keep))
    if fromWholeTicks candidate split = t then some candidate else none

def render (split : BitVec 32) (t : Tick) : Coord where
  canonical := '0' :: 'x' :: hexDigits t.toCanonBytes
  wholeTicks := wholeTicksI64 split t

/-! ## The canonical spelling -/

variable {split : BitVec 32} {t : Tick}

theorem hexDigit_toNat {c : Char} (h : c.isDigit = true ∨ 'a' ≤ c ∧ c ≤ 'f') :
    48 ≤ c.toNat ∧ c.toNat ≤ 102 := by
  rcases h with h | ⟨hlow, hhigh⟩
  · have hdigit : 48 ≤ c.toNat ∧ c.toNat ≤ 57 := Char.isDigit_iff_toNat.mp h
    omega
  · have hlow : 97 ≤ c.toNat := hlow
    have hhigh : c.toNat ≤ 102 := hhigh
    omega

theorem solid_of_toNat {c : Char} (h : 48 ≤ c.toNat ∧ c.toNat ≤ 120) : isWhitespace c = false := by
  unfold isWhitespace
  simp
  omega

/-- ASCII text has a byte for each character. -/
theorem bytes_length_ascii {s : Text} (h : ∀ c ∈ s, c.toNat < 128) : s.bytes.length = s.length := by
  induction s with
  | nil => rfl
  | cons c s ih =>
    have hc : (String.utf8EncodeChar c).length = 1 := by
      rw [String.length_utf8EncodeChar, Char.utf8Size_eq_one_iff]
      exact Nat.le_of_lt_succ (h c List.mem_cons_self)
    have hcons : Text.bytes (c :: s) = String.utf8EncodeChar c ++ Text.bytes s := rfl
    rw [hcons, List.length_append, hc, ih fun d hd => h d (List.mem_cons_of_mem c hd),
      List.length_cons, Nat.add_comm]

theorem parseAsOf_canonical (ht : t ≠ sentinel) :
    parseAsOf split (some (render split t).canonical) = .ok t := by
  have hlen : t.toCanonBytes.length = 32 := by rw [Tick.toCanonBytes_eq, beBytes_length]
  have hsolid : trim (render split t).canonical = (render split t).canonical := by
    refine trim_of_solid fun c hc => solid_of_toNat ?_
    rcases List.mem_cons.1 hc with rfl | hc
    · decide
    rcases List.mem_cons.1 hc with rfl | hc
    · decide
    · have hrange := hexDigit_toNat (mem_hexDigits hc)
      omega
  have hbytes : (hexDigits t.toCanonBytes).bytes.length = 64 := by
    rw [bytes_length_ascii, hexDigits_length, hlen]
    intro c hc
    have hrange := hexDigit_toNat (mem_hexDigits hc)
    omega
  unfold parseAsOf
  dsimp only
  rw [hsolid]
  simp only [render, stripHex, List.isEmpty_cons, hbytes, hexDecode_hexDigits, hlen,
    Tick.fromCanonBytes_toCanonBytes, ht, bind, Except.bind, pure, Except.pure, ne_eq,
    not_true, if_false, Bool.false_eq_true]

/-! ## Whole counts -/

/-- The bytes between the fraction and the sign are the count. -/
theorem candidate_eq (hbyte : split.toNat % 8 = 0) (hsplit : split.toNat ≤ 192) (w : BitVec 64) :
    BitVec.ofNat 64 (beNat ((flipSign (fromWholeTicks w split).toCanonBytes).extract
      (32 - split.toNat / 8 - 8) (32 - split.toNat / 8))) = w := by
  obtain ⟨k, hk⟩ : ∃ k, split.toNat = 8 * k := ⟨split.toNat / 8, by omega⟩
  obtain ⟨m, hm⟩ : ∃ m, 32 = m + 8 + k := ⟨24 - k, by omega⟩
  have hdiv : split.toNat / 8 = k := by omega
  have hflip : flipSign (fromWholeTicks w split).toCanonBytes =
      beBytes 32 (fromWholeTicks w split).toNat := by
    rw [Tick.toCanonBytes_eq, Tick.flipSign_beBytes]
    exact congrArg (fun t : Tick => beBytes 32 t.toNat) (Tick.ofCanon_toCanon _)
  have hpow : 256 ^ k = 2 ^ split.toNat := by
    rw [hk, Nat.pow_mul]
  have hshift : (fromWholeTicks w split >>> split.toNat).setWidth 64 = w := by
    rw [fromWholeTicks, Nat.mod_eq_of_lt (show split.toNat < 256 by omega)]
    apply BitVec.eq_of_getLsbD_eq
    intro i hi
    have hlow : ¬ split.toNat + i < split.toNat := by omega
    have hfits : split.toNat + i < 256 := by omega
    simp only [BitVec.getLsbD_setWidth, BitVec.getLsbD_ushiftRight, BitVec.getLsbD_shiftLeft, hi,
      hfits, hlow, Nat.add_sub_cancel_left, BitVec.getLsbD_signExtend, if_true, decide_true,
      decide_false, Bool.true_and, Bool.not_false, show i < 256 by omega]
  rw [hflip, hdiv, show 32 - k - 8 = m by omega, show 32 - k = m + 8 by omega, hm, beBytes_extract,
    beNat_beBytes_mod, hpow, ← Nat.shiftRight_eq_div_pow, ← BitVec.toNat_ushiftRight]
  apply BitVec.eq_of_toNat_eq
  have hnat := congrArg BitVec.toNat hshift
  rw [BitVec.toNat_setWidth] at hnat
  rw [BitVec.toNat_ofNat, show (256 : Nat) ^ 8 = 2 ^ 64 from rfl, Nat.mod_mod]
  exact hnat

theorem wholeTicksI64_iff (hbyte : split.toNat % 8 = 0) (hsplit : split.toNat ≤ 192)
    {w : BitVec 64} : wholeTicksI64 split t = some w ↔ t = fromWholeTicks w split := by
  unfold wholeTicksI64
  dsimp only
  rw [if_neg (by omega)]
  constructor
  · intro h
    split at h
    · next hcheck =>
      rw [← Option.some.inj h]
      exact hcheck.symm
    · nomatch h
  · rintro rfl
    rw [candidate_eq hbyte hsplit, if_pos rfl]

theorem mem_decimal {c : Char} {n : Int} (h : c ∈ decimal n) : c.isDigit = true ∨ c = '-' := by
  have hdigit : ∀ c ∈ Nat.toDigits 10 n.natAbs, c.isDigit = true := fun c hc =>
    Nat.isDigit_of_mem_toDigits (by decide) (by decide) hc
  unfold decimal at h
  split at h
  · rcases List.mem_cons.1 h with rfl | h
    · exact .inr rfl
    · exact .inl (hdigit c h)
  · exact .inl (hdigit c h)

/-- No count is spelt like a canonical coordinate. -/
theorem stripHex_decimal (n : Int) : stripHex (decimal n) = none := by
  unfold stripHex
  split
  · next rest heq =>
    have hx := mem_decimal (n := n) (heq ▸ List.mem_cons_of_mem '0' List.mem_cons_self)
    exact absurd hx (by decide)
  · next rest heq =>
    have hx := mem_decimal (n := n) (heq ▸ List.mem_cons_of_mem '0' List.mem_cons_self)
    exact absurd hx (by decide)
  · rfl

theorem parseAsOf_decimal {w : BitVec 64} (ht : fromWholeTicks w split ≠ sentinel) :
    parseAsOf split (some (decimal w.toInt)) = .ok (fromWholeTicks w split) := by
  have hfits : fitsI64 w.toInt := ⟨BitVec.le_toInt w, BitVec.toInt_lt⟩
  have hparse := parse_decimal hfits
  have hsolid : trim (decimal w.toInt) = decimal w.toInt :=
    trim_of_solid fun c hc => isWhitespace_of_digit (mem_decimal hc)
  have hempty : (decimal w.toInt).isEmpty = false := by
    unfold decimal
    split
    · rfl
    · exact List.isEmpty_eq_false_iff.2 Nat.toDigits_ne_nil
  rw [hsolid] at hparse
  unfold parseAsOf
  dsimp only
  rw [hsolid]
  simp only [hempty, stripHex_decimal, hparse, BitVec.ofInt_toInt, ht, bind, Except.bind, pure,
    Except.pure, if_false, Bool.false_eq_true]

/-- Both spellings of a coordinate name it and no other. -/
theorem coordinates_lossless (hbyte : split.toNat % 8 = 0) (hsplit : split.toNat ≤ 184)
    (ht : t ≠ sentinel) :
    parseAsOf split (some (render split t).canonical) = .ok t ∧
    (∀ w, (render split t).wholeTicks = some w ↔ t = fromWholeTicks w split) ∧
    ∀ w, (render split t).wholeTicks = some w →
      parseAsOf split (some (decimal w.toInt)) = .ok t := by
  refine ⟨parseAsOf_canonical ht, fun w => wholeTicksI64_iff hbyte (by omega), fun w h => ?_⟩
  obtain rfl := (wholeTicksI64_iff hbyte (by omega)).1 h
  exact parseAsOf_decimal ht

/-- Three ticks before Clock Zero at the split of the corpus. -/
theorem coordinates_lossless_before_zero :
    parseAsOf 64 (some (render 64 (fromWholeTicks (-3) 64)).canonical) =
      .ok (fromWholeTicks (-3) 64) ∧
    (render 64 (fromWholeTicks (-3) 64)).wholeTicks = some (-3) ∧
    parseAsOf 64 (some (decimal (-3))) = .ok (fromWholeTicks (-3) 64) := by
  obtain ⟨hcanonical, hwhole, hdecimal⟩ := @coordinates_lossless 64 (fromWholeTicks (-3) 64)
    (by decide) (by decide) (by decide)
  have hcount := (hwhole (-3)).2 rfl
  exact ⟨hcanonical, hcount, hdecimal (-3) hcount⟩

end Clockchain.V0
