import Clockchain.BigEndian
import Clockchain.V0.Event
import Mathlib.Algebra.Order.Ring.Int

/-!
# The tick codec

`to_canon_bytes` and `from_canon_bytes` of `cc-core/src/lib.rs` limb by limb, and the split of a
coordinate in whole ticks and a fraction. The bytes are those of the number `Tick.toCanon`, so
they come back as the tick they were written for, and they sort as the ticks do.
-/

namespace Clockchain.V0
open Codec
open V1 (Hash)
set_option autoImplicit false

/-! ## The limbs -/

def limbs : Nat := 4

namespace Tick

/-- `to_bits().digits()[i]`, the least significant limb first. -/
def digit (t : Tick) (i : Nat) : BitVec 64 := t.extractLsb' (64 * i) 64

/-- `BUint::from_digits`. -/
def fromDigits (digits : List (BitVec 64)) : Tick :=
  digits.foldr (fun d upper => upper <<< 64 ||| d.setWidth 256) 0

end Tick

/-- `out[start..start + bs.len()].copy_from_slice(bs)`. -/
def overwrite (out : Bytes) (start : Nat) (bs : Bytes) : Bytes :=
  out.take start ++ bs ++ out.drop (start + bs.length)

/-- `b[0] ^= 0x80`. -/
def flipSign (bs : Bytes) : Bytes := bs.modifyHead (· ^^^ 0x80)

namespace Tick

def toCanonBytes (t : Tick) : Bytes :=
  let out := (List.range limbs).foldl
    (fun out i => overwrite out ((limbs - 1 - i) * 8) (beBytes 8 (t.digit i).toNat))
    (List.replicate 32 0)
  flipSign out

def fromCanonBytes (b : Bytes) : Tick :=
  let b := flipSign b
  fromDigits <| (List.range limbs).map fun i =>
    let start := (limbs - 1 - i) * 8
    BitVec.ofNat 64 (beNat (b.extract start (start + 8)))

/-- `I256::from(whole) << split`; from 256 on the shift wraps around, or panics in a debug
build. -/
def fromWholeTicks (whole : BitVec 64) (split : BitVec 32) : Tick :=
  whole.signExtend 256 <<< (split.toNat % 256)

/-- `value >> split`. -/
def wholeTicks (t : Tick) (split : BitVec 32) : Tick := t.sshiftRight (split.toNat % 256)

/-! ## The bytes are those of the flipped number -/

theorem digit_toNat (t : Tick) (i : Nat) :
    (t.digit i).toNat = t.toNat / 256 ^ (8 * i) % 256 ^ 8 := by
  have hpow : (256 : Nat) ^ (8 * i) = 2 ^ (64 * i) := by
    rw [show (256 : Nat) = 2 ^ 8 from rfl, ← Nat.pow_mul, ← Nat.mul_assoc]
  rw [digit, BitVec.extractLsb'_toNat, Nat.shiftRight_eq_div_pow, hpow]
  rfl

/-- The loop writes the limbs in the order of a big-endian number. -/
theorem limbs_written (t : Tick) :
    (List.range limbs).foldl
      (fun out i => overwrite out ((limbs - 1 - i) * 8) (beBytes 8 (t.digit i).toNat))
      (List.replicate 32 0) = beBytes 32 t.toNat := by
  have hsplit : beBytes 32 t.toNat =
      beBytes 8 (t.toNat / 256 ^ 24) ++ (beBytes 8 (t.toNat / 256 ^ 16) ++
        (beBytes 8 (t.toNat / 256 ^ 8) ++ beBytes 8 t.toNat)) := by
    rw [show (32 : Nat) = 8 + 24 from rfl, beBytes_append, show (24 : Nat) = 8 + 16 from rfl,
      beBytes_append 8 16, show (16 : Nat) = 8 + 8 from rfl, beBytes_append 8 8]
  have hdigit : ∀ i, beBytes 8 (t.digit i).toNat = beBytes 8 (t.toNat / 256 ^ (8 * i)) := by
    intro i
    rw [digit_toNat, beBytes_mod]
  have hlen : ∀ n, (beBytes 8 n).length = 8 := beBytes_length 8
  rw [hsplit]
  simp only [limbs, List.range, List.range.loop, List.foldl_cons, List.foldl_nil, hdigit]
  simp [overwrite, hlen, List.drop_append]

/-- Flipping the first bit of the bytes flips that of the number. -/
theorem flipSign_beBytes (t : Tick) :
    flipSign (beBytes 32 t.toNat) = beBytes 32 t.toCanon.toNat := by
  have hsign : signBit.toNat = 2 ^ 255 := by decide
  have hlow : beBytes 31 (t.toNat ^^^ 2 ^ 255) = beBytes 31 t.toNat := by
    have hmod : (t.toNat ^^^ 2 ^ 255) % 2 ^ 248 = t.toNat % 2 ^ 248 := by
      rw [Nat.xor_mod_two_pow, Nat.mod_eq_zero_of_dvd (Nat.pow_dvd_pow 2 (by decide)), Nat.xor_zero]
    rw [← beBytes_mod 31, ← beBytes_mod 31 t.toNat, show (256 : Nat) ^ 31 = 2 ^ 248 from rfl, hmod]
  have hhead : (t.toNat ^^^ 2 ^ 255) / 2 ^ 248 = t.toNat / 2 ^ 248 ^^^ 128 := by
    rw [Nat.xor_div_two_pow]
    rfl
  rw [toCanon, BitVec.toNat_xor, hsign, beBytes_cons 31, beBytes_cons 31, hlow,
    show (256 : Nat) ^ 31 = 2 ^ 248 from rfl, hhead, UInt8.ofNat_xor]
  rfl

theorem toCanonBytes_eq (t : Tick) : t.toCanonBytes = beBytes 32 t.toCanon.toNat := by
  rw [toCanonBytes, limbs_written, flipSign_beBytes]

/-! ## Reading them back -/

theorem fromDigits_eq (digits : List (BitVec 64)) :
    fromDigits digits = BitVec.ofNat 256 (digits.foldr (fun d n => 2 ^ 64 * n + d.toNat) 0) := by
  induction digits with
  | nil => rfl
  | cons d digits ih =>
    rw [fromDigits] at ih ⊢
    rw [List.foldr_cons, List.foldr_cons, ih]
    generalize digits.foldr (fun d n => 2 ^ 64 * n + d.toNat) 0 = n
    have hd : d.toNat < 2 ^ 64 := d.isLt
    have hshift : n % 2 ^ 256 * 2 ^ 64 % 2 ^ 256 = 2 ^ 64 * (n % 2 ^ 192) := by omega
    apply BitVec.eq_of_toNat_eq
    rw [BitVec.toNat_or, BitVec.toNat_shiftLeft, BitVec.toNat_ofNat, BitVec.toNat_setWidth,
      Nat.mod_eq_of_lt (Nat.lt_trans hd (by decide)), Nat.shiftLeft_eq, hshift,
      ← Nat.two_pow_add_eq_or_of_lt hd, BitVec.toNat_ofNat]
    omega

theorem extract_piece {x c : Bytes} {n : Nat} (y : Bytes) (hx : x.length = n) (hc : c.length = 8) :
    (x ++ c ++ y).extract n (n + 8) = c := by
  subst hx
  rw [List.append_assoc, List.extract_eq_take_drop, List.drop_left, Nat.add_sub_cancel_left, ← hc,
    List.take_left]

/-- Four limbs make the number of their bytes. -/
theorem limbs_read {b : Bytes} (h : b.length = 32) :
    fromDigits ((List.range limbs).map fun i =>
      let start := (limbs - 1 - i) * 8
      BitVec.ofNat 64 (beNat (b.extract start (start + 8)))) = BitVec.ofNat 256 (beNat b) := by
  obtain ⟨b₃, b₂, b₁, b₀, h₃, h₂, h₁, h₀, rfl⟩ : ∃ b₃ b₂ b₁ b₀ : Bytes, b₃.length = 8 ∧
      b₂.length = 8 ∧ b₁.length = 8 ∧ b₀.length = 8 ∧ b = b₃ ++ b₂ ++ b₁ ++ b₀ := by
    refine ⟨b.take 8, (b.drop 8).take 8, (b.drop 16).take 8, b.drop 24, by simp [h], by simp [h],
      by simp [h], by simp [h], ?_⟩
    have hdrop : ∀ n, b.drop n = (b.drop n).take 8 ++ b.drop (n + 8) := by
      intro n
      rw [← List.drop_drop, List.take_append_drop]
    rw [List.append_assoc, List.append_assoc, ← hdrop 16, ← hdrop 8, List.take_append_drop]
  have hread : ∀ c : Bytes, c.length = 8 → (BitVec.ofNat 64 (beNat c)).toNat = beNat c := by
    intro c hc
    have hlt := beNat_lt c
    rw [hc] at hlt
    rw [BitVec.toNat_ofNat]
    exact Nat.mod_eq_of_lt hlt
  have e₃ : (b₃ ++ b₂ ++ b₁ ++ b₀).extract 0 8 = b₃ := by
    rw [List.append_assoc, List.append_assoc]
    exact extract_piece (x := []) _ rfl h₃
  have e₂ : (b₃ ++ b₂ ++ b₁ ++ b₀).extract 8 16 = b₂ := by
    rw [List.append_assoc]
    exact extract_piece _ h₃ h₂
  have e₁ : (b₃ ++ b₂ ++ b₁ ++ b₀).extract 16 24 = b₁ :=
    extract_piece _ (by rw [List.length_append, h₃, h₂]) h₁
  have e₀ : (b₃ ++ b₂ ++ b₁ ++ b₀).extract 24 32 = b₀ := by
    rw [← List.append_nil (b₃ ++ b₂ ++ b₁ ++ b₀)]
    exact extract_piece _ (by rw [List.length_append, List.length_append, h₃, h₂, h₁]) h₀
  change fromDigits [BitVec.ofNat 64 (beNat (List.extract _ 24 32)),
    BitVec.ofNat 64 (beNat (List.extract _ 16 24)), BitVec.ofNat 64 (beNat (List.extract _ 8 16)),
    BitVec.ofNat 64 (beNat (List.extract _ 0 8))] = _
  rw [e₃, e₂, e₁, e₀, fromDigits_eq]
  simp only [List.foldr_cons, List.foldr_nil, hread _ h₃, hread _ h₂, hread _ h₁, hread _ h₀,
    beNat_append, h₂, h₁, h₀]
  congr 1
  omega

theorem fromCanonBytes_beBytes (n : Hash) : fromCanonBytes (beBytes 32 n.toNat) = ofCanon n := by
  have hlen : (beBytes 32 (toCanon n).toNat).length = 32 := beBytes_length 32 _
  rw [fromCanonBytes]
  dsimp only
  rw [flipSign_beBytes, limbs_read hlen, beNat_beBytes (toCanon n).isLt, BitVec.ofNat_toNat,
    BitVec.setWidth_eq]
  rfl

theorem beBytes_ofNat {b : Bytes} (h : b.length = 32) :
    beBytes 32 (BitVec.ofNat 256 (beNat b)).toNat = b := by
  have hlt := beNat_lt b
  rw [h] at hlt
  have hnat : (BitVec.ofNat 256 (beNat b)).toNat = beNat b := Nat.mod_eq_of_lt hlt
  rw [hnat, ← h]
  exact beBytes_beNat b

/-! ## The codec -/

@[simp] theorem ofCanon_toCanon (t : Tick) : ofCanon t.toCanon = t := by
  rw [toCanon, ofCanon, BitVec.xor_assoc, BitVec.xor_self, BitVec.xor_zero]

theorem toCanon_injective : Function.Injective toCanon :=
  Function.LeftInverse.injective ofCanon_toCanon

theorem fromCanonBytes_toCanonBytes (t : Tick) : fromCanonBytes t.toCanonBytes = t := by
  rw [toCanonBytes_eq, fromCanonBytes_beBytes, ofCanon_toCanon]

theorem toCanonBytes_fromCanonBytes {b : Bytes} (h : b.length = 32) :
    (fromCanonBytes b).toCanonBytes = b := by
  have hread := fromCanonBytes_beBytes (BitVec.ofNat 256 (beNat b))
  rw [beBytes_ofNat h] at hread
  have hback : toCanon (ofCanon (BitVec.ofNat 256 (beNat b))) = BitVec.ofNat 256 (beNat b) :=
    ofCanon_toCanon _
  rw [hread, toCanonBytes_eq, hback, beBytes_ofNat h]

/-! ## Order -/

theorem toNat_toCanon (t : Tick) : (t.toCanon.toNat : Int) = t.toInt + 2 ^ 255 := by
  have hsign : signBit.toNat = 2 ^ 255 := by decide
  have hdiv : (t.toNat ^^^ 2 ^ 255) / 2 ^ 255 = t.toNat / 2 ^ 255 ^^^ 1 := by
    rw [Nat.xor_div_two_pow, Nat.div_self (Nat.two_pow_pos 255)]
  have hmod : (t.toNat ^^^ 2 ^ 255) % 2 ^ 255 = t.toNat % 2 ^ 255 := by
    rw [Nat.xor_mod_two_pow, Nat.mod_self, Nat.xor_zero]
  have hsum := Nat.div_add_mod (t.toNat ^^^ 2 ^ 255) (2 ^ 255)
  have hsum' := Nat.div_add_mod t.toNat (2 ^ 255)
  have hlt : t.toNat < 2 ^ 256 := t.isLt
  rw [toCanon, BitVec.toNat_xor, hsign, BitVec.toInt_eq_toNat_cond, ← hsum, hdiv, hmod]
  have hcases : t.toNat / 2 ^ 255 = 0 ∨ t.toNat / 2 ^ 255 = 1 := by omega
  rcases hcases with h | h
  · rw [h] at hsum' ⊢
    rw [if_pos (by omega)]
    simp only [Nat.zero_xor]
    omega
  · rw [h] at hsum' ⊢
    rw [if_neg (by omega)]
    simp only [Nat.xor_self]
    omega

theorem toCanon_lt {a b : Tick} : a.toCanon < b.toCanon ↔ a.slt b = true := by
  have ha := toNat_toCanon a
  have hb := toNat_toCanon b
  rw [BitVec.lt_def, BitVec.slt_iff_toInt_lt]
  omega

/-- The bytes of two ticks compare as the ticks do. -/
theorem toCanonBytes_lt {a b : Tick} : a.toCanonBytes < b.toCanonBytes ↔ a.toInt < b.toInt := by
  rw [toCanonBytes_eq, toCanonBytes_eq, beBytes_lt_iff a.toCanon.isLt b.toCanon.isLt,
    ← BitVec.lt_def, toCanon_lt, BitVec.slt_iff_toInt_lt]

/-! ## Whole ticks -/

variable {split : BitVec 32}

theorem two_pow_pos (n : Nat) : (0 : Int) < 2 ^ n := by
  exact_mod_cast Nat.two_pow_pos n

theorem fromWholeTicks_toInt (whole : BitVec 64) (h : split.toNat ≤ 191) :
    (fromWholeTicks whole split).toInt = whole.toInt * 2 ^ split.toNat := by
  have hpow : (BitVec.twoPow 256 split.toNat).toInt = 2 ^ split.toNat := by
    have hlt : 2 ^ split.toNat < 2 ^ 192 := Nat.pow_lt_pow_right (by decide) (by omega)
    rw [BitVec.toInt_eq_toNat_of_lt, BitVec.toNat_twoPow_of_lt (by omega)]
    · push_cast
      rfl
    · rw [BitVec.toNat_twoPow_of_lt (by omega)]
      omega
  have hle : (2 : Int) ^ split.toNat ≤ 2 ^ 191 := by
    exact_mod_cast Nat.pow_le_pow_right (by decide) h
  have hpos := two_pow_pos split.toNat
  have hupper := BitVec.toInt_lt (x := whole)
  have hlower := BitVec.le_toInt whole
  rw [fromWholeTicks, Nat.mod_eq_of_lt (by omega), BitVec.shiftLeft_eq_mul_twoPow, BitVec.toInt_mul,
    hpow, BitVec.toInt_signExtend_of_le (by omega)]
  generalize (2 : Int) ^ split.toNat = p at hle hpos
  generalize whole.toInt = w at hupper hlower
  have habove : w * p ≤ 2 ^ 63 * 2 ^ 191 :=
    Int.mul_le_mul (by omega) hle hpos.le (by decide)
  have hbelow : -(2 ^ 63 * 2 ^ 191) ≤ w * p := by
    have hneg : -w * p ≤ 2 ^ 63 * 2 ^ 191 := Int.mul_le_mul (by omega) hle hpos.le (by decide)
    rw [Int.neg_mul] at hneg
    omega
  exact Int.bmod_eq_of_le (by omega) (by omega)

theorem wholeTicks_toInt (t : Tick) (h : split.toNat ≤ 191) :
    (t.wholeTicks split).toInt = t.toInt.fdiv (2 ^ split.toNat) := by
  have hpos := two_pow_pos split.toNat
  rw [wholeTicks, Nat.mod_eq_of_lt (by omega), BitVec.toInt_sshiftRight, Int.shiftRight_eq_div_pow,
    Int.fdiv_eq_ediv_of_nonneg _ hpos.le]
  norm_cast

/-- A whole count comes back from its coordinate. -/
theorem wholeTicks_fromWholeTicks (whole : BitVec 64) (h : split.toNat ≤ 191) :
    (fromWholeTicks whole split).wholeTicks split = whole.signExtend 256 := by
  apply BitVec.eq_of_toInt_eq
  have hpos := two_pow_pos split.toNat
  rw [wholeTicks_toInt _ h, fromWholeTicks_toInt _ h, Int.mul_fdiv_cancel _ (by omega),
    BitVec.toInt_signExtend_of_le (by omega)]

theorem fromWholeTicks_lt {whole whole' : BitVec 64} (h : split.toNat ≤ 191) :
    (fromWholeTicks whole split).toInt < (fromWholeTicks whole' split).toInt ↔
      whole.toInt < whole'.toInt := by
  rw [fromWholeTicks_toInt _ h, fromWholeTicks_toInt _ h]
  exact Int.mul_lt_mul_right (two_pow_pos split.toNat)

/-- The codec and the whole counts both keep the order. -/
theorem codec_keeps_order :
    (∀ t : Tick, fromCanonBytes t.toCanonBytes = t) ∧
    (∀ b : Bytes, b.length = 32 → (fromCanonBytes b).toCanonBytes = b) ∧
    (∀ t : Tick, t.toCanonBytes.length = 32) ∧
    (∀ a b : Tick, a.toCanonBytes < b.toCanonBytes ↔ a.toInt < b.toInt) ∧
    ∀ split : BitVec 32, split.toNat ≤ 191 →
      (∀ w : BitVec 64, (fromWholeTicks w split).wholeTicks split = w.signExtend 256) ∧
      (∀ w v : BitVec 64, (fromWholeTicks w split).toInt < (fromWholeTicks v split).toInt ↔
        w.toInt < v.toInt) ∧
      ∀ t : Tick, (t.wholeTicks split).toInt = t.toInt.fdiv (2 ^ split.toNat) := by
  refine ⟨fromCanonBytes_toCanonBytes, fun b => toCanonBytes_fromCanonBytes, fun t => ?_,
    fun a b => toCanonBytes_lt, fun split h => ⟨fun w => wholeTicks_fromWholeTicks w h,
      fun w v => fromWholeTicks_lt h, fun t => wholeTicks_toInt t h⟩⟩
  rw [toCanonBytes_eq, beBytes_length]

/-- Across the sign change, and at the split of the corpus. -/
theorem codec_keeps_order_at_zero :
    fromCanonBytes (toCanonBytes (-1)) = -1 ∧ toCanonBytes (-1) < toCanonBytes 0 ∧
      (fromWholeTicks (-3) 64).wholeTicks 64 = -3 ∧
      ((-1 : Tick).wholeTicks 64).toInt = -1 := by
  obtain ⟨hback, -, -, horder, hwhole⟩ := codec_keeps_order
  obtain ⟨hcount, -, hfloor⟩ := hwhole 64 (by decide)
  exact ⟨hback (-1), (horder (-1) 0).mpr (by decide), hcount (-3), hfloor (-1)⟩

end Tick

end Clockchain.V0
