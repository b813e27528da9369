import Clockchain.Public.Client
import Clockchain.V0.Coordinates

/-!
# Hashes in text

What the clients accept as a hash is what the node and its gateway read as one.
-/

namespace Clockchain.Public
open Codec (Bytes beBytes beNat)
open V0.Publisher (Text hexDecode hexDigits hexDecode_hexDigits hexDigits_length mem_hexDigits)
open V1 (Hash)
open V1.Publisher (hex)
set_option autoImplicit false

theorem isHexDigit_iff {c : Char} : isHexDigit c = true ↔
    c.isDigit = true ∨ 'a' ≤ c ∧ c ≤ 'f' := by
  rw [isHexDigit, Bool.or_eq_true, Bool.and_eq_true, decide_eq_true_iff, decide_eq_true_iff]

theorem hexDigits_all (bs : Bytes) : (hexDigits bs).all isHexDigit = true :=
  List.all_eq_true.2 fun _ hc => isHexDigit_iff.2 (mem_hexDigits hc)

theorem isHexDigit_value {c : Char} (h : isHexDigit c = true) : ∃ n < 16, c = Nat.digitChar n := by
  have hdigit : ∀ n < 16, (Nat.digitChar n).toNat = if n < 10 then 48 + n else 87 + n := by decide
  have hchar : ∀ n < 16, c.toNat = (if n < 10 then 48 + n else 87 + n) → c = Nat.digitChar n :=
    fun n hn heq => Char.toNat_inj.1 (heq.trans (hdigit n hn).symm)
  rcases isHexDigit_iff.1 h with h | ⟨hlow, hhigh⟩
  · have hrange : 48 ≤ c.toNat ∧ c.toNat ≤ 57 := Char.isDigit_iff_toNat.1 h
    exact ⟨c.toNat - 48, by omega, hchar _ (by omega) (by rw [if_pos (by omega)]; omega)⟩
  · have hlow : 97 ≤ c.toNat := hlow
    have hhigh : c.toNat ≤ 102 := hhigh
    exact ⟨c.toNat - 87, by omega, hchar _ (by omega) (by rw [if_neg (by omega)]; omega)⟩

/-- Digits in pairs are the digits of some bytes. -/
theorem exists_bytes {s : Text} {n : Nat} (hlength : s.length = 2 * n)
    (h : s.all isHexDigit = true) : ∃ bs : Bytes, bs.length = n ∧ s = hexDigits bs := by
  induction n generalizing s with
  | zero => exact ⟨[], rfl, List.eq_nil_of_length_eq_zero hlength⟩
  | succ n ih =>
    match s, hlength with
    | a :: b :: s, hlength =>
      rw [List.all_cons, List.all_cons, Bool.and_eq_true, Bool.and_eq_true] at h
      obtain ⟨x, hx, rfl⟩ := isHexDigit_value h.1
      obtain ⟨y, hy, rfl⟩ := isHexDigit_value h.2.1
      obtain ⟨bs, hbs, rfl⟩ := ih (by simp only [List.length_cons] at hlength; omega) h.2.2
      refine ⟨UInt8.ofNat (16 * x + y) :: bs, by rw [List.length_cons, hbs], ?_⟩
      have hbyte : (UInt8.ofNat (16 * x + y)).toNat = 16 * x + y := by
        rw [UInt8.toNat_ofNat', Nat.mod_eq_of_lt (by omega)]
      change _ = Nat.digitChar (_ / 16) :: Nat.digitChar (_ % 16) :: hexDigits bs
      rw [hbyte, show (16 * x + y) / 16 = x by omega, show (16 * x + y) % 16 = y by omega]

theorem toList_hex (h : Hash) : (hex h).toList = hexDigits (beBytes 32 h.toNat) :=
  String.toList_ofList

theorem length_hex (h : Hash) : (hex h).toList.length = 64 := by
  rw [toList_hex, hexDigits_length, Codec.beBytes_length]

theorem hex_digits (h : Hash) : (hex h).toList.all isHexDigit = true := by
  rw [toList_hex]
  exact hexDigits_all _

/-- A hash in text is what the node writes for one. -/
theorem isHex64_iff {s : String} : isHex64 s = true ↔ ∃ h : Hash, s = hex h := by
  rw [isHex64, Bool.and_eq_true, decide_eq_true_iff]
  constructor
  · rintro ⟨hlength, hall⟩
    obtain ⟨bs, hbs, heq⟩ := exists_bytes (n := 32) hlength hall
    have hlt := Codec.beNat_lt bs
    rw [hbs] at hlt
    refine ⟨BitVec.ofNat 256 (beNat bs), String.toList_inj.1 ?_⟩
    have hmod : beNat bs % 2 ^ 256 = beNat bs := Nat.mod_eq_of_lt hlt
    rw [toList_hex, BitVec.toNat_ofNat, hmod, heq, ← hbs, Codec.beBytes_beNat]
  · rintro ⟨h, rfl⟩
    exact ⟨length_hex h, hex_digits h⟩

@[simp] theorem isHex64_hex (h : Hash) : isHex64 (hex h) = true := isHex64_iff.2 ⟨h, rfl⟩

theorem hex_injective : Function.Injective hex := by
  intro a b h
  have hdigits : hexDigits (beBytes 32 a.toNat) = hexDigits (beBytes 32 b.toNat) := by
    rw [← toList_hex, ← toList_hex, h]
  have hbytes := congrArg hexDecode hdigits
  rw [hexDecode_hexDigits, hexDecode_hexDigits, Option.some.injEq] at hbytes
  exact BitVec.eq_of_toNat_eq (@Codec.beBytes_inj 32 _ _ a.isLt b.isLt hbytes)

theorem hexDigit_ascii {c : Char} {h : Hash} (hc : c ∈ (hex h).toList) :
    48 ≤ c.toNat ∧ c.toNat ≤ 102 :=
  V0.hexDigit_toNat (isHexDigit_iff.1 (List.all_eq_true.1 (hex_digits h) c hc))

theorem utf8ByteSize_hex (h : Hash) : (hex h).utf8ByteSize = 64 := by
  have hbytes : (hex h).utf8ByteSize = (Text.bytes (hex h).toList).length := by
    rw [← String.size_toByteArray, ← String.utf8Encode_toList, List.utf8Encode,
      List.size_toByteArray]
    rfl
  rw [hbytes, V0.bytes_length_ascii fun c hc => ?_, length_hex]
  have hrange := hexDigit_ascii hc
  omega

@[simp] theorem hex32_hex (h : Hash) : hex32 (hex h) = some h := by
  have hvalid : ¬ ((hex h).utf8ByteSize ≠ 64 ∨ (!(hex h).toList.all isHexDigit) = true) := by
    rw [utf8ByteSize_hex, hex_digits]
    decide
  have hlt : h.toNat < 256 ^ 32 := h.isLt
  rw [hex32, if_neg hvalid, toList_hex, hexDecode_hexDigits, Option.map_some,
    Codec.beNat_beBytes hlt, BitVec.ofNat_toNat, BitVec.setWidth_eq]

@[simp] theorem segment_hex (h : Hash) : segment (hex h) = hex h := by
  refine if_pos ⟨?_, ?_, List.all_eq_true.2 fun c hc => ?_⟩
  · rw [utf8ByteSize_hex]
    decide
  · rw [utf8ByteSize_hex]
    decide
  · have hdigit := isHexDigit_iff.1 (List.all_eq_true.1 (hex_digits h) c hc)
    change (c.isUpper || c.isLower || c.isDigit) = true
    rcases hdigit with hdigit | ⟨hlow, hhigh⟩
    · rw [hdigit, Bool.or_true]
    · have hletters : 'f' ≤ 'z' := by decide
      have hlower : c.isLower = true :=
        Bool.and_eq_true_iff.2 ⟨decide_eq_true hlow, decide_eq_true (Char.le_trans hhigh hletters)⟩
      rw [hlower, Bool.or_true, Bool.true_or]

end Clockchain.Public
