import Mathlib.Data.Nat.Digits.Defs

/-!
# Decimal numbers of a fixed width

A number below a power of ten, and the digits that write it with zeros before. Between texts of
that many digits and such numbers this is a bijection.
-/

namespace Decimals
set_option autoImplicit false

def value (ds : List Char) : Nat := Nat.ofDigitChars 10 ds 0

/-- Zeros, and then the digits. -/
def fixed (width n : Nat) : List Char :=
  List.replicate (width - (Nat.toDigits 10 n).length) '0' ++ Nat.toDigits 10 n

def Digits (ds : List Char) : Prop := ∀ c ∈ ds, c.isDigit = true

variable {width n : Nat} {c d : Char} {ds es : List Char}

/-! ## Values -/

theorem value_cons : value (c :: ds) = 10 ^ ds.length * (c.toNat - 48) + value ds := by
  rw [value, Nat.ofDigitChars_cons, Nat.ofDigitChars_eq_ofDigitChars_zero, Nat.mul_zero,
    Nat.zero_add]
  rfl

theorem toNat_of_digit (h : c.isDigit = true) : 48 ≤ c.toNat ∧ c.toNat ≤ 57 :=
  Char.isDigit_iff_toNat.mp h

theorem value_lt (h : Digits ds) : value ds < 10 ^ ds.length := by
  induction ds with
  | nil => decide
  | cons c ds ih =>
    have hc := toNat_of_digit (h c List.mem_cons_self)
    have hds := ih fun d hd => h d (List.mem_cons_of_mem c hd)
    have hhead : 10 ^ ds.length * (c.toNat - 48) ≤ 10 ^ ds.length * 9 :=
      Nat.mul_le_mul_left _ (by omega)
    rw [value_cons, List.length_cons, Nat.pow_succ]
    omega

/-- Digits of one length are known by their value. -/
theorem value_injective (hds : Digits ds) (hes : Digits es) (hlen : ds.length = es.length)
    (h : value ds = value es) : ds = es := by
  induction ds generalizing es with
  | nil => exact (List.length_eq_zero_iff.mp hlen.symm).symm
  | cons c ds ih =>
    cases es with
    | nil => nomatch hlen
    | cons d es =>
      have hlen' : ds.length = es.length := Nat.succ.inj hlen
      have hds' : Digits ds := fun x hx => hds x (List.mem_cons_of_mem c hx)
      have hes' : Digits es := fun x hx => hes x (List.mem_cons_of_mem d hx)
      have hlt := value_lt hds'
      have hlt' := value_lt hes'
      have hc := toNat_of_digit (hds c List.mem_cons_self)
      have hd := toNat_of_digit (hes d List.mem_cons_self)
      rw [value_cons, value_cons, hlen'] at h
      rw [hlen'] at hlt
      -- The tails are remainders, so the heads are the quotients.
      have htail : value ds = value es := by
        have := congrArg (· % 10 ^ es.length) h
        simpa [Nat.mul_add_mod, Nat.mod_eq_of_lt hlt, Nat.mod_eq_of_lt hlt'] using this
      have hhead : c.toNat - 48 = d.toNat - 48 := by
        rw [htail] at h
        exact Nat.eq_of_mul_eq_mul_left (Nat.pow_pos (by decide)) (Nat.add_right_cancel h)
      have hcd : c = d := Char.toNat_inj.mp (by omega)
      rw [hcd, ih hds' hes' hlen' htail]

/-! ## Fixed widths -/

theorem fixed_digits : Digits (fixed width n) := by
  intro c hc
  rcases List.mem_append.mp hc with hc | hc
  · rw [(List.mem_replicate.mp hc).2]
    decide
  · exact Nat.isDigit_of_mem_toDigits (by decide) (by decide) hc

theorem fixed_length (hwidth : 0 < width) (h : n < 10 ^ width) :
    (fixed width n).length = width := by
  have hle : (Nat.toDigits 10 n).length ≤ width :=
    (Nat.length_toDigits_le_iff (by decide) hwidth).mpr h
  rw [fixed, List.length_append, List.length_replicate]
  omega

theorem value_fixed : value (fixed width n) = n := by
  rw [value, fixed, Nat.ofDigitChars_append, Nat.ofDigitChars_replicate_zero, Nat.mul_zero]
  exact Nat.ofDigitChars_ten_toDigits

theorem fixed_value (hwidth : 0 < width) (hds : Digits ds) (hlen : ds.length = width) :
    fixed width (value ds) = ds := by
  have hlt := value_lt hds
  rw [hlen] at hlt
  exact value_injective fixed_digits hds (by rw [fixed_length hwidth hlt, hlen]) value_fixed

end Decimals
