import Clockchain.Codec

/-!
# Big-endian numbers

A big-endian number is its upper part followed by its lower part, and numbers of one width
compare as their bytes do.
-/

namespace Codec
set_option autoImplicit false

theorem beNat_append (bs cs : Bytes) :
    beNat (bs ++ cs) = beNat bs * 256 ^ cs.length + beNat cs := by
  induction cs using List.reverseRecOn with
  | nil => simp [beNat]
  | append_singleton cs c ih =>
    rw [← List.append_assoc, beNat_concat, ih, beNat_concat, List.length_append,
      List.length_singleton, Nat.pow_succ, Nat.mul_add, Nat.add_assoc, Nat.mul_left_comm,
      Nat.mul_comm 256 (256 ^ cs.length)]

theorem beNat_cons (b : UInt8) (bs : Bytes) :
    beNat (b :: bs) = b.toNat * 256 ^ bs.length + beNat bs := by
  have hone : beNat [b] = b.toNat := by simp [beNat]
  rw [← List.singleton_append, beNat_append, hone]

/-- Only the last `width` bytes of a number are written. -/
theorem beBytes_mod (width n : Nat) : beBytes width (n % 256 ^ width) = beBytes width n := by
  induction width generalizing n with
  | zero => rfl
  | succ width ih =>
    have hdiv : n % 256 ^ (width + 1) / 256 = n / 256 % 256 ^ width := by
      rw [Nat.pow_succ, Nat.mul_comm, Nat.mod_mul_right_div_self]
    have hlast : n % 256 ^ (width + 1) % 256 = n % 256 := by
      rw [Nat.pow_succ, Nat.mod_mul_left_mod]
    rw [beBytes_succ, beBytes_succ, hdiv, ih]
    congr 2
    rw [← UInt8.toNat_inj, UInt8.toNat_ofNat', UInt8.toNat_ofNat']
    exact hlast

theorem beBytes_append (m n x : Nat) :
    beBytes (m + n) x = beBytes m (x / 256 ^ n) ++ beBytes n x := by
  induction n generalizing x with
  | zero => simp [beBytes]
  | succ n ih =>
    rw [← Nat.add_assoc, beBytes_succ, ih, List.append_assoc, ← beBytes_succ,
      Nat.div_div_eq_div_mul, ← Nat.pow_succ']

theorem beBytes_cons (n x : Nat) :
    beBytes (n + 1) x = UInt8.ofNat (x / 256 ^ n) :: beBytes n x := by
  rw [Nat.add_comm, beBytes_append]
  simp [beBytes]

/-- The last bytes, and some before them. -/
theorem beBytes_drop (m n x : Nat) : (beBytes (m + n) x).drop m = beBytes n x := by
  rw [beBytes_append]
  exact List.drop_left' (beBytes_length m _)

theorem beBytes_extract (m n k x : Nat) :
    (beBytes (m + n + k) x).extract m (m + n) = beBytes n (x / 256 ^ k) := by
  rw [beBytes_append, beBytes_append, List.append_assoc, List.extract_eq_take_drop,
    List.drop_left' (beBytes_length m _), Nat.add_sub_cancel_left]
  exact List.take_left' (beBytes_length n _)

theorem beNat_beBytes_mod (width n : Nat) : beNat (beBytes width n) = n % 256 ^ width := by
  rw [← beBytes_mod, beNat_beBytes (Nat.mod_lt _ (Nat.pow_pos (by decide)))]

theorem beBytes_eq_iff {width n : Nat} {bs : Bytes} (h : bs.length = width) :
    beBytes width n = bs ↔ n % 256 ^ width = beNat bs := by
  constructor
  · rintro rfl
    exact (beNat_beBytes_mod width n).symm
  · intro heq
    rw [← beBytes_mod, heq, ← h, beBytes_beNat]

/-! ## Order -/

/-- Bytes of one length compare as the numbers they write. -/
theorem lt_iff_beNat {bs cs : Bytes} (h : bs.length = cs.length) :
    bs < cs ↔ beNat bs < beNat cs := by
  induction bs generalizing cs with
  | nil =>
    obtain rfl := List.length_eq_zero_iff.mp h.symm
    simp
  | cons b bs ih =>
    cases cs with
    | nil => nomatch h
    | cons c cs =>
      have hlen : bs.length = cs.length := Nat.succ.inj h
      have hb := beNat_lt bs
      have hc := beNat_lt cs
      rw [List.cons_lt_cons_iff, ih hlen, beNat_cons, beNat_cons, hlen, UInt8.lt_iff_toNat_lt]
      rw [hlen] at hb
      -- The first byte decides unless the two are equal.
      rcases Nat.lt_trichotomy b.toNat c.toNat with hlt | heq | hgt
      · have hstep : (b.toNat + 1) * 256 ^ cs.length ≤ c.toNat * 256 ^ cs.length :=
          Nat.mul_le_mul_right _ hlt
        rw [Nat.succ_mul] at hstep
        exact iff_of_true (.inl hlt) (by omega)
      · have hbc : b = c := UInt8.toNat_inj.mp heq
        simp [hbc]
      · have hstep : (c.toNat + 1) * 256 ^ cs.length ≤ b.toNat * 256 ^ cs.length :=
          Nat.mul_le_mul_right _ hgt
        rw [Nat.succ_mul] at hstep
        have hne : b ≠ c := by
          rintro rfl
          omega
        exact iff_of_false (fun h => h.elim (by omega) fun h => hne h.1) (by omega)

theorem beBytes_lt_iff {width m n : Nat} (hm : m < 256 ^ width) (hn : n < 256 ^ width) :
    beBytes width m < beBytes width n ↔ m < n := by
  rw [lt_iff_beNat (by rw [beBytes_length, beBytes_length]), beNat_beBytes hm, beNat_beBytes hn]

end Codec
