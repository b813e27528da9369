import Clockchain.Anchor.Grammar

/-!
# Varuints

`write_varuint` of `cc-anchor/src/ots.rs` and the reader of what it writes. Nine groups and one bit
of the tenth are a `u64`; the reader drops the other bits of the tenth group, and is exact on every
other input.
-/

namespace Clockchain.Anchor.Ots
open Codec Programs
set_option autoImplicit false

/-! ## Numbers of any length -/

/-- Every byte but the last says that another one follows. -/
def Number (v : Bytes) : Prop :=
  ∃ front last, v = front ++ [last] ∧ (∀ b ∈ front, 128 ≤ b.toNat) ∧ last.toNat < 128

/-- Ten bytes, with more in the last than the one bit that is left of a `u64`. -/
def Overflows (bs : Bytes) : Prop :=
  ∃ front last rest, bs = front ++ last :: rest ∧ front.length = 9 ∧ (∀ b ∈ front, 128 ≤ b.toNat) ∧
    2 ≤ last.toNat ∧ last.toNat < 128

theorem groups_iff {k : Nat} {v : Bytes} : Groups k v ↔ Number v ∧ v.length ≤ k := by
  induction k generalizing v with
  | zero =>
    refine iff_of_false (fun h => by cases v <;> exact h) ?_
    rintro ⟨⟨front, last, rfl, -, -⟩, hlen⟩
    rw [List.length_append, List.length_singleton] at hlen
    omega
  | succ k ih =>
    cases v with
    | nil =>
      refine iff_of_false (fun h => h) ?_
      rintro ⟨⟨front, last, heq, -, -⟩, -⟩
      exact List.append_ne_nil_of_right_ne_nil front (List.cons_ne_nil last []) heq.symm
    | cons b bs =>
      rw [Groups]
      split
      · next hlast =>
        constructor
        · rintro rfl
          exact ⟨⟨[], b, rfl, List.forall_mem_nil _, hlast⟩, Nat.le_add_left 1 k⟩
        · rintro ⟨⟨front, last, heq, hfront, -⟩, -⟩
          cases front with
          | nil => exact (List.cons.inj heq).2
          | cons c front =>
            obtain ⟨rfl, -⟩ := List.cons.inj heq
            have hmore := hfront b List.mem_cons_self
            omega
      · next hmore =>
        rw [ih, List.length_cons, Nat.add_le_add_iff_right]
        refine and_congr_left fun _ => ?_
        constructor
        · rintro ⟨front, last, rfl, hfront, hlast⟩
          refine ⟨b :: front, last, rfl, fun c hc => ?_, hlast⟩
          cases hc with
          | head => omega
          | tail _ hc => exact hfront c hc
        · rintro ⟨front, last, heq, hfront, hlast⟩
          cases front with
          | nil =>
            obtain ⟨rfl, -⟩ := List.cons.inj heq
            exact absurd hlast hmore
          | cons c front =>
            exact ⟨front, last, (List.cons.inj heq).2,
              fun d hd => hfront d (List.mem_cons_of_mem c hd), hlast⟩

theorem groupsValue_append (v w : Bytes) :
    groupsValue (v ++ w) = groupsValue v + 128 ^ v.length * groupsValue w := by
  induction v with
  | nil => simp [groupsValue]
  | cons b v ih =>
    have hcons : ∀ u, groupsValue (b :: u) = b.toNat % 128 + 128 * groupsValue u := fun _ => rfl
    rw [List.cons_append, hcons, hcons, ih, List.length_cons, Nat.pow_succ', Nat.mul_add,
      Nat.add_assoc, Nat.mul_assoc]

theorem groupsValue_lt (v : Bytes) : groupsValue v < 128 ^ v.length := by
  induction v with
  | nil => exact Nat.one_pos
  | cons b v ih =>
    have hcons : groupsValue (b :: v) = b.toNat % 128 + 128 * groupsValue v := rfl
    have hb := Nat.mod_lt b.toNat (show 0 < 128 by decide)
    rw [hcons, List.length_cons, Nat.pow_succ]
    omega

/-- The last byte counts for what it is. -/
theorem groupsValue_last {front : Bytes} {last : UInt8} (h : last.toNat < 128) :
    groupsValue (front ++ [last]) = groupsValue front + 128 ^ front.length * last.toNat := by
  have hlast : groupsValue [last] = last.toNat := by
    change last.toNat % 128 + 128 * 0 = last.toNat
    omega
  rw [groupsValue_append, hlast]

/-! ## The reader -/

theorem varuint_ok {n : Nat} {bs rest : Bytes} : OtsProof.varuint 0 0 bs = .ok (n, rest) ↔
    ∃ v, Number v ∧ v.length ≤ 10 ∧ groupsValue v % 2 ^ 64 = n ∧ bs = v ++ rest := by
  have hgroups := @varuint_groups 10 n le_rfl 0 bs rest (by decide)
  simpa only [Nat.sub_self, Nat.mul_zero, Nat.pow_zero, Nat.one_mul, Nat.zero_add, groups_iff,
    and_assoc] using hgroups

theorem Reader.varuint_ok {r r' : Reader} {n : Nat} : r.varuint = .ok (n, r') ↔
    ∃ v, Number v ∧ v.length ≤ 10 ∧ groupsValue v % 2 ^ 64 = n ∧ r.rest = v ++ r'.rest ∧
      r'.pos = r.pos + v.length := by
  have hlength : ∀ v rest : Bytes, (v ++ rest).length - rest.length = v.length := by
    intro v rest
    rw [List.length_append, Nat.add_sub_cancel]
  unfold Reader.varuint
  constructor
  · intro h
    cases hread : OtsProof.varuint 0 0 r.rest with
    | error e =>
      rw [hread] at h
      nomatch h
    | ok p =>
      obtain ⟨m, rest⟩ := p
      rw [hread] at h
      obtain ⟨rfl, rfl⟩ := Prod.mk.inj (Except.ok.inj h)
      obtain ⟨v, hv, hlen, hvalue, hrest⟩ := Ots.varuint_ok.1 hread
      exact ⟨v, hv, hlen, hvalue, hrest, by rw [hrest, hlength]⟩
  · rintro ⟨v, hv, hlen, hvalue, hrest, hpos⟩
    rw [Ots.varuint_ok.2 ⟨v, hv, hlen, hvalue, hrest⟩]
    dsimp only
    rw [hrest, hlength, ← hpos]

/-- A number starts the bytes in one way. -/
theorem Number.unique {v v' r r' : Bytes} (h : Number v) (h' : Number v')
    (heq : v ++ r = v' ++ r') : v = v' :=
  groups_unique (groups_iff.2 ⟨h, le_rfl⟩) (groups_iff.2 ⟨h', le_rfl⟩) heq

/-- The reader returns what the bytes it consumes stand for, and refuses what is too long. -/
structure Reader.Exact (r : Reader) : Prop where
  sound : ∀ n r', r.varuint = .ok (n, r') → ∃ v, Number v ∧ r.rest = v ++ r'.rest ∧
    r'.pos = r.pos + v.length ∧ groupsValue v = n
  refuses : ∀ v rest, Number v → r.rest = v ++ rest →
    2 ^ 64 ≤ groupsValue v ∨ 10 < v.length → ∃ e, r.varuint = .error e

/-- The tenth group holds too much, or the number is a `u64`. -/
theorem Number.fits {v rest : Bytes} (h : Number v) (hlen : v.length ≤ 10)
    (hno : ¬ Overflows (v ++ rest)) : groupsValue v < 2 ^ 64 := by
  obtain ⟨front, last, rfl, hfront, hlast⟩ := h
  rw [List.length_append, List.length_singleton] at hlen
  obtain hnine | hshort : front.length = 9 ∨ front.length + 1 ≤ 9 := by omega
  · have hone : last.toNat ≤ 1 := by
      by_contra hmore
      refine hno ⟨front, last, rest, ?_, hnine, hfront, by omega, hlast⟩
      rw [List.append_assoc, List.singleton_append]
    have hfits := groupsValue_lt front
    rw [groupsValue_last hlast, hnine] at *
    omega
  · have hfits := groupsValue_lt (front ++ [last])
    have hpow : 128 ^ (front ++ [last]).length ≤ 128 ^ 9 := by
      refine Nat.pow_le_pow_right (by decide) ?_
      rw [List.length_append, List.length_singleton]
      exact hshort
    omega

theorem overflows_number {bs : Bytes} (h : Overflows bs) :
    ∃ v rest, Number v ∧ v.length = 10 ∧ bs = v ++ rest ∧ 2 ^ 64 ≤ groupsValue v := by
  obtain ⟨front, last, rest, rfl, hnine, hfront, htwo, hlast⟩ := h
  refine ⟨front ++ [last], rest, ⟨front, last, rfl, hfront, hlast⟩, ?_, ?_, ?_⟩
  · rw [List.length_append, hnine, List.length_singleton]
  · rw [List.append_assoc, List.singleton_append]
  · rw [groupsValue_last hlast, hnine]
    omega

theorem Reader.exact_iff (r : Reader) : r.Exact ↔ ¬ Overflows r.rest := by
  constructor
  · intro h hover
    obtain ⟨v, rest, hv, hten, hrest, hvalue⟩ := overflows_number hover
    obtain ⟨e, he⟩ := h.refuses v rest hv hrest (.inl hvalue)
    have hread : r.varuint = .ok (_, ⟨r.pos + v.length, rest⟩) :=
      Reader.varuint_ok.2 ⟨v, hv, hten.le, rfl, hrest, rfl⟩
    rw [he] at hread
    nomatch hread
  · intro hno
    refine ⟨fun n r' h => ?_, fun v rest hv hrest hvalue => ?_⟩
    · obtain ⟨v, hv, hlen, rfl, hrest, hpos⟩ := Reader.varuint_ok.1 h
      rw [hrest] at hno
      exact ⟨v, hv, hrest, hpos, (Nat.mod_eq_of_lt (hv.fits hlen hno)).symm⟩
    · cases hread : r.varuint with
      | error e => exact ⟨e, rfl⟩
      | ok p =>
        obtain ⟨n, r'⟩ := p
        obtain ⟨v', hv', hlen, -, hrest', -⟩ := Reader.varuint_ok.1 hread
        obtain rfl := hv.unique hv' (hrest.symm.trans hrest')
        rw [hrest'] at hno
        have hfits := hv.fits hlen hno
        omega

/-! ## The writer -/

theorem writeVaruint_go {fuel n : Nat} (h : n < 128 ^ fuel) (hfuel : 0 < fuel) :
    Number (writeVaruint.go fuel n) ∧ (writeVaruint.go fuel n).length ≤ fuel ∧
      groupsValue (writeVaruint.go fuel n) = n := by
  induction fuel generalizing n with
  | zero => omega
  | succ fuel ih =>
    rw [writeVaruint.go]
    split
    · next hsmall =>
      have hbyte : (UInt8.ofNat (n % 128)).toNat = n := by
        rw [UInt8.toNat_ofNat']
        omega
      refine ⟨⟨[], _, rfl, List.forall_mem_nil _, by omega⟩, Nat.le_add_left 1 fuel, ?_⟩
      change (UInt8.ofNat (n % 128)).toNat % 128 + 128 * 0 = n
      omega
    · next hlarge =>
      have hbyte : (UInt8.ofNat (n % 128 + 128)).toNat = n % 128 + 128 := by
        rw [UInt8.toNat_ofNat']
        omega
      rw [Nat.pow_succ] at h
      have hpos : 0 < fuel := by
        by_contra hzero
        obtain rfl : fuel = 0 := by omega
        omega
      obtain ⟨⟨front, last, heq, hfront, hlast⟩, hlen, hvalue⟩ :=
        ih (n := n / 128) (by omega) hpos
      refine ⟨⟨_ :: front, last, by rw [heq]; rfl, fun b hb => ?_, hlast⟩, ?_, ?_⟩
      · cases hb with
        | head => omega
        | tail _ hb => exact hfront b hb
      · rw [List.length_cons]
        omega
      · change (UInt8.ofNat (n % 128 + 128)).toNat % 128 +
          128 * groupsValue (writeVaruint.go fuel (n / 128)) = n
        omega

/-- What is written for a `u64` is read back, and nothing else. -/
theorem varuint_writeVaruint (n : BitVec 64) (pos : Nat) (rest : Bytes) :
    Reader.varuint ⟨pos, writeVaruint n.toNat ++ rest⟩ =
      .ok (n.toNat, ⟨pos + (writeVaruint n.toNat).length, rest⟩) := by
  have hlt : n.toNat < 128 ^ 10 := by
    have := n.isLt
    omega
  obtain ⟨hnumber, hlen, hvalue⟩ := writeVaruint_go hlt (by decide)
  have hmod : n.toNat % 2 ^ 64 = n.toNat := Nat.mod_eq_of_lt n.isLt
  exact Reader.varuint_ok.2 ⟨_, hnumber, hlen, by rw [hvalue, hmod], rfl, rfl⟩

/-- The reader is exact but where the tenth byte ends the number with more than one bit. -/
theorem varuints_exact_iff (r : Reader) : (r.Exact ↔ ¬ Overflows r.rest) ∧
    ∀ (n : BitVec 64) (pos : Nat) (rest : Bytes),
      Reader.varuint ⟨pos, writeVaruint n.toNat ++ rest⟩ =
        .ok (n.toNat, ⟨pos + (writeVaruint n.toNat).length, rest⟩) :=
  ⟨r.exact_iff, varuint_writeVaruint⟩

namespace Sample

/-- `2 ^ 64`, the first number that is no `u64`. -/
def tooWide : Bytes := List.replicate 9 0x80 ++ [2]

/-- It is read as zero. -/
theorem wide_read_as_zero : groupsValue tooWide = 2 ^ 64 ∧
    (Reader.new tooWide).varuint = .ok (0, ⟨10, []⟩) ∧ ¬ (Reader.new tooWide).Exact := by
  have hvalue : groupsValue tooWide = 2 ^ 64 := by decide
  have hread : (Reader.new tooWide).varuint = .ok (0, ⟨10, []⟩) := by decide
  refine ⟨hvalue, hread, fun h => ?_⟩
  obtain ⟨e, he⟩ := h.refuses tooWide [] ⟨List.replicate 9 0x80, 2, rfl, by simp, by decide⟩
    rfl (.inl hvalue.ge)
  rw [hread] at he
  nomatch he

end Sample

end Clockchain.Anchor.Ots
