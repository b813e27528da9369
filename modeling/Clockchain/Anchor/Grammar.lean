import Clockchain.Anchor.Walk

/-!
# The grammar of timestamps

A timestamp is a tree of operations with attestations at its leaves. What `walk` accepts is the
serializations of such trees, and what it returns is every attestation of the tree, depth first,
over the message that the operations above it make. The grammar it accepts is wider than the
documented one: a payload may go on behind what is read of it, and a varuint may overflow.
-/

namespace Clockchain.Anchor.Ots
open Codec Programs V0
open V1 (Hash)
set_option autoImplicit false

/-! ## Trees -/

inductive Op where
  | append (arg : Bytes)
  | prepend (arg : Bytes)
  | sha256
  | reverse
  | hexlify
  deriving Repr, DecidableEq

/-- A node, by its branches: the last one, or one with siblings behind it. -/
inductive Timestamp where
  | attest (a : Attestation)
  | apply (o : Op) (t : Timestamp)
  | attestThen (a : Attestation) (siblings : Timestamp)
  | applyThen (o : Op) (t siblings : Timestamp)
  deriving Repr, DecidableEq

def Op.run (sha256 : Bytes → Hash) (msg : Bytes) : Op → Bytes
  | .append arg => msg ++ arg
  | .prepend arg => arg ++ msg
  | .sha256 => asBytes (sha256 msg)
  | .reverse => msg.reverse
  | .hexlify => Ots.hexlify msg

def Op.tag : Op → UInt8
  | .append _ => opAppend
  | .prepend _ => opPrepend
  | .sha256 => OtsProof.opSha256
  | .reverse => opReverse
  | .hexlify => opHexlify

namespace Timestamp

/-- The attestations depth first, each behind the operations on its path from the root. -/
def leaves : Timestamp → List (List Op × Attestation)
  | attest a => [([], a)]
  | apply o t => t.leaves.map fun leaf => (o :: leaf.1, leaf.2)
  | attestThen a siblings => ([], a) :: siblings.leaves
  | applyThen o t siblings => (t.leaves.map fun leaf => (o :: leaf.1, leaf.2)) ++ siblings.leaves

/-- Every attestation with the message its path makes of `msg`. -/
def commitments (sha256 : Bytes → Hash) (msg : Bytes) (t : Timestamp) : List Commitment :=
  t.leaves.map fun leaf => ⟨leaf.2, leaf.1.foldl (Op.run sha256) msg⟩

variable (sha256 : Bytes → Hash) (msg : Bytes) (a : Attestation) (o : Op) (t siblings : Timestamp)

@[simp] theorem commitments_apply :
    (apply o t).commitments sha256 msg = t.commitments sha256 (o.run sha256 msg) := by
  simp only [commitments, leaves, List.map_map]
  rfl

@[simp] theorem commitments_attestThen : (attestThen a siblings).commitments sha256 msg =
    ⟨a, msg⟩ :: siblings.commitments sha256 msg := rfl

@[simp] theorem commitments_applyThen : (applyThen o t siblings).commitments sha256 msg =
    t.commitments sha256 (o.run sha256 msg) ++ siblings.commitments sha256 msg := by
  simp only [commitments, leaves, List.map_append, List.map_map]
  rfl

end Timestamp

/-! ## Serializations -/

/-- At most `k` groups of seven bits, all but the last one marked. -/
def Groups : Nat → Bytes → Prop
  | _, [] => False
  | 0, _ :: _ => False
  | k + 1, b :: bs => if b.toNat < 128 then bs = [] else Groups k bs

/-- The number of the groups, the lowest first. -/
def groupsValue (bs : Bytes) : Nat := bs.foldr (fun b n => b.toNat % 128 + 128 * n) 0

def Attestation.tag : Attestation → Bytes
  | .pending _ => pendingAttestation
  | .bitcoin _ => bitcoinAttestation
  | .unknown tag _ => tag

/-- The bytes of a number, and what may follow in a payload. -/
structure Grammar where
  varuint : Nat → Bytes → Prop
  trailing : Bytes → Prop

namespace Grammar

/-- A varuint is a `u64`, and a payload is consumed whole. -/
def documented : Grammar where
  varuint n v := Groups 10 v ∧ groupsValue v = n ∧ n < 2 ^ 64
  trailing t := t = []

/-- A varuint loses what is beyond a `u64`, and a payload may go on. -/
def accepted : Grammar where
  varuint n v := Groups 10 v ∧ groupsValue v % 2 ^ 64 = n
  trailing _ := True

variable (g : Grammar)

def Varbytes (arg bs : Bytes) : Prop := ∃ v, g.varuint arg.length v ∧ bs = v ++ arg

/-- What an operation has behind its tag. -/
def Argument : Op → Bytes → Prop
  | .append arg, bs => g.Varbytes arg bs
  | .prepend arg, bs => g.Varbytes arg bs
  | .sha256, bs => bs = []
  | .reverse, bs => bs = []
  | .hexlify, bs => bs = []

def Operation (o : Op) (bs : Bytes) : Prop := ∃ v, g.Argument o v ∧ bs = o.tag :: v

def Payload : Attestation → Bytes → Prop
  | .pending uri, p => ∃ v t, g.Varbytes uri.toUTF8.data.toList v ∧ g.trailing t ∧ p = v ++ t
  | .bitcoin height, p => ∃ v t, g.varuint height v ∧ g.trailing t ∧ p = v ++ t
  | .unknown tag payload, p => tag.length = 8 ∧ tag ≠ pendingAttestation ∧
      tag ≠ bitcoinAttestation ∧ p = payload

def Attests (a : Attestation) (bs : Bytes) : Prop :=
  ∃ p v, g.Payload a p ∧ g.Varbytes p v ∧ bs = a.tag ++ v

inductive Serializes : Timestamp → Bytes → Prop where
  | attest {a : Attestation} {bs : Bytes} : g.Attests a bs →
      Serializes (.attest a) (attestationTag :: bs)
  | apply {o : Op} {t : Timestamp} {bs cs : Bytes} : g.Operation o bs → Serializes t cs →
      Serializes (.apply o t) (bs ++ cs)
  | attestThen {a : Attestation} {t : Timestamp} {bs cs : Bytes} : g.Attests a bs →
      Serializes t cs →
      Serializes (.attestThen a t) (continuationTag :: attestationTag :: (bs ++ cs))
  | applyThen {o : Op} {t t' : Timestamp} {bs cs ds : Bytes} : g.Operation o bs →
      Serializes t cs → Serializes t' ds →
      Serializes (.applyThen o t t') (continuationTag :: (bs ++ (cs ++ ds)))

end Grammar

/-! ## Varuints -/

/-- A group above the bits read so far, cut off at 64 bits. -/
theorem or_group {value shift c : Nat} (hvalue : value < 2 ^ shift) (hshift : shift ≤ 64) :
    value ||| ((c <<< shift) % 2 ^ 64) = value + 2 ^ shift * (c % 2 ^ (64 - shift)) := by
  have hpow : (2 : Nat) ^ 64 = 2 ^ shift * 2 ^ (64 - shift) := by
    rw [← Nat.pow_add]
    congr 1
    omega
  rw [Nat.shiftLeft_eq, Nat.mul_comm c, hpow, Nat.mul_mod_mul_left, Nat.or_comm,
    ← Nat.two_pow_add_eq_or_of_lt hvalue, Nat.add_comm]

/-- What one more group makes of the number. -/
theorem or_group_mod {value shift c : Nat} (hvalue : value < 2 ^ shift) (hshift : shift ≤ 64)
    (n : Nat) :
    ((value ||| ((c <<< shift) % 2 ^ 64)) + 2 ^ (shift + 7) * n) % 2 ^ 64 =
      (value + 2 ^ shift * (c + 128 * n)) % 2 ^ 64 := by
  have hcut : 2 ^ shift * (c % 2 ^ (64 - shift)) % 2 ^ 64 = 2 ^ shift * c % 2 ^ 64 := by
    have hpow : (2 : Nat) ^ 64 = 2 ^ shift * 2 ^ (64 - shift) := by
      rw [← Nat.pow_add]
      congr 1
      omega
    rw [hpow, Nat.mul_mod_mul_left, Nat.mul_mod_mul_left, Nat.mod_mod]
  have hnext : 2 ^ (shift + 7) * n = 2 ^ shift * (128 * n) := by
    rw [Nat.pow_add, Nat.mul_assoc]
  rw [or_group hvalue hshift, hnext, Nat.mul_add]
  omega

theorem or_group_lt {value shift c : Nat} (hvalue : value < 2 ^ shift) (hshift : shift ≤ 64)
    (hc : c < 128) : (value ||| ((c <<< shift) % 2 ^ 64)) < 2 ^ (shift + 7) ∧
      (value ||| ((c <<< shift) % 2 ^ 64)) < 2 ^ 64 := by
  have hpow : (2 : Nat) ^ shift ≤ 2 ^ 64 := Nat.pow_le_pow_right (by decide) hshift
  refine ⟨?_, Nat.or_lt_two_pow (by omega) (Nat.mod_lt _ (by decide))⟩
  have hcut := Nat.mod_le c (2 ^ (64 - shift))
  have hmul : 2 ^ shift * (c % 2 ^ (64 - shift) + 1) ≤ 2 ^ shift * 128 :=
    Nat.mul_le_mul_left _ (by omega)
  rw [Nat.mul_add] at hmul
  rw [or_group hvalue hshift, Nat.pow_add]
  omega

theorem varuint_groups {k n : Nat} (hk : k ≤ 10) {value : Nat} {bs rest : Bytes}
    (hvalue : value < 2 ^ (7 * (10 - k))) :
    OtsProof.varuint value (7 * (10 - k)) bs = .ok (n, rest) ↔
      ∃ v, Groups k v ∧ (value + 2 ^ (7 * (10 - k)) * groupsValue v) % 2 ^ 64 = n ∧
        bs = v ++ rest := by
  induction k generalizing value bs with
  | zero =>
    refine iff_of_false (fun h => ?_) ?_
    · cases bs <;> nomatch h
    · rintro ⟨v, hv, -, -⟩
      cases v <;> exact hv
  | succ k ih =>
    cases bs with
    | nil =>
      refine iff_of_false (fun h => nomatch h) ?_
      rintro ⟨v, hv, -, heq⟩
      obtain ⟨rfl, -⟩ := List.append_eq_nil_iff.mp heq.symm
      exact hv
    | cons b bs =>
      have hshift : 7 * (10 - (k + 1)) + 7 = 7 * (10 - k) := by omega
      obtain ⟨hnext, hfits⟩ := or_group_lt (c := b.toNat % 128) hvalue (by omega)
        (Nat.mod_lt _ (by decide))
      have hmod := or_group_mod (c := b.toNat % 128) hvalue (by omega)
      rw [hshift] at hnext hmod
      unfold OtsProof.varuint
      rw [if_neg (by omega)]
      dsimp only
      split
      · next hlast =>
        -- The last group.
        have hzero := hmod 0
        rw [Nat.mul_zero, Nat.add_zero, Nat.mod_eq_of_lt hfits] at hzero
        rw [hzero]
        constructor
        · intro h
          obtain ⟨rfl, rfl⟩ := Prod.mk.inj (Except.ok.inj h)
          exact ⟨[b], by simp [Groups, hlast], rfl, rfl⟩
        · rintro ⟨v, hv, rfl, heq⟩
          cases v with
          | nil => exact hv.elim
          | cons c v =>
            obtain ⟨rfl, rfl⟩ := List.cons.inj heq
            rw [Groups, if_pos hlast] at hv
            subst hv
            rfl
      · next hmore =>
        rw [show 7 * (10 - (k + 1)) + 7 = 7 * (10 - k) from hshift, ih (by omega) hnext]
        constructor
        · rintro ⟨v, hv, rfl, rfl⟩
          refine ⟨b :: v, by rwa [Groups, if_neg hmore], ?_, rfl⟩
          rw [hmod]
          rfl
        · rintro ⟨v, hv, rfl, heq⟩
          cases v with
          | nil => exact hv.elim
          | cons c v =>
            obtain ⟨rfl, rfl⟩ := List.cons.inj heq
            rw [Groups, if_neg hmore] at hv
            refine ⟨v, hv, ?_, rfl⟩
            rw [hmod]
            rfl

/-! ## What is read off a stream -/

open Grammar

/-- `a` was read, and `rest` is left. -/
def Took {α : Type} (x : Except OtsError (α × Reader)) (a : α) (rest : Bytes) : Prop :=
  ∃ pos, x = .ok (a, ⟨pos, rest⟩)

section
variable {r : Reader} {rest : Bytes}

theorem took_u8 {b : UInt8} : Took r.u8 b rest ↔ r.rest = b :: rest := by
  unfold Took Reader.u8
  cases r.rest with
  | nil => simp
  | cons c cs => simp

theorem took_take {n : Nat} {bs : Bytes} :
    Took (r.take n) bs rest ↔ bs.length = n ∧ r.rest = bs ++ rest := by
  unfold Took Reader.take
  split
  · next hshort =>
    refine iff_of_false (fun ⟨_, h⟩ => nomatch h) ?_
    rintro ⟨rfl, hrest⟩
    rw [hrest, List.length_append] at hshort
    omega
  · next hlong =>
    constructor
    · rintro ⟨pos, h⟩
      obtain ⟨rfl, hr⟩ := Prod.mk.inj (Except.ok.inj h)
      obtain ⟨-, rfl⟩ := Reader.mk.inj hr
      exact ⟨by rw [List.length_take]; omega, (List.take_append_drop n r.rest).symm⟩
    · rintro ⟨rfl, hrest⟩
      refine ⟨r.pos + bs.length, ?_⟩
      rw [hrest, List.take_left, List.drop_left]

theorem took_varuint {n : Nat} :
    Took r.varuint n rest ↔ ∃ v, accepted.varuint n v ∧ r.rest = v ++ rest := by
  have hgroups := @varuint_groups 10 n le_rfl 0 r.rest rest (by decide)
  have hplain : (∃ v, accepted.varuint n v ∧ r.rest = v ++ rest) ↔
      OtsProof.varuint 0 0 r.rest = .ok (n, rest) := by
    refine Iff.trans ?_ hgroups.symm
    simp only [accepted, Nat.sub_self, Nat.mul_zero, Nat.pow_zero, Nat.one_mul, Nat.zero_add,
      and_assoc]
  rw [hplain]
  unfold Took Reader.varuint
  split
  · next e he =>
    rw [he]
    exact iff_of_false (fun ⟨_, h⟩ => nomatch h) fun h => nomatch h
  · next m bs hm =>
    rw [hm]
    constructor
    · rintro ⟨pos, h⟩
      obtain ⟨rfl, hr⟩ := Prod.mk.inj (Except.ok.inj h)
      obtain ⟨-, rfl⟩ := Reader.mk.inj hr
      rfl
    · intro h
      obtain ⟨rfl, rfl⟩ := Prod.mk.inj (Except.ok.inj h)
      exact ⟨_, rfl⟩

theorem took_varbytes {arg : Bytes} :
    Took r.varbytes arg rest ↔ ∃ bs, accepted.Varbytes arg bs ∧ r.rest = bs ++ rest := by
  constructor
  · rintro ⟨pos, h⟩
    obtain ⟨⟨len, mid⟩, hlen, harg⟩ := bind_ok.mp h
    obtain ⟨v, hv, hrest⟩ := took_varuint.mp ⟨mid.pos, hlen⟩
    obtain ⟨rfl, hmid⟩ := took_take.mp ⟨pos, harg⟩
    exact ⟨v ++ arg, ⟨v, hv, rfl⟩, by rw [hrest, hmid, List.append_assoc]⟩
  · rintro ⟨bs, ⟨v, hv, rfl⟩, hrest⟩
    rw [List.append_assoc] at hrest
    obtain ⟨pos, hlen⟩ := took_varuint.mpr ⟨v, hv, hrest⟩
    have htake : Took (Reader.take arg.length ⟨pos, arg ++ rest⟩) arg rest :=
      took_take.mpr ⟨rfl, rfl⟩
    obtain ⟨pos', harg⟩ := htake
    exact ⟨pos', bind_ok.mpr ⟨_, hlen, harg⟩⟩

theorem took_argument {f : Bytes → Bytes} {m : Bytes} :
    Took (do
      let (arg, r) ← r.varbytes
      return (f arg, r)) m rest ↔
      ∃ arg bs, accepted.Varbytes arg bs ∧ r.rest = bs ++ rest ∧ m = f arg := by
  constructor
  · rintro ⟨pos, h⟩
    obtain ⟨⟨arg, mid⟩, harg, hpure⟩ := bind_ok.mp h
    obtain ⟨rfl, rfl⟩ := Prod.mk.inj (Except.ok.inj hpure)
    obtain ⟨bs, hbs, hrest⟩ := took_varbytes.mp ⟨pos, harg⟩
    exact ⟨arg, bs, hbs, hrest, rfl⟩
  · rintro ⟨arg, bs, hbs, hrest, rfl⟩
    obtain ⟨pos, harg⟩ := took_varbytes.mpr ⟨bs, hbs, hrest⟩
    exact ⟨pos, bind_ok.mpr ⟨_, harg, rfl⟩⟩

/-- Without an argument nothing more is read. -/
theorem took_bare {m m' : Bytes} :
    Took (.ok (m, r)) m' rest ↔ ∃ bs : Bytes, bs = [] ∧ r.rest = bs ++ rest ∧ m' = m := by
  obtain ⟨pos, left⟩ := r
  constructor
  · rintro ⟨pos', h⟩
    obtain ⟨rfl, hr⟩ := Prod.mk.inj (Except.ok.inj h)
    exact ⟨[], rfl, (Reader.mk.inj hr).2, rfl⟩
  · rintro ⟨bs, rfl, hrest, rfl⟩
    obtain rfl : left = rest := hrest
    exact ⟨pos, rfl⟩

/-- The operation of a tag, with its argument. -/
theorem took_apply {sha256 : Bytes → Hash} {tag : UInt8} {msg msg' : Bytes} :
    Took (apply sha256 r tag msg) msg' rest ↔ ∃ o bs, o.tag = tag ∧ accepted.Argument o bs ∧
      r.rest = bs ++ rest ∧ msg' = o.run sha256 msg := by
  constructor
  · intro h
    unfold apply at h
    split at h
    · next htag =>
      obtain ⟨arg, bs, hbs, hrest, rfl⟩ := (took_argument (f := fun arg => msg ++ arg)).mp h
      exact ⟨.append arg, bs, htag.symm, hbs, hrest, rfl⟩
    split at h
    · next htag =>
      obtain ⟨arg, bs, hbs, hrest, rfl⟩ := (took_argument (f := fun arg => arg ++ msg)).mp h
      exact ⟨.prepend arg, bs, htag.symm, hbs, hrest, rfl⟩
    split at h
    · next htag =>
      obtain ⟨bs, hbs, hrest, rfl⟩ := took_bare.mp h
      exact ⟨.sha256, bs, htag.symm, hbs, hrest, rfl⟩
    split at h
    · next htag =>
      obtain ⟨bs, hbs, hrest, rfl⟩ := took_bare.mp h
      exact ⟨.reverse, bs, htag.symm, hbs, hrest, rfl⟩
    split at h
    · next htag =>
      obtain ⟨bs, hbs, hrest, rfl⟩ := took_bare.mp h
      exact ⟨.hexlify, bs, htag.symm, hbs, hrest, rfl⟩
    · obtain ⟨_, h⟩ := h
      nomatch h
  · rintro ⟨o, bs, rfl, harg, hrest, rfl⟩
    unfold apply
    cases o with
    | append arg =>
      rw [Op.tag, if_pos rfl]
      exact (took_argument (f := fun arg => msg ++ arg)).mpr ⟨arg, bs, harg, hrest, rfl⟩
    | prepend arg =>
      rw [Op.tag, if_neg (by decide), if_pos rfl]
      exact (took_argument (f := fun arg => arg ++ msg)).mpr ⟨arg, bs, harg, hrest, rfl⟩
    | sha256 =>
      rw [Op.tag, if_neg (by decide), if_neg (by decide), if_pos rfl]
      exact took_bare.mpr ⟨bs, harg, hrest, rfl⟩
    | reverse =>
      rw [Op.tag, if_neg (by decide), if_neg (by decide), if_neg (by decide), if_pos rfl]
      exact took_bare.mpr ⟨bs, harg, hrest, rfl⟩
    | hexlify =>
      rw [Op.tag, if_neg (by decide), if_neg (by decide), if_neg (by decide), if_neg (by decide),
        if_pos rfl]
      exact took_bare.mpr ⟨bs, harg, hrest, rfl⟩

theorem fromUTF8_iff {bs : Bytes} {s : String} :
    String.fromUTF8? ⟨bs.toArray⟩ = some s ↔ s.toUTF8.data.toList = bs := by
  unfold String.fromUTF8?
  constructor
  · intro h
    split at h
    · obtain rfl := Option.some.inj h
      rfl
    · nomatch h
  · rintro rfl
    exact dif_pos s.isValidUTF8

theorem readPayload_iff {tag payload : Bytes} (hlen : tag.length = 8) {a : Attestation} :
    readPayload tag payload = .ok a ↔ a.tag = tag ∧ accepted.Payload a payload := by
  unfold readPayload
  split
  · next htag =>
    constructor
    · intro h
      obtain ⟨⟨uri, left⟩, huri, h⟩ := bind_ok.mp h
      dsimp only at h
      split at h
      · next s hs =>
        obtain rfl := Except.ok.inj h
        obtain ⟨v, hv, hrest⟩ := took_varbytes.mp ⟨left.pos, huri⟩
        rw [← fromUTF8_iff.mp hs] at hv
        exact ⟨htag.symm, v, left.rest, hv, trivial, hrest⟩
      · nomatch h
    · rintro ⟨ha, hpayload⟩
      cases a with
      | bitcoin height =>
        have hne : bitcoinAttestation ≠ pendingAttestation := by decide
        exact absurd (ha.trans htag) hne
      | unknown tag' payload' => exact absurd (ha.trans htag) hpayload.2.1
      | pending uri =>
        obtain ⟨v, t, hv, -, rfl⟩ := hpayload
        have hread : Took (Reader.varbytes (.new (v ++ t))) uri.toUTF8.data.toList t :=
          took_varbytes.mpr ⟨v, hv, rfl⟩
        obtain ⟨pos, huri⟩ := hread
        refine bind_ok.mpr ⟨_, huri, ?_⟩
        dsimp only
        rw [fromUTF8_iff.mpr rfl]
        rfl
  · next hpending =>
    split
    · next htag =>
      constructor
      · intro h
        obtain ⟨⟨height, left⟩, hheight, h⟩ := bind_ok.mp h
        obtain rfl := Except.ok.inj h
        obtain ⟨v, hv, hrest⟩ := took_varuint.mp ⟨left.pos, hheight⟩
        exact ⟨htag.symm, v, left.rest, hv, trivial, hrest⟩
      · rintro ⟨ha, hpayload⟩
        cases a with
        | pending uri => exact absurd ha.symm hpending
        | unknown tag' payload' => exact absurd (ha.trans htag) hpayload.2.2.1
        | bitcoin height =>
          obtain ⟨v, t, hv, -, rfl⟩ := hpayload
          have hread : Took (Reader.varuint (.new (v ++ t))) height t :=
            took_varuint.mpr ⟨v, hv, rfl⟩
          obtain ⟨pos, hheight⟩ := hread
          exact bind_ok.mpr ⟨_, hheight, rfl⟩
    · next hbitcoin =>
      constructor
      · intro h
        obtain rfl := Except.ok.inj h
        exact ⟨rfl, hlen, hpending, hbitcoin, rfl⟩
      · rintro ⟨ha, hpayload⟩
        cases a with
        | pending uri => exact absurd ha.symm hpending
        | bitcoin height => exact absurd ha.symm hbitcoin
        | unknown tag' payload' =>
          obtain rfl : tag' = tag := ha
          rw [hpayload.2.2.2]

theorem tag_length {a : Attestation} {p : Bytes} (h : accepted.Payload a p) : a.tag.length = 8 := by
  cases a with
  | pending uri => rfl
  | bitcoin height => rfl
  | unknown tag payload => exact h.1

theorem took_attestation {msg : Bytes} {c : Commitment} :
    Took (readAttestation r msg) c rest ↔
      ∃ a bs, accepted.Attests a bs ∧ r.rest = bs ++ rest ∧ c = ⟨a, msg⟩ := by
  constructor
  · rintro ⟨pos, h⟩
    obtain ⟨⟨tag, r₁⟩, htag, h⟩ := bind_ok.mp h
    obtain ⟨⟨payload, r₂⟩, hpayload, h⟩ := bind_ok.mp h
    obtain ⟨a, ha, h⟩ := bind_ok.mp h
    obtain ⟨rfl, rfl⟩ := Prod.mk.inj (Except.ok.inj h)
    obtain ⟨hlen, hrest⟩ := took_take.mp ⟨r₁.pos, htag⟩
    obtain ⟨v, hv, hrest'⟩ := took_varbytes.mp ⟨pos, hpayload⟩
    obtain ⟨rfl, hp⟩ := (readPayload_iff hlen).mp ha
    exact ⟨a, a.tag ++ v, ⟨payload, v, hp, hv, rfl⟩, by rw [hrest, hrest', List.append_assoc], rfl⟩
  · rintro ⟨a, bs, ⟨p, v, hp, hv, rfl⟩, hrest, rfl⟩
    rw [List.append_assoc] at hrest
    obtain ⟨pos, htag⟩ := took_take.mpr ⟨tag_length hp, hrest⟩
    have hread : Took (Reader.varbytes ⟨pos, v ++ rest⟩) p rest := took_varbytes.mpr ⟨v, hv, rfl⟩
    obtain ⟨pos', hpayload⟩ := hread
    refine ⟨pos', bind_ok.mpr ⟨_, htag, bind_ok.mpr ⟨_, hpayload, bind_ok.mpr ⟨a, ?_, rfl⟩⟩⟩⟩
    exact (readPayload_iff (tag_length hp)).mpr ⟨rfl, hp⟩

end

/-! ## The walk reads a tree -/

section
variable {sha256 : Bytes → Hash}

/-- What the walk has returned is the attestations of a tree it has read. -/
theorem walk_sound {fuel : Nat} {r r' : Reader} {msg : Bytes} {out out' : List Commitment}
    (h : walk sha256 fuel r msg out = some (.ok (r', out'))) :
    ∃ t bs, accepted.Serializes t bs ∧ r.rest = bs ++ r'.rest ∧
      out' = out ++ t.commitments sha256 msg := by
  induction fuel generalizing r msg out r' out' with
  | zero => nomatch h
  | succ fuel ih =>
    rw [walk] at h
    obtain ⟨⟨tag, r₁⟩, htag, h⟩ := lift_bind_ok.mp h
    have hrest := took_u8.mp ⟨r₁.pos, htag⟩
    dsimp only at h
    split at h
    · next hattest =>
      obtain ⟨⟨c, r₂⟩, hc, h⟩ := lift_bind_ok.mp h
      obtain ⟨rfl, rfl⟩ := Prod.mk.inj (Except.ok.inj (Option.some.inj h))
      obtain ⟨a, bs, ha, hrest', rfl⟩ := took_attestation.mp ⟨r₂.pos, hc⟩
      refine ⟨.attest a, attestationTag :: bs, .attest ha, ?_, rfl⟩
      rw [hrest, hattest, hrest']
      rfl
    · next hattest =>
      split at h
      · next hmore =>
        obtain ⟨⟨tag', r₂⟩, htag', h⟩ := lift_bind_ok.mp h
        have hrest' := took_u8.mp ⟨r₂.pos, htag'⟩
        dsimp only at h
        split at h
        · next hattest' =>
          obtain ⟨⟨c, r₃⟩, hc, h⟩ := lift_bind_ok.mp h
          obtain ⟨a, bs, ha, hrest'', rfl⟩ := took_attestation.mp ⟨r₃.pos, hc⟩
          obtain ⟨t, cs, ht, hcs, rfl⟩ := ih h
          refine ⟨.attestThen a t, _, .attestThen ha ht, ?_, by simp⟩
          rw [hrest, hmore, hrest', hattest', hrest'', hcs]
          simp
        · obtain ⟨⟨branch, r₃⟩, hbranch, h⟩ := lift_bind_ok.mp h
          obtain ⟨⟨r₄, out₄⟩, hwalk, h⟩ := run_bind_ok.mp h
          obtain ⟨o, bs, rfl, harg, hrest'', rfl⟩ := took_apply.mp ⟨r₃.pos, hbranch⟩
          obtain ⟨t, cs, ht, hcs, rfl⟩ := ih hwalk
          obtain ⟨t', ds, ht', hds, rfl⟩ := ih h
          refine ⟨.applyThen o t t', _, .applyThen ⟨bs, harg, rfl⟩ ht ht', ?_, by simp⟩
          rw [hrest, hmore, hrest', hrest'', hcs, hds]
          simp
      · obtain ⟨⟨msg', r₂⟩, happly, h⟩ := lift_bind_ok.mp h
        obtain ⟨o, bs, rfl, harg, hrest', rfl⟩ := took_apply.mp ⟨r₂.pos, happly⟩
        obtain ⟨t, cs, ht, hcs, rfl⟩ := ih h
        refine ⟨.apply o t, _, .apply ⟨bs, harg, rfl⟩ ht, ?_, by simp⟩
        rw [hrest, hrest', hcs]
        simp

theorem Op.tag_ne (o : Op) : o.tag ≠ attestationTag ∧ o.tag ≠ continuationTag := by
  cases o <;> simp only [Op.tag] <;> decide

/-- A serialized tree is walked to its end. -/
theorem walk_complete {t : Timestamp} {bs : Bytes} (h : accepted.Serializes t bs) {fuel : Nat}
    (hfuel : bs.length ≤ fuel) {r : Reader} {rest : Bytes} (hr : r.rest = bs ++ rest) (msg : Bytes)
    (out : List Commitment) : ∃ pos, walk sha256 fuel r msg out =
      some (.ok (⟨pos, rest⟩, out ++ t.commitments sha256 msg)) := by
  induction h generalizing fuel r rest msg out with
  | @attest a bs ha =>
    obtain ⟨fuel, rfl⟩ : ∃ n, fuel = n + 1 := ⟨fuel - 1, by rw [List.length_cons] at hfuel; omega⟩
    obtain ⟨pos, htag⟩ := took_u8.mpr hr
    have hread : Took (readAttestation ⟨pos, bs ++ rest⟩ msg) ⟨a, msg⟩ rest :=
      took_attestation.mpr ⟨a, bs, ha, rfl, rfl⟩
    obtain ⟨pos', hc⟩ := hread
    refine ⟨pos', ?_⟩
    rw [walk]
    refine lift_bind_ok.mpr ⟨_, htag, ?_⟩
    dsimp only
    rw [if_pos rfl]
    exact lift_bind_ok.mpr ⟨_, hc, rfl⟩
  | @apply o t bs cs ho ht ih =>
    obtain ⟨v, hv, rfl⟩ := ho
    rw [List.length_append, List.length_cons] at hfuel
    obtain ⟨fuel, rfl⟩ : ∃ n, fuel = n + 1 := ⟨fuel - 1, by omega⟩
    rw [List.append_assoc, List.cons_append] at hr
    obtain ⟨pos, htag⟩ := took_u8.mpr hr
    have hread : Took (Ots.apply sha256 ⟨pos, v ++ (cs ++ rest)⟩ o.tag msg) (o.run sha256 msg)
        (cs ++ rest) := took_apply.mpr ⟨o, v, rfl, hv, rfl, rfl⟩
    obtain ⟨pos', happly⟩ := hread
    obtain ⟨pos'', hwalk⟩ := ih (show cs.length ≤ fuel by omega)
      (r := ⟨pos', cs ++ rest⟩) rfl (o.run sha256 msg) out
    refine ⟨pos'', ?_⟩
    rw [walk]
    refine lift_bind_ok.mpr ⟨_, htag, ?_⟩
    dsimp only
    rw [if_neg o.tag_ne.1, if_neg o.tag_ne.2]
    refine lift_bind_ok.mpr ⟨_, happly, ?_⟩
    dsimp only
    rw [hwalk, Timestamp.commitments_apply]
  | @attestThen a t bs cs ha ht ih =>
    rw [List.length_cons, List.length_cons, List.length_append] at hfuel
    obtain ⟨fuel, rfl⟩ : ∃ n, fuel = n + 1 := ⟨fuel - 1, by omega⟩
    obtain ⟨pos, htag⟩ := took_u8.mpr hr
    have hnext : Took (Reader.u8 ⟨pos, attestationTag :: (bs ++ cs) ++ rest⟩) attestationTag
        (bs ++ (cs ++ rest)) := took_u8.mpr (by simp)
    obtain ⟨pos', htag'⟩ := hnext
    have hread : Took (readAttestation ⟨pos', bs ++ (cs ++ rest)⟩ msg) ⟨a, msg⟩ (cs ++ rest) :=
      took_attestation.mpr ⟨a, bs, ha, rfl, rfl⟩
    obtain ⟨pos'', hc⟩ := hread
    obtain ⟨end_, hwalk⟩ := ih (show cs.length ≤ fuel by omega)
      (r := ⟨pos'', cs ++ rest⟩) rfl msg (out ++ [⟨a, msg⟩])
    refine ⟨end_, ?_⟩
    rw [walk]
    refine lift_bind_ok.mpr ⟨_, htag, ?_⟩
    dsimp only
    rw [if_neg (by decide), if_pos rfl]
    refine lift_bind_ok.mpr ⟨_, htag', ?_⟩
    dsimp only
    rw [if_pos rfl]
    refine lift_bind_ok.mpr ⟨_, hc, ?_⟩
    dsimp only
    rw [hwalk, Timestamp.commitments_attestThen, List.append_assoc, List.singleton_append]
  | @applyThen o t t' bs cs ds ho ht ht' ih ih' =>
    obtain ⟨v, hv, rfl⟩ := ho
    rw [List.length_cons, List.length_append, List.length_cons, List.length_append] at hfuel
    obtain ⟨fuel, rfl⟩ : ∃ n, fuel = n + 1 := ⟨fuel - 1, by omega⟩
    obtain ⟨pos, htag⟩ := took_u8.mpr hr
    have hnext : Took (Reader.u8 ⟨pos, o.tag :: v ++ (cs ++ ds) ++ rest⟩) o.tag
        (v ++ (cs ++ (ds ++ rest))) := took_u8.mpr (by simp)
    obtain ⟨pos', htag'⟩ := hnext
    have hread : Took (Ots.apply sha256 ⟨pos', v ++ (cs ++ (ds ++ rest))⟩ o.tag msg)
        (o.run sha256 msg) (cs ++ (ds ++ rest)) := took_apply.mpr ⟨o, v, rfl, hv, rfl, rfl⟩
    obtain ⟨pos'', happly⟩ := hread
    obtain ⟨mid, hwalk⟩ := ih (show cs.length ≤ fuel by omega)
      (r := ⟨pos'', cs ++ (ds ++ rest)⟩) rfl (o.run sha256 msg) out
    obtain ⟨end_, hwalk'⟩ := ih' (show ds.length ≤ fuel by omega) (r := ⟨mid, ds ++ rest⟩) rfl msg
      (out ++ t.commitments sha256 (o.run sha256 msg))
    refine ⟨end_, ?_⟩
    rw [walk]
    refine lift_bind_ok.mpr ⟨_, htag, ?_⟩
    dsimp only
    rw [if_neg (by decide), if_pos rfl]
    refine lift_bind_ok.mpr ⟨_, htag', ?_⟩
    dsimp only
    rw [if_neg o.tag_ne.1]
    refine lift_bind_ok.mpr ⟨_, happly, ?_⟩
    dsimp only
    refine run_bind_ok.mpr ⟨_, hwalk, ?_⟩
    dsimp only
    rw [hwalk', Timestamp.commitments_applyThen, List.append_assoc]

/-- What follows a step that ended has to end. -/
theorem run_bind_ends {α β : Type} {x : ExceptT OtsError Option α}
    {f : α → ExceptT OtsError Option β} (hx : x ≠ none) (h : ∀ a, x = some (.ok a) → f a ≠ none) :
    (x >>= f) ≠ none := by
  cases x with
  | none => exact absurd rfl hx
  | some result =>
    cases result with
    | error e => exact fun hnone => nomatch hnone
    | ok a => exact h a rfl

theorem ends_bind {α β : Type} {x : Except OtsError α} {f : α → ExceptT OtsError Option β}
    (h : ∀ a, x = .ok a → f a ≠ none) : (liftM x >>= f) ≠ none := by
  refine run_bind_ends (fun hnone => nomatch hnone) fun a ha => h a ?_
  exact liftExcept_ok.mp ha

/-- Every round takes a byte, so the walk ends. -/
theorem walk_ends {fuel : Nat} {r : Reader} (hfuel : r.rest.length < fuel) (msg : Bytes)
    (out : List Commitment) : walk sha256 fuel r msg out ≠ none := by
  induction fuel generalizing r msg out with
  | zero => omega
  | succ fuel ih =>
    rw [walk]
    refine ends_bind fun ⟨tag, r₁⟩ htag => ?_
    have hrest := took_u8.mp ⟨r₁.pos, htag⟩
    rw [hrest, List.length_cons] at hfuel
    dsimp only
    split
    · exact ends_bind fun _ _ h => nomatch h
    split
    · refine ends_bind fun ⟨tag', r₂⟩ htag' => ?_
      have hrest' := took_u8.mp ⟨r₂.pos, htag'⟩
      rw [hrest', List.length_cons] at hfuel
      dsimp only
      split
      · refine ends_bind fun ⟨c, r₃⟩ hc => ?_
        obtain ⟨a, bs, -, hbs, -⟩ := took_attestation.mp ⟨r₃.pos, hc⟩
        rw [hbs, List.length_append] at hfuel
        exact ih (r := r₃) (by omega) _ _
      · refine ends_bind fun ⟨branch, r₃⟩ hbranch => ?_
        obtain ⟨o, bs, -, -, hbs, -⟩ := took_apply.mp ⟨r₃.pos, hbranch⟩
        rw [hbs, List.length_append] at hfuel
        refine run_bind_ends (ih (r := r₃) (by omega) _ _) fun ⟨r₄, out₄⟩ hwalk => ?_
        obtain ⟨t, cs, -, hcs, -⟩ := walk_sound hwalk
        rw [hcs, List.length_append] at hfuel
        exact ih (r := r₄) (by omega) _ _
    · refine ends_bind fun ⟨msg', r₂⟩ happly => ?_
      obtain ⟨o, bs, -, -, hbs, -⟩ := took_apply.mp ⟨r₂.pos, happly⟩
      rw [hbs, List.length_append] at hfuel
      exact ih (r := r₂) (by omega) _ _

theorem attestationsIn_ok {timestamp msg : Bytes} {list : List Commitment} :
    attestationsIn sha256 timestamp msg = some (.ok list) ↔
      ∃ t, accepted.Serializes t timestamp ∧ list = t.commitments sha256 msg := by
  constructor
  · intro h
    obtain ⟨⟨r, out⟩, hwalk, h⟩ := run_bind_ok.mp h
    obtain ⟨hdone, h⟩ := run_unless_ok.mp h
    obtain rfl := Except.ok.inj (Option.some.inj h)
    obtain ⟨t, bs, ht, hbs, rfl⟩ := walk_sound hwalk
    have hrest : r.rest = [] := by simpa [Reader.done] using hdone
    rw [hrest, List.append_nil] at hbs
    obtain rfl : timestamp = bs := hbs
    exact ⟨t, ht, rfl⟩
  · rintro ⟨t, ht, rfl⟩
    have hrun : ∃ pos, walk sha256 (timestamp.length + 1) (.new timestamp) msg [] =
        some (.ok (⟨pos, []⟩, [] ++ t.commitments sha256 msg)) :=
      walk_complete ht (Nat.le_succ _) (List.append_nil timestamp).symm msg []
    obtain ⟨pos, hwalk⟩ := hrun
    refine run_bind_ok.mpr ⟨_, hwalk, run_unless_ok.mpr ⟨?_, rfl⟩⟩
    simp [Reader.done]

theorem attestationsIn_ends (timestamp msg : Bytes) :
    attestationsIn sha256 timestamp msg ≠ none := by
  unfold attestationsIn
  refine run_bind_ends (walk_ends (Nat.lt_succ_self _) _ _) fun ⟨r, out⟩ _ => ?_
  dsimp only
  split
  · exact fun h => nomatch h
  · exact fun h => nomatch h

end

/-! ## One tree for the bytes -/

theorem groups_unique {k k' : Nat} {v v' r r' : Bytes} (h : Groups k v) (h' : Groups k' v')
    (heq : v ++ r = v' ++ r') : v = v' := by
  induction v generalizing k k' v' with
  | nil => cases k <;> exact h.elim
  | cons b v ih =>
    cases v' with
    | nil => cases k' <;> exact h'.elim
    | cons b' v' =>
      obtain ⟨rfl, htail⟩ := List.cons.inj heq
      cases k with
      | zero => exact h.elim
      | succ k =>
        cases k' with
        | zero => exact h'.elim
        | succ k' =>
          rw [Groups] at h h'
          split at h
          · next hlast =>
            rw [if_pos hlast] at h'
            rw [h, h']
          · next hmore =>
            rw [if_neg hmore] at h'
            rw [ih h h' htail]

theorem varuint_unique {n n' : Nat} {v v' r r' : Bytes} (h : accepted.varuint n v)
    (h' : accepted.varuint n' v') (heq : v ++ r = v' ++ r') : n = n' ∧ v = v' := by
  obtain ⟨hv, rfl⟩ := h
  obtain ⟨hv', rfl⟩ := h'
  obtain rfl := groups_unique hv hv' heq
  exact ⟨rfl, rfl⟩

theorem varbytes_unique {arg arg' bs bs' r r' : Bytes} (h : accepted.Varbytes arg bs)
    (h' : accepted.Varbytes arg' bs') (heq : bs ++ r = bs' ++ r') : arg = arg' ∧ bs = bs' := by
  obtain ⟨v, hv, rfl⟩ := h
  obtain ⟨v', hv', rfl⟩ := h'
  rw [List.append_assoc, List.append_assoc] at heq
  obtain ⟨hlen, rfl⟩ := varuint_unique hv hv' heq
  obtain ⟨rfl, -⟩ := List.append_inj (List.append_cancel_left heq) hlen
  exact ⟨rfl, rfl⟩

theorem operation_unique {o o' : Op} {bs bs' r r' : Bytes} (h : accepted.Operation o bs)
    (h' : accepted.Operation o' bs') (heq : bs ++ r = bs' ++ r') : o = o' ∧ bs = bs' := by
  obtain ⟨v, hv, rfl⟩ := h
  obtain ⟨v', hv', rfl⟩ := h'
  obtain ⟨htag, htail⟩ := List.cons.inj heq
  cases o <;> cases o' <;> first
    | exact absurd htag (by simp only [Op.tag]; decide)
    | (obtain ⟨rfl, rfl⟩ := varbytes_unique hv hv' htail
       exact ⟨rfl, rfl⟩)
    | (obtain rfl : v = [] := hv
       obtain rfl : v' = [] := hv'
       exact ⟨rfl, rfl⟩)

theorem attests_unique {a a' : Attestation} {bs bs' r r' : Bytes} (h : accepted.Attests a bs)
    (h' : accepted.Attests a' bs') (heq : bs ++ r = bs' ++ r') : a = a' ∧ bs = bs' := by
  obtain ⟨p, v, hp, hv, rfl⟩ := h
  obtain ⟨p', v', hp', hv', rfl⟩ := h'
  rw [List.append_assoc, List.append_assoc] at heq
  obtain ⟨htag, heq⟩ := List.append_inj heq ((tag_length hp).trans (tag_length hp').symm)
  obtain ⟨rfl, rfl⟩ := varbytes_unique hv hv' heq
  -- The reader of payloads tells which attestation it is.
  have hread := (readPayload_iff (tag_length hp)).mpr ⟨rfl, hp⟩
  have hread' := (readPayload_iff (tag_length hp)).mpr ⟨htag.symm, hp'⟩
  rw [hread] at hread'
  obtain rfl := Except.ok.inj hread'
  exact ⟨rfl, rfl⟩

theorem serializes_unique {t t' : Timestamp} {bs bs' r r' : Bytes}
    (h : accepted.Serializes t bs) (h' : accepted.Serializes t' bs')
    (heq : bs ++ r = bs' ++ r') : t = t' ∧ bs = bs' := by
  induction h generalizing t' bs' r r' with
  | @attest a bs ha =>
    cases h' with
    | @attest a' bs' ha' =>
      obtain ⟨rfl, rfl⟩ := attests_unique ha ha' (List.cons.inj heq).2
      exact ⟨rfl, rfl⟩
    | @apply o' _ _ _ ho' _ =>
      obtain ⟨v', -, rfl⟩ := ho'
      exact absurd (List.cons.inj heq).1.symm o'.tag_ne.1
    | attestThen => exact absurd (List.cons.inj heq).1 (by decide)
    | applyThen => exact absurd (List.cons.inj heq).1 (by decide)
  | @apply o t bs cs ho ht ih =>
    cases h' with
    | @apply o' t' bs' cs' ho' ht' =>
      rw [List.append_assoc, List.append_assoc] at heq
      obtain ⟨rfl, rfl⟩ := operation_unique ho ho' heq
      obtain ⟨rfl, rfl⟩ := ih ht' (List.append_cancel_left heq)
      exact ⟨rfl, rfl⟩
    | attest =>
      obtain ⟨v, -, rfl⟩ := ho
      exact absurd (List.cons.inj heq).1 o.tag_ne.1
    | attestThen =>
      obtain ⟨v, -, rfl⟩ := ho
      exact absurd (List.cons.inj heq).1 o.tag_ne.2
    | applyThen =>
      obtain ⟨v, -, rfl⟩ := ho
      exact absurd (List.cons.inj heq).1 o.tag_ne.2
  | @attestThen a t bs cs ha ht ih =>
    cases h' with
    | @attestThen a' t' bs' cs' ha' ht' =>
      have htail : bs ++ cs ++ r = bs' ++ cs' ++ r' := (List.cons.inj (List.cons.inj heq).2).2
      rw [List.append_assoc, List.append_assoc] at htail
      obtain ⟨rfl, rfl⟩ := attests_unique ha ha' htail
      obtain ⟨rfl, rfl⟩ := ih ht' (List.append_cancel_left htail)
      exact ⟨rfl, rfl⟩
    | attest => exact absurd (List.cons.inj heq).1 (by decide)
    | @apply o' _ _ _ ho' _ =>
      obtain ⟨v', -, rfl⟩ := ho'
      exact absurd (List.cons.inj heq).1.symm o'.tag_ne.2
    | @applyThen o' _ _ _ _ _ ho' _ _ =>
      obtain ⟨v', -, rfl⟩ := ho'
      exact absurd (List.cons.inj (List.cons.inj heq).2).1.symm o'.tag_ne.1
  | @applyThen o t u bs cs ds ho ht hu ih ih' =>
    cases h' with
    | @applyThen o' t' u' bs' cs' ds' ho' ht' hu' =>
      have htail : bs ++ (cs ++ ds) ++ r = bs' ++ (cs' ++ ds') ++ r' := (List.cons.inj heq).2
      simp only [List.append_assoc] at htail
      obtain ⟨rfl, rfl⟩ := operation_unique ho ho' htail
      have htrees := List.append_cancel_left htail
      obtain ⟨rfl, rfl⟩ := ih ht' htrees
      obtain ⟨rfl, rfl⟩ := ih' hu' (List.append_cancel_left htrees)
      exact ⟨rfl, rfl⟩
    | attest => exact absurd (List.cons.inj heq).1 (by decide)
    | @apply o' _ _ _ ho' _ =>
      obtain ⟨v', -, rfl⟩ := ho'
      exact absurd (List.cons.inj heq).1.symm o'.tag_ne.2
    | attestThen =>
      obtain ⟨v, -, rfl⟩ := ho
      exact absurd (List.cons.inj (List.cons.inj heq).2).1 o.tag_ne.1

/-! ## The documented grammar -/

theorem varuint_accepted {n : Nat} {v : Bytes} (h : documented.varuint n v) :
    accepted.varuint n v := by
  obtain ⟨hgroups, rfl, hlt⟩ := h
  exact ⟨hgroups, Nat.mod_eq_of_lt hlt⟩

theorem varbytes_accepted {arg bs : Bytes} (h : documented.Varbytes arg bs) :
    accepted.Varbytes arg bs := by
  obtain ⟨v, hv, rfl⟩ := h
  exact ⟨v, varuint_accepted hv, rfl⟩

theorem operation_accepted {o : Op} {bs : Bytes} (h : documented.Operation o bs) :
    accepted.Operation o bs := by
  obtain ⟨v, hv, rfl⟩ := h
  refine ⟨v, ?_, rfl⟩
  cases o with
  | append arg => exact varbytes_accepted hv
  | prepend arg => exact varbytes_accepted hv
  | _ => exact hv

theorem attests_accepted {a : Attestation} {bs : Bytes} (h : documented.Attests a bs) :
    accepted.Attests a bs := by
  obtain ⟨p, v, hp, hv, rfl⟩ := h
  refine ⟨p, v, ?_, varbytes_accepted hv, rfl⟩
  cases a with
  | pending uri =>
    obtain ⟨u, t, hu, -, rfl⟩ := hp
    exact ⟨u, t, varbytes_accepted hu, trivial, rfl⟩
  | bitcoin height =>
    obtain ⟨u, t, hu, -, rfl⟩ := hp
    exact ⟨u, t, varuint_accepted hu, trivial, rfl⟩
  | unknown tag payload => exact hp

theorem serializes_accepted {t : Timestamp} {bs : Bytes} (h : documented.Serializes t bs) :
    accepted.Serializes t bs := by
  induction h with
  | attest ha => exact .attest (attests_accepted ha)
  | apply ho _ ih => exact .apply (operation_accepted ho) ih
  | attestThen ha _ ih => exact .attestThen (attests_accepted ha) ih
  | applyThen ho _ _ ih ih' => exact .applyThen (operation_accepted ho) ih ih'

/-- A payload goes on behind what is read of it, or a varuint overflows. -/
def Slack (timestamp : Bytes) : Prop :=
  ∃ t, accepted.Serializes t timestamp ∧ ¬ documented.Serializes t timestamp

/-- The walk ends, accepts what serializes a tree and returns the attestations of the tree. The
trees are those of the documented grammar exactly when the bytes have no slack. -/
theorem walk_exact_iff (sha256 : Bytes → Hash) (timestamp : Bytes) :
    (∀ msg, ∃ result, attestationsIn sha256 timestamp msg = some result) ∧
    (∀ msg list, attestationsIn sha256 timestamp msg = some (.ok list) ↔
      ∃ t, accepted.Serializes t timestamp ∧ list = t.commitments sha256 msg) ∧
    ((∀ msg list, attestationsIn sha256 timestamp msg = some (.ok list) ↔
      ∃ t, documented.Serializes t timestamp ∧ list = t.commitments sha256 msg) ↔
        ¬ Slack timestamp) := by
  refine ⟨fun msg => Option.ne_none_iff_exists'.mp (attestationsIn_ends timestamp msg),
    fun msg list => attestationsIn_ok, fun h => ?_, fun h msg list => ?_⟩
  · rintro ⟨t, ht, hslack⟩
    obtain ⟨t', ht', -⟩ := (h [] _).mp (attestationsIn_ok.mpr ⟨t, ht, rfl⟩)
    have hsame : timestamp ++ [] = timestamp ++ [] := rfl
    obtain ⟨rfl, -⟩ := serializes_unique ht (serializes_accepted ht') hsame
    exact hslack ht'
  · rw [attestationsIn_ok]
    constructor
    · rintro ⟨t, ht, hlist⟩
      exact ⟨t, by_contra fun hslack => h ⟨t, ht, hslack⟩, hlist⟩
    · rintro ⟨t, ht, hlist⟩
      exact ⟨t, serializes_accepted ht, hlist⟩

namespace Sample

/-- A Bitcoin attestation of height 42 with one more byte in its payload. -/
def goesOn : Bytes := attestationTag :: (bitcoinAttestation ++ [2, 42, 255])

theorem goesOn_accepted : accepted.Serializes (.attest (.bitcoin 42)) goesOn := by
  have hheight : accepted.varuint 42 [42] := ⟨rfl, rfl⟩
  have hlen : accepted.varuint 2 [2] := ⟨rfl, rfl⟩
  exact .attest ⟨[42, 255], [2, 42, 255], ⟨[42], [255], hheight, trivial, rfl⟩,
    ⟨[2], hlen, rfl⟩, rfl⟩

/-- It is accepted, and serializes no tree of the documented grammar. -/
theorem payload_goes_on :
    attestationsIn sha256 goesOn [] = some (.ok [⟨.bitcoin 42, []⟩]) ∧
    ¬ ∃ t, documented.Serializes t goesOn := by
  refine ⟨attestationsIn_ok.mpr ⟨_, goesOn_accepted, rfl⟩, ?_⟩
  rintro ⟨t, ht⟩
  have hsame : goesOn ++ [] = goesOn ++ [] := rfl
  obtain ⟨rfl, -⟩ := serializes_unique goesOn_accepted (serializes_accepted ht) hsame
  cases ht with
  | attest ha =>
    obtain ⟨p, v, ⟨u, w, ⟨hu, -⟩, hw, rfl⟩, hv, heq⟩ := ha
    obtain rfl : w = [] := hw
    obtain rfl : [2, 42, 255] = v := List.append_cancel_left heq
    have hknown : accepted.Varbytes [42, 255] [2, 42, 255] := ⟨[2], ⟨rfl, rfl⟩, rfl⟩
    have hsame' : ([2, 42, 255] : Bytes) ++ [] = [2, 42, 255] ++ [] := rfl
    obtain ⟨hp, -⟩ := varbytes_unique (varbytes_accepted hv) hknown hsame'
    rw [List.append_nil] at hp
    subst hp
    simp [Groups] at hu

end Sample

end Clockchain.Anchor.Ots
