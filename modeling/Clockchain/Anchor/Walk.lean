import Clockchain.Anchor.Stamp

/-!
# The operation stream

`walk` of `cc-anchor/src/ots.rs`, which executes a serialized timestamp and collects its
attestations, and the two readers that start it: `attestations_in` on a bare stream, and
`commitments` on an `.ots` file, whose header it skips by a constant length.
-/

namespace Clockchain.Anchor.Ots
open Codec Programs V0
open V1 (Hash)
set_option autoImplicit false

def opAppend : UInt8 := 0xf0
def opPrepend : UInt8 := 0xf1
def opReverse : UInt8 := 0xf2
def opHexlify : UInt8 := 0xf3
def attestationTag : UInt8 := 0x00
def continuationTag : UInt8 := 0xff

def pendingAttestation : Bytes := [0x83, 0xdf, 0xe3, 0x0d, 0x2e, 0xf9, 0x0c, 0x8e]
def bitcoinAttestation : Bytes := [0x05, 0x88, 0x96, 0x0d, 0x73, 0xd7, 0x19, 0x01]

inductive Attestation where
  | pending (uri : String)
  | bitcoin (height : Nat)
  | unknown (tag payload : Bytes)
  deriving Repr, DecidableEq

structure Commitment where
  attestation : Attestation
  message : Bytes
  deriving Repr, DecidableEq

/-! ## The reader -/

/-- A position, and what lies behind it. -/
structure Reader where
  pos : Nat
  rest : Bytes
  deriving Repr, DecidableEq

namespace Reader

def new (b : Bytes) : Reader := ⟨0, b⟩

/-- No slice is as long as the overflow of `pos + n`. -/
def take (n : Nat) (r : Reader) : Except OtsError (Bytes × Reader) :=
  if r.rest.length < n then
    .error (.malformed (if 2 ^ 64 ≤ r.pos + n then "length overflow" else "truncated"))
  else .ok (r.rest.take n, ⟨r.pos + n, r.rest.drop n⟩)

def u8 (r : Reader) : Except OtsError (UInt8 × Reader) :=
  match r.rest with
  | [] => .error (.malformed "truncated")
  | b :: rest => .ok (b, ⟨r.pos + 1, rest⟩)

def varuint (r : Reader) : Except OtsError (Nat × Reader) :=
  match OtsProof.varuint 0 0 r.rest with
  | .error e => .error e
  | .ok (n, rest) => .ok (n, ⟨r.pos + (r.rest.length - rest.length), rest⟩)

def varbytes (r : Reader) : Except OtsError (Bytes × Reader) := do
  let (len, r) ← r.varuint
  r.take len

def done (r : Reader) : Bool := r.rest.isEmpty

end Reader

/-! ## The walk -/

/-- `hex::encode(msg).into_bytes()`. -/
def hexlify (msg : Bytes) : Bytes :=
  let digit (n : Nat) : UInt8 := UInt8.ofNat (if n < 10 then 48 + n else 87 + n)
  msg.flatMap fun b => [digit (b.toNat / 16), digit (b.toNat % 16)]

section
variable (sha256 : Bytes → Hash)

def apply (r : Reader) (tag : UInt8) (msg : Bytes) : Except OtsError (Bytes × Reader) :=
  if tag = opAppend then do
    let (arg, r) ← r.varbytes
    return (msg ++ arg, r)
  else if tag = opPrepend then do
    let (arg, r) ← r.varbytes
    return (arg ++ msg, r)
  else if tag = OtsProof.opSha256 then .ok (asBytes (sha256 msg), r)
  else if tag = opReverse then .ok (msg.reverse, r)
  else if tag = opHexlify then .ok (hexlify msg, r)
  else .error (.unsupportedOp tag)

/-- The payload of an attestation under its tag. -/
def readPayload (tag payload : Bytes) : Except OtsError Attestation :=
  if tag = pendingAttestation then do
    let (uri, _) ← (Reader.new payload).varbytes
    match String.fromUTF8? ⟨uri.toArray⟩ with
    | some uri => return .pending uri
    | none => throw (.malformed "calendar URI is not UTF-8")
  else if tag = bitcoinAttestation then do
    let (height, _) ← (Reader.new payload).varuint
    return .bitcoin height
  else .ok (.unknown tag payload)

def readAttestation (r : Reader) (msg : Bytes) : Except OtsError (Commitment × Reader) := do
  let (tag, r) ← r.take 8
  let (payload, r) ← r.varbytes
  let attestation ← readPayload tag payload
  return (⟨attestation, msg⟩, r)

/-- `none` is a walk that has not ended after `fuel` rounds. -/
def walk : Nat → Reader → Bytes → List Commitment →
    ExceptT OtsError Option (Reader × List Commitment)
  | 0, _, _, _ => liftM (none : Option _)
  | fuel + 1, r, msg, out => do
    let (tag, r) ← r.u8
    if tag = attestationTag then
      let (c, r) ← readAttestation r msg
      return (r, out ++ [c])
    else if tag = continuationTag then
      let (tag, r) ← r.u8
      if tag = attestationTag then
        let (c, r) ← readAttestation r msg
        walk fuel r msg (out ++ [c])
      else
        let (branch, r) ← apply sha256 r tag msg
        let (r, out) ← walk fuel r branch out
        walk fuel r msg out
    else
      let (msg, r) ← apply sha256 r tag msg
      walk fuel r msg out

/-- The walk over all of `timestamp`. -/
def attestationsIn (timestamp fromMessage : Bytes) : ExceptT OtsError Option (List Commitment) := do
  let (r, out) ← walk sha256 (timestamp.length + 1) (.new timestamp) fromMessage []
  if !r.done then throw (.malformed "trailing bytes after the timestamp")
  return out

end

/-! ## The file -/

/-- A `u64` has at most ten groups of seven bits. -/
def writeVaruint (n : Nat) : Bytes := go 10 n
where
  go : Nat → Nat → Bytes
    | 0, _ => []
    | fuel + 1, n =>
      if n / 128 = 0 then [UInt8.ofNat (n % 128)]
      else UInt8.ofNat (n % 128 + 128) :: go fuel (n / 128)

def varuintLen (n : Nat) : Nat := (writeVaruint n).length

/-- The length of the header by `commitments`. -/
def header : Nat := OtsProof.headerMagic.length + varuintLen OtsProof.majorVersion + 1 + 32

def commitments (sha256 : Bytes → Hash) (proof : Bytes) :
    ExceptT OtsError Option (List Commitment) := do
  let digest ← OtsProof.digest proof
  let timestamp := proof.drop header
  let (r, out) ← walk sha256 (timestamp.length + 1) (.new timestamp) (asBytes digest) []
  if !r.done then throw (.malformed "trailing bytes after the timestamp")
  return out

/-! ## Where the timestamp starts -/

/-- `digest`, with what it leaves of the file. -/
def readDigest (proof : Bytes) : Except OtsError (Hash × Bytes) := do
  let (magic, rest) ← OtsProof.take OtsProof.headerMagic.length proof
  if magic ≠ OtsProof.headerMagic then throw (.malformed "not an OpenTimestamps file")
  let (version, rest) ← OtsProof.varuint 0 0 rest
  if version ≠ OtsProof.majorVersion then throw (.malformed "unsupported .ots major version")
  let (op, rest) ← OtsProof.take 1 rest
  if op ≠ [OtsProof.opSha256] then throw (.malformed "file digest is not SHA-256")
  let (digest, rest) ← OtsProof.take 32 rest
  return (BitVec.ofNat 256 (beNat digest), rest)

theorem digest_eq (proof : Bytes) : OtsProof.digest proof = (readDigest proof).map Prod.fst := by
  unfold OtsProof.digest readDigest
  simp only [bind, Except.bind]
  split
  · rfl
  · next magic _ =>
    by_cases hmagic : magic.1 ≠ OtsProof.headerMagic
    · simp only [if_pos hmagic]
      rfl
    simp only [if_neg hmagic]
    split
    · rfl
    · next version _ =>
      by_cases hmajor : version.1 ≠ OtsProof.majorVersion
      · simp only [if_pos hmajor]
        rfl
      simp only [if_neg hmajor]
      split
      · rfl
      · next op _ =>
        by_cases hop : op.1 ≠ [OtsProof.opSha256]
        · simp only [if_pos hop]
          rfl
        simp only [if_neg hop]
        split <;> rfl

theorem varuint_shorter {value shift n : Nat} {bs rest : Bytes}
    (h : OtsProof.varuint value shift bs = .ok (n, rest)) : rest.length < bs.length := by
  induction bs generalizing value shift with
  | nil => nomatch h
  | cons b bs ih =>
    unfold OtsProof.varuint at h
    split at h
    · nomatch h
    dsimp only at h
    split at h
    · obtain ⟨-, rfl⟩ := Prod.mk.inj (Except.ok.inj h)
      exact Nat.lt_succ_self _
    · exact (ih h).trans (Nat.lt_succ_self _)

theorem proof_take_ok {n : Nat} {bs front rest : Bytes}
    (h : OtsProof.take n bs = .ok (front, rest)) :
    front = bs.take n ∧ rest = bs.drop n ∧ n ≤ bs.length := by
  unfold OtsProof.take at h
  split at h
  · nomatch h
  · obtain ⟨rfl, rfl⟩ := Prod.mk.inj (Except.ok.inj h)
    exact ⟨rfl, rfl, by omega⟩

/-- The version comes behind the magic, and the timestamp 33 bytes behind the version. -/
theorem readDigest_ok {proof rest : Bytes} {d : Hash} (h : readDigest proof = .ok (d, rest)) :
    ∃ behind, OtsProof.varuint 0 0 (proof.drop 31) = .ok (OtsProof.majorVersion, behind) ∧
      33 ≤ behind.length ∧ rest = behind.drop 33 := by
  obtain ⟨⟨magic, r₁⟩, h₁, h⟩ := bind_ok.mp h
  obtain ⟨-, h⟩ := unless_ok.mp h
  obtain ⟨⟨version, r₂⟩, h₂, h⟩ := bind_ok.mp h
  obtain ⟨hversion, h⟩ := unless_ok.mp h
  obtain ⟨⟨op, r₃⟩, h₃, h⟩ := bind_ok.mp h
  obtain ⟨-, h⟩ := unless_ok.mp h
  obtain ⟨⟨digest, r₄⟩, h₄, h⟩ := bind_ok.mp h
  obtain ⟨-, rfl⟩ := Prod.mk.inj (Except.ok.inj h)
  have hmagic : OtsProof.headerMagic.length = 31 := by decide
  obtain ⟨-, rfl, -⟩ := proof_take_ok h₁
  obtain ⟨-, rfl, hlen₃⟩ := proof_take_ok h₃
  obtain ⟨-, rfl, hlen₄⟩ := proof_take_ok h₄
  dsimp only at *
  rw [not_not] at hversion
  subst hversion
  rw [hmagic] at h₂
  rw [List.length_drop] at hlen₄
  exact ⟨r₂, h₂, by omega, by rw [List.drop_drop]⟩

theorem header_eq : header = 65 := by decide

/-- A version of one byte is the byte 1; any other takes more bytes. -/
theorem version_byte {b : UInt8} {bs behind : Bytes}
    (h : OtsProof.varuint 0 0 (b :: bs) = .ok (OtsProof.majorVersion, behind)) :
    (b = 1 → behind = bs) ∧ (b ≠ 1 → behind.length < bs.length) := by
  unfold OtsProof.varuint at h
  rw [if_neg (by decide)] at h
  dsimp only at h
  split at h
  · next hlt =>
    obtain ⟨hvalue, rfl⟩ := Prod.mk.inj (Except.ok.inj h)
    refine ⟨fun _ => rfl, fun hne => absurd ?_ hne⟩
    have hmod : b.toNat % 128 % 2 ^ 64 = b.toNat := by omega
    rw [Nat.zero_or, Nat.shiftLeft_zero, hmod] at hvalue
    exact UInt8.toNat_inj.mp hvalue
  · next hge =>
    refine ⟨fun hb => absurd ?_ hge, fun _ => varuint_shorter h⟩
    rw [hb]
    decide

theorem commitments_eq {sha256 : Bytes → Hash} {proof : Bytes} {d : Hash}
    (h : OtsProof.digest proof = .ok d) :
    commitments sha256 proof = attestationsIn sha256 (proof.drop header) (asBytes d) := by
  rw [commitments, h]
  rfl

/-- The two readers of a file agree on where its timestamp starts exactly when its version is
written in one byte. -/
theorem commitments_start_iff {sha256 : Bytes → Hash} {proof : Bytes} {d : Hash}
    (h : OtsProof.digest proof = .ok d) :
    ∃ rest, readDigest proof = .ok (d, rest) ∧
      ((header = proof.length - rest.length ∧
        commitments sha256 proof = attestationsIn sha256 rest (asBytes d)) ↔
          proof[31]? = some 1) := by
  obtain ⟨rest, hread⟩ : ∃ rest, readDigest proof = .ok (d, rest) := by
    rw [digest_eq] at h
    cases hread : readDigest proof with
    | error e =>
      rw [hread] at h
      nomatch h
    | ok p =>
      rw [hread] at h
      obtain rfl := Except.ok.inj h
      exact ⟨p.2, rfl⟩
  obtain ⟨behind, hversion, hlong, rfl⟩ := readDigest_ok hread
  refine ⟨_, hread, ?_⟩
  cases hdrop : proof.drop 31 with
  | nil =>
    rw [hdrop] at hversion
    nomatch hversion
  | cons b bs =>
    rw [hdrop] at hversion
    obtain ⟨hone, hmore⟩ := version_byte hversion
    have hlen : proof.length = 31 + (bs.length + 1) := by
      have hlength := congrArg List.length hdrop
      rw [List.length_drop, List.length_cons] at hlength
      omega
    have hbyte : proof[31]? = some b := by
      have hhead := congrArg List.head? hdrop
      rwa [List.head?_drop] at hhead
    rw [hbyte, Option.some.injEq, header_eq, List.length_drop]
    constructor
    · rintro ⟨hstart, -⟩
      by_contra hb
      have hshort := hmore hb
      omega
    · intro hb
      obtain rfl := hone hb
      refine ⟨by omega, ?_⟩
      have hdrop' : proof.drop 65 = behind.drop 33 := by
        rw [show 65 = 31 + (1 + 33) from rfl, ← List.drop_drop, hdrop, ← List.drop_drop]
        rfl
      rw [commitments_eq h, header_eq, hdrop']

instance decidableEqWalked : DecidableEq (ExceptT OtsError Option (List Commitment)) :=
  inferInstanceAs (DecidableEq (Option (Except OtsError (List Commitment))))

namespace Sample

def sha256 (bs : Bytes) : Hash := BitVec.ofNat 256 (beNat bs)

/-- One attestation, of a tag nobody knows. -/
def timestamp : Bytes := attestationTag :: List.replicate 8 9 ++ [0]

/-- A file with its version in the bytes `version`, over a digest that ends in the operation
`reverse`. -/
def file (version : Bytes) : Bytes :=
  OtsProof.headerMagic ++ version ++ [OtsProof.opSha256] ++ List.replicate 31 7 ++ [opReverse] ++
    timestamp

def digest : Hash := BitVec.ofNat 256 (beNat (List.replicate 31 7 ++ [opReverse]))

/-- With its version in two bytes the file is accepted, and walked from the last byte of its
digest: the attestation comes out over another message. -/
theorem start_shifted :
    OtsProof.digest (file [0x81, 0]) = .ok digest ∧
    readDigest (file [0x81, 0]) = .ok (digest, timestamp) ∧
    commitments sha256 (file [0x81, 0]) ≠ attestationsIn sha256 timestamp (asBytes digest) := by
  decide

theorem start_agreed : ∃ rest, readDigest (file [1]) = .ok (digest, rest) ∧
    ((header = (file [1]).length - rest.length ∧
      commitments sha256 (file [1]) = attestationsIn sha256 rest (asBytes digest)) ↔
        (file [1])[31]? = some 1) :=
  commitments_start_iff (by decide)

end Sample

end Clockchain.Anchor.Ots
