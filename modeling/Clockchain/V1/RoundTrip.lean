import Clockchain.Programs
import Clockchain.V1.Encoding

/-!
# The wire format is read back

Every format of the envelope is faithful, so `getEnvelope` reads what `putEnvelope` wrote.
`decode` writes what it has read once more, which leaves one byte string an envelope.
-/

namespace Clockchain.V1
open Codec Programs
set_option autoImplicit false

/-! ## Primitives -/

theorem flag_faithful : flag.Faithful := by
  intro b bs h
  obtain rfl := Except.ok.inj h
  have htake := take_reads WireError.truncated [if b then 1 else 0]
  cases b with
  | false => exact htake.bind (.pure false)
  | true => exact htake.bind (.pure true)

theorem text_bytes (s : String) :
    String.fromUTF8? ⟨s.toUTF8.data.toList.toArray⟩ = some s := by
  unfold String.fromUTF8?
  exact dif_pos s.isValidUTF8

theorem text_faithful : text.Faithful := by
  intro s bs h
  simp only [text] at h ⊢
  split at h
  · cases h
  · next hsize =>
    simp only [fields_cons, fields_nil] at h
    obtain ⟨b, _, hb, ⟨c, _, hc, rfl, rfl⟩, rfl⟩ := h
    obtain rfl := Except.ok.inj hc
    have hlen : (BitVec.ofNat 32 s.utf8ByteSize).toNat = s.toUTF8.data.toList.length := by
      have hlt : s.utf8ByteSize < 2 ^ 32 := by
        simp only [maxEnvelope] at hsize
        omega
      rw [BitVec.toNat_ofNat, Nat.mod_eq_of_lt hlt]
      rfl
    have htake := take_reads WireError.truncated s.toUTF8.data.toList
    rw [← hlen] at htake
    refine (number_faithful .truncated 4 _ _ hb).bind ?_
    refine htake.bind ?_
    rw [text_bytes]
    exact .pure s

theorem set_faithful {α : Type} (reference : α → Hash) {f : WireFormat α} (hf : f.Faithful) :
    (set reference f).Faithful := by
  intro xs bs h
  simp only [set] at h ⊢
  split at h
  · cases h
  · next hset =>
    rw [not_or, not_not, Nat.not_lt] at hset
    obtain ⟨hsize, hinc⟩ := hset
    obtain ⟨b, c, hb, hc, rfl⟩ := fields_cons.mp h
    have hlen : (BitVec.ofNat 32 xs.length).toNat = xs.length := by
      simp only [maxSet] at hsize
      rw [BitVec.toNat_ofNat]
      omega
    refine (number_faithful .truncated 4 _ _ hb).bind ?_
    rw [hlen]
    refine .past (Nat.not_lt.mpr hsize) ?_
    rw [← List.append_nil c]
    refine (hf.times hc).bind ?_
    exact .past (not_not.mpr hinc) (.pure xs)

theorem tags_faithful {α : Type} [DecidableEq α] {table : List (Nat × α)}
    (h : ∀ entry ∈ table, entry.1 < 2 ^ 16 ∧ table.lookup entry.1 = some entry.2) :
    (tags table).Faithful := by
  intro a bs hput
  simp only [tags] at hput ⊢
  split at hput
  · next tag b hfind =>
    obtain ⟨hlt, hlookup⟩ := h _ (List.mem_of_find?_eq_some hfind)
    obtain rfl : b = a := by simpa using List.find?_some hfind
    rw [← List.append_nil bs]
    refine (number_faithful .truncated 2 _ _ hput).bind ?_
    rw [BitVec.toNat_ofNat, Nat.mod_eq_of_lt hlt, hlookup]
    exact .pure b
  · cases hput

/-! ## Records -/

theorem u16_faithful : u16.Faithful := number_faithful WireError.truncated 2

theorem hash_faithful : hash.Faithful := number_faithful WireError.truncated 32

theorem hashes_faithful : hashes.Faithful := set_faithful id hash_faithful

theorem subjectKey_faithful : subjectKey.Faithful :=
  (text_faithful.pair (text_faithful.pair text_faithful)).record fun _ => rfl

theorem assertedTime_faithful : assertedTime.Faithful :=
  (hash_faithful.pair text_faithful).record fun _ => rfl

theorem pin_faithful : pin.Faithful :=
  (hash_faithful.pair (hash_faithful.pair (hash_faithful.pair hash_faithful))).record fun _ => rfl

theorem pins_faithful : pins.Faithful := (pin_faithful.pair pin_faithful).record fun _ => rfl

theorem parentPins_faithful : parentPins.Faithful :=
  (hash_faithful.pair pins_faithful).record fun _ => rfl

theorem kind_faithful : kind.Faithful := tags_faithful (by decide)

theorem dispositionKind_faithful : dispositionKind.Faithful := tags_faithful (by decide)

theorem targetKind_faithful : targetKind.Faithful := tags_faithful (by decide)

theorem disposition_faithful : disposition.Faithful :=
  (hash_faithful.pair (dispositionKind_faithful.pair text_faithful)).record fun _ => rfl

theorem parentPinsSet_faithful : parentPinsSet.Faithful :=
  set_faithful ParentPins.parent parentPins_faithful

theorem value_faithful : value.Faithful := by
  intro v bs h
  cases v with
  | none => exact Reads.field (u16_faithful 0) h (Reads.last _)
  | body b =>
    exact Reads.field (u16_faithful 1) h fun _ h => Reads.field (hash_faithful b) h (Reads.last _)
  | grant issuer grantee =>
    exact Reads.field (u16_faithful 2) h fun _ h => Reads.field (hash_faithful issuer) h fun _ h =>
      Reads.field (hash_faithful grantee) h (Reads.last _)
  | activeGrant g =>
    exact Reads.field (u16_faithful 3) h fun _ h => Reads.field (hash_faithful g) h (Reads.last _)
  | revokedGrant g cascade =>
    exact Reads.field (u16_faithful 4) h fun _ h => Reads.field (hash_faithful g) h fun _ h =>
      Reads.field (flag_faithful cascade) h (Reads.last _)
  | heads refs =>
    exact Reads.field (u16_faithful 5) h fun _ h =>
      Reads.field (hashes_faithful refs) h (Reads.last _)
  | revision r =>
    exact Reads.field (u16_faithful 6) h fun _ h => Reads.field (hash_faithful r) h (Reads.last _)
  | pins ps =>
    exact Reads.field (u16_faithful 7) h fun _ h => Reads.field (pins_faithful ps) h (Reads.last _)
  | parentPins ps =>
    exact Reads.field (u16_faithful 8) h fun _ h =>
      Reads.field (parentPinsSet_faithful ps) h (Reads.last _)

theorem decision_faithful : decision.Faithful :=
  (kind_faithful.pair (text_faithful.pair (hashes_faithful.pair (hashes_faithful.pair
    (value_faithful.pair value_faithful))))).record fun _ => rfl

theorem selection_faithful : selection.Faithful := by
  intro s bs h
  cases s with
  | revision r =>
    exact Reads.field (u16_faithful 0) h fun _ h => Reads.field (hash_faithful r) h (Reads.last _)
  | mergedBody b =>
    exact Reads.field (u16_faithful 1) h fun _ h => Reads.field (hash_faithful b) h (Reads.last _)

theorem dispositions_faithful : dispositions.Faithful :=
  set_faithful Disposition.parent disposition_faithful

/-! ## Envelopes -/

/-- The payload of a kind is read back under that kind. -/
theorem payload_reads (p : Payload) (bs : Bytes) (h : putPayload p = .ok bs) :
    Reads (getPayload p.kind) bs p := by
  cases p with
  | genesis nonce body evidence =>
    exact Reads.field (hash_faithful nonce) h fun _ h => Reads.field (hash_faithful body) h
      fun _ h => Reads.field (hashes_faithful evidence) h (Reads.last _)
  | correction body d =>
    exact Reads.field (hash_faithful body) h fun _ h =>
      Reads.field (decision_faithful d) h (Reads.last _)
  | delegate grantee issuer d =>
    exact Reads.field (hash_faithful grantee) h fun _ h => Reads.field (hash_faithful issuer) h
      fun _ h => Reads.field (decision_faithful d) h (Reads.last _)
  | revoke target cascade d =>
    exact Reads.field (hash_faithful target) h fun _ h => Reads.field (flag_faithful cascade) h
      fun _ h => Reads.field (decision_faithful d) h (Reads.last _)
  | resolve s ds d =>
    exact Reads.field (selection_faithful s) h fun _ h => Reads.field (dispositions_faithful ds) h
      fun _ h => Reads.field (decision_faithful d) h (Reads.last _)
  | edgeAssert relation ps d =>
    exact Reads.field (text_faithful relation) h fun _ h => Reads.field (pins_faithful ps) h
      fun _ h => Reads.field (decision_faithful d) h (Reads.last _)
  | edgeReaffirm edge old new d =>
    exact Reads.field (hash_faithful edge) h fun _ h => Reads.field (parentPinsSet_faithful old) h
      fun _ h => Reads.field (pins_faithful new) h fun _ h =>
        Reads.field (decision_faithful d) h (Reads.last _)
  | attestation k target artifactKind artifact =>
    exact Reads.field (targetKind_faithful k) h fun _ h => Reads.field (hash_faithful target) h
      fun _ h => Reads.field (text_faithful artifactKind) h fun _ h =>
        Reads.field (hash_faithful artifact) h (Reads.last _)

theorem option_faithful {α : Type} {f : WireFormat α} (hf : f.Faithful) : (option f).Faithful :=
  flag_faithful.optional hf

/-- What has been written for an envelope is read back as that envelope. -/
theorem envelope_reads (e : Envelope) (bs : Bytes) (h : putEnvelope e = .ok bs) :
    Reads getEnvelope bs e := by
  unfold putEnvelope at h
  unfold getEnvelope
  refine Reads.field (text_faithful _) h fun _ h => .past (not_not.mpr rfl) ?_
  refine Reads.field (u16_faithful _) h fun _ h => .past (not_not.mpr rfl) ?_
  refine Reads.field (u16_faithful _) h fun _ h => .past (not_not.mpr rfl) ?_
  refine Reads.field (hash_faithful _) h fun _ h => ?_
  refine Reads.field (kind_faithful _) h fun _ h => ?_
  refine Reads.field (hash_faithful _) h fun _ h => ?_
  refine Reads.field (option_faithful hash_faithful _) h fun _ h => ?_
  refine Reads.field (option_faithful subjectKey_faithful _) h fun _ h => ?_
  refine Reads.field (option_faithful hash_faithful _) h fun _ h => ?_
  refine Reads.field (hashes_faithful _) h fun _ h => ?_
  refine Reads.field (option_faithful assertedTime_faithful _) h fun _ h => ?_
  exact Reads.field (payload_reads _) h (Reads.last _)

/-- What opens is a written preimage with a signature of it. -/
theorem openSigned_ok {cr : Crypto} {verify : Verify} {α : Type} {read : Reader WireError α}
    {preimageOf : α → Except WireError Bytes} {author : α → Hash} {b : Bytes}
    {o : Opened preimageOf}
    (reads : ∀ a p, preimageOf a = .ok p → Reads read p a ∧ p.length + 64 ≤ maxEnvelope) :
    openSigned cr verify read preimageOf author b = .ok o ↔ ∃ sig, sig.length = 64 ∧
      b = o.preimage ++ sig ∧ cr.authorKey (author o.value) ∧
      verify (author o.value) o.preimage sig := by
  simp only [openSigned, unless_ok, bind_ok, Nat.not_lt, gt_iff_lt]
  constructor
  · rintro ⟨hmax, hmin, ⟨a, rest⟩, hread, hrest, h⟩
    split at h
    · cases h
    · next p hp =>
      simp only [unless_ok, ne_eq, not_not] at h
      obtain ⟨heq, hkey, hsig, ho⟩ := h
      obtain rfl := Except.ok.inj ho
      refine ⟨b.drop (b.length - 64), ?_, ?_, ?_, ?_⟩
      · rw [List.length_drop]
        omega
      · change b = p ++ _
        rw [heq, List.take_append_drop]
      · simpa using hkey
      · simpa [heq] using hsig
  · rintro ⟨sig, hlen, rfl, hkey, hsig⟩
    obtain ⟨a, p, hp⟩ := o
    obtain ⟨hread, hmax⟩ := reads a p hp
    have hsplit : (p ++ sig).length - 64 = p.length := by
      rw [List.length_append, hlen, Nat.add_sub_cancel]
    have hrun := hread []
    rw [List.append_nil] at hrun
    rw [hsplit, List.take_left, List.drop_left]
    refine ⟨?_, ?_, (a, []), hrun, by simp, ?_⟩
    · rwa [List.length_append, hlen]
    · rw [List.length_append, hlen]
      omega
    · split
      · next e he => rw [hp] at he; cases he
      · next again hagain =>
        obtain rfl : again = p := Except.ok.inj (hagain.symm.trans hp)
        simp only [unless_ok]
        exact ⟨by simp, by simpa using hkey, by simpa using hsig, rfl⟩
theorem decode_ok {cr : Crypto} {verify : Verify} {b : Bytes} {d : Decoded} :
    decode cr verify b = .ok d ↔ ∃ p sig, d.envelope.preimage = .ok p ∧ sig.length = 64 ∧
      b = p ++ sig ∧ cr.authorKey d.envelope.author ∧ verify d.envelope.author p sig ∧
      d.id = cr.sha256 p ∧ d.bytes = b := by
  have reads : ∀ (e : Envelope) p, e.preimage = .ok p →
      Reads getEnvelope p e ∧ p.length + 64 ≤ maxEnvelope := fun e p hp =>
    ⟨envelope_reads e p (preimage_ok.mp hp).2.1, (preimage_ok.mp hp).2.2⟩
  simp only [decode, bind_ok, openSigned_ok reads]
  constructor
  · rintro ⟨o, ⟨sig, hsig⟩, hd⟩
    obtain rfl := Except.ok.inj hd
    exact ⟨o.preimage, sig, o.written, hsig.1, hsig.2.1, hsig.2.2.1, hsig.2.2.2, rfl, rfl⟩
  · rintro ⟨p, sig, hp, hlen, hb, hkey, hsig, hid, hbytes⟩
    obtain ⟨⟨e, canonical⟩, id, bytes⟩ := d
    obtain rfl : id = _ := hid
    obtain rfl : bytes = _ := hbytes
    exact ⟨⟨e, p, hp⟩, ⟨sig, hlen, hb, hkey, hsig⟩, rfl⟩

/-- Decoding is the inverse of signing: the accepted byte strings are the preimages of the
envelopes that have one, each followed by a signature of it, and the preimage tells them apart. -/
theorem wire_bijective (cr : Crypto) (verify : Verify) :
    (∀ b d, decode cr verify b = .ok d ↔ ∃ p sig, d.envelope.preimage = .ok p ∧
      sig.length = 64 ∧ b = p ++ sig ∧ cr.authorKey d.envelope.author ∧
      verify d.envelope.author p sig ∧ d.id = cr.sha256 p ∧ d.bytes = b) ∧
    (∀ (e : Envelope) p sig, e.preimage = .ok p → sig.length = 64 → cr.authorKey e.author →
      verify e.author p sig → ∃ d, decode cr verify (p ++ sig) = .ok d ∧ d.envelope = e ∧
        d.id = cr.sha256 p ∧ d.bytes = p ++ sig) ∧
    (∀ e e' : Envelope, ∀ p, e.preimage = .ok p → e'.preimage = .ok p → e = e') ∧
    ∀ e : Envelope, (∃ p, e.preimage = .ok p) ↔ ∃ b d,
      decode { cr with authorKey := fun _ => true } (fun _ _ _ => true) b = .ok d ∧
        d.envelope = e := by
  refine ⟨fun b d => decode_ok, fun e p sig hp hlen hkey hsig => ?_, fun e e' p hp hp' => ?_,
    fun e => ⟨?_, ?_⟩⟩
  · exact ⟨⟨⟨e, preimage_canonical hp⟩, cr.sha256 p, p ++ sig⟩,
      decode_ok.mpr ⟨p, sig, hp, hlen, rfl, hkey, hsig, rfl, rfl⟩, rfl, rfl, rfl⟩
  · exact (envelope_reads e p (preimage_ok.mp hp).2.1).unique
      (envelope_reads e' p (preimage_ok.mp hp').2.1)
  · rintro ⟨p, hp⟩
    exact ⟨_, ⟨⟨e, preimage_canonical hp⟩, _, _⟩, decode_ok.mpr
      ⟨p, List.replicate 64 0, hp, rfl, rfl, rfl, rfl, rfl, rfl⟩, rfl⟩
  · rintro ⟨b, d, h, rfl⟩
    obtain ⟨p, _, hp, _⟩ := decode_ok.mp h
    exact ⟨p, hp⟩

/-- A merge of two heads, at an asserted time. -/
def merge : Envelope where
  instanceId := 1
  author := 2
  subject := some 3
  subjectKey := some ⟨"work", "library", "Œuvre"⟩
  grant := none
  parents := [4, 5]
  assertedTime := some ⟨6, "day"⟩
  payload := .resolve (.mergedBody 7) [⟨4, .merged, "kept"⟩, ⟨5, .notSelected, "dropped"⟩]
    ⟨.resolve, "both editions", [8], [4, 5], .heads [4, 5], .body 7⟩

theorem wire_bijective_merge : ∃ p, merge.preimage = .ok p ∧ ∃ d,
    decode ⟨fun _ => 9, fun _ => true⟩ (fun _ _ _ => true) (p ++ List.replicate 64 0) = .ok d ∧
      d.envelope = merge ∧ d.id = 9 ∧ d.bytes = p ++ List.replicate 64 0 := by
  have hsome : merge.preimage.isOk = true := by decide +kernel
  cases hp : merge.preimage with
  | error e => rw [hp] at hsome; cases hsome
  | ok p =>
    exact ⟨p, rfl, (wire_bijective ⟨fun _ => 9, fun _ => true⟩ fun _ _ _ => true).2.1 merge p
      (List.replicate 64 0) hp rfl rfl rfl⟩

end Clockchain.V1
