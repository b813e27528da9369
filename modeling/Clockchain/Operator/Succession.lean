import Clockchain.Operator.Log

/-!
# What a line of the log holds

A document that verifies is a served seal with its signature, so the entry written for it is
read back; and of two seals the later one succeeds the earlier.
-/

namespace Clockchain.Operator
open Codec Programs
open V1 (Hash hashBytes NodeSealV1 Build Crypto)
set_option autoImplicit false

section
variable {ed25519 : Ed25519} {nodeKey : Text} {expected : Expected}

/-! ## Signed seals -/

/-- The answer of `GET /v1/seal`. -/
def signedDoc (s : NodeSealV1) (signature : Bytes) : Py :=
  .dict [(text "node_key", .str (hashText s.nodeKey)), (text "seal", served s),
    (text "signature", .str (hexText signature))]

theorem signatureText_ok {d : Py} {t : Text} : signatureText d = .ok t ↔
    ∃ signature : Bytes, signature.length = 64 ∧ t = hexText signature ∧
      d = .str (hexText signature) := by
  constructor
  · intro h
    cases d with
    | str s =>
      simp only [signatureText] at h
      split at h
      · next hs =>
        obtain rfl := Except.ok.inj h
        obtain ⟨hlen, hhead, htail⟩ := hs
        have hall : s.all isHexDigit = true := by
          rw [← List.take_append_drop 64 s, List.all_append, Bool.and_eq_true]
          rw [hex64, Bool.and_eq_true] at hhead htail
          exact ⟨hhead.2, htail.2⟩
        obtain ⟨bs, hbs, rfl⟩ := exists_bytes (n := 64) hlen hall
        exact ⟨bs, hbs, rfl, rfl⟩
      · cases h
    | _ => cases h
  · rintro ⟨signature, hlen, rfl, rfl⟩
    have htotal : (hexText signature).length = 128 := by rw [length_hexText, hlen]
    have hall := List.all_eq_true.mp (hexText_isHex signature)
    have hpart : ∀ s : Text, s.length = 64 → (∀ c ∈ s, c ∈ hexText signature) →
        hex64 s = true := by
      intro s hs hsub
      rw [hex64, Bool.and_eq_true, decide_eq_true_iff]
      exact ⟨hs, List.all_eq_true.mpr fun c hc => hall c (hsub c hc)⟩
    refine if_pos ⟨htotal, hpart _ ?_ fun c => List.mem_of_mem_take,
      hpart _ ?_ fun c => List.mem_of_mem_drop⟩
    · rw [List.length_take, htotal]
      rfl
    · rw [List.length_drop, htotal]

theorem isText_iff {d : Py} {s : Text} : d.isText s = true ↔ d = .str s := by
  cases d with
  | str t => simp [Py.isText]
  | _ => simp [Py.isText]

theorem isStr_iff {d : Py} : d.isStr = true ↔ ∃ s, d = .str s := by
  cases d with
  | str t => simp [Py.isStr]
  | _ => simp [Py.isStr]

/-- The bytes that are verified are the ones the node signs. -/
theorem signed_iff {s : NodeSealV1} {signature : Bytes} (h : Build s.build) :
    signed ed25519 (hashText s.nodeKey) (hexText signature) (sealFields s) =
      ed25519 (hashBytes s.nodeKey) signature (sealParts s).flatten := by
  rw [signed, fromhex_hashText, fromhex_hexText, toPy_sealFields, encodeSeal_served h]
  rfl

theorem verifySigned_ok {d : Py} {n : SealFields} : verifySigned ed25519 nodeKey d = .ok n ↔
    ∃ (s : NodeSealV1) (signature : Bytes), Build s.build ∧ hashText s.nodeKey = nodeKey ∧
      signature.length = 64 ∧ d = signedDoc s signature ∧ n = sealFields s ∧
      ed25519 (hashBytes s.nodeKey) signature (sealParts s).flatten = true := by
  constructor
  · intro h
    simp only [verifySigned, bind_ok, unless_ok, Bool.not_eq_true', Bool.not_eq_false,
      Bool.or_eq_true, not_or, decide_eq_true_iff, not_not] at h
    obtain ⟨hkeys, h⟩ := h
    obtain ⟨values, hlen, rfl⟩ := hasKeys_iff.mp hkeys
    obtain ⟨key, sealed, signature, rfl⟩ := List.length_eq_three.mp hlen
    simp (disch := decide) only [List.map_cons, List.zip_cons_cons, item_here, item_there,
      Except.ok.injEq, exists_eq_left'] at h
    obtain ⟨m, hm, hhex, ⟨hsigner, hkey⟩, t, ht, hverified, h⟩ := h
    obtain rfl := Except.ok.inj h
    obtain ⟨s, hbuild, rfl, rfl⟩ := normalizeSeal_ok.mp hm
    obtain ⟨signature, hsig, rfl, rfl⟩ := signatureText_ok.mp ht
    obtain rfl : hashText s.nodeKey = nodeKey := hkey
    obtain rfl := isText_iff.mp hsigner
    rw [signed_iff hbuild] at hverified
    exact ⟨s, signature, hbuild, rfl, hsig, rfl, rfl, hverified⟩
  · rintro ⟨s, signature, hbuild, rfl, hsig, rfl, rfl, hverified⟩
    have hnormal := normalizeSeal_ok.mpr ⟨s, hbuild, rfl, rfl⟩
    have htext := signatureText_ok.mpr ⟨signature, hsig, rfl, rfl⟩
    have hhex : hex64 (hashText s.nodeKey) = true := hex64_iff.mpr ⟨s.nodeKey, rfl⟩
    have hsigner : (Py.str (hashText s.nodeKey)).isText (hashText s.nodeKey) = true :=
      isText_iff.mpr rfl
    simp (disch := decide) only [verifySigned, bind_ok, unless_ok, Bool.not_eq_true',
      Bool.not_eq_false, Bool.or_eq_true, not_or, decide_eq_true_iff, not_not, signedDoc,
      hasKeys_dict, item_here, item_there, Except.ok.injEq, exists_eq_left', hnormal, htext, hhex,
      hsigner, signed_iff hbuild, hverified]
    exact ⟨rfl, trivial, ⟨trivial, rfl⟩, trivial, rfl⟩

end

theorem pure_ok {ε α : Type} {a b : α} : (pure a : Except ε α) = .ok b ↔ a = b :=
  ⟨fun h => Except.ok.inj h, fun h => congrArg Except.ok h⟩

theorem requireSealIdentity_ok {expected : Expected} {sealed n : SealFields} :
    requireSealIdentity expected sealed = .ok n ↔ drift expected sealed = [] ∧ sealed = n := by
  simp only [requireSealIdentity, unless_ok, ne_eq, not_not]
  exact and_congr_right fun _ => pure_ok

/-! ## Succession -/

/-- The later seal of two: a later clock, no candidate less, and another corpus exactly when
there are more. -/
structure Succeeds (previous sealed : SealFields) : Prop where
  time : previous.sealedAtUs < sealed.sealedAtUs
  count : previous.candidates ≤ sealed.candidates
  corpus : sealed.corpusDigest ≠ previous.corpusDigest ↔ previous.candidates < sealed.candidates
  commitment : sealed.commitment ≠ previous.commitment ↔ previous.candidates < sealed.candidates

theorem changed_nil {previous sealed : SealFields} : changed previous sealed = [] ↔
    sealed.corpusDigest = previous.corpusDigest ∧ sealed.commitment = previous.commitment := by
  unfold changed
  split <;> split <;> simp_all

theorem changed_both {previous sealed : SealFields} : (changed previous sealed).length = 2 ↔
    sealed.corpusDigest ≠ previous.corpusDigest ∧ sealed.commitment ≠ previous.commitment := by
  unfold changed
  split <;> split <;> simp_all

theorem requireSuccession_ok {previous sealed n : SealFields} :
    requireSuccession previous sealed = .ok n ↔ Succeeds previous sealed ∧ sealed = n := by
  have hkept : ¬ (sealed.candidates = previous.candidates ∧ changed previous sealed ≠ []) ↔
      (sealed.candidates = previous.candidates → sealed.corpusDigest = previous.corpusDigest ∧
        sealed.commitment = previous.commitment) := by
    rw [← changed_nil, not_and, not_not]
  have hmoved : ¬ (previous.candidates < sealed.candidates ∧
      (changed previous sealed).length ≠ 2) ↔ (previous.candidates < sealed.candidates →
        sealed.corpusDigest ≠ previous.corpusDigest ∧
          sealed.commitment ≠ previous.commitment) := by
    rw [← changed_both, not_and, not_not]
  simp only [requireSuccession, unless_ok, pure_ok, hkept, hmoved, Nat.not_le, Nat.not_lt]
  constructor
  · rintro ⟨htime, hcount, hsame, hgrown, rfl⟩
    refine ⟨⟨htime, hcount, ⟨fun hne => ?_, fun h => (hgrown h).1⟩,
      ⟨fun hne => ?_, fun h => (hgrown h).2⟩⟩, rfl⟩
    · exact Nat.lt_of_le_of_ne hcount fun heq => hne (hsame heq.symm).1
    · exact Nat.lt_of_le_of_ne hcount fun heq => hne (hsame heq.symm).2
  · rintro ⟨h, rfl⟩
    refine ⟨h.time, h.count, fun heq => ⟨?_, ?_⟩,
      fun hlt => ⟨h.corpus.mpr hlt, h.commitment.mpr hlt⟩, rfl⟩
    · by_contra hne
      exact Nat.ne_of_gt (h.corpus.mp hne) heq
    · by_contra hne
      exact Nat.ne_of_gt (h.commitment.mp hne) heq

/-! ## Entries are plain -/

instance (s : Text) : Decidable (Printable s) := inferInstanceAs (Decidable (∀ c ∈ s, _))

theorem printable_hexText (bs : Bytes) : Printable (hexText bs) := by
  intro c hc
  have hdigit := List.all_eq_true.mp (hexText_isHex bs) c hc
  rw [isHexDigit, Bool.or_eq_true, Bool.and_eq_true, Bool.and_eq_true, decide_eq_true_iff,
    decide_eq_true_iff, decide_eq_true_iff, decide_eq_true_iff] at hdigit
  omega

theorem printable_hashText (h : Hash) : Printable (hashText h) := printable_hexText _

theorem printable_build {s : String} (h : Build s) : Printable (text s) := by
  intro c hc
  have hrange := (build_iff.mp h).2 c hc
  omega

theorem Printable.append {s t : Text} (hs : Printable s) (ht : Printable t) : Printable (s ++ t) :=
  List.forall_mem_append.mpr ⟨hs, ht⟩

theorem printable_pad (width n : Nat) : Printable (pad width n) := by
  have hdigit : ∀ b, isDigit b = true → 0x20 ≤ b.toNat ∧ b.toNat ≤ 0x7e := by
    intro b hb
    rw [isDigit, Bool.and_eq_true, decide_eq_true_iff, decide_eq_true_iff, UInt8.le_iff_toNat_le,
      UInt8.le_iff_toNat_le] at hb
    change 48 ≤ b.toNat ∧ b.toNat ≤ 57 at hb
    omega
  refine .append (fun c hc => ?_) fun c hc => ?_
  · rw [(List.mem_replicate.mp hc).2]
    decide
  · obtain ⟨b, hb, rfl⟩ := List.mem_map.mp hc
    obtain ⟨d, ds, heq, hd, -, hall⟩ := digits_cons n
    rw [heq] at hb
    rcases List.mem_cons.mp hb with rfl | hb
    · exact hdigit _ hd
    · exact hdigit b (hall b hb)

theorem printable_isoformat (m : Moment) : Printable m.isoformat := by
  have htext : Printable (text "-") ∧ Printable (text "T") ∧ Printable (text ":") ∧
      Printable (text ".") ∧ Printable (text "+00:00") := by
    simp only [Printable]
    decide
  obtain ⟨hdash, ht, hcolon, hdot, hzone⟩ := htext
  have hmicro : Printable (if m.microsecond = 0 then [] else text "." ++ pad 6 m.microsecond) := by
    split
    · simp [Printable]
    · exact hdot.append (printable_pad _ _)
  exact ((((((((((((printable_pad _ _).append hdash).append (printable_pad _ _)).append
    hdash).append (printable_pad _ _)).append ht).append (printable_pad _ _)).append
    hcolon).append (printable_pad _ _)).append hcolon).append (printable_pad _ _)).append
    hmicro).append hzone

/-- The keys of every dict of an entry, each list in order. -/
theorem keys_sorted : ∀ keys ∈ [sealKeys, ["candidates"], ["manifest", "version"],
    ["node_key", "seal", "signature"], entryKeys],
    (keys.map text).Pairwise (· < ·) ∧ ∀ key ∈ keys.map text, Printable key := by
  decide

theorem plain_dict (keys : List String) (hkeys : keys ∈ [sealKeys, ["candidates"],
    ["manifest", "version"], ["node_key", "seal", "signature"], entryKeys])
    {items : List (Text × Py)} (hitems : items.map Prod.fst = keys.map text)
    (h : ∀ entry ∈ items, Plain entry.2) : Plain (.dict items) := by
  obtain ⟨hsorted, hprintable⟩ := keys_sorted keys hkeys
  rw [← hitems] at hsorted hprintable
  exact .dict hsorted (fun entry hentry => hprintable _ (List.mem_map_of_mem hentry)) h

theorem plain_served {s : NodeSealV1} (h : Build s.build) : Plain (served s) := by
  have hhash : ∀ id : Hash, Plain (.str (hashText id)) := fun id => .str (printable_hashText id)
  have hcounts : Plain (.dict [(text "candidates", .int s.counts.candidates.toNat)]) := by
    refine plain_dict ["candidates"] (by simp) rfl ?_
    simp only [List.forall_mem_cons, List.not_mem_nil, false_imp_iff, implies_true, and_true]
    exact .int s.counts.candidates.isLt
  have hfold : Plain (.dict [(text "manifest", .str (hashText s.foldVersion.manifest)),
      (text "version", .int s.foldVersion.version.toNat)]) := by
    refine plain_dict ["manifest", "version"] (by simp) rfl ?_
    simp only [List.forall_mem_cons, List.not_mem_nil, false_imp_iff, implies_true, and_true]
    exact ⟨hhash _, .int (by have := s.foldVersion.version.isLt; omega)⟩
  refine plain_dict sealKeys (by simp) rfl ?_
  simp only [List.forall_mem_cons, List.not_mem_nil, false_imp_iff, implies_true, and_true]
  exact ⟨.str (printable_build h), hhash _, hhash _, hcounts, hhash _, hfold, hhash _, hhash _,
    .int s.sealedAtUs.isLt⟩

theorem plain_signedDoc {s : NodeSealV1} (h : Build s.build) (signature : Bytes) :
    Plain (signedDoc s signature) := by
  refine plain_dict ["node_key", "seal", "signature"] (by simp) rfl ?_
  simp only [List.forall_mem_cons, List.not_mem_nil, false_imp_iff, implies_true, and_true]
  exact ⟨.str (printable_hashText _), plain_served h, .str (printable_hexText _)⟩

theorem plain_entryOf {prev : Text} (hprev : Printable prev) {doc : Py} (hdoc : Plain doc)
    (now : Moment) : Plain (entryOf prev doc now) := by
  refine plain_dict entryKeys (by simp) rfl ?_
  simp only [List.forall_mem_cons, List.not_mem_nil, false_imp_iff, implies_true, and_true]
  exact ⟨.str (printable_isoformat now), .str hprev, hdoc⟩

end Clockchain.Operator
