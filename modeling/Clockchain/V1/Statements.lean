import Clockchain.Frames
import Clockchain.V0.Publication
import Clockchain.V1.Linearization
import Clockchain.V1.Seal

/-!
# Signed statements and identifiers

The byte strings that are hashed or signed under the v1 domains. A domain is framed by its
length, so what follows it is read under that domain alone.
-/

namespace Clockchain.V1
open Codec Programs
set_option autoImplicit false

/-! ## The statements -/

inductive Statement where
  | event (e : Envelope)
  | receipt (r : NodeReceiptV1)
  | nodeSeal (s : NodeSealV1)
  | rootGrant (genesis : Hash)
  | revision (subject creatingEvent : Hash)
  | corpus (ids : List Hash)
  | view (fold : FoldRef) (filterVersion corpus : Hash) (rows : Bytes)
  | cache (filterVersion corpus : Hash) (query : Bytes)

namespace Statement

def domain : Statement → String
  | event _ => "cc.event.v1"
  | receipt _ => "cc.receipt.v1"
  | nodeSeal _ => sealDomain
  | rootGrant _ => "cc.root-grant.v1"
  | revision .. => "cc.revision.v1"
  | corpus _ => "cc.corpus.v1"
  | view .. => "cc.view.v1"
  | cache .. => "cc.cache.v1"

/-- The byte string of a statement, if it has one. -/
def bytes (s : Statement) : Except WireError Bytes :=
  match s with
  | event e => e.preimage
  | receipt r => r.preimage
  | nodeSeal s => s.preimage
  | rootGrant genesis => .ok (framed s.domain ++ [genesis].flatMap hashBytes)
  | revision subject creatingEvent =>
    .ok (framed s.domain ++ [subject, creatingEvent].flatMap hashBytes)
  | corpus ids => .ok (framed s.domain ++ beBytes 4 ids.length ++ ids.flatMap hashBytes)
  | view fold filterVersion digest rows =>
    .ok (framed s.domain ++ beBytes 2 canonVersion.toNat ++ beBytes 2 fold.version.toNat
      ++ hashBytes fold.manifest ++ hashBytes filterVersion ++ hashBytes digest
      ++ beBytes 8 rows.length ++ rows)
  | cache filterVersion digest query =>
    .ok (framed s.domain ++ hashBytes filterVersion ++ hashBytes digest
      ++ beBytes 8 query.length ++ query)

end Statement

/-- The identifiers are the hashes of their statements. -/
theorem statement_hashes (cr : Crypto) :
    (∀ genesis, (Statement.rootGrant genesis).bytes.map cr.sha256 = .ok (rootGrant cr genesis)) ∧
    (∀ subject event, (Statement.revision subject event).bytes.map cr.sha256 =
      .ok (revisionId cr subject event)) ∧
    (∀ ids, (Statement.corpus ids).bytes.map cr.sha256 = .ok (corpusDigest cr ids)) ∧
    (∀ fold filter corpus rows, (Statement.view fold filter corpus rows).bytes.map cr.sha256 =
      .ok (viewCommitment cr fold filter corpus rows)) ∧
    ∀ filter corpus query, (Statement.cache filter corpus query).bytes.map cr.sha256 =
      .ok (cacheKey cr filter corpus query) :=
  ⟨fun _ => rfl, fun _ _ => rfl, fun _ => rfl, fun _ _ _ _ => rfl, fun _ _ _ => rfl⟩

/-! ## Domains -/

def domains : List String :=
  ["cc.event.v1", "cc.receipt.v1", sealDomain, "cc.root-grant.v1", "cc.revision.v1",
    "cc.corpus.v1", "cc.view.v1", "cc.cache.v1"]

theorem domain_mem (s : Statement) : s.domain ∈ domains := by
  cases s <;> simp [Statement.domain, domains]

/-- A domain is short, so it can be put, and the number before it begins with zero. -/
theorem domains_framed : ∀ d ∈ domains, d.toUTF8.toList.length < 256 ^ 4 ∧
    text.put d = .ok (framed d) ∧ (framed d).head? = some 0 := by
  simp only [toList_eq, framed_eq]
  decide

theorem domains_distinct :
    ∀ d ∈ domains, ∀ d' ∈ domains, d.toUTF8.toList = d'.toUTF8.toList → d = d' := by
  intro d _ d' _ h
  rw [toList_eq, toList_eq] at h
  exact String.toByteArray_inj.mp (ByteArray.ext (Array.toList_inj.mp h))

theorem framed_inj {d d' : String} {x y : Bytes} (hd : d ∈ domains) (hd' : d' ∈ domains)
    (h : framed d ++ x = framed d' ++ y) : d = d' ∧ x = y := by
  obtain ⟨hname, hrest⟩ := frame_inj x y (domains_framed d hd).1 (domains_framed d' hd').1 h
  exact ⟨domains_distinct d hd d' hd' hname, hrest⟩

namespace Statement
variable {s s' : Statement} {p : Bytes}

/-- A statement opens with its domain. -/
theorem opens (h : s.bytes = .ok p) : ∃ rest, p = framed s.domain ++ rest := by
  have hfields : ∀ {ws : List (Except WireError Bytes)},
      fields (text.put s.domain :: ws) = .ok p → ∃ rest, p = framed s.domain ++ rest := by
    intro ws h
    obtain ⟨b, c, hb, -, rfl⟩ := fields_cons.mp h
    rw [(domains_framed _ (domain_mem s)).2.1] at hb
    obtain rfl := Except.ok.inj hb
    exact ⟨c, rfl⟩
  cases s with
  | event e => exact hfields (preimage_ok.mp h).2.1
  | receipt r => exact hfields (receipt_preimage_ok.mp h).2.2.1
  | nodeSeal s => exact hfields (seal_preimage_ok.mp h).2
  | _ =>
    simp only [bytes, Except.ok.injEq, List.append_assoc] at h
    exact ⟨_, h.symm⟩

theorem domain_eq (h : s.bytes = .ok p) (h' : s'.bytes = .ok p) : s.domain = s'.domain := by
  obtain ⟨x, hx⟩ := opens h
  obtain ⟨y, hy⟩ := opens h'
  exact (framed_inj (domain_mem s) (domain_mem s') (hx.symm.trans hy)).1

/-! ## What follows the domain -/

theorem hashBytes_append {a b : Hash} {x y : Bytes} (h : hashBytes a ++ x = hashBytes b ++ y) :
    a = b ∧ x = y := by
  obtain ⟨hhash, hrest⟩ := List.append_inj h (by rw [hashBytes_length, hashBytes_length])
  exact ⟨hashBytes_injective hhash, hrest⟩

theorem beBytes_append {width m n : Nat} {x y : Bytes}
    (h : beBytes width m ++ x = beBytes width n ++ y) : beBytes width m = beBytes width n ∧ x = y :=
  List.append_inj h (by rw [beBytes_length, beBytes_length])

theorem hashes_inj {refs refs' : List Hash} (h : refs.flatMap hashBytes = refs'.flatMap hashBytes) :
    refs = refs' :=
  flatMap_injective (by decide) hashBytes_length (fun _ _ h => hashBytes_injective h) h

/-- A byte string is that of one statement. -/
theorem bytes_inj (h : s.bytes = .ok p) (h' : s'.bytes = .ok p) : s = s' := by
  have hdomain := domain_eq h h'
  cases s with
  | event e =>
    cases s' with
    | event e' =>
      exact congrArg event <| (envelope_reads e p (preimage_ok.mp h).2.1).unique
        (envelope_reads e' p (preimage_ok.mp h').2.1)
    | _ => simp [domain, sealDomain] at hdomain
  | receipt r =>
    cases s' with
    | receipt r' => exact congrArg receipt ((receipt_reads h).unique (receipt_reads h'))
    | _ => simp [domain, sealDomain] at hdomain
  | nodeSeal s =>
    cases s' with
    | nodeSeal s' => exact congrArg nodeSeal ((seal_reads h).unique (seal_reads h'))
    | _ => simp [domain, sealDomain] at hdomain
  | rootGrant genesis =>
    cases s' with
    | rootGrant genesis' =>
      have hids := List.append_cancel_left (Except.ok.inj (h.trans h'.symm))
      rw [(List.cons.inj (hashes_inj hids)).1]
    | _ => simp [domain, sealDomain] at hdomain
  | revision subject creatingEvent =>
    cases s' with
    | revision subject' creatingEvent' =>
      have hids := List.append_cancel_left (Except.ok.inj (h.trans h'.symm))
      obtain ⟨hsubject, htail⟩ := List.cons.inj (hashes_inj hids)
      rw [hsubject, (List.cons.inj htail).1]
    | _ => simp [domain, sealDomain] at hdomain
  | corpus ids =>
    cases s' with
    | corpus ids' =>
      have heq := Except.ok.inj (h.trans h'.symm)
      simp only [domain, List.append_assoc] at heq
      obtain ⟨-, hids⟩ := beBytes_append (List.append_cancel_left heq)
      rw [hashes_inj hids]
    | _ => simp [domain, sealDomain] at hdomain
  | view fold filterVersion digest rows =>
    cases s' with
    | view fold' filterVersion' digest' rows' =>
      have heq := Except.ok.inj (h.trans h'.symm)
      simp only [domain, List.append_assoc] at heq
      obtain ⟨-, heq⟩ := beBytes_append (List.append_cancel_left heq)
      obtain ⟨hversion, heq⟩ := beBytes_append heq
      obtain ⟨hmanifest, heq⟩ := hashBytes_append heq
      obtain ⟨hfilter, heq⟩ := hashBytes_append heq
      obtain ⟨hdigest, heq⟩ := hashBytes_append heq
      obtain ⟨-, hrows⟩ := beBytes_append heq
      have hpow : 2 ^ 16 = 256 ^ 2 := by decide
      have hnumber : fold.version = fold'.version := BitVec.eq_of_toNat_eq
        (beBytes_inj (hpow ▸ fold.version.isLt) (hpow ▸ fold'.version.isLt) hversion)
      have hfold : fold = fold' := by
        cases fold
        cases fold'
        simp_all
      rw [hfold, hfilter, hdigest, hrows]
    | _ => simp [domain, sealDomain] at hdomain
  | cache filterVersion digest query =>
    cases s' with
    | cache filterVersion' digest' query' =>
      have heq := Except.ok.inj (h.trans h'.symm)
      simp only [domain, List.append_assoc] at heq
      obtain ⟨hfilter, heq⟩ := hashBytes_append (List.append_cancel_left heq)
      obtain ⟨hdigest, heq⟩ := hashBytes_append heq
      obtain ⟨-, hquery⟩ := beBytes_append heq
      rw [hfilter, hdigest, hquery]
    | _ => simp [domain, sealDomain] at hdomain

/-! ## Other messages -/

theorem length_hash {ws : List (Except WireError Bytes)} {id : Hash} {b : Bytes}
    (h : fields (hash.put id :: ws) = .ok b) : 32 ≤ b.length := by
  obtain ⟨c, rest, hc, -, rfl⟩ := fields_cons.mp h
  obtain rfl := Except.ok.inj hc
  rw [List.length_append, beBytes_length]
  omega

theorem length_tail {w : Except WireError Bytes} {ws : List (Except WireError Bytes)} {b : Bytes}
    {n : Nat} (h : fields (w :: ws) = .ok b) (hn : ∀ c, fields ws = .ok c → n ≤ c.length) :
    n ≤ b.length := by
  obtain ⟨c, rest, -, hrest, rfl⟩ := fields_cons.mp h
  have hle := hn rest hrest
  rw [List.length_append]
  omega

theorem length_framed (d : String) : 4 ≤ (framed d).length := by
  simp [framed, frame, beBytes_length]

/-- No statement has the length of an id. -/
theorem length_ne (h : s.bytes = .ok p) : p.length ≠ 32 := by
  have hlong : ∀ {rest : Bytes}, p = framed s.domain ++ rest → 32 ≤ rest.length →
      p.length ≠ 32 := by
    rintro rest rfl hrest
    have hframed := length_framed s.domain
    rw [List.length_append]
    omega
  have hfields : ∀ {ws : List (Except WireError Bytes)},
      (∀ c, fields ws = .ok c → 32 ≤ c.length) →
      fields (text.put s.domain :: ws) = .ok p → p.length ≠ 32 := by
    intro ws hws h
    obtain ⟨b, c, hb, hc, rfl⟩ := fields_cons.mp h
    rw [(domains_framed _ (domain_mem s)).2.1] at hb
    obtain rfl := Except.ok.inj hb
    exact hlong rfl (hws c hc)
  cases s with
  | event e =>
    refine hfields (fun c hc => ?_) (preimage_ok.mp h).2.1
    exact length_tail hc fun c hc => length_tail hc fun c hc => length_hash hc
  | receipt r =>
    refine hfields (fun c hc => ?_) (receipt_preimage_ok.mp h).2.2.1
    obtain ⟨b, d, hb, -, rfl⟩ := fields_cons.mp hc
    have hle := length_hash hb
    rw [List.length_append]
    omega
  | nodeSeal s =>
    refine hfields (fun c hc => ?_) (seal_preimage_ok.mp h).2
    obtain ⟨b, d, hb, -, rfl⟩ := fields_cons.mp hc
    have hle := length_hash hb
    rw [List.length_append]
    omega
  | rootGrant genesis =>
    simp only [bytes, Except.ok.injEq] at h
    exact hlong h.symm (by simp [hashBytes_length])
  | revision subject creatingEvent =>
    simp only [bytes, Except.ok.injEq] at h
    exact hlong h.symm (by simp [hashBytes_length])
  | corpus ids =>
    simp only [bytes, Except.ok.injEq, List.append_assoc] at h
    subst h
    have hlen : (ids.flatMap hashBytes).length = 32 * ids.length := by
      simp [List.length_flatMap, hashBytes_length, Nat.mul_comm]
    have hframed : (framed "cc.corpus.v1").length = 16 := by
      rw [framed_eq, List.length_append, beBytes_length]
      rfl
    rw [domain, List.length_append, List.length_append, hframed, beBytes_length, hlen]
    omega
  | view fold filterVersion digest rows =>
    simp only [bytes, Except.ok.injEq, List.append_assoc] at h
    refine hlong h.symm ?_
    simp only [List.length_append, hashBytes_length]
    omega
  | cache filterVersion digest query =>
    simp only [bytes, Except.ok.injEq, List.append_assoc] at h
    refine hlong h.symm ?_
    simp only [List.length_append, hashBytes_length]
    omega

/-- The messages that a v0 key signs: an event id, or the commitment to an edge's evidence. -/
theorem not_v0 (h : s.bytes = .ok p) : (∀ id, p ≠ V0.asBytes id) ∧
    ∀ event evidence, p ≠ V0.Publisher.evidenceCommitment event evidence := by
  refine ⟨fun id heq => length_ne h ?_, fun event evidence heq => ?_⟩
  · rw [heq]
    exact beBytes_length 32 id.toNat
  · have hletter : (V0.Publisher.Text.bytes "cc.edge-evidence.v1".toList).head? = some 0x63 := by
      decide
    obtain ⟨rest, hrest⟩ := opens h
    have hhead : (framed s.domain ++ rest).head? =
        (V0.Publisher.evidenceCommitment event evidence).head? := by
      rw [← hrest, heq]
    rw [V0.Publisher.evidenceCommitment, List.head?_append, List.head?_append,
      (domains_framed _ (domain_mem s)).2.2, hletter] at hhead
    simp at hhead

end Statement

/-- No byte string is that of two statements, none is a message of v0, and a decoder takes the
signed statements of its own kind and no others. -/
theorem statements_apart (cr : Crypto) (verify : Verify) :
    (∀ (s s' : Statement) p, s.bytes = .ok p → s'.bytes = .ok p → s = s') ∧
    (∀ (s : Statement) p, s.bytes = .ok p → p.length ≠ 32 ∧ (∀ id, p ≠ V0.asBytes id) ∧
      ∀ event evidence, p ≠ V0.Publisher.evidenceCommitment event evidence) ∧
    (∀ b d, SignedReceipt.decode cr verify b = .ok d ↔ ∃ p sig,
      (Statement.receipt d.receipt).bytes = .ok p ∧ sig.length = 64 ∧ b = p ++ sig ∧
      cr.authorKey d.receipt.nodeKey ∧ verify d.receipt.nodeKey p sig ∧ d.bytes = b) ∧
    ∀ b d, SignedSeal.decode cr verify b = .ok d ↔ ∃ p sig,
      (Statement.nodeSeal d.statement).bytes = .ok p ∧ sig.length = 64 ∧ b = p ++ sig ∧
      cr.authorKey d.statement.nodeKey ∧ verify d.statement.nodeKey p sig ∧ d.bytes = b :=
  ⟨fun _ _ _ => Statement.bytes_inj, fun _ _ h => ⟨Statement.length_ne h, Statement.not_v0 h⟩,
    fun _ _ => receipt_decode_ok, fun _ _ => seal_decode_ok⟩

/-- A seal of an empty corpus. -/
def emptySeal : NodeSealV1 := ⟨1, 2, ⟨1, 3⟩, 4, 5, 6, ⟨0⟩, "0a1b2c3", 7⟩

theorem emptySeal_apart : ∃ p, (Statement.nodeSeal emptySeal).bytes = .ok p ∧ p.length ≠ 32 ∧
    SignedSeal.decode ⟨fun _ => 9, fun _ => true⟩ (fun _ _ _ => true) (p ++ List.replicate 64 0) =
      .ok ⟨emptySeal, p ++ List.replicate 64 0⟩ := by
  obtain ⟨p, hp, -⟩ := seal_takes (s := emptySeal) (by decide +kernel)
  have happly := statements_apart ⟨fun _ => 9, fun _ => true⟩ fun _ _ _ => true
  refine ⟨p, hp, (happly.2.1 (.nodeSeal emptySeal) p hp).1, (happly.2.2.2 _ _).mpr ?_⟩
  exact ⟨p, List.replicate 64 0, hp, rfl, rfl, rfl, rfl, rfl⟩

end Clockchain.V1
