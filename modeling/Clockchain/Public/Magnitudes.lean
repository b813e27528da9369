import Clockchain.Public.Decoding

/-!
# Magnitudes

Every number the node serves is a byte, a version or a bound on hops, but for the times of receipts:
what the clients read of a document, number by number.
-/

namespace Clockchain.V1.ViewRows
open Json Json.Members
set_option autoImplicit false

/-! ## Readings -/

/-- The form writes numbers that a double holds. -/
abbrev Exact {α : Type} (f : Form α) : Prop := f.Small (2 ^ 53)

theorem hash_exact : Exact hash := by
  intro h
  refine .arr fun v hv => ?_
  obtain ⟨b, -, rfl⟩ := List.mem_map.1 hv
  exact .num (b.toNat_lt.trans (by decide))

theorem hashes_exact : Exact hashes := hash_exact.list

theorem subjectKey_exact : Exact subjectKey :=
  Members.Small.lenient <| .record (.pair (field_small Form.text_small)
    (.pair (field_small Form.text_small) (field_small Form.text_small))) _ _

theorem assertedTime_exact : Exact assertedTime :=
  Members.Small.lenient <|
    .record (.pair (field_small hash_exact) (field_small Form.text_small)) _ _

theorem pin_exact : Exact pin :=
  Members.Small.lenient <| .record (.pair (field_small hash_exact) (.pair (field_small hash_exact)
    (.pair (field_small hash_exact) (field_small hash_exact)))) _ _

theorem pins_exact : Exact pins :=
  Members.Small.lenient <| .record (.pair (field_small pin_exact) (field_small pin_exact)) _ _

theorem parentPins_exact : Exact parentPins :=
  Members.Small.lenient <| .record (.pair (field_small hash_exact) (field_small pins_exact)) _ _

theorem disposition_exact : Exact disposition :=
  Members.Small.lenient <| .record (.pair (field_small hash_exact)
    (.pair (field_small Form.tags_small) (field_small Form.text_small))) _ _

/-- What a variant carries under its name. -/
theorem variant_exact {name : String} {v : Json.Value} (h : Small (2 ^ 53) v) :
    Small (2 ^ 53) (.obj [(name, v)]) := h.member .empty

theorem value_exact : Exact value
  | .none => .str _
  | .body body => variant_exact (hash_exact body)
  | .grant issuer grantee => variant_exact <| Members.Small.lenient
    (.pair (field_small hash_exact) (field_small hash_exact)) (issuer, grantee)
  | .activeGrant grant => variant_exact (hash_exact grant)
  | .revokedGrant grant cascade => variant_exact <| Members.Small.lenient
    (.pair (field_small hash_exact) (field_small Form.flag_small)) (grant, cascade)
  | .heads heads => variant_exact (hashes_exact heads)
  | .revision revision => variant_exact (hash_exact revision)
  | .pins p => variant_exact (pins_exact p)
  | .parentPins ps => variant_exact (parentPins_exact.list ps)

theorem decision_exact : Exact decision :=
  Members.Small.lenient <| .record (.pair (field_small Form.tags_small)
    (.pair (field_small Form.text_small) (.pair (field_small hashes_exact)
      (.pair (field_small hashes_exact) (.pair (field_small value_exact)
        (field_small value_exact)))))) _ _

theorem selection_exact : Exact selection
  | .revision revision => variant_exact (hash_exact revision)
  | .mergedBody body => variant_exact (hash_exact body)

theorem payload_exact : Exact payload
  | .genesis nonce body evidence => variant_exact <| Members.Small.lenient
    (.pair (field_small hash_exact) (.pair (field_small hash_exact) (field_small hashes_exact)))
    (nonce, body, evidence)
  | .correction body d => variant_exact <| Members.Small.lenient
    (.pair (field_small hash_exact) (field_small decision_exact)) (body, d)
  | .delegate grantee issuer d => variant_exact <| Members.Small.lenient
    (.pair (field_small hash_exact) (.pair (field_small hash_exact) (field_small decision_exact)))
    (grantee, issuer, d)
  | .revoke target cascade d => variant_exact <| Members.Small.lenient
    (.pair (field_small hash_exact) (.pair (field_small Form.flag_small)
      (field_small decision_exact))) (target, cascade, d)
  | .resolve s dispositions d => variant_exact <| Members.Small.lenient
    (.pair (field_small selection_exact) (.pair (field_small disposition_exact.list)
      (field_small decision_exact))) (s, dispositions, d)
  | .edgeAssert relation p d => variant_exact <| Members.Small.lenient
    (.pair (field_small Form.text_small) (.pair (field_small pins_exact)
      (field_small decision_exact))) (relation, p, d)
  | .edgeReaffirm edge old new d => variant_exact <| Members.Small.lenient
    (.pair (field_small hash_exact) (.pair (field_small parentPins_exact.list)
      (.pair (field_small pins_exact) (field_small decision_exact)))) (edge, old, new, d)
  | .attestation kind target artifactKind artifact => variant_exact <| Members.Small.lenient
    (.pair (field_small Form.tags_small) (.pair (field_small hash_exact)
      (.pair (field_small Form.text_small) (field_small hash_exact))))
    (kind, target, artifactKind, artifact)

theorem envelope_exact : Exact envelope :=
  Members.Small.lenient <| .record (.pair (field_small hash_exact) (.pair (field_small hash_exact)
    (.pair (optional_small hash_exact) (.pair (optional_small subjectKey_exact)
      (.pair (optional_small hash_exact) (.pair (field_small hashes_exact)
        (.pair (optional_small assertedTime_exact) (field_small payload_exact)))))))) _ _

theorem ids_exact (refs : BTreeSet) : Small (2 ^ 53) (ids refs) := hashes_exact _

theorem items_exact {α : Type} {f : α → Json.Value} (h : ∀ a, Small (2 ^ 53) (f a)) (xs : List α) :
    Small (2 ^ 53) (.arr (xs.map f)) := by
  refine .arr fun v hv => ?_
  obtain ⟨x, -, rfl⟩ := List.mem_map.1 hv
  exact h x

theorem entries_exact {α : Type} {f : α → Json.Value} (h : ∀ a, Small (2 ^ 53) (f a))
    (m : BTreeMap α) : Small (2 ^ 53) (entries f m) := by
  refine items_exact (fun entry => ?_) _
  refine .arr fun v hv => ?_
  rcases List.mem_pair.1 hv with rfl | rfl
  · exact hash_exact _
  · exact h _

theorem eventReading_exact (r : EventReading) : Small (2 ^ 53) (eventReading r) :=
  (hash_exact _).member <| (envelope_exact _).member <| (Small.str _).member <|
    (Small.str _).member <| (hashes_exact _).member <| (Small.bool _).member <|
      (hash_exact.option _).member <| (ids_exact _).member .empty

theorem revision_exact (r : Revision) : Small (2 ^ 53) (revision r) :=
  (hash_exact _).member <| (hash_exact _).member <| (hash_exact _).member <|
    (hash_exact _).member <| (assertedTime_exact.option _).member .empty

theorem subjectReading_exact (r : SubjectReading) : Small (2 ^ 53) (subjectReading r) :=
  (hash_exact _).member <| (ids_exact _).member <| (Small.str _).member <|
    (Small.bool _).member .empty

theorem grant_exact (g : Grant) : Small (2 ^ 53) (grant g) :=
  (hash_exact _).member <| (hash_exact.option _).member <| (hash_exact _).member <|
    (hash_exact _).member .empty

theorem effect_exact (e : Effect) : Small (2 ^ 53) (effect e) :=
  (Small.str _).member <| (ids_exact _).member .empty

theorem edgeReading_exact (r : EdgeReading) : Small (2 ^ 53) (edgeReading r) :=
  (hash_exact _).member <| (hash_exact _).member <| (Small.str _).member <|
    (hashes_exact _).member <| (ids_exact _).member <| (pins_exact.list _).member <|
      (ids_exact _).member <| (Small.str _).member <|
        (items_exact (fun _ => Small.str _) _).member .empty

theorem mediaReading_exact (r : MediaReading) : Small (2 ^ 53) (mediaReading r) :=
  (hash_exact _).member <| (hash_exact _).member <| (Form.tags_small _).member <|
    (hash_exact _).member <| (hash_exact.option _).member <| (hash_exact.option _).member <|
      (Small.str _).member <| (hash_exact _).member .empty

end Clockchain.V1.ViewRows

namespace Clockchain.Public
open Json (Small Value double reread)
open V1 (Hash Crypto FoldRef RuleId SignedReceipt Support SupportReason)
open V1.Publisher (hex)
open V1.ViewRows (hash_exact hashes_exact ids_exact items_exact entries_exact)
set_option autoImplicit false

/-! ## Documents -/

theorem number_exact (n : BitVec 16) : Small (2 ^ 53) (.num n.toNat) :=
  .num (n.isLt.trans (by decide))

theorem rule_exact (r : RuleId) : Small (2 ^ 53) (ruleJson r) :=
  (number_exact _).member <| (Small.str _).member <| (Small.str _).member .empty

theorem fold_exact (f : FoldRef) : Small (2 ^ 53) (foldJson f) :=
  (number_exact _).member <| (Small.str _).member .empty

theorem asOf_exact : ∀ asOf : Option Hash, Small (2 ^ 53) (asOfJson asOf)
  | none => .null
  | some _ => .str _

theorem revision_exact : ∀ revision : Option V1.Revision, Small (2 ^ 53) (revisionJson revision)
  | none => .null
  | some r => V1.ViewRows.revision_exact r

theorem health_exact (cr : Crypto) (n : Node) : Small (2 ^ 53) (.obj (healthMembers cr n)) :=
  (Small.str _).member <| (Small.str _).member <| (Small.str _).member <|
    (fold_exact _).member <| (Small.str _).member <|
      (items_exact (fun _ => Small.str _) _).member <| (number_exact _).member <|
        (Small.str _).member .empty

theorem authority_exact (a : V1.Authority) : Small (2 ^ 53) (authorityJson a) :=
  (entries_exact V1.ViewRows.grant_exact _).member <| (ids_exact _).member <|
    (ids_exact _).member <| (ids_exact _).member <| (ids_exact _).member <|
      (entries_exact V1.ViewRows.effect_exact _).member .empty

theorem snapshot_exact (s : V1.Snapshot) : Small (2 ^ 53) (snapshotJson s) :=
  (rule_exact _).member <| (Small.str _).member <| (Small.str _).member <|
    (items_exact V1.ViewRows.eventReading_exact _).member <|
      (items_exact V1.ViewRows.subjectReading_exact _).member <|
        (items_exact V1.ViewRows.revision_exact _).member <|
          (items_exact V1.ViewRows.edgeReading_exact _).member <|
            (items_exact V1.ViewRows.mediaReading_exact _).member <|
              (authority_exact _).member .empty

theorem subject_exact (s : V1.Snapshot) (r : EntityRead) : Small (2 ^ 53) (subjectJson s r) :=
  (rule_exact _).member <| (Small.str _).member <| (Small.str _).member <|
    (asOf_exact _).member <| (Small.str _).member <| (Small.str _).member <|
      (items_exact (fun _ => Small.str _) _).member <| (revision_exact _).member <|
        (Small.str _).member .empty

theorem prose_exact (s : V1.Snapshot) (r : V1.Revision) (a : Availability) :
    Small (2 ^ 53) (proseJson s r a) := by
  refine (V1.ViewRows.revision_exact _).member <| (Small.str _).member <| Small.member ?_ <|
    (rule_exact _).member <| (Small.str _).member <| (Small.str _).member .empty
  split
  · exact .null
  · exact .str _

theorem reason_exact (r : SupportReason) : Small (2 ^ 53) (reasonJson r) :=
  (Small.str _).member <| (hash_exact.option _).member <| (hash_exact.option _).member .empty

theorem supportValue_exact : ∀ v : Support, Small (2 ^ 53) (supportValue v)
  | .supported _ _ => Small.member
    ((hashes_exact _).member <| (items_exact reason_exact _).member .empty) .empty
  | .unsupported _ => Small.member ((items_exact reason_exact _).member .empty) .empty

theorem support_read_exact (s : V1.Snapshot) (source target : Hash) (asOf : Option Hash)
    (v : Support) : Small (2 ^ 53) (supportJson s source target asOf v) :=
  (rule_exact _).member <| (Small.str _).member <| (Small.str _).member <|
    (asOf_exact _).member <| (Small.str _).member <| (Small.str _).member <|
      (supportValue_exact _).member .empty

/-! ## What a client reads -/

/-- The client reads a number `n` as `f n`, which is `n` if a double holds it or if it is taken for
an integer. -/
structure Dialect.Reads (d : Dialect) (f : Nat → Nat) : Prop where
  load : d.load = reread f
  same : ∀ n < 2 ^ 53, f n = n
  exact : d.Exact
  taken : ∀ n, d.integer (f n) = true → f n = n

theorem python_reads : python.Reads id :=
  ⟨funext fun v => (Json.reread_eq v fun _ _ => rfl).symm, fun _ _ => rfl, python_exact,
    fun _ _ => rfl⟩

theorem typescript_integer {n : Nat} : typescript.integer (double n) = true ↔ n < 2 ^ 53 := by
  have hint : typescript.integer (double n) = decide (double n ≤ 2 ^ 53 - 1) := rfl
  rw [hint, decide_eq_true_iff]
  constructor
  · intro hle
    by_contra hlt
    have := Json.le_double (Nat.le_of_not_lt hlt)
    omega
  · intro hlt
    rw [Json.double_eq hlt]
    omega

theorem typescript_reads : typescript.Reads double :=
  ⟨rfl, fun _ => Json.double_eq, typescript_exact, fun _ h =>
    Json.double_eq (typescript_integer.1 h)⟩

section
variable {d : Dialect} {f : Nat → Nat} (reads : d.Reads f)
include reads

theorem Dialect.Reads.reread_exact {v : Value} (h : Small (2 ^ 53) v) : reread f v = v :=
  Json.reread_eq v fun n hn => reads.same n (h n hn)

theorem Dialect.Reads.load_exact {v : Value} (h : Small (2 ^ 53) v) : d.load v = v := by
  rw [reads.load, reads.reread_exact h]

/-- Of a receipt only its time may be read as another number. -/
theorem Dialect.Reads.receipt (cr : Crypto) (r : SignedReceipt) :
    reread f (receiptJson cr r) = receiptAt cr r (f r.receipt.receivedAt.toNat) := by
  have hfold := reads.reread_exact (fold_exact r.receipt.foldVersion)
  have hencoding := reads.reread_exact (number_exact r.receipt.encodingVersion)
  have hmissing := reads.reread_exact
    (items_exact (f := fun h => .str (hex h)) (fun _ => Small.str _)
      r.receipt.initialAdmissionResult.missing)
  simp only [receiptJson, reread, Json.rereadMembers, receiptAt] at hfold hencoding hmissing ⊢
  rw [hfold, hencoding, hmissing]

theorem Dialect.Reads.receipts (cr : Crypto) (event : String) (found : List SignedReceipt) :
    d.load (receiptsJson cr event found) =
      receiptsAt cr event (found.map fun r => (r, f r.receipt.receivedAt.toNat)) := by
  rw [reads.load]
  simp only [receiptsJson, receiptsAt, reread, Json.rereadMembers, Json.rereadItems_eq,
    List.map_map, Function.comp_def, reads.receipt cr]

end

end Clockchain.Public
