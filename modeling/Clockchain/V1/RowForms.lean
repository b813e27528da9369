import Clockchain.JsonForms
import Clockchain.BigEndian
import Clockchain.V1.CanonicalRows

/-!
# The forms of an envelope

Each derived form of `cc-core/src/v1.rs` reads what it writes.
-/

namespace Clockchain.V1.ViewRows
open Json Json.Members
set_option autoImplicit false

theorem hash_faithful : hash.Faithful := by
  intro h
  have hbytes : ((Codec.beBytes 32 h.toNat).map fun b => Json.Value.num b.toNat).mapM
      (Form.number 8).get = some ((Codec.beBytes 32 h.toNat).map UInt8.toBitVec) := by
    have hput : ((Codec.beBytes 32 h.toNat).map fun b => Json.Value.num b.toNat) =
        ((Codec.beBytes 32 h.toNat).map UInt8.toBitVec).map (Form.number 8).put := by
      rw [List.map_map]
      rfl
    rw [hput]
    exact Form.mapM_put (Form.number_faithful 8) _
  have hback : ((Codec.beBytes 32 h.toNat).map UInt8.toBitVec).map (fun b => UInt8.ofBitVec b) =
      Codec.beBytes 32 h.toNat := by
    rw [List.map_map]
    exact List.map_id _
  change (do
    let bytes ← ((Codec.beBytes 32 h.toNat).map fun b => Json.Value.num b.toNat).mapM
      (Form.number 8).get
    if bytes.length = 32 then
      some (BitVec.ofNat 256 (Codec.beNat (bytes.map fun b => .ofBitVec b)))
    else none) = some h
  rw [hbytes, Option.bind_eq_bind, Option.bind_some, List.length_map, Codec.beBytes_length, hback,
    if_pos rfl, Codec.beNat_beBytes (lt_of_lt_of_eq h.isLt (by decide)), BitVec.ofNat_toNat,
    BitVec.setWidth_eq]

theorem hash_solid : hash.Solid := by
  rintro h ⟨⟩

theorem hashes_faithful : hashes.Faithful := hash_faithful.list

theorem optionHash_faithful : hash.option.Faithful := hash_faithful.option hash_solid

theorem subjectKey_faithful : subjectKey.Faithful :=
  (((field_faithful _ Form.text_faithful).pair ((field_faithful _ Form.text_faithful).pair
    (field_faithful _ Form.text_faithful))).record fun _ => rfl).lenient (by decide)

theorem assertedTime_faithful : assertedTime.Faithful :=
  (((field_faithful _ hash_faithful).pair (field_faithful _ Form.text_faithful)).record
    fun _ => rfl).lenient (by decide)

theorem pin_faithful : pin.Faithful :=
  (((field_faithful _ hash_faithful).pair ((field_faithful _ hash_faithful).pair
    ((field_faithful _ hash_faithful).pair (field_faithful _ hash_faithful)))).record
      fun _ => rfl).lenient (by decide)

theorem pins_faithful : pins.Faithful :=
  (((field_faithful _ pin_faithful).pair (field_faithful _ pin_faithful)).record
    fun _ => rfl).lenient (by decide)

theorem parentPins_faithful : parentPins.Faithful :=
  (((field_faithful _ hash_faithful).pair (field_faithful _ pins_faithful)).record
    fun _ => rfl).lenient (by decide)

theorem kind_faithful : kind.Faithful := by
  intro k
  cases k <;> rfl

theorem dispositionKind_faithful : dispositionKind.Faithful := by
  intro k
  cases k <;> rfl

theorem targetKind_faithful : targetKind.Faithful := by
  intro k
  cases k <;> rfl

theorem disposition_faithful : disposition.Faithful :=
  (((field_faithful _ hash_faithful).pair ((field_faithful _ dispositionKind_faithful).pair
    (field_faithful _ Form.text_faithful))).record fun _ => rfl).lenient (by decide)

theorem grantFields_faithful : grantFields.Faithful :=
  ((field_faithful _ hash_faithful).pair (field_faithful _ hash_faithful)).lenient (by decide)

theorem revokedGrantFields_faithful : revokedGrantFields.Faithful :=
  ((field_faithful _ hash_faithful).pair (field_faithful _ Form.flag_faithful)).lenient (by decide)

/-- A variant that carries something is read by the reader under its name. -/
theorem variant_carrying {α β : Type} (units : List (String × α)) (f : Form β) (make : β → α)
    {carrying : List (String × (Json.Value → Option α))} {name : String}
    (hread : carrying.lookup name = some fun v => make <$> f.get v) (hf : f.Faithful)
    (solid : f.Solid) (b : β) :
    Form.variant units carrying (.obj [(name, f.put b)]) = some (make b) := by
  have hvalue : ∀ v, v ≠ .null → Form.variant units carrying (.obj [(name, v)]) =
      (carrying.lookup name).bind fun read => read v := by
    intro v hv
    cases v with
    | null => exact absurd rfl hv
    | _ => rfl
  rw [hvalue _ (solid b), hread]
  change make <$> f.get (f.put b) = some (make b)
  rw [hf b]
  rfl

theorem value_faithful : value.Faithful := by
  let units : List (String × V1.Value) := [("None", .none)]
  intro v
  cases v with
  | none => rfl
  | body body => exact variant_carrying units hash .body rfl hash_faithful hash_solid body
  | grant issuer grantee =>
    exact variant_carrying units grantFields (fun x => .grant x.1 x.2) rfl grantFields_faithful
      (lenient_solid _) (issuer, grantee)
  | activeGrant grant =>
    exact variant_carrying units hash .activeGrant rfl hash_faithful hash_solid grant
  | revokedGrant grant cascade =>
    exact variant_carrying units revokedGrantFields (fun x => .revokedGrant x.1 x.2) rfl
      revokedGrantFields_faithful (lenient_solid _) (grant, cascade)
  | heads heads =>
    exact variant_carrying units hashes .heads rfl hashes_faithful (Form.list_solid _) heads
  | revision revision =>
    exact variant_carrying units hash .revision rfl hash_faithful hash_solid revision
  | pins p => exact variant_carrying units pins .pins rfl pins_faithful (lenient_solid _) p
  | parentPins ps =>
    exact variant_carrying units (.list parentPins) .parentPins rfl parentPins_faithful.list
      (Form.list_solid _) ps

theorem decision_faithful : decision.Faithful :=
  (((field_faithful _ kind_faithful).pair ((field_faithful _ Form.text_faithful).pair
    ((field_faithful _ hashes_faithful).pair ((field_faithful _ hashes_faithful).pair
      ((field_faithful _ value_faithful).pair (field_faithful _ value_faithful)))))).record
        fun _ => rfl).lenient (by decide)

theorem selection_faithful : selection.Faithful := by
  let units : List (String × Selection) := []
  intro s
  cases s with
  | revision revision =>
    exact variant_carrying units hash .revision rfl hash_faithful hash_solid revision
  | mergedBody body =>
    exact variant_carrying units hash .mergedBody rfl hash_faithful hash_solid body

theorem genesisFields_faithful : genesisFields.Faithful :=
  ((field_faithful _ hash_faithful).pair ((field_faithful _ hash_faithful).pair
    (field_faithful _ hashes_faithful))).lenient (by decide)

theorem correctionFields_faithful : correctionFields.Faithful :=
  ((field_faithful _ hash_faithful).pair (field_faithful _ decision_faithful)).lenient (by decide)

theorem delegateFields_faithful : delegateFields.Faithful :=
  ((field_faithful _ hash_faithful).pair ((field_faithful _ hash_faithful).pair
    (field_faithful _ decision_faithful))).lenient (by decide)

theorem revokeFields_faithful : revokeFields.Faithful :=
  ((field_faithful _ hash_faithful).pair ((field_faithful _ Form.flag_faithful).pair
    (field_faithful _ decision_faithful))).lenient (by decide)

theorem resolveFields_faithful : resolveFields.Faithful :=
  ((field_faithful _ selection_faithful).pair ((field_faithful _ disposition_faithful.list).pair
    (field_faithful _ decision_faithful))).lenient (by decide)

theorem edgeAssertFields_faithful : edgeAssertFields.Faithful :=
  ((field_faithful _ Form.text_faithful).pair ((field_faithful _ pins_faithful).pair
    (field_faithful _ decision_faithful))).lenient (by decide)

theorem edgeReaffirmFields_faithful : edgeReaffirmFields.Faithful :=
  ((field_faithful _ hash_faithful).pair ((field_faithful _ parentPins_faithful.list).pair
    ((field_faithful _ pins_faithful).pair (field_faithful _ decision_faithful)))).lenient
      (by decide)

theorem attestationFields_faithful : attestationFields.Faithful :=
  ((field_faithful _ targetKind_faithful).pair ((field_faithful _ hash_faithful).pair
    ((field_faithful _ Form.text_faithful).pair (field_faithful _ hash_faithful)))).lenient
      (by decide)

theorem payload_faithful : payload.Faithful := by
  let units : List (String × Payload) := []
  intro p
  cases p with
  | genesis nonce body evidence =>
    exact variant_carrying units genesisFields (fun x => .genesis x.1 x.2.1 x.2.2) rfl
      genesisFields_faithful (lenient_solid _) (nonce, body, evidence)
  | correction body decision =>
    exact variant_carrying units correctionFields (fun x => .correction x.1 x.2) rfl
      correctionFields_faithful (lenient_solid _) (body, decision)
  | delegate grantee issuer decision =>
    exact variant_carrying units delegateFields (fun x => .delegate x.1 x.2.1 x.2.2) rfl
      delegateFields_faithful (lenient_solid _) (grantee, issuer, decision)
  | revoke target cascade decision =>
    exact variant_carrying units revokeFields (fun x => .revoke x.1 x.2.1 x.2.2) rfl
      revokeFields_faithful (lenient_solid _) (target, cascade, decision)
  | resolve selection dispositions decision =>
    exact variant_carrying units resolveFields (fun x => .resolve x.1 x.2.1 x.2.2) rfl
      resolveFields_faithful (lenient_solid _) (selection, dispositions, decision)
  | edgeAssert relation pins decision =>
    exact variant_carrying units edgeAssertFields (fun x => .edgeAssert x.1 x.2.1 x.2.2) rfl
      edgeAssertFields_faithful (lenient_solid _) (relation, pins, decision)
  | edgeReaffirm edge old new decision =>
    exact variant_carrying units edgeReaffirmFields
      (fun x => .edgeReaffirm x.1 x.2.1 x.2.2.1 x.2.2.2) rfl edgeReaffirmFields_faithful
      (lenient_solid _) (edge, old, new, decision)
  | attestation targetKind target artifactKind artifact =>
    exact variant_carrying units attestationFields
      (fun x => .attestation x.1 x.2.1 x.2.2.1 x.2.2.2) rfl attestationFields_faithful
      (lenient_solid _) (targetKind, target, artifactKind, artifact)

/-- An envelope is read from its document as it was written. -/
theorem envelope_faithful : envelope.Faithful :=
  (((field_faithful _ hash_faithful).pair ((field_faithful _ hash_faithful).pair
    ((optional_faithful _ optionHash_faithful).pair
      ((optional_faithful _ (subjectKey_faithful.option (lenient_solid _))).pair
        ((optional_faithful _ optionHash_faithful).pair ((field_faithful _ hashes_faithful).pair
          ((optional_faithful _ (assertedTime_faithful.option (lenient_solid _))).pair
            (field_faithful _ payload_faithful)))))))).record fun _ => rfl).lenient (by decide)

end Clockchain.V1.ViewRows
