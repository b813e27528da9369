import Clockchain.V0.Ticks

/-!
# The canonical preimage is read back

`parse_event` takes back what `canon_event` wrote: every field of a content-addressed
event but its author and record time, and of an attestation its target, author and record
time. Two events with one preimage differ only in what it leaves out.
-/

namespace Clockchain.V0
open Codec Programs
open V1 (Hash BTreeMap Crypto Verify)
set_option autoImplicit false

/-! ## Primitives -/

theorem framed_faithful : framed.Faithful := by
  intro x bs h
  simp only [framed] at h ⊢
  split at h
  · cases h
  · next hlt =>
    simp only [fields_cons, fields_nil] at h
    obtain ⟨b, _, hb, ⟨c, _, hc, rfl, rfl⟩, rfl⟩ := h
    obtain rfl := Except.ok.inj hc
    have hlen : (BitVec.ofNat 32 x.length).toNat = x.length := by
      rw [BitVec.toNat_ofNat, Nat.mod_eq_of_lt (by omega)]
    have htake := take_reads CoreError.malformedPayload x
    rw [← hlen] at htake
    rw [List.append_nil]
    refine (number_faithful .malformedPayload 4 _ _ hb).bind ?_
    exact htake

theorem text_faithful : text.Faithful := by
  intro s bs h
  rw [← List.append_nil bs]
  refine (framed_faithful _ _ h).bind ?_
  have hvalid : String.fromUTF8? ⟨s.toUTF8.data.toList.toArray⟩ = some s := by
    unfold String.fromUTF8?
    exact dif_pos s.isValidUTF8
  rw [hvalid]
  exact .pure s

theorem tag_faithful {α : Type} [DecidableEq α] {table : List α} (hall : ∀ a, a ∈ table)
    (hlen : table.length ≤ 256) : (tag table).Faithful := by
  intro a bs h
  have hlt : table.idxOf a < table.length := List.idxOf_lt_length_of_mem (hall a)
  rw [← List.append_nil bs]
  refine (number_faithful .malformedPayload 1 _ _ h).bind ?_
  rw [BitVec.toNat_ofNat, Nat.mod_eq_of_lt (by omega), List.getElem?_idxOf (hall a)]
  exact .pure a

theorem tick_faithful : tick.Faithful :=
  (number_faithful CoreError.malformedPayload 32).record Tick.ofCanon_toCanon

theorem window_faithful : window.Faithful := by
  have hclosure : closureState.Faithful :=
    tag_faithful (fun a => by cases a <;> decide) (by decide)
  have hstart : startState.Faithful := tag_faithful (fun a => by cases a <;> decide) (by decide)
  refine (hclosure.pair (hstart.pair (tick_faithful.pair tick_faithful))).record fun w => ?_
  obtain ⟨start, finish⟩ := w
  cases start <;> cases finish <;> rfl

theorem supersedesFlag_faithful : supersedesFlag.Faithful := by
  have hflag : (tag [false, true]).Faithful :=
    tag_faithful (fun a => by cases a <;> decide) (by decide)
  exact hflag.optional (number_faithful CoreError.malformedPayload 32)

/-! ## Bodies and events -/

theorem body_reads {body : EventBody} {bs : Bytes} (hbody : ∀ a, body ≠ .attestation a)
    (h : putBody body = .ok bs) : Reads (getBody body.dst.toUTF8.data.toList) bs body := by
  have hid := number_faithful CoreError.malformedPayload 8
  have hhash := number_faithful CoreError.malformedPayload 32
  cases body with
  | attestation a => exact absurd rfl (hbody a)
  | entityCreate e =>
    exact Reads.field (hid e.entityId) h fun _ h => Reads.field (text_faithful _) h fun _ h =>
      Reads.field (text_faithful _) h fun _ h => Reads.field (window_faithful _) h
        (Reads.last (EventBody.entityCreate e))
  | moment m =>
    have hne : ¬ dstMoment.toUTF8.data.toList = dstEntity.toUTF8.data.toList := by decide
    refine Reads.past hne ?_
    exact Reads.field (hid m.subject) h fun _ h => Reads.field (hhash _) h
      (Reads.last (EventBody.moment m))
  | edge ed =>
    have hrelation : edgeRelation.Faithful :=
      tag_faithful (fun a => by cases a <;> decide) (by decide)
    have hclass : evidenceClass.Faithful :=
      tag_faithful (fun a => by cases a <;> decide) (by decide)
    have hne : ¬ dstEdge.toUTF8.data.toList = dstEntity.toUTF8.data.toList := by decide
    have hne' : ¬ dstEdge.toUTF8.data.toList = dstMoment.toUTF8.data.toList := by decide
    refine Reads.past hne (Reads.past hne' ?_)
    exact Reads.field (hid ed.src) h fun _ h => Reads.field (hid ed.dst) h fun _ h =>
      Reads.field (hrelation _) h fun _ h => Reads.field (hclass _) h
        (Reads.last (EventBody.edge ed))
  | vocabularyDeclare v =>
    have hne : ¬ dstVocab.toUTF8.data.toList = dstEntity.toUTF8.data.toList := by decide
    have hne' : ¬ dstVocab.toUTF8.data.toList = dstMoment.toUTF8.data.toList := by decide
    have hne'' : ¬ dstVocab.toUTF8.data.toList = dstEdge.toUTF8.data.toList := by decide
    refine Reads.past hne (Reads.past hne' (Reads.past hne'' ?_))
    exact Reads.field (number_faithful CoreError.malformedPayload 4 v.claimType) h fun _ h =>
      Reads.field (text_faithful _) h fun _ h => Reads.field (window_faithful _) h
        (Reads.last (EventBody.vocabularyDeclare v))

/-- What a payload and its envelope columns say about an event. -/
def EventContent.readBack (c : EventContent) (eventTime recordTime : Tick) (author : Hash) :
    EventContent :=
  match c.body with
  | .attestation a => ⟨eventTime, c.recordTime, c.author, none, .attestation a⟩
  | body => ⟨c.eventTime, recordTime, author, c.supersedes, body⟩

theorem content_reads (cr : Crypto) {c : EventContent} (hkey : cr.authorKey c.author = true)
    {bs : Bytes} (h : canonEvent c = .ok bs) (eventTime recordTime : Tick) (author : Hash) :
    Reads (getContent cr eventTime recordTime author) bs
      (c.readBack eventTime recordTime author) := by
  refine Reads.field (framed_faithful _) h fun _ h =>
    Reads.field (number_faithful CoreError.malformedPayload 2 _) h fun _ h =>
    Reads.field (number_faithful CoreError.malformedPayload 2 _) h fun bs h => ?_
  obtain ⟨bs, _, hcontent, hnil, rfl⟩ := fields_cons.mp h
  obtain rfl := fields_nil.mp hnil
  rw [List.append_nil]
  have hhash := number_faithful CoreError.malformedPayload 32
  cases hb : c.body with
  | attestation a =>
    simp only [canonFields, hb] at hcontent
    have hdst : (EventBody.attestation a).dst.toUTF8.data.toList =
        dstAttest.toUTF8.data.toList := rfl
    rw [if_pos hdst]
    refine Reads.field (hhash _) hcontent fun _ h => Reads.field (hhash _) h fun _ h => ?_
    refine Reads.past (by simp [hkey]) ?_
    simp only [EventContent.readBack, hb]
    exact Reads.field (tick_faithful c.recordTime) h (Reads.last _)
  | _ =>
    rename_i x
    simp only [canonFields, hb] at hcontent
    rw [if_neg (by simp only [EventBody.dst]; decide)]
    refine Reads.field (tick_faithful _) hcontent fun _ h =>
      Reads.field (supersedesFlag_faithful _) h fun bs h => ?_
    obtain ⟨bs, _, hbody, hnil, rfl⟩ := fields_cons.mp h
    obtain rfl := fields_nil.mp hnil
    simp only [EventContent.readBack, hb]
    exact (body_reads (by simp) hbody).bind (Reads.last _ [] rfl)

theorem parseEvent_canon (cr : Crypto) {c : EventContent} (hkey : cr.authorKey c.author = true)
    {bs : Bytes} (h : canonEvent c = .ok bs) (eventTime recordTime : Tick) (author : Hash) :
    parseEvent cr bs eventTime recordTime author =
      .ok (c.readBack eventTime recordTime author) := by
  have hread := content_reads cr hkey h eventTime recordTime author []
  rw [List.append_nil] at hread
  rw [parseEvent, hread]
  rfl

/-- The fields a preimage pins down. -/
def EventContent.SameIdentity (c d : EventContent) : Prop :=
  ∀ eventTime recordTime author,
    c.readBack eventTime recordTime author = d.readBack eventTime recordTime author

theorem canonEvent_injective (cr : Crypto) {c d : EventContent}
    (hc : cr.authorKey c.author = true) (hd : cr.authorKey d.author = true) {bs : Bytes}
    (h : canonEvent c = .ok bs) (h' : canonEvent d = .ok bs) : c.SameIdentity d := by
  intro eventTime recordTime author
  have hread := (parseEvent_canon cr hc h eventTime recordTime author).symm.trans
    (parseEvent_canon cr hd h' eventTime recordTime author)
  exact Except.ok.inj hread

theorem EventContent.SameIdentity.body {c d : EventContent} (h : c.SameIdentity d) :
    c.body = d.body := by
  have hread := congrArg EventContent.body (h 0 0 0)
  unfold EventContent.readBack at hread
  cases hc : c.body <;> cases hd : d.body <;> simp_all

/-- A content-addressed event also has its coordinate and lineage in its preimage. -/
theorem EventContent.SameIdentity.lineage {c d : EventContent} (h : c.SameIdentity d)
    (hbody : ∀ a, c.body ≠ .attestation a) :
    c.eventTime = d.eventTime ∧ c.supersedes = d.supersedes := by
  have hsame := h.body
  have hread := h 0 0 0
  unfold EventContent.readBack at hread
  cases hc : c.body with
  | attestation a => exact absurd hc (hbody a)
  | _ =>
    rw [← hsame, hc] at hread
    simp only [EventContent.mk.injEq] at hread
    exact ⟨hread.1, hread.2.2.2.1⟩

/-- An attestation has its author and record time in its preimage. -/
theorem EventContent.SameIdentity.attester {c d : EventContent} (h : c.SameIdentity d)
    {a : AttestationBody} (hbody : c.body = .attestation a) :
    c.author = d.author ∧ c.recordTime = d.recordTime := by
  have hsame := h.body
  have hread := h 0 0 0
  unfold EventContent.readBack at hread
  rw [← hsame, hbody] at hread
  simp only [EventContent.mk.injEq] at hread
  exact ⟨hread.2.2.1, hread.2.1⟩

end Clockchain.V0
