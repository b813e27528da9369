import Clockchain.Public.Routes
import Clockchain.V1.Restore
import Mathlib.Data.BitVec

/-!
# Agreement of the clients

Both public clients return what the node has computed, or raise the refusal that the node or its
gateway names.
-/

namespace Clockchain.Public
open Gateway (Reply refusal)
open Json (double)
open V1 (Hash Crypto Verify)
open V1.Publisher (hex)
set_option autoImplicit false

theorem returned_python (read : Read) : read.returned python id = .ok read :=
  if_pos fun _ _ => rfl

theorem returned_typescript (read : Read) : read.returned typescript double =
    if ∀ t ∈ read.times, t < 2 ^ 53 then .ok read
    else .error (.protocol (.wrongType "received_at")) := by
  simp only [Read.returned, typescript_integer]
  rfl

/-- Both clients raise the refusal of the answer as it is named. -/
def Raised (cr : Crypto) (reply : Reply) (q : Question) : Prop :=
  ∃ status error, reply = refusal status error ∧
    parse python (q.call python cr.sha256) reply = .error (.api status error) ∧
    parse typescript (q.call typescript cr.sha256) reply = .error (.api status error)

/-- Both clients return the read that the node has computed, but for receipts of a time that a
double does not hold: the TypeScript client refuses these. A snapshot is summarized, with the
revision that the node shows of each resolved subject. -/
structure Delivered (cr : Crypto) (verify : Verify) (n : Node) (reply : Reply) (q : Question)
    (read : Read) : Prop where
  computed : Computed cr verify n q read
  python : parse python (q.call python cr.sha256) reply = .ok read
  typescript : parse typescript (q.call typescript cr.sha256) reply =
    if ∀ t ∈ read.times, t < 2 ^ 53 then .ok read
    else .error (.protocol (.wrongType "received_at"))
  summarized : ∀ snapshot, read = .snapshot snapshot → ∃ s xs, snapshot = .of s ∧
    summarizeSubjects snapshot = .ok xs ∧
    List.Forall₂ (Summarizes s.projection) s.projection.subjects xs

/-- Whatever the store of a node holds, both clients make the same request of an accepted call, and
they raise the refusal of the answer or return the read that the node has computed. -/
theorem clients_agree (cr : Crypto) (verify : Verify) (n : Node) (free : n.Free cr verify)
    (maxBody : Nat) (barred : Option Barred) (asked : Asked) (py : Call)
    (hasked : asked.call python cr.sha256 = some py) :
    ∃ q : Question, asked = q.asked ∧ py = q.call python cr.sha256 ∧
      asked.call typescript cr.sha256 = some (q.call typescript cr.sha256) ∧
      (q.call typescript cr.sha256).request = py.request ∧
      (Raised cr (answer cr verify maxBody n barred py.request) q ∨
        ∃ read, Delivered cr verify n (answer cr verify maxBody n barred py.request) q read) := by
  obtain ⟨q, rfl, rfl⟩ := call_question hasked
  refine ⟨q, rfl, rfl, q.asked_call, q.request_eq typescript python cr.sha256, ?_⟩
  rcases settled barred free q with ⟨status, error, hrefusal, hstatus⟩ | ⟨read, computed, hparse⟩
  · have hok : (q.call typescript cr.sha256).ok = (q.call python cr.sha256).ok := by cases q <;> rfl
    refine .inl ⟨status, error, hrefusal, ?_, ?_⟩
    · rw [hrefusal, parse_refusal python_reads hstatus]
    · rw [hrefusal, parse_refusal typescript_reads (hok ▸ hstatus)]
  · refine .inr ⟨read, computed, ?_, ?_, ?_⟩
    · rw [hparse python id python_reads, returned_python]
    · rw [hparse typescript double typescript_reads, returned_typescript]
    · rintro snapshot rfl
      cases computed with
      | snapshot hs =>
        obtain ⟨-, -, C, out, A, subjects, projected, verdicts⟩ := snapshot_spec free hs
        obtain ⟨xs, hxs, hall⟩ := summarize_snapshot projected verdicts rfl
        exact ⟨_, xs, rfl, hxs, hall⟩

/-! ## Ada's node -/

/-- A node that holds the event of `ada`. -/
def Sample.adaNode (d : V1.Decoded) : Node :=
  ⟨1, V1.Sample.adaFilter, "ada", .live, .ready, V1.Sample.adaTables [(d.id, d.bytes)], ∅⟩

theorem Sample.adaNode_free {d : V1.Decoded}
    (hd : V1.decode V1.Sample.adaCrypto V1.Sample.adaVerify d.bytes = .ok d)
    (he : d.envelope = V1.Sample.ada) (hid : d.id = V1.Sample.adaId) :
    (Sample.adaNode d).Free V1.Sample.adaCrypto V1.Sample.adaVerify := by
  intro all hall
  refine V1.Sample.ada_free fun r hr => ?_
  rw [V1.mem_candidatesOf, V1.verified_mem (V1.Sample.adaTables_sound hd he) hall] at hr
  exact (V1.Sample.adaTables_mem.1 hr).trans hid

theorem Sample.adaNode_answer {d : V1.Decoded}
    (hd : V1.decode V1.Sample.adaCrypto V1.Sample.adaVerify d.bytes = .ok d)
    (he : d.envelope = V1.Sample.ada) (hid : d.id = V1.Sample.adaId) :
    ∃ s : V1.Snapshot, answer V1.Sample.adaCrypto V1.Sample.adaVerify
      (Gateway.size (snapshotJson s)) (Sample.adaNode d) none ⟨["snapshot"], []⟩ =
        (200, snapshotJson s) := by
  obtain ⟨all, hall, -⟩ := V1.verified_spec (V1.Sample.adaTables_sound hd he)
  obtain ⟨s, hs, -⟩ := V1.exists_snapshot (Sample.adaNode_free hd he hid all hall)
    V1.Sample.adaFilter
  have bound := V1.Sample.adaStore_bound [(d.id, d.bytes)]
  have hsnapshot : (Sample.adaNode d).store.snapshot V1.Sample.adaCrypto V1.Sample.adaVerify
      (Sample.adaNode d).tables none = some (.ok s) :=
    V1.snapshot_ok (bound.ready (by simp)) hall hs
  have hreply : (Sample.adaNode d).reply V1.Sample.adaCrypto V1.Sample.adaVerify
      ⟨["v1", "snapshot"], []⟩ = some (200, snapshotJson s) := by
    change reading _ _ _ none (fun s => some (200, snapshotJson s)) = _
    rw [reading, hsnapshot]
    rfl
  have hforward : forwarded ⟨["snapshot"], []⟩ = some ⟨["v1", "snapshot"], []⟩ := rfl
  refine ⟨s, ?_⟩
  unfold answer
  simp only [hforward, hreply, respond, Except.bind, Gateway.received, Nat.lt_irrefl, if_false]
  rfl

/-- The node is asked for a snapshot, and both clients return the one it holds. -/
theorem clients_agree_ada : ∃ (d : V1.Decoded) (s : V1.Snapshot) (q : Question) (read : Read),
    d.envelope = V1.Sample.ada ∧ Asked.snapshot none none = q.asked ∧
    answer V1.Sample.adaCrypto V1.Sample.adaVerify (Gateway.size (snapshotJson s))
      (Sample.adaNode d) none ⟨["snapshot"], []⟩ = (200, snapshotJson s) ∧
    Delivered V1.Sample.adaCrypto V1.Sample.adaVerify (Sample.adaNode d) (200, snapshotJson s) q
      read := by
  obtain ⟨d, hd, he, hid, -, -⟩ := V1.Sample.ada_decodes
  obtain ⟨s, hanswer⟩ := Sample.adaNode_answer hd he hid
  obtain ⟨q, hq, -, -, -, h⟩ := clients_agree V1.Sample.adaCrypto V1.Sample.adaVerify
    (Sample.adaNode d) (Sample.adaNode_free hd he hid) (Gateway.size (snapshotJson s)) none
    (.snapshot none none) (snapshotCall python none) rfl
  change Raised _ (answer _ _ _ _ _ ⟨["snapshot"], []⟩) q ∨
    ∃ read, Delivered _ _ _ (answer _ _ _ _ _ ⟨["snapshot"], []⟩) q read at h
  rw [hanswer] at h
  rcases h with ⟨status, error, hrefusal, -⟩ | ⟨read, hread⟩
  · simp [refusal, snapshotJson, named] at hrefusal
  · exact ⟨d, s, q, read, he, hq, hanswer, hread⟩

/-! ## A late receipt -/

namespace Sample
open V1 (SignedReceipt NodeReceiptV1 Tables)
open V1.Sample (alice bob ada adaId adaCrypto adaVerify adaFilter adaStore adaTables)

/-- What Bob's node observes of Ada's event when its clock stands at `2 ^ 53` microseconds. -/
def lateReceipt : NodeReceiptV1 :=
  ⟨1, bob, adaId, 2 ^ 53, V1.canonVersion, adaFilter.fold, ⟨.valid, "", []⟩⟩

/-- Bob's signature of `lateReceipt`. -/
def lateSignature : Codec.Bytes := Codec.beBytes 64
  0x2ea825e423c985b5a552d04189886ab5f28cb1ed62b99bf7756502748b1b115e94afc9176e419027f9f5e822c9cd26753e6510d917271da4d49ffff9b64b6d0d

/-- SHA-256 of the signed receipt, by its length, and of what is hashed about `ada`. -/
def lateCrypto : Crypto where
  sha256 bytes :=
    if bytes.length = 231 then 0xfe0582746cf26b1b5111153fd549ce0293133923fb1b592efe2ca4f6bd885e68
    else adaCrypto.sha256 bytes
  authorKey key := [alice, bob].contains key

def lateVerify : Verify := fun key p sig =>
  adaVerify key p sig || (key = bob && p.length = 167 && sig = lateSignature)

def lateNode (t : Tables) : Node := ⟨1, adaFilter, "late", .live, .ready, t, ∅⟩

theorem late_preimage : ∃ p, lateReceipt.preimage = .ok p ∧ p.length = 167 := by
  have h : (lateReceipt.preimage.toOption.map List.length) = some 167 := by decide +kernel
  cases hp : lateReceipt.preimage with
  | error e => simp [hp, Except.toOption] at h
  | ok p =>
    rw [hp] at h
    exact ⟨p, rfl, Option.some.inj h⟩

theorem late_signed : ∃ r : SignedReceipt, SignedReceipt.decode lateCrypto lateVerify r.bytes =
    .ok r ∧ r.receipt = lateReceipt := by
  obtain ⟨p, hp, hlength⟩ := late_preimage
  refine ⟨⟨lateReceipt, p ++ lateSignature⟩, V1.receipt_decode_ok.2 ⟨p, lateSignature, hp,
    Codec.beBytes_length _ _, rfl, ?_, ?_, rfl⟩, rfl⟩
  · change [alice, bob].contains bob = true
    decide
  · simp [lateVerify, lateReceipt, hlength]

theorem late_decodes : ∃ d : V1.Decoded, V1.decode lateCrypto lateVerify d.bytes = .ok d ∧
    d.envelope = ada ∧ d.id = adaId := by
  have hdigest : ∀ p : Codec.Bytes, p.length = 192 → p.getD 3 0 = 11 →
      lateCrypto.sha256 p = adaId := by
    intro p hlen hbyte
    simp only [lateCrypto, adaCrypto, hlen, hbyte]
    rfl
  have hverify : ∀ p : Codec.Bytes, p.length = 192 →
      lateVerify alice p V1.Sample.adaSignature = true := by
    intro p hlen
    simp [lateVerify, adaVerify, hlen]
  obtain ⟨d, hd, he, hid, -⟩ := V1.Sample.ada_decoded hdigest (by decide) hverify
  exact ⟨d, hd, he, hid⟩

theorem late_sound {d : V1.Decoded} (hd : V1.decode lateCrypto lateVerify d.bytes = .ok d)
    (he : d.envelope = ada) (hid : d.id = adaId) :
    adaStore.Sound lateCrypto lateVerify (adaTables [(adaId, d.bytes)]) :=
  hid ▸ V1.Sample.adaTables_sound hd he

/-- The tables with the receipt retained. -/
def lateTables (rows : List (Hash × Codec.Bytes)) (r : SignedReceipt) : Tables :=
  { adaTables rows with
    receipts := (∅ : V1.BTreeMap _).insertIfNew (lateCrypto.sha256 r.bytes) (adaId, r.bytes) }

section
variable {r : SignedReceipt} (wire : Codec.Bytes)
variable (hr : SignedReceipt.decode lateCrypto lateVerify r.bytes = .ok r)
variable (hreceipt : r.receipt = lateReceipt)
include hr hreceipt

theorem late_retained : adaStore.retainReceipt lateCrypto lateVerify (adaTables [(adaId, wire)])
    r.bytes = .ok (lateTables [(adaId, wire)] r) := by
  have hmem : (adaTables [(adaId, wire)]).candidates.contains adaId = true :=
    Std.ExtTreeMap.contains_iff_mem.2 (V1.Sample.adaTables_mem.2 rfl)
  simp only [V1.Store.retainReceipt, hr, hreceipt]
  simp [lateReceipt, adaStore, hmem]
  rfl

theorem late_receipts : receiptsOf lateCrypto lateVerify (lateNode (lateTables [(adaId, wire)] r))
    adaId = .ok [r] := by
  have hlist : (lateTables [(adaId, wire)] r).receipts.toList =
      [(lateCrypto.sha256 r.bytes, (adaId, r.bytes))] := rfl
  unfold receiptsOf
  change ((lateTables [(adaId, wire)] r).receipts.toList.filter _).mapM _ = _
  rw [hlist]
  simp [hr, hreceipt, lateReceipt, lateNode, pure, Except.pure, bind, Except.bind]

theorem late_answer : answer lateCrypto lateVerify
    (Gateway.size (receiptsJson lateCrypto (hex adaId) [r]))
    (lateNode (lateTables [(adaId, wire)] r)) none ⟨["receipts", hex adaId], []⟩ =
      (200, receiptsJson lateCrypto (hex adaId) [r]) := by
  have hreply : (lateNode (lateTables [(adaId, wire)] r)).reply lateCrypto lateVerify
      ⟨["v1", "receipts", hex adaId], []⟩ =
        some (200, receiptsJson lateCrypto (hex adaId) [r]) := by
    have hstrict : strict [] [] = some ([].lookup ·) := rfl
    change some (receiptsRoute lateCrypto lateVerify _ (hex adaId) []) = _
    simp only [receiptsRoute, hstrict, hex32_hex, late_receipts wire hr hreceipt]
  have hforward : forwarded ⟨["receipts", hex adaId], []⟩ =
      some ⟨["v1", "receipts", hex adaId], []⟩ := by
    change some (Request.mk ["v1", "receipts", segment (hex adaId)] _) = _
    rw [segment_hex]
  unfold answer
  simp only [hforward, hreply, respond, Except.bind, Gateway.received, Nat.lt_irrefl, if_false]
  rfl

end

end Sample

/-- A retained receipt of `2 ^ 53` microseconds is returned by the Python client and refused by the
TypeScript client. -/
theorem late_receipt_disagrees : ∃ (d : V1.Decoded) (r : V1.SignedReceipt) (t : V1.Tables),
    d.envelope = V1.Sample.ada ∧ V1.Sample.adaStore.Sound Sample.lateCrypto Sample.lateVerify
      (V1.Sample.adaTables [(V1.Sample.adaId, d.bytes)]) ∧
    V1.Sample.adaStore.retainReceipt Sample.lateCrypto Sample.lateVerify
      (V1.Sample.adaTables [(V1.Sample.adaId, d.bytes)]) r.bytes = .ok t ∧
    r.receipt = Sample.lateReceipt ∧ ∃ py ts maxBody,
      (Asked.receipt (hex V1.Sample.adaId)).call python Sample.lateCrypto.sha256 = some py ∧
      (Asked.receipt (hex V1.Sample.adaId)).call typescript Sample.lateCrypto.sha256 = some ts ∧
      parse python py (answer Sample.lateCrypto Sample.lateVerify maxBody (Sample.lateNode t) none
        py.request) = .ok (.receipts (.of Sample.lateCrypto V1.Sample.adaId [r])) ∧
      parse typescript ts (answer Sample.lateCrypto Sample.lateVerify maxBody (Sample.lateNode t)
        none ts.request) = .error (.protocol (.wrongType "received_at")) := by
  obtain ⟨d, hd, he, hid⟩ := Sample.late_decodes
  obtain ⟨r, hr, hreceipt⟩ := Sample.late_signed
  have hanswer := Sample.late_answer d.bytes hr hreceipt
  have hread : ∀ c f, Dialect.Reads c f → parse c (receiptCall c Sample.lateCrypto.sha256
      (hex V1.Sample.adaId)) (200, receiptsJson Sample.lateCrypto (hex V1.Sample.adaId) [r]) =
        (Read.receipts (.of Sample.lateCrypto V1.Sample.adaId [r])).returned c f := fun c f reads =>
    (parse_served (reads.receipts _ _ _) rfl List.mem_cons_self).trans (receipts_returned reads
      (List.cons_ne_nil _ _) (receiptsOf_spec (Sample.late_receipts d.bytes hr hreceipt)))
  refine ⟨d, r, _, he, Sample.late_sound hd he hid, Sample.late_retained d.bytes hr hreceipt,
    hreceipt, _, _, Gateway.size (receiptsJson Sample.lateCrypto (hex V1.Sample.adaId) [r]),
    (Question.receipt V1.Sample.adaId).asked_call, (Question.receipt V1.Sample.adaId).asked_call,
    ?_, ?_⟩
  · refine (congrArg _ hanswer).trans ?_
    exact (hread _ _ python_reads).trans (returned_python _)
  · refine (congrArg _ hanswer).trans ?_
    refine (hread _ _ typescript_reads).trans ((returned_typescript _).trans (if_neg fun h => ?_))
    have hlate := h Sample.lateReceipt.receivedAt.toNat (by
      simp [Read.times, Receipts.of, NodeReceipt.of, hreceipt])
    exact absurd hlate (by decide)

end Clockchain.Public
