import Clockchain.V1.RoundTrip
import Clockchain.V1.Rows
import Clockchain.V1.Store

/-!
# What the store retains

Every row a call has written is verified again to what it was, so `judge` sees the candidates
as they were admitted, and its fold never panics.
-/

namespace Clockchain.V1
open Codec Maps Programs
set_option autoImplicit false

/-! ## The receipt is read back -/

theorem u64_faithful : u64.Faithful := number_faithful WireError.truncated 8

theorem admission_faithful : admission.Faithful := tags_faithful (by decide)

theorem foldRef_faithful : foldRef.Faithful := (u16_faithful.pair hash_faithful).record fun _ => rfl

theorem initialResult_faithful : initialResult.Faithful :=
  (admission_faithful.pair (text_faithful.pair hashes_faithful)).record fun _ => rfl

theorem nodeReceipt_faithful : nodeReceipt.Faithful :=
  (hash_faithful.pair (hash_faithful.pair (hash_faithful.pair (u64_faithful.pair
    (u16_faithful.pair (foldRef_faithful.pair initialResult_faithful)))))).record fun _ => rfl

theorem receipt_preimage_ok {r : NodeReceiptV1} {p : Bytes} : r.preimage = .ok p ↔
    r.encodingVersion = canonVersion ∧ r.initialAdmissionResult.Consistent ∧
    fields [text.put "cc.receipt.v1", nodeReceipt.put r] = .ok p ∧
    p.length + 64 ≤ maxEnvelope := by
  simp only [NodeReceiptV1.preimage, bind_ok, unless_ok, Nat.not_lt, gt_iff_lt, not_not, ne_eq]
  refine and_congr_right fun _ => and_congr_right fun _ => ?_
  constructor
  · rintro ⟨bytes, h, hlen, hp⟩
    obtain rfl := Except.ok.inj hp
    exact ⟨h, hlen⟩
  · rintro ⟨h, hlen⟩
    exact ⟨p, h, hlen, rfl⟩

theorem receipt_reads {r : NodeReceiptV1} {p : Bytes} (h : r.preimage = .ok p) :
    Reads getReceipt p r := by
  obtain ⟨-, -, hput, -⟩ := receipt_preimage_ok.mp h
  refine Reads.field (text_faithful _) hput fun cs h => .past (not_not.mpr rfl) ?_
  obtain ⟨b, c, hb, hc, rfl⟩ := fields_cons.mp h
  obtain rfl := fields_nil.mp hc
  rw [List.append_nil]
  exact nodeReceipt_faithful r b hb

theorem receipt_decode_ok {cr : Crypto} {verify : Verify} {b : Bytes} {r : SignedReceipt} :
    SignedReceipt.decode cr verify b = .ok r ↔ ∃ p sig, r.receipt.preimage = .ok p ∧
      sig.length = 64 ∧ b = p ++ sig ∧ cr.authorKey r.receipt.nodeKey ∧
      verify r.receipt.nodeKey p sig ∧ r.bytes = b := by
  have reads : ∀ (r : NodeReceiptV1) p, r.preimage = .ok p →
      Reads getReceipt p r ∧ p.length + 64 ≤ maxEnvelope := fun r p hp =>
    ⟨receipt_reads hp, (receipt_preimage_ok.mp hp).2.2.2⟩
  simp only [SignedReceipt.decode, bind_ok, openSigned_ok reads]
  constructor
  · rintro ⟨o, ⟨sig, hlen, hb, hkey, hsig⟩, hr⟩
    obtain rfl := Except.ok.inj hr
    exact ⟨o.preimage, sig, o.written, hlen, hb, hkey, hsig, rfl⟩
  · rintro ⟨p, sig, hp, hlen, hb, hkey, hsig, hbytes⟩
    obtain ⟨receipt, bytes⟩ := r
    obtain rfl : bytes = b := hbytes
    exact ⟨⟨receipt, p, hp⟩, ⟨sig, hlen, hb, hkey, hsig⟩, rfl⟩

/-- What Ed25519 promises of a key pair. -/
structure SecretKey.Works (cr : Crypto) (verify : Verify) (key : SecretKey) : Prop where
  author : cr.authorKey key.author
  verified : ∀ p, verify key.author p (key.signMessage p)

theorem sign_ok {cr : Crypto} {verify : Verify} {key : SecretKey} (works : key.Works cr verify)
    {r : NodeReceiptV1} {s : SignedReceipt} : SignedReceipt.sign cr verify key r = .ok s ↔
      ∃ p, { r with nodeKey := key.author }.preimage = .ok p ∧
        s = ⟨{ r with nodeKey := key.author }, p ++ key.signMessage p⟩ := by
  simp only [SignedReceipt.sign, bind_ok]
  refine exists_congr fun p => and_congr_right fun hp => ?_
  have hdecode : SignedReceipt.decode cr verify (p ++ key.signMessage p) =
      .ok ⟨{ r with nodeKey := key.author }, p ++ key.signMessage p⟩ :=
    receipt_decode_ok.mpr
      ⟨p, key.signMessage p, hp, key.length p, rfl, works.author, works.verified p, rfl⟩
  rw [hdecode, Except.ok.injEq, eq_comm]

section
variable {cr : Crypto} {verify : Verify} {store : Store} {t : Tables}

/-- What the writers of the tables keep. -/
structure Store.Sound (cr : Crypto) (verify : Verify) (store : Store) (t : Tables) : Prop where
  candidate : ∀ {id : Hash} {wire : Bytes}, t.candidates[id]? = some wire →
    ∃ d, decode cr verify wire = .ok d ∧ d.id = id ∧ d.envelope.instanceId = store.instanceId
  receipt : ∀ {digest event : Hash} {wire : Bytes}, t.receipts[digest]? = some (event, wire) →
    digest = cr.sha256 wire ∧ event ∈ t.candidates ∧
      ∃ r, SignedReceipt.decode cr verify wire = .ok r ∧ r.receipt.event = event

theorem retained_ok {row : Hash × Bytes} {d : Decoded} :
    store.retained cr verify row = .ok d ↔ decode cr verify row.2 = .ok d ∧
      d.envelope.instanceId = store.instanceId ∧ d.id = row.1 := by
  unfold Store.retained
  cases decode cr verify row.2 with
  | error e => simp
  | ok s =>
    dsimp only
    split
    · next h =>
      simp only [reduceCtorEq, Except.ok.injEq, false_iff]
      rintro ⟨rfl, hi, hd⟩
      exact h.elim (fun h => h hi) fun h => h hd.symm
    · next h =>
      rw [not_or, not_not, not_not] at h
      simp only [Except.ok.injEq]
      constructor
      · rintro rfl
        exact ⟨rfl, h.1, h.2.symm⟩
      · exact fun h => h.1

theorem verified_spec (sound : store.Sound cr verify t) :
    ∃ all, store.verifiedCandidates cr verify t = .ok all ∧ ∀ (id : Hash) (d : Decoded),
      all[id]? = some d ↔
        ∃ wire, t.candidates[id]? = some wire ∧ decode cr verify wire = .ok d := by
  have total : ∀ row ∈ t.candidates.toList, ∃ d, store.retained cr verify row = .ok d ∧
      d.id = row.1 := by
    rintro ⟨id, wire⟩ hrow
    obtain ⟨d, hd, hid, hinst⟩ := sound.candidate
      (Std.ExtTreeMap.mem_toList_iff_getElem?_eq_some.mp hrow)
    exact ⟨d, retained_ok.mpr ⟨hd, hinst, hid⟩, hid⟩
  obtain ⟨rows, hrows, hkeys, hmem⟩ := mapM_ok total
  have hnodup : ((rows.map fun s => (s.id, s)).map Prod.fst).Nodup := by
    rw [List.map_map]
    exact hkeys ▸ nodup_fst_toList _
  refine ⟨_, by rw [Store.verifiedCandidates, hrows]; rfl, fun id d => ?_⟩
  rw [getElem?_ofList hnodup]
  simp only [List.mem_map, Prod.mk.injEq, exists_eq_right_right, hmem, retained_ok, Prod.exists,
    Std.ExtTreeMap.mem_toList_iff_getElem?_eq_some]
  constructor
  · rintro ⟨⟨id', wire, hwire, hd, -, rfl⟩, rfl⟩
    exact ⟨wire, hwire, hd⟩
  · rintro ⟨wire, hwire, hd⟩
    obtain ⟨d', hd', hid, hinst⟩ := sound.candidate hwire
    obtain rfl := Except.ok.inj (hd'.symm.trans hd)
    exact ⟨⟨id, wire, hwire, hd, hinst, hid⟩, hid⟩

theorem verified_mem (sound : store.Sound cr verify t) {all : BTreeMap Decoded}
    (hall : store.verifiedCandidates cr verify t = .ok all) {r : Hash} :
    r ∈ all ↔ r ∈ t.candidates := by
  obtain ⟨all', hall', hspec⟩ := verified_spec sound
  obtain rfl := Except.ok.inj (hall'.symm.trans hall)
  rw [mem_iff, mem_iff]
  constructor
  · rintro ⟨d, hd⟩
    obtain ⟨wire, hwire, -⟩ := (hspec r d).mp hd
    exact ⟨wire, hwire⟩
  · rintro ⟨wire, hwire⟩
    obtain ⟨d, hd, -⟩ := sound.candidate hwire
    exact ⟨d, (hspec r d).mpr ⟨wire, hwire, hd⟩⟩

theorem mem_candidatesOf {all : BTreeMap Decoded} {r : Hash} : r ∈ candidatesOf all ↔ r ∈ all :=
  Std.ExtTreeMap.mem_map

/-- The candidates that `judge` folds, with the event in hand. -/
theorem judge_candidate (sound : store.Sound cr verify t) {bytes : Bytes} {d : Decoded}
    (hd : decode cr verify bytes = .ok d) (hinst : d.envelope.instanceId = store.instanceId)
    (free : ∀ all, store.verifiedCandidates cr verify t = .ok all →
      CollisionFree cr (candidatesOf (all.insert d.id d))) :
    ∃ all out s, ∃ A : Authority, ∃ st, store.verifiedCandidates cr verify t = .ok all ∧
      Verdicts cr (candidatesOf (all.insert d.id d)) out s ∧ out[d.id]? = some st ∧
      store.judge cr verify t bytes = some (.ok (.candidate d st A.effects[d.id]?)) := by
  obtain ⟨all, hall, -⟩ := verified_spec sound
  obtain ⟨out, s, A, p, -, verdicts, hanalyze, -⟩ := project_spec (free all hall)
  have hmem : d.id ∈ out := by
    refine (verdicts.mem d.id).mpr ?_
    simp [candidatesOf]
  obtain ⟨st, hst⟩ := mem_iff.mp hmem
  refine ⟨all, out, s, A, st, hall, verdicts, hst, ?_⟩
  have hok : ¬ d.envelope.instanceId ≠ store.instanceId := not_not.mpr hinst
  unfold Store.judge
  rw [hd]
  simp only [if_neg hok, hall, lift_ok, hanalyze, lift_some, hst]
  rfl

theorem admit_judged {bytes : Bytes} {now : BitVec 64} {node : Option SecretKey}
    {o : Option (SecretKey × FilterIdentity)}
    {judged : Judged} (ho : store.observer cr node = .ok o)
    (h : store.judge cr verify t bytes = some (.ok judged)) :
    store.admitOnce cr verify t bytes node now =
      some (store.record cr verify t bytes o now judged) := by
  unfold Store.admitOnce
  rw [ho, lift_ok, h]
  rfl

/-- What a call judged was read from its bytes. -/
theorem judge_decoded {bytes : Bytes} {d : Decoded} {st : Status} {au : Option Effect}
    (h : store.judge cr verify t bytes = some (.ok (.candidate d st au))) :
    decode cr verify bytes = .ok d ∧ d.envelope.instanceId = store.instanceId := by
  unfold Store.judge at h
  split at h
  · cases h
  · next d' hd =>
    split at h
    · cases h
    · next hinst =>
      obtain ⟨all, -, h⟩ := lift_bind_ok.mp h
      obtain ⟨analysis, -, h⟩ := run_bind_ok.mp h
      split at h
      · cases h
      · obtain rfl : d' = d := (Judged.candidate.inj (Except.ok.inj (Option.some.inj h))).1
        exact ⟨hd, not_not.mp hinst⟩

theorem receiptFor_decoded {key : SecretKey} {instanceId event : Hash} {filter : FilterIdentity}
    {st : Status} {now : BitVec 64} {r : SignedReceipt}
    (h : receiptFor cr verify key instanceId filter event st now = .ok r) :
    SignedReceipt.decode cr verify r.bytes = .ok r ∧ r.receipt.event = event := by
  simp only [receiptFor] at h
  split at h
  · next r' hsign =>
    obtain rfl := Except.ok.inj h
    obtain ⟨p, hp, hdecode⟩ := bind_ok.mp hsign
    obtain ⟨q, sig, hq, hlen, hb, -, -, hbytes⟩ := receipt_decode_ok.mp hdecode
    obtain rfl : p = q := (List.append_inj' hb ((key.length p).trans hlen.symm)).1
    refine ⟨hbytes ▸ hdecode, ?_⟩
    rw [(receipt_reads hq).unique (receipt_reads hp)]
  · cases h

theorem observe_decoded {observer : Option (SecretKey × FilterIdentity)} {inserted : Bool}
    {id : Hash} {st : Status} {now : BitVec 64} {r : SignedReceipt}
    (h : store.observe cr verify observer inserted id st now = .ok (some r)) :
    SignedReceipt.decode cr verify r.bytes = .ok r ∧ r.receipt.event = id := by
  unfold Store.observe at h
  split at h
  · next key filter =>
    split at h
    · cases hr : receiptFor cr verify key store.instanceId filter id st now with
      | error e => rw [hr] at h; cases h
      | ok r' =>
        rw [hr] at h
        obtain rfl : r' = r := Option.some.inj (Except.ok.inj h)
        exact receiptFor_decoded hr
    · cases h
  · cases h

/-- The tables after an admission hold what was there and, if anything, its event. -/
theorem record_candidates {bytes : Bytes} {observer : Option (SecretKey × FilterIdentity)}
    {now : BitVec 64} {judged : Judged} {a : Recorded}
    (h : store.record cr verify t bytes observer now judged = .ok a) :
    a.tables.candidates = match judged with
      | .rejected _ => t.candidates
      | .candidate d _ _ => t.candidates.insertIfNew d.id bytes := by
  cases judged with
  | rejected reason =>
    obtain rfl := Except.ok.inj h
    rfl
  | candidate d st au =>
    obtain ⟨receipt, -, h⟩ := bind_ok.mp h
    obtain ⟨tables, hkeep, h⟩ := bind_ok.mp h
    obtain rfl := Except.ok.inj h
    cases receipt with
    | none =>
      obtain rfl := Except.ok.inj hkeep
      rfl
    | some r =>
      simp only [Store.keepReceipt] at hkeep
      split at hkeep
      · cases hkeep
      · obtain rfl := Except.ok.inj hkeep
        rfl

/-- The receipts after an admission are those that were there and, if any, the new one. -/
theorem record_receipts {bytes : Bytes} {observer : Option (SecretKey × FilterIdentity)}
    {now : BitVec 64} {judged : Judged} {a : Recorded}
    (h : store.record cr verify t bytes observer now judged = .ok a) {digest event : Hash}
    {wire : Bytes} (hrow : a.tables.receipts[digest]? = some (event, wire)) :
    t.receipts[digest]? = some (event, wire) ∨ digest = cr.sha256 wire ∧
      event ∈ a.tables.candidates ∧
      ∃ r, SignedReceipt.decode cr verify wire = .ok r ∧ r.receipt.event = event := by
  have hcandidates := record_candidates h
  cases judged with
  | rejected reason =>
    obtain rfl := Except.ok.inj h
    exact Or.inl hrow
  | candidate d st au =>
    obtain ⟨receipt, hobserve, h⟩ := bind_ok.mp h
    obtain ⟨tables, hkeep, h⟩ := bind_ok.mp h
    obtain rfl := Except.ok.inj h
    cases receipt with
    | none =>
      obtain rfl := Except.ok.inj hkeep
      exact Or.inl hrow
    | some r =>
      simp only [Store.keepReceipt] at hkeep
      split at hkeep
      · cases hkeep
      · obtain rfl := Except.ok.inj hkeep
        rw [getElem?_insert] at hrow
        split_ifs at hrow with hdigest
        · obtain ⟨rfl, rfl⟩ := Prod.mk.inj (Option.some.inj hrow)
          obtain ⟨hdecode, hevent⟩ := observe_decoded hobserve
          exact Or.inr ⟨hdigest.symm, mem_insertIfNew.mpr (Or.inl rfl), r, hdecode, hevent⟩
        · exact Or.inl hrow

theorem Store.Sound.admission (sound : store.Sound cr verify t) {bytes : Bytes}
    {node : Option SecretKey} {now : BitVec 64} {a : Recorded}
    (h : store.admitOnce cr verify t bytes node now = some (.ok a)) :
    store.Sound cr verify a.tables := by
  obtain ⟨observer, -, h⟩ := lift_bind_ok.mp h
  obtain ⟨judged, hjudged, h⟩ := run_bind_ok.mp h
  have hrecord : store.record cr verify t bytes observer now judged = .ok a := Option.some.inj h
  have hcandidates := record_candidates hrecord
  have hkeep : ∀ id ∈ t.candidates, id ∈ a.tables.candidates := by
    intro id hid
    rw [hcandidates]
    cases judged with
    | rejected reason => exact hid
    | candidate d st au => exact mem_insertIfNew.mpr (Or.inr hid)
  refine ⟨fun {id wire} hid => ?_, fun {digest event wire} hrow => ?_⟩
  · rw [hcandidates] at hid
    cases judged with
    | rejected reason => exact sound.candidate hid
    | candidate d st au =>
      rcases getElem?_insertIfNew.mp hid with hid | ⟨-, rfl, rfl⟩
      · exact sound.candidate hid
      · obtain ⟨hd, hinst⟩ := judge_decoded hjudged
        exact ⟨d, hd, rfl, hinst⟩
  · rcases record_receipts hrecord hrow with hrow | hnew
    · obtain ⟨hdigest, hevent, hr⟩ := sound.receipt hrow
      exact ⟨hdigest, hkeep event hevent, hr⟩
    · exact hnew

theorem Store.Sound.retain (sound : store.Sound cr verify t) {bytes : Bytes} {t' : Tables}
    (h : store.retainReceipt cr verify t bytes = .ok t') : store.Sound cr verify t' := by
  unfold Store.retainReceipt at h
  split at h
  · cases h
  · next r hr =>
    split_ifs at h with hinst hevent
    obtain rfl := Except.ok.inj h
    refine ⟨sound.candidate, fun {digest event wire} hrow => ?_⟩
    rcases getElem?_insertIfNew.mp hrow with hrow | ⟨-, hdigest, hrow⟩
    · exact sound.receipt hrow
    · obtain ⟨rfl, rfl⟩ := Prod.mk.inj hrow
      exact ⟨hdigest, by simpa using hevent, r, hr, rfl⟩

/-- The tables that calls on a fresh store can lead to. -/
inductive Store.Reachable (cr : Crypto) (verify : Verify) (store : Store) : Tables → Prop where
  | fresh (ruleIdentity : Option (FoldRef × Bytes)) :
      Reachable cr verify store ⟨∅, ∅, ∅, ruleIdentity⟩
  | admission {t : Tables} {bytes : Bytes} {node : Option SecretKey} {now : BitVec 64}
      {a : Recorded} :
      Reachable cr verify store t →
      store.admitOnce cr verify t bytes node now = some (.ok a) →
      Reachable cr verify store a.tables
  | retain {t t' : Tables} {bytes : Bytes} : Reachable cr verify store t →
      store.retainReceipt cr verify t bytes = .ok t' → Reachable cr verify store t'

theorem Store.Reachable.sound (h : store.Reachable cr verify t) : store.Sound cr verify t := by
  induction h with
  | fresh ruleIdentity => exact ⟨fun h => by simp at h, fun h => by simp at h⟩
  | admission _ h ih => exact ih.admission h
  | retain _ h ih => exact ih.retain h

end

end Clockchain.V1
