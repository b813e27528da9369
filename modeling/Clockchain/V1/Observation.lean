import Clockchain.V1.Retention
import Clockchain.V1.Shapes
import Clockchain.V1.Totality

/-!
# Receipts observe

Signing a receipt changes nothing of an admission, and it succeeds for every verdict but one: a
reaffirmation that misses its edge and as many parents as a set may hold.
-/

namespace Clockchain.V1
open Codec Maps Programs
set_option autoImplicit false

/-! ## Which receipts can be signed -/

theorem sortedSet_increasing (l : List Hash) : Increasing (sortedSet l) := by
  refine List.Pairwise.isChain (Std.ExtTreeSet.ordered_toList.imp fun h => ?_)
  exact compareOfLessAndEq_eq_lt.mp h

theorem hashes_takes {refs : List Hash} (hn : refs.length ≤ maxSet) (hinc : Increasing refs) :
    Takes (hashes.put refs) (4 + refs.length * 32) := by
  have hset : ¬ (refs.length > maxSet ∨ ¬ Increasing (refs.map id)) := by
    rw [List.map_id]
    exact not_or.mpr ⟨Nat.not_lt.mpr hn, not_not.mpr hinc⟩
  simp only [hashes, set, if_neg hset]
  exact (takes_number _ 4 _).cons (Takes.items (fun h => takes_number _ 32 h) refs)

theorem hashes_refused {refs : List Hash} (hn : maxSet < refs.length) :
    ¬ Writes (hashes.put refs) := by
  rintro ⟨bs, h⟩
  simp only [hashes, set, if_pos (Or.inl hn : refs.length > maxSet ∨ _)] at h
  cases h

theorem text_takes {s : String} (hs : s.utf8ByteSize ≤ maxEnvelope) :
    Takes (text.put s) (4 + s.utf8ByteSize) := by
  simp only [text, if_neg (Nat.not_lt.mpr hs)]
  exact (takes_number _ 4 _).cons (Takes.cons (n := 0) ⟨_, rfl, rfl⟩ takes_nil)

theorem admission_takes (a : Admission) : Takes (admission.put a) 2 := by
  cases a <;> exact ⟨_, rfl, rfl⟩

theorem text_small (r : Reason) : r.text.utf8ByteSize ≤ 64 := by
  cases r <;> decide

theorem text_empty {r : Reason} : r.text = "" ↔ r = .none := by
  cases r <;> decide

/-- The result a receipt states for a status. -/
def Status.result (st : Status) : InitialResult :=
  ⟨match st.state with
    | .valid => .valid
    | .pending => .pending
    | .invalid => .invalid, st.reason.text, sortedSet st.missing⟩

theorem Status.Shaped.consistent {n : Nat} {st : Status} (h : st.Shaped n) :
    st.result.Consistent := by
  have hnil : sortedSet [] = [] := rfl
  cases h with
  | valid => simp [Status.result, InitialResult.Consistent, Status.valid, hnil, text_empty]
  | invalid hr =>
    simp [Status.result, InitialResult.Consistent, Status.invalid, hnil, text_empty, hr]
  | pending hr _ => simp [Status.result, InitialResult.Consistent, Status.pending, text_empty, hr]

theorem nodeReceipt_takes {r : NodeReceiptV1} {st : Status}
    (hr : r.initialAdmissionResult = st.result) (hn : (sortedSet st.missing).length ≤ maxSet) :
    Takes (nodeReceipt.put r) (32 + (32 + (32 + (8 + (2 + ((2 + 32) + (2 +
      ((4 + st.reason.text.utf8ByteSize) + (4 + (sortedSet st.missing).length * 32))))))))) := by
  have hresult : Takes (initialResult.put r.initialAdmissionResult) (2 +
      ((4 + st.reason.text.utf8ByteSize) + (4 + (sortedSet st.missing).length * 32))) := by
    rw [hr]
    refine Takes.pair (admission_takes _) (Takes.pair (text_takes ?_) ?_)
    · exact (text_small _).trans (by decide)
    · exact hashes_takes hn (sortedSet_increasing _)
  have hhash : ∀ h, Takes (hash.put h) 32 := fun h => takes_number _ 32 h
  refine Takes.pair (hhash _) (Takes.pair (hhash _) (Takes.pair (hhash _) (Takes.pair ?_ ?_)))
  · exact takes_number _ 8 _
  · exact Takes.pair (takes_number _ 2 _)
      (Takes.pair (Takes.pair (takes_number _ 2 _) (hhash _)) hresult)

section
variable {cr : Crypto} {verify : Verify} {key : SecretKey} (works : key.Works cr verify)
variable {instanceId event : Hash} {filter : FilterIdentity} {st : Status} {now : BitVec 64}

/-- What a node states about an admission. -/
def observation (key : SecretKey) (instanceId : Hash) (filter : FilterIdentity) (event : Hash)
    (st : Status) (now : BitVec 64) : NodeReceiptV1 :=
  ⟨instanceId, key.author, event, now, canonVersion, filter.fold, st.result⟩

include works

theorem receiptFor_ok {r : SignedReceipt} :
    receiptFor cr verify key instanceId filter event st now = .ok r ↔
      ∃ p, (observation key instanceId filter event st now).preimage = .ok p ∧
        r = ⟨observation key instanceId filter event st now, p ++ key.signMessage p⟩ := by
  refine Iff.trans ?_ (sign_ok works (r := ⟨instanceId, 0, event, now, canonVersion, filter.fold,
    st.result⟩))
  unfold receiptFor Status.result
  cases st.state <;> dsimp only <;> split <;> rename_i hsign
  all_goals
    rw [hsign]
    simp

/-- Every verdict whose missing events fit into a set has a receipt. -/
theorem receiptFor_some (h : st.Shaped maxSet) :
    ∃ r, receiptFor cr verify key instanceId filter event st now = .ok r := by
  have hn : (sortedSet st.missing).length ≤ maxSet :=
    (sortedSet_length _).trans h.missing_length
  obtain ⟨p, hp, hlen⟩ := (text_takes (s := "cc.receipt.v1") (by decide)).cons
    ((nodeReceipt_takes (r := observation key instanceId filter event st now) rfl hn).cons
      takes_nil)
  have hmax : p.length + 64 ≤ maxEnvelope := by
    have hreason := text_small st.reason
    have hdomain : "cc.receipt.v1".utf8ByteSize = 13 := rfl
    simp only [maxSet, maxEnvelope] at hn ⊢
    omega
  exact ⟨_, (receiptFor_ok works).mpr
    ⟨p, receipt_preimage_ok.mpr ⟨rfl, h.consistent, hp, hmax⟩, rfl⟩⟩

/-- A verdict that misses more events has none. -/
theorem receiptFor_none (h : maxSet < (sortedSet st.missing).length) :
    receiptFor cr verify key instanceId filter event st now = .error .receipt := by
  cases hr : receiptFor cr verify key instanceId filter event st now with
  | ok r =>
    obtain ⟨p, hp, -⟩ := (receiptFor_ok works).mp hr
    have hput : Writes (fields [text.put "cc.receipt.v1",
        nodeReceipt.put (observation key instanceId filter event st now)]) :=
      ⟨p, (receipt_preimage_ok.mp hp).2.2.1⟩
    simp only [writes_cons, nodeReceipt, initialResult, writes_record, writes_pair] at hput
    exact absurd hput.2.1.2.2.2.2.2.2.2.2 (hashes_refused h)
  | error e =>
    simp only [receiptFor] at hr
    split at hr
    · cases hr
    · rw [← hr]

end

/-! ## Admission with and without an observer -/

/-- What of an admission is no receipt. -/
def Recorded.semantic (a : Recorded) : Outcome × BTreeMap Bytes × BTreeMap String :=
  (a.outcome, a.tables.candidates, a.tables.rejections)

/-- The call returns the same outcome, candidates and rejections when the key observes it. -/
def Store.Unobserved (cr : Crypto) (verify : Verify) (store : Store) (t : Tables) (bytes : Bytes)
    (key : SecretKey) (now : BitVec 64) : Prop :=
  (store.admitOnce cr verify t bytes (some key) now).run.map (Except.map Recorded.semantic) =
    (store.admitOnce cr verify t bytes none now).run.map (Except.map Recorded.semantic)

/-- A new reaffirmation that misses its edge and all of its `MAX_SET` parents. -/
def Store.Overflows (cr : Crypto) (verify : Verify) (store : Store) (t : Tables) (bytes : Bytes) :
    Prop :=
  ∃ d edge old new decision, decode cr verify bytes = .ok d ∧
    d.envelope.instanceId = store.instanceId ∧ d.id ∉ t.candidates ∧ d.envelope.Bare ∧
    d.envelope.payload = .edgeReaffirm edge old new decision ∧
    d.envelope.parents.length = maxSet ∧ edge ∉ d.envelope.parents ∧
    ∀ r ∈ edge :: d.envelope.parents, r ≠ d.id ∧ r ∉ t.candidates

/-- The candidates with the event in hand have no two derived ids in common. -/
def Store.Free (cr : Crypto) (verify : Verify) (store : Store) (t : Tables) (bytes : Bytes) :
    Prop :=
  ∀ all d, store.verifiedCandidates cr verify t = .ok all → decode cr verify bytes = .ok d →
    CollisionFree cr (candidatesOf (all.insert d.id d))

/-- No retained receipt has the digest of another receipt for the event in hand. -/
def Store.ReceiptFree (cr : Crypto) (verify : Verify) (store : Store) (t : Tables) (bytes : Bytes)
    (key : SecretKey) (filter : FilterIdentity) (now : BitVec 64) : Prop :=
  ∀ {d st r}, decode cr verify bytes = .ok d →
    receiptFor cr verify key store.instanceId filter d.id st now = .ok r →
    ∀ {digest event : Hash} {wire : Bytes}, t.receipts[digest]? = some (event, wire) →
      cr.sha256 wire = cr.sha256 r.bytes → wire = r.bytes

section
variable {cr : Crypto} {verify : Verify} {store : Store} {t : Tables} {bytes : Bytes}
variable {key : SecretKey} {filter : FilterIdentity} {now : BitVec 64}

theorem unobserved_iff (hrule : store.rule = some filter) {judged : Judged}
    (h : store.judge cr verify t bytes = some (.ok judged)) :
    store.Unobserved cr verify t bytes key now ↔
      (store.record cr verify t bytes (some (key, filter)) now judged).map Recorded.semantic =
        (store.record cr verify t bytes none now judged).map Recorded.semantic := by
  have hkey : store.observer cr (some key) = .ok (some (key, filter)) := by
    simp only [Store.observer, Store.bound, hrule]
    rfl
  unfold Store.Unobserved
  rw [admit_judged hkey h, admit_judged rfl h]
  exact Option.some_inj

/-- A retained candidate is not observed again. -/
theorem record_retained {d : Decoded} {st : Status} {au : Option Effect}
    {o : Option (SecretKey × FilterIdentity)} (hd : d.id ∈ t.candidates) :
    store.record cr verify t bytes o now (.candidate d st au) =
      store.record cr verify t bytes none now (.candidate d st au) := by
  have hinserted : (!t.candidates.contains d.id) = false := by simpa using hd
  cases o with
  | none => rfl
  | some o =>
    unfold Store.record
    simp only [hinserted]
    rfl

theorem record_refused {d : Decoded} {st : Status} {au : Option Effect} (hd : d.id ∉ t.candidates)
    (hreceipt : receiptFor cr verify key store.instanceId filter d.id st now = .error .receipt) :
    store.record cr verify t bytes (some (key, filter)) now (.candidate d st au) =
      .error .receipt := by
  have hinserted : (!t.candidates.contains d.id) = true := by simpa using hd
  unfold Store.record
  simp only [hinserted, Store.observe, hreceipt]
  rfl

theorem record_observed {d : Decoded} {st : Status} {au : Option Effect} {r : SignedReceipt}
    (hd : d.id ∉ t.candidates)
    (hreceipt : receiptFor cr verify key store.instanceId filter d.id st now = .ok r)
    (hfree : cr.sha256 r.bytes ∉ t.receipts) :
    (store.record cr verify t bytes (some (key, filter)) now (.candidate d st au)).map
        Recorded.semantic =
      (store.record cr verify t bytes none now (.candidate d st au)).map Recorded.semantic := by
  have hinserted : (!t.candidates.contains d.id) = true := by simpa using hd
  have hdigest : t.receipts.contains (cr.sha256 r.bytes) = false := by simpa using hfree
  have hkeep : Store.keepReceipt cr { t with candidates := t.candidates.insertIfNew d.id bytes }
      d.id (some r) = .ok { t with
        candidates := t.candidates.insertIfNew d.id bytes
        receipts := t.receipts.insert (cr.sha256 r.bytes) (d.id, r.bytes) } := by
    simp [Store.keepReceipt, hdigest]
  have hobserve : store.observe cr verify (some (key, filter)) (!t.candidates.contains d.id) d.id
      st now = .ok (some r) := by
    simp only [Store.observe, hinserted, hreceipt]
    rfl
  unfold Store.record
  dsimp only
  rw [hobserve]
  change Except.map _ (Store.keepReceipt cr _ d.id (some r) >>= _) = _
  rw [hkeep]
  rfl

/-- A rejection is the same whoever observes it. -/
theorem judge_rejected (h : ∀ d, decode cr verify bytes = .ok d →
      d.envelope.instanceId ≠ store.instanceId) :
    ∃ reason, store.judge cr verify t bytes = some (.ok (.rejected reason)) := by
  unfold Store.judge
  cases hd : decode cr verify bytes with
  | error e => exact ⟨e.text, rfl⟩
  | ok d =>
    refine ⟨"wrong_instance", ?_⟩
    dsimp only
    rw [if_pos (h d hd)]
    rfl

theorem sortedSet_length_nodup {l : List Hash} (h : l.Nodup) : (sortedSet l).length = l.length := by
  refine Nat.le_antisymm (sortedSet_length l) ?_
  exact (List.subperm_of_subset h fun r hr => sortedSet_mem.mpr hr).length_le

/-- The verdict on an event decides whether it can be observed. -/
theorem receipt_refused_iff (sound : store.Sound cr verify t) {all : BTreeMap Decoded}
    (hall : store.verifiedCandidates cr verify t = .ok all) {out : BTreeMap Status} {s : Subjects}
    {d : Decoded} (hd : decode cr verify bytes = .ok d)
    (hinst : d.envelope.instanceId = store.instanceId) (hnew : d.id ∉ t.candidates)
    (verdicts : Verdicts cr (candidatesOf (all.insert d.id d)) out s) {st : Status}
    (hst : out[d.id]? = some st) :
    (store.Overflows cr verify t bytes → maxSet < (sortedSet st.missing).length) ∧
      (¬ store.Overflows cr verify t bytes → st.Shaped maxSet) := by
  have hevent : (candidatesOf (all.insert d.id d))[d.id]? = some d.toSigned := by
    simp [candidatesOf]
  have hmem : ∀ r, r ∉ candidatesOf (all.insert d.id d) ↔ r ≠ d.id ∧ r ∉ t.candidates := by
    intro r
    rw [mem_candidatesOf, mem_map_insert, not_or, verified_mem sound hall]
  constructor
  · rintro ⟨d', edge, old, new, decision, hd', -, -, hbare, hp, hlen, hedge, habsent⟩
    obtain rfl := Except.ok.inj (hd'.symm.trans hd)
    have hC : ∀ r ∈ edge :: d'.envelope.parents, r ∉ candidatesOf (all.insert d'.id d') :=
      fun r hr => (hmem r).mpr (habsent r hr)
    have hparents : d'.envelope.parents ≠ [] := by
      intro hnil
      rw [hnil] at hlen
      cases hlen
    obtain rfl := Option.some.inj
      (hst.symm.trans (verdicts.missing hevent hbare hp hC hparents))
    have hover := (missingHistory_over hlen.le d'.parents_nodup).mpr ⟨hlen, hedge, hC⟩
    change maxSet < (sortedSet (missingHistory _ _ _)).length
    rwa [sortedSet_length_nodup (missingHistory_nodup _ _ _)]
  · intro hover
    refine verdicts.shaped hevent hst fun hbare edge old new decision hp => ?_
    refine Nat.not_lt.mp fun hlt => hover ?_
    obtain ⟨hlen, hedge, habsent⟩ := (missingHistory_over
      (d.canonical _ List.mem_cons_self).2 d.parents_nodup).mp hlt
    exact ⟨d, edge, old, new, decision, hd, hinst, hnew, hbare, hp, hlen, hedge,
      fun r hr => (hmem r).mp (habsent r hr)⟩

/-- The key cannot observe an event whose missing history is too large for a receipt. -/
theorem overflow_observed (hrule : store.rule = some filter) (sound : store.Sound cr verify t)
    (works : key.Works cr verify) (free : store.Free cr verify t bytes)
    (hover : store.Overflows cr verify t bytes) :
    ¬ store.Unobserved cr verify t bytes key now := by
  have hevent := hover
  obtain ⟨d, _, _, _, _, hd, hinst, hnew, _⟩ := hevent
  obtain ⟨all, out, s, A, st, hall, verdicts, hst, hjudge⟩ :=
    judge_candidate sound hd hinst fun all hall => free all d hall hd
  obtain ⟨hrefused, -⟩ := receipt_refused_iff sound hall hd hinst hnew verdicts hst
  rw [unobserved_iff hrule hjudge, record_refused hnew (receiptFor_none works (hrefused hover))]
  intro h
  cases h

end

/-- A node receipt leaves an admission as it is, unless the event is a new reaffirmation that
misses its edge and all of its `MAX_SET` parents: the receipt cannot list what it misses. -/
theorem receipts_observe (cr : Crypto) (verify : Verify) (store : Store) (t : Tables)
    (bytes : Bytes) (key : SecretKey) (filter : FilterIdentity) (now : BitVec 64)
    (hrule : store.rule = some filter) (sound : store.Sound cr verify t)
    (works : key.Works cr verify) (free : store.Free cr verify t bytes)
    (receiptFree : store.ReceiptFree cr verify t bytes key filter now) :
    store.Unobserved cr verify t bytes key now ↔ ¬ store.Overflows cr verify t bytes := by
  by_cases hd : ∃ d, decode cr verify bytes = .ok d ∧ d.envelope.instanceId = store.instanceId
  · obtain ⟨d, hd, hinst⟩ := hd
    obtain ⟨all, out, s, A, st, hall, verdicts, hst, hjudge⟩ :=
      judge_candidate sound hd hinst fun all hall => free all d hall hd
    rw [unobserved_iff hrule hjudge]
    by_cases hnew : d.id ∈ t.candidates
    · refine iff_of_true (by rw [record_retained hnew]) ?_
      rintro ⟨d', _, _, _, _, hd', _, hnew', _⟩
      obtain rfl := Except.ok.inj (hd'.symm.trans hd)
      exact hnew' hnew
    · obtain ⟨-, hshaped⟩ := receipt_refused_iff sound hall hd hinst hnew verdicts hst
      by_cases hover : store.Overflows cr verify t bytes
      · rw [← unobserved_iff hrule hjudge]
        exact iff_of_false (overflow_observed hrule sound works free hover) (not_not.mpr hover)
      · refine iff_of_true ?_ hover
        obtain ⟨r, hr⟩ := receiptFor_some works (hshaped hover)
        refine record_observed hnew hr fun hdigest => ?_
        obtain ⟨⟨event, wire⟩, hrow⟩ := mem_iff.mp hdigest
        obtain ⟨hdigest, hevent, r', hr', hid'⟩ := sound.receipt hrow
        obtain rfl := receiptFree hd hr hrow hdigest.symm
        obtain ⟨hdecode, hid⟩ := receiptFor_decoded hr
        obtain rfl := Except.ok.inj (hr'.symm.trans hdecode)
        exact hnew (hid ▸ hid' ▸ hevent)
  · have hother : ∀ d, decode cr verify bytes = .ok d →
        d.envelope.instanceId ≠ store.instanceId := fun d h hi => hd ⟨d, h, hi⟩
    obtain ⟨reason, hjudge⟩ := judge_rejected (t := t) hother
    rw [unobserved_iff hrule hjudge]
    refine iff_of_true rfl ?_
    rintro ⟨d, _, _, _, _, h, hi, _⟩
    exact hother d h hi

/-! ## A reaffirmation of nothing known -/

namespace Sample

/-- The digest of `orphan`. -/
def orphanId : Hash := 0x432ff18e4cbf2482281b6cb1a0b1e043ba85d2b26591e845ad6bb9b25bfa890c

/-- SHA-256 of what is hashed about `orphan` and of the fold manifest, by their lengths. -/
def orphanDigests : List (Nat × Hash) :=
  [(33171, orphanId),
   (52, 0xdd5797ed936b3b1fb94d35652301d09c93b378e7acbe1282f17734e054248c6c),
   (82, 0xa4c9afb587cec52b0b5aa6e02d20f8833e74aa5a88488d8147c255486f6e3333),
   (2217, 0xfd7b2676d70b628128eb83fbba27b3ebefff6e51823c1d87620d57a4e2ad6208)]

def orphanCrypto : Crypto where
  sha256 bytes := (orphanDigests.lookup bytes.length).getD 0
  authorKey key := [alice, bob].contains key

/-- Alice's signature of `orphan`. -/
def orphanSignature : Bytes := beBytes 64 0xaf1de31cc5e9192e9796ea162473ae0ec06bb48a0110eaa429c2591a249c631b4e55f3758733390130b6bf1d92d492ee840648204bf326df635da4e3d3f78906

/-- Alice signed `orphan`; Bob's signatures are blank. -/
def orphanVerify : Verify := fun key p sig =>
  if key = alice then p.length = 33171 && sig = orphanSignature else sig = List.replicate 64 0

def node : SecretKey := ⟨bob, fun _ => List.replicate 64 0, fun _ => rfl⟩

def filter : FilterIdentity :=
  ⟨foldV1 orphanCrypto, canonVersion, constantsVersion, ttTaxonomy, [alice], trustPolicy, 3⟩

def store : Store := ⟨1, some filter⟩

def fresh : Tables := ⟨∅, ∅, ∅, none⟩

def unknownParents : List Hash := (List.range maxSet).map fun n => BitVec.ofNat 256 (n + 8)

/-- A reaffirmation of edge 7 whose parents nobody has seen. -/
def orphan : Envelope where
  instanceId := 1
  author := alice
  subject := none
  subjectKey := none
  grant := none
  parents := unknownParents
  assertedTime := none
  payload := .edgeReaffirm 7 [] ⟨⟨3, 3, 3, 3⟩, ⟨4, 4, 4, 4⟩⟩
    ⟨.edgeReaffirm, "", [], [], .none, .none⟩

theorem node_works : node.Works orphanCrypto orphanVerify := ⟨by decide, fun _ => rfl⟩

theorem unknownParents_increasing : Increasing unknownParents := by
  refine List.Pairwise.isChain (List.pairwise_map.mpr ?_)
  refine List.pairwise_lt_range.imp_of_mem fun {a b} ha hb hlt => ?_
  rw [List.mem_range, maxSet] at ha hb
  rw [BitVec.lt_def, BitVec.toNat_ofNat, BitVec.toNat_ofNat]
  omega

theorem unknownParents_length : unknownParents.length = maxSet := by
  rw [unknownParents, List.length_map, List.length_range]

theorem orphan_takes : ∃ p, orphan.preimage = .ok p ∧ p.length = 33171 := by
  have hhash : ∀ h, Takes (hash.put h) 32 := fun h => takes_number _ 32 h
  have htag : ∀ k, Takes (u16.put k) 2 := fun k => takes_number _ 2 k
  have hnone : ∀ {α : Type} (f : WireFormat α), Takes ((option f).put none) 1 := fun f =>
    ⟨[0], rfl, rfl⟩
  have hkind : Takes (kind.put orphan.payload.kind) 2 := ⟨_, rfl, rfl⟩
  have hparents : Takes (hashes.put orphan.parents) (4 + maxSet * 32) := by
    have hparents : orphan.parents = unknownParents := by simp only [orphan]
    rw [hparents, ← unknownParents_length]
    exact hashes_takes unknownParents_length.le unknownParents_increasing
  have hset : Takes (hashes.put []) 4 := ⟨_, rfl, rfl⟩
  have hpin : ∀ x, Takes (pin.put x) (32 + (32 + (32 + 32))) := fun x =>
    (hhash _).pair ((hhash _).pair ((hhash _).pair (hhash _)))
  have hvalue : Takes (value.put .none) 2 := (htag 0).cons takes_nil
  have hdecision : Takes (V1.decision.put ⟨.edgeReaffirm, "", [], [], .none, .none⟩)
      (2 + (4 + (4 + (4 + (2 + 2))))) :=
    Takes.pair (f := kind) ⟨_, rfl, rfl⟩ ((text_takes (s := "") (by decide)).pair
      (hset.pair (hset.pair (hvalue.pair hvalue))))
  have hpayload : Takes (putPayload orphan.payload) (32 + (4 + (256 + (18 + 0)))) :=
    (hhash 7).cons (Takes.cons ⟨_, rfl, rfl⟩ (((hpin _).pair (hpin _)).cons
      (hdecision.cons takes_nil)))
  have hput : Takes (putEnvelope orphan) (15 + (2 + (2 + (32 + (2 + (32 + (1 + (1 + (1 +
      ((4 + maxSet * 32) + (1 + (310 + 0)))))))))))) :=
    (text_takes (s := "cc.event.v1") (by decide)).cons ((htag _).cons ((htag _).cons
      ((hhash _).cons (hkind.cons ((hhash _).cons ((hnone _).cons ((hnone _).cons
        ((hnone _).cons (hparents.cons ((hnone _).cons (hpayload.cons takes_nil)))))))))))
  obtain ⟨p, hp, hlen⟩ := hput
  refine ⟨p, preimage_ok.mpr ⟨fun key hkey => ?_, hp, ?_⟩, ?_⟩
  · cases hkey
  · rw [hlen]
    decide
  · rw [hlen]
    rfl

theorem orphan_decodes :
    ∃ bytes d, decode orphanCrypto orphanVerify bytes = .ok d ∧ d.envelope = orphan ∧
    d.id = orphanId := by
  obtain ⟨p, hp, hlen⟩ := orphan_takes
  refine ⟨p ++ orphanSignature, ⟨⟨orphan, preimage_canonical hp⟩, orphanId, _⟩,
    decode_ok.mpr ⟨p, orphanSignature, hp, beBytes_length _ _, rfl, ?_, ?_, ?_, rfl⟩, rfl, rfl⟩
  · simp [orphanCrypto, orphan]
  · simp [orphanVerify, orphan, hlen]
  · simp only [orphanCrypto, hlen]
    rfl

theorem filter_governed : filter.isGoverned orphanCrypto = true := by
  have hcurators : ¬ (filter.curators.isEmpty = true ∨ ¬ Increasing filter.curators ∨
      (filter.curators.any fun k => !orphanCrypto.authorKey k) = true) := by decide
  have hgoverned : FilterIdentity.governed orphanCrypto filter.curators filter.maxHops =
      .ok filter := by
    rw [FilterIdentity.governed, if_neg hcurators, if_neg (by decide)]
    rfl
  simp [FilterIdentity.isGoverned, hgoverned]

theorem fresh_sound : store.Sound orphanCrypto orphanVerify fresh :=
  (Store.Reachable.fresh none).sound

theorem orphan_free {bytes : Bytes} {d : Decoded}
    (hd : decode orphanCrypto orphanVerify bytes = .ok d)
    (hid : d.id = orphanId) : store.Free orphanCrypto orphanVerify fresh bytes := by
  intro all d' hall hd'
  obtain rfl := Except.ok.inj (hd'.symm.trans hd)
  refine CollisionFree.single (a := orphanId) (fun r hr => ?_) (by decide +kernel)
  rw [mem_candidatesOf, mem_map_insert, verified_mem fresh_sound hall, hid] at hr
  exact hr.resolve_right (by simp [fresh])

theorem orphan_overflows {bytes : Bytes} {d : Decoded}
    (hd : decode orphanCrypto orphanVerify bytes = .ok d)
    (he : d.envelope = orphan) (hid : d.id = orphanId) :
    store.Overflows orphanCrypto orphanVerify fresh bytes := by
  have hmem : ∀ {r : Hash}, r ∈ unknownParents → 8 ≤ r.toNat ∧ r.toNat < 1032 := by
    intro r hr
    obtain ⟨n, hn, rfl⟩ := List.mem_map.mp hr
    rw [List.mem_range, maxSet] at hn
    rw [BitVec.toNat_ofNat]
    omega
  refine ⟨d, 7, [], _, _, hd, by rw [he]; rfl, by simp [fresh], ?_, by rw [he]; rfl, ?_, ?_, ?_⟩
  · rw [he]
    exact ⟨rfl, rfl, rfl, rfl⟩
  · rw [he]
    simpa only [orphan] using unknownParents_length
  · rw [he]
    simp only [orphan]
    intro h
    exact absurd (hmem h).1 (by decide)
  · rw [he, hid]
    simp only [orphan, List.forall_mem_cons]
    refine ⟨⟨by decide, by simp [fresh]⟩, fun r hr => ⟨?_, by simp [fresh]⟩⟩
    rintro rfl
    exact absurd (hmem hr).2 (by decide)

end Sample

/-- The store refuses to observe the orphan, and admits it unobserved. -/
theorem receipts_observe_orphan : Sample.filter.isGoverned Sample.orphanCrypto = true ∧
    Sample.node.Works Sample.orphanCrypto Sample.orphanVerify ∧
    Sample.store.Sound Sample.orphanCrypto Sample.orphanVerify Sample.fresh ∧ ∃ bytes d,
      decode Sample.orphanCrypto Sample.orphanVerify bytes = .ok d ∧ d.envelope = Sample.orphan ∧
      ¬ Sample.store.Unobserved Sample.orphanCrypto Sample.orphanVerify Sample.fresh bytes
        Sample.node 0 := by
  obtain ⟨bytes, d, hd, he, hid⟩ := Sample.orphan_decodes
  exact ⟨Sample.filter_governed, Sample.node_works, Sample.fresh_sound, bytes, d, hd, he,
    overflow_observed rfl Sample.fresh_sound Sample.node_works (Sample.orphan_free hd hid)
      (Sample.orphan_overflows hd he hid)⟩

theorem receipts_observe_fresh : ∃ bytes d,
    decode Sample.orphanCrypto Sample.orphanVerify bytes = .ok d ∧ d.envelope = Sample.orphan ∧
    (Sample.store.Unobserved Sample.orphanCrypto Sample.orphanVerify Sample.fresh bytes
      Sample.node 0 ↔
      ¬ Sample.store.Overflows Sample.orphanCrypto Sample.orphanVerify Sample.fresh bytes) := by
  obtain ⟨bytes, d, hd, he, hid⟩ := Sample.orphan_decodes
  refine ⟨bytes, d, hd, he, receipts_observe Sample.orphanCrypto Sample.orphanVerify Sample.store
    Sample.fresh bytes Sample.node Sample.filter 0 rfl Sample.fresh_sound Sample.node_works
    (Sample.orphan_free hd hid) ?_⟩
  intro _ _ _ _ _ _ _ _ hrow
  simp [Sample.fresh] at hrow

end Clockchain.V1
