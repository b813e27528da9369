import Clockchain.Queues
import Clockchain.Verifier.Report

/-!
# What the checks say

A report without a failed check, taken apart: the identity is recomputed, the rows re-encode to
their ids in order, and digest, commitment and canonical form are those of the served rows.
-/

namespace Clockchain.Verifier
open Json
open Public (hex32)
open V1 (BTreeMap BTreeSet Crypto Decoded FilterIdentity FoldRef Hash Verify)
open V1.Publisher (hex)
set_option autoImplicit false

section
variable {cr : Crypto} {signed : Verify} {w : Wording}

/-! ## Identity -/

theorem expect_status {name pass fail : String} {ok : Bool} :
    (Check.expect name ok pass fail).status = if ok then .pass else .fail := by
  cases ok <;> rfl

theorem expect_ok {name pass fail : String} {ok : Bool} :
    (Check.expect name ok pass fail).status ≠ .fail ↔ ok = true := by
  cases ok with
  | true => exact iff_of_true (fun h => nomatch h) rfl
  | false => exact iff_of_false (fun h => h rfl) Bool.false_ne_true

theorem expect_pass {name pass fail : String} {ok : Bool}
    (h : (Check.expect name ok pass fail).status ≠ .fail) :
    (Check.expect name ok pass fail).status = .pass := by
  rw [expect_ok.mp h]
  rfl

theorem filterOf_some {h : Health} {fold fold' : FoldRef} {version : Hash}
    (hsome : (filterOf cr h fold).2 = some (fold', version)) :
    fold' = fold ∧ (filterOf cr h fold).1.status = .pass ∧ ∃ curators filter,
      h.curators.mapM hex32 = some curators ∧
        FilterIdentity.governed cr curators h.maxHops = .ok filter ∧
        version = filter.version cr := by
  unfold filterOf at hsome ⊢
  cases hcurators : h.curators.mapM hex32 with
  | none => simp [hcurators] at hsome
  | some curators =>
    cases hfilter : FilterIdentity.governed cr curators h.maxHops with
    | error e => simp [hcurators, hfilter] at hsome
    | ok filter =>
      by_cases hserved : hex32 h.filterVersion = some (filter.version cr)
      · simp only [hcurators, hfilter, hserved, if_true, Option.some.injEq,
          Prod.mk.injEq] at hsome ⊢
        refine ⟨hsome.1.symm, ?_, _, _, rfl, hfilter, hsome.2.symm⟩
        rfl
      · simp [hcurators, hfilter, hserved] at hsome

/-- Where an identity is recomputed all its checks have passed. -/
theorem identity_some {text : Option Value} {fold : FoldRef} {version : Hash}
    (hsome : (identity cr w text).2 = some (fold, version)) :
    fold = V1.foldV1 cr ∧ (∀ c ∈ (identity cr w text).1, c.status = .pass) ∧
      ∃ h curators filter, text.bind healthForm.get = some h ∧
        h.curators.mapM hex32 = some curators ∧
        FilterIdentity.governed cr curators h.maxHops = .ok filter ∧
        version = filter.version cr := by
  unfold identity at hsome ⊢
  cases hread : text.bind healthForm.get with
  | none => simp [hread] at hsome
  | some h =>
    by_cases hledger : h.ledger = "v1"
    · by_cases hserved : ((hex32 h.foldVersion.manifest).map fun manifest =>
          FoldRef.mk h.foldVersion.version manifest) = some (V1.foldV1 cr)
      · simp only [hread, hledger, hserved, ne_eq, not_true_eq_false, if_false] at hsome ⊢
        obtain ⟨hfold, hstatus, curators, filter, hcurators, hfilter, hversion⟩ :=
          filterOf_some hsome
        refine ⟨hfold, ?_, h, curators, filter, rfl, hcurators, hfilter, hversion⟩
        intro c hc
        simp only [List.mem_cons, List.not_mem_nil, or_false] at hc
        rcases hc with rfl | rfl | rfl
        · rfl
        · rfl
        · exact hstatus
      · simp [hread, hledger, hserved] at hsome
    · simp [hread, hledger] at hsome

theorem filterOf_none {h : Health} {fold : FoldRef} (hnone : (filterOf cr h fold).2 = none) :
    (filterOf cr h fold).1.status = .fail := by
  unfold filterOf at hnone ⊢
  cases hcurators : h.curators.mapM hex32 with
  | none => rfl
  | some curators =>
    cases hfilter : FilterIdentity.governed cr curators h.maxHops with
    | error e => simp only [hfilter]; rfl
    | ok filter =>
      by_cases hserved : hex32 h.filterVersion = some (filter.version cr)
      · simp [hcurators, hfilter, hserved] at hnone
      · simp [hfilter, hserved, expect_status]

/-- Where no identity is recomputed a check has failed. -/
theorem identity_none {text : Option Value} (hnone : (identity cr w text).2 = none) :
    ∃ c ∈ (identity cr w text).1, c.status = .fail := by
  unfold identity at hnone ⊢
  cases hread : text.bind healthForm.get with
  | none => exact ⟨_, List.mem_cons_self, rfl⟩
  | some h =>
    by_cases hledger : h.ledger = "v1"
    · by_cases hserved : ((hex32 h.foldVersion.manifest).map fun manifest =>
          FoldRef.mk h.foldVersion.version manifest) = some (V1.foldV1 cr)
      · simp only [hread, hledger, hserved, ne_eq, not_true_eq_false, if_false] at hnone ⊢
        exact ⟨_, by simp, filterOf_none hnone⟩
      · simp [hledger, hserved, expect_status]
    · simp [hledger, expect_status]

/-! ## Event ids -/

/-- Each row re-encodes to its event id, and the ids ascend. -/
structure Encoded (cr : Crypto) (rows : List Row) : Prop where
  event : ∀ row ∈ rows, ∃ pre, row.envelope.preimage = .ok pre ∧ cr.sha256 pre = row.event
  ascending : (rows.map Row.event).Pairwise (· < ·)

theorem idFault_nil {row : Row} : idFault cr row = [] ↔
    ∃ pre, row.envelope.preimage = .ok pre ∧ cr.sha256 pre = row.event := by
  unfold idFault
  cases row.envelope.preimage with
  | ok pre => simp
  | error e => simp

theorem orderFault_nil {previous : Option Hash} {row : Row} :
    orderFault previous row = [] ↔ ∀ p ∈ previous, p < row.event := by
  cases previous with
  | none => simp [orderFault]
  | some p => simp [orderFault]

theorem faults_nil {previous : Option Hash} {rows : List Row} : faults cr previous rows = [] ↔
    (∀ row ∈ rows, ∃ pre, row.envelope.preimage = .ok pre ∧ cr.sha256 pre = row.event) ∧
      (previous.toList ++ rows.map Row.event).IsChain (· < ·) := by
  induction rows generalizing previous with
  | nil => cases previous <;> simp [faults]
  | cons row rows ih =>
    have hchain : (previous.toList ++ (row :: rows).map Row.event).IsChain (· < ·) ↔
        (∀ p ∈ previous, p < row.event) ∧
          ((some row.event).toList ++ rows.map Row.event).IsChain (· < ·) := by
      cases previous with
      | none => simp
      | some p => simp
    rw [faults, List.append_eq_nil_iff, List.append_eq_nil_iff, idFault_nil, orderFault_nil, ih,
      hchain, List.forall_mem_cons]
    tauto

theorem encoded_iff {rows : List Row} : Encoded cr rows ↔ faults cr none rows = [] := by
  rw [faults_nil, Option.toList_none, List.nil_append, List.isChain_iff_pairwise]
  exact ⟨fun h => ⟨h.event, h.ascending⟩, fun h => ⟨h.1, h.2⟩⟩

theorem eventIds_true {s : Snapshot} : (eventIds cr s).2 = true ↔ Encoded cr s.rows := by
  rw [encoded_iff, eventIds]
  cases hrows : s.rows with
  | nil => simp [faults]
  | cons row rows => simp

theorem eventIds_ok {s : Snapshot} :
    (eventIds cr s).1.status ≠ .fail ↔ (eventIds cr s).2 = true := by
  unfold eventIds
  cases hrows : s.rows with
  | nil => exact iff_of_true (fun h => nomatch h) rfl
  | cons row rows => exact expect_ok

theorem eventIds_status {s : Snapshot} : (eventIds cr s).1.status =
    if s.rows = [] then .notChecked else if (eventIds cr s).2 then .pass else .fail := by
  unfold eventIds
  cases hrows : s.rows with
  | nil => simp
  | cons row rows => simp [expect_status]

/-- Ascending ids are the set of ids as it is listed. -/
theorem ids_toList {ids : List Hash} (h : ids.Pairwise (· < ·)) :
    (Std.ExtTreeSet.ofList ids : BTreeSet).toList = ids := by
  apply Queues.ordered_unique id Std.ExtTreeSet.ordered_toList
  · exact h.imp fun hlt => compareOfLessAndEq_eq_lt.mpr hlt
  · intro a
    rw [Std.ExtTreeSet.mem_toList, Maps.mem_ofSet]

/-! ## The snapshot -/

/-- The snapshot names the identity, the digest of its rows and their commitment. -/
structure Commits (cr : Crypto) (fold : FoldRef) (version : Hash) (s : Snapshot) : Prop where
  foldVersion : s.rule.foldVersion = fold.version
  foldManifest : hex32 s.rule.foldManifest = some fold.manifest
  filterVersion : hex32 s.rule.filterVersion = some version
  encoded : Encoded cr s.rows
  corpus : hex32 s.corpusDigest = some (V1.corpusDigest cr (s.rows.map Row.event))
  commitment : hex32 s.commitment = some (V1.viewCommitment cr fold version
    (V1.corpusDigest cr (s.rows.map Row.event)) (CanonicalRows.of s).bytes)

theorem outcomeOf_failed {checks : List Check} :
    outcomeOf checks ≠ .failed ↔ ∀ c ∈ checks, c.status ≠ .fail := by
  unfold outcomeOf
  split
  · next h =>
    obtain ⟨c, hc, hfail⟩ := List.any_eq_true.mp h
    exact iff_of_false (not_not_intro rfl) fun hall => hall c hc (of_decide_eq_true hfail)
  · next h =>
    refine iff_of_true ?_ fun c hc hfail => h ?_
    · split <;> exact fun heq => nomatch heq
    · exact List.any_eq_true.mpr ⟨c, hc, decide_eq_true hfail⟩

theorem outcomeOf_verified {checks : List Check} :
    outcomeOf checks = .verified ↔ ∀ c ∈ checks, c.status = .pass := by
  unfold outcomeOf
  constructor
  · intro h c hc
    split at h
    · exact nomatch h
    next hfail =>
    split at h
    · exact nomatch h
    next hskip =>
    cases hstatus : c.status with
    | pass => rfl
    | fail => exact absurd (List.any_eq_true.mpr ⟨c, hc, decide_eq_true hstatus⟩) hfail
    | notChecked => exact absurd (List.any_eq_true.mpr ⟨c, hc, decide_eq_true hstatus⟩) hskip
  · intro h
    have hnone : ∀ status, status ≠ .pass → (checks.any fun c => c.status = status) = false := by
      intro status hne
      apply List.any_eq_false.mpr
      intro c hc heq
      exact hne ((of_decide_eq_true heq).symm.trans (h c hc))
    simp only [hnone .fail (by decide), hnone .notChecked (by decide), Bool.false_eq_true, if_false]

/-- The checks of a snapshot apart from its signatures and the reads, none of them failed. -/
structure Matches (cr : Crypto) (fold : FoldRef) (version : Hash) (served : Value) (s : Snapshot) :
    Prop extends Commits cr fold version s where
  canonical : tidy (snapshotForm.put s) = tidy served

theorem checkRead_status (read : Read) (s : Snapshot) (ok : Bool) :
    (checkRead cr w read s ok).status ≠ .fail ↔ (checkRead cr w read s ok).status = .pass := by
  have hcases : (checkRead cr w read s ok).status = .pass ∨
      (checkRead cr w read s ok).status = .fail := by
    unfold checkRead
    split
    · exact .inr rfl
    split
    · exact .inr rfl
    split
    · exact .inr rfl
    dsimp only
    split
    · exact .inl rfl
    · exact .inr rfl
  rcases hcases with h | h <;> rw [h] <;> decide

theorem checkSnapshot_ok {i : Input} {r : Recomputed} {fold : FoldRef} {version : Hash}
    {served : Value} {s : Snapshot} :
    (∀ c ∈ (checkSnapshot cr signed w i r fold version served s).1, c.status ≠ .fail) ↔
      Matches cr fold version served s ∧
        (signatures cr signed w i.exported s fold version).1.status ≠ .fail ∧
        ∀ read ∈ i.reads, (checkRead cr w read s true).status = .pass := by
  by_cases hencoded : Encoded cr s.rows
  · have hids : (Std.ExtTreeSet.ofList (s.rows.map Row.event) : BTreeSet).toList =
        s.rows.map Row.event := ids_toList hencoded.ascending
    have htrue : (eventIds cr s).2 = true := eventIds_true.mpr hencoded
    unfold checkSnapshot
    simp only [List.cons_append, List.nil_append, List.forall_mem_cons, List.forall_mem_map,
      expect_ok, eventIds_ok, htrue, hids, decide_eq_true_eq, true_and, agrees_iff]
    constructor
    · rintro ⟨-, ⟨hfold, hmanifest, hversion⟩, hcanonical, hcorpus, ⟨-, hcommitment⟩,
        hsigned, hreads⟩
      refine ⟨⟨⟨hfold, hmanifest, hversion, hencoded, hcorpus, hcommitment⟩, hcanonical⟩,
        hsigned, ?_⟩
      intro read hread
      have hok := hreads read hread
      rwa [decide_eq_true ⟨hcorpus, hcommitment⟩, checkRead_status] at hok
    · rintro ⟨h, hsigned, hreads⟩
      refine ⟨(fun hfail => nomatch hfail), ⟨h.foldVersion, h.foldManifest, h.filterVersion⟩,
        h.canonical, h.corpus, ⟨h.corpus, h.commitment⟩, hsigned, ?_⟩
      intro read hread
      rw [decide_eq_true ⟨h.corpus, h.commitment⟩, checkRead_status]
      exact hreads read hread
  · refine iff_of_false (fun h => hencoded ?_) fun h => hencoded h.1.encoded
    rw [← eventIds_true, ← eventIds_ok]
    apply h
    unfold checkSnapshot
    simp

/-- A report without a failed check, by what it has been made of. -/
structure Verifies (cr : Crypto) (signed : Verify) (w : Wording) (i : Input) (fold : FoldRef)
    (version : Hash) (s : Snapshot) : Prop where
  identity : (identity cr w i.health).2 = some (fold, version)
  matched : ∃ served, i.snapshot = some served ∧ snapshotForm.get served = some s ∧
    Matches cr fold version served s
  signatures : (signatures cr signed w i.exported s fold version).1.status ≠ .fail
  reads : ∀ read ∈ i.reads, (checkRead cr w read s true).status = .pass

theorem Verifies.unique {i : Input} {fold fold' : FoldRef} {version version' : Hash}
    {s s' : Snapshot} (h : Verifies cr signed w i fold version s)
    (h' : Verifies cr signed w i fold' version' s') : 
    fold' = fold ∧ version' = version ∧ s' = s := by
  obtain ⟨served, hserved, hread, -⟩ := h.matched
  obtain ⟨served', hserved', hread', -⟩ := h'.matched
  obtain ⟨rfl, rfl⟩ := Prod.mk.inj (Option.some.inj (h.identity.symm.trans h'.identity))
  obtain rfl := Option.some.inj (hserved.symm.trans hserved')
  exact ⟨rfl, rfl, Option.some.inj (hread'.symm.trans hread)⟩

theorem verify_ok {i : Input} : (verify cr signed w i).outcome ≠ .failed ↔
    ∃ fold version s, Verifies cr signed w i fold version s := by
  change outcomeOf (run cr signed w i _).1 ≠ .failed ↔ _
  rw [outcomeOf_failed, run]
  cases hidentity : identity cr w i.health with
  | mk checks found =>
  cases found with
  | none =>
    obtain ⟨c, hc, hfail⟩ := identity_none (congrArg Prod.snd hidentity)
    rw [hidentity] at hc
    refine iff_of_false (fun h => h c hc hfail) ?_
    rintro ⟨fold, version, s, h⟩
    nomatch (congrArg Prod.snd hidentity).symm.trans h.identity
  | some found =>
    obtain ⟨fold, version⟩ := found
    have hsome : (identity cr w i.health).2 = some (fold, version) := congrArg Prod.snd hidentity
    have hpass : ∀ c ∈ checks, c.status ≠ .fail := by
      intro c hc hfail
      have hall := (identity_some hsome).2.1 c (by rwa [hidentity])
      nomatch hall.symm.trans hfail
    have hfails : ∀ (name detail : String), ¬ ∀ c ∈ checks ++ [Check.failed name detail],
        c.status ≠ .fail := by
      intro name detail h
      exact h _ (List.mem_append_right _ List.mem_cons_self) rfl
    dsimp only
    cases hserved : i.snapshot with
    | none =>
      refine iff_of_false (hfails _ _) ?_
      rintro ⟨fold', version', s, h⟩
      obtain ⟨served, hsnapshot, -⟩ := h.matched
      nomatch hserved.symm.trans hsnapshot
    | some served =>
      dsimp only
      cases hread : snapshotForm.get served with
      | none =>
        refine iff_of_false (hfails _ _) ?_
        rintro ⟨fold', version', s, h⟩
        obtain ⟨served', hsnapshot, hget, -⟩ := h.matched
        obtain rfl := Option.some.inj (hserved.symm.trans hsnapshot)
        nomatch hread.symm.trans hget
      | some s =>
        dsimp only
        rw [List.forall_mem_append, and_iff_right hpass, checkSnapshot_ok]
        constructor
        · rintro ⟨hmatches, hsigned, hreads⟩
          exact ⟨fold, version, s, hsome, ⟨served, hserved, hread, hmatches⟩, hsigned, hreads⟩
        · rintro ⟨fold', version', s', h⟩
          obtain ⟨served', hsnapshot, hget, hmatches⟩ := h.matched
          obtain ⟨rfl, rfl⟩ := Prod.mk.inj (Option.some.inj (hsome.symm.trans h.identity))
          obtain rfl := Option.some.inj (hserved.symm.trans hsnapshot)
          obtain rfl := Option.some.inj (hread.symm.trans hget)
          exact ⟨hmatches, h.signatures, h.reads⟩

/-- What is recomputed once the identity is. -/
def Recomputed.named (cr : Crypto) (version : Hash) : Recomputed :=
  { initial cr with filterVersion := some (hex version) }

theorem Verifies.run {i : Input} {fold : FoldRef} {version : Hash} {s : Snapshot}
    (h : Verifies cr signed w i fold version s) : ∃ served, i.snapshot = some served ∧
      run cr signed w i (initial cr) = ((Verifier.identity cr w i.health).1 ++
        (checkSnapshot cr signed w i (.named cr version) fold version served s).1,
        (checkSnapshot cr signed w i (.named cr version) fold version served s).2) := by
  obtain ⟨served, hserved, hread, -⟩ := h.matched
  have hidentity : Verifier.identity cr w i.health =
      ((Verifier.identity cr w i.health).1, some (fold, version)) := Prod.ext rfl h.identity
  refine ⟨served, hserved, ?_⟩
  rw [Verifier.run, hidentity, hserved]
  simp only [hread]
  rfl

/-- A report is verified when nothing has failed and there was an event and a signature to check. -/
theorem verify_verified {i : Input} : (verify cr signed w i).outcome = .verified ↔
    ∃ fold version s, Verifies cr signed w i fold version s ∧ s.rows ≠ [] ∧
      (signatures cr signed w i.exported s fold version).1.status = .pass := by
  constructor
  · intro hverified
    have hok : (verify cr signed w i).outcome ≠ .failed := by
      rw [hverified]
      decide
    obtain ⟨fold, version, s, h⟩ := verify_ok.mp hok
    obtain ⟨served, -, hrun⟩ := h.run
    have hall : ∀ c ∈ (Verifier.run cr signed w i (initial cr)).1, c.status = .pass :=
      outcomeOf_verified.mp hverified
    rw [hrun] at hall
    have hpass := fun c hc => hall c (List.mem_append_right _ hc)
    refine ⟨fold, version, s, h, fun hrows => ?_, ?_⟩
    · have hevent := hpass (eventIds cr s).1 (by unfold checkSnapshot; simp)
      rw [eventIds_status, if_pos hrows] at hevent
      nomatch hevent
    · exact hpass _ (by unfold checkSnapshot; simp)
  · rintro ⟨fold, version, s, h, hrows, hsigned⟩
    obtain ⟨served, -, hrun⟩ := h.run
    have hok : ∀ c ∈ (Verifier.run cr signed w i (initial cr)).1, c.status ≠ .fail :=
      outcomeOf_failed.mp (verify_ok.mpr ⟨fold, version, s, h⟩)
    change outcomeOf (Verifier.run cr signed w i (initial cr)).1 = _
    rw [outcomeOf_verified]
    rw [hrun] at hok ⊢
    intro c hc
    rcases List.mem_append.mp hc with hidentity | hsnapshot
    · exact (identity_some h.identity).2.1 c hidentity
    have hfail := hok c hc
    unfold checkSnapshot at hsnapshot
    simp only [List.cons_append, List.nil_append, List.mem_cons, List.mem_map] at hsnapshot
    rcases hsnapshot with rfl | rfl | rfl | rfl | rfl | rfl | rfl | ⟨read, -, rfl⟩
    · rfl
    · exact expect_pass hfail
    · exact expect_pass hfail
    · rw [eventIds_status, if_neg hrows, if_pos (eventIds_ok.mp hfail)]
    · exact expect_pass hfail
    · exact expect_pass hfail
    · exact hsigned
    · exact (checkRead_status _ _ _).mp hfail

end

end Clockchain.Verifier
