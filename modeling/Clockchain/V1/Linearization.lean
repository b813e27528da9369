import Clockchain.V1.Restore
import Clockchain.V1.Serving

/-!
# The cache is linearizable

A snapshot that a call returns, cached or folded, is the one the uncached store would have
returned at some moment of the call: the key of a cached snapshot tells its rows.
-/

namespace Clockchain.V1
open Codec Maps Programs
set_option autoImplicit false

/-! ## Keys -/

theorem contentOf_injective : Function.Injective contentOf := by
  refine flatMap_injective (n := 64) (by decide) (fun row => ?_) fun row row' h => ?_
  · rw [List.length_append, hashBytes_length, hashBytes_length]
  · obtain ⟨hid, hdigest⟩ := List.append_inj h (by rw [hashBytes_length, hashBytes_length])
    exact Prod.ext (hashBytes_injective hid) (hashBytes_injective hdigest)

section
variable {cr : Crypto} {verify : Verify} {store : Store} {t t' : Tables} {all : BTreeMap Decoded}

theorem governed_form {f : FilterIdentity} (h : f.isGoverned cr = true) :
    f = ⟨foldV1 cr, canonVersion, constantsVersion, ttTaxonomy, f.curators, V1.trustPolicy,
      f.maxHops⟩ := by
  unfold FilterIdentity.isGoverned FilterIdentity.governed at h
  by_cases hcurators : f.curators.isEmpty ∨ ¬ Increasing f.curators ∨
      f.curators.any fun k => !cr.authorKey k
  · rw [if_pos hcurators] at h
    cases h
  · rw [if_neg hcurators] at h
    by_cases hhops : f.maxHops = 0
    · rw [if_pos hhops] at h
      cases h
    · rw [if_neg hhops] at h
      exact (of_decide_eq_true h).symm

/-- A recorded identity names one filter. -/
theorem canonical_inj {f g : FilterIdentity} (hf : f.isGoverned cr = true)
    (hg : g.isGoverned cr = true) (h : f.canonical = g.canonical) : f = g := by
  have hformf := governed_form hf
  have hformg := governed_form hg
  rw [hformf, hformg] at h
  obtain ⟨h, hhops⟩ := List.append_inj' h ((beBytes_length _ _).trans (beBytes_length _ _).symm)
  obtain ⟨h, -⟩ := List.append_inj' h rfl
  obtain ⟨-, hcurators⟩ := List.append_inj h (by simp only [List.length_append, beBytes_length])
  have hpow : 2 ^ 16 = 256 ^ 2 := by decide
  rw [hformf, hformg, flatMap_injective (by decide) hashBytes_length
    (fun _ _ h => hashBytes_injective h) hcurators, BitVec.eq_of_toNat_eq
    (beBytes_inj (hpow ▸ f.maxHops.isLt) (hpow ▸ g.maxHops.isLt) hhops)]

/-! ## Rows -/

theorem sound_of_verified (hall : store.verifiedCandidates cr verify t = .ok all) :
    store.Sound cr verify { t with receipts := ∅ } := by
  refine ⟨fun {id wire} h => ?_, fun h => by simp at h⟩
  obtain ⟨rows, hrows, -⟩ := bind_ok.mp hall
  obtain ⟨d, hd⟩ := mapM_each hrows (id, wire)
    (Std.ExtTreeMap.mem_toList_iff_getElem?_eq_some.mpr h)
  obtain ⟨hdecode, hinst, hid⟩ := retained_ok.mp hd
  exact ⟨d, hdecode, hid, hinst⟩

/-- The database digests the rows that were verified. -/
theorem foldedRows_eq (hall : store.verifiedCandidates cr verify t = .ok all) :
    foldedRows cr all = probeRows cr t := by
  have hmaps : all.map (fun _ d => cr.sha256 d.bytes) =
      t.candidates.map fun _ wire => cr.sha256 wire := by
    refine ext_graph fun id digest => ?_
    simp only [Std.ExtTreeMap.getElem?_map, Option.map_eq_some_iff]
    constructor
    · rintro ⟨d, hd, rfl⟩
      exact ⟨d.bytes, (verified_get (sound_of_verified hall) hall hd).1, rfl⟩
    · rintro ⟨wire, hwire, rfl⟩
      obtain ⟨d, hd, rfl⟩ := verified_row (sound_of_verified hall) hall hwire
      exact ⟨d, hd, rfl⟩
  have hlists := congrArg Std.ExtTreeMap.toList hmaps
  rw [Std.ExtTreeMap.toList_map, Std.ExtTreeMap.toList_map] at hlists
  exact hlists

/-- No two of the strings have one digest. -/
def Distinct (cr : Crypto) (A : Bytes → Prop) : Prop :=
  ∀ a b, A a → A b → cr.sha256 a = cr.sha256 b → a = b

/-- What is hashed of the rows of the tables. -/
def Tables.Hashed (cr : Crypto) (t : Tables) (b : Bytes) : Prop :=
  (∃ id : Hash, t.candidates[id]? = some b) ∨ b = contentOf (probeRows cr t)

/-- A key tells the rows it was derived from. -/
theorem probe_inj {f g : FilterIdentity} {A : Bytes → Prop} (free : Distinct cr A)
    (ht : ∀ b, t.Hashed cr b → A b) (ht' : ∀ b, t'.Hashed cr b → A b)
    (h : probe cr f t = probe cr g t') : t.candidates = t'.candidates := by
  have hcontent := free _ _ (ht _ (Or.inr rfl)) (ht' _ (Or.inr rfl)) (CacheKey.mk.inj h).2.2
  have hrows : probeRows cr t = probeRows cr t' := contentOf_injective hcontent
  have hdigests : ∀ {id digest : Hash}, (∃ w, t.candidates[id]? = some w ∧ cr.sha256 w = digest) ↔
      ∃ w, t'.candidates[id]? = some w ∧ cr.sha256 w = digest := by
    intro id digest
    have hmem := congrArg (fun rows => (id, digest) ∈ rows) hrows
    simpa [probeRows, Std.ExtTreeMap.mem_toList_iff_getElem?_eq_some] using hmem
  refine ext_graph fun id wire => ⟨fun hw => ?_, fun hw => ?_⟩
  · obtain ⟨w, hw', heq⟩ := hdigests.mp ⟨wire, hw, rfl⟩
    exact free w wire (ht' _ (Or.inl ⟨id, hw'⟩)) (ht _ (Or.inl ⟨id, hw⟩)) heq ▸ hw'
  · obtain ⟨w, hw', heq⟩ := hdigests.mpr ⟨wire, hw, rfl⟩
    exact free w wire (ht _ (Or.inl ⟨id, hw'⟩)) (ht' _ (Or.inl ⟨id, hw⟩)) heq ▸ hw'

/-! ## The tables only grow -/

/-- A rule identity and rows stay as they are. -/
structure Tables.Grows (t t' : Tables) : Prop where
  rule : t'.ruleIdentity = t.ruleIdentity
  row : ∀ {id : Hash} {wire : Bytes}, t.candidates[id]? = some wire → t'.candidates[id]? = some wire

theorem Tables.Grows.refl (t : Tables) : t.Grows t := ⟨rfl, fun h => h⟩

theorem Tables.Grows.trans {t'' : Tables} (h : t.Grows t') (h' : t'.Grows t'') : t.Grows t'' :=
  ⟨h'.rule.trans h.rule, fun hrow => h'.row (h.row hrow)⟩

theorem keepReceipt_rule {event : Hash} {receipt : Option SignedReceipt}
    (h : Store.keepReceipt cr t event receipt = .ok t') : t'.ruleIdentity = t.ruleIdentity := by
  cases receipt with
  | none =>
    obtain rfl := Except.ok.inj h
    rfl
  | some r =>
    simp only [Store.keepReceipt] at h
    split at h
    · cases h
    · obtain rfl := Except.ok.inj h
      rfl

theorem record_grows {bytes : Bytes} {observer : Option (SecretKey × FilterIdentity)}
    {now : BitVec 64} {judged : Judged} {a : Recorded}
    (h : store.record cr verify t bytes observer now judged = .ok a) :
    t.Grows a.tables ∧ ∀ e, a.outcome.event = some e → e ∈ a.tables.candidates := by
  have hcandidates := record_candidates h
  cases judged with
  | rejected reason =>
    obtain rfl := Except.ok.inj h
    exact ⟨⟨rfl, fun h => h⟩, nofun⟩
  | candidate d st au =>
    obtain ⟨receipt, -, h⟩ := bind_ok.mp h
    obtain ⟨tables, hkeep, h⟩ := bind_ok.mp h
    obtain rfl := Except.ok.inj h
    refine ⟨⟨(keepReceipt_rule hkeep).trans rfl, fun {id wire} hrow => ?_⟩, fun e he => ?_⟩
    · rw [hcandidates]
      exact getElem?_insertIfNew.mpr (Or.inl hrow)
    · obtain rfl := Option.some.inj he
      rw [hcandidates]
      exact mem_insertIfNew.mpr (Or.inl rfl)

theorem admit_grows {bytes : Bytes} {node : Option SecretKey} {now : BitVec 64} {a : Recorded}
    (h : store.admitOnce cr verify t bytes node now = some (.ok a)) :
    t.Grows a.tables ∧ ∀ e, a.outcome.event = some e → e ∈ a.tables.candidates := by
  obtain ⟨observer, -, h⟩ := lift_bind_ok.mp h
  obtain ⟨judged, -, h⟩ := run_bind_ok.mp h
  exact record_grows (Option.some.inj h)

end

/-! ## One step of a call -/

theorem lookup_some {c : Cache} {key : CacheKey} {s : Snapshot} (h : c.lookup key = some s) :
    c.entry = some (key, s) := by
  unfold Cache.lookup at h
  split at h
  · next cached s' hentry =>
    split_ifs at h with hkey
    rw [hentry, hkey, Option.some.inj h]
  · cases h

section
variable {P : Type} [DecidableEq P] {cr : Crypto} {verify : Verify} {instanceId : Hash}
variable {t : Tables} {caches : P → Cache} {h : Handle P} {c : P} {key : CacheKey} {s : Snapshot}

/-- The event of an admission that has committed is retained. -/
def AdmitStage.Kept (t : Tables) : AdmitStage → Prop
  | .committed (.ok (outcome, _)) | .returned (.ok (outcome, _)) =>
    ∀ e, outcome.event = some e → e ∈ t.candidates
  | _ => True

theorem invalidateSlot_entry {slot : Option P}
    (hentry : (invalidateSlot caches slot c).entry = some (key, s)) :
    (caches c).entry = some (key, s) := by
  cases slot with
  | none => exact hentry
  | some c' =>
    by_cases hc : c = c'
    · subst hc
      simp [invalidateSlot, Cache.invalidate] at hentry
    · rwa [invalidateSlot, Function.update_of_ne hc] at hentry

/-- An admission adds rows, retains its event and fills no cache. -/
theorem admit_advance {bytes : Bytes} {node : Option SecretKey} {now : BitVec 64}
    {stage next : AdmitStage} {t' : Tables} {caches' : P → Cache}
    (hnext : stage.advance cr verify instanceId t caches h bytes node now = (t', caches', next)) :
    t.Grows t' ∧ (stage.Kept t → next.Kept t') ∧
      ∀ {c key s}, (caches' c).entry = some (key, s) → (caches c).entry = some (key, s) := by
  cases stage with
  | begun =>
    simp only [AdmitStage.advance] at hnext
    split at hnext
    · obtain ⟨rfl, rfl, rfl⟩ := hnext
      exact ⟨.refl _, fun _ => trivial, fun h => h⟩
    · obtain ⟨rfl, rfl, rfl⟩ := hnext
      exact ⟨.refl _, fun _ => trivial, fun h => h⟩
    · next a ha =>
      obtain ⟨rfl, rfl, rfl⟩ := hnext
      exact ⟨(admit_grows ha).1, fun _ => (admit_grows ha).2, fun h => h⟩
  | committed result =>
    obtain ⟨rfl, rfl, rfl⟩ := hnext
    refine ⟨.refl _, fun kept => ?_, invalidateSlot_entry⟩
    cases result with
    | error e => trivial
    | ok r => exact kept
  | returned result | panicked =>
    obtain ⟨rfl, rfl, rfl⟩ := hnext
    exact ⟨.refl _, fun kept => kept, fun h => h⟩

theorem fillSlot_entry {slot : Option (P × BitVec 64)} {key' : CacheKey} {s' : Snapshot}
    (hentry : (fillSlot caches slot key' s' c).entry = some (key, s)) :
    (caches c).entry = some (key, s) ∨ key' = key ∧ s' = s := by
  cases slot with
  | none => exact Or.inl hentry
  | some slot =>
    obtain ⟨c', generation⟩ := slot
    by_cases hc : c = c'
    · subst hc
      rw [fillSlot, Function.update_self, Cache.fill] at hentry
      split_ifs at hentry
      · exact Or.inr (Prod.mk.inj (Option.some.inj hentry))
      · exact Or.inl hentry
    · rw [fillSlot, Function.update_of_ne hc] at hentry
      exact Or.inl hentry

/-- Only a fold fills a cache. -/
theorem snapshot_entry {requested : Option FoldRef} {stage : Stage P}
    (hentry : ((stage.advance cr verify instanceId t caches h requested).1 c).entry =
      some (key, s)) : (caches c).entry = some (key, s) ∨ ∃ filter slot all,
      stage = .folded filter slot all s ∧ keyOf cr filter (foldedRows cr all) = key := by
  cases stage with
  | folded filter slot all s' =>
    rcases fillSlot_entry hentry with hentry | ⟨hkey, rfl⟩
    · exact Or.inl hentry
    · exact Or.inr ⟨filter, slot, all, rfl, hkey⟩
  | begun | probed | missed | verified =>
    refine Or.inl ?_
    simp only [Stage.advance] at hentry
    split at hentry <;> exact hentry
  | ready | entered | returned | panicked => exact Or.inl hentry

end

theorem ready_congr {cr : Crypto} {store : Store} {t t' : Tables} {requested : Option FoldRef}
    (h : t'.ruleIdentity = t.ruleIdentity) :
    store.ready cr t' requested = store.ready cr t requested := by
  unfold Store.ready Store.semanticReadiness
  rw [h]

theorem snapshot_unready {cr : Crypto} {verify : Verify} {store : Store} {t : Tables}
    {requested : Option FoldRef} {e : StoreError} (hready : store.ready cr t requested = .error e) :
    store.snapshot cr verify t requested = some (.error e) := by
  rw [Store.snapshot, hready]
  rfl

theorem snapshot_corrupt {cr : Crypto} {verify : Verify} {store : Store} {t : Tables}
    {requested : Option FoldRef} {filter : FilterIdentity} {e : StoreError}
    (hready : store.ready cr t requested = .ok filter)
    (hall : store.verifiedCandidates cr verify t = .error e) :
    store.snapshot cr verify t requested = some (.error e) := by
  rw [Store.snapshot, hready, lift_ok, Store.folded, hall]
  rfl

theorem ready_recorded {cr : Crypto} {store : Store} {t : Tables} {requested : Option FoldRef}
    {filter : FilterIdentity} (h : store.ready cr t requested = .ok filter) :
    t.ruleIdentity = some (foldV1 cr, filter.canonical) := by
  refine (semantic_ready (ready_rule h)).mp ?_
  obtain ⟨rule, -, h⟩ := bind_ok.mp h
  split at h
  · next hsemantic => exact hsemantic
  · cases h
  · cases h

theorem eventReading_event {admission : BTreeMap Status} {authority : Authority}
    {selected : BTreeMap Hash} {states : RowStates} {item : Hash × Signed} {r : EventReading}
    (h : eventReading admission authority selected states item = some r) : r.event = item.1 := by
  obtain ⟨st, -, hr⟩ := Option.bind_eq_some_iff.mp h
  rw [← Option.some.inj hr]

/-- Every candidate has a row. -/
theorem project_row {cr : Crypto} {C : Candidates} {p : Projection} (h : project cr C = some p)
    {e : Hash} (he : e ∈ C) : ∃ row ∈ p.rows, row.event = e := by
  obtain ⟨s, hs⟩ := mem_iff.mp he
  unfold project at h
  simp only [Option.bind_eq_bind, Option.bind_eq_some_iff] at h
  obtain ⟨_, _, _, _, _, _, _, _, ⟨_, _⟩, _, ⟨_, _, _⟩, _, rows, hrows, hp⟩ := h
  obtain rfl := Option.some.inj hp
  obtain ⟨row, hrow, hreading⟩ := mapM_some hrows (e, s)
    (Std.ExtTreeMap.mem_toList_iff_getElem?_eq_some.mpr hs)
  exact ⟨row, hrow, eventReading_event hreading⟩

theorem snapshot_row {cr : Crypto} {verify : Verify} {store : Store} {t : Tables}
    {requested : Option FoldRef} {s : Snapshot} {e : Hash}
    (h : store.snapshot cr verify t requested = some (.ok s)) (he : e ∈ t.candidates) :
    ∃ row ∈ s.projection.rows, row.event = e := by
  simp only [Store.snapshot, Store.folded, run_bind_ok, liftExcept_ok, liftOption_ok] at h
  obtain ⟨filter, -, all, hall, hs⟩ := h
  obtain ⟨p, hp, hs⟩ := Option.bind_eq_some_iff.mp hs
  obtain rfl := Option.some.inj hs
  have hmem : e ∈ candidatesOf all :=
    mem_candidatesOf.mpr ((verified_mem (sound_of_verified hall) hall).mpr he)
  exact project_row hp hmem

/-! ## Runs -/

section
variable {P ι : Type} [DecidableEq P] [DecidableEq ι] {cr : Crypto} {verify : Verify}
variable {instanceId : Hash} {σ : Nat → System P ι} {i : ι} {h : Handle P}
variable {requested : Option FoldRef}

/-- What one step does to the state, whichever it is. -/
structure Moves (cr : Crypto) (verify : Verify) (instanceId : Hash) (s s' : System P ι) : Prop where
  tables : s.tables.Grows s'.tables
  snapshot : ∀ {i h requested stage}, s'.calls i = .snapshot h requested stage →
    s.calls i = .snapshot h requested stage ∨
    s.calls i = .idle ∧ h.Opened cr ∧ stage = .begun ∨
    ∃ old, s.calls i = .snapshot h requested old ∧
      stage = (old.advance cr verify instanceId s.tables s.caches h requested).2
  admission : ∀ {i h bytes node now stage}, s'.calls i = .admission h bytes node now stage →
    (∀ {stage}, s.calls i = .admission h bytes node now stage → stage.Kept s.tables) →
    stage.Kept s'.tables
  entry : ∀ {c key snap}, (s'.caches c).entry = some (key, snap) →
    (s.caches c).entry = some (key, snap) ∨ ∃ i h requested filter slot all,
      s.calls i = .snapshot h requested (.folded filter slot all snap) ∧
      keyOf cr filter (foldedRows cr all) = key

theorem AdmitStage.Kept.grows {t t' : Tables} (grows : t.Grows t') {stage : AdmitStage}
    (kept : stage.Kept t) : stage.Kept t' := by
  have hmem : ∀ {e : Hash}, e ∈ t.candidates → e ∈ t'.candidates := by
    intro e he
    obtain ⟨wire, hwire⟩ := mem_iff.mp he
    exact mem_of_getElem? (grows.row hwire)
  cases stage with
  | committed result | returned result =>
    cases result with
    | error e => trivial
    | ok r => exact fun e he => hmem (kept e he)
  | begun | panicked => trivial

omit [DecidableEq P] in
theorem update_cases {calls : ι → Call P} {i j : ι} {new call : Call P}
    (h : Function.update calls i new j = call) : j = i ∧ new = call ∨ calls j = call := by
  by_cases hji : j = i
  · subst hji
    rw [Function.update_self] at h
    exact Or.inl ⟨rfl, h⟩
  · rw [Function.update_of_ne hji] at h
    exact Or.inr h

theorem begin_moves {s : System P ι} {i : ι} {call : Call P} (hidle : s.calls i = .idle)
    (hsnapshot : ∀ {h requested stage}, call = .snapshot h requested stage →
      h.Opened cr ∧ stage = .begun)
    (hadmission : ∀ {h bytes node now stage}, call = .admission h bytes node now stage →
      stage = .begun) :
    Moves cr verify instanceId s { s with calls := Function.update s.calls i call } := by
  refine ⟨.refl _, fun hj => ?_, fun hj kept => ?_, Or.inl⟩
  · rcases update_cases hj with ⟨rfl, hcall⟩ | hj
    · exact Or.inr (Or.inl ⟨hidle, hsnapshot hcall⟩)
    · exact Or.inl hj
  · rcases update_cases hj with ⟨-, hcall⟩ | hj
    · rw [hadmission hcall]
      trivial
    · exact kept hj

theorem snapshot_moves {s : System P ι} {i : ι} {h : Handle P} {requested : Option FoldRef}
    {stage : Stage P} (hi : s.calls i = .snapshot h requested stage) :
    Moves cr verify instanceId s { s with
      caches := (stage.advance cr verify instanceId s.tables s.caches h requested).1
      calls := Function.update s.calls i (.snapshot h requested
        (stage.advance cr verify instanceId s.tables s.caches h requested).2) } := by
  refine ⟨.refl _, fun hj => ?_, fun hj kept => ?_, fun hentry => ?_⟩
  · rcases update_cases hj with ⟨rfl, hcall⟩ | hj
    · cases hcall
      exact Or.inr (Or.inr ⟨stage, hi, rfl⟩)
    · exact Or.inl hj
  · rcases update_cases hj with ⟨-, hcall⟩ | hj
    · cases hcall
    · exact kept hj
  · rcases snapshot_entry hentry with hold | ⟨filter, slot, all, rfl, hkey⟩
    · exact Or.inl hold
    · exact Or.inr ⟨i, h, requested, filter, slot, all, hi, hkey⟩

theorem admission_moves {s : System P ι} {i : ι} {h : Handle P} {bytes : Bytes}
    {node : Option SecretKey} {now : BitVec 64} {stage : AdmitStage}
    (hi : s.calls i = .admission h bytes node now stage) {t : Tables} {caches : P → Cache}
    {next : AdmitStage}
    (hnext : stage.advance cr verify instanceId s.tables s.caches h bytes node now =
      (t, caches, next)) :
    Moves cr verify instanceId s
      ⟨t, caches, Function.update s.calls i (.admission h bytes node now next)⟩ := by
  obtain ⟨grows, hkept, hentry⟩ := admit_advance hnext
  refine ⟨grows, fun hj => ?_, fun hj kept => ?_, fun h => Or.inl (hentry h)⟩
  · rcases update_cases hj with ⟨-, hcall⟩ | hj
    · cases hcall
    · exact Or.inl hj
  · rcases update_cases hj with ⟨rfl, hcall⟩ | hj
    · cases hcall
      exact hkept (kept hi)
    · exact (kept hj).grows grows

theorem step_moves {s s' : System P ι} (step : System.Step cr verify instanceId s s') :
    Moves cr verify instanceId s s' := by
  cases step with
  | snapshot i h requested hi hopen =>
    refine begin_moves hi (fun hcall => ?_) (fun hcall => ?_)
    · cases hcall
      exact ⟨hopen, rfl⟩
    · cases hcall
  | admission i h bytes node now hi hopen =>
    refine begin_moves hi (fun hcall => ?_) (fun hcall => ?_)
    · cases hcall
    · cases hcall
      rfl
  | advance i =>
    unfold System.advance
    split
    · exact ⟨.refl _, Or.inl, fun h kept => kept h, Or.inl⟩
    · next hi => exact snapshot_moves hi
    · next hi => exact admission_moves hi rfl

theorem System.Run.grows (run : System.Run cr verify instanceId σ) {m n : Nat} (h : m ≤ n) :
    (σ m).tables.Grows (σ n).tables := by
  induction n, h using Nat.le_induction with
  | base => exact .refl _
  | succ n _ ih => exact ih.trans (step_moves (run.step n)).tables

theorem System.Run.ready (run : System.Run cr verify instanceId σ) (n : Nat) :
    (h.store instanceId).ready cr (σ n).tables requested =
      (h.store instanceId).ready cr (σ 0).tables requested :=
  ready_congr (run.grows (Nat.zero_le n)).rule

/-- A moment up to `n` that the call does not begin after. -/
structure During (σ : Nat → System P ι) (i : ι) (h : Handle P) (requested : Option FoldRef)
    (k n : Nat) : Prop where
  le : k ≤ n
  begun : ∀ m ≤ n, (σ m).calls i = .snapshot h requested .begun → m ≤ k

omit [DecidableEq P] [DecidableEq ι] in
theorem During.succ {k n : Nat} (d : During σ i h requested k n)
    (hnext : (σ (n + 1)).calls i ≠ .snapshot h requested .begun) :
    During σ i h requested k (n + 1) := by
  refine ⟨d.le.trans (Nat.le_succ n), fun m hm hbegun => ?_⟩
  rcases Nat.le_succ_iff.mp hm with hm | rfl
  · exact d.begun m hm hbegun
  · exact absurd hbegun hnext

omit [DecidableEq P] [DecidableEq ι] in
theorem During.now {n : Nat} (hnext : (σ (n + 1)).calls i ≠ .snapshot h requested .begun) :
    During σ i h requested n (n + 1) :=
  During.succ ⟨le_rfl, fun _ hm _ => hm⟩ hnext

/-- What a call has seen when it is at a stage. -/
def Traced (cr : Crypto) (verify : Verify) (instanceId : Hash) (σ : Nat → System P ι) (i : ι)
    (h : Handle P) (requested : Option FoldRef) (n : Nat) : Stage P → Prop
  | .begun | .panicked => True
  | .ready filter _ | .entered filter _ _ | .missed filter _ =>
    (h.store instanceId).ready cr (σ 0).tables requested = .ok filter
  | .probed filter _ _ key =>
    (h.store instanceId).ready cr (σ 0).tables requested = .ok filter ∧
    ∃ k, During σ i h requested k n ∧ key = probe cr filter (σ k).tables
  | .verified filter _ all =>
    (h.store instanceId).ready cr (σ 0).tables requested = .ok filter ∧
    ∃ k, During σ i h requested k n ∧
      (h.store instanceId).verifiedCandidates cr verify (σ k).tables = .ok all
  | .folded filter _ all s =>
    (h.store instanceId).ready cr (σ 0).tables requested = .ok filter ∧
    (∃ k, During σ i h requested k n ∧
      (h.store instanceId).verifiedCandidates cr verify (σ k).tables = .ok all) ∧
    Snapshot.of cr filter (candidatesOf all) = some s
  | .returned result => ∃ k, During σ i h requested k n ∧
    (h.store instanceId).snapshot cr verify (σ k).tables requested = some result

omit [DecidableEq P] [DecidableEq ι] in
theorem Traced.succ {n : Nat} {stage : Stage P}
    (traced : Traced cr verify instanceId σ i h requested n stage)
    (hnext : (σ (n + 1)).calls i ≠ .snapshot h requested .begun) :
    Traced cr verify instanceId σ i h requested (n + 1) stage := by
  cases stage with
  | begun | panicked => trivial
  | ready | entered | missed => exact traced
  | probed =>
    obtain ⟨hready, k, d, hkey⟩ := traced
    exact ⟨hready, k, d.succ hnext, hkey⟩
  | verified =>
    obtain ⟨hready, k, d, hall⟩ := traced
    exact ⟨hready, k, d.succ hnext, hall⟩
  | folded =>
    obtain ⟨hready, ⟨k, d, hall⟩, hs⟩ := traced
    exact ⟨hready, ⟨k, d.succ hnext, hall⟩, hs⟩
  | returned =>
    obtain ⟨k, d, hs⟩ := traced
    exact ⟨k, d.succ hnext, hs⟩

/-- A key and a snapshot that were computed from the same rows, at some moment. -/
structure Cached (cr : Crypto) (verify : Verify) (instanceId : Hash) (σ : Nat → System P ι)
    (k : Nat) (key : CacheKey) (s : Snapshot) (filter : FilterIdentity) (all : BTreeMap Decoded) :
    Prop where
  governed : filter.isGoverned cr = true
  recorded : (σ 0).tables.ruleIdentity = some (foldV1 cr, filter.canonical)
  rows : (⟨instanceId, none⟩ : Store).verifiedCandidates cr verify (σ k).tables = .ok all
  key : keyOf cr filter (foldedRows cr all) = key
  folded : Snapshot.of cr filter (candidatesOf all) = some s

/-- No collision of SHA-256 among what the run hashes of its rows. -/
def System.Free (cr : Crypto) (σ : Nat → System P ι) : Prop :=
  Distinct cr fun b => ∃ n, (σ n).tables.Hashed cr b

/-- A hit returns what the store would fold of the rows that were probed. -/
theorem Cached.hit (run : System.Run cr verify instanceId σ) (free : System.Free cr σ)
    (hopen : h.Opened cr) {filter : FilterIdentity}
    (hready : (h.store instanceId).ready cr (σ 0).tables requested = .ok filter) {k j : Nat}
    {s : Snapshot} {filter' : FilterIdentity} {all : BTreeMap Decoded}
    (cached : Cached cr verify instanceId σ j (probe cr filter (σ k).tables) s filter' all) :
    (h.store instanceId).snapshot cr verify (σ k).tables requested = some (.ok s) := by
  have hcanonical := cached.recorded.symm.trans (ready_recorded hready)
  obtain rfl := canonical_inj cached.governed (hopen filter (ready_rule hready))
    (Prod.mk.inj (Option.some.inj hcanonical)).2
  have hkey := cached.key
  rw [foldedRows_eq cached.rows] at hkey
  have hrows := probe_inj free (fun b hb => ⟨j, hb⟩) (fun b hb => ⟨k, hb⟩) hkey
  refine snapshot_ok ((run.ready k).trans hready) ?_ cached.folded
  have hall := cached.rows
  unfold Store.verifiedCandidates at hall ⊢
  rw [← hrows]
  exact hall

theorem advance_begun {t : Tables} {caches : P → Cache} {old : Stage P}
    (h' : (old.advance cr verify instanceId t caches h requested).2 = .begun) : False := by
  cases old <;> simp only [Stage.advance] at h' <;> (try split at h') <;> cases h'

/-- What holds of every state of a run. -/
structure System.Invariant (cr : Crypto) (verify : Verify) (instanceId : Hash)
    (σ : Nat → System P ι) (n : Nat) : Prop where
  opened : ∀ {i h requested stage}, (σ n).calls i = .snapshot h requested stage → h.Opened cr
  traced : ∀ {i h requested stage}, (σ n).calls i = .snapshot h requested stage →
    Traced cr verify instanceId σ i h requested n stage
  kept : ∀ {j h bytes node now stage}, (σ n).calls j = .admission h bytes node now stage →
    stage.Kept (σ n).tables
  cached : ∀ {c key s}, ((σ n).caches c).entry = some (key, s) →
    ∃ k ≤ n, ∃ filter all, Cached cr verify instanceId σ k key s filter all

/-- One step of a call, from what it has seen to what it sees then. -/
theorem Traced.advance (run : System.Run cr verify instanceId σ) (free : System.Free cr σ) {n : Nat}
    (inv : System.Invariant cr verify instanceId σ n) {old : Stage P}
    (hold : (σ n).calls i = .snapshot h requested old)
    (hnext : (σ (n + 1)).calls i = .snapshot h requested
      (old.advance cr verify instanceId (σ n).tables (σ n).caches h requested).2) :
    Traced cr verify instanceId σ i h requested (n + 1)
      (old.advance cr verify instanceId (σ n).tables (σ n).caches h requested).2 := by
  have hbegun : (σ (n + 1)).calls i ≠ .snapshot h requested .begun := by
    rw [hnext]
    intro heq
    exact advance_begun (Call.snapshot.inj heq).2.2
  have now : During σ i h requested n (n + 1) := During.now hbegun
  have traced := inv.traced hold
  cases old with
  | begun =>
    simp only [Stage.advance]
    split
    · next e he => exact ⟨n, now, snapshot_unready he⟩
    · next filter hfilter _ => exact (run.ready n).symm.trans hfilter
    · next filter c hfilter _ => exact (run.ready n).symm.trans hfilter
  | ready => exact traced
  | entered => exact ⟨traced, n, now, rfl⟩
  | probed filter c generation key =>
    obtain ⟨hready, k, d, rfl⟩ := traced
    simp only [Stage.advance]
    split
    · next s hs =>
      obtain ⟨j, -, filter', all, cached⟩ := inv.cached (lookup_some hs)
      exact ⟨k, d.succ hbegun, cached.hit run free (inv.opened hold) hready⟩
    · exact hready
  | missed filter slot =>
    simp only [Stage.advance]
    split
    · next e he => exact ⟨n, now, snapshot_corrupt ((run.ready n).trans traced) he⟩
    · next all hall => exact ⟨traced, n, now, hall⟩
  | verified filter slot all =>
    obtain ⟨hready, k, d, hall⟩ := traced
    simp only [Stage.advance]
    split
    · trivial
    · next s hs => exact ⟨hready, ⟨k, d.succ hbegun, hall⟩, hs⟩
  | folded filter slot all s =>
    obtain ⟨hready, ⟨k, d, hall⟩, hs⟩ := traced
    exact ⟨k, d.succ hbegun, snapshot_ok ((run.ready k).trans hready) hall hs⟩
  | returned | panicked => exact traced.succ hbegun

theorem System.Run.invariant (run : System.Run cr verify instanceId σ) (free : System.Free cr σ)
    (n : Nat) : System.Invariant cr verify instanceId σ n := by
  induction n with
  | zero =>
    have hidle := run.initial.idle
    refine ⟨fun h => ?_, fun h => ?_, fun h => ?_, fun h => ?_⟩
    · cases (hidle _).symm.trans h
    · cases (hidle _).symm.trans h
    · cases (hidle _).symm.trans h
    · cases (run.initial.empty _).symm.trans h
  | succ n ih =>
    have moves := step_moves (run.step n)
    refine ⟨fun {i h requested stage} hcall => ?_, fun {i h requested stage} hcall => ?_,
      fun hcall => moves.admission hcall ih.kept, fun {c key s} hentry => ?_⟩
    · rcases moves.snapshot hcall with hcall | ⟨-, hopen, -⟩ | ⟨old, hcall, -⟩
      · exact ih.opened hcall
      · exact hopen
      · exact ih.opened hcall
    · rcases moves.snapshot hcall with hsame | ⟨-, -, rfl⟩ | ⟨old, hold, rfl⟩
      · by_cases hbegun : stage = .begun
        · subst hbegun
          trivial
        · refine (ih.traced hsame).succ ?_
          rw [hcall]
          exact fun heq => hbegun (Call.snapshot.inj heq).2.2
      · trivial
      · exact Traced.advance run free ih hold hcall
    · rcases moves.entry hentry with hold | ⟨i, h, requested, filter, slot, all, hcall, hkey⟩
      · obtain ⟨k, hk, hcached⟩ := ih.cached hold
        exact ⟨k, hk.trans (Nat.le_succ n), hcached⟩
      · obtain ⟨hready, ⟨k, d, hall⟩, hs⟩ := ih.traced hcall
        exact ⟨k, d.le.trans (Nat.le_succ n), filter, all,
          ih.opened hcall filter (ready_rule hready), ready_recorded hready, hall, hkey, hs⟩

end

/-- Every snapshot that a call returns is what the uncached store would have returned at some
moment of the call; an entry was folded from the rows its key is derived from; and a snapshot that
begins after an admission has returned has the admitted event. -/
theorem snapshot_linearizable {P ι : Type} [DecidableEq P] [DecidableEq ι] (cr : Crypto)
    (verify : Verify) (instanceId : Hash) (σ : Nat → System P ι)
    (run : System.Run cr verify instanceId σ) (free : System.Free cr σ) :
    (∀ i h requested result m n, m ≤ n → (σ m).calls i = .snapshot h requested .begun →
      (σ n).calls i = .snapshot h requested (.returned result) → ∃ k, m ≤ k ∧ k ≤ n ∧
        (h.store instanceId).snapshot cr verify (σ k).tables requested = some result) ∧
    (∀ c key s n, ((σ n).caches c).entry = some (key, s) → ∃ k ≤ n, ∃ filter all,
      (⟨instanceId, none⟩ : Store).verifiedCandidates cr verify (σ k).tables = .ok all ∧
      key = keyOf cr filter (foldedRows cr all) ∧
      Snapshot.of cr filter (candidatesOf all) = some s) ∧
    ∀ i h requested s m n j h' bytes node now outcome receipt e, m ≤ n →
      (σ m).calls j = .admission h' bytes node now (.returned (.ok (outcome, receipt))) →
      outcome.event = some e → (σ m).calls i = .snapshot h requested .begun →
      (σ n).calls i = .snapshot h requested (.returned (.ok s)) →
      ∃ row ∈ s.projection.rows, row.event = e := by
  have returned : ∀ {i h requested result m n}, m ≤ n →
      (σ m).calls i = .snapshot h requested .begun →
      (σ n).calls i = .snapshot h requested (.returned result) → ∃ k, m ≤ k ∧ k ≤ n ∧
        (h.store instanceId).snapshot cr verify (σ k).tables requested = some result := by
    intro i h requested result m n hmn hm hn
    obtain ⟨k, d, hk⟩ := (run.invariant free n).traced hn
    exact ⟨k, d.begun m hmn hm, d.le, hk⟩
  refine ⟨fun i h requested result m n hmn hm hn => returned hmn hm hn,
    fun c key s n hentry => ?_, ?_⟩
  · obtain ⟨k, hk, filter, all, cached⟩ := (run.invariant free n).cached hentry
    exact ⟨k, hk, filter, all, cached.rows, cached.key.symm, cached.folded⟩
  · intro i h requested s m n j h' bytes node now outcome receipt e hmn hj he hm hn
    obtain ⟨k, hmk, -, hk⟩ := returned hmn hm hn
    obtain ⟨wire, hwire⟩ := mem_iff.mp ((run.invariant free m).kept hj e he)
    exact snapshot_row hk (mem_of_getElem? ((run.grows hmk).row hwire))

/-! ## An admission beside two snapshots -/

inductive Caller where
  | admitting | beside | later
  deriving DecidableEq

/-- One process with three calls. -/
def busy (t : Tables) (cache : Cache) (a b c : Call Unit) : System Unit Caller where
  tables := t
  caches _ := cache
  calls
    | .admitting => a
    | .beside => b
    | .later => c

section
variable {cr : Crypto} {verify : Verify} {instanceId : Hash} {t t' : Tables}
variable {cache cache' : Cache} {a b c call : Call Unit} {h : Handle Unit}
variable {requested : Option FoldRef}

theorem set_admitting : System.mk t' (fun _ => cache')
    (Function.update (busy t cache a b c).calls .admitting call) = busy t' cache' call b c :=
  congrArg (System.mk t' _) (funext fun i => by cases i <;> rfl)

theorem set_beside : System.mk t' (fun _ => cache')
    (Function.update (busy t cache a b c).calls .beside call) = busy t' cache' a call c :=
  congrArg (System.mk t' _) (funext fun i => by cases i <;> rfl)

theorem set_later : System.mk t' (fun _ => cache')
    (Function.update (busy t cache a b c).calls .later call) = busy t' cache' a b call :=
  congrArg (System.mk t' _) (funext fun i => by cases i <;> rfl)

theorem step_congr {s s' s'' : System Unit Caller} (heq : s' = s'')
    (h : System.Step cr verify instanceId s s') : System.Step cr verify instanceId s s'' := heq ▸ h

theorem admitting_begins (hopen : h.Opened cr) (bytes : Bytes) (node : Option SecretKey)
    (now : BitVec 64) : System.Step cr verify instanceId (busy t cache .idle b c)
      (busy t cache (.admission h bytes node now .begun) b c) :=
  step_congr set_admitting (.admission Caller.admitting h bytes node now rfl hopen)

theorem beside_begins (hopen : h.Opened cr) : System.Step cr verify instanceId
    (busy t cache a .idle c) (busy t cache a (.snapshot h requested .begun) c) :=
  step_congr set_beside (.snapshot Caller.beside h requested rfl hopen)

theorem later_begins (hopen : h.Opened cr) : System.Step cr verify instanceId
    (busy t cache a b .idle) (busy t cache a b (.snapshot h requested .begun)) :=
  step_congr set_later (.snapshot Caller.later h requested rfl hopen)

theorem admitting_advances {bytes : Bytes} {node : Option SecretKey} {now : BitVec 64}
    {stage next : AdmitStage} (hnext : stage.advance cr verify instanceId t (fun _ => cache) h bytes
      node now = (t', fun _ => cache', next)) : System.Step cr verify instanceId
      (busy t cache (.admission h bytes node now stage) b c)
      (busy t' cache' (.admission h bytes node now next) b c) := by
  have hadvance := congrArg (fun next => System.mk next.1 next.2.1
    (Function.update (busy t cache (.admission h bytes node now stage) b c).calls .admitting
      (.admission h bytes node now next.2.2))) hnext
  exact step_congr (hadvance.trans set_admitting) (.advance Caller.admitting)

theorem beside_advances {stage next : Stage Unit} (hnext : stage.advance cr verify instanceId t
      (fun _ => cache) h requested = (fun _ => cache', next)) : System.Step cr verify instanceId
      (busy t cache a (.snapshot h requested stage) c)
      (busy t cache' a (.snapshot h requested next) c) := by
  have hadvance := congrArg (fun next => System.mk t next.1
    (Function.update (busy t cache a (.snapshot h requested stage) c).calls .beside
      (.snapshot h requested next.2))) hnext
  exact step_congr (hadvance.trans set_beside) (.advance Caller.beside)

theorem later_advances {stage next : Stage Unit} (hnext : stage.advance cr verify instanceId t
      (fun _ => cache) h requested = (fun _ => cache', next)) : System.Step cr verify instanceId
      (busy t cache a b (.snapshot h requested stage))
      (busy t cache' a b (.snapshot h requested next)) := by
  have hadvance := congrArg (fun next => System.mk t next.1
    (Function.update (busy t cache a b (.snapshot h requested stage)).calls .later
      (.snapshot h requested next.2))) hnext
  exact step_congr (hadvance.trans set_later) (.advance Caller.later)

end

namespace Sample

def adaHandle : Handle Unit := ⟨some adaFilter, some ()⟩

/-- An admission into an empty store. A snapshot that begins before it commits folds what it left;
another, begun when both have returned, finds that in the cache. -/
def adaRun (wire : Bytes) (a : Recorded) (key : CacheKey) (all : BTreeMap Decoded) (s : Snapshot) :
    Nat → System Unit Caller :=
  let t := a.tables
  let admission := Call.admission adaHandle wire none 0
  let snapshot := Call.snapshot adaHandle none
  let committed := admission (.committed (.ok (a.outcome, a.receipt)))
  let returned := admission (.returned (.ok (a.outcome, a.receipt)))
  let done := snapshot (.returned (.ok s))
  fun
  | 0 => busy (adaTables []) ⟨0, none⟩ .idle .idle .idle
  | 1 => busy (adaTables []) ⟨0, none⟩ .idle (snapshot .begun) .idle
  | 2 => busy (adaTables []) ⟨0, none⟩ (admission .begun) (snapshot .begun) .idle
  | 3 => busy t ⟨0, none⟩ committed (snapshot .begun) .idle
  | 4 => busy t ⟨0, none⟩ committed (snapshot (.ready adaFilter ())) .idle
  | 5 => busy t ⟨1, none⟩ returned (snapshot (.ready adaFilter ())) .idle
  | 6 => busy t ⟨1, none⟩ returned (snapshot (.entered adaFilter () 1)) .idle
  | 7 => busy t ⟨1, none⟩ returned (snapshot (.probed adaFilter () 1 key)) .idle
  | 8 => busy t ⟨1, none⟩ returned (snapshot (.missed adaFilter (some ((), 1)))) .idle
  | 9 => busy t ⟨1, none⟩ returned (snapshot (.verified adaFilter (some ((), 1)) all)) .idle
  | 10 => busy t ⟨1, none⟩ returned (snapshot (.folded adaFilter (some ((), 1)) all s)) .idle
  | 11 => busy t ⟨1, some (key, s)⟩ returned done .idle
  | 12 => busy t ⟨1, some (key, s)⟩ returned done (snapshot .begun)
  | 13 => busy t ⟨1, some (key, s)⟩ returned done (snapshot (.ready adaFilter ()))
  | 14 => busy t ⟨1, some (key, s)⟩ returned done (snapshot (.entered adaFilter () 1))
  | 15 => busy t ⟨1, some (key, s)⟩ returned done (snapshot (.probed adaFilter () 1 key))
  | _ => busy t ⟨1, some (key, s)⟩ returned done done

theorem adaFilter_governed : adaFilter.isGoverned adaCrypto = true := by
  have hcurators : ¬ (adaFilter.curators.isEmpty = true ∨ ¬ Increasing adaFilter.curators ∨
      (adaFilter.curators.any fun k => !adaCrypto.authorKey k) = true) := by decide
  have hgoverned : FilterIdentity.governed adaCrypto adaFilter.curators adaFilter.maxHops =
      .ok adaFilter := by
    rw [FilterIdentity.governed, if_neg hcurators, if_neg (by decide)]
    rfl
  simp [FilterIdentity.isGoverned, hgoverned]

theorem adaHandle_store : adaHandle.store 1 = adaStore := rfl

theorem adaHandle_opened : adaHandle.Opened adaCrypto := by
  intro filter hfilter
  obtain rfl := Option.some.inj hfilter
  exact adaFilter_governed

section
variable {wire : Bytes} {a : Recorded} {key : CacheKey} {all : BTreeMap Decoded} {s : Snapshot}

theorem adaRun_run
    (haccepted : adaStore.admitOnce adaCrypto adaVerify (adaTables []) wire none 0 = some (.ok a))
    (bound : adaStore.Bound adaCrypto a.tables adaFilter)
    (hall : adaStore.verifiedCandidates adaCrypto adaVerify a.tables = .ok all)
    (hs : Snapshot.of adaCrypto adaFilter (candidatesOf all) = some s)
    (hkey : probe adaCrypto adaFilter a.tables = key) :
    System.Run adaCrypto adaVerify 1 (adaRun wire a key all s) := by
  have hready : adaStore.ready adaCrypto a.tables none = .ok adaFilter := bound.ready (by simp)
  have hfolded : keyOf adaCrypto adaFilter (foldedRows adaCrypto all) = key := by
    rw [foldedRows_eq hall]
    exact hkey
  have hhit : Cache.lookup ⟨1, some (key, s)⟩ key = some s := if_pos rfl
  refine ⟨⟨fun i => by cases i <;> rfl, fun _ => rfl⟩, fun n => ?_⟩
  match n with
  | 0 => exact beside_begins adaHandle_opened
  | 1 => exact admitting_begins adaHandle_opened wire none 0
  | 2 =>
    refine admitting_advances ?_
    rw [AdmitStage.advance, adaHandle_store, haccepted]
  | 3 =>
    refine beside_advances ?_
    rw [Stage.advance, adaHandle_store, hready]
    rfl
  | 4 => exact admitting_advances rfl
  | 5 | 7 => exact beside_advances rfl
  | 6 =>
    refine beside_advances ?_
    rw [Stage.advance, hkey]
  | 8 =>
    refine beside_advances ?_
    rw [Stage.advance, adaHandle_store, hall]
  | 9 =>
    refine beside_advances ?_
    rw [Stage.advance, hs]
  | 10 =>
    refine beside_advances ?_
    rw [Stage.advance, hfolded]
    rfl
  | 11 => exact later_begins adaHandle_opened
  | 12 =>
    refine later_advances ?_
    rw [Stage.advance, adaHandle_store, hready]
    rfl
  | 13 => exact later_advances rfl
  | 14 =>
    refine later_advances ?_
    rw [Stage.advance, hkey]
  | 15 =>
    refine later_advances ?_
    rw [Stage.advance, hhit]
  | n + 16 => exact later_advances rfl

theorem adaRun_tables (n : Nat) : (adaRun wire a key all s n).tables = adaTables [] ∨
    (adaRun wire a key all s n).tables = a.tables := by
  match n with
  | 0 | 1 | 2 => exact Or.inl rfl
  | 3 | 4 | 5 | 6 | 7 | 8 | 9 | 10 | 11 | 12 | 13 | 14 | 15 | _ + 16 => exact Or.inr rfl

/-- The digest of the wire bytes of `ada`. -/
def adaWireDigest : Hash := 0xd164b1cdbe17dc50b01595ae70fb6f37ada8259881f158f1a037dac887776793

theorem adaRun_free {id : Hash} (htables : a.tables = adaTables [(id, wire)]) (hid : id = adaId)
    (hlen : wire.length = 256) (hbyte : wire.getD 3 0 = 11) :
    System.Free adaCrypto (adaRun wire a key all s) := by
  have hwire : adaCrypto.sha256 wire = adaWireDigest := by
    simp only [adaCrypto, hlen, hbyte]
    rfl
  have hrows : probeRows adaCrypto (adaTables [(id, wire)]) = [(adaId, adaWireDigest)] := by
    rw [probeRows, adaTables_list, hid, ← hwire]
    rfl
  have hcontent : adaCrypto.sha256 (contentOf [(adaId, adaWireDigest)]) =
      0xae799e2f927ccaadc49b0a1864663ade5b232719dc6eff20a2db9c665d9c4824 := by decide
  have hempty : adaCrypto.sha256 [] = adaCommitment := rfl
  have hcases : ∀ b, (∃ n, (adaRun wire a key all s n).tables.Hashed adaCrypto b) →
      b = [] ∨ b = wire ∨ b = contentOf [(adaId, adaWireDigest)] := by
    rintro b ⟨n, hb⟩
    rcases @adaRun_tables wire a key all s n with hn | hn
    · rw [hn] at hb
      rcases hb with ⟨id', hrow⟩ | hb
      · simp [adaTables] at hrow
      · exact Or.inl hb
    · rw [hn, htables] at hb
      rcases hb with ⟨id', hrow⟩ | hb
      · exact Or.inr (Or.inl (Prod.mk.inj (List.mem_singleton.mp (adaTables_row.mp hrow))).2)
      · exact Or.inr (Or.inr (hrows ▸ hb))
  intro a b ha hb heq
  rcases hcases a ha with rfl | rfl | rfl <;> rcases hcases b hb with rfl | rfl | rfl <;>
    simp only [hempty, hwire, hcontent] at heq <;> first | rfl | exact absurd heq (by decide)

end

theorem adaTables_inserted (id : Hash) (wire : Bytes) :
    { adaTables [] with candidates := (adaTables []).candidates.insertIfNew id wire } =
      adaTables [(id, wire)] := by
  have hrows : (adaTables []).candidates.insertIfNew id wire =
      (adaTables [(id, wire)]).candidates := ext_graph fun r w => by
    rw [getElem?_insertIfNew, adaTables_row]
    simp [adaTables]
  rw [hrows]
  rfl

end Sample

/-- Both snapshots are the one of the store that holds `ada`, and the later one has it. -/
theorem snapshot_linearizable_ada : ∃ (d : Decoded) (a : Recorded) (key : CacheKey)
    (all : BTreeMap Decoded) (s : Snapshot),
    decode Sample.adaCrypto Sample.adaVerify d.bytes = .ok d ∧ d.envelope = Sample.ada ∧
    a.outcome.event = some d.id ∧
    let σ := Sample.adaRun d.bytes a key all s
    (σ 1).calls .beside = .snapshot Sample.adaHandle none .begun ∧
    (σ 5).calls .admitting =
      .admission Sample.adaHandle d.bytes none 0 (.returned (.ok (a.outcome, a.receipt))) ∧
    (σ 11).calls .beside = .snapshot Sample.adaHandle none (.returned (.ok s)) ∧
    (σ 12).calls .later = .snapshot Sample.adaHandle none .begun ∧
    (σ 16).calls .later = .snapshot Sample.adaHandle none (.returned (.ok s)) ∧
    (∃ k, 1 ≤ k ∧ k ≤ 11 ∧ (Sample.adaHandle.store 1).snapshot Sample.adaCrypto Sample.adaVerify
      (σ k).tables none = some (.ok s)) ∧
    ∃ row ∈ s.projection.rows, row.event = d.id := by
  obtain ⟨d, hd, he, hid, hlen, hbyte⟩ := Sample.ada_decodes
  have sound := Sample.adaTables_sound hd he
  obtain ⟨all, hall, hspec⟩ := verified_spec sound
  have hrow : (Sample.adaTables [(d.id, d.bytes)]).candidates[d.id]? = some d.bytes :=
    Sample.adaTables_row.mpr List.mem_cons_self
  have hmem : ∀ r ∈ candidatesOf all, r = Sample.adaId := by
    intro r hr
    rw [mem_candidatesOf, verified_mem sound hall] at hr
    exact hid ▸ Sample.adaTables_mem.mp hr
  have free := Sample.ada_free hmem
  obtain ⟨s, hs, -⟩ := exists_snapshot free Sample.adaFilter
  have hadmissible : Sample.adaStore.Admissible Sample.adaCrypto Sample.adaVerify
      (candidatesOf all) d := by
    refine ⟨hd, by rw [he]; rfl, getElem?_candidatesOf.mpr ⟨d, ?_, rfl⟩⟩
    exact (hspec d.id d).mpr ⟨d.bytes, hrow, hd⟩
  have fresh : Sample.adaStore.Sound Sample.adaCrypto Sample.adaVerify (Sample.adaTables []) :=
    (Store.Reachable.fresh _).sound
  obtain ⟨a, haccepted, htables, hevent⟩ := admit_candidate free fresh
    ⟨fun h => by simp [Sample.adaTables] at h⟩ hadmissible
  rw [Sample.adaTables_inserted] at htables
  have run := Sample.adaRun_run haccepted (htables ▸ Sample.adaStore_bound _) (htables ▸ hall) hs
    rfl
  obtain ⟨hreturns, -, hlater⟩ := snapshot_linearizable Sample.adaCrypto Sample.adaVerify 1 _ run
    (Sample.adaRun_free htables hid hlen hbyte)
  exact ⟨d, a, _, all, s, hd, he, hevent, rfl, rfl, rfl, rfl, rfl,
    hreturns .beside Sample.adaHandle none (.ok s) 1 11 (by decide) rfl rfl,
    hlater .later Sample.adaHandle none s 12 16 .admitting Sample.adaHandle d.bytes none 0 a.outcome
      a.receipt d.id (by decide) rfl hevent rfl rfl⟩

end Clockchain.V1
