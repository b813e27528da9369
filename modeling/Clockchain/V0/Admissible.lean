import Clockchain.V0.Taxonomy

/-!
# Admissible entries

What an entry must hold. A reading says which values count as a year, as a count and as a filled
text, and what is white space. The gate keeps these rules in its own reading, and some of its own.
-/

namespace Clockchain.V0.Authoring
open Publisher
open V1.Publisher (isWhitespace trim)
open Words (strip any_strip)
set_option autoImplicit false

/-! ## Readings -/

/-- How a check reads values whose kind it does not look at first. -/
structure Reading where
  year : Value → Bool
  count : Value → Bool
  absent : Value → Bool
  space : Char → Bool
  printed : Value → Bool

def Reading.filled (r : Reading) : Value → Bool
  | .str s => !(strip r.space s.toList).isEmpty
  | v => r.printed v

/-- The reading of the gate: `as_i64`, `as_str` and `str::trim`. -/
def gateReading : Reading where
  year v := v.asI64.isSome
  count v := v.asI64.any (1 ≤ ·)
  absent _ := false
  space := isWhitespace
  printed _ := false

/-- White space is in no case. -/
structure Caseless (u : Unicode) (space : Char → Bool) : Prop where
  upper : ∀ c, space c = true → u.isUppercase c = false
  lower : ∀ c, space c = true → u.isLowercase c = false

/-! ## The rules -/

/-- More than white space, and with a capital if its script has them. -/
def Headed (u : Unicode) (r : Reading) (s : String) : Prop :=
  strip r.space s.toList ≠ [] ∧ (isCasedScript u s = true → s.toList.any u.isUppercase = true)

/-- A field of an object. -/
def Holds (r : Reading) (m : List (String × Value)) (field : String) : Prop :=
  ∃ v, (Value.obj m).get? field = some v ∧ r.filled v = true

/-- A node of the taxonomy, declared with its lens. -/
def Typed (t : Taxonomy) (e : Value) (ct : String) : Prop :=
  t.isValidTtId ct = true ∧ ∃ l, e.get? "lens" = some (.str l) ∧ t.lensOf ct = some l

/-- A node of the taxonomy neither above nor below another. -/
structure Competes (t : Taxonomy) (ct s : String) : Prop where
  valid : t.isValidTtId s = true
  above : t.isAncestorOf s ct = false
  below : t.isAncestorOf ct s = false

/-- Competing nodes, each once. -/
structure Competing (t : Taxonomy) (ct : String) (alts : List String) : Prop where
  distinct : alts.Nodup
  competes : ∀ s ∈ alts, Competes t ct s

def crossLens (t : Taxonomy) (ct : String) (alts : List String) : Bool :=
  alts.any fun s => (t.lensOf s).isSome && t.lensOf s ≠ t.lensOf ct

/-- The alternatives to a type: none, or competing ones whose lens flag, if there is one, is the
one they have. -/
def Compared (t : Taxonomy) (r : Reading) (e : Value) (ct : String) : Prop :=
  match e.get? "claim_type_alternatives" with
  | none => e.get? "alternatives_cross_lens" ≠ some (.bool true)
  | some v => (r.absent v = true ∧ e.get? "alternatives_cross_lens" ≠ some (.bool true)) ∨
      ∃ alts, v = .arr (alts.map .str) ∧ Competing t ct alts ∧
        ∀ w, e.get? "alternatives_cross_lens" = some w → w = .bool (crossLens t ct alts)

/-- The rules of an entry that are checked on both sides. -/
structure Admissible (u : Unicode) (t : Taxonomy) (r : Reading) (e : Value) : Prop where
  names : ∀ m ∈ e.asObject.getD [], m.1 ∈ allowedFields
  dated : e.get? "date_is_known" = some (.bool true)
  year : ∃ v, e.get? "year" = some v ∧ r.year v = true
  title : ∃ s, e.get? "title" = some (.str s) ∧ Headed u r s
  type : ∃ ct, e.get? "claim_type" = some (.str ct) ∧ Typed t e ct ∧ Compared t r e ct
  bundle : e.get? "tt_bundle_sha256" = some (.str t.sha256)
  kind : ∃ k, e.get? "temporal_kind" = some (.str k) ∧ (k = "event" ∨ k = "process")
  count : ∃ v, e.get? "observed_count" = some v ∧ r.count v = true
  summary : ∃ s, e.get? "summary" = some (.str s) ∧
    minSummaryChars ≤ (strip r.space s.toList).length
  measured : ∃ m, e.get? "prov_measured" = some (.obj m) ∧ ∀ f ∈ provMeasuredFields, Holds r m f
  asserted : ∃ m, e.get? "prov_asserted" = some (.obj m) ∧ Holds r m "historical_claim"

/-- The rules that only the gate has. -/
structure Clear (u : Unicode) (b : Bundle) (e : Value) : Prop where
  year : ∀ v, e.get? "year" = some v → ∀ y, v.asI64 = some y → yearMin ≤ y ∧ y ≤ yearMax
  title : ∀ s, e.get? "title" = some (.str s) → endsInYear (trim s).toList = false ∧
    ¬ [',', ' ', '-'] <:+: (trim s).toList ∧ endsInSlugs (trim s).toList = false
  live : ∀ ct, e.get? "claim_type" = some (.str ct) → b.resolveTtId ct = ct
  profile : checkClassification u b e = []
  release : ∃ s, e.get? "tt_release" = some (.str s) ∧ filled s = true

/-! ## The gate -/

/-- The rules of the gate that `check-admission.py` has too. -/
def implemented : List String :=
  ["field-unknown", "date-not-known", "year-missing", "year-not-integer", "title-missing",
   "title-not-capitalised", "claim-type-missing", "claim-type-invalid", "lens-missing",
   "lens-mismatch", "claim-type-alternative-invalid", "claim-type-alternative-is-ancestor",
   "claim-type-alternative-is-descendant", "alternatives-cross-lens-mismatch",
   "tt-bundle-mismatch", "temporal-kind-invalid", "observed-count-invalid", "summary-too-short",
   "prov-measured-incomplete", "prov-asserted-incomplete"]

/-- None of these rules is broken. -/
def Silent (rs : List Rejection) : Prop := ∀ r ∈ rs, r.rule ∉ implemented

/-- No other rule is broken. -/
def Heeded (rs : List Rejection) : Prop := ∀ r ∈ rs, r.rule ∈ implemented

section
variable {u : Unicode} {b : Bundle} {t : Taxonomy} {e : Value} {xs ys : List Rejection}
  {rule detail : String} {validate : Value → Except (List String) Value}

@[simp] theorem silent_nil : Silent [] ↔ True := iff_of_true (fun _ hr => nomatch hr) trivial

@[simp] theorem silent_append : Silent (xs ++ ys) ↔ Silent xs ∧ Silent ys := List.forall_mem_append

@[simp] theorem silent_reject : Silent [reject rule detail] ↔ rule ∉ implemented :=
  List.forall_mem_singleton

theorem silent_unless {c : Prop} [Decidable c] (h : rule ∈ implemented) :
    Silent (if c then [] else [reject rule detail]) ↔ c := by
  split
  · next hc => exact iff_of_true (silent_nil.2 trivial) hc
  · next hc => exact iff_of_false (fun hs => silent_reject.1 hs h) hc

theorem silent_if {c : Prop} [Decidable c] :
    Silent (if c then [reject rule detail] else []) ↔ (c → rule ∉ implemented) := by
  split
  · next hc => rw [silent_reject, forall_prop_of_true hc]
  · next hc => exact iff_of_true (silent_nil.2 trivial) fun h => absurd h hc

theorem silent_names {members : List (String × Value)} {f : String → String} :
    Silent (((members.map Prod.fst).filter fun k => !allowedFields.contains k).map fun k =>
      reject "field-unknown" (f k)) ↔ ∀ m ∈ members, m.1 ∈ allowedFields := by
  constructor
  · intro h m hm
    by_contra hnot
    refine h (reject "field-unknown" (f m.1)) (List.mem_map.2 ⟨m.1, ?_, rfl⟩)
      (show "field-unknown" ∈ implemented by decide)
    refine List.mem_filter.2 ⟨List.mem_map_of_mem hm, ?_⟩
    simpa using hnot
  · intro h r hr
    obtain ⟨k, hk, -⟩ := List.mem_map.1 hr
    obtain ⟨hk, hnot⟩ := List.mem_filter.1 hk
    obtain ⟨m, hm, rfl⟩ := List.mem_map.1 hk
    have hin := h m hm
    simp [hin] at hnot

/-! ### Texts -/

theorem toList_trim (s : String) : (trim s).toList = strip isWhitespace s.toList :=
  String.toList_ofList

theorem filled_iff {s : String} : filled s = true ↔ strip isWhitespace s.toList ≠ [] := by
  rw [filled, ← toList_trim]
  simp

theorem bind_asStr {x : Option Value} {s : String} :
    x.bind Value.asStr = some s ↔ x = some (.str s) := by
  rw [Option.bind_eq_some_iff]
  constructor
  · rintro ⟨v, rfl, hv⟩
    cases v with
    | str s' => rw [Option.some.inj hv]
    | _ => nomatch hv
  · rintro rfl
    exact ⟨_, rfl, rfl⟩

theorem bind_asStr_none {x : Option Value} (h : x.bind Value.asStr = none) (s : String) :
    x ≠ some (.str s) := by
  rintro rfl
  nomatch h

/-- A field that must hold a text. -/
theorem strField_cases (e : Value) (key rule : String) :
    (∃ s, e.get? key = some (.str s) ∧ filled s = true ∧ checkStrField e key rule = .ok s) ∨
      ∃ detail, (∀ s, e.get? key = some (.str s) → filled s = false) ∧
        checkStrField e key rule = .error (reject rule detail) := by
  rw [checkStrField]
  split
  · next s hs =>
    rw [bind_asStr] at hs
    split
    · next hfill => exact .inl ⟨s, hs, hfill, rfl⟩
    · next hfill =>
      refine .inr ⟨_, fun s' hs' => ?_, rfl⟩
      obtain rfl := Value.str.inj (Option.some.inj (hs.symm.trans hs'))
      exact Bool.eq_false_iff.2 hfill
  · next hnone => exact .inr ⟨_, fun s hs => absurd hs (bind_asStr_none hnone s), rfl⟩

theorem silent_checkTitle (hcase : Caseless u isWhitespace) {s : String} (h : filled s = true) :
    Silent (checkTitle u s) ↔ (isCasedScript u s = true → s.toList.any u.isUppercase = true) := by
  have hupper : (trim s).toList.any u.isUppercase = s.toList.any u.isUppercase := by
    rw [toList_trim, any_strip hcase.upper]
  have hcased : isCasedScript u (trim s) = isCasedScript u s := by
    rw [isCasedScript, isCasedScript, toList_trim, any_strip]
    intro c hc
    rw [hcase.upper c hc, hcase.lower c hc, Bool.or_false]
  rw [filled, Bool.not_eq_true'] at h
  rw [checkTitle, if_neg (by rw [h]; exact Bool.false_ne_true), hupper, hcased]
  simp only [silent_append, silent_if, Bool.and_eq_true, Bool.not_eq_true']
  constructor
  · rintro ⟨⟨⟨h, -⟩, -⟩, -⟩ hcased
    by_contra hnot
    exact h ⟨hcased, Bool.not_eq_true _ ▸ hnot⟩ (by decide)
  · intro h
    refine ⟨⟨⟨fun hbad => ?_, fun _ => by decide⟩, fun _ => by decide⟩, fun _ => by decide⟩
    rw [h hbad.1] at hbad
    exact absurd hbad.2 (by decide)

theorem silent_title (hcase : Caseless u isWhitespace) : Silent (checkTitleField u e) ↔
    ∃ s, e.get? "title" = some (.str s) ∧ Headed u gateReading s := by
  rw [checkTitleField]
  obtain ⟨s, hs, hfill, hok⟩ | ⟨detail, hnone, herror⟩ :=
    strField_cases e "title" "title-missing"
  · simp only [hok, silent_checkTitle hcase hfill]
    constructor
    · exact fun h => ⟨s, hs, filled_iff.1 hfill, h⟩
    · rintro ⟨s', hs', -, h⟩
      obtain rfl := Value.str.inj (Option.some.inj (hs.symm.trans hs'))
      exact h
  · simp only [herror]
    refine iff_of_false (fun h => silent_reject.1 h (by decide)) ?_
    rintro ⟨s, hs, h, -⟩
    exact absurd ((hnone s hs).symm.trans (filled_iff.2 h)) Bool.false_ne_true

/-! ### The other fields -/

theorem silent_year : Silent (checkYear e).2 ↔
    ∃ v, e.get? "year" = some v ∧ gateReading.year v = true := by
  rw [checkYear]
  cases hfield : e.get? "year" with
  | none =>
    exact iff_of_false (fun h => silent_reject.1 h (by decide)) (by rintro ⟨v, hv, -⟩; cases hv)
  | some v =>
    simp only [gateReading, Option.some.injEq, exists_eq_left']
    cases hint : v.asI64 with
    | none => exact iff_of_false (fun h => silent_reject.1 h (by decide)) Bool.false_ne_true
    | some y =>
      refine iff_of_true ?_ rfl
      dsimp only
      split
      · exact silent_nil.2 trivial
      · exact silent_reject.2 (by decide)

theorem silent_dateIsKnown (year : Option Int) : Silent (checkDateIsKnown e year) ↔
    e.get? "date_is_known" = some (.bool true) := by
  unfold checkDateIsKnown
  split
  · next h => exact iff_of_true (silent_nil.2 trivial) h
  · next h =>
    refine iff_of_false (fun hs => silent_reject.1 hs (by decide)) ?_
    rw [h]
    intro heq
    cases heq
  · next v hfalse htrue h =>
    refine iff_of_false (fun hs => silent_reject.1 hs (by decide)) ?_
    rintro heq
    exact hfalse (Option.some.inj (h.symm.trans heq))
  · next h =>
    refine iff_of_false (fun hs => silent_reject.1 hs (by decide)) ?_
    rw [h]
    intro heq
    cases heq

theorem silent_lens {actual live : String} (hlens : b.lensOf live = some actual) :
    Silent (checkLens u b e live) ↔ e.get? "lens" = some (.str actual) := by
  rw [checkLens, hlens]
  cases hdeclared : (e.get? "lens").bind Value.asStr with
  | none =>
    exact iff_of_false (fun h => silent_reject.1 h (by decide)) (bind_asStr_none hdeclared actual)
  | some declared =>
    rw [bind_asStr] at hdeclared
    rw [hdeclared]
    dsimp only
    rw [silent_if, Option.some.injEq, Value.str.injEq]
    constructor
    · intro h
      by_contra hne
      exact h hne (by decide)
    · exact fun heq hne => absurd heq hne

theorem silent_claimType : Silent (checkClaimType u (t.bundle validate) e) ↔
    ∃ ct, e.get? "claim_type" = some (.str ct) ∧ Typed t e ct := by
  rw [checkClaimType]
  obtain ⟨ct, hct, hfill, hok⟩ | ⟨detail, hnone, herror⟩ :=
    strField_cases e "claim_type" "claim-type-missing"
  · have hunique : (∃ ct, e.get? "claim_type" = some (.str ct) ∧ Typed t e ct) ↔ Typed t e ct := by
      constructor
      · rintro ⟨ct', hct', h⟩
        obtain rfl := Value.str.inj (Option.some.inj (hct.symm.trans hct'))
        exact h
      · exact fun h => ⟨ct, hct, h⟩
    rw [hunique, hok]
    by_cases hvalid : t.isValidTtId ct = true
    · obtain ⟨actual, hlens⟩ : ∃ l, t.lensOf ct = some l := by
        rw [← Option.isSome_iff_exists, Taxonomy.lensOf_isSome, hvalid]
      have hlive : (t.bundle validate).lensOf ((t.bundle validate).resolveTtId ct) = some actual :=
        Taxonomy.lensOf_resolveTtId.trans hlens
      have hbad : ¬ (!(t.bundle validate).isValidTtId ct) = true := by
        rw [Bool.not_eq_true', ← Bool.not_eq_true]
        exact fun h => h hvalid
      dsimp only
      rw [if_neg hbad, silent_append, silent_if, silent_lens hlive, Typed, hvalid, hlens]
      constructor
      · exact fun h => ⟨rfl, actual, h.2, rfl⟩
      · rintro ⟨-, l, hl, heq⟩
        obtain rfl := Option.some.inj heq
        exact ⟨fun _ => by decide, hl⟩
    · have hbad : (!(t.bundle validate).isValidTtId ct) = true := by
        rw [Bool.not_eq_true', ← Bool.not_eq_true]
        exact hvalid
      dsimp only
      rw [if_pos hbad]
      exact iff_of_false (fun h => silent_reject.1 h (by decide)) fun h => hvalid h.1
  · rw [herror]
    refine iff_of_false (fun h => silent_reject.1 h (by decide)) ?_
    rintro ⟨ct, hct, hvalid, -⟩
    exact absurd ((hnone ct hct).symm.trans (Taxonomy.filled_of_valid hvalid)) Bool.false_ne_true

theorem silent_classification : Silent (checkClassification u b e) := by
  rw [checkClassification]
  split
  · exact silent_nil.2 trivial
  split
  · intro r hr
    obtain ⟨x, -, rfl⟩ := List.mem_map.1 hr
    exact (show "classification-invalid" ∉ implemented by decide)
  dsimp only
  split
  · exact silent_nil.2 trivial
  split
  · exact silent_nil.2 trivial
  split
  · exact silent_nil.2 trivial
  · exact silent_reject.2 (by decide)

theorem silent_bundle : Silent (checkBundle (t.bundle validate) e) ↔
    e.get? "tt_bundle_sha256" = some (.str t.sha256) := by
  rw [checkBundle]
  refine (silent_append.trans (and_iff_right ?_)).trans ?_
  · obtain ⟨s, -, -, hok⟩ | ⟨detail, -, herror⟩ :=
      strField_cases e "tt_release" "tt-release-missing"
    · rw [hok]
      exact silent_nil.2 trivial
    · rw [herror]
      exact silent_reject.2 (by decide)
  cases hsha : (e.get? "tt_bundle_sha256").bind Value.asStr with
  | none => exact iff_of_false (fun h => silent_reject.1 h (by decide)) (bind_asStr_none hsha _)
  | some s =>
    rw [bind_asStr] at hsha
    rw [hsha, Option.some.injEq, Value.str.injEq]
    exact silent_unless (by decide)

theorem silent_summary : Silent (checkSummary e) ↔ ∃ s, e.get? "summary" = some (.str s) ∧
    minSummaryChars ≤ (strip gateReading.space s.toList).length := by
  rw [checkSummary]
  cases hsummary : (e.get? "summary").bind Value.asStr with
  | none =>
    refine iff_of_false (fun h => silent_reject.1 h (by decide)) ?_
    rintro ⟨s, hs, -⟩
    exact bind_asStr_none hsummary s hs
  | some s =>
    rw [bind_asStr] at hsummary
    simp only [hsummary, Option.some.injEq, Value.str.injEq, exists_eq_left']
    rw [silent_unless (by decide), toList_trim]
    rfl

theorem silent_temporalKind : Silent (checkTemporalKind u e) ↔
    ∃ k, e.get? "temporal_kind" = some (.str k) ∧ (k = "event" ∨ k = "process") := by
  rw [checkTemporalKind]
  cases hkind : (e.get? "temporal_kind").bind Value.asStr with
  | none =>
    refine iff_of_false (fun h => silent_reject.1 h (by decide)) ?_
    rintro ⟨k, hk, -⟩
    exact bind_asStr_none hkind k hk
  | some k =>
    rw [bind_asStr] at hkind
    simp only [hkind, Option.some.injEq, Value.str.injEq, exists_eq_left', Bool.or_eq_true,
      decide_eq_true_eq]
    exact silent_unless (by decide)

theorem silent_observedCount : Silent (checkObservedCount e) ↔
    ∃ v, e.get? "observed_count" = some v ∧ gateReading.count v = true := by
  rw [checkObservedCount]
  cases hcount : e.get? "observed_count" with
  | none =>
    refine iff_of_false (fun h => silent_reject.1 h (by decide)) ?_
    rintro ⟨v, hv, -⟩
    nomatch hv
  | some v =>
    simp only [Option.bind_some, gateReading, Option.some.injEq, exists_eq_left']
    cases hint : v.asI64 with
    | none => exact iff_of_false (fun h => silent_reject.1 h (by decide)) Bool.false_ne_true
    | some n =>
      rw [Option.any_some, decide_eq_true_eq]
      exact silent_unless (by decide)

/-! ### Provenance -/

theorem gate_filled {v : Value} :
    gateReading.filled v = true ↔ ∃ s, v = .str s ∧ filled s = true := by
  cases v with
  | str s =>
    rw [Reading.filled, Bool.not_eq_true', ← Bool.not_eq_true, List.isEmpty_iff, ← ne_eq]
    constructor
    · exact fun h => ⟨s, rfl, filled_iff.2 h⟩
    · rintro ⟨s', heq, h⟩
      obtain rfl := Value.str.inj heq
      exact filled_iff.1 h
  | _ => exact iff_of_false Bool.false_ne_true (by rintro ⟨s, h, -⟩; nomatch h)

theorem silent_filled (h : rule ∈ implemented) (m : List (String × Value)) (path field : String) :
    Silent (checkFilled (.obj m) rule path field) ↔ Holds gateReading m field := by
  rw [checkFilled, silent_unless h, Option.any_eq_true, Holds]
  simp only [bind_asStr, gate_filled]
  constructor
  · rintro ⟨s, hs, hfill⟩
    exact ⟨_, hs, s, rfl, hfill⟩
  · rintro ⟨v, hv, s, rfl, hfill⟩
    exact ⟨s, hv, hfill⟩

theorem silent_provMeasured : Silent (checkProvMeasured e) ↔
    ∃ m, e.get? "prov_measured" = some (.obj m) ∧
    ∀ f ∈ provMeasuredFields, Holds gateReading m f := by
  rw [checkProvMeasured]
  split
  · next m hm =>
    simp only [hm, Option.some.injEq, Value.obj.injEq, exists_eq_left']
    have hrule : "prov-measured-incomplete" ∈ implemented := by decide
    constructor
    · intro h f hf
      refine (silent_filled hrule m "prov_measured" f).1 fun r hr => ?_
      exact h r (List.mem_flatMap.2 ⟨f, hf, hr⟩)
    · intro h r hr
      obtain ⟨f, hf, hr⟩ := List.mem_flatMap.1 hr
      exact (silent_filled hrule m "prov_measured" f).2 (h f hf) r hr
  · next hnot =>
    refine iff_of_false (fun h => silent_reject.1 h (by decide)) ?_
    rintro ⟨m, hm, -⟩
    exact hnot m hm

theorem silent_provAsserted : Silent (checkProvAsserted e) ↔
    ∃ m, e.get? "prov_asserted" = some (.obj m) ∧ Holds gateReading m "historical_claim" := by
  rw [checkProvAsserted]
  split
  · next m hm =>
    simp only [hm, Option.some.injEq, Value.obj.injEq, exists_eq_left']
    exact silent_filled (by decide) m _ _
  · next hnot =>
    refine iff_of_false (fun h => silent_reject.1 h (by decide)) ?_
    rintro ⟨m, hm, -⟩
    exact hnot m hm

/-! ### Alternatives -/

/-- An alternative is noted as seen, or refused by a rule of its own. -/
theorem alternative_cases (ct : String) (seen : List String) (out : List Rejection) (a : Value) :
    (∃ s, a = .str s ∧ Competes t ct s ∧ s ∉ seen ∧
      checkAlternative u (t.bundle validate) ct (seen, out) a = (seen ++ [s], out)) ∨
    (∃ rule detail, rule ∈ implemented ∧
      checkAlternative u (t.bundle validate) ct (seen, out) a =
        (seen, out ++ [reject rule detail])) := by
  unfold checkAlternative
  dsimp only
  split
  · exact .inr ⟨_, _, by decide, rfl⟩
  next s hs =>
  have ha : some a = some (.str s) := bind_asStr.1 hs
  split
  · exact .inr ⟨_, _, by decide, rfl⟩
  next hvalid =>
  split
  · exact .inr ⟨_, _, by decide, rfl⟩
  split
  · exact .inr ⟨_, _, by decide, rfl⟩
  next habove =>
  split
  · exact .inr ⟨_, _, by decide, rfl⟩
  next hbelow =>
  split
  · exact .inr ⟨_, _, by decide, rfl⟩
  next hseen =>
  refine .inl ⟨s, Option.some.inj ha, ⟨?_, ?_, ?_⟩, ?_, rfl⟩
  · rw [Bool.not_eq_true, Bool.not_eq_false'] at hvalid
    exact hvalid
  · exact Bool.eq_false_iff.2 habove
  · exact Bool.eq_false_iff.2 hbelow
  · simpa using hseen

theorem checkAlternative_competes {ct s : String} {seen : List String} (out : List Rejection)
    (h : Competes t ct s) (hseen : s ∉ seen) :
    checkAlternative u (t.bundle validate) ct (seen, out) (.str s) = (seen ++ [s], out) := by
  have hself : s ≠ ct := by
    rintro rfl
    have hself := h.above
    rw [Taxonomy.isAncestorOf, beq_self_eq_true, Bool.true_or] at hself
    nomatch hself
  have hvalid : (t.bundle validate).isValidTtId s = true := h.valid
  have habove : (t.bundle validate).isAncestorOf s ct = false := h.above
  have hbelow : (t.bundle validate).isAncestorOf ct s = false := h.below
  simp [checkAlternative, Value.asStr, hvalid, hself, habove, hbelow, hseen]

/-- Competing alternatives are noted one after the other. -/
theorem fold_competing {ct : String} {alts : List String} (seen : List String)
    (out : List Rejection) (hdistinct : (seen ++ alts).Nodup)
    (h : ∀ s ∈ alts, Competes t ct s) :
    (alts.map Value.str).foldl (checkAlternative u (t.bundle validate) ct) (seen, out) =
      (seen ++ alts, out) := by
  induction alts generalizing seen with
  | nil => rw [List.append_nil]; rfl
  | cons s alts ih =>
    have hseen : s ∉ seen := fun hs =>
      (List.disjoint_of_nodup_append hdistinct hs) List.mem_cons_self
    rw [List.map_cons, List.foldl_cons,
      checkAlternative_competes out (h s List.mem_cons_self) hseen,
      ih _ (by rwa [List.append_assoc]) fun s hs => h s (List.mem_cons_of_mem _ hs),
      List.append_assoc]
    rfl

/-- A list that no rule refuses is one of competing alternatives. -/
theorem competing_of_fold {ct : String} {alts : List Value} {seen : List String}
    {out : List Rejection} (hseen : seen.Nodup)
    (h : Silent (alts.foldl (checkAlternative u (t.bundle validate) ct) (seen, out)).2) :
    Silent out ∧ ∃ ss, alts = ss.map .str ∧ (∀ s ∈ ss, Competes t ct s) ∧ (seen ++ ss).Nodup := by
  induction alts generalizing seen out with
  | nil => exact ⟨h, [], rfl, fun s hs => (nomatch hs), by rwa [List.append_nil]⟩
  | cons a alts ih =>
    rw [List.foldl_cons] at h
    obtain ⟨s, rfl, hs, hnew, hstep⟩ | ⟨rule, detail, hrule, hstep⟩ :=
      @alternative_cases u t validate ct seen out a
    · rw [hstep] at h
      have hnodup : (seen ++ [s]).Nodup :=
        List.nodup_append.2 ⟨hseen, List.nodup_singleton s, fun x hx y hy => by
          rintro rfl
          exact hnew (List.mem_singleton.1 hy ▸ hx)⟩
      obtain ⟨hout, ss, rfl, hcompetes, hdistinct⟩ := ih hnodup h
      refine ⟨hout, s :: ss, rfl, List.forall_mem_cons.2 ⟨hs, hcompetes⟩, ?_⟩
      rwa [List.append_assoc] at hdistinct
    · rw [hstep] at h
      obtain ⟨hout, -⟩ := ih hseen h
      exact absurd hrule (silent_reject.1 (silent_append.1 hout).2)

theorem silent_crossLens (derived : Bool) : Silent (checkCrossLens e derived) ↔
    ∀ w, e.get? "alternatives_cross_lens" = some w → w = .bool derived := by
  rw [checkCrossLens]
  split
  · next h =>
    rw [h]
    exact iff_of_true (silent_nil.2 trivial) fun w hw => nomatch hw
  · next declared h =>
    simp only [h, Option.some.injEq, forall_eq', Value.bool.injEq]
    exact silent_unless (by decide)
  · next v hnot h =>
    refine iff_of_false (fun hs => silent_reject.1 hs (by decide)) fun hall => ?_
    exact hnot derived (hall v h)

theorem silent_alternatives {ct : String} (hct : e.get? "claim_type" = some (.str ct)) :
    Silent (checkAlternatives u (t.bundle validate) e) ↔ Compared t gateReading e ct := by
  unfold checkAlternatives Compared
  cases halts : e.get? "claim_type_alternatives" with
  | none =>
    dsimp only
    split
    · next h => exact iff_of_false (fun hs => silent_reject.1 hs (by decide)) fun hnot => hnot h
    · next hnot => exact iff_of_true (silent_nil.2 trivial) hnot
  | some v =>
    have habsent : ∀ p : Prop, (gateReading.absent v = true ∧ p) ↔ False := fun p =>
      iff_of_false (fun h => Bool.false_ne_true h.1) id
    dsimp only
    rw [habsent, false_or]
    cases v with
    | arr alts =>
      rw [hct]
      dsimp only [Option.bind_some, Value.asStr, Option.getD_some]
      constructor
      · intro h
        rw [silent_append] at h
        obtain ⟨-, ss, rfl, hcompetes, hdistinct⟩ := competing_of_fold List.nodup_nil h.1
        have hfold := @fold_competing u t validate ct ss [] [] hdistinct hcompetes
        rw [hfold] at h
        exact ⟨ss, rfl, ⟨hdistinct, hcompetes⟩, (silent_crossLens _).1 h.2⟩
      · rintro ⟨ss, heq, ⟨hdistinct, hcompetes⟩, hcross⟩
        obtain rfl := Value.arr.inj heq
        rw [fold_competing [] [] hdistinct hcompetes]
        exact silent_append.2 ⟨silent_nil.2 trivial, (silent_crossLens _).2 hcross⟩
    | _ =>
      refine iff_of_false (fun h => silent_reject.1 h (by decide)) ?_
      rintro ⟨ss, heq, -⟩
      nomatch heq

/-! ### The verdict -/

/-- No rule that both sides check refuses an entry that is admissible to the gate, and one refuses
any other. -/
theorem silent_admitEntry (hcase : Caseless u isWhitespace) {members : List (String × Value)} :
    Silent (admitEntry u (t.bundle validate) (.obj members)) ↔
      Admissible u t gateReading (.obj members) := by
  have hnames := @silent_names members fun k => "`" ++ k ++ "` is not an entry field — typo?"
  rw [admitEntry]
  dsimp only [Value.asObject]
  simp only [silent_append, hnames, silent_title hcase, silent_year, silent_dateIsKnown,
    silent_claimType, silent_bundle, silent_summary, silent_temporalKind, silent_observedCount,
    silent_provMeasured, silent_provAsserted]
  constructor
  · rintro ⟨⟨⟨⟨⟨⟨⟨⟨⟨⟨⟨⟨names, title⟩, year⟩, dated⟩, ct, hct, typed⟩, -⟩, alternatives⟩, bundle⟩,
      summary⟩, kind⟩, count⟩, measured⟩, asserted⟩
    exact ⟨names, dated, year, title, ⟨ct, hct, typed, (silent_alternatives hct).1 alternatives⟩,
      bundle, kind, count, summary, measured, asserted⟩
  · intro h
    obtain ⟨ct, hct, typed, compared⟩ := h.type
    exact ⟨⟨⟨⟨⟨⟨⟨⟨⟨⟨⟨⟨h.names, h.title⟩, h.year⟩, h.dated⟩, ct, hct, typed⟩, silent_classification⟩,
      (silent_alternatives hct).2 compared⟩, h.bundle⟩, h.summary⟩, h.kind⟩, h.count⟩, h.measured⟩,
      h.asserted⟩

/-! ### Rules of the gate alone -/

theorem nil_iff : xs = [] ↔ Silent xs ∧ Heeded xs := by
  constructor
  · rintro rfl
    exact ⟨fun r hr => (nomatch hr), fun r hr => nomatch hr⟩
  · rintro ⟨hs, hh⟩
    exact List.eq_nil_iff_forall_not_mem.2 fun r hr => hs r hr (hh r hr)

theorem heeded_nil : Heeded [] := fun _ hr => nomatch hr

theorem heeded_append : Heeded (xs ++ ys) ↔ Heeded xs ∧ Heeded ys := List.forall_mem_append

theorem heeded_reject :
    Heeded [reject rule detail] ↔ rule ∈ implemented :=
  List.forall_mem_singleton

theorem heeded_if {c : Prop} [Decidable c] :
    Heeded (if c then [reject rule detail] else []) ↔ (c → rule ∈ implemented) := by
  split
  · next hc => rw [heeded_reject, forall_prop_of_true hc]
  · next hc => exact iff_of_true heeded_nil fun h => absurd h hc

theorem heeded_unless {c : Prop} [Decidable c] :
    Heeded (if c then [] else [reject rule detail]) ↔ (¬ c → rule ∈ implemented) := by
  split
  · next hc => exact iff_of_true heeded_nil fun h => absurd hc h
  · next hc => rw [heeded_reject, forall_prop_of_true hc]

theorem heeded_names {members : List (String × Value)} {f : String → String} :
    Heeded (((members.map Prod.fst).filter fun k => !allowedFields.contains k).map fun k =>
      reject "field-unknown" (f k)) := by
  intro r hr
  obtain ⟨k, -, rfl⟩ := List.mem_map.1 hr
  exact (show "field-unknown" ∈ implemented by decide)

theorem heeded_title : Heeded (checkTitleField u e) ↔ ∀ s, e.get? "title" = some (.str s) →
    endsInYear (trim s).toList = false ∧ ¬ [',', ' ', '-'] <:+: (trim s).toList ∧
      endsInSlugs (trim s).toList = false := by
  rw [checkTitleField]
  obtain ⟨s, hs, hfill, hok⟩ | ⟨detail, hnone, herror⟩ :=
    strField_cases e "title" "title-missing"
  · rw [hok]
    dsimp only
    rw [filled, Bool.not_eq_true'] at hfill
    have hyear : "title-year-appended" ∉ implemented := by decide
    have hslug : "title-place-slug" ∉ implemented := by decide
    have hcapital : "title-not-capitalised" ∈ implemented := by decide
    rw [checkTitle, if_neg (by rw [hfill]; exact Bool.false_ne_true)]
    simp only [heeded_append, heeded_if, hyear, hslug, hcapital, implies_true, true_and, imp_false,
      decide_eq_true_eq, Bool.not_eq_true, hs, Option.some.injEq, Value.str.injEq, forall_eq']
    exact and_assoc
  · rw [herror]
    refine iff_of_true (heeded_reject.2 (by decide)) fun s hs => ?_
    have hempty : (trim s).toList = [] := by
      rw [toList_trim]
      by_contra hne
      exact absurd ((hnone s hs).symm.trans (filled_iff.2 hne)) Bool.false_ne_true
    rw [hempty]
    decide

theorem heeded_year : Heeded (checkYear e).2 ↔
    ∀ v, e.get? "year" = some v → ∀ y, v.asI64 = some y → yearMin ≤ y ∧ y ≤ yearMax := by
  rw [checkYear]
  cases hfield : e.get? "year" with
  | none => exact iff_of_true (heeded_reject.2 (by decide)) fun v hv => nomatch hv
  | some v =>
    simp only [Option.some.injEq, forall_eq']
    cases hint : v.asI64 with
    | none => exact iff_of_true (heeded_reject.2 (by decide)) fun y hy => nomatch hy
    | some y =>
      have himplausible : "year-implausible" ∉ implemented := by decide
      simp only [Option.some.injEq, forall_eq', heeded_unless, himplausible, imp_false, not_not,
        Bool.and_eq_true, decide_eq_true_eq]

theorem heeded_dateIsKnown (year : Option Int) : Heeded (checkDateIsKnown e year) := by
  unfold checkDateIsKnown
  split
  · exact heeded_nil
  all_goals exact heeded_reject.2 (by decide)

theorem heeded_lens {live : String} : Heeded (checkLens u b e live) := by
  rw [checkLens]
  split
  · exact heeded_if.2 fun _ => by decide
  · exact heeded_reject.2 (by decide)
  · exact heeded_nil

/-- An id of no node is not retired. -/
theorem resolve_of_invalid {id : String} (h : ¬ t.isValidTtId id = true) :
    t.resolveTtId id = id := by
  have hnone : t.node? id = none := by
    rw [← Option.not_isSome_iff_eq_none]
    exact h
  rw [Taxonomy.resolveTtId, Taxonomy.successor, Taxonomy.supersededBy, hnone]
  rfl

theorem heeded_claimType : Heeded (checkClaimType u (t.bundle validate) e) ↔
    ∀ ct, e.get? "claim_type" = some (.str ct) → (t.bundle validate).resolveTtId ct = ct := by
  rw [checkClaimType]
  obtain ⟨ct, hct, hfill, hok⟩ | ⟨detail, hnone, herror⟩ :=
    strField_cases e "claim_type" "claim-type-missing"
  · rw [hok]
    dsimp only
    simp only [hct, Option.some.injEq, Value.str.injEq, forall_eq']
    have hretired : "claim-type-retired" ∉ implemented := by decide
    by_cases hvalid : (t.bundle validate).isValidTtId ct = true
    · rw [if_neg (by rw [hvalid]; exact Bool.false_ne_true), heeded_append,
        and_iff_left heeded_lens, heeded_if]
      exact ⟨fun h => by_contra fun hne => hretired (h hne), fun heq hne => absurd heq hne⟩
    · rw [if_pos (by rw [Bool.not_eq_true', ← Bool.not_eq_true]; exact hvalid)]
      exact iff_of_true (heeded_reject.2 (by decide)) (resolve_of_invalid hvalid)
  · rw [herror]
    refine iff_of_true (heeded_reject.2 (by decide)) fun ct hct =>
      resolve_of_invalid fun hvalid => ?_
    exact absurd ((hnone ct hct).symm.trans (Taxonomy.filled_of_valid hvalid)) Bool.false_ne_true

theorem heeded_classification :
    Heeded (checkClassification u b e) ↔ checkClassification u b e = [] :=
  (nil_iff.trans (and_iff_right silent_classification)).symm

theorem heeded_bundle : Heeded (checkBundle b e) ↔
    ∃ s, e.get? "tt_release" = some (.str s) ∧ filled s = true := by
  rw [checkBundle]
  refine (heeded_append.trans (and_iff_left ?_)).trans ?_
  · split
    · exact heeded_unless.2 fun _ => by decide
    · exact heeded_reject.2 (by decide)
  · obtain ⟨s, hs, hfill, hok⟩ | ⟨detail, hnone, herror⟩ :=
      strField_cases e "tt_release" "tt-release-missing"
    · rw [hok]
      exact iff_of_true heeded_nil ⟨s, hs, hfill⟩
    · rw [herror]
      refine iff_of_false (fun h => absurd (heeded_reject.1 h) (by decide)) ?_
      rintro ⟨s, hs, hfill⟩
      exact absurd ((hnone s hs).symm.trans hfill) Bool.false_ne_true

theorem heeded_alternatives : Heeded (checkAlternatives u (t.bundle validate) e) := by
  have hcross : ∀ derived, Heeded (checkCrossLens e derived) := by
    intro derived
    rw [checkCrossLens]
    split
    · exact heeded_nil
    · exact heeded_unless.2 fun _ => by decide
    · exact heeded_reject.2 (by decide)
  have hfold : ∀ (ct : String) (alts : List Value) (state : List String × List Rejection),
      Heeded state.2 →
        Heeded (alts.foldl (checkAlternative u (t.bundle validate) ct) state).2 := by
    intro ct alts
    induction alts with
    | nil => exact fun state h => h
    | cons a alts ih =>
      rintro ⟨seen, out⟩ h
      refine ih _ ?_
      obtain ⟨s, -, -, -, hstep⟩ | ⟨rule, detail, hrule, hstep⟩ :=
        @alternative_cases u t validate ct seen out a
      · rw [hstep]
        exact h
      · rw [hstep]
        exact heeded_append.2 ⟨h, heeded_reject.2 hrule⟩
  unfold checkAlternatives
  split
  · split
    · exact heeded_reject.2 (by decide)
    · exact heeded_nil
  · exact heeded_append.2 ⟨hfold _ _ _ heeded_nil, hcross _⟩
  · exact heeded_reject.2 (by decide)

theorem heeded_summary : Heeded (checkSummary e) := by
  rw [checkSummary]
  split
  · exact heeded_unless.2 fun _ => by decide
  · exact heeded_reject.2 (by decide)

theorem heeded_temporalKind : Heeded (checkTemporalKind u e) := by
  rw [checkTemporalKind]
  split
  · exact heeded_unless.2 fun _ => by decide
  · exact heeded_reject.2 (by decide)

theorem heeded_observedCount : Heeded (checkObservedCount e) := by
  rw [checkObservedCount]
  split
  · exact heeded_unless.2 fun _ => by decide
  · exact heeded_reject.2 (by decide)

theorem heeded_filled (h : rule ∈ implemented) (m : Value) (path field : String) :
    Heeded (checkFilled m rule path field) := heeded_unless.2 fun _ => h

theorem heeded_provMeasured : Heeded (checkProvMeasured e) := by
  rw [checkProvMeasured]
  split
  · intro r hr
    obtain ⟨f, -, hr⟩ := List.mem_flatMap.1 hr
    exact heeded_filled (by decide) _ _ f r hr
  · exact heeded_reject.2 (by decide)

theorem heeded_provAsserted : Heeded (checkProvAsserted e) := by
  rw [checkProvAsserted]
  split
  · exact heeded_filled (by decide) _ _ _
  · exact heeded_reject.2 (by decide)

/-- The gate admits what is admissible to it and clear of its own rules. -/
theorem admitEntry_nil_iff (hcase : Caseless u isWhitespace) {members : List (String × Value)} :
    admitEntry u (t.bundle validate) (.obj members) = [] ↔
      Admissible u t gateReading (.obj members) ∧ Clear u (t.bundle validate) (.obj members) := by
  have hnames := @heeded_names members fun k => "`" ++ k ++ "` is not an entry field — typo?"
  rw [nil_iff, silent_admitEntry hcase]
  refine and_congr_right fun _ => ?_
  rw [admitEntry]
  dsimp only [Value.asObject]
  simp only [heeded_append, hnames, heeded_title, heeded_year, heeded_dateIsKnown, heeded_claimType,
    heeded_classification, heeded_alternatives, heeded_bundle, heeded_summary, heeded_temporalKind,
    heeded_observedCount, heeded_provMeasured, heeded_provAsserted, and_true, true_and]
  constructor
  · rintro ⟨⟨⟨⟨title, year⟩, live⟩, profile⟩, release⟩
    exact ⟨year, title, live, profile, release⟩
  · exact fun h => ⟨⟨⟨⟨h.title, h.year⟩, h.live⟩, h.profile⟩, h.release⟩

end

end Clockchain.V0.Authoring
