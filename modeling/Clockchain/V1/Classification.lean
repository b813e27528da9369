import Clockchain.V1.Evaluation

/-!
# Classifying the subject events

The dependency loop settles an event once its parents are settled or cannot be, and
calls the rest cycles. Its valid events are a branch of the candidates.
-/

namespace Clockchain.V1
open Relation Maps Programs
set_option autoImplicit false

/-- The loop can come to evaluate the event. -/
inductive Settled (C : Candidates) : Hash → Prop where
  | alone {e : Hash} {s : Signed} : C[e]? = some s → isSubject s = true →
      (s.envelope.payload.kind = .genesis ∨ ∃ p ∈ parentsOf s, (C[p]?).any isSubject = false) →
      Settled C e
  | after {e : Hash} {s : Signed} : C[e]? = some s → isSubject s = true →
      (∀ p ∈ parentsOf s, Settled C p) → Settled C e

theorem ready_iff {C : Candidates} {out : BTreeMap Status} {s : Signed} :
    subjectReady C out s = true ↔ (s.envelope.payload.kind = .genesis ∨
      ∃ p ∈ parentsOf s, (C[p]?).any isSubject = false) ∨ ∀ p ∈ parentsOf s, p ∈ out := by
  simp [subjectReady]

/-- The valid verdicts of `out` on subject events are those of a branch of `C`. -/
structure Sound (cr : Crypto) (C : Candidates) (out : BTreeMap Status) : Prop where
  acyclic : ∀ {e : Hash} {s : Signed} {st : Status}, C[e]? = some s → isSubject s = true →
    out[e]? = some st → st.state = .valid → Acc (history cr C).parent e
  obeys : ∀ {e : Hash} {s : Signed} {st : Status}, C[e]? = some s → isSubject s = true →
    out[e]? = some st → st.state = .valid → Obeys cr C e s
  parent : ∀ {e p : Hash} {s : Signed} {st : Status}, C[e]? = some s → isSubject s = true →
    out[e]? = some st → st.state = .valid → p ∈ parentsOf s →
    ∃ t st', C[p]? = some t ∧ isSubject t = true ∧ out[p]? = some st' ∧ st'.state = .valid

/-- The valid subject events of `C`. -/
def validOf (C : Candidates) (out : BTreeMap Status) : Candidates :=
  C.filter fun id event => isSubject event && (out[id]?).any fun st => st.state = .valid

theorem validOf_get {C : Candidates} {out : BTreeMap Status} {e : Hash} {s : Signed} :
    (validOf C out)[e]? = some s ↔
      C[e]? = some s ∧ isSubject s = true ∧ ∃ st : Status, out[e]? = some st ∧
      st.state = .valid := by
  rw [validOf, Std.ExtTreeMap.getElem?_filter']
  simp [Option.filter_eq_some_iff, Option.any_eq_true]

theorem Sound.branch {cr : Crypto} {C : Candidates} {out : BTreeMap Status}
    (sound : Sound cr C out) (free : CollisionFree cr C) : Branch cr C (validOf C out) where
  free := free
  within := ⟨fun hs => (validOf_get.mp hs).1⟩
  closed := ⟨fun hs hp => by
    obtain ⟨hC, hsubject, st, hst, hvalid⟩ := validOf_get.mp hs
    obtain ⟨t, st', ht, htsub, hst', hvalid'⟩ := sound.parent hC hsubject hst hvalid hp
    exact mem_of_getElem? (validOf_get.mpr ⟨ht, htsub, st', hst', hvalid'⟩)⟩
  acyclic e he := by
    obtain ⟨s, hs⟩ := mem_iff.mp he
    obtain ⟨hC, hsubject, st, hst, hvalid⟩ := validOf_get.mp hs
    exact sound.acyclic hC hsubject hst hvalid
  law hs := by
    obtain ⟨hC, hsubject, st, hst, hvalid⟩ := validOf_get.mp hs
    exact sound.obeys hC hsubject hst hvalid

/-- A state of the loop. -/
structure Live (cr : Crypto) (C : Candidates) (out : BTreeMap Status) : Prop where
  sound : Sound cr C out
  mem : ∀ e ∈ out, ∃ s, C[e]? = some s ∧ isSubject s = true ∧ Settled C e
  ready : ∀ {e s}, e ∈ out → C[e]? = some s → subjectReady C out s = true
  verdict : ∀ {e : Hash} {st : Status}, out[e]? = some st → evaluate cr e C out = some st

theorem Live.empty {cr : Crypto} {C : Candidates} : Live cr C ∅ where
  sound := ⟨by simp, by simp, by simp⟩
  mem := by simp
  ready := by simp
  verdict := by simp

theorem ready_mono {C : Candidates} {out out' : BTreeMap Status} {s : Signed}
    (hgrow : ∀ e, e ∈ out → e ∈ out') (h : subjectReady C out s = true) :
    subjectReady C out' s = true := by
  rw [ready_iff] at h ⊢
  exact h.imp_right fun h p hp => hgrow p (h p hp)

/-- Settling one more event. -/
theorem Live.settle {cr : Crypto} {C : Candidates} {out : BTreeMap Status} (live : Live cr C out)
    (free : CollisionFree cr C) {e : Hash} {s : Signed} (hs : C[e]? = some s)
    (hsubject : isSubject s = true) (hnew : e ∉ out) (hready : subjectReady C out s = true) :
    ∃ st, evaluate cr e C out = some st ∧ Live cr C (out.insert e st) := by
  have branch := live.sound.branch free
  obtain ⟨st, hst⟩ := branch.evaluate_some hs hsubject hready (by
    intro p st hp hvalid
    obtain ⟨t, ht, htsub, _⟩ := live.mem p (mem_of_getElem? hp)
    exact mem_of_getElem? (validOf_get.mpr ⟨ht, htsub, st, hp, hvalid⟩))
  have hgrow : ∀ k, k ∈ out → k ∈ out.insert e st :=
    fun k hk => mem_map_insert.mpr (Or.inr hk)
  have hle : ∀ (k : Hash) (v : Status), out[k]? = some v → (out.insert e st)[k]? = some v := by
    intro k v hk
    rw [getElem?_insert, if_neg, hk]
    rintro rfl
    exact hnew (mem_of_getElem? hk)
  -- What is said of the entries of `out` still holds; the rest is about the new entry.
  have hentry : ∀ {k : Hash} {v : Status}, (out.insert e st)[k]? = some v →
      out[k]? = some v ∨ k = e ∧ v = st := by
    intro k v hk
    rw [getElem?_insert] at hk
    split at hk
    case isTrue heq => exact Or.inr ⟨heq.symm, (Option.some.inj hk).symm⟩
    case isFalse => exact Or.inl hk
  have hvalidParents : st.state = .valid → ∀ p ∈ parentsOf s,
      ∃ t st', C[p]? = some t ∧ isSubject t = true ∧ out[p]? = some st' ∧ st'.state = .valid := by
    intro hvalid p hp
    obtain ⟨headed, haccepted⟩ := evaluate_valid hs hst hvalid
    by_cases hkind : s.envelope.payload.kind = .genesis
    · have hnil : parentsOf s = [] := (headed.genesis hkind).2.2
      simp [hnil] at hp
    · obtain ⟨subject, accepted⟩ := haccepted hkind
      obtain ⟨t, ht, htsub, _⟩ := accepted.known p hp
      obtain ⟨st', hst', hvalid'⟩ := accepted.valid p hp
      exact ⟨t, st', ht, htsub, hst', hvalid'⟩
  refine ⟨st, hst, ⟨⟨?_, ?_, ?_⟩, ?_, ?_, ?_⟩⟩
  · intro k t v ht htsub hk hvalid
    rcases hentry hk with hk | ⟨rfl, rfl⟩
    · exact live.sound.acyclic ht htsub hk hvalid
    · refine Acc.intro k fun p hp => ?_
      obtain ⟨u, st', hu, husub, hst', hvalid'⟩ := hvalidParents hvalid p ((parent_iff hs).mp hp)
      exact live.sound.acyclic hu husub hst' hvalid'
  · intro k t v ht htsub hk hvalid
    rcases hentry hk with hk | ⟨rfl, rfl⟩
    · exact live.sound.obeys ht htsub hk hvalid
    · obtain rfl := Option.some.inj (hs.symm.trans ht)
      obtain ⟨headed, haccepted⟩ := evaluate_valid hs hst hvalid
      by_cases hkind : s.envelope.payload.kind = .genesis
      · exact obeys_genesis headed hkind
      · obtain ⟨subject, accepted⟩ := haccepted hkind
        refine branch.obeys hs hsubject headed hkind ⟨out, accepted⟩ hvalid fun p hp => ?_
        obtain ⟨u, st', hu, husub, hst', hvalid'⟩ := hvalidParents hvalid p hp
        exact mem_of_getElem? (validOf_get.mpr ⟨hu, husub, st', hst', hvalid'⟩)
  · intro k p t v ht htsub hk hvalid hp
    rcases hentry hk with hk | ⟨rfl, rfl⟩
    · obtain ⟨u, st', hu, husub, hst', hvalid'⟩ := live.sound.parent ht htsub hk hvalid hp
      exact ⟨u, st', hu, husub, hle p st' hst', hvalid'⟩
    · obtain rfl := Option.some.inj (hs.symm.trans ht)
      obtain ⟨u, st', hu, husub, hst', hvalid'⟩ := hvalidParents hvalid p hp
      exact ⟨u, st', hu, husub, hle p st' hst', hvalid'⟩
  · intro k hk
    rcases mem_map_insert.mp hk with rfl | hk
    · refine ⟨s, hs, hsubject, ?_⟩
      rcases ready_iff.mp hready with h | h
      · exact .alone hs hsubject h
      · exact .after hs hsubject fun p hp => (live.mem p (h p hp)).choose_spec.2.2
    · exact live.mem k hk
  · intro k t hk ht
    rcases mem_map_insert.mp hk with rfl | hk
    · obtain rfl := Option.some.inj (hs.symm.trans ht)
      exact ready_mono hgrow hready
    · exact ready_mono hgrow (live.ready hk ht)
  · intro k v hk
    rcases hentry hk with hk | ⟨rfl, rfl⟩
    · obtain ⟨t, ht, _⟩ := live.mem k (mem_of_getElem? hk)
      rw [evaluate_congr ht (live.ready (mem_of_getElem? hk) ht) fun p v _ hp => hle p v hp]
      exact live.verdict hk
    · rw [evaluate_congr hs hready fun p v _ hp => hle p v hp]
      exact hst

theorem settle_scheduler {cr : Crypto} {C : Candidates} (free : CollisionFree cr C) :
    Scheduler C.toList (settleStep cr C) Prod.fst (Live cr C) (fun out k => k ∈ out)
      (fun out item => isSubject item.2 = true ∧ subjectReady C out item.2 = true) where
  skip := by
    rintro out ⟨e, s⟩ _ _ hidle
    rcases hidle with h | h
    · simp [settleStep, contains_iff.mpr h]
    · cases hsubject : isSubject s with
      | false => simp [settleStep, hsubject]
      | true =>
        have hready : subjectReady C out s = false := by
          simpa [hsubject] using h
        simp [settleStep, hready]
  work := by
    rintro out ⟨e, s⟩ hmem live hnew ⟨hsubject, hready⟩
    have hs := Std.ExtTreeMap.mem_toList_iff_getElem?_eq_some.mp hmem
    obtain ⟨st, hst, live'⟩ := live.settle free hs hsubject hnew hready
    refine ⟨out.insert e st, ?_, live', fun k => ?_⟩
    · simp only at hsubject hready
      simp [settleStep, contains_eq_false.mpr hnew, hsubject, hready, hst]
    · rw [mem_map_insert, or_comm]
  mono := fun _ _ _ _ _ _ hgrow hready => ⟨hready.1, ready_mono hgrow hready.2⟩

/-! ## Cycles -/

theorem fillCycles_get {items : List (Hash × Signed)} {out : BTreeMap Status} {e : Hash}
    {st : Status} : (fillCycles items out)[e]? = some st ↔ out[e]? = some st ∨
      e ∉ out ∧ e ∈ items.map Prod.fst ∧ st = .invalid .cycle := by
  unfold fillCycles
  induction items generalizing out with
  | nil => simp
  | cons item items ih =>
    obtain ⟨k, s⟩ := item
    rw [List.foldl_cons, ih, getElem?_insertIfNew, mem_insertIfNew, List.map_cons, List.mem_cons]
    tauto

/-- What `classifySubjects` computes. -/
structure Classified (cr : Crypto) (C : Candidates) (out : BTreeMap Status) : Prop where
  sound : Sound cr C out
  mem : ∀ e, e ∈ out ↔ ∃ s, C[e]? = some s ∧ isSubject s = true
  ready : ∀ {e s}, Settled C e → C[e]? = some s → subjectReady C out s = true
  settled : ∀ {e : Hash} {st : Status}, Settled C e → out[e]? = some st →
    evaluate cr e C out = some st
  cycle : ∀ {e : Hash} {st : Status}, ¬ Settled C e → out[e]? = some st → st = .invalid .cycle

theorem subjectItems_mem {C : Candidates} {e : Hash} :
    e ∈ (subjectItems C).map Prod.fst ↔ ∃ s, C[e]? = some s ∧ isSubject s = true := by
  simp [subjectItems]

/-- When no ready event is left, what is left is on or behind a cycle. -/
theorem Live.finish {cr : Crypto} {C : Candidates} {out : BTreeMap Status} (live : Live cr C out)
    (hstuck : ∀ e s, C[e]? = some s → isSubject s = true → subjectReady C out s = true → e ∈ out) :
    Classified cr C (fillCycles (subjectItems C) out) := by
  have hsettled : ∀ e, Settled C e → e ∈ out := by
    intro e h
    induction h with
    | alone hs hsubject h => exact hstuck _ _ hs hsubject (ready_iff.mpr (Or.inl h))
    | after hs hsubject _ ih => exact hstuck _ _ hs hsubject (ready_iff.mpr (Or.inr ih))
  have hle : ∀ (k : Hash) (v : Status), out[k]? = some v →
      (fillCycles (subjectItems C) out)[k]? = some v :=
    fun k v hk => fillCycles_get.mpr (Or.inl hk)
  have hgrow : ∀ k, k ∈ out → k ∈ fillCycles (subjectItems C) out := by
    intro k hk
    obtain ⟨v, hv⟩ := mem_iff.mp hk
    exact mem_of_getElem? (hle k v hv)
  have hvalid : ∀ {k : Hash} {v : Status}, (fillCycles (subjectItems C) out)[k]? = some v →
      v.state = .valid → out[k]? = some v := by
    intro k v hk hv
    rcases fillCycles_get.mp hk with hk | ⟨_, _, rfl⟩
    · exact hk
    · simp at hv
  refine ⟨⟨?_, ?_, ?_⟩, ?_, ?_, ?_, ?_⟩
  · exact fun hs hsubject hst h => live.sound.acyclic hs hsubject (hvalid hst h) h
  · exact fun hs hsubject hst h => live.sound.obeys hs hsubject (hvalid hst h) h
  · intro e p s st hs hsubject hst h hp
    obtain ⟨t, st', ht, htsub, hst', h'⟩ := live.sound.parent hs hsubject (hvalid hst h) h hp
    exact ⟨t, st', ht, htsub, hle p st' hst', h'⟩
  · intro e
    constructor
    · intro he
      obtain ⟨v, hv⟩ := mem_iff.mp he
      rcases fillCycles_get.mp hv with hv | ⟨_, he, _⟩
      · obtain ⟨s, hs, hsubject, _⟩ := live.mem e (mem_of_getElem? hv)
        exact ⟨s, hs, hsubject⟩
      · exact subjectItems_mem.mp he
    · intro h
      by_cases he : e ∈ out
      · exact hgrow e he
      · exact mem_of_getElem? (fillCycles_get.mpr (Or.inr ⟨he, subjectItems_mem.mpr h, rfl⟩))
  · exact fun h hs => ready_mono hgrow (live.ready (hsettled _ h) hs)
  · intro e st h hst
    obtain ⟨v, hv⟩ := mem_iff.mp (hsettled e h)
    obtain rfl := Option.some.inj (hst.symm.trans (hle e v hv))
    obtain ⟨s, hs, _⟩ := live.mem e (hsettled e h)
    rw [evaluate_congr hs (live.ready (hsettled e h) hs) fun p v _ hp => hle p v hp]
    exact live.verdict hv
  · intro e st h hst
    rcases fillCycles_get.mp hst with hst | ⟨_, _, rfl⟩
    · obtain ⟨_, _, _, hs⟩ := live.mem e (mem_of_getElem? hst)
      exact absurd hs h
    · rfl

theorem fillCycles_full {items : List (Hash × Signed)} {out : BTreeMap Status}
    (h : ∀ e ∈ items.map Prod.fst, e ∈ out) : fillCycles items out = out := by
  refine ext_graph fun e st => ?_
  rw [fillCycles_get]
  exact or_iff_left fun h' => h'.1 (h e h'.2.1)

theorem subjectItems_size (C : Candidates) :
    (Std.ExtTreeMap.ofList (subjectItems C) compare).size = (subjectItems C).length :=
  size_ofList_part List.filter_sublist

theorem Classified.full {cr : Crypto} {C : Candidates} {out : BTreeMap Status}
    (h : Classified cr C out) : (subjectItems C).length ≤ out.size := by
  rw [← subjectItems_size]
  have hsub : ∀ e ∈ Std.ExtTreeMap.ofList (subjectItems C) compare, e ∈ out := by
    intro e he
    refine (h.mem e).mpr (subjectItems_mem.mp ?_)
    simpa using he
  rw [← ncard_keys]
  exact ncard_le_size hsub

theorem Live.unfinished {cr : Crypto} {C : Candidates} {out : BTreeMap Status}
    (live : Live cr C out) : out.size < (subjectItems C).length ↔
      ∃ e ∈ (subjectItems C).map Prod.fst, e ∉ out := by
  rw [← subjectItems_size, size_lt_iff]
  · simp
  · intro e he
    obtain ⟨s, hs, hsubject, _⟩ := live.mem e he
    simpa using subjectItems_mem.mpr ⟨s, hs, hsubject⟩

/-- One round either settles an event or finishes with the cycles. -/
theorem classifyRound_spec {cr : Crypto} {C : Candidates} (free : CollisionFree cr C)
    {out : BTreeMap Status} (live : Live cr C out) :
    ∃ next, classifyRound cr C out = some next ∧
      (Live cr C next ∧ out.size < next.size ∨ Classified cr C next) := by
  obtain ⟨next, hsweep, live', hgrow, _, hready⟩ := (settle_scheduler free).sweep_spec live
  by_cases hsame : next.size = out.size
  · refine ⟨fillCycles (subjectItems C) next, by simp [classifyRound, hsweep, hsame], Or.inr ?_⟩
    have hback : ∀ e, e ∈ next → e ∈ out := by
      intro e he
      by_contra hnew
      have hlt := (size_lt_iff hgrow).mpr ⟨e, he, hnew⟩
      omega
    refine live'.finish fun e s hs hsubject h => ?_
    exact hready (e, s) (Std.ExtTreeMap.mem_toList_iff_getElem?_eq_some.mpr hs)
      ⟨hsubject, ready_mono hback h⟩
  · refine ⟨next, by simp [classifyRound, hsweep, hsame], Or.inl ⟨live', ?_⟩⟩
    have hle : out.size ≤ next.size := by
      rw [← ncard_keys out]
      exact ncard_le_size hgrow
    omega

/-- The dependency loop ends, with every subject event classified. -/
theorem classifySubjects_spec {cr : Crypto} {C : Candidates} (free : CollisionFree cr C) :
    ∃ out, classifySubjects cr C = some out ∧ Classified cr C out := by
  have hrun : ∃ out, classifySubjects cr C = some out ∧
      (Live cr C out ∨ Classified cr C out) ∧
      decide (out.size < (subjectItems C).length) = false := by
    refine loopWhile_spec (fun out => Live cr C out ∨ Classified cr C out)
      (fun out => (subjectItems C).length - out.size) ?_ (Or.inl .empty) (by simp)
    rintro out (live | classified) hcond
    · obtain ⟨next, hround, hnext⟩ := classifyRound_spec free live
      have hlt : out.size < (subjectItems C).length := by simpa using hcond
      rcases hnext with ⟨live', hgrow⟩ | classified
      · exact ⟨next, hround, Or.inl live', by omega⟩
      · have := classified.full
        exact ⟨next, hround, Or.inr classified, by omega⟩
    · have := classified.full
      simp at hcond
      omega
  obtain ⟨out, hrun, live | classified, hend⟩ := hrun
  · refine ⟨out, hrun, ?_⟩
    have hall : ∀ e ∈ (subjectItems C).map Prod.fst, e ∈ out := by
      intro e he
      by_contra hnew
      simp [live.unfinished.mpr ⟨e, he, hnew⟩] at hend
    rw [← fillCycles_full hall]
    exact live.finish fun e s hs hsubject _ => hall e (subjectItems_mem.mpr ⟨s, hs, hsubject⟩)
  · exact ⟨out, hrun, classified⟩

end Clockchain.V1
