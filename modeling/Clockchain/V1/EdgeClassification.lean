import Clockchain.V1.EdgeEvaluation

/-!
# Classifying edges and attestations

The first pass settles the edge events whose history is settled and calls the rest
cycles; the second settles every attestation. No subject verdict changes.
-/

namespace Clockchain.V1
open Relation Maps Programs
set_option autoImplicit false

/-- The loop can come to evaluate the edge event. -/
inductive EdgeSettled (C : Candidates) : Hash → Prop where
  | after {e : Hash} {s : Signed} : C[e]? = some s → isSubject s = false →
      isAttestation s = false →
      (∀ d ∈ edgeDeps s, ∀ t, C[d]? = some t → isSubject t = false → isAttestation t = false →
        EdgeSettled C d) →
      EdgeSettled C e

theorem edgeReady_iff {C : Candidates} {out : BTreeMap Status} {s : Signed} :
    edgeReady C out s = true ↔
      ∀ d ∈ edgeDeps s, ∀ t, C[d]? = some t → isAttestation t = false → d ∈ out := by
  simp only [edgeReady, List.all_eq_true, Bool.or_eq_true, contains_iff]
  refine forall_congr' fun d => imp_congr_right fun _ => ?_
  cases hd : C[d]? with
  | none => simp
  | some t => cases ht : isAttestation t <;> simp [ht]

theorem edgeReady_mono {C : Candidates} {out out' : BTreeMap Status} {s : Signed}
    (hgrow : ∀ e, e ∈ out → e ∈ out') (h : edgeReady C out s = true) :
    edgeReady C out' s = true :=
  edgeReady_iff.mpr fun d hd t ht hatt => hgrow d (edgeReady_iff.mp h d hd t ht hatt)

theorem edgeItems_mem {C : Candidates} {media : Bool} {e : Hash} {s : Signed} :
    (e, s) ∈ edgeItems C media ↔
      C[e]? = some s ∧ isSubject s = false ∧ isAttestation s = media := by
  rw [edgeItems, List.mem_filter, Std.ExtTreeMap.mem_toList_iff_getElem?_eq_some]
  simp

/-- Either pass, with an invariant that settling one ready item keeps. -/
theorem classifyPass_spec {C : Candidates} {s : Subjects} {media : Bool}
    (inv : BTreeMap Status → Prop)
    (work : ∀ {out : BTreeMap Status} {e : Hash} {event : Signed}, inv out → C[e]? = some event →
      isSubject event = false → isAttestation event = media → e ∉ out →
      edgeReady C out event = true →
      ∃ st, evaluateEdge e C out s = some st ∧ inv (out.insert e st))
    {out : BTreeMap Status} (start : inv out) :
    ∃ out', classifyPass C s out media = some (fillCycles (edgeItems C media) out') ∧ inv out' ∧
      (∀ k, k ∈ out → k ∈ out') ∧
      ∀ {e : Hash} {event : Signed}, C[e]? = some event → isSubject event = false →
        isAttestation event = media → edgeReady C out' event = true → e ∈ out' := by
  have flagged : Flagged (edgeItems C media) (edgeStep C s) Prod.fst inv
      (fun out k => k ∈ out) (fun out item => edgeReady C out item.2 = true) := by
    constructor
    · rintro out b ⟨e, event⟩ _ _ (h | h)
      · simp [edgeStep, contains_iff.mpr h]
      · have hready : edgeReady C out event = false := by simpa using h
        simp [edgeStep, hready]
    · rintro out b ⟨e, event⟩ hmem hout hnew hready
      obtain ⟨hs, hsubject, hmedia⟩ := edgeItems_mem.mp hmem
      obtain ⟨st, hst, hout'⟩ := work hout hs hsubject hmedia hnew hready
      have hready' : edgeReady C out event = true := hready
      refine ⟨out.insert e st, ?_, hout', fun k => ?_⟩
      · simp [edgeStep, contains_eq_false.mpr hnew, hready', hst]
      · rw [mem_map_insert, or_comm]
    · exact fun _ _ _ _ _ _ hgrow hready => edgeReady_mono hgrow hready
  obtain ⟨state, hrun, hinv, hgrow, _, hdone⟩ := flagged.settle_idle start le_rfl
  refine ⟨state.1, ?_, hinv, hgrow, fun hs hsubject hmedia hready => ?_⟩
  · simp [classifyPass, hrun]
  · exact hdone _ (edgeItems_mem.mpr ⟨hs, hsubject, hmedia⟩) hready

/-! ## Settling one more event -/

section
variable {C : Candidates} {out : BTreeMap Status} {e : Hash} {st : Status}

theorem insert_same (hnew : e ∉ out) {k : Hash} (hk : k ∈ out) :
    (out.insert e st)[k]? = out[k]? := by
  rw [getElem?_insert, if_neg]
  rintro rfl
  exact hnew hk

theorem insert_cases (h : (out.insert e st)[e]? = some st) {k : Hash} {v : Status}
    (hk : (out.insert e st)[k]? = some v) : out[k]? = some v ∨ k = e ∧ v = st := by
  by_cases heq : e = k
  · subst heq
    exact Or.inr ⟨rfl, Option.some.inj (hk.symm.trans h)⟩
  · rw [getElem?_insert, if_neg heq] at hk
    exact Or.inl hk

theorem EdgeValid.mono {out' : BTreeMap Status} {edge k : Hash}
    (hle : ∀ v, out[k]? = some v → out'[k]? = some v) (h : EdgeValid C out edge k) :
    EdgeValid C out' edge k := by
  obtain ⟨t, v, ht, hedge, hv, hvalid⟩ := h
  exact ⟨t, v, ht, hedge, hle v hv, hvalid⟩

end

/-- A state of the first pass: what it says of edge events, over the verdicts `base` on
subject events. -/
structure EdgeLive (cr : Crypto) (C : Candidates) (base : BTreeMap Status) (s : Subjects)
    (out : BTreeMap Status) : Prop where
  same : ∀ (e : Hash) (t : Signed), C[e]? = some t → isSubject t = true → out[e]? = base[e]?
  linked : Linked cr C out
  mem : ∀ e ∈ out, ∃ t, C[e]? = some t ∧ isAttestation t = false ∧
    (isSubject t = false → EdgeSettled C e)
  ready : ∀ {e t}, e ∈ out → C[e]? = some t → isSubject t = false → edgeReady C out t = true
  verdict : ∀ {e : Hash} {t : Signed} {st : Status}, C[e]? = some t → isSubject t = false →
    out[e]? = some st → evaluateEdge e C out s = some st

section
variable {cr : Crypto} {C : Candidates} {base out : BTreeMap Status} {s : Subjects}
variable (free : CollisionFree cr C) (classified : Classified cr C base)
variable (reads : s.Reads cr (validOf C base))
include classified

omit classified in
theorem free_valid (free : CollisionFree cr C) : CollisionFree cr (validOf C out) where
  root_inj ha hb := free.root_inj (Within.mem ⟨fun h => (validOf_get.mp h).1⟩ ha)
    (Within.mem ⟨fun h => (validOf_get.mp h).1⟩ hb)
  root_fresh ha hb := free.root_fresh (Within.mem ⟨fun h => (validOf_get.mp h).1⟩ ha)
    (Within.mem ⟨fun h => (validOf_get.mp h).1⟩ hb)
  revision_inj ha hb := free.revision_inj (validOf_get.mp ha).1 (validOf_get.mp hb).1

theorem EdgeLive.start : EdgeLive cr C base s base where
  same _ _ _ _ := rfl
  linked := by
    have hnone : ∀ edge e, ¬ EdgeValid C base edge e := by
      rintro edge e ⟨t, st, ht, hedge, hst, _⟩
      obtain ⟨u, hu, hsubject⟩ := (classified.mem e).mp (mem_of_getElem? hst)
      obtain rfl := Option.some.inj (ht.symm.trans hu)
      simp [(edgeOf_subject hedge).1] at hsubject
    exact ⟨fun h => absurd h (hnone _ _), fun h => absurd h (hnone _ _)⟩
  mem e he := by
    obtain ⟨t, ht, hsubject⟩ := (classified.mem e).mp he
    refine ⟨t, ht, ?_, by simp [hsubject]⟩
    cases hp : t.envelope.payload <;>
      simp [isSubject, isAttestation, hp, Payload.kind] at hsubject ⊢
  ready he ht hsubject := by
    obtain ⟨u, hu, hsubject'⟩ := (classified.mem _).mp he
    obtain rfl := Option.some.inj (ht.symm.trans hu)
    simp [hsubject] at hsubject'
  verdict ht hsubject hst := by
    obtain ⟨u, hu, hsubject'⟩ := (classified.mem _).mp (mem_of_getElem? hst)
    obtain rfl := Option.some.inj (ht.symm.trans hu)
    simp [hsubject] at hsubject'

theorem EdgeLive.subjects (live : EdgeLive cr C base s out) {e : Hash} {t : Signed}
    (ht : C[e]? = some t) (hsubject : isSubject t = true) : e ∈ out := by
  obtain ⟨st, hst⟩ := mem_iff.mp ((classified.mem e).mpr ⟨t, ht, hsubject⟩)
  exact mem_of_getElem? ((live.same e t ht hsubject).trans hst)

include free reads

theorem EdgeLive.settle (live : EdgeLive cr C base s out) {e : Hash} {event : Signed}
    (hs : C[e]? = some event) (hsubject : isSubject event = false)
    (hmedia : isAttestation event = false) (hnew : e ∉ out)
    (hready : edgeReady C out event = true) :
    ∃ st, evaluateEdge e C out s = some st ∧ EdgeLive cr C base s (out.insert e st) := by
  have hvalidOf : validOf C out = validOf C base := validOf_congr live.same
  obtain ⟨st, hst⟩ := evaluateEdge_some (hvalidOf ▸ reads) (free_valid free)
    (live.subjects classified) live.linked hs hsubject hready
  have hself : (out.insert e st)[e]? = some st := by simp
  have hkeep : ∀ {k : Hash}, k ∈ out → (out.insert e st)[k]? = out[k]? := insert_same hnew
  have hgrow : ∀ k, k ∈ out → k ∈ out.insert e st :=
    fun k hk => mem_map_insert.mpr (Or.inr hk)
  have hmono : ∀ {edge k : Hash}, EdgeValid C out edge k → EdgeValid C (out.insert e st) edge k :=
    fun h => h.mono fun v hv => (hkeep (mem_of_getElem? hv)).trans hv
  have hback : ∀ {edge k : Hash}, EdgeValid C (out.insert e st) edge k →
      EdgeValid C out edge k ∨ k = e ∧ Chained C out s edge e event := by
    rintro edge k ⟨t, v, ht, hedge, hv, hvalid⟩
    rcases insert_cases hself hv with hv | ⟨rfl, rfl⟩
    · exact Or.inl ⟨t, v, ht, hedge, hv, hvalid⟩
    · obtain rfl := Option.some.inj (hs.symm.trans ht)
      exact Or.inr ⟨rfl, evaluateEdge_valid hs hedge hst hvalid⟩
  have hparents : ∀ {edge k p : Hash}, EdgeValid C (out.insert e st) edge k →
      (history cr C).parent p k → EdgeValid C out edge p := by
    intro edge k p h hp
    rcases hback h with h | ⟨rfl, chained⟩
    · exact live.linked.parent h hp
    · exact chained.parents p ((parent_iff hs).mp hp)
  have hcongr : ∀ {k : Hash} {t : Signed}, C[k]? = some t → isSubject t = false →
      isAttestation t = false → edgeReady C out t = true →
      evaluateEdge k C (out.insert e st) s = evaluateEdge k C out s := by
    intro k t ht _ hatt hr
    refine evaluateEdge_congr ?_ ht ?_ (by simp [hatt])
    · exact fun j u hu hsub => hkeep (live.subjects classified hu hsub)
    · exact fun d hd u hu hu' => hkeep (edgeReady_iff.mp hr d hd u hu hu')
  refine ⟨st, hst, ?_, ⟨?_, ?_⟩, ?_, ?_, ?_⟩
  · intro k t ht hsub
    rw [hkeep (live.subjects classified ht hsub), live.same k t ht hsub]
  · exact fun h hp => hmono (hparents h hp)
  · exact fun h => Acc.intro _ fun p hp => live.linked.acyclic (hparents h hp)
  · intro k hk
    rcases mem_map_insert.mp hk with rfl | hk
    · refine ⟨event, hs, hmedia, fun _ => .after hs hsubject hmedia ?_⟩
      intro d hd t ht htsub htatt
      obtain ⟨u, hu, _, hsettled⟩ := live.mem d (edgeReady_iff.mp hready d hd t ht htatt)
      obtain rfl := Option.some.inj (ht.symm.trans hu)
      exact hsettled htsub
    · exact live.mem k hk
  · intro k t hk ht htsub
    rcases mem_map_insert.mp hk with rfl | hk
    · obtain rfl := Option.some.inj (hs.symm.trans ht)
      exact edgeReady_mono hgrow hready
    · exact edgeReady_mono hgrow (live.ready hk ht htsub)
  · intro k t v ht htsub hv
    rcases insert_cases hself hv with hv | ⟨rfl, rfl⟩
    · obtain ⟨u, hu, hatt, _⟩ := live.mem k (mem_of_getElem? hv)
      obtain rfl := Option.some.inj (ht.symm.trans hu)
      rw [hcongr ht htsub hatt (live.ready (mem_of_getElem? hv) ht htsub)]
      exact live.verdict ht htsub hv
    · rw [hcongr hs hsubject hmedia hready, hst]

/-- The first pass ends with a verdict on every edge event. -/
theorem edgePass_spec :
    ∃ out, classifyPass C s base false = some (fillCycles (edgeItems C false) out)
    ∧ EdgeLive cr C base s out ∧ ∀ e, EdgeSettled C e → e ∈ out := by
  obtain ⟨out, hrun, live, _, hdone⟩ := classifyPass_spec (EdgeLive cr C base s)
    (fun live hs hsubject hmedia hnew hready =>
      EdgeLive.settle free classified reads live hs hsubject hmedia hnew hready)
    (EdgeLive.start classified)
  refine ⟨out, hrun, live, fun e h => ?_⟩
  induction h with
  | after hs hsubject hmedia _ ih =>
    refine hdone hs hsubject hmedia (edgeReady_iff.mpr fun d hd t ht hatt => ?_)
    cases hsub : isSubject t with
    | true => exact live.subjects classified ht hsub
    | false => exact ih d hd t ht hsub hatt

end

/-! ## All verdicts -/

/-- What `classify` computes; `s` is what edges read of the valid subject events. -/
structure Verdicts (cr : Crypto) (C : Candidates) (out : BTreeMap Status) (s : Subjects) :
    Prop where
  free : CollisionFree cr C
  sound : Sound cr C out
  linked : Linked cr C out
  reads : s.Reads cr (validOf C out)
  mem : ∀ e, e ∈ out ↔ e ∈ C
  subject : ∀ {e : Hash} {t : Signed}, C[e]? = some t → isSubject t = true → Settled C e →
    evaluate cr e C out = out[e]?
  subjectCycle : ∀ {e : Hash} {t : Signed}, C[e]? = some t → isSubject t = true →
    ¬ Settled C e → out[e]? = some (.invalid .cycle)
  edge : ∀ {e : Hash} {t : Signed}, C[e]? = some t → isSubject t = false →
    isAttestation t = false → EdgeSettled C e → evaluateEdge e C out s = out[e]?
  edgeCycle : ∀ {e : Hash} {t : Signed}, C[e]? = some t → isSubject t = false →
    isAttestation t = false → ¬ EdgeSettled C e → out[e]? = some (.invalid .cycle)
  media : ∀ {e : Hash} {t : Signed}, C[e]? = some t → isAttestation t = true →
    evaluateEdge e C out s = out[e]?

theorem attestation_subject {t : Signed} (h : isAttestation t = true) : isSubject t = false := by
  cases hp : t.envelope.payload <;> simp [isSubject, isAttestation, hp, Payload.kind] at h ⊢

/-- A verdict on an attestation never fails. -/
theorem evaluateEdge_media {C : Candidates} {out : BTreeMap Status} {s : Subjects} {e : Hash}
    {t : Signed} (ht : C[e]? = some t) (hatt : isAttestation t = true) :
    ∃ st, evaluateEdge e C out s = some st := by
  unfold evaluateEdge
  refine bind_returns ht <| guard_returns fun _ => ?_
  cases hp : t.envelope.payload with
  | attestation targetKind target artifactKind artifact => exact ⟨_, rfl⟩
  | _ => simp [isAttestation, hp, Payload.kind] at hatt

/-- A state of the second pass, over the verdicts `settled` of the first. -/
structure MediaLive (C : Candidates) (settled : BTreeMap Status) (s : Subjects)
    (out : BTreeMap Status) : Prop where
  same : ∀ (e : Hash) (t : Signed), C[e]? = some t → isAttestation t = false →
    out[e]? = settled[e]?
  mem : ∀ e ∈ out, e ∈ C
  verdict : ∀ {e : Hash} {t : Signed} {st : Status}, C[e]? = some t → isAttestation t = true →
    out[e]? = some st → evaluateEdge e C out s = some st

section
variable {cr : Crypto} {C : Candidates} {base settled out : BTreeMap Status} {s : Subjects}

theorem MediaLive.settle (total : ∀ (e : Hash) (t : Signed), C[e]? = some t →
    isAttestation t = false → e ∈ settled) (live : MediaLive C settled s out) {e : Hash}
    {event : Signed} (hs : C[e]? = some event) (hmedia : isAttestation event = true)
    (hnew : e ∉ out) :
    ∃ st, evaluateEdge e C out s = some st ∧ MediaLive C settled s (out.insert e st) := by
  obtain ⟨st, hst⟩ := @evaluateEdge_media C out s e event hs hmedia
  have hself : (out.insert e st)[e]? = some st := by simp
  have hkeep : ∀ (k : Hash) (t : Signed), C[k]? = some t → isAttestation t = false →
      (out.insert e st)[k]? = out[k]? := by
    intro k t ht hatt
    obtain ⟨v, hv⟩ := mem_iff.mp (total k t ht hatt)
    exact insert_same hnew (mem_of_getElem? ((live.same k t ht hatt).trans hv))
  have hcongr : ∀ {k : Hash} {t : Signed}, C[k]? = some t →
      evaluateEdge k C (out.insert e st) s = evaluateEdge k C out s := by
    intro k t ht
    refine evaluateEdge_congr (fun j u hu hsub => hkeep j u hu ?_) ht
      (fun d _ u hu => hkeep d u hu) (fun _ => hkeep)
    by_contra hatt
    simp [attestation_subject (by simpa using hatt)] at hsub
  refine ⟨st, hst, fun k t ht hatt => (hkeep k t ht hatt).trans (live.same k t ht hatt), ?_, ?_⟩
  · intro k hk
    rcases mem_map_insert.mp hk with rfl | hk
    · exact mem_of_getElem? hs
    · exact live.mem k hk
  · intro k t v ht hatt hv
    rw [hcongr ht]
    rcases insert_cases hself hv with hv | ⟨rfl, rfl⟩
    · exact live.verdict ht hatt hv
    · exact hst

/-- The verdicts are those of the loops, with cycles filled in. -/
theorem verdicts_of (free : CollisionFree cr C) (classified : Classified cr C base)
    (reads : s.Reads cr (validOf C base)) (live : EdgeLive cr C base s out)
    (hsettled : ∀ e, EdgeSettled C e → e ∈ out) {final : BTreeMap Status}
    (media : MediaLive C (fillCycles (edgeItems C false) out) s final)
    (htotal : ∀ e t, C[e]? = some t → isAttestation t = true → e ∈ final) :
    Verdicts cr C final s := by
  have hfilled : ∀ {k : Hash} {v : Status}, out[k]? = some v →
      (fillCycles (edgeItems C false) out)[k]? = some v :=
    fun hv => fillCycles_get.mpr (Or.inl hv)
  have hfinal : ∀ {k : Hash} {t : Signed} {v : Status}, C[k]? = some t → isAttestation t = false →
      out[k]? = some v → final[k]? = some v :=
    fun ht hatt hv => (media.same _ _ ht hatt).trans (hfilled hv)
  have hatt : ∀ {t : Signed}, isSubject t = true → isAttestation t = false := by
    intro t ht
    by_contra h
    simp [attestation_subject (by simpa using h)] at ht
  have hsame : ∀ (e : Hash) (t : Signed), C[e]? = some t → isSubject t = true →
      final[e]? = base[e]? := by
    intro e t ht hsubject
    obtain ⟨v, hv⟩ := mem_iff.mp (live.subjects classified ht hsubject)
    rw [hfinal ht (hatt hsubject) hv, ← hv, live.same e t ht hsubject]
  have hvalid : ∀ {edge e : Hash}, EdgeValid C final edge e ↔ EdgeValid C out edge e := by
    rintro edge e
    constructor
    · rintro ⟨t, v, ht, hedge, hv, hvalid⟩
      rw [media.same e t ht (edgeOf_subject hedge).2] at hv
      rcases fillCycles_get.mp hv with hv | ⟨_, _, rfl⟩
      · exact ⟨t, v, ht, hedge, hv, hvalid⟩
      · simp at hvalid
    · rintro ⟨t, v, ht, hedge, hv, hvalid⟩
      exact ⟨t, v, ht, hedge, hfinal ht (edgeOf_subject hedge).2 hv, hvalid⟩
  -- An edge event that is not settled is filled in as a cycle; it is not in `out`.
  have hcycle : ∀ {e : Hash} {t : Signed}, C[e]? = some t → isSubject t = false →
      isAttestation t = false → ¬ EdgeSettled C e → final[e]? = some (.invalid .cycle) := by
    intro e t ht hsubject hmedia hnot
    rw [media.same e t ht hmedia, fillCycles_get]
    refine Or.inr ⟨fun he => ?_, ?_, rfl⟩
    · obtain ⟨u, hu, _, hset⟩ := live.mem e he
      obtain rfl := Option.some.inj (ht.symm.trans hu)
      exact hnot (hset hsubject)
    · exact List.mem_map.mpr ⟨(e, t), edgeItems_mem.mpr ⟨ht, hsubject, hmedia⟩, rfl⟩
  exact {
    free
    sound := by
      refine ⟨fun ht hsub hst => ?_, fun ht hsub hst => ?_, fun ht hsub hst hv hp => ?_⟩
      · exact classified.sound.acyclic ht hsub ((hsame _ _ ht hsub).symm.trans hst)
      · exact classified.sound.obeys ht hsub ((hsame _ _ ht hsub).symm.trans hst)
      · obtain ⟨u, st', hu, husub, hst', hv'⟩ :=
          classified.sound.parent ht hsub ((hsame _ _ ht hsub).symm.trans hst) hv hp
        exact ⟨u, st', hu, husub, (hsame _ _ hu husub).trans hst', hv'⟩
    linked := ⟨fun h hp => hvalid.mpr (live.linked.parent (hvalid.mp h) hp),
      fun h => live.linked.acyclic (hvalid.mp h)⟩
    reads := by rwa [validOf_congr hsame]
    mem := by
      refine fun e => ⟨media.mem e, fun he => ?_⟩
      obtain ⟨t, ht⟩ := mem_iff.mp he
      cases hmedia : isAttestation t with
      | true => exact htotal e t ht hmedia
      | false =>
        cases hsub : isSubject t with
        | true =>
          obtain ⟨v, hv⟩ := mem_iff.mp (live.subjects classified ht hsub)
          exact mem_of_getElem? (hfinal ht hmedia hv)
        | false =>
          by_cases hset : EdgeSettled C e
          · obtain ⟨v, hv⟩ := mem_iff.mp (hsettled e hset)
            exact mem_of_getElem? (hfinal ht hmedia hv)
          · exact mem_of_getElem? (hcycle ht hsub hmedia hset)
    subject := by
      intro e t ht hsub hset
      have hready := classified.ready hset ht
      obtain ⟨st, hst⟩ := mem_iff.mp ((classified.mem e).mpr ⟨t, ht, hsub⟩)
      rw [hsame e t ht hsub, hst, ← classified.settled hset hst]
      refine evaluate_congr ht hready fun p v _ hp => ?_
      obtain ⟨u, hu, husub⟩ := (classified.mem p).mp (mem_of_getElem? hp)
      rw [hsame p u hu husub, hp]
    subjectCycle := by
      intro e t ht hsub hnot
      obtain ⟨st, hst⟩ := mem_iff.mp ((classified.mem e).mpr ⟨t, ht, hsub⟩)
      rw [hsame e t ht hsub, hst, classified.cycle hnot hst]
    edge := by
      intro e t ht hsub hmedia hset
      obtain ⟨v, hv⟩ := mem_iff.mp (hsettled e hset)
      have hready := live.ready (hsettled e hset) ht hsub
      rw [hfinal ht hmedia hv, ← live.verdict ht hsub hv]
      refine evaluateEdge_congr (fun k u hu hu' => ?_) ht (fun d hd u hu hu' => ?_)
        (by simp [hmedia])
      · rw [hsame k u hu hu', live.same k u hu hu']
      · obtain ⟨w, hw⟩ := mem_iff.mp (edgeReady_iff.mp hready d hd u hu hu')
        rw [hfinal hu hu' hw, hw]
    edgeCycle := hcycle
    media := by
      intro e t ht hmedia
      obtain ⟨st, hst⟩ := mem_iff.mp (htotal e t ht hmedia)
      rw [hst, media.verdict ht hmedia hst] }

/-- `classify` returns. -/
theorem classify_spec (free : CollisionFree cr C) :
    ∃ out s, classify cr C = some out ∧ Verdicts cr C out s := by
  obtain ⟨base, hbase, classified⟩ := classifySubjects_spec free
  have branch := classified.sound.branch free
  obtain ⟨s, hs, reads⟩ := branch.subjects_spec fun ht hsub => (classified.mem _).mpr ⟨_, ht, hsub⟩
  obtain ⟨out, hout, live, hsettled⟩ := edgePass_spec free classified reads
  have htotal : ∀ (e : Hash) (t : Signed), C[e]? = some t → isAttestation t = false →
      e ∈ fillCycles (edgeItems C false) out := by
    intro e t ht hmedia
    by_cases he : e ∈ out
    · obtain ⟨v, hv⟩ := mem_iff.mp he
      exact mem_of_getElem? (fillCycles_get.mpr (Or.inl hv))
    · have hsub : isSubject t = false := by
        by_contra hsub
        exact he (live.subjects classified ht (by simpa using hsub))
      exact mem_of_getElem? (fillCycles_get.mpr (Or.inr ⟨he,
        List.mem_map.mpr ⟨(e, t), edgeItems_mem.mpr ⟨ht, hsub, hmedia⟩, rfl⟩, rfl⟩))
  have start : MediaLive C (fillCycles (edgeItems C false) out) s
      (fillCycles (edgeItems C false) out) := by
    have hfrom : ∀ {e : Hash} {v : Status}, (fillCycles (edgeItems C false) out)[e]? = some v →
        ∃ t, C[e]? = some t ∧ isAttestation t = false := by
      intro e v hv
      rcases fillCycles_get.mp hv with hv | ⟨_, hitem, _⟩
      · obtain ⟨t, ht, hmedia, _⟩ := live.mem e (mem_of_getElem? hv)
        exact ⟨t, ht, hmedia⟩
      · obtain ⟨⟨_, t⟩, hmem, rfl⟩ := List.mem_map.mp hitem
        obtain ⟨ht, _, hmedia⟩ := edgeItems_mem.mp hmem
        exact ⟨t, ht, hmedia⟩
    refine ⟨fun _ _ _ _ => rfl, fun e he => ?_, fun ht hmedia hst => ?_⟩
    · obtain ⟨v, hv⟩ := mem_iff.mp he
      obtain ⟨t, ht, _⟩ := hfrom hv
      exact mem_of_getElem? ht
    · obtain ⟨u, hu, hu'⟩ := hfrom hst
      obtain rfl := Option.some.inj (ht.symm.trans hu)
      simp [hmedia] at hu'
  obtain ⟨final, hfinal, media, hgrow, hdone⟩ := @classifyPass_spec C s true
    (MediaLive C (fillCycles (edgeItems C false) out) s)
    (fun live hs _ hmedia hnew _ => MediaLive.settle htotal live hs hmedia hnew) _ start
  have hall : ∀ e t, C[e]? = some t → isAttestation t = true → e ∈ final := by
    intro e t ht hmedia
    refine hdone ht (attestation_subject hmedia) hmedia (edgeReady_iff.mpr fun d _ u hu hu' => ?_)
    exact hgrow d (htotal d u hu hu')
  have hfull : fillCycles (edgeItems C true) final = final := by
    refine fillCycles_full fun e he => ?_
    obtain ⟨⟨_, t⟩, hmem, rfl⟩ := List.mem_map.mp he
    obtain ⟨ht, _, hmedia⟩ := edgeItems_mem.mp hmem
    exact hall _ t ht hmedia
  refine ⟨final, s, ?_, verdicts_of free classified reads live hsettled media hall⟩
  simp [classify, classifyEdges, hbase, hs, hout, hfinal, hfull]

end

end Clockchain.V1
