import Clockchain.V1.EdgeClassification

/-!
# The shape of a verdict

A valid verdict is bare, the others give a reason, and only a pending one names missing events:
at most `MAX_SET` of them, but for a reaffirmation that misses its edge besides as many parents.
-/

namespace Clockchain.V1
open Maps Programs
set_option autoImplicit false

inductive Status.Shaped (n : Nat) : Status → Prop where
  | valid : Shaped n .valid
  | invalid {r : Reason} : r ≠ .none → Shaped n (.invalid r)
  | pending {r : Reason} {m : List Hash} : r ≠ .none → m.length ≤ n → Shaped n (.pending r m)

theorem Status.Shaped.mono {m n : Nat} {st : Status} (hmn : m ≤ n) (h : st.Shaped m) :
    st.Shaped n := by
  cases h with
  | valid => exact .valid
  | invalid hr => exact .invalid hr
  | pending hr hm => exact .pending hr (hm.trans hmn)

theorem sortedSet_length (l : List Hash) : (sortedSet l).length ≤ l.length := by
  rw [sortedSet, Std.ExtTreeSet.length_toList]
  exact Std.ExtTreeSet.size_ofList_le

section
variable {cr : Crypto} {C : Candidates} {out : BTreeMap Status} {s : Subjects} {n : Nat}

theorem shaped_past {c : Prop} [Decidable c] {r : Reason} {x : Option Status} (hr : r ≠ .none)
    (hx : ¬ c → Yields (Status.Shaped n) x) :
    Yields (Status.Shaped n) (if c then some (.invalid r) else x) :=
  .guard (fun _ => .pure (.invalid hr)) hx

/-! ## Subject events -/

theorem checkMerged_shaped (ds : List Disposition) : (checkMerged ds).Shaped n := by
  unfold checkMerged
  split
  · exact .invalid (by decide)
  · exact .valid

theorem checkSelected_shaped {past : Candidates} {A : Authority} {e : Envelope} {r : Hash}
    {ds : List Disposition} : Yields (Status.Shaped n) (checkSelected cr past A e r ds) := by
  unfold checkSelected
  split
  · refine .bind fun effect _ => shaped_past (by decide) fun _ => ?_
    refine shaped_past (by decide) fun _ => shaped_past (by decide) fun _ => ?_
    refine .bind fun stray _ => .pure ?_
    split
    · exact .invalid (by decide)
    · exact .valid
  · exact .pure (.invalid (by decide))

theorem evaluatePayload_shaped {past : Candidates} {A : Authority} {g p : Hash} {e : Envelope} :
    Yields (Status.Shaped n) (evaluatePayload cr C past A g p e) := by
  unfold evaluatePayload
  split
  · exact .bind fun b _ => shaped_past (by decide) fun _ => .pure .valid
  · refine shaped_past (by decide) fun _ => shaped_past (by decide) fun _ => ?_
    exact shaped_past (by decide) fun _ => shaped_past (by decide) fun _ => .pure .valid
  · refine shaped_past (by decide) fun _ => .bind fun b _ => ?_
    exact shaped_past (by decide) fun _ => shaped_past (by decide) fun _ => .pure .valid
  · refine shaped_past (by decide) fun _ => ?_
    split
    · exact .pure (checkMerged_shaped _)
    · exact checkSelected_shaped
  · intro st h
    cases h

theorem evaluateAuthority_shaped {e : Envelope} :
    Yields (Status.Shaped n) (evaluateAuthority cr C e) := by
  unfold evaluateAuthority
  split
  · refine shaped_past (by decide) fun _ => shaped_past (by decide) fun _ => ?_
    refine .bind fun parent _ => .bind fun cones _ => shaped_past (by decide) fun _ => ?_
    refine .bind fun view _ => .bind fun grant _ => shaped_past (by decide) fun _ => ?_
    refine .bind fun g _ => shaped_past (by decide) fun _ => ?_
    exact .bind fun l _ => shaped_past (by decide) fun _ => evaluatePayload_shaped
  · exact .pure (.invalid (by decide))

theorem parentOffence_reason {subject : Hash} {e : Envelope} {p : Hash} {parent : Envelope}
    {r : Reason} (h : parentOffence subject e p parent = some r) : r ≠ .none := by
  simp only [parentOffence] at h
  split_ifs at h <;> obtain rfl := Option.some.inj h <;> decide

theorem firstOffence_reason {subject : Hash} {e : Envelope} {r : Reason}
    (h : firstOffence C subject e = some (some r)) : r ≠ .none := by
  obtain ⟨parents, _, h⟩ := Option.bind_eq_some_iff.mp h
  obtain ⟨item, _, hitem⟩ := List.exists_of_findSome?_eq_some (Option.some.inj h)
  exact parentOffence_reason hitem

theorem headerOffence_reason {e : Envelope} {r : Reason} (h : headerOffence e = some r) :
    r ≠ .none := by
  simp only [headerOffence] at h
  split_ifs at h <;> obtain rfl := Option.some.inj h <;> decide

theorem evaluateParents_shaped {e : Envelope} (hn : e.parents.length ≤ n) (hn' : 1 ≤ n) :
    Yields (Status.Shaped n) (evaluateParents cr C out e) := by
  unfold evaluateParents
  refine .guard (fun _ => .pure (.pending (by decide) ?_)) fun _ => ?_
  · exact (List.length_filter_le _ _).trans hn
  refine shaped_past (by decide) fun _ => .bind fun states _ => ?_
  refine shaped_past (by decide) fun _ => .bind fun subject _ => .bind fun offence hoffence => ?_
  cases offence with
  | some r => exact .pure (.invalid (firstOffence_reason hoffence))
  | none =>
    refine .guard (fun _ => .pure (.pending (by decide) (Nat.zero_le n))) fun _ => ?_
    split
    · exact shaped_past (by decide) fun _ => evaluateAuthority_shaped
    · exact .pure (.pending (by decide) hn')

theorem evaluate_shaped {id : Hash} {t : Signed} (ht : C[id]? = some t)
    (hn : t.envelope.parents.length ≤ n) (hn' : 1 ≤ n) :
    Yields (Status.Shaped n) (evaluate cr id C out) := by
  unfold evaluate
  rw [ht]
  refine .bind fun u hu => ?_
  obtain rfl := Option.some.inj hu
  dsimp only
  split
  · next r hoffence => exact .pure (.invalid (headerOffence_reason hoffence))
  · exact .guard (fun _ => .pure .valid) fun _ => evaluateParents_shaped hn hn'

/-! ## Edges and attestations -/

theorem checkPin_shaped {pin : Pin} : Yields (Status.Shaped 2) (checkPin pin C out s) := by
  unfold checkPin
  refine .guard (fun _ => .pure (.pending (by decide) ?_)) fun _ => ?_
  · exact ((List.dedup_sublist _).length_le.trans (List.length_filter_le _ _))
  refine .bind fun basis _ => .bind fun subject _ => shaped_past (by decide) fun _ => ?_
  refine .bind fun status _ => ?_
  split
  · exact .pure (.invalid (by decide))
  · exact .pure (.pending (by decide) (Nat.zero_le 2))
  · refine .bind fun selected _ => shaped_past (by decide) fun _ => ?_
    exact .bind fun revision _ => shaped_past (by decide) fun _ => .pure .valid

theorem Status.Shaped.missing_length {st : Status} (h : st.Shaped n) : st.missing.length ≤ n := by
  cases h with
  | valid => exact Nat.zero_le n
  | invalid _ => exact Nat.zero_le n
  | pending _ hm => exact hm

theorem checkPins_shaped {pins : Pins} : Yields (Status.Shaped 4) (checkPins pins C out s) := by
  unfold checkPins
  refine .bind fun source hsource => .bind fun target htarget => ?_
  have hs := checkPin_shaped source hsource
  have ht := checkPin_shaped target htarget
  have hs' := hs.mono (n := 4) (by decide)
  have ht' := ht.mono (n := 4) (by decide)
  refine .guard (fun _ => .pure hs') fun _ => .guard (fun _ => .pure ht') fun _ => ?_
  refine .guard (fun _ => .pure (.pending (by decide) ?_)) fun _ => ?_
  · refine (sortedSet_length _).trans ?_
    rw [List.length_append]
    exact Nat.add_le_add hs.missing_length ht.missing_length
  exact .guard (fun _ => .pure hs') fun _ => .guard (fun _ => .pure ht') fun _ => .pure .valid

theorem evaluateAssert_shaped {e : Envelope} {relation : String} {pins : Pins} {d : Decision} :
    Yields (Status.Shaped 4) (evaluateAssert C out s e relation pins d) := by
  unfold evaluateAssert
  refine shaped_past (by decide) fun _ => shaped_past (by decide) fun _ => ?_
  refine shaped_past (by decide) fun _ => .bind fun status hstatus => ?_
  refine .guard (fun _ => .pure (checkPins_shaped status hstatus)) fun _ => ?_
  refine .guard (fun _ => shaped_past (by decide) fun _ => .bind fun t _ => ?_) fun _ =>
    .pure .valid
  exact shaped_past (by decide) fun _ => .pure .valid

theorem evaluateReaffirmed_shaped {e : Envelope} {base : Signed} {old : List ParentPins}
    {new : Pins} {d : Decision} :
    Yields (Status.Shaped 4) (evaluateReaffirmed C out s e base old new d) := by
  unfold evaluateReaffirmed
  refine .bind fun comparable _ => shaped_past (by decide) fun _ => .bind fun basePins _ => ?_
  refine shaped_past (by decide) fun _ => shaped_past (by decide) fun _ => ?_
  refine .bind fun misquoted _ => shaped_past (by decide) fun _ => ?_
  exact shaped_past (by decide) fun _ => checkPins_shaped

/-- The events of its history a reaffirmation misses. -/
def missingHistory (C : Candidates) (e : Envelope) (edge : Hash) : List Hash :=
  sortedSet ((e.parents ++ [edge]).filter fun r => !C.contains r)

theorem mem_missingHistory {e : Envelope} {edge r : Hash} :
    r ∈ missingHistory C e edge ↔ (r ∈ e.parents ∨ r = edge) ∧ r ∉ C := by
  simp [missingHistory, sortedSet_mem, or_and_right]

theorem missingHistory_nodup (C : Candidates) (e : Envelope) (edge : Hash) :
    (missingHistory C e edge).Nodup :=
  nodup_toList (Std.ExtTreeSet.ofList _ compare)

/-- Only a reaffirmation of `MAX_SET` parents can miss more events than a set may hold. -/
theorem missingHistory_over {e : Envelope} {edge : Hash} (hn : e.parents.length ≤ n)
    (hnodup : e.parents.Nodup) : n < (missingHistory C e edge).length ↔
      e.parents.length = n ∧ edge ∉ e.parents ∧ ∀ r ∈ edge :: e.parents, r ∉ C := by
  have hover : ∀ l : List Hash, missingHistory C e edge ⊆ l → l.length ≤ n →
      ¬ n < (missingHistory C e edge).length := by
    intro l hsub hl hlt
    have hle := (List.subperm_of_subset (missingHistory_nodup C e edge) hsub).length_le
    omega
  constructor
  · intro hlt
    have hedge : edge ∉ e.parents := by
      intro hedge
      refine hover e.parents (fun r hr => ?_) hn hlt
      rcases (mem_missingHistory.mp hr).1 with hr | rfl
      · exact hr
      · exact hedge
    have habsent : ∀ r ∈ edge :: e.parents, r ∉ C := by
      intro r hr hrC
      refine hover ((edge :: e.parents).erase r) (fun q hq => ?_) ?_ hlt
      · obtain ⟨hq, hqC⟩ := mem_missingHistory.mp hq
        have hne : q ≠ r := fun h => hqC (h ▸ hrC)
        exact (List.mem_erase_of_ne hne).mpr (List.mem_cons.mpr hq.symm)
      · rw [List.length_erase_of_mem hr]
        exact hn
    refine ⟨Nat.le_antisymm hn ?_, hedge, habsent⟩
    have hover' : missingHistory C e edge ⊆ edge :: e.parents := fun r hr =>
      List.mem_cons.mpr (mem_missingHistory.mp hr).1.symm
    have hle := (List.subperm_of_subset (missingHistory_nodup C e edge) hover').length_le
    rw [List.length_cons] at hle
    omega
  · rintro ⟨hlen, hedge, habsent⟩
    have hsub : edge :: e.parents ⊆ missingHistory C e edge := fun r hr =>
      mem_missingHistory.mpr ⟨(List.mem_cons.mp hr).symm, habsent r hr⟩
    have hle := (List.subperm_of_subset (List.nodup_cons.mpr ⟨hedge, hnodup⟩) hsub).length_le
    rw [List.length_cons, hlen] at hle
    exact hle

theorem evaluateReaffirm_shaped {e : Envelope} {edge : Hash} {old : List ParentPins} {new : Pins}
    {d : Decision} (hn : (missingHistory C e edge).length ≤ n) (hn' : 4 ≤ n) :
    Yields (Status.Shaped n) (evaluateReaffirm C out s e edge old new d) := by
  unfold evaluateReaffirm
  refine shaped_past (by decide) fun _ => ?_
  refine .guard (fun _ => .pure (.pending (by decide) hn)) fun _ => .bind fun base _ => ?_
  refine shaped_past (by decide) fun _ => .bind fun strays _ => shaped_past (by decide) fun _ => ?_
  refine .bind fun states _ => shaped_past (by decide) fun _ => shaped_past (by decide) fun _ => ?_
  refine .guard (fun _ => .pure (.pending (by decide) (Nat.zero_le n))) fun _ => ?_
  exact fun st hst => (evaluateReaffirmed_shaped st hst).mono hn'

theorem evaluateAttestation_shaped {e : Envelope} {k : TargetKind} {target : Hash}
    {artifactKind : String} : (evaluateAttestation C out s e k target artifactKind).Shaped 1 := by
  have hone : ∀ r : Reason, r ≠ .none → (Status.pending r [target]).Shaped 1 := fun r hr =>
    .pending hr (Nat.le_refl 1)
  simp only [evaluateAttestation]
  split
  · exact .invalid (by decide)
  split
  · exact .invalid (by decide)
  cases k with
  | revision =>
    dsimp only
    split
    · exact .valid
    · exact hone _ (by decide)
  | event =>
    dsimp only
    split
    · exact hone _ (by decide)
    · split
      · exact .invalid (by decide)
      · split
        · exact .invalid (by decide)
        · exact .pending (by decide) (by decide)
        · exact .valid

/-- No field of a subject event is set. -/
structure Envelope.Bare (e : Envelope) : Prop where
  subject : e.subject = none
  subjectKey : e.subjectKey = none
  grant : e.grant = none
  assertedTime : e.assertedTime = none

theorem bare_iff {e : Envelope} : ¬ (e.subject.isSome || e.subjectKey.isSome || e.grant.isSome
    || e.assertedTime.isSome) = true ↔ e.Bare := by
  simp only [Bool.or_eq_true, not_or, Option.not_isSome_iff_eq_none]
  exact ⟨fun ⟨⟨⟨h, h'⟩, h''⟩, h'''⟩ => ⟨h, h', h'', h'''⟩, fun ⟨h, h', h'', h'''⟩ =>
    ⟨⟨⟨h, h'⟩, h''⟩, h'''⟩⟩

theorem evaluateEdge_shaped {id : Hash} {t : Signed} (ht : C[id]? = some t) (hn : 4 ≤ n)
    (hmissing : t.envelope.Bare → ∀ edge old new d,
      t.envelope.payload = .edgeReaffirm edge old new d →
      (missingHistory C t.envelope edge).length ≤ n) :
    Yields (Status.Shaped n) (evaluateEdge id C out s) := by
  unfold evaluateEdge
  rw [ht]
  refine .bind fun u hu => ?_
  obtain rfl := Option.some.inj hu
  refine shaped_past (by decide) fun hbare => ?_
  split
  · exact fun st hst => (evaluateAssert_shaped st hst).mono hn
  · next hp => exact evaluateReaffirm_shaped (hmissing (bare_iff.mp hbare) _ _ _ _ hp) hn
  · exact .pure (evaluateAttestation_shaped.mono (by omega))
  · intro st h
    cases h

end

/-- The shape of every verdict of a classification. -/
theorem Verdicts.shaped {cr : Crypto} {C : Candidates} {out : BTreeMap Status} {s : Subjects}
    (verdicts : Verdicts cr C out s) {e : Hash} {t : Signed} {st : Status} (ht : C[e]? = some t)
    (hst : out[e]? = some st)
    (hmissing : t.envelope.Bare → ∀ edge old new d,
      t.envelope.payload = .edgeReaffirm edge old new d →
      (missingHistory C t.envelope edge).length ≤ maxSet) : st.Shaped maxSet := by
  have hparents : t.envelope.parents.length ≤ maxSet := (t.canonical _ List.mem_cons_self).2
  have hcycle : (Status.invalid .cycle).Shaped maxSet := .invalid (by decide)
  have hverdict : ∀ {x : Option Status}, Yields (Status.Shaped maxSet) x → x = out[e]? →
      st.Shaped maxSet := fun hx heq => hx st (heq.trans hst)
  have hfail : out[e]? = some (.invalid .cycle) → st.Shaped maxSet := fun hc => by
    obtain rfl := Option.some.inj (hst.symm.trans hc)
    exact hcycle
  cases hsub : isSubject t with
  | true =>
    by_cases hsettled : Settled C e
    · exact hverdict (evaluate_shaped ht hparents (by decide)) (verdicts.subject ht hsub hsettled)
    · exact hfail (verdicts.subjectCycle ht hsub hsettled)
  | false =>
    have hedge : Yields (Status.Shaped maxSet) (evaluateEdge e C out s) :=
      evaluateEdge_shaped ht (by decide) hmissing
    cases hmedia : isAttestation t with
    | true => exact hverdict hedge (verdicts.media ht hmedia)
    | false =>
      by_cases hsettled : EdgeSettled C e
      · exact hverdict hedge (verdicts.edge ht hsub hmedia hsettled)
      · exact hfail (verdicts.edgeCycle ht hsub hmedia hsettled)

/-- The verdict on a bare reaffirmation that misses some of its history. -/
theorem Verdicts.missing {cr : Crypto} {C : Candidates} {out : BTreeMap Status} {s : Subjects}
    (verdicts : Verdicts cr C out s) {e edge : Hash} {t : Signed} {old : List ParentPins}
    {new : Pins} {d : Decision} (ht : C[e]? = some t) (hbare : t.envelope.Bare)
    (hp : t.envelope.payload = .edgeReaffirm edge old new d)
    (habsent : ∀ r ∈ edge :: t.envelope.parents, r ∉ C) (hparents : t.envelope.parents ≠ []) :
    out[e]? = some (.pending .parentMissing (missingHistory C t.envelope edge)) := by
  have hsub : isSubject t = false := by simp [isSubject, hp, Payload.kind]
  have hmedia : isAttestation t = false := by simp [isAttestation, hp, Payload.kind]
  have hsettled : EdgeSettled C e := by
    refine .after ht hsub hmedia fun r hr u hu _ _ => ?_
    have hr' : r ∈ edge :: t.envelope.parents := by
      simpa [edgeDeps, hp, parentsOf, or_comm] using hr
    exact absurd (mem_of_getElem? hu) (habsent r hr')
  have hmissing : edge ∈ missingHistory C t.envelope edge :=
    mem_missingHistory.mpr ⟨Or.inr rfl, habsent edge List.mem_cons_self⟩
  rw [← verdicts.edge ht hsub hmedia hsettled]
  unfold evaluateEdge
  rw [ht]
  have hok : ¬ t.envelope.parents.isEmpty = true := by simpa using hparents
  have hsome : (!(missingHistory C t.envelope edge).isEmpty) = true := by
    simpa using List.ne_nil_of_mem hmissing
  simp only [Option.bind_eq_bind, Option.bind_some, if_neg (bare_iff.mpr hbare), hp]
  unfold evaluateReaffirm
  rw [if_neg hok]
  exact if_pos hsome

end Clockchain.V1
