import Clockchain.Reads
import Clockchain.V0.Filter

/-!
# The two paths of the filter

`feasibility` reads until a factor vanishes, `certify` reads everything: what they both answer is
the same verdict, and what fails on the short path fails on the long one.
-/

namespace Clockchain.V0
open V1 (Hash)
set_option autoImplicit false

/-! ## The combination -/

/-- The variables of the loop of `combine`. -/
structure Tally where
  absences : List AbsenceWitness
  firstZeroIsContrary : Option ContraryWitness
  anyZero : Bool

def Tally.add (t : Tally) : FactorOutcome → Tally
  | .holds => t
  | .absent w => { t with anyZero := true, absences := t.absences ++ [w] }
  | .contrary w => { t with
      firstZeroIsContrary := if t.anyZero then t.firstZeroIsContrary else some w
      anyZero := true }

def Tally.verdict (t : Tally) (support : Option PhiSupport) : Except FilterError Verdict :=
  match t.firstZeroIsContrary, t.anyZero with
  | some by_, _ => .ok (.contradicted by_)
  | none, true => .ok (.unsupported t.absences)
  | none, false =>
    match support with
    | some support => .ok (.supported support)
    | none => .error .panicked

def vanished (o : FactorOutcome) : Bool := o ≠ .holds

theorem Tally.foldl_add (outcomes : List FactorOutcome) :
    outcomes.foldl Tally.add ⟨[], none, false⟩ =
      ⟨outcomes.filterMap FactorOutcome.absence,
        (outcomes.find? vanished).bind FactorOutcome.contradiction,
        (outcomes.find? vanished).isSome⟩ := by
  induction outcomes using List.reverseRecOn with
  | nil => rfl
  | append_singleton outcomes o ih =>
    rw [List.foldl_concat, ih, List.filterMap_append, List.find?_append]
    cases hfirst : outcomes.find? vanished <;> cases o <;>
      simp [Tally.add, FactorOutcome.absence, FactorOutcome.contradiction, vanished]

/-- The loop of the source finds the same verdict. -/
theorem combine_loop (outcomes : List FactorOutcome) (support : Option PhiSupport) :
    (outcomes.foldl Tally.add ⟨[], none, false⟩).verdict support = combine outcomes support := by
  rw [Tally.foldl_add]
  unfold combine Tally.verdict
  rw [show (fun o : FactorOutcome => decide (o ≠ .holds)) = vanished from rfl]
  cases hfirst : outcomes.find? vanished with
  | none => rfl
  | some o =>
    cases o with
    | holds => exact absurd (List.find?_some hfirst) (by simp [vanished])
    | absent w => rfl
    | contrary w => rfl

/-! ## The factors -/

def Reachability.outcome : Reachability → FactorOutcome
  | .within _ => .holds
  | .none w => .absent w

def Reachability.support : Reachability → Option PhiSupport
  | .within support => some support
  | .none _ => Option.none

/-- The factors in their order, each with the read it needs. -/
def factors (v : CorpusView) (q : FeasibilityQuery) : List (Except ViewError FactorOutcome) :=
  [(v.window q.subjects.1 q.tQ).map (windowFactor · q.tQ q.subjects.1),
    (v.window q.subjects.2 q.tQ).map (windowFactor · q.tQ q.subjects.2),
    (v.admissibility q.claim q.tQ).map (admissFactor · q.claim),
    (knownK v q.subjects.1 q.subjects.2 q.k q.tQ).map Reachability.outcome]

/-- The verdict says that a factor vanished, and how. -/
def Verdict.Names (verdict : Verdict) : FactorOutcome → Prop
  | .holds => False
  | .absent w => ∃ others, verdict = .unsupported (w :: others)
  | .contrary w => verdict = .contradicted w

/-- The verdict on a query is that of its first factor that vanished, or the walk. -/
def Verdict.Judges (verdict : Verdict) (v : CorpusView) (q : FeasibilityQuery) : Prop :=
  (∃ o before after, factors v q = before ++ .ok o :: after ∧ (∀ x ∈ before, x = .ok .holds) ∧
    verdict.Names o) ∨
  (∀ x ∈ factors v q, x = .ok .holds) ∧
    ∃ support, knownK v q.subjects.1 q.subjects.2 q.k q.tQ = .ok (.within support) ∧
      verdict = .supported support

/-- The walk of the last factor. -/
def walk? (v : CorpusView) (q : FeasibilityQuery) : Option PhiSupport :=
  (knownK v q.subjects.1 q.subjects.2 q.k q.tQ).toOption.bind Reachability.support

/-- The verdict on the first factor that vanished. -/
def verdictOf (v : CorpusView) (q : FeasibilityQuery) : Option FactorOutcome → Verdict
  | some o => o.rejects.getD (.unsupported [])
  | none => .supported ((walk? v q).getD .reflexive)

variable {f : Filter} {v : CorpusView} {q : FeasibilityQuery}

/-- A factor is read, and the rest only when it holds. -/
def Filter.read {γ : Type} (f : Filter) (v : CorpusView) (read : Except ViewError γ)
    (factor : γ → FactorOutcome) (next : Except FilterError Judgment) :
    Except FilterError Judgment := do
  let x ← read.mapError .view
  if let some verdict := (factor x).rejects then
    return f.judge v verdict
  next

theorem read_first {γ : Type} (read : Except ViewError γ) (factor : γ → FactorOutcome)
    {rest : List (Except ViewError FactorOutcome)} {next : Except FilterError Judgment}
    (hnext : next = ((Reads.first vanished rest).mapError .view).map fun o =>
      f.judge v (verdictOf v q o)) :
    f.read v read factor next =
      ((Reads.first vanished (read.map factor :: rest)).mapError .view).map fun o =>
        f.judge v (verdictOf v q o) := by
  subst hnext
  cases read with
  | error e => rfl
  | ok x =>
    simp only [Filter.read, Except.mapError, bind, Except.bind, Except.map, Reads.first]
    cases factor x <;> rfl

theorem feasibility_first : f.feasibility v q =
    ((f.checkQuery q).mapError .malformed).bind fun _ =>
      ((Reads.first vanished (factors v q)).mapError .view).map fun o =>
        f.judge v (verdictOf v q o) := by
  unfold Filter.feasibility factors
  cases f.checkQuery q with
  | error e => rfl
  | ok _ =>
    refine read_first _ _ (read_first _ _ (read_first _ _ ?_))
    unfold verdictOf walk?
    cases knownK v q.subjects.1 q.subjects.2 q.k q.tQ with
    | error e => rfl
    | ok reach => cases reach <;> rfl

theorem judgment_map (verdict : Except FilterError Verdict) (g : Verdict → Certificate) :
    (verdict >>= fun w => pure (g w)).map Certificate.judgment =
      verdict.map fun w => (g w).judgment := by
  cases verdict <;> rfl

theorem certify_all : (f.certify v q).map Certificate.judgment =
    ((f.checkQuery q).mapError .malformed).bind fun _ =>
      ((Reads.all (factors v q)).mapError .view).bind fun outcomes =>
        (combine outcomes (walk? v q)).map (f.judge v) := by
  unfold Filter.certify factors walk?
  cases f.checkQuery q with
  | error e => rfl
  | ok _ =>
    cases v.window q.subjects.1 q.tQ with
    | error e => rfl
    | ok first =>
      cases v.window q.subjects.2 q.tQ with
      | error e => rfl
      | ok second =>
        cases v.admissibility q.claim q.tQ with
        | error e => rfl
        | ok admitted =>
          cases knownK v q.subjects.1 q.subjects.2 q.k q.tQ with
          | error e => rfl
          | ok reach =>
            cases reach <;> exact judgment_map _ _

/-! ## The verdicts -/

theorem holds_of_not_vanished {o : FactorOutcome} (h : vanished o = false) : o = .holds := by
  cases o with
  | holds => rfl
  | absent w => nomatch h
  | contrary w => nomatch h

/-- All factors held, so there is a walk. -/
theorem walk_of_first (h : Reads.first vanished (factors v q) = .ok none) :
    (∀ x ∈ factors v q, x = .ok .holds) ∧ ∃ support,
      knownK v q.subjects.1 q.subjects.2 q.k q.tQ = .ok (.within support) ∧
      walk? v q = some support := by
  have hall : ∀ x ∈ factors v q, x = .ok .holds := by
    intro x hx
    obtain ⟨o, rfl, ho⟩ := Reads.first_none.mp h x hx
    rw [holds_of_not_vanished ho]
  refine ⟨hall, ?_⟩
  have hreach := hall ((knownK v q.subjects.1 q.subjects.2 q.k q.tQ).map Reachability.outcome)
    (by simp [factors])
  unfold walk?
  cases hknown : knownK v q.subjects.1 q.subjects.2 q.k q.tQ with
  | error e =>
    rw [hknown] at hreach
    nomatch hreach
  | ok reach =>
    cases reach with
    | within support => exact ⟨support, rfl, rfl⟩
    | none w =>
      rw [hknown] at hreach
      nomatch hreach

/-- What vanished first is what a verdict names. -/
def Verdict.Follows (verdict : Verdict) (v : CorpusView) (q : FeasibilityQuery) :
    Option FactorOutcome → Prop
  | some o => verdict.Names o
  | none => ∃ support, walk? v q = some support ∧ verdict = .supported support

theorem Verdict.Follows.judges {verdict : Verdict} {first : Option FactorOutcome}
    (hfirst : Reads.first vanished (factors v q) = .ok first) (h : verdict.Follows v q first) :
    verdict.Judges v q := by
  cases first with
  | some o =>
    obtain ⟨before, after, hfactors, -, hbefore⟩ := Reads.first_some hfirst
    refine .inl ⟨o, before, after, hfactors, fun x hx => ?_, h⟩
    obtain ⟨b, rfl, hb⟩ := hbefore x hx
    rw [holds_of_not_vanished hb]
  | none =>
    obtain ⟨hall, support, hknown, hwalk⟩ := walk_of_first hfirst
    obtain ⟨support', hwalk', rfl⟩ := h
    obtain rfl := Option.some.inj (hwalk.symm.trans hwalk')
    exact .inr ⟨hall, support, hknown, rfl⟩

/-- Verdicts on the same factor differ in what else they list only. -/
theorem Verdict.Follows.projection {verdict verdict' : Verdict} {first : Option FactorOutcome}
    (h : verdict.Follows v q first) (h' : verdict'.Follows v q first) :
    (f.judge v verdict).consensusProjection = (f.judge v verdict').consensusProjection := by
  cases first with
  | some o =>
    cases o with
    | holds => exact h.elim
    | absent w =>
      obtain ⟨others, rfl⟩ := h
      obtain ⟨others', rfl⟩ := h'
      rfl
    | contrary w =>
      have hverdict : verdict = .contradicted w := h
      have hverdict' : verdict' = .contradicted w := h'
      rw [hverdict, hverdict']
  | none =>
    obtain ⟨support, hwalk, rfl⟩ := h
    obtain ⟨support', hwalk', rfl⟩ := h'
    rw [Option.some.inj (hwalk.symm.trans hwalk')]

theorem verdictOf_follows {first : Option FactorOutcome}
    (hfirst : Reads.first vanished (factors v q) = .ok first) :
    (verdictOf v q first).Follows v q first := by
  cases first with
  | some o =>
    obtain ⟨-, -, -, hzero, -⟩ := Reads.first_some hfirst
    cases o with
    | holds => nomatch hzero
    | absent w => exact ⟨[], rfl⟩
    | contrary w => rfl
  | none =>
    obtain ⟨-, support, -, hwalk⟩ := walk_of_first hfirst
    refine ⟨support, hwalk, ?_⟩
    rw [verdictOf, hwalk]
    rfl

/-- `combine` has a verdict: when all factors held there is a walk. -/
theorem combine_follows {outcomes : List FactorOutcome}
    (hall : Reads.all (factors v q) = .ok outcomes) :
    ∃ verdict, combine outcomes (walk? v q) = .ok verdict ∧
      verdict.Follows v q (outcomes.find? vanished) := by
  have hfirst : Reads.first vanished (factors v q) = .ok (outcomes.find? vanished) :=
    Reads.first_of_all hall
  rw [← combine_loop, Tally.foldl_add]
  cases hzero : outcomes.find? vanished with
  | none =>
    rw [hzero] at hfirst
    obtain ⟨-, support, -, hwalk⟩ := walk_of_first hfirst
    rw [hwalk]
    exact ⟨.supported support, rfl, support, hwalk, rfl⟩
  | some o =>
    obtain ⟨ho, before, after, houtcomes, hbefore⟩ := List.find?_eq_some_iff_append.mp hzero
    have hsilent : before.filterMap FactorOutcome.absence = [] := by
      refine List.filterMap_eq_nil_iff.mpr fun b hb => ?_
      have hholds : b = .holds := holds_of_not_vanished (by simpa using hbefore b hb)
      rw [hholds]
      rfl
    cases o with
    | holds => nomatch ho
    | absent w =>
      refine ⟨_, rfl, after.filterMap FactorOutcome.absence, ?_⟩
      rw [houtcomes, List.filterMap_append, hsilent]
      rfl
    | contrary w => exact ⟨_, rfl, rfl⟩

theorem map_error {ε α β : Type} {x : Except ε α} {g : α → β} {e : ε} (h : x.map g = .error e) :
    x = .error e := by
  cases x with
  | error e' => exact congrArg Except.error (Except.error.inj h)
  | ok a => nomatch h

theorem map_ok {ε α β : Type} {x : Except ε α} {g : α → β} {b : β} (h : x.map g = .ok b) :
    ∃ a, x = .ok a ∧ g a = b := by
  cases x with
  | error e => nomatch h
  | ok a => exact ⟨a, rfl, Except.ok.inj h⟩

/-- Either both paths fail with one error, or the short one has a verdict and the long one has
the same or fails on a read of its own. -/
theorem paths_cases (f : Filter) (v : CorpusView) (q : FeasibilityQuery) :
    (∃ e, e ≠ .panicked ∧ f.feasibility v q = .error e ∧ f.certify v q = .error e) ∨
    ∃ first, Reads.first vanished (factors v q) = .ok first ∧
      f.feasibility v q = .ok (f.judge v (verdictOf v q first)) ∧
      ((∃ e, e ≠ .panicked ∧ f.certify v q = .error e) ∨
        ∃ c verdict, f.certify v q = .ok c ∧ c.judgment = f.judge v verdict ∧
          verdict.Follows v q first) := by
  have hshort := feasibility_first (f := f) (v := v) (q := q)
  have hlong := certify_all (f := f) (v := v) (q := q)
  cases hcheck : f.checkQuery q with
  | error e =>
    rw [hcheck] at hshort hlong
    exact .inl ⟨.malformed e, nofun, hshort, map_error hlong⟩
  | ok _ =>
    rw [hcheck] at hshort hlong
    cases hfirst : Reads.first vanished (factors v q) with
    | error e =>
      rw [hfirst] at hshort
      rw [Reads.all_error hfirst] at hlong
      exact .inl ⟨.view e, nofun, hshort, map_error hlong⟩
    | ok first =>
      rw [hfirst] at hshort
      refine .inr ⟨first, rfl, hshort, ?_⟩
      cases hall : Reads.all (factors v q) with
      | error e =>
        rw [hall] at hlong
        exact .inl ⟨.view e, nofun, map_error hlong⟩
      | ok outcomes =>
        obtain ⟨verdict, hcombine, hfollows⟩ := combine_follows hall
        rw [Reads.first_of_all hall] at hfirst
        rw [Except.ok.inj hfirst] at hfollows
        simp only [hall, Except.mapError, Except.bind, hcombine, Except.map] at hlong
        obtain ⟨c, hcertify, hjudgment⟩ := map_ok hlong
        exact .inr ⟨c, verdict, hcertify, hjudgment, hfollows⟩

theorem paths_agree (f : Filter) (v : CorpusView) (q : FeasibilityQuery) :
    (∀ c, f.certify v q = .ok c → ∃ j, f.feasibility v q = .ok j ∧
      j.consensusProjection = c.judgment.consensusProjection) ∧
    (∀ e, f.feasibility v q = .error e → f.certify v q = .error e) ∧
    (∀ j, f.feasibility v q = .ok j → j.verdict.Judges v q) ∧
    (∀ c, f.certify v q = .ok c → c.judgment.verdict.Judges v q) ∧
    f.feasibility v q ≠ .error .panicked ∧ f.certify v q ≠ .error .panicked := by
  rcases paths_cases f v q with ⟨e, he, hshort, hlong⟩ | ⟨first, hfirst, hshort, hlong⟩
  · rw [hshort, hlong]
    refine ⟨nofun, fun e' h => congrArg _ (Except.error.inj h), nofun, nofun, ?_, ?_⟩
    · exact fun h => he (Except.error.inj h)
    · exact fun h => he (Except.error.inj h)
  · have hfollows := verdictOf_follows hfirst
    rw [hshort]
    refine ⟨fun c hc => ⟨_, rfl, ?_⟩, nofun, fun j hj => ?_, fun c hc => ?_, nofun, fun h => ?_⟩
    · rcases hlong with ⟨e, -, hlong⟩ | ⟨c', verdict, hlong, hjudgment, hsame⟩
      · nomatch hlong.symm.trans hc
      · obtain rfl := Except.ok.inj (hlong.symm.trans hc)
        rw [hjudgment]
        exact hfollows.projection hsame
    · obtain rfl := Except.ok.inj hj
      exact hfollows.judges hfirst
    · rcases hlong with ⟨e, -, hlong⟩ | ⟨c', verdict, hlong, hjudgment, hsame⟩
      · nomatch hlong.symm.trans hc
      · obtain rfl := Except.ok.inj (hlong.symm.trans hc)
        rw [hjudgment]
        exact hsame.judges hfirst
    · rcases hlong with ⟨e, he, hlong⟩ | ⟨c', verdict, hlong, -, -⟩
      · exact he (Except.error.inj (hlong.symm.trans h))
      · nomatch hlong.symm.trans h

end Clockchain.V0
