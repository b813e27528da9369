import Clockchain.Programs

/-!
# Sweeps until nothing changes

A loop sweeps over its items until a sweep raises no flag. The same loop over a part
of the items follows it step by step, as long as the other items leave alone what the
part reads.
-/

namespace Programs
set_option autoImplicit false

universe u v
variable {σ : Type u} {ι : Type v}

/-- `R s t` reads "`s` is the part of `t` that the kept items see". -/
structure Follows (items : List ι) (keep : ι → Bool) (step : σ × Bool → ι → Option (σ × Bool))
    (R : σ → σ → Prop) : Prop where
  visit : ∀ {i : ι} {s s' : σ} {c c' : Bool} {t' : σ × Bool}, i ∈ items → keep i = true → R s s' →
    (c = true → c' = true) → step (s', c') i = some t' →
    ∃ t, step (s, c) i = some t ∧ R t.1 t'.1 ∧ (t.2 = true → t'.2 = true)
  skip : ∀ {i : ι} {s s' : σ} {c' : Bool} {t' : σ × Bool}, i ∈ items → keep i = false → R s s' →
    step (s', c') i = some t' → R s t'.1 ∧ (c' = true → t'.2 = true)
  quiet : ∀ {i : ι} {s : σ × Bool} {t : σ × Bool}, step s i = some t → t.2 = false → t = s

namespace Follows
variable {items : List ι} {keep : ι → Bool} {step : σ × Bool → ι → Option (σ × Bool)}
variable {R : σ → σ → Prop} (h : Follows items keep step R)
include h

theorem sweep {l : List ι} (hl : ∀ i ∈ l, i ∈ items) {s s' : σ} {c c' : Bool} {t' : σ × Bool}
    (hR : R s s') (hc : c = true → c' = true) (hrun : l.foldlM step (s', c') = some t') :
    ∃ t, (l.filter keep).foldlM step (s, c) = some t ∧ R t.1 t'.1 ∧ (t.2 = true → t'.2 = true) := by
  induction l generalizing s s' c c' with
  | nil =>
    obtain rfl := Option.some.inj hrun
    exact ⟨(s, c), rfl, hR, hc⟩
  | cons i l ih =>
    have hi := hl i List.mem_cons_self
    have hrestl : ∀ j ∈ l, j ∈ items := fun j hj => hl j (List.mem_cons_of_mem i hj)
    rw [List.foldlM_cons] at hrun
    obtain ⟨u', hu', hrest⟩ := Option.bind_eq_some_iff.mp hrun
    cases hkeep : keep i with
    | true =>
      obtain ⟨u, hu, hRu, hflag⟩ := h.visit hi hkeep hR hc hu'
      obtain ⟨t, ht, hRt⟩ := ih hrestl hRu hflag hrest
      refine ⟨t, ?_, hRt⟩
      rw [List.filter_cons_of_pos hkeep, List.foldlM_cons, hu]
      exact ht
    | false =>
      obtain ⟨hRu, hflag⟩ := h.skip hi hkeep hR hu'
      obtain ⟨t, ht, hRt⟩ := ih hrestl hRu (fun hct => hflag (hc hct)) hrest
      refine ⟨t, ?_, hRt⟩
      rw [List.filter_cons_of_neg (by rw [hkeep]; exact Bool.false_ne_true)]
      exact ht

/-- A sweep that raises no flag has changed nothing. -/
theorem idle {l : List ι} {s t : σ × Bool} (hrun : l.foldlM step s = some t)
    (ht : t.2 = false) : t = s := by
  induction l generalizing s with
  | nil => exact (Option.some.inj hrun).symm
  | cons i l ih =>
    rw [List.foldlM_cons] at hrun
    obtain ⟨u, hu, hrest⟩ := Option.bind_eq_some_iff.mp hrun
    obtain rfl := ih hrest
    exact h.quiet hu ht

/-- The loop over the part ends first, and what it has found is still there at the end. -/
theorem settle {fuel fuel' : Nat} {s s' : σ} {b b' : Bool} {t t' : σ × Bool}
    (hR : R s s') (hb : b = true → b' = true)
    (hrest : b = false → (items.filter keep).foldlM step (s, false) = some (s, false))
    (hrun : loopWhile (fun state => state.2)
      (fun state : σ × Bool => (items.filter keep).foldlM step (state.1, false)) fuel
      (s, b) = some t)
    (hrun' : loopWhile (fun state => state.2)
      (fun state : σ × Bool => items.foldlM step (state.1, false)) fuel' (s', b') = some t') :
    R t.1 t'.1 := by
  have hstop : b = false → t = (s, b) := by
    rintro rfl
    cases fuel <;> exact (Option.some.inj hrun).symm
  induction fuel' generalizing fuel s s' b b' with
  | zero =>
    cases b' with
    | true => cases hrun'
    | false =>
      obtain rfl := Option.some.inj hrun'
      have hfalse : b = false := Bool.eq_false_iff.mpr fun hbt => by cases hb hbt
      rw [hstop hfalse]
      exact hR
  | succ fuel' ih =>
    cases b' with
    | false =>
      obtain rfl := Option.some.inj hrun'
      have hfalse : b = false := Bool.eq_false_iff.mpr fun hbt => by cases hb hbt
      rw [hstop hfalse]
      exact hR
    | true =>
      obtain ⟨u', hu', hnext'⟩ := Option.bind_eq_some_iff.mp hrun'
      obtain ⟨u, hu, hRu, hflag⟩ := h.sweep (fun i hi => hi) hR (fun hc => hc) hu'
      cases b with
      | false =>
        obtain rfl := Option.some.inj ((hrest rfl).symm.trans hu)
        exact ih hRu (fun hbt => by cases hbt) hrest hrun hnext' hstop
      | true =>
        cases fuel with
        | zero => cases hrun
        | succ fuel =>
          obtain ⟨v, hv, hnext⟩ := Option.bind_eq_some_iff.mp hrun
          obtain rfl := Option.some.inj (hu.symm.trans hv)
          refine ih hRu hflag (fun hidle => ?_) hnext hnext' fun hidle => ?_
          · obtain rfl := h.idle hu hidle
            exact hu
          · have hend : u = (u.1, false) := Prod.ext rfl hidle
            rw [hend] at hnext ⊢
            cases fuel <;> exact (Option.some.inj hnext).symm

end Follows

end Programs
