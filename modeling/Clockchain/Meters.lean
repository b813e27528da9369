import Mathlib.Data.List.Basic
import Mathlib.Data.List.Pairwise
import Mathlib.Order.MinMax
import Mathlib.Tactic.Ring

/-!
# Meters

A meter admits one request an interval and may run ahead of the time by a tolerance. All it
keeps is the time its next request is due. A due time that has passed counts for nothing, so
two meters that differ only in the past make the same decisions.
-/

namespace Meters
set_option autoImplicit false

universe u
variable {κ : Type u} [DecidableEq κ]

structure Rate where
  interval : Nat
  tolerance : Nat

/-- The due time after a request at `now`, or how long the request has to wait. -/
def ask (r : Rate) (due now : Nat) : Except Nat Nat :=
  let ahead := max due now - now
  if r.tolerance < ahead then .error (ahead - r.tolerance) else .ok (max due now + r.interval)

/-- A meter for each key. -/
abbrev Book (κ : Type u) := κ → Nat

def Book.after (b : Book κ) (k : κ) (due : Nat) : Book κ := fun a => if a = k then due else b a

/-- One request: the decision and the meters after it. -/
def step (r : Rate) (b : Book κ) (k : κ) (now : Nat) : Except Nat Unit × Book κ :=
  match ask r (b k) now with
  | .ok due => (.ok (), b.after k due)
  | .error wait => (.error wait, b)

/-- The decisions of a run of requests, each with its key and time. -/
def run (r : Rate) : Book κ → List (κ × Nat) → List ((κ × Nat) × Except Nat Unit)
  | _, [] => []
  | b, (k, now) :: rest =>
    let (decision, b') := step r b k now
    ((k, now), decision) :: run r b' rest

section
variable {r : Rate} {due due' now t w : Nat}

theorem ask_ok :
    ask r due now = .ok t ↔ due ≤ now + r.tolerance ∧ t = max due now + r.interval := by
  simp only [ask]
  split
  · constructor
    · intro h
      cases h
    · intro h
      omega
  · rw [Except.ok.injEq]
    omega

theorem ask_error : ask r due now = .error w ↔
    now + r.tolerance < due ∧ w = due - now - r.tolerance := by
  simp only [ask]
  split
  · rw [Except.error.injEq]
    omega
  · constructor
    · intro h
      cases h
    · intro h
      omega

/-- Only the part of a due time that lies ahead counts. -/
theorem ask_congr (h : max due now = max due' now) : ask r due now = ask r due' now := by
  unfold ask
  rw [h]

/-- A refused request is admitted after exactly the wait, and not earlier. -/
theorem ask_again (h : ask r due now = .error w) :
    (∃ due', ask r due (now + w) = .ok due') ∧
      ∀ t, now ≤ t → t < now + w → ∃ w', ask r due t = .error w' := by
  obtain ⟨hahead, hw⟩ := ask_error.mp h
  constructor
  · exact ⟨_, ask_ok.mpr ⟨by omega, rfl⟩⟩
  · intro t hle hlt
    exact ⟨_, ask_error.mpr ⟨by omega, rfl⟩⟩

end

section
variable {r : Rate} {b b' : Book κ} {k k' : κ} {now : Nat}

@[simp] theorem after_same (due : Nat) : b.after k due k = due := if_pos rfl

theorem after_other (due : Nat) (h : k' ≠ k) : b.after k due k' = b k' := if_neg h

theorem step_ok (h : (step r b k now).1 = .ok ()) :
    b k ≤ now + r.tolerance ∧ (step r b k now).2 = b.after k (max (b k) now + r.interval) := by
  unfold step at h ⊢
  split at h
  · rename_i due hask
    obtain ⟨hle, rfl⟩ := ask_ok.mp hask
    exact ⟨hle, rfl⟩
  · cases h

theorem step_error {w : Nat} (h : (step r b k now).1 = .error w) :
    ask r (b k) now = .error w ∧ (step r b k now).2 = b := by
  unfold step at h ⊢
  split at h
  · cases h
  · rename_i wait hask
    obtain rfl := Except.error.inj h
    exact ⟨hask, rfl⟩

theorem step_other (h : k' ≠ k) : (step r b k now).2 k' = b k' := by
  unfold step
  split
  · exact after_other _ h
  · rfl

theorem le_step : b k' ≤ (step r b k now).2 k' := by
  by_cases h : k' = k
  · subst h
    cases hd : (step r b k' now).1 with
    | ok _ =>
      rw [(step_ok hd).2, after_same]
      omega
    | error w => rw [(step_error hd).2]
  · rw [step_other h]

/-! ## Runs of one key -/

/-- The meter of a key sees the requests of that key only. -/
theorem run_filter (h : b k = b' k) (requests : List (κ × Nat)) :
    (run r b requests).filter (fun x => x.1.1 = k) =
      run r b' (requests.filter fun x => x.1 = k) := by
  induction requests generalizing b b' with
  | nil => rfl
  | cons request rest ih =>
    obtain ⟨k', now⟩ := request
    by_cases hk : k' = k
    · subst hk
      have hstep : (step r b k' now).1 = (step r b' k' now).1 ∧
          (step r b k' now).2 k' = (step r b' k' now).2 k' := by
        unfold step
        rw [h]
        split
        · exact ⟨rfl, (after_same _).trans (after_same _).symm⟩
        · exact ⟨rfl, h⟩
      have htail := ih hstep.2
      simp only [run, List.filter_cons, decide_true, if_true]
      rw [htail, hstep.1]
    · have hsame : (step r b k' now).2 k = b' k := by rw [step_other (Ne.symm hk), h]
      have htail := ih hsame
      simp only [run, List.filter_cons, hk, decide_false, Bool.false_eq_true, if_false]
      exact htail

/-- Meters that agree on what lies ahead make the same decisions from then on. -/
def Agree (now : Nat) (b b' : Book κ) : Prop := ∀ k, max (b k) now = max (b' k) now

omit [DecidableEq κ] in
theorem Agree.later {t : Nat} (h : Agree now b b') (hle : now ≤ t) : Agree t b b' := by
  intro k
  have hk := h k
  omega

theorem Agree.step (h : Agree now b b') : (step r b k now).1 = (step r b' k now).1 ∧
    Agree now (step r b k now).2 (step r b' k now).2 := by
  have hask := ask_congr (r := r) (h k)
  unfold Meters.step
  rw [hask]
  split
  · rename_i due _
    refine ⟨rfl, fun a => ?_⟩
    change max (b.after k due a) now = max (b'.after k due a) now
    by_cases ha : a = k
    · rw [ha, after_same, after_same]
    · rw [after_other _ ha, after_other _ ha, h a]
  · exact ⟨rfl, h⟩

/-! ## Windows -/

/-- The admitted requests of a key between two times. -/
def admitted (k : κ) (first last : Nat) (trace : List ((κ × Nat) × Except Nat Unit)) : Nat :=
  trace.countP fun x => x.1.1 = k && first ≤ x.1.2 && x.1.2 ≤ last && x.2.toBool

/-- Every admitted request moves the due time on by an interval, and none is admitted when the
due time is further ahead than the tolerance. -/
theorem admitted_due (first last : Nat) (requests : List (κ × Nat))
    (h : 0 < admitted k first last (run r b requests)) :
    max (b k) first + admitted k first last (run r b requests) * r.interval ≤
      last + r.tolerance + r.interval := by
  induction requests generalizing b with
  | nil => cases h
  | cons request rest ih =>
    obtain ⟨k', now⟩ := request
    have hmono : b k ≤ (step r b k' now).2 k := le_step
    have hrest := ih (b := (step r b k' now).2)
    simp only [run, admitted, List.countP_cons] at h hrest ⊢
    generalize List.countP _ (run r (step r b k' now).2 rest) = n at h hrest ⊢
    by_cases hcount : ((k' = k && first ≤ now && now ≤ last && (step r b k' now).1.toBool) : Bool)
    · rw [if_pos hcount]
      simp only [Bool.and_eq_true, decide_eq_true_eq] at hcount
      obtain ⟨⟨⟨rfl, hfirst⟩, hlast⟩, hok⟩ := hcount
      have hd : (step r b k' now).1 = .ok () := by
        cases hd : (step r b k' now).1 with
        | ok _ => rfl
        | error w => simp [hd, Except.toBool] at hok
      obtain ⟨hdue, hstep⟩ := step_ok hd
      rw [hstep, after_same] at hrest
      rcases Nat.eq_zero_or_pos n with hzero | hpos
      · rw [hzero]
        omega
      · have := hrest hpos
        rw [Nat.add_mul]
        omega
    · rw [if_neg hcount, Nat.add_zero] at h ⊢
      have := hrest h
      omega

/-- A window shorter than `n` intervals has fewer than `n` requests beyond the burst. -/
theorem admitted_lt {burst n : Nat} (hn : 0 < n)
    (htolerance : r.tolerance + r.interval = burst * r.interval)
    {first last : Nat} (hwindow : last < first + n * r.interval) (requests : List (κ × Nat)) :
    admitted k first last (run r b requests) < n + burst := by
  rcases Nat.eq_zero_or_pos (admitted k first last (run r b requests)) with hzero | hpos
  · omega
  · have hdue := admitted_due first last requests hpos
    apply Nat.lt_of_not_le
    intro hge
    have hmul := Nat.mul_le_mul_right r.interval hge
    rw [Nat.add_mul] at hmul
    omega

/-! ## Spaced requests -/

/-- Requests at least an interval apart. -/
def Spaced (r : Rate) (times : List Nat) : Prop := times.Pairwise fun s t => s + r.interval ≤ t

/-- A meter that is not due yet admits every request of a spaced run. -/
theorem spaced_admitted (requests : List (κ × Nat)) (hkey : ∀ x ∈ requests, x.1 = k)
    (hspaced : Spaced r (requests.map Prod.snd)) (hdue : ∀ x ∈ requests, b k ≤ x.2) :
    ∀ x ∈ run r b requests, x.2 = .ok () := by
  induction requests generalizing b with
  | nil => intro x hx; cases hx
  | cons request rest ih =>
    obtain ⟨k', now⟩ := request
    obtain rfl : k' = k := hkey _ List.mem_cons_self
    have hle : b k' ≤ now := hdue _ List.mem_cons_self
    have hask : ask r (b k') now = .ok (now + r.interval) := ask_ok.mpr ⟨by omega, by omega⟩
    have hstep : step r b k' now = (.ok (), b.after k' (now + r.interval)) := by
      unfold step
      rw [hask]
    rw [List.map_cons, Spaced, List.pairwise_cons] at hspaced
    simp only [run, hstep]
    intro x hx
    rcases List.mem_cons.mp hx with rfl | hx
    · rfl
    · refine ih (fun y hy => hkey y (List.mem_cons_of_mem _ hy)) hspaced.2 (fun y hy => ?_) x hx
      rw [after_same]
      exact hspaced.1 _ (List.mem_map_of_mem hy)

end

end Meters
