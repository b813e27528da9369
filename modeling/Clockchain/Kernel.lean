import Mathlib.Data.Set.Basic
import Mathlib.Data.Set.Insert
import Mathlib.Order.Monotone.Basic

/-!
# Kernels of a ranked attack relation

Arguments attack each other; a kernel is a set that keeps exactly the arguments
none of its own members attack. When an attack only reaches arguments of larger
rank there is one kernel, and deciding the ranks in increasing order, each against
what the lower ranks decided, computes it.
-/

namespace Kernel
set_option autoImplicit false

universe u
variable {ι : Type u} (Arg : ι → Prop) (attacks : ι → ι → Prop)

/-- The arguments no member of `E` attacks. -/
def unattacked (E : Set ι) : Set ι := {r | Arg r ∧ ∀ q ∈ E, ¬ attacks q r}

def IsKernel (E : Set ι) : Prop := unattacked Arg attacks E = E

variable {Arg attacks}

theorem IsKernel.mem_iff {E : Set ι} (h : IsKernel Arg attacks E) (r : ι) :
    r ∈ E ↔ Arg r ∧ ∀ q ∈ E, ¬ attacks q r :=
  (Set.ext_iff.mp h r).symm

theorem IsKernel.arg {E : Set ι} (h : IsKernel Arg attacks E) {r : ι} (hr : r ∈ E) : Arg r :=
  ((h.mem_iff r).mp hr).1

variable {rank : ι → Nat}

/-- `r` is decided alike by two sets that agree on the arguments of smaller rank. -/
theorem unattacked_congr (ranked : ∀ q r, Arg q → Arg r → attacks q r → rank q < rank r)
    {E F : Set ι} (hE : ∀ q ∈ E, Arg q) (hF : ∀ q ∈ F, Arg q) {r : ι}
    (h : ∀ q, rank q < rank r → (q ∈ E ↔ q ∈ F)) :
    r ∈ unattacked Arg attacks E ↔ r ∈ unattacked Arg attacks F := by
  have go : ∀ {E F : Set ι}, (∀ q ∈ F, Arg q) → (∀ q, rank q < rank r → (q ∈ E ↔ q ∈ F)) →
      r ∈ unattacked Arg attacks E → r ∈ unattacked Arg attacks F := by
    rintro E F hF h ⟨hr, hfree⟩
    refine ⟨hr, fun q hq hatt => ?_⟩
    exact hfree q ((h q (ranked q r (hF q hq) hr hatt)).mpr hq) hatt
  exact ⟨go hF h, go hE fun q hq => (h q hq).symm⟩

theorem IsKernel.unique (ranked : ∀ q r, Arg q → Arg r → attacks q r → rank q < rank r)
    {E F : Set ι} (hE : IsKernel Arg attacks E) (hF : IsKernel Arg attacks F) : E = F := by
  have go : ∀ n r, rank r = n → (r ∈ E ↔ r ∈ F) := by
    intro n
    induction n using Nat.strong_induction_on with
    | _ n ih =>
      intro r hr
      have hagree : ∀ q, rank q < rank r → (q ∈ E ↔ q ∈ F) :=
        fun q hq => ih (rank q) (hr ▸ hq) q rfl
      have h := unattacked_congr ranked (fun q hq => hE.arg hq) (fun q hq => hF.arg hq) hagree
      rwa [show unattacked Arg attacks E = E from hE,
        show unattacked Arg attacks F = F from hF] at h
  exact Set.ext fun r => go (rank r) r rfl

variable (Arg attacks rank)

/-- The arguments decided by the ranks up to `n`. -/
def stage : Nat → Set ι
  | 0 => {r | Arg r ∧ rank r = 0}
  | n + 1 => stage n ∪ {r | rank r = n + 1 ∧ r ∈ unattacked Arg attacks (stage n)}

variable {Arg attacks rank}

theorem stage_arg {n : Nat} {r : ι} (h : r ∈ stage Arg attacks rank n) : Arg r ∧ rank r ≤ n := by
  induction n with
  | zero => exact ⟨h.1, h.2.le⟩
  | succ n ih =>
    rcases h with h | ⟨hrank, h⟩
    · exact ⟨(ih h).1, Nat.le_succ_of_le (ih h).2⟩
    · exact ⟨h.1, hrank.le⟩

/-- A later stratum changes no decision of an earlier one. -/
theorem stage_stable {n m : Nat} (hnm : n ≤ m) {r : ι} (hr : rank r ≤ n) :
    r ∈ stage Arg attacks rank m ↔ r ∈ stage Arg attacks rank n := by
  induction m, hnm using Nat.le_induction with
  | base => rfl
  | succ m hle ih =>
    rw [← ih]
    constructor
    · rintro (h | ⟨hrank, _⟩)
      · exact h
      · omega
    · exact Or.inl

theorem stage_isKernel (ranked : ∀ q r, Arg q → Arg r → attacks q r → rank q < rank r)
    {N : Nat} (hN : ∀ r, Arg r → rank r ≤ N) : IsKernel Arg attacks (stage Arg attacks rank N) := by
  have hargs : ∀ n, ∀ q ∈ stage Arg attacks rank n, Arg q := fun n q hq => (stage_arg hq).1
  apply Set.ext
  intro r
  by_cases hr : Arg r
  swap
  · exact ⟨fun h => absurd h.1 hr, fun h => absurd (stage_arg h).1 hr⟩
  have hle := hN r hr
  cases hrank : rank r with
  | zero =>
    have hfree : r ∈ unattacked Arg attacks (stage Arg attacks rank N) := by
      refine ⟨hr, fun q hq hatt => ?_⟩
      have := ranked q r (hargs N q hq) hr hatt
      omega
    have hbase : r ∈ stage Arg attacks rank 0 := ⟨hr, hrank⟩
    exact ⟨fun _ => (stage_stable N.zero_le hrank.le).mpr hbase, fun _ => hfree⟩
  | succ n =>
    have hagree : ∀ q, rank q < rank r →
        (q ∈ stage Arg attacks rank N ↔ q ∈ stage Arg attacks rank n) :=
      fun q hq => stage_stable (by omega) (by omega)
    rw [unattacked_congr ranked (hargs N) (hargs n) hagree,
      stage_stable (n := n + 1) (by omega) hrank.le]
    constructor
    · exact fun h => Or.inr ⟨hrank, h⟩
    · rintro (h | ⟨_, h⟩)
      · have := (stage_arg h).2
        omega
      · exact h

end Kernel
