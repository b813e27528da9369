import Clockchain.Kernel
import Mathlib.Data.Set.Card
import Mathlib.Data.Set.Finite.Lattice
import Mathlib.Logic.Relation

/-!
# Histories of delegation and revocation

A history is a finite causal set of acts. Each act is signed through a grant; some
acts issue a grant below the one they sign with, and some revoke a grant. A revoke
only acknowledges its own strict past: an act it covers elsewhere is silenced. A
revoke is effective unless an effective revoke silences it, and since scope points
strictly down the issuers, exactly one set of revokes is effective.
-/

set_option autoImplicit false

universe u v

/-- Acts `ι` signed through grants `γ`. `parent p e` reads "`p` is a parent of `e`",
`issuer i g` reads "`i` is the issuer of `g`". -/
structure History (ι : Type u) (γ : Type v) where
  mem : ι → Prop
  parent : ι → ι → Prop
  signer : ι → γ
  issues : ι → γ → Prop
  issuer : γ → γ → Prop
  /-- The target and whether everything below it is meant too. -/
  revoke : ι → γ → Bool → Prop

namespace History
open Relation
variable {ι : Type u} {γ : Type v} (H : History ι γ)

/-- Reflexive causal ancestry. -/
def Anc : ι → ι → Prop := ReflTransGen H.parent

/-- Strict causal ancestry; for a revoke, the past it acknowledges. -/
def Before : ι → ι → Prop := TransGen H.parent

/-- Reflexive issuance ancestry. -/
def Under : γ → γ → Prop := ReflTransGen H.issuer

def Above : γ → γ → Prop := TransGen H.issuer

def Root (g : γ) : Prop := ∀ i, ¬ H.issuer i g

def Revokes (r : ι) : Prop := ∃ t c, H.revoke r t c

/-- The root grant revokes itself. -/
def Relinquishes (r : ι) : Prop := ∃ c, H.revoke r (H.signer r) c ∧ H.Root (H.signer r)

def Covers (r : ι) (g : γ) : Prop := ∃ t c, H.revoke r t c ∧ (t = g ∨ c = true ∧ H.Under t g)

/-- `r` cancels the issuance of `g`, directly or through an issuer of `g`. -/
inductive Cuts (r : ι) : γ → Prop where
  | cut {i g : γ} {d : ι} : H.issuer i g → H.issues d g → H.Covers r i → ¬ H.Before d r → Cuts r g
  | up {i g : γ} : H.issuer i g → Cuts r i → Cuts r g

/-- `r` covers the grant `e` is signed through and does not acknowledge `e`. -/
def Overrides (r e : ι) : Prop := H.Covers r (H.signer e) ∧ ¬ H.Before e r

/-- `r` takes the authority of `e` away. -/
def Silences (r e : ι) : Prop := H.Overrides r e ∨ H.Cuts r (H.signer e)

def Attacks (q r : ι) : Prop := ¬ H.Relinquishes r ∧ H.Silences q r

/-- `E` is the set of revokes that no member of `E` silences, relinquishments exempt. -/
def Effective (E : Set ι) : Prop := Kernel.IsKernel H.Revokes H.Attacks E

structure Lawful : Prop where
  finite : {e | H.mem e}.Finite
  acyclic : WellFounded H.parent
  parent_mem : ∀ {p e}, H.parent p e → H.mem p ∧ H.mem e
  issues_mem : ∀ {e g}, H.issues e g → H.mem e
  issues_event : ∀ {d e g}, H.issues d g → H.issues e g → d = e
  issues_grant : ∀ {e g g'}, H.issues e g → H.issues e g' → g = g'
  issuer_before : ∀ {i g}, H.issuer i g → ∃ d e, H.issues d i ∧ H.issues e g ∧ H.Before d e
  issuer_signer : ∀ {i g e}, H.issuer i g → H.issues e g → H.signer e = i
  root_signer : ∀ {g e}, H.Root g → H.issues e g → H.signer e = g
  signer_issued : ∀ {e}, H.mem e → ∃ d, H.issues d (H.signer e) ∧ H.Anc d e
  revoke_mem : ∀ {r t c}, H.revoke r t c → H.mem r
  revoke_unique : ∀ {r t t' c c'}, H.revoke r t c → H.revoke r t' c' → t = t' ∧ c = c'
  target_issued : ∀ {r t c}, H.revoke r t c → ∃ d, H.issues d t ∧ H.Before d r
  scope : ∀ {r t c}, H.revoke r t c →
    H.Above (H.signer r) t ∨ H.signer r = t ∧ H.Root t

variable {H}

theorem Revokes.mem (law : H.Lawful) {r : ι} : H.Revokes r → H.mem r
  | ⟨_, _, h⟩ => law.revoke_mem h

theorem Relinquishes.revokes {r : ι} : H.Relinquishes r → H.Revokes r
  | ⟨c, h, _⟩ => ⟨_, c, h⟩

theorem Anc.eq_or_before {a b : ι} (h : H.Anc a b) : a = b ∨ H.Before a b := by
  rcases reflTransGen_iff_eq_or_transGen.mp h with rfl | h
  · exact Or.inl rfl
  · exact Or.inr h

theorem Before.anc {a b : ι} (h : H.Before a b) : H.Anc a b := h.to_reflTransGen

theorem Anc.trans {a b c : ι} (hab : H.Anc a b) (hbc : H.Anc b c) : H.Anc a c :=
  ReflTransGen.trans hab hbc

theorem Anc.before {a b c : ι} (hab : H.Anc a b) (hbc : H.Before b c) : H.Before a c :=
  TransGen.trans_right hab hbc

theorem before_iff {a b : ι} : H.Before a b ↔ ∃ p, H.Anc a p ∧ H.parent p b := by
  constructor
  · intro h
    exact (TransGen.tail'_iff.mp h)
  · rintro ⟨p, hap, hpb⟩
    exact TransGen.tail' hap hpb

namespace Lawful
variable (law : H.Lawful)
include law

theorem anc_mem {a b : ι} (h : H.Anc a b) (hb : H.mem b) : H.mem a := by
  rcases ReflTransGen.cases_head h with rfl | ⟨c, hac, _⟩
  · exact hb
  · exact (law.parent_mem hac).1

theorem before_irrefl (a : ι) : ¬ H.Before a a := fun h =>
  law.acyclic.transGen.irrefl.irrefl a h

theorem above_before {i g : γ} (h : H.Above i g) :
    ∃ d e, H.issues d i ∧ H.issues e g ∧ H.Before d e := by
  induction h with
  | single h => exact law.issuer_before h
  | tail _ h ih =>
    obtain ⟨d, e, hd, he, hde⟩ := ih
    obtain ⟨e', f, he', hf, hef⟩ := law.issuer_before h
    obtain rfl := law.issues_event he he'
    exact ⟨d, f, hd, hf, hde.trans hef⟩

theorem above_irrefl (g : γ) : ¬ H.Above g g := by
  intro h
  obtain ⟨d, e, hd, he, hde⟩ := law.above_before h
  obtain rfl := law.issues_event hd he
  exact law.before_irrefl d hde

theorem issuer_unique {i j g : γ} (hi : H.issuer i g) (hj : H.issuer j g) : i = j := by
  obtain ⟨_, e, _, he, _⟩ := law.issuer_before hi
  exact (law.issuer_signer hi he).symm.trans (law.issuer_signer hj he)

theorem lineage_finite (g : γ) : {t | H.Under t g}.Finite := by
  have hgrants : {t | ∃ d ∈ {e | H.mem e}, H.issues d t}.Finite := by
    rw [show {t | ∃ d ∈ {e | H.mem e}, H.issues d t} = ⋃ d ∈ {e | H.mem e}, {t | H.issues d t} by
      ext t; simp]
    apply law.finite.biUnion
    intro d _
    exact Set.Subsingleton.finite fun _ h _ h' => law.issues_grant h h'
  apply (hgrants.insert g).subset
  intro t ht
  rcases ReflTransGen.cases_head ht with rfl | ⟨u, htu, _⟩
  · exact Set.mem_insert _ _
  · obtain ⟨d, _, hd, _⟩ := law.issuer_before htu
    exact Set.mem_insert_of_mem _ ⟨d, law.issues_mem hd, hd⟩

theorem past_finite {e : ι} (he : H.mem e) : {a | H.Anc a e}.Finite :=
  law.finite.subset fun _ ha => law.anc_mem ha he

/-- A nonempty set of acts has one that precedes no other. -/
theorem exists_last {A : Set ι} (hA : ∀ x ∈ A, H.mem x) (hne : A.Nonempty) :
    ∃ m ∈ A, ∀ x ∈ A, ¬ H.Before m x := by
  obtain ⟨m, hm, hmax⟩ := Set.Finite.exists_maximalFor (fun x => {a | H.Anc a x}.ncard) A
    (law.finite.subset hA) hne
  refine ⟨m, hm, fun x hx hmx => ?_⟩
  have hlt : {a | H.Anc a m}.ncard < {a | H.Anc a x}.ncard := by
    apply Set.ncard_lt_ncard _ (law.past_finite (hA x hx))
    refine ⟨fun a ha => ha.trans hmx.anc, fun hsub => ?_⟩
    exact law.before_irrefl x ((hsub (ReflTransGen.refl : H.Anc x x)).before hmx)
  exact absurd (hmax hx hlt.le) (by simpa using hlt)

end Lawful

/-- The length of the lineage of a grant. -/
noncomputable def depth (H : History ι γ) (g : γ) : Nat := {t | H.Under t g}.ncard

open Classical in
/-- Relinquishments are evaluated first, every other revoke with the grant it signs with. -/
noncomputable def rank (H : History ι γ) (r : ι) : Nat :=
  if H.Relinquishes r then 0 else H.depth (H.signer r)

theorem rank_eq_succ {r : ι} {n : Nat} :
    H.rank r = n + 1 ↔ ¬ H.Relinquishes r ∧ H.depth (H.signer r) = n + 1 := by
  unfold rank
  split <;> simp [*]

theorem rank_le_depth (r : ι) : H.rank r ≤ H.depth (H.signer r) := by
  unfold rank
  split
  · exact Nat.zero_le _
  · exact le_refl _

namespace Lawful
variable (law : H.Lawful)
include law

theorem depth_pos (g : γ) : 0 < H.depth g :=
  (Set.ncard_pos (law.lineage_finite g)).mpr ⟨g, ReflTransGen.refl⟩

theorem depth_lt {i g : γ} (h : H.Above i g) : H.depth i < H.depth g := by
  apply Set.ncard_lt_ncard _ (law.lineage_finite g)
  refine ⟨fun t ht => ht.trans h.to_reflTransGen, fun hsub => ?_⟩
  exact law.above_irrefl g (TransGen.trans_right (hsub (ReflTransGen.refl : H.Under g g)) h)

theorem rank_eq_zero {r : ι} : H.rank r = 0 ↔ H.Relinquishes r := by
  have := law.depth_pos (H.signer r)
  unfold rank
  split
  · simp [*]
  · simp only [*, iff_false]
    omega

/-- A revoke covers only what is below its own signing grant. -/
theorem covers_above {r : ι} {g : γ} (h : H.Covers r g) :
    H.Above (H.signer r) g ∨ H.Relinquishes r := by
  obtain ⟨t, c, hr, hcover⟩ := h
  rcases law.scope hr with hup | ⟨heq, hroot⟩
  · left
    rcases hcover with rfl | ⟨_, ht⟩
    · exact hup
    · exact TransGen.trans_left hup ht
  · right
    exact ⟨c, heq ▸ hr, heq ▸ hroot⟩

theorem cuts_above {r : ι} {g : γ} (h : H.Cuts r g) :
    H.Above (H.signer r) g ∨ H.Relinquishes r := by
  induction h with
  | cut hi _ hcov _ => exact (law.covers_above hcov).imp_left fun h => h.tail hi
  | up hi _ ih => exact ih.imp_left fun h => h.tail hi

theorem cuts_iff {r d : ι} {i g : γ} (hi : H.issuer i g) (hd : H.issues d g) :
    H.Cuts r g ↔ H.Covers r i ∧ ¬ H.Before d r ∨ H.Cuts r i := by
  constructor
  · intro h
    cases h with
    | cut hj he hcov hpast =>
      obtain rfl := law.issuer_unique hi hj
      obtain rfl := law.issues_event hd he
      exact Or.inl ⟨hcov, hpast⟩
    | up hj h =>
      obtain rfl := law.issuer_unique hi hj
      exact Or.inr h
  · rintro (⟨hcov, hpast⟩ | h)
    · exact .cut hi hd hcov hpast
    · exact .up hi h

theorem silences_above {q r : ι} (h : H.Silences q r) :
    H.Above (H.signer q) (H.signer r) ∨ H.Relinquishes q :=
  h.elim (fun h => law.covers_above h.1) law.cuts_above

theorem attacks_rank {q r : ι} (h : H.Attacks q r) : H.rank q < H.rank r := by
  simp only [rank, h.1, if_false]
  split
  · exact law.depth_pos _
  · exact law.depth_lt ((law.silences_above h.2).resolve_right ‹_›)

theorem effective_unique {E F : Set ι} (hE : H.Effective E) (hF : H.Effective F) : E = F :=
  hE.unique (fun _ _ _ _ h => law.attacks_rank h) hF

theorem stage_effective {N : Nat} (hN : ∀ r, H.Revokes r → H.rank r ≤ N) :
    H.Effective (Kernel.stage H.Revokes H.Attacks H.rank N) :=
  Kernel.stage_isKernel (fun _ _ _ _ h => law.attacks_rank h) hN

end Lawful

theorem Effective.mem_iff {E : Set ι} (hE : H.Effective E) (r : ι) :
    r ∈ E ↔ H.Revokes r ∧ (H.Relinquishes r ∨ ∀ q ∈ E, ¬ H.Silences q r) := by
  rw [Kernel.IsKernel.mem_iff hE r]
  apply and_congr_right
  intro _
  by_cases h : H.Relinquishes r <;> simp [Attacks, h]

theorem Effective.revokes {E : Set ι} (hE : H.Effective E) {r : ι} (hr : r ∈ E) : H.Revokes r :=
  ((hE.mem_iff r).mp hr).1

/-! ## Self-consistency -/

/-- Some issuance on the way down to `g` lies outside the past that a revoke of `E`,
covering its issuer, acknowledges. -/
def Canceled (H : History ι γ) (E : Set ι) (g : γ) : Prop :=
  ∃ r ∈ E, ∃ i j d, H.issuer i j ∧ H.Under j g ∧ H.Covers r i ∧ H.issues d j ∧ ¬ H.Before d r

/-- `E` holds the root self-revocations and the revokes that no member of `E` takes the
authority of. -/
def SelfConsistent (H : History ι γ) (E : Set ι) : Prop :=
  E = {r | H.Revokes r ∧ (H.Relinquishes r ∨ ¬ H.Canceled E (H.signer r) ∧
    ∀ q ∈ E, H.Covers q (H.signer r) → H.Before r q)}

theorem cuts_iff_under {r : ι} {g : γ} : H.Cuts r g ↔
    ∃ i j d, H.issuer i j ∧ H.Under j g ∧ H.Covers r i ∧ H.issues d j ∧ ¬ H.Before d r := by
  constructor
  · intro h
    induction h with
    | cut hi hd hcov hpast => exact ⟨_, _, _, hi, ReflTransGen.refl, hcov, hd, hpast⟩
    | up hi _ ih =>
      obtain ⟨i, j, d, hij, hj, h⟩ := ih
      exact ⟨i, j, d, hij, hj.tail hi, h⟩
  · rintro ⟨i, j, d, hij, hj, hcov, hd, hpast⟩
    induction hj with
    | refl => exact .cut hij hd hcov hpast
    | tail _ hi ih => exact .up hi ih

theorem canceled_iff {E : Set ι} {g : γ} : H.Canceled E g ↔ ∃ r ∈ E, H.Cuts r g := by
  simp only [Canceled, cuts_iff_under]

theorem selfConsistent_iff {E : Set ι} : H.SelfConsistent E ↔ H.Effective E := by
  have hset : Kernel.unattacked H.Revokes H.Attacks E = {r | H.Revokes r ∧ (H.Relinquishes r ∨
      ¬ H.Canceled E (H.signer r) ∧ ∀ q ∈ E, H.Covers q (H.signer r) → H.Before r q)} := by
    refine Set.ext fun r => and_congr_right fun _ => ?_
    simp only [Attacks, canceled_iff, Silences, Overrides, not_and, not_or, not_not, not_exists]
    by_cases hr : H.Relinquishes r
    · simp [hr]
    · simp only [hr, not_false_iff, forall_const, false_or]
      exact ⟨fun h => ⟨fun q hq => (h q hq).2, fun q hq => (h q hq).1⟩,
        fun h q hq => ⟨h.2 q hq, h.1 q hq⟩⟩
  rw [SelfConsistent, Effective, Kernel.IsKernel, hset, eq_comm]

end History
