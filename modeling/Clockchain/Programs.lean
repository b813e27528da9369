import Mathlib.Data.List.Basic
import Mathlib.Data.List.Count
import Mathlib.Data.List.Nodup
import Mathlib.Data.Set.Basic

/-!
# Programs that can fail, and their loops

A program is a function into `Option`; `none` is a failed lookup or a loop that
ran out of fuel. `loopWhile` has one rule, with an invariant and a variant.
A `Scheduler` is a loop body that visits items in some order and settles those
that are ready; the order decides when an item is settled, never its value.
-/

namespace Programs
set_option autoImplicit false

universe u v w
variable {σ : Type u} {ι : Type v} {κ : Type w}

/-- `while cond { body }`, stopped after `fuel` rounds. -/
def loopWhile (cond : σ → Bool) (body : σ → Option σ) : Nat → σ → Option σ
  | 0, s => if cond s then none else some s
  | fuel + 1, s => if cond s then (body s).bind (loopWhile cond body fuel) else some s

theorem loopWhile_spec {cond : σ → Bool} {body : σ → Option σ} (inv : σ → Prop)
    (variant : σ → Nat)
    (step : ∀ s, inv s → cond s = true → ∃ t, body s = some t ∧ inv t ∧ variant t < variant s)
    {fuel : Nat} {s : σ} (hs : inv s) (hfuel : variant s ≤ fuel) :
    ∃ t, loopWhile cond body fuel s = some t ∧ inv t ∧ cond t = false := by
  induction fuel generalizing s with
  | zero =>
    cases hc : cond s with
    | false => exact ⟨s, by simp [loopWhile, hc], hs, hc⟩
    | true =>
      obtain ⟨t, _, _, hlt⟩ := step s hs hc
      omega
  | succ fuel ih =>
    cases hc : cond s with
    | false => exact ⟨s, by simp [loopWhile, hc], hs, hc⟩
    | true =>
      obtain ⟨t, hbody, ht, hlt⟩ := step s hs hc
      obtain ⟨r, hr, hinv, hend⟩ := ih ht (by omega)
      exact ⟨r, by simp [loopWhile, hc, hbody, hr], hinv, hend⟩

/-- What every round of a loop that returns keeps. -/
theorem loopWhile_inv {cond : σ → Bool} {body : σ → Option σ} (inv : σ → Prop)
    (step : ∀ s t, inv s → body s = some t → inv t) {fuel : Nat} {s t : σ}
    (h : loopWhile cond body fuel s = some t) (hs : inv s) : inv t := by
  induction fuel generalizing s with
  | zero =>
    cases hc : cond s with
    | false =>
      obtain rfl : s = t := by simpa [loopWhile, hc] using h
      exact hs
    | true => simp [loopWhile, hc] at h
  | succ fuel ih =>
    cases hc : cond s with
    | false =>
      obtain rfl : s = t := by simpa [loopWhile, hc] using h
      exact hs
    | true =>
      simp only [loopWhile, hc, if_true] at h
      obtain ⟨u, hu, h⟩ := Option.bind_eq_some_iff.mp h
      exact ih h (step s u hs hu)

/-- A fold whose invariant speaks about the part of the list already read. -/
theorem foldlM_spec {f : σ → ι → Option σ} (inv : List ι → σ → Prop) {items : List ι} {s : σ}
    (start : inv [] s)
    (step : ∀ before x after s, items = before ++ x :: after → inv before s →
      ∃ t, f s x = some t ∧ inv (before ++ [x]) t) :
    ∃ t, items.foldlM f s = some t ∧ inv items t := by
  have go : ∀ after before s, items = before ++ after → inv before s →
      ∃ t, after.foldlM f s = some t ∧ inv items t := by
    intro after
    induction after with
    | nil =>
      intro before s heq hinv
      exact ⟨s, rfl, by simpa [heq] using hinv⟩
    | cons x after ih =>
      intro before s heq hinv
      obtain ⟨t, hf, ht⟩ := step before x after s heq hinv
      obtain ⟨r, hr, hinv'⟩ := ih (before ++ [x]) t (by simp [heq]) ht
      exact ⟨r, by simp [hf, hr], hinv'⟩
  exact go items [] s rfl start

/-- `foldlM_spec` for programs with an error. -/
theorem foldlM_ok {ε : Type u} {f : σ → ι → Except ε σ} (inv : List ι → σ → Prop) {items : List ι}
    {s : σ} (start : inv [] s)
    (step : ∀ before x after s, items = before ++ x :: after → inv before s →
      ∃ t, f s x = .ok t ∧ inv (before ++ [x]) t) :
    ∃ t, items.foldlM f s = .ok t ∧ inv items t := by
  have go : ∀ after before s, items = before ++ after → inv before s →
      ∃ t, after.foldlM f s = .ok t ∧ inv items t := by
    intro after
    induction after with
    | nil =>
      intro before s heq hinv
      exact ⟨s, rfl, by simpa [heq] using hinv⟩
    | cons x after ih =>
      intro before s heq hinv
      obtain ⟨t, hf, ht⟩ := step before x after s heq hinv
      obtain ⟨r, hr, hinv'⟩ := ih (before ++ [x]) t (by simp [heq]) ht
      exact ⟨r, by rw [List.foldlM_cons, hf]; exact hr, hinv'⟩
  exact go items [] s rfl start

theorem foldlM_total {ε : Type u} {f : σ → ι → Except ε σ} {items : List ι}
    (h : ∀ s, ∀ x ∈ items, ∃ t, f s x = .ok t) (s : σ) : ∃ t, items.foldlM f s = .ok t := by
  induction items generalizing s with
  | nil => exact ⟨s, rfl⟩
  | cons x items ih =>
    obtain ⟨t, ht⟩ := h s x List.mem_cons_self
    obtain ⟨r, hr⟩ := ih (fun s y hy => h s y (List.mem_cons_of_mem x hy)) t
    exact ⟨r, by rw [List.foldlM_cons, ht]; exact hr⟩

/-- What every step of a loop that succeeds keeps. -/
theorem foldlM_inv {ε : Type u} {f : σ → ι → Except ε σ} (inv : List ι → σ → Prop) {items : List ι}
    {s t : σ} (h : items.foldlM f s = .ok t) (start : inv [] s)
    (step : ∀ before x s t, x ∈ items → inv before s → f s x = .ok t → inv (before ++ [x]) t) :
    inv items t := by
  have go : ∀ after before s, (∀ x ∈ after, x ∈ items) → inv before s →
      after.foldlM f s = .ok t → inv (before ++ after) t := by
    intro after
    induction after with
    | nil =>
      intro before s _ hinv hfold
      obtain rfl := Except.ok.inj hfold
      rwa [List.append_nil]
    | cons x after ih =>
      intro before s hmem hinv hfold
      rw [List.foldlM_cons] at hfold
      cases hx : f s x with
      | error e =>
        rw [hx] at hfold
        nomatch hfold
      | ok next =>
        rw [hx] at hfold
        have hnext := step before x s next (hmem x List.mem_cons_self) hinv hx
        have hrest := ih (before ++ [x]) next (fun y hy => hmem y (List.mem_cons_of_mem _ hy)) hnext
          hfold
        rwa [List.append_assoc] at hrest
  exact go items [] s (fun _ hx => hx) start h

theorem mapM_spec {f : ι → Option σ} {g : ι → σ} {items : List ι}
    (h : ∀ x ∈ items, f x = some (g x)) : items.mapM f = some (items.map g) := by
  induction items with
  | nil => rfl
  | cons x items ih =>
    have hx := h x List.mem_cons_self
    have ht := ih fun y hy => h y (List.mem_cons_of_mem x hy)
    simp [hx, ht]

theorem mapM_congr {f g : ι → Option σ} {items : List ι} (h : ∀ x ∈ items, f x = g x) :
    items.mapM f = items.mapM g := by
  induction items with
  | nil => rfl
  | cons x items ih =>
    rw [List.mapM_cons, List.mapM_cons, h x List.mem_cons_self,
      ih fun y hy => h y (List.mem_cons_of_mem x hy)]

/-- A `mapM` that returns has a value for each item. -/
theorem mapM_some {f : ι → Option σ} {items : List ι} {values : List σ}
    (h : items.mapM f = some values) : ∀ x ∈ items, ∃ y ∈ values, f x = some y := by
  induction items generalizing values with
  | nil => simp
  | cons x items ih =>
    rw [List.mapM_cons] at h
    obtain ⟨y, hy, h⟩ := Option.bind_eq_some_iff.mp h
    obtain ⟨ys, hys, h⟩ := Option.bind_eq_some_iff.mp h
    obtain rfl := Option.some.inj h
    intro z hz
    rcases List.mem_cons.mp hz with rfl | hz
    · exact ⟨y, List.mem_cons_self, hy⟩
    · obtain ⟨w, hw, hfw⟩ := ih hys z hz
      exact ⟨w, List.mem_cons_of_mem y hw, hfw⟩

theorem mapM_length {f : ι → Option σ} {items : List ι} {values : List σ}
    (h : items.mapM f = some values) : items.length = values.length := by
  induction items generalizing values with
  | nil =>
    obtain rfl := Option.some.inj h
    rfl
  | cons x items ih =>
    rw [List.mapM_cons] at h
    obtain ⟨y, _, h⟩ := Option.bind_eq_some_iff.mp h
    obtain ⟨ys, hys, h⟩ := Option.bind_eq_some_iff.mp h
    obtain rfl := Option.some.inj h
    rw [List.length_cons, List.length_cons, ih hys]

/-- What is read off the results is what is read off the items. -/
theorem mapM_map {f : ι → Option σ} {g : σ → κ} {h : ι → κ} {items : List ι} {values : List σ}
    (hvalues : items.mapM f = some values) (hf : ∀ x y, f x = some y → g y = h x) :
    values.map g = items.map h := by
  induction items generalizing values with
  | nil =>
    obtain rfl := Option.some.inj hvalues
    rfl
  | cons x items ih =>
    simp only [List.mapM_cons, Option.bind_eq_bind, Option.bind_eq_some_iff] at hvalues
    obtain ⟨y, hy, ys, hys, heq⟩ := hvalues
    obtain rfl := Option.some.inj heq
    rw [List.map_cons, List.map_cons, hf x y hy, ih hys]

/-- A `mapM` whose every call returns, with what names its values. -/
theorem mapM_named {f : ι → Option σ} {g : σ → κ} {h : ι → κ} {P : σ → Prop} {items : List ι}
    (hf : ∀ x ∈ items, ∃ y, f x = some y ∧ g y = h x ∧ P y) :
    ∃ values, items.mapM f = some values ∧ values.map g = items.map h ∧ ∀ y ∈ values, P y := by
  induction items with
  | nil => exact ⟨[], rfl, rfl, by simp⟩
  | cons x items ih =>
    obtain ⟨y, hy, hname, hP⟩ := hf x List.mem_cons_self
    obtain ⟨values, hrun, hnames, hall⟩ := ih fun z hz => hf z (List.mem_cons_of_mem x hz)
    exact ⟨y :: values, by simp [hy, hrun], by simp [hname, hnames],
      List.forall_mem_cons.mpr ⟨hP, hall⟩⟩

/-- A search by name among distinctly named items. -/
theorem find?_named {f : ι → κ} [DecidableEq κ] {items : List ι} (h : (items.map f).Nodup) {x : ι}
    (hx : x ∈ items) : items.find? (fun y => f y = f x) = some x := by
  obtain ⟨y, hy⟩ : ∃ y, items.find? (fun y => f y = f x) = some y := by
    rw [← Option.isSome_iff_exists, List.find?_isSome]
    exact ⟨x, hx, by simp⟩
  have hname : f y = f x := by simpa using List.find?_some hy
  rw [hy, List.inj_on_of_nodup_map h (List.mem_of_find?_eq_some hy) hx hname]

/-! ## Programs with errors -/

theorem bind_ok {ε : Type u} {α β : Type v} {x : Except ε α} {f : α → Except ε β} {b : β} :
    x >>= f = .ok b ↔ ∃ a, x = .ok a ∧ f a = .ok b := by
  cases x with
  | error e => simp [bind, Except.bind]
  | ok a => simp [bind, Except.bind]

theorem unless_ok {ε : Type u} {α β : Type v} {c : Prop} [Decidable c] {e : ε}
    {f : α → Except ε β} {y : Except ε β} {b : β} :
    (if c then throw e >>= f else y) = .ok b ↔ ¬ c ∧ y = .ok b := by
  by_cases hc : c
  · simp [hc, bind, Except.bind, throw, throwThe, MonadExceptOf.throw]
  · simp [hc]

theorem mapError_ok {ε ε' : Type u} {α : Type v} {x : Except ε α} {f : ε → ε'} {a : α} :
    x.mapError f = .ok a ↔ x = .ok a := by
  cases x with
  | error e => simp [Except.mapError]
  | ok b => simp [Except.mapError]

theorem mapM_ok {ε : Type u} {f : ι → Except ε σ} {g : σ → κ} {h : ι → κ} {items : List ι}
    (total : ∀ x ∈ items, ∃ y, f x = .ok y ∧ g y = h x) : ∃ ys, items.mapM f = .ok ys ∧
      ys.map g = items.map h ∧ ∀ y, y ∈ ys ↔ ∃ x ∈ items, f x = .ok y := by
  induction items with
  | nil => exact ⟨[], rfl, rfl, by simp⟩
  | cons x xs ih =>
    obtain ⟨y, hy, hg⟩ := total x List.mem_cons_self
    obtain ⟨ys, hys, hmap, hmem⟩ := ih fun z hz => total z (List.mem_cons_of_mem x hz)
    refine ⟨y :: ys, ?_, by rw [List.map_cons, List.map_cons, hg, hmap], fun z => ?_⟩
    · rw [List.mapM_cons, hy, hys]
      rfl
    · simp [hmem, hy, eq_comm]

/-- A program that can fail and can also panic goes on with what it has. -/
theorem mapM_each {ε : Type u} {f : ι → Except ε σ} {items : List ι} {ys : List σ}
    (h : items.mapM f = .ok ys) : ∀ x ∈ items, ∃ y, f x = .ok y := by
  induction items generalizing ys with
  | nil => simp
  | cons x xs ih =>
    rw [List.mapM_cons] at h
    obtain ⟨y, hy, h⟩ := bind_ok.mp h
    obtain ⟨zs, hzs, -⟩ := bind_ok.mp h
    intro z hz
    rcases List.mem_cons.mp hz with rfl | hz
    · exact ⟨y, hy⟩
    · exact ih hzs z hz

theorem lift_ok {ε α β : Type u} {a : α} {f : α → ExceptT ε Option β} :
    (liftM (Except.ok a : Except ε α) >>= f) = f a := rfl

theorem lift_some {ε α β : Type u} {a : α} {f : α → ExceptT ε Option β} :
    (liftM (some a) >>= f) = f a := rfl

theorem run_bind_ok {ε α β : Type u} {x : ExceptT ε Option α} {f : α → ExceptT ε Option β} {b : β} :
    (x >>= f) = some (.ok b) ↔ ∃ a, x = some (.ok a) ∧ f a = some (.ok b) := by
  change (Option.bind x fun r => ExceptT.bindCont f r) = _ ↔ _
  rw [Option.bind_eq_some_iff]
  constructor
  · rintro ⟨r, hr, hf⟩
    cases r with
    | error e => cases hf
    | ok a => exact ⟨a, hr, hf⟩
  · rintro ⟨a, ha, hf⟩
    exact ⟨.ok a, ha, hf⟩

theorem run_unless_ok {ε α β : Type u} {c : Prop} [Decidable c] {e : ε}
    {f : α → ExceptT ε Option β} {y : ExceptT ε Option β} {b : β} :
    (if c then throw e >>= f else y) = some (.ok b) ↔ ¬ c ∧ y = some (.ok b) := by
  by_cases hc : c
  · simp only [hc, if_true, not_true_eq_false, false_and, iff_false]
    intro h
    cases h
  · simp only [hc, if_false, not_false_eq_true, true_and]

theorem liftExcept_ok {ε α : Type u} {x : Except ε α} {a : α} :
    (liftM x : ExceptT ε Option α) = some (.ok a) ↔ x = .ok a := by
  change some x = some (.ok a) ↔ _
  rw [Option.some.injEq]

theorem liftOption_ok {ε α : Type u} {x : Option α} {a : α} :
    (liftM x : ExceptT ε Option α) = some (.ok a) ↔ x = some a := by
  change x.map Except.ok = some (.ok a) ↔ _
  simp

theorem lift_bind_ok {ε α β : Type u} {x : Except ε α} {f : α → ExceptT ε Option β} {b : β} :
    (liftM x >>= f) = some (.ok b) ↔ ∃ a, x = .ok a ∧ f a = some (.ok b) := by
  simp only [run_bind_ok, liftExcept_ok]

/-! ## What a program yields -/

/-- Whatever the program returns has the property. -/
def Yields (P : σ → Prop) (x : Option σ) : Prop := ∀ s, x = some s → P s

variable {P : σ → Prop} {x : Option σ}

theorem Yields.pure {s : σ} (h : P s) : Yields P (some s) := by
  rintro _ ⟨⟩
  exact h

theorem Yields.bind {y : Option κ} {f : κ → Option σ} (h : ∀ a, y = some a → Yields P (f a)) :
    Yields P (y.bind f) := by
  intro s hs
  obtain ⟨a, ha, hs⟩ := Option.bind_eq_some_iff.mp hs
  exact h a ha s hs

theorem Yields.guard {c : Prop} [Decidable c] {y : Option σ} (hx : c → Yields P x)
    (hy : ¬ c → Yields P y) : Yields P (if c then x else y) := by
  by_cases hc : c
  · rw [if_pos hc]
    exact hx hc
  · rw [if_neg hc]
    exact hy hc

/-! ## Programs with a yes-or-no answer -/

/-- The program returns, and it returns `true` exactly when `p` holds. -/
def Decides (x : Option Bool) (p : Prop) : Prop := ∃ b, x = some b ∧ (b = true ↔ p)

theorem Decides.congr {x : Option Bool} {p q : Prop} (h : Decides x p) (hpq : p ↔ q) :
    Decides x q := by
  obtain ⟨b, hx, hb⟩ := h
  exact ⟨b, hx, hb.trans hpq⟩

theorem Decides.congr' {x y : Option Bool} {p q : Prop} (h : Decides x p) (hxy : y = x)
    (hpq : p ↔ q) : Decides y q :=
  hxy ▸ h.congr hpq

theorem Decides.andThen {x y : Option Bool} {p q : Prop} (hx : Decides x p)
    (hy : p → Decides y q) : Decides (x <&&> y) (p ∧ q) := by
  obtain ⟨b, rfl, hb⟩ := hx
  cases b with
  | false => exact ⟨false, rfl, by simp [← hb]⟩
  | true =>
    have hp := hb.mp rfl
    obtain ⟨c, rfl, hc⟩ := hy hp
    exact ⟨c, rfl, by simp [hp, hc]⟩

theorem Decides.anyM {f : ι → Option Bool} {p : ι → Prop} {items : List ι}
    (h : ∀ x ∈ items, Decides (f x) (p x)) : Decides (items.anyM f) (∃ x ∈ items, p x) := by
  induction items with
  | nil => exact ⟨false, rfl, by simp⟩
  | cons x items ih =>
    obtain ⟨b, hx, hb⟩ := h x List.mem_cons_self
    obtain ⟨c, ht, hc⟩ := ih fun y hy => h y (List.mem_cons_of_mem x hy)
    cases b with
    | true => exact ⟨true, by simp [List.anyM, hx], by simp [← hb]⟩
    | false => exact ⟨c, by simp [List.anyM, hx, ht], by simp [hc, ← hb]⟩

theorem filterM_part {α : Type} {f : α → Option Bool} {p : α → Prop} {items : List α}
    (h : ∀ x ∈ items, Decides (f x) (p x)) :
    ∃ kept, items.filterM f = some kept ∧ kept.Sublist items ∧ ∀ x, x ∈ kept ↔ x ∈ items ∧ p x := by
  classical
  have hf : ∀ x ∈ items, f x = some (decide (p x)) := by
    intro x hx
    obtain ⟨b, hb, hp⟩ := h x hx
    have hbp : b = decide (p x) := by simp [← hp]
    rw [hb, hbp]
  refine ⟨items.filter fun x => decide (p x), ?_, List.filter_sublist, by simp⟩
  have go : ∀ (l acc : List α), (∀ x ∈ l, f x = some (decide (p x))) →
      l.filterAuxM f acc = some ((l.filter fun x => decide (p x)).reverse ++ acc) := by
    intro l
    induction l with
    | nil => intro acc _; rfl
    | cons x l ih =>
      intro acc hl
      have hx := hl x List.mem_cons_self
      simp only [List.filterAuxM, hx]
      by_cases hp : p x
      · simpa [hp] using ih (x :: acc) fun y hy => hl y (List.mem_cons_of_mem x hy)
      · simpa [hp] using ih acc fun y hy => hl y (List.mem_cons_of_mem x hy)
  have hrun := go items [] hf
  simp only [List.append_nil] at hrun
  simp [List.filterM, hrun]

theorem filterM_spec {α : Type} {f : α → Option Bool} {p : α → Prop} {items : List α}
    (h : ∀ x ∈ items, Decides (f x) (p x)) :
    ∃ kept, items.filterM f = some kept ∧ ∀ x, x ∈ kept ↔ x ∈ items ∧ p x := by
  obtain ⟨kept, hrun, _, hkept⟩ := filterM_part h
  exact ⟨kept, hrun, hkept⟩

/-! ## Settling items in any order -/

/-- `step` visits one item: it leaves the state alone unless the item is ready and
not yet done, and then it settles exactly that item. -/
structure Scheduler (items : List ι) (step : σ → ι → Option σ) (name : ι → κ)
    (inv : σ → Prop) (done : σ → κ → Prop) (ready : σ → ι → Prop) : Prop where
  skip : ∀ s, ∀ i ∈ items, inv s → done s (name i) ∨ ¬ ready s i → step s i = some s
  work : ∀ s, ∀ i ∈ items, inv s → ¬ done s (name i) → ready s i →
    ∃ t, step s i = some t ∧ inv t ∧ ∀ k, done t k ↔ done s k ∨ k = name i
  mono : ∀ s t, ∀ i ∈ items, inv s → inv t → (∀ k, done s k → done t k) → ready s i → ready t i

namespace Scheduler
variable {items : List ι} {step : σ → ι → Option σ} {name : ι → κ} {inv : σ → Prop}
variable {done : σ → κ → Prop} {ready : σ → ι → Prop}

theorem step_spec (h : Scheduler items step name inv done ready) {s : σ} (hs : inv s) {i : ι}
    (hi : i ∈ items) :
    ∃ t, step s i = some t ∧ inv t ∧ (∀ k, done s k → done t k) ∧
      (∀ k, done t k → done s k ∨ k = name i) ∧ (ready s i → done t (name i)) := by
  classical
  by_cases hd : done s (name i)
  · exact ⟨s, h.skip s i hi hs (Or.inl hd), hs, fun _ => id, fun _ => Or.inl, fun _ => hd⟩
  by_cases hr : ready s i
  · obtain ⟨t, hstep, ht, hdone⟩ := h.work s i hi hs hd hr
    exact ⟨t, hstep, ht, fun k hk => (hdone k).mpr (Or.inl hk), fun k hk => (hdone k).mp hk,
      fun _ => (hdone _).mpr (Or.inr rfl)⟩
  · exact ⟨s, h.skip s i hi hs (Or.inr hr), hs, fun _ => id, fun _ => Or.inl,
      fun hr' => absurd hr' hr⟩

/-- One pass over the items settles at least those that were ready at its start. -/
theorem sweep_spec (h : Scheduler items step name inv done ready) {s : σ} (hs : inv s) :
    ∃ t, items.foldlM step s = some t ∧ inv t ∧ (∀ k, done s k → done t k) ∧
      (∀ k, done t k → done s k ∨ ∃ i ∈ items, k = name i) ∧
      ∀ i ∈ items, ready s i → done t (name i) := by
  refine foldlM_spec (fun before t => inv t ∧ (∀ k, done s k → done t k) ∧
    (∀ k, done t k → done s k ∨ ∃ i ∈ items, k = name i) ∧
    ∀ i ∈ before, ready s i → done t (name i)) ⟨hs, fun _ => id, fun _ => Or.inl, by simp⟩ ?_
  rintro before i after t heq ⟨ht, hgrow, hnew, hready⟩
  have hi : i ∈ items := by simp [heq]
  obtain ⟨r, hstep, hr, hgrow', hnew', hready'⟩ := h.step_spec ht hi
  refine ⟨r, hstep, hr, fun k hk => hgrow' k (hgrow k hk), ?_, ?_⟩
  · intro k hk
    rcases hnew' k hk with hk | rfl
    · exact hnew k hk
    · exact Or.inr ⟨i, hi, rfl⟩
  · intro j hj hrj
    rcases List.mem_append.mp hj with hj | hj
    · exact hgrow' _ (hready j hj hrj)
    · obtain rfl := List.mem_singleton.mp hj
      exact hready' (h.mono s t j hi hs ht hgrow hrj)

open Classical in
/-- The items a state still has to settle. -/
noncomputable def pending (name : ι → κ) (done : σ → κ → Prop) (items : List ι) (s : σ) : Nat :=
  items.countP fun i => decide (¬ done s (name i))

theorem pending_le (items : List ι) (s : σ) : pending name done items s ≤ items.length :=
  List.countP_le_length

theorem pending_lt {items : List ι} {s t : σ} (hgrow : ∀ k, done s k → done t k) {i : ι}
    (hi : i ∈ items) (hs : ¬ done s (name i)) (ht : done t (name i)) :
    pending name done items t < pending name done items s := by
  classical
  induction items with
  | nil => simp at hi
  | cons j items ih =>
    have hle : pending name done items t ≤ pending name done items s := by
      apply List.countP_mono_left
      intro k _ hk
      simp only [decide_eq_true_eq] at hk ⊢
      exact fun hd => hk (hgrow _ hd)
    simp only [pending, List.countP_cons, decide_eq_true_eq] at hle ih ⊢
    rcases List.mem_cons.mp hi with rfl | hi
    · simp only [hs, ht, not_true, not_false_iff, if_true, if_false]
      omega
    · have hlt := ih hi
      by_cases hjs : done s (name j)
      · simp only [hjs, hgrow _ hjs, not_true, if_false]
        omega
      · simp only [hjs, not_false_iff, if_true]
        split <;> omega

/-- Passes repeated while an item is unsettled settle all items, when there is always
a ready one among the unsettled. -/
theorem settle_all (h : Scheduler items step name inv done ready) {cond : σ → Bool}
    (hcond : ∀ s, inv s → (cond s = true ↔ ∃ i ∈ items, ¬ done s (name i)))
    (hready : ∀ s, inv s → (∃ i ∈ items, ¬ done s (name i)) →
      ∃ i ∈ items, ¬ done s (name i) ∧ ready s i)
    {fuel : Nat} {s : σ} (hs : inv s) (hfuel : items.length ≤ fuel) :
    ∃ t, loopWhile cond (items.foldlM step) fuel s = some t ∧ inv t ∧
      ∀ i ∈ items, done t (name i) := by
  obtain ⟨t, hrun, ht, hend⟩ := loopWhile_spec inv (pending name done items) (by
    intro s hs hc
    obtain ⟨i, hi, hnot, hr⟩ := hready s hs ((hcond s hs).mp hc)
    obtain ⟨t, hsweep, ht, hgrow, _, hdone⟩ := h.sweep_spec hs
    exact ⟨t, hsweep, ht, pending_lt hgrow hi hnot (hdone i hi hr)⟩) hs
    ((pending_le items s).trans hfuel)
  refine ⟨t, hrun, ht, fun i hi => ?_⟩
  by_contra hnot
  simp [(hcond t ht).mpr ⟨i, hi, hnot⟩] at hend

end Scheduler

/-! ## Settling until a pass is idle -/

/-- As `Scheduler`, with a flag that `step` raises when it settles an item. -/
structure Flagged (items : List ι) (step : σ × Bool → ι → Option (σ × Bool)) (name : ι → κ)
    (inv : σ → Prop) (done : σ → κ → Prop) (ready : σ → ι → Prop) : Prop where
  skip : ∀ s b, ∀ i ∈ items, inv s → done s (name i) ∨ ¬ ready s i → step (s, b) i = some (s, b)
  work : ∀ s b, ∀ i ∈ items, inv s → ¬ done s (name i) → ready s i →
    ∃ t, step (s, b) i = some (t, true) ∧ inv t ∧ ∀ k, done t k ↔ done s k ∨ k = name i
  mono : ∀ s t, ∀ i ∈ items, inv s → inv t → (∀ k, done s k → done t k) → ready s i → ready t i

namespace Flagged
variable {items : List ι} {step : σ × Bool → ι → Option (σ × Bool)} {name : ι → κ}
variable {inv : σ → Prop} {done : σ → κ → Prop} {ready : σ → ι → Prop}

theorem sweep_spec (h : Flagged items step name inv done ready) {s : σ} (hs : inv s) :
    ∃ state, items.foldlM step (s, false) = some state ∧ inv state.1 ∧
      (∀ k, done s k → done state.1 k) ∧
      (∀ k, done state.1 k → done s k ∨ ∃ i ∈ items, k = name i) ∧
      (state.2 = true → ∃ i ∈ items, ¬ done s (name i) ∧ done state.1 (name i)) ∧
      (state.2 = false → state.1 = s ∧ ∀ i ∈ items, ready s i → done s (name i)) := by
  refine foldlM_spec (fun before (state : σ × Bool) => inv state.1 ∧
    (∀ k, done s k → done state.1 k) ∧
    (∀ k, done state.1 k → done s k ∨ ∃ i ∈ items, k = name i) ∧
    (state.2 = true → ∃ i ∈ items, ¬ done s (name i) ∧ done state.1 (name i)) ∧
    (state.2 = false → state.1 = s ∧ ∀ i ∈ before, ready s i → done s (name i)))
    ⟨hs, fun _ => id, fun _ => Or.inl, by simp, by simp⟩ ?_
  rintro before i after ⟨t, b⟩ heq ⟨ht, hgrow, hnew, hflag, hidle⟩
  have hi : i ∈ items := by simp [heq]
  by_cases hd : done t (name i) ∨ ¬ ready t i
  · refine ⟨(t, b), h.skip t b i hi ht hd, ht, hgrow, hnew, hflag, fun hb => ?_⟩
    obtain ⟨rfl, hbefore⟩ := hidle hb
    refine ⟨rfl, fun j hj hrj => ?_⟩
    rcases List.mem_append.mp hj with hj | hj
    · exact hbefore j hj hrj
    · obtain rfl := List.mem_singleton.mp hj
      exact hd.resolve_right (not_not.mpr hrj)
  · rw [not_or, not_not] at hd
    obtain ⟨r, hstep, hr, hdone⟩ := h.work t b i hi ht hd.1 hd.2
    refine ⟨(r, true), hstep, hr, fun k hk => (hdone k).mpr (Or.inl (hgrow k hk)), ?_, ?_, by simp⟩
    · intro k hk
      rcases (hdone k).mp hk with hk | rfl
      · exact hnew k hk
      · exact Or.inr ⟨i, hi, rfl⟩
    · intro _
      exact ⟨i, hi, fun hk => hd.1 (hgrow _ hk), (hdone _).mpr (Or.inr rfl)⟩

/-- Passes repeated until one is idle leave no ready item unsettled. -/
theorem settle_idle (h : Flagged items step name inv done ready) {fuel : Nat} {s : σ}
    (hs : inv s) (hfuel : items.length + 1 ≤ fuel) :
    ∃ state, loopWhile (fun state => state.2)
        (fun state : σ × Bool => items.foldlM step (state.1, false)) fuel (s, true) = some state ∧
      inv state.1 ∧ (∀ k, done s k → done state.1 k) ∧
      (∀ k, done state.1 k → done s k ∨ ∃ i ∈ items, k = name i) ∧
      ∀ i ∈ items, ready state.1 i → done state.1 (name i) := by
  let variant := fun state : σ × Bool =>
    Scheduler.pending name done items state.1 + if state.2 then 1 else 0
  have hrun : ∃ state, loopWhile (fun state => state.2)
      (fun state : σ × Bool => items.foldlM step (state.1, false)) fuel (s, true) = some state ∧
      (inv state.1 ∧ (∀ k, done s k → done state.1 k) ∧
        (∀ k, done state.1 k → done s k ∨ ∃ i ∈ items, k = name i) ∧
        (state.2 = false → ∀ i ∈ items, ready state.1 i → done state.1 (name i))) ∧
      state.2 = false := by
    refine loopWhile_spec (fun state : σ × Bool => inv state.1 ∧ (∀ k, done s k → done state.1 k) ∧
      (∀ k, done state.1 k → done s k ∨ ∃ i ∈ items, k = name i) ∧
      (state.2 = false → ∀ i ∈ items, ready state.1 i → done state.1 (name i))) variant ?_
      ⟨hs, fun _ => id, fun _ => Or.inl, by simp⟩ ?_
    · rintro ⟨u, c⟩ ⟨hu, hgrow, hnew, _⟩ hc
      obtain ⟨⟨t, b⟩, hrun, ht, hgrow', hnew', hflag, hidle⟩ := h.sweep_spec hu
      refine ⟨(t, b), hrun, ⟨ht, fun k hk => hgrow' k (hgrow k hk), ?_, ?_⟩, ?_⟩
      · exact fun k hk => (hnew' k hk).elim (hnew k) Or.inr
      · intro hb i hi hr
        obtain ⟨rfl, hall⟩ := hidle hb
        exact hall i hi hr
      · obtain rfl : c = true := hc
        cases b with
        | true =>
          obtain ⟨i, hi, hnot, hdone⟩ := hflag rfl
          have hlt := Scheduler.pending_lt hgrow' hi hnot hdone
          simpa [variant] using hlt
        | false =>
          obtain ⟨rfl, _⟩ := hidle rfl
          simp [variant]
    · have hle : Scheduler.pending name done items s ≤ items.length := Scheduler.pending_le items s
      simp only [variant, if_true]
      omega
  obtain ⟨state, hrun, ⟨ht, hgrow, hnew, hidle⟩, hend⟩ := hrun
  exact ⟨state, hrun, ht, hgrow, hnew, hidle hend⟩

end Flagged

end Programs
