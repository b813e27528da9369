import Clockchain.V0.Identities

/-!
# The gate, step by step

`cc-authoring/src/admission.rs` with its subtractions, slices and unwraps spelled out: a step that
panics gives none. Entries come in as they are, so the rules of a batch see every year that fits in
64 bits.
-/

namespace Clockchain.V0.Authoring
open Publisher
open V1.Publisher (isWhitespace trim)
set_option autoImplicit false

namespace Checked

/-! ## Steps that can panic -/

/-- `x - y` of two `usize`. -/
def subUsize (x y : Nat) : Option Nat := if y ≤ x then some (x - y) else none

/-- `x - y` of two `i64`. -/
def subI64 (x y : Int) : Option Int :=
  if -2 ^ 63 ≤ x - y ∧ x - y < 2 ^ 63 then some (x - y) else none

/-- `x.abs()` of an `i64`. -/
def absI64 (x : Int) : Option Int := if x = -2 ^ 63 then none else some |x|

/-- `t.len()`. -/
def len (t : Text) : Nat := (t.map Char.utf8Size).sum

/-- The text up to a byte and the text from it, when a character begins there. -/
def splitAt : Text → Nat → Option (Text × Text)
  | t, 0 => some ([], t)
  | [], _ + 1 => none
  | c :: t, n + 1 =>
    if c.utf8Size ≤ n + 1 then (splitAt t (n + 1 - c.utf8Size)).map fun parts =>
      (c :: parts.1, parts.2)
    else none

/-- `t[start..stop]`. -/
def slice (t : Text) (start stop : Nat) : Option Text :=
  if start ≤ stop then do
    let upTo ← splitAt t stop
    let parts ← splitAt upTo.1 start
    pure parts.2
  else none

/-- `parts[start..]`. -/
def sliceFrom {α : Type} (parts : List α) (start : Nat) : Option (List α) :=
  if start ≤ parts.length then some (parts.drop start) else none

/-- `n.is_i64()` of a number. -/
def isI64 : Value → Bool
  | .int n => -2 ^ 63 ≤ n && n < 2 ^ 63
  | _ => false

section
variable (u : Unicode) (b : Bundle)

/-! ## One entry -/

def endsInYear (t : Text) : Option Bool :=
  let tail := (t.reverse.takeWhile (· ≠ ' ')).reverse
  if tail.head? = some '(' && tail.getLast? = some ')' then do
    let stop ← subUsize (len tail) 1
    let inner ← slice tail 1 stop
    pure ((inner.dropWhile (· = '-')).all Char.isDigit && len tail > 2)
  else pure false

def endsInSlugs (t : Text) : Option Bool :=
  let parts := (t.splitOn ',').map fun p => (trim (.ofList p)).toList
  if parts.length ≥ 3 then do
    let start ← subUsize parts.length 2
    let last ← sliceFrom parts start
    pure (last.all fun p => !p.isEmpty && p.all fun c => c.isLower || c = '-')
  else pure false

def checkTitle (title : String) : Option (List Rejection) :=
  let t := trim title
  if t.isEmpty then some [reject "title-missing" "empty after trimming"]
  else do
    let year ← endsInYear t.toList
    let slugs ← endsInSlugs t.toList
    pure (
      (if isCasedScript u t && !t.toList.any u.isUppercase then
        [reject "title-not-capitalised"
          (u.debug t ++ " is in a cased script and carries no capital — usually a raw slug")]
      else []) ++
      (if year then
        [reject "title-year-appended" (u.debug t ++ " ends with a parenthesised year")]
      else []) ++
      (if decide ([',', ' ', '-'] <:+: t.toList) then
        [reject "title-year-appended" (u.debug t ++ " carries a comma-separated year")]
      else []) ++
      (if slugs then
        [reject "title-place-slug" (u.debug t ++ " ends with lowercase place slugs")]
      else []))

def checkTitleField (e : Value) : Option (List Rejection) :=
  match checkStrField e "title" "title-missing" with
  | .ok t => checkTitle u t
  | .error r => some [r]

/-- The match on `is_i64`, with the `unwrap` behind it. -/
def checkYear (e : Value) : Option (Option Int × List Rejection) :=
  match e.get? "year" with
  | none => some (none, [reject "year-missing" "`year` is required"])
  | some v =>
    if isI64 v then do
      let y ← v.asI64
      pure (some y, if yearMin ≤ y && y ≤ yearMax then []
        else [reject "year-implausible" (showInt y ++ " is outside " ++ showInt yearMin ++ "..=" ++
          showInt yearMax)])
    else some
      (none, [reject "year-not-integer" ("`year` is " ++ showValue v ++ ", not an integer")])

/-- `admit`. -/
def admitEntry (e : Value) : Option (List Rejection) :=
  match e.asObject with
  | none => some [reject "entry-not-object" "an entry must be a JSON object"]
  | some members => do
    let title ← checkTitleField u e
    let (year, wrong) ← checkYear e
    pure (
      ((members.map Prod.fst).filter fun k => !allowedFields.contains k).map (fun k =>
        reject "field-unknown" ("`" ++ k ++ "` is not an entry field — typo?")) ++
      title ++ wrong ++ checkDateIsKnown e year ++
      checkClaimType u b e ++ checkClassification u b e ++ checkAlternatives u b e ++
      checkBundle b e ++ checkSummary e ++ checkTemporalKind u e ++ checkObservedCount e ++
      checkProvMeasured e ++ checkProvAsserted e)

/-! ## The batch -/

def isRestatement (ta : String) (ya : Int) (tb : String) (yb : Int) : Option Bool := do
  let apart ← absI64 (← subI64 ya yb)
  if apart > yearTolerance then pure false
  else
    let wa := contentWords u ta
    let wb := contentWords u tb
    if wa.isEmpty || wb.isEmpty then pure false
    else pure (wa.all wb.contains || wb.all wa.contains)

def judgePair (a c : Nat × String × Int) : Option (List (Nat × Rejection)) :=
  let (ia, ta, ya) := a
  let (ib, tb, yb) := c
  if eqIgnoreAsciiCase ta tb && ya = yb then
    some [(ib, reject "duplicate-identity" ("entry " ++ showInt ia ++ " asserts the same (" ++
      u.debug ta ++ ", " ++ showInt ya ++ ") — one identity, two rows"))]
  else do
    if ← isRestatement u ta ya tb yb then
      pure [(ib, reject "restatement-unresolved" ("reads as a restatement of entry " ++ showInt ia ++
        " (" ++ u.debug ta ++ ", " ++ showInt ya ++
        "); keep one and drop the other before minting" ++ " — this gate will not choose"))]
    else pure []

def judgePairs : List (Nat × String × Int) → Option (List (Nat × Rejection))
  | [] => some []
  | a :: rest => do
    let first ← rest.mapM (judgePair u a)
    let others ← judgePairs rest
    pure (first.flatten ++ others)

def admitBatch (entries : List Value) : Option (List (Nat × Rejection)) := do
  let judged ← entries.zipIdx.mapM fun item =>
    (admitEntry u b item.1).map fun out => out.map fun r => (item.2, r)
  let pairs ← judgePairs u (entries.zipIdx.filterMap keyed)
  pure (judged.flatten ++ pairs)

end

/-! ## Slices -/

theorem splitAt_append (s t : Text) : splitAt (s ++ t) (len s) = some (s, t) := by
  induction s with
  | nil => cases t <;> rfl
  | cons c s ih =>
    have hpos := c.utf8Size_pos
    have hcons : len (c :: s) = c.utf8Size + len s := by simp [len]
    obtain ⟨n, hn⟩ : ∃ n, len (c :: s) = n + 1 := ⟨len (c :: s) - 1, by omega⟩
    have hlen : n + 1 - c.utf8Size = len s := by omega
    rw [hn, List.cons_append, splitAt, if_pos (by omega), hlen, ih]
    rfl

theorem slice_between (s t r : Text) : slice (s ++ t ++ r) (len s) (len s + len t) = some t := by
  have hlen : len s + len t = len (s ++ t) := by
    simp only [len, List.map_append, List.sum_append]
  rw [slice, if_pos (Nat.le_add_right _ _), hlen, splitAt_append]
  simp only [Option.bind_eq_bind, Option.bind_some, splitAt_append]
  rfl

/-- A text in parentheses. -/
theorem exists_parens {t : Text} (hhead : t.head? = some '(') (hlast : t.getLast? = some ')') :
    ∃ inner, t = ['('] ++ inner ++ [')'] := by
  cases t with
  | nil => cases hhead
  | cons c rest =>
    obtain rfl := Option.some.inj hhead
    rcases List.eq_nil_or_concat rest with rfl | ⟨inner, d, rfl⟩
    · cases hlast
    · refine ⟨inner, ?_⟩
      rw [List.getLast?_cons, List.concat_eq_append, List.getLast?_concat] at hlast
      obtain rfl := Option.some.inj hlast
      simp

theorem endsInYear_eq (t : Text) : endsInYear t = some (Authoring.endsInYear t) := by
  unfold endsInYear Authoring.endsInYear
  generalize (t.reverse.takeWhile (· ≠ ' ')).reverse = tail
  by_cases h : tail.head? = some '(' ∧ tail.getLast? = some ')'
  · obtain ⟨hhead, hlast⟩ := h
    obtain ⟨inner, rfl⟩ := exists_parens hhead hlast
    have hlen : len (['('] ++ inner ++ [')']) = len inner + 2 := by
      simp only [len, List.map_append, List.sum_append]
      change 1 + _ + 1 = _
      omega
    have hslice : slice (['('] ++ inner ++ [')']) 1 (len inner + 2 - 1) = some inner := by
      rw [show len inner + 2 - 1 = len ['('] + len inner from (Nat.add_comm _ _)]
      exact slice_between ['('] inner [')']
    have hempty : (len inner + 2 > 2) ↔ (inner.length + 1 + 1 > 2) := by
      cases inner with
      | nil => simp [len]
      | cons c inner =>
        have hpos := c.utf8Size_pos
        simp only [len, List.map_cons, List.sum_cons, List.length_cons]
        omega
    simp only [hhead, hlast, decide_true, Bool.and_true, if_true, hlen, subUsize,
      if_pos (Nat.le_add_left 1 (len inner + 1)), Option.bind_eq_bind, Option.bind_some, hslice]
    have hmiddle : ((['('] ++ inner ++ [')']).drop 1).dropLast = inner := by simp
    have hlength : (['('] ++ inner ++ [')']).length = inner.length + 1 + 1 := by simp
    rw [hmiddle, hlength, Bool.true_and, Bool.and_comm, decide_eq_decide.mpr hempty]
    rfl
  · have hfalse : (decide (tail.head? = some '(') && decide (tail.getLast? = some ')')) =
        false := by
      rw [← Bool.decide_and]
      exact decide_eq_false h
    dsimp only
    rw [hfalse]
    rfl

theorem endsInSlugs_eq (t : Text) : endsInSlugs t = some (Authoring.endsInSlugs t) := by
  unfold endsInSlugs Authoring.endsInSlugs
  generalize ((t.splitOn ',').map fun p => (trim (.ofList p)).toList) = parts
  by_cases h : parts.length ≥ 3
  · have htwo : 2 ≤ parts.length := Nat.le_of_succ_le h
    simp only [if_pos h, subUsize, if_pos htwo, sliceFrom, if_pos (Nat.sub_le parts.length 2),
      Option.bind_eq_bind, Option.bind_some, decide_eq_true h, Bool.true_and]
    rfl
  · simp only [if_neg h, decide_eq_false h, Bool.false_and]
    rfl

/-! ## One entry -/

section
variable {u : Unicode} {b : Bundle}

theorem checkTitle_eq (title : String) :
    checkTitle u title = some (Authoring.checkTitle u title) := by
  unfold checkTitle Authoring.checkTitle
  dsimp only
  split
  · rfl
  · simp only [endsInYear_eq, endsInSlugs_eq, Option.bind_eq_bind, Option.bind_some]
    rfl

theorem checkTitleField_eq (e : Value) :
    checkTitleField u e = some (Authoring.checkTitleField u e) := by
  unfold checkTitleField Authoring.checkTitleField
  cases checkStrField e "title" "title-missing" with
  | ok t => exact checkTitle_eq t
  | error r => rfl

/-- The unwrap of a year comes after its test. -/
theorem checkYear_eq (e : Value) : checkYear e = some (Authoring.checkYear e) := by
  unfold checkYear Authoring.checkYear
  cases e.get? "year" with
  | none => rfl
  | some v =>
    cases v with
    | int n =>
      by_cases h : -2 ^ 63 ≤ n ∧ n < 2 ^ 63
      · simp only [isI64, Value.asI64, h.1, h.2, decide_true, Bool.and_self, if_true,
          Option.bind_eq_bind]
        rfl
      · have hfalse : (decide (-2 ^ 63 ≤ n) && decide (n < 2 ^ 63)) = false := by
          rw [← Bool.decide_and]
          exact decide_eq_false h
        simp only [isI64, Value.asI64, if_neg h, hfalse]
        rfl
    | _ => rfl

theorem admitEntry_eq (e : Value) : admitEntry u b e = some (Authoring.admitEntry u b e) := by
  unfold admitEntry Authoring.admitEntry
  cases e.asObject with
  | none => rfl
  | some members =>
    simp only [checkTitleField_eq, checkYear_eq, Option.bind_eq_bind, Option.bind_some]
    rfl

/-! ## The batch -/

theorem isRestatement_of_fits {ta tb : String} {ya yb : Int} (h : |ya - yb| < 2 ^ 63) :
    isRestatement u ta ya tb yb = some (Authoring.isRestatement u ta ya tb yb) := by
  obtain ⟨hlow, hhigh⟩ := abs_lt.mp h
  unfold isRestatement Authoring.isRestatement
  rw [subI64, if_pos ⟨hlow.le, hhigh⟩]
  simp only [Option.bind_eq_bind, Option.bind_some, absI64, if_neg (ne_of_gt hlow)]
  split
  · rfl
  · split <;> rfl

theorem isRestatement_overflows {ta tb : String} {ya yb : Int} (h : ¬ |ya - yb| < 2 ^ 63) :
    isRestatement u ta ya tb yb = none := by
  unfold isRestatement subI64
  split
  · rename_i hfits
    have hmin : ya - yb = -2 ^ 63 := by
      by_contra hne
      exact h (abs_lt.mpr ⟨lt_of_le_of_ne hfits.1 (Ne.symm hne), hfits.2⟩)
    rw [hmin]
    rfl
  · rfl

theorem judgePair_of_fits {a c : Nat × String × Int} (h : |a.2.2 - c.2.2| < 2 ^ 63) :
    judgePair u a c = some (Authoring.judgePair u a c) := by
  unfold judgePair Authoring.judgePair
  dsimp only
  split
  · rfl
  · simp only [isRestatement_of_fits h, Option.bind_eq_bind, Option.bind_some]
    split <;> rfl

theorem judgePair_overflows {a c : Nat × String × Int} (h : ¬ |a.2.2 - c.2.2| < 2 ^ 63) :
    judgePair u a c = none := by
  have hne : (eqIgnoreAsciiCase a.2.1 c.2.1 && decide (a.2.2 = c.2.2)) = false := by
    apply Bool.eq_false_iff.mpr
    intro heq
    rw [Bool.and_eq_true, decide_eq_true_eq] at heq
    rw [heq.2, sub_self, abs_zero] at h
    exact h (by decide)
  unfold judgePair
  dsimp only
  rw [hne, isRestatement_overflows h]
  rfl

/-- The pairs are judged, unless two years are too far apart. -/
theorem judgePairs_eq {l : List (Nat × String × Int)}
    (h : l.Pairwise fun a c => |a.2.2 - c.2.2| < 2 ^ 63) :
    judgePairs u l = some (Authoring.judgePairs u l) := by
  induction h with
  | nil => rfl
  | @cons a rest hfirst _ ih =>
    have hmap : rest.mapM (judgePair u a) = some (rest.map (Authoring.judgePair u a)) :=
      Programs.mapM_spec fun c hc => judgePair_of_fits (hfirst c hc)
    simp only [judgePairs, hmap, ih, Option.bind_eq_bind, Option.bind_some]
    rfl

theorem judgePairs_some {l : List (Nat × String × Int)} {out : List (Nat × Rejection)}
    (h : judgePairs u l = some out) : l.Pairwise fun a c => |a.2.2 - c.2.2| < 2 ^ 63 := by
  induction l generalizing out with
  | nil => exact .nil
  | cons a rest ih =>
    simp only [judgePairs, Option.bind_eq_bind] at h
    obtain ⟨first, hmap, h⟩ := Option.bind_eq_some_iff.mp h
    obtain ⟨others, hothers, -⟩ := Option.bind_eq_some_iff.mp h
    refine List.pairwise_cons.mpr ⟨fun c hc => ?_, ih hothers⟩
    by_contra hfar
    obtain ⟨y, -, hy⟩ := Programs.mapM_some hmap c hc
    rw [judgePair_overflows hfar] at hy
    cases hy

end

end Checked

/-! ## What the gate promises -/

/-- The gate returns, and reports every entry with a broken rule under its own index. -/
def Judges (u : Unicode) (b : Bundle) (entries : List Value) : Prop :=
  ∃ out, Checked.admitBatch u b entries = some out ∧ out = admitBatch u b entries ∧
    ∀ (i : Nat) (e : Value), entries[i]? = some e → ∀ r ∈ admitEntry u b e, (i, r) ∈ out

/-- Every two years next to titles are less than 2^63 apart. -/
def YearsNear (entries : List Value) : Prop :=
  (entries.zipIdx.filterMap keyed).Pairwise fun a c => |a.2.2 - c.2.2| < 2 ^ 63

instance (entries : List Value) : Decidable (YearsNear entries) :=
  inferInstanceAs (Decidable (List.Pairwise _ _))

theorem entries_judged (u : Unicode) (b : Bundle) (entries : List Value) :
    (entries.zipIdx.mapM fun item =>
      (Checked.admitEntry u b item.1).map fun out => out.map fun r => (item.2, r)) =
      some (entries.zipIdx.map fun item => (admitEntry u b item.1).map fun r => (item.2, r)) :=
  Programs.mapM_spec fun item _ => by rw [Checked.admitEntry_eq, Option.map_some]

theorem admitBatch_of_near {entries : List Value} (u : Unicode) (b : Bundle)
    (h : YearsNear entries) : Checked.admitBatch u b entries = some (admitBatch u b entries) := by
  simp only [Checked.admitBatch, entries_judged, Checked.judgePairs_eq h, Option.bind_eq_bind,
    Option.bind_some, admitBatch, List.flatMap_def]
  rfl

theorem yearsNear_of_some {u : Unicode} {b : Bundle} {entries : List Value}
    {out : List (Nat × Rejection)} (h : Checked.admitBatch u b entries = some out) :
    YearsNear entries := by
  simp only [Checked.admitBatch, entries_judged, Option.bind_eq_bind, Option.bind_some] at h
  obtain ⟨pairs, hpairs, -⟩ := Option.bind_eq_some_iff.mp h
  exact Checked.judgePairs_some hpairs

/-- The gate judges a batch exactly when no two of its years are too far apart. -/
theorem judges_iff_yearsNear (u : Unicode) (b : Bundle) (entries : List Value) :
    Judges u b entries ↔ YearsNear entries := by
  constructor
  · rintro ⟨out, hout, -⟩
    exact yearsNear_of_some hout
  · intro h
    refine ⟨admitBatch u b entries, admitBatch_of_near u b h, rfl, fun i e he r hr => ?_⟩
    refine List.mem_append_left _ (List.mem_flatMap.mpr ⟨(e, i), ?_, ?_⟩)
    · exact List.mem_zipIdx_iff_getElem?.mpr he
    · exact List.mem_map_of_mem hr

/-! ## The rules of a batch -/

def batchRules : List String := ["duplicate-identity", "restatement-unresolved"]

/-- No rule of a batch is broken. -/
def Lone (rs : List Rejection) : Prop := ∀ r ∈ rs, r.rule ∉ batchRules

section
variable {u : Unicode} {b : Bundle} {xs ys : List Rejection} {rule : String}

theorem lone_nil : Lone [] := fun r hr => by cases hr

theorem lone_single (h : rule ∉ batchRules) (detail : String) : Lone [reject rule detail] := by
  intro r hr
  obtain rfl := List.mem_singleton.mp hr
  exact h

theorem lone_append (hx : Lone xs) (hy : Lone ys) : Lone (xs ++ ys) :=
  fun r hr => (List.mem_append.mp hr).elim (hx r) (hy r)

theorem lone_ite {c : Prop} [Decidable c] (hx : Lone xs) (hy : Lone ys) :
    Lone (if c then xs else ys) := by
  split
  · exact hx
  · exact hy

theorem lone_map {α : Type} (h : rule ∉ batchRules) (f : α → String) (l : List α) :
    Lone (l.map fun x => reject rule (f x)) := by
  intro r hr
  obtain ⟨x, -, rfl⟩ := List.mem_map.mp hr
  exact h

theorem lone_strField {e : Value} {key : String} {r : Rejection} (h : rule ∉ batchRules)
    (hr : checkStrField e key rule = .error r) : Lone [r] := by
  unfold checkStrField at hr
  split at hr
  · split at hr
    · cases hr
    · obtain rfl := Except.error.inj hr
      exact lone_single h _
  · obtain rfl := Except.error.inj hr
    exact lone_single h _

theorem lone_title (e : Value) : Lone (checkTitleField u e) := by
  unfold checkTitleField
  split
  · unfold checkTitle
    refine lone_ite (lone_single (by simp [batchRules]) _) ?_
    refine lone_append (lone_append (lone_append ?_ ?_) ?_) ?_ <;>
      exact lone_ite (lone_single (by simp [batchRules]) _) lone_nil
  · rename_i r hr
    exact lone_strField (by simp [batchRules]) hr

theorem lone_year (e : Value) : Lone (checkYear e).2 := by
  unfold checkYear
  split
  · exact lone_single (by simp [batchRules]) _
  · split
    · exact lone_single (by simp [batchRules]) _
    · exact lone_ite lone_nil (lone_single (by simp [batchRules]) _)

theorem lone_dateIsKnown (e : Value) (year : Option Int) : Lone (checkDateIsKnown e year) := by
  unfold checkDateIsKnown
  split
  · exact lone_nil
  all_goals exact lone_single (by simp [batchRules]) _

theorem lone_claimType (e : Value) : Lone (checkClaimType u b e) := by
  unfold checkClaimType
  split
  · rename_i r hr
    exact lone_strField (by simp [batchRules]) hr
  · refine lone_ite (lone_single (by simp [batchRules]) _) (lone_append ?_ ?_)
    · exact lone_ite (lone_single (by simp [batchRules]) _) lone_nil
    · unfold checkLens
      split
      · exact lone_ite (lone_single (by simp [batchRules]) _) lone_nil
      · exact lone_single (by simp [batchRules]) _
      · exact lone_nil

theorem lone_classification (e : Value) : Lone (checkClassification u b e) := by
  unfold checkClassification
  split
  · exact lone_nil
  · split
    · exact lone_map (by simp [batchRules]) _ _
    · refine lone_ite lone_nil ?_
      split
      · exact lone_nil
      · exact lone_ite lone_nil (lone_single (by simp [batchRules]) _)

/-- One more alternative adds a rejection of its own, or none. -/
theorem lone_alternative (chosen : String) (state : List String × List Rejection) (a : Value)
    (h : Lone state.2) : Lone (checkAlternative u b chosen state a).2 := by
  obtain ⟨seen, out⟩ := state
  unfold checkAlternative
  dsimp only
  split
  · exact lone_append h (lone_single (by simp [batchRules]) _)
  · split
    · exact lone_append h (lone_single (by simp [batchRules]) _)
    · split
      · exact lone_append h (lone_single (by simp [batchRules]) _)
      · split
        · exact lone_append h (lone_single (by simp [batchRules]) _)
        · split
          · exact lone_append h (lone_single (by simp [batchRules]) _)
          · split
            · exact lone_append h (lone_single (by simp [batchRules]) _)
            · exact h

theorem lone_fold (chosen : String) (alts : List Value) {state : List String × List Rejection}
    (h : Lone state.2) : Lone (alts.foldl (checkAlternative u b chosen) state).2 := by
  induction alts generalizing state with
  | nil => exact h
  | cons a alts ih => exact ih (lone_alternative chosen state a h)

theorem lone_alternatives (e : Value) : Lone (checkAlternatives u b e) := by
  unfold checkAlternatives
  split
  · split
    · exact lone_single (by simp [batchRules]) _
    · exact lone_nil
  · refine lone_append (lone_fold _ _ lone_nil) ?_
    unfold checkCrossLens
    split
    · exact lone_nil
    · exact lone_ite lone_nil (lone_single (by simp [batchRules]) _)
    · exact lone_single (by simp [batchRules]) _
  · exact lone_single (by simp [batchRules]) _

theorem lone_bundle (e : Value) : Lone (checkBundle b e) := by
  unfold checkBundle
  refine lone_append ?_ ?_
  · split
    · exact lone_nil
    · rename_i r hr
      exact lone_strField (by simp [batchRules]) hr
  · split
    · exact lone_ite lone_nil (lone_single (by simp [batchRules]) _)
    · exact lone_single (by simp [batchRules]) _

theorem lone_summary (e : Value) : Lone (checkSummary e) := by
  unfold checkSummary
  split
  · exact lone_ite lone_nil (lone_single (by simp [batchRules]) _)
  · exact lone_single (by simp [batchRules]) _

theorem lone_temporalKind (e : Value) : Lone (checkTemporalKind u e) := by
  unfold checkTemporalKind
  split
  · exact lone_ite lone_nil (lone_single (by simp [batchRules]) _)
  · exact lone_single (by simp [batchRules]) _

theorem lone_observedCount (e : Value) : Lone (checkObservedCount e) := by
  unfold checkObservedCount
  split
  · exact lone_ite lone_nil (lone_single (by simp [batchRules]) _)
  · exact lone_single (by simp [batchRules]) _

theorem lone_filled (h : rule ∉ batchRules) (m : Value) (path field : String) :
    Lone (checkFilled m rule path field) :=
  lone_ite lone_nil (lone_single h _)

theorem lone_provMeasured (e : Value) : Lone (checkProvMeasured e) := by
  unfold checkProvMeasured
  split
  · intro r hr
    obtain ⟨field, -, hr⟩ := List.mem_flatMap.mp hr
    exact lone_filled (by simp [batchRules]) _ _ field r hr
  · exact lone_single (by simp [batchRules]) _

theorem lone_provAsserted (e : Value) : Lone (checkProvAsserted e) := by
  unfold checkProvAsserted
  split
  · exact lone_filled (by simp [batchRules]) _ _ _
  · exact lone_single (by simp [batchRules]) _

/-- The rules of an entry are not those of a batch. -/
theorem admitEntry_lone (e : Value) : Lone (admitEntry u b e) := by
  unfold admitEntry
  split
  · exact lone_single (by simp [batchRules]) _
  · refine lone_append (lone_append (lone_append (lone_append (lone_append (lone_append (lone_append
      (lone_append (lone_append (lone_append (lone_append (lone_append ?_ (lone_title e))
        (lone_year e)) (lone_dateIsKnown e _)) (lone_claimType e)) (lone_classification e))
        (lone_alternatives e)) (lone_bundle e)) (lone_summary e)) (lone_temporalKind e))
        (lone_observedCount e)) (lone_provMeasured e)) (lone_provAsserted e)
    exact lone_map (by simp [batchRules]) _ _

/-- What a pair of entries breaks is a rule of a batch. -/
theorem judgePair_rule {a c : Nat × String × Int} {item : Nat × Rejection}
    (h : item ∈ judgePair u a c) : item.2.rule ∈ batchRules := by
  unfold judgePair at h
  dsimp only at h
  split at h
  · obtain rfl := List.mem_singleton.mp h
    exact List.mem_cons_self
  · split at h
    · obtain rfl := List.mem_singleton.mp h
      exact List.mem_cons_of_mem _ List.mem_cons_self
    · cases h

theorem judgePair_nil {a c : Nat × String × Int} : judgePair u a c = [] ↔
    (eqIgnoreAsciiCase a.2.1 c.2.1 && decide (a.2.2 = c.2.2)) = false ∧
      isRestatement u a.2.1 a.2.2 c.2.1 c.2.2 = false := by
  unfold judgePair
  dsimp only
  split
  · rename_i h
    simp [h]
  · rename_i h
    have hdup := eq_false_of_ne_true h
    split
    · rename_i hsame
      simp [hsame]
    · rename_i hsame
      exact iff_of_true rfl ⟨hdup, eq_false_of_ne_true hsame⟩

theorem judgePairs_nil_iff {l : List (Nat × String × Int)} :
    judgePairs u l = [] ↔ l.Pairwise fun a c => judgePair u a c = [] := by
  refine ⟨judgePairs_nil, fun h => ?_⟩
  induction h with
  | nil => rfl
  | cons hfirst _ ih => rw [judgePairs, List.flatMap_eq_nil_iff.mpr hfirst, ih, List.append_nil]

/-- A batch breaks no rule of its own if no two of its entries do. -/
theorem admitBatch_lone {entries : List Value} :
    (∀ item ∈ admitBatch u b entries, item.2.rule ∉ batchRules) ↔
      (entries.zipIdx.filterMap keyed).Pairwise fun a c => judgePair u a c = [] := by
  rw [← judgePairs_nil_iff]
  constructor
  · intro h
    by_contra hne
    obtain ⟨item, hitem⟩ := List.exists_mem_of_ne_nil _ hne
    refine h item (List.mem_append_right _ hitem) ?_
    clear h hne
    generalize entries.zipIdx.filterMap keyed = l at hitem
    induction l with
    | nil => cases hitem
    | cons a rest ih =>
      rcases List.mem_append.mp hitem with hfirst | hrest
      · obtain ⟨c, -, hc⟩ := List.mem_flatMap.mp hfirst
        exact judgePair_rule hc
      · exact ih hrest
  · intro h item hitem
    rcases List.mem_append.mp hitem with hown | hpair
    · obtain ⟨e, -, he⟩ := List.mem_flatMap.mp hown
      obtain ⟨r, hr, rfl⟩ := List.mem_map.mp he
      exact admitEntry_lone e.1 r hr
    · rw [h] at hpair
      cases hpair

end

/-! ## Years far apart -/

namespace Sample

/-- Entries with nothing but a title and a year, of which the first is the last of 64 bits. -/
def farYears : List Value :=
  [.obj [("title", .str "A"), ("year", .int 9223372036854775807)],
    .obj [("title", .str "B"), ("year", .int (-1))]]

end Sample

/-- The difference of the two years does not fit. -/
theorem farYears_overflow : ¬ Judges Sample.unicode Sample.bundle Sample.farYears := by
  rintro ⟨out, hout, -⟩
  have hnear := yearsNear_of_some hout
  revert hnear
  decide

end Clockchain.V0.Authoring
