import Clockchain.V0.Gate

/-!
# The identities of a minted batch

The gate compares titles by their words of letters and digits, the identity by their words
of ASCII letters and digits. On titles without other letters or digits the words are the
same ones, and the gate refuses two entries of one identity as long as a word is left.
-/

namespace Clockchain.V0.Authoring
open Publisher Words
open V1.Publisher (isWhitespace trim)
set_option autoImplicit false

/-! ## The words of a key -/

/-- The title as `claim_identity` hashes it. -/
def normalised (title : String) : Text :=
  trimKey ((title.toList.flatMap toLowercase).foldl pushKey [])

def blank (c : Char) : Bool := c = ' '

/-- What `pushKey` makes of a character. -/
def keyChar (c : Char) : Char := if c.isAlphanum then c else ' '

theorem words_pushKey (key xs : Text) :
    words blank (xs.foldl pushKey key) = words blank (key ++ xs.map keyChar) := by
  induction xs generalizing key with
  | nil => rw [List.foldl_nil, List.map_nil, List.append_nil]
  | cons c xs ih =>
    rw [List.foldl_cons, ih, List.map_cons, keyChar, pushKey]
    by_cases hc : c.isAlphanum = true
    · rw [if_pos hc, if_pos hc, List.append_assoc, List.singleton_append]
    rw [if_neg hc, if_neg hc]
    by_cases hlast : key.getLast? = some ' '
    · -- A second blank is not pushed.
      obtain ⟨rest, rfl⟩ := List.getLast?_eq_some_iff.mp hlast
      rw [if_pos hlast, List.append_assoc, List.append_assoc, List.singleton_append,
        List.singleton_append, words_collapse (by decide) (by decide)]
    · rw [if_neg hlast, List.append_assoc, List.singleton_append]

theorem words_normalised (title : String) : words blank (normalised title) =
    words blank ((title.toList.flatMap toLowercase).map keyChar) := by
  have htrim := @words_strip _ _ blank (· = ' ') id (fun c h => h)
    ((title.toList.flatMap toLowercase).foldl pushKey [])
  rw [List.map_id, List.map_id] at htrim
  rw [normalised, trimKey, htrim, words_pushKey, List.nil_append]

section
variable (u : Unicode)

/-- A letter or a digit outside ASCII. -/
def Foreign (title : String) : Prop :=
  ∃ c ∈ title.toList, u.isAlphanumeric c = true ∧ 128 ≤ c.toNat

variable {u}

omit u in
/-- Outside ASCII there is no lower case here. -/
theorem toLower_of_le {c : Char} (h : 128 ≤ c.toNat) : c.toLower = c := by
  have hnot : ¬ (c.val ≥ 'A'.val ∧ c.val ≤ 'Z'.val) := by
    rintro ⟨_, hle⟩
    have hle : c.toNat ≤ 90 := UInt32.le_iff_toNat_le.mp hle
    omega
  exact dif_neg hnot

omit u in
theorem isAlphanum_toLower (c : Char) : c.toLower.isAlphanum = c.isAlphanum := by
  by_cases h : c.toNat < 128
  · have hall : ∀ n < 128, (Char.ofNat n).toLower.isAlphanum = (Char.ofNat n).isAlphanum := by
      decide
    have := hall c.toNat h
    rwa [Char.ofNat_toNat] at this
  · rw [toLower_of_le (by omega)]

omit u in
theorem isAlphanum_range {c : Char} (h : c.isAlphanum = true) :
    ((65 ≤ c.toNat ∧ c.toNat ≤ 90) ∨ (97 ≤ c.toNat ∧ c.toNat ≤ 122)) ∨
      (48 ≤ c.toNat ∧ c.toNat ≤ 57) := by
  change ((decide (c.val ≥ 65 ∧ c.val ≤ 90) || decide (c.val ≥ 97) &&
    decide (c.val ≤ 122)) || decide (c.val ≥ 48) && decide (c.val ≤ 57)) = true at h
  simp only [Bool.or_eq_true, Bool.and_eq_true, decide_eq_true_eq, UInt32.le_iff_toNat_le,
    ge_iff_le] at h
  exact h

omit u in
theorem isAlphanum_lt {c : Char} (h : c.isAlphanum = true) : c.toNat < 128 := by
  have := isAlphanum_range h
  omega

/-- Both readings of a character agree unless it is a letter or digit outside ASCII. -/
theorem wordChar_plain {c : Char} (h : ¬ (u.isAlphanumeric c = true ∧ 128 ≤ c.toNat)) :
    (toLowercase c).map keyChar = [wordChar u c] := by
  have hkelvin : c.toNat ≠ 0x212A := by
    intro heq
    have hc : c = Char.ofNat 0x212A := by rw [← heq, Char.ofNat_toNat]
    exact h ⟨hc ▸ u.kelvin, by omega⟩
  have hdotted : c.toNat ≠ 0x130 := by
    intro heq
    have hc : c = Char.ofNat 0x130 := by rw [← heq, Char.ofNat_toNat]
    exact h ⟨hc ▸ u.dotted, by omega⟩
  rw [toLowercase, if_neg hkelvin, if_neg hdotted, List.map_singleton, keyChar, wordChar,
    isAlphanum_toLower]
  by_cases hlt : c.toNat < 128
  · rw [u.ascii c hlt]
  · have hnot : ¬ c.isAlphanum = true := fun hc => hlt (isAlphanum_lt hc)
    have hnot' : ¬ u.isAlphanumeric c = true := fun hc => h ⟨hc, by omega⟩
    rw [if_neg hnot, if_neg hnot']

/-- A character of a word is no white space, and the blank is. -/
theorem wordChar_blank (c : Char) : isWhitespace (wordChar u c) = blank (wordChar u c) := by
  rw [wordChar]
  split
  case isFalse => rfl
  case isTrue halnum =>
    have hspace : isWhitespace c.toLower = false := by
      by_cases h : c.toNat < 128
      · have hall : ∀ n < 128, (Char.ofNat n).isAlphanum = true →
            isWhitespace (Char.ofNat n).toLower = false := by decide
        have := hall c.toNat h
        rw [Char.ofNat_toNat] at this
        exact this ((u.ascii c h).symm.trans halnum)
      · rw [toLower_of_le (by omega)]
        by_contra hc
        have := u.space c (by simpa using hc)
        simp [halnum] at this
    have hblank : ¬ c.toLower = ' ' := by
      intro hc
      rw [hc] at hspace
      exact absurd hspace (by decide)
    rw [hspace, blank, decide_eq_false hblank]

/-- On a title without foreign letters and digits the gate reads the words of the key. -/
theorem splitWords_plain {title : String} (h : ¬ Foreign u title) :
    splitWords u (trim title) = (words blank (normalised title)).map .ofList := by
  have hlower : (title.toList.flatMap toLowercase).map keyChar = title.toList.map (wordChar u) := by
    have hall : ∀ c ∈ title.toList, (toLowercase c).map keyChar = [wordChar u c] :=
      fun c hc => wordChar_plain fun hforeign => h ⟨c, hc, hforeign⟩
    generalize title.toList = l at hall
    induction l with
    | nil => rfl
    | cons c l ih =>
      rw [List.flatMap_cons, List.map_append, hall c List.mem_cons_self,
        ih fun d hd => hall d (List.mem_cons_of_mem c hd), List.singleton_append, List.map_cons]
  have hsep : ∀ c ∈ (trim title).toList.map (wordChar u), isWhitespace c = blank c := by
    intro c hc
    obtain ⟨d, hd, rfl⟩ := List.mem_map.mp hc
    exact wordChar_blank d
  have htrim : words blank ((trim title).toList.map (wordChar u)) =
      words blank (title.toList.map (wordChar u)) := by
    rw [trim, String.toList_ofList]
    refine words_strip (fun c hc => ?_) title.toList
    simp [wordChar, u.space c hc, blank]
  rw [splitWords, words_congr hsep, htrim, words_normalised, hlower]

theorem contentWords_plain {s t : String} (hs : ¬ Foreign u s) (ht : ¬ Foreign u t)
    (h : normalised s = normalised t) : contentWords u (trim s) = contentWords u (trim t) := by
  rw [contentWords, contentWords, splitWords_plain hs, splitWords_plain ht, h]

/-- Two titles of one normal form that the gate can take for different claims: one has no
word that counts, or one has a letter or digit outside ASCII. -/
def Confusable (u : Unicode) (s t : String) : Prop :=
  normalised s = normalised t ∧ (contentWords u (trim s) = [] ∨ contentWords u (trim t) = [] ∨
    Foreign u s ∨ Foreign u t)

/-- The gate takes any other two titles of one normal form and year for one claim. -/
theorem isRestatement_plain {s t : String} (h : normalised s = normalised t)
    (hnot : ¬ Confusable u s t) (year : Int) :
    isRestatement u (trim s) year (trim t) year = true := by
  simp only [Confusable, h, true_and, not_or] at hnot
  obtain ⟨hs, _, hfs, hft⟩ := hnot
  have heq := contentWords_plain hfs hft h
  have hyear : ¬ |year - year| > yearTolerance := by simp [yearTolerance]
  rw [isRestatement, if_neg hyear]
  simp [← heq, hs]

/-! ## The batch -/

theorem judgePairs_nil {items : List (Nat × String × Int)} (h : judgePairs u items = []) :
    items.Pairwise fun a c => judgePair u a c = [] := by
  induction items with
  | nil => exact .nil
  | cons a rest ih =>
    rw [judgePairs, List.append_eq_nil_iff, List.flatMap_eq_nil_iff] at h
    exact .cons h.1 (ih h.2)

theorem checkStrField_ok {e : Value} {key rule s : String} (h : checkStrField e key rule = .ok s) :
    (e.get? key).bind Value.asStr = some s := by
  rw [checkStrField] at h
  split at h
  case h_1 t ht =>
    split at h
    · obtain rfl := Except.ok.inj h
      exact ht
    · cases h
  case h_2 => cases h

/-- An entry without rejections has a title and a year. -/
theorem admitEntry_nil {b : Bundle} {e : Value} (h : admitEntry u b e = []) :
    ∃ title year, (e.get? "title").bind Value.asStr = some title ∧
      (e.get? "year").bind Value.asI64 = some year := by
  rw [admitEntry] at h
  split at h
  case h_1 => cases h
  case h_2 =>
    simp only [List.append_eq_nil_iff] at h
    have htitle : checkTitleField u e = [] := by tauto
    have hyear : (checkYear e).2 = [] := by tauto
    rw [checkTitleField] at htitle
    split at htitle
    case h_2 => cases htitle
    case h_1 t ht =>
    rw [checkYear] at hyear
    split at hyear
    case h_1 => cases hyear
    case h_2 v hv =>
    split at hyear
    case h_1 => cases hyear
    case h_2 y hy => exact ⟨t, y, checkStrField_ok ht, by rw [hv, Option.bind_some, hy]⟩

/-- The title and the year the loop reads of an entry. -/
def Titled (e : Value) (title : String) (year : Int) : Prop :=
  (e.get "title").asStr = some title ∧ (e.get "year").asI64 = some year

omit u in
theorem titled_iff {e : Value} {title : String} {year : Int} : Titled e title year ↔
    (e.get? "title").bind Value.asStr = some title ∧
      (e.get? "year").bind Value.asI64 = some year := by
  have hstr : ∀ x : Option Value, (x.getD .null).asStr = x.bind Value.asStr := by
    rintro (_ | v) <;> rfl
  have hint : ∀ x : Option Value, (x.getD .null).asI64 = x.bind Value.asI64 := by
    rintro (_ | v) <;> rfl
  rw [Titled, Value.get, Value.get, hstr, hint]

/-- No rejection: every entry has a title and a year, and no two of them are judged alike. -/
theorem admitBatch_nil {b : Bundle} {entries : List Value} (h : admitBatch u b entries = []) :
    (∀ e ∈ entries, ∃ title year, Titled e title year) ∧
      entries.Pairwise fun e f => ∀ s x t y, Titled e s x → Titled f t y →
        (eqIgnoreAsciiCase (trim s) (trim t) && x = y) = false ∧
          isRestatement u (trim s) x (trim t) y = false := by
  rw [admitBatch, List.append_eq_nil_iff, List.flatMap_eq_nil_iff] at h
  obtain ⟨heach, hpairs⟩ := h
  constructor
  · intro e he
    obtain ⟨i, hi⟩ : ∃ i, (e, i) ∈ entries.zipIdx := by
      rw [← List.zipIdx_map_fst 0 entries] at he
      obtain ⟨⟨e', i⟩, hmem, rfl⟩ := List.mem_map.mp he
      exact ⟨i, hmem⟩
    obtain ⟨title, year, htitle, hyear⟩ :=
      admitEntry_nil (List.map_eq_nil_iff.mp (heach (e, i) hi))
    exact ⟨title, year, titled_iff.mpr ⟨htitle, hyear⟩⟩
  · have hpairwise := List.pairwise_filterMap.mp (judgePairs_nil hpairs)
    rw [← List.zipIdx_map_fst 0 entries, List.pairwise_map]
    refine hpairwise.imp ?_
    rintro ⟨e, i⟩ ⟨f, j⟩ hjudge s x t y hs ht
    obtain ⟨hs, hx⟩ := titled_iff.mp hs
    obtain ⟨ht, hy⟩ := titled_iff.mp ht
    have hkeyed : ∀ {e : Value} {i : Nat} {s : String} {x : Int},
        (e.get? "title").bind Value.asStr = some s → (e.get? "year").bind Value.asI64 = some x →
        keyed (e, i) = some (i, trim s, x) := by
      intro e i s x hs hx
      obtain ⟨v, hv, hs⟩ := Option.bind_eq_some_iff.mp hs
      obtain ⟨w, hw, hx⟩ := Option.bind_eq_some_iff.mp hx
      simp [keyed, hv, hw, hs, hx]
    have h := hjudge _ (hkeyed hs hx) _ (hkeyed ht hy)
    rw [judgePair] at h
    split at h
    · cases h
    case isFalse hdup =>
      split at h
      · cases h
      case isFalse hrestate => exact ⟨by simpa using hdup, by simpa using hrestate⟩

/-! ## The key of a claim -/

omit u in
theorem decimal_inj {m n : Int} (h : decimal m = decimal n) : m = n := by
  have hdigits : ∀ {a b : Nat}, Nat.toDigits 10 a = Nat.toDigits 10 b → a = b := by
    intro a b hab
    rw [← Nat.ofDigitChars_ten_toDigits (n := a), hab, Nat.ofDigitChars_ten_toDigits]
  have hminus : ∀ {a b : Nat}, '-' :: Nat.toDigits 10 a ≠ Nat.toDigits 10 b := by
    intro a b hab
    have := Nat.isDigit_of_mem_toDigits (by decide) (by decide) (hab ▸ List.mem_cons_self)
    exact absurd this (by decide)
  rw [decimal, decimal] at h
  split at h <;> split at h
  · have := hdigits (List.cons.inj h).2
    omega
  · exact absurd h hminus
  · exact absurd h.symm hminus
  · have := hdigits h
    omega

omit u in
/-- There is no bar in a normal form. -/
theorem bar_not_mem (title : String) : '|' ∉ normalised title := by
  have hpush : ∀ (xs key : Text), '|' ∉ key → '|' ∉ xs.foldl pushKey key := by
    intro xs
    induction xs with
    | nil => exact fun key h => h
    | cons c xs ih =>
      intro key h
      refine ih _ ?_
      rw [pushKey]
      split
      case isTrue hc =>
        have hne : '|' ≠ c := by
          rintro rfl
          exact absurd hc (by decide)
        simp [h, hne]
      case isFalse => split <;> simp [h]
  intro h
  have hmem := (List.dropWhile_sublist _).mem (List.mem_reverse.mp h)
  exact hpush _ [] List.not_mem_nil ((List.dropWhile_sublist _).mem (List.mem_reverse.mp hmem))

omit u in
theorem claimKey_inj {s t : String} {x y : Int} (h : claimKey s x = claimKey t y) :
    normalised s = normalised t ∧ x = y := by
  have h : normalised s ++ '|' :: decimal x = normalised t ++ '|' :: decimal y := h
  have hdecimal : '|' ∉ decimal x := by
    have hdigits : '|' ∉ Nat.toDigits 10 x.natAbs := by
      intro hmem
      exact absurd (Nat.isDigit_of_mem_toDigits (by decide) (by decide) hmem) (by decide)
    rw [decimal]
    split <;> simp [hdigits]
  obtain ⟨hkey, -, hyear⟩ := (List.append_cons_inj_of_notMem (bar_not_mem s) hdecimal).mp h
  exact ⟨hkey, decimal_inj hyear⟩

end

/-- The ids of a batch tell its keys apart. -/
def Distinguished (cr : V1.Crypto) (entries : List Value) : Prop :=
  ∀ e ∈ entries, ∀ f ∈ entries, ∀ s x t y, Titled e s x → Titled f t y →
    (claimIdentity cr s x).1 = (claimIdentity cr t y).1 → claimKey s x = claimKey t y

/-- The entries of an admitted batch have one identity each exactly when no two titles of a
year are confusable. -/
theorem identities_distinct_iff (u : Unicode) (b : Bundle) (cr : V1.Crypto) (entries : List Value)
    (hadmitted : admitBatch u b entries = []) (hids : Distinguished cr entries) :
    ∃ ids, entries.mapM (mintIdentity cr) = some ids ∧ ((ids.map Prod.fst).Nodup ↔
      entries.Pairwise fun e f => ∀ s t year, Titled e s year → Titled f t year →
        ¬ Confusable u s t) := by
  obtain ⟨htitled, hjudged⟩ := admitBatch_nil hadmitted
  have hmint : ∀ {e : Value} {s : String} {x : Int}, Titled e s x →
      mintIdentity cr e = some (claimIdentity cr s x) := by
    rintro e s x ⟨hs, hx⟩
    simp [mintIdentity, hs, hx]
  have hrun : entries.mapM (mintIdentity cr) =
      some (entries.map fun e => (mintIdentity cr e).getD default) := by
    refine Programs.mapM_spec fun e he => ?_
    obtain ⟨s, x, ht⟩ := htitled e he
    rw [hmint ht, Option.getD_some]
  refine ⟨_, hrun, ?_⟩
  rw [List.Nodup, List.map_map, List.pairwise_map]
  constructor
  · refine fun h => h.imp fun hne s t year hs ht hconf => hne ?_
    have hkey : claimKey s year = claimKey t year := congrArg (· ++ '|' :: decimal year) hconf.1
    simp only [Function.comp, hmint hs, hmint ht, Option.getD_some]
    rw [claimIdentity, claimIdentity, hkey]
  · refine fun h => (h.and hjudged).imp_of_mem ?_
    rintro e f he hf ⟨hclear, hjudge⟩ heq
    obtain ⟨s, x, hs⟩ := htitled e he
    obtain ⟨t, y, ht⟩ := htitled f hf
    simp only [Function.comp, hmint hs, hmint ht, Option.getD_some] at heq
    obtain ⟨hkey, rfl⟩ := claimKey_inj (hids e he f hf s x t y hs ht heq)
    have hsame := isRestatement_plain hkey (hclear s t x hs ht) x
    exact absurd hsame (by simp [(hjudge s x t x hs ht).2])

/-! ## Concrete entries -/

namespace Sample

/-- Letters and digits of ASCII, the Han characters and the two letters with a lower case in
ASCII. -/
def isAlphanumeric (c : Char) : Bool :=
  c.isAlphanum || (0x4E00 ≤ c.toNat && c.toNat ≤ 0x9FFF) || c.toNat = 0x212A || c.toNat = 0x130

def unicode : Unicode where
  isAlphanumeric := isAlphanumeric
  isUppercase := Char.isUpper
  isLowercase := Char.isLower
  debug s := "\"" ++ s ++ "\""
  ascii c h := by
    have hhan : ¬ 0x4E00 ≤ c.toNat := by omega
    have hkelvin : ¬ c.toNat = 0x212A := by omega
    have hdotted : ¬ c.toNat = 0x130 := by omega
    simp [isAlphanumeric, hhan, hkelvin, hdotted]
  kelvin := by decide
  dotted := by decide
  space c h := by
    simp only [isWhitespace, Bool.or_eq_true, Bool.and_eq_true, decide_eq_true_eq,
      List.contains_iff_mem, List.mem_cons, List.not_mem_nil, or_false] at h
    have hascii : ¬ c.isAlphanum = true := by
      intro hc
      have := isAlphanum_range hc
      omega
    simp only [isAlphanumeric, Bool.or_eq_false_iff, Bool.and_eq_false_iff, decide_eq_false_iff_not]
    refine ⟨⟨⟨by simpa using hascii, ?_⟩, ?_⟩, ?_⟩ <;> omega

def bundle : Bundle where
  isValidTtId id := id == "conflict-and-warfare"
  resolveTtId id := id
  lensOf id := if id == "conflict-and-warfare" then some "A" else none
  isAncestorOf s t := s == t
  sha256 := "31ed385e26522a5b548f7404f7757ee370ed9783dbd550b05cd69e89e9462113"
  validate v := .ok v

/-- SHA-256 of the key `|1900`. -/
def crypto : V1.Crypto where
  sha256 bytes := if bytes = [124, 49, 57, 48, 48] then 0x5ffb37432d589465ab7487f5aa1c30b704f4832b49af8bb902c477154fa5eaac else 0
  authorKey _ := true

def entry (title : String) : Value :=
  .obj [("title", .str title), ("year", .int 1900), ("claim_type", .str "conflict-and-warfare"),
    ("lens", .str "A"), ("summary", .str "Troops enter the capital."),
    ("date_is_known", .bool true), ("temporal_kind", .str "event"), ("observed_count", .int 1),
    ("tt_release", .str "2.1"), ("tt_bundle_sha256", .str bundle.sha256),
    ("prov_measured", .obj [("text_model", .str "m"), ("provider", .str "p"),
      ("method", .str "text"), ("run", .str "1"), ("generated_at", .str "2026-08-17")]),
    ("prov_asserted", .obj [("historical_claim", .str "asserted")])]

/-- Two claims of 1900 whose titles have no character of ASCII. -/
def entries : List Value := [entry "庚子之變", entry "八國聯軍"]

theorem entries_admitted : admitBatch unicode bundle entries = [] := by decide +kernel

theorem entries_titled {e : Value} (he : e ∈ entries) {s : String} {x : Int} (h : Titled e s x) :
    claimKey s x = ['|', '1', '9', '0', '0'] := by
  simp only [entries, List.mem_cons, List.not_mem_nil, or_false] at he
  obtain ⟨hs, hx⟩ := h
  rcases he with rfl | rfl
  · obtain rfl := Option.some.inj hs
    obtain rfl := Option.some.inj hx
    decide
  · obtain rfl := Option.some.inj hs
    obtain rfl := Option.some.inj hx
    decide

theorem entries_distinguished : Distinguished crypto entries := by
  intro e he f hf s x t y hs ht _
  rw [entries_titled he hs, entries_titled hf ht]

end Sample

/-- The gate admits two claims with one identity. -/
theorem two_claims_one_identity : admitBatch Sample.unicode Sample.bundle Sample.entries = [] ∧
    Distinguished Sample.crypto Sample.entries ∧
    ∃ ids, Sample.entries.mapM (mintIdentity Sample.crypto) = some ids ∧
      ¬ (ids.map Prod.fst).Nodup := by
  have h : (Sample.entries.mapM (mintIdentity Sample.crypto)).any
      (fun ids => !decide (ids.map Prod.fst).Nodup) = true := by decide
  obtain ⟨ids, hids, hnot⟩ := Option.any_eq_true _ _ |>.mp h
  exact ⟨Sample.entries_admitted, Sample.entries_distinguished, ids, hids, by simpa using hnot⟩

theorem identities_distinct_iff_entries :
    ∃ ids, Sample.entries.mapM (mintIdentity Sample.crypto) = some ids ∧
      ((ids.map Prod.fst).Nodup ↔ Sample.entries.Pairwise fun e f => ∀ s t year,
        Titled e s year → Titled f t year → ¬ Confusable Sample.unicode s t) :=
  identities_distinct_iff Sample.unicode Sample.bundle Sample.crypto Sample.entries
    Sample.entries_admitted Sample.entries_distinguished

end Clockchain.V0.Authoring
