import Clockchain.Merges
import Clockchain.V0.Checked
import Mathlib.Data.Finset.Sort
import Mathlib.Data.List.Destutter
import Mathlib.Data.String.Basic

/-!
# Offline deduplication

`ops/dedup.py`: entries that restate one another are merged before a batch is submitted. The
admission gate refuses what is left of them; it reads the words of a title with every letter and
digit, the script with those of ASCII.
-/

namespace Clockchain.Operator.Dedup
open V0.Publisher (Value)
open V0.Authoring (Unicode Bundle Foreign blank keyChar eqIgnoreAsciiCase)
open V1.Publisher (isWhitespace trim)
set_option autoImplicit false

/-! ## The script -/

/-- An entry with a title and a year, and its other fields. -/
structure Entry where
  title : String
  year : Int
  fields : List (String × Value)

def stop : List String :=
  ["the", "of", "a", "an", "in", "at", "on", "to", "and", "by", "for", "s", "its", "his", "her",
   "their"]

def filler : List String :=
  ["begins", "begin", "began", "starts", "start", "started", "reaches", "reached", "peaks",
   "peaked", "arrival", "arrives", "signing", "signed", "posting", "posted", "publication",
   "published", "construction", "constructed", "establishment", "established", "founding",
   "founded", "invention", "invented", "discovery", "discovered", "creation", "created",
   "adoption", "adopted", "formation", "formed"]

def yearTolerance : Int := 12

/-- What `re.sub` and `lower` make of a character. -/
def wordChar (c : Char) : Char := (keyChar c).toLower

def contentWords (title : String) : Finset String :=
  (((Words.words blank (title.toList.map wordChar)).map String.ofList).filter fun t =>
    !stop.contains t && !filler.contains t).toFinset

def sameClaim (titleA : String) (yearA : Int) (titleB : String) (yearB : Int) : Bool :=
  if |yearA - yearB| > yearTolerance then false
  else
    let wa := contentWords titleA
    let wb := contentWords titleB
    if wa = ∅ ∨ wb = ∅ then false
    else wa ⊆ wb || wb ⊆ wa

/-- One recorded merge. -/
structure Decision where
  resolver : String
  resolved : String
  kept : String × Int
  dropped : String × Int
  rule : String
  droppedWords : List String
  keptWords : List String
  containment : String
  yearDelta : Int
  yearTolerance : Int
  doctrine : String

def Entry.key (e : Entry) : String × Int := (e.title, e.year)

def decisionFor (loser winner : Entry) : Decision where
  resolver := "subset-containment-v1"
  resolved := "merge"
  kept := winner.key
  dropped := loser.key
  rule := "content words of one title are a subset of the other's"
  droppedWords := (contentWords loser.title).sort (· ≤ ·)
  keptWords := (contentWords winner.title).sort (· ≤ ·)
  containment := if contentWords loser.title ⊆ contentWords winner.title then "dropped ⊆ kept"
    else "kept ⊆ dropped"
  yearDelta := |loser.year - winner.year|
  yearTolerance := yearTolerance
  doctrine := "tolerant surface; named policy; recorded decision " ++
    "(TT CONSUMERS.md, Identity has two layers)"

def same (e k : Entry) : Bool := sameClaim e.title e.year k.title k.year

/-- The fuller spelling. -/
def fuller (e hit : Entry) : Bool := (contentWords hit.title).card < (contentWords e.title).card

/-- One round of the loop; an entry that equals the hit is a hit, so `index` finds the hit. -/
def dedupeStep (state : List Entry × List Decision) (e : Entry) : List Entry × List Decision :=
  let (kept, decisions) := state
  match kept.find? (same e) with
  | none => (kept ++ [e], decisions)
  | some hit =>
    if fuller e hit then (Merges.replaceFirst (same e) e kept, decisions ++ [decisionFor hit e])
    else (kept, decisions ++ [decisionFor e hit])

def dedupe (entries : List Entry) : List Entry × List Decision :=
  entries.foldl dedupeStep ([], [])

/-! ## What it promises -/

/-- The entry as the gate reads it. -/
def Entry.value (e : Entry) : Value :=
  .obj (("title", .str e.title) :: ("year", .int e.year) :: e.fields)

def fits (year : Int) : Bool := -2 ^ 63 ≤ year && year < 2 ^ 63

/-- Nothing is lost, what is kept is told apart, and the gate agrees. -/
structure Agrees (u : Unicode) (b : Bundle) (entries : List Entry) : Prop where
  accounted : ∃ losers, ((dedupe entries).1 ++ losers).Perm entries ∧
    (dedupe entries).2.map Decision.dropped = losers.map Entry.key
  decided : ∀ d ∈ (dedupe entries).2,
    sameClaim d.dropped.1 d.dropped.2 d.kept.1 d.kept.2 = true
  apart : (dedupe entries).1.Pairwise fun e k => same e k = false
  equal : ∀ e ∈ entries, ∀ f ∈ entries, fits e.year = true → fits f.year = true →
    V0.Authoring.Checked.isRestatement u e.title e.year f.title f.year = some (same e f)
  admitted : ∃ out, V0.Authoring.Checked.admitBatch u b ((dedupe entries).1.map Entry.value) =
    some out ∧ ∀ item ∈ out, item.2.rule ∉ V0.Authoring.batchRules

/-- The same title, up to the case of ASCII letters, and the same year. -/
def duplicate (e k : Entry) : Bool :=
  eqIgnoreAsciiCase (trim e.title) (trim k.title) && e.year = k.year && fits e.year

/-- Titles of ASCII letters and digits, years not too far apart, no entry that restates two before
it which do not restate one another and is fuller than one of them, and no two entries without
content words that have one title and year. -/
structure Plain (u : Unicode) (entries : List Entry) : Prop where
  titles : ∀ e ∈ entries, ¬ Foreign u e.title
  years : ∀ e ∈ entries, ∀ f ∈ entries, fits e.year = true → fits f.year = true →
    |e.year - f.year| < 2 ^ 63
  forks : entries.Triplewise fun f g e => ¬ Merges.Forks same fuller f g e
  wordless : entries.Pairwise fun e k =>
    contentWords e.title = ∅ → contentWords k.title = ∅ → duplicate e k = false

/-! ## The loop -/

theorem dedupeStep_eq (state : List Entry × List (Entry × Entry)) (e : Entry) :
    dedupeStep (state.1, state.2.map fun m => decisionFor m.2 m.1) e =
      ((Merges.step same fuller state e).1,
        (Merges.step same fuller state e).2.map fun m => decisionFor m.2 m.1) := by
  unfold dedupeStep Merges.step
  dsimp only
  cases state.1.find? (same e) with
  | none => rfl
  | some hit =>
    dsimp only
    split
    · rw [List.map_append]
      rfl
    · rw [List.map_append]
      rfl

theorem dedupe_eq (entries : List Entry) :
    dedupe entries = ((Merges.run same fuller ([], []) entries).1,
      (Merges.run same fuller ([], []) entries).2.map fun m => decisionFor m.2 m.1) := by
  have hrun : ∀ state : List Entry × List (Entry × Entry),
      entries.foldl dedupeStep (state.1, state.2.map fun m => decisionFor m.2 m.1) =
        ((Merges.run same fuller state entries).1,
          (Merges.run same fuller state entries).2.map fun m => decisionFor m.2 m.1) := by
    induction entries with
    | nil => exact fun state => rfl
    | cons e entries ih =>
      intro state
      rw [List.foldl_cons, dedupeStep_eq]
      exact ih _
  exact hrun ([], [])

theorem sameClaim_symm (s t : String) (x y : Int) : sameClaim s x t y = sameClaim t y s x := by
  unfold sameClaim
  rw [abs_sub_comm]
  simp only [or_comm, Bool.or_comm]

theorem accounted (entries : List Entry) :
    ∃ losers, ((dedupe entries).1 ++ losers).Perm entries ∧
      (dedupe entries).2.map Decision.dropped = losers.map Entry.key := by
  refine ⟨(Merges.run same fuller ([], []) entries).2.map Prod.snd, ?_, ?_⟩
  · have hperm := Merges.run_perm same fuller ([], []) entries
    rw [dedupe_eq]
    simpa using hperm
  · rw [dedupe_eq, List.map_map, List.map_map]
    rfl

theorem decided (entries : List Entry) : ∀ d ∈ (dedupe entries).2,
    sameClaim d.dropped.1 d.dropped.2 d.kept.1 d.kept.2 = true := by
  intro d hd
  rw [dedupe_eq] at hd
  obtain ⟨m, hm, rfl⟩ := List.mem_map.mp hd
  exact Merges.run_same (fun e k => sameClaim_symm e.title k.title e.year k.year) entries
    (fun m hm => by cases hm) m hm

/-! ## The words of both -/

section
variable {u : Unicode} {s t : String}

/-- The gate takes the words between blanks, too. -/
theorem splitWords_blank (title : String) : V0.Authoring.splitWords u title =
    (Words.words blank (title.toList.map (V0.Authoring.wordChar u))).map .ofList := by
  have hsep : ∀ c ∈ title.toList.map (V0.Authoring.wordChar u), isWhitespace c = blank c := by
    intro c hc
    obtain ⟨d, -, rfl⟩ := List.mem_map.mp hc
    exact V0.Authoring.wordChar_blank d
  rw [V0.Authoring.splitWords, Words.words_congr hsep]

theorem wordChar_eq {c : Char} (h : ¬ (u.isAlphanumeric c = true ∧ 128 ≤ c.toNat)) :
    wordChar c = V0.Authoring.wordChar u c := by
  unfold wordChar keyChar V0.Authoring.wordChar
  by_cases hlt : c.toNat < 128
  · rw [u.ascii c hlt]
    split <;> rfl
  · have hnot : ¬ c.isAlphanum = true := fun hc => hlt (V0.Authoring.isAlphanum_lt hc)
    have hnot' : ¬ u.isAlphanumeric c = true := fun hc => h ⟨hc, by omega⟩
    rw [if_neg hnot, if_neg hnot']
    rfl

theorem mem_destutter' {α : Type} [DecidableEq α] (x a : α) (l : List α) :
    x ∈ l.destutter' (· ≠ ·) a ↔ x = a ∨ x ∈ l := by
  induction l generalizing a with
  | nil => simp [List.destutter']
  | cons b l ih =>
    rw [List.destutter'_cons]
    split
    · rw [List.mem_cons, ih, List.mem_cons]
    · rename_i heq
      rw [ih, List.mem_cons, not_not.mp heq]
      simp

theorem mem_destutter {α : Type} [DecidableEq α] (x : α) (l : List α) :
    x ∈ l.destutter (· ≠ ·) ↔ x ∈ l := by
  cases l with
  | nil => simp
  | cons a l => rw [List.destutter_cons', mem_destutter', List.mem_cons]

theorem mem_gateWords {w : String} : w ∈ V0.Authoring.contentWords u t ↔
    w ∈ V0.Authoring.splitWords u t ∧ stop.contains w = false ∧ filler.contains w = false := by
  rw [V0.Authoring.contentWords, mem_destutter, List.mem_mergeSort, List.mem_filter,
    Bool.and_eq_true, Bool.not_eq_true', Bool.not_eq_true']
  rfl

theorem mem_contentWords {w : String} : w ∈ contentWords t ↔
    w ∈ (Words.words blank (t.toList.map wordChar)).map String.ofList ∧
      stop.contains w = false ∧ filler.contains w = false := by
  rw [contentWords, List.mem_toFinset, List.mem_filter, Bool.and_eq_true, Bool.not_eq_true',
    Bool.not_eq_true']

/-- On a title without foreign letters and digits both read the same words. -/
theorem mem_plain {w : String} (ht : ¬ Foreign u t) :
    w ∈ V0.Authoring.contentWords u t ↔ w ∈ contentWords t := by
  have hmap : t.toList.map wordChar = t.toList.map (V0.Authoring.wordChar u) :=
    List.map_congr_left fun c hc => wordChar_eq fun hforeign => ht ⟨c, hc, hforeign⟩
  rw [mem_gateWords, mem_contentWords, splitWords_blank, hmap]

/-- White space at the ends of a title does not count. -/
theorem gateWords_trim (title : String) :
    V0.Authoring.contentWords u (trim title) = V0.Authoring.contentWords u title := by
  have htrim : Words.words blank ((trim title).toList.map (V0.Authoring.wordChar u)) =
      Words.words blank (title.toList.map (V0.Authoring.wordChar u)) := by
    rw [trim, String.toList_ofList]
    refine Words.words_strip (fun c hc => ?_) title.toList
    simp [V0.Authoring.wordChar, u.space c hc, blank]
  rw [V0.Authoring.contentWords, V0.Authoring.contentWords, splitWords_blank, splitWords_blank,
    htrim]

theorem isRestatement_trim (x y : Int) :
    V0.Authoring.isRestatement u (trim s) x (trim t) y = V0.Authoring.isRestatement u s x t y := by
  unfold V0.Authoring.isRestatement
  rw [gateWords_trim, gateWords_trim]

/-- The gate and the script agree on two titles whose words they read alike. -/
theorem isRestatement_eq (hs : ¬ Foreign u s) (ht : ¬ Foreign u t) (x y : Int) :
    V0.Authoring.isRestatement u s x t y = sameClaim s x t y := by
  have hempty : ∀ {r : String}, ¬ Foreign u r →
      ((V0.Authoring.contentWords u r).isEmpty = true ↔ contentWords r = ∅) := by
    intro r hr
    rw [List.isEmpty_iff, List.eq_nil_iff_forall_not_mem, Finset.eq_empty_iff_forall_notMem]
    exact forall_congr' fun w => not_congr (mem_plain hr)
  have hall : ∀ {r q : String}, ¬ Foreign u r → ¬ Foreign u q →
      (V0.Authoring.contentWords u r).all (V0.Authoring.contentWords u q).contains =
        decide (contentWords r ⊆ contentWords q) := by
    intro r q hr hq
    rw [Bool.eq_iff_iff, List.all_eq_true, decide_eq_true_iff, Finset.subset_iff]
    refine forall_congr' fun w => ?_
    rw [mem_plain hr, List.contains_iff_mem, mem_plain hq]
  unfold V0.Authoring.isRestatement sameClaim
  by_cases hfar : |x - y| > yearTolerance
  · rw [if_pos hfar]
    exact if_pos hfar
  · rw [if_neg hfar]
    refine (if_neg hfar).trans ?_
    dsimp only
    simp only [Bool.or_eq_true, hempty hs, hempty ht, hall hs ht, hall ht hs]

/-! ## Titles with other letters -/

theorem stop_ascii : ∀ w ∈ stop ++ filler, ∀ c ∈ w.toList, c.toNat < 128 := by
  have hall : ((stop ++ filler).all fun w => w.toList.all fun c => c.toNat < 128) = true := by
    decide
  simpa only [List.all_eq_true, decide_eq_true_eq] using hall

theorem not_listed {w : String} {c : Char} (hc : c ∈ w.toList) (h : 128 ≤ c.toNat) :
    stop.contains w = false ∧ filler.contains w = false := by
  have hnot : w ∉ stop ++ filler := fun hw => Nat.not_lt.mpr h (stop_ascii w hw c hc)
  rw [List.mem_append, not_or] at hnot
  simpa using hnot

/-- A letter or digit outside ASCII is part of a word of the gate. -/
theorem foreign_word (h : Foreign u s) :
    ∃ w ∈ V0.Authoring.contentWords u s, ∃ c ∈ w.toList, 128 ≤ c.toNat := by
  obtain ⟨c, hc, halnum, hle⟩ := h
  have hword : V0.Authoring.wordChar u c = c := by
    rw [V0.Authoring.wordChar, if_pos halnum, V0.Authoring.toLower_of_le hle]
  have hblank : blank c = false := by
    apply decide_eq_false
    rintro rfl
    exact absurd hle (by decide)
  have hmem : c ∈ s.toList.map (V0.Authoring.wordChar u) := List.mem_map.mpr ⟨c, hc, hword⟩
  obtain ⟨w, hw, hcw⟩ := Words.exists_words hmem hblank
  have hcw' : c ∈ (String.ofList w).toList := by rwa [String.toList_ofList]
  refine ⟨String.ofList w, mem_gateWords.mpr ⟨?_, not_listed hcw' hle⟩, c, hcw', hle⟩
  rw [splitWords_blank]
  exact List.mem_map_of_mem hw

/-- The letters and digits of ASCII, and a word that is longer than the title. -/
def widened (title : String) : String :=
  .ofList (title.toList.map keyChar ++ ' ' :: List.replicate (title.toList.length + 20) 'z')

def longWord (title : String) : String :=
  .ofList (List.replicate (title.toList.length + 20) 'z')

theorem keyChar_lt (c : Char) : (keyChar c).toNat < 128 := by
  unfold keyChar
  split
  · rename_i h
    exact V0.Authoring.isAlphanum_lt h
  · decide

theorem widened_plain : ¬ Foreign u (widened s) := by
  rintro ⟨c, hc, -, hle⟩
  rw [widened, String.toList_ofList, List.mem_append, List.mem_cons, List.mem_map] at hc
  rcases hc with ⟨d, -, rfl⟩ | rfl | hc
  · exact absurd (keyChar_lt d) (by omega)
  · exact absurd hle (by decide)
  · rw [(List.mem_replicate.mp hc).2] at hle
    exact absurd hle (by decide)

theorem wordChar_keyChar (c : Char) : wordChar (keyChar c) = wordChar c := by
  have hkey : keyChar (keyChar c) = keyChar c := by
    by_cases h : c.isAlphanum = true
    · have hc : keyChar c = c := if_pos h
      rw [hc, hc]
    · have hc : keyChar c = ' ' := if_neg h
      rw [hc]
      rfl
  rw [wordChar, hkey, wordChar]

theorem longWord_listed (title : String) :
    stop.contains (longWord title) = false ∧ filler.contains (longWord title) = false := by
  have hshort : ∀ w ∈ stop ++ filler, w.toList.length < 20 := by decide
  have hnot : longWord title ∉ stop ++ filler := by
    intro hw
    have hlt := hshort _ hw
    rw [longWord, String.toList_ofList, List.length_replicate] at hlt
    omega
  rw [List.mem_append, not_or] at hnot
  simpa using hnot

theorem mem_widened {w : String} :
    w ∈ contentWords (widened s) ↔ w ∈ contentWords s ∨ w = longWord s := by
  have hlong : Words.words blank (List.replicate (s.toList.length + 20) 'z') =
      [List.replicate (s.toList.length + 20) 'z'] := by
    refine Words.words_of_none (by simp) fun c hc => ?_
    rw [(List.mem_replicate.mp hc).2]
    decide
  have hsplit : Words.words blank ((widened s).toList.map wordChar) =
      Words.words blank (s.toList.map wordChar) ++ [List.replicate (s.toList.length + 20) 'z'] := by
    have hmap : (widened s).toList.map wordChar = s.toList.map wordChar ++
        ' ' :: List.replicate (s.toList.length + 20) 'z' := by
      rw [widened, String.toList_ofList, List.map_append, List.map_map, List.map_cons,
        List.map_replicate]
      congr 1
      exact List.map_congr_left fun c _ => wordChar_keyChar c
    rw [hmap, Words.words_append_sep (by decide), hlong]
  rw [mem_contentWords, mem_contentWords, hsplit, List.map_append, List.mem_append, or_and_right]
  refine or_congr_right ?_
  rw [List.map_singleton, List.mem_singleton]
  exact ⟨And.left, fun h => ⟨h, h ▸ longWord_listed s⟩⟩

/-- The words of a title are not longer than it. -/
theorem longWord_notMem : longWord s ∉ V0.Authoring.contentWords u s := by
  intro h
  have hword := (mem_gateWords.mp h).1
  rw [splitWords_blank] at hword
  obtain ⟨w, hw, heq⟩ := List.mem_map.mp hword
  have hle := (Words.words_infix hw).length_le
  have hlen : w.length = s.toList.length + 20 := by
    rw [← String.toList_ofList (l := w), heq, longWord, String.toList_ofList, List.length_replicate]
  rw [hlen, List.length_map] at hle
  omega

/-- The gate and the script disagree on a title with foreign letters or digits: on the title with
itself, or on the title and its widened form. -/
theorem foreign_disagree (h : Foreign u s) :
    V0.Authoring.isRestatement u s 0 s 0 ≠ sameClaim s 0 s 0 ∨
      V0.Authoring.isRestatement u s 0 (widened s) 0 ≠ sameClaim s 0 (widened s) 0 := by
  obtain ⟨w, hw, c, hc, hle⟩ := foreign_word h
  have hnear : ¬ |(0 : Int) - 0| > V0.Authoring.yearTolerance := by decide
  have hne : (V0.Authoring.contentWords u s).isEmpty = false := by
    rw [List.isEmpty_eq_false_iff]
    exact List.ne_nil_of_mem hw
  by_cases hempty : contentWords s = ∅
  · refine .inl fun heq => ?_
    have htrue : V0.Authoring.isRestatement u s 0 s 0 = true := by
      rw [V0.Authoring.isRestatement, if_neg hnear]
      dsimp only
      rw [hne]
      simp
    have hfalse : sameClaim s 0 s 0 = false := by
      rw [sameClaim]
      exact (if_neg hnear).trans (if_pos (.inl hempty))
    rw [htrue, hfalse] at heq
    cases heq
  · refine .inr fun heq => ?_
    have hsub : contentWords s ⊆ contentWords (widened s) := fun v hv => mem_widened.mpr (.inl hv)
    have hlong : longWord s ∈ contentWords (widened s) := mem_widened.mpr (.inr rfl)
    have htrue : sameClaim s 0 (widened s) 0 = true := by
      have hne' : contentWords (widened s) ≠ ∅ := Finset.ne_empty_of_mem hlong
      rw [sameClaim]
      refine (if_neg hnear).trans ?_
      simp [hempty, hne', hsub]
    have hout : w ∉ V0.Authoring.contentWords u (widened s) := by
      rw [mem_plain widened_plain, mem_contentWords]
      rintro ⟨hmem, -⟩
      obtain ⟨v, hv, rfl⟩ := List.mem_map.mp hmem
      rw [String.toList_ofList] at hc
      obtain ⟨d, -, rfl⟩ := List.mem_map.mp ((Words.words_infix hv).mem hc)
      have hlt : (wordChar d).toNat < 128 := by
        have hall : ∀ n < 128, (Char.ofNat n).toLower.toNat < 128 := by decide
        have := hall _ (keyChar_lt d)
        rwa [Char.ofNat_toNat] at this
      omega
    have hfalse : V0.Authoring.isRestatement u s 0 (widened s) 0 = false := by
      rw [V0.Authoring.isRestatement, if_neg hnear]
      dsimp only
      have hleft : (V0.Authoring.contentWords u s).all
          (V0.Authoring.contentWords u (widened s)).contains = false := by
        rw [List.all_eq_false]
        exact ⟨w, hw, by simpa using hout⟩
      have hright : (V0.Authoring.contentWords u (widened s)).all
          (V0.Authoring.contentWords u s).contains = false := by
        rw [List.all_eq_false]
        exact ⟨longWord s, (mem_plain widened_plain).mpr hlong, by simpa using longWord_notMem⟩
      rw [hleft, hright]
      split <;> rfl
    rw [htrue, hfalse] at heq
    cases heq

end

/-! ## What the gate sees of the kept entries -/

section
variable {u : Unicode} {b : Bundle} {entries kept : List Entry}

theorem asI64_int (year : Int) :
    (Value.int year).asI64 = if fits year = true then some year else none := by
  simp only [Value.asI64, fits, Bool.and_eq_true, decide_eq_true_eq]

/-- The title and the year that the gate compares. -/
def gateKey (e : Entry) : Option (String × Int) :=
  if fits e.year = true then some (trim e.title, e.year) else none

theorem keyed_value (e : Entry) (i : Nat) :
    V0.Authoring.keyed (e.value, i) = (gateKey e).map fun key => (i, key) := by
  have htitle : e.value.get? "title" = some (.str e.title) := rfl
  have hyear : e.value.get? "year" = some (.int e.year) := rfl
  simp only [V0.Authoring.keyed, htitle, hyear, Option.bind_eq_bind, Option.bind_some, Value.asStr,
    asI64_int, gateKey]
  split <;> rfl

theorem gateKeys (kept : List Entry) (n : Nat) :
    (((kept.map Entry.value).zipIdx n).filterMap V0.Authoring.keyed).map Prod.snd =
      kept.filterMap gateKey := by
  induction kept generalizing n with
  | nil => rfl
  | cons e kept ih =>
    rw [List.map_cons, List.zipIdx_cons, List.filterMap_cons, List.filterMap_cons, keyed_value]
    cases gateKey e with
    | none => exact ih (n + 1)
    | some key =>
      rw [Option.map_some, List.map_cons, ih (n + 1)]

/-- What the gate asks of every two entries, it asks of every two kept ones whose years fit. -/
theorem gate_pairwise (kept : List Entry) (Q : String × Int → String × Int → Prop) :
    ((kept.map Entry.value).zipIdx.filterMap V0.Authoring.keyed).Pairwise (fun a c => Q a.2 c.2) ↔
      kept.Pairwise fun e k => fits e.year = true → fits k.year = true →
        Q (trim e.title, e.year) (trim k.title, k.year) := by
  rw [← List.pairwise_map (f := Prod.snd) (R := Q), gateKeys, List.pairwise_filterMap]
  refine List.Pairwise.iff fun e k => ?_
  unfold gateKey
  constructor
  · intro h he hk
    exact h _ (if_pos he) _ (if_pos hk)
  · intro h x hx y hy
    split at hx
    · split at hy
      · obtain rfl := Option.some.inj hx
        obtain rfl := Option.some.inj hy
        rename_i he hk
        exact h he hk
      · cases hy
    · cases hx

theorem yearsNear_kept : V0.Authoring.YearsNear (kept.map Entry.value) ↔
    kept.Pairwise fun e k => fits e.year = true → fits k.year = true →
      |e.year - k.year| < 2 ^ 63 :=
  gate_pairwise kept fun x y => |x.2 - y.2| < 2 ^ 63

theorem lone_kept :
    (∀ item ∈ V0.Authoring.admitBatch u b (kept.map Entry.value),
      item.2.rule ∉ V0.Authoring.batchRules) ↔
    kept.Pairwise fun e k => fits e.year = true → fits k.year = true →
      (eqIgnoreAsciiCase (trim e.title) (trim k.title) && decide (e.year = k.year)) = false ∧
        V0.Authoring.isRestatement u e.title e.year k.title k.year = false := by
  rw [V0.Authoring.admitBatch_lone]
  have hgate := gate_pairwise kept fun x y =>
    (eqIgnoreAsciiCase x.1 y.1 && decide (x.2 = y.2)) = false ∧
      V0.Authoring.isRestatement u x.1 x.2 y.1 y.2 = false
  simp only [isRestatement_trim] at hgate
  rw [← hgate]
  exact List.Pairwise.iff fun _ _ => V0.Authoring.judgePair_nil

theorem duplicate_symm (e k : Entry) : duplicate e k = duplicate k e := by
  unfold duplicate eqIgnoreAsciiCase
  by_cases hyear : e.year = k.year
  · rw [hyear]
    simp only [eq_comm]
  · simp [hyear, Ne.symm hyear]

/-- Letters that differ in their case only are one letter of a word. -/
theorem wordChar_toLower (c : Char) : wordChar c.toLower = wordChar c := by
  by_cases h : c.toNat < 128
  · have hall : ∀ n < 128, wordChar (Char.ofNat n).toLower = wordChar (Char.ofNat n) := by
      decide +kernel
    have := hall _ h
    rwa [Char.ofNat_toNat] at this
  · rw [V0.Authoring.toLower_of_le (by omega)]

theorem keyChar_space {c : Char} (h : isWhitespace c = true) : keyChar c = ' ' := by
  refine if_neg fun halnum => ?_
  have hall : ∀ n < 128, isWhitespace (Char.ofNat n) = true →
      (Char.ofNat n).isAlphanum = false := by decide
  have := hall _ (V0.Authoring.isAlphanum_lt halnum)
  rw [Char.ofNat_toNat] at this
  rw [this h] at halnum
  cases halnum

theorem contentWords_trim (title : String) : contentWords (trim title) = contentWords title := by
  have htrim : Words.words blank ((trim title).toList.map wordChar) =
      Words.words blank (title.toList.map wordChar) := by
    rw [trim, String.toList_ofList]
    refine Words.words_strip (fun c hc => ?_) title.toList
    rw [wordChar, keyChar_space hc]
    rfl
  rw [contentWords, contentWords, htrim]

theorem contentWords_congr {s t : String} (h : eqIgnoreAsciiCase s t = true) :
    contentWords s = contentWords t := by
  have hlower : ∀ r : String,
      r.toList.map wordChar = (r.toList.map Char.toLower).map wordChar := by
    intro r
    rw [List.map_map]
    exact List.map_congr_left fun c _ => (wordChar_toLower c).symm
  rw [contentWords, contentWords, hlower s, hlower t, of_decide_eq_true h]

/-- Duplicates have the same content words, and match if they have any. -/
theorem wordless_of_duplicate {e k : Entry} (h : duplicate e k = true) (hsame : same e k = false) :
    contentWords e.title = ∅ ∧ contentWords k.title = ∅ := by
  simp only [duplicate, Bool.and_eq_true, decide_eq_true_eq] at h
  obtain ⟨⟨htitle, hyear⟩, -⟩ := h
  have hwords : contentWords e.title = contentWords k.title := by
    rw [← contentWords_trim e.title, contentWords_congr htitle, contentWords_trim]
  by_contra hnot
  rw [hwords, and_self] at hnot
  have htrue : same e k = true := by
    simp [same, sameClaim, hyear, hwords, hnot, yearTolerance]
  rw [htrue] at hsame
  cases hsame

theorem same_wordless {e k : Entry} (h : contentWords e.title = ∅) : same e k = false := by
  unfold same sameClaim
  split
  · rfl
  · exact if_pos (.inl h)

theorem dedupe_fst (entries : List Entry) :
    (dedupe entries).1 = (Merges.run same fuller ([], []) entries).1 := by rw [dedupe_eq]

theorem mem_kept {e : Entry} (h : e ∈ (dedupe entries).1) : e ∈ entries := by
  obtain ⟨losers, hperm, -⟩ := accounted entries
  exact hperm.subset (List.mem_append_left losers h)

theorem same_symm (e k : Entry) : same e k = same k e := sameClaim_symm _ _ _ _

/-- On plain entries the script keeps its promises. -/
theorem Plain.agrees (h : Plain u entries) (b : Bundle) : Agrees u b entries := by
  have hapart := Merges.run_apart same_symm entries h.forks
  have hwordless := Merges.run_pairwise same fuller
    (fun e k hek hk he => duplicate_symm e k ▸ hek he hk) entries h.wordless
  rw [← dedupe_fst] at hapart hwordless
  have hnear : V0.Authoring.YearsNear ((dedupe entries).1.map Entry.value) := by
    refine yearsNear_kept.mpr (List.Pairwise.imp_of_mem ?_ hapart)
    exact fun he hk _ => h.years _ (mem_kept he) _ (mem_kept hk)
  refine ⟨accounted entries, decided entries, hapart, fun e he f hf hfe hff => ?_,
    _, V0.Authoring.admitBatch_of_near u b hnear, ?_⟩
  · rw [V0.Authoring.Checked.isRestatement_of_fits (h.years e he f hf hfe hff),
      isRestatement_eq (h.titles e he) (h.titles f hf)]
    rfl
  · refine lone_kept.mpr (List.Pairwise.imp_of_mem ?_ (hapart.and hwordless))
    rintro e k he hk ⟨hsame, hwords⟩ hfe _
    constructor
    · by_contra hduplicate
      rw [Bool.not_eq_false] at hduplicate
      have hduplicate : duplicate e k = true := by rw [duplicate, hduplicate, hfe]; rfl
      obtain ⟨he, hk⟩ := wordless_of_duplicate hduplicate hsame
      rw [hwords he hk] at hduplicate
      cases hduplicate
    · rw [isRestatement_eq (h.titles e (mem_kept he)) (h.titles k (mem_kept hk))]
      exact hsame

theorem Agrees.years (h : Agrees u b entries) : ∀ e ∈ entries, ∀ f ∈ entries,
    fits e.year = true → fits f.year = true → |e.year - f.year| < 2 ^ 63 := by
  intro e he f hf hfe hff
  by_contra hfar
  have hequal := h.equal e he f hf hfe hff
  rw [V0.Authoring.Checked.isRestatement_overflows hfar] at hequal
  cases hequal

/-- Entries without content words are all kept, and the gate refuses duplicates among them. -/
theorem Agrees.wordless (h : Agrees u b entries) : entries.Pairwise fun e k =>
    contentWords e.title = ∅ → contentWords k.title = ∅ → duplicate e k = false := by
  obtain ⟨out, hout, hlone⟩ := h.admitted
  rw [V0.Authoring.admitBatch_of_near u b (V0.Authoring.yearsNear_of_some hout)] at hout
  obtain rfl := Option.some.inj hout
  have hkept : (dedupe entries).1.Pairwise fun e k => duplicate e k = false := by
    refine (lone_kept.mp hlone).imp fun {e k} hgate => ?_
    by_contra hduplicate
    simp only [duplicate, Bool.not_eq_false, Bool.and_eq_true, decide_eq_true_eq] at hduplicate
    obtain ⟨⟨htitle, hyear⟩, hfits⟩ := hduplicate
    have hfalse := (hgate hfits (hyear ▸ hfits)).1
    rw [htitle, decide_eq_true hyear] at hfalse
    cases hfalse
  have hfilter := Merges.run_filter fuller (p := fun e : Entry => decide (contentWords e.title = ∅))
    (fun e k he => same_wordless (of_decide_eq_true he)) same_symm entries
  rw [← dedupe_fst] at hfilter
  have hwordless := hkept.filter fun e => decide (contentWords e.title = ∅)
  rw [hfilter, List.pairwise_filter] at hwordless
  exact hwordless.imp fun h he hk => h (decide_eq_true he) (decide_eq_true hk)

theorem not_agrees_forks {f g e : Entry} (hf : same e f = true) (hg : same e g = true)
    (hfg : same f g = false) (hfuller : fuller e f = true) : ¬ Agrees u b [f, g, e] := by
  intro h
  have hapart := h.apart
  rw [dedupe_fst, Merges.run_forks same_symm hf hfg hfuller] at hapart
  simp [hg] at hapart

end

namespace Sample

/-- The third entry is fuller than the first, takes its place, and restates the second, too. -/
def entries : List Entry :=
  [⟨"Siege of Malta", 1565, []⟩, ⟨"Battle of Lepanto", 1571, []⟩,
    ⟨"Siege of Malta and Battle of Lepanto", 1571, []⟩]

end Sample

/-- In this order the other two are dropped. -/
def Sample.reordered : List Entry :=
  [⟨"Siege of Malta and Battle of Lepanto", 1571, []⟩, ⟨"Siege of Malta", 1565, []⟩,
    ⟨"Battle of Lepanto", 1571, []⟩, ⟨"The", 1571, []⟩, ⟨"Of", 1571, []⟩]

end Clockchain.Operator.Dedup
