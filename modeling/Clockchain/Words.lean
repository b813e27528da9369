import Mathlib.Data.List.Basic
import Mathlib.Data.List.DropRight

/-!
# The words of a text

The words of a list are its maximal runs without a separator. Collapsing, dropping and
adding separators at the ends leaves them as they are.
-/

namespace Words
set_option autoImplicit false

universe u v
variable {α : Type u} {β : Type v} (sep : α → Bool)

/-- A word that is still open, and the words behind it. -/
def close : List α × List (List α) → List (List α)
  | ([], ws) => ws
  | (w, ws) => w :: ws

/-- The run a list begins with, and the words after it. -/
def split : List α → List α × List (List α)
  | [] => ([], [])
  | c :: cs => if sep c then ([], close (split cs)) else (c :: (split cs).1, (split cs).2)

def words (l : List α) : List (List α) := close (split sep l)

/-- A list without the separators around it. -/
def strip (l : List α) : List α := ((l.dropWhile sep).reverse.dropWhile sep).reverse

variable {sep}

theorem split_sep {c : α} (h : sep c = true) (l : List α) :
    split sep (c :: l) = ([], words sep l) := by
  simp [split, words, h]

theorem words_sep {c : α} (h : sep c = true) (l : List α) : words sep (c :: l) = words sep l := by
  rw [words, split_sep h, close]

/-- What follows counts only through its split. -/
theorem split_append {a b : List α} (h : split sep a = split sep b) (l : List α) :
    split sep (l ++ a) = split sep (l ++ b) := by
  induction l with
  | nil => exact h
  | cons c l ih => simp only [List.cons_append, split, ih]

theorem words_append {a b : List α} (h : split sep a = split sep b) (l : List α) :
    words sep (l ++ a) = words sep (l ++ b) := by
  rw [words, words, split_append h]

/-- Two separators in a row are one. -/
theorem words_collapse {c d : α} (hc : sep c = true) (hd : sep d = true) (l m : List α) :
    words sep (l ++ c :: d :: m) = words sep (l ++ c :: m) := by
  refine words_append ?_ l
  rw [split_sep hc, split_sep hc, words_sep hd]

theorem words_concat_sep {c : α} (h : sep c = true) (l : List α) :
    words sep (l ++ [c]) = words sep l := by
  have hsplit : split sep [c] = split sep [] := by
    rw [split_sep h]
    rfl
  rw [words_append hsplit, List.append_nil]

theorem split_congr {sep' : α → Bool} {l : List α} (h : ∀ c ∈ l, sep c = sep' c) :
    split sep l = split sep' l := by
  induction l with
  | nil => rfl
  | cons c l ih =>
    have hl := ih fun d hd => h d (List.mem_cons_of_mem c hd)
    rw [split, split, h c List.mem_cons_self, hl]

theorem words_congr {sep' : α → Bool} {l : List α} (h : ∀ c ∈ l, sep c = sep' c) :
    words sep l = words sep' l := by
  rw [words, words, split_congr h]

theorem close_append (w : List α) (ws vs : List (List α)) :
    close (w, ws ++ vs) = close (w, ws) ++ vs := by
  cases w <;> rfl

/-- A separator ends a word. -/
theorem split_append_sep {c : α} (h : sep c = true) (a b : List α) :
    split sep (a ++ c :: b) = ((split sep a).1, (split sep a).2 ++ words sep b) := by
  induction a with
  | nil => exact split_sep h b
  | cons d a ih =>
    rw [List.cons_append, split, split, ih]
    split
    · rw [close_append]
    · rfl

theorem words_append_sep {c : α} (h : sep c = true) (a b : List α) :
    words sep (a ++ c :: b) = words sep a ++ words sep b := by
  rw [words, split_append_sep h, close_append]
  rfl

theorem split_of_none {l : List α} (h : ∀ c ∈ l, sep c = false) : split sep l = (l, []) := by
  induction l with
  | nil => rfl
  | cons c l ih =>
    rw [split, h c List.mem_cons_self, ih fun d hd => h d (List.mem_cons_of_mem c hd)]
    rfl

/-- A run without separators is one word. -/
theorem words_of_none {l : List α} (hne : l ≠ []) (h : ∀ c ∈ l, sep c = false) :
    words sep l = [l] := by
  rw [words, split_of_none h]
  cases l with
  | nil => exact absurd rfl hne
  | cons c l => rfl

theorem mem_close {w : List α} {p : List α × List (List α)} :
    w ∈ close p ↔ (w = p.1 ∧ w ≠ []) ∨ w ∈ p.2 := by
  obtain ⟨first, rest⟩ := p
  cases first with
  | nil => exact ⟨.inr, fun h => h.resolve_left fun hfirst => hfirst.2 hfirst.1⟩
  | cons c first =>
    refine List.mem_cons.trans (or_congr_left ?_)
    exact ⟨fun h => ⟨h, h ▸ List.cons_ne_nil c first⟩, And.left⟩

/-- A word is a part of the list. -/
theorem words_infix {w l : List α} (h : w ∈ words sep l) : w <:+: l := by
  have hsplit : (split sep l).1 <+: l ∧ ∀ w ∈ (split sep l).2, w <:+: l := by
    clear h
    induction l with
    | nil => exact ⟨List.prefix_rfl, fun w hw => by cases hw⟩
    | cons c l ih =>
      obtain ⟨hfirst, hrest⟩ := ih
      rw [split]
      split
      · refine ⟨List.nil_prefix, fun w hw => ?_⟩
        rcases mem_close.mp hw with ⟨rfl, -⟩ | hw
        · exact hfirst.isInfix.trans (List.suffix_cons c l).isInfix
        · exact (hrest w hw).trans (List.suffix_cons c l).isInfix
      · refine ⟨?_, fun w hw => (hrest w hw).trans (List.suffix_cons c l).isInfix⟩
        rw [List.cons_prefix_cons]
        exact ⟨rfl, hfirst⟩
  rcases mem_close.mp h with ⟨rfl, -⟩ | hw
  · exact hsplit.1.isInfix
  · exact hsplit.2 w hw

/-- Every element that is no separator is in a word. -/
theorem exists_words {c : α} {l : List α} (hc : c ∈ l) (h : sep c = false) :
    ∃ w ∈ words sep l, c ∈ w := by
  have hclose : ∀ p : List α × List (List α), (c ∈ p.1 ∨ ∃ w ∈ p.2, c ∈ w) →
      ∃ w ∈ close p, c ∈ w := by
    rintro p (hin | ⟨w, hw, hcw⟩)
    · exact ⟨p.1, mem_close.mpr (.inl ⟨rfl, List.ne_nil_of_mem hin⟩), hin⟩
    · exact ⟨w, mem_close.mpr (.inr hw), hcw⟩
  apply hclose
  induction l with
  | nil => cases hc
  | cons d l ih =>
    rw [split]
    rcases List.mem_cons.mp hc with rfl | hc
    · rw [h]
      exact .inl List.mem_cons_self
    · split
      · exact .inr (hclose _ (ih hc))
      · exact (ih hc).imp_left (List.mem_cons_of_mem d)

/-- Dropping what becomes a separator at the front. -/
theorem words_dropWhile {p : β → Bool} {f : β → α} (h : ∀ c, p c = true → sep (f c) = true)
    (l : List β) : words sep ((l.dropWhile p).map f) = words sep (l.map f) := by
  induction l with
  | nil => rfl
  | cons c l ih =>
    cases hc : p c with
    | false => rw [List.dropWhile_cons_of_neg (by simp [hc])]
    | true => rw [List.dropWhile_cons_of_pos hc, ih, List.map_cons, words_sep (h c hc)]

/-- Dropping what becomes a separator at the end. -/
theorem words_dropEnd {p : β → Bool} {f : β → α} (h : ∀ c, p c = true → sep (f c) = true)
    (l : List β) :
    words sep ((l.reverse.dropWhile p).reverse.map f) = words sep (l.map f) := by
  induction l using List.reverseRecOn with
  | nil => rfl
  | append_singleton l c ih =>
    rw [List.reverse_append, List.reverse_singleton, List.singleton_append]
    cases hc : p c with
    | false =>
      rw [List.dropWhile_cons_of_neg (by simp [hc]), List.reverse_cons, List.reverse_reverse]
    | true =>
      rw [List.dropWhile_cons_of_pos hc, ih, List.map_append, List.map_singleton,
        words_concat_sep (h c hc)]

/-- Dropping what becomes a separator at both ends. -/
theorem words_strip {p : β → Bool} {f : β → α} (h : ∀ c, p c = true → sep (f c) = true)
    (l : List β) : words sep ((strip p l).map f) = words sep (l.map f) := by
  rw [strip, words_dropEnd h, words_dropWhile h]

/-! ## Stripped lists -/

theorem dropWhile_congr {sep' : α → Bool} {l : List α} (h : ∀ c ∈ l, sep c = sep' c) :
    l.dropWhile sep = l.dropWhile sep' := by
  induction l with
  | nil => rfl
  | cons c l ih =>
    rw [List.dropWhile_cons, List.dropWhile_cons, h c List.mem_cons_self,
      ih fun d hd => h d (List.mem_cons_of_mem _ hd)]

theorem strip_congr {sep' : α → Bool} {l : List α} (h : ∀ c ∈ l, sep c = sep' c) :
    strip sep l = strip sep' l := by
  rw [strip, strip, dropWhile_congr h]
  refine congrArg List.reverse (dropWhile_congr fun c hc => h c ?_)
  exact (List.dropWhile_suffix sep').subset (List.mem_reverse.mp hc)

theorem strip_map (f : β → α) (l : List β) :
    strip sep (l.map f) = (strip (fun c => sep (f c)) l).map f := by
  rw [strip, strip, List.dropWhile_map, ← List.map_reverse, List.dropWhile_map, ← List.map_reverse]
  rfl

theorem strip_of_none {l : List α} (h : ∀ c ∈ l, sep c = false) : strip sep l = l := by
  have hdrop : ∀ m : List α, (∀ c ∈ m, sep c = false) → m.dropWhile sep = m := by
    intro m hm
    cases m with
    | nil => rfl
    | cons c m => rw [List.dropWhile_cons_of_neg (by simp [hm c List.mem_cons_self])]
  rw [strip, hdrop l h, hdrop _ fun c hc => h c (List.mem_reverse.mp hc), List.reverse_reverse]

theorem any_dropWhile {p : α → Bool} (h : ∀ c, sep c = true → p c = false) (l : List α) :
    (l.dropWhile sep).any p = l.any p := by
  induction l with
  | nil => rfl
  | cons c l ih =>
    cases hc : sep c with
    | true => rw [List.dropWhile_cons_of_pos hc, ih, List.any_cons, h c hc, Bool.false_or]
    | false => rw [List.dropWhile_cons_of_neg (by rw [hc]; exact Bool.false_ne_true)]

/-- What no separator has is in a list when it is in the stripped one. -/
theorem any_strip {p : α → Bool} (h : ∀ c, sep c = true → p c = false) (l : List α) :
    (strip sep l).any p = l.any p := by
  rw [strip, List.any_reverse, any_dropWhile h, List.any_reverse, any_dropWhile h]

end Words
