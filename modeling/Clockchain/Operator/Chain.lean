import Clockchain.Operator.Succession

/-!
# The log is a chain

A file that is read holds its lines and nothing else, and each line fixes the one before it: two
files whose last lines have one digest are the same file.
-/

namespace Clockchain.Operator
open Codec Programs
open V1 (Hash hashBytes NodeSealV1 Build Crypto)
set_option autoImplicit false

/-! ## Lines -/

/-- The file of these lines. -/
def unlines (ls : List Bytes) : Bytes := ls.flatMap fun line => line ++ [0x0a]

/-- Nothing, or something that ends with a newline. -/
def Ended (data : Bytes) : Prop := data = [] ∨ data.getLast? = some 0x0a

instance (data : Bytes) : Decidable (Ended data) := inferInstanceAs (Decidable (_ ∨ _))

theorem Ended.tail {b c : UInt8} {bs : Bytes} (h : Ended (b :: c :: bs)) : Ended (c :: bs) := by
  rcases h with h | h
  · cases h
  · exact Or.inr ((List.getLast?_cons_cons).symm.trans h)

theorem ended_append {data line : Bytes} : Ended (data ++ line ++ [0x0a]) :=
  Or.inr List.getLast?_concat

theorem lines_line {line : Bytes} (h : 0x0a ∉ line) : lines (line ++ [0x0a]) = [line] := by
  induction line with
  | nil => rfl
  | cons b line ih =>
    rw [List.mem_cons, not_or] at h
    rw [List.cons_append, lines, if_neg (Ne.symm h.1), ih h.2]

theorem lines_ne_nil {b : UInt8} {bs : Bytes} (h : Ended (b :: bs)) : lines (b :: bs) ≠ [] := by
  induction bs generalizing b with
  | nil =>
    rcases h with h | h
    · cases h
    · obtain rfl : b = 0x0a := Option.some.inj h
      exact List.cons_ne_nil _ _
  | cons c bs ih =>
    rw [lines]
    split
    · exact List.cons_ne_nil _ _
    · have hrest := ih h.tail
      split
      · next hnil => exact absurd hnil hrest
      · exact List.cons_ne_nil _ _

theorem lines_append {data : Bytes} (h : Ended data) (rest : Bytes) :
    lines (data ++ rest) = lines data ++ lines rest := by
  induction data with
  | nil => rfl
  | cons b bs ih =>
    have hbs : b ≠ 0x0a → bs ≠ [] := by
      rintro hb rfl
      rcases h with h | h
      · cases h
      · exact hb (Option.some.inj h)
    have hended : Ended bs := by
      cases bs with
      | nil => exact Or.inl rfl
      | cons c bs => exact h.tail
    rw [List.cons_append, lines, lines, ih hended]
    by_cases hb : b = 0x0a
    · rw [if_pos hb, if_pos hb, List.cons_append]
    · rw [if_neg hb, if_neg hb]
      obtain ⟨c, cs, rfl⟩ := List.exists_cons_of_ne_nil (hbs hb)
      obtain ⟨line, more, heq⟩ := List.exists_cons_of_ne_nil (lines_ne_nil hended)
      rw [heq]
      rfl

/-- A file that ends with a newline is its lines. -/
theorem unlines_lines {data : Bytes} (h : Ended data) : unlines (lines data) = data := by
  induction data with
  | nil => rfl
  | cons b bs ih =>
    have hended : Ended bs := by
      cases bs with
      | nil => exact Or.inl rfl
      | cons c bs => exact h.tail
    rw [lines]
    by_cases hb : b = 0x0a
    · rw [if_pos hb, hb]
      exact congrArg (0x0a :: ·) (ih hended)
    · rw [if_neg hb]
      cases bs with
      | nil =>
        rcases h with h | h
        · cases h
        · exact absurd (Option.some.inj h) hb
      | cons c cs =>
        obtain ⟨line, more, heq⟩ := List.exists_cons_of_ne_nil (lines_ne_nil hended)
        have hrest := ih hended
        rw [heq] at hrest ⊢
        exact congrArg (b :: ·) hrest

/-! ## Reading line after line -/

section
variable {cr : Crypto} {fl : Floats} {number : Nat} {prev : Text}

/-- The digest the next line names. -/
def headDigest (cr : Crypto) (prev : Text) (ls : List Bytes) : Text :=
  (ls.getLast?.map (lineDigest cr)).getD prev

theorem headDigest_cons (line : Bytes) (ls : List Bytes) :
    headDigest cr (lineDigest cr line) ls = headDigest cr prev (line :: ls) := by
  cases ls with
  | nil => rfl
  | cons line' ls =>
    rw [headDigest, headDigest, List.getLast?_cons_cons]
    cases h : (line' :: ls).getLast? with
    | none => exact absurd (List.getLast?_eq_none_iff.mp h) (List.cons_ne_nil _ _)
    | some last => rfl

theorem readLines_concat {ls : List Bytes} {line : Bytes} {out : List (Bytes × Py)} :
    readLines cr fl number prev (ls ++ [line]) = .ok out ↔
      ∃ entries entry, readLines cr fl number prev ls = .ok entries ∧
        readLine fl (number + ls.length) (headDigest cr prev ls) line = .ok entry ∧
        out = entries ++ [(line, entry)] := by
  induction ls generalizing number prev out with
  | nil =>
    simp only [List.nil_append, readLines, bind_ok, pure_ok, Except.ok.injEq]
    constructor
    · rintro ⟨entry, hentry, _, rfl, rfl⟩
      exact ⟨[], entry, rfl, hentry, rfl⟩
    · rintro ⟨_, entry, rfl, hentry, rfl⟩
      exact ⟨entry, hentry, [], rfl, rfl⟩
  | cons first ls ih =>
    have hhead : headDigest cr (lineDigest cr first) ls = headDigest cr prev (first :: ls) :=
      headDigest_cons first ls
    simp only [List.cons_append, readLines, bind_ok, pure_ok, ih, hhead]
    have hnumber : number + 1 + ls.length = number + (first :: ls).length := by
      rw [List.length_cons]
      omega
    rw [hnumber]
    constructor
    · rintro ⟨entry, hentry, _, ⟨entries, last, hentries, hlast, rfl⟩, rfl⟩
      exact ⟨_, last, ⟨entry, hentry, entries, hentries, rfl⟩, hlast, rfl⟩
    · rintro ⟨_, last, ⟨entry, hentry, entries, hentries, rfl⟩, hlast, rfl⟩
      exact ⟨entry, hentry, _, ⟨entries, last, hentries, hlast, rfl⟩, rfl⟩

theorem readLines_lines {ls : List Bytes} {entries : List (Bytes × Py)}
    (h : readLines cr fl number prev ls = .ok entries) : entries.map Prod.fst = ls := by
  induction ls generalizing number prev entries with
  | nil =>
    obtain rfl := Except.ok.inj h
    rfl
  | cons line ls ih =>
    simp only [readLines, bind_ok, pure_ok] at h
    obtain ⟨entry, -, rest, hrest, rfl⟩ := h
    exact congrArg (line :: ·) (ih hrest)

theorem readLog_ok {file : File} {entries : List (Bytes × Py)} :
    readLog cr fl file = .ok entries ↔ Ended (file.getD []) ∧
      readLines cr fl 1 genesisPrev (lines (file.getD [])) = .ok entries := by
  cases file with
  | none => exact ⟨fun h => ⟨Or.inl rfl, h⟩, fun h => h.2⟩
  | some data =>
    rw [readLog]
    by_cases hended : Ended data
    · rw [if_neg (fun h => hended.elim h.1 h.2)]
      exact (and_iff_right hended).symm
    · rw [if_pos (not_or.mp hended)]
      exact iff_of_false (fun h => by cases h) fun h => hended h.1

/-- A line that is read is the text of its entry, which names the digest before. -/
theorem readLine_ok {line : Bytes} {entry : Py} : readLine fl number prev line = .ok entry ↔
    loads fl line = some entry ∧ entry.hasKeys entryKeys = true ∧
      entry.item "prev_sha256" = .ok (.str prev) ∧
      (∃ s, entry.item "fetched_at" = .ok (.str s)) ∧ dumps fl entry = line := by
  unfold readLine
  cases hloads : loads fl line with
  | none => exact iff_of_false (fun h => by cases h) (fun h => by cases h.1)
  | some found =>
    simp only [bind_ok, unless_ok, Bool.not_eq_true', Bool.not_eq_false, pure_ok, isText_iff,
      isStr_iff, Option.some.injEq]
    simp only [ne_eq, not_not, encodeEntry]
    constructor
    · rintro ⟨hkeys, _, hprev, rfl, _, hfetched, ⟨s, rfl⟩, htext, rfl⟩
      exact ⟨rfl, hkeys, hprev, ⟨s, hfetched⟩, htext⟩
    · rintro ⟨rfl, hkeys, hprev, ⟨s, hfetched⟩, htext⟩
      exact ⟨hkeys, _, hprev, rfl, _, hfetched, ⟨s, rfl⟩, htext, rfl⟩

/-! ## One history a digest -/

theorem genesisPrev_eq : genesisPrev = hashText 0 := by decide

/-- No two of the lines have one digest, and none has the digest that stands for no line. -/
structure Distinct (cr : Crypto) (ls : List Bytes) : Prop where
  inj : ∀ a ∈ ls, ∀ b ∈ ls, cr.sha256 a = cr.sha256 b → a = b
  nonzero : ∀ a ∈ ls, cr.sha256 a ≠ 0

theorem Distinct.sub {ls ls' : List Bytes} (h : Distinct cr ls) (hsub : ls' ⊆ ls) :
    Distinct cr ls' :=
  ⟨fun a ha b hb => h.inj a (hsub ha) b (hsub hb), fun a ha => h.nonzero a (hsub ha)⟩

theorem headDigest_genesis (ls : List Bytes) : headDigest cr genesisPrev ls =
    hashText ((ls.getLast?.map cr.sha256).getD 0) := by
  rw [headDigest, genesisPrev_eq]
  cases ls.getLast? <;> rfl

/-- The lines before two that name one digest are the same. -/
theorem readLines_unique {ls ls' : List Bytes} {number number' : Nat}
    {entries entries' : List (Bytes × Py)} (free : Distinct cr (ls ++ ls'))
    (h : readLines cr fl number genesisPrev ls = .ok entries)
    (h' : readLines cr fl number' genesisPrev ls' = .ok entries')
    (heq : headDigest cr genesisPrev ls = headDigest cr genesisPrev ls') : ls = ls' := by
  induction ls using List.reverseRecOn generalizing ls' entries entries' with
  | nil =>
    rw [headDigest_genesis, headDigest_genesis] at heq
    cases hlast : ls'.getLast? with
    | none => exact (List.getLast?_eq_none_iff.mp hlast).symm
    | some line =>
      rw [hlast] at heq
      exact absurd (hashText_injective heq).symm (free.nonzero line (List.mem_of_getLast? hlast))
  | append_singleton ls line ih =>
    rw [headDigest_genesis, headDigest_genesis, List.getLast?_concat] at heq
    have hdigest := hashText_injective heq
    induction ls' using List.reverseRecOn with
    | nil => exact absurd hdigest (free.nonzero line (by simp))
    | append_singleton ls' line' _ =>
      rw [List.getLast?_concat] at hdigest
      obtain rfl : line = line' := free.inj line (by simp) line' (by simp) hdigest
      obtain ⟨_, entry, hls, hline, -⟩ := readLines_concat.mp h
      obtain ⟨_, entry', hls', hline', -⟩ := readLines_concat.mp h'
      obtain ⟨hloads, -, hprev, -⟩ := readLine_ok.mp hline
      obtain ⟨hloads', -, hprev', -⟩ := readLine_ok.mp hline'
      obtain rfl := Option.some.inj (hloads.symm.trans hloads')
      have hsame := Py.str.inj (Except.ok.inj (hprev.symm.trans hprev'))
      have hsub : ls ++ ls' ⊆ ls ++ [line] ++ (ls' ++ [line]) := by
        intro a ha
        rcases List.mem_append.mp ha with ha | ha
        · simp [ha]
        · simp [ha]
      rw [ih (free.sub hsub) hls hls' hsame]

end

end Clockchain.Operator
