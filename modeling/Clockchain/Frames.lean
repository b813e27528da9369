import Clockchain.Codec

/-!
# Frames

Fields that are written one after the other, each behind its length, can be told apart; so can
records of fields that are told apart from the front, and sections that open with a name no field
before it has.
-/

namespace Codec
set_option autoImplicit false

universe u v
variable {α : Type u} {β : Type v}

/-- What is written for a value shows it, whatever follows. -/
def PrefixFree (put : α → List β) : Prop :=
  ∀ {a b : α} {x y : List β}, put a ++ x = put b ++ y → a = b ∧ x = y

theorem PrefixFree.flatMap_injective {put : α → List β} (h : PrefixFree put)
    (hne : ∀ a, put a ≠ []) : Function.Injective fun as : List α => as.flatMap put := by
  have hcons : ∀ (a : α) (as : List α), (a :: as).flatMap put ≠ [] := by
    intro a as hnil
    exact hne a (List.append_eq_nil_iff.mp (List.flatMap_cons ▸ hnil)).1
  intro as
  induction as with
  | nil =>
    intro bs heq
    cases bs with
    | nil => rfl
    | cons b bs => exact absurd heq.symm (hcons b bs)
  | cons a as ih =>
    intro bs heq
    cases bs with
    | nil => exact absurd heq (hcons a as)
    | cons b bs =>
      obtain ⟨rfl, hrest⟩ := h (x := as.flatMap put) (y := bs.flatMap put) heq
      rw [ih hrest]

/-- Two lists that are cut at the first element of a kind are cut at one place. -/
theorem append_cons_inj (p : α → Prop) {as bs cs ds : List α} {m n : α} (has : ∀ a ∈ as, ¬ p a)
    (hcs : ∀ c ∈ cs, ¬ p c) (hm : p m) (hn : p n) (h : as ++ m :: bs = cs ++ n :: ds) :
    as = cs ∧ m :: bs = n :: ds := by
  induction as generalizing cs with
  | nil =>
    cases cs with
    | nil => exact ⟨rfl, h⟩
    | cons c cs =>
      obtain ⟨rfl, -⟩ := List.cons.inj h
      exact absurd hm (hcs m List.mem_cons_self)
  | cons a as ih =>
    cases cs with
    | nil =>
      obtain ⟨rfl, -⟩ := List.cons.inj h
      exact absurd hn (has a List.mem_cons_self)
    | cons c cs =>
      obtain ⟨rfl, hrest⟩ := List.cons.inj h
      obtain ⟨rfl, hcut⟩ := ih (fun x hx => has x (List.mem_cons_of_mem _ hx))
        (fun x hx => hcs x (List.mem_cons_of_mem _ hx)) hrest
      exact ⟨rfl, hcut⟩

theorem frame_inj {x y : Bytes} (rest rest' : Bytes) (hx : x.length < 2 ^ 32)
    (hy : y.length < 2 ^ 32) (h : frame x ++ rest = frame y ++ rest') : x = y ∧ rest = rest' := by
  rw [frame, frame, List.append_assoc, List.append_assoc] at h
  obtain ⟨hlen, hrest⟩ := List.append_inj h (by rw [beBytes_length, beBytes_length])
  exact List.append_inj hrest (beBytes_inj hx hy hlen)

theorem frames_inj {xs ys : List Bytes} (hxs : ∀ x ∈ xs, x.length < 2 ^ 32)
    (hys : ∀ y ∈ ys, y.length < 2 ^ 32) (h : xs.flatMap frame = ys.flatMap frame) : xs = ys := by
  have hcons : ∀ (x : Bytes) (xs : List Bytes), (x :: xs).flatMap frame ≠ [] := by
    intro x xs hnil
    have hlen := congrArg List.length (List.append_eq_nil_iff.mp (List.flatMap_cons ▸ hnil)).1
    rw [frame, List.length_append, beBytes_length] at hlen
    exact absurd hlen (by simp)
  induction xs generalizing ys with
  | nil =>
    cases ys with
    | nil => rfl
    | cons y ys => exact absurd h.symm (hcons y ys)
  | cons x xs ih =>
    cases ys with
    | nil => exact absurd h (hcons x xs)
    | cons y ys =>
      obtain ⟨hx, hxs'⟩ := List.forall_mem_cons.mp hxs
      obtain ⟨hy, hys'⟩ := List.forall_mem_cons.mp hys
      obtain ⟨rfl, hrest⟩ := frame_inj (xs.flatMap frame) (ys.flatMap frame) hx hy h
      rw [ih hxs' hys' hrest]

end Codec
