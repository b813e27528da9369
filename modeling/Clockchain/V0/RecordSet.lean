import Clockchain.V0.Snapshot

/-!
# Record sets

A corpus is the set of its records: they are accepted when no two of them disagree, in whatever
order and however often they come, and the bytes of the digest show them all.
-/

namespace Clockchain.V0
open Codec
open V1 (Hash hashBytes)
set_option autoImplicit false

/-! ## Nested indexes -/

section Evidence
variable {κ β : Type} {cmp : κ → κ → Ordering} [Std.TransCmp cmp]
variable {index index' : Std.ExtTreeMap κ (EvidenceMap β) cmp} {k k' : κ} {e e' : Evidence}
    {v w : β}

def Recorded (index : Std.ExtTreeMap κ (EvidenceMap β) cmp) (k : κ) (e : Evidence) (v : β) : Prop :=
  (index.getD k ∅)[e]? = some v

/-- No key is there without a value. -/
def Filled (index : Std.ExtTreeMap κ (EvidenceMap β) cmp) : Prop :=
  ∀ (k : κ) (inner : EvidenceMap β), index[k]? = some inner →
    ∃ (e : Evidence) (v : β), inner[e]? = some v

theorem recorded_of_some {inner : EvidenceMap β} (h : index[k]? = some inner) :
    Recorded index k e v ↔ inner[e]? = some v := by
  rw [Recorded, Std.ExtTreeMap.getD_eq_getD_getElem?, h, Option.getD_some]

theorem not_recorded (h : index[k]? = none) : ¬ Recorded index k e v := by
  rw [Recorded, Std.ExtTreeMap.getD_eq_getD_getElem?, h, Option.getD_none]
  simp

/-- A filled index is known by what it records. -/
theorem recorded_ext [Std.LawfulEqCmp cmp] (h : Filled index) (h' : Filled index')
    (hsame : ∀ k e v, Recorded index k e v ↔ Recorded index' k e v) : index = index' := by
  refine Std.ExtTreeMap.ext_getElem? fun {k} => ?_
  cases hk : index[k]? with
  | none =>
    cases hk' : index'[k]? with
    | none => rfl
    | some inner' =>
      obtain ⟨e, v, hv⟩ := h' k inner' hk'
      exact absurd ((hsame k e v).mpr ((recorded_of_some hk').mpr hv)) (not_recorded hk)
  | some inner =>
    cases hk' : index'[k]? with
    | none =>
      obtain ⟨e, v, hv⟩ := h k inner hk
      exact absurd ((hsame k e v).mp ((recorded_of_some hk).mpr hv)) (not_recorded hk')
    | some inner' =>
      refine congrArg some (Maps.ext_graph fun e v => ?_)
      rw [← recorded_of_some hk, ← recorded_of_some hk', hsame]

theorem mem_rows [Std.LawfulEqCmp cmp] : (k, e, v) ∈ rows index ↔ Recorded index k e v := by
  rw [rows, List.mem_flatMap]
  constructor
  · rintro ⟨p, hp, hrow⟩
    obtain ⟨q, hq, heq⟩ := List.mem_map.mp hrow
    obtain ⟨rfl, hrest⟩ := Prod.mk.inj heq
    obtain ⟨rfl, rfl⟩ := Prod.mk.inj hrest
    refine (recorded_of_some ?_).mpr (Std.ExtTreeMap.mem_toList_iff_getElem?_eq_some.mp hq)
    exact Std.ExtTreeMap.mem_toList_iff_getElem?_eq_some.mp hp
  · intro hrecorded
    cases hk : index[k]? with
    | none => exact absurd hrecorded (not_recorded hk)
    | some inner =>
      refine ⟨(k, inner), Std.ExtTreeMap.mem_toList_iff_getElem?_eq_some.mpr hk, ?_⟩
      refine List.mem_map.mpr ⟨(e, v), ?_, rfl⟩
      exact Std.ExtTreeMap.mem_toList_iff_getElem?_eq_some.mpr ((recorded_of_some hk).mp hrecorded)

/-- A value is recorded unless another one has its key. -/
theorem record_ok [DecidableEq β] {recordedAt : Tick} {via : Hash} :
    record index k recordedAt via v = .ok index' ↔
      (∀ w, Recorded index k (recordedAt, via) w → w = v) ∧
        index.insert k ((index.getD k ∅).insert (recordedAt, via) v) = index' := by
  unfold record Recorded
  dsimp only
  cases hprev : (index.getD k ∅)[(recordedAt, via)]? with
  | none => simp
  | some prev =>
    by_cases heq : prev = v
    · simp [heq]
    · simp [heq]

variable [Std.LawfulEqCmp cmp] [DecidableEq κ]

theorem recorded_insert : Recorded (index.insert k ((index.getD k ∅).insert e v)) k' e' w ↔
    (k = k' ∧ e = e' ∧ v = w) ∨ ¬ (k = k' ∧ e = e') ∧ Recorded index k' e' w := by
  rw [Recorded, Std.ExtTreeMap.getD_eq_getD_getElem?, Maps.getElem?_insert]
  by_cases hk : k = k'
  · subst hk
    rw [if_pos rfl, Option.getD_some, Maps.getElem?_insert]
    by_cases he : e = e'
    · simp [he]
    · simp [he, Recorded]
  · simp [hk, Recorded, Std.ExtTreeMap.getD_eq_getD_getElem?]

theorem filled_insert (h : Filled index) :
    Filled (index.insert k ((index.getD k ∅).insert e v)) := by
  intro k' inner hinner
  rw [Maps.getElem?_insert] at hinner
  split at hinner
  · obtain rfl := Option.some.inj hinner
    exact ⟨e, v, by rw [Maps.getElem?_insert, if_pos rfl]⟩
  · exact h k' inner hinner

theorem record_filled [DecidableEq β] {recordedAt : Tick} {via : Hash}
    (h : record index k recordedAt via v = .ok index') (hfilled : Filled index) :
    Filled index' := by
  obtain ⟨-, rfl⟩ := record_ok.mp h
  exact filled_insert hfilled

/-- One record more is recorded. -/
theorem record_recorded [DecidableEq β] {recordedAt : Tick} {via : Hash}
    (h : record index k recordedAt via v = .ok index') : Recorded index' k' e' w ↔
      Recorded index k' e' w ∨ k' = k ∧ e' = (recordedAt, via) ∧ w = v := by
  obtain ⟨hsame, rfl⟩ := record_ok.mp h
  rw [recorded_insert]
  constructor
  · rintro (⟨rfl, rfl, rfl⟩ | ⟨-, hold⟩)
    · exact .inr ⟨rfl, rfl, rfl⟩
    · exact .inl hold
  · rintro (hold | ⟨rfl, rfl, rfl⟩)
    · by_cases hkey : k = k' ∧ (recordedAt, via) = e'
      · obtain ⟨rfl, rfl⟩ := hkey
        exact .inl ⟨rfl, rfl, (hsame w hold).symm⟩
      · exact .inr ⟨hkey, hold⟩
    · exact .inl ⟨rfl, rfl, rfl⟩

end Evidence

/-! ## Adjacency -/

section Adjacency
variable {adjacency adjacency' : EntityMap NeighbourSet} {x y : EntityId} {n n' : Neighbour}

def Linked (adjacency : EntityMap NeighbourSet) (x : EntityId) (n : Neighbour) : Prop :=
  n ∈ adjacency.getD x ∅

/-- No entity is there without a neighbour. -/
def Joined (adjacency : EntityMap NeighbourSet) : Prop :=
  ∀ (x : EntityId) (inner : NeighbourSet), adjacency[x]? = some inner → ∃ n, n ∈ inner

theorem linked_of_some {inner : NeighbourSet} (h : adjacency[x]? = some inner) :
    Linked adjacency x n ↔ n ∈ inner := by
  rw [Linked, Std.ExtTreeMap.getD_eq_getD_getElem?, h, Option.getD_some]

theorem not_linked (h : adjacency[x]? = none) : ¬ Linked adjacency x n := by
  rw [Linked, Std.ExtTreeMap.getD_eq_getD_getElem?, h, Option.getD_none]
  exact Std.ExtTreeSet.not_mem_empty

theorem linked_ext (h : Joined adjacency) (h' : Joined adjacency')
    (hsame : ∀ x n, Linked adjacency x n ↔ Linked adjacency' x n) : adjacency = adjacency' := by
  refine Std.ExtTreeMap.ext_getElem? fun {x} => ?_
  cases hx : adjacency[x]? with
  | none =>
    cases hx' : adjacency'[x]? with
    | none => rfl
    | some inner' =>
      obtain ⟨n, hn⟩ := h' x inner' hx'
      exact absurd ((hsame x n).mpr ((linked_of_some hx').mpr hn)) (not_linked hx)
  | some inner =>
    cases hx' : adjacency'[x]? with
    | none =>
      obtain ⟨n, hn⟩ := h x inner hx
      exact absurd ((hsame x n).mp ((linked_of_some hx).mpr hn)) (not_linked hx')
    | some inner' =>
      refine congrArg some (Std.ExtTreeSet.ext_mem fun {n} => ?_)
      rw [← linked_of_some hx, ← linked_of_some hx', hsame]

theorem linked_link : Linked (link adjacency x n) y n' ↔
    x = y ∧ n' = n ∨ Linked adjacency y n' := by
  rw [Linked, link, Std.ExtTreeMap.getD_eq_getD_getElem?, Maps.getElem?_insert]
  by_cases hx : x = y
  · subst hx
    rw [if_pos rfl, Option.getD_some, Maps.mem_insert]
    simp [Linked]
  · simp [hx, Linked, Std.ExtTreeMap.getD_eq_getD_getElem?]

theorem joined_link (h : Joined adjacency) : Joined (link adjacency x n) := by
  intro y inner hinner
  rw [link, Maps.getElem?_insert] at hinner
  split at hinner
  · obtain rfl := Option.some.inj hinner
    exact ⟨n, Maps.mem_insert.mpr (.inl rfl)⟩
  · exact h y inner hinner

end Adjacency

/-! ## What the indexes say -/

/-- A co-occurrence has no direction: the lesser entity comes first. -/
def Record.oriented : Record → Record
  | .coOccurrence a b at_ via =>
    if a.slt b then .coOccurrence a b at_ via else .coOccurrence b a at_ via
  | r => r

theorem oriented_window {entity : EntityId} {recordedAt : Tick} {via : Hash} {start : WindowStart}
    {finish : WindowEnd} : (Record.window entity recordedAt via start finish).oriented =
      .window entity recordedAt via start finish := rfl

theorem oriented_admissibility {claim : ClaimType} {recordedAt : Tick} {via : Hash}
    {ruling : Ruling} : (Record.admissibility claim recordedAt via ruling).oriented =
      .admissibility claim recordedAt via ruling := rfl

/-- The indexes have exactly the records of a set. -/
structure Indexes.Means (s : Indexes) (R : Record → Prop) : Prop where
  cooccurrence : ∀ p, p ∈ s.cooccurrence ↔ R (.coOccurrence p.lo p.hi p.at_ p.via)
  adjacency : ∀ x n, Linked s.adjacency x n ↔
    R (.coOccurrence x n.other n.at_ n.via) ∨ R (.coOccurrence n.other x n.at_ n.via)
  joined : Joined s.adjacency
  windows : ∀ entity e w, Recorded s.windows entity e w ↔ R (.window entity e.1 e.2 w.1 w.2)
  windowsFilled : Filled s.windows
  admissibility : ∀ claim e r, Recorded s.admissibility claim e r ↔
    R (.admissibility claim e.1 e.2 r)
  admissibilityFilled : Filled s.admissibility

namespace Indexes
variable {s s' : Indexes} {R R' : Record → Prop}

theorem means_empty : Means .empty fun _ => False where
  cooccurrence := by simp [Indexes.empty]
  adjacency := by simp [Indexes.empty, Linked]
  joined := by
    intro x inner h
    simp [Indexes.empty] at h
  windows := by simp [Indexes.empty, Recorded]
  windowsFilled := by
    intro x inner h
    simp [Indexes.empty] at h
  admissibility := by simp [Indexes.empty, Recorded]
  admissibilityFilled := by
    intro x inner h
    simp [Indexes.empty] at h

theorem Means.congr (h : s.Means R) (hsame : ∀ r, R r ↔ R' r) : s.Means R' := by
  obtain rfl : R = R' := funext fun r => propext (hsame r)
  exact h

/-- Indexes that say the same are the same. -/
theorem Means.unique (h : s.Means R) (h' : s'.Means R) : s = s' := by
  obtain ⟨cooccurrence, adjacency, windows, admissibility⟩ := s
  obtain ⟨cooccurrence', adjacency', windows', admissibility'⟩ := s'
  obtain rfl : cooccurrence = cooccurrence' :=
    Std.ExtTreeSet.ext_mem fun {p} => (h.cooccurrence p).trans (h'.cooccurrence p).symm
  obtain rfl : adjacency = adjacency' := linked_ext h.joined h'.joined fun x n =>
    (h.adjacency x n).trans (h'.adjacency x n).symm
  obtain rfl : windows = windows' := recorded_ext h.windowsFilled h'.windowsFilled fun k e w =>
    (h.windows k e w).trans (h'.windows k e w).symm
  obtain rfl : admissibility = admissibility' :=
    recorded_ext h.admissibilityFilled h'.admissibilityFilled fun k e r =>
      (h.admissibility k e r).trans (h'.admissibility k e r).symm
  rfl

/-- One record more is there. -/
theorem Means.add {r : Record} (h : s.Means R) (hadd : s.add r = .ok s') :
    s'.Means fun q => R q ∨ q = r.oriented := by
  cases r with
  | coOccurrence a b at_ via =>
    rw [Indexes.add] at hadd
    split at hadd
    · nomatch hadd
    · obtain rfl := Except.ok.inj hadd
      have horiented : (Record.coOccurrence a b at_ via).oriented =
          .coOccurrence (if a.slt b then a else b) (if a.slt b then b else a) at_ via := by
        rw [Record.oriented]
        split <;> rfl
      rw [horiented]
      generalize (if a.slt b then a else b) = lo
      generalize (if a.slt b then b else a) = hi
      refine ⟨fun p => ?_, fun x n => ?_, joined_link (joined_link h.joined), fun k e w => ?_,
        h.windowsFilled, fun k e w => ?_, h.admissibilityFilled⟩
      · obtain ⟨lo', hi', at', via'⟩ := p
        rw [Maps.mem_insert, h.cooccurrence, or_comm, Pair.mk.injEq, Record.coOccurrence.injEq]
      · obtain ⟨other, via', at'⟩ := n
        rw [linked_link, linked_link, h.adjacency]
        simp only [Neighbour.mk.injEq, Record.coOccurrence.injEq]
        tauto
      · rw [h.windows]
        simp
      · rw [h.admissibility]
        simp
  | window entity recordedAt via start finish =>
    obtain ⟨windows, hrecord, hs⟩ := Programs.bind_ok.mp hadd
    obtain rfl := Except.ok.inj hs
    refine ⟨fun p => ?_, fun x n => ?_, h.joined, fun k e w => ?_,
      record_filled hrecord h.windowsFilled, fun k e w => ?_, h.admissibilityFilled⟩
    · rw [h.cooccurrence]
      simp [Record.oriented]
    · rw [h.adjacency]
      simp [Record.oriented]
    · rw [record_recorded hrecord, h.windows, oriented_window, Record.window.injEq, Prod.ext_iff,
        Prod.ext_iff]
      tauto
    · rw [h.admissibility]
      simp [Record.oriented]
  | admissibility claim recordedAt via ruling =>
    obtain ⟨admissibility, hrecord, hs⟩ := Programs.bind_ok.mp hadd
    obtain rfl := Except.ok.inj hs
    refine ⟨fun p => ?_, fun x n => ?_, h.joined, fun k e w => ?_, h.windowsFilled, fun k e w => ?_,
      record_filled hrecord h.admissibilityFilled⟩
    · rw [h.cooccurrence]
      simp [Record.oriented]
    · rw [h.adjacency]
      simp [Record.oriented]
    · rw [h.windows]
      simp [Record.oriented]
    · rw [record_recorded hrecord, h.admissibility, oriented_admissibility,
        Record.admissibility.injEq, Prod.ext_iff]
      tauto

end Indexes

/-! ## Acceptance -/

/-- No entity co-occurs with itself, and no two records give different values for one key. -/
structure Coherent (records : List Record) : Prop where
  distinct : ∀ a b at_ via, .coOccurrence a b at_ via ∈ records → a ≠ b
  windows : ∀ entity recordedAt via start finish start' finish',
    .window entity recordedAt via start finish ∈ records →
    .window entity recordedAt via start' finish' ∈ records → start = start' ∧ finish = finish'
  rulings : ∀ claim recordedAt via ruling ruling',
    .admissibility claim recordedAt via ruling ∈ records →
    .admissibility claim recordedAt via ruling' ∈ records → ruling = ruling'

/-- The record agrees with those of a set. -/
def Record.Fits (R : Record → Prop) : Record → Prop
  | .coOccurrence a b _ _ => a ≠ b
  | .window entity recordedAt via start finish => ∀ start' finish',
    R (.window entity recordedAt via start' finish') → start' = start ∧ finish' = finish
  | .admissibility claim recordedAt via ruling => ∀ ruling',
    R (.admissibility claim recordedAt via ruling') → ruling' = ruling

variable {records records' : List Record}

theorem coherent_concat {r : Record} :
    Coherent (records ++ [r]) ↔ Coherent records ∧ r.Fits (· ∈ records) := by
  constructor
  · rintro ⟨hdistinct, hwindows, hrulings⟩
    have hold : ∀ {q}, q ∈ records → q ∈ records ++ [r] := fun hq => List.mem_append_left _ hq
    have hnew : r ∈ records ++ [r] := List.mem_append_right _ List.mem_cons_self
    refine ⟨⟨fun a b at_ via h => hdistinct a b at_ via (hold h),
      fun entity recordedAt via start finish start' finish' h h' =>
        hwindows entity recordedAt via start finish start' finish' (hold h) (hold h'),
      fun claim recordedAt via ruling ruling' h h' =>
        hrulings claim recordedAt via ruling ruling' (hold h) (hold h')⟩, ?_⟩
    cases r with
    | coOccurrence a b at_ via => exact hdistinct a b at_ via hnew
    | window entity recordedAt via start finish =>
      exact fun start' finish' h => hwindows _ _ _ _ _ _ _ (hold h) hnew
    | admissibility claim recordedAt via ruling =>
      exact fun ruling' h => hrulings _ _ _ _ _ (hold h) hnew
  · rintro ⟨⟨hdistinct, hwindows, hrulings⟩, hfits⟩
    constructor
    · intro a b at_ via h
      rcases List.mem_append.mp h with h | h
      · exact hdistinct a b at_ via h
      · obtain rfl := List.mem_singleton.mp h
        exact hfits
    · intro entity recordedAt via start finish start' finish' hin hin'
      rcases List.mem_append.mp hin with h | h <;> rcases List.mem_append.mp hin' with h' | h'
      · exact hwindows _ _ _ _ _ _ _ h h'
      · obtain rfl := List.mem_singleton.mp h'
        exact hfits _ _ h
      · obtain rfl := List.mem_singleton.mp h
        obtain ⟨hstart, hfinish⟩ := hfits _ _ h'
        exact ⟨hstart.symm, hfinish.symm⟩
      · obtain rfl := List.mem_singleton.mp h
        obtain ⟨-, -, -, hstart, hfinish⟩ := Record.window.inj (List.mem_singleton.mp h')
        exact ⟨hstart.symm, hfinish.symm⟩
    · intro claim recordedAt via ruling ruling' hin hin'
      rcases List.mem_append.mp hin with h | h <;> rcases List.mem_append.mp hin' with h' | h'
      · exact hrulings _ _ _ _ _ h h'
      · obtain rfl := List.mem_singleton.mp h'
        exact hfits _ h
      · obtain rfl := List.mem_singleton.mp h
        exact (hfits _ h').symm
      · obtain rfl := List.mem_singleton.mp h
        exact (Record.admissibility.inj (List.mem_singleton.mp h')).2.2.2.symm

theorem window_mem_oriented {entity : EntityId} {recordedAt : Tick} {via : Hash}
    {start : WindowStart} {finish : WindowEnd} :
    .window entity recordedAt via start finish ∈ records.map Record.oriented ↔
      .window entity recordedAt via start finish ∈ records := by
  rw [List.mem_map]
  constructor
  · rintro ⟨r, hr, heq⟩
    cases r with
    | coOccurrence a b at_ via =>
      rw [Record.oriented] at heq
      split at heq <;> nomatch heq
    | window _ _ _ _ _ => exact heq ▸ hr
    | admissibility _ _ _ _ => nomatch heq
  · exact fun h => ⟨_, h, rfl⟩

theorem admissibility_mem_oriented {claim : ClaimType} {recordedAt : Tick} {via : Hash}
    {ruling : Ruling} : .admissibility claim recordedAt via ruling ∈ records.map Record.oriented ↔
      .admissibility claim recordedAt via ruling ∈ records := by
  rw [List.mem_map]
  constructor
  · rintro ⟨r, hr, heq⟩
    cases r with
    | coOccurrence a b at_ via =>
      rw [Record.oriented] at heq
      split at heq <;> nomatch heq
    | window _ _ _ _ _ => nomatch heq
    | admissibility _ _ _ _ => exact heq ▸ hr
  · exact fun h => ⟨_, h, rfl⟩

namespace Indexes
variable {s s' : Indexes}

/-- A record is added when it agrees with those that are there. -/
theorem Means.add_ok (h : s.Means (· ∈ records.map Record.oriented)) {r : Record} :
    (∃ s', s.add r = .ok s') ↔ r.Fits (· ∈ records) := by
  cases r with
  | coOccurrence a b at_ via =>
    rw [Indexes.add, Record.Fits]
    split
    · next heq => exact iff_of_false (by rintro ⟨s', hadd⟩; cases hadd) (fun hne => hne heq)
    · next hne => exact iff_of_true ⟨_, rfl⟩ hne
  | window entity recordedAt via start finish =>
    have hrecord : (∃ s', s.add (.window entity recordedAt via start finish) = .ok s') ↔
        ∃ index, record s.windows entity recordedAt via (start, finish) = .ok index := by
      constructor
      · rintro ⟨s', hadd⟩
        obtain ⟨index, hindex, -⟩ := Programs.bind_ok.mp hadd
        exact ⟨index, hindex⟩
      · rintro ⟨index, hindex⟩
        exact ⟨_, Programs.bind_ok.mpr ⟨index, hindex, rfl⟩⟩
    rw [hrecord]
    simp only [record_ok, h.windows, window_mem_oriented, Record.Fits, exists_and_left,
      exists_eq', and_true, Prod.forall, Prod.mk.injEq]
  | admissibility claim recordedAt via ruling =>
    have hrecord : (∃ s', s.add (.admissibility claim recordedAt via ruling) = .ok s') ↔
        ∃ index, record s.admissibility claim recordedAt via ruling = .ok index := by
      constructor
      · rintro ⟨s', hadd⟩
        obtain ⟨index, hindex, -⟩ := Programs.bind_ok.mp hadd
        exact ⟨index, hindex⟩
      · rintro ⟨index, hindex⟩
        exact ⟨_, Programs.bind_ok.mpr ⟨index, hindex, rfl⟩⟩
    rw [hrecord]
    simp only [record_ok, h.admissibility, admissibility_mem_oriented, Record.Fits,
      exists_and_left, exists_eq', and_true]

theorem project_means (h : records.foldlM Indexes.add .empty = .ok s) :
    s.Means (· ∈ records.map Record.oriented) := by
  induction records using List.reverseRecOn generalizing s with
  | nil =>
    obtain rfl := Except.ok.inj h
    exact means_empty.congr fun r => by simp
  | append_singleton records r ih =>
    rw [List.foldlM_append] at h
    obtain ⟨before, hbefore, h⟩ := Programs.bind_ok.mp h
    rw [List.foldlM_cons] at h
    obtain ⟨after, hadd, h⟩ := Programs.bind_ok.mp h
    obtain rfl := Except.ok.inj h
    exact ((ih hbefore).add hadd).congr fun q => by simp [eq_comm]

theorem project_ok : (∃ s, records.foldlM Indexes.add .empty = .ok s) ↔ Coherent records := by
  induction records using List.reverseRecOn with
  | nil => exact iff_of_true ⟨_, rfl⟩ ⟨nofun, nofun, nofun⟩
  | append_singleton records r ih =>
    rw [coherent_concat, ← ih]
    constructor
    · rintro ⟨s, h⟩
      rw [List.foldlM_append] at h
      obtain ⟨before, hbefore, h⟩ := Programs.bind_ok.mp h
      rw [List.foldlM_cons] at h
      obtain ⟨after, hadd, -⟩ := Programs.bind_ok.mp h
      exact ⟨⟨before, hbefore⟩, (project_means hbefore).add_ok.mp ⟨after, hadd⟩⟩
    · rintro ⟨⟨before, hbefore⟩, hfits⟩
      obtain ⟨after, hadd⟩ := (project_means hbefore).add_ok.mpr hfits
      refine ⟨after, ?_⟩
      rw [List.foldlM_append]
      refine Programs.bind_ok.mpr ⟨before, hbefore, ?_⟩
      rw [List.foldlM_cons, hadd]
      rfl

end Indexes

/-! ## The bytes of the digest -/

theorem tickField_inj {t t' : Tick} (h : tickField t = tickField t') : t = t' := by
  have hback := congrArg Tick.fromCanonBytes h
  rwa [tickField, tickField, Tick.fromCanonBytes_toCanonBytes,
    Tick.fromCanonBytes_toCanonBytes] at hback

theorem entityField_inj {x y : EntityId} (h : entityField x = entityField y) : x = y :=
  BitVec.toNat_inj.mp (beBytes_inj x.isLt y.isLt h)

theorem claimField_inj {x y : ClaimType} (h : beBytes 4 x.toNat = beBytes 4 y.toNat) : x = y :=
  BitVec.toNat_inj.mp (beBytes_inj x.isLt y.isLt h)

theorem tickField_length (t : Tick) : (tickField t).length = 32 := by
  rw [tickField, Tick.toCanonBytes_eq, beBytes_length]

theorem startFields_prefixFree : PrefixFree startFields := by
  intro a b x y h
  cases a <;> cases b
  · simp only [startFields, List.cons_append, List.nil_append, List.cons.injEq, true_and] at h
    exact ⟨by rw [tickField_inj h.1], h.2⟩
  · simp [startFields] at h
  · simp [startFields] at h
  · simp only [startFields, List.cons_append, List.nil_append, List.cons.injEq, true_and] at h
    exact ⟨rfl, h⟩

theorem endFields_prefixFree : PrefixFree endFields := by
  intro a b x y h
  cases a <;> cases b
  case knownClosed.knownClosed =>
    simp only [endFields, List.cons_append, List.nil_append, List.cons.injEq, true_and] at h
    exact ⟨by rw [tickField_inj h.1], h.2⟩
  all_goals simp [endFields] at h ⊢
  all_goals exact h

theorem rulingFields_prefixFree : PrefixFree rulingFields := by
  intro a b x y h
  cases a <;> cases b
  · simp only [rulingFields, List.cons_append, List.nil_append, List.cons.injEq, true_and] at h
    exact ⟨rfl, h⟩
  · simp [rulingFields] at h
  · simp [rulingFields] at h
  · simp only [rulingFields, List.cons_append, List.nil_append, List.cons.injEq, true_and] at h
    exact ⟨by rw [tickField_inj h.1], h.2⟩

theorem pairFields_prefixFree : PrefixFree pairFields := by
  rintro ⟨lo, hi, at_, via⟩ ⟨lo', hi', at', via'⟩ x y h
  simp only [pairFields, List.cons_append, List.nil_append, List.cons.injEq] at h
  obtain ⟨hlo, hhi, hat, hvia, hrest⟩ := h
  rw [entityField_inj hlo, entityField_inj hhi, tickField_inj hat, V1.hashBytes_injective hvia]
  exact ⟨rfl, hrest⟩

theorem windowFields_prefixFree : PrefixFree windowFields := by
  rintro ⟨entity, ⟨recordedAt, via⟩, start, finish⟩ ⟨entity', ⟨recordedAt', via'⟩, start', finish'⟩
    x y h
  simp only [windowFields, List.append_assoc, List.cons_append, List.nil_append,
    List.cons.injEq] at h
  obtain ⟨hentity, hat, hvia, hrest⟩ := h
  obtain ⟨rfl, hends⟩ := startFields_prefixFree hrest
  obtain ⟨rfl, hlast⟩ := endFields_prefixFree hends
  rw [entityField_inj hentity, tickField_inj hat, V1.hashBytes_injective hvia]
  exact ⟨rfl, hlast⟩

theorem claimFields_prefixFree : PrefixFree claimFields := by
  rintro ⟨claim, ⟨recordedAt, via⟩, ruling⟩ ⟨claim', ⟨recordedAt', via'⟩, ruling'⟩ x y h
  simp only [claimFields, List.cons_append, List.nil_append, List.cons.injEq] at h
  obtain ⟨hclaim, hat, hvia, hrest⟩ := h
  obtain ⟨rfl, hlast⟩ := rulingFields_prefixFree hrest
  rw [claimField_inj hclaim, tickField_inj hat, V1.hashBytes_injective hvia]
  exact ⟨rfl, hlast⟩

/-- The fields of a section are not as long as the name of the next. -/
theorem pairField_length {pairs : List Pair} :
    ∀ x ∈ pairs.flatMap pairFields, x.length = 8 ∨ x.length = 32 := by
  intro x hx
  obtain ⟨p, -, hx⟩ := List.mem_flatMap.mp hx
  simp only [pairFields, List.mem_cons, List.not_mem_nil, or_false] at hx
  rcases hx with rfl | rfl | rfl | rfl
  all_goals simp [entityField, hashBytes, tickField_length, beBytes_length]

theorem startField_length {start : WindowStart} :
    ∀ x ∈ startFields start, x.length = 1 ∨ x.length = 32 := by
  cases start <;> simp [startFields, tickField_length]

theorem endField_length {finish : WindowEnd} :
    ∀ x ∈ endFields finish, x.length = 1 ∨ x.length = 32 := by
  cases finish <;> simp [endFields, tickField_length]

theorem rulingField_length {ruling : Ruling} :
    ∀ x ∈ rulingFields ruling, x.length = 1 ∨ x.length = 32 := by
  cases ruling <;> simp [rulingFields, tickField_length]

theorem windowField_length {windows : List (EntityId × Evidence × (WindowStart × WindowEnd))} :
    ∀ x ∈ windows.flatMap windowFields, x.length = 8 ∨ x.length = 1 ∨ x.length = 32 := by
  intro x hx
  obtain ⟨row, -, hx⟩ := List.mem_flatMap.mp hx
  rw [windowFields, List.mem_append, List.mem_append] at hx
  rcases hx with (hx | hx) | hx
  · simp only [List.mem_cons, List.not_mem_nil, or_false] at hx
    rcases hx with rfl | rfl | rfl
    all_goals simp [entityField, hashBytes, tickField_length, beBytes_length]
  · exact .inr (startField_length x hx)
  · exact .inr (endField_length x hx)

theorem claimField_length {claims : List (ClaimType × Evidence × Ruling)} :
    ∀ x ∈ claims.flatMap claimFields, x.length = 4 ∨ x.length = 1 ∨ x.length = 32 := by
  intro x hx
  obtain ⟨row, -, hx⟩ := List.mem_flatMap.mp hx
  rw [claimFields, List.mem_append] at hx
  rcases hx with hx | hx
  · simp only [List.mem_cons, List.not_mem_nil, or_false] at hx
    rcases hx with rfl | rfl | rfl
    all_goals simp [hashBytes, tickField_length, beBytes_length]
  · exact .inr (rulingField_length x hx)

theorem Indexes.field_length (s : Indexes) : ∀ x ∈ s.fields, x.length < 2 ^ 32 := by
  intro x hx
  rw [Indexes.fields, List.mem_append, List.mem_append, List.mem_cons, List.mem_cons, List.mem_cons,
    List.mem_cons] at hx
  rcases hx with ((rfl | rfl | hx) | rfl | hx) | rfl | hx
  · decide
  · decide
  · have hlen := pairField_length x hx
    omega
  · decide
  · have hlen := windowField_length x hx
    omega
  · decide
  · have hlen := claimField_length x hx
    omega

/-- The bytes show the pairs and the rows of both indexes. -/
theorem Indexes.preimage_inj {s s' : Indexes} (h : s.preimage = s'.preimage) :
    s.cooccurrence.toList = s'.cooccurrence.toList ∧ rows s.windows = rows s'.windows ∧
      rows s.admissibility = rows s'.admissibility := by
  have hfields := frames_inj s.field_length s'.field_length h
  rw [Indexes.fields, Indexes.fields] at hfields
  simp only [List.cons_append, List.append_assoc, List.cons.injEq, true_and] at hfields
  obtain ⟨hpairs, hwindows⟩ := append_cons_inj (fun x : Bytes => x.length = 7)
    (fun x hx => by have hlen := pairField_length x hx; omega)
    (fun x hx => by have hlen := pairField_length x hx; omega) (by decide) (by decide) hfields
  obtain ⟨hrows, hclaims⟩ := append_cons_inj (fun x : Bytes => x.length = 13)
    (fun x hx => by have hlen := windowField_length x hx; omega)
    (fun x hx => by have hlen := windowField_length x hx; omega) (by decide) (by decide)
    (List.cons.inj hwindows).2
  refine ⟨?_, ?_, ?_⟩
  · exact pairFields_prefixFree.flatMap_injective (fun _ => List.cons_ne_nil _ _) hpairs
  · exact windowFields_prefixFree.flatMap_injective (fun _ => List.cons_ne_nil _ _) hrows
  · exact claimFields_prefixFree.flatMap_injective (fun _ => List.cons_ne_nil _ _)
      (List.cons.inj hclaims).2

/-! ## The record set -/

theorem oriented_idem (r : Record) : r.oriented.oriented = r.oriented := by
  cases r with
  | coOccurrence a b at_ via =>
    rw [Record.oriented]
    by_cases hab : a.slt b
    · rw [if_pos hab, Record.oriented, if_pos hab]
    · rw [if_neg hab, Record.oriented]
      by_cases hba : b.slt a
      · rw [if_pos hba]
      · rw [BitVec.slt_iff_toInt_lt] at hab hba
        obtain rfl : a = b := BitVec.toInt_inj.mp (by omega)
        exact ite_self _
  | window _ _ _ _ _ => rfl
  | admissibility _ _ _ _ => rfl

theorem Coherent.oriented (h : Coherent records) : Coherent (records.map Record.oriented) where
  distinct := by
    intro a b at_ via hmem
    obtain ⟨r, hr, heq⟩ := List.mem_map.mp hmem
    cases r with
    | coOccurrence a' b' at' via' =>
      have hne := h.distinct _ _ _ _ hr
      rw [Record.oriented] at heq
      split at heq
      · obtain ⟨rfl, rfl, -, -⟩ := Record.coOccurrence.inj heq
        exact hne
      · obtain ⟨rfl, rfl, -, -⟩ := Record.coOccurrence.inj heq
        exact hne.symm
    | window _ _ _ _ _ => nomatch heq
    | admissibility _ _ _ _ => nomatch heq
  windows := by
    intro entity recordedAt via start finish start' finish' hin hin'
    rw [window_mem_oriented] at hin hin'
    exact h.windows _ _ _ _ _ _ _ hin hin'
  rulings := by
    intro claim recordedAt via ruling ruling' hin hin'
    rw [admissibility_mem_oriented] at hin hin'
    exact h.rulings _ _ _ _ _ hin hin'

theorem Coherent.congr (h : Coherent records) (hsame : ∀ r, r ∈ records' ↔ r ∈ records) :
    Coherent records' where
  distinct := fun a b at_ via hin => h.distinct a b at_ via ((hsame _).mp hin)
  windows := fun _ _ _ _ _ _ _ hin hin' =>
    h.windows _ _ _ _ _ _ _ ((hsame _).mp hin) ((hsame _).mp hin')
  rulings := fun _ _ _ _ _ hin hin' => h.rulings _ _ _ _ _ ((hsame _).mp hin) ((hsame _).mp hin')

namespace Indexes
variable {s s' : Indexes} {R : Record → Prop}

theorem Means.mem_records (h : s.Means R) {r : Record} : r ∈ s.records ↔ R r := by
  rw [Indexes.records, List.mem_append, List.mem_append, List.mem_map, List.mem_map, List.mem_map]
  constructor
  · rintro ((⟨p, hp, rfl⟩ | ⟨row, hrow, rfl⟩) | ⟨row, hrow, rfl⟩)
    · exact (h.cooccurrence p).mp (Std.ExtTreeSet.mem_toList.mp hp)
    · exact (h.windows _ _ _).mp (mem_rows.mp hrow)
    · exact (h.admissibility _ _ _).mp (mem_rows.mp hrow)
  · intro hr
    cases r with
    | coOccurrence a b at_ via =>
      have hp := (h.cooccurrence ⟨a, b, at_, via⟩).mpr hr
      exact .inl (.inl ⟨_, Std.ExtTreeSet.mem_toList.mpr hp, rfl⟩)
    | window entity recordedAt via start finish =>
      have hrow := (h.windows entity (recordedAt, via) (start, finish)).mpr hr
      exact .inl (.inr ⟨_, mem_rows.mpr hrow, rfl⟩)
    | admissibility claim recordedAt via ruling =>
      have hrow := (h.admissibility claim (recordedAt, via) ruling).mpr hr
      exact .inr ⟨_, mem_rows.mpr hrow, rfl⟩

/-- Corpora with the same bytes have the same records. -/
theorem records_of_preimage (h : s.preimage = s'.preimage) : s.records = s'.records := by
  obtain ⟨hpairs, hwindows, hclaims⟩ := preimage_inj h
  rw [Indexes.records, Indexes.records, hpairs, hwindows, hclaims]

end Indexes

theorem fromRecords_ok {cr : V1.Crypto} {c : SnapshotCorpus} : fromRecords cr records = .ok c ↔
    records.foldlM Indexes.add .empty = .ok c.toIndexes ∧
      c.digest = cr.sha256 c.preimage := by
  rw [fromRecords, Programs.bind_ok]
  constructor
  · rintro ⟨s, hs, hc⟩
    obtain rfl := Except.ok.inj hc
    exact ⟨hs, rfl⟩
  · rintro ⟨hs, hdigest⟩
    refine ⟨c.toIndexes, hs, ?_⟩
    rw [← hdigest]
    rfl

/-- Record lists with the same records, co-occurrences taken both ways, have the same corpus. -/
theorem fromRecords_same {cr : V1.Crypto} {c : SnapshotCorpus} (h : fromRecords cr records = .ok c)
    (hcoherent : Coherent records')
    (hsame : ∀ r, r ∈ records'.map Record.oriented ↔ r ∈ records.map Record.oriented) :
    fromRecords cr records' = .ok c := by
  obtain ⟨hs, hdigest⟩ := fromRecords_ok.mp h
  obtain ⟨s', hs'⟩ := Indexes.project_ok.mpr hcoherent
  have heq := ((Indexes.project_means hs').congr hsame).unique (Indexes.project_means hs)
  exact fromRecords_ok.mpr ⟨heq ▸ hs', hdigest⟩

theorem snapshot_set (cr : V1.Crypto) (records : List Record) :
    ((∃ c, fromRecords cr records = .ok c) ↔ Coherent records) ∧
    ∀ c, fromRecords cr records = .ok c →
      (∀ records', (∀ r, r ∈ records' ↔ r ∈ records) → fromRecords cr records' = .ok c) ∧
      (∀ records' c', fromRecords cr records' = .ok c' → c'.preimage = c.preimage →
        ∀ r, r ∈ records'.map Record.oriented ↔ r ∈ records.map Record.oriented) ∧
      fromRecords cr c.records = .ok c := by
  have hok : (∃ c, fromRecords cr records = .ok c) ↔ Coherent records := by
    rw [← Indexes.project_ok]
    constructor
    · rintro ⟨c, h⟩
      exact ⟨_, (fromRecords_ok.mp h).1⟩
    · rintro ⟨s, hs⟩
      exact ⟨⟨s, cr.sha256 s.preimage⟩, fromRecords_ok.mpr ⟨hs, rfl⟩⟩
  refine ⟨hok, fun c h => ?_⟩
  have hcoherent : Coherent records := hok.mp ⟨c, h⟩
  have hmeans := Indexes.project_means (fromRecords_ok.mp h).1
  have hrecords : ∀ r, r ∈ c.records ↔ r ∈ records.map Record.oriented := fun r =>
    hmeans.mem_records
  refine ⟨fun records' hsame => ?_, fun records' c' h' hbytes r => ?_, ?_⟩
  · refine fromRecords_same h (hcoherent.congr hsame) fun r => ?_
    rw [List.mem_map, List.mem_map]
    exact exists_congr fun q => and_congr_left fun _ => hsame q
  · have hmeans' := Indexes.project_means (fromRecords_ok.mp h').1
    rw [← hmeans'.mem_records, ← hmeans.mem_records, Indexes.records_of_preimage hbytes]
  · refine fromRecords_same h (hcoherent.oriented.congr hrecords) fun r => ?_
    constructor
    · intro hr
      obtain ⟨q, hq, rfl⟩ := List.mem_map.mp hr
      obtain ⟨q', hq', rfl⟩ := List.mem_map.mp ((hrecords q).mp hq)
      rw [oriented_idem]
      exact List.mem_map.mpr ⟨q', hq', rfl⟩
    · intro hr
      refine List.mem_map.mpr ⟨r, (hrecords r).mpr hr, ?_⟩
      obtain ⟨q, -, rfl⟩ := List.mem_map.mp hr
      exact oriented_idem q

namespace SnapshotSample

def crypto : V1.Crypto := ⟨fun _ => 0, fun _ => true⟩

/-- Two different record sets are one corpus: the pair is written from both sides. -/
theorem mirrored : ∃ c, fromRecords crypto [.coOccurrence 1 2 0 0] = .ok c ∧
    fromRecords crypto [.coOccurrence 2 1 0 0] = .ok c ∧
    ¬ ∀ r, r ∈ [Record.coOccurrence 1 2 0 0] ↔ r ∈ [Record.coOccurrence 2 1 0 0] := by
  refine ⟨_, rfl, rfl, fun hsame => ?_⟩
  exact absurd ((hsame (.coOccurrence 1 2 0 0)).mp List.mem_cons_self) (by decide)

end SnapshotSample

end Clockchain.V0
