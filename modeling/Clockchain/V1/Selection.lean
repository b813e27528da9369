import Clockchain.V1.Cones

/-!
# What an event selects

Walking up from an event, past the controls, ends at the one event whose revision it
selects: itself, an ancestor it names, or what its parent selects. `selections` and
`body` follow this walk.
-/

namespace Clockchain.V1
open Relation Maps Programs
set_option autoImplicit false

/-- The revision a selecting Resolve names. -/
def Payload.chosen : Payload → Option Hash
  | .resolve (.revision revision) _ _ => some revision
  | _ => none

/-! ## Revision records -/

section
variable {cr : Crypto} {C : Candidates}

theorem revisionOf_some {c : Hash} {s : Signed} {r : Revision}
    (h : revisionOf cr c s = some r) : r.id = revisionId cr (subjectOf c s) c ∧
      r.creatingEvent = c ∧ r.subject = subjectOf c s ∧
      s.envelope.payload.newBody = some r.body := by
  rw [revisionOf, Option.map_eq_some_iff] at h
  obtain ⟨body, hbody, rfl⟩ := h
  exact ⟨rfl, rfl, rfl, hbody⟩

theorem revisions_get (free : CollisionFree cr C) {r : Hash} {rev : Revision} :
    (revisions cr C)[r]? = some rev ↔
      ∃ c s, C[c]? = some s ∧ revisionOf cr c s = some rev ∧ rev.id = r := by
  have hnodup : ((C.toList.filterMap fun item => revisionOf cr item.1 item.2).map
      fun r => (r.id, r)).map Prod.fst |>.Nodup := by
    rw [List.map_map, List.Nodup, List.pairwise_map, List.pairwise_filterMap]
    refine (List.pairwise_map.mp (nodup_fst_toList C)).imp_of_mem ?_
    rintro ⟨a, s⟩ ⟨b, t⟩ ha hb hne q hq r hr heq
    obtain ⟨hqid, _⟩ := revisionOf_some hq
    obtain ⟨hrid, _⟩ := revisionOf_some hr
    refine hne (free.revision_inj (Std.ExtTreeMap.mem_toList_iff_getElem?_eq_some.mp ha)
      (Std.ExtTreeMap.mem_toList_iff_getElem?_eq_some.mp hb) ?_)
    rw [← hqid, ← hrid]
    exact heq
  rw [revisions, getElem?_ofList hnodup, List.mem_map]
  constructor
  · rintro ⟨q, hq, heq⟩
    obtain ⟨⟨c, s⟩, hs, hrev⟩ := List.mem_filterMap.mp hq
    obtain ⟨rfl, rfl⟩ := Prod.mk.inj heq
    exact ⟨c, s, Std.ExtTreeMap.mem_toList_iff_getElem?_eq_some.mp hs, hrev, rfl⟩
  · rintro ⟨c, s, hs, hrev, rfl⟩
    exact ⟨rev, List.mem_filterMap.mpr
      ⟨(c, s), Std.ExtTreeMap.mem_toList_iff_getElem?_eq_some.mpr hs, hrev⟩, rfl⟩

/-- The record of an event that binds a body. -/
theorem revisions_created (free : CollisionFree cr C) {c : Hash} {s : Signed} {body : Hash}
    (hs : C[c]? = some s) (hbody : s.envelope.payload.newBody = some body) :
    ∃ rev, (revisions cr C)[revisionId cr (subjectOf c s) c]? = some rev ∧
      rev.creatingEvent = c ∧ rev.body = body :=
  ⟨_, (revisions_get free).mpr ⟨c, s, hs, by rw [revisionOf, hbody]; rfl, rfl⟩, rfl, rfl⟩

end

/-! ## The walk to the creating event -/

/-- `e` selects the revision that `c` created. -/
inductive Selects (cr : Crypto) (W : Candidates) : Hash → Hash → Prop where
  | create {e : Hash} {s : Signed} : W[e]? = some s → s.envelope.payload.newBody.isSome →
      Selects cr W e e
  | choose {e c r : Hash} {s t : Signed} : W[e]? = some s → s.envelope.payload.chosen = some r →
      W[c]? = some t → t.envelope.payload.newBody.isSome →
      revisionId cr (subjectOf c t) c = r → Selects cr W e c
  | keep {e p c : Hash} {s : Signed} : W[e]? = some s → s.envelope.payload.newBody = none →
      s.envelope.payload.chosen = none → (parentsOf s)[0]? = some p → Selects cr W p c →
      Selects cr W e c

theorem newBody_chosen {p : Payload} {b r : Hash} (hb : p.newBody = some b)
    (hr : p.chosen = some r) : False := by
  unfold Payload.chosen at hr
  split at hr
  · simp [Payload.newBody] at hb
  · simp at hr

theorem Selects.creator {cr : Crypto} {W : Candidates} {e c : Hash} (h : Selects cr W e c) :
    ∃ t, W[c]? = some t ∧ t.envelope.payload.newBody.isSome := by
  induction h with
  | create hs hb => exact ⟨_, hs, hb⟩
  | choose _ _ ht hb _ => exact ⟨_, ht, hb⟩
  | keep _ _ _ _ _ ih => exact ih

theorem Selects.unique {cr : Crypto} {W : Candidates} (free : CollisionFree cr W) {e c d : Hash}
    (hc : Selects cr W e c) (hd : Selects cr W e d) : c = d := by
  induction hc with
  | create hs hb =>
    obtain ⟨b, hb⟩ := Option.isSome_iff_exists.mp hb
    cases hd with
    | create _ _ => rfl
    | choose hs' hr _ _ _ =>
      obtain rfl := Option.some.inj (hs.symm.trans hs')
      exact (newBody_chosen hb hr).elim
    | keep hs' hnone _ _ _ =>
      obtain rfl := Option.some.inj (hs.symm.trans hs')
      simp [hb] at hnone
  | choose hs hr ht _ hid =>
    cases hd with
    | create hs' hb =>
      obtain rfl := Option.some.inj (hs.symm.trans hs')
      obtain ⟨b, hb⟩ := Option.isSome_iff_exists.mp hb
      exact (newBody_chosen hb hr).elim
    | choose hs' hr' ht' _ hid' =>
      obtain rfl := Option.some.inj (hs.symm.trans hs')
      obtain rfl := Option.some.inj (hr.symm.trans hr')
      exact free.revision_inj ht ht' (hid.trans hid'.symm)
    | keep hs' _ hnone _ _ =>
      obtain rfl := Option.some.inj (hs.symm.trans hs')
      simp [hr] at hnone
  | keep hs hnone hchosen hp _ ih =>
    cases hd with
    | create hs' hb =>
      obtain rfl := Option.some.inj (hs.symm.trans hs')
      simp [hnone] at hb
    | choose hs' hr _ _ _ =>
      obtain rfl := Option.some.inj (hs.symm.trans hs')
      simp [hr] at hchosen
    | keep hs' _ _ hp' hd =>
      obtain rfl := Option.some.inj (hs.symm.trans hs')
      obtain rfl := Option.some.inj (hp.symm.trans hp')
      exact ih hd

namespace Branch
variable {cr : Crypto} {C W : Candidates} (branch : Branch cr C W)
include branch

theorem free_within : CollisionFree cr W where
  root_inj ha hb := branch.free.root_inj (branch.within.mem ha) (branch.within.mem hb)
  root_fresh ha hb := branch.free.root_fresh (branch.within.mem ha) (branch.within.mem hb)
  revision_inj ha hb := branch.free.revision_inj (branch.within.sub ha) (branch.within.sub hb)

/-- A selecting Resolve names a revision created in its strict past. -/
theorem chosen_before {e r : Hash} {s : Signed} (hs : W[e]? = some s)
    (hr : s.envelope.payload.chosen = some r) : ∃ c t, (history cr W).Before c e ∧
      W[c]? = some t ∧ t.envelope.payload.newBody.isSome ∧
      revisionId cr (subjectOf c t) c = r := by
  unfold Payload.chosen at hr
  split at hr
  case h_2 => simp at hr
  case h_1 r' ds d hp =>
    obtain rfl := Option.some.inj hr
    obtain ⟨c, t, hbefore, ht, hbody, hid⟩ := (branch.law hs).selects hp
    obtain ⟨hc, hbefore'⟩ :=
      branch.within.before_lift branch.closed (mem_of_getElem? hs) hbefore
    exact ⟨c, t, hbefore', branch.within.get hc ht, hbody, hid⟩

/-- An event that neither binds a body nor names a revision has a single parent. -/
theorem control_parent {e : Hash} {s : Signed} (hs : W[e]? = some s)
    (hbody : s.envelope.payload.newBody = none) (hchosen : s.envelope.payload.chosen = none) :
    ∃ p, parentsOf s = [p] := by
  apply branch.single_parent hs
  · cases hp : s.envelope.payload <;> simp [hp, Payload.newBody, Payload.kind] at hbody ⊢
  · intro hkind
    cases hp : s.envelope.payload with
    | resolve selection ds d =>
      cases selection <;> simp [hp, Payload.newBody, Payload.chosen] at hbody hchosen
    | _ => simp [hp, Payload.kind] at hkind

theorem selects_exists {e : Hash} (he : e ∈ W) :
    ∃ c, Selects cr W e c ∧ (history cr W).Anc c e := by
  induction e using branch.wellFounded.induction with
  | _ e ih =>
    obtain ⟨s, hs⟩ := mem_iff.mp he
    cases hbody : s.envelope.payload.newBody with
    | some b => exact ⟨e, .create hs (by simp [hbody]), ReflTransGen.refl⟩
    | none =>
      cases hchosen : s.envelope.payload.chosen with
      | some r =>
        obtain ⟨c, t, hbefore, ht, hb, hid⟩ := branch.chosen_before hs hchosen
        exact ⟨c, .choose hs hchosen ht hb hid, hbefore.anc⟩
      | none =>
        obtain ⟨p, hp⟩ := branch.control_parent hs hbody hchosen
        have hpar : (history cr W).parent p e := (parent_iff hs).mpr (by simp [hp])
        obtain ⟨c, hc, hanc⟩ := ih p hpar (branch.closed.parent hs (by simp [hp]))
        exact ⟨c, .keep hs hbody hchosen (by simp [hp]) hc, hanc.tail hpar⟩

theorem selects_anc {e c : Hash} (he : e ∈ W) (h : Selects cr W e c) :
    (history cr W).Anc c e := by
  obtain ⟨d, hd, hanc⟩ := branch.selects_exists he
  rwa [h.unique branch.free_within hd]

end Branch

/-! ## The two readings of the walk -/

/-- A state of the loop of `selections`. -/
structure Selected (cr : Crypto) (W : Candidates) (out : BTreeMap Hash) : Prop where
  mem : ∀ e ∈ out, e ∈ W
  created : ∀ {e r : Hash}, out[e]? = some r →
    ∃ c t, Selects cr W e c ∧ W[c]? = some t ∧ r = revisionId cr (subjectOf c t) c

theorem Selected.get {cr : Crypto} {W : Candidates} {out : BTreeMap Hash}
    (h : Selected cr W out) (free : CollisionFree cr W) {e c r : Hash} {t : Signed}
    (he : out[e]? = some r) (hc : Selects cr W e c) (ht : W[c]? = some t) :
    r = revisionId cr (subjectOf c t) c := by
  obtain ⟨d, u, hd, hu, rfl⟩ := h.created he
  obtain rfl := hc.unique free hd
  rw [Option.some.inj (ht.symm.trans hu)]

namespace Branch
variable {cr : Crypto} {C W : Candidates} (branch : Branch cr C W)
include branch

theorem selectedBy_spec {out : BTreeMap Hash} (inv : Selected cr W out) {e : Hash} {s : Signed}
    (hs : W[e]? = some s) (hready : ∀ q ∈ parentsOf s, q ∈ out) :
    ∃ r, selectedBy cr out e s = some r ∧
      ∃ c t, Selects cr W e c ∧ W[c]? = some t ∧ r = revisionId cr (subjectOf c t) c := by
  have hcontrol (hbody : s.envelope.payload.newBody = none)
      (hchosen : s.envelope.payload.chosen = none) :
      ∃ r, (do let parent ← (parentsOf s)[0]?; out[parent]?) = some r ∧
        ∃ c t, Selects cr W e c ∧ W[c]? = some t ∧ r = revisionId cr (subjectOf c t) c := by
    obtain ⟨p, hp⟩ := branch.control_parent hs hbody hchosen
    obtain ⟨r, hr⟩ := mem_iff.mp (hready p (by simp [hp]))
    obtain ⟨c, t, hc, ht, heq⟩ := inv.created hr
    exact ⟨r, by simp [hp, hr], c, t, .keep hs hbody hchosen (by simp [hp]) hc, ht, heq⟩
  unfold selectedBy
  split
  case h_1 hp => exact ⟨_, rfl, e, s, .create hs (by simp [hp, Payload.newBody]), hs, rfl⟩
  case h_2 hp => exact ⟨_, rfl, e, s, .create hs (by simp [hp, Payload.newBody]), hs, rfl⟩
  case h_3 hp => exact ⟨_, rfl, e, s, .create hs (by simp [hp, Payload.newBody]), hs, rfl⟩
  case h_4 r ds d hp =>
    have hchosen : s.envelope.payload.chosen = some r := by simp [hp, Payload.chosen]
    obtain ⟨c, t, _, ht, hb, hid⟩ := branch.chosen_before hs hchosen
    exact ⟨r, rfl, c, t, .choose hs hchosen ht hb hid, ht, hid.symm⟩
  case h_5 h1 h2 h3 h4 =>
    cases hp : s.envelope.payload with
    | genesis nonce body evidence => exact absurd hp (h1 nonce body evidence)
    | correction body d => exact absurd hp (h2 body d)
    | resolve selection ds d =>
      cases selection with
      | revision r => exact absurd hp (h4 r ds d)
      | mergedBody b => exact absurd hp (h3 b ds d)
    | _ => exact hcontrol (by simp [hp, Payload.newBody]) (by simp [hp, Payload.chosen])

theorem selections_scheduler : Scheduler W.toList (selectionStep cr) Prod.fst (Selected cr W)
    (fun out k => k ∈ out) (fun out item => ∀ q ∈ parentsOf item.2, q ∈ out) where
  skip := by
    rintro out ⟨e, s⟩ _ _ hidle
    have hguard : (out.contains e || (parentsOf s).any fun q => !out.contains q) = true := by
      rcases hidle with h | h
      · simp [contains_iff.mpr h]
      · simpa using Or.inr h
    simp [selectionStep, hguard]
  work := by
    rintro out ⟨e, s⟩ hmem inv hnew hready
    have hs := Std.ExtTreeMap.mem_toList_iff_getElem?_eq_some.mp hmem
    obtain ⟨r, hr, hcreated⟩ := branch.selectedBy_spec inv hs hready
    have hguard : (out.contains e || (parentsOf s).any fun q => !out.contains q) = false := by
      simpa [hnew] using hready
    refine ⟨out.insert e r, by simp [selectionStep, hguard, hr], ⟨?_, ?_⟩, ?_⟩
    · intro k hk
      rcases mem_map_insert.mp hk with rfl | hk
      · exact mem_of_getElem? hs
      · exact inv.mem k hk
    · intro k r' hk
      rw [getElem?_insert] at hk
      split at hk
      case isTrue heq =>
        subst heq
        rwa [← Option.some.inj hk]
      case isFalse => exact inv.created hk
    · intro k
      rw [mem_map_insert, or_comm]
  mono := fun _ _ _ _ _ _ hgrow hready q hq => hgrow q (hready q hq)

theorem selections_spec : ∃ out, selections cr W = some out ∧ Selected cr W out ∧
    ∀ e ∈ W, e ∈ out :=
  branch.settle branch.selections_scheduler (fun out => out.size < W.size)
    (by
      intro out inv
      rw [decide_eq_true_eq, size_lt_iff inv.mem])
    ⟨by simp, by simp⟩

omit branch in
theorem bodyFrom_create {e : Hash} {s : Signed} {b : Hash} (hs : C[e]? = some s)
    (hb : s.envelope.payload.newBody = some b) (fuel : Nat) :
    bodyFrom cr C (fuel + 1) e = some b := by
  simp only [bodyFrom, hs, Option.bind_eq_bind, Option.bind_some]
  unfold Payload.newBody at hb
  split at hb
  case h_4 => simp at hb
  all_goals simp_all

omit branch in
theorem bodyFrom_choose {e r : Hash} {s : Signed} {rev : Revision} (hs : C[e]? = some s)
    (hr : s.envelope.payload.chosen = some r) (hrev : (revisions cr C)[r]? = some rev)
    (fuel : Nat) : bodyFrom cr C (fuel + 1) e = some rev.body := by
  simp only [bodyFrom, hs, Option.bind_eq_bind, Option.bind_some]
  unfold Payload.chosen at hr
  split at hr
  case h_1 hp =>
    obtain rfl := Option.some.inj hr
    simp [hp, hrev]
  case h_2 => simp at hr

omit branch in
theorem bodyFrom_keep {e p : Hash} {s : Signed} (hs : C[e]? = some s)
    (hbody : s.envelope.payload.newBody = none) (hchosen : s.envelope.payload.chosen = none)
    (hp : (parentsOf s)[0]? = some p) (fuel : Nat) :
    bodyFrom cr C (fuel + 1) e = bodyFrom cr C fuel p := by
  simp only [bodyFrom, hs, Option.bind_eq_bind, Option.bind_some]
  split
  case h_5 => simp [hp]
  all_goals simp_all [Payload.newBody, Payload.chosen]

theorem past_card_pos {e : Hash} (he : e ∈ W) : 0 < {a | (history cr W).Anc a e}.ncard :=
  (Set.ncard_pos (branch.lawful.past_finite he)).mpr ⟨e, ReflTransGen.refl⟩

theorem past_card_lt {p e : Hash} (he : e ∈ W) (hp : (history cr W).parent p e) :
    {a | (history cr W).Anc a p}.ncard < {a | (history cr W).Anc a e}.ncard := by
  apply Set.ncard_lt_ncard _ (branch.lawful.past_finite he)
  refine ⟨fun a ha => ha.tail hp, fun hsub => ?_⟩
  exact branch.lawful.before_irrefl e
    (History.before_iff.mpr ⟨p, hsub ReflTransGen.refl, hp⟩)

/-- `body` reads the body of the creating event. -/
theorem bodyFrom_spec {e c : Hash} (he : e ∈ W) (hc : Selects cr W e c) {t : Signed} {b : Hash}
    (ht : W[c]? = some t) (hb : t.envelope.payload.newBody = some b) {fuel : Nat}
    (hfuel : {a | (history cr W).Anc a e}.ncard ≤ fuel) : bodyFrom cr C fuel e = some b := by
  obtain ⟨n, rfl⟩ : ∃ n, fuel = n + 1 :=
    Nat.exists_eq_succ_of_ne_zero (by have := branch.past_card_pos he; omega)
  induction hc generalizing n with
  | create => exact bodyFrom_create (branch.within.sub ht) hb n
  | @choose e c r s u hs hr _ _ hid =>
    obtain ⟨rev, hrev, _, hbody⟩ := revisions_created branch.free (branch.within.sub ht) hb
    have hu : u = t := Option.some.inj (‹W[c]? = some u›.symm.trans ht)
    rw [← hu, hid] at hrev
    rw [bodyFrom_choose (branch.within.sub hs) hr hrev, hbody]
  | @keep e p c s hs hbody hchosen hp _ ih =>
    have hpar : p ∈ parentsOf s := List.mem_of_getElem? hp
    have hlt := branch.past_card_lt he ((parent_iff hs).mpr hpar)
    have hpW := branch.closed.parent hs hpar
    obtain ⟨m, rfl⟩ : ∃ m, n = m + 1 :=
      Nat.exists_eq_succ_of_ne_zero (by have := branch.past_card_pos hpW; omega)
    rw [bodyFrom_keep (branch.within.sub hs) hbody hchosen hp]
    exact ih hpW ht m (by omega)

theorem body_spec {e c : Hash} (he : e ∈ W) (hc : Selects cr W e c) {t : Signed} {b : Hash}
    (ht : W[c]? = some t) (hb : t.envelope.payload.newBody = some b) : body cr C e = some b := by
  refine branch.bodyFrom_spec he hc ht hb (ncard_le_size fun a ha => ?_)
  exact branch.within.mem (branch.lawful.anc_mem ha he)

end Branch

end Clockchain.V1
