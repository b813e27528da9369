import Clockchain.Gateway.Cache
import Clockchain.Queues
import Mathlib.Data.List.Perm.Basic

/-!
# Recency of the response cache

The cache of `cc-gateway/src/cache.rs` is a queue: what was used last comes last, and a new entry
makes room from the front. Its counters are natural numbers here: no run makes 2^64 calls, and no
memory holds 2^64 bytes.
-/

namespace Clockchain.Gateway
open Queues Std
set_option autoImplicit false

/-- How many bytes an entry takes with its key. -/
def weigh {β : Type} [Sized β] (p : String × Entry β) : Nat :=
  p.1.utf8ByteSize + Sized.size p.2.body

/-! ## Calls -/

inductive Call (β : Type) where
  | observe (digest : String) (requested : Nat)
  | get (digest key : String)
  | put (digest key : String) (e : Entry β)

namespace Cache
variable {β : Type}

def call [Sized β] (c : Cache β) : Call β → Cache β
  | .observe digest requested => c.observe digest requested
  | .get digest key => (c.get digest key).2
  | .put digest key e => c.put digest key e

def run [Sized β] (c : Cache β) (calls : List (Call β)) : Cache β := calls.foldl call c

/-- The entry under the key. -/
def entryAt (c : Cache β) (key : String) : Option (Entry β) := c.entries[key]?.map Prod.fst

/-- The entries in the order of their last uses. -/
def uses (c : Cache β) : List (String × Entry β) :=
  c.order.toList.filterMap fun p => (c.entryAt p.2).map fun e => (p.2, e)

/-- An entry and its last use are gone. -/
def without (c : Cache β) (used : Nat) (old : String) (bytes : Nat) : Cache β :=
  { c with order := c.order.erase used, entries := c.entries.erase old, bytes }

/-- The order has the last use of every entry, and nothing else. -/
structure Ordered (c : Cache β) : Prop where
  order : ∀ (used : Nat) (key : String),
    c.order[used]? = some key ↔ ∃ e, c.entries[key]? = some (e, used)
  tick : ∀ (used : Nat) (key : String), c.order[used]? = some key → 0 < used ∧ used ≤ c.tick

theorem has_iff_entryAt {c : Cache β} {key : String} {e : Entry β} :
    c.Has key e ↔ c.entryAt key = some e := by
  simp [Has, entryAt, Option.map_eq_some_iff]

namespace Ordered
variable {c : Cache β} {key key' : String} {e : Entry β} {used used' : Nat}

theorem used_unique (h : Ordered c) (hused : c.order[used]? = some key)
    (hused' : c.order[used']? = some key) : used = used' := by
  obtain ⟨e, he⟩ := (h.order used key).mp hused
  obtain ⟨e', he'⟩ := (h.order used' key).mp hused'
  exact (Prod.mk.inj (Option.some.inj (he.symm.trans he'))).2

theorem keys_distinct (h : Ordered c) : c.order.toList.Pairwise fun p q => p.2 ≠ q.2 := by
  refine List.Pairwise.imp_of_mem ?_ c.order.ordered_keys_toList
  intro p q hp hq hlt heq
  rw [ExtTreeMap.mem_toList_iff_getElem?_eq_some] at hp hq
  have hsame : p.1 = q.1 := h.used_unique hp (heq ▸ hq)
  rw [hsame, Nat.compare_eq_lt] at hlt
  exact Nat.lt_irrefl _ hlt

theorem uses_distinct (h : Ordered c) : c.uses.Pairwise fun p q => p.1 ≠ q.1 := by
  refine List.Pairwise.filterMap _ ?_ h.keys_distinct
  intro p q hne x hx y hy
  obtain ⟨e, -, rfl⟩ := Option.map_eq_some_iff.mp hx
  obtain ⟨e', -, rfl⟩ := Option.map_eq_some_iff.mp hy
  exact hne

theorem mem_uses (h : Ordered c) : (key, e) ∈ c.uses ↔ c.Has key e := by
  rw [uses, List.mem_filterMap]
  constructor
  · rintro ⟨p, -, hp⟩
    obtain ⟨e', he', heq⟩ := Option.map_eq_some_iff.mp hp
    obtain ⟨rfl, rfl⟩ := Prod.mk.inj heq
    exact has_iff_entryAt.mpr he'
  · rintro ⟨used, hentry⟩
    refine ⟨(used, key), ?_, ?_⟩
    · exact ExtTreeMap.mem_toList_iff_getElem?_eq_some.mpr ((h.order used key).mpr ⟨e, hentry⟩)
    · rw [has_iff_entryAt.mp ⟨used, hentry⟩]
      rfl

/-- The queue has each entry once. -/
theorem uses_perm (h : Ordered c) :
    (c.entries.toList.map fun p => (p.1, p.2.1)).Perm c.uses := by
  have hkeys : (c.entries.toList.map fun p => (p.1, p.2.1)).Pairwise fun p q => p.1 ≠ q.1 := by
    rw [List.pairwise_map]
    refine c.entries.distinct_keys_toList.imp ?_
    intro p q hne heq
    rw [heq] at hne
    exact hne ReflCmp.compare_self
  have hne : ∀ {p q : String × Entry β}, p.1 ≠ q.1 → p ≠ q := fun hne heq => hne (heq ▸ rfl)
  refine (List.perm_ext_iff_of_nodup (hkeys.imp hne) (h.uses_distinct.imp hne)).mpr fun p => ?_
  rw [h.mem_uses, List.mem_map]
  constructor
  · rintro ⟨q, hq, rfl⟩
    exact ⟨q.2.2, ExtTreeMap.mem_toList_iff_getElem?_eq_some.mp hq⟩
  · rintro ⟨used, hentry⟩
    exact ⟨(p.1, (p.2, used)), ExtTreeMap.mem_toList_iff_getElem?_eq_some.mpr hentry, rfl⟩

/-- The key is in the queue under `used`, if at all, and goes to its end. -/
theorem moved (h : Ordered c) {c' : Cache β}
    (hkey : ∀ (t : Nat) (k : String), c.order[t]? = some k → (t = used ↔ k = key))
    (hentries : c'.entries = c.entries.insert key (e, c.tick + 1))
    (horder : c'.order = (c.order.erase used).insert (c.tick + 1) key)
    (htick : c'.tick = c.tick + 1) :
    Ordered c' ∧ c'.uses = c.uses.filter (fun p => p.1 ≠ key) ++ [(key, e)] := by
  have hat : ∀ (t : Nat) (k : String), c'.order[t]? = some k ↔
      t = c.tick + 1 ∧ k = key ∨ t ≠ used ∧ c.order[t]? = some k := by
    intro t k
    simp only [horder, Maps.getElem?_insert, ExtTreeMap.getElem?_erase,
      LawfulEqCmp.compare_eq_iff_eq]
    by_cases ht : c.tick + 1 = t
    · subst ht
      have hnone : c.order[c.tick + 1]? ≠ some k := fun hk =>
        absurd (h.tick _ _ hk).2 (Nat.not_succ_le_self _)
      simp [hnone, eq_comm]
    · by_cases hu : used = t
      · simp [ht, hu, Ne.symm ht]
      · simp [ht, hu, Ne.symm ht, Ne.symm hu]
  have hof : ∀ (k : String) (x : Entry β × Nat), c'.entries[k]? = some x ↔
      k = key ∧ x = (e, c.tick + 1) ∨ k ≠ key ∧ c.entries[k]? = some x := by
    intro k x
    rw [hentries, Maps.getElem?_insert]
    by_cases hk : key = k
    · simp [hk, eq_comm]
    · simp [hk, Ne.symm hk]
  refine ⟨⟨fun t k => ?_, fun t k ht => ?_⟩, ?_⟩
  · simp only [hat, hof, h.order, Prod.mk.injEq]
    constructor
    · rintro (⟨rfl, rfl⟩ | ⟨ht, e', he'⟩)
      · exact ⟨e, .inl ⟨rfl, rfl, rfl⟩⟩
      · have hne : k ≠ key := fun hk => ht ((hkey t k ((h.order t k).mpr ⟨e', he'⟩)).mpr hk)
        exact ⟨e', .inr ⟨hne, he'⟩⟩
    · rintro ⟨e', ⟨rfl, -, rfl⟩ | ⟨hne, he'⟩⟩
      · exact .inl ⟨rfl, rfl⟩
      · exact .inr ⟨fun ht => hne ((hkey t k ((h.order t k).mpr ⟨e', he'⟩)).mp ht), e', he'⟩
  · rw [htick]
    rcases (hat t k).mp ht with ⟨rfl, -⟩ | ⟨-, ht⟩
    · exact ⟨Nat.succ_pos _, Nat.le_refl _⟩
    · exact ⟨(h.tick t k ht).1, Nat.le_succ_of_le (h.tick t k ht).2⟩
  · have hlist : c'.order.toList =
        c.order.toList.filter (fun p => p.1 ≠ used) ++ [(c.tick + 1, key)] := by
      rw [horder, toList_insert_last, toList_erase]
      intro p hp
      rw [toList_erase] at hp
      have hp := ExtTreeMap.mem_toList_iff_getElem?_eq_some.mp (List.mem_filter.mp hp).1
      exact Nat.compare_eq_lt.mpr (Nat.lt_succ_of_le (h.tick _ _ hp).2)
    have hlast : c'.entryAt key = some e := has_iff_entryAt.mp ⟨_, (hof _ _).mpr (.inl ⟨rfl, rfl⟩)⟩
    rw [uses, hlist, List.filterMap_append, uses, List.filterMap_filter, List.filter_filterMap]
    congr 1
    · refine List.filterMap_congr fun p hp => ?_
      have hiff := hkey _ _ (ExtTreeMap.mem_toList_iff_getElem?_eq_some.mp hp)
      by_cases hp : p.2 = key
      · simp [hiff, hp, Option.filter_map]
      · have hsame : c'.entryAt p.2 = c.entryAt p.2 := by
          rw [entryAt, entryAt, hentries, Maps.getElem?_insert, if_neg (Ne.symm hp)]
        cases hentry : c.entryAt p.2 <;> simp [hiff, hp, hsame, hentry, Option.filter]
    · simp [hlast]

theorem touch_moves (h : Ordered c) (hhas : c.Has key e) :
    Ordered (c.touch key) ∧
      (c.touch key).uses = c.uses.filter (fun p => p.1 ≠ key) ++ [(key, e)] := by
  obtain ⟨used, hentry⟩ := hhas
  have hused : c.order[used]? = some key := (h.order used key).mpr ⟨e, hentry⟩
  have htouch : c.touch key = { c with
      tick := c.tick + 1
      entries := c.entries.insert key (e, c.tick + 1)
      order := (c.order.erase used).insert (c.tick + 1) key } := by
    unfold touch
    rw [hentry]
  refine h.moved (fun t k ht => ⟨?_, ?_⟩) (by rw [htouch]) (by rw [htouch]) (by rw [htouch])
  · rintro rfl
    exact Option.some.inj (ht.symm.trans hused)
  · rintro rfl
    exact h.used_unique ht hused

/-- A new entry enters at the end. -/
theorem enter (h : Ordered c) (hnew : c.entries[key]? = none) (bytes : Nat) :
    let c' := { c with bytes, entries := c.entries.insert key (e, 0) }.touch key
    Ordered c' ∧ c'.uses = c.uses ++ [(key, e)] ∧ c'.bytes = bytes ∧ c'.maxBytes = c.maxBytes := by
  intro c'
  have htouch : c' = { c with
      bytes
      tick := c.tick + 1
      entries := (c.entries.insert key (e, 0)).insert key (e, c.tick + 1)
      order := (c.order.erase 0).insert (c.tick + 1) key } := by
    simp [c', touch]
  have hentries : c'.entries = c.entries.insert key (e, c.tick + 1) := by
    rw [htouch]
    refine ExtTreeMap.ext_getElem? fun k => ?_
    simp only [Maps.getElem?_insert]
    split <;> rfl
  have hnever : ∀ (t : Nat), c.order[t]? ≠ some key := by
    intro t ht
    obtain ⟨e', he'⟩ := (h.order t key).mp ht
    rw [hnew] at he'
    nomatch he'
  have hmoved := h.moved (fun t k ht => ⟨fun hzero => ?_, fun hk => absurd (hk ▸ ht) (hnever t)⟩)
    hentries (by rw [htouch]) (by rw [htouch])
  · refine ⟨hmoved.1, ?_, by rw [htouch], by rw [htouch]⟩
    rw [hmoved.2, List.filter_eq_self.mpr]
    rintro ⟨k, e'⟩ hp
    obtain ⟨used, hentry⟩ := h.mem_uses.mp hp
    refine decide_eq_true fun hk => ?_
    rw [show k = key from hk, hnew] at hentry
    nomatch hentry
  · exact absurd (h.tick t k ht).1 (by omega)

/-- The oldest entry leaves. -/
theorem pop {old : String} {rest : List (Nat × String)} (h : Ordered c)
    (hlist : c.order.toList = (used, old) :: rest) :
    ∃ e, c.entries[old]? = some (e, used) ∧ ∀ bytes : Nat, Ordered (c.without used old bytes) ∧
      (c.without used old bytes).order.toList = rest ∧
      c.uses = (old, e) :: (c.without used old bytes).uses := by
  have hsorted := c.order.ordered_keys_toList
  have hkeys := h.keys_distinct
  have hfirst : (used, old) ∈ c.order.toList := hlist ▸ List.mem_cons_self
  have hfirst := ExtTreeMap.mem_toList_iff_getElem?_eq_some.mp hfirst
  obtain ⟨e, hentry⟩ := (h.order used old).mp hfirst
  rw [hlist, List.pairwise_cons] at hsorted hkeys
  have hrest : (c.order.erase used).toList = rest := by
    rw [toList_erase, hlist, List.filter_cons_of_neg (by simp), List.filter_eq_self]
    intro p hp
    have hlt := Nat.compare_eq_lt.mp (hsorted.1 p hp)
    exact decide_eq_true (Nat.ne_of_gt hlt)
  refine ⟨e, hentry, fun bytes => ⟨⟨fun t k => ?_, fun t k ht => ?_⟩, hrest, ?_⟩⟩
  · simp only [without, ExtTreeMap.getElem?_erase, LawfulEqCmp.compare_eq_iff_eq]
    by_cases ht : used = t
    · subst ht
      rw [if_pos rfl]
      refine ⟨nofun, fun ⟨e', he'⟩ => ?_⟩
      split at he'
      · nomatch he'
      · next hne =>
        have hk := (h.order _ _).mpr ⟨e', he'⟩
        exact absurd (Option.some.inj (hfirst.symm.trans hk)) hne
    · rw [if_neg ht, h.order]
      by_cases hk : old = k
      · subst hk
        simp only [if_true, hentry, reduceCtorEq, exists_false, iff_false]
        rintro ⟨e', he'⟩
        exact ht (Prod.mk.inj (Option.some.inj he')).2
      · rw [if_neg hk]
  · simp only [without, ExtTreeMap.getElem?_erase] at ht
    split at ht
    · nomatch ht
    · exact h.tick t k ht
  · rw [uses, uses, hlist, without, hrest, List.filterMap_cons]
    have hold : c.entryAt old = some e := has_iff_entryAt.mp ⟨used, hentry⟩
    rw [hold]
    refine congrArg _ (List.filterMap_congr fun p hp => ?_)
    have hne := hkeys.1 p hp
    simp only [entryAt, ExtTreeMap.getElem?_erase, LawfulEqCmp.compare_eq_iff_eq, if_neg hne]

end Ordered

/-! ## The bytes -/

section Bytes
variable [Sized β]

/-- The bytes are those of the queue. -/
structure Counted (c : Cache β) : Prop extends Ordered c where
  bytes : c.bytes = total weigh c.uses
  fits : c.bytes ≤ c.maxBytes

variable {c : Cache β} {key : String} {e : Entry β}

theorem counted_new (freshness maxBytes : Nat) : Counted (new freshness maxBytes : Cache β) where
  order := by simp [new]
  tick := by simp [new]
  bytes := rfl
  fits := Nat.zero_le _

theorem counted_clear (c : Cache β) (generation : Option (String × Nat)) :
    Counted { c with generation }.clear where
  order := by simp [Cache.clear]
  tick := by simp [Cache.clear]
  bytes := rfl
  fits := Nat.zero_le _

/-- The entries of the queue are those of the map, so the bytes are theirs. -/
theorem Counted.bytes_entries (h : Counted c) :
    c.bytes = total weigh (c.entries.toList.map fun p => (p.1, p.2.1)) := by
  rw [h.bytes, total, total]
  exact ((h.uses_perm.map weigh).sum_eq).symm

omit [Sized β] in
theorem touch_bytes : (c.touch key).bytes = c.bytes ∧ (c.touch key).maxBytes = c.maxBytes := by
  unfold touch
  split <;> exact ⟨rfl, rfl⟩

theorem Counted.touch (h : Counted c) (hhas : c.Has key e) : Counted (c.touch key) := by
  obtain ⟨hordered, huses⟩ := h.touch_moves hhas
  refine { hordered with bytes := ?_, fits := ?_ }
  · have hmem : (key, e) ∈ c.uses := h.mem_uses.mpr hhas
    have htotal : total weigh (c.uses.filter fun p => p.1 ≠ key) + weigh (key, e) =
        total weigh c.uses := total_filter_ne Prod.fst h.uses_distinct hmem
    rw [touch_bytes.1, h.bytes, huses, total_append, total_cons, ← htotal]
    rfl
  · rw [touch_bytes.1, touch_bytes.2]
    exact h.fits

/-- Eviction makes room in the queue. -/
theorem evict_uses (length : Nat) (oldest : List (Nat × String)) (h : Counted c)
    (hlist : c.order.toList = oldest) :
    let c' := evict length oldest c
    Counted c' ∧ c'.maxBytes = c.maxBytes ∧
      c'.uses = makeRoom weigh c.maxBytes length c.uses := by
  induction oldest generalizing c with
  | nil =>
    have hnil : c.uses = [] := by
      rw [uses, hlist]
      rfl
    exact ⟨h, rfl, by rw [evict, hnil, makeRoom]⟩
  | cons head rest ih =>
    obtain ⟨used, old⟩ := head
    obtain ⟨e, hentry, hpop⟩ := h.pop hlist
    obtain ⟨hordered, hrest, huses⟩ := hpop (c.bytes - weigh (old, e))
    have htotal := h.bytes
    rw [huses, total_cons] at htotal
    have hcounted : Counted (c.without used old (c.bytes - weigh (old, e))) :=
      { hordered with
        bytes := (Nat.sub_eq_of_eq_add' htotal : _)
        fits := Nat.le_trans (Nat.sub_le _ _) h.fits }
    have hstep : evict length ((used, old) :: rest) c = if c.maxBytes < c.bytes + length then
        evict length rest (c.without used old (c.bytes - weigh (old, e))) else c := by
      rw [evict]
      simp only [hentry]
      rfl
    have hroom : makeRoom weigh c.maxBytes length c.uses = if c.maxBytes < c.bytes + length then
        makeRoom weigh c.maxBytes length (c.without used old (c.bytes - weigh (old, e))).uses
        else c.uses := by
      rw [huses, makeRoom, total_cons, ← htotal]
    dsimp only
    rw [hstep, hroom]
    split
    · exact ih hcounted hrest
    · exact ⟨h, rfl, rfl⟩

/-- The cache does not take the entry. -/
def Refuses (c : Cache β) (digest key : String) (e : Entry β) : Prop :=
  c.current digest = false ∨ c.entries.contains key ∨ c.maxBytes < weigh (key, e)

theorem put_refused {digest : String} (h : c.Refuses digest key e) : c.put digest key e = c := by
  unfold put
  dsimp only
  split
  · rfl
  · next hcurrent => exact if_pos (h.resolve_left hcurrent)

/-- A new entry goes to the end, when there is room for it. -/
theorem Counted.put (h : Counted c) {digest : String} (htakes : ¬ c.Refuses digest key e) :
    Counted (c.put digest key e) ∧ (c.put digest key e).maxBytes = c.maxBytes ∧
      (c.put digest key e).uses =
        makeRoom weigh c.maxBytes (weigh (key, e)) c.uses ++ [(key, e)] := by
  simp only [Refuses, not_or] at htakes
  obtain ⟨hcurrent, hnew, hsmall⟩ := htakes
  obtain ⟨hevict, hmax, huses⟩ := evict_uses (weigh (key, e)) c.order.toList h rfl
  have hless := evict_less (weigh (key, e)) c.order.toList c
  have hput : c.put digest key e =
      let c := evict (weigh (key, e)) c.order.toList c
      { c with
        bytes := c.bytes + weigh (key, e)
        entries := c.entries.insert key (e, 0) }.touch key := by
    exact (if_neg hcurrent).trans (if_neg (not_or.mpr ⟨hnew, hsmall⟩))
  have habsent : (evict (weigh (key, e)) c.order.toList c).entries[key]? = none := by
    cases hentry : (evict (weigh (key, e)) c.order.toList c).entries[key]? with
    | none => rfl
    | some x =>
      obtain ⟨used, hhas⟩ := hless.has key x.1 ⟨x.2, hentry⟩
      exact absurd (Maps.contains_iff.mpr (Maps.mem_of_getElem? hhas)) hnew
  obtain ⟨hordered, hlist, hbytes, hkeeps⟩ := hevict.enter (e := e) habsent
    ((evict (weigh (key, e)) c.order.toList c).bytes + weigh (key, e))
  have hroom : total weigh (makeRoom weigh c.maxBytes (weigh (key, e)) c.uses) + weigh (key, e) ≤
      c.maxBytes := total_makeRoom (Nat.not_lt.mp hsmall) c.uses
  rw [hput]
  refine ⟨{ hordered with bytes := ?_, fits := ?_ }, hkeeps.trans hmax, ?_⟩
  · rw [hbytes, hlist, hevict.bytes, total_append]
    rfl
  · rw [hbytes, hkeeps, hevict.bytes, huses, hmax]
    exact hroom
  · rw [hlist, huses]

theorem Counted.call (h : Counted c) (x : Call β) : Counted (c.call x) := by
  cases x with
  | observe digest requested =>
    rw [Cache.call]
    rcases observe_cases c digest requested with heq | ⟨since, -, -, heq⟩ | ⟨-, heq⟩
    · rw [heq]
      exact h
    · rw [heq]
      exact { h with }
    · rw [heq]
      exact counted_clear c _
  | get digest key =>
    cases hget : c.get digest key with
    | mk answer found =>
      rw [Cache.call, hget]
      cases answer with
      | none =>
        rw [get_none hget]
        exact h
      | some e =>
        obtain ⟨-, hhas, rfl⟩ := get_some hget
        exact h.touch hhas
  | put digest key e =>
    rw [Cache.call]
    by_cases hrefuses : c.Refuses digest key e
    · rw [put_refused hrefuses]
      exact h
    · exact (h.put hrefuses).1

end Bytes

end Cache

/-! ## The queue -/

/-- A cache that lists its entries, the least recently used one first. -/
structure Lru (β : Type) where
  maxBytes : Nat
  generation : Option (String × Nat)
  uses : List (String × Entry β)

def Lru.current {β : Type} (l : Lru β) (digest : String) : Bool :=
  match l.generation with
  | some (d, _) => d = digest
  | none => false

def Lru.call {β : Type} [Sized β] (l : Lru β) : Call β → Lru β
  | .observe digest requested =>
    match l.generation with
    | some (d, since) =>
      if requested < since then l
      else { l with
        generation := some (digest, requested)
        uses := if d = digest then l.uses else [] }
    | none => { l with generation := some (digest, requested), uses := [] }
  | .get digest key =>
    if l.current digest then { l with
      uses := l.uses.filter (fun p => p.1 ≠ key) ++ l.uses.filter fun p => p.1 = key }
    else l
  | .put digest key e =>
    if l.current digest = false ∨ (l.uses.any fun p => p.1 = key) ∨
        l.maxBytes < weigh (key, e) then l
    else { l with uses := makeRoom weigh l.maxBytes (weigh (key, e)) l.uses ++ [(key, e)] }

namespace Cache
variable {β : Type} [Sized β] {c : Cache β} {key digest : String} {e : Entry β}

def lru (c : Cache β) : Lru β := ⟨c.maxBytes, c.generation, c.uses⟩

omit [Sized β] in
theorem lru_current : c.lru.current digest = c.current digest := rfl

theorem run_concat (calls : List (Call β)) (x : Call β) :
    c.run (calls ++ [x]) = (c.run calls).call x := List.foldl_concat ..

theorem get_moves (h : Counted c) (hcurrent : c.current digest = true) :
    (c.get digest key).2.lru = { c.lru with
      uses := c.uses.filter (fun p => p.1 ≠ key) ++ c.uses.filter fun p => p.1 = key } := by
  unfold Cache.get
  rw [if_pos hcurrent]
  split
  · next e used hentry =>
    have hhas : c.Has key e := ⟨used, hentry⟩
    have hone := filter_key Prod.fst h.uses_distinct (h.mem_uses.mpr hhas)
    simp only [lru, touch_generation, touch_bytes.2, (h.touch_moves hhas).2]
    rw [hone]
  · next hentry =>
    have hnone : ∀ p ∈ c.uses, p.1 ≠ key := by
      rintro p hp rfl
      obtain ⟨used, hhas⟩ := h.mem_uses.mp hp
      rw [hentry] at hhas
      nomatch hhas
    have hall : c.uses.filter (fun p => p.1 ≠ key) = c.uses :=
      List.filter_eq_self.mpr fun p hp => decide_eq_true (hnone p hp)
    have hno : c.uses.filter (fun p => p.1 = key) = [] :=
      List.filter_eq_nil_iff.mpr fun p hp => by simpa using hnone p hp
    rw [hall, hno, List.append_nil]
    rfl

theorem refuses_iff (h : Counted c) : c.Refuses digest key e ↔ c.lru.current digest = false ∨
    (c.lru.uses.any fun p => p.1 = key) ∨ c.lru.maxBytes < weigh (key, e) := by
  have hany : c.entries.contains key = true ↔ (c.uses.any fun p => p.1 = key) = true := by
    rw [Maps.contains_iff, Maps.mem_iff, List.any_eq_true]
    constructor
    · rintro ⟨x, hx⟩
      exact ⟨(key, x.1), h.mem_uses.mpr ⟨x.2, hx⟩, decide_eq_true rfl⟩
    · rintro ⟨p, hp, hkey⟩
      obtain ⟨used, hhas⟩ := h.mem_uses.mp hp
      exact ⟨_, of_decide_eq_true hkey ▸ hhas⟩
  rw [Refuses, hany]
  rfl

/-- The cache is the queue. -/
theorem call_lru (h : Counted c) (x : Call β) : (c.call x).lru = c.lru.call x := by
  cases x with
  | observe digest requested =>
    rw [Cache.call, Lru.call, Cache.observe]
    cases hgeneration : c.generation with
    | none => simp [lru, hgeneration, clear, uses]
    | some since =>
      simp only [lru, hgeneration]
      split
      · rw [hgeneration]
      · split
        · simp [uses, entryAt, *]
        · simp [clear, uses]
  | get digest key =>
    rw [Cache.call, Lru.call, lru_current]
    split
    · next hcurrent => exact get_moves h hcurrent
    · next hcurrent =>
      unfold Cache.get
      rw [if_neg hcurrent]
  | put digest key e =>
    rw [Cache.call, Lru.call]
    by_cases hrefuses : c.Refuses digest key e
    · rw [put_refused hrefuses, if_pos ((refuses_iff h).mp hrefuses)]
    · obtain ⟨-, hmax, huses⟩ := h.put hrefuses
      rw [if_neg (fun hl => hrefuses ((refuses_iff h).mpr hl))]
      simp only [lru, hmax, huses, (put_cases c digest key e).1]

omit [Sized β] in
theorem get_has {answer : Option (Entry β)} {found : Cache β}
    (h : c.get digest key = (answer, found)) :
    found.generation = c.generation ∧ ∀ key' e', found.Has key' e' ↔ c.Has key' e' := by
  cases answer with
  | none =>
    rw [get_none h]
    exact ⟨rfl, fun _ _ => Iff.rfl⟩
  | some e =>
    obtain ⟨-, -, rfl⟩ := get_some h
    exact ⟨touch_generation, fun _ _ => touch_has⟩

/-- An entry there after a call was there for the same digest, or the call put it. -/
theorem call_has {x : Call β} (h : (c.call x).Has key e) :
    c.Has key e ∧ (∀ d, (c.call x).current d = c.current d) ∨
      ∃ d, x = .put d key e ∧ c.current d = true ∧ (c.call x).current d = true := by
  have hsame : ∀ {c' : Cache β}, c'.generation = c.generation →
      ∀ d, c'.current d = c.current d := by
    intro c' hgeneration d
    rw [current, current, hgeneration]
  cases x with
  | observe digest requested =>
    rw [Cache.call] at h ⊢
    rcases observe_cases c digest requested with heq | ⟨since, hgeneration, -, heq⟩ | ⟨-, heq⟩
    · rw [heq] at h ⊢
      exact .inl ⟨h, fun d => rfl⟩
    · rw [heq] at h ⊢
      refine .inl ⟨h, fun d => ?_⟩
      simp [current, hgeneration]
    · rw [heq] at h
      exact absurd h clear_has
  | get digest key' =>
    cases hget : c.get digest key' with
    | mk answer found =>
      rw [Cache.call, hget] at h ⊢
      obtain ⟨hgeneration, hhas⟩ := get_has hget
      exact .inl ⟨(hhas key e).mp h, hsame hgeneration⟩
  | put digest key' e' =>
    rw [Cache.call] at h ⊢
    obtain ⟨hgeneration, -, hcases⟩ := put_cases c digest key' e'
    rcases hcases key e h with hold | ⟨rfl, rfl, hcurrent⟩
    · exact .inl ⟨hold, hsame hgeneration⟩
    · refine .inr ⟨digest, rfl, current_iff.mpr hcurrent, ?_⟩
      rw [hsame hgeneration]
      exact current_iff.mpr hcurrent

/-- The request time of the generation never falls. -/
theorem call_generation {since : Nat} (h : c.generation = some (digest, since)) (x : Call β) :
    ∃ digest' since', (c.call x).generation = some (digest', since') ∧ since ≤ since' := by
  cases x with
  | observe digest' requested =>
    rw [Cache.call]
    rcases observe_cases c digest' requested with heq | ⟨since', hsince, hle, heq⟩ | ⟨hle, heq⟩
    · exact ⟨digest, since, by rw [heq, h], Nat.le_refl _⟩
    · obtain ⟨-, rfl⟩ := Prod.mk.inj (Option.some.inj (h.symm.trans hsince))
      exact ⟨digest', requested, by rw [heq], hle⟩
    · exact ⟨digest', requested, by rw [heq]; rfl, hle digest since h⟩
  | get digest' key =>
    cases hget : c.get digest' key with
    | mk answer found =>
      rw [Cache.call, hget]
      refine ⟨digest, since, ?_, Nat.le_refl _⟩
      rw [(get_has hget).1, h]
  | put digest' key e =>
    rw [Cache.call]
    exact ⟨digest, since, (put_cases c digest' key e).1.trans h, Nat.le_refl _⟩

/-! ## Runs -/

theorem counted_run (h : Counted c) (calls : List (Call β)) : Counted (c.run calls) := by
  induction calls generalizing c with
  | nil => exact h
  | cons x calls ih => exact ih (h.call x)

theorem run_lru (h : Counted c) (calls : List (Call β)) :
    (c.run calls).lru = calls.foldl Lru.call c.lru := by
  induction calls generalizing c with
  | nil => rfl
  | cons x calls ih =>
    rw [List.foldl_cons, ← call_lru h]
    exact ih (h.call x)

theorem lru_maxBytes (l : Lru β) (calls : List (Call β)) :
    (calls.foldl Lru.call l).maxBytes = l.maxBytes := by
  induction calls generalizing l with
  | nil => rfl
  | cons x calls ih =>
    rw [List.foldl_cons, ih]
    cases x <;> rw [Lru.call] <;> repeat' split
    all_goals rfl

theorem run_generation {since : Nat} (h : c.generation = some (digest, since))
    (calls : List (Call β)) :
    ∃ digest' since', (c.run calls).generation = some (digest', since') ∧ since ≤ since' := by
  induction calls generalizing c digest since with
  | nil => exact ⟨digest, since, h, Nat.le_refl _⟩
  | cons x calls ih =>
    obtain ⟨digest', since', hgeneration, hle⟩ := call_generation h x
    obtain ⟨digest'', since'', hgeneration, hle'⟩ := ih hgeneration
    exact ⟨digest'', since'', hgeneration, Nat.le_trans hle hle'⟩

/-- Every entry was put under the digest that is still current. -/
theorem run_has (calls : List (Call β)) {freshness maxBytes : Nat}
    (h : ((new freshness maxBytes).run calls).Has key e) : ∃ digest before after,
    calls = before ++ .put digest key e :: after ∧
    ((new freshness maxBytes).run before).current digest = true ∧
    ((new freshness maxBytes).run calls).current digest = true := by
  induction calls using List.reverseRecOn with
  | nil =>
    obtain ⟨used, hhas⟩ := h
    simp [run, new] at hhas
  | append_singleton calls x ih =>
    rw [run_concat] at h ⊢
    rcases call_has h with ⟨hold, hcurrent⟩ | ⟨digest, rfl, hbefore, hafter⟩
    · obtain ⟨digest, before, after, rfl, hput, hnow⟩ := ih hold
      refine ⟨digest, before, after ++ [x], ?_, hput, (hcurrent digest).trans hnow⟩
      rw [List.append_assoc, List.cons_append]
    · exact ⟨digest, calls, [], rfl, hbefore, hafter⟩

theorem cache_least_recently_used (freshness maxBytes : Nat) (calls : List (Call β)) :
    let start : Cache β := new freshness maxBytes
    let c := start.run calls
    (c.bytes = total weigh (c.entries.toList.map fun p => (p.1, p.2.1)) ∧ c.bytes ≤ maxBytes) ∧
    (∀ (used : Nat) (key : String),
      c.order[used]? = some key ↔ ∃ e, c.entries[key]? = some (e, used)) ∧
    (∀ key e, c.Has key e → ∃ digest before after, calls = before ++ .put digest key e :: after ∧
      (start.run before).current digest = true ∧ c.current digest = true) ∧
    (∀ before after digest since, calls = before ++ after →
      (start.run before).generation = some (digest, since) →
      ∃ digest' since', c.generation = some (digest', since') ∧ since ≤ since') ∧
    (∀ digest key e, c.Refuses digest key e → c.put digest key e = c) ∧
    (∀ digest key e, ¬ c.Refuses digest key e → ∃ n ≤ c.uses.length,
      (c.put digest key e).uses = c.uses.drop n ++ [(key, e)] ∧
      total weigh (c.uses.drop n) + weigh (key, e) ≤ maxBytes ∧
      ∀ m < n, maxBytes < total weigh (c.uses.drop m) + weigh (key, e)) ∧
    c.lru = calls.foldl Lru.call ⟨maxBytes, none, []⟩ := by
  intro start c
  have hstart : Counted start := counted_new freshness maxBytes
  have hc : Counted c := counted_run hstart calls
  have hlru : c.lru = calls.foldl Lru.call ⟨maxBytes, none, []⟩ := run_lru hstart calls
  have hmax : c.maxBytes = maxBytes := by
    calc c.maxBytes = c.lru.maxBytes := rfl
      _ = maxBytes := by rw [hlru, lru_maxBytes]
  refine ⟨⟨hc.bytes_entries, hmax ▸ hc.fits⟩, hc.order, fun key e => run_has calls, ?_,
    fun digest key e => put_refused, ?_, hlru⟩
  · intro before after digest since hcalls hsince
    have hsplit : c = (start.run before).run after := by
      rw [run, run, ← List.foldl_append, ← hcalls]
      rfl
    rw [hsplit]
    exact run_generation hsince after
  · intro digest key e htakes
    obtain ⟨-, -, huses⟩ := hc.put htakes
    have hsmall : weigh (key, e) ≤ maxBytes := by
      rw [← hmax]
      exact Nat.not_lt.mp fun hlt => htakes (.inr (.inr hlt))
    obtain ⟨n, hn, hdrop, hshort⟩ :=
      @makeRoom_shortest (String × Entry β) weigh maxBytes (weigh (key, e)) c.uses
    have hroom : total weigh (makeRoom weigh maxBytes (weigh (key, e)) c.uses) + weigh (key, e) ≤
        maxBytes := total_makeRoom hsmall c.uses
    rw [hdrop] at hroom
    refine ⟨n, hn, ?_, hroom, hshort⟩
    rw [huses, hmax, hdrop]

end Cache

end Clockchain.Gateway
