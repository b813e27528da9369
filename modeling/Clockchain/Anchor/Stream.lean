import Clockchain.Anchor.Inclusion
import Clockchain.Anchor.Store

/-!
# Runs of the root stream

Commits, seals, recorded moments and rebuilds in any order: the log only grows, every root is
that of a prefix of it, the chain of roots audits, and a covered event is proved against the
first root that covers it.
-/

namespace Clockchain.Anchor
open Codec V0
open V1 (Hash Crypto Verify)
set_option autoImplicit false

/-! ## Stored paths -/

theorem length_flatten (path : List Hash) : (flatten path).length = 32 * path.length := by
  induction path with
  | nil => rfl
  | cons h path ih =>
    have hcons : flatten (h :: path) = beBytes 32 h.toNat ++ flatten path := rfl
    rw [hcons, List.length_append, beBytes_length, ih, List.length_cons]
    omega

theorem chunks_flatten (path : List Hash) : chunks path.length (flatten path) = path := by
  induction path with
  | nil => rfl
  | cons h path ih =>
    have hcons : flatten (h :: path) = beBytes 32 h.toNat ++ flatten path := rfl
    have hlt : h.toNat < 256 ^ 32 := by
      have := h.isLt
      omega
    rw [hcons, List.length_cons, chunks, List.take_left' (beBytes_length 32 _),
      List.drop_left' (beBytes_length 32 _), ih, beNat_beBytes hlt, BitVec.ofNat_toNat,
      BitVec.setWidth_eq]

theorem unflatten_flatten (path : List Hash) : unflatten (flatten path) = .ok path := by
  have hlen := length_flatten path
  rw [unflatten, if_neg (by omega), hlen, Nat.mul_div_cancel_left _ (by omega), chunks_flatten]

/-! ## The invariant -/

variable (sha256 : Bytes → Hash)

def Store.leaves (st : Store) : List LeafHash := st.log.map fun row => leafHash sha256 row.eventId

/-- A root and the next one of the chain. -/
structure Extends (leaves : List LeafHash) (old new : RootRow) : Prop where
  grows : old.treeSize < new.treeSize
  prev : new.prevRoot = some old.rootId
  path : new.consistency =
    some (flatten (subproof sha256 (leaves.take new.treeSize) old.treeSize true))

/-- A root is cut at a prefix of the log. -/
structure Cut (leaves : List LeafHash) (row : RootRow) : Prop where
  nonempty : 0 < row.treeSize
  within : row.treeSize ≤ leaves.length
  root : row.rootId = mth sha256 (leaves.take row.treeSize)

structure Sound (st : Store) : Prop where
  seqs : st.log.map LogRow.seq = List.range st.log.length
  once : (st.log.map LogRow.eventId).Nodup
  heights : st.roots.map RootRow.height = List.range st.roots.length
  ids : (st.roots.map RootRow.rootId).Nodup
  cut : ∀ row ∈ st.roots, Cut sha256 (st.leaves sha256) row
  chain : st.roots.IsChain (Extends sha256 (st.leaves sha256))
  first : ∀ row ∈ st.roots.head?, row.prevRoot = none ∧ row.consistency = none
  started : st.roots = [] → st.log = []

/-- What a publication shows of its row. -/
structure Shows (p : RootPublication) (row : RootRow) : Prop where
  height : p.height = row.height
  root : p.root = ⟨row.rootId⟩
  treeSize : p.treeSize = row.treeSize
  prev : p.prevRoot = row.prevRoot.map MerkleRoot.mk
  moment : p.moment = row.momentId

variable {sha256} {st st' : Store}

theorem Store.length_leaves : (st.leaves sha256).length = st.log.length := List.length_map ..

/-! ## Reading the log -/

/-- Rows numbered from zero are in the order of their numbers. -/
theorem mergeSort_numbered {α : Type} {rows : List α} (number : α → Nat)
    (h : rows.map number = List.range rows.length) :
    (rows.mergeSort fun a b => number a ≤ number b) = rows := by
  apply List.mergeSort_of_pairwise
  have hsorted : (rows.map number).Pairwise (· ≤ ·) := by
    rw [h]
    exact List.pairwise_le_range
  exact (List.pairwise_map.mp hsorted).imp fun hle => decide_eq_true hle

theorem rowsToLeaves_ok {i : Nat} {rows : List LogRow}
    (h : rows.map LogRow.seq = List.range' i rows.length) :
    Store.rowsToLeaves sha256 i rows = .ok (rows.map fun row => leafHash sha256 row.eventId) := by
  induction rows generalizing i with
  | nil => rfl
  | cons row rows ih =>
    rw [List.map_cons, List.length_cons, List.range'_succ] at h
    obtain ⟨hseq, hrest⟩ := List.cons.inj h
    rw [Store.rowsToLeaves, if_neg (not_not.mpr hseq), ih hrest]
    rfl

theorem loadLeaves_ok (h : st.log.map LogRow.seq = List.range st.log.length) :
    st.loadLeaves sha256 = .ok (st.leaves sha256) := by
  rw [Store.loadLeaves, mergeSort_numbered LogRow.seq h]
  exact rowsToLeaves_ok (by rw [h, List.range_eq_range'])

theorem seqs_sealRows {n height : Nat} {ids : List Hash} :
    (Store.sealRows n height ids).map LogRow.seq = List.range' n ids.length := by
  apply List.ext_getElem
  · simp [Store.sealRows]
  · intro i h1 h2
    simp [Store.sealRows]

theorem ids_sealRows {n height : Nat} {ids : List Hash} :
    (Store.sealRows n height ids).map LogRow.eventId = ids := by
  apply List.ext_getElem
  · simp [Store.sealRows]
  · intro i h1 h2
    simp [Store.sealRows]

theorem length_sealRows {n height : Nat} {ids : List Hash} :
    (Store.sealRows n height ids).length = ids.length := List.length_mapIdx

/-! ## Reading the roots -/

theorem exists_prev {α : Type} {R : α → α → Prop} {rows : List α} (h : rows.IsChain R) {row : α}
    (hrow : row ∈ rows) : row ∈ rows.head? ∨ ∃ prev ∈ rows, R prev row := by
  induction h with
  | nil => simp at hrow
  | singleton a => simp_all
  | cons_cons hab hrest ih =>
    rcases List.mem_cons.mp hrow with rfl | htail
    · exact .inl rfl
    · rcases ih htail with hhead | ⟨prev, hprev, hR⟩
      · rw [List.head?_cons, Option.mem_some] at hhead
        exact .inr ⟨_, List.mem_cons_self, hhead ▸ hab⟩
      · exact .inr ⟨prev, List.mem_cons_of_mem _ hprev, hR⟩

/-- `root_id` is a primary key. -/
theorem find_root {rows : List RootRow} (hids : (rows.map RootRow.rootId).Nodup) {prev : RootRow}
    (hprev : prev ∈ rows) : rows.find? (fun p => some prev.rootId = some p.rootId) = some prev := by
  induction rows with
  | nil => simp at hprev
  | cons row rows ih =>
    obtain ⟨hnot, hrest⟩ := List.nodup_cons.mp hids
    rcases List.mem_cons.mp hprev with rfl | htail
    · simp
    · have hne : prev.rootId ≠ row.rootId := by
        intro heq
        exact hnot (heq ▸ List.mem_map_of_mem htail)
      rw [List.find?_cons_of_neg (by simpa using hne)]
      exact ih hrest htail

namespace Sound
variable (hsound : Sound sha256 st)
include hsound

theorem publication_head {row : RootRow} (hrow : row ∈ st.roots.head?) :
    ∃ p, st.publication row = .ok p ∧ Shows p row ∧ p.consistency = none := by
  obtain ⟨hprev, hpath⟩ := hsound.first row hrow
  rw [Store.publication, hpath]
  exact ⟨_, rfl, ⟨rfl, rfl, rfl, rfl, rfl⟩, rfl⟩

theorem publication_next {prev row : RootRow} (hprev : prev ∈ st.roots)
    (hext : Extends sha256 (st.leaves sha256) prev row) :
    ∃ p, st.publication row = .ok p ∧ Shows p row ∧
      p.consistency = some ⟨prev.treeSize, row.treeSize,
        subproof sha256 ((st.leaves sha256).take row.treeSize) prev.treeSize true⟩ := by
  rw [Store.publication, hext.path, hext.prev, find_root hsound.ids hprev, Option.map_some]
  simp only [unflatten_flatten]
  exact ⟨_, rfl, ⟨rfl, rfl, rfl, by rw [hext.prev], rfl⟩, rfl⟩

theorem publication_shows {row : RootRow} (hrow : row ∈ st.roots) :
    ∃ p, st.publication row = .ok p ∧ Shows p row := by
  rcases exists_prev hsound.chain hrow with hhead | ⟨prev, hprev, hext⟩
  · obtain ⟨p, hp, hshows, -⟩ := hsound.publication_head hhead
    exact ⟨p, hp, hshows⟩
  · obtain ⟨p, hp, hshows, -⟩ := hsound.publication_next hprev hext
    exact ⟨p, hp, hshows⟩

theorem latest_eq : st.roots.argmax RootRow.height = st.roots.getLast? := by
  rcases List.eq_nil_or_concat' st.roots with hnil | ⟨init, last, hlast⟩
  · rw [hnil]
    rfl
  · have hheights := hsound.heights
    rw [hlast] at hheights ⊢
    rw [List.map_append, List.length_append, List.length_singleton, List.range_succ] at hheights
    obtain ⟨hinit, hend⟩ := List.append_inj' hheights rfl
    rw [List.argmax_concat, List.getLast?_concat]
    cases hmax : init.argmax RootRow.height with
    | none => rfl
    | some m =>
      have hm : m.height < init.length := by
        have := List.mem_map_of_mem (f := RootRow.height) (List.argmax_mem hmax)
        rw [hinit] at this
        exact List.mem_range.mp this
      have hlt : m.height < last.height := by
        have := List.head_eq_of_cons_eq hend
        omega
      simp only [if_pos hlt]

theorem latestRoot_eq :
    (st.roots = [] ∧ st.latestRoot = .ok none) ∨
      ∃ last ∈ st.roots.getLast?, ∃ p, st.latestRoot = .ok (some p) ∧ Shows p last := by
  rw [Store.latestRoot, hsound.latest_eq]
  cases hlast : st.roots.getLast? with
  | none => exact .inl ⟨List.getLast?_eq_none_iff.mp hlast, rfl⟩
  | some last =>
    obtain ⟨p, hp, hshows⟩ := hsound.publication_shows (List.mem_of_getLast? hlast)
    refine .inr ⟨last, rfl, p, ?_, hshows⟩
    simp only [hp]
    rfl

end Sound

/-! ## Sealing -/

/-- What a seal that publishes writes. -/
structure Seals (sha256 : Bytes → Hash) (st st' : Store) (row : RootRow) : Prop where
  ledger : st'.ledger = st.ledger
  some_event : st.unsealed ≠ []
  log : st'.log = st.log ++ Store.sealRows st.log.length st.roots.length st.unsealed
  roots : st'.roots = st.roots ++ [row]
  height : row.height = st.roots.length
  treeSize : row.treeSize = st'.log.length
  root : row.rootId = mth sha256 (st'.leaves sha256)
  fresh : ∀ old ∈ st.roots, old.rootId ≠ row.rootId
  first : st.roots = [] → st.log = [] ∧ row.prevRoot = none ∧ row.consistency = none
  next : ∀ last ∈ st.roots.getLast?, row.prevRoot = some last.rootId ∧
    row.consistency = some (flatten (subproof sha256 (st'.leaves sha256) last.treeSize true))

/-- The log a seal writes is numbered from zero. -/
theorem seqs_append {added : List LogRow} (h : st.log.map LogRow.seq = List.range st.log.length)
    (hadded : added.map LogRow.seq = List.range' st.log.length added.length) :
    (st.log ++ added).map LogRow.seq = List.range (st.log ++ added).length := by
  rw [List.map_append, h, hadded, List.length_append, List.range_eq_range', List.range_eq_range',
    ← List.range'_append_1, Nat.zero_add]

theorem Sound.last_height (hsound : Sound sha256 st) {last : RootRow}
    (hlast : last ∈ st.roots.getLast?) : last.height + 1 = st.roots.length := by
  obtain ⟨init, hinit⟩ := List.getLast?_eq_some_iff.mp hlast
  have hheights := hsound.heights
  rw [hinit, List.map_append, List.length_append, List.length_singleton, List.range_succ]
    at hheights
  have hend := List.head_eq_of_cons_eq (List.append_inj' hheights rfl).2
  rw [hinit, List.length_append, List.length_singleton, hend]

theorem leaves_append {added : List LogRow} :
    { st with log := st.log ++ added }.leaves sha256 =
      st.leaves sha256 ++ added.map fun row => leafHash sha256 row.eventId := List.map_append

theorem leaves_append_le {added : List LogRow} :
    (st.leaves sha256).length ≤ ({ st with log := st.log ++ added }.leaves sha256).length := by
  rw [leaves_append, List.length_append]
  omega

theorem proveConsistency_ok {leaves : List LeafHash} {m : Nat} (hpos : 0 < m)
    (hle : m ≤ leaves.length) : proveConsistency sha256 leaves m =
      .ok ⟨m, leaves.length, subproof sha256 leaves m true⟩ := by
  rw [proveConsistency, if_neg (by omega), if_neg (by omega)]

theorem insertRoot_cases {leaves : List LeafHash} {prev : Option RootPublication} {height : Nat}
    {p : RootPublication} (hleaves : st.loadLeaves sha256 = .ok leaves)
    (h : st.insertRoot sha256 prev height = .ok (p, st')) :
    ∃ consistency, Store.consistencyFrom sha256 leaves prev = .ok consistency ∧
      (∀ old ∈ st.roots, old.rootId ≠ mth sha256 leaves) ∧
      st' = { st with roots := st.roots ++ [⟨mth sha256 leaves, height, leaves.length,
        (prev.map RootPublication.root).map MerkleRoot.bytes,
        consistency.map fun c => flatten c.path, none⟩] } := by
  simp only [Store.insertRoot, hleaves, bind, Except.bind] at h
  cases hpath : Store.consistencyFrom sha256 leaves prev with
  | error e =>
    rw [hpath] at h
    nomatch h
  | ok consistency =>
    simp only [hpath] at h
    split at h
    · nomatch h
    · rename_i hfresh
      refine ⟨consistency, rfl, ?_, (Prod.mk.inj (Except.ok.inj h)).2.symm⟩
      intro old hold heq
      exact hfresh (List.any_eq_true.mpr ⟨old, hold, decide_eq_true heq⟩)

theorem sealEpoch_cases {prev : Option RootPublication} {outcome : RootOutcome}
    (hlatest : st.latestRoot = .ok prev) (h : st.sealEpoch sha256 = .ok (outcome, st')) :
    (st' = st ∧ ∀ p, outcome ≠ .published p) ∨
      st.unsealed ≠ [] ∧ (prev = none → st.log = []) ∧ st.nextSeq = st.log.length ∧
      ∃ p, outcome = .published p ∧
        let height := prev.elim 0 fun p => p.height + 1
        Store.insertRoot sha256
          { st with log := st.log ++ Store.sealRows st.nextSeq height st.unsealed } prev height =
          .ok (p, st') := by
  simp only [Store.sealEpoch, hlatest, bind, Except.bind] at h
  split at h
  · nomatch h
  rename_i hseq
  split at h
  · nomatch h
  rename_i hlost
  split at h
  · cases prev with
    | none =>
      obtain ⟨rfl, rfl⟩ := Prod.mk.inj (Except.ok.inj h)
      exact .inl ⟨rfl, fun p hp => nomatch hp⟩
    | some p =>
      obtain ⟨rfl, rfl⟩ := Prod.mk.inj (Except.ok.inj h)
      exact .inl ⟨rfl, fun p hp => nomatch hp⟩
  · rename_i hadded
    split at h
    · nomatch h
    · rename_i inserted hinsert
      obtain ⟨rfl, rfl⟩ := Prod.mk.inj (Except.ok.inj h)
      refine .inr ⟨?_, ?_, not_not.mp hseq, inserted.1, rfl, hinsert⟩
      · intro hnone
        simp [hnone, Store.sealRows] at hadded
      · rintro rfl
        simpa using hlost

/-- A seal writes nothing, or the rows of one root. -/
theorem Sound.seals (hsound : Sound sha256 st) {outcome : RootOutcome}
    (h : st.sealEpoch sha256 = .ok (outcome, st')) : st' = st ∨ ∃ row, Seals sha256 st st' row := by
  rcases hsound.latestRoot_eq with ⟨hnil, hlatest⟩ | ⟨last, hlast, p, hlatest, hshows⟩
  · rcases sealEpoch_cases hlatest h with ⟨rfl, -⟩ | ⟨hsome, hempty, hseq, _, -, hinsert⟩
    · exact .inl rfl
    · rw [hseq] at hinsert
      have hseqs := @seqs_append st (Store.sealRows st.log.length 0 st.unsealed) hsound.seqs
        (by rw [seqs_sealRows, length_sealRows])
      obtain ⟨consistency, hpath, hfresh, rfl⟩ := insertRoot_cases (loadLeaves_ok hseqs) hinsert
      obtain rfl := Except.ok.inj hpath
      refine .inr ⟨_, ⟨rfl, hsome, ?_, rfl, ?_, Store.length_leaves, rfl, hfresh, ?_, ?_⟩⟩
      · rw [hnil]
        rfl
      · rw [hnil]
        rfl
      · intro _
        exact ⟨hempty rfl, rfl, rfl⟩
      · intro last hlast
        rw [hnil] at hlast
        nomatch hlast
  · rcases sealEpoch_cases hlatest h with ⟨rfl, -⟩ | ⟨hsome, -, hseq, _, -, hinsert⟩
    · exact .inl rfl
    · have hheight : p.height + 1 = st.roots.length := by
        rw [hshows.height]
        exact hsound.last_height hlast
      simp only [hseq, Option.elim_some, hheight] at hinsert
      have hseqs := @seqs_append st
        (Store.sealRows st.log.length st.roots.length st.unsealed) hsound.seqs
        (by rw [seqs_sealRows, length_sealRows])
      obtain ⟨consistency, hpath, hfresh, rfl⟩ := insertRoot_cases (loadLeaves_ok hseqs) hinsert
      have hcut := hsound.cut last (List.mem_of_getLast? hlast)
      have hproof := @proveConsistency_ok sha256 _ _ hcut.nonempty
        (hcut.within.trans (@leaves_append_le _ _ (Store.sealRows st.log.length
          st.roots.length st.unsealed)))
      rw [Store.consistencyFrom, hshows.treeSize, hproof] at hpath
      obtain rfl := Except.ok.inj hpath
      refine .inr ⟨_, ⟨rfl, hsome, rfl, rfl, rfl, Store.length_leaves, rfl, hfresh, ?_, ?_⟩⟩
      · intro hnil
        rw [hnil] at hlast
        nomatch hlast
      · intro old hold
        obtain rfl := Option.some.inj (hold.symm.trans hlast)
        refine ⟨?_, rfl⟩
        rw [Option.map_some, Option.map_some, hshows.root]

/-! ## Every step keeps the invariant -/

theorem Cut.append {leaves more : List LeafHash} {row : RootRow} (h : Cut sha256 leaves row) :
    Cut sha256 (leaves ++ more) row := by
  refine ⟨h.nonempty, ?_, ?_⟩
  · have := h.within
    rw [List.length_append]
    omega
  · rw [h.root, List.take_append_of_le_length h.within]

theorem Extends.append {leaves more : List LeafHash} {old new : RootRow}
    (hwithin : new.treeSize ≤ leaves.length) (h : Extends sha256 leaves old new) :
    Extends sha256 (leaves ++ more) old new := by
  refine ⟨h.grows, h.prev, ?_⟩
  rw [h.path, List.take_append_of_le_length hwithin]

theorem nodup_unsealed : st.unsealed.Nodup := (Maps.nodup_fst_toList st.ledger.events).filter _

namespace Seals
variable {row : RootRow} (hsound : Sound sha256 st) (hs : Seals sha256 st st' row)
include hs

theorem leaves_eq : ∃ more, st'.leaves sha256 = st.leaves sha256 ++ more := by
  have hmap := congrArg (List.map fun row => leafHash sha256 row.eventId) hs.log
  rw [List.map_append] at hmap
  exact ⟨_, hmap⟩

theorem log_grows : st.log.length < st'.log.length := by
  have := List.length_pos_of_ne_nil hs.some_event
  rw [hs.log, List.length_append, length_sealRows]
  omega

theorem cut_row : Cut sha256 (st'.leaves sha256) row := by
  have hgrows := hs.log_grows
  refine ⟨?_, ?_, ?_⟩
  · rw [hs.treeSize]
    omega
  · rw [Store.length_leaves, hs.treeSize]
  · rw [hs.treeSize, ← @Store.length_leaves sha256, List.take_length, hs.root]

include hsound

theorem once : (st'.log.map LogRow.eventId).Nodup := by
  rw [hs.log, List.map_append, ids_sealRows]
  refine List.nodup_append.mpr ⟨hsound.once, nodup_unsealed, ?_⟩
  intro a ha b hb heq
  have hnot := (List.mem_filter.mp hb).2
  exact of_decide_eq_true hnot (heq ▸ ha)

theorem extends_last {last : RootRow} (hlast : last ∈ st.roots.getLast?) :
    Extends sha256 (st'.leaves sha256) last row := by
  obtain ⟨hprev, hpath⟩ := hs.next last hlast
  refine ⟨?_, hprev, ?_⟩
  · have hwithin := (hsound.cut last (List.mem_of_getLast? hlast)).within
    have hgrows := hs.log_grows
    rw [Store.length_leaves] at hwithin
    rw [hs.treeSize]
    omega
  · rw [hpath, hs.treeSize, ← @Store.length_leaves sha256, List.take_length]

theorem sound : Sound sha256 st' := by
  obtain ⟨more, hleaves⟩ := hs.leaves_eq
  refine ⟨?_, hs.once hsound, ?_, ?_, ?_, ?_, ?_, ?_⟩
  · rw [hs.log]
    apply seqs_append hsound.seqs
    rw [seqs_sealRows, length_sealRows]
  · rw [hs.roots, List.map_append, hsound.heights, List.length_append, List.length_singleton,
      List.range_succ, List.map_singleton, hs.height]
  · rw [hs.roots, List.map_append]
    refine List.nodup_append.mpr ⟨hsound.ids, List.nodup_singleton _, ?_⟩
    intro a ha b hb heq
    obtain ⟨old, hold, rfl⟩ := List.mem_map.mp ha
    exact hs.fresh old hold (heq.trans (List.mem_singleton.mp hb))
  · intro r hr
    rw [hs.roots, List.mem_append, List.mem_singleton] at hr
    rcases hr with hold | rfl
    · rw [hleaves]
      exact (hsound.cut r hold).append
    · exact hs.cut_row
  · rw [hs.roots]
    refine List.isChain_append.mpr ⟨?_, List.IsChain.singleton _, ?_⟩
    · rw [hleaves]
      apply hsound.chain.imp_of_mem_imp
      intro a b _ hb hext
      exact hext.append (hsound.cut b hb).within
    · intro last hlast next hnext
      obtain rfl := Option.some.inj hnext
      exact hs.extends_last hsound hlast
  · intro r hr
    rw [hs.roots] at hr
    cases hroots : st.roots with
    | nil =>
      rw [hroots] at hr
      obtain rfl := Option.some.inj hr
      exact (hs.first hroots).2
    | cons a rest =>
      rw [hroots] at hr
      apply hsound.first
      rw [hroots]
      exact hr
  · intro hnil
    rw [hs.roots] at hnil
    simp at hnil

end Seals

namespace RootRow
variable {moment : Hash} {root : MerkleRoot} {row : RootRow}

theorem point_eq : ∃ m, row.point moment root = { row with momentId := m } := by
  unfold point
  split
  · exact ⟨_, rfl⟩
  · exact ⟨_, rfl⟩

@[simp] theorem point_height : (row.point moment root).height = row.height := by
  obtain ⟨m, hm⟩ := @point_eq moment root row
  rw [hm]

@[simp] theorem point_rootId : (row.point moment root).rootId = row.rootId := by
  obtain ⟨m, hm⟩ := @point_eq moment root row
  rw [hm]

end RootRow

theorem Cut.point {leaves : List LeafHash} {moment : Hash} {root : MerkleRoot} {row : RootRow}
    (h : Cut sha256 leaves row) : Cut sha256 leaves (row.point moment root) := by
  obtain ⟨m, hm⟩ := @RootRow.point_eq moment root row
  rw [hm]
  exact ⟨h.nonempty, h.within, h.root⟩

theorem Extends.point {leaves : List LeafHash} {moment : Hash} {root : MerkleRoot}
    {old new : RootRow} (h : Extends sha256 leaves old new) :
    Extends sha256 leaves (old.point moment root) (new.point moment root) := by
  obtain ⟨m, hm⟩ := @RootRow.point_eq moment root old
  obtain ⟨n, hn⟩ := @RootRow.point_eq moment root new
  rw [hm, hn]
  exact ⟨h.grows, h.prev, h.path⟩

theorem Sound.setMoment (hsound : Sound sha256 st) (moment : Hash) (root : MerkleRoot) :
    Sound sha256 (st.setMoment moment root) where
  seqs := hsound.seqs
  once := hsound.once
  heights := by
    rw [Store.setMoment, List.map_map, List.length_map, ← hsound.heights]
    exact List.map_congr_left fun row _ => RootRow.point_height
  ids := by
    have heq : (st.roots.map (RootRow.point moment root)).map RootRow.rootId =
        st.roots.map RootRow.rootId := by
      rw [List.map_map]
      exact List.map_congr_left fun row _ => RootRow.point_rootId
    exact heq ▸ hsound.ids
  cut := by
    intro row hrow
    obtain ⟨old, hold, rfl⟩ := List.mem_map.mp hrow
    exact (hsound.cut old hold).point
  chain := by
    refine (List.isChain_map _).mpr (hsound.chain.imp ?_)
    intro a b hext
    exact hext.point
  first := by
    intro row hrow
    rw [Store.setMoment, List.head?_map, Option.mem_map] at hrow
    obtain ⟨old, hold, rfl⟩ := hrow
    obtain ⟨m, hm⟩ := @RootRow.point_eq moment root old
    rw [hm]
    exact hsound.first old hold
  started := by
    intro hnil
    exact hsound.started (List.map_eq_nil_iff.mp hnil)

theorem Sound.withLedger (hsound : Sound sha256 st) (ledger : Ledger) :
    Sound sha256 { st with ledger } :=
  ⟨hsound.seqs, hsound.once, hsound.heights, hsound.ids, hsound.cut, hsound.chain, hsound.first,
    hsound.started⟩

/-! ## The audit -/

namespace Sound
variable (hsound : Sound sha256 st)
include hsound

theorem publication_root {row : RootRow} (hrow : row ∈ st.roots) {p : RootPublication}
    (hshows : Shows p row) : p.treeSize ≤ (st.leaves sha256).length ∧
      merkleRoot sha256 ((st.leaves sha256).take p.treeSize) = p.root := by
  have hcut := hsound.cut row hrow
  rw [hshows.treeSize, hshows.root, hcut.root]
  exact ⟨hcut.within, rfl⟩

/-- The path a root stores leads from its predecessor to it. -/
theorem consistency_verifies {old new : RootRow} (hold : old ∈ st.roots) (hnew : new ∈ st.roots)
    (hext : Extends sha256 (st.leaves sha256) old new) :
    (⟨old.treeSize, new.treeSize,
      subproof sha256 ((st.leaves sha256).take new.treeSize) old.treeSize true⟩ :
        ConsistencyProof).verify sha256 ⟨old.rootId⟩ ⟨new.rootId⟩ = true := by
  have hcutOld := hsound.cut old hold
  have hcutNew := hsound.cut new hnew
  have hgrows := hext.grows
  have hlen : ((st.leaves sha256).take new.treeSize).length = new.treeSize := by
    rw [List.length_take]
    exact Nat.min_eq_left hcutNew.within
  have hverifies := @subproof_verifies sha256
    ((st.leaves sha256).take new.treeSize) old.treeSize hcutOld.nonempty (by omega)
  rw [hlen, List.take_take, Nat.min_eq_left (by omega)] at hverifies
  rw [hcutOld.root, hcutNew.root]
  exact hverifies

/-- One round of the loop, past the first row. -/
theorem audit_step {old row : RootRow} (hold : old ∈ st.roots) (hrow : row ∈ st.roots)
    (hext : Extends sha256 (st.leaves sha256) old row) {p : RootPublication} (hshows : Shows p old)
    (rows : List RootRow) (audit : ChainAudit) :
    ∃ next, Shows next row ∧
      Store.auditRows sha256 st (st.leaves sha256) (row :: rows) (some p) audit =
        Store.auditRows sha256 st (st.leaves sha256) rows (some next)
          ⟨audit.rootsChecked + 1, audit.proofsVerified + 1, audit.leaves,
            audit.unrecorded + if next.moment.isNone then 1 else 0⟩ := by
  obtain ⟨next, hnext, hshowsRow, hpath⟩ := hsound.publication_next hold hext
  obtain ⟨hwithin, hroot⟩ := hsound.publication_root hrow hshowsRow
  have hverifies := hsound.consistency_verifies hold hrow hext
  refine ⟨next, hshowsRow, ?_⟩
  rw [Store.auditRows, hnext]
  simp only [bind, Except.bind, not_lt.mpr hwithin, hroot, hpath, Option.any_some, hshows.root,
    hshowsRow.root, hverifies, ne_eq, not_true, if_true, if_false]

theorem audit_rows {old : RootRow} {rows : List RootRow}
    (hrows : ∀ row ∈ old :: rows, row ∈ st.roots)
    (hchain : (old :: rows).IsChain (Extends sha256 (st.leaves sha256))) {p : RootPublication}
    (hshows : Shows p old) (audit : ChainAudit) :
    ∃ done, Store.auditRows sha256 st (st.leaves sha256) rows (some p) audit = .ok done ∧
      done.rootsChecked = audit.rootsChecked + rows.length ∧
      done.proofsVerified = audit.proofsVerified + rows.length ∧ done.leaves = audit.leaves ∧
      done.unrecorded = audit.unrecorded + rows.countP fun row => row.momentId.isNone := by
  induction rows generalizing old p audit with
  | nil => exact ⟨audit, rfl, rfl, rfl, rfl, rfl⟩
  | cons row rows ih =>
    obtain ⟨hext, hrest⟩ := List.isChain_cons_cons.mp hchain
    obtain ⟨next, hnext, heq⟩ := hsound.audit_step (hrows old List.mem_cons_self)
      (hrows row (List.mem_cons_of_mem _ List.mem_cons_self)) hext hshows rows audit
    obtain ⟨done, hdone, hroots, hproofs, hleaves, hunrecorded⟩ :=
      ih (fun r hr => hrows r (List.mem_cons_of_mem _ hr)) hrest hnext _
    refine ⟨done, heq.trans hdone, ?_, ?_, hleaves, ?_⟩
    · simp only [hroots, List.length_cons]
      omega
    · simp only [hproofs, List.length_cons]
      omega
    · simp only [hunrecorded, hnext.moment, List.countP_cons]
      omega

theorem verifyRootChain_ok : ∃ audit, Store.verifyRootChain sha256 st = .ok audit ∧
    audit.rootsChecked = st.roots.length ∧ audit.proofsVerified = st.roots.length - 1 ∧
    audit.leaves = st.log.length ∧
    audit.unrecorded = st.roots.countP fun row => row.momentId.isNone := by
  rw [Store.verifyRootChain, loadLeaves_ok hsound.seqs,
    mergeSort_numbered RootRow.height hsound.heights]
  simp only [bind, Except.bind]
  cases hroots : st.roots with
  | nil => exact ⟨_, rfl, rfl, rfl, Store.length_leaves, rfl⟩
  | cons first rows =>
    have hmem : first ∈ st.roots := hroots ▸ List.mem_cons_self
    obtain ⟨p, hp, hshows, -⟩ := @Sound.publication_head _ _ hsound first (by rw [hroots]; rfl)
    obtain ⟨hwithin, hroot⟩ := hsound.publication_root hmem hshows
    have hchain := hsound.chain
    rw [hroots] at hchain
    have hrows : ∀ row ∈ first :: rows, row ∈ st.roots := fun row hrow => hroots ▸ hrow
    rw [Store.auditRows, hp]
    simp only [bind, Except.bind]
    rw [if_neg (by omega), if_neg (not_not.mpr hroot)]
    obtain ⟨done, hdone, hchecked, hproofs, hleaves, hunrecorded⟩ :=
      hsound.audit_rows hrows hchain hshows
        ⟨0 + 1, 0, (st.leaves sha256).length, 0 + if p.moment.isNone then 1 else 0⟩
    refine ⟨done, hdone, ?_, ?_, hleaves.trans Store.length_leaves, ?_⟩
    · simp only [hchecked, List.length_cons]
      omega
    · simp only [hproofs, List.length_cons]
      omega
    · simp only [hunrecorded, hshows.moment, List.countP_cons]
      omega

/-! ## Proofs of events -/

/-- The row that numbers an event. -/
theorem find_event {entry : LogRow} (hentry : entry ∈ st.log) :
    st.log.find? (fun row => row.eventId = entry.eventId) = some entry := by
  rw [List.find?_eq_some_iff_getElem]
  obtain ⟨i, hi, rfl⟩ := List.getElem_of_mem hentry
  refine ⟨by simp, i, hi, rfl, ?_⟩
  intro j hj
  have hne := List.pairwise_iff_getElem.mp (List.pairwise_map.mp hsound.once) j i (by omega) hi hj
  simpa using hne

theorem seq_eq {i : Nat} (hi : i < st.log.length) : st.log[i].seq = i := by
  have h := congrArg (·[i]?) hsound.seqs
  simpa [List.getElem?_eq_getElem hi, hi] using h

theorem proveEvent_ok {entry : LogRow} (hentry : entry ∈ st.log) {row : RootRow}
    (hrow : row ∈ st.roots) (hcovered : entry.seq < row.treeSize) :
    ∃ first ∈ st.roots, entry.seq < first.treeSize ∧
      (∀ r ∈ st.roots, entry.seq < r.treeSize → first.height ≤ r.height) ∧
      ∃ e, st.proveEvent sha256 entry.eventId = .ok e ∧ e.event = entry.eventId ∧
        e.leaf = leafHash sha256 entry.eventId ∧ e.root = ⟨first.rootId⟩ ∧
        e.height = first.height ∧ e.verify sha256 = true := by
  cases hfirst : (st.roots.filter fun r => entry.seq < r.treeSize).argmin RootRow.height with
  | none =>
    have hmem : row ∈ st.roots.filter fun r => entry.seq < r.treeSize :=
      List.mem_filter.mpr ⟨hrow, decide_eq_true hcovered⟩
    rw [List.argmin_eq_none.mp hfirst] at hmem
    nomatch hmem
  | some first =>
    obtain ⟨hmem, hlt⟩ := List.mem_filter.mp (List.argmin_mem hfirst)
    have hlt := of_decide_eq_true hlt
    obtain ⟨p, hp, hshows⟩ := hsound.publication_shows hmem
    obtain ⟨hwithin, hroot⟩ := hsound.publication_root hmem hshows
    have hlen : ((st.leaves sha256).take p.treeSize).length = p.treeSize := by
      rw [List.length_take]
      exact Nat.min_eq_left hwithin
    have hindex : entry.seq < ((st.leaves sha256).take p.treeSize).length := by
      rw [hlen, hshows.treeSize]
      exact hlt
    have hleaf : ((st.leaves sha256).take p.treeSize)[entry.seq] =
        leafHash sha256 entry.eventId := by
      obtain ⟨i, hi, rfl⟩ := List.getElem_of_mem hentry
      simp only [hsound.seq_eq hi, List.getElem_take, Store.leaves, List.getElem_map]
    have hverifies := @auditPath_verifies sha256 _ _ hindex
    rw [hleaf, hroot] at hverifies
    refine ⟨first, hmem, hlt, ?_, ⟨entry.eventId, leafHash sha256 entry.eventId, p.root, p.height,
      _⟩, ?_, rfl, rfl, hshows.root, hshows.height, hverifies⟩
    · intro r hr hcovers
      exact List.le_of_mem_argmin (List.mem_filter.mpr ⟨hr, decide_eq_true hcovers⟩) hfirst
    · rw [Store.proveEvent, hsound.find_event hentry]
      simp only [hfirst, hp, loadLeaves_ok hsound.seqs, bind, Except.bind, not_lt.mpr hwithin,
        proveInclusion, ge_iff_le, not_le.mpr hindex, List.getElem?_eq_getElem hindex, hleaf,
        if_false]
      rfl

end Sound

/-! ## Runs -/

section Runs
variable {cr : Crypto} {verify : Verify}

/-- One transaction. An event commit is also how a publication records its moment. -/
inductive Act (cr : Crypto) (verify : Verify) where
  | commit (s : Signed cr verify)
  | sealEpoch
  | setMoment (moment : Hash) (root : MerkleRoot)
  | rebuild (settled : Settlement)

/-- A call that fails or stops leaves the store as it found it. -/
def Store.act (st : Store) : Act cr verify → Store
  | .commit s => { st with ledger := st.ledger.submit s }
  | .sealEpoch =>
    match st.sealEpoch cr.sha256 with
    | .ok (_, sealed) => sealed
    | .error _ => st
  | .setMoment moment root => st.setMoment moment root
  | .rebuild settled => { st with ledger := (st.ledger.rebuild cr verify settled).1 }

def Store.run (st : Store) (acts : List (Act cr verify)) : Store := acts.foldl Store.act st

theorem Sound.empty : Sound sha256 .empty where
  seqs := rfl
  once := List.nodup_nil
  heights := rfl
  ids := List.nodup_nil
  cut := fun _ h => nomatch h
  chain := List.IsChain.nil
  first := fun _ h => nomatch h
  started := fun _ => rfl

theorem Sound.act (hsound : Sound cr.sha256 st) (act : Act cr verify) :
    Sound cr.sha256 (st.act act) := by
  cases act with
  | commit s => exact hsound.withLedger _
  | sealEpoch =>
    rw [Store.act]
    split
    · rename_i h
      rcases hsound.seals h with rfl | ⟨row, hs⟩
      · exact hsound
      · exact hs.sound hsound
    · exact hsound
  | setMoment moment root => exact hsound.setMoment moment root
  | rebuild settled => exact hsound.withLedger _

theorem Sound.run (hsound : Sound cr.sha256 st) (acts : List (Act cr verify)) :
    Sound cr.sha256 (st.run acts) := by
  induction acts generalizing st with
  | nil => exact hsound
  | cons act acts ih => exact ih (hsound.act act)

/-- A root row without the pointer to its moment. -/
def RootRow.sealed (row : RootRow) : RootRow := { row with momentId := none }

/-- Rows are only added: the log's as they are, a root's up to its moment. -/
structure Grows (st st' : Store) : Prop where
  log : st.log <+: st'.log
  roots : st.roots.map RootRow.sealed <+: st'.roots.map RootRow.sealed

theorem Grows.refl (st : Store) : Grows st st := ⟨List.prefix_refl _, List.prefix_refl _⟩

theorem Grows.trans {st'' : Store} (h : Grows st st') (h' : Grows st' st'') : Grows st st'' :=
  ⟨h.log.trans h'.log, h.roots.trans h'.roots⟩

theorem Seals.grows {row : RootRow} (hs : Seals sha256 st st' row) : Grows st st' := by
  refine ⟨?_, ?_⟩
  · rw [hs.log]
    exact List.prefix_append _ _
  · rw [hs.roots, List.map_append]
    exact List.prefix_append _ _

theorem grows_setMoment (moment : Hash) (root : MerkleRoot) :
    Grows st (st.setMoment moment root) := by
  refine ⟨List.prefix_refl _, ?_⟩
  have heq : (st.roots.map (RootRow.point moment root)).map RootRow.sealed =
      st.roots.map RootRow.sealed := by
    rw [List.map_map]
    apply List.map_congr_left
    intro row _
    obtain ⟨m, hm⟩ := @RootRow.point_eq moment root row
    rw [Function.comp_apply, hm]
    rfl
  rw [Store.setMoment, heq]

theorem Grows.act (hsound : Sound cr.sha256 st) (act : Act cr verify) : Grows st (st.act act) := by
  cases act with
  | commit s => exact ⟨List.prefix_refl _, List.prefix_refl _⟩
  | sealEpoch =>
    rw [Store.act]
    split
    · rename_i h
      rcases hsound.seals h with rfl | ⟨row, hs⟩
      · exact .refl _
      · exact hs.grows
    · exact .refl _
  | setMoment moment root => exact grows_setMoment moment root
  | rebuild settled => exact ⟨List.prefix_refl _, List.prefix_refl _⟩

theorem Grows.run (hsound : Sound cr.sha256 st) (acts : List (Act cr verify)) :
    Grows st (st.run acts) := by
  induction acts generalizing st with
  | nil => exact .refl st
  | cons act acts ih => exact (Grows.act hsound act).trans (ih (hsound.act act))

/-- In every state a run reaches: the log is numbered without gaps, holds an event once and is
only appended to; a root is that of the prefix it is cut at; the chain audits; an event of a
covered row is proved against the first root that covers it. -/
theorem stream_provable (acts : List (Act cr verify)) :
    let st := Store.empty.run acts
    st.log.map LogRow.seq = List.range st.log.length ∧ (st.log.map LogRow.eventId).Nodup ∧
    (∀ more : List (Act cr verify), Grows st (st.run more)) ∧
    (∀ row ∈ st.roots, row.treeSize ≤ st.log.length ∧
      merkleRoot cr.sha256 ((st.leaves cr.sha256).take row.treeSize) = ⟨row.rootId⟩) ∧
    (∃ audit, Store.verifyRootChain cr.sha256 st = .ok audit ∧
      audit.rootsChecked = st.roots.length ∧ audit.proofsVerified = st.roots.length - 1 ∧
      audit.leaves = st.log.length) ∧
    ∀ entry ∈ st.log, ∀ row ∈ st.roots, entry.seq < row.treeSize →
      ∃ first ∈ st.roots, entry.seq < first.treeSize ∧
        (∀ r ∈ st.roots, entry.seq < r.treeSize → first.height ≤ r.height) ∧
        ∃ e, st.proveEvent cr.sha256 entry.eventId = .ok e ∧ e.event = entry.eventId ∧
          e.leaf = leafHash cr.sha256 entry.eventId ∧ e.root = ⟨first.rootId⟩ ∧
          e.height = first.height ∧ e.verify cr.sha256 = true := by
  intro st
  have hsound : Sound cr.sha256 st := Sound.empty.run acts
  obtain ⟨audit, haudit, hchecked, hproofs, hleaves, -⟩ := hsound.verifyRootChain_ok
  refine ⟨hsound.seqs, hsound.once, Grows.run hsound, ?_,
    ⟨audit, haudit, hchecked, hproofs, hleaves⟩,
    fun entry hentry row hrow hcovered => hsound.proveEvent_ok hentry hrow hcovered⟩
  intro row hrow
  have hcut := hsound.cut row hrow
  refine ⟨?_, ?_⟩
  · rw [← @Store.length_leaves cr.sha256]
    exact hcut.within
  · rw [hcut.root]
    rfl

end Runs

end Clockchain.Anchor
