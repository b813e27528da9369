import Clockchain.V1.Receipt

/-!
# Rule identity

`cc-core/src/v1/rule.rs` and `cc-filter/src/v1.rs`: the fold this build implements, the filter
a store is bound to, and the digests a read is named by.
-/

namespace Clockchain.V1
open Codec
set_option autoImplicit false

/-- A length, then the bytes. -/
def framed (domain : String) : Bytes := frame domain.toUTF8.toList

theorem toList_loop (bs : ByteArray) (i : Nat) (r : List UInt8) :
    ByteArray.toList.loop bs i r = r.reverse ++ bs.data.toList.drop i := by
  induction i, r using ByteArray.toList.loop.induct bs with
  | case1 i r hlt ih =>
    have hsize : i < bs.data.toList.length := hlt
    have hget : bs.get! i = bs.data.toList[i] := by
      cases bs
      exact getElem!_pos _ i hlt
    rw [ByteArray.toList.loop, if_pos hlt, ih, hget, List.drop_eq_getElem_cons hsize,
      List.reverse_cons, List.append_assoc, List.singleton_append]
  | case2 i r hge =>
    have hsize : bs.data.toList.length ≤ i := Nat.not_lt.mp hge
    rw [ByteArray.toList.loop, if_neg hge, List.drop_eq_nil_of_le hsize, List.append_nil]

theorem toList_eq (bs : ByteArray) : bs.toList = bs.data.toList := toList_loop bs 0 []

theorem foldl_bytes (ls : List String) (r : String) :
    (ls.foldl (fun r s => r ++ s) r).toUTF8.data.toList =
      r.toUTF8.data.toList ++ ls.flatMap fun s => s.toUTF8.data.toList := by
  induction ls generalizing r with
  | nil => rw [List.foldl_nil, List.flatMap_nil, List.append_nil]
  | cons s ls ih =>
    rw [List.foldl_cons, ih, List.flatMap_cons, ← List.append_assoc]
    rfl

theorem toList_join (ls : List String) :
    (String.join ls).toUTF8.toList = ls.flatMap fun s => s.toUTF8.data.toList := by
  rw [toList_eq]
  exact foldl_bytes ls ""

/-- The bytes of a domain without the loop that lists them. -/
theorem framed_eq (domain : String) :
    framed domain = beBytes 4 domain.utf8ByteSize ++ domain.toUTF8.data.toList := by
  unfold framed
  rw [toList_eq]
  rfl

/-! ## The fold -/

def foldNumber : BitVec 16 := 1

/-- The lines of `fold-manifest-v1.txt`. -/
def foldManifestLines : List String :=
  ["cc.fold-manifest.v1",
   "fold.number=1",
   "encoding=cc.event.v1;canon_version=1;constants_version=0",
   "ancestry=reflexive",
   "admission=single_admit;branch_local_parent_cone;pending_missing;invalid_propagates",
   "authority.root_grant=sha256(cc.root-grant.v1|genesis)",
   "authority.delegate_key=fresh_in_parent_cone",
   "authority.revoke_scope=strict_issuer_descendant_or_root_self",
   "authority.revocation=issuer_stratified_effective_revokes",
   "authority.cut=reflexive_acknowledged_past_intersection",
   "authority.cascade=signed_bool_target_subtree",
   "visibility.suppressed=revoked_concurrent,revoked_ancestor,canceled_grant,canceled_authority",
   "visibility.root_relinquishment=superseded",
   "frontier=maximal_eligible;effective_revokes_consume_strict_past",
   "subject.reading=resolved,contested,no_current_body;frozen_separate",
   "subject.authority_only_fork=contested",
   "resolve.join=surviving_common_grant_every_parent_and_join;incomparable_parents",
   "resolve.selection=eligible_reachable_revision_or_merged_body;all_dispositions",
   "revision.id=sha256(cc.revision.v1|subject|creating_event)",
   "order.event_ids=display_only",
   "order.asserted_time=never_authority_frontier_precedence_or_revocation",
   "edge.pins=both_endpoints;subject,basis,revision,body",
   "edge.status_precedence=invalid_pending,edge_conflict,endpoint_contested,stale,current",
   "edge.stale=basis_not_ancestor,revision_changed,revision_created_since_basis",
   "edge.no_current_body=stale",
   "edge.reaffirm=original_author_only;sorted_parents;one_old_pin_pair_each;endpoints_fixed",
   "edge.reaffirm_basis=any_valid_basis",
   "edge.relations=causation,co_occurrence,disputes,influence,participation",
   "edge.self_edge=admitted",
   "edge.dispute_author=source_subject_creator",
   "support.relations=causation,co_occurrence,influence,participation",
   "support.adjacency=undirected",
   "support.hop_bound=filter_parameter_max_hops",
   "support.trust=edge_author_and_endpoint_genesis_creators_in_curator_set",
   "support.same_subject=unsupported",
   "support.verdicts=supported,unsupported",
   "media.targets=revision,subject_event,edge_event",
   "media.event_binding=creating_event_revision_only",
   "media.revision_missing=pending_with_revision_reference",
   "media.inference=none",
   "as_of=after_fold;current_revision_asserted_coordinate_le_as_of",
   "as_of.unknown_time=not_visible",
   "projection.rows=cc.view-rows.json.v1"]

def foldManifest : String := String.join (foldManifestLines.map fun line => line ++ "\n")

def foldV1 (cr : Crypto) : FoldRef where
  version := foldNumber
  manifest := cr.sha256 foldManifest.toUTF8.toList

def supportedFold (cr : Crypto) (fold : FoldRef) : Bool := fold = foldV1 cr

/-! ## The filter -/

def trustPolicy : String := "cc.trust.curator-genesis-creator.v1"

/-- `TT_TAXONOMY_SHA256`. -/
def ttTaxonomy : Hash := 0x31ed385e26522a5b548f7404f7757ee370ed9783dbd550b05cd69e89e9462113

/-- Everything a v1 support verdict commits to besides the corpus. -/
structure FilterIdentity where
  fold : FoldRef
  encoding : BitVec 16
  constants : BitVec 16
  ontology : Hash
  curators : List Hash
  trustPolicy : String
  maxHops : BitVec 16
  deriving Repr, DecidableEq

inductive IdentityError where
  | curatorSet | maxHops
  deriving Repr, DecidableEq

namespace FilterIdentity

def governed (cr : Crypto) (curators : List Hash) (maxHops : BitVec 16) :
    Except IdentityError FilterIdentity :=
  if curators.isEmpty ∨ ¬ Increasing curators ∨ curators.any (fun k => !cr.authorKey k) then
    .error .curatorSet
  else if maxHops = 0 then .error .maxHops
  else .ok {
    fold := foldV1 cr
    encoding := canonVersion
    constants := constantsVersion
    ontology := ttTaxonomy
    curators
    trustPolicy := V1.trustPolicy
    maxHops }

def isGoverned (cr : Crypto) (f : FilterIdentity) : Bool :=
  match governed cr f.curators f.maxHops with
  | .ok g => g = f
  | .error _ => false

def canonical (f : FilterIdentity) : Bytes :=
  framed "cc.filter.v1" ++ beBytes 2 f.fold.version.toNat ++ hashBytes f.fold.manifest
    ++ beBytes 2 f.encoding.toNat ++ beBytes 2 f.constants.toNat ++ hashBytes f.ontology
    ++ beBytes 4 f.curators.length ++ f.curators.flatMap hashBytes
    ++ framed f.trustPolicy ++ beBytes 2 f.maxHops.toNat

def version (cr : Crypto) (f : FilterIdentity) : Hash := cr.sha256 f.canonical

end FilterIdentity

/-! ## Digests -/

/-- The digest of the retained candidate ids, in their order. -/
def corpusDigest (cr : Crypto) (ids : List Hash) : Hash :=
  cr.sha256 (framed "cc.corpus.v1" ++ beBytes 4 ids.length ++ ids.flatMap hashBytes)

def viewCommitment (cr : Crypto) (fold : FoldRef) (filterVersion corpus : Hash) (rows : Bytes) :
    Hash :=
  cr.sha256 (framed "cc.view.v1" ++ beBytes 2 canonVersion.toNat ++ beBytes 2 fold.version.toNat
    ++ hashBytes fold.manifest ++ hashBytes filterVersion ++ hashBytes corpus
    ++ beBytes 8 rows.length ++ rows)

/-- Cache keys name the filter, the corpus and the exact query bytes. -/
def cacheKey (cr : Crypto) (filterVersion corpus : Hash) (query : Bytes) : Hash :=
  cr.sha256 (framed "cc.cache.v1" ++ hashBytes filterVersion ++ hashBytes corpus
    ++ beBytes 8 query.length ++ query)

structure RuleId where
  foldVersion : BitVec 16
  foldManifest : Hash
  filterVersion : Hash
  deriving Repr, DecidableEq

def RuleId.of (cr : Crypto) (f : FilterIdentity) : RuleId where
  foldVersion := f.fold.version
  foldManifest := f.fold.manifest
  filterVersion := f.version cr

def RuleId.fold (r : RuleId) : FoldRef := ⟨r.foldVersion, r.foldManifest⟩

end Clockchain.V1
