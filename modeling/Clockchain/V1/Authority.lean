import Clockchain.Programs
import Clockchain.V1.Status
import Mathlib.Data.List.Sort

/-!
# Authority effects

`authority.rs`: the causal cone, `derive` and `in_scope`. Map indexing is the
`Option` bind of a lookup, so a run that returns has touched no absent key.
The closures of `derive` read what `Scan` holds.
-/

namespace Clockchain.V1
open Programs
set_option autoImplicit false

def parentsOf (event : Signed) : List Hash := event.envelope.parents

/-- One turn of the `todo` stack, its top first. -/
def coneTurn (all : Candidates) : List Hash × Candidates → Option (List Hash × Candidates)
  | ([], found) => some ([], found)
  | (id :: todo, found) =>
    if found.contains id then some (todo, found)
    else do
      let e ← all[id]?
      return ((parentsOf e).reverse ++ todo, found.insert id e)

def coneFuel (all : Candidates) : Nat :=
  1 + (all.toList.map fun item => (parentsOf item.2).length).sum

/-- The reflexive causal cone of `head`. -/
def cone (all : Candidates) (head : Hash) : Option Candidates := do
  let (_, found) ← loopWhile (fun s => !s.1.isEmpty) (coneTurn all) (coneFuel all) ([head], ∅)
  return found

def signer (cr : Crypto) (id : Hash) (event : Signed) : Hash :=
  event.envelope.grant.getD (rootGrant cr id)

/-! ## The first loop of `derive`: grants, lineage and ancestry -/

/-- The grant an event issues; a Delegate without a subject would panic. -/
def issued (cr : Crypto) (id : Hash) (e : Envelope) : Option (Option (Hash × Grant)) :=
  match e.payload with
  | .genesis .. => some (some (rootGrant cr id, ⟨id, none, e.author, id⟩))
  | .delegate grantee issuer _ => do
    let subject ← e.subject
    return some (id, ⟨id, some issuer, grantee, subject⟩)
  | _ => some none

structure Provenance where
  grants : BTreeMap Grant := ∅
  lineage : BTreeMap BTreeSet := ∅
  ancestors : BTreeMap BTreeSet := ∅

/-- The lineage of the grant that issued `grant`. -/
def Provenance.above (p : Provenance) (grant : Grant) : Option BTreeSet :=
  match grant.issuer with
  | none => some ∅
  | some i => p.lineage[i]?

def Provenance.record (p : Provenance) (g : Hash) (grant : Grant) : Option Provenance := do
  let path ← p.above grant
  return { p with lineage := p.lineage.insert g (path.insert g), grants := p.grants.insert g grant }

def provenanceStep (cr : Crypto) (p : Provenance) (item : Hash × Signed) : Option Provenance :=
  let (id, event) := item
  if p.ancestors.contains id || (parentsOf event).any fun q => !p.ancestors.contains q then some p
  else do
    let past ← (parentsOf event).foldlM (fun past q => do return past ∪ (← p.ancestors[q]?)) {id}
    let p := { p with ancestors := p.ancestors.insert id past }
    match ← issued cr id event.envelope with
    | none => return p
    | some (g, grant) => p.record g grant

def provenance (cr : Crypto) (valid : Candidates) : Option Provenance :=
  loopWhile (fun p => p.ancestors.size < valid.size) (valid.toList.foldlM (provenanceStep cr))
    valid.size {}

/-! ## Revocation -/

/-- The target and the cascade flag of a Revoke. -/
def revoked (event : Signed) : Option (Hash × Bool) :=
  match event.envelope.payload with
  | .revoke target cascade _ => some (target, cascade)
  | _ => none

def revokesOf (valid : Candidates) : BTreeMap (Hash × Bool) :=
  valid.filterMap fun _ event => revoked event

/-- What the closures of `derive` capture. -/
structure Scan where
  valid : Candidates
  revokes : BTreeMap (Hash × Bool)
  provenance : Provenance

namespace Scan
variable (s : Scan)

def covers (r g : Hash) : Option Bool := do
  let (target, cascade) ← s.revokes[r]?
  if target = g then return true
  if cascade then return (← s.provenance.lineage[g]?).contains target
  return false

def outside (e r : Hash) : Option Bool := do
  let event ← s.valid[r]?
  let parent ← (parentsOf event)[0]?
  return !(← s.provenance.ancestors[parent]?).contains e

/-- `order`: the grants by lineage depth; the sort is stable. -/
def order : Option (List Hash) := do
  let keyed ← s.provenance.grants.keys.mapM fun g => do
    return (g, (← s.provenance.lineage[g]?).size)
  return (keyed.insertionSort fun a b => a.2 ≤ b.2).map Prod.fst

/-- The effective revokes that cover `g` and do not have `e` in their cut. -/
def controls (effective : BTreeSet) (g e : Hash) : Option (List Hash) :=
  effective.toList.filterM fun r => s.covers r g <&&> s.outside e r

def cancellationStep (effective : BTreeSet) (canceled : BTreeMap BTreeSet) (g : Hash) :
    Option (BTreeMap BTreeSet) := do
  let grant ← s.provenance.grants[g]?
  match grant.issuer with
  | none => return canceled
  | some issuer =>
    let inherited := canceled[issuer]?.getD ∅
    let controls := inherited.insertMany (← s.controls effective issuer grant.issuedByEvent)
    return if controls.isEmpty then canceled else canceled.insert g controls

def cancellations (order : List Hash) (effective : BTreeSet) : Option (BTreeMap BTreeSet) :=
  order.foldlM (s.cancellationStep effective) ∅

variable (cr : Crypto)

def signerOf (id : Hash) : Option Hash := do return signer cr id (← s.valid[id]?)

def relinquishes (r : Hash) : Option Bool := do
  let (target, _) ← s.revokes[r]?
  if (← s.signerOf cr r) = target then
    return (← s.provenance.grants[target]?).issuer.isNone
  return false

def relinquishments : Option BTreeSet := do
  return .ofList (← s.revokes.keys.filterM (s.relinquishes cr))

/-- Whether stratum `depth` makes `r` effective. -/
def takesEffect (relinquishments : BTreeSet) (effective : BTreeSet)
    (canceled : BTreeMap BTreeSet) (depth : Nat) (r : Hash) : Option Bool := do
  let g ← s.signerOf cr r
  if (← s.provenance.lineage[g]?).size = depth && !relinquishments.contains r
      && !canceled.contains g then
    return !(← effective.toList.anyM fun q => s.covers q g <&&> s.outside r q)
  return false

def stratum (order : List Hash) (relinquishments : BTreeSet) (effective : BTreeSet)
    (depth : Nat) : Option BTreeSet := do
  let canceled ← s.cancellations order effective
  let batch ← s.revokes.keys.filterM (s.takesEffect cr relinquishments effective canceled depth)
  return effective.insertMany batch

/-- The strata `1..=depth`, starting from the relinquishments. -/
def strata (order : List Hash) (relinquishments : BTreeSet) (depth : Nat) : Option BTreeSet :=
  (List.range' 1 depth).foldlM (s.stratum cr order relinquishments) relinquishments

def maxDepth : Nat := (s.provenance.lineage.toList.map fun item => item.2.size).foldl max 0

def tombstones (effective : BTreeSet) : Option BTreeSet := do
  return .ofList (← s.provenance.grants.keys.filterM fun g =>
    effective.toList.anyM fun r => s.covers r g)

/-! ## Effects -/

def effect (relinquishments effective : BTreeSet) (canceled : BTreeMap BTreeSet) (id : Hash) :
    Option Effect := do
  let g ← s.signerOf cr id
  let controls ← s.controls effective g id
  if relinquishments.contains id then return ⟨.rootRelinquished, {id}⟩
  if !controls.isEmpty then return ⟨.revokedConcurrent, .ofList controls⟩
  if let some controls := canceled[id]? then return ⟨.canceledGrant, controls⟩
  if let some controls := canceled[g]? then return ⟨.canceledAuthority, controls⟩
  return ⟨.none, ∅⟩

def effects (relinquishments effective : BTreeSet) (canceled : BTreeMap BTreeSet) :
    Option (BTreeMap Effect) :=
  s.valid.toList.foldlM (fun effects item => do
    return effects.insert item.1 (← s.effect cr relinquishments effective canceled item.1)) ∅

end Scan

/-- A root act is never suppressed, so it taints no descendant. -/
def Effect.taints (effect : Effect) : Bool :=
  effect.reason ≠ .none && effect.reason ≠ .rootRelinquished

/-- The revokes an event inherits from its tainted parents. -/
def inheritedControls (effects : BTreeMap Effect) (event : Signed) : Option BTreeSet :=
  (parentsOf event).foldlM (fun controls p => do
    let effect ← effects[p]?
    return if effect.taints then controls ∪ effect.controllingRevokes else controls) ∅

/-- One visit of the taint loop; the flag is `changed`. -/
def taintStep (state : BTreeMap Effect × Bool) (item : Hash × Signed) :
    Option (BTreeMap Effect × Bool) := do
  let (effects, changed) := state
  let (id, event) := item
  if (← effects[id]?).reason ≠ .none then return (effects, changed)
  let controls ← inheritedControls effects event
  if controls.isEmpty then return (effects, changed)
  return (effects.insert id ⟨.revokedAncestor, controls⟩, true)

def taint (valid : Candidates) (effects : BTreeMap Effect) : Option (BTreeMap Effect) := do
  let (effects, _) ← loopWhile (fun state => state.2)
    (fun state => valid.toList.foldlM taintStep (state.1, false)) (valid.size + 1) (effects, true)
  return effects

/-- Only called with a causally closed set of valid events. -/
def derive (cr : Crypto) (valid : Candidates) : Option Authority := do
  let provenance ← provenance cr valid
  let s : Scan := ⟨valid, revokesOf valid, provenance⟩
  let order ← s.order
  let relinquishments ← s.relinquishments cr
  let effectiveRevokes ← s.strata cr order relinquishments s.maxDepth
  let canceled ← s.cancellations order effectiveRevokes
  let tombstones ← s.tombstones effectiveRevokes
  let active := provenance.grants.keys.filter fun g =>
    !canceled.contains g && !tombstones.contains g
  let effects ← s.effects cr relinquishments effectiveRevokes canceled
  return {
    grants := provenance.grants
    active := .ofList active
    tombstones := tombstones
    effectiveRevokes := effectiveRevokes
    canceled := .ofList canceled.keys
    effects := ← taint valid effects }

/-! ## Scope -/

/-- The walk up the issuers; `fuel` bounds the grants it may visit. -/
def inScopeAbove (view : Authority) (signer : Hash) : Nat → Hash → Option Bool
  | 0, _ => none
  | fuel + 1, g => do
    match (← view.grants[g]?).issuer with
    | none => return false
    | some issuer => if issuer = signer then return true else inScopeAbove view signer fuel issuer

def inScope (view : Authority) (signer target : Hash) : Option Bool := do
  if signer = target then return (← view.grants[target]?).issuer.isNone
  inScopeAbove view signer view.grants.size target

end Clockchain.V1
