import Clockchain.V1.Authority

/-!
# Revisions and selections

`revisions` and `selections` of `projection.rs`, and `body` of `authority.rs`.
-/

namespace Clockchain.V1
open Programs
set_option autoImplicit false

structure Revision where
  id : Hash
  subject : Hash
  creatingEvent : Hash
  body : Hash
  assertedTime : Option AssertedTime
  deriving Repr, DecidableEq

/-- The body an event binds to a new revision. -/
def Payload.newBody : Payload → Option Hash
  | .genesis _ body _ | .correction body _ | .resolve (.mergedBody body) _ _ => some body
  | _ => none

/-- `e.subject.unwrap_or(id)`. -/
def subjectOf (id : Hash) (event : Signed) : Hash := event.envelope.subject.getD id

def revisionOf (cr : Crypto) (id : Hash) (event : Signed) : Option Revision :=
  event.envelope.payload.newBody.map fun body =>
    { id := revisionId cr (subjectOf id event) id, subject := subjectOf id event,
      creatingEvent := id, body, assertedTime := event.envelope.assertedTime }

/-- Immutable revision records, including those of suppressed events. -/
def revisions (cr : Crypto) (valid : Candidates) : BTreeMap Revision :=
  .ofList ((valid.toList.filterMap fun item => revisionOf cr item.1 item.2).map fun r => (r.id, r))

def selectedBy (cr : Crypto) (out : BTreeMap Hash) (id : Hash) (event : Signed) : Option Hash :=
  match event.envelope.payload with
  | .genesis .. | .correction .. | .resolve (.mergedBody _) _ _ =>
    some (revisionId cr (subjectOf id event) id)
  | .resolve (.revision revision) _ _ => some revision
  | _ => do
    let parent ← (parentsOf event)[0]?
    out[parent]?

def selectionStep (cr : Crypto) (out : BTreeMap Hash) (item : Hash × Signed) :
    Option (BTreeMap Hash) := do
  let (id, event) := item
  if out.contains id || (parentsOf event).any fun p => !out.contains p then return out
  return out.insert id (← selectedBy cr out id event)

def selections (cr : Crypto) (valid : Candidates) : Option (BTreeMap Hash) :=
  loopWhile (fun out => out.size < valid.size) (valid.toList.foldlM (selectionStep cr))
    valid.size ∅

/-- The walk of `authority::body`, over at most `fuel` events. -/
def bodyFrom (cr : Crypto) (all : Candidates) : Nat → Hash → Option Hash
  | 0, _ => none
  | fuel + 1, id => do
    let event ← all[id]?
    match event.envelope.payload with
    | .genesis _ body _ | .correction body _ | .resolve (.mergedBody body) _ _ => return body
    | .resolve (.revision revision) _ _ => return (← (revisions cr all)[revision]?).body
    | _ => bodyFrom cr all fuel (← (parentsOf event)[0]?)

/-- The selected body on the single-parent path from `id`. -/
def body (cr : Crypto) (all : Candidates) (id : Hash) : Option Hash :=
  bodyFrom cr all all.size id

end Clockchain.V1
