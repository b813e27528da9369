import Clockchain.Gateway.Read

/-!
# How stale an answer can be

An answer is what the node would have given within the freshness window of the request, as long
as no body is retained whose absence the cache holds, and the cache never goes back to an older
corpus, as long as the answers that replace its generation are none of an older one.
-/

namespace Clockchain.Gateway
open Json (Value)
open V1 (Hash BTreeMap Crypto)
set_option autoImplicit false

/-! ## The conditions -/

def digestOf : Except Failure Answer → Option String
  | .ok a => a.digest
  | .error _ => none

/-- The key and the digest of an answer that may still be put. -/
def Task.carries (maxBody : Nat) : Task → Option (String × String)
  | .got caller _ reply => (digestOf (reply.bind (received maxBody))).map fun d => (caller.path, d)
  | .put key _ a => a.digest.map fun d => (key, d)
  | _ => none

/-- The digest a task observes next, and when it was requested. -/
def Task.observes (maxBody : Nat) : Task → Option (String × Nat)
  | .got _ requested reply => (digestOf (reply.bind (received maxBody))).map fun d => (d, requested)
  | _ => none

section
variable (cr : Crypto) (folds : Folds)

/-- The keys whose answers are held, or may be put, for the corpus as it is. -/
def System.carried (sys : System) : List String :=
  (if sys.cache.current (sys.node.digest cr) then sys.cache.entries.keys else []) ++
    sys.tasks.filterMap fun t =>
      (t.carries sys.maxBody).bind fun c => if c.2 = sys.node.digest cr then some c.1 else none

/-- The body is none of the revision whose prose the path reads, or it is retained already. -/
def Node.Untouched (n : Node) (hash : Hash) (path : String) : Prop :=
  ∀ route ∈ Route.of path, ∀ revision ∈ route.revision, ∀ id ∈ hex32 revision,
    ∀ r ∈ folds.revision n.corpus id, r.1 = hash → hash ∈ n.bodies

instance (n : Node) (hash : Hash) (path : String) : Decidable (n.Untouched folds hash path) :=
  inferInstanceAs (Decidable (∀ route ∈ Route.of path, ∀ revision ∈ route.revision,
    ∀ id ∈ hex32 revision, ∀ r ∈ folds.revision n.corpus id, r.1 = hash → hash ∈ n.bodies))

/-- No corpus of the first digest is longer than one of the second. -/
def System.NotOlder (sys : System) (d d' : String) : Prop :=
  ∀ m ∈ sys.past, ∀ m' ∈ sys.past, m.2.digest cr = d → m'.2.digest cr = d' →
    m.2.corpus.length ≤ m'.2.corpus.length

instance (sys : System) (d d' : String) : Decidable (sys.NotOlder cr d d') :=
  inferInstanceAs (Decidable (∀ m ∈ sys.past, ∀ m' ∈ sys.past, m.2.digest cr = d →
    m'.2.digest cr = d' → m.2.corpus.length ≤ m'.2.corpus.length))

/-- An admitted event gives the corpus a digest it has not had, a retained body leaves the prose
that is held as it is, and an answer that replaces the generation is of no older corpus. -/
def Clear (sys : System) : Move → Prop
  | .arrive event => ∀ m ∈ sys.past,
      m.2.digest cr ≠ ({ sys.node with corpus := sys.node.corpus ++ [event] } : Node).digest cr
  | .retain hash _ => ∀ key ∈ sys.carried cr, sys.node.Untouched folds hash key
  | .step i _ => ∀ t ∈ sys.tasks[i]?, ∀ seen ∈ t.observes sys.maxBody,
      ∀ generation ∈ sys.cache.generation, generation.2 ≤ seen.2 →
        sys.NotOlder cr generation.1 seen.1
  | _ => True

instance (sys : System) : ∀ m, Decidable (Clear cr folds sys m)
  | .arrive event => inferInstanceAs (Decidable (∀ m ∈ sys.past, m.2.digest cr ≠
      ({ sys.node with corpus := sys.node.corpus ++ [event] } : Node).digest cr))
  | .retain hash _ =>
    inferInstanceAs (Decidable (∀ key ∈ sys.carried cr, sys.node.Untouched folds hash key))
  | .step i _ => inferInstanceAs (Decidable (∀ t ∈ sys.tasks[i]?, ∀ seen ∈ t.observes sys.maxBody,
      ∀ generation ∈ sys.cache.generation, generation.2 ≤ seen.2 →
        sys.NotOlder cr generation.1 seen.1))
  | .request _ | .tick _ | .fail .. | .stop _ => inferInstanceAs (Decidable True)

def ClearRun : System → List Move → Prop
  | _, [] => True
  | sys, m :: moves => Clear cr folds sys m ∧ ClearRun (sys.move cr folds m) moves

instance decidableClearRun : ∀ (sys : System) moves, Decidable (ClearRun cr folds sys moves)
  | _, [] => inferInstanceAs (Decidable True)
  | sys, m :: moves =>
    have := decidableClearRun (sys.move cr folds m) moves
    inferInstanceAs (Decidable (Clear cr folds sys m ∧
      ClearRun cr folds (sys.move cr folds m) moves))

/-! ## What the node answers -/

variable {cr folds} {n : Node} {path : String} {maxBody : Nat}

/-- The stripped answer of the node to the path. -/
def Node.Gives (cr : Crypto) (folds : Folds) (maxBody : Nat) (n : Node) (path : String)
    (e : Entry Value) : Prop :=
  ∃ digest, received maxBody (n.reply cr folds path) = .ok ⟨e.status, e.body, digest⟩

theorem received_ok {reply : Reply} {a : Answer} (h : received maxBody reply = .ok a) :
    a.status = reply.1 ∧ strip reply.2 = some (a.body, a.digest) := by
  unfold received at h
  split at h
  · nomatch h
  · split at h
    · nomatch h
    · split at h
      · nomatch h
      · split at h
        · nomatch h
        · rename_i hstrip
          obtain rfl := Except.ok.inj h
          exact ⟨rfl, hstrip⟩

theorem strip_refusal {status : Nat} {error : String} :
    strip (refusal status error).2 = some (.obj [("error", .str error)], none) := by
  simp [strip, refusal, List.lookup_cons]

theorem strip_named {fields : List (String × Value)} {body : Value} {d : String}
    (h : strip (.obj (n.named cr folds ++ fields)) = some (body, some d)) : d = n.digest cr := by
  simp only [strip, Node.named, List.cons_append, List.nil_append, Option.some.injEq,
    Prod.mk.injEq] at h
  obtain ⟨-, h⟩ := h
  simp [List.lookup_cons] at h
  exact h.2.symm

/-- A reply that names a digest names that of the corpus. -/
theorem reply_digest {a : Answer} {d : String}
    (h : received maxBody (n.reply cr folds path) = .ok a) (hd : a.digest = some d) :
    d = n.digest cr := by
  obtain ⟨-, h⟩ := received_ok h
  rw [hd] at h
  have hrefusal : ∀ {status : Nat} {error : String},
      strip (refusal status error).2 ≠ some (a.body, some d) := by
    intro status error heq
    simp [strip_refusal] at heq
  unfold Node.reply at h
  split at h
  · exact absurd h hrefusal
  · unfold Node.prose at h
    split at h
    · exact absurd h hrefusal
    · split at h
      · exact absurd h hrefusal
      · split at h
        · exact strip_named h
        · exact absurd h hrefusal
  · split at h
    · exact strip_named h
    · exact absurd h hrefusal

/-- A body that a path does not read leaves the reply to it. -/
theorem reply_retain {hash : Hash} {bytes : Codec.Bytes} (h : n.Untouched folds hash path) :
    ({ n with bodies := n.bodies.insertIfNew hash bytes } : Node).reply cr folds path =
      n.reply cr folds path := by
  unfold Node.reply
  cases hroute : Route.of path with
  | none => rfl
  | some route =>
    cases route with
    | prose revision query =>
      simp only
      unfold Node.prose
      split
      · rfl
      · cases hid : hex32 revision with
        | none => rfl
        | some id =>
          have hbody : ∀ r ∈ folds.revision n.corpus id,
              (n.bodies.insertIfNew hash bytes)[r.1]? = n.bodies[r.1]? := by
            intro r hr
            rw [Std.ExtTreeMap.getElem?_insertIfNew]
            split
            · rename_i hnew
              have heq : r.1 = hash := (Std.LawfulEqCmp.eq_of_compare hnew.1).symm
              exact absurd (h _ hroute revision rfl id hid r hr heq) hnew.2
            · rfl
          simp only [Node.proseOf]
          cases hr : folds.revision n.corpus id with
          | none => rfl
          | some r => simp only [hbody r hr]; rfl
    | _ => rfl

/-! ## Since a moment -/

/-- From some moment of the corpus `d` on, the node has given this answer for that corpus. -/
def Since (cr : Crypto) (folds : Folds) (maxBody : Nat) (past : List (Nat × Node)) (path : String)
    (e : Entry Value) (d : String) : Prop :=
  ∃ recent m older, past = recent ++ m :: older ∧ m.2.digest cr = d ∧
    m.2.Gives cr folds maxBody path e ∧
    ∀ m' ∈ recent, m'.2.digest cr = d → m'.2.Gives cr folds maxBody path e

variable {past : List (Nat × Node)} {e : Entry Value} {d : String}

theorem Since.named (h : Since cr folds maxBody past path e d) :
    ∃ m ∈ past, m.2.digest cr = d := by
  obtain ⟨recent, m, older, rfl, hd, -⟩ := h
  exact ⟨m, by simp, hd⟩

theorem Since.head {m : Nat × Node} (h : Since cr folds maxBody (m :: past) path e d)
    (hd : m.2.digest cr = d) : m.2.Gives cr folds maxBody path e := by
  obtain ⟨recent, m', older, heq, -, hgives, hrecent⟩ := h
  cases recent with
  | nil =>
    obtain ⟨rfl, -⟩ := List.cons.inj heq
    exact hgives
  | cons first recent =>
    obtain ⟨rfl, -⟩ := List.cons.inj heq
    exact hrecent m List.mem_cons_self hd

theorem Since.push {m : Nat × Node} (h : Since cr folds maxBody past path e d)
    (hm : m.2.digest cr = d → m.2.Gives cr folds maxBody path e) :
    Since cr folds maxBody (m :: past) path e d := by
  obtain ⟨recent, m', older, rfl, hd, hgives, hrecent⟩ := h
  refine ⟨m :: recent, m', older, rfl, hd, hgives, fun m'' hm'' => ?_⟩
  rcases List.mem_cons.mp hm'' with rfl | hm''
  · exact hm
  · exact hrecent m'' hm''

/-- The answer was given no earlier than any moment of that corpus. -/
theorem Since.fresh {m : Nat × Node} (h : Since cr folds maxBody past path e d)
    (hordered : past.Pairwise fun m m' => m'.1 ≤ m.1) (hm : m ∈ past) (hd : m.2.digest cr = d) :
    ∃ m' ∈ past, m.1 ≤ m'.1 ∧ m'.2.Gives cr folds maxBody path e := by
  obtain ⟨recent, m', older, rfl, -, hgives, hrecent⟩ := h
  rcases List.mem_append.mp hm with hm | hm
  · exact ⟨m, by simp [hm], le_rfl, hrecent m hm hd⟩
  · refine ⟨m', by simp, ?_, hgives⟩
    rcases List.mem_cons.mp hm with rfl | hm
    · exact le_rfl
    · exact (List.pairwise_cons.mp (List.pairwise_append.mp hordered).2.1).1 m hm

/-! ## The invariant -/

def Caller.begun : Caller → Nat
  | .request _ arrived => arrived
  | .probe started => started

/-- A moment of the corpus `d`, no earlier than `t`. -/
def System.Seen (cr : Crypto) (sys : System) (t : Nat) (d : String) : Prop :=
  ∃ m ∈ sys.past, t ≤ m.1 ∧ m.2.digest cr = d

/-- An answer the node gave no earlier than `t`, and gives for its corpus since. -/
structure System.Answered (cr : Crypto) (folds : Folds) (sys : System) (path : String) (t : Nat)
    (a : Answer) : Prop where
  gave : ∃ m ∈ sys.past, t ≤ m.1 ∧ received sys.maxBody (m.2.reply cr folds path) = .ok a
  since : ∀ d, a.digest = some d →
    Since cr folds sys.maxBody sys.past path ⟨a.status, a.body⟩ d

/-- What a task relies on. -/
def Task.Sound (cr : Crypto) (folds : Folds) (sys : System) : Task → Prop
  | .clock _ | .tell | .sent | .failed .. | .stopped => True
  | .look _ arrived | .join _ arrived | .wait _ arrived _ => arrived ≤ sys.now
  | .get _ arrived d => arrived ≤ sys.now ∧
      ∃ m ∈ sys.past, arrived ≤ m.1 + sys.cache.freshness ∧ m.2.digest cr = d
  | .send caller => caller.begun ≤ sys.now
  | .awaiting caller requested => caller.begun ≤ requested ∧ requested ≤ sys.now
  | .got caller requested reply => caller.begun ≤ requested ∧
      ∀ a, reply.bind (received sys.maxBody) = .ok a →
        sys.Answered cr folds caller.path requested a
  | .put key arrived a => sys.Answered cr folds key arrived a
  | .record started outcome => ∀ d, outcome = .ok d → sys.Seen cr started d
  | .served key arrived status body => ∃ m ∈ sys.past, arrived ≤ m.1 + sys.cache.freshness ∧
      m.2.Gives cr folds sys.maxBody key ⟨status, body⟩

/-- What holds after every move of a run. -/
structure Sound (cr : Crypto) (folds : Folds) (sys : System) : Prop where
  present : ∃ t rest, sys.past = (t, sys.node) :: rest ∧ t ≤ sys.now
  ordered : sys.past.Pairwise fun m m' => m'.1 ≤ m.1
  corpora : ∀ m ∈ sys.past, ∀ m' ∈ sys.past, m.2.digest cr = m'.2.digest cr →
    m.2.corpus = m'.2.corpus
  seen : ∀ d since, sys.cache.generation = some (d, since) → sys.Seen cr since d
  entries : ∀ d since path e, sys.cache.generation = some (d, since) → sys.cache.Has path e →
    Since cr folds sys.maxBody sys.past path e d
  last : ∀ started d, sys.probe.last = some (started, .ok d) → sys.Seen cr started d
  tasks : ∀ t ∈ sys.tasks, t.Sound cr folds sys

variable {sys sys' : System}

theorem System.Seen.mono {t t' : Nat} (h : sys.Seen cr t d) (hpast : sys.past ⊆ sys'.past)
    (ht : t' ≤ t) : sys'.Seen cr t' d := by
  obtain ⟨m, hm, hle, hd⟩ := h
  exact ⟨m, hpast hm, ht.trans hle, hd⟩

/-- A later state of the run, with the answers that tasks still carry given again. -/
structure System.Follows (cr : Crypto) (folds : Folds) (sys sys' : System) : Prop where
  now : sys.now ≤ sys'.now
  past : sys.past ⊆ sys'.past
  freshness : sys'.cache.freshness = sys.cache.freshness
  maxBody : sys'.maxBody = sys.maxBody

theorem System.Answered.mono {t t' : Nat} {a : Answer} (h : sys.Answered cr folds path t a)
    (hf : sys.Follows cr folds sys') (ht : t' ≤ t)
    (hsince : ∀ d, a.digest = some d →
      Since cr folds sys.maxBody sys.past path ⟨a.status, a.body⟩ d →
      Since cr folds sys'.maxBody sys'.past path ⟨a.status, a.body⟩ d) :
    sys'.Answered cr folds path t' a := by
  obtain ⟨m, hm, hle, hgave⟩ := h.gave
  refine ⟨⟨m, hf.past hm, ht.trans hle, ?_⟩, fun d hd => hsince d hd (h.since d hd)⟩
  rw [hf.maxBody]
  exact hgave

theorem Task.Sound.mono {t : Task} (h : t.Sound cr folds sys) (hf : sys.Follows cr folds sys')
    (hsince : ∀ path d e, t.carries sys.maxBody = some (path, d) →
      Since cr folds sys.maxBody sys.past path e d →
      Since cr folds sys'.maxBody sys'.past path e d) :
    t.Sound cr folds sys' := by
  cases t with
  | look key arrived => exact h.trans hf.now
  | join key arrived => exact h.trans hf.now
  | wait key arrived probe => exact h.trans hf.now
  | get key arrived d =>
    obtain ⟨harrived, m, hm, hle, hd⟩ := h
    exact ⟨harrived.trans hf.now, m, hf.past hm, by rwa [hf.freshness], hd⟩
  | send caller => exact h.trans hf.now
  | awaiting caller requested => exact ⟨h.1, h.2.trans hf.now⟩
  | got caller requested reply =>
    refine ⟨h.1, fun a ha => ?_⟩
    rw [hf.maxBody] at ha
    refine (h.2 a ha).mono hf le_rfl fun d hd => hsince caller.path d _ ?_
    simp [Task.carries, ha, digestOf, hd]
  | put key arrived a =>
    refine System.Answered.mono h hf le_rfl fun d hd => hsince key d _ ?_
    simp [Task.carries, hd]
  | record started outcome => exact fun d hd => (h d hd).mono hf.past le_rfl
  | served key arrived status body =>
    obtain ⟨m, hm, hle, hgives⟩ := h
    exact ⟨m, hf.past hm, by rwa [hf.freshness], by rwa [hf.maxBody]⟩
  | _ => trivial

/-! ## One move -/

/-- The node goes on, with the corpus it has or with one of a new digest. -/
theorem Sound.note {node : Node} (h : Sound cr folds sys)
    (hcorpora : ∀ m ∈ sys.past, m.2.digest cr = node.digest cr → m.2.corpus = node.corpus)
    (hnode : (∀ m ∈ sys.past, m.2.digest cr ≠ node.digest cr) ∨
      node.digest cr = sys.node.digest cr ∧
      ∀ path ∈ sys.carried cr, node.reply cr folds path = sys.node.reply cr folds path) :
    Sound cr folds { sys with node := node, past := (sys.now, node) :: sys.past } := by
  obtain ⟨t, rest, hpast, ht⟩ := h.present
  have hpush : ∀ path d e, (d = sys.node.digest cr → path ∈ sys.carried cr) →
      Since cr folds sys.maxBody sys.past path e d →
      Since cr folds sys.maxBody ((sys.now, node) :: sys.past) path e d := by
    intro path d e hcarried hsince
    refine hsince.push fun hd => ?_
    rcases hnode with hnew | ⟨hsame, hreply⟩
    · obtain ⟨m, hm, hmd⟩ := hsince.named
      exact absurd (hmd.trans hd.symm) (hnew m hm)
    · have hnow : d = sys.node.digest cr := hd.symm.trans hsame
      rw [hpast] at hsince
      obtain ⟨digest, hgives⟩ := hsince.head hnow.symm
      exact ⟨digest, by rwa [hreply path (hcarried hnow)]⟩
  have hpresent : ∀ m ∈ sys.past, m.1 ≤ sys.now := by
    intro m hm
    have hordered := h.ordered
    rw [hpast] at hm hordered
    rcases List.mem_cons.mp hm with rfl | hm
    · exact ht
    · exact ((List.pairwise_cons.mp hordered).1 m hm).trans ht
  have hf : sys.Follows cr folds
      { sys with node := node, past := (sys.now, node) :: sys.past } :=
    ⟨le_rfl, List.subset_cons_self _ _, rfl, rfl⟩
  refine {
    present := ⟨sys.now, sys.past, rfl, le_rfl⟩
    ordered := List.pairwise_cons.mpr ⟨hpresent, h.ordered⟩
    corpora := ?_
    seen := fun d since hgeneration => (h.seen d since hgeneration).mono hf.past le_rfl
    entries := ?_
    last := fun started d hlast => (h.last started d hlast).mono hf.past le_rfl
    tasks := ?_ }
  · intro m hm m' hm' hd
    rcases List.mem_cons.mp hm with rfl | hold
    · rcases List.mem_cons.mp hm' with rfl | hold'
      · rfl
      · exact (hcorpora m' hold' hd.symm).symm
    · rcases List.mem_cons.mp hm' with rfl | hold'
      · exact hcorpora m hold hd
      · exact h.corpora m hold m' hold' hd
  · intro d since path e hgeneration hhas
    refine hpush path d e (fun hd => ?_) (h.entries d since path e hgeneration hhas)
    obtain ⟨used, hentry⟩ := hhas
    refine List.mem_append_left _ ?_
    rw [if_pos (Cache.current_iff.mpr ⟨since, hd ▸ hgeneration⟩), Std.ExtTreeMap.mem_keys,
      Std.ExtTreeMap.mem_iff_isSome_getElem?, hentry]
    rfl
  · intro t ht
    refine (h.tasks t ht).mono hf fun path d e hcarries => hpush path d e fun hd => ?_
    refine List.mem_append_right _ (List.mem_filterMap.mpr ⟨t, ht, ?_⟩)
    rw [hcarries, Option.bind_some, if_pos hd]

theorem Task.Sound.set {t : Task} (ht : t.Sound cr folds sys) (i : Nat)
    (hf : sys.Follows cr folds sys') (hpast : sys'.past = sys.past) :
    ∀ u ∈ sys.tasks.set i t, u ∈ sys.tasks ∨ u.Sound cr folds sys' := by
  intro u hu
  rcases List.mem_or_eq_of_mem_set hu with hold | rfl
  · exact .inl hold
  · exact .inr (ht.mono hf fun path d e _ hsince => by rwa [hpast, hf.maxBody])

/-- What the gateway does leaves the node and its moments. -/
theorem Sound.act (h : Sound cr folds sys) (hf : sys.Follows cr folds sys')
    (hpast : sys'.past = sys.past) (hnode : sys'.node = sys.node)
    (hseen : ∀ d since, sys'.cache.generation = some (d, since) → sys.Seen cr since d)
    (hentries : ∀ d since path e, sys'.cache.generation = some (d, since) →
      sys'.cache.Has path e → Since cr folds sys.maxBody sys.past path e d)
    (hlast : ∀ started d, sys'.probe.last = some (started, .ok d) → sys.Seen cr started d)
    (htasks : ∀ t ∈ sys'.tasks, t ∈ sys.tasks ∨ t.Sound cr folds sys') : Sound cr folds sys' where
  present := by
    obtain ⟨t, rest, heq, ht⟩ := h.present
    exact ⟨t, rest, by rw [hpast, heq, hnode], ht.trans hf.now⟩
  ordered := by rw [hpast]; exact h.ordered
  corpora := by rw [hpast]; exact h.corpora
  seen := fun d since hgeneration => (hseen d since hgeneration).mono hf.past le_rfl
  entries := by rw [hpast, hf.maxBody]; exact hentries
  last := fun started d heq => (hlast started d heq).mono hf.past le_rfl
  tasks := fun t ht => by
    rcases htasks t ht with hold | hnew
    · exact (h.tasks t hold).mono hf fun path d e _ hsince => by rwa [hpast, hf.maxBody]
    · exact hnew

theorem Sound.set {t : Task} (h : Sound cr folds sys) (i : Nat) (ht : t.Sound cr folds sys) :
    Sound cr folds { sys with tasks := sys.tasks.set i t } := by
  have hf : sys.Follows cr folds { sys with tasks := sys.tasks.set i t } :=
    ⟨le_rfl, fun _ hm => hm, rfl, rfl⟩
  exact h.act hf rfl rfl h.seen h.entries h.last (ht.set i hf rfl)

/-- A cache that holds no more. -/
theorem Sound.less {c : Cache Value} {t : Task} (h : Sound cr folds sys) (i : Nat)
    (hc : Cache.Less c sys.cache) (ht : t.Sound cr folds sys) :
    Sound cr folds { sys with cache := c, tasks := sys.tasks.set i t } := by
  have hf : sys.Follows cr folds { sys with cache := c, tasks := sys.tasks.set i t } :=
    ⟨le_rfl, fun _ hm => hm, hc.freshness, rfl⟩
  refine h.act hf rfl rfl (fun d since hgeneration => ?_)
    (fun d since path e hgeneration hhas => ?_)
    h.last (ht.set i hf rfl)
  · exact h.seen d since (hc.generation ▸ hgeneration)
  · exact h.entries d since path e (hc.generation ▸ hgeneration) (hc.has path e hhas)

/-- A digest requested at a moment, and named by an answer since. -/
theorem Sound.observe {requested : Nat} {t : Task} (h : Sound cr folds sys) (i : Nat)
    (hd : sys.Seen cr requested d) (ht : t.Sound cr folds sys) :
    Sound cr folds { sys with
      cache := sys.cache.observe d requested
      tasks := sys.tasks.set i t } := by
  rcases sys.cache.observe_cases d requested with heq | ⟨since, hgeneration, -, heq⟩ | ⟨-, heq⟩
  · rw [heq]
    exact h.set i ht
  · rw [heq]
    have hf : sys.Follows cr folds { sys with
        cache := { sys.cache with generation := some (d, requested) }
        tasks := sys.tasks.set i t } := ⟨le_rfl, fun _ hm => hm, rfl, rfl⟩
    refine h.act hf rfl rfl (fun d' since' heq' => ?_) (fun d' since' path e heq' hhas => ?_) h.last
      (ht.set i hf rfl)
    · obtain ⟨rfl, rfl⟩ := Prod.mk.inj (Option.some.inj heq')
      exact hd
    · obtain ⟨rfl, rfl⟩ := Prod.mk.inj (Option.some.inj heq')
      exact h.entries d since path e hgeneration hhas
  · rw [heq]
    have hf : sys.Follows cr folds { sys with
        cache := { sys.cache with generation := some (d, requested) }.clear
        tasks := sys.tasks.set i t } := ⟨le_rfl, fun _ hm => hm, rfl, rfl⟩
    refine h.act hf rfl rfl (fun d' since' heq' => ?_) (fun d' since' path e heq' hhas => ?_) h.last
      (ht.set i hf rfl)
    · obtain ⟨rfl, rfl⟩ := Prod.mk.inj (Option.some.inj heq')
      exact hd
    · exact absurd hhas Cache.clear_has

theorem Sound.put {key : String} {arrived : Nat} {a : Answer} (h : Sound cr folds sys) (i : Nat)
    (ha : sys.Answered cr folds key arrived a) :
    Sound cr folds { sys with
      cache := System.kept sys.cache key a
      tasks := sys.tasks.set i (.served key arrived a.status a.body) } := by
  have hserved : (Task.served key arrived a.status a.body).Sound cr folds sys := by
    obtain ⟨m, hm, hle, hgave⟩ := ha.gave
    exact ⟨m, hm, hle.trans (Nat.le_add_right _ _), a.digest, hgave⟩
  unfold System.kept
  split
  · rename_i d hd
    split
    · obtain ⟨hgeneration, hfreshness, hhas⟩ :=
        sys.cache.put_cases d key ⟨a.status, a.body⟩
      have hf : sys.Follows cr folds { sys with
          cache := sys.cache.put d key ⟨a.status, a.body⟩
          tasks := sys.tasks.set i (.served key arrived a.status a.body) } :=
        ⟨le_rfl, fun _ hm => hm, hfreshness, rfl⟩
      refine h.act hf rfl rfl (fun d' since heq => ?_) (fun d' since path e heq hnew => ?_) h.last
        (hserved.set i hf rfl)
      · exact h.seen d' since (hgeneration ▸ heq)
      · rw [hgeneration] at heq
        rcases hhas path e hnew with hold | ⟨rfl, rfl, since', heq'⟩
        · exact h.entries d' since path e heq hold
        · obtain ⟨rfl, -⟩ := Prod.mk.inj (Option.some.inj (heq'.symm.trans heq))
          exact ha.since d hd
    · exact h.set i hserved
  · exact h.set i hserved

/-- A reply that has arrived. -/
theorem Sound.arrive {caller : Caller} {requested : Nat} {reply : Except Failure Reply}
    (h : Sound cr folds sys) (i : Nat) (ht : (Task.got caller requested reply).Sound cr folds sys) :
    Sound cr folds { sys with
      cache := System.observed sys.cache requested (reply.bind (received sys.maxBody))
      tasks := sys.tasks.set i (System.returned caller (reply.bind (received sys.maxBody))) } := by
  obtain ⟨hbegun, ht⟩ := ht
  cases hresult : reply.bind (received sys.maxBody) with
  | error f =>
    refine h.set i ?_
    cases caller with
    | request key arrived => trivial
    | probe started => exact fun d hd => nomatch hd
  | ok a =>
    have ha := ht a hresult
    have hreturned : (System.returned caller (.ok a)).Sound cr folds sys := by
      cases caller with
      | request key arrived =>
        obtain ⟨m, hm, hle, hgave⟩ := ha.gave
        exact ⟨⟨m, hm, hbegun.trans hle, hgave⟩, ha.since⟩
      | probe started =>
        obtain ⟨status, body, digest⟩ := a
        cases digest with
        | none => exact fun d hd => nomatch hd
        | some d =>
          intro d' hd'
          have hok : d = d' := by
            split at hd'
            · exact Except.ok.inj hd'
            · nomatch hd'
          subst hok
          obtain ⟨m, hm, hle, hgave⟩ := ha.gave
          exact ⟨m, hm, hbegun.trans hle, (reply_digest hgave rfl).symm⟩
    obtain ⟨status, body, digest⟩ := a
    cases digest with
    | none => exact h.set i hreturned
    | some d =>
      obtain ⟨m, hm, hle, hgave⟩ := ha.gave
      exact h.observe i ⟨m, hm, hle, (reply_digest hgave rfl).symm⟩ hreturned

theorem Sound.joined {key : String} {arrived : Nat} (h : Sound cr folds sys) (i delay : Nat)
    (harrived : arrived ≤ sys.now) : Sound cr folds (sys.joined i delay key arrived) := by
  have hget : ∀ {since : Nat} {d : String}, sys.Seen cr since d →
      arrived ≤ since + sys.cache.freshness → (Task.get key arrived d).Sound cr folds sys := by
    rintro since d ⟨m, hm, hle, hd⟩ hfresh
    exact ⟨harrived, m, hm, hfresh.trans (Nat.add_le_add_right hle _), hd⟩
  have hstart : Sound cr folds (sys.begin i delay key arrived) := by
    unfold System.begin
    split
    · exact h.set i harrived
    · split
      · rename_i d hd
        obtain ⟨since, hgeneration, hfresh⟩ := Cache.freshDigest_some hd
        exact h.set i (hget (h.seen d since hgeneration) (by omega))
      · have hf : sys.Follows cr folds { sys with
            now := sys.now + delay
            probe := { sys.probe with inflight := some sys.tasks.length }
            tasks := sys.tasks.set i (.wait key arrived sys.tasks.length) ++
              [.send (.probe (sys.now + delay))] } :=
          ⟨Nat.le_add_right _ _, fun _ hm => hm, rfl, rfl⟩
        have hwait : (Task.wait key arrived sys.tasks.length).Sound cr folds sys := harrived
        refine h.act hf rfl rfl h.seen h.entries h.last fun u hu => ?_
        rcases List.mem_append.mp hu with hu | hu
        · exact hwait.set i hf rfl u hu
        · obtain rfl := List.mem_singleton.mp hu
          exact .inr (le_refl (sys.now + delay))
  unfold System.joined
  split
  · rename_i started outcome hlast
    split
    · rename_i hle
      refine h.set i ?_
      cases outcome with
      | error f => trivial
      | ok d => exact hget (h.last started d hlast) (hle.trans (Nat.le_add_right _ _))
    · exact hstart
  · exact hstart

theorem Sound.stepTask {t : Task} (h : Sound cr folds sys)
    (hpresent : (sys.now, sys.node) ∈ sys.past) (i delay : Nat) (ht : t.Sound cr folds sys) :
    Sound cr folds (sys.stepTask cr folds i delay t) := by
  cases t with
  | clock key => exact h.set i (le_refl sys.now)
  | look key arrived =>
    rw [System.stepTask]
    split
    · rename_i d hd
      obtain ⟨since, hgeneration, hfresh⟩ := Cache.freshDigest_some hd
      obtain ⟨m, hm, hle, hmd⟩ := h.seen d since hgeneration
      exact h.set i ⟨ht, m, hm, by omega, hmd⟩
    · exact h.set i ht
  | join key arrived => exact h.joined i delay ht
  | wait key arrived probe =>
    rw [System.stepTask]
    have hfailed : Sound cr folds { sys with
        probe := { sys.probe with inflight := none }
        tasks := sys.tasks.set i (.failed key .badGateway) } := by
      have hf : sys.Follows cr folds { sys with
          probe := { sys.probe with inflight := none }
          tasks := sys.tasks.set i (.failed key .badGateway) } :=
        ⟨le_rfl, fun _ hm => hm, rfl, rfl⟩
      have hnext : (Task.failed key .badGateway).Sound cr folds sys := trivial
      exact h.act hf rfl rfl h.seen h.entries h.last (hnext.set i hf rfl)
    split
    · exact h.set i ht
    · exact hfailed
    · exact hfailed
    · exact h
  | get key arrived d =>
    obtain ⟨harrived, m, hm, hle, hd⟩ := ht
    rw [System.stepTask]
    split
    · rename_i e cache hget
      obtain ⟨⟨since, hgeneration⟩, hhas, rfl⟩ := Cache.get_some hget
      obtain ⟨m', hm', hle', hgives⟩ :=
        (h.entries d since key e hgeneration hhas).fresh h.ordered hm hd
      exact h.less i Cache.touch_less ⟨m', hm', hle.trans (Nat.add_le_add_right hle' _), hgives⟩
    · rename_i cache hget
      obtain rfl := Cache.get_none hget
      exact h.set i harrived
  | send caller => exact h.set i ⟨ht, le_refl sys.now⟩
  | awaiting caller requested =>
    obtain ⟨hbegun, hrequested⟩ := ht
    refine h.set i ⟨hbegun, fun a ha => ?_⟩
    have hgave : received sys.maxBody (sys.node.reply cr folds caller.path) = .ok a := ha
    refine ⟨⟨_, hpresent, hrequested, hgave⟩, fun d hd => ?_⟩
    obtain ⟨t, rest, hpast, -⟩ := h.present
    rw [hpast]
    exact ⟨[], _, rest, rfl, (reply_digest hgave hd).symm, ⟨a.digest, hgave⟩,
      fun _ hm => nomatch hm⟩
  | got caller requested reply => exact h.arrive i ht
  | put key arrived a => exact h.put i ht
  | record started outcome =>
    have hf : sys.Follows cr folds { sys with
        probe := ⟨some (started, outcome), none⟩
        tasks := sys.tasks.set i .tell } := ⟨le_rfl, fun _ hm => hm, rfl, rfl⟩
    have hnext : Task.tell.Sound cr folds sys := trivial
    refine h.act hf rfl rfl h.seen h.entries (fun started' d heq => ?_) (hnext.set i hf rfl)
    obtain ⟨rfl, rfl⟩ := Prod.mk.inj (Option.some.inj heq)
    exact ht d rfl
  | tell => exact h.set i trivial
  | sent | served | failed | stopped => exact h

/-- The present noted once more. -/
theorem Sound.again (h : Sound cr folds sys) :
    Sound cr folds { sys with past := (sys.now, sys.node) :: sys.past } := by
  obtain ⟨t, rest, hpast, -⟩ := h.present
  have hpresent : (t, sys.node) ∈ sys.past := by simp [hpast]
  exact h.note (fun m hm hd => h.corpora m hm _ hpresent hd) (.inr ⟨rfl, fun _ _ => rfl⟩)

theorem act_none {i delay : Nat} (h : sys.tasks[i]? = none) :
    sys.act cr folds (.step i delay) = sys := by
  simp only [System.act, h]

theorem act_some {i delay : Nat} {t : Task} (h : sys.tasks[i]? = some t) :
    sys.act cr folds (.step i delay) = sys.stepTask cr folds i delay t := by
  simp only [System.act, h]

theorem past_stepTask {t : Task} {i delay : Nat} :
    (sys.stepTask cr folds i delay t).past = sys.past := by
  cases t with
  | join key arrived =>
    have hbegin : (sys.begin i delay key arrived).past = sys.past := by
      unfold System.begin
      split
      · rfl
      · split <;> rfl
    rw [System.stepTask, System.joined]
    split
    · split
      · rfl
      · exact hbegin
    · exact hbegin
  | look | wait | get =>
    rw [System.stepTask]
    split <;> rfl
  | _ => rfl

theorem past_act {m : Move} : (sys.act cr folds m).past = sys.past := by
  cases m with
  | step i delay =>
    cases ht : sys.tasks[i]? with
    | none => rw [act_none ht]
    | some t => rw [act_some ht, past_stepTask]
  | fail | stop =>
    rw [System.act]
    split <;> rfl
  | _ => rfl

theorem past_move {m : Move} : sys.past ⊆ (sys.move cr folds m).past := by
  have hpast : (sys.move cr folds m).past =
      ((sys.act cr folds m).now, (sys.act cr folds m).node) :: (sys.act cr folds m).past := rfl
  rw [hpast, past_act]
  exact List.subset_cons_self _ _

/-- The step lemma. -/
theorem Sound.move {m : Move} (h : Sound cr folds sys)
    (hpresent : (sys.now, sys.node) ∈ sys.past) (hclear : Clear cr folds sys m) :
    Sound cr folds (sys.move cr folds m) := by
  cases m with
  | request key =>
    have hf : sys.Follows cr folds { sys with tasks := sys.tasks ++ [.clock key] } :=
      ⟨le_rfl, fun _ hm => hm, rfl, rfl⟩
    refine Sound.again (h.act hf rfl rfl h.seen h.entries h.last fun u hu => ?_)
    rcases List.mem_append.mp hu with hold | hnew
    · exact .inl hold
    · obtain rfl := List.mem_singleton.mp hnew
      exact .inr trivial
  | tick delay =>
    have hf : sys.Follows cr folds { sys with now := sys.now + delay } :=
      ⟨Nat.le_add_right _ _, fun _ hm => hm, rfl, rfl⟩
    exact Sound.again (h.act hf rfl rfl h.seen h.entries h.last fun u hu => .inl hu)
  | arrive event =>
    exact h.note (fun m hm hd => absurd hd (hclear m hm)) (.inl hclear)
  | retain hash bytes =>
    exact h.note (fun m hm hd => h.corpora m hm _ hpresent hd)
      (.inr ⟨rfl, fun path hpath => reply_retain (hclear path hpath)⟩)
  | step i delay =>
    have hact : Sound cr folds (sys.act cr folds (.step i delay)) := by
      cases ht : sys.tasks[i]? with
      | none => rwa [act_none ht]
      | some t =>
        rw [act_some ht]
        exact h.stepTask hpresent i delay (h.tasks t (List.mem_of_getElem? ht))
    exact hact.again
  | fail i failure =>
    have hact : Sound cr folds (sys.act cr folds (.fail i failure)) := by
      rw [System.act]
      split
      · rename_i caller requested ht
        have hbegun := (h.tasks _ (List.mem_of_getElem? ht)).1
        exact h.set i ⟨hbegun, fun a ha => nomatch ha⟩
      · exact h
    exact hact.again
  | stop i =>
    have hact : Sound cr folds (sys.act cr folds (.stop i)) := by
      rw [System.act]
      split
      · rename_i t ht
        refine h.set i ?_
        have hsound := h.tasks t (List.mem_of_getElem? ht)
        cases t <;> first | exact hsound | trivial
      · exact h
    exact hact.again

/-! ## The generation -/

/-- A corpus of the first digest, and one of the second that is no shorter. -/
def System.Later (cr : Crypto) (sys : System) (d d' : String) : Prop :=
  ∃ m ∈ sys.past, ∃ m' ∈ sys.past, m.2.digest cr = d ∧ m'.2.digest cr = d' ∧
    m.2.corpus.length ≤ m'.2.corpus.length

instance {d' : String} : Decidable (sys.Later cr d d') :=
  inferInstanceAs (Decidable (∃ m ∈ sys.past, ∃ m' ∈ sys.past, m.2.digest cr = d ∧
    m'.2.digest cr = d' ∧ m.2.corpus.length ≤ m'.2.corpus.length))

theorem System.Later.mono {d' : String} (h : sys.Later cr d d') (hpast : sys.past ⊆ sys'.past) :
    sys'.Later cr d d' := by
  obtain ⟨m, hm, m', hm', h⟩ := h
  exact ⟨m, hpast hm, m', hpast hm', h⟩

theorem Sound.later_trans {d' d'' : String} (h : Sound cr folds sys) (hd : sys.Later cr d d')
    (hd' : sys.Later cr d' d'') : sys.Later cr d d'' := by
  obtain ⟨m, hm, m₁, hm₁, hmd, hmd₁, hle⟩ := hd
  obtain ⟨m₂, hm₂, m₃, hm₃, hmd₂, hmd₃, hle'⟩ := hd'
  have heq := h.corpora m₁ hm₁ m₂ hm₂ (hmd₁.trans hmd₂.symm)
  exact ⟨m, hm, m₃, hm₃, hmd, hmd₃, by rw [heq] at hle; exact hle.trans hle'⟩

theorem Sound.later_refl {since : Nat} (h : Sound cr folds sys)
    (hgeneration : sys.cache.generation = some (d, since)) : sys.Later cr d d := by
  obtain ⟨m, hm, -, hd⟩ := h.seen d since hgeneration
  exact ⟨m, hm, m, hm, hd, hd, le_rfl⟩

/-- What a task observes was seen. -/
theorem Task.Sound.observes {t : Task} {requested : Nat} (h : t.Sound cr folds sys)
    (hsees : t.observes sys.maxBody = some (d, requested)) : sys.Seen cr requested d := by
  cases t with
  | got caller requested' reply =>
    obtain ⟨-, h⟩ := h
    simp only [Task.observes] at hsees
    cases hresult : reply.bind (received sys.maxBody) with
    | error f =>
      rw [hresult] at hsees
      nomatch hsees
    | ok a =>
      rw [hresult] at hsees
      obtain ⟨digest, hdigest, heq⟩ := Option.map_eq_some_iff.mp hsees
      obtain ⟨rfl, rfl⟩ := Prod.mk.inj heq
      obtain ⟨m, hm, hle, hgave⟩ := (h a hresult).gave
      exact ⟨m, hm, hle, (reply_digest hgave hdigest).symm⟩
  | _ => nomatch hsees

/-- A step changes the generation only where an answer is observed. -/
theorem generation_stepTask {t : Task} {i delay : Nat} :
    (sys.stepTask cr folds i delay t).cache.generation = sys.cache.generation ∨
    ∃ d requested, t.observes sys.maxBody = some (d, requested) ∧
      (sys.stepTask cr folds i delay t).cache = sys.cache.observe d requested := by
  cases t with
  | look key arrived =>
    rw [System.stepTask]
    split <;> exact .inl rfl
  | join key arrived =>
    have hstart : (sys.begin i delay key arrived).cache = sys.cache := by
      unfold System.begin
      split
      · rfl
      · split <;> rfl
    refine .inl (congrArg Cache.generation ?_)
    rw [System.stepTask, System.joined]
    split
    · split
      · rfl
      · exact hstart
    · exact hstart
  | wait key arrived probe =>
    rw [System.stepTask]
    split <;> exact .inl rfl
  | get key arrived d =>
    rw [System.stepTask]
    split
    · rename_i e cache hget
      obtain ⟨-, -, rfl⟩ := Cache.get_some hget
      exact .inl Cache.touch_generation
    · rename_i cache hget
      obtain rfl := Cache.get_none hget
      exact .inl rfl
  | got caller requested reply =>
    rw [System.stepTask]
    cases hresult : reply.bind (received sys.maxBody) with
    | error f => exact .inl rfl
    | ok a =>
      obtain ⟨status, body, digest⟩ := a
      cases digest with
      | none => exact .inl rfl
      | some d => exact .inr ⟨d, requested, by simp [Task.observes, hresult, digestOf], rfl⟩
  | put key arrived a =>
    rw [System.stepTask]
    refine .inl ?_
    simp only [System.kept]
    split
    · split
      · exact (sys.cache.put_cases _ _ _).1
      · rfl
    · rfl
  | _ => exact .inl rfl

theorem Sound.generation_move {m : Move} {since : Nat} (h : Sound cr folds sys)
    (hpresent : (sys.now, sys.node) ∈ sys.past) (hclear : Clear cr folds sys m)
    (hgeneration : sys.cache.generation = some (d, since)) :
    ∃ d' since', (sys.move cr folds m).cache.generation = some (d', since') ∧
      (sys.move cr folds m).Later cr d d' := by
  have hnext := h.move hpresent hclear
  have hcache : (sys.move cr folds m).cache = (sys.act cr folds m).cache := rfl
  have hsame : (sys.act cr folds m).cache.generation = sys.cache.generation →
      ∃ d' since', (sys.move cr folds m).cache.generation = some (d', since') ∧
        (sys.move cr folds m).Later cr d d' := fun heq =>
    ⟨d, since, heq.trans hgeneration, hnext.later_refl (heq.trans hgeneration)⟩
  cases m with
  | step i delay =>
    cases ht : sys.tasks[i]? with
    | none => exact hsame (by rw [act_none ht])
    | some t =>
      rw [act_some ht] at hcache hsame
      rcases generation_stepTask with heq | ⟨d', requested, hsees, heq⟩
      · exact hsame heq
      · rcases sys.cache.observe_cases d' requested with
          hobs | ⟨since', hgeneration', -, hobs⟩ | ⟨hle, hobs⟩
        · exact hsame (by rw [heq, hobs])
        · obtain ⟨rfl, -⟩ := Prod.mk.inj (Option.some.inj (hgeneration'.symm.trans hgeneration))
          have hnow : (sys.move cr folds (.step i delay)).cache.generation =
              some (d', requested) := by rw [hcache, heq, hobs]
          exact ⟨d', requested, hnow, hnext.later_refl hnow⟩
        · have hnow : (sys.move cr folds (.step i delay)).cache.generation =
              some (d', requested) := by rw [hcache, heq, hobs]; rfl
          refine ⟨d', requested, hnow, ?_⟩
          obtain ⟨m, hm, -, hd⟩ := h.seen d since hgeneration
          obtain ⟨m', hm', -, hd'⟩ := (h.tasks t (List.mem_of_getElem? ht)).observes hsees
          have hle := hclear t ht _ hsees _ hgeneration (hle d since hgeneration) m hm m' hm' hd hd'
          have hpast := @past_move cr folds sys (.step i delay)
          exact ⟨m, hpast hm, m', hpast hm', hd, hd', hle⟩
  | fail i failure =>
    refine hsame ?_
    rw [System.act]
    split <;> rfl
  | stop i =>
    refine hsame ?_
    rw [System.act]
    split <;> rfl
  | _ => exact hsame rfl

/-! ## Every run -/

theorem present_move {m : Move} : ((sys.move cr folds m).now, (sys.move cr folds m).node) ∈
    (sys.move cr folds m).past := List.mem_cons_self

theorem sound_start (node : Node) (freshness maxBytes maxBody : Nat) :
    Sound cr folds (System.start node freshness maxBytes maxBody) where
  present := ⟨0, [], rfl, le_rfl⟩
  ordered := List.pairwise_singleton _ _
  corpora := by
    intro m hm m' hm' _
    obtain rfl := List.mem_singleton.mp hm
    obtain rfl := List.mem_singleton.mp hm'
    rfl
  seen := fun _ _ h => nomatch h
  entries := fun _ _ _ _ h => nomatch h
  last := fun _ _ h => nomatch h
  tasks := fun _ h => nomatch h

theorem Sound.run {moves : List Move} (h : Sound cr folds sys)
    (hpresent : (sys.now, sys.node) ∈ sys.past) (hclear : ClearRun cr folds sys moves) :
    Sound cr folds (sys.run cr folds moves) := by
  induction moves generalizing sys with
  | nil => exact h
  | cons m moves ih => exact ih (h.move hpresent hclear.1) present_move hclear.2

theorem past_run {moves : List Move} : sys.past ⊆ (sys.run cr folds moves).past := by
  induction moves generalizing sys with
  | nil => exact fun _ hm => hm
  | cons m moves ih => exact fun _ hm => ih (past_move hm)

/-- The generation of a later state is that of a corpus that is no shorter. -/
theorem Sound.generation_run {moves : List Move} {since : Nat} (h : Sound cr folds sys)
    (hpresent : (sys.now, sys.node) ∈ sys.past) (hclear : ClearRun cr folds sys moves)
    (hgeneration : sys.cache.generation = some (d, since)) :
    ∃ d' since', (sys.run cr folds moves).cache.generation = some (d', since') ∧
      (sys.run cr folds moves).Later cr d d' := by
  induction moves generalizing sys d since with
  | nil => exact ⟨d, since, hgeneration, h.later_refl hgeneration⟩
  | cons m moves ih =>
    obtain ⟨d₁, since₁, hgeneration₁, hlater₁⟩ := h.generation_move hpresent hclear.1 hgeneration
    have hnext := h.move hpresent hclear.1
    obtain ⟨d₂, since₂, hgeneration₂, hlater₂⟩ := ih hnext present_move hclear.2 hgeneration₁
    refine ⟨d₂, since₂, hgeneration₂, ?_⟩
    exact (hnext.run present_move hclear.2).later_trans (hlater₁.mono past_run) hlater₂

theorem present_run {moves : List Move} (hpresent : (sys.now, sys.node) ∈ sys.past) :
    ((sys.run cr folds moves).now, (sys.run cr folds moves).node) ∈
      (sys.run cr folds moves).past := by
  induction moves generalizing sys with
  | nil => exact hpresent
  | cons m moves ih => exact ih present_move

theorem clearRun_append {before after : List Move}
    (h : ClearRun cr folds sys (before ++ after)) :
    ClearRun cr folds sys before ∧ ClearRun cr folds (sys.run cr folds before) after := by
  induction before generalizing sys with
  | nil => exact ⟨trivial, h⟩
  | cons m before ih =>
    obtain ⟨hbefore, hafter⟩ := ih h.2
    exact ⟨⟨h.1, hbefore⟩, hafter⟩

/-- Every answer is what the node gave no earlier than a window before the request. -/
def System.Fresh (cr : Crypto) (folds : Folds) (sys : System) : Prop :=
  ∀ path arrived status body, .served path arrived status body ∈ sys.tasks →
    ∃ m ∈ sys.past, arrived ≤ m.1 + sys.cache.freshness ∧
      m.2.Gives cr folds sys.maxBody path ⟨status, body⟩

/-- The generation does not go back from `sys` to `sys'`. -/
def System.Forward (cr : Crypto) (sys sys' : System) : Prop :=
  ∀ d since, sys.cache.generation = some (d, since) → ∃ d' since',
    sys'.cache.generation = some (d', since') ∧ sys'.Later cr d d'

theorem gateway_fresh {node : Node} {freshness maxBytes maxBody : Nat} {before after : List Move}
    (h : ClearRun cr folds (System.start node freshness maxBytes maxBody) (before ++ after)) :
    ((System.start node freshness maxBytes maxBody).run cr folds before).Fresh cr folds ∧
      ((System.start node freshness maxBytes maxBody).run cr folds before).Forward cr
        ((System.start node freshness maxBytes maxBody).run cr folds (before ++ after)) := by
  obtain ⟨hbefore, hafter⟩ := clearRun_append h
  have hstart : (0, node) ∈ (System.start node freshness maxBytes maxBody).past :=
    List.mem_cons_self
  have hsound := (sound_start node freshness maxBytes maxBody).run hstart hbefore
  refine ⟨fun path arrived status body hserved => hsound.tasks _ hserved,
    fun d since hgeneration => ?_⟩
  rw [System.run, List.foldl_append]
  exact hsound.generation_run (present_run hstart) hafter hgeneration

end

namespace Sample

def corpusBytes (ids : List Hash) : Codec.Bytes :=
  V1.framed "cc.corpus.v1" ++ Codec.beBytes 4 ids.length ++ ids.flatMap V1.hashBytes

def proseBytes : Codec.Bytes := "prose".toUTF8.data.toList
def proseHash : Hash := 0x8e8cc5a7ecc7cf5af31c4deba5f11e97131bd324cc4dbe3098bdedaa69b43f32

/-- SHA-256 on the corpora and the body. -/
def digests : List (Codec.Bytes × Hash) := [
  (corpusBytes [], 0x9e19b7c98d15edb4232969ede2c5d862e3e762b9a67d48651579dd49a82d8ffb),
  (corpusBytes [1], 0x9d70d1bcc61879a9f8810085589f2d0c0c702665ed4a56e8cd9e8331087dc143),
  (proseBytes, proseHash)]

def crypto : Crypto where
  sha256 bytes := ((digests.find? fun p => p.1 == bytes).map Prod.snd).getD 0
  authorKey _ := true

/-- One revision, whose body is the prose; no other subject. -/
def folds : Folds where
  rule := .null
  commitment := fun _ => 0
  read := fun _ _ => .ok (404, [("visibility", .str "subject_unknown")])
  revision := fun _ id => if id = 0 then some (proseHash, .null) else none

def prosePath : String := "/v1/revisions/" ++ String.ofList (List.replicate 64 '0') ++ "/prose"

def start : System := .start ⟨[], ∅⟩ 5 10000 10000

def steps (i n : Nat) : List Move := List.replicate n (.step i 0)

/-- A request, with the probe it starts at `i + 1`. -/
def probed (path : String) (i : Nat) : List Move :=
  [.request path] ++ steps i 3 ++ steps (i + 1) 5 ++ steps i 7

/-- The body is retained after the answer that it is not, and the same is asked for later. -/
def later : List Move := probed prosePath 0 ++ [.retain proseHash proseBytes, .tick 10] ++
  probed prosePath 2

/-- Two reads, the second answered before an event and the first after it. -/
def crossed : List Move := [.request "/v1/snapshot"] ++ steps 0 3 ++ steps 1 5 ++ steps 0 3 ++
  [.request "/v1/snapshot"] ++ steps 2 3 ++ steps 0 1 ++ [.tick 1] ++ steps 2 2 ++ [.arrive 1] ++
  steps 0 2

/-- The body is retained before it is asked for, and an event is admitted after. -/
def inOrder : List Move := [.retain proseHash proseBytes] ++ probed prosePath 0 ++ [.arrive 1]

/-- Whether there is a body behind the prose. -/
def availability : Value → Option String
  | .obj members => match members.lookup "availability" with
    | some (.str s) => some s
    | _ => none
  | _ => none

def served : Task → Option (String × Nat × Option String)
  | .served path arrived _ body => some (path, arrived, availability body)
  | _ => none

def laterOn : System := start.run crypto folds later

theorem later_served : laterOn.tasks[2]?.bind served = some (prosePath, 10, some "unavailable") ∧
    laterOn.cache.freshness = 5 ∧
    ∀ m ∈ laterOn.past, 5 ≤ m.1 → m.2.bodies[proseHash]? = some proseBytes := by
  decide +kernel

theorem prosePath_route : Route.of prosePath = some (.prose (List.replicate 64 0x30) []) := by
  decide

theorem gives_available {n : Node} {maxBody : Nat} {e : Entry Value}
    (hbody : n.bodies[proseHash]? = some proseBytes)
    (h : n.Gives crypto folds maxBody prosePath e) : availability e.body = some "available" := by
  obtain ⟨digest, h⟩ := h
  obtain ⟨-, h⟩ := received_ok h
  have hid : hex32 (List.replicate 64 0x30) = some 0 := by decide
  have hhash : crypto.sha256 proseBytes = proseHash := by decide +kernel
  have htext : String.fromUTF8? ⟨proseBytes.toArray⟩ = some "prose" := by decide
  have hfound : n.proseOf crypto folds 0 = .ok [("availability", .str "available"),
      ("prose", .str "prose"), ("revision", .null)] := by
    simp [Node.proseOf, folds, hbody, hhash, htext]
  simp only [Node.reply, prosePath_route, Node.prose, List.any_nil, Bool.false_eq_true, if_false,
    hid, hfound, strip, Node.named] at h
  simp at h
  rw [← h.1]
  simp [availability, List.lookup_cons]

def crossedBefore : System := start.run crypto folds crossed
def crossedAfter : System := crossedBefore.run crypto folds (steps 2 1)

def emptyDigest : String := "9e19b7c98d15edb4232969ede2c5d862e3e762b9a67d48651579dd49a82d8ffb"
def oneDigest : String := "9d70d1bcc61879a9f8810085589f2d0c0c702665ed4a56e8cd9e8331087dc143"

theorem crossed_back : (crossedBefore.cache.generation = some (oneDigest, 0) ∧
    crossedAfter.cache.generation = some (emptyDigest, 1)) ∧
    ∀ m ∈ crossedAfter.past, m.2.corpus = [] ∨ m.2.corpus = [1] := by
  decide +kernel

theorem digest_corpora : (∀ n : Node, n.corpus = [] → n.digest crypto = emptyDigest) ∧
    ∀ n : Node, n.corpus = [1] → n.digest crypto = oneDigest := by
  have hempty : (⟨[], ∅⟩ : Node).digest crypto = emptyDigest := by decide +kernel
  have hone : (⟨[1], ∅⟩ : Node).digest crypto = oneDigest := by decide +kernel
  refine ⟨fun n hn => ?_, fun n hn => ?_⟩
  · rw [← hempty, Node.digest, Node.digest, hn]
  · rw [← hone, Node.digest, Node.digest, hn]

/-- A held answer about a body outlives the body's arrival, and an answer from before an event
takes the place of one from after. -/
theorem gateway_stale : ¬ laterOn.Fresh crypto folds ∧
    ¬ crossedBefore.Forward crypto crossedAfter := by
  refine ⟨fun h => ?_, fun h => ?_⟩
  · obtain ⟨hserved, hfreshness, hretained⟩ := later_served
    obtain ⟨t, ht, hserved⟩ := Option.bind_eq_some_iff.mp hserved
    cases t with
    | served path arrived status body =>
      simp only [served, Option.some.injEq, Prod.mk.injEq] at hserved
      obtain ⟨rfl, rfl, hbody⟩ := hserved
      obtain ⟨m, hm, hle, hgives⟩ := h _ _ status body (List.mem_of_getElem? ht)
      rw [hfreshness] at hle
      have havailable := gives_available (hretained m hm (by omega)) hgives
      rw [hbody] at havailable
      simp at havailable
    | _ => nomatch hserved
  · obtain ⟨d', since', hgeneration, m, hm, m', hm', hd, hd', hle⟩ := h _ _ crossed_back.1.1
    rw [crossed_back.1.2] at hgeneration
    obtain ⟨rfl, -⟩ := Prod.mk.inj (Option.some.inj hgeneration)
    have hne : emptyDigest ≠ oneDigest := by decide
    have hone : m.2.corpus = [1] := by
      rcases crossed_back.2 m hm with hcorpus | hcorpus
      · exact absurd ((digest_corpora.1 m.2 hcorpus).symm.trans hd) hne
      · exact hcorpus
    have hempty : m'.2.corpus = [] := by
      rcases crossed_back.2 m' hm' with hcorpus | hcorpus
      · exact hcorpus
      · exact absurd (hd'.symm.trans (digest_corpora.2 m'.2 hcorpus)) hne
    rw [hone, hempty] at hle
    exact absurd hle (by decide)

theorem inOrder_clear : ClearRun crypto folds start inOrder := by decide +kernel

theorem inOrder_fresh : (start.run crypto folds inOrder).Fresh crypto folds :=
  (@gateway_fresh crypto folds ⟨[], ∅⟩ 5 10000 10000 inOrder []
    (by rw [List.append_nil]; exact inOrder_clear)).1

end Sample

end Clockchain.Gateway
