import Clockchain.V1.Arrival
import Clockchain.V1.Grants
import Clockchain.V1.Observation
import Clockchain.V1.Packets
import Clockchain.V1.Replicas

/-!
# Packets beside other writers

What every move of a system keeps: the tables hold verified events, a run holds a context that was
read from them, and nothing foreign is admitted behind its back unless the move does it.
-/

namespace Clockchain.V1.Publisher.Entry
open Codec Maps Programs Relation
set_option autoImplicit false

/-! ## Reading an export -/

section
variable {cr : Crypto} {verify : Verify} {instanceId : Hash}

theorem addEnvelope_ok {i : Nat} {bytes : Bytes} {events events' : BTreeMap Decoded} :
    Context.addEnvelope cr verify instanceId i bytes events = .ok events' ↔
      ∃ d, decode cr verify bytes = .ok d ∧ d.envelope.instanceId = instanceId ∧ d.id ∉ events ∧
        events' = events.insert d.id d := by
  unfold Context.addEnvelope
  cases decode cr verify bytes with
  | error e => simp
  | ok d =>
    dsimp only
    by_cases hinst : d.envelope.instanceId ≠ instanceId
    · rw [if_pos hinst]
      simp [hinst]
    · rw [if_neg hinst]
      by_cases hmem : d.id ∈ events
      · simp [hmem]
      · rw [if_neg (by simpa using hmem), Except.ok.injEq]
        constructor
        · rintro rfl
          exact ⟨d, rfl, not_not.mp hinst, hmem, rfl⟩
        · rintro ⟨e, he, -, -, rfl⟩
          rw [Except.ok.inj he]

/-- The events read are those there were and those of the envelopes. -/
theorem addEnvelopes_get {l : List Bytes} {i : Nat} {events events' : BTreeMap Decoded}
    (h : Context.addEnvelopes cr verify instanceId i l events = .ok events') (id : Hash)
    (d : Decoded) : events'[id]? = some d ↔
      events[id]? = some d ∨ ∃ b ∈ l, decode cr verify b = .ok d ∧ d.id = id := by
  induction l generalizing i events with
  | nil =>
    obtain rfl := Except.ok.inj h
    simp
  | cons b l ih =>
    obtain ⟨added, hadd, h⟩ := bind_ok.mp h
    obtain ⟨e, he, -, hnew, rfl⟩ := addEnvelope_ok.mp hadd
    rw [ih h, getElem?_insert]
    simp only [List.mem_cons, exists_eq_or_imp, he, Except.ok.injEq]
    by_cases hid : e.id = id
    · subst hid
      have hnone : events[e.id]? = none := Std.ExtTreeMap.getElem?_eq_none hnew
      simp only [if_pos, hnone, Option.some.injEq, reduceCtorEq, false_or]
      refine or_congr_left (Iff.symm (and_iff_left_of_imp ?_))
      rintro rfl
      rfl
    · rw [if_neg hid]
      have hne : ¬ (e = d ∧ d.id = id) := by
        rintro ⟨rfl, rfl⟩
        exact hid rfl
      simp only [hne, false_or]

theorem addEnvelopes_total {ds : List Decoded} {i : Nat} {events : BTreeMap Decoded}
    (hds : ∀ d ∈ ds, decode cr verify d.bytes = .ok d ∧ d.envelope.instanceId = instanceId)
    (hnodup : (ds.map Decoded.id).Nodup) (hnew : ∀ d ∈ ds, d.id ∉ events) :
    ∃ events', Context.addEnvelopes cr verify instanceId i (ds.map Decoded.bytes) events =
      .ok events' := by
  induction ds generalizing i events with
  | nil => exact ⟨events, rfl⟩
  | cons d ds ih =>
    obtain ⟨hd, hinst⟩ := hds d List.mem_cons_self
    obtain ⟨hout, hnodup⟩ := List.nodup_cons.mp hnodup
    have hadd : Context.addEnvelope cr verify instanceId i d.bytes events =
        .ok (events.insert d.id d) :=
      addEnvelope_ok.mpr ⟨d, hd, hinst, hnew d List.mem_cons_self, rfl⟩
    have hrest : ∀ e ∈ ds, e.id ∉ events.insert d.id d := by
      intro e he hmem
      rcases mem_map_insert.mp hmem with heq | hmem
      · exact hout (heq ▸ List.mem_map_of_mem he)
      · exact hnew e (List.mem_cons_of_mem d he) hmem
    obtain ⟨events', h⟩ := ih (i := i + 1) (fun e he => hds e (List.mem_cons_of_mem d he)) hnodup
      hrest
    exact ⟨events', by rw [List.map_cons, Context.addEnvelopes, hadd]; exact h⟩

theorem fromExport_ok {m : ExportManifest} {ctx : Context}
    (h : Context.fromExport cr verify instanceId m = some (.ok ctx)) :
    Context.addEnvelopes cr verify instanceId 0 m.envelopes ∅ = .ok ctx.events := by
  unfold Context.fromExport at h
  simp only [run_unless_ok, run_bind_ok, liftExcept_ok, liftOption_ok] at h
  obtain ⟨-, events, hevents, h⟩ := h
  obtain ⟨-, projection, -, h⟩ := h
  obtain rfl := Except.ok.inj (Option.some.inj h)
  exact hevents

end

/-! ## The node's tables -/

section
variable {cr : Crypto} {verify : Verify} {store : Store} {node : Option SecretKey}
variable {filter : FilterIdentity} {U : Candidates} {t : Tables} {now : BitVec 64}

/-- Tables that admissions of events of `U` have written. -/
structure Fits (cr : Crypto) (verify : Verify) (store : Store) (filter : FilterIdentity)
    (U : Candidates) (t : Tables) : Prop where
  sound : store.Sound cr verify t
  bound : store.Bound cr t filter
  within : t.Within cr verify U

/-- An envelope of this instance is an event of `U`. -/
def Known (cr : Crypto) (verify : Verify) (store : Store) (U : Candidates) (bytes : Bytes) : Prop :=
  ∀ d, decode cr verify bytes = .ok d → d.envelope.instanceId = store.instanceId →
    U[d.id]? = some d.toSigned

/-- An admission retains the event of its envelope, and no other. -/
theorem admitted_mem {bytes : Bytes} {a : Recorded}
    (h : store.admitOnce cr verify t bytes node now = some (.ok a)) (id : Hash) :
    id ∈ a.tables.candidates ↔ id ∈ t.candidates ∨ ∃ d, decode cr verify bytes = .ok d ∧
      d.envelope.instanceId = store.instanceId ∧ d.id = id := by
  obtain ⟨observer, -, h⟩ := lift_bind_ok.mp h
  obtain ⟨judged, hjudged, h⟩ := run_bind_ok.mp h
  rw [record_candidates (Option.some.inj h)]
  cases judged with
  | rejected reason =>
    refine (or_iff_left ?_).symm
    rintro ⟨d, hd, hinst, -⟩
    unfold Store.judge at hjudged
    rw [hd] at hjudged
    simp only [if_neg (not_not.mpr hinst)] at hjudged
    obtain ⟨all, -, h⟩ := lift_bind_ok.mp hjudged
    obtain ⟨analysis, -, h⟩ := run_bind_ok.mp h
    split at h <;> cases h
  | candidate d st au =>
    obtain ⟨hd, hinst⟩ := judge_decoded hjudged
    simp only [mem_insertIfNew]
    rw [or_comm, eq_comm (a := id)]
    refine or_congr_right ⟨fun hid => ⟨d, hd, hinst, hid⟩, ?_⟩
    rintro ⟨e, he, -, rfl⟩
    rw [Except.ok.inj (hd.symm.trans he)]

theorem outcome_mem {bytes : Bytes} {a : Recorded} {id : Hash}
    (h : store.admitOnce cr verify t bytes node now = some (.ok a))
    (hevent : a.outcome.event = some id) : id ∈ a.tables.candidates := by
  obtain ⟨observer, -, h⟩ := lift_bind_ok.mp h
  obtain ⟨judged, -, h⟩ := run_bind_ok.mp h
  have hrecord := Option.some.inj h
  rw [record_candidates hrecord]
  cases judged with
  | rejected reason =>
    obtain rfl := Except.ok.inj hrecord
    cases hevent
  | candidate d st au =>
    obtain ⟨receipt, -, hrecord⟩ := bind_ok.mp hrecord
    obtain ⟨tables, -, hrecord⟩ := bind_ok.mp hrecord
    obtain rfl := Except.ok.inj hrecord
    obtain rfl := Option.some.inj hevent
    exact mem_insertIfNew.mpr (Or.inl rfl)

theorem Fits.admission (fits : Fits cr verify store filter U t) {bytes : Bytes} {a : Recorded}
    (known : Known cr verify store U bytes)
    (h : store.admitOnce cr verify t bytes node now = some (.ok a)) :
    Fits cr verify store filter U a.tables := by
  have sound := fits.sound.admission h
  refine ⟨sound, ⟨fits.bound.rule, fits.bound.supported, (admission_rule h).trans
    fits.bound.recorded⟩, ⟨fun {id wire d} hwire hd => ?_⟩⟩
  obtain ⟨observer, -, h⟩ := lift_bind_ok.mp h
  obtain ⟨judged, hjudged, h⟩ := run_bind_ok.mp h
  have hrows := record_candidates (Option.some.inj h)
  cases judged with
  | rejected reason =>
    rw [hrows] at hwire
    exact fits.within.sub hwire hd
  | candidate e st au =>
    rw [hrows] at hwire
    rcases getElem?_insertIfNew.mp hwire with hwire | ⟨-, rfl, rfl⟩
    · exact fits.within.sub hwire hd
    · obtain ⟨he, hinst⟩ := judge_decoded hjudged
      obtain rfl := Except.ok.inj (he.symm.trans hd)
      exact known _ he hinst

/-- The candidates of the tables with an event in hand, as `judge` folds them. -/
theorem Fits.judged (free : CollisionFree cr U) (fits : Fits cr verify store filter U t)
    {d : Decoded} (hd : decode cr verify d.bytes = .ok d)
    (hinst : d.envelope.instanceId = store.instanceId) (hU : U[d.id]? = some d.toSigned) :
    ∃ all out s, ∃ A : Authority, ∃ st, store.verifiedCandidates cr verify t = .ok all ∧
      Within (candidatesOf (all.insert d.id d)) U ∧
      Verdicts cr (candidatesOf (all.insert d.id d)) out s ∧ out[d.id]? = some st ∧
      store.judge cr verify t d.bytes = some (.ok (.candidate d st A.effects[d.id]?)) := by
  have hwithin : ∀ all, store.verifiedCandidates cr verify t = .ok all →
      Within (candidatesOf (all.insert d.id d)) U := by
    intro all hall
    rw [candidatesOf_insert]
    refine ⟨fun {e s} he => ?_⟩
    rw [getElem?_insert] at he
    split_ifs at he with hid
    · obtain rfl := Option.some.inj he
      exact hid ▸ hU
    · exact ((verified_within fits.sound hall).mp fits.within).sub he
  obtain ⟨all, out, s, A, st, hall, verdicts, hst, hjudge⟩ := judge_candidate fits.sound hd hinst
    fun all hall => free.within (hwithin all hall)
  exact ⟨all, out, s, A, st, hall, hwithin all hall, verdicts, hst, hjudge⟩

/-- What receipts need, if the node signs any: a key pair, and no two rows with one digest. -/
def Signing (cr : Crypto) (verify : Verify) (store : Store) (filter : FilterIdentity)
    (node : Option SecretKey) : Prop :=
  ∀ key ∈ node, key.Works cr verify ∧
    ∀ t bytes now, store.ReceiptFree cr verify t bytes key filter now

theorem Signing.none : Signing cr verify store filter none := by
  intro key hkey
  cases hkey

theorem valid_eq {C : Candidates} {out : BTreeMap Status} {s : Subjects}
    (verdicts : Verdicts cr C out s) {e : Hash} {signed : Signed} {st : Status}
    (hs : C[e]? = some signed) (hst : out[e]? = some st) (hvalid : st.state = .valid) :
    st = .valid := by
  have shaped : st.Shaped maxSet := by
    refine verdicts.shaped hs hst fun hbare edge old new d hp => Nat.not_lt.mp fun hover => ?_
    obtain ⟨hlen, -, habsent⟩ := (missingHistory_over (signed.canonical _ List.mem_cons_self).2
      signed.parents_nodup).mp hover
    have hparents : signed.envelope.parents ≠ [] := by
      intro hnil
      rw [hnil] at hlen
      cases hlen
    obtain rfl := Option.some.inj
      (hst.symm.trans (verdicts.missing hs hbare hp habsent hparents))
    cases hvalid
  cases shaped with
  | valid => rfl
  | invalid => cases hvalid
  | pending => cases hvalid

/-- A valid verdict is recorded, with or without a receipt. -/
theorem Fits.recorded (fits : Fits cr verify store filter U t)
    (signing : Signing cr verify store filter node) (now : BitVec 64) {d : Decoded}
    (hd : decode cr verify d.bytes = .ok d) {st : Status} {au : Option Effect}
    (hjudge : store.judge cr verify t d.bytes = some (.ok (.candidate d st au)))
    (hst : st = Status.valid) : ∃ a,
      store.admitOnce cr verify t d.bytes node now = some (.ok a) ∧
      a.outcome = ⟨some d.id, cr.sha256 d.bytes, st.answer, au⟩ := by
  have plain : store.record cr verify t d.bytes none now (.candidate d st au) =
      .ok ⟨{ t with candidates := t.candidates.insertIfNew d.id d.bytes },
        ⟨some d.id, cr.sha256 d.bytes, st.answer, au⟩, none⟩ := rfl
  cases node with
  | none =>
    rw [admit_judged rfl hjudge, plain]
    exact ⟨_, rfl, rfl⟩
  | some key =>
    obtain ⟨works, receiptFree⟩ := signing key rfl
    have hkey : store.observer cr (some key) = .ok (some (key, filter)) := by
      simp only [Store.observer, Store.bound, fits.bound.rule]
      rfl
    rw [admit_judged hkey hjudge]
    by_cases hmem : d.id ∈ t.candidates
    · rw [record_retained hmem, plain]
      exact ⟨_, rfl, rfl⟩
    · obtain ⟨r, hr⟩ : ∃ r, receiptFor cr verify key store.instanceId filter d.id st now = .ok r :=
        receiptFor_some works (hst ▸ .valid)
      have hdigest : cr.sha256 r.bytes ∉ t.receipts := by
        intro hdigest
        obtain ⟨⟨event, wire⟩, hrow⟩ := mem_iff.mp hdigest
        obtain ⟨heq, hevent, r', hr', hid'⟩ := fits.sound.receipt hrow
        obtain rfl := receiptFree t d.bytes now hd hr hrow heq.symm
        obtain ⟨hdecode, hid⟩ := receiptFor_decoded hr
        obtain rfl := Except.ok.inj (hr'.symm.trans hdecode)
        exact hmem (hid ▸ hid' ▸ hevent)
      have hsame : (store.record cr verify t d.bytes (some (key, filter)) now
          (.candidate d st au)).map Recorded.semantic =
            (store.record cr verify t d.bytes none now (.candidate d st au)).map
              Recorded.semantic := record_observed hmem hr hdigest
      rw [plain] at hsame
      cases hrecord : store.record cr verify t d.bytes (some (key, filter)) now
          (.candidate d st au) with
      | error e =>
        rw [hrecord] at hsame
        cases hsame
      | ok a =>
        rw [hrecord] at hsame
        exact ⟨a, rfl, congrArg Prod.fst (Except.ok.inj hsame)⟩

end

/-! ## Packets built on a context -/

section
variable {cr : Crypto} {verify : Verify} {store : Store} {U : Candidates} {ctx : Context}
variable {p : Packet cr verify}

/-- What the builders check of a packet before they write it, and the order they list events in. -/
structure Packet.Built (store : Store) (U : Candidates) (ctx : Context) (p : Packet cr verify) :
    Prop where
  inst : ctx.instanceId = store.instanceId
  corpus : Within (candidatesOf ctx.events) U
  context : p.context = corpusDigest cr ctx.events.keys
  new : ∀ e ∈ p.events, e.id ∉ ctx.events
  checked : ctx.selfCheck cr p.events = some (.ok ())
  ordered : p.events.Pairwise fun a b =>
    ¬ Reaches cr (candidatesOf (Context.withEvents ctx.events p.events)) a.id b.id

/-- The events of a packet are of `U`. -/
def Packet.Of (U : Candidates) (p : Packet cr verify) : Prop :=
  ∀ e ∈ p.events, U[e.id]? = some e.toSigned

theorem allValid_ok {status : BTreeMap Status} {l : List Decoded} :
    Context.allValid status l = some (.ok ()) ↔
      ∀ s ∈ l, ∃ st : Status, status[s.id]? = some st ∧ st.state = .valid := by
  induction l with
  | nil => exact iff_of_true rfl (by simp)
  | cons s l ih =>
    unfold Context.allValid
    simp only [run_bind_ok, liftOption_ok, run_unless_ok, ih, not_not, List.forall_mem_cons, ne_eq]
    constructor
    · rintro ⟨st, hst, hvalid, hrest⟩
      exact ⟨⟨st, hst, hvalid⟩, hrest⟩
    · rintro ⟨⟨st, hst, hvalid⟩, hrest⟩
      exact ⟨st, hst, hvalid, hrest⟩

theorem withEvents_mem {events : BTreeMap Decoded} {new : List Decoded} {id : Hash} :
    id ∈ Context.withEvents events new ↔ id ∈ events ∨ ∃ d ∈ new, d.id = id := by
  induction new generalizing events with
  | nil => simp [Context.withEvents]
  | cons d new ih =>
    rw [Context.withEvents, List.foldl_cons]
    refine ih.trans ?_
    rw [mem_map_insert]
    simp only [List.mem_cons, exists_eq_or_imp, eq_comm (a := id)]
    rw [or_comm (a := d.id = id), or_assoc]

theorem withEvents_within {events : BTreeMap Decoded} {new : List Decoded}
    (hevents : Within (candidatesOf events) U) (hnew : ∀ d ∈ new, U[d.id]? = some d.toSigned) :
    Within (candidatesOf (Context.withEvents events new)) U := by
  induction new generalizing events with
  | nil => exact hevents
  | cons d new ih =>
    have hadd : Within (candidatesOf (events.insert d.id d)) U := by
      refine ⟨fun {e s} he => ?_⟩
      rw [candidatesOf_insert, getElem?_insert] at he
      split_ifs at he with hid
      · obtain rfl := Option.some.inj he
        exact hid ▸ hnew d List.mem_cons_self
      · exact hevents.sub he
    exact ih hadd fun x hx => hnew x (List.mem_cons_of_mem d hx)

theorem selfCheck_ok {new : List Decoded} (h : ctx.selfCheck cr new = some (.ok ())) :
    (∀ s ∈ new, s.envelope.instanceId = ctx.instanceId) ∧ ∃ status,
      classify cr (candidatesOf (Context.withEvents ctx.events new)) = some status ∧
      ∀ s ∈ new, ∃ st : Status, status[s.id]? = some st ∧ st.state = .valid := by
  unfold Context.selfCheck at h
  simp only [run_unless_ok, run_bind_ok, liftOption_ok, allValid_ok] at h
  obtain ⟨hinst, status, hstatus, hvalid⟩ := h
  exact ⟨by simpa using hinst, status, hstatus, hvalid⟩

/-- An event is valid wherever the context and the events listed before it are. -/
theorem Packet.Built.valid (built : p.Built store U ctx) (member : p.Of U)
    (free : CollisionFree cr U) {C : Candidates} (within : Within C U) {out : BTreeMap Status}
    {s : Subjects} (verdicts : Verdicts cr C out s) {done rest : List Decoded} {e : Decoded}
    (hsplit : p.events = done ++ e :: rest) (hctx : ∀ id ∈ ctx.events, id ∈ C)
    (hdone : ∀ d ∈ done, d.id ∈ C) (he : e.id ∈ C) :
    ∃ st : Status, out[e.id]? = some st ∧ st.state = .valid := by
  have hbase := withEvents_within built.corpus member
  obtain ⟨base, s', hout, verdicts'⟩ := classify_spec (free.within hbase)
  obtain ⟨-, status, hstatus, hvalid⟩ := selfCheck_ok built.checked
  obtain rfl := Option.some.inj (hout.symm.trans hstatus)
  have hmem : e ∈ p.events := by simp [hsplit]
  obtain ⟨st, hst, hstate⟩ := hvalid e hmem
  have hself : (candidatesOf (Context.withEvents ctx.events p.events))[e.id]? = some e.toSigned :=
    hbase.get (mem_candidatesOf.mpr (withEvents_mem.mpr (Or.inr ⟨e, hmem, rfl⟩))) (member e hmem)
  have later : ∀ x ∈ rest, ¬ Reaches cr
      (candidatesOf (Context.withEvents ctx.events p.events)) e.id x.id := by
    have hpair := built.ordered
    rw [hsplit, List.pairwise_append] at hpair
    rw [hsplit]
    exact (List.pairwise_cons.mp hpair.2.1).1
  have hext : Extends cr (candidatesOf (Context.withEvents ctx.events p.events)) C e.id := by
    intro d hreach t ht
    refine within.get ?_ (hbase.sub ht)
    rcases withEvents_mem.mp (mem_candidatesOf.mp (mem_of_getElem? ht)) with hd | ⟨x, hx, rfl⟩
    · exact hctx d hd
    · rw [hsplit, List.mem_append, List.mem_cons] at hx
      rcases hx with hx | rfl | hx
      · exact hdone x hx
      · exact he
      · exact absurd hreach (later x hx)
  obtain ⟨st', hst', heq⟩ :=
    verdict_persists verdicts' verdicts hself hext st hst (by simp [hstate])
  exact ⟨st', hst', heq.trans hstate⟩

end

/-! ## What a run has found out -/

/-- The context a run holds. -/
def Phase.ctx : Phase → Option Context
  | .fetched ctx | .matched ctx | .posting ctx _ _ => some ctx
  | .approved | .submitted | .failed _ | .stopped => none

/-- The context a run has compared with its packet's. -/
def Phase.compared : Phase → Option Context
  | .matched ctx | .posting ctx _ _ => some ctx
  | .approved | .fetched _ | .submitted | .failed _ | .stopped => none

section
variable {cr : Crypto} {verify : Verify} {debug : String → String} {store : Store}
variable {node : Option SecretKey} {filter : FilterIdentity} {U : Candidates} {t t' : Tables}
variable {site : Site} {r : Run cr verify} {h : Health} {now : BitVec 64} {ctx : Context}

/-- What a run relies on while it holds a context. -/
structure Run.Holds (U : Candidates) (t : Tables) (r : Run cr verify) : Prop where
  member : r.packet.Of U
  read : ∀ ctx ∈ r.phase.ctx, Within (candidatesOf ctx.events) U ∧
    ∀ id ∈ ctx.events, id ∈ t.candidates
  compared : ∀ ctx ∈ r.phase.compared, withoutPacket ctx r.packet = r.packet.context
  posted : ∀ ctx bodies events, r.phase = .posting ctx bodies events →
    ∃ done, r.packet.events = done ++ events ∧ ∀ e ∈ done, e.id ∈ t.candidates

theorem Run.Holds.mono (holds : r.Holds U t) (hsub : ∀ id ∈ t.candidates, id ∈ t'.candidates) :
    r.Holds U t' where
  member := holds.member
  read ctx hctx := ⟨(holds.read ctx hctx).1, fun id hid => hsub id ((holds.read ctx hctx).2 id hid)⟩
  compared := holds.compared
  posted ctx bodies events hphase := by
    obtain ⟨done, hsplit, hdone⟩ := holds.posted ctx bodies events hphase
    exact ⟨done, hsplit, fun e he => hsub _ (hdone e he)⟩

/-- A run without a context relies on nothing. -/
theorem Run.Holds.idle (member : r.packet.Of U) (hidle : r.phase.ctx = none) : r.Holds U t where
  member := member
  read ctx hctx := by simp [hidle] at hctx
  compared ctx hctx := by
    cases hp : r.phase <;> simp [hp, Phase.ctx, Phase.compared] at hidle hctx
  posted ctx bodies events hphase := by simp [hphase, Phase.ctx] at hidle

/-! ## The steps of a run -/

theorem addEnvelopes_all (sound : store.Sound cr verify t) {instanceId : Hash}
    {all events : BTreeMap Decoded} (hall : store.verifiedCandidates cr verify t = .ok all)
    (h : Context.addEnvelopes cr verify instanceId 0
      (all.toList.map fun entry => entry.2.bytes) ∅ = .ok events) : events = all := by
  refine ext_graph fun id d => ?_
  rw [addEnvelopes_get h]
  simp only [Std.ExtTreeMap.getElem?_empty, reduceCtorEq, false_or, List.mem_map, Prod.exists,
    Std.ExtTreeMap.mem_toList_iff_getElem?_eq_some]
  constructor
  · rintro ⟨b, ⟨id', d', hd', rfl⟩, hdecode, rfl⟩
    obtain ⟨-, hid, hdecode', -⟩ := verified_get sound hall hd'
    obtain rfl := Except.ok.inj (hdecode.symm.trans hdecode')
    exact hid ▸ hd'
  · intro hd
    obtain ⟨-, hid, hdecode, -⟩ := verified_get sound hall hd
    exact ⟨d.bytes, ⟨id, d, hd, rfl⟩, hdecode, hid⟩

/-- An export that was read back holds the candidates of the store. -/
theorem export_read (fits : Fits cr verify store filter U t) {instanceId : Hash}
    {m : ExportManifest} (hm : store.exportManifest cr verify t none = some (.ok m))
    (hctx : Context.fromExport cr verify instanceId m = some (.ok ctx)) :
    Within (candidatesOf ctx.events) U ∧ ∀ id, id ∈ ctx.events ↔ id ∈ t.candidates := by
  obtain ⟨_, all, _, -, hall, -, rfl⟩ := exportManifest_ok hm
  rw [addEnvelopes_all fits.sound hall (fromExport_ok hctx)]
  exact ⟨(verified_within fits.sound hall).mp fits.within, fun id => verified_mem fits.sound hall⟩

theorem Run.fetch_cases (debug : String → String) (r : Run cr verify) (h : Health)
    (fits : Fits cr verify store filter U site.tables) :
    (r.fetch debug store site h).ctx = none ∨ ∃ ctx, r.fetch debug store site h = .fetched ctx ∧
      Within (candidatesOf ctx.events) U ∧
      ∀ id, id ∈ ctx.events ↔ id ∈ site.tables.candidates := by
  unfold Run.fetch
  split
  · exact Or.inl rfl
  cases hm : store.exportManifest cr verify site.tables none with
  | none => exact Or.inl rfl
  | some x =>
    cases x with
    | error e => exact Or.inl rfl
    | ok m =>
      dsimp only
      cases hctx : Context.fromExport cr verify h.instanceId m with
      | none => exact Or.inl rfl
      | some y =>
        cases y with
        | error e => exact Or.inl rfl
        | ok ctx =>
          dsimp only
          cases r.packet.suits debug h with
          | error e => exact Or.inl rfl
          | ok =>
            obtain ⟨hin, hmem⟩ := export_read fits hm hctx
            exact Or.inr ⟨ctx, rfl, hin, hmem⟩

theorem Run.compare_cases (r : Run cr verify) (ctx : Context) : (r.compare ctx).ctx = none ∨
    r.compare ctx = .matched ctx ∧ withoutPacket ctx r.packet = r.packet.context := by
  unfold Run.compare
  split
  · next hsame => exact Or.inr ⟨rfl, hsame⟩
  · exact Or.inl rfl

theorem Run.check_cases (r : Run cr verify) (ctx : Context) : (r.check ctx).ctx = none ∨
    r.check ctx = .posting ctx r.packet.bodies.values r.packet.events := by
  unfold Run.check
  split
  · exact Or.inl rfl
  · exact Or.inl rfl
  · exact Or.inr rfl

theorem Run.finish_idle (r : Run cr verify) : (r.finish store site).ctx = none := by
  unfold Run.finish
  split
  · rfl
  · rfl
  · split <;> rfl

theorem Site.post_cases (cr : Crypto) (verify : Verify) (store : Store) (node : Option SecretKey)
    (site : Site) (ctx : Context) (e : Decoded) (rest : List Decoded) (now : BitVec 64) :
    site.post cr verify store node ctx e rest now = (site, .stopped) ∨
      ∃ a phase, store.admitOnce cr verify site.tables e.bytes node now = some (.ok a) ∧
        site.post cr verify store node ctx e rest now = ({ site with tables := a.tables }, phase) ∧
        (phase.ctx = none ∨ phase = .posting ctx [] rest ∧ a.outcome.event = some e.id) := by
  unfold Site.post
  split
  · exact Or.inl rfl
  · exact Or.inl rfl
  · next a ha =>
    refine Or.inr ⟨a, _, ha, rfl, ?_⟩
    unfold acknowledged
    by_cases hack : a.outcome.status.state = .valid ∧ a.outcome.event = some e.id ∧
        a.outcome.inputDigest = cr.sha256 e.bytes
    · rw [if_pos hack]
      exact Or.inr ⟨rfl, hack.2.1⟩
    · rw [if_neg hack]
      exact Or.inl rfl

/-- The event a run posts next. -/
def Phase.posts : Phase → Option Decoded
  | .posting _ [] (e :: _) => some e
  | _ => none

/-- The context a run has read, until the last of its posts. -/
def Phase.due : Phase → Option Context
  | .fetched ctx | .matched ctx | .posting ctx _ (_ :: _) => some ctx
  | _ => none

theorem Run.Holds.posts_mem (holds : r.Holds U t) {e : Decoded} (he : r.phase.posts = some e) :
    e ∈ r.packet.events := by
  unfold Phase.posts at he
  split at he
  · next ctx e' rest heq =>
    obtain rfl := Option.some.inj he
    obtain ⟨done, hsplit, -⟩ := holds.posted ctx [] (e' :: rest) heq
    simp [hsplit]
  · cases he

/-- Since a run has read the export, no event but the packet's own was admitted. -/
def Run.Quiet (t : Tables) (r : Run cr verify) : Prop :=
  ∀ ctx ∈ r.phase.due, ∀ id ∈ t.candidates, id ∉ r.packet.ids → id ∈ ctx.events

theorem Phase.due_none {phase : Phase} (h : phase.ctx = none) : phase.due = none := by
  cases phase <;> simp [Phase.ctx, Phase.due] at h ⊢

theorem Packet.known {p : Packet cr verify} (member : p.Of U) {e : Decoded} (he : e ∈ p.events) :
    Known cr verify store U e.bytes := by
  intro d hd _
  obtain rfl := Except.ok.inj ((p.signed e he).symm.trans hd)
  exact member e he

/-- What one step of a run leaves. -/
structure Run.Stepped (cr : Crypto) (verify : Verify) (store : Store) (filter : FilterIdentity)
    (U : Candidates) (site : Site) (r : Run cr verify) (next : Site × Phase) : Prop where
  fits : Fits cr verify store filter U next.1.tables
  holds : Run.Holds U next.1.tables { r with phase := next.2 }
  keeps : ∀ id ∈ site.tables.candidates, id ∈ next.1.tables.candidates
  adds : ∀ id ∈ next.1.tables.candidates,
    id ∈ site.tables.candidates ∨ ∃ e ∈ r.phase.posts, e.id = id
  quiet : r.Quiet site.tables → Run.Quiet next.1.tables { r with phase := next.2 }

/-- A step that leaves the tables. -/
theorem Run.Stepped.kept (fits : Fits cr verify store filter U site.tables) {next : Site × Phase}
    (hsite : next.1.tables = site.tables)
    (holds : Run.Holds U site.tables { r with phase := next.2 })
    (quiet : r.Quiet site.tables → Run.Quiet site.tables { r with phase := next.2 }) :
    r.Stepped cr verify store filter U site next where
  fits := hsite ▸ fits
  holds := hsite ▸ holds
  keeps _ hid := hsite ▸ hid
  adds _ hid := Or.inl (hsite ▸ hid)
  quiet h := hsite ▸ quiet h

theorem Run.Quiet.idle (hidle : r.phase.ctx = none) : r.Quiet t := by
  intro ctx hctx
  rw [Phase.due_none hidle] at hctx
  cases hctx

/-- A step that leaves the tables and ends the run. -/
theorem Run.Stepped.ended (fits : Fits cr verify store filter U site.tables)
    (holds : r.Holds U site.tables) {next : Site × Phase} (hsite : next.1.tables = site.tables)
    (hphase : next.2.ctx = none) : r.Stepped cr verify store filter U site next :=
  .kept fits hsite (.idle holds.member hphase) fun _ => .idle hphase

theorem Phase.due_posting {bodies : List Bytes} {events : List Decoded} :
    ∀ ctx' ∈ Phase.due (.posting ctx bodies events), ctx' = ctx := by
  intro ctx' hctx'
  cases events with
  | nil => cases hctx'
  | cons e es => exact (Option.some.inj hctx').symm

theorem Run.post_spec (node : Option SecretKey) (fits : Fits cr verify store filter U site.tables)
    {p : Packet cr verify} {e : Decoded} {rest : List Decoded}
    (holds : Run.Holds U site.tables ⟨p, .posting ctx [] (e :: rest)⟩) (now : BitVec 64) :
    Run.Stepped cr verify store filter U site ⟨p, .posting ctx [] (e :: rest)⟩
      (site.post cr verify store node ctx e rest now) := by
  have hmem : e ∈ p.events := holds.posts_mem rfl
  rcases Site.post_cases cr verify store node site ctx e rest now with
    hpost | ⟨a, phase, ha, hpost, hphase⟩
  · rw [hpost]
    exact .ended fits holds rfl rfl
  have hin := admitted_mem ha
  have keeps : ∀ id ∈ site.tables.candidates, id ∈ a.tables.candidates :=
    fun id hid => (hin id).mpr (Or.inl hid)
  have adds : ∀ id ∈ a.tables.candidates, id ∈ site.tables.candidates ∨ e.id = id := by
    intro id hid
    refine ((hin id).mp hid).imp_right ?_
    rintro ⟨d, hd, -, rfl⟩
    rw [Except.ok.inj ((p.signed e hmem).symm.trans hd)]
  rw [hpost]
  refine ⟨fits.admission (Packet.known holds.member hmem) ha, ?_, keeps,
    fun id hid => (adds id hid).imp_right fun heq => ⟨e, rfl, heq⟩, fun quiet => ?_⟩
  · rcases hphase with hidle | ⟨rfl, hevent⟩
    · exact .idle holds.member hidle
    · have holds' := holds.mono keeps
      refine ⟨holds'.member, holds'.read, holds'.compared, ?_⟩
      rintro _ _ _ ⟨⟩
      obtain ⟨done, (hsplit : p.events = done ++ e :: rest), hdone⟩ :=
        holds.posted ctx [] (e :: rest) rfl
      refine ⟨done ++ [e], by simp [hsplit], fun d hd => ?_⟩
      rcases List.mem_append.mp hd with hd | hd
      · exact keeps _ (hdone d hd)
      · obtain rfl := List.mem_singleton.mp hd
        exact outcome_mem ha hevent
  · rcases hphase with hidle | ⟨rfl, -⟩
    · exact .idle hidle
    · intro ctx' hctx' id hid hout
      obtain rfl := Phase.due_posting ctx' hctx'
      rcases adds id hid with hid | rfl
      · exact quiet ctx' rfl id hid hout
      · exact absurd (List.mem_map_of_mem hmem) hout

theorem Run.step_spec (debug : String → String) (node : Option SecretKey)
    (fits : Fits cr verify store filter U site.tables)
    (holds : r.Holds U site.tables) (h : Health) (now : BitVec 64) :
    r.Stepped cr verify store filter U site (r.step debug store node site h now) := by
  obtain ⟨p, phase⟩ := r
  cases phase with
  | approved =>
    rcases Run.fetch_cases debug ⟨p, .approved⟩ h fits with hidle | ⟨ctx, hphase, hin, hmem⟩
    · exact .ended fits holds rfl hidle
    · have hstep : Run.step debug store node site ⟨p, .approved⟩ h now = (site, .fetched ctx) :=
        congrArg (Prod.mk site) hphase
      rw [hstep]
      refine .kept fits rfl ⟨holds.member, ?_, nofun, nofun⟩ fun _ => ?_
      · rintro _ ⟨⟩
        exact ⟨hin, fun id => (hmem id).mp⟩
      · rintro _ ⟨⟩ id hid -
        exact (hmem id).mpr hid
  | fetched ctx =>
    rcases Run.compare_cases ⟨p, .fetched ctx⟩ ctx with hidle | ⟨hphase, hsame⟩
    · exact .ended fits holds rfl hidle
    · have hstep : Run.step debug store node site ⟨p, .fetched ctx⟩ h now =
          (site, .matched ctx) := congrArg (Prod.mk site) hphase
      rw [hstep]
      refine .kept fits rfl ⟨holds.member, holds.read, ?_, nofun⟩ id
      rintro _ ⟨⟩
      exact hsame
  | matched ctx =>
    rcases Run.check_cases ⟨p, .matched ctx⟩ ctx with hidle | hphase
    · exact .ended fits holds rfl hidle
    · have hstep : Run.step debug store node site ⟨p, .matched ctx⟩ h now =
          (site, .posting ctx p.bodies.values p.events) := congrArg (Prod.mk site) hphase
      rw [hstep]
      refine .kept fits rfl ⟨holds.member, holds.read, holds.compared, ?_⟩
        fun quiet ctx' hctx' => ?_
      · rintro _ _ _ ⟨⟩
        exact ⟨[], rfl, by simp⟩
      · obtain rfl := Phase.due_posting ctx' hctx'
        exact quiet ctx' rfl
  | posting ctx bodies events =>
    cases bodies with
    | cons b bodies =>
      refine .kept fits rfl ⟨holds.member, holds.read, holds.compared, ?_⟩
        fun quiet ctx' hctx' => ?_
      · rintro _ _ _ ⟨⟩
        exact holds.posted ctx (b :: bodies) events rfl
      · refine quiet ctx' ?_
        cases events with
        | nil => cases hctx'
        | cons e es => exact hctx'
    | nil =>
      cases events with
      | nil => exact .ended fits holds rfl (Run.finish_idle ⟨p, _⟩)
      | cons e rest => exact Run.post_spec node fits holds now
  | submitted => exact .ended fits holds rfl rfl
  | failed m => exact .ended fits holds rfl rfl
  | stopped => exact .ended fits holds rfl rfl

end

/-! ## Systems -/

section
variable {cr : Crypto} {verify : Verify} (store : Store)

/-- The event a move brings to the node. -/
def System.brings (sys : System cr verify) : Move cr verify → Option Hash
  | .submit bytes _ =>
    match decode cr verify bytes with
    | .ok d => if d.envelope.instanceId = store.instanceId then some d.id else none
    | .error _ => none
  | .step i _ _ => sys.runs[i]?.bind fun r => r.phase.posts.map Decoded.id
  | .start _ | .stop _ | .put _ => none

/-- The move admits no event outside a packet while a run of the packet, having read the export,
is still to post. -/
def System.Undisturbed (sys : System cr verify) (m : Move cr verify) : Prop :=
  ∀ id ∈ sys.brings store m, id ∉ sys.site.tables.candidates →
    ∀ r ∈ sys.runs, r.phase.due ≠ none → id ∈ r.packet.ids

/-- Every move of a run is undisturbed. -/
def System.UndisturbedRun (debug : String → String) (node : Option SecretKey) :
    System cr verify → List (Move cr verify) → Prop
  | _, [] => True
  | sys, m :: moves =>
    sys.Undisturbed store m ∧ UndisturbedRun debug node (sys.move debug store node m) moves

/-- What a move brings is of `U`. -/
def Move.Of (U : Candidates) : Move cr verify → Prop
  | .start p => p.Of U
  | .submit bytes _ => Known cr verify store U bytes
  | .step .. | .stop _ | .put _ => True

end

section
variable {cr : Crypto} {verify : Verify} {debug : String → String} {store : Store}
variable {node : Option SecretKey} {filter : FilterIdentity} {U : Candidates}
variable {sys : System cr verify}

structure System.Sound (store : Store) (filter : FilterIdentity) (U : Candidates)
    (sys : System cr verify) : Prop where
  fits : Fits cr verify store filter U sys.site.tables
  runs : ∀ r ∈ sys.runs, r.Holds U sys.site.tables

/-- What one move leaves. -/
structure System.Moved (store : Store) (filter : FilterIdentity) (U : Candidates)
    (sys : System cr verify) (m : Move cr verify) (next : System cr verify) : Prop where
  sound : next.Sound store filter U
  keeps : ∀ id ∈ sys.site.tables.candidates, id ∈ next.site.tables.candidates
  quiet : sys.Undisturbed store m → (∀ r ∈ sys.runs, r.Quiet sys.site.tables) →
    ∀ r ∈ next.runs, r.Quiet next.site.tables

/-- Runs that take no step stay quiet when only their own events are admitted. -/
theorem Run.Quiet.others {t t' : Tables} {r : Run cr verify} (quiet : r.Quiet t)
    (hadds : ∀ id ∈ t'.candidates, id ∉ t.candidates → r.phase.due ≠ none → id ∈ r.packet.ids) :
    r.Quiet t' := by
  intro ctx hctx id hid hout
  by_cases hold : id ∈ t.candidates
  · exact quiet ctx hctx id hold hout
  · exact absurd (hadds id hid hold fun hnone => by simp [hnone] at hctx) hout

theorem System.Sound.moved (debug : String → String) (node : Option SecretKey)
    (sound : sys.Sound store filter U) {m : Move cr verify}
    (of : m.Of store U) : sys.Moved store filter U m (sys.move debug store node m) := by
  have same : ∀ {next : System cr verify}, next.site.tables = sys.site.tables →
      (∀ r ∈ next.runs, r ∈ sys.runs ∨ r.phase.ctx = none ∧ r.packet.Of U) →
      sys.Moved store filter U m next := by
    intro next hsite hruns
    refine ⟨⟨hsite ▸ sound.fits, fun r hr => ?_⟩, fun id hid => hsite ▸ hid, fun _ quiet r hr => ?_⟩
    · rcases hruns r hr with hr | ⟨hidle, member⟩
      · exact hsite ▸ sound.runs r hr
      · exact .idle member hidle
    · rcases hruns r hr with hr | ⟨hidle, -⟩
      · exact hsite ▸ quiet r hr
      · exact .idle hidle
  cases m with
  | start p =>
    refine same rfl fun r hr => ?_
    rcases List.mem_append.mp hr with hr | hr
    · exact Or.inl hr
    · obtain rfl := List.mem_singleton.mp hr
      exact Or.inr ⟨rfl, of⟩
  | put body => exact same rfl fun r hr => Or.inl hr
  | stop i =>
    cases hi : sys.runs[i]? with
    | none =>
      have hmove : sys.move debug store node (.stop i) = sys := by simp only [System.move, hi]
      rw [hmove]
      exact same rfl fun r hr => Or.inl hr
    | some r =>
      have hmove : sys.move debug store node (.stop i) =
          { sys with runs := sys.runs.set i { r with phase := .stopped } } := by
        simp only [System.move, hi]
      rw [hmove]
      refine same rfl fun r' hr' => ?_
      rcases List.mem_or_eq_of_mem_set hr' with hr' | rfl
      · exact Or.inl hr'
      · exact Or.inr ⟨rfl, (sound.runs r (List.mem_of_getElem? hi)).member⟩
  | submit bytes now =>
    cases ha : store.admitOnce cr verify sys.site.tables bytes node now with
    | none =>
      have hmove : sys.move debug store node (.submit bytes now) = sys := by
        simp only [System.move, ha]
      rw [hmove]
      exact same rfl fun r hr => Or.inl hr
    | some x =>
      cases x with
      | error e =>
        have hmove : sys.move debug store node (.submit bytes now) = sys := by
          simp only [System.move, ha]
        rw [hmove]
        exact same rfl fun r hr => Or.inl hr
      | ok a =>
        have hmove : sys.move debug store node (.submit bytes now) =
            { sys with site := { sys.site with tables := a.tables } } := by
          simp only [System.move, ha]
        have hin := admitted_mem ha
        have keeps : ∀ id ∈ sys.site.tables.candidates, id ∈ a.tables.candidates :=
          fun id hid => (hin id).mpr (Or.inl hid)
        rw [hmove]
        refine ⟨⟨sound.fits.admission of ha, fun r hr => (sound.runs r hr).mono keeps⟩, keeps,
          fun undisturbed quiet r hr => (quiet r hr).others fun id hid hnew => ?_⟩
        refine undisturbed id ?_ hnew r hr
        rcases (hin id).mp hid with hold | ⟨d, hd, hinst, rfl⟩
        · exact absurd hold hnew
        · simp [System.brings, hd, hinst]
  | step i h now =>
    cases hi : sys.runs[i]? with
    | none =>
      have hmove : sys.move debug store node (.step i h now) = sys := by
        simp only [System.move, hi]
      rw [hmove]
      exact same rfl fun r hr => Or.inl hr
    | some r =>
      have hmem := List.mem_of_getElem? hi
      have stepped := Run.step_spec debug node sound.fits (sound.runs r hmem) h now
      have hmove : sys.move debug store node (.step i h now) =
          ⟨(r.step debug store node sys.site h now).1, sys.runs.set i
            { r with phase := (r.step debug store node sys.site h now).2 }⟩ := by
        simp only [System.move, hi]
      rw [hmove]
      refine ⟨⟨stepped.fits, fun r' hr' => ?_⟩, stepped.keeps, fun undisturbed quiet r' hr' => ?_⟩
      · rcases List.mem_or_eq_of_mem_set hr' with hr' | rfl
        · exact (sound.runs r' hr').mono stepped.keeps
        · exact stepped.holds
      · rcases List.mem_or_eq_of_mem_set hr' with hr' | rfl
        · refine (quiet r' hr').others fun id hid hnew => undisturbed id ?_ hnew r' hr'
          rcases stepped.adds id hid with hold | ⟨e, he, rfl⟩
          · exact absurd hold hnew
          · simp only [System.brings, hi, Option.bind_some]
            exact Option.mem_map_of_mem _ he
        · exact stepped.quiet (quiet r hmem)

theorem System.Sound.run (debug : String → String) (node : Option SecretKey)
    (sound : sys.Sound store filter U) {moves : List (Move cr verify)}
    (of : ∀ m ∈ moves, m.Of store U) : (sys.run debug store node moves).Sound store filter U := by
  induction moves generalizing sys with
  | nil => exact sound
  | cons m moves ih =>
    exact ih (sound.moved debug node (of m List.mem_cons_self)).sound fun m' hm' =>
      of m' (List.mem_cons_of_mem m hm')

theorem System.Sound.quiet (sound : sys.Sound store filter U) {moves : List (Move cr verify)}
    (of : ∀ m ∈ moves, m.Of store U) (undisturbed : sys.UndisturbedRun store debug node moves)
    (quiet : ∀ r ∈ sys.runs, r.Quiet sys.site.tables) :
    ∀ r ∈ (sys.run debug store node moves).runs,
      r.Quiet (sys.run debug store node moves).site.tables := by
  induction moves generalizing sys with
  | nil => exact quiet
  | cons m moves ih =>
    have moved := sound.moved debug node (of m List.mem_cons_self)
    exact ih moved.sound (fun m' hm' => of m' (List.mem_cons_of_mem m hm')) undisturbed.2
      (moved.quiet undisturbed.1 quiet)

/-- The steps of a run that is alone disturb nothing. -/
theorem System.Sound.alone (sound : sys.Sound store filter U) {r : Run cr verify}
    (hruns : sys.runs = [r]) (h : Health) (nows : List (BitVec 64)) :
    sys.UndisturbedRun store debug node (nows.map fun now => .step 0 h now) := by
  induction nows generalizing sys r with
  | nil => trivial
  | cons now nows ih =>
    have hi : sys.runs[0]? = some r := by simp [hruns]
    have sound' := (sound.moved debug node (m := .step 0 h now) trivial).sound
    refine ⟨fun id hid _ r' hr' _ => ?_, ?_⟩
    · obtain rfl : r' = r := by simpa [hruns] using hr'
      simp only [System.brings, hi, Option.bind_some, Option.mem_def, Option.map_eq_some_iff] at hid
      obtain ⟨e, he, rfl⟩ := hid
      exact List.mem_map_of_mem ((sound.runs r' hr').posts_mem he)
    · exact ih sound' (r := { r with phase := (r.step debug store node sys.site h now).2 })
        (by simp [System.move, hruns])

end

end Clockchain.V1.Publisher.Entry
