import Clockchain.Queues
import Clockchain.V1.Enactment
import Clockchain.V1.PacketRuns

/-!
# Packets onto their contexts

What a run posts is admitted onto the packet's own context as long as nothing else is admitted
after it has read the export; what a packet built on its context posts is valid whatever else is
admitted; and a rerun over that context admits what is missing.
-/

namespace Clockchain.V1.Publisher.Entry
open Codec Maps Programs Relation
set_option autoImplicit false

/-! ## What is posted -/

section
variable {cr : Crypto} {verify : Verify} {debug : String → String} {store : Store}
variable {node : Option SecretKey} {filter : FilterIdentity} {U : Candidates} {t : Tables}
variable {p : Packet cr verify} {ctx : Context}

theorem Packet.outside_mem {ids : List Hash} {id : Hash} :
    id ∈ p.outside ids ↔ id ∈ ids ∧ id ∉ p.ids := by
  simp [Packet.outside]

/-- Maps that differ in the packet's own events only have the same ids outside of it. -/
theorem Packet.outside_congr {α β : Type} {s : BTreeMap α} {s' : BTreeMap β}
    (h : ∀ id, id ∉ p.ids → (id ∈ s ↔ id ∈ s')) : p.outside s.keys = p.outside s'.keys := by
  have ordered : ∀ {γ : Type} (m : BTreeMap γ),
      (p.outside m.keys).Pairwise fun a b => compare a b = .lt :=
    fun m => List.Pairwise.filter _ m.ordered_keys
  refine @Queues.ordered_unique Hash compare _ Hash id _ _ (ordered s) (ordered s') fun x => ?_
  rw [outside_mem, outside_mem, Std.ExtTreeMap.mem_keys, Std.ExtTreeMap.mem_keys]
  exact and_congr_left (h x)

/-- No other ids of `U` have the digest of the context's. -/
def Context.Apart (cr : Crypto) (U : Candidates) (ctx : Context) : Prop :=
  ∀ ids : List Hash, (∀ id ∈ ids, id ∈ U) → ids.Pairwise (· < ·) →
    V1.corpusDigest cr ids = V1.corpusDigest cr ctx.events.keys → ids = ctx.events.keys

/-- What was found to be the packet's context is the one it was built on. -/
theorem Packet.Built.outside_eq (built : p.Built store U ctx) (apart : ctx.Apart cr U) {α : Type}
    {events : BTreeMap α} (hin : ∀ id ∈ events, id ∈ U)
    (hdigest : corpusDigest cr (p.outside events.keys) = p.context) :
    p.outside events.keys = ctx.events.keys := by
  refine apart _ (fun id hid => ?_) ?_ (hdigest.trans built.context)
  · exact hin id (Std.ExtTreeMap.mem_keys.mp (outside_mem.mp hid).1)
  · refine List.Pairwise.filter _ (Std.ExtTreeMap.ordered_keys.imp fun h => ?_)
    exact compareOfLessAndEq_eq_lt.mp h

/-- The node admits an event of the packet as valid once it has the context and the events listed
before. -/
theorem Packet.Built.admits (built : p.Built store U ctx) (member : p.Of U)
    (free : CollisionFree cr U) (fits : Fits cr verify store filter U t)
    (signing : Signing cr verify store filter node) {done rest : List Decoded} {e : Decoded}
    (hsplit : p.events = done ++ e :: rest) (hctx : ∀ id ∈ ctx.events, id ∈ t.candidates)
    (hdone : ∀ d ∈ done, d.id ∈ t.candidates) (now : BitVec 64) : ∃ a,
      store.admitOnce cr verify t e.bytes node now = some (.ok a) ∧
      a.outcome.status.state = .valid ∧ acknowledged cr e a.outcome = .ok () := by
  have hmem : e ∈ p.events := by simp [hsplit]
  have hinst : e.envelope.instanceId = store.instanceId :=
    ((selfCheck_ok built.checked).1 e hmem).trans built.inst
  obtain ⟨all, out, s, A, st, hall, within, verdicts, hst, hjudge⟩ :=
    fits.judged free (p.signed e hmem) hinst (member e hmem)
  have hin : ∀ {id}, id ∈ t.candidates → id ∈ candidatesOf (all.insert e.id e) := fun hid =>
    mem_candidatesOf.mpr (mem_map_insert.mpr (Or.inr ((verified_mem fits.sound hall).mpr hid)))
  have hself : e.id ∈ candidatesOf (all.insert e.id e) :=
    mem_candidatesOf.mpr (mem_map_insert.mpr (Or.inl rfl))
  obtain ⟨st', hst', hvalid⟩ := built.valid member free within verdicts hsplit
    (fun id hid => hin (hctx id hid)) (fun d hd => hin (hdone d hd)) hself
  obtain rfl := Option.some.inj (hst.symm.trans hst')
  obtain rfl := valid_eq verdicts (within.get hself (member e hmem)) hst hvalid
  obtain ⟨a, ha, houtcome⟩ := fits.recorded signing now (p.signed e hmem) hjudge rfl
  refine ⟨a, ha, by rw [houtcome]; rfl, ?_⟩
  rw [acknowledged, houtcome]
  exact if_pos ⟨rfl, rfl, rfl⟩

/-! ## A rerun -/

variable {h : Health} {site : Site}

/-- A run takes its next step. -/
def Run.advance (debug : String → String) (store : Store) (node : Option SecretKey) (h : Health)
    (s : Site × Run cr verify) (now : BitVec 64) : Site × Run cr verify :=
  let next := s.2.step debug store node s.1 h now
  (next.1, { s.2 with phase := next.2 })

theorem System.run_append (sys : System cr verify) (moves later : List (Move cr verify)) :
    sys.run debug store node (moves ++ later) =
      (sys.run debug store node moves).run debug store node later := List.foldl_append

/-- A post writes what the admission of its event does. -/
theorem System.move_posted {sys : System cr verify} {i : Nat} {e : Decoded} {rest : List Decoded}
    (hi : sys.runs[i]? = some ⟨p, .posting ctx [] (e :: rest)⟩) {a : Recorded} {now : BitVec 64}
    (ha : store.admitOnce cr verify sys.site.tables e.bytes node now = some (.ok a)) :
    (sys.move debug store node (.step i h now)).site.tables = a.tables := by
  simp only [System.move, hi, Run.step, Site.post, ha]

theorem System.run_steps {sys : System cr verify} {i : Nat} {r : Run cr verify}
    (hi : sys.runs[i]? = some r) (nows : List (BitVec 64)) :
    ∃ next, nows.foldl (Run.advance debug store node h) (sys.site, r) = next ∧
      (sys.run debug store node (nows.map fun now => .step i h now)).site = next.1 ∧
      (sys.run debug store node (nows.map fun now => .step i h now)).runs[i]? = some next.2 := by
  induction nows generalizing sys r with
  | nil => exact ⟨_, rfl, rfl, hi⟩
  | cons now nows ih =>
    obtain ⟨next, hnext⟩ : ∃ next : System cr verify, next =
        ⟨(r.step debug store node sys.site h now).1, sys.runs.set i
          { r with phase := (r.step debug store node sys.site h now).2 }⟩ := ⟨_, rfl⟩
    have hmove : sys.move debug store node (.step i h now) = next := by
      rw [hnext]
      simp only [System.move, hi]
    have hruns : next.runs[i]? =
        some { r with phase := (r.step debug store node sys.site h now).2 } := by
      rw [hnext]
      exact List.getElem?_set_self (List.getElem?_eq_some_iff.mp hi).1
    have hrun : sys.run debug store node ((now :: nows).map fun now => .step i h now) =
        next.run debug store node (nows.map fun now => .step i h now) := by
      rw [System.run, List.map_cons, List.foldl_cons, hmove]
      rfl
    rw [hrun, List.foldl_cons]
    have hsite : Run.advance debug store node h (sys.site, r) now =
        (next.site, { r with phase := (r.step debug store node sys.site h now).2 }) := by
      rw [hnext]
      rfl
    rw [hsite]
    exact ih hruns

/-- A run that starts now and takes its steps alone. -/
theorem System.run_started (sys : System cr verify) (p : Packet cr verify) (h : Health)
    (nows : List (BitVec 64)) :
    ∃ next, nows.foldl (Run.advance debug store node h) (sys.site, ⟨p, .approved⟩) = next ∧
      (sys.run debug store node
        (.start p :: nows.map fun now => .step sys.runs.length h now)).site = next.1 ∧
      (sys.run debug store node
        (.start p :: nows.map fun now => .step sys.runs.length h now)).runs[sys.runs.length]? =
          some next.2 := by
  let started : System cr verify := ⟨sys.site, sys.runs ++ [⟨p, .approved⟩]⟩
  have hstart : started.runs[sys.runs.length]? = some ⟨p, .approved⟩ := by simp [started]
  exact System.run_steps hstart nows

theorem fromExport_total (free : CollisionFree cr U) (fits : Fits cr verify store filter U t) :
    ∃ m ctx, store.exportManifest cr verify t none = some (.ok m) ∧
      Context.fromExport cr verify store.instanceId m = some (.ok ctx) ∧
      ctx.instanceId = store.instanceId := by
  obtain ⟨all, hall, -⟩ := verified_spec fits.sound
  have hin := (verified_within fits.sound hall).mp fits.within
  obtain ⟨s, hs, hname⟩ := exists_snapshot (free.within hin) filter
  have hexport := fits.bound.exportManifest hall hs
  have hlist : (all.toList.map fun entry => entry.2.bytes) =
      (all.toList.map Prod.snd).map Decoded.bytes := by
    rw [List.map_map]
    rfl
  have hvalues : ∀ d ∈ all.toList.map Prod.snd,
      decode cr verify d.bytes = .ok d ∧ d.envelope.instanceId = store.instanceId := by
    intro d hd
    obtain ⟨⟨id, d⟩, hentry, rfl⟩ := List.mem_map.mp hd
    obtain ⟨-, -, hdecode, hinst⟩ := verified_get fits.sound hall
      (Std.ExtTreeMap.mem_toList_iff_getElem?_eq_some.mp hentry)
    exact ⟨hdecode, hinst⟩
  have hids : (all.toList.map Prod.snd).map Decoded.id = all.toList.map Prod.fst := by
    rw [List.map_map]
    refine List.map_congr_left fun entry hentry => ?_
    exact (verified_get fits.sound hall
      (Std.ExtTreeMap.mem_toList_iff_getElem?_eq_some.mp hentry)).2.1
  have hnew : ∀ d ∈ all.toList.map Prod.snd, d.id ∉ (∅ : BTreeMap Decoded) :=
    fun d _ => Std.ExtTreeMap.not_mem_empty
  obtain ⟨events, hevents⟩ := addEnvelopes_total (i := 0) hvalues
    (hids ▸ nodup_fst_toList all) hnew
  rw [← hlist] at hevents
  obtain rfl := addEnvelopes_all fits.sound hall hevents
  obtain ⟨projection, hprojection, hsnap⟩ := Option.bind_eq_some_iff.mp hs
  have hcorpus : V1.corpusDigest cr events.keys = s.corpusDigest := by
    have hkeys : (candidatesOf events).keys = events.keys := Std.ExtTreeMap.keys_map
    rw [← Option.some.inj hsnap, hkeys]
  have hfold : supportedFold cr s.rule.fold = true := by
    rw [hname]
    exact supportedFold_iff.mpr fits.bound.supported
  refine ⟨_, ⟨store.instanceId, s.corpusDigest, events, projection⟩, hexport, ?_, rfl⟩
  unfold Context.fromExport
  rw [if_neg (by simp [hfold]), hevents, lift_ok, if_neg (not_not.mpr hcorpus), hprojection,
    lift_some]
  rfl

/-- A node that the packet suits. -/
structure Packet.Accepts (debug : String → String) (store : Store) (p : Packet cr verify)
    (h : Health) : Prop where
  fold : h.foldMatches cr = true
  inst : h.instanceId = store.instanceId
  suits : p.suits debug h = .ok ()

theorem Run.fetch_total (free : CollisionFree cr U)
    (fits : Fits cr verify store filter U site.tables) (accepts : p.Accepts debug store h) :
    ∃ ctx, Run.fetch debug store site ⟨p, .approved⟩ h = .fetched ctx ∧
      ctx.instanceId = store.instanceId ∧ Within (candidatesOf ctx.events) U ∧
      ∀ id, id ∈ ctx.events ↔ id ∈ site.tables.candidates := by
  obtain ⟨m, ctx, hm, hctx, hinst⟩ := fromExport_total free fits
  obtain ⟨hin, hmem⟩ := export_read fits hm hctx
  refine ⟨ctx, ?_, hinst, hin, hmem⟩
  unfold Run.fetch
  rw [if_neg (by simp [accepts.fold]), hm]
  simp only [accepts.inst, hctx, accepts.suits]

theorem selfCheck_total {new : List Decoded}
    (hinst : ∀ s ∈ new, s.envelope.instanceId = ctx.instanceId) {status : BTreeMap Status}
    (hstatus : classify cr (candidatesOf (Context.withEvents ctx.events new)) = some status)
    (hvalid : ∀ s ∈ new, ∃ st : Status, status[s.id]? = some st ∧ st.state = .valid) :
    ctx.selfCheck cr new = some (.ok ()) := by
  unfold Context.selfCheck
  rw [if_neg (by simpa using hinst), hstatus, lift_some]
  exact allValid_ok.mpr hvalid

theorem Packet.pending_mem {events : BTreeMap Decoded} {e : Decoded} :
    e ∈ p.pending events ↔ e ∈ p.events ∧ e.id ∉ events := by
  simp [Packet.pending]

variable {base : Context}

/-- What is missing of a packet passes the check over any corpus that holds its context. -/
theorem Packet.Built.check_total (built : p.Built store U base) (member : p.Of U)
    (free : CollisionFree cr U) (hinst : ctx.instanceId = store.instanceId)
    (hin : Within (candidatesOf ctx.events) U) (hbase : ∀ id ∈ base.events, id ∈ ctx.events) :
    ctx.selfCheck cr (p.pending ctx.events) = some (.ok ()) := by
  have hpending : ∀ s ∈ p.pending ctx.events, s ∈ p.events := fun s hs => (pending_mem.mp hs).1
  have within := withEvents_within hin fun s hs => member s (hpending s hs)
  obtain ⟨out, s, hout, verdicts⟩ := classify_spec (free.within within)
  have hold : ∀ {id}, id ∈ ctx.events →
      id ∈ candidatesOf (Context.withEvents ctx.events (p.pending ctx.events)) :=
    fun hid => mem_candidatesOf.mpr (withEvents_mem.mpr (Or.inl hid))
  have hall : ∀ d ∈ p.events,
      d.id ∈ candidatesOf (Context.withEvents ctx.events (p.pending ctx.events)) := by
    intro d hd
    by_cases hmem : d.id ∈ ctx.events
    · exact hold hmem
    · exact mem_candidatesOf.mpr
        (withEvents_mem.mpr (Or.inr ⟨d, pending_mem.mpr ⟨hd, hmem⟩, rfl⟩))
  refine selfCheck_total (fun s hs => ?_) hout fun e he => ?_
  · exact ((selfCheck_ok built.checked).1 s (hpending s hs)).trans (built.inst.trans hinst.symm)
  · obtain ⟨done, rest, hsplit⟩ := List.append_of_mem (hpending e he)
    refine built.valid member free within verdicts hsplit (fun id hid => hold (hbase id hid))
      (fun d hd => hall d ?_) (hall e (hpending e he))
    simp [hsplit, hd]

/-- The corpus of a context is the packet's own once only its events were added. -/
theorem Packet.Built.compare_total (built : p.Built store U base)
    (hbase : ∀ id ∈ base.events, id ∈ ctx.events)
    (honly : ∀ id ∈ ctx.events, id ∈ base.events ∨ id ∈ p.ids) :
    withoutPacket ctx p = p.context := by
  have hctx : p.outside ctx.events.keys = p.outside base.events.keys := by
    refine outside_congr fun id hid => ⟨fun h => ?_, hbase id⟩
    exact (honly id h).resolve_right hid
  have hself : p.outside base.events.keys = base.events.keys := by
    refine List.filter_eq_self.mpr fun id hid => ?_
    have hnew : id ∉ p.ids := by
      intro hmem
      obtain ⟨e, he, rfl⟩ := List.mem_map.mp hmem
      exact built.new e he (Std.ExtTreeMap.mem_keys.mp hid)
    simpa using hnew
  rw [withoutPacket, hctx, hself, built.context]

theorem Run.steps_bodies {bodies : List Bytes} {events : List Decoded} {nows : List (BitVec 64)}
    (hlen : nows.length = bodies.length) (site : Site) : ∃ site', site'.tables = site.tables ∧
      nows.foldl (Run.advance debug store node h) (site, ⟨p, .posting ctx bodies events⟩) =
        (site', ⟨p, .posting ctx [] events⟩) := by
  induction bodies generalizing site nows with
  | nil =>
    obtain rfl := List.length_eq_zero_iff.mp hlen
    exact ⟨site, rfl, rfl⟩
  | cons b bodies ih =>
    obtain ⟨now, nows, rfl⟩ := List.exists_cons_of_length_eq_add_one hlen
    exact ih (Nat.succ.inj hlen) (site.putBody cr b)

/-- Each post adds its event. -/
theorem Packet.Built.steps_events (built : p.Built store U base) (member : p.Of U)
    (free : CollisionFree cr U) (signing : Signing cr verify store filter node)
    {rest done : List Decoded} {nows : List (BitVec 64)} (hlen : nows.length = rest.length)
    (hsplit : p.events = done ++ rest) (fits : Fits cr verify store filter U site.tables)
    (hbase : ∀ id ∈ base.events, id ∈ site.tables.candidates)
    (hdone : ∀ d ∈ done, d.id ∈ site.tables.candidates) : ∃ site',
      nows.foldl (Run.advance debug store node h) (site, ⟨p, .posting ctx [] rest⟩) =
        (site', ⟨p, .posting ctx [] []⟩) ∧
      Fits cr verify store filter U site'.tables ∧
      ∀ id, id ∈ site'.tables.candidates ↔
        id ∈ site.tables.candidates ∨ ∃ e ∈ rest, e.id = id := by
  induction rest generalizing site nows done with
  | nil =>
    obtain rfl := List.length_eq_zero_iff.mp hlen
    exact ⟨site, rfl, fits, by simp⟩
  | cons e rest ih =>
    obtain ⟨now, nows, rfl⟩ := List.exists_cons_of_length_eq_add_one hlen
    obtain ⟨a, ha, -, hack⟩ := built.admits member free fits signing hsplit hbase hdone now
    have hmem : e ∈ p.events := by simp [hsplit]
    have hinst : e.envelope.instanceId = store.instanceId :=
      ((selfCheck_ok built.checked).1 e hmem).trans built.inst
    have hin : ∀ id, id ∈ a.tables.candidates ↔ id ∈ site.tables.candidates ∨ e.id = id := by
      intro id
      rw [admitted_mem ha]
      refine or_congr_right ⟨?_, fun hid => ⟨e, p.signed e hmem, hinst, hid⟩⟩
      rintro ⟨d, hd, -, rfl⟩
      rw [Except.ok.inj ((p.signed e hmem).symm.trans hd)]
    have keeps : ∀ id ∈ site.tables.candidates, id ∈ a.tables.candidates :=
      fun id hid => (hin id).mpr (Or.inl hid)
    let posted : Site := { site with tables := a.tables }
    have fits' : Fits cr verify store filter U posted.tables :=
      fits.admission (Packet.known member hmem) ha
    have hdone' : ∀ d ∈ done ++ [e], d.id ∈ posted.tables.candidates := by
      intro d hd
      rcases List.mem_append.mp hd with hd | hd
      · exact keeps _ (hdone d hd)
      · obtain rfl := List.mem_singleton.mp hd
        exact (hin _).mpr (Or.inr rfl)
    obtain ⟨site', hsteps, fits', hsite'⟩ := ih (Nat.succ.inj hlen) (by simp [hsplit]) fits'
      (fun id hid => keeps id (hbase id hid)) hdone'
    refine ⟨site', ?_, fits', fun id => ?_⟩
    · rw [List.foldl_cons, ← hsteps]
      refine congrArg (List.foldl _ · nows) ?_
      change ((site.post cr verify store node ctx e rest now).1,
        (⟨p, (site.post cr verify store node ctx e rest now).2⟩ : Run cr verify)) = _
      unfold Site.post
      simp only [ha, hack]
      rfl
    · rw [hsite', hin]
      simp only [List.mem_cons, exists_eq_or_imp, or_assoc]

theorem placed_valid {C : Candidates} {out : BTreeMap Status} {A : Authority} {e : Hash}
    {row : RowState} (placed : Placed cr C out A e row) {st : Status} (hst : out[e]? = some st)
    (hvalid : st.state = .valid) : row.state ≠ .invalid ∧ row.state ≠ .pending := by
  cases placed with
  | subject => exact rowOf_state _ _ _ e
  | edge => exact standing_state _ _ _ e
  | media => simp
  | pending hst' hstate =>
    rw [← Option.some.inj (hst.symm.trans hst'), hvalid] at hstate
    cases hstate
  | invalid hst' hstate =>
    rw [← Option.some.inj (hst.symm.trans hst'), hvalid] at hstate
    cases hstate

theorem readBack_ok {rows : List EventReading} {e : Decoded}
    (hmem : e.id ∈ rows.map EventReading.event)
    (hstate : ∀ row ∈ rows, row.event = e.id → row.state ≠ .invalid ∧ row.state ≠ .pending) :
    readBack e rows = .ok () := by
  obtain ⟨row, hrow, hid⟩ := List.mem_map.mp hmem
  unfold readBack
  cases hfind : rows.find? fun r => r.event = e.id with
  | none =>
    have hnone := List.find?_eq_none.mp hfind row hrow
    simp [hid] at hnone
  | some found =>
    have hevent : found.event = e.id := by simpa using List.find?_some hfind
    exact if_neg (not_or.mpr (hstate found (List.mem_of_find?_eq_some hfind) hevent))

theorem forM_ok {ε α : Type} {f : α → Except ε Unit} {l : List α} (h : ∀ x ∈ l, f x = .ok ()) :
    l.forM f = .ok () := by
  induction l with
  | nil => rfl
  | cons x l ih =>
    rw [List.forM_eq_forM, List.forM_cons, h x List.mem_cons_self]
    exact ih fun y hy => h y (List.mem_cons_of_mem x hy)

/-- The whole packet is read back once the node has it and its context. -/
theorem Packet.Built.finish_total (built : p.Built store U base) (member : p.Of U)
    (free : CollisionFree cr U) (fits : Fits cr verify store filter U site.tables)
    (hbase : ∀ id ∈ base.events, id ∈ site.tables.candidates)
    (hall : ∀ e ∈ p.events, e.id ∈ site.tables.candidates) (phase : Phase) :
    Run.finish store site (⟨p, phase⟩ : Run cr verify) = .submitted := by
  obtain ⟨all, hverified, -⟩ := verified_spec fits.sound
  have hin := (verified_within fits.sound hverified).mp fits.within
  have hmem : ∀ {id}, id ∈ site.tables.candidates → id ∈ candidatesOf all :=
    fun hid => mem_candidatesOf.mpr ((verified_mem fits.sound hverified).mpr hid)
  obtain ⟨out, s, A, projection, -, verdicts, -, -, hprojection, projected⟩ :=
    project_spec (free.within hin)
  obtain ⟨snap, hsnap, -⟩ := exists_snapshot (free.within hin) filter
  have hrows : snap.projection = projection := by
    obtain ⟨_, hp, h⟩ := Option.bind_eq_some_iff.mp hsnap
    obtain rfl := Option.some.inj (hprojection.symm.trans hp)
    rw [← Option.some.inj h]
  have hready : store.ready cr site.tables none = .ok filter := fits.bound.ready (by simp)
  have hsnapshot := snapshot_ok hready hverified hsnap
  have hread : (p.events.forM fun e => readBack e snap.projection.rows) = .ok () := by
    refine forM_ok fun e he => readBack_ok ?_ fun row hrow hid => ?_
    · rw [hrows, projected.events]
      exact Std.ExtTreeMap.mem_keys.mpr (hmem (hall e he))
    · obtain ⟨done, rest, hsplit⟩ := List.append_of_mem he
      obtain ⟨st, hst, hvalid⟩ := built.valid member free hin verdicts hsplit
        (fun id hid => hmem (hbase id hid)) (fun d hd => hmem (hall d (by simp [hsplit, hd])))
        (hmem (hall e he))
      exact placed_valid (projected.rows row (hrows ▸ hrow)).placed (hid ▸ hst) hvalid
  unfold Run.finish
  rw [hsnapshot]
  simp only [hread]

/-- A run that is not interfered with gets to its posts. -/
theorem Packet.Built.steps_checked (built : p.Built store U base) (member : p.Of U)
    (free : CollisionFree cr U) (fits : Fits cr verify store filter U site.tables)
    (accepts : p.Accepts debug store h) (hbase : ∀ id ∈ base.events, id ∈ site.tables.candidates)
    (honly : ∀ id ∈ site.tables.candidates, id ∈ base.events ∨ id ∈ p.ids)
    (n₁ n₂ n₃ : BitVec 64) : ∃ ctx,
      [n₁, n₂, n₃].foldl (Run.advance debug store node h) (site, ⟨p, .approved⟩) =
        (site, ⟨p, .posting ctx p.bodies.values p.events⟩) := by
  obtain ⟨ctx, hfetch, hinst, hin, hmem⟩ := Run.fetch_total free fits accepts
  have hread : ∀ id ∈ base.events, id ∈ ctx.events := fun id hid => (hmem id).mpr (hbase id hid)
  have hcompare := built.compare_total hread fun id hid => honly id ((hmem id).mp hid)
  have hcheck := built.check_total member free hinst hin hread
  have first : Run.advance debug store node h (site, ⟨p, .approved⟩) n₁ =
      (site, ⟨p, .fetched ctx⟩) := congrArg (fun phase => (site, Run.mk p phase)) hfetch
  have second : Run.advance debug store node h (site, ⟨p, .fetched ctx⟩) n₂ =
      (site, ⟨p, .matched ctx⟩) := by
    refine congrArg (fun phase => (site, Run.mk p phase)) ?_
    exact if_pos hcompare
  have third : Run.advance debug store node h (site, ⟨p, .matched ctx⟩) n₃ =
      (site, ⟨p, .posting ctx p.bodies.values p.events⟩) := by
    refine congrArg (fun phase => (site, Run.mk p phase)) ?_
    change Run.check _ ctx = _
    unfold Run.check
    simp only [hcheck]
  exact ⟨ctx, by rw [List.foldl_cons, first, List.foldl_cons, second, List.foldl_cons, third]; rfl⟩

/-- A rerun over the packet's context, to which only events of the packet were added, ends with
all of them. -/
theorem Packet.Built.steps_submitted (built : p.Built store U base) (member : p.Of U)
    (free : CollisionFree cr U) (signing : Signing cr verify store filter node)
    (fits : Fits cr verify store filter U site.tables) (accepts : p.Accepts debug store h)
    (hbase : ∀ id ∈ base.events, id ∈ site.tables.candidates)
    (honly : ∀ id ∈ site.tables.candidates, id ∈ base.events ∨ id ∈ p.ids)
    {nows : List (BitVec 64)}
    (hlen : nows.length = p.bodies.values.length + p.events.length + 4) : ∃ site',
      nows.foldl (Run.advance debug store node h) (site, ⟨p, .approved⟩) =
        (site', ⟨p, .submitted⟩) ∧
      ∀ id, id ∈ site'.tables.candidates ↔ id ∈ site.tables.candidates ∨ id ∈ p.ids := by
  obtain ⟨n₁, nows, rfl⟩ := List.exists_cons_of_length_eq_add_one hlen
  obtain ⟨n₂, nows, rfl⟩ := List.exists_cons_of_length_eq_add_one (Nat.succ.inj hlen)
  obtain ⟨n₃, nows, rfl⟩ := List.exists_cons_of_length_eq_add_one
    (Nat.succ.inj (Nat.succ.inj hlen))
  have hrest : nows.length = p.bodies.values.length + p.events.length + 1 :=
    Nat.succ.inj (Nat.succ.inj (Nat.succ.inj hlen))
  obtain ⟨atBodies, later, rfl, hbodies⟩ : ∃ l m, nows = l ++ m ∧
      l.length = p.bodies.values.length :=
    ⟨_, _, (List.take_append_drop p.bodies.values.length nows).symm, by
      rw [List.length_take]; omega⟩
  obtain ⟨atEvents, last, rfl, hevents⟩ : ∃ l m, later = l ++ m ∧ l.length = p.events.length :=
    ⟨_, _, (List.take_append_drop p.events.length later).symm, by
      rw [List.length_append] at hrest
      rw [List.length_take]; omega⟩
  obtain ⟨n, rfl⟩ : ∃ n, last = [n] := by
    refine List.length_eq_one_iff.mp ?_
    simp only [List.length_append] at hrest
    omega
  obtain ⟨ctx, hchecked⟩ := built.steps_checked member free fits accepts hbase honly n₁ n₂ n₃
  obtain ⟨site₁, htables, hput⟩ := Run.steps_bodies hbodies site
  obtain ⟨site₂, hposted, fits₂, hmem⟩ := built.steps_events member free signing hevents
    (List.nil_append _).symm (htables ▸ fits) (htables ▸ hbase) (by simp)
  rw [htables] at hmem
  have hall : ∀ id, id ∈ site₂.tables.candidates ↔ id ∈ site.tables.candidates ∨ id ∈ p.ids := by
    intro id
    rw [hmem, Packet.ids, List.mem_map]
  have hfinish : Run.advance debug store node h (site₂, ⟨p, .posting ctx [] []⟩) n =
      (site₂, ⟨p, .submitted⟩) := by
    refine congrArg (fun phase => (site₂, Run.mk p phase)) ?_
    refine built.finish_total member free fits₂ (fun id hid => ?_) (fun e he => ?_) _
    · exact (hall id).mpr (Or.inl (hbase id hid))
    · exact (hall e.id).mpr (Or.inr (List.mem_map_of_mem he))
  refine ⟨site₂, ?_, hall⟩
  rw [show n₁ :: n₂ :: n₃ :: (atBodies ++ (atEvents ++ [n])) =
    [n₁, n₂, n₃] ++ (atBodies ++ (atEvents ++ [n])) from rfl, List.foldl_append, hchecked,
    List.foldl_append, hput, List.foldl_append, hposted, List.foldl_cons, hfinish]
  rfl

end

namespace Sample
open V1.Sample (ada adaId adaSignature alice)

/-- The SHA-256 of `Grace Hopper wrote the first compiler.` and a newline. -/
def graceBody : Hash := 0xeb9cdcc91170965d2cef14d84e38956a177d5072f7ac203f0262377125710698

def grace : Envelope where
  instanceId := 1
  author := alice
  subject := none
  subjectKey := some ⟨"person", "clockchain", "Grace"⟩
  grant := none
  parents := []
  assertedTime := none
  payload := .genesis 7 graceBody [8]

def graceId : Hash := 0x573d0cf957dc2f7a376ad5df3acb0d6d4009eced6cd558ea2af7cb374089f00d

/-- What tells apart the bytes that are hashed here. -/
def features (bytes : Bytes) : Nat × UInt8 × UInt8 :=
  (bytes.length, bytes.getD 3 0, bytes.getLastD 0)

/-- SHA-256 of what is hashed about `ada`, `grace` and the corpora they make. -/
def digests : List ((Nat × UInt8 × UInt8) × Hash) :=
  [((192, 11, 0), adaId),
   ((226, 11, 8), graceId),
   ((39, 99, 10), graceBody),
   ((52, 16, 214), 0x58d0b05f86971a7542880219a01470feead7f41e67d1f0edf54cc79e3de6b659),
   ((52, 16, 13), 0x5b4e11ff6eec6342f6dec1358b92d9c42d016f64c42e72decccb64698bb4ef83),
   ((82, 14, 214), 0xe749051703355eb6ceb1fce7736802fcdcf851cd7e7ecc7c0d9f66753d8241cf),
   ((82, 14, 13), 0x6a411271ea1391c4be780ce48c2e9f9f0aa3f616e356043f77a3e03e725c931f),
   ((20, 12, 0), 0x9e19b7c98d15edb4232969ede2c5d862e3e762b9a67d48651579dd49a82d8ffb),
   ((52, 12, 214), 0xe6b9503a6bb796b2c918d1e36a8060862f0d622a65c75ac9002fa1c97cc6f05e),
   ((52, 12, 13), 0x672468aee0c32d41fb9bfe351b69e3037056448d4e2fbc0348a6fc0d995becad),
   ((84, 12, 214), 0x30c761c8c920dad2f635e84f427f729ebdb03db0239c4d3dfa5263ea69a88f94),
   ((2217, 102, 10), 0xfd7b2676d70b628128eb83fbba27b3ebefff6e51823c1d87620d57a4e2ad6208),
   ((163, 12, 3), 0xb315122ca45df8556f00a57b3a940a4412d67e26d57da1a2231f671fea8dfbd6)]

def crypto : Crypto where
  sha256 bytes := (digests.lookup (features bytes)).getD 0
  authorKey key := key = alice

/-- Alice's signatures, by the length of what is signed. -/
def signatures : List (Nat × Bytes) :=
  [(192, adaSignature),
   (226, beBytes 32 0x68349efb98d5dc259fd785ce6dfeaa1ccfbf6a4af6e25d3f595f6413874770be ++
     beBytes 32 0x167bb61d68ec885ed8475b4cf2cf6861e38cf3bea5684189927ef4412a7f0302)]

def verify : Verify := fun key p sig => key = alice && signatures.lookup p.length = some sig

def store : Store := ⟨1, some (ActSample.filterOf crypto)⟩

def tables : Tables :=
  ⟨∅, ∅, ∅, some ((ActSample.filterOf crypto).fold, (ActSample.filterOf crypto).canonical)⟩

def health : Health := { ActSample.healthOf crypto with instanceId := 1 }

theorem decodes {e : Envelope} {k : Nat × UInt8 × UInt8} {sig : Bytes} (hauthor : e.author = alice)
    (hp : e.preimage.toOption.map features = some k) (hsig : signatures.lookup k.1 = some sig)
    (hlen : sig.length = 64) : ∃ d, decode crypto verify d.bytes = .ok d ∧ d.envelope = e ∧
      d.id = (digests.lookup k).getD 0 := by
  cases hpre : e.preimage with
  | error err => simp [hpre, Except.toOption] at hp
  | ok p =>
    have hk : features p = k := by simpa [hpre, Except.toOption] using hp
    subst hk
    refine ⟨⟨⟨e, preimage_canonical hpre⟩, crypto.sha256 p, p ++ sig⟩, decode_ok.mpr
      ⟨p, sig, hpre, hlen, rfl, ?_, ?_, rfl, rfl⟩, rfl, rfl⟩
    · simp [crypto, hauthor]
    · have hlookup : signatures.lookup p.length = some sig := hsig
      simp [verify, hauthor, hlookup]

theorem ada_decodes : ∃ d, decode crypto verify d.bytes = .ok d ∧ d.envelope = ada ∧
    d.id = adaId :=
  decodes (k := (192, 11, 0)) rfl (by decide +kernel) rfl (beBytes_length _ _)

theorem grace_decodes : ∃ d, decode crypto verify d.bytes = .ok d ∧ d.envelope = grace ∧
    d.id = graceId :=
  decodes (k := (226, 11, 8)) rfl (by decide +kernel) rfl
    (by rw [List.length_append, beBytes_length, beBytes_length])

theorem accepts {p : Packet crypto verify} (hinst : p.instanceId = 1) (hauthor : p.author = alice) :
    p.Accepts ActSample.quoted store health := by
  refine ⟨decide_eq_true rfl, rfl, ?_⟩
  have hkey : crypto.authorKey alice = true := by decide
  have hconsistent : health.filterConsistent crypto = true := ActSample.health_consistent hkey
  have hready : health.writable ActSample.quoted = .ok () := rfl
  have hcurator : health.curators.contains p.author = true := by rw [hauthor]; rfl
  have hinst' : decide (health.instanceId = p.instanceId) = true := by rw [hinst]; rfl
  unfold Packet.suits
  rw [hready, hinst', hcurator, hconsistent]
  rfl

/-- Both events. -/
def world (a g : Decoded) : Candidates :=
  ((∅ : Candidates).insert a.id a.toSigned).insert g.id g.toSigned

section
variable {a g : Decoded} (hae : a.envelope = ada) (ha : a.id = adaId) (hge : g.envelope = grace)
variable (hg : g.id = graceId)

theorem world_mem {id : Hash} : id ∈ world a g ↔ id = g.id ∨ id = a.id := by
  rw [world, mem_map_insert, mem_map_insert]
  exact or_congr_right (or_iff_left Std.ExtTreeMap.not_mem_empty)

include ha hg in
theorem world_ids {id : Hash} (h : id ∈ world a g) : id = adaId ∨ id = graceId := by
  rcases world_mem.mp h with rfl | rfl
  · exact Or.inr hg
  · exact Or.inl ha

include ha hg in
theorem world_get :
    (world a g)[g.id]? = some g.toSigned ∧ (world a g)[a.id]? = some a.toSigned := by
  have hne : ¬ g.id = a.id := by
    rw [ha, hg]
    decide
  refine ⟨by rw [world, getElem?_insert, if_pos rfl], ?_⟩
  rw [world, getElem?_insert, if_neg hne, getElem?_insert, if_pos rfl]

include hae hge in
theorem world_subject {id : Hash} {s : Signed} (hs : (world a g)[id]? = some s) :
    subjectOf id s = id := by
  rw [world, getElem?_insert, getElem?_insert] at hs
  split_ifs at hs
  · rw [← Option.some.inj hs, subjectOf, hge]
    rfl
  · rw [← Option.some.inj hs, subjectOf, hae]
    rfl
  · simp at hs

include hae ha hge hg in
theorem world_free : CollisionFree crypto (world a g) := by
  have hids : ∀ {id}, id ∈ world a g → id = adaId ∨ id = graceId := world_ids ha hg
  have hgrants : rootGrant crypto adaId ≠ rootGrant crypto graceId := by decide +kernel
  have hrevisions : revisionId crypto adaId adaId ≠ revisionId crypto graceId graceId := by
    decide +kernel
  refine ⟨fun hx hy heq => ?_, fun hx hy => ?_, fun {x y s t} hx hy heq => ?_⟩
  · rcases hids hx with rfl | rfl <;> rcases hids hy with rfl | rfl
    · rfl
    · exact absurd heq hgrants
    · exact absurd heq.symm hgrants
    · rfl
  · rcases hids hx with rfl | rfl <;> rcases hids hy with rfl | rfl <;> decide +kernel
  · rw [world_subject hae hge hx, world_subject hae hge hy] at heq
    rcases hids (mem_of_getElem? hx) with rfl | rfl <;>
      rcases hids (mem_of_getElem? hy) with rfl | rfl
    · rfl
    · exact absurd heq hrevisions
    · exact absurd heq.symm hrevisions
    · rfl

end

theorem fits {U : Candidates} : Fits crypto verify store (ActSample.filterOf crypto) U tables where
  sound := (Store.Reachable.fresh _).sound
  bound := ⟨rfl, rfl, rfl⟩
  within := ⟨fun h => by simp [tables] at h⟩

/-- An entry of one event, with its body, on an empty corpus. -/
def entry (g : Decoded) (hg : decode crypto verify g.bytes = .ok g) : Packet crypto verify where
  instanceId := 1
  author := alice
  context := corpusDigest crypto []
  events := [g]
  bodies := (∅ : BTreeMap Bytes).insert graceBody (utf8 "Grace Hopper wrote the first compiler.\n")
  signed e he := by rwa [List.mem_singleton.mp he]

def fresh : System crypto verify := ⟨⟨tables, ∅⟩, []⟩

/-- The packet is started, checked and its one body put. -/
def moves (p : Packet crypto verify) : List (Move crypto verify) :=
  .start p :: [0, 0, 0, 0].map fun now => .step 0 health now

theorem genesis_valid {C : Candidates} {out : BTreeMap Status} {s : Subjects}
    (verdicts : Verdicts crypto C out s) {id : Hash} {e : Signed} (he : C[id]? = some e)
    (hkind : e.envelope.payload.kind = .genesis) (hheader : headerOffence e.envelope = none) :
    ∃ st : Status, out[id]? = some st ∧ st.state = .valid := by
  have hsubject : isSubject e = true := by rw [isSubject, hkind]
  refine ⟨.valid, ?_, rfl⟩
  rw [← verdicts.subject he hsubject (.alone he hsubject (Or.inl hkind))]
  simp [evaluate, he, hkind, hheader]

/-- No corpus of these events has the digest of the empty one. -/
theorem empty_apart {ids : List Hash} (hids : ∀ id ∈ ids, id = adaId ∨ id = graceId)
    (hsorted : ids.Pairwise (· < ·)) (hdigest : corpusDigest crypto ids = corpusDigest crypto []) :
    ids = [] := by
  have hpair : ∀ {x y : Hash}, (x = adaId ∨ x = graceId) → (y = adaId ∨ y = graceId) → x < y →
      x = graceId ∧ y = adaId := by
    rintro x y (rfl | rfl) (rfl | rfl) hlt
    · exact absurd hlt (by decide)
    · exact absurd hlt (by decide)
    · exact ⟨rfl, rfl⟩
    · exact absurd hlt (by decide)
  match ids with
  | [] => rfl
  | [x] =>
    rcases hids x List.mem_cons_self with rfl | rfl
    · exact absurd hdigest (by decide +kernel)
    · exact absurd hdigest (by decide +kernel)
  | [x, y] =>
    have hlt : x < y := (List.pairwise_cons.mp hsorted).1 y List.mem_cons_self
    obtain ⟨rfl, rfl⟩ := hpair (hids x (by simp)) (hids y (by simp)) hlt
    exact absurd hdigest (by decide +kernel)
  | x :: y :: z :: rest =>
    obtain ⟨hx, hrest⟩ := List.pairwise_cons.mp hsorted
    have hy := (List.pairwise_cons.mp hrest).1 z List.mem_cons_self
    obtain ⟨-, rfl⟩ := hpair (hids x (by simp)) (hids y (by simp)) (hx y List.mem_cons_self)
    exact absurd (hpair (Or.inl rfl) (hids z (by simp)) hy).1 (by decide)

section
variable {a g : Decoded} (hae : a.envelope = ada) (ha : a.id = adaId) (hge : g.envelope = grace)
variable (hg : g.id = graceId)

theorem entry_of (hdecode : decode crypto verify g.bytes = .ok g) :
    (entry g hdecode).Of (world a g) := by
  intro e he
  obtain rfl := List.mem_singleton.mp he
  rw [world, getElem?_insert, if_pos rfl]

include hae ha hge hg in
/-- The entry is built on the export of an empty node. -/
theorem entry_built (hdecode : decode crypto verify g.bytes = .ok g) : ∃ base : Context,
    (∀ id, id ∉ base.events) ∧ (entry g hdecode).Built store (world a g) base ∧
      base.Apart crypto (world a g) := by
  have free := world_free hae ha hge hg
  obtain ⟨m, base, hm, hbase, hinst⟩ := fromExport_total free (fits (U := world a g))
  obtain ⟨hin, hmem⟩ := export_read (U := world a g) fits hm hbase
  have hempty : ∀ id, id ∉ base.events := by
    intro id hid
    exact Std.ExtTreeMap.not_mem_empty ((hmem id).mp hid)
  have hkeys : base.events.keys = [] :=
    List.eq_nil_iff_forall_not_mem.mpr fun id hid => hempty id (Std.ExtTreeMap.mem_keys.mp hid)
  have within := withEvents_within hin (entry_of (a := a) hdecode)
  obtain ⟨out, s, hout, verdicts⟩ := classify_spec (free.within within)
  have hself : (candidatesOf (Context.withEvents base.events [g]))[g.id]? = some g.toSigned :=
    within.get (mem_candidatesOf.mpr (withEvents_mem.mpr (Or.inr ⟨g, by simp [entry], rfl⟩)))
      (world_get ha hg).1
  refine ⟨base, hempty, ⟨hinst, hin, by rw [hkeys]; rfl, fun e _ => hempty e.id, ?_, ?_⟩, ?_⟩
  · refine selfCheck_total (fun e he => ?_) hout fun e he => ?_
    · obtain rfl := List.mem_singleton.mp he
      rw [hge, hinst]
      rfl
    · obtain rfl := List.mem_singleton.mp he
      exact genesis_valid verdicts hself (by rw [hge]; rfl) (by rw [hge]; decide)
  · exact List.pairwise_singleton _ _
  · intro ids hids hsorted hdigest
    rw [hkeys] at hdigest ⊢
    exact empty_apart (fun id hid => world_ids ha hg (hids id hid)) hsorted hdigest

theorem moves_of {U : Candidates} {p : Packet crypto verify} (member : p.Of U) :
    ∀ m ∈ moves p, m.Of store U := by
  intro m hm
  rcases List.mem_cons.mp hm with rfl | hm
  · exact member
  · obtain ⟨now, -, rfl⟩ := List.mem_map.mp hm
    trivial

theorem entry_length {hdecode : decode crypto verify g.bytes = .ok g} :
    (List.replicate 6 (0 : BitVec 64)).length =
      (entry g hdecode).bodies.values.length + (entry g hdecode).events.length + 4 := by
  rfl

include hae ha hge hg in
/-- The run of the entry alone, up to its post. -/
theorem entry_posting (hdecode : decode crypto verify g.bytes = .ok g) : ∃ ctx,
    (fresh.run ActSample.quoted store none (moves (entry g hdecode))).site.tables = tables ∧
    (fresh.run ActSample.quoted store none (moves (entry g hdecode))).runs[0]? =
      some ⟨entry g hdecode, .posting ctx [] [g]⟩ := by
  obtain ⟨base, hempty, built, -⟩ := entry_built hae ha hge hg hdecode
  have free := world_free hae ha hge hg
  let advance : Site × Run crypto verify → BitVec 64 → Site × Run crypto verify :=
    Run.advance ActSample.quoted store none health
  obtain ⟨ctx, hchecked⟩ : ∃ ctx, [0, 0, 0].foldl advance (fresh.site, ⟨entry g hdecode, .approved⟩)
      = (fresh.site, ⟨entry g hdecode, .posting ctx (entry g hdecode).bodies.values [g]⟩) :=
    built.steps_checked (entry_of hdecode) free fits (accepts rfl rfl)
      (fun id hid => absurd hid (hempty id))
      (fun id hid => absurd hid Std.ExtTreeMap.not_mem_empty) 0 0 0
  obtain ⟨site, htables, hput⟩ : ∃ site : Site, site.tables = tables ∧ [0].foldl advance
      (fresh.site, ⟨entry g hdecode, .posting ctx (entry g hdecode).bodies.values [g]⟩) =
        (site, ⟨entry g hdecode, .posting ctx [] [g]⟩) := Run.steps_bodies rfl fresh.site
  obtain ⟨next, hnext, hsite, hrun⟩ : ∃ next,
      ([0, 0, 0] ++ [0] : List (BitVec 64)).foldl advance
        (fresh.site, ⟨entry g hdecode, .approved⟩) = next ∧
      (fresh.run ActSample.quoted store none (moves (entry g hdecode))).site = next.1 ∧
      (fresh.run ActSample.quoted store none (moves (entry g hdecode))).runs[0]? = some next.2 :=
    System.run_started fresh (entry g hdecode) health [0, 0, 0, 0]
  rw [List.foldl_append, hchecked] at hnext
  obtain rfl := hput.symm.trans hnext
  exact ⟨ctx, (congrArg Site.tables hsite).trans htables, hrun⟩

theorem moves_undisturbed (a : Decoded) (hdecode : decode crypto verify g.bytes = .ok g) :
    fresh.UndisturbedRun store ActSample.quoted none (moves (entry g hdecode)) := by
  have sound : fresh.Sound store (ActSample.filterOf crypto) (world a g) := ⟨fits, by simp [fresh]⟩
  have started := (sound.moved ActSample.quoted none (m := .start (entry g hdecode))
    (entry_of hdecode)).sound
  exact ⟨fun id hid => by simp [System.brings] at hid, started.alone rfl health [0, 0, 0, 0]⟩

include hae ha hge hg in
theorem ada_admitted (hada : decode crypto verify a.bytes = .ok a) : ∃ x,
    store.admitOnce crypto verify tables a.bytes none 0 = some (.ok x) ∧
    Fits crypto verify store (ActSample.filterOf crypto) (world a g) x.tables ∧
    ∀ id, id ∈ x.tables.candidates ↔ id = adaId := by
  have free := world_free hae ha hge hg
  have hinst : a.envelope.instanceId = store.instanceId := by
    rw [hae]
    rfl
  have hU := (world_get ha hg).2
  have before : Fits crypto verify store (ActSample.filterOf crypto) (world a g) tables := fits
  obtain ⟨all, out, s, A, st, -, within, verdicts, hst, hjudge⟩ := before.judged free hada hinst hU
  have hself := within.get (mem_candidatesOf.mpr (mem_map_insert.mpr (Or.inl rfl))) hU
  obtain ⟨st', hst', hvalid⟩ := genesis_valid verdicts hself (by rw [hae]; rfl)
    (by rw [hae]; decide)
  obtain rfl := Option.some.inj (hst.symm.trans hst')
  obtain rfl := valid_eq verdicts hself hst hvalid
  obtain ⟨x, hx, -⟩ := before.recorded .none 0 hada hjudge rfl
  have known : Known crypto verify store (world a g) a.bytes := by
    intro d hd _
    obtain rfl := Except.ok.inj (hada.symm.trans hd)
    exact hU
  refine ⟨x, hx, before.admission known hx, fun id => (admitted_mem hx id).trans ?_⟩
  constructor
  · rintro (hid | ⟨d, hd, -, rfl⟩)
    · exact absurd hid Std.ExtTreeMap.not_mem_empty
    · rw [← Except.ok.inj (hada.symm.trans hd), ha]
  · rintro rfl
    exact Or.inr ⟨a, hada, hinst, ha⟩

end

end Sample

end Clockchain.V1.Publisher.Entry
