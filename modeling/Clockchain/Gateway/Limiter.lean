import Clockchain.Maps
import Clockchain.Meters
import Mathlib.Data.List.Sort

/-!
# The rate limit

`cc-gateway/src/limit.rs`: one meter a client in a table that is bounded. Times and durations are
numbers of nanoseconds.
-/

namespace Clockchain.Gateway
open Maps
set_option autoImplicit false

/-! ## Clients -/

inductive IpAddr where
  | v4 (bits : BitVec 32)
  | v6 (bits : BitVec 128)
  deriving Repr, DecidableEq

namespace IpAddr

/-- The place of an address in the derived order, where version 4 is first. -/
def rank : IpAddr → Nat
  | v4 bits => bits.toNat
  | v6 bits => 2 ^ 32 + bits.toNat

def cmp : IpAddr → IpAddr → Ordering := compareOn rank

instance : Std.TransCmp cmp := inferInstanceAs (Std.TransCmp (compareOn rank))

theorem rank_inj {a b : IpAddr} (h : a.rank = b.rank) : a = b := by
  cases a with
  | v4 m =>
    cases b with
    | v4 n => rw [BitVec.eq_of_toNat_eq h]
    | v6 n =>
      have hm : m.toNat < 2 ^ 32 := m.isLt
      simp only [rank] at h
      omega
  | v6 m =>
    cases b with
    | v4 n =>
      have hn : n.toNat < 2 ^ 32 := n.isLt
      simp only [rank] at h
      omega
    | v6 n => rw [BitVec.eq_of_toNat_eq (Nat.add_left_cancel h)]

instance : Std.LawfulEqCmp cmp where
  eq_of_compare h := rank_inj (Nat.compare_eq_eq.mp h)

end IpAddr

/-- `Ipv6Addr::to_ipv4_mapped`. -/
def toIpv4Mapped (v6 : BitVec 128) : Option (BitVec 32) :=
  if v6 >>> 32 = 0xffff then some (v6.setWidth 32) else none

/-- The bucket a client address is metered under: of version 6 the first four segments. -/
def clientKey : IpAddr → IpAddr
  | .v4 bits => .v4 bits
  | .v6 bits =>
    match toIpv4Mapped bits with
    | some v4 => .v4 v4
    | none => .v6 (bits >>> 64 <<< 64)

/-! ## The table -/

/-- `tat` has the time of the next request of each client. -/
structure Limiter where
  interval : Nat
  tolerance : Nat
  maxTracked : Nat
  tat : Std.ExtTreeMap IpAddr Nat IpAddr.cmp

namespace Limiter

def withCapacity (ratePerMinute maxTracked : Nat) : Limiter :=
  let rate := max ratePerMinute 1
  let interval := (60000000000 + (rate - 1)) / rate
  ⟨interval, interval * (rate - 1), maxTracked, ∅⟩

/-- The decision of the bucket. -/
def meter (l : Limiter) (key : IpAddr) (now : Nat) : Except Nat Unit × Limiter :=
  let tat := max (l.tat[key]?.getD now) now
  let ahead := tat - now
  if l.tolerance < ahead then (.error (ahead - l.tolerance), l)
  else (.ok (), { l with tat := l.tat.insert key (tat + l.interval) })

/-- The clients that are not idle. -/
def retain (l : Limiter) (now : Nat) : Limiter :=
  { l with tat := l.tat.filter fun _ tat => now < tat }

def checkAt (l : Limiter) (ip : IpAddr) (now : Nat) : Except Nat Unit × Limiter :=
  let key := clientKey ip
  if !l.tat.contains key && l.maxTracked ≤ l.tat.size then
    let l := l.retain now
    if l.maxTracked ≤ l.tat.size then (.error l.interval, l) else l.meter key now
  else l.meter key now

/-- The request meets a table that is full of clients that are not idle. -/
def full (l : Limiter) (ip : IpAddr) (now : Nat) : Bool :=
  !l.tat.contains (clientKey ip) && l.maxTracked ≤ l.tat.size &&
    l.maxTracked ≤ (l.retain now).tat.size

def rate (l : Limiter) : Meters.Rate := ⟨l.interval, l.tolerance⟩

/-- The table as a meter for each client; one that is not in it has never been due. -/
def book (l : Limiter) : Meters.Book IpAddr := fun key => l.tat[key]?.getD 0

end Limiter

/-- A request, and the limiter as it found it. -/
structure Request where
  limiter : Limiter
  ip : IpAddr
  now : Nat

namespace Request

def decision (c : Request) : Except Nat Unit := (c.limiter.checkAt c.ip c.now).1

/-- The limiter after the request. -/
def after (c : Request) : Limiter := (c.limiter.checkAt c.ip c.now).2

def full (c : Request) : Bool := c.limiter.full c.ip c.now

def key (c : Request) : IpAddr := clientKey c.ip

/-- What the client asked and was told. -/
def answer (c : Request) : (IpAddr × Nat) × Except Nat Unit := ((c.key, c.now), c.decision)

end Request

/-- The requests of a run, each with its address and time. -/
def Limiter.calls : Limiter → List (IpAddr × Nat) → List Request
  | _, [] => []
  | l, (ip, now) :: rest => ⟨l, ip, now⟩ :: Limiter.calls (l.checkAt ip now).2 rest

/-! ## One request -/

namespace Limiter
variable {l : Limiter} {ip key : IpAddr} {now : Nat}

theorem book_get : max (l.book key) now = max (l.tat[key]?.getD now) now := by
  unfold book
  cases l.tat[key]? with
  | none => simp
  | some tat => rfl

/-- The bucket decides as a meter does. -/
theorem meter_step : (l.meter key now).1 = (Meters.step l.rate l.book key now).1 ∧
    (l.meter key now).2.book = (Meters.step l.rate l.book key now).2 ∧
    (l.meter key now).2.rate = l.rate ∧ (l.meter key now).2.maxTracked = l.maxTracked := by
  unfold meter Meters.step
  simp only [← book_get]
  split
  · rename_i hahead
    have hask : Meters.ask l.rate (l.book key) now = .error (l.book key - now - l.rate.tolerance) :=
      Meters.ask_error.mpr ⟨by change now + l.tolerance < _; omega, rfl⟩
    rw [hask]
    refine ⟨?_, rfl, rfl, rfl⟩
    change Except.error _ = Except.error (l.book key - now - l.tolerance)
    congr 1
    omega
  · have hask : Meters.ask l.rate (l.book key) now = .ok (max (l.book key) now + l.rate.interval) :=
      Meters.ask_ok.mpr ⟨by change _ ≤ now + l.tolerance; omega, rfl⟩
    rw [hask]
    refine ⟨rfl, ?_, rfl, rfl⟩
    funext a
    change (l.tat.insert key _)[a]?.getD 0 = l.book.after key _ a
    rw [Std.ExtTreeMap.getElem?_insert]
    by_cases ha : a = key
    · subst ha
      rw [Meters.after_same, if_pos Std.ReflCmp.compare_self]
      rfl
    · rw [Meters.after_other _ ha, if_neg]
      · rfl
      · exact fun h => ha (Std.LawfulEqCmp.eq_of_compare h).symm

/-- Idle clients are as good as unknown ones. -/
theorem retain_agree : Meters.Agree now l.book (l.retain now).book := by
  intro key
  change max (l.tat[key]?.getD 0) now =
    max ((l.tat.filter fun _ tat => decide (now < tat))[key]?.getD 0) now
  cases hold : l.tat[key]? with
  | none =>
    have hnone : (l.tat.filter fun _ tat => decide (now < tat))[key]? = none := by
      rw [Std.ExtTreeMap.getElem?_filter', hold, Option.filter_none]
    rw [hnone]
  | some tat =>
    rw [Std.ExtTreeMap.getElem?_filter', hold]
    by_cases hlt : now < tat
    · simp [Option.filter, hlt]
    · simp [Option.filter, hlt]
      omega

theorem full_iff : l.full ip now = true ↔ l.tat.contains (clientKey ip) = false ∧
    l.maxTracked ≤ l.tat.size ∧ l.maxTracked ≤ (l.retain now).tat.size := by
  simp [full, and_assoc]

theorem checkAt_full (h : l.full ip now = true) :
    l.checkAt ip now = (.error l.interval, l.retain now) := by
  obtain ⟨hnew, hsize, hretain⟩ := full_iff.mp h
  have hretain' : (l.retain now).maxTracked ≤ (l.retain now).tat.size := hretain
  simp only [checkAt, hnew, hsize, Bool.not_false, decide_true, Bool.and_self, if_true]
  rw [if_pos hretain']
  rfl

/-- Otherwise the bucket of the client decides, after the idle ones have gone or not. -/
theorem checkAt_meter (h : l.full ip now = false) : ∃ l',
    (l' = l ∨ l' = l.retain now ∧ l.tat.contains (clientKey ip) = false) ∧
    (l'.tat.size < l'.maxTracked ∨ l'.tat.contains (clientKey ip) = true) ∧
    l.checkAt ip now = l'.meter (clientKey ip) now := by
  by_cases hnew : l.tat.contains (clientKey ip) = true
  · refine ⟨l, .inl rfl, .inr hnew, ?_⟩
    simp [checkAt, hnew]
  by_cases hsize : l.maxTracked ≤ l.tat.size
  · have hretain : ¬ l.maxTracked ≤ (l.retain now).tat.size := by
      intro hle
      have := full_iff.mpr ⟨by simpa using hnew, hsize, hle⟩
      rw [h] at this
      cases this
    have hretain' : ¬ (l.retain now).maxTracked ≤ (l.retain now).tat.size := hretain
    refine ⟨l.retain now, .inr ⟨rfl, by simpa using hnew⟩, .inl (Nat.lt_of_not_le hretain'), ?_⟩
    simp only [checkAt, hnew, hsize, Bool.not_false, decide_true, Bool.and_self, if_true]
    rw [if_neg hretain']
  · refine ⟨l, .inl rfl, .inl (Nat.lt_of_not_le hsize), ?_⟩
    simp [checkAt, hsize]

theorem meter_error {w : Nat} (h : (l.meter key now).1 = .error w) :
    (l.meter key now).2 = l ∧ l.tat.contains key = true := by
  simp only [meter] at h ⊢
  split at h
  · rename_i hahead
    rw [if_pos hahead]
    refine ⟨rfl, ?_⟩
    cases hold : l.tat[key]? with
    | none =>
      rw [hold] at hahead
      simp at hahead
    | some tat => exact contains_iff.mpr (mem_of_getElem? hold)
  · cases h

theorem meter_size (h : l.tat.size ≤ l.maxTracked)
    (hroom : l.tat.size < l.maxTracked ∨ l.tat.contains key = true) :
    (l.meter key now).2.tat.size ≤ l.maxTracked := by
  simp only [meter]
  split
  · exact h
  · change (l.tat.insert key _).size ≤ l.maxTracked
    by_cases hmem : key ∈ l.tat
    · rw [size_insert_old hmem]
      exact h
    · rw [size_insert_new hmem]
      rcases hroom with hlt | hcontains
      · omega
      · exact absurd (contains_iff.mp hcontains) hmem

theorem retain_size : (l.retain now).tat.size ≤ l.tat.size := Std.ExtTreeMap.size_filter_le_size

/-- A full table has no idle clients. -/
theorem retain_full (h : l.tat.size ≤ l.maxTracked)
    (hfull : l.maxTracked ≤ (l.retain now).tat.size) : l.retain now = l := by
  have heq : (l.retain now).tat.size = l.tat.size := by
    have : (l.retain now).tat.size ≤ l.tat.size := retain_size
    omega
  have hself :=
    Std.ExtTreeMap.filter_eq_self_iff.mpr (Std.ExtTreeMap.size_filter_eq_size_iff.mp heq)
  unfold retain
  rw [hself]

theorem checkAt_size (ip : IpAddr) (now : Nat) (h : l.tat.size ≤ l.maxTracked) :
    (l.checkAt ip now).2.tat.size ≤ l.maxTracked ∧
    (l.checkAt ip now).2.maxTracked = l.maxTracked := by
  cases hfull : l.full ip now with
  | true =>
    rw [checkAt_full hfull]
    exact ⟨Nat.le_trans retain_size h, rfl⟩
  | false =>
    obtain ⟨l', hl', hroom, heq⟩ := checkAt_meter hfull
    have hmax : l'.maxTracked = l.maxTracked ∧ l'.tat.size ≤ l.tat.size := by
      rcases hl' with rfl | ⟨rfl, -⟩
      · exact ⟨rfl, Nat.le_refl _⟩
      · exact ⟨rfl, retain_size⟩
    have hsize : (l'.meter (clientKey ip) now).2.tat.size ≤ l'.maxTracked :=
      meter_size (by rw [hmax.1]; exact Nat.le_trans hmax.2 h) hroom
    rw [heq]
    rw [hmax.1] at hsize
    exact ⟨hsize, meter_step.2.2.2.trans hmax.1⟩

/-- A refused request leaves the table as it is. -/
theorem checkAt_error (h : l.tat.size ≤ l.maxTracked) {w : Nat}
    (herror : (l.checkAt ip now).1 = .error w) : (l.checkAt ip now).2 = l := by
  cases hfull : l.full ip now with
  | true =>
    rw [checkAt_full hfull]
    exact retain_full h (full_iff.mp hfull).2.2
  | false =>
    obtain ⟨l', hl', hroom, heq⟩ := checkAt_meter hfull
    rw [heq] at herror ⊢
    obtain ⟨hsame, hknown⟩ := meter_error herror
    rw [hsame]
    rcases hl' with rfl | ⟨rfl, hnew⟩
    · rfl
    · obtain ⟨tat, htat, -⟩ := mem_filter.mp (contains_iff.mp hknown)
      rw [contains_iff.mpr (mem_of_getElem? htat)] at hnew
      cases hnew

/-! ## Asking again -/

/-- A client that met a full table is admitted as soon as one of the clients in it is idle. -/
theorem checkAt_later (h : l.tat.size ≤ l.maxTracked) (hfull : l.full ip now = true) (t : Nat) :
    (l.checkAt ip t).1 = .ok () ↔ ∃ (key : IpAddr) (due : Nat), l.tat[key]? = some due ∧
      due ≤ t := by
  obtain ⟨hnew, hsize, -⟩ := full_iff.mp hfull
  constructor
  · intro hok
    have hnot : ¬ l.maxTracked ≤ (l.retain t).tat.size := by
      intro hretain
      rw [checkAt_full (full_iff.mpr ⟨hnew, hsize, hretain⟩)] at hok
      cases hok
    by_contra hnone
    push Not at hnone
    apply hnot
    have hsame : (l.retain t).tat.size = l.tat.size := by
      apply Std.ExtTreeMap.size_filter_eq_size_iff.mpr
      intro key hkey
      exact decide_eq_true (hnone key _ (Std.ExtTreeMap.getElem?_eq_some_getElem hkey))
    omega
  · rintro ⟨key, due, hdue, hle⟩
    have hfree : l.full ip t = false := by
      apply Bool.eq_false_iff.mpr
      intro hfull'
      have hkeep := retain_full h (full_iff.mp hfull').2.2
      have hmem : (l.retain t).tat[key]? = some due := by rw [hkeep, hdue]
      have hlt := (getElem?_filter.mp hmem).2
      simp only [decide_eq_true_eq] at hlt
      omega
    obtain ⟨l', hl', -, heq⟩ := checkAt_meter hfree
    rw [heq]
    cases hd : (l'.meter (clientKey ip) t).1 with
    | ok _ => rfl
    | error w =>
      have hknown := (meter_error hd).2
      rcases hl' with rfl | ⟨rfl, -⟩
      · rw [hnew] at hknown
        cases hknown
      · obtain ⟨tat, htat, -⟩ := mem_filter.mp (contains_iff.mp hknown)
        rw [contains_iff.mpr (mem_of_getElem? htat)] at hnew
        cases hnew

/-- The earliest client in the table is due exactly one interval from now. -/
def EarliestDue (l : Limiter) (now : Nat) : Prop :=
  (∃ key : IpAddr, l.tat[key]? = some (now + l.interval)) ∧
    ∀ (key : IpAddr) (due : Nat), l.tat[key]? = some due → now + l.interval ≤ due

/-- Asking again after exactly the wait is admitted, and asking earlier is refused. -/
def Exact (l : Limiter) (ip : IpAddr) (now wait : Nat) : Prop :=
  (l.checkAt ip (now + wait)).1 = .ok () ∧
    ∀ t, now ≤ t → t < now + wait → ∃ w, (l.checkAt ip t).1 = .error w

theorem refused_iff {x : Except Nat Unit} : (∃ w, x = .error w) ↔ ¬ x = .ok () := by
  cases x <;> simp

/-- The wait of a full table is exact only by chance. -/
theorem exact_full (h : l.tat.size ≤ l.maxTracked) (hfull : l.full ip now = true) :
    l.Exact ip now l.interval ↔ l.EarliestDue now := by
  have hlater := checkAt_later h hfull
  have hahead : ∀ (key : IpAddr) (due : Nat), l.tat[key]? = some due → now < due := by
    intro key due hdue
    have hkeep := retain_full h (full_iff.mp hfull).2.2
    have hmem : (l.retain now).tat[key]? = some due := by rw [hkeep, hdue]
    have hlt := (getElem?_filter.mp hmem).2
    simpa using hlt
  constructor
  · rintro ⟨hok, hearly⟩
    have hdues : ∀ (key : IpAddr) (due : Nat), l.tat[key]? = some due → now + l.interval ≤ due := by
      intro key due hdue
      have hlt := hahead key due hdue
      by_contra hnot
      have := hearly due (by omega) (by omega)
      rw [refused_iff, hlater] at this
      exact this ⟨key, due, hdue, Nat.le_refl _⟩
    obtain ⟨key, due, hdue, hle⟩ := (hlater _).mp hok
    have hge := hdues key due hdue
    obtain rfl : due = now + l.interval := by omega
    exact ⟨⟨key, hdue⟩, hdues⟩
  · rintro ⟨⟨key, hdue⟩, hdues⟩
    refine ⟨(hlater _).mpr ⟨key, _, hdue, Nat.le_refl _⟩, fun t _ ht => ?_⟩
    rw [refused_iff, hlater]
    rintro ⟨key', due, hdue', hle⟩
    have := hdues key' due hdue'
    omega

/-- The wait of a bucket is exact. -/
theorem exact_meter (hfree : l.full ip now = false) {w : Nat}
    (herror : (l.checkAt ip now).1 = .error w) : l.Exact ip now w := by
  obtain ⟨l', hl', -, heq⟩ := checkAt_meter hfree
  rw [heq] at herror
  have hknown := (meter_error herror).2
  have hold : l.tat.contains (clientKey ip) = true := by
    rcases hl' with rfl | ⟨rfl, -⟩
    · exact hknown
    · obtain ⟨tat, htat, -⟩ := mem_filter.mp (contains_iff.mp hknown)
      exact contains_iff.mpr (mem_of_getElem? htat)
  have hat : ∀ t, (l.checkAt ip t).1 = (Meters.step l.rate l.book (clientKey ip) t).1 := by
    intro t
    rw [checkAt, hold]
    exact meter_step.1
  have herror' : (Meters.step l.rate l.book (clientKey ip) now).1 = .error w := by
    rw [← hat, heq, herror]
  obtain ⟨⟨due, hok⟩, hearly⟩ := Meters.ask_again (Meters.step_error herror').1
  refine ⟨?_, fun t hle hlt => ?_⟩
  · rw [hat, Meters.step, hok]
  · obtain ⟨w', hw'⟩ := hearly t hle hlt
    refine ⟨w', ?_⟩
    rw [hat, Meters.step, hw']

/-! ## Runs -/

theorem calls_map (l : Limiter) (requests : List (IpAddr × Nat)) :
    (l.calls requests).map (fun c => (c.key, c.now)) =
      requests.map fun request => (clientKey request.1, request.2) := by
  induction requests generalizing l with
  | nil => rfl
  | cons request rest ih => exact congrArg _ (ih _)

/-- What every limiter of a run has in common. -/
theorem calls_sized {c : Request} {requests : List (IpAddr × Nat)} (h : l.tat.size ≤ l.maxTracked)
    (hc : c ∈ l.calls requests) :
    c.limiter.tat.size ≤ c.limiter.maxTracked ∧ c.limiter.maxTracked = l.maxTracked := by
  induction requests generalizing l with
  | nil => cases hc
  | cons request rest ih =>
    obtain ⟨hsize, hmax⟩ := checkAt_size request.1 request.2 h
    rcases List.mem_cons.mp hc with rfl | hc
    · exact ⟨h, rfl⟩
    · obtain ⟨h', heq⟩ := ih (by omega) hc
      exact ⟨h', heq.trans hmax⟩

theorem checkAt_agree (ip : IpAddr) {b : Meters.Book IpAddr} (h : Meters.Agree now l.book b) :
    if l.full ip now then Meters.Agree now (l.checkAt ip now).2.book b
    else (l.checkAt ip now).1 = (Meters.step l.rate b (clientKey ip) now).1 ∧
      Meters.Agree now (l.checkAt ip now).2.book (Meters.step l.rate b (clientKey ip) now).2 := by
  have hretain : Meters.Agree now (l.retain now).book b :=
    fun key => (retain_agree key).symm.trans (h key)
  split
  · rename_i hfull
    rw [checkAt_full hfull]
    exact hretain
  · rename_i hfree
    obtain ⟨l', hl', -, heq⟩ := checkAt_meter (by simpa using hfree)
    have hagree : Meters.Agree now l'.book b ∧ l'.rate = l.rate := by
      rcases hl' with rfl | ⟨rfl, -⟩
      · exact ⟨h, rfl⟩
      · exact ⟨hretain, rfl⟩
    obtain ⟨hdecision, hbook, -, -⟩ := @meter_step l' (clientKey ip) now
    rw [heq, hdecision, hbook, ← hagree.2]
    exact hagree.1.step

theorem checkAt_rate : (l.checkAt ip now).2.rate = l.rate := by
  cases hfull : l.full ip now with
  | true =>
    rw [checkAt_full hfull]
    rfl
  | false =>
    obtain ⟨l', hl', -, heq⟩ := checkAt_meter hfull
    rw [heq, meter_step.2.2.1]
    rcases hl' with rfl | ⟨rfl, -⟩ <;> rfl

/-- The requests that do not meet a full table are decided as by meters without a table. -/
theorem calls_run {b : Meters.Book IpAddr} {start : Nat} {requests : List (IpAddr × Nat)}
    (h : Meters.Agree start l.book b) (hstart : ∀ request ∈ requests, start ≤ request.2)
    (hsorted : (requests.map Prod.snd).Pairwise (· ≤ ·)) :
    ((l.calls requests).filter fun c => !c.full).map Request.answer =
      Meters.run l.rate b
        (((l.calls requests).filter fun c => !c.full).map fun c => (c.key, c.now)) := by
  induction requests generalizing l b start with
  | nil => rfl
  | cons request rest ih =>
    obtain ⟨ip, now⟩ := request
    have hagree := checkAt_agree ip (h.later (hstart _ List.mem_cons_self))
    rw [List.map_cons, List.pairwise_cons] at hsorted
    have hlater : ∀ request ∈ rest, now ≤ request.2 :=
      fun request hr => hsorted.1 _ (List.mem_map_of_mem hr)
    rw [calls, List.filter_cons]
    cases hfull : l.full ip now with
    | true =>
      rw [hfull, if_pos rfl] at hagree
      have htail := ih hagree hlater hsorted.2
      rw [checkAt_rate] at htail
      simp only [Request.full, hfull, Bool.not_true, Bool.false_eq_true, if_false]
      exact htail
    | false =>
      rw [hfull, if_neg Bool.false_ne_true] at hagree
      have htail := ih hagree.2 hlater hsorted.2
      rw [checkAt_rate] at htail
      simp only [Request.full, hfull, Bool.not_false, if_true, List.map_cons, Meters.run]
      refine congrArg₂ List.cons ?_ htail
      change ((clientKey ip, now), (l.checkAt ip now).1) = _
      rw [hagree.1]
      rfl

/-! ## The rate -/

theorem withCapacity_rate {rate : Nat} (maxTracked : Nat) (h : 1 ≤ rate) :
    (withCapacity rate maxTracked).tolerance + (withCapacity rate maxTracked).interval =
        rate * (withCapacity rate maxTracked).interval ∧
      60000000000 ≤ rate * (withCapacity rate maxTracked).interval := by
  have hmax : max rate 1 = rate := by omega
  simp only [withCapacity, hmax]
  set interval := (60000000000 + (rate - 1)) / rate with hinterval
  constructor
  · rw [Nat.mul_sub_one, Nat.mul_comm]
    have := Nat.le_mul_of_pos_left interval h
    omega
  · have hdiv := Nat.div_add_mod (60000000000 + (rate - 1)) rate
    have hmod := Nat.mod_lt (60000000000 + (rate - 1)) h
    rw [← hinterval] at hdiv
    omega

end Limiter

/-! ## Metering -/

section
variable (rate maxTracked : Nat) (requests : List (IpAddr × Nat))

/-- The requests of a new limiter. -/
def newCalls : List Request := (Limiter.withCapacity rate maxTracked).calls requests

def newRate : Meters.Rate := (Limiter.withCapacity rate maxTracked).rate

/-- The decisions of a limiter with an unbounded table. -/
def unbounded (asked : List (IpAddr × Nat)) : List ((IpAddr × Nat) × Except Nat Unit) :=
  Meters.run (newRate rate maxTracked) (fun _ => 0) asked

/-- The limiter meters exactly: `alone` for the keys that never meet a full table, `answered` for
all requests that do not. -/
structure MetersExactly : Prop where
  alone : ∀ key, (∀ c ∈ newCalls rate maxTracked requests, c.key = key → c.full = false) →
    ((newCalls rate maxTracked requests).map Request.answer).filter (fun x => x.1.1 = key) =
      (unbounded rate maxTracked (requests.map fun x => (clientKey x.1, x.2))).filter
        fun x => x.1.1 = key
  answered : ((newCalls rate maxTracked requests).filter fun c => !c.full).map Request.answer =
    unbounded rate maxTracked
      (((newCalls rate maxTracked requests).filter fun c => !c.full).map fun c => (c.key, c.now))
  window : ∀ key first last, last < first + 60000000000 →
    Meters.admitted key first last ((newCalls rate maxTracked requests).map Request.answer) ≤
      2 * rate - 1
  spaced : ∀ key, Meters.Spaced (newRate rate maxTracked)
      ((requests.filter fun x => clientKey x.1 = key).map Prod.snd) →
    ∀ c ∈ newCalls rate maxTracked requests, c.key = key → c.full = false → c.decision = .ok ()
  refused : ∀ c ∈ newCalls rate maxTracked requests, ∀ w, c.decision = .error w →
    c.after = c.limiter
  again : ∀ c ∈ newCalls rate maxTracked requests, ∀ w, c.decision = .error w →
    c.after.Exact c.ip c.now w
  bounded : ∀ c ∈ newCalls rate maxTracked requests, c.after.tat.size ≤ maxTracked

/-- Whenever a request meets a full table, the earliest client in it is due one interval later. -/
def FullWaits : Prop :=
  ∀ c ∈ newCalls rate maxTracked requests, c.full = true → c.limiter.EarliestDue c.now

end

section
variable {rate maxTracked : Nat} {requests : List (IpAddr × Nat)}

theorem newCalls_sized {c : Request} (hc : c ∈ newCalls rate maxTracked requests) :
    c.limiter.tat.size ≤ c.limiter.maxTracked ∧ c.limiter.maxTracked = maxTracked :=
  Limiter.calls_sized (Nat.zero_le _) hc

theorem answered_run (rate maxTracked : Nat)
    (hsorted : (requests.map Prod.snd).Pairwise (· ≤ ·)) :
    ((newCalls rate maxTracked requests).filter fun c => !c.full).map Request.answer =
      unbounded rate maxTracked
        (((newCalls rate maxTracked requests).filter fun c => !c.full).map
          fun c => (c.key, c.now)) := by
  have hfresh : Meters.Agree 0 (Limiter.withCapacity rate maxTracked).book fun _ => 0 :=
    fun key => rfl
  exact Limiter.calls_run hfresh (fun _ _ => Nat.zero_le _) hsorted

/-- What is true of the calls of one key is read off their answers. -/
theorem filter_answer (key : IpAddr) (cs : List Request) :
    (cs.map Request.answer).filter (fun x => x.1.1 = key) =
      (cs.filter fun c => c.key = key).map Request.answer := by
  rw [List.filter_map]
  rfl

theorem alone_run (hsorted : (requests.map Prod.snd).Pairwise (· ≤ ·)) {key : IpAddr}
    (hfree : ∀ c ∈ newCalls rate maxTracked requests, c.key = key → c.full = false) :
    ((newCalls rate maxTracked requests).map Request.answer).filter (fun x => x.1.1 = key) =
      (unbounded rate maxTracked (requests.map fun x => (clientKey x.1, x.2))).filter
        fun x => x.1.1 = key := by
  set cs := newCalls rate maxTracked requests with hcs
  have hkeep : (cs.filter fun c => !c.full).filter (fun c => c.key = key) =
      cs.filter fun c => c.key = key := by
    rw [List.filter_filter]
    refine List.filter_congr fun c hc => ?_
    by_cases hkey : c.key = key
    · simp [hkey, hfree c hc hkey]
    · simp [hkey]
  have hasked : requests.map (fun x => (clientKey x.1, x.2)) = cs.map fun c => (c.key, c.now) :=
    (Limiter.calls_map _ requests).symm
  have hanswered := congrArg (List.filter fun x => decide (x.1.1 = key))
    (answered_run rate maxTracked hsorted)
  rw [filter_answer, ← hcs, hkeep, unbounded, Meters.run_filter rfl, List.filter_map] at hanswered
  rw [filter_answer, hanswered, hasked, unbounded, Meters.run_filter rfl, List.filter_map]
  congr 2

theorem window_run (h : 1 ≤ rate) (hsorted : (requests.map Prod.snd).Pairwise (· ≤ ·))
    (key : IpAddr) {first last : Nat} (hwindow : last < first + 60000000000) :
    Meters.admitted key first last ((newCalls rate maxTracked requests).map Request.answer) ≤
      2 * rate - 1 := by
  -- A request that meets a full table is refused, so only the others count.
  have hcount :
    Meters.admitted key first last ((newCalls rate maxTracked requests).map Request.answer) =
      Meters.admitted key first last
        (((newCalls rate maxTracked requests).filter fun c => !c.full).map Request.answer) := by
    simp only [Meters.admitted, List.countP_map, List.countP_filter]
    refine List.countP_congr fun c _ => ?_
    cases hfull : c.full with
    | false => simp
    | true =>
      have hdecision : c.decision = .error c.limiter.interval := by
        rw [Request.decision, Limiter.checkAt_full hfull]
      simp [Request.answer, hdecision, Except.toBool]
  obtain ⟨htolerance, hminute⟩ := Limiter.withCapacity_rate maxTracked h
  rw [hcount, answered_run rate maxTracked hsorted]
  have hlt := Meters.admitted_lt (r := newRate rate maxTracked) (b := fun _ => 0) (k := key) h
    htolerance (Nat.lt_of_lt_of_le hwindow (Nat.add_le_add_left hminute first))
    (((newCalls rate maxTracked requests).filter fun c => !c.full).map fun c => (c.key, c.now))
  change _ < _ at hlt
  unfold unbounded
  omega

theorem spaced_run (hsorted : (requests.map Prod.snd).Pairwise (· ≤ ·)) {key : IpAddr}
    (hspaced : Meters.Spaced (newRate rate maxTracked)
      ((requests.filter fun x => clientKey x.1 = key).map Prod.snd)) {c : Request}
    (hc : c ∈ newCalls rate maxTracked requests) (hkey : c.key = key) (hfree : c.full = false) :
    c.decision = .ok () := by
  set cs := newCalls rate maxTracked requests with hcs
  set kept := ((cs.filter fun c => !c.full).filter fun c => c.key = key).map
    fun c => (c.key, c.now) with hkept
  have hanswered := congrArg (List.filter fun x => decide (x.1.1 = key))
    (answered_run rate maxTracked hsorted)
  rw [filter_answer, ← hcs, unbounded, Meters.run_filter rfl, List.filter_map] at hanswered
  -- The requests that are kept are spaced as all those of the key are.
  have htimes : (kept.map Prod.snd).Sublist
      ((requests.filter fun x => clientKey x.1 = key).map Prod.snd) := by
    have hasked : (requests.filter fun x => clientKey x.1 = key).map Prod.snd =
        ((cs.map fun c => (c.key, c.now)).filter fun x => x.1 = key).map Prod.snd := by
      rw [hcs, newCalls, Limiter.calls_map, List.filter_map, List.map_map]
      rfl
    rw [hasked, hkept, List.filter_map]
    exact ((List.filter_sublist.filter _).map _).map _
  have hok := Meters.spaced_admitted (r := newRate rate maxTracked) (b := fun _ => 0)
    (k := key) kept
    (fun x hx => by
      obtain ⟨c', hc', rfl⟩ := List.mem_map.mp hx
      simpa using (List.mem_filter.mp hc').2)
    (hspaced.sublist htimes) (fun _ _ => Nat.zero_le _) c.answer
  apply hok
  rw [hkept]
  refine hanswered ▸ List.mem_map_of_mem ?_
  exact List.mem_filter.mpr ⟨List.mem_filter.mpr ⟨hc, by simp [hfree]⟩, by simpa using hkey⟩

theorem newCalls_again {c : Request} (hc : c ∈ newCalls rate maxTracked requests) {w : Nat}
    (herror : c.decision = .error w) :
    c.after.Exact c.ip c.now w ↔ (c.full = true → c.limiter.EarliestDue c.now) := by
  obtain ⟨hsized, -⟩ := newCalls_sized hc
  rw [show c.after = c.limiter from Limiter.checkAt_error hsized herror]
  cases hfull : c.full with
  | true =>
    have hw : c.decision = .error c.limiter.interval := by
      rw [Request.decision, Limiter.checkAt_full hfull]
    obtain rfl : c.limiter.interval = w := by
      rw [hw] at herror
      exact Except.error.inj herror
    simpa using Limiter.exact_full hsized hfull
  | false => simpa using Limiter.exact_meter hfull herror

/-- The limiter meters exactly unless a client meets a full table whose earliest client is not
due exactly one interval later. -/
theorem meters_exactly_iff (h : 1 ≤ rate) (hsorted : (requests.map Prod.snd).Pairwise (· ≤ ·)) :
    MetersExactly rate maxTracked requests ↔ FullWaits rate maxTracked requests := by
  constructor
  · intro hexact c hc hfull
    have hw : c.decision = .error c.limiter.interval := by
      rw [Request.decision, Limiter.checkAt_full hfull]
    exact (newCalls_again hc hw).mp (hexact.again c hc _ hw) hfull
  · intro hwaits
    exact {
      alone := fun key => alone_run hsorted
      answered := answered_run rate maxTracked hsorted
      window := fun key first last => window_run h hsorted key
      spaced := fun key hspaced c => spaced_run hsorted hspaced
      refused := fun c hc w => Limiter.checkAt_error (newCalls_sized hc).1
      again := fun c hc w herror => (newCalls_again hc herror).mpr (hwaits c hc)
      bounded := fun c hc => by
        obtain ⟨hsize, hmax⟩ := newCalls_sized hc
        have := Limiter.checkAt_size c.ip c.now hsize
        exact hmax ▸ this.1 }

end

/-! ## Two clients and room for one -/

namespace Sample

def first : IpAddr := .v4 0xc0000201
def second : IpAddr := .v4 0xc0000202

/-- The second client meets a table with the first client in it, which is due in a minute. -/
def burst : List (IpAddr × Nat) := [(first, 0), (first, 0), (second, 0)]

/-- The second client asks again when the first one is idle. -/
def inTurn : List (IpAddr × Nat) := [(first, 0), (second, 0), (second, 60000000000)]

/-- The limiter after the first client has used its burst. -/
def busy : Limiter := (((Limiter.withCapacity 2 1).checkAt first 0).2.checkAt first 0).2

theorem inTurn_waits : FullWaits 1 1 inTurn := by
  intro c hc hfull
  simp only [newCalls, inTurn, Limiter.calls, List.mem_cons, List.not_mem_nil, or_false] at hc
  rcases hc with rfl | rfl | rfl
  · exact absurd hfull (by decide)
  · have htable : ((Limiter.withCapacity 1 1).checkAt first 0).2.tat =
        (∅ : Std.ExtTreeMap IpAddr Nat IpAddr.cmp).insert first 60000000000 := rfl
    have hdue : ∀ (key : IpAddr) (due : Nat),
        ((Limiter.withCapacity 1 1).checkAt first 0).2.tat[key]? = some due ↔
          key = first ∧ due = 60000000000 := by
      intro key due
      rw [htable, Maps.getElem?_insert]
      split
      · rename_i heq
        simp [heq, eq_comm]
      · rename_i hne
        simp [Ne.symm hne]
    refine ⟨⟨first, (hdue _ _).mpr ⟨rfl, rfl⟩⟩, fun key due h => ?_⟩
    rw [((hdue key due).mp h).2]
    exact Nat.le_refl _
  · exact absurd hfull (by decide +kernel)

end Sample

/-- A full table names a wait after which the client is refused again. -/
theorem full_table_waits : ¬ MetersExactly 2 1 Sample.burst := by
  intro h
  have hmem : (⟨Sample.busy, Sample.second, 0⟩ : Request) ∈ newCalls 2 1 Sample.burst := by
    simp [newCalls, Sample.burst, Limiter.calls, Sample.busy]
  have hagain := (h.again _ hmem 30000000000 (by decide +kernel)).1
  revert hagain
  decide +kernel

theorem meters_exactly_iff_inTurn : MetersExactly 1 1 Sample.inTurn :=
  (meters_exactly_iff (by decide) (by decide)).mpr Sample.inTurn_waits

end Clockchain.Gateway
