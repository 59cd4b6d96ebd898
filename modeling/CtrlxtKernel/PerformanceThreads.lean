import CtrlxtKernel.LockReduction
import CtrlxtKernel.PerformanceMetrics

/-!
# Threads in the performance monitor

Any number of threads make metrics, update and read them, set their thresholds
and ask for the statistics, each running its code one access at a time. Values
and thresholds are stored and read without a lock, the statistics are counted,
copied and cleared field by field under `perf_lock`. The metrics made so far have
the numbers below `created`; no function of the module gives one back.
-/

set_option autoImplicit false

namespace CtrlxtKernel.PerformanceThreads
open MachineInt StepMachine LockDiscipline LockReduction
open Performance (Ktime QuantumPerfMetric QuantumPerfStats PerfMetrics zeroedStats updateCount
  quantumPerfGetStats quantumPerfResetStats)

variable {t : Target} {w : ℕ} {H : Type*}

def quantumPerfMetricCpu : BitVec 32 := 0

def quantumPerfMetricIo : BitVec 32 := 4

def quantumPerfThresholdNormal : ULong t := 80

structure Monitor (t : Target) (w : ℕ) where
  perf : PerfMetrics t w ℕ
  created : ℕ

structure Surroundings where
  kzalloc : Bool
  ktime : Ktime

instance : Nonempty Surroundings := ⟨⟨true,0⟩⟩

inductive MetricOp (t : Target) where
  | setType (type : BitVec 32)
  | setValue (value : ULong t)
  | setThreshold (threshold : ULong t)
  | setTimestamp (now : Ktime)
  | readValue
  | readThreshold

abbrev MetricOp.Answer : MetricOp t → Type
  | .setType _ | .setValue _ | .setThreshold _ | .setTimestamp _ => Unit
  | .readValue | .readThreshold => ULong t

inductive StatsOp where
  | incTotalMetrics
  | incThresholdExceeded
  | setLastUpdate (now : Ktime)
  | readTotalMetrics
  | readThresholdExceeded
  | readLastUpdate
  | zeroTotalMetrics
  | zeroThresholdExceeded
  | zeroLastUpdate

abbrev StatsOp.Answer (w : ℕ) : StatsOp → Type
  | .readTotalMetrics | .readThresholdExceeded => BitVec w
  | .readLastUpdate => Ktime
  | _ => Unit

inductive PerfOp (t : Target) where
  | kzallocMetric
  | ktimeGet
  | metric (p : ℕ) (op : MetricOp t)
  | stats (op : StatsOp)

abbrev PerfOp.Answer (w : ℕ) : PerfOp t → Type
  | .kzallocMetric => Option ℕ
  | .ktimeGet => Ktime
  | .metric _ op => op.Answer
  | .stats op => op.Answer w

def MetricOp.apply (metric : QuantumPerfMetric t) :
    (op : MetricOp t) → QuantumPerfMetric t × op.Answer
  | .setType type => ({ metric with type := type },())
  | .setValue value => ({ metric with value := value },())
  | .setThreshold threshold => ({ metric with threshold := threshold },())
  | .setTimestamp now => ({ metric with timestamp := now.setWidth t.width },())
  | .readValue => (metric,metric.value)
  | .readThreshold => (metric,metric.threshold)

def StatsOp.apply (stats : QuantumPerfStats w) :
    (op : StatsOp) → QuantumPerfStats w × op.Answer w
  | .incTotalMetrics => ({ stats with totalMetrics := stats.totalMetrics+1 },())
  | .incThresholdExceeded => ({ stats with thresholdExceeded := stats.thresholdExceeded+1 },())
  | .setLastUpdate now => ({ stats with lastUpdate := now },())
  | .readTotalMetrics => (stats,stats.totalMetrics)
  | .readThresholdExceeded => (stats,stats.thresholdExceeded)
  | .readLastUpdate => (stats,stats.lastUpdate)
  | .zeroTotalMetrics => ({ stats with totalMetrics := 0 },())
  | .zeroThresholdExceeded => ({ stats with thresholdExceeded := 0 },())
  | .zeroLastUpdate => ({ stats with lastUpdate := 0 },())

def Monitor.setMetric (s : Monitor t w) (p : ℕ) (metric : QuantumPerfMetric t) : Monitor t w :=
  { s with perf := s.perf.setMetric p metric }

def Monitor.setStats (s : Monitor t w) (stats : QuantumPerfStats w) : Monitor t w :=
  { s with perf := { s.perf with globalStats := stats } }

def Monitor.create (s : Monitor t w) : Monitor t w :=
  { s.setMetric s.created ⟨0,0,0,0⟩ with created := s.created+1 }

def handle (_ : H) (e : Surroundings) (s : Monitor t w) :
    (op : PerfOp t) → Option (Monitor t w × op.Answer w)
  | .kzallocMetric => some (if e.kzalloc then (s.create,some s.created) else (s,none))
  | .ktimeGet => some (s,e.ktime)
  | .metric p op =>
    if p < s.created then
      let r := op.apply (s.perf.metric p)
      some (s.setMetric p r.1,r.2)
    else none
  | .stats op =>
    let r := op.apply s.perf.globalStats
    some (s.setStats r.1,r.2)

inductive PerfLock where
  | perfLock
  deriving DecidableEq

inductive PerfAnswer (t : Target) (w : ℕ) where
  | metric (p : Ptr)
  | status (ret : ℤ)
  | value (value : ULong t)
  | stats (stats : QuantumPerfStats w)

/-- A metric argument is NULL or a pointer to a metric; of a pointer to what is to be
stored it is only said whether it is there. -/
inductive PerfCall (t : Target) where
  | createMetric (type : BitVec 32)
  | updateMetric (metric : Option ℕ) (value : ULong t)
  | getMetric (metric : Option ℕ) (value : Bool)
  | setThreshold (metric : Option ℕ) (threshold : ULong t)
  | getThreshold (metric : Option ℕ) (threshold : Bool)
  | getStats (stats : Bool)
  | resetStats

abbrev PerfCode (t : Target) (w : ℕ) : Type :=
  Code PerfLock (PerfOp t) (PerfOp.Answer w) (PerfAnswer t w)

def leave (a : PerfAnswer t w) : PerfCode t w := .release .perfLock (.ret a)

def updateSection (p : ℕ) (value : ULong t) : PerfCode t w :=
  .call (.stats .incTotalMetrics) fun _ =>
    .call .ktimeGet fun now =>
      .call (.stats (.setLastUpdate now)) fun _ =>
        .call (.metric p .readThreshold) fun threshold =>
          if value > threshold then
            .call (.stats .incThresholdExceeded) fun _ => leave (.status 0)
          else leave (.status 0)

def getSection : PerfCode t w :=
  .call (.stats .readTotalMetrics) fun totalMetrics =>
    .call (.stats .readThresholdExceeded) fun thresholdExceeded =>
      .call (.stats .readLastUpdate) fun lastUpdate =>
        leave (.stats ⟨totalMetrics,thresholdExceeded,lastUpdate⟩)

def resetSection : PerfCode t w :=
  .call (.stats .zeroTotalMetrics) fun _ =>
    .call (.stats .zeroThresholdExceeded) fun _ =>
      .call (.stats .zeroLastUpdate) fun _ => leave (.status 0)

def createCode (type : BitVec 32) : PerfCode t w :=
  if type < quantumPerfMetricCpu ∨ type > quantumPerfMetricIo then
    .ret (.metric (.errPtr (-einval)))
  else
    .call .kzallocMetric fun metric =>
      match metric with
      | none => .ret (.metric (.errPtr (-enomem)))
      | some p =>
        .call (.metric p (.setType type)) fun _ =>
          .call (.metric p (.setThreshold quantumPerfThresholdNormal)) fun _ =>
            .call .ktimeGet fun now =>
              .call (.metric p (.setTimestamp now)) fun _ => .ret (.metric (.obj p))

def updateCode (p : ℕ) (value : ULong t) : PerfCode t w :=
  .call (.metric p (.setValue value)) fun _ =>
    .call .ktimeGet fun now =>
      .call (.metric p (.setTimestamp now)) fun _ => .acquire .perfLock (updateSection p value)

def PerfCall.code : PerfCall t → PerfCode t w
  | .createMetric type => createCode type
  | .updateMetric (some p) value => updateCode p value
  | .getMetric (some p) true => .call (.metric p .readValue) fun value => .ret (.value value)
  | .setThreshold (some p) threshold =>
    .call (.metric p (.setThreshold threshold)) fun _ => .ret (.status 0)
  | .getThreshold (some p) true =>
    .call (.metric p .readThreshold) fun threshold => .ret (.value threshold)
  | .getStats true => .acquire .perfLock getSection
  | .resetStats => .acquire .perfLock resetSection
  | .updateMetric none _ | .setThreshold none _ | .getMetric _ _ | .getThreshold _ _
  | .getStats false => .ret (.status (-einval))

def PerfCall.metric : PerfCall t → Option ℕ
  | .updateMetric metric _ | .getMetric metric _ | .setThreshold metric _
  | .getThreshold metric _ => metric
  | .createMetric _ | .getStats _ | .resetStats => none

def perfInterface : Interface (Monitor t w) H (PerfCall t) PerfLock (PerfOp t) (PerfOp.Answer w)
    (PerfAnswer t w) where
  body := PerfCall.code
  may s _ c := ∀ p ∈ c.metric, p < s.created
  fits _ _ _ := True

def Outer : PerfOp t → Prop
  | .kzallocMetric | .ktimeGet | .metric _ _ => True
  | .stats _ => False

/-- What a thread with the lock does before others can tell: everything but reading
the threshold, which others may be setting. -/
def Quiet : (op : PerfOp t) → op.Answer w → Prop
  | .ktimeGet, _ | .stats _, _ => True
  | .kzallocMetric, _ | .metric _ _, _ => False

def Counts : PerfOp t → Prop
  | .stats _ => True
  | _ => False

theorem outer_swap {i j : H} {e e' : Surroundings} {s u v : Monitor t w} {op op' : PerfOp t}
    {x : op.Answer w} {y : op'.Answer w} (hq : Quiet op x) (ho : Outer op')
    (hu : handle i e s op = some (u,x)) (hv : handle j e' s op' = some (v,y)) :
    ∃ r, handle j e' u op' = some (r,y) ∧ handle i e v op = some (r,x) := by
  cases op with
  | kzallocMetric => exact hq.elim
  | metric p mop => exact hq.elim
  | ktimeGet =>
    cases hu
    exact ⟨v,hv,rfl⟩
  | stats sop =>
    cases hu
    cases op' with
    | stats sop' => exact ho.elim
    | ktimeGet =>
      cases hv
      exact ⟨_,rfl,rfl⟩
    | kzallocMetric =>
      cases he : e'.kzalloc <;> simp only [handle,he] at hv ⊢ <;> cases hv <;>
        exact ⟨_,rfl,rfl⟩
    | metric p mop =>
      simp only [handle] at hv
      split_ifs at hv with hp
      cases hv
      exact ⟨_,if_pos hp,rfl⟩

theorem quiet_created {i : H} {e : Surroundings} {s u : Monitor t w} {op : PerfOp t}
    {x : op.Answer w} (hq : Quiet op x) (hu : handle i e s op = some (u,x)) :
    u.created = s.created := by
  cases op with
  | kzallocMetric => exact hq.elim
  | metric p mop => exact hq.elim
  | ktimeGet =>
    cases hu
    rfl
  | stats sop =>
    cases hu
    rfl

/-- The statistics are all that sections touch alone, and the threshold is all that
they share with the other accesses. -/
theorem perf_commuting : Commuting (perfInterface : Interface (Monitor t w) H (PerfCall t)
    PerfLock (PerfOp t) (PerfOp.Answer w) (PerfAnswer t w)) handle Outer Quiet where
  swap _ hq ho hu hv := outer_swap hq ho hu hv
  back := by
    intro i j e e' s u r op op' x y _ hq ho hu hr
    have hcreated := quiet_created hq hu
    cases op' with
    | stats sop => exact ho.elim
    | ktimeGet | kzallocMetric => exact ⟨_,rfl⟩
    | metric p mop =>
      simp only [handle] at hr
      split_ifs at hr with hp
      rw [hcreated] at hp
      exact ⟨_,if_pos hp⟩
  may_iff := by
    intro i j e s u op x c _ hq hu
    have hcreated := quiet_created hq hu
    simp only [perfInterface,hcreated]
  fits_iff _ _ _ := Iff.rfl

section Reducing

variable {h : H} {Q : PerfCode t w → Monitor t w → Prop}

abbrev Reducing (h : H) (Q : PerfCode t w → Monitor t w → Prop) (p : PerfCode t w)
    (s : Monitor t w) : Prop :=
  Reduces (handle h) PerfLock.perfLock Quiet Counts Q p s

theorem read_threshold {s : Monitor t w} {p : ℕ} (hp : p < s.created) (e : Surroundings) :
    handle h e s (.metric p .readThreshold) = some (s,(s.perf.metric p).threshold) := by
  have hsame : s.setMetric p (s.perf.metric p) = s := by
    simp [Monitor.setMetric,PerfMetrics.setMetric]
  simp only [handle,hp,if_true,MetricOp.apply,hsame]

theorem update_reducing {s : Monitor t w} {p : ℕ} {value : ULong t} (hp : p < s.created)
    (hQ : ∀ now, Q (.ret (.status 0)) { s with perf := updateCount s.perf p value now }) :
    Reducing h Q (updateSection p value) s := by
  refine Reduces.before (fun _ => rfl) trivial fun e => ?_
  refine ⟨_,e.ktime,rfl,fun _ => ?_,fun hn => absurd trivial hn⟩
  refine Reduces.before (fun _ => rfl) trivial ?_
  refine Reduces.effect (x := (s.perf.metric p).threshold) (read_threshold hp) id ?_
  have hdone := hQ e.ktime
  unfold updateCount at hdone
  split_ifs at hdone ⊢ with hvalue
  · exact ⟨trivial,fun _ => ⟨_,(),rfl,trivial,rfl,hdone⟩⟩
  · exact ⟨rfl,hdone⟩

theorem get_reducing {s : Monitor t w} (hQ : Q (.ret (.stats s.perf.globalStats)) s) :
    Reducing h Q getSection s := by
  refine Reduces.before (fun _ => rfl) trivial ?_
  refine Reduces.before (fun _ => rfl) trivial ?_
  refine Reduces.before (fun _ => rfl) trivial ?_
  exact ⟨rfl,hQ⟩

theorem reset_reducing {s : Monitor t w}
    (hQ : Q (.ret (.status 0)) { s with perf := (quantumPerfResetStats s.perf).1 }) :
    Reducing h Q resetSection s := by
  refine Reduces.before (fun _ => rfl) trivial ?_
  refine Reduces.before (fun _ => rfl) trivial ?_
  refine Reduces.before (fun _ => rfl) trivial ?_
  exact ⟨rfl,hQ⟩

end Reducing

inductive Ready : ℕ → PerfCode t w → Prop
  | ret {created : ℕ} (a : PerfAnswer t w) : Ready created (.ret a)
  | kzalloc {created : ℕ} {next : Option ℕ → PerfCode t w} (hnone : Ready created (next none))
      (hsome : ∀ p, created ≤ p → Ready (p+1) (next (some p))) :
      Ready created (.call .kzallocMetric next)
  | ktime {created : ℕ} {next : Ktime → PerfCode t w} (hrest : ∀ now, Ready created (next now)) :
      Ready created (.call .ktimeGet next)
  | metric {created p : ℕ} {op : MetricOp t} {next : op.Answer → PerfCode t w}
      (hp : p < created) (hrest : ∀ x, Ready created (next x)) :
      Ready created (.call (.metric p op) next)
  | update {created p : ℕ} (value : ULong t) (hp : p < created) :
      Ready created (.acquire .perfLock (updateSection p value))
  | get {created : ℕ} : Ready created (.acquire .perfLock getSection)
  | reset {created : ℕ} : Ready created (.acquire .perfLock resetSection)

theorem Ready.mono {created : ℕ} {p : PerfCode t w} (h : Ready created p) {more : ℕ}
    (hmore : created ≤ more) : Ready more p := by
  induction h generalizing more with
  | ret a => exact .ret a
  | kzalloc _ hsome ih _ => exact .kzalloc (ih hmore) fun p hp => hsome p (hmore.trans hp)
  | ktime _ ih => exact .ktime fun now => ih now hmore
  | metric hp _ ih => exact .metric (hp.trans_le hmore) fun x => ih x hmore
  | update value hp => exact .update value (hp.trans_le hmore)
  | get => exact .get
  | reset => exact .reset

theorem ready_code {created : ℕ} {c : PerfCall t} (hc : ∀ p ∈ c.metric, p < created) :
    Ready created (c.code : PerfCode t w) := by
  cases c with
  | createMetric type =>
    show Ready created (createCode type)
    unfold createCode
    split_ifs
    · exact .ret _
    · refine .kzalloc (.ret _) fun p hp => ?_
      have hlt : p < p+1 := Nat.lt_succ_self p
      exact .metric hlt fun _ => .metric hlt fun _ => .ktime fun _ => .metric hlt fun _ => .ret _
  | updateMetric metric value =>
    cases metric with
    | none => exact .ret _
    | some p =>
      have hp := hc p rfl
      exact .metric hp fun _ => .ktime fun _ => .metric hp fun _ => .update value hp
  | setThreshold metric threshold =>
    cases metric with
    | none => exact .ret _
    | some p => exact .metric (hc p rfl) fun _ => .ret _
  | getMetric metric out | getThreshold metric out =>
    cases metric with
    | none => exact .ret _
    | some p =>
      cases out with
      | false => exact .ret _
      | true => exact .metric (hc p rfl) fun _ => .ret _
  | getStats out =>
    cases out with
    | false => exact .ret _
    | true => exact .get
  | resetStats => exact .reset

def SectionDone (s : Monitor t w) (p q : PerfCode t w) (v : Monitor t w) : Prop :=
  (∃ k value now, p = updateSection k value ∧ k < s.created ∧
    v = { s with perf := updateCount s.perf k value now } ∧ q = .ret (.status 0)) ∨
  (∃ r, p = getSection ∧ v = s ∧ q = .ret (.stats r) ∧
    ∀ old, quantumPerfGetStats s.perf (some old) = (some r,0)) ∨
  p = resetSection ∧ v = { s with perf := (quantumPerfResetStats s.perf).1 } ∧
    q = .ret (.status 0)

theorem ready_reducing {s : Monitor t w} {h : H} {m : PerfLock} {p : PerfCode t w}
    (hp : Ready s.created (.acquire m p)) :
    m = .perfLock ∧ Reducing h (SectionDone s p) p s := by
  cases hp with
  | update value hk =>
    exact ⟨rfl,update_reducing hk fun now => Or.inl ⟨_,value,now,rfl,hk,rfl,rfl⟩⟩
  | get => exact ⟨rfl,get_reducing (Or.inr (Or.inl ⟨_,rfl,rfl,rfl,fun _ => rfl⟩))⟩
  | reset => exact ⟨rfl,reset_reducing (Or.inr (Or.inr ⟨rfl,rfl,rfl⟩))⟩

theorem handle_created {h : H} {e : Surroundings} {s u : Monitor t w} {op : PerfOp t}
    {x : op.Answer w} (hu : handle h e s op = some (u,x)) : s.created ≤ u.created := by
  cases op with
  | kzallocMetric =>
    cases he : e.kzalloc <;> simp only [handle,he] at hu <;> cases hu
    · exact le_refl _
    · exact Nat.le_succ _
  | ktimeGet | stats sop =>
    cases hu
    exact le_refl _
  | metric p mop =>
    simp only [handle] at hu
    split_ifs at hu
    cases hu
    exact le_refl _

theorem done_created {s v : Monitor t w} {p q : PerfCode t w} (h : SectionDone s p q v) :
    v.created = s.created ∧ Ready v.created q := by
  rcases h with ⟨k,value,now,-,-,rfl,rfl⟩ | ⟨r,-,rfl,rfl,-⟩ | ⟨-,rfl,rfl⟩ <;>
    exact ⟨rfl,.ret _⟩

section Runs

variable [DecidableEq H]

abbrev PerfThreads (t : Target) (w : ℕ) (H : Type*) :=
  Threads (Monitor t w) H PerfLock (PerfOp t) (PerfOp.Answer w) (PerfAnswer t w)

abbrev PerfAtomic (t : Target) (w : ℕ) (H : Type*) :=
  AtomicThreads (Monitor t w) H PerfLock (PerfOp t) (PerfOp.Answer w) (PerfAnswer t w)

abbrev perfThreads (t : Target) (w : ℕ) (H : Type*) [DecidableEq H] :
    Machine (PerfThreads t w H) (ThreadStep Surroundings H (PerfCall t)) :=
  threads .perfLock perfInterface handle

abbrev perfAtomic (t : Target) (w : ℕ) (H : Type*) [DecidableEq H] :
    Machine (PerfAtomic t w H) (AtomicStep Surroundings H (PerfCall t)) :=
  atomicThreads perfInterface handle

def fresh : Monitor t w := ⟨⟨fun _ => ⟨0,0,0,0⟩,zeroedStats⟩,0⟩

def ThreadsReady (a : PerfAtomic t w H) : Prop :=
  ∀ i p, a.code i = some p → Ready a.shared.created p

theorem ThreadsReady.set {a : PerfAtomic t w H} (ha : ThreadsReady a) {i : H} {v : Monitor t w}
    {p : Option (PerfCode t w)} (hv : a.shared.created ≤ v.created)
    (hp : ∀ c, p = some c → Ready v.created c) : ThreadsReady (a.set i v p) := by
  intro j c hc
  rw [atomic_set_code] at hc
  split_ifs at hc
  · exact hp c hc
  · exact (ha j c hc).mono hv

theorem ready_go {a : PerfAtomic t w H} (ha : ThreadsReady a) {i : H} {op : PerfOp t}
    {next : op.Answer w → PerfCode t w} (hi : a.code i = some (.call op next)) :
    Outer op ∧ ∀ e, ∃ u x, handle i e a.shared op = some (u,x) ∧
      ThreadsReady (a.set i u (some (next x))) := by
  have hready := ha i _ hi
  have hset : ∀ {e : Surroundings} {u : Monitor t w} {x : op.Answer w},
      handle i e a.shared op = some (u,x) → Ready u.created (next x) →
        ThreadsReady (a.set i u (some (next x))) := by
    intro e u x hu hx
    refine ha.set (handle_created hu) ?_
    rintro c ⟨⟩
    exact hx
  cases hready with
  | kzalloc hnone hsome =>
    refine ⟨trivial,fun e => ?_⟩
    cases he : e.kzalloc with
    | false =>
      have hu : handle i e a.shared .kzallocMetric = some (a.shared,none) := by
        simp only [handle,he]
        rfl
      exact ⟨_,_,hu,hset hu hnone⟩
    | true =>
      have hu : handle i e a.shared .kzallocMetric =
          some (a.shared.create,some a.shared.created) := by
        simp only [handle,he,if_true]
      exact ⟨_,_,hu,hset hu (hsome _ (le_refl _))⟩
  | ktime hrest => exact ⟨trivial,fun e => ⟨_,e.ktime,rfl,hset (e := e) rfl (hrest _)⟩⟩
  | @metric _ p mop _ hp hrest =>
    refine ⟨trivial,fun e => ?_⟩
    have hu : handle i e a.shared (.metric p mop) =
        some (a.shared.setMetric p (mop.apply (a.shared.perf.metric p)).1,
          (mop.apply (a.shared.perf.metric p)).2) := if_pos hp
    exact ⟨_,_,hu,hset hu (hrest _)⟩

theorem perf_atomic : Atomic .perfLock (perfInterface : Interface (Monitor t w) H (PerfCall t)
    PerfLock (PerfOp t) (PerfOp.Answer w) (PerfAnswer t w)) handle Outer Counts Quiet
      ThreadsReady where
  settles e e' s op hop := by
    cases op with
    | stats sop => rfl
    | kzallocMetric | ktimeGet | metric p mop => exact hop.elim
  start ha hi hmay := by
    refine ha.set (le_refl _) ?_
    rintro c ⟨⟩
    exact ready_code hmay
  go ha hi _ := ready_go ha hi
  locked ha hi := by
    obtain ⟨hm,hp⟩ := ready_reducing (ha _ _ hi)
    refine ⟨hm,hp.mono fun q v hv => ?_⟩
    obtain ⟨hcreated,hq⟩ := done_created hv
    refine ha.set hcreated.ge ?_
    rintro c ⟨⟩
    exact hq
  release ha hi := by
    have hready := ha _ _ hi
    cases hready
  finish ha _ := ha.set (le_refl _) nofun

omit [DecidableEq H] in
theorem fresh_ready : ThreadsReady (restingAtomic fresh : PerfAtomic t w H) := nofun

/-- Threads that run the module's code one access at a time do what they do when
every section under `perf_lock` is one step, though thresholds are set without the
lock. Such a step is an update's count, a reset, or a report that shows all fields
as they are at one moment. No access fails. -/
theorem metrics_atomic {ls : List (ThreadStep Surroundings H (PerfCall t))}
    {u : PerfThreads t w H} (h : Run (perfThreads t w H) (resting fresh) ls u) :
    (∃ ks a, Run (perfAtomic t w H) (restingAtomic fresh) ks a ∧
      Always (perfAtomic t w H) (SectionIs .perfLock handle fun s _ => SectionDone s)
        (restingAtomic fresh) ks ∧
      trace (perfAtomic t w H) shown (restingAtomic fresh) ks =
        trace (perfThreads t w H) seen (resting fresh) ls ∧
      (u.owner = none → u.shared = a.shared ∧ u.code = a.code)) ∧
    ∀ x, (perfThreads t w H).enabled u x → ∃ v, (perfThreads t w H).step u x = some v := by
  refine ⟨?_,fun x he => ?_⟩
  · exact run_atomic perf_commuting perf_atomic (fun ha hi => (ready_reducing (ha _ _ hi)).2)
      fresh_ready h
  · obtain ⟨ks,a,-,hrel,-⟩ := run_matched perf_commuting perf_atomic fresh_ready h
    exact step_result perf_commuting perf_atomic hrel he

instance (s : Monitor t w) (h : H) (c : PerfCall t) :
    Decidable ((perfInterface : Interface (Monitor t w) H (PerfCall t) PerfLock (PerfOp t)
      (PerfOp.Answer w) (PerfAnswer t w)).may s h c) :=
  inferInstanceAs (Decidable (∀ p ∈ c.metric, p < s.created))

instance (s : Monitor t w) (h : H) (op : PerfOp t) :
    Decidable ((perfInterface : Interface (Monitor t w) H (PerfCall t) PerfLock (PerfOp t)
      (PerfOp.Answer w) (PerfAnswer t w)).fits s h op) := .isTrue trivial

/-- While one thread counts 85 the other raises the threshold from 80 to 90, and then
it waits for the lock to copy the statistics. -/
def raising : List (ThreadStep Surroundings Bool (PerfCall .bits64)) :=
  let first := .go true ⟨true,5⟩
  let second := .go false ⟨true,7⟩
  [.start true (.createMetric 3),first,first,first,first,first,.finish true,
    .start true (.updateMetric (some 0) 85),first,first,first,first,first,
    .start false (.setThreshold (some 0) 90),first,first,second,.finish false,first,
    .start false (.getStats true),first,.finish true,second,second,second,second,second,
    .finish false]

theorem metrics_atomic_raising :
    ∃ (u : PerfThreads .bits64 32 Bool)
      (ks : List (AtomicStep Surroundings Bool (PerfCall .bits64))) (a : PerfAtomic .bits64 32 Bool),
      Run (perfThreads .bits64 32 Bool) (resting fresh) raising u ∧
      Run (perfAtomic .bits64 32 Bool) (restingAtomic fresh) ks a ∧ u.shared = a.shared ∧
      u.shared.perf.globalStats = ⟨1,0,5⟩ := by
  have h : ∃ u, Run (perfThreads .bits64 32 Bool) (resting fresh) raising u ∧ u.owner = none ∧
      u.shared.perf.globalStats = ⟨1,0,5⟩ := ⟨_,run_iff_exec.mpr rfl,rfl,rfl⟩
  obtain ⟨u,hu,howner,hstats⟩ := h
  obtain ⟨⟨ks,a,hrun,-,-,hshared⟩,-⟩ := metrics_atomic hu
  exact ⟨u,ks,a,hu,hrun,(hshared howner).1,hstats⟩

end Runs

end CtrlxtKernel.PerformanceThreads
