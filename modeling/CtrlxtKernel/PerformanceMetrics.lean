import CtrlxtKernel.Performance
import CtrlxtKernel.StepMachine

/-!
# What the metric statistics count

An update stores its value and the time without a lock and counts under
`perf_lock`, where it compares its own value with the threshold that the metric
then has. The callers' updates, new thresholds and resets fall between each
other in any order. The header declares no counters of these names, so their
width is a parameter.
-/

set_option autoImplicit false

namespace CtrlxtKernel.Performance
open MachineInt StepMachine

variable {t : Target} {w : ℕ} {K H : Type*}

structure QuantumPerfMetric (t : Target) where
  type : BitVec 32
  value : ULong t
  threshold : ULong t
  timestamp : ULong t

structure QuantumPerfStats (w : ℕ) where
  totalMetrics : BitVec w
  thresholdExceeded : BitVec w
  lastUpdate : Ktime

def zeroedStats : QuantumPerfStats w := ⟨0,0,0⟩

structure PerfMetrics (t : Target) (w : ℕ) (K : Type*) where
  metric : K → QuantumPerfMetric t
  globalStats : QuantumPerfStats w

/-- The section under the lock. -/
def updateCount (s : PerfMetrics t w K) (k : K) (value : ULong t) (now : Ktime) :
    PerfMetrics t w K :=
  let stats := { s.globalStats with
    totalMetrics := s.globalStats.totalMetrics+1
    lastUpdate := now }
  if value > (s.metric k).threshold then
    { s with globalStats := { stats with thresholdExceeded := stats.thresholdExceeded+1 } }
  else { s with globalStats := stats }

def quantumPerfGetStats (s : PerfMetrics t w K) :
    Option (QuantumPerfStats w) → Option (QuantumPerfStats w) × ℤ
  | none => (none,-einval)
  | some _ => (some s.globalStats,0)

def quantumPerfResetStats (s : PerfMetrics t w K) : PerfMetrics t w K × ℤ :=
  ({ s with globalStats := zeroedStats },0)

variable [DecidableEq K]

def PerfMetrics.setMetric (s : PerfMetrics t w K) (k : K) (metric : QuantumPerfMetric t) :
    PerfMetrics t w K :=
  { s with metric := Function.update s.metric k metric }

def updateStore (s : PerfMetrics t w K) (k : K) (value : ULong t) (now : Ktime) :
    PerfMetrics t w K :=
  s.setMetric k { s.metric k with value := value, timestamp := now.setWidth t.width }

/-- A metric argument is NULL or a pointer to a metric. The clock is read once
for the metric and once for the statistics. -/
def quantumPerfUpdateMetric (s : PerfMetrics t w K) (metric : Option K) (value : ULong t)
    (stored counted : Ktime) : PerfMetrics t w K × ℤ :=
  match metric with
  | none => (s,-einval)
  | some k => (updateCount (updateStore s k value stored) k value counted,0)

def quantumPerfSetThreshold (s : PerfMetrics t w K) (metric : Option K) (threshold : ULong t) :
    PerfMetrics t w K × ℤ :=
  match metric with
  | none => (s,-einval)
  | some k => (s.setMetric k { s.metric k with threshold := threshold },0)

/-- A caller that has stored a value and has yet to count it is pending. -/
structure PerfSystem (t : Target) (w : ℕ) (K H : Type*) where
  perf : PerfMetrics t w K
  pending : H → Option (K × ULong t)

inductive PerfCall (t : Target) (K H : Type*) where
  | updateStore (h : H) (metric : Option K) (value : ULong t) (now : Ktime)
  | updateCount (h : H) (now : Ktime)
  | setThreshold (metric : Option K) (threshold : ULong t)
  | resetStats

def metricsStart (metric : K → QuantumPerfMetric t) : PerfSystem t w K H :=
  ⟨⟨metric,zeroedStats⟩,fun _ => none⟩

variable [DecidableEq H]

def PerfSystem.store (s : PerfSystem t w K H) (h : H) (metric : Option K) (value : ULong t)
    (now : Ktime) : PerfSystem t w K H :=
  match metric with
  | none => s
  | some k => ⟨Performance.updateStore s.perf k value now,Function.update s.pending h (k,value)⟩

def PerfSystem.count (s : PerfSystem t w K H) (h : H) (now : Ktime) :
    Option (PerfSystem t w K H) :=
  (s.pending h).map fun (k,value) =>
    ⟨Performance.updateCount s.perf k value now,Function.update s.pending h none⟩

def metrics : Machine (PerfSystem t w K H) (PerfCall t K H) where
  enabled s
    | .updateStore h _ _ _ => s.pending h = none
    | .updateCount h _ => (s.pending h).isSome = true
    | .setThreshold _ _ | .resetStats => True
  step s
    | .updateStore h metric value now => some (s.store h metric value now)
    | .updateCount h now => s.count h now
    | .setThreshold metric threshold =>
      some { s with perf := (quantumPerfSetThreshold s.perf metric threshold).1 }
    | .resetStats => some { s with perf := (quantumPerfResetStats s.perf).1 }

instance (s : PerfSystem t w K H) : (l : PerfCall t K H) → Decidable (metrics.enabled s l)
  | .updateStore h _ _ _ => inferInstanceAs (Decidable (s.pending h = none))
  | .updateCount h _ => inferInstanceAs (Decidable ((s.pending h).isSome = true))
  | .setThreshold _ _ | .resetStats => inferInstanceAs (Decidable True)

theorem update_run {s : PerfSystem t w K H} {h : H} (hh : s.pending h = none) (k : K)
    (value : ULong t) (stored counted : Ktime) :
    Run metrics s [.updateStore h (some k) value stored,.updateCount h counted]
      { s with perf := (quantumPerfUpdateMetric s.perf (some k) value stored counted).1 } := by
  have hpending : ((s.store h (some k) value stored).pending h).isSome = true := by
    simp [PerfSystem.store]
  have hcount : (s.store h (some k) value stored).count h counted =
      some { s with
        perf := (quantumPerfUpdateMetric s.perf (some k) value stored counted).1 } := by
    simp [PerfSystem.store,PerfSystem.count,quantumPerfUpdateMetric,← hh]
  exact .cons hh rfl (.cons hpending hcount (.nil _))

def Counts (s : PerfSystem t w K H) : PerfCall t K H → Prop
  | .updateCount h _ => (s.pending h).isSome = true
  | _ => False

/-- The step counts a value above the threshold that its metric has now. -/
def Exceeds (s : PerfSystem t w K H) : PerfCall t K H → Prop
  | .updateCount h _ => ∃ c ∈ s.pending h, c.2 > (s.perf.metric c.1).threshold
  | _ => False

def Resets (_ : PerfSystem t w K H) : PerfCall t K H → Prop
  | .resetStats => True
  | _ => False

instance (s : PerfSystem t w K H) : (l : PerfCall t K H) → Decidable (Counts s l)
  | .updateCount h _ => inferInstanceAs (Decidable ((s.pending h).isSome = true))
  | .updateStore _ _ _ _ | .setThreshold _ _ | .resetStats => inferInstanceAs (Decidable False)

instance (s : PerfSystem t w K H) : (l : PerfCall t K H) → Decidable (Exceeds s l)
  | .updateCount h _ => inferInstanceAs
      (Decidable (∃ c ∈ s.pending h, c.2 > (s.perf.metric c.1).threshold))
  | .updateStore _ _ _ _ | .setThreshold _ _ | .resetStats => inferInstanceAs (Decidable False)

instance (s : PerfSystem t w K H) : (l : PerfCall t K H) → Decidable (Resets s l)
  | .resetStats => inferInstanceAs (Decidable True)
  | .updateStore _ _ _ _ | .setThreshold _ _ | .updateCount _ _ =>
    inferInstanceAs (Decidable False)

omit [DecidableEq K] [DecidableEq H] in
theorem exceeds_counts {s : PerfSystem t w K H} {l : PerfCall t K H} (h : Exceeds s l) :
    Counts s l := by
  cases l with
  | updateCount h' now =>
    obtain ⟨c,hc,-⟩ := h
    exact Option.isSome_of_mem hc
  | updateStore | setThreshold | resetStats => exact h

theorem step_counted {s r : PerfSystem t w K H} {l : PerfCall t K H}
    (h : metrics.step s l = some r) :
    r.perf.globalStats.totalMetrics =
        (if Resets s l then 0
          else s.perf.globalStats.totalMetrics+if Counts s l then 1 else 0) ∧
      r.perf.globalStats.thresholdExceeded =
        if Resets s l then 0
          else s.perf.globalStats.thresholdExceeded+if Exceeds s l then 1 else 0 := by
  cases l with
  | updateStore h' metric value now =>
    cases h
    cases metric <;> simp [Resets,Counts,Exceeds,PerfSystem.store,updateStore,
      PerfMetrics.setMetric]
  | updateCount h' now =>
    obtain ⟨⟨k,value⟩,hc,rfl⟩ := Option.map_eq_some_iff.mp h
    have hcounts : Counts s (.updateCount h' now) := by simp [Counts,hc]
    have hexceeds : Exceeds s (.updateCount h' now) ↔ value > (s.perf.metric k).threshold := by
      simp [Exceeds,hc]
    have hresets : ¬Resets s (.updateCount h' now : PerfCall t K H) := id
    by_cases hv : value > (s.perf.metric k).threshold
    · simp only [hresets,hcounts,hexceeds.mpr hv,updateCount,hv,if_true,if_false,and_self]
    · simp only [hresets,hcounts,hexceeds.not.mpr hv,updateCount,hv,if_true,if_false,add_zero,
        and_self]
  | setThreshold metric threshold =>
    cases h
    cases metric <;> simp [Resets,Counts,Exceeds,quantumPerfSetThreshold,PerfMetrics.setMetric]
  | resetStats =>
    cases h
    exact ⟨rfl,rfl⟩

/-- As long as the counter has not overflowed, every snapshot holds the number of
updates that were counted since the last reset, and of those whose value was above
the threshold when they were counted. An update that nothing falls into is a run. -/
theorem metrics_exact {metric : K → QuantumPerfMetric t} {s : PerfSystem t w K H}
    {ls : List (PerfCall t K H)} (h : Run metrics (metricsStart metric) ls s)
    (hfew : tallySince metrics Resets Counts 0
      (metricsStart metric : PerfSystem t w K H) ls < 2^w) (stats : QuantumPerfStats w) :
    (∃ r, quantumPerfGetStats s.perf (some stats) = (some r,0) ∧
      r.totalMetrics.toNat = tallySince metrics Resets Counts 0
        (metricsStart metric : PerfSystem t w K H) ls ∧
      r.thresholdExceeded.toNat = tallySince metrics Resets Exceeds 0
        (metricsStart metric : PerfSystem t w K H) ls ∧
      r.thresholdExceeded.toNat ≤ r.totalMetrics.toNat) ∧
    ∀ h k value stored counted, s.pending h = none →
      Run metrics s [.updateStore h (some k) value stored,.updateCount h counted]
        { s with
          perf := (quantumPerfUpdateMetric s.perf (some k) value stored counted).1 } := by
  have htotal := h.counterSince (f := fun s => s.perf.globalStats.totalMetrics)
    (R := Resets) (C := Counts) (fun _ _ _ hr => (step_counted hr).1) (n := 0) rfl
  have hexceeded := h.counterSince (f := fun s => s.perf.globalStats.thresholdExceeded)
    (R := Resets) (C := Exceeds) (fun _ _ _ hr => (step_counted hr).2) (n := 0) rfl
  have hle := tallySince_le (R := Resets) (C := Exceeds) (D := Counts)
    (fun _ _ => exceeds_counts) h (le_refl 0)
  refine ⟨⟨s.perf.globalStats,rfl,?_⟩,fun h k value stored counted hh =>
    update_run hh k value stored counted⟩
  rw [htotal,hexceeded,BitVec.toNat_ofNat,BitVec.toNat_ofNat,Nat.mod_eq_of_lt hfew,
    Nat.mod_eq_of_lt (hle.trans_lt hfew)]
  exact ⟨rfl,rfl,hle⟩

/-- A caller stores 85, the threshold rises from 80 to 90, and then 85 is counted. -/
theorem metrics_exact_raised :
    ∃ s, Run metrics (metricsStart fun _ => ⟨0,0,80,0⟩ : PerfSystem .bits64 32 ℕ Bool)
        [.updateStore false (some 0) 70 1,.updateCount false 2,.resetStats,
          .updateStore false (some 0) 85 3,.updateStore true (some 1) 85 4,
          .setThreshold (some 0) 90,.updateCount true 5,.updateCount false 6] s ∧
      (∃ r, quantumPerfGetStats s.perf (some zeroedStats) = (some r,0) ∧
        r.totalMetrics.toNat = 2 ∧ r.thresholdExceeded.toNat = 1 ∧
        r.thresholdExceeded.toNat ≤ r.totalMetrics.toNat) ∧
      Run metrics s [.updateStore true (some 0) 95 7,.updateCount true 8]
        { s with perf := (quantumPerfUpdateMetric s.perf (some 0) 95 7 8).1 } := by
  have h : ∃ s, Run metrics (metricsStart fun _ => ⟨0,0,80,0⟩ : PerfSystem .bits64 32 ℕ Bool)
      [.updateStore false (some 0) 70 1,.updateCount false 2,.resetStats,
        .updateStore false (some 0) 85 3,.updateStore true (some 1) 85 4,
        .setThreshold (some 0) 90,.updateCount true 5,.updateCount false 6] s ∧
      s.pending true = none := ⟨_,run_iff_exec.mpr rfl,rfl⟩
  obtain ⟨s,hs,hfree⟩ := h
  obtain ⟨hcounted,hupdate⟩ := metrics_exact hs (by decide) zeroedStats
  exact ⟨s,hs,hcounted,hupdate true 0 95 7 8 hfree⟩

end CtrlxtKernel.Performance
