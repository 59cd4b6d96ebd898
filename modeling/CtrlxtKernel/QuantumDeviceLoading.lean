import CtrlxtKernel.QuantumDevice
import CtrlxtKernel.StepMachine

/-!
# Loading and unloading the driver

A load attempt runs the initialisation on zeroed static variables; the driver
is loaded when it returns zero. An unload runs the exit. The resources that
earlier cycles left behind stay in the heap.
-/

set_option autoImplicit false

namespace CtrlxtKernel.QuantumDevice
open MachineInt ObjectHeap StepMachine QuantumMemory

variable {t : Target}

structure LoadState (t : Target) where
  driver : Driver t
  qmem : CtrlxtQmem t
  loaded : Bool

inductive LoadStep where
  | load (o : DeviceOutcome)
  | unload

def loading (t : Target) : Machine (LoadState t) LoadStep where
  enabled s
    | .load _ => s.loaded = false
    | .unload => s.loaded = true
  step s
    | .load o =>
      (ctrlxtQuantumDeviceInit ⟨s.driver.resources,none,.null⟩ s.qmem o).map
        fun (driver,qmem,ret) => ⟨driver,qmem,decide (ret = 0)⟩
    | .unload =>
      (quantumExit s.driver s.qmem).map
        fun (resources,qmem) => ⟨⟨resources,none,.null⟩,qmem,false⟩

instance (s : LoadState t) : (l : LoadStep) → Decidable ((loading t).enabled s l)
  | .load _ => inferInstanceAs (Decidable (s.loaded = false))
  | .unload => inferInstanceAs (Decidable (s.loaded = true))

/-- The step touches no freed object, no object has been freed twice, and if the
driver is not loaded then, it holds nothing. -/
def CleanStep (s : LoadState t) (l : LoadStep) : Prop :=
  ∃ u, (loading t).step s l = some u ∧ (∀ i, u.driver.resources.freed.count i ≤ 1) ∧
    (u.loaded = false → u.driver.resources.Holds [])

/-- A load that gets its device number also gets all that comes after it. -/
def GetsRest (_ : LoadState t) : LoadStep → Prop
  | .load o => o.kzalloc = true → o.quantumStateAlloc = true → 0 ≤ o.allocChrdevRegion →
      0 ≤ o.cdevAdd ∧ 0 ≤ o.classCreate ∧ 0 ≤ o.deviceCreate
  | .unload => True

def acquired (b : ℕ) : List ℕ := [b+5,b+4,b+3,b+2,b+1,b]

def installedDevice (t : Target) (b : ℕ) : CtrlxtQuantumDevice t :=
  ⟨b,.obj (b+5),.obj (b+3),.obj (b+2),.obj (b+1),0,0,.null⟩

structure Installed (D : Driver t) (b : ℕ) : Prop where
  device : D.quantumDev = some (installedDevice t b)
  deviceClass : D.quantumClass = .obj (b+4)
  held : D.resources.Holds (acquired b)

def Settled (s : LoadState t) : Prop :=
  (s.loaded = false ∧ s.driver.resources.Holds []) ∨
  (s.loaded = true ∧ ∃ b, Installed s.driver b)

theorem acquired_nodup (b : ℕ) : (acquired b).Nodup := by
  simp [acquired]

theorem quantumExit_eq {D : Driver t} {b : ℕ} (h : Installed D b) (q : CtrlxtQmem t) :
    quantumExit D q = (D.resources.freeAll (acquired b)).map fun resources => (resources,q) := by
  simp only [quantumExit,h.device,h.deviceClass,installedDevice,release,freeDevice,freeState,
    freeMemory,reduceCtorEq,if_false,if_true,acquired,Heap.freeAll,Option.bind_eq_bind,
    Option.bind_some,Option.map_bind,Function.comp_def,Option.map_some]

theorem unload_clean {s : LoadState t} {b : ℕ} (h : Installed s.driver b) :
    ∃ u, (loading t).step s .unload = some u ∧ u.loaded = false ∧
      u.driver.resources.Holds [] := by
  have hh : s.driver.resources.Holds (acquired b++[]) := by simpa using h.held
  obtain ⟨k,hk,hkh,-⟩ := holds_freeAll hh (by simpa using acquired_nodup b)
  refine ⟨⟨⟨k,none,.null⟩,s.qmem,false⟩,?_,rfl,hkh⟩
  simp only [loading,quantumExit_eq h,hk,Option.map_some]

theorem initError_leaves {D : Driver t} {q : CtrlxtQmem t} {d : CtrlxtQuantumDevice t} {ret : ℤ}
    {s : ℕ} {rest : List ℕ} (hs : d.state = .obj s) (hm : d.memory = .null)
    (hh : D.resources.Holds (s::d.self::rest)) (hn : (s::d.self::rest).Nodup) (hret : ret < 0) :
    ∃ E e, initError D q d ret = some (E,q,e) ∧ e < 0 ∧ E.resources.Holds rest := by
  obtain ⟨hns,hn⟩ := List.nodup_cons.mp hn
  obtain ⟨g,hg,hgh,-⟩ := holds_free hh hns
  obtain ⟨k,hk,hkh,-⟩ := holds_free hgh (List.nodup_cons.mp hn).1
  refine ⟨{ D with resources := k, quantumDev := some d },ret,?_,hret,hkh⟩
  simp only [initError,freeDevice,freeState,freeMemory,hs,hm,reduceCtorEq,if_false,if_true,
    release,hg,hk,Option.bind_eq_bind,Option.bind_some,Option.map_some]

def Succeeds (o : DeviceOutcome) : Prop :=
  o.kzalloc = true ∧ o.quantumStateAlloc = true ∧ 0 ≤ o.allocChrdevRegion ∧ 0 ≤ o.cdevAdd ∧
    0 ≤ o.classCreate ∧ 0 ≤ o.deviceCreate

def leftover (o : DeviceOutcome) (b : ℕ) : List ℕ :=
  if o.kzalloc = false ∨ o.quantumStateAlloc = false ∨ o.allocChrdevRegion < 0 then []
  else if o.cdevAdd < 0 then [b+2]
  else if o.classCreate < 0 then [b+3,b+2]
  else [b+4,b+3,b+2]

theorem init_failed {r : Heap Resource} (h : r.Holds []) (q : CtrlxtQmem t) {o : DeviceOutcome}
    (ho : ¬Succeeds o) :
    ∃ D e, ctrlxtQuantumDeviceInit ⟨r,none,.null⟩ q o = some (D,q,e) ∧ e < 0 ∧
      D.resources.Holds (leftover o r.next) := by
  have h1 := holds_alloc h Resource.device
  have h2 := holds_alloc h1 (.state 8)
  have h3 := holds_alloc h2 .region
  have h4 := holds_alloc h3 .cdev
  have h5 := holds_alloc h4 .deviceClass
  simp only [alloc_next] at h2 h3 h4 h5
  by_cases hk : o.kzalloc = true
  · by_cases hs : o.quantumStateAlloc = true
    · by_cases hr : o.allocChrdevRegion < 0
      · simp only [ctrlxtQuantumDeviceInit,leftover,hk,hs,hr,if_true,or_true]
        exact initError_leaves rfl rfl h2 (by simp) hr
      · by_cases hc : o.cdevAdd < 0
        · simp only [ctrlxtQuantumDeviceInit,leftover,hk,hs,hr,hc,if_true,if_false,or_false,
            reduceCtorEq]
          exact initError_leaves rfl rfl (fun i => (h3 i).trans (by simp; tauto)) (by simp) hc
        · by_cases hl : o.classCreate < 0
          · simp only [ctrlxtQuantumDeviceInit,createNode,leftover,hk,hs,hr,hc,hl,if_true,if_false,
              or_false,reduceCtorEq]
            exact initError_leaves rfl rfl (fun i => (h4 i).trans (by simp; tauto)) (by simp) hl
          · have hd : o.deviceCreate < 0 := by
              by_contra hd
              exact ho ⟨hk,hs,not_lt.mp hr,not_lt.mp hc,not_lt.mp hl,not_lt.mp hd⟩
            simp only [ctrlxtQuantumDeviceInit,createNode,leftover,hk,hs,hr,hc,hl,hd,if_true,
              if_false,or_false,reduceCtorEq]
            exact initError_leaves rfl rfl (fun i => (h5 i).trans (by simp; tauto)) (by simp) hd
    · obtain ⟨g,hg,hgh,-⟩ := holds_free h1 (by simp)
      refine ⟨⟨g,some ⟨r.next,.null,.null,.null,.null,0,0,.null⟩,.null⟩,-enomem,?_,by decide,?_⟩
      · simp only [ctrlxtQuantumDeviceInit,hk,hs,if_true,if_false,Bool.false_eq_true,initError,
          freeDevice,freeState,freeMemory,hg,Option.bind_eq_bind,Option.bind_some,Option.map_some]
      · simpa [leftover,hs] using hgh
  · refine ⟨⟨r,none,.null⟩,-enomem,?_,by decide,?_⟩
    · simp only [ctrlxtQuantumDeviceInit,hk,if_false,Bool.false_eq_true]
    · simpa [leftover,hk] using h

def installed (t : Target) (r : Heap Resource) : Driver t where
  resources := (((((r.alloc .device).alloc (.state 8)).alloc .region).alloc .cdev).alloc
    .deviceClass).alloc .node
  quantumDev := some (installedDevice t r.next)
  quantumClass := .obj (r.next+4)

theorem init_succeeds (D : Driver t) (q : CtrlxtQmem t) {o : DeviceOutcome} (ho : Succeeds o) :
    ctrlxtQuantumDeviceInit D q o = some (installed t D.resources,q,0) := by
  obtain ⟨hk,hs,hr,hc,hl,hd⟩ := ho
  simp only [ctrlxtQuantumDeviceInit,createNode,hk,hs,not_lt.mpr hr,not_lt.mpr hc,not_lt.mpr hl,
    not_lt.mpr hd,if_true,if_false]
  rfl

/-- Only a successful attempt returns zero. -/
theorem init_installs {D E : Driver t} {q r : CtrlxtQmem t} {o : DeviceOutcome}
    (h : ctrlxtQuantumDeviceInit D q o = some (E,r,0)) : E = installed t D.resources ∧ r = q := by
  have failed : ∀ (D : Driver t) (d : CtrlxtQuantumDevice t) (ret : ℤ), ret ≠ 0 →
      initError D q d ret ≠ some (E,r,0) := by
    intro D d ret hret hcon
    obtain ⟨x,-,hx⟩ := Option.map_eq_some_iff.mp hcon
    exact hret (Prod.mk.inj (Prod.mk.inj hx).2).2
  unfold ctrlxtQuantumDeviceInit createNode at h
  simp only at h
  split_ifs at h with h1 h2 h3 h4 h5 h6
  · exact absurd h (failed _ _ _ (by omega))
  · exact absurd h (failed _ _ _ (by omega))
  · exact absurd h (failed _ _ _ (by omega))
  · exact absurd h (failed _ _ _ (by omega))
  · cases h
    exact ⟨rfl,rfl⟩
  · exact absurd h (failed _ _ _ (by decide))
  · cases h

theorem installed_installed {r : Heap Resource} (h : r.Holds []) :
    Installed (installed t r) r.next := by
  have h1 := holds_alloc h Resource.device
  have h2 := holds_alloc h1 (.state 8)
  have h3 := holds_alloc h2 .region
  have h4 := holds_alloc h3 .cdev
  have h5 := holds_alloc h4 .deviceClass
  exact ⟨rfl,rfl,holds_alloc h5 .node⟩

theorem leftover_nil {o : DeviceOutcome} (ho : ¬Succeeds o) (s : LoadState t) (b : ℕ) :
    leftover o b = [] ↔ GetsRest s (.load o) := by
  unfold Succeeds at ho
  unfold leftover GetsRest
  split_ifs with h1 h2 h3
  · refine iff_of_true rfl (fun hk hs hr => ?_)
    rcases h1 with h | h | h
    · simp [h] at hk
    · simp [h] at hs
    · omega
  all_goals
    simp only [not_or,Bool.not_eq_false,not_lt] at h1
    refine iff_of_false (by simp) (fun h => ?_)
    obtain ⟨hc,hl,hd⟩ := h h1.1 h1.2.1 h1.2.2
    first
    | omega
    | exact ho ⟨h1.1,h1.2.1,h1.2.2,hc,hl,hd⟩

theorem holds_leftover {h : Heap Resource} {is : List ℕ} (hh : h.Holds is) :
    h.Holds [] ↔ is = [] := by
  constructor
  · intro he
    apply List.eq_nil_iff_forall_not_mem.mpr
    intro i hi
    simpa using (he i).mp ((hh i).mpr hi)
  · rintro rfl
    exact hh

theorem load_succeeds (s : LoadState t) {o : DeviceOutcome} (ho : Succeeds o) :
    (loading t).step s (.load o) = some ⟨installed t s.driver.resources,s.qmem,true⟩ := by
  simp only [loading,init_succeeds _ _ ho,Option.map_some]
  rfl

theorem load_failed {s : LoadState t} (hs : s.driver.resources.Holds []) {o : DeviceOutcome}
    (ho : ¬Succeeds o) :
    ∃ u, (loading t).step s (.load o) = some u ∧ u.loaded = false ∧
      u.driver.resources.Holds (leftover o s.driver.resources.next) := by
  obtain ⟨D,e,hi,he,hh⟩ := init_failed hs s.qmem ho
  refine ⟨⟨D,s.qmem,false⟩,?_,rfl,hh⟩
  simp only [loading,hi,Option.map_some,decide_eq_false he.ne]

theorem load_clean_iff {s : LoadState t} (hs : s.driver.resources.Holds []) (o : DeviceOutcome) :
    CleanStep s (.load o) ↔ GetsRest s (.load o) := by
  by_cases ho : Succeeds o
  · refine iff_of_true ⟨_,load_succeeds s ho,fun i => freed_once _ i,?_⟩
      (fun _ _ _ => ho.2.2.2)
    simp
  · obtain ⟨u,hu,hl,hh⟩ := load_failed hs ho
    rw [← leftover_nil ho s s.driver.resources.next,← holds_leftover hh]
    constructor
    · rintro ⟨v,hv,-,hc⟩
      obtain rfl : u = v := Option.some.inj (hu.symm.trans hv)
      exact hc hl
    · exact fun hc => ⟨u,hu,fun i => freed_once _ i,fun _ => hc⟩

theorem clean_iff {s : LoadState t} (hs : Settled s) {l : LoadStep}
    (he : (loading t).enabled s l) : CleanStep s l ↔ GetsRest s l := by
  cases l with
  | load o =>
    have hl : s.loaded = false := he
    rcases hs with ⟨-,hh⟩ | ⟨hl',-⟩
    · exact load_clean_iff hh o
    · rw [hl] at hl'
      cases hl'
  | unload =>
    have hl : s.loaded = true := he
    rcases hs with ⟨hl',-⟩ | ⟨-,b,hb⟩
    · rw [hl] at hl'
      cases hl'
    · obtain ⟨u,hu,-,hh⟩ := unload_clean hb
      exact iff_of_true ⟨u,hu,fun i => freed_once _ i,fun _ => hh⟩ trivial

theorem clean_settled {s u : LoadState t} (hs : Settled s) {l : LoadStep}
    (he : (loading t).enabled s l) (hc : CleanStep s l) (hu : (loading t).step s l = some u) :
    Settled u := by
  obtain ⟨v,hv,-,hh⟩ := hc
  obtain rfl : v = u := Option.some.inj (hv.symm.trans hu)
  cases hl : v.loaded with
  | false => exact Or.inl ⟨hl,hh hl⟩
  | true =>
    refine Or.inr ⟨hl,?_⟩
    cases l with
    | unload =>
      obtain ⟨x,hx,rfl⟩ := Option.map_eq_some_iff.mp hv
      cases hl
    | load o =>
      have hun : s.loaded = false := he
      rcases hs with ⟨-,hr⟩ | ⟨hl',-⟩
      · by_cases ho : Succeeds o
        · rw [load_succeeds s ho] at hu
          cases hu
          exact ⟨_,installed_installed hr⟩
        · obtain ⟨u,hu',hl',-⟩ := load_failed hr ho
          obtain rfl : u = v := Option.some.inj (hu'.symm.trans hu)
          rw [hl] at hl'
          cases hl'
      · rw [hun] at hl'
        cases hl'

def unloaded (q : CtrlxtQmem t) : LoadState t := ⟨⟨.empty,none,.null⟩,q,false⟩

/-- Along every sequence of load attempts and unloads the driver leaves nothing
behind and frees nothing twice exactly when every attempt that gets its device
number also gets the rest. -/
theorem unloaded_clean_iff (q : CtrlxtQmem t) {ls : List LoadStep}
    (h : Always (loading t) (loading t).enabled (unloaded q) ls) :
    Always (loading t) CleanStep (unloaded q) ls ↔
      Always (loading t) GetsRest (unloaded q) ls :=
  always_attempt_iff (I := Settled) (fun _ _ hs he => clean_iff hs he)
    (fun _ _ _ hs he hc hu => clean_settled hs he hc hu) h (Or.inl ⟨rfl,holds_empty⟩)

def granted : DeviceOutcome := ⟨true,true,0,0,0,0⟩

theorem unloaded_clean_cycle :
    Always (loading .bits64) CleanStep (unloaded .static)
      [.load granted,.unload,.load { granted with allocChrdevRegion := -ebusy },.load granted,
        .unload] := by
  have h : ∃ u, Run (loading .bits64) (unloaded .static)
      [.load granted,.unload,.load { granted with allocChrdevRegion := -ebusy },.load granted,
        .unload] u := ⟨_,run_iff_exec.mpr rfl⟩
  obtain ⟨u,hu⟩ := h
  rw [unloaded_clean_iff .static hu.attempt]
  simp [Always,GetsRest,granted,ebusy]

/-- A load that fails in `class_create` leaves the device number and the
registered device, which is inside the freed structure. -/
theorem unloaded_leaves_cdev :
    ∃ u, Run (loading .bits64) (unloaded .static)
        [.load { granted with classCreate := -enomem }] u ∧ u.loaded = false ∧
      u.driver.resources.cells 2 = some .region ∧ u.driver.resources.cells 3 = some .cdev ∧
      u.driver.resources.freed = [0,1] :=
  ⟨_,run_iff_exec.mpr rfl,rfl,rfl,rfl,rfl⟩

end CtrlxtKernel.QuantumDevice
