import CtrlxtKernel.QuantumRegistry
import CtrlxtKernel.StepMachine

/-!
# Registered, cleaned up and in use

The callers initialise a device while it is not registered and clean it up while
it is; they may use any device at any time. Which devices are registered is
what the results of their own calls tell them, and is kept beside the registry.
-/

set_option autoImplicit false

namespace CtrlxtKernel.QuantumRegistry
open MachineInt ObjectHeap LinkedRing StepMachine

variable {t : Target} {D : Type*}

/-- The registered devices, the latest first, and the devices cleaned up since
they were last initialised. -/
structure Session (t : Target) (D : Type*) where
  registry : Registry t D
  registered : List D
  cleaned : D → Bool

inductive DeviceCall (D : Type*) where
  | init (dev : Option D) (kzalloc : Bool)
  | cleanup (dev : Option D)
  | applyGate (dev : Option D) (qubit gateType : BitVec 32)
  | measure (dev : Option D) (qubit : BitVec 32) (result : Option (BitVec 32))

def Session.answer (s : Session t D) : DeviceCall D → Option (Option D × ℤ)
  | .applyGate dev qubit gateType => some (dev,quantumApplyGate s.registry dev qubit gateType)
  | .measure dev qubit result => some (dev,quantumMeasure s.registry dev qubit result)
  | _ => none

variable [DecidableEq D]

def start (device : D → QuantumDevice) : Session t D where
  registry := ⟨device,Links.single .quantumDevices,.empty⟩
  registered := []
  cleaned _ := false

def Session.init (s : Session t D) (dev : Option D) (kzalloc : Bool) : Option (Session t D) :=
  (quantumDeviceInit s.registry dev kzalloc).map fun (registry,ret) =>
    { registry := registry
      registered := if ret = 0 then dev.toList++s.registered else s.registered
      cleaned := dev.elim s.cleaned fun d => Function.update s.cleaned d false }

def Session.cleanup (s : Session t D) (dev : Option D) : Option (Session t D) :=
  (quantumDeviceCleanup s.registry dev).map fun registry =>
    { registry := registry
      registered := dev.elim s.registered s.registered.erase
      cleaned := dev.elim s.cleaned fun d => Function.update s.cleaned d true }

def devices : Machine (Session t D) (DeviceCall D) where
  enabled s
    | .init dev _ => ∀ d ∈ dev, d ∉ s.registered
    | .cleanup dev => ∀ d ∈ dev, d ∈ s.registered
    | .applyGate _ _ _ | .measure _ _ _ => True
  step s
    | .init dev kzalloc => s.init dev kzalloc
    | .cleanup dev => s.cleanup dev
    | .applyGate _ _ _ | .measure _ _ _ => some s

instance (s : Session t D) : (l : DeviceCall D) → Decidable (devices.enabled s l)
  | .init dev _ => inferInstanceAs (Decidable (∀ d ∈ dev, d ∉ s.registered))
  | .cleanup dev => inferInstanceAs (Decidable (∀ d ∈ dev, d ∈ s.registered))
  | .applyGate _ _ _ | .measure _ _ _ => inferInstanceAs (Decidable True)

theorem start_registered (device : D → QuantumDevice) :
    Registered (start device : Session t D).registry [] :=
  ⟨ring_single _,by simp,by simp,by simp,fun i hi => by cases hi⟩

theorem step_registered {s r : Session t D} (hs : Registered s.registry s.registered)
    {l : DeviceCall D} (he : devices.enabled s l) (hr : devices.step s l = some r) :
    Registered r.registry r.registered := by
  cases l with
  | init dev kzalloc =>
    cases dev with
    | none =>
      cases hr
      exact hs
    | some d =>
      have hd : d ∉ s.registered := he d rfl
      cases kzalloc with
      | true =>
        obtain ⟨k,hk,hring⟩ := init_granted hs hd
        simp only [devices,Session.init,hk] at hr
        cases hr
        exact registered_granted hs hd hring
      | false =>
        cases hr
        exact hs.setState hd .null
  | cleanup dev =>
    cases dev with
    | none =>
      cases hr
      exact hs
    | some d =>
      obtain ⟨u,hu,hreg,-,-⟩ := cleanup_registered hs (he d rfl)
      simp only [devices,Session.cleanup,hu] at hr
      cases hr
      exact hreg
  | applyGate dev qubit gateType =>
    cases hr
    exact hs
  | measure dev qubit result =>
    cases hr
    exact hs

/-- The loop of the exit cleans up every registered device, in the order of the
list, although each round takes out the node it is on. -/
theorem exit_registered {s : Registry t D} {ds : List D} (h : Registered s ds) {rounds : ℕ}
    (hr : ds.length < rounds) : ∃ r, quantumExit rounds s = some r ∧
      ds.foldlM (fun s d => quantumDeviceCleanup s (some d)) s = some r ∧ Registered r [] ∧
      r.buffers.next = s.buffers.next := by
  let I (l : List (ListHead D)) (u : Registry t D) : Prop :=
    ∃ es, l = es.map .list ∧ Registered u es ∧ u.buffers.next = s.buffers.next
  have hring : ∀ l u, I l u → Ring u.links .quantumDevices l := by
    rintro l u ⟨es,rfl,hu,-⟩
    exact hu.ring
  have hbody : ∀ x l u, I (x::l) u → ∃ u', cleanupNode u x = some u' ∧ I l u' := by
    rintro x l u ⟨es,hl,hu,hn⟩
    obtain ⟨d,es,rfl,rfl,rfl⟩ := List.map_eq_cons_iff.mp hl.symm
    obtain ⟨v,hv,hreg,-,hvn⟩ := cleanup_registered hu List.mem_cons_self
    rw [List.erase_cons_head] at hreg
    exact ⟨v,hv,es,rfl,hreg,hvn.trans hn⟩
  obtain ⟨r,hexit,hfold,es,hes,hreg,hn⟩ := forEachSafe_unlinks hring hbody
    (show I (ds.map .list) s from ⟨ds,rfl,h,rfl⟩) (by rwa [List.length_map])
  rw [List.foldlM_map] at hfold
  obtain rfl : es = [] := List.map_eq_nil_iff.mp hes.symm
  exact ⟨r,hexit,hfold,hreg,hn⟩

theorem run_registered {device : D → QuantumDevice} {s : Session t D} {ls : List (DeviceCall D)}
    (h : Run devices (start device) ls s) : Registered s.registry s.registered :=
  h.invariant (I := fun s => Registered s.registry s.registered)
    (fun _ _ _ hs he hr => step_registered hs he hr) (start_registered device)

/-- In every state that is reached the list holds the registered devices, each
once and the latest first, and each whose state has bytes owns a live buffer. The
exit then cleans up each of them once, frees each buffer once and leaves the list
empty. -/
theorem registry_exact {device : D → QuantumDevice} {s : Session t D} {ls : List (DeviceCall D)}
    (h : Run devices (start device) ls s) :
    Registered s.registry s.registered ∧
      ∀ rounds, s.registered.length < rounds → ∃ r, quantumExit rounds s.registry = some r ∧
        s.registered.foldlM (fun s d => quantumDeviceCleanup s (some d)) s.registry = some r ∧
        Ring r.links .quantumDevices [] ∧ ∀ i, (s.registry.buffers.cells i).isSome →
          s.registry.buffers.freed.count i = 0 ∧ r.buffers.freed.count i = 1 := by
  have hs := run_registered h
  refine ⟨hs,fun rounds hrounds => ?_⟩
  obtain ⟨r,hr,hfold,hreg,hn⟩ := exit_registered hs hrounds
  refine ⟨r,hr,hfold,hreg.ring,fun i hi => ?_⟩
  obtain ⟨n,hlive⟩ := Option.isSome_iff_exists.mp hi
  have hgone : r.buffers.cells i = none := by
    rw [← Option.not_isSome_iff_eq_none]
    intro hi
    obtain ⟨d,hd,-⟩ := hreg.only i hi
    cases hd
  exact ⟨freed_live hlive,freed_dead (by rw [hn]; exact lt_next hlive) hgone⟩

theorem registry_exact_reused :
    ∃ s r, Run devices (start fun n => ⟨BitVec.ofNat 32 n,.null⟩ : Session .bits64 ℕ)
        [.init (some 0) true,.init (some 1) false,.init (some 1) true,.init (some 2) true,
          .cleanup (some 1),.init (some 1) true] s ∧ s.registered = [1,2,0] ∧
      Registered s.registry s.registered ∧ quantumExit 4 s.registry = some r ∧
      s.registered.foldlM (fun s d => quantumDeviceCleanup s (some d)) s.registry = some r ∧
      Ring r.links .quantumDevices [] ∧ ∀ i, (s.registry.buffers.cells i).isSome →
        s.registry.buffers.freed.count i = 0 ∧ r.buffers.freed.count i = 1 := by
  have h : ∃ s, Run devices (start fun n => ⟨BitVec.ofNat 32 n,.null⟩ : Session .bits64 ℕ)
      [.init (some 0) true,.init (some 1) false,.init (some 1) true,.init (some 2) true,
        .cleanup (some 1),.init (some 1) true] s ∧ s.registered = [1,2,0] :=
    ⟨_,run_iff_exec.mpr rfl,rfl⟩
  obtain ⟨s,hs,hreg⟩ := h
  obtain ⟨hregistered,hexit⟩ := registry_exact hs
  obtain ⟨r,hr⟩ := hexit 4 (by simp [hreg])
  exact ⟨s,r,hs,hreg,hregistered,hr⟩

/-- Two devices without qubits are registered with the same pointer and no buffer. -/
theorem registry_shared :
    ∃ s, Run devices (start fun _ => ⟨0,.null⟩ : Session .bits64 ℕ)
        [.init (some 0) true,.init (some 1) true] s ∧ s.registered = [1,0] ∧
      (s.registry.device 0).quantumState = (s.registry.device 1).quantumState ∧
      (∀ i, s.registry.buffers.cells i = none) ∧
      ¬∀ d ∈ s.registered, ∃ i, (s.registry.device d).quantumState = .obj i ∧
        (s.registry.buffers.cells i).isSome := by
  refine ⟨_,run_iff_exec.mpr rfl,rfl,rfl,fun _ => rfl,?_⟩
  intro h
  obtain ⟨i,hi,-⟩ := h 0 (by decide)
  cases hi

/-- The device is linked into the list and its state is live: a state without
bytes is, from the initialisation to the cleanup. -/
def InUse (s : Registry t D) (d : D) : Prop :=
  (∃ l, Ring s.links .quantumDevices l ∧ .list d ∈ l) ∧
    ((stateSize t (s.device d) = 0 ∧ (s.device d).quantumState = .zeroSize) ∨
      ∃ i, (s.device d).quantumState = .obj i ∧ (s.buffers.cells i).isSome)

/-- A gate or a measurement succeeds only on a device in use, and fails with
`EINVAL` on one that is not registered. -/
def LiveOnly (s : Session t D) (l : DeviceCall D) : Prop :=
  ∀ dev ret, s.answer l = some (dev,ret) →
    (ret = 0 → ∃ d ∈ dev, InUse s.registry d) ∧ ∀ d ∈ dev, d ∉ s.registered → ret = -einval

/-- The call does not use a device after its cleanup, but for a qubit that the
device does not have or a result without a place. -/
def AvoidsCleaned (s : Session t D) : DeviceCall D → Prop
  | .applyGate dev qubit _ =>
    ∀ d ∈ dev, s.cleaned d = true → (s.registry.device d).qubitCount ≤ qubit
  | .measure dev qubit result =>
    ∀ d ∈ dev, s.cleaned d = true → result = none ∨ (s.registry.device d).qubitCount ≤ qubit
  | _ => True

instance (s : Session t D) : (l : DeviceCall D) → Decidable (AvoidsCleaned s l)
  | .applyGate dev qubit _ => inferInstanceAs (Decidable
    (∀ d ∈ dev, s.cleaned d = true → (s.registry.device d).qubitCount ≤ qubit))
  | .measure dev qubit result => inferInstanceAs (Decidable (∀ d ∈ dev, s.cleaned d = true →
    result = none ∨ (s.registry.device d).qubitCount ≤ qubit))
  | .init _ _ | .cleanup _ => inferInstanceAs (Decidable True)

structure Tracked (s : Session t D) : Prop where
  registered : Registered s.registry s.registered
  clean : ∀ d ∈ s.registered, s.cleaned d = false
  null : ∀ d, d ∉ s.registered →
    ((s.registry.device d).quantumState = .null ↔ s.cleaned d = false)

theorem init_tracked {s r : Session t D} (hs : Tracked s) {d : D} (hd : d ∉ s.registered)
    {kzalloc : Bool} (hr : s.init (some d) kzalloc = some r)
    (hreg : Registered r.registry r.registered) : Tracked r := by
  have hclean : ∀ e, e ≠ d → Function.update s.cleaned d false e = s.cleaned e :=
    fun e hed => Function.update_of_ne hed ..
  have hdevice : ∀ e state, e ≠ d → (s.registry.setState d state).device e = s.registry.device e :=
    fun e state hed => Function.update_of_ne hed ..
  cases kzalloc with
  | true =>
    obtain ⟨k,hk,-⟩ := init_granted hs.registered hd
    simp only [Session.init,hk] at hr
    cases hr
    refine ⟨hreg,?_,?_⟩
    · intro e he
      by_cases hed : e = d
      · exact hed ▸ Function.update_self ..
      · have he' : e ∈ s.registered := (List.mem_cons.mp he).resolve_left hed
        exact (hclean e hed).trans (hs.clean e he')
    · intro e he
      obtain ⟨hed,he'⟩ := not_or.mp (List.mem_cons.not.mp he)
      simp only [Option.elim_some,hclean e hed,hdevice e _ hed]
      exact hs.null e he'
  | false =>
    cases hr
    refine ⟨hreg,?_,?_⟩
    · intro e he
      have hed : e ≠ d := by
        rintro rfl
        exact hd he
      exact (hclean e hed).trans (hs.clean e he)
    · intro e he
      by_cases hed : e = d
      · subst hed
        simp [setState_self]
      · simp only [Option.elim_some,hclean e hed,hdevice e _ hed]
        exact hs.null e he

theorem cleanup_tracked {s r : Session t D} (hs : Tracked s) {d : D} (hd : d ∈ s.registered)
    (hr : s.cleanup (some d) = some r) (hreg : Registered r.registry r.registered) :
    Tracked r := by
  obtain ⟨u,hu,-,hdevice,-⟩ := cleanup_registered hs.registered hd
  simp only [Session.cleanup,hu] at hr
  cases hr
  have hmem : ∀ e, e ∈ s.registered.erase d ↔ e ≠ d ∧ e ∈ s.registered :=
    fun e => hs.registered.nodup.mem_erase_iff
  refine ⟨hreg,?_,?_⟩
  · intro e he
    obtain ⟨hed,he⟩ := (hmem e).mp he
    exact (Function.update_of_ne hed ..).trans (hs.clean e he)
  · intro e he
    simp only [Option.elim_some,hdevice]
    by_cases hed : e = d
    · subst hed
      simp [hs.registered.not_null hd]
    · rw [Function.update_of_ne hed]
      exact hs.null e (fun hm => he ((hmem e).mpr ⟨hed,hm⟩))

theorem step_tracked {s r : Session t D} (hs : Tracked s) {l : DeviceCall D}
    (he : devices.enabled s l) (hr : devices.step s l = some r) : Tracked r := by
  have hreg := step_registered hs.registered he hr
  cases l with
  | init dev kzalloc =>
    cases dev with
    | none =>
      cases hr
      exact hs
    | some d => exact init_tracked hs (he d rfl) hr hreg
  | cleanup dev =>
    cases dev with
    | none =>
      cases hr
      exact hs
    | some d => exact cleanup_tracked hs (he d rfl) hr hreg
  | applyGate dev qubit gateType =>
    cases hr
    exact hs
  | measure dev qubit result =>
    cases hr
    exact hs

omit [DecidableEq D] in
theorem Registered.inUse {s : Registry t D} {ds : List D} (h : Registered s ds) {d : D}
    (hd : d ∈ ds) : InUse s d := by
  refine ⟨⟨_,h.ring,List.mem_map_of_mem hd⟩,?_⟩
  by_cases hz : stateSize t (s.device d) = 0
  · exact Or.inl ⟨hz,h.empty d hd hz⟩
  · obtain ⟨i,hi,hlive⟩ := h.owns d hd hz
    exact Or.inr ⟨i,hi,by rw [hlive]; rfl⟩

/-- A call that refuses a NULL state and what it refuses besides is right exactly
when it refuses besides each device that was cleaned up. -/
theorem answer_iff {s : Session t D} (hs : Tracked s) (d : D) (R : Prop) [Decidable R] {ret : ℤ}
    (hret : ret = if (s.registry.device d).quantumState = .null ∨ R then -einval else 0) :
    ((ret = 0 → InUse s.registry d) ∧ (d ∉ s.registered → ret = -einval)) ↔
      (s.cleaned d = true → R) := by
  have hne : -einval ≠ 0 := by decide
  by_cases hd : d ∈ s.registered
  · have hclean := hs.clean d hd
    have huse := hs.registered.inUse hd
    simp [hd,hclean,huse]
  · have hnull := hs.null d hd
    constructor
    · rintro ⟨-,herr⟩ hc
      by_contra hR
      have hstate : (s.registry.device d).quantumState ≠ .null := by
        rw [Ne,hnull,hc]
        decide
      rw [if_neg (not_or.mpr ⟨hstate,hR⟩)] at hret
      exact hne (hret ▸ (herr hd).symm)
    · intro hR
      have hrefuse : (s.registry.device d).quantumState = .null ∨ R := by
        cases hc : s.cleaned d with
        | true => exact Or.inr (hR hc)
        | false => exact Or.inl (hnull.mpr hc)
      rw [if_pos hrefuse] at hret
      exact ⟨fun h0 => absurd (hret.symm.trans h0) hne,fun _ => hret⟩

theorem liveOnly_iff {s : Session t D} (hs : Tracked s) (l : DeviceCall D) :
    LiveOnly s l ↔ AvoidsCleaned s l := by
  have hne : -einval ≠ 0 := by decide
  cases l with
  | init dev kzalloc => simp [LiveOnly,AvoidsCleaned,Session.answer]
  | cleanup dev => simp [LiveOnly,AvoidsCleaned,Session.answer]
  | applyGate dev qubit gateType =>
    cases dev with
    | none => simp [LiveOnly,AvoidsCleaned,Session.answer,quantumApplyGate,hne]
    | some d =>
      have h := answer_iff hs d _ (quantumApplyGate_some s.registry d qubit gateType)
      simpa [LiveOnly,AvoidsCleaned,Session.answer] using h
  | measure dev qubit result =>
    cases dev with
    | none => simp [LiveOnly,AvoidsCleaned,Session.answer,quantumMeasure,hne]
    | some d =>
      have h := answer_iff hs d _ (quantumMeasure_some s.registry d qubit result)
      simpa [LiveOnly,AvoidsCleaned,Session.answer] using h

theorem start_tracked {device : D → QuantumDevice} (hnull : ∀ d, (device d).quantumState = .null) :
    Tracked (start device : Session t D) :=
  ⟨start_registered device,by simp [start],by simp [start,hnull]⟩

/-- Every gate and measurement of a run is accepted on devices in use only, exactly
when none uses a device after its cleanup. -/
theorem live_only_iff {device : D → QuantumDevice} (hnull : ∀ d, (device d).quantumState = .null)
    {s : Session t D} {ls : List (DeviceCall D)} (h : Run devices (start device) ls s) :
    Always devices LiveOnly (start device : Session t D) ls ↔
      Always devices AvoidsCleaned (start device : Session t D) ls :=
  always_iff (I := Tracked) (fun _ l hs _ => liveOnly_iff hs l)
    (fun _ _ _ hs he _ hr => step_tracked hs he hr) h (start_tracked hnull)

theorem live_only_session :
    Always devices LiveOnly (start fun _ => ⟨4,.null⟩ : Session .bits32 ℕ)
      [.applyGate (some 0) 0 1,.init (some 0) true,.applyGate (some 0) 3 1,.cleanup (some 0),
        .measure (some 0) 4 (some 0),.init (some 0) false,.measure (some 0) 0 (some 0)] := by
  have h : ∃ s, Run devices (start fun _ => ⟨4,.null⟩ : Session .bits32 ℕ)
      [.applyGate (some 0) 0 1,.init (some 0) true,.applyGate (some 0) 3 1,.cleanup (some 0),
        .measure (some 0) 4 (some 0),.init (some 0) false,.measure (some 0) 0 (some 0)] s :=
    ⟨_,run_iff_exec.mpr rfl⟩
  obtain ⟨s,hs⟩ := h
  exact (live_only_iff (fun _ => rfl) hs).mpr (by decide)

/-- The device that was initialised and cleaned up still has its pointer. -/
theorem cleaned_accepted :
    ∃ s, Run devices (start fun _ => ⟨4,.null⟩ : Session .bits64 ℕ)
        [.init (some 0) true,.cleanup (some 0)] s ∧
      s.registered = [] ∧ s.registry.buffers.cells 0 = none ∧
      quantumApplyGate s.registry (some 0) 0 1 = 0 ∧
      quantumMeasure s.registry (some 0) 0 (some 0) = 0 ∧
      ¬LiveOnly s (.applyGate (some 0) 0 1) := by
  refine ⟨_,run_iff_exec.mpr rfl,rfl,rfl,rfl,rfl,?_⟩
  intro h
  have hret : (0:ℤ) = -einval := (h (some 0) 0 rfl).2 0 rfl (by decide)
  exact absurd hret (by decide)

end CtrlxtKernel.QuantumRegistry
