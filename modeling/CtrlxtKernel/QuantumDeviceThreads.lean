import CtrlxtKernel.QuantumDeviceLoading
import CtrlxtKernel.QuantumDeviceRuns

/-!
# Threads that share an open device

`unlocked_ioctl` runs the commands of several threads in parallel, and the
spinlock of the device is never taken. `QUANTUM_IOCTL_FREE_MEMORY` tests
`dev->memory`, frees what the pointer names by then and stores NULL;
`QUANTUM_IOCTL_ALLOC_MEMORY` allocates and stores. The steps of any number of
threads interleave.
-/

set_option autoImplicit false

namespace CtrlxtKernel.QuantumDevice
open MachineInt ObjectHeap StepMachine QuantumMemory

variable {t : Target} {T W : Type*}

/-- How far the command of a thread has come, with the pointer that it passed to
`ctrlxt_qmem_free` or got from `ctrlxt_qmem_alloc`. -/
inductive Phase where
  | idle
  | tested
  | freed (memory : Ptr)
  | allocated (memory : Ptr)

def Phase.isIdle : Phase → Bool
  | .idle => true
  | _ => false

def Phase.isTested : Phase → Bool
  | .tested => true
  | _ => false

def Phase.isFreed : Phase → Bool
  | .freed _ => true
  | _ => false

def Phase.isAllocated : Phase → Bool
  | .allocated _ => true
  | _ => false

def named : Ptr → List ℕ
  | .obj p => [p]
  | _ => []

/-- The blocks that the device passed to `ctrlxt_qmem_free` are recorded. -/
structure ThreadState (t : Target) (T : Type*) where
  dev : CtrlxtQuantumDevice t
  qmem : CtrlxtQmem t
  phase : T → Phase
  passed : List ℕ

inductive ThreadStep (t : Target) (T : Type*) where
  | test (i : T)
  | free (i : T)
  | clear (i : T)
  | allocate (i : T) (numQubits flags : ULong t) (o : AllocOutcome)
  | store (i : T)

def shared (t : Target) (T : Type*) (b : ℕ) (q : CtrlxtQmem t) : ThreadState t T :=
  ⟨installedDevice t b,q,fun _ => .idle,[]⟩

/-- A block that a step passes to `ctrlxt_qmem_free` was not passed before. -/
def PassedOnce (s : ThreadState t T) : ThreadStep t T → Prop
  | .free _ => ∀ p, s.dev.memory = .obj p → p ∉ s.passed
  | _ => True

/-- At a free no thread is between its own free of the same block and its store
of NULL. -/
def NoneBetween (s : ThreadState t T) : ThreadStep t T → Prop
  | .free _ => ∀ p, s.dev.memory = .obj p → ∀ i, s.phase i ≠ .freed (.obj p)
  | _ => True

structure Tidy (s : ThreadState t T) : Prop where
  memoryLt : ∀ p, s.dev.memory = .obj p → p < s.qmem.heap.next
  passedLt : ∀ p ∈ s.passed, p < s.qmem.heap.next
  takenLt : ∀ i p, s.phase i = .allocated (.obj p) → p < s.qmem.heap.next
  apart : ∀ i p, s.phase i = .allocated (.obj p) → s.dev.memory ≠ .obj p ∧ p ∉ s.passed
  owner : ∀ i j p, s.phase i = .allocated (.obj p) → s.phase j = .allocated (.obj p) → i = j
  stale : ∀ p, s.dev.memory = .obj p → p ∈ s.passed → ∃ i, s.phase i = .freed (.obj p)
  freed : ∀ i p, s.phase i = .freed (.obj p) → p ∈ s.passed

theorem passedOnce_iff {s : ThreadState t T} (hs : Tidy s) (l : ThreadStep t T) :
    PassedOnce s l ↔ NoneBetween s l := by
  cases l with
  | free i =>
    constructor
    · exact fun h p hp j hj => h p hp (hs.freed j p hj)
    · intro h p hp hm
      obtain ⟨j,hj⟩ := hs.stale p hp hm
      exact h p hp j hj
  | _ => exact Iff.rfl

theorem shared_tidy (b : ℕ) (q : CtrlxtQmem t) : Tidy (shared t T b q) := by
  constructor <;> simp [shared,installedDevice]

theorem isIdle_ne {ph : Phase} (h : ph.isIdle = true) (m : Ptr) : ph ≠ .freed m := by
  rintro rfl
  cases h

variable [DecidableEq T]

def ThreadState.setPhase (s : ThreadState t T) (i : T) (phase : Phase) : ThreadState t T :=
  { s with phase := Function.update s.phase i phase }

def ThreadState.withMemory (s : ThreadState t T) (memory : Ptr) : ThreadState t T :=
  { s with dev := { s.dev with memory := memory } }

def threads (t : Target) (T : Type*) [DecidableEq T] :
    Machine (ThreadState t T) (ThreadStep t T) where
  enabled s
    | .test i => (s.phase i).isIdle = true
    | .free i => (s.phase i).isTested = true
    | .clear i => (s.phase i).isFreed = true
    | .allocate i n _ o => (s.phase i).isIdle = true ∧ grants s.qmem n o = true
    | .store i => (s.phase i).isAllocated = true
  step s
    | .test i => some (s.setPhase i (if s.dev.memory = .null then .idle else .tested))
    | .free i => (ctrlxtQmemFree s.qmem s.dev.memory).map fun qmem =>
        { s with qmem := qmem, passed := named s.dev.memory++s.passed }.setPhase i
          (.freed s.dev.memory)
    | .clear i => some ((s.withMemory .null).setPhase i .idle)
    | .allocate i n flags o => (ctrlxtQmemAlloc s.qmem n flags o).map fun (qmem,memory) =>
        { s with qmem := qmem }.setPhase i (.allocated memory)
    | .store i =>
      match s.phase i with
      | .allocated memory => some ((s.withMemory memory).setPhase i .idle)
      | _ => none

instance (s : ThreadState t T) : (l : ThreadStep t T) → Decidable ((threads t T).enabled s l)
  | .test i => inferInstanceAs (Decidable ((s.phase i).isIdle = true))
  | .free i => inferInstanceAs (Decidable ((s.phase i).isTested = true))
  | .clear i => inferInstanceAs (Decidable ((s.phase i).isFreed = true))
  | .allocate i n _ o =>
    inferInstanceAs (Decidable ((s.phase i).isIdle = true ∧ grants s.qmem n o = true))
  | .store i => inferInstanceAs (Decidable ((s.phase i).isAllocated = true))

theorem setPhase_eq {s : ThreadState t T} {i j : T} {ph x : Phase} :
    (s.setPhase i ph).phase j = x ↔ (j = i ∧ ph = x) ∨ (j ≠ i ∧ s.phase j = x) := by
  by_cases hj : j = i
  · subst j
    simp [ThreadState.setPhase]
  · simp [ThreadState.setPhase,hj]

theorem setPhase_old {s : ThreadState t T} {i j : T} {ph x : Phase} (hne : ph ≠ x)
    (h : (s.setPhase i ph).phase j = x) : s.phase j = x := by
  rcases setPhase_eq.mp h with ⟨-,h⟩ | ⟨-,h⟩
  · exact absurd h hne
  · exact h

theorem freed_setPhase {s : ThreadState t T} {i : T} (hi : (s.phase i).isIdle = true)
    (ph : Phase) {m : Ptr} (h : ∃ j, s.phase j = .freed m) :
    ∃ j, (s.setPhase i ph).phase j = .freed m := by
  obtain ⟨j,hj⟩ := h
  refine ⟨j,setPhase_eq.mpr (Or.inr ⟨?_,hj⟩)⟩
  rintro rfl
  exact isIdle_ne hi _ hj

theorem tidy_test {s : ThreadState t T} (hs : Tidy s) {i : T} (hi : (s.phase i).isIdle = true)
    {ph : Phase} (hp : ph = .idle ∨ ph = .tested) : Tidy (s.setPhase i ph) := by
  have hne : ∀ m, ph ≠ .allocated m ∧ ph ≠ .freed m := by
    intro m
    rcases hp with rfl | rfl <;> simp
  constructor
  · exact hs.memoryLt
  · exact hs.passedLt
  · exact fun j p hj => hs.takenLt j p (setPhase_old (hne _).1 hj)
  · exact fun j p hj => hs.apart j p (setPhase_old (hne _).1 hj)
  · exact fun j k p hj hk =>
      hs.owner j k p (setPhase_old (hne _).1 hj) (setPhase_old (hne _).1 hk)
  · exact fun p hm hp => freed_setPhase hi ph (hs.stale p hm hp)
  · exact fun j p hj => hs.freed j p (setPhase_old (hne _).2 hj)

theorem mem_named {memory : Ptr} {p : ℕ} : p ∈ named memory ↔ memory = .obj p := by
  cases memory <;> simp [named,eq_comm]

theorem tidy_free {s : ThreadState t T} (hs : Tidy s) {i : T} {q : CtrlxtQmem t}
    (hq : s.qmem.heap.next ≤ q.heap.next) :
    Tidy ({ s with qmem := q, passed := named s.dev.memory++s.passed }.setPhase i
      (.freed s.dev.memory)) := by
  have hne : ∀ m, Phase.freed s.dev.memory ≠ .allocated m := by simp
  constructor
  · exact fun p hm => (hs.memoryLt p hm).trans_le hq
  · intro p hp
    apply lt_of_lt_of_le _ hq
    rcases List.mem_append.mp hp with hp | hp
    · exact hs.memoryLt p (mem_named.mp hp)
    · exact hs.passedLt p hp
  · exact fun j p hj => (hs.takenLt j p (setPhase_old (hne _) hj)).trans_le hq
  · intro j p hj
    obtain ⟨hm,hp⟩ := hs.apart j p (setPhase_old (hne _) hj)
    refine ⟨hm,fun hmem => ?_⟩
    rcases List.mem_append.mp hmem with hmem | hmem
    · exact hm (mem_named.mp hmem)
    · exact hp hmem
  · exact fun j k p hj hk => hs.owner j k p (setPhase_old (hne _) hj) (setPhase_old (hne _) hk)
  · intro p hm _
    have hm' : s.dev.memory = .obj p := hm
    exact ⟨i,setPhase_eq.mpr (Or.inl ⟨rfl,by rw [hm']⟩)⟩
  · intro j p hj
    rcases setPhase_eq.mp hj with ⟨-,hj⟩ | ⟨-,hj⟩
    · exact List.mem_append_left _ (mem_named.mpr (Phase.freed.inj hj))
    · exact List.mem_append_right _ (hs.freed j p hj)

theorem tidy_clear {s : ThreadState t T} (hs : Tidy s) (i : T) :
    Tidy ((s.withMemory .null).setPhase i .idle) := by
  have hold : ∀ j ph, Phase.idle ≠ ph → ((s.withMemory .null).setPhase i .idle).phase j = ph →
      s.phase j = ph := fun j ph hne hj => setPhase_old hne hj
  constructor
  · intro p hm
    cases hm
  · exact hs.passedLt
  · exact fun j p hj => hs.takenLt j p (hold j _ (by simp) hj)
  · intro j p hj
    refine ⟨?_,(hs.apart j p (hold j _ (by simp) hj)).2⟩
    rintro ⟨⟩
  · exact fun j k p hj hk => hs.owner j k p (hold j _ (by simp) hj) (hold k _ (by simp) hk)
  · intro p hm
    cases hm
  · exact fun j p hj => hs.freed j p (hold j _ (by simp) hj)

theorem tidy_allocate {s : ThreadState t T} (hs : Tidy s) {i : T}
    (hi : (s.phase i).isIdle = true) {q : CtrlxtQmem t}
    (hq : s.qmem.heap.next < q.heap.next) :
    Tidy ({ s with qmem := q }.setPhase i (.allocated (.obj s.qmem.heap.next))) := by
  have hnew : ∀ j p, ({ s with qmem := q }.setPhase i
      (.allocated (.obj s.qmem.heap.next))).phase j = .allocated (.obj p) →
      (j = i ∧ p = s.qmem.heap.next) ∨ (j ≠ i ∧ s.phase j = .allocated (.obj p)) := by
    intro j p hj
    rcases setPhase_eq.mp hj with ⟨hji,hx⟩ | hx
    · cases hx
      exact Or.inl ⟨hji,rfl⟩
    · exact Or.inr hx
  constructor
  · exact fun p hm => (hs.memoryLt p hm).trans hq
  · exact fun p hp => (hs.passedLt p hp).trans hq
  · intro j p hj
    rcases hnew j p hj with ⟨-,rfl⟩ | ⟨-,hj⟩
    · exact hq
    · exact (hs.takenLt j p hj).trans hq
  · intro j p hj
    rcases hnew j p hj with ⟨-,rfl⟩ | ⟨-,hj⟩
    · exact ⟨fun hm => (hs.memoryLt _ hm).false,fun hp => (hs.passedLt _ hp).false⟩
    · exact hs.apart j p hj
  · intro j k p hj hk
    rcases hnew j p hj with ⟨rfl,hp⟩ | ⟨-,hj⟩
    · rcases hnew k p hk with ⟨rfl,-⟩ | ⟨-,hk⟩
      · rfl
      · exact absurd (hs.takenLt k p hk) (by omega)
    · rcases hnew k p hk with ⟨-,hp⟩ | ⟨-,hk⟩
      · exact absurd (hs.takenLt j p hj) (by omega)
      · exact hs.owner j k p hj hk
  · exact fun p hm hp => freed_setPhase (s := { s with qmem := q }) hi _ (hs.stale p hm hp)
  · exact fun j p hj => hs.freed j p (setPhase_old (by simp) hj)

theorem tidy_store {s : ThreadState t T} (hs : Tidy s) {i : T} {memory : Ptr}
    (hi : s.phase i = .allocated memory) :
    Tidy ((s.withMemory memory).setPhase i .idle) := by
  have hold : ∀ j r, ((s.withMemory memory).setPhase i .idle).phase j = .allocated (.obj r) →
      j ≠ i ∧ s.phase j = .allocated (.obj r) := by
    intro j r hj
    rcases setPhase_eq.mp hj with ⟨-,hx⟩ | hx
    · cases hx
    · exact hx
  have hstored : ∀ r, memory = .obj r → s.phase i = .allocated (.obj r) := by
    rintro r rfl
    exact hi
  constructor
  · exact fun r hm => hs.takenLt i r (hstored r hm)
  · exact hs.passedLt
  · exact fun j r hj => hs.takenLt j r (hold j r hj).2
  · intro j r hj
    obtain ⟨hne,hj⟩ := hold j r hj
    exact ⟨fun hm => hne (hs.owner j i r hj (hstored r hm)),(hs.apart j r hj).2⟩
  · exact fun j k r hj hk => hs.owner j k r (hold j r hj).2 (hold k r hk).2
  · exact fun r hm hp => absurd hp (hs.apart i r (hstored r hm)).2
  · exact fun j r hj => hs.freed j r (setPhase_old (by simp) hj)

theorem atomicDecAndTest_next {q r : CtrlxtQmem t} {p : ℕ} {zero : Bool}
    (h : atomicDecAndTest q p = some (r,zero)) : r.heap.next = q.heap.next := by
  simp only [atomicDecAndTest,Option.bind_eq_bind,Option.bind_eq_some_iff] at h
  obtain ⟨b,-,k,hk,he⟩ := h
  cases he
  exact (store_spec hk).2.1

theorem destroyBlock_next {q r : CtrlxtQmem t} {p : ℕ} (h : destroyBlock q p = some r) :
    r.heap.next = q.heap.next := by
  simp only [destroyBlock,Option.bind_eq_bind,Option.bind_eq_some_iff] at h
  obtain ⟨b,-,h⟩ := h
  cases hs : b.state with
  | none =>
    simp only [hs,Option.bind_some,Option.bind_eq_some_iff] at h
    obtain ⟨k,hk,he⟩ := h
    cases he
    exact (free_spec hk).2.2.1
  | some s =>
    simp only [hs,Option.bind_eq_some_iff] at h
    obtain ⟨g,hg,k,hk,he⟩ := h
    cases he
    exact (free_spec hk).2.2.1.trans (free_spec hg).2.2.1

theorem ctrlxtQmemFree_next {q r : CtrlxtQmem t} {memory : Ptr}
    (h : ctrlxtQmemFree q memory = some r) : r.heap.next = q.heap.next := by
  cases memory with
  | null =>
    cases h
    rfl
  | errPtr e => cases h
  | obj p =>
    simp only [ctrlxtQmemFree,Option.bind_eq_bind,Option.bind_eq_some_iff] at h
    obtain ⟨⟨k,zero⟩,hk,hr⟩ := h
    have hkn := atomicDecAndTest_next hk
    cases zero with
    | true => exact (destroyBlock_next hr).trans hkn
    | false =>
      cases hr
      exact hkn

theorem grants_alloc {q : CtrlxtQmem t} {n : ULong t} {o : AllocOutcome}
    (h : grants q n o = true) (flags : ULong t) :
    ∃ r, ctrlxtQmemAlloc q n flags o = some (r,.obj q.heap.next) ∧
      q.heap.next < r.heap.next := by
  obtain ⟨ht,rfl⟩ : 0 ≤ allocTests q n ∧ o = ⟨true,true⟩ := by simpa [grants] using h
  obtain ⟨k,hk,-,hn⟩ := allocLocked_success q n flags
  refine ⟨withBlock q k n,by rw [ctrlxtQmemAlloc,if_neg (not_lt.mpr ht),hk],?_⟩
  show q.heap.next < k.next
  omega

theorem step_tidy {s u : ThreadState t T} (hs : Tidy s) {l : ThreadStep t T}
    (he : (threads t T).enabled s l) (hu : (threads t T).step s l = some u) : Tidy u := by
  cases l with
  | test i =>
    cases hu
    apply tidy_test hs he
    split_ifs
    · exact Or.inl rfl
    · exact Or.inr rfl
  | free i =>
    obtain ⟨q,hq,rfl⟩ := Option.map_eq_some_iff.mp hu
    exact tidy_free hs (ctrlxtQmemFree_next hq).ge
  | clear i =>
    cases hu
    exact tidy_clear hs i
  | allocate i n flags o =>
    obtain ⟨⟨q,memory⟩,hq,rfl⟩ := Option.map_eq_some_iff.mp hu
    obtain ⟨r,hr,hn⟩ := grants_alloc he.2 flags
    cases hr.symm.trans hq
    exact tidy_allocate hs he.1 hn
  | store i =>
    simp only [threads] at hu
    split at hu
    · rename_i memory hi
      cases hu
      exact tidy_store hs hi
    · cases hu

theorem free_steps {s : ThreadState t T} {i : T} (hi : (s.phase i).isIdle = true)
    (L : QuantumLayer t W) (user : UserMemory t) (o : AllocOutcome) (w : W) (arg : ULong t) :
    (exec (threads t T) s
        (if s.dev.memory = .null then [.test i] else [.test i,.free i,.clear i])).map
      (fun u => (u.dev,u.qmem)) =
    (ioctlCommand L user o ⟨s.dev,s.qmem,w⟩ quantumIoctlFreeMemory arg).map
      (fun r => (r.1.dev,r.1.qmem)) := by
  rw [ioctlCommand_free]
  obtain ⟨⟨self,dev,cdev,devt,state,openCount,operationCount,memory⟩,q,phase,passed⟩ := s
  cases hm : decide (memory = .null) with
  | true =>
    simp only [decide_eq_true_eq] at hm
    subst hm
    simp [exec,threads,hi,freeMemory,ThreadState.setPhase]
  | false =>
    simp only [decide_eq_false_iff_not] at hm
    cases hq : ctrlxtQmemFree q memory <;>
      simp [exec,threads,hi,freeMemory,ThreadState.setPhase,ThreadState.withMemory,hm,hq,
        Phase.isTested,Phase.isFreed]

theorem alloc_steps {s : ThreadState t T} {i : T} (hi : (s.phase i).isIdle = true)
    {user : UserMemory t} {cmd : BitVec 32} {arg : ULong t} {params : QuantumMemoryParams t}
    (ha : allocRequest user cmd arg = some params) {o : AllocOutcome}
    (hg : grants s.qmem params.numQubits o = true) (L : QuantumLayer t W) (w : W) :
    (exec (threads t T) s [.allocate i params.numQubits params.flags o,.store i]).map
      (fun u => (u.dev,u.qmem)) =
    (ioctlCommand L user o ⟨s.dev,s.qmem,w⟩ cmd arg).map (fun r => (r.1.dev,r.1.qmem)) := by
  obtain ⟨r,hr,-⟩ := grants_alloc hg params.flags
  rw [ioctlCommand_alloc ha]
  simp [exec,threads,hi,hg,hr,ThreadState.setPhase,ThreadState.withMemory,Phase.isAllocated]

/-- Every block is passed to `ctrlxt_qmem_free` at most once, along every
interleaving, exactly when no thread frees between another's free of the same
block and its store of NULL. -/
theorem passed_once_iff (b : ℕ) (q : CtrlxtQmem t) {ls : List (ThreadStep t T)}
    (h : Always (threads t T) (threads t T).enabled (shared t T b q) ls) :
    Always (threads t T) PassedOnce (shared t T b q) ls ↔
      Always (threads t T) NoneBetween (shared t T b q) ls :=
  always_attempt_iff (I := Tidy) (fun _ l hs _ => passedOnce_iff hs l)
    (fun _ _ _ hs he _ hu => step_tidy hs he hu) h (shared_tidy b q)

theorem passed_once_turns :
    Always (threads .bits64 Bool) PassedOnce (shared .bits64 Bool 0 loadedQmem)
      [.allocate true 3 0 ⟨true,true⟩,.store true,.test true,.test false,.free true,.clear true,
        .free false,.clear false] := by
  have h : ∃ u, Run (threads .bits64 Bool) (shared .bits64 Bool 0 loadedQmem)
      [.allocate true 3 0 ⟨true,true⟩,.store true,.test true,.test false,.free true,.clear true,
        .free false,.clear false] u := ⟨_,run_iff_exec.mpr rfl⟩
  obtain ⟨u,hu⟩ := h
  rw [passed_once_iff 0 loadedQmem hu.attempt]
  iterate 4 refine (always_cons rfl).mpr ⟨trivial,?_⟩
  refine (always_cons rfl).mpr ⟨?_,(always_cons rfl).mpr ⟨trivial,?_⟩⟩
  · intro p _ i
    cases i <;> rintro ⟨⟩
  · refine (always_cons rfl).mpr ⟨?_,(always_cons rfl).mpr ⟨trivial,trivial⟩⟩
    rintro p ⟨⟩

/-- Two threads test the pointer before either frees the block. -/
theorem passed_twice :
    ∃ s, Run (threads .bits64 ℕ) (shared .bits64 ℕ 0 loadedQmem)
        [.allocate 0 3 0 ⟨true,true⟩,.store 0,.test 0,.test 1,.free 0] s ∧
      (threads .bits64 ℕ).enabled s (.free 1) ∧ ¬PassedOnce s (.free 1) ∧
      (threads .bits64 ℕ).step s (.free 1) = none := by
  refine ⟨_,run_iff_exec.mpr rfl,rfl,?_,rfl⟩
  intro h
  exact h 1 rfl (List.mem_singleton_self 1)

end CtrlxtKernel.QuantumDevice
