import CtrlxtKernel.LinkedRing
import CtrlxtKernel.ObjectHeap
import CtrlxtKernel.QuantumDevice

/-!
# The registry of quantum devices

The code of `quantum/quantum.c`. The callers own the device records and pass
pointers to them; the registry links the records through their `list` fields
into a ring whose head is the static `quantum_devices`. A state buffer is an
object of a heap, with its size in bytes, but for a state of no bytes: there
`kzalloc` gives `ZERO_SIZE_PTR`, which is not NULL and is the same for all. A
function has no result when it frees a buffer that is not live or takes out a
record that is not linked.
-/

set_option autoImplicit false

namespace CtrlxtKernel.QuantumRegistry
open MachineInt ObjectHeap LinkedRing
open QuantumDevice (sizeofPointer)

variable {t : Target} {D : Type*}

inductive StatePtr where
  | null
  | zeroSize
  | obj (i : ℕ)
  deriving DecidableEq

structure QuantumDevice where
  qubitCount : BitVec 32
  quantumState : StatePtr

inductive ListHead (D : Type*) where
  | quantumDevices
  | list (dev : D)
  deriving DecidableEq

structure Registry (t : Target) (D : Type*) where
  device : D → QuantumDevice
  links : Links (ListHead D)
  buffers : Heap (ULong t)

/-- `sizeof(void *) * dev->qubit_count`, as a `size_t`. -/
def stateSize (t : Target) (dev : QuantumDevice) : ULong t :=
  BitVec.ofNat t.width (sizeofPointer t)*dev.qubitCount.setWidth t.width

def kzallocState (buffers : Heap (ULong t)) (size : ULong t) : Heap (ULong t) × StatePtr :=
  if size = 0 then (buffers,.zeroSize) else (buffers.alloc size,.obj buffers.next)

def kfreeState (buffers : Heap (ULong t)) : StatePtr → Option (Heap (ULong t))
  | .null | .zeroSize => some buffers
  | .obj i => buffers.free i

/-- A device argument is NULL or a pointer to a record. -/
def quantumApplyGate (s : Registry t D) (dev : Option D) (qubit _gateType : BitVec 32) : ℤ :=
  match dev with
  | none => -einval
  | some d =>
    if (s.device d).quantumState = .null then -einval
    else if qubit ≥ (s.device d).qubitCount then -einval
    else 0

/-- The result pointer is NULL or points to what it points to. -/
def quantumMeasure (s : Registry t D) (dev : Option D) (qubit : BitVec 32)
    (result : Option (BitVec 32)) : ℤ :=
  match dev with
  | none => -einval
  | some d =>
    if (s.device d).quantumState = .null ∨ result = none then -einval
    else if qubit ≥ (s.device d).qubitCount then -einval
    else 0

theorem quantumApplyGate_some (s : Registry t D) (d : D) (qubit gateType : BitVec 32) :
    quantumApplyGate s (some d) qubit gateType =
      if (s.device d).quantumState = .null ∨ (s.device d).qubitCount ≤ qubit then -einval
      else 0 := by
  rw [ite_or]
  rfl

theorem quantumMeasure_some (s : Registry t D) (d : D) (qubit : BitVec 32)
    (result : Option (BitVec 32)) :
    quantumMeasure s (some d) qubit result =
      if (s.device d).quantumState = .null ∨ result = none ∨ (s.device d).qubitCount ≤ qubit then
        -einval
      else 0 := by
  simp only [← or_assoc (a := (s.device d).quantumState = .null)]
  rw [ite_or]
  rfl

variable [DecidableEq D]

def Registry.setState (s : Registry t D) (d : D) (state : StatePtr) : Registry t D :=
  { s with device := Function.update s.device d { s.device d with quantumState := state } }

def quantumDeviceInit (s : Registry t D) (dev : Option D) (kzalloc : Bool) :
    Option (Registry t D × ℤ) :=
  match dev with
  | none => some (s,-einval)
  | some d =>
    if kzalloc then
      let (buffers,state) := kzallocState s.buffers (stateSize t (s.device d))
      (s.links.add (.list d) .quantumDevices).map fun links =>
        ({ s.setState d state with buffers := buffers, links := links },0)
    else some (s.setState d .null,-enomem)

def quantumDeviceCleanup (s : Registry t D) (dev : Option D) : Option (Registry t D) :=
  match dev with
  | none => some s
  | some d => (kfreeState s.buffers (s.device d).quantumState).bind fun buffers =>
    (s.links.del (.list d)).map fun links => { s with buffers := buffers, links := links }

/-- The body of the loop in `quantum_exit`. The head is no device. -/
def cleanupNode (s : Registry t D) : ListHead D → Option (Registry t D)
  | .quantumDevices => none
  | .list d => quantumDeviceCleanup s (some d)

/-- `list_for_each_entry_safe`, for at most so many rounds. -/
def quantumExit (rounds : ℕ) (s : Registry t D) : Option (Registry t D) :=
  forEachSafe Registry.links .quantumDevices cleanupNode rounds s

def slots (s : Registry t D) (d : D) : ℕ :=
  match (s.device d).quantumState with
  | .obj i => ((s.buffers.cells i).elim 0 BitVec.toNat)/sizeofPointer t
  | _ => 0

theorem quantumDeviceInit_true (s : Registry t D) (d : D) :
    quantumDeviceInit s (some d) true = (s.links.add (.list d) .quantumDevices).map fun links =>
      ({ s.setState d (kzallocState s.buffers (stateSize t (s.device d))).2 with
        buffers := (kzallocState s.buffers (stateSize t (s.device d))).1, links := links },0) :=
  rfl

theorem init_slots {s r : Registry t D} {d : D} {kzalloc : Bool}
    (h : quantumDeviceInit s (some d) kzalloc = some (r,0)) :
    (r.device d).quantumState ≠ .null ∧
      slots r d = (stateSize t (r.device d)).toNat/sizeofPointer t := by
  cases kzalloc with
  | true =>
    rw [quantumDeviceInit_true,Option.map_eq_some_iff] at h
    obtain ⟨k,-,hr⟩ := h
    obtain rfl := (Prod.mk.inj hr).1
    have hsize : ∀ state, stateSize t { s.device d with quantumState := state } =
        stateSize t (s.device d) := fun _ => rfl
    by_cases hz : stateSize t (s.device d) = 0
    · rw [kzallocState,if_pos hz]
      simp [slots,Registry.setState,hz,hsize]
    · rw [kzallocState,if_neg hz]
      simp [slots,Registry.setState,hsize]
  | false => simp [quantumDeviceInit,enomem] at h

theorem stateSize_toNat (t : Target) (dev : QuantumDevice) :
    (stateSize t dev).toNat = sizeofPointer t*dev.qubitCount.toNat%2^t.width := by
  rw [stateSize,BitVec.toNat_mul,BitVec.toNat_ofNat,BitVec.toNat_setWidth,← Nat.mul_mod]

/-- The size wraps on 32 bits only, and then it is too small. -/
theorem stateSize_slots (t : Target) (dev : QuantumDevice) :
    dev.qubitCount.toNat ≤ (stateSize t dev).toNat/sizeofPointer t ↔
      (t = .bits32 → dev.qubitCount.toNat < 2^30) := by
  have hlt := dev.qubitCount.isLt
  rw [stateSize_toNat]
  cases t with
  | bits32 =>
    rw [show sizeofPointer .bits32 = 4 from rfl,show Target.bits32.width = 32 from rfl]
    simp only [true_implies]
    omega
  | bits64 =>
    rw [show sizeofPointer .bits64 = 8 from rfl,show Target.bits64.width = 64 from rfl]
    simp only [reduceCtorEq,false_implies,iff_true]
    omega

/-- The state buffer of an initialised device has a slot for every qubit, and the
two operations accept only qubits that have one, unless the size has wrapped. -/
theorem slots_cover_iff {s r : Registry t D} {d : D} {kzalloc : Bool}
    (h : quantumDeviceInit s (some d) kzalloc = some (r,0)) :
    ((r.device d).qubitCount.toNat ≤ slots r d ∧ ∀ qubit gateType result,
        (quantumApplyGate r (some d) qubit gateType = 0 ∨
          quantumMeasure r (some d) qubit result = 0) → qubit.toNat < slots r d) ↔
      (t = .bits32 → (r.device d).qubitCount.toNat < 2^30) := by
  obtain ⟨hnull,hslots⟩ := init_slots h
  rw [← stateSize_slots,← hslots]
  have hne : -einval ≠ 0 := by decide
  constructor
  · exact fun h => h.1
  · intro hcover
    refine ⟨hcover,fun qubit gateType result haccept => ?_⟩
    have hlt : qubit < (r.device d).qubitCount := by
      rcases haccept with hz | hz
      · rw [quantumApplyGate_some] at hz
        by_contra hge
        rw [if_pos (Or.inr (BitVec.not_lt.mp hge))] at hz
        exact hne hz
      · rw [quantumMeasure_some] at hz
        by_contra hge
        rw [if_pos (Or.inr (Or.inr (BitVec.not_lt.mp hge)))] at hz
        exact hne hz
    exact (BitVec.lt_def.mp hlt).trans_le hcover

def lone (qubitCount : BitVec 32) : Registry t Unit :=
  ⟨fun _ => ⟨qubitCount,.null⟩,Links.single .quantumDevices,.empty⟩

theorem slots_cover_large :
    ∃ r, quantumDeviceInit (lone (2^32-1) : Registry .bits64 Unit) (some ()) true =
        some (r,0) ∧
      (r.device ()).qubitCount.toNat ≤ slots r () ∧ ∀ qubit gateType result,
        (quantumApplyGate r (some ()) qubit gateType = 0 ∨
          quantumMeasure r (some ()) qubit result = 0) → qubit.toNat < slots r () := by
  have h : ∃ r, quantumDeviceInit (lone (2^32-1) : Registry .bits64 Unit) (some ()) true =
      some (r,0) := ⟨_,rfl⟩
  obtain ⟨r,hr⟩ := h
  exact ⟨r,hr,(slots_cover_iff hr).mpr (fun h => by cases h)⟩

/-- On 32 bits a state of `2^30` qubits has no bytes, and every qubit is accepted. -/
theorem slots_wrapped :
    ∃ r, quantumDeviceInit (lone (2^30) : Registry .bits32 Unit) (some ()) true = some (r,0) ∧
      (r.device ()).quantumState = .zeroSize ∧ slots r () = 0 ∧
      quantumApplyGate r (some ()) 0 1 = 0 ∧ quantumMeasure r (some ()) (2^30-1) (some 0) = 0 :=
  ⟨_,rfl,rfl,rfl,rfl,rfl⟩

/-- The registered devices, each linked in once and the latest first, and their
buffers: each whose state has bytes has a live one of its own, and there are no
others. -/
structure Registered (s : Registry t D) (ds : List D) : Prop where
  ring : Ring s.links .quantumDevices (ds.map .list)
  owns : ∀ d ∈ ds, stateSize t (s.device d) ≠ 0 → ∃ i, (s.device d).quantumState = .obj i ∧
    s.buffers.cells i = some (stateSize t (s.device d))
  empty : ∀ d ∈ ds, stateSize t (s.device d) = 0 → (s.device d).quantumState = .zeroSize
  apart : ∀ d ∈ ds, ∀ e ∈ ds, ∀ i, (s.device d).quantumState = .obj i →
    (s.device e).quantumState = .obj i → d = e
  only : ∀ i, (s.buffers.cells i).isSome → ∃ d ∈ ds, (s.device d).quantumState = .obj i

omit [DecidableEq D] in
theorem Registered.nodup {s : Registry t D} {ds : List D} (h : Registered s ds) : ds.Nodup :=
  List.Nodup.of_map _ (List.nodup_cons.mp h.ring.nodup).2

omit [DecidableEq D] in
theorem Registered.live {s : Registry t D} {ds : List D} (h : Registered s ds) {d : D}
    (hd : d ∈ ds) {i : ℕ} (hi : (s.device d).quantumState = .obj i) :
    s.buffers.cells i = some (stateSize t (s.device d)) := by
  have hsize : stateSize t (s.device d) ≠ 0 := by
    intro hz
    have hzero := h.empty d hd hz
    rw [hi] at hzero
    cases hzero
  obtain ⟨j,hj,hlive⟩ := h.owns d hd hsize
  obtain rfl : i = j := StatePtr.obj.inj (hi.symm.trans hj)
  exact hlive

omit [DecidableEq D] in
theorem Registered.not_null {s : Registry t D} {ds : List D} (h : Registered s ds) {d : D}
    (hd : d ∈ ds) : (s.device d).quantumState ≠ .null := by
  intro hnull
  by_cases hz : stateSize t (s.device d) = 0
  · have hzero := h.empty d hd hz
    rw [hnull] at hzero
    cases hzero
  · obtain ⟨i,hi,-⟩ := h.owns d hd hz
    rw [hnull] at hi
    cases hi

theorem setState_self (s : Registry t D) (d : D) (state : StatePtr) :
    (s.setState d state).device d = { s.device d with quantumState := state } :=
  Function.update_self ..

/-- A device that is not registered may get any state. -/
theorem Registered.setState {s : Registry t D} {ds : List D} (h : Registered s ds) {d : D}
    (hd : d ∉ ds) (state : StatePtr) : Registered (s.setState d state) ds := by
  have hother : ∀ e ∈ ds, (s.setState d state).device e = s.device e := by
    intro e he
    have hed : e ≠ d := by
      rintro rfl
      exact hd he
    exact Function.update_of_ne hed ..
  refine ⟨h.ring,?_,?_,?_,?_⟩
  · intro e he
    rw [hother e he]
    exact h.owns e he
  · intro e he
    rw [hother e he]
    exact h.empty e he
  · intro e he f hf
    rw [hother e he,hother f hf]
    exact h.apart e he f hf
  · intro i hi
    obtain ⟨e,he,hei⟩ := h.only i hi
    exact ⟨e,he,by rw [hother e he,hei]⟩

theorem init_granted {s : Registry t D} {ds : List D} (h : Registered s ds) {d : D}
    (hd : d ∉ ds) : ∃ k, quantumDeviceInit s (some d) true =
      some ({ s.setState d (kzallocState s.buffers (stateSize t (s.device d))).2 with
        buffers := (kzallocState s.buffers (stateSize t (s.device d))).1, links := k },0) ∧
      Ring k .quantumDevices ((d::ds).map .list) := by
  have hnode : ListHead.list d ∉ ListHead.quantumDevices::ds.map .list := by
    simpa using hd
  obtain ⟨k,hk,hring⟩ := ring_add h.ring hnode
  refine ⟨k,?_,hring⟩
  rw [quantumDeviceInit_true,hk,Option.map_some]

omit [DecidableEq D] in
theorem registered_zeroSize {s : Registry t D} {ds : List D} (h : Registered s ds) {d : D}
    (hz : stateSize t (s.device d) = 0) (hd : (s.device d).quantumState = .zeroSize)
    {k : Links (ListHead D)} (hk : Ring k .quantumDevices ((d::ds).map .list)) :
    Registered { s with links := k } (d::ds) := by
  refine ⟨hk,?_,?_,?_,?_⟩
  · intro e he hsize
    rcases List.mem_cons.mp he with rfl | he
    · exact absurd hz hsize
    · exact h.owns e he hsize
  · intro e he hsize
    rcases List.mem_cons.mp he with rfl | he
    · exact hd
    · exact h.empty e he hsize
  · intro e he f hf i hei hfi
    rcases List.mem_cons.mp he with rfl | he
    · cases hd.symm.trans hei
    · rcases List.mem_cons.mp hf with rfl | hf
      · cases hd.symm.trans hfi
      · exact h.apart e he f hf i hei hfi
  · intro i hi
    obtain ⟨e,he,hei⟩ := h.only i hi
    exact ⟨e,List.mem_cons_of_mem _ he,hei⟩

omit [DecidableEq D] in
theorem registered_buffer {s : Registry t D} {ds : List D} (h : Registered s ds) {d : D}
    (hz : stateSize t (s.device d) ≠ 0) (hd : (s.device d).quantumState = .obj s.buffers.next)
    {k : Links (ListHead D)} (hk : Ring k .quantumDevices ((d::ds).map .list)) :
    Registered { s with
      buffers := s.buffers.alloc (stateSize t (s.device d)), links := k } (d::ds) := by
  have hold : ∀ e ∈ ds, ∀ i, (s.device e).quantumState = .obj i → i ≠ s.buffers.next :=
    fun e he i hi => (lt_next (h.live he hi)).ne
  refine ⟨hk,?_,?_,?_,?_⟩
  · intro e he hsize
    rcases List.mem_cons.mp he with rfl | he
    · exact ⟨s.buffers.next,hd,Function.update_self ..⟩
    · obtain ⟨i,hi,hlive⟩ := h.owns e he hsize
      exact ⟨i,hi,(Function.update_of_ne (hold e he i hi) ..).trans hlive⟩
  · intro e he hsize
    rcases List.mem_cons.mp he with rfl | he
    · exact absurd hsize hz
    · exact h.empty e he hsize
  · intro e he f hf i hei hfi
    rcases List.mem_cons.mp he with rfl | he'
    · rcases List.mem_cons.mp hf with rfl | hf'
      · rfl
      · exact absurd (StatePtr.obj.inj (hd.symm.trans hei)).symm (hold f hf' i hfi)
    · rcases List.mem_cons.mp hf with rfl | hf'
      · exact absurd (StatePtr.obj.inj (hd.symm.trans hfi)).symm (hold e he' i hei)
      · exact h.apart e he' f hf' i hei hfi
  · intro i hi
    by_cases hin : i = s.buffers.next
    · exact ⟨d,List.mem_cons_self,by rw [hin]; exact hd⟩
    · simp only [alloc_cells,Function.update_of_ne hin] at hi
      obtain ⟨e,he,hei⟩ := h.only i hi
      exact ⟨e,List.mem_cons_of_mem _ he,hei⟩

theorem registered_granted {s : Registry t D} {ds : List D} (h : Registered s ds) {d : D}
    (hd : d ∉ ds) {k : Links (ListHead D)}
    (hk : Ring k .quantumDevices ((d::ds).map .list)) :
    Registered { s.setState d (kzallocState s.buffers (stateSize t (s.device d))).2 with
      buffers := (kzallocState s.buffers (stateSize t (s.device d))).1, links := k } (d::ds) := by
  have hsize : ∀ state, stateSize t ((s.setState d state).device d) = stateSize t (s.device d) :=
    fun state => (congrArg (stateSize t) (setState_self s d state)).trans rfl
  have hstate : ∀ state, ((s.setState d state).device d).quantumState = state :=
    fun state => congrArg QuantumDevice.quantumState (setState_self s d state)
  by_cases hz : stateSize t (s.device d) = 0
  · rw [kzallocState,if_pos hz]
    exact registered_zeroSize (h.setState hd .zeroSize) ((hsize _).trans hz) (hstate _) hk
  · rw [kzallocState,if_neg hz,← hsize (.obj s.buffers.next)]
    rw [← hsize (.obj s.buffers.next)] at hz
    exact registered_buffer (h.setState hd _) hz (hstate _) hk

omit [DecidableEq D] in
/-- `kfree` of the state of a registered device takes out its buffer alone. -/
theorem kfree_registered {s : Registry t D} {ds : List D} (h : Registered s ds) {d : D}
    (hd : d ∈ ds) : ∃ b, kfreeState s.buffers (s.device d).quantumState = some b ∧
      b.next = s.buffers.next ∧ ∀ i, b.cells i =
        if (s.device d).quantumState = .obj i then none else s.buffers.cells i := by
  cases hstate : (s.device d).quantumState with
  | null => exact absurd hstate (h.not_null hd)
  | zeroSize => exact ⟨s.buffers,rfl,rfl,fun i => by simp⟩
  | obj i =>
    obtain ⟨b,hb⟩ := free_live (h.live hd hstate)
    obtain ⟨-,hc,hn,-⟩ := free_spec hb
    refine ⟨b,hb,hn,fun j => ?_⟩
    rw [hc]
    by_cases hj : j = i
    · simp [hj]
    · simp [Function.update_of_ne hj,Ne.symm hj]

theorem cleanup_registered {s : Registry t D} {ds : List D} (h : Registered s ds) {d : D}
    (hd : d ∈ ds) : ∃ r, quantumDeviceCleanup s (some d) = some r ∧
      Registered r (ds.erase d) ∧ r.device = s.device ∧ r.buffers.next = s.buffers.next := by
  obtain ⟨k,hk,hring⟩ := ring_del h.ring (List.mem_map_of_mem hd)
  obtain ⟨b,hb,hn,hc⟩ := kfree_registered h hd
  have hinj : Function.Injective (ListHead.list : D → ListHead D) := fun _ _ => ListHead.list.inj
  rw [← List.map_erase hinj] at hring
  have hmem : ∀ e, e ∈ ds.erase d → e ≠ d ∧ e ∈ ds := fun e => h.nodup.mem_erase_iff.mp
  refine ⟨{ s with buffers := b, links := k },?_,⟨hring,?_,?_,?_,?_⟩,rfl,hn⟩
  · simp only [quantumDeviceCleanup,hb,hk,Option.bind_some,Option.map_some]
  · intro e he hsize
    obtain ⟨hed,he⟩ := hmem e he
    obtain ⟨j,hj,hjl⟩ := h.owns e he hsize
    have hdj : (s.device d).quantumState ≠ .obj j :=
      fun hdj => hed (h.apart e he d hd j hj hdj)
    exact ⟨j,hj,by rw [hc,if_neg hdj,hjl]⟩
  · exact fun e he => h.empty e (hmem e he).2
  · exact fun e he f hf => h.apart e (hmem e he).2 f (hmem f hf).2
  · intro j hj
    rw [hc] at hj
    have hdj : (s.device d).quantumState ≠ .obj j := by
      intro hdj
      simp [hdj] at hj
    rw [if_neg hdj] at hj
    obtain ⟨e,he,hej⟩ := h.only j hj
    have hed : e ≠ d := by
      rintro rfl
      exact hdj hej
    exact ⟨e,h.nodup.mem_erase_iff.mpr ⟨hed,he⟩,hej⟩

end CtrlxtKernel.QuantumRegistry
