import CtrlxtKernel.LockDiscipline
import CtrlxtKernel.QuantumClassical
import CtrlxtKernel.QuantumMemory

/-!
# The locks of the memory manager, the interface and the corrector

The six operations that take a lock, call by call as in the source, with every
unlock where the source has it. What a call answers is left open, so the code
goes through every pattern of success and failure, and through whatever other
threads change between two calls.
-/

set_option autoImplicit false

namespace CtrlxtKernel.KernelLocks
open MachineInt ObjectHeap ErrorCorrection QuantumClassical QuantumMemory LockDiscipline

variable {t : Target} {W : Type*}

inductive LockName where
  | qcInterface
  | qec
  | qmem
  deriving DecidableEq, Repr

/-- What the code reads, writes and calls, apart from locks. -/
inductive KernelOp (t : Target) where
  | gateApply (c : GateCall)
  | stateMeasure (state : Ptr) (result : Dest t)
  | stateGetValue (state : Ptr)
  | bufferSize
  | memcpy (bytes : ℕ → UInt8) (size : ULong t)
  | classicalBuffer (i : ℕ)
  | quantumState
  | incConversionCount
  | incMeasurementCount
  | ancilla
  | syndrome
  | incErrorCount
  | incCorrectionCount
  | allocatedQubits
  | maxQubits
  | kzallocBlock
  | stateAlloc (numQubits : ULong t)
  | setBlock (block : ℕ) (b : QuantumMemoryBlock t)
  | listAdd (block : ℕ)
  | addTotal (numQubits : ULong t)
  | addAllocated (numQubits : ULong t)
  | decAndTest (block : Ptr)
  | listDel (block : Ptr)
  | blockState (block : Ptr)
  | blockSize (block : Ptr)
  | stateFree (state : ℕ)
  | subTotal (size : ULong t)
  | subAllocated (size : ULong t)
  | kfreeBlock (block : Ptr)

abbrev KernelOp.Answer : KernelOp t → Type
  | .gateApply _ | .stateMeasure _ _ | .stateGetValue _ => ℤ
  | .bufferSize | .blockSize _ => ULong t
  | .classicalBuffer _ => UInt8
  | .quantumState | .ancilla | .syndrome => Ptr
  | .allocatedQubits | .maxQubits => CInt
  | .kzallocBlock | .stateAlloc _ | .blockState _ => Option ℕ
  | .decAndTest _ => Bool
  | _ => Unit

abbrev KernelCode (t : Target) (A : Type) : Type :=
  Code LockName (KernelOp t) KernelOp.Answer A

abbrev call (op : KernelOp t) : KernelCode t op.Answer := ask op

section Code

variable (L : QuantumLayer t W)

def measureSyndrome (state : Ptr) : KernelCode t ℤ := do
  let ret : ℤ ← call (.gateApply ⟨L.gateCnot,state,0,← call .ancilla,0⟩)
  if ret < 0 then return ret
  else
    let ret : ℤ ← call (.gateApply ⟨L.gateCnot,state,1,← call .ancilla,1⟩)
    if ret < 0 then return ret
    else
      let ret : ℤ ← call (.gateApply ⟨L.gateCnot,state,2,← call .ancilla,2⟩)
      if ret < 0 then return ret
      else
        let ancilla : Ptr ← call .ancilla
        let ret : ℤ ← call (.stateMeasure ancilla (.state (← call .syndrome)))
        if ret < 0 then return ret
        else
          call .incErrorCount
          return 0

def applyCorrection (state : Ptr) : KernelCode t ℤ := do
  let syndrome : ℤ ← call (.stateGetValue (← call .syndrome))
  match correction L state syndrome with
  | none => return 0
  | some gate => call (.gateApply gate)

def ctrlxtQecApply (state : Ptr) : KernelCode t ℤ := do
  if state = .null then return -einval
  else
    lock .qec
    let ret : ℤ ← measureSyndrome L state
    if ret < 0 then
      unlock .qec
      return ret
    else
      let ret : ℤ ← applyCorrection L state
      if ret < 0 then
        unlock .qec
        return ret
      else
        call .incCorrectionCount
        unlock .qec
        return 0

def convertBytes : List ℕ → KernelCode t ℤ
  | [] => do
    call .incConversionCount
    unlock .qcInterface
    return 0
  | i::is => do
    let byte : UInt8 ← call (.classicalBuffer i)
    let ret : ℤ ← call (.gateApply ⟨L.gateH,← call .quantumState,i,.null,0⟩)
    if ret < 0 then
      unlock .qcInterface
      return ret
    else if byte &&& 1 ≠ 0 then
      let ret : ℤ ← call (.gateApply ⟨L.gatePhase,← call .quantumState,i,.null,0⟩)
      if ret < 0 then
        unlock .qcInterface
        return ret
      else convertBytes is
    else convertBytes is

def ctrlxtQcClassicalToQuantum (data : Option (ℕ → UInt8)) (size : ULong t) :
    KernelCode t ℤ := do
  match data with
  | none => return -einval
  | some bytes =>
    let bufferSize : ULong t ← call .bufferSize
    if size > bufferSize then return -einval
    else
      lock .qcInterface
      call (.memcpy bytes size)
      convertBytes L (List.range size.toNat)

def measureBytes (data : ULong t) : List ℕ → KernelCode t ℤ
  | [] => do
    call .incMeasurementCount
    unlock .qcInterface
    return 0
  | i::is => do
    let state : Ptr ← call .quantumState
    let ret : ℤ ← call (.stateMeasure state (.addr (data+BitVec.ofNat t.width i)))
    if ret < 0 then
      unlock .qcInterface
      return ret
    else measureBytes data is

def ctrlxtQcQuantumToClassical (data : Option (ULong t)) (size : ULong t) :
    KernelCode t ℤ := do
  match data with
  | none => return -einval
  | some data =>
    let bufferSize : ULong t ← call .bufferSize
    if size > bufferSize then return -einval
    else
      lock .qcInterface
      measureBytes data (List.range size.toNat)

def ctrlxtQcControlledOperation (gate qubit : CInt) (controlData : Bool) :
    KernelCode t ℤ := do
  if controlData = false then return -einval
  else
    lock .qcInterface
    let ret : ℤ ← call (.gateApply ⟨gate,← call .quantumState,qubit.toInt,.null,0⟩)
    if ret < 0 then
      unlock .qcInterface
      return ret
    else
      let ret : ℤ ← ctrlxtQecApply L (← call .quantumState)
      if ret < 0 then
        unlock .qcInterface
        return ret
      else
        unlock .qcInterface
        return 0

def ctrlxtQmemAlloc (numQubits flags : ULong t) : KernelCode t Ptr := do
  if numQubits = 0 ∨ numQubits.toNat > qmemMaxQubitsPerBlock then return .errPtr (-einval)
  else
    let allocated : CInt ← call .allocatedQubits
    let max : CInt ← call .maxQubits
    if widen t allocated+numQubits > widen t max then return .errPtr (-enomem)
    else
      lock .qmem
      let block : Option ℕ ← call .kzallocBlock
      match block with
      | none =>
        unlock .qmem
        return .errPtr (-enomem)
      | some block =>
        let state : Option ℕ ← call (.stateAlloc numQubits)
        match state with
        | none =>
          call (.kfreeBlock (.obj block))
          unlock .qmem
          return .errPtr (-enomem)
        | some state =>
          call (.setBlock block ⟨some state,numQubits,flags,1⟩)
          call (.listAdd block)
          call (.addTotal numQubits)
          call (.addAllocated numQubits)
          unlock .qmem
          return .obj block

def dropBlock (block : Ptr) : KernelCode t Unit := do
  call (.subTotal (← call (.blockSize block)))
  call (.subAllocated (← call (.blockSize block)))
  call (.kfreeBlock block)

def destroyBlock (block : Ptr) : KernelCode t Unit := do
  call (.listDel block)
  let state : Option ℕ ← call (.blockState block)
  match state with
  | none => dropBlock block
  | some state =>
    call (.stateFree state)
    dropBlock block

def ctrlxtQmemFree (block : Ptr) : KernelCode t Unit := do
  if block = .null then return ()
  else
    lock .qmem
    let zero : Bool ← call (.decAndTest block)
    if zero = true then destroyBlock block
    unlock .qmem

end Code

/-- The order of the source: the lock of the corrector under that of the interface. -/
def Before (first second : LockName) : Prop :=
  first = .qcInterface ∧ second = .qec

theorem before_acyclic (l : LockName) : ¬Relation.TransGen Before l l := by
  intro h
  obtain ⟨m,⟨rfl,rfl⟩,hrest⟩ := Relation.TransGen.head'_iff.mp h
  rcases Relation.ReflTransGen.cases_head hrest with heq | ⟨n,⟨hn,-⟩,-⟩
  · cases heq
  · cases hn

section Order

variable (L : QuantumLayer t W)

theorem measureSyndrome_wp (state : Ptr) {Q : ℤ → Locks LockName → Prop} {s : Locks LockName}
    (hQ : ∀ a, Q a s) : wp Before (measureSyndrome L state) Q s := by
  simp only [measureSyndrome,wp_bind,wp_ite,wp_pure,wp_ask,hQ,implies_true,and_self]

theorem applyCorrection_wp (state : Ptr) {Q : ℤ → Locks LockName → Prop} {s : Locks LockName}
    (hQ : ∀ a, Q a s) : wp Before (applyCorrection L state) Q s := by
  simp only [applyCorrection,wp_bind,wp_ask]
  intro p v
  split
  · exact hQ 0
  · exact hQ

theorem ctrlxtQecApply_wp (state : Ptr) {Q : ℤ → Locks LockName → Prop} {s : Locks LockName}
    (hs : .qec ∉ s.taken) (hh : ∀ l ∈ s.held, Before l .qec) (hQ : ∀ a, Q a s)
    (hQ' : ∀ a, Q a ((s.acquire .qec).release .qec)) :
    wp Before (ctrlxtQecApply L state) Q s := by
  have hmem : LockName.qec ∈ (s.acquire .qec).held := List.mem_cons_self
  simp only [ctrlxtQecApply,wp_bind,wp_ite,wp_lock,wp_unlock,wp_ask]
  refine ⟨fun _ => hQ _,fun _ => ⟨hs,hh,?_⟩⟩
  apply measureSyndrome_wp
  intro ret
  refine ⟨fun _ => ⟨hmem,hQ' _⟩,fun _ => ?_⟩
  apply applyCorrection_wp
  intro ret
  exact ⟨fun _ => ⟨hmem,hQ' _⟩,fun _ _ => ⟨hmem,hQ' _⟩⟩

theorem convertBytes_wp (is : List ℕ) {Q : ℤ → Locks LockName → Prop} {s : Locks LockName}
    (hs : .qcInterface ∈ s.held) (hQ : ∀ a, Q a (s.release .qcInterface)) :
    wp Before (convertBytes L is) Q s := by
  induction is with
  | nil =>
    simp only [convertBytes,wp_bind,wp_ask,wp_unlock]
    exact fun _ => ⟨hs,hQ 0⟩
  | cons i is ih =>
    simp only [convertBytes,wp_bind,wp_ask,wp_ite,wp_unlock]
    exact fun _ _ _ => ⟨fun _ => ⟨hs,hQ _⟩,fun _ =>
      ⟨fun _ _ _ => ⟨fun _ => ⟨hs,hQ _⟩,fun _ => ih⟩,fun _ => ih⟩⟩

theorem measureBytes_wp (data : ULong t) (is : List ℕ) {Q : ℤ → Locks LockName → Prop}
    {s : Locks LockName} (hs : .qcInterface ∈ s.held)
    (hQ : ∀ a, Q a (s.release .qcInterface)) : wp Before (measureBytes data is) Q s := by
  induction is with
  | nil =>
    simp only [measureBytes,wp_bind,wp_ask,wp_unlock]
    exact fun _ => ⟨hs,hQ 0⟩
  | cons i is ih =>
    simp only [measureBytes,wp_bind,wp_ask,wp_ite,wp_unlock]
    exact fun _ _ => ⟨fun _ => ⟨hs,hQ _⟩,fun _ => ih⟩

end Order

inductive LockingCall (t : Target) where
  | qmemAlloc (numQubits flags : ULong t)
  | qmemFree (block : Ptr)
  | classicalToQuantum (data : Option (ℕ → UInt8)) (size : ULong t)
  | quantumToClassical (data : Option (ULong t)) (size : ULong t)
  | controlledOperation (gate qubit : CInt) (controlData : Bool)
  | qecApply (state : Ptr)

def LockingCall.code (L : QuantumLayer t W) : LockingCall t → KernelCode t Unit
  | .qmemAlloc numQubits flags => do let _ ← ctrlxtQmemAlloc numQubits flags
  | .qmemFree block => ctrlxtQmemFree block
  | .classicalToQuantum data size => do let _ ← ctrlxtQcClassicalToQuantum L data size
  | .quantumToClassical data size => do let _ ← ctrlxtQcQuantumToClassical data size
  | .controlledOperation gate qubit controlData => do
    let _ ← ctrlxtQcControlledOperation L gate qubit controlData
  | .qecApply state => do let _ ← ctrlxtQecApply L state

def LockingCall.locks : LockingCall t → List LockName
  | .qmemAlloc _ _ | .qmemFree _ => [.qmem]
  | .classicalToQuantum _ _ | .quantumToClassical _ _ => [.qcInterface]
  | .controlledOperation _ _ _ => [.qcInterface,.qec]
  | .qecApply _ => [.qec]

def Returned (ls : List LockName) (s : Locks LockName) : Prop :=
  s.held = [] ∧ s.taken ⊆ ls

theorem qmemAlloc_wp (numQubits flags : ULong t) {Q : Ptr → Locks LockName → Prop}
    (hQ : ∀ a, Q a .none) (hQ' : ∀ a, Q a (Locks.none.acquire .qmem |>.release .qmem)) :
    wp Before (ctrlxtQmemAlloc numQubits flags) Q .none := by
  simp only [ctrlxtQmemAlloc,wp_bind,wp_ite,wp_ask,wp_lock]
  refine ⟨fun _ => hQ _,fun _ allocated max => ⟨fun _ => hQ _,fun _ => ⟨by simp,by simp,?_⟩⟩⟩
  intro block
  cases block with
  | none => exact ⟨List.mem_cons_self,hQ' _⟩
  | some block =>
    intro state
    cases state with
    | none => exact fun _ => ⟨List.mem_cons_self,hQ' _⟩
    | some state => exact fun _ _ _ _ => ⟨List.mem_cons_self,hQ' _⟩

theorem destroyBlock_wp (block : Ptr) {Q : Unit → Locks LockName → Prop} {s : Locks LockName}
    (hQ : Q () s) : wp Before (destroyBlock block : KernelCode t Unit) Q s := by
  simp only [destroyBlock,dropBlock,wp_bind,wp_ask]
  intro _ state
  cases state with
  | none => exact fun _ _ _ _ _ => hQ
  | some state => exact fun _ _ _ _ _ _ => hQ

theorem qmemFree_wp (block : Ptr) {Q : Unit → Locks LockName → Prop}
    (hQ : Q () .none) (hQ' : Q () (Locks.none.acquire .qmem |>.release .qmem)) :
    wp Before (ctrlxtQmemFree block : KernelCode t Unit) Q .none := by
  simp only [ctrlxtQmemFree,wp_bind,wp_ite,wp_ask,wp_lock,wp_unlock]
  refine ⟨fun _ => hQ,fun _ => ⟨by simp,by simp,fun zero => ⟨fun _ => ?_,fun _ => ?_⟩⟩⟩
  · exact destroyBlock_wp block ⟨List.mem_cons_self,hQ'⟩
  · exact ⟨List.mem_cons_self,hQ'⟩

theorem controlledOperation_wp (L : QuantumLayer t W) (gate qubit : CInt) (controlData : Bool)
    {Q : ℤ → Locks LockName → Prop} (hQ : ∀ a, Q a .none)
    (hQ' : ∀ a, Q a (Locks.none.acquire .qcInterface |>.release .qcInterface))
    (hQ'' : ∀ a, Q a (Locks.none.acquire .qcInterface |>.acquire .qec |>.release .qec
      |>.release .qcInterface)) :
    wp Before (ctrlxtQcControlledOperation L gate qubit controlData) Q .none := by
  simp only [ctrlxtQcControlledOperation,wp_bind,wp_ite,wp_ask,wp_lock,wp_unlock]
  refine ⟨fun _ => hQ _,fun _ => ⟨by simp,by simp,fun _ ret => ⟨fun _ => ?_,fun _ state => ?_⟩⟩⟩
  · exact ⟨List.mem_cons_self,hQ' _⟩
  · apply ctrlxtQecApply_wp L state (by simp) (by simp [Before])
    · exact fun _ => ⟨fun _ => ⟨List.mem_cons_self,hQ' _⟩,fun _ => ⟨List.mem_cons_self,hQ' _⟩⟩
    · exact fun _ => ⟨fun _ => ⟨by simp,hQ'' _⟩,fun _ => ⟨by simp,hQ'' _⟩⟩

theorem call_wp (L : QuantumLayer t W) (c : LockingCall t) :
    wp Before (c.code L) (fun _ s => Returned c.locks s) .none := by
  have hnone : ∀ ls, Returned ls .none := fun ls => ⟨rfl,List.nil_subset ls⟩
  have hone : ∀ l ls, Returned (l::ls) (Locks.none.acquire l |>.release l) :=
    fun l ls => ⟨by simp,by simp⟩
  cases c with
  | qmemAlloc numQubits flags =>
    rw [LockingCall.code,wp_bind]
    exact qmemAlloc_wp numQubits flags (fun _ => hnone _) fun _ => hone _ _
  | qmemFree block => exact qmemFree_wp block (hnone _) (hone _ _)
  | classicalToQuantum data size =>
    rw [LockingCall.code,wp_bind]
    cases data with
    | none => exact hnone _
    | some bytes =>
      simp only [ctrlxtQcClassicalToQuantum,wp_bind,wp_ite,wp_ask,wp_lock]
      refine fun _ => ⟨fun _ => hnone _,fun _ => ⟨by simp,by simp,fun _ => ?_⟩⟩
      exact convertBytes_wp L _ List.mem_cons_self fun _ => hone _ _
  | quantumToClassical data size =>
    rw [LockingCall.code,wp_bind]
    cases data with
    | none => exact hnone _
    | some data =>
      simp only [ctrlxtQcQuantumToClassical,wp_bind,wp_ite,wp_ask,wp_lock]
      refine fun _ => ⟨fun _ => hnone _,fun _ => ⟨by simp,by simp,?_⟩⟩
      exact measureBytes_wp data _ List.mem_cons_self fun _ => hone _ _
  | controlledOperation gate qubit controlData =>
    rw [LockingCall.code,wp_bind]
    apply controlledOperation_wp L gate qubit controlData (fun _ => hnone _) fun _ => hone _ _
    exact fun _ => ⟨by simp,by simp⟩
  | qecApply state =>
    rw [LockingCall.code,wp_bind]
    exact ctrlxtQecApply_wp L state (by simp) (by simp) (fun _ => hnone _) fun _ => hone _ _

theorem call_inOrder (L : QuantumLayer t W) (c : LockingCall t) : InOrder Before (c.code L) :=
  wp_mono (fun _ _ h => h.1) (call_wp L c)

theorem answer_exists (op : KernelOp t) : Nonempty op.Answer := by
  cases op with
  | quantumState | ancilla | syndrome => exact ⟨Ptr.null⟩
  | gateApply _ | stateMeasure _ _ | stateGetValue _ => exact ⟨(0:ℤ)⟩
  | bufferSize | blockSize _ => exact ⟨(0:ULong t)⟩
  | classicalBuffer _ => exact ⟨(0:UInt8)⟩
  | allocatedQubits | maxQubits => exact ⟨(0:CInt)⟩
  | kzallocBlock | stateAlloc _ | blockState _ => exact ⟨(none:Option ℕ)⟩
  | decAndTest _ => exact ⟨false⟩
  | _ => exact ⟨()⟩

/-- Every call returns. Whoever holds none of its locks then holds what he held
before, has taken each lock at most once and given it back as often, and has
taken a second lock only in the order of the source; calls of any threads never
wait for each other in a cycle. -/
theorem locks_balanced_ordered (L : QuantumLayer t W) (I : Type*) [DecidableEq I] :
    (∀ c : LockingCall t, ∃ es a, Path (c.code L) es a) ∧
    (∀ (c : LockingCall t) es a, Path (c.code L) es a →
      (∀ held, (∀ l ∈ c.locks, l ∉ held) → replay held es = some held) ∧
      (∀ l, es.count (.release l) = es.count (.acquire l) ∧ es.count (.acquire l) ≤ 1) ∧
      ∀ pre post l h, es = pre++.acquire l::post →
        pre.count (.release h) < pre.count (.acquire h) → h = .qcInterface ∧ l = .qec) ∧
    ∀ s : I → Thread LockName (KernelOp t) KernelOp.Answer,
      Reachable (fun p => ∃ c : LockingCall t, p = c.code L) s →
        ∀ i, ¬Relation.TransGen (WaitsFor s) i i := by
  refine ⟨fun c => path_exists answer_exists (c.code L),?_,?_⟩
  · intro c es a h
    obtain ⟨u,hu,hheld,htaken⟩ := wp_path h (call_wp L c)
    refine ⟨fun held hfree => ?_,fun l => ?_,fun pre post l h hes hh => ?_⟩
    · have hreplay := hu.replay (List.nil_subset _) fun l hl => hfree l (htaken (hu.taken_mem hl))
      rw [hheld] at hreplay
      exact hreplay
    · have hcount := hu.held_count l
      have htimes := hu.taken_count l
      have hnodup := List.nodup_iff_count_le_one.mp (hu.taken_nodup List.nodup_nil) l
      simp only [hheld,none_held,none_taken,List.count_nil] at hcount htimes
      omega
    · subst hes
      exact hu.ordered (by simpa using hh)
  · intro s hs i
    apply no_wait_cycle before_acyclic _ hs
    rintro p ⟨c,rfl⟩
    exact call_inOrder L c

end CtrlxtKernel.KernelLocks
