import CtrlxtKernel.ErrorCorrection

/-!
# The quantum-classical interface

The code of `quantum_classical.c`. Its static structure names a quantum state
and a buffer; the state lives among the states that the error corrector knows,
and `ctrlxt_qc_controlled_operation` calls the corrector on it. An operation
has no result when it touches a state or a buffer that is not live.
-/

set_option autoImplicit false

namespace CtrlxtKernel.QuantumClassical
open MachineInt ObjectHeap ErrorCorrection

variable {t : Target} {W : Type*}

def qcQubits : ℕ := 8

def qcBufferSize : ℕ := 1024

structure CtrlxtQcInterface (t : Target) where
  quantumState : Ptr
  classicalBuffer : Ptr
  bufferSize : ULong t
  conversionCount : CInt
  measurementCount : CInt

/-- The static structure, the live buffers with their bytes, and the error
corrector with all quantum states and the world of the gate layer. -/
structure QcState (t : Target) (W : Type*) where
  qc : CtrlxtQcInterface t
  buffers : Heap (ℕ → UInt8)
  qec : QecState W

def QcState.withWorld (s : QcState t W) (world : W) : QcState t W :=
  { s with qec := { s.qec with world := world } }

def QcState.stateLive (s : QcState t W) : Bool :=
  match s.qc.quantumState with
  | .obj i => (s.qec.states.cells i).isSome
  | _ => false

def QcState.bufferLive (s : QcState t W) : Bool :=
  match s.qc.classicalBuffer with
  | .obj i => (s.buffers.cells i).isSome
  | _ => false

theorem stateLive_iff {s : QcState t W} :
    s.stateLive = true ↔ ∃ i n, s.qc.quantumState = .obj i ∧ s.qec.states.cells i = some n := by
  unfold QcState.stateLive
  cases s.qc.quantumState <;> simp [Option.isSome_iff_exists]

theorem bufferLive_iff {s : QcState t W} :
    s.bufferLive = true ↔
      ∃ i bytes, s.qc.classicalBuffer = .obj i ∧ s.buffers.cells i = some bytes := by
  unfold QcState.bufferLive
  cases s.qc.classicalBuffer <;> simp [Option.isSome_iff_exists]

/-- `if (buffer) kfree(buffer)`. -/
def freeBuffer (buffers : Heap (ℕ → UInt8)) : Ptr → Option (Heap (ℕ → UInt8))
  | .null => some buffers
  | .errPtr _ => none
  | .obj i => buffers.free i

/-- The error label of the initialisation does the same. -/
def qcExit (s : QcState t W) : Option (QcState t W) :=
  (stateFree s.qec.states s.qc.quantumState).bind fun states =>
    (freeBuffer s.buffers s.qc.classicalBuffer).map fun buffers =>
      { s with buffers := buffers, qec := { s.qec with states := states } }

/-- Whether `quantum_state_alloc` and `kzalloc` find memory. -/
structure QcOutcome where
  quantumStateAlloc : Bool
  kzalloc : Bool

/-- Without memory for the buffer `ret` still holds the result of `quantum_state_init`. -/
def ctrlxtQcInit (L : QuantumLayer t W) (s : QcState t W) (o : QcOutcome) :
    Option (QcState t W × ℤ) :=
  let (states,state) := stateAlloc s.qec.states qcQubits o.quantumStateAlloc
  let s : QcState t W := { s with
    qc := { s.qc with quantumState := state, conversionCount := 0, measurementCount := 0 }
    qec := { s.qec with states := states } }
  if state = .null then some (s,-enomem)
  else
    let (world,ret) := L.stateInit s.qec.world state 0
    let s := s.withWorld world
    if ret < 0 then (qcExit s).map fun s => (s,ret)
    else if o.kzalloc then
      some ({ s with
        qc := { s.qc with
          classicalBuffer := .obj s.buffers.next
          bufferSize := BitVec.ofNat t.width qcBufferSize }
        buffers := s.buffers.alloc (fun _ => 0) },0)
    else
      (qcExit { s with qc := { s.qc with
        classicalBuffer := .null
        bufferSize := BitVec.ofNat t.width qcBufferSize } }).map fun s => (s,ret)

/-- `memcpy` into the buffer. -/
def QcState.fill (s : QcState t W) (bytes : ℕ → UInt8) (size : ULong t) : Option (QcState t W) :=
  if size = 0 then some s
  else
    match s.qc.classicalBuffer with
    | .obj i =>
      (s.buffers.cells i).bind fun old =>
        (s.buffers.store i (fun j => if j < size.toNat then bytes j else old j)).map
          fun buffers => { s with buffers := buffers }
    | _ => none

def QcState.byte (s : QcState t W) (i : ℕ) : UInt8 :=
  match s.qc.classicalBuffer with
  | .obj j => ((s.buffers.cells j).map (fun bytes => bytes i)).getD 0
  | _ => 0

def byteCalls (L : QuantumLayer t W) (state : Ptr) (i : ℕ) (byte : UInt8) : List GateCall :=
  if byte &&& 1 ≠ 0 then [⟨L.gateH,state,i,.null,0⟩,⟨L.gatePhase,state,i,.null,0⟩]
  else [⟨L.gateH,state,i,.null,0⟩]

def conversionCalls (L : QuantumLayer t W) (s : QcState t W) (size : ULong t) : List GateCall :=
  (List.range size.toNat).flatMap fun i => byteCalls L s.qc.quantumState i (s.byte i)

/-- The data are NULL or what can be read from the pointer on. -/
def ctrlxtQcClassicalToQuantum (L : QuantumLayer t W) (s : QcState t W)
    (data : Option (ℕ → UInt8)) (size : ULong t) : Option (QcState t W × ℤ) :=
  match data with
  | none => some (s,-einval)
  | some bytes =>
    if size > s.qc.bufferSize then some (s,-einval)
    else
      (s.fill bytes size).bind fun s =>
        if size = 0 ∨ s.stateLive then
          let (world,ret) := applyGates L s.qec.world (conversionCalls L s size)
          let s := s.withWorld world
          if ret < 0 then some (s,ret)
          else
            some ({ s with qc := { s.qc with conversionCount := s.qc.conversionCount+1 } },0)
        else none

def measureAt (L : QuantumLayer t W) (state : Ptr) : W → List (ULong t) → W × ℤ
  | world, [] => (world,0)
  | world, a::as =>
    let (world,ret) := L.stateMeasure world state (.addr a)
    if ret < 0 then (world,ret) else measureAt L state world as

def byteAddrs (data size : ULong t) : List (ULong t) :=
  (List.range size.toNat).map fun i => data+BitVec.ofNat t.width i

def ctrlxtQcQuantumToClassical (L : QuantumLayer t W) (s : QcState t W)
    (data : Option (ULong t)) (size : ULong t) : Option (QcState t W × ℤ) :=
  match data with
  | none => some (s,-einval)
  | some data =>
    if size > s.qc.bufferSize then some (s,-einval)
    else if size = 0 ∨ s.stateLive then
      let (world,ret) := measureAt L s.qc.quantumState s.qec.world (byteAddrs data size)
      let s := s.withWorld world
      if ret < 0 then some (s,ret)
      else
        some ({ s with qc := { s.qc with measurementCount := s.qc.measurementCount+1 } },0)
    else none

/-- Of the control data only whether they are there is looked at. -/
def ctrlxtQcControlledOperation (L : QuantumLayer t W) (s : QcState t W) (gate qubit : CInt)
    (controlData : Bool) : Option (QcState t W × ℤ) :=
  if controlData = false then some (s,-einval)
  else if s.stateLive then
    let (world,ret) :=
      L.gateApply s.qec.world ⟨gate,s.qc.quantumState,qubit.toInt,.null,0⟩
    let s := s.withWorld world
    if ret < 0 then some (s,ret)
    else
      let (qec,ret) := ctrlxtQecApply L s.qec s.qc.quantumState
      let s := { s with qec := qec }
      if ret < 0 then some (s,ret) else some (s,0)
  else none

end CtrlxtKernel.QuantumClassical
