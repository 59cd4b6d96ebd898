import CtrlxtKernel.FallibleCalls
import CtrlxtKernel.ObjectHeap
import CtrlxtKernel.QuantumLayer

/-!
# Quantum error correction

The code of `error_correction.c`. Its two quantum states are named in the
static structure `qec`; the allocations of `ctrlxt_qec_init` succeed or not as
its caller is told. Freeing a state that is not live has no result.
-/

set_option autoImplicit false

namespace CtrlxtKernel.ErrorCorrection
open MachineInt ObjectHeap FallibleCalls

variable {t : Target} {W : Type*}

structure CtrlxtQec where
  ancilla : Ptr
  syndrome : Ptr
  errorCount : CInt
  correctionCount : CInt

/-- The static structure, the live quantum states with their numbers of
qubits, and the world of the gate layer. -/
structure QecState (W : Type*) where
  qec : CtrlxtQec
  states : Heap ℕ
  world : W

def stateAlloc (states : Heap ℕ) (numQubits : ℕ) (granted : Bool) : Heap ℕ × Ptr :=
  if granted then (states.alloc numQubits,.obj states.next) else (states,.null)

/-- `if (state) quantum_state_free(state)`. -/
def stateFree (states : Heap ℕ) : Ptr → Option (Heap ℕ)
  | .null => some states
  | .errPtr _ => none
  | .obj i => states.free i

def freeStates (s : QecState W) : Option (QecState W) :=
  ((stateFree s.states s.qec.ancilla).bind (fun states => stateFree states s.qec.syndrome)).map
    (fun states => { s with states := states })

def initStates (L : QuantumLayer t W) (s : QecState W) : Option (QecState W × ℤ) :=
  let (world,ret) := L.stateInit s.world s.qec.ancilla 0
  let s := { s with world := world }
  if ret < 0 then (freeStates s).map (fun s => (s,ret))
  else
    let (world,ret) := L.stateInit s.world s.qec.syndrome 0
    let s := { s with world := world }
    if ret < 0 then (freeStates s).map (fun s => (s,ret)) else some (s,0)

/-- The two arguments say whether `quantum_state_alloc` finds memory for the
ancilla and for the syndrome. Both are asked for before either is tested. -/
def ctrlxtQecInit (L : QuantumLayer t W) (s : QecState W) (forAncilla forSyndrome : Bool) :
    Option (QecState W × ℤ) :=
  let (states,ancilla) := stateAlloc s.states 3 forAncilla
  let (states,syndrome) := stateAlloc states 3 forSyndrome
  let s : QecState W := ⟨⟨ancilla,syndrome,0,0⟩,states,s.world⟩
  if ancilla = .null ∨ syndrome = .null then some (s,-enomem) else initStates L s

def applyGates (L : QuantumLayer t W) : W → List GateCall → W × ℤ
  | world, [] => (world,0)
  | world, c::cs =>
    let (world,ret) := L.gateApply world c
    if ret < 0 then (world,ret) else applyGates L world cs

def syndromeCircuit (L : QuantumLayer t W) (state ancilla : Ptr) : List GateCall :=
  [⟨L.gateCnot,state,0,ancilla,0⟩,⟨L.gateCnot,state,1,ancilla,1⟩,⟨L.gateCnot,state,2,ancilla,2⟩]

def measureSyndrome (L : QuantumLayer t W) (s : QecState W) (state : Ptr) : QecState W × ℤ :=
  let (world,ret) := applyGates L s.world (syndromeCircuit L state s.qec.ancilla)
  let s := { s with world := world }
  if ret < 0 then (s,ret)
  else
    let (world,ret) := L.stateMeasure s.world s.qec.ancilla (.state s.qec.syndrome)
    let s := { s with world := world }
    if ret < 0 then (s,ret)
    else ({ s with qec := { s.qec with errorCount := s.qec.errorCount+1 } },0)

def correction (L : QuantumLayer t W) (state : Ptr) : ℤ → Option GateCall
  | 1 => some ⟨L.gateX,state,0,.null,0⟩
  | 2 => some ⟨L.gateX,state,1,.null,0⟩
  | 3 => some ⟨L.gateX,state,2,.null,0⟩
  | 4 => some ⟨L.gateZ,state,0,.null,0⟩
  | 5 => some ⟨L.gateZ,state,1,.null,0⟩
  | 6 => some ⟨L.gateZ,state,2,.null,0⟩
  | 7 => some ⟨L.gateY,state,0,.null,0⟩
  | _ => none

def applyCorrection (L : QuantumLayer t W) (s : QecState W) (state : Ptr) : QecState W × ℤ :=
  match correction L state (L.stateGetValue s.world s.qec.syndrome) with
  | none => (s,0)
  | some call =>
    let (world,ret) := L.gateApply s.world call
    ({ s with world := world },ret)

def ctrlxtQecApply (L : QuantumLayer t W) (s : QecState W) (state : Ptr) : QecState W × ℤ :=
  if state = .null then (s,-einval)
  else
    let (s,ret) := measureSyndrome L s state
    if ret < 0 then (s,ret)
    else
      let (s,ret) := applyCorrection L s state
      if ret < 0 then (s,ret)
      else ({ s with qec := { s.qec with correctionCount := s.qec.correctionCount+1 } },0)

structure QuantumErrorStats where
  errorCount : CInt
  correctionCount : CInt
  successRate : BitVec 32

/-- The argument is NULL or what the pointer points to. -/
def ctrlxtQecGetStats (q : CtrlxtQec) :
    Option QuantumErrorStats → Option (Option QuantumErrorStats)
  | none => some none
  | some _ => (intDiv (q.correctionCount*100) q.errorCount).map fun rate =>
      some ⟨q.errorCount,q.correctionCount,rate⟩

theorem applyGates_eq (L : QuantumLayer t W) (w : W) (cs : List GateCall) :
    applyGates L w cs = performAll L.gateApply w cs := by
  induction cs generalizing w with
  | nil => rfl
  | cons c cs ih =>
    simp only [applyGates,performAll,ih]

theorem freeStates_failed {s u : QecState W} {ret : ℤ} (hret : ret < 0) :
    (freeStates u).map (fun s => (s,ret)) ≠ some (s,0) := by
  intro h
  obtain ⟨x,-,hx⟩ := Option.map_eq_some_iff.mp h
  exact hret.ne (Prod.mk.inj hx).2

theorem init_granted {L : QuantumLayer t W} {s₀ s : QecState W} {a b : Bool}
    (h : ctrlxtQecInit L s₀ a b = some (s,0)) : a = true ∧ b = true := by
  cases a with
  | true =>
    cases b with
    | true => exact ⟨rfl,rfl⟩
    | false => simp [ctrlxtQecInit,stateAlloc,enomem] at h
  | false => simp [ctrlxtQecInit,stateAlloc,enomem] at h

theorem init_success {L : QuantumLayer t W} {s₀ s : QecState W} {a b : Bool}
    (h : ctrlxtQecInit L s₀ a b = some (s,0)) :
    ∃ w₁ ret₁ w₂ ret₂, L.stateInit s₀.world (.obj s₀.states.next) 0 = (w₁,ret₁) ∧ 0 ≤ ret₁ ∧
      L.stateInit w₁ (.obj (s₀.states.next+1)) 0 = (w₂,ret₂) ∧ 0 ≤ ret₂ ∧
      s = ⟨⟨.obj s₀.states.next,.obj (s₀.states.next+1),0,0⟩,
        (s₀.states.alloc 3).alloc 3,w₂⟩ := by
  obtain ⟨rfl,rfl⟩ := init_granted h
  have hs : initStates L ⟨⟨.obj s₀.states.next,.obj (s₀.states.next+1),0,0⟩,
      (s₀.states.alloc 3).alloc 3,s₀.world⟩ = some (s,0) := h
  unfold initStates at hs
  simp only at hs
  split_ifs at hs with h1 h2
  · exact absurd hs (freeStates_failed h1)
  · exact absurd hs (freeStates_failed h2)
  · cases hs
    exact ⟨_,_,_,_,rfl,not_lt.mp h1,rfl,not_lt.mp h2,rfl⟩

end CtrlxtKernel.ErrorCorrection
