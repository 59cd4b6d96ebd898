import CtrlxtKernel.KernelTypes
import CtrlxtKernel.MachineInt

/-!
# The gate layer

The interface of `quantum.h` as its callers use it. The header is not part of
the repository, so the layer is a parameter: gate numbers, and what each
function does to the world of quantum states it keeps. A negative result is
an error code.
-/

set_option autoImplicit false

namespace CtrlxtKernel
open MachineInt

/-- Where `quantum_state_measure` stores its result. -/
inductive Dest (t : Target) where
  | addr (a : ULong t)
  | state (s : Ptr)

structure GateCall where
  gate : CInt
  state : Ptr
  qubit : ℤ
  target : Ptr
  targetQubit : ℕ
  deriving DecidableEq

structure QuantumLayer (t : Target) (W : Type*) where
  gateX : CInt
  gateY : CInt
  gateZ : CInt
  gateCnot : CInt
  gateH : CInt
  gatePhase : CInt
  gateApply : W → GateCall → W × ℤ
  stateInit : W → Ptr → ULong t → W × ℤ
  stateMeasure : W → Ptr → Dest t → W × ℤ
  stateGetValue : W → Ptr → ℤ

def idle (t : Target) : QuantumLayer t Unit where
  gateX := 1
  gateY := 2
  gateZ := 3
  gateCnot := 4
  gateH := 5
  gatePhase := 6
  gateApply _ _ := ((),0)
  stateInit _ _ _ := ((),0)
  stateMeasure _ _ _ := ((),0)
  stateGetValue _ _ := 0

end CtrlxtKernel
