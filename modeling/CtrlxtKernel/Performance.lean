import CtrlxtKernel.Context

/-!
# Performance contexts

The context functions of `performance.c`. The sampling rate is a configuration
constant that is not defined in the repository, so it is a parameter.
-/

set_option autoImplicit false

namespace CtrlxtKernel.Performance
open MachineInt

variable {t : Target}

/-- `ktime_t`, in nanoseconds. -/
abbrev Ktime := BitVec 64

structure PerfFields (t : Target) where
  samplingRate : ULong t
  samplingActive : Bool
  samplingStart : Ktime
  samplingEnd : Ktime

abbrev QuantumPerfContext (t : Target) := Context (PerfFields t)

abbrev PerfModule (t : Target) := ContextModule (PerfFields t)

def perfFields (samplingRate : ULong t) : PerfFields t := ⟨samplingRate,false,0,0⟩

def quantumPerfInit (samplingRate : ULong t) : PerfModule t → Bool → PerfModule t × ℤ :=
  initContext (perfFields samplingRate)

def quantumPerfExitLocked : PerfModule t → PerfModule t × Ptr := exitLocked

def quantumPerfExitFree : PerfModule t → Ptr → Option (PerfModule t) := exitFree

def quantumPerfCreateContext (samplingRate : ULong t) :
    PerfModule t → Bool → PerfModule t × Ptr :=
  createContext (perfFields samplingRate)

def quantumPerfGetContext : PerfModule t → Option (PerfModule t × Ptr) := getContext

def quantumPerfPutContext : PerfModule t → Ptr → Option (PerfModule t) := putContext

def perfApi (samplingRate : ULong t) : ContextApi (PerfFields t) Unit where
  init := quantumPerfInit samplingRate
  exitLocked := quantumPerfExitLocked
  exitFree := quantumPerfExitFree
  createContext _ := quantumPerfCreateContext samplingRate
  getContext := quantumPerfGetContext
  putContext := quantumPerfPutContext

theorem perf_counted (samplingRate : ULong t) : (perfApi samplingRate).Counted where
  init := ⟨_,rfl⟩
  exitLocked := rfl
  exitFree := rfl
  create _ _ _ := Or.inl ⟨_,rfl⟩
  get := rfl
  put := rfl

end CtrlxtKernel.Performance
