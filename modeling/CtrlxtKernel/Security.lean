import CtrlxtKernel.Context

/-!
# Security contexts

The context functions of `security.c`. The flags of its default policy are
not defined in the repository, so the policy is a parameter.
-/

set_option autoImplicit false

namespace CtrlxtKernel.Security
open MachineInt

variable {t : Target}

def quantumSecurityLevelNone : CInt := 0

def quantumSecurityLevelStandard : CInt := 2

def quantumSecurityLevelMaximum : CInt := 4

structure QuantumSecurityPolicy (t : Target) where
  minSecurityLevel : CInt
  requiredFlags : ULong t
  optionalFlags : ULong t

structure SecurityFields (t : Target) where
  securityLevel : CInt
  flags : ULong t

abbrev QuantumSecurityContext (t : Target) := Context (SecurityFields t)

abbrev SecurityModule (t : Target) := ContextModule (SecurityFields t)

def quantumSecurityInit (defaultPolicy : QuantumSecurityPolicy t) :
    SecurityModule t → Bool → SecurityModule t × ℤ :=
  initContext ⟨quantumSecurityLevelStandard,defaultPolicy.requiredFlags⟩

def quantumSecurityExitLocked : SecurityModule t → SecurityModule t × Ptr := exitLocked

def quantumSecurityExitFree : SecurityModule t → Ptr → Option (SecurityModule t) := exitFree

def levelRefused (level : CInt) : Bool :=
  decide (level.toInt < quantumSecurityLevelNone.toInt ∨
    quantumSecurityLevelMaximum.toInt < level.toInt)

def quantumSecurityCreateContext (level : CInt) (flags : ULong t) (m : SecurityModule t)
    (kzalloc : Bool) : SecurityModule t × Ptr :=
  if levelRefused level then (m,.errPtr (-einval)) else createContext ⟨level,flags⟩ m kzalloc

def quantumSecurityGetContext : SecurityModule t → Option (SecurityModule t × Ptr) := getContext

def quantumSecurityPutContext : SecurityModule t → Ptr → Option (SecurityModule t) := putContext

def securityApi (defaultPolicy : QuantumSecurityPolicy t) :
    ContextApi (SecurityFields t) (CInt × ULong t) where
  init := quantumSecurityInit defaultPolicy
  exitLocked := quantumSecurityExitLocked
  exitFree := quantumSecurityExitFree
  createContext a := quantumSecurityCreateContext a.1 a.2
  getContext := quantumSecurityGetContext
  putContext := quantumSecurityPutContext

theorem security_counted (defaultPolicy : QuantumSecurityPolicy t) :
    (securityApi defaultPolicy).Counted where
  init := ⟨_,rfl⟩
  exitLocked := rfl
  exitFree := rfl
  create a m kzalloc := by
    by_cases h : levelRefused a.1 = true
    · exact Or.inr ⟨-einval,if_pos h⟩
    · exact Or.inl ⟨⟨a.1,a.2⟩,if_neg h⟩
  get := rfl
  put := rfl

end CtrlxtKernel.Security
