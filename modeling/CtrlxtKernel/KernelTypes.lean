import Mathlib.Tactic

/-!
# Error codes and pointers

Functions return zero or a negated error code. A pointer result is NULL, an
error pointer made by `ERR_PTR`, or the name of an object.
-/

set_option autoImplicit false

namespace CtrlxtKernel

def enoent : ℤ := 2

def enomem : ℤ := 12

def efault : ℤ := 14

def ebusy : ℤ := 16

def einval : ℤ := 22

def enotty : ℤ := 25

inductive Ptr where
  | null
  | errPtr (code : ℤ)
  | obj (id : ℕ)
  deriving DecidableEq, Repr

def Ptr.isErr : Ptr → Bool
  | .errPtr _ => true
  | _ => false

def Ptr.ptrErr : Ptr → ℤ
  | .errPtr code => code
  | _ => 0

end CtrlxtKernel
