import CtrlxtKernel.QubitSupports

/-!
# What phases hide from a measurement

The weight of a basis state is the norm of its amplitude. Factors of norm one
change no weight, and a gate goes past factors that do not look at its qubit. So
rows of gates that differ by phases alone, each behind the other gates of its
qubit, end in states that a measurement cannot tell apart.
-/

set_option autoImplicit false

namespace QubitAmplitudes
noncomputable section
open Matrix

variable {Q : Type*} [DecidableEq Q]

def scaled (D : (Q → Bool) → ℂ) (ψ : Amplitudes Q) : Amplitudes Q := fun b => D b*ψ b

def Ignores (D : (Q → Bool) → ℂ) (q : Q) : Prop := ∀ b c, D (Function.update b q c) = D b

/-- One state is the other but for factors of norm one that ignore the free qubits. -/
def Twisted (free : Set Q) (ψ φ : Amplitudes Q) : Prop :=
  ∃ D, (∀ b, ‖D b‖ = 1) ∧ (∀ q ∈ free, Ignores D q) ∧ φ = scaled D ψ

theorem Twisted.refl (free : Set Q) (ψ : Amplitudes Q) : Twisted free ψ ψ :=
  ⟨fun _ => 1,fun _ => norm_one,fun _ _ _ _ => rfl,funext fun b => (one_mul (ψ b)).symm⟩

omit [DecidableEq Q] in
theorem scaled_norm {D : (Q → Bool) → ℂ} (hD : ∀ b, ‖D b‖ = 1) (ψ : Amplitudes Q) (b : Q → Bool) :
    ‖scaled D ψ b‖ = ‖ψ b‖ := by
  rw [scaled,norm_mul,hD,one_mul]

theorem Twisted.weight {free : Set Q} {ψ φ : Amplitudes Q} (h : Twisted free ψ φ) (b : Q → Bool) :
    ‖φ b‖ = ‖ψ b‖ := by
  obtain ⟨D,hD,-,rfl⟩ := h
  exact scaled_norm hD ψ b

theorem apply_scaled {D : (Q → Bool) → ℂ} {q : Q} (hD : Ignores D q) (m : QubitMatrix)
    (ψ : Amplitudes Q) : apply m q (scaled D ψ) = scaled D (apply m q ψ) := by
  ext b
  simp only [apply,scaled,hD b,Finset.mul_sum]
  exact Finset.sum_congr rfl fun c _ => by ring

theorem Twisted.gate {free : Set Q} {ψ φ : Amplitudes Q} (h : Twisted free ψ φ) (m : QubitMatrix)
    {q : Q} (hq : q ∈ free) : Twisted free (apply m q ψ) (apply m q φ) := by
  obtain ⟨D,hD,hfree,rfl⟩ := h
  exact ⟨D,hD,hfree,apply_scaled (hfree q hq) m ψ⟩

theorem Twisted.mono {free less : Set Q} {ψ φ : Amplitudes Q} (h : Twisted free ψ φ)
    (hless : less ⊆ free) : Twisted less ψ φ := by
  obtain ⟨D,hD,hfree,rfl⟩ := h
  exact ⟨D,hD,fun q hq => hfree q (hless hq),rfl⟩

theorem Twisted.phase {free : Set Q} {ψ φ : Amplitudes Q} (h : Twisted free ψ φ) {z : ℂ}
    (hz : ‖z‖ = 1) (q : Q) : Twisted (free\{q}) ψ (apply (QubitAmplitudes.phase z) q φ) := by
  obtain ⟨D,hD,hfree,rfl⟩ := h
  refine ⟨fun b => (if b q then z else 1)*D b,fun b => ?_,fun p hp b c => ?_,?_⟩
  · rw [norm_mul,hD]
    split_ifs
    · rw [hz,one_mul]
    · rw [norm_one,one_mul]
  · have hne : q ≠ p := fun h => hp.2 h.symm
    show (if Function.update b p c q then z else 1)*D (Function.update b p c) = _
    rw [Function.update_of_ne hne,hfree p hp.1 b c]
  · ext b
    rw [QubitAmplitudes.phase,apply_diagonal,scaled,scaled,mul_assoc]

section Uniform

variable [Fintype Q]

def evenColumn : Bool → ℂ := hadamard *ᵥ zeroColumn

theorem evenColumn_eq (b : Bool) : evenColumn b = (Real.sqrt 2 : ℂ)⁻¹ := by
  cases b <;> simp [evenColumn,hadamard,signs,zeroColumn,Matrix.mulVec,dotProduct]

theorem evenColumn_weight (b : Bool) : ‖evenColumn b‖^2 = 1/2 := by
  rw [evenColumn_eq,norm_inv,Complex.norm_real,Real.norm_of_nonneg (Real.sqrt_nonneg 2),inv_pow,
    Real.sq_sqrt (by norm_num)]
  norm_num

omit [DecidableEq Q] in
theorem product_weight (v : Q → Bool → ℂ) (b : Q → Bool) :
    ‖product v b‖^2 = ∏ q, ‖v q (b q)‖^2 := by
  rw [product,norm_prod,Finset.prod_pow]

end Uniform

end

end QubitAmplitudes
