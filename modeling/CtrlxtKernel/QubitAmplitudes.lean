import Mathlib.Tactic
import Mathlib.Data.Matrix.Mul
import Mathlib.Analysis.Complex.Basic

/-!
# Amplitudes of a row of qubits

A gate on one qubit is a two by two matrix, and acts on the amplitudes by its
rows. Gates with an inverse keep different states different. On a product state
a gate changes one column.
-/

set_option autoImplicit false

namespace QubitAmplitudes
noncomputable section
open Matrix

variable {Q : Type*} [DecidableEq Q]

abbrev Amplitudes (Q : Type*) := (Q → Bool) → ℂ

abbrev QubitMatrix := Matrix Bool Bool ℂ

def apply (m : QubitMatrix) (q : Q) (ψ : Amplitudes Q) : Amplitudes Q :=
  fun b => ∑ c, m (b q) c*ψ (Function.update b q c)

theorem apply_apply (m n : QubitMatrix) (q : Q) (ψ : Amplitudes Q) :
    apply m q (apply n q ψ) = apply (m*n) q ψ := by
  ext b
  simp only [apply,Fintype.sum_bool,Matrix.mul_apply,Function.update_self,Function.update_idem]
  ring

theorem apply_one (q : Q) (ψ : Amplitudes Q) : apply 1 q ψ = ψ := by
  ext b
  rw [apply,Finset.sum_eq_single (b q)]
  · rw [Matrix.one_apply_eq,one_mul,Function.update_eq_self]
  · intro c _ hc
    rw [Matrix.one_apply_ne (Ne.symm hc),zero_mul]
  · exact fun h => absurd (Finset.mem_univ _) h

theorem apply_injective {m n : QubitMatrix} (h : n*m = 1) (q : Q) :
    Function.Injective (apply m q) := by
  have hleft : Function.LeftInverse (apply n q) (apply m q) := by
    intro ψ
    rw [apply_apply,h,apply_one]
  exact hleft.injective

def signs : QubitMatrix :=
  fun a b => if a && b then -1 else 1

def hadamard : QubitMatrix :=
  (Real.sqrt 2 : ℂ)⁻¹ • signs

def phase (z : ℂ) : QubitMatrix :=
  Matrix.diagonal fun b => if b then z else 1

theorem signs_mul_self : signs*signs = (2:ℂ) • 1 := by
  ext a b
  cases a <;> cases b <;> simp [signs,Matrix.mul_apply]
  norm_num

theorem hadamard_mul_self : hadamard*hadamard = 1 := by
  have hs : (Real.sqrt 2 : ℂ)*(Real.sqrt 2 : ℂ) = 2 := by
    rw [← Complex.ofReal_mul,Real.mul_self_sqrt (by norm_num)]
    norm_num
  rw [hadamard,Matrix.smul_mul,Matrix.mul_smul,signs_mul_self,smul_smul,smul_smul,← mul_inv,hs,
    inv_mul_cancel₀ two_ne_zero,one_smul]

theorem phase_mul_phase {z : ℂ} (hz : z ≠ 0) : phase z⁻¹*phase z = 1 := by
  rw [phase,phase,Matrix.diagonal_mul_diagonal,← Matrix.diagonal_one]
  congr 1
  ext b
  cases b
  · exact one_mul 1
  · exact inv_mul_cancel₀ hz

structure Gate (Q : Type*) where
  matrix : QubitMatrix
  qubit : Q

def run (gates : List (Gate Q)) (ψ : Amplitudes Q) : Amplitudes Q :=
  gates.foldl (fun ψ g => apply g.matrix g.qubit ψ) ψ

theorem run_append (gates rest : List (Gate Q)) (ψ : Amplitudes Q) :
    run (gates++rest) ψ = run rest (run gates ψ) :=
  List.foldl_append

theorem run_injective {gates : List (Gate Q)} (h : ∀ g ∈ gates, ∃ n, n*g.matrix = 1) :
    Function.Injective (run gates) := by
  induction gates with
  | nil => exact fun _ _ h => h
  | cons g gates ih =>
    obtain ⟨n,hn⟩ := h g List.mem_cons_self
    exact (ih fun g hg => h g (List.mem_cons_of_mem _ hg)).comp (apply_injective hn g.qubit)

section Products

variable [Fintype Q]

def product (v : Q → Bool → ℂ) : Amplitudes Q :=
  fun b => ∏ q, v q (b q)

def zeroColumn : Bool → ℂ :=
  fun b => if b then 0 else 1

def ground : Amplitudes Q :=
  product fun _ => zeroColumn

theorem product_update (v : Q → Bool → ℂ) (q : Q) (w : Bool → ℂ) (b : Q → Bool) (c : Bool) :
    product (Function.update v q w) (Function.update b q c) =
      w c*∏ p ∈ Finset.univ.erase q, v p (b p) := by
  rw [product,← Finset.mul_prod_erase _ _ (Finset.mem_univ q),Function.update_self,
    Function.update_self]
  congr 1
  apply Finset.prod_congr rfl
  intro p hp
  have hne := Finset.ne_of_mem_erase hp
  rw [Function.update_of_ne hne,Function.update_of_ne hne]

theorem apply_product (m : QubitMatrix) (q : Q) (v : Q → Bool → ℂ) :
    apply m q (product v) = product (Function.update v q (m *ᵥ v q)) := by
  ext b
  have hold := product_update v q (v q) b
  have hnew := product_update v q (m *ᵥ v q) b (b q)
  rw [Function.update_eq_self] at hold hnew
  simp only [apply,hold,hnew,Matrix.mulVec,dotProduct,Fintype.sum_bool]
  ring

theorem hadamard_ground_ne (q : Q) : apply hadamard q ground ≠ ground := by
  intro h
  have hflip := congrFun h (Function.update (fun _ => false) q true)
  have hzero : (ground : Amplitudes Q) =
      product (Function.update (fun _ => zeroColumn) q zeroColumn) :=
    congrArg product (Function.update_eq_self q _).symm
  rw [ground,apply_product,product_update,← ground,hzero,product_update] at hflip
  simp [hadamard,signs,zeroColumn,Matrix.mulVec,dotProduct] at hflip

def columns (gates : List (Gate Q)) (v : Q → Bool → ℂ) : Q → Bool → ℂ :=
  gates.foldl (fun v g => Function.update v g.qubit (g.matrix *ᵥ v g.qubit)) v

theorem run_product (gates : List (Gate Q)) (v : Q → Bool → ℂ) :
    run gates (product v) = product (columns gates v) := by
  induction gates generalizing v with
  | nil => rfl
  | cons g gates ih =>
    show run gates (apply g.matrix g.qubit (product v)) = _
    rw [apply_product]
    exact ih _

end Products

end

end QubitAmplitudes
