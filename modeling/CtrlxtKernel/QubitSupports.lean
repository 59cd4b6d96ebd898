import CtrlxtKernel.BasisRegisters
import CtrlxtKernel.QubitAmplitudes

/-!
# Which basis states have an amplitude

Qubits are named by a register and a number. Pauli gates, CNOT and the
measurement of a register only move, weigh and select amplitudes, so the basis
states that are left can be followed without the amplitudes. A register is
definite when they all agree on its word.
-/

set_option autoImplicit false

namespace QubitAmplitudes
noncomputable section
open BasisRegisters

variable {Q : Type*} [DecidableEq Q]

def flipBit (q : Q) (b : Q → Bool) : Q → Bool := Function.update b q (!b q)

def addBit (p q : Q) (b : Q → Bool) : Q → Bool := Function.update b q (b q ^^ b p)

inductive Pauli where
  | x
  | y
  | z
  deriving DecidableEq

def Pauli.matrix : Pauli → QubitMatrix
  | .x => fun a b => if a = b then 0 else 1
  | .y => fun a b => if a = b then 0 else if a then Complex.I else -Complex.I
  | .z => phase (-1)

def Pauli.source (p : Pauli) (q : Q) (b : Q → Bool) : Q → Bool :=
  if p = .z then b else flipBit q b

def cnot (p q : Q) (ψ : Amplitudes Q) : Amplitudes Q := fun b => ψ (addBit p q b)

theorem apply_diagonal (v : Bool → ℂ) (q : Q) (ψ : Amplitudes Q) (b : Q → Bool) :
    apply (Matrix.diagonal v) q ψ b = v (b q)*ψ b := by
  rw [apply,Finset.sum_eq_single (b q)]
  · rw [Matrix.diagonal_apply_eq,Function.update_eq_self]
  · intro c _ hc
    rw [Matrix.diagonal_apply_ne _ (Ne.symm hc),zero_mul]
  · exact fun h => absurd (Finset.mem_univ _) h

theorem apply_offDiagonal {m : QubitMatrix} (hm : ∀ a, m a a = 0) (q : Q) (ψ : Amplitudes Q)
    (b : Q → Bool) : apply m q ψ b = m (b q) (!b q)*ψ (flipBit q b) := by
  have hself := hm (b q)
  rw [apply,Fintype.sum_bool,flipBit]
  cases hb : b q <;> simp only [hb] at hself ⊢ <;> simp [hself]

theorem pauli_support (p : Pauli) (q : Q) (ψ : Amplitudes Q) (b : Q → Bool) :
    apply p.matrix q ψ b ≠ 0 ↔ ψ (p.source q b) ≠ 0 := by
  cases p with
  | x =>
    rw [apply_offDiagonal (by simp [Pauli.matrix])]
    simp [Pauli.matrix,Pauli.source]
  | y =>
    rw [apply_offDiagonal (by simp [Pauli.matrix])]
    cases hb : b q <;> simp [Pauli.matrix,Pauli.source,Complex.I_ne_zero]
  | z =>
    rw [Pauli.matrix,phase,apply_diagonal]
    cases hb : b q <;> simp [Pauli.source]

theorem flipBit_flipBit (q : Q) (b : Q → Bool) : flipBit q (flipBit q b) = b := by
  simp [flipBit]

theorem pauli_ne_zero (p : Pauli) (q : Q) {ψ : Amplitudes Q} (h : ∃ b, ψ b ≠ 0) :
    ∃ b, apply p.matrix q ψ b ≠ 0 := by
  obtain ⟨b,hb⟩ := h
  refine ⟨p.source q b,(pauli_support p q ψ _).mpr ?_⟩
  have hback : p.source q (p.source q b) = b := by
    unfold Pauli.source
    split_ifs
    · rfl
    · exact flipBit_flipBit q b
  rw [hback]
  exact hb

section Registers

variable {R : Type*} [DecidableEq R] {n : ℕ}

def wordOf (n : ℕ) (r : R) (b : R × ℕ → Bool) : BitVec n := Bits.word n fun i => b (r,i)

def Definite (n : ℕ) (ψ : Amplitudes (R × ℕ)) (r : R) (d : BitVec n) : Prop :=
  ∀ b, ψ b ≠ 0 → wordOf n r b = d

def select (n : ℕ) (r : R) (m : BitVec n) (ψ : Amplitudes (R × ℕ)) : Amplitudes (R × ℕ) :=
  fun b => if wordOf n r b = m then ψ b else 0

/-- CNOT from each of the first qubits of a register to the same qubit of another. -/
def copy (r s : R) (k : ℕ) (ψ : Amplitudes (R × ℕ)) : Amplitudes (R × ℕ) :=
  (List.range k).foldl (fun ψ q => cnot (r,q) (s,q) ψ) ψ

theorem wordOf_flipBit (r : R) (q : ℕ) (b : R × ℕ → Bool) :
    wordOf n r (flipBit (r,q) b) = wordOf n r b ^^^ BitVec.twoPow n q := by
  rw [wordOf,wordOf,← word_flip]
  congr 1
  ext i
  by_cases hi : i = q
  · subst i
    simp [flipBit,Bits.flip]
  · simp [flipBit,Bits.flip,hi]

theorem wordOf_ne {r s : R} (hrs : r ≠ s) (q : ℕ) (v : Bool) (b : R × ℕ → Bool) :
    wordOf n r (Function.update b (s,q) v) = wordOf n r b := by
  rw [wordOf,wordOf]
  congr 1
  ext i
  simp [hrs]

def addBits (r s : R) (k : ℕ) (b : R × ℕ → Bool) : R × ℕ → Bool :=
  fun p => if p.1 = s ∧ p.2 < k then b p ^^ b (r,p.2) else b p

theorem copy_apply {r s : R} (hrs : r ≠ s) (k : ℕ) (ψ : Amplitudes (R × ℕ)) (b : R × ℕ → Bool) :
    copy r s k ψ b = ψ (addBits r s k b) := by
  induction k generalizing b with
  | zero => exact congrArg ψ (funext fun p => by simp [addBits])
  | succ k ih =>
    rw [copy,List.range_succ,List.foldl_append]
    show copy r s k ψ (addBit (r,k) (s,k) b) = _
    rw [ih]
    congr 1
    ext ⟨p,i⟩
    by_cases hp : p = s
    · subst p
      by_cases hi : i = k
      · subst i
        simp [addBits,addBit]
      · have hlt : i < k+1 ↔ i < k := by omega
        simp [addBits,addBit,hi,hlt,hrs]
    · simp [addBits,addBit,hp]

theorem wordOf_addBits {r s : R} (hrs : r ≠ s) (b : R × ℕ → Bool) :
    wordOf n s (addBits r s n b) = wordOf n s b ^^^ wordOf n r b ∧
      wordOf n r (addBits r s n b) = wordOf n r b := by
  constructor
  · rw [wordOf,wordOf,wordOf,← word_xor]
    apply BitVec.eq_of_getElem_eq
    intro i hi
    rw [word_getElem,word_getElem]
    simp [addBits,hi]
  · rw [wordOf,wordOf]
    congr 1
    ext i
    simp [addBits,hrs]

theorem addBits_addBits {r s : R} (hrs : r ≠ s) (k : ℕ) (b : R × ℕ → Bool) :
    addBits r s k (addBits r s k b) = b := by
  ext ⟨p,i⟩
  by_cases hp : p = s ∧ i < k
  · simp [addBits,hp,hrs]
  · simp [addBits,hp]

theorem copy_ne_zero {r s : R} (hrs : r ≠ s) (k : ℕ) {ψ : Amplitudes (R × ℕ)}
    (h : ∃ b, ψ b ≠ 0) : ∃ b, copy r s k ψ b ≠ 0 := by
  obtain ⟨b,hb⟩ := h
  exact ⟨addBits r s k b,by rw [copy_apply hrs,addBits_addBits hrs]; exact hb⟩

omit [DecidableEq R] in
theorem select_ne_zero (n : ℕ) (r : R) {ψ : Amplitudes (R × ℕ)} (h : ∃ b, ψ b ≠ 0) :
    ∃ m b, select n r m ψ b ≠ 0 := by
  obtain ⟨b,hb⟩ := h
  exact ⟨wordOf n r b,b,by rw [select,if_pos rfl]; exact hb⟩

def Pauli.mask (p : Pauli) (q : ℕ) : BitVec n := if p = .z then 0 else BitVec.twoPow n q

theorem definite_pauli {ψ : Amplitudes (R × ℕ)} {r : R} {d : BitVec n} (h : Definite n ψ r d)
    (p : Pauli) (q : ℕ) : Definite n (apply p.matrix (r,q) ψ) r (d ^^^ p.mask q) := by
  intro b hb
  have hword := h _ ((pauli_support p (r,q) ψ b).mp hb)
  unfold Pauli.source at hword
  unfold Pauli.mask
  split_ifs at hword ⊢
  · simpa using hword
  · rw [wordOf_flipBit] at hword
    rw [← hword,BitVec.xor_assoc,BitVec.xor_self,BitVec.xor_zero]

theorem definite_pauli_ne {ψ : Amplitudes (R × ℕ)} {r s : R} {d : BitVec n} (hrs : r ≠ s)
    (h : Definite n ψ r d) (p : Pauli) (q : ℕ) : Definite n (apply p.matrix (s,q) ψ) r d := by
  intro b hb
  have hword := h _ ((pauli_support p (s,q) ψ b).mp hb)
  unfold Pauli.source at hword
  split_ifs at hword
  · exact hword
  · rw [flipBit,wordOf_ne hrs] at hword
    exact hword

/-- Copying the qubits of a register onto a definite one and finding a word there
leaves both registers definite. -/
theorem definite_select_copy {ψ : Amplitudes (R × ℕ)} {r s : R} {a : BitVec n} (hrs : r ≠ s)
    (h : Definite n ψ s a) (m : BitVec n) :
    Definite n (select n s m (copy r s n ψ)) r (a ^^^ m) ∧
      Definite n (select n s m (copy r s n ψ)) s m := by
  have hboth : ∀ b, select n s m (copy r s n ψ) b ≠ 0 →
      wordOf n r b = a ^^^ m ∧ wordOf n s b = m := by
    intro b hb
    unfold select at hb
    split_ifs at hb with hm
    · rw [copy_apply hrs] at hb
      have hword := h _ hb
      rw [(wordOf_addBits hrs b).1,hm] at hword
      rw [← hword,BitVec.xor_comm m,BitVec.xor_assoc,BitVec.xor_self,BitVec.xor_zero]
      exact ⟨rfl,hm⟩
    · exact absurd rfl hb
  exact ⟨fun b hb => (hboth b hb).1,fun b hb => (hboth b hb).2⟩

/-- The basis states that are left are, outside of the register `s`, states that were
possible and have the word `m` in the register `r`. -/
def Finds (n : ℕ) (r s : R) (m : BitVec n) (ψ φ : Amplitudes (R × ℕ)) : Prop :=
  ∀ b, φ b ≠ 0 → ∃ c, select n r m ψ c ≠ 0 ∧ ∀ p q, p ≠ s → c (p,q) = b (p,q)

omit [DecidableEq R] in
theorem Finds.definite {ψ φ : Amplitudes (R × ℕ)} {p r s : R} {m d : BitVec n}
    (h : Finds n r s m ψ φ) (hp : p ≠ s) (hd : Definite n (select n r m ψ) p d) :
    Definite n φ p d := by
  intro b hb
  obtain ⟨c,hc,hsame⟩ := h b hb
  have hword : wordOf n p c = wordOf n p b := by
    rw [wordOf,wordOf]
    congr 1
    ext i
    rw [hsame p i hp]
  rw [← hword]
  exact hd c hc

end Registers

end

end QubitAmplitudes
