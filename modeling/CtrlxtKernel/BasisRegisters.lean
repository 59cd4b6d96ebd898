import Mathlib.Data.BitVec
import Mathlib.Logic.Function.Basic
import Mathlib.Tactic

/-!
# Registers of qubits in computational basis states

A register that is in a basis state is a sequence of bits; one that is not has
no reading. X flips a bit. CNOT flips the target bit when the control bit is
set. Applied qubit by qubit from one register to another, it adds the word of
the first to the word of the second.
-/

set_option autoImplicit false

namespace BasisRegisters

variable {I : Type*} [DecidableEq I]

abbrev Bits := ℕ → Bool

def Bits.flip (b : Bits) (q : ℕ) : Bits := Function.update b q (!b q)

/-- The bits of the first `n` qubits, the first one lowest. -/
def Bits.word : (n : ℕ) → Bits → BitVec n
  | 0, _ => 0
  | n+1, b => BitVec.cons (b n) (b.word n)

def Bits.low (k : ℕ) (b : Bits) : Bits := fun i => b i && decide (i < k)

abbrev Registers (I : Type*) := I → Option Bits

def Registers.flip (R : Registers I) (r : I) (q : ℕ) : Registers I :=
  Function.update R r ((R r).map (fun b => b.flip q))

def Registers.cnot (R : Registers I) (r : I) (q : ℕ) (s : I) (p : ℕ) : Registers I :=
  if (R r).any (fun b => b q) then R.flip s p else R

/-- CNOT from each of the qubits to the same qubit of the other register. -/
def Registers.spread (R : Registers I) (r s : I) (n : ℕ) : Registers I :=
  (List.range n).foldl (fun R q => R.cnot r q s q) R

theorem word_getElem (n : ℕ) (b : Bits) (i : ℕ) (hi : i < n) : (b.word n)[i] = b i := by
  induction n with
  | zero => omega
  | succ n ih =>
    rw [Bits.word,BitVec.getElem_cons]
    split_ifs with he
    · rw [he]
    · exact ih (by omega)

theorem word_flip (n : ℕ) (b : Bits) (q : ℕ) :
    (b.flip q).word n = b.word n ^^^ BitVec.twoPow n q := by
  apply BitVec.eq_of_getElem_eq
  intro i hi
  rw [BitVec.getElem_xor,word_getElem,word_getElem,BitVec.getElem_twoPow]
  by_cases hq : i = q
  · subst i
    simp [Bits.flip]
  · simp [Bits.flip,hq]

theorem word_xor (n : ℕ) (b e : Bits) :
    Bits.word n (fun i => e i ^^ b i) = e.word n ^^^ b.word n := by
  apply BitVec.eq_of_getElem_eq
  intro i hi
  rw [BitVec.getElem_xor,word_getElem,word_getElem,word_getElem]

theorem word_low (n : ℕ) (b : Bits) : (b.low n).word n = b.word n := by
  apply BitVec.eq_of_getElem_eq
  intro i hi
  rw [word_getElem,word_getElem]
  simp [Bits.low,hi]

theorem flip_self {R : Registers I} {r : I} {b : Bits} (hr : R r = some b) (q : ℕ) :
    R.flip r q r = some (b.flip q) := by
  simp [Registers.flip,hr]

theorem flip_ne (R : Registers I) {r s : I} (hs : s ≠ r) (q : ℕ) : R.flip r q s = R s :=
  Function.update_of_ne hs _ _

theorem cnot_ne (R : Registers I) {r s k : I} (hk : k ≠ s) (q p : ℕ) :
    R.cnot r q s p k = R k := by
  unfold Registers.cnot
  split
  · exact flip_ne R hk p
  · rfl

theorem cnot_target {R : Registers I} {r s : I} {b e : Bits} (hr : R r = some b)
    (hs : R s = some e) (q p : ℕ) :
    R.cnot r q s p s = some (Function.update e p (e p ^^ b q)) := by
  cases hb : b q with
  | true => simp [Registers.cnot,hr,hb,flip_self hs,Bits.flip]
  | false => simp [Registers.cnot,hr,hb,hs]

theorem spread_succ (R : Registers I) (r s : I) (n : ℕ) :
    R.spread r s (n+1) = (R.spread r s n).cnot r n s n := by
  simp [Registers.spread,List.range_succ]

theorem spread_ne (R : Registers I) {r s k : I} (hk : k ≠ s) (n : ℕ) :
    R.spread r s n k = R k := by
  induction n with
  | zero => rfl
  | succ n ih => rw [spread_succ,cnot_ne _ hk,ih]

theorem spread_target {R : Registers I} {r s : I} {b e : Bits} (hrs : r ≠ s)
    (hr : R r = some b) (hs : R s = some e) (n : ℕ) :
    R.spread r s n s = some (fun i => if i < n then e i ^^ b i else e i) := by
  induction n with
  | zero => simpa [Registers.spread] using hs
  | succ n ih =>
    have hrn : R.spread r s n r = some b := (spread_ne R hrs n).trans hr
    rw [spread_succ,cnot_target hrn ih]
    congr 1
    ext i
    by_cases hi : i = n
    · subst i
      simp
    · have hlt : i < n+1 ↔ i < n := by omega
      simp only [Function.update_of_ne hi,hlt]

theorem spread_low {R : Registers I} {r s : I} {b e : Bits} (hrs : r ≠ s)
    (hr : R r = some b) (hs : R s = some e) (n : ℕ) :
    R.spread r s n s = some (fun i => e i ^^ b.low n i) := by
  rw [spread_target hrs hr hs]
  congr 1
  ext i
  by_cases hi : i < n <;> simp [Bits.low,hi]

theorem spread_word {R : Registers I} {r s : I} {b e : Bits} (hrs : r ≠ s)
    (hr : R r = some b) (hs : R s = some e) (n : ℕ) :
    ∃ f, R.spread r s n s = some f ∧ f.word n = e.word n ^^^ b.word n := by
  refine ⟨_,spread_low hrs hr hs n,?_⟩
  rw [word_xor,word_low]

end BasisRegisters
