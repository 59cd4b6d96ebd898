import Mathlib.Data.BitVec
import Mathlib.Tactic

/-!
# The integers of a C program

An `int` is a word of 32 bits; `size_t`, `unsigned long` and pointers are
words of the width of the target. Addition and subtraction are those of the
words. The lemmas say when the words compute the integers they stand for.
-/

set_option autoImplicit false

namespace MachineInt

inductive Target where
  | bits32
  | bits64
  deriving DecidableEq, Repr

def Target.width : Target → ℕ
  | .bits32 => 32
  | .bits64 => 64

abbrev ULong (t : Target) := BitVec t.width

abbrev CInt := BitVec 32

def intMax : ℕ := 2^31-1

def widen (t : Target) (a : CInt) : ULong t := a.signExtend t.width

def narrow {t : Target} (n : ULong t) : CInt := n.setWidth 32

/-- The division of two `int`s traps when the quotient is not an `int`. -/
def intDiv (a b : CInt) : Option CInt :=
  if b = 0 ∨ (a = BitVec.intMin 32 ∧ b = -1) then none else some (a.sdiv b)

theorem width_ge (t : Target) : 32 ≤ t.width := by
  cases t <;> decide

theorem two_pow_width (t : Target) : 2^32 ≤ 2^t.width :=
  Nat.pow_le_pow_right (by decide) (width_ge t)

theorem int_bounds (a : CInt) : -2^31 ≤ a.toInt ∧ a.toInt < 2^31 :=
  ⟨a.le_toInt,a.toInt_lt⟩

theorem add_toInt (a b : CInt) (hl : -2^31 ≤ a.toInt+b.toInt)
    (hu : a.toInt+b.toInt < 2^31) : (a+b).toInt = a.toInt+b.toInt := by
  rw [BitVec.toInt_add]
  apply Int.bmod_eq_of_le <;> omega

theorem sub_toInt (a b : CInt) (hl : -2^31 ≤ a.toInt-b.toInt)
    (hu : a.toInt-b.toInt < 2^31) : (a-b).toInt = a.toInt-b.toInt := by
  rw [BitVec.toInt_sub]
  apply Int.bmod_eq_of_le <;> omega

theorem succ_toInt {a : CInt} {n : ℕ} (ha : a.toInt = n) (hn : n < intMax) :
    (a+1).toInt = (n+1 : ℕ) := by
  have hone : (1 : CInt).toInt = 1 := rfl
  unfold intMax at hn
  rw [add_toInt _ _ (by omega) (by omega),ha,hone]
  push_cast
  rfl

theorem pred_toInt {a : CInt} {n : ℕ} (ha : a.toInt = n) (hn : 0 < n) :
    (a-1).toInt = (n-1 : ℕ) := by
  have hbound := (int_bounds a).2
  have hone : (1 : CInt).toInt = 1 := rfl
  rw [sub_toInt _ _ (by omega) (by omega),ha,hone]
  omega

theorem ofNat_toInt {n : ℕ} (h : n < 2^31) : (BitVec.ofNat 32 n : CInt).toInt = n := by
  have hn : (BitVec.ofNat 32 n).toNat = n := by
    rw [BitVec.toNat_ofNat,Nat.mod_eq_of_lt (by omega)]
  rw [BitVec.toInt_eq_toNat_of_lt (by omega),hn]

theorem toNat_of_nonneg (a : CInt) (h : 0 ≤ a.toInt) : (a.toNat:ℤ) = a.toInt := by
  have hm : a.msb = false := by
    rw [BitVec.msb_eq_toInt]
    simpa using h
  exact (BitVec.toInt_eq_toNat_of_msb hm).symm

theorem widen_toNat (t : Target) (a : CInt) (h : 0 ≤ a.toInt) :
    ((widen t a).toNat:ℤ) = a.toInt := by
  have hm : a.msb = false := by
    rw [BitVec.msb_eq_toInt]
    simpa using h
  have hw := two_pow_width t
  have hlt := a.isLt
  rw [widen, BitVec.signExtend_eq_setWidth_of_msb_false hm, BitVec.toNat_setWidth,
    Nat.mod_eq_of_lt (by omega)]
  exact toNat_of_nonneg a h

theorem narrow_toInt {t : Target} (n : ULong t) (h : n.toNat ≤ intMax) :
    (narrow n).toInt = n.toNat := by
  unfold intMax at h
  rw [narrow, BitVec.toInt_setWidth]
  apply Int.bmod_eq_of_le <;> omega

theorem add_narrow {t : Target} {a : CInt} {n : ULong t} (hn : n.toNat ≤ intMax)
    (ha : 0 ≤ a.toInt) (hu : a.toInt+n.toNat < 2^31) :
    (a+narrow n).toInt = a.toInt+n.toNat := by
  have hnar := narrow_toInt n hn
  rw [add_toInt _ _ (by omega) (by omega),hnar]

theorem sub_narrow {t : Target} {a : CInt} {n : ULong t} (hn : n.toNat ≤ intMax)
    (ha : n.toNat ≤ a.toInt) : (a-narrow n).toInt = a.toInt-n.toNat := by
  have hnar := narrow_toInt n hn
  have hbound := (int_bounds a).2
  rw [sub_toInt _ _ (by omega) (by omega),hnar]

theorem add_toNat {t : Target} (a b : ULong t) (h : a.toNat+b.toNat < 2^t.width) :
    (a+b).toNat = a.toNat+b.toNat := by
  rw [BitVec.toNat_add, Nat.mod_eq_of_lt h]

theorem sub_toNat {t : Target} (a b : ULong t) (h : b.toNat ≤ a.toNat) :
    (a-b).toNat = a.toNat-b.toNat :=
  BitVec.toNat_sub_of_le h

theorem intDiv_pos (a : CInt) {b : CInt} (hb : 0 < b.toInt) :
    intDiv a b = some (a.sdiv b) ∧ (a.sdiv b).toInt = a.toInt.tdiv b.toInt := by
  have hne : b ≠ 0 := by
    rintro rfl
    exact absurd hb (by decide)
  have hone : b ≠ -1 := by
    rintro rfl
    exact absurd hb (by decide)
  constructor
  · rw [intDiv,if_neg (fun h => h.elim hne (fun h => hone h.2))]
  · exact BitVec.toInt_sdiv_of_ne_or_ne a b (Or.inr hone)

theorem toNat_le_iff (a : CInt) {n : ℕ} (hn : n < 2^31) :
    a.toNat ≤ n ↔ 0 ≤ a.toInt ∧ a.toInt ≤ n := by
  have hcases := BitVec.toInt_eq_toNat_cond a
  have hlt := a.isLt
  split_ifs at hcases <;> omega

theorem tdiv_between {p e : ℤ} (n : ℕ) (he : 0 < e) (hp : p ≤ n*e) :
    (0 ≤ p.tdiv e ∧ p.tdiv e ≤ n) ↔ -e < p := by
  by_cases h0 : 0 ≤ p
  · have hq : p.tdiv e = p/e := Int.tdiv_eq_ediv_of_nonneg h0
    have hle : p/e ≤ n := Int.ediv_le_of_le_mul he hp
    have hge : 0 ≤ p/e := Int.ediv_nonneg h0 he.le
    rw [hq]
    exact iff_of_true ⟨hge,hle⟩ (by omega)
  · have hq : p.tdiv e = -((-p)/e) := by
      rw [← Int.tdiv_eq_ediv_of_nonneg (by omega),Int.neg_tdiv,neg_neg]
    have hge : 0 ≤ (-p)/e := Int.ediv_nonneg (by omega) he.le
    have hlt : (-p)/e < 1 ↔ -p < e := by
      rw [Int.ediv_lt_iff_lt_mul he,one_mul]
    rw [hq]
    omega

end MachineInt
