import Mathlib.Data.BitVec
import Mathlib.Logic.Function.Basic
import Mathlib.Tactic

/-!
# Reference counts against a ledger of references

The ledger lists who holds a reference to what, once for every reference.
A table of counts tracks it when an object has a count exactly while some
reference to it is outstanding, and the count is their number modulo the
size of the counter. The four rules are those of a counted object: it is
created with one reference, taken again, given up, and destroyed at the last.
-/

set_option autoImplicit false

namespace RefLedger

variable {H O : Type*} {w : ℕ}

section
variable [DecidableEq H]

def holding (refs : List (H × O)) (h : H) : List (H × O) :=
  refs.filter (fun r => r.1 = h)

theorem mem_holding {refs : List (H × O)} {h : H} {p : O} :
    (h,p) ∈ holding refs h ↔ (h,p) ∈ refs := by
  simp [holding]

theorem holding_cons_self (refs : List (H × O)) (h : H) (p : O) :
    holding ((h,p)::refs) h = (h,p)::holding refs h := by
  simp [holding]

theorem holding_cons_ne (refs : List (H × O)) {h k : H} (hk : k ≠ h) (p : O) :
    holding ((k,p)::refs) h = holding refs h := by
  simp [holding,hk]

end

variable [DecidableEq O]

def outstanding (refs : List (H × O)) (o : O) : ℕ := refs.countP (fun r => r.2 = o)

structure Tracks (count : O → Option (BitVec w)) (refs : List (H × O)) : Prop where
  counted : ∀ o c, count o = some c → c = BitVec.ofNat w (outstanding refs o)
  live : ∀ o, (count o).isSome ↔ 0 < outstanding refs o

@[simp] theorem outstanding_nil (o : O) : outstanding ([] : List (H × O)) o = 0 := rfl

theorem outstanding_cons (h : H) (p : O) (refs : List (H × O)) (o : O) :
    outstanding ((h,p)::refs) o = outstanding refs o+if p = o then 1 else 0 := by
  simp [outstanding,List.countP_cons]

theorem outstanding_pos {h : H} {p : O} {refs : List (H × O)} (hm : (h,p) ∈ refs) :
    0 < outstanding refs p :=
  List.countP_pos_iff.mpr ⟨(h,p),hm,by simp⟩

theorem outstanding_erase [DecidableEq H] {h : H} {p : O} {refs : List (H × O)}
    (hm : (h,p) ∈ refs) (o : O) :
    outstanding (refs.erase (h,p)) o = outstanding refs o-if p = o then 1 else 0 := by
  simp [outstanding,List.countP_erase,hm]

theorem outstanding_cons_lt {n : ℕ} {refs : List (H × O)} (hf : ∀ o, outstanding refs o < n)
    (h : H) {p : O} (hp : outstanding refs p+1 < n) (o : O) :
    outstanding ((h,p)::refs) o < n := by
  have ho := hf o
  rw [outstanding_cons]
  split_ifs with he
  · subst he
    exact hp
  · exact ho

theorem outstanding_erase_lt [DecidableEq H] {n : ℕ} {refs : List (H × O)}
    (hf : ∀ o, outstanding refs o < n) {h : H} {p : O} (hm : (h,p) ∈ refs) (o : O) :
    outstanding (refs.erase (h,p)) o < n := by
  have ho := hf o
  rw [outstanding_erase hm]
  omega

def drop [DecidableEq H] (refs : List (H × O)) (h : H) (p : O) : List (H × O) := refs.erase (h,p)

theorem countP_drop [DecidableEq H] (refs : List (H × O)) (h : H) (p : O) (f : H × O → Bool) :
    (drop refs h p).countP f = refs.countP f-if (h,p) ∈ refs ∧ f (h,p) = true then 1 else 0 :=
  List.countP_erase f refs (h,p)

theorem mem_drop [DecidableEq H] {refs : List (H × O)} {h k : H} {p q : O}
    (hne : (k,q) ≠ (h,p)) : (k,q) ∈ drop refs h p ↔ (k,q) ∈ refs :=
  List.mem_erase_of_ne hne

theorem outstanding_drop [DecidableEq H] {h : H} {p : O} {refs : List (H × O)}
    (hm : (h,p) ∈ refs) (o : O) :
    outstanding (drop refs h p) o = outstanding refs o-if p = o then 1 else 0 :=
  outstanding_erase hm o

theorem holding_erase_self [DecidableEq H] (refs : List (H × O)) (h : H) (p : O) :
    holding (refs.erase (h,p)) h = drop (holding refs h) h p :=
  List.erase_filter.symm

theorem drop_single [DecidableEq H] (h : H) (p : O) : drop [(h,p)] h p = [] := by
  simp [drop]

theorem holding_erase_ne [DecidableEq H] (refs : List (H × O)) {h k : H} (hk : k ≠ h) (p : O) :
    holding (refs.erase (k,p)) h = holding refs h := by
  have he : holding (refs.erase (k,p)) h = (holding refs h).erase (k,p) := List.erase_filter.symm
  rw [he]
  apply List.erase_of_not_mem
  simp [holding,hk]

theorem erase_subset [DecidableEq H] (refs : List (H × O)) (h : H) (p : O) :
    refs.erase (h,p) ⊆ refs :=
  List.erase_subset

theorem Tracks.dead {count : O → Option (BitVec w)} {refs : List (H × O)}
    (ht : Tracks count refs) {p : O} (hp : count p = none) : outstanding refs p = 0 := by
  have hl := (ht.live p).not
  rw [hp] at hl
  simpa using hl

theorem tracks_create {count : O → Option (BitVec w)} {refs : List (H × O)}
    (ht : Tracks count refs) (h : H) {p : O} (hp : count p = none) :
    Tracks (Function.update count p (some 1)) ((h,p)::refs) := by
  have h0 := ht.dead hp
  constructor
  · intro o c ho
    rw [outstanding_cons]
    by_cases hop : o = p
    · subst o
      simp only [Function.update_self,Option.some.injEq] at ho
      simp [h0,← ho]
    · rw [Function.update_of_ne hop] at ho
      simpa [Ne.symm hop] using ht.counted o c ho
  · intro o
    rw [outstanding_cons]
    by_cases hop : o = p
    · subst o
      simp
    · simpa [Function.update_of_ne hop,Ne.symm hop] using ht.live o

theorem tracks_acquire {count : O → Option (BitVec w)} {refs : List (H × O)}
    (ht : Tracks count refs) (h : H) {p : O} {c : BitVec w} (hp : count p = some c) :
    Tracks (Function.update count p (some (c+1))) ((h,p)::refs) := by
  constructor
  · intro o d ho
    rw [outstanding_cons]
    by_cases hop : o = p
    · subst o
      simp only [Function.update_self,Option.some.injEq] at ho
      rw [← ho,ht.counted p c hp,if_pos rfl,BitVec.ofNat_add]
      rfl
    · rw [Function.update_of_ne hop] at ho
      simpa [Ne.symm hop] using ht.counted o d ho
  · intro o
    rw [outstanding_cons]
    by_cases hop : o = p
    · subst o
      simp
    · simpa [Function.update_of_ne hop,Ne.symm hop] using ht.live o

theorem tracks_release [DecidableEq H] {count : O → Option (BitVec w)} {refs : List (H × O)}
    (ht : Tracks count refs) {h : H} {p : O} {c : BitVec w} (hp : count p = some c)
    (hm : (h,p) ∈ refs) (hn : outstanding refs p ≠ 1) :
    Tracks (Function.update count p (some (c-1))) (refs.erase (h,p)) := by
  have hpos := outstanding_pos hm
  constructor
  · intro o d ho
    rw [outstanding_erase hm]
    by_cases hop : o = p
    · subst o
      simp only [Function.update_self,Option.some.injEq] at ho
      rw [← ho,ht.counted p c hp,if_pos rfl,BitVec.sub_eq_iff_eq_add,
        show (1 : BitVec w) = BitVec.ofNat w 1 from rfl,← BitVec.ofNat_add]
      congr 1
      omega
    · rw [Function.update_of_ne hop] at ho
      simpa [Ne.symm hop] using ht.counted o d ho
  · intro o
    rw [outstanding_erase hm]
    by_cases hop : o = p
    · subst o
      simp only [Function.update_self,Option.isSome_some,if_true,true_iff]
      omega
    · simpa [Function.update_of_ne hop,Ne.symm hop] using ht.live o

theorem tracks_destroy [DecidableEq H] {count : O → Option (BitVec w)} {refs : List (H × O)}
    (ht : Tracks count refs) {h : H} {p : O} (hm : (h,p) ∈ refs)
    (hn : outstanding refs p = 1) :
    Tracks (Function.update count p none) (refs.erase (h,p)) := by
  constructor
  · intro o d ho
    rw [outstanding_erase hm]
    by_cases hop : o = p
    · subst o
      simp at ho
    · rw [Function.update_of_ne hop] at ho
      simpa [Ne.symm hop] using ht.counted o d ho
  · intro o
    rw [outstanding_erase hm]
    by_cases hop : o = p
    · subst o
      simp [hn]
    · simpa [Function.update_of_ne hop,Ne.symm hop] using ht.live o

/-- Decrementing reaches zero when the number of references is one modulo the
size of the counter. -/
theorem Tracks.zero_iff {count : O → Option (BitVec w)} {refs : List (H × O)}
    (ht : Tracks count refs) {p : O} {c : BitVec w} (hp : count p = some c) :
    c-1 = 0 ↔ outstanding refs p%2^w = 1%2^w := by
  rw [ht.counted p c hp,BitVec.sub_eq_iff_eq_add,zero_add]
  constructor
  · intro h
    simpa using congrArg BitVec.toNat h
  · intro h
    apply BitVec.eq_of_toNat_eq
    simpa using h

/-- While the references fit the counter, decrementing reaches zero exactly
at the last one. -/
theorem Tracks.last_iff {count : O → Option (BitVec w)} {refs : List (H × O)}
    (ht : Tracks count refs) {p : O} {c : BitVec w} (hp : count p = some c)
    (hb : outstanding refs p ≤ 2^w) : c-1 = 0 ↔ outstanding refs p = 1 := by
  have hl : 0 < outstanding refs p := (ht.live p).mp (by simp [hp])
  have hw : 0 < 2^w := Nat.two_pow_pos w
  rw [ht.zero_iff hp]
  constructor
  · intro h
    have hle := Nat.mod_le 1 (2^w)
    rcases hb.lt_or_eq with hlt | heq
    · rw [Nat.mod_eq_of_lt hlt] at h
      omega
    · rw [heq,Nat.mod_self] at h
      have hone := Nat.dvd_one.mp (Nat.dvd_of_mod_eq_zero h.symm)
      omega
  · intro h
    rw [h]

theorem Tracks.toInt {count : O → Option (BitVec 32)} {refs : List (H × O)}
    (ht : Tracks count refs) {p : O} {c : BitVec 32} (hp : count p = some c)
    (hb : outstanding refs p < 2^31) : c.toInt = outstanding refs p := by
  have hn : (BitVec.ofNat 32 (outstanding refs p)).toNat = outstanding refs p := by
    rw [BitVec.toNat_ofNat,Nat.mod_eq_of_lt (by omega)]
  rw [ht.counted p c hp,BitVec.toInt_eq_toNat_of_lt (by omega),hn]

end RefLedger
