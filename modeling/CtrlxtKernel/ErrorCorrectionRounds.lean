import CtrlxtKernel.RepetitionCode
import Mathlib.Dynamics.PeriodicPts.Defs

/-!
# Rounds of error correction lose nothing

A round on the words of the data and of the ancilla can be undone, whatever was
disturbed. So a round never makes two errors the same, and rounds that nothing
disturbs lead back to where they began.
-/

set_option autoImplicit false

namespace CtrlxtKernel.ErrorCorrection
open MachineInt ObjectHeap StepMachine BasisRegisters

variable {t : Target} {W : Type*} {L : QuantumLayer t W}

abbrev Words := BitVec 3 × BitVec 3

def unround (f : Option (Fin 3)) (v : Words) : Words :=
  let data := v.1 ^^^ corrected v.2
  (data ^^^ noiseMask f,v.2 ^^^ data)

theorem unround_wordRound (f : Option (Fin 3)) (v : Words) : unround f (wordRound v f) = v := by
  simp [unround,wordRound,BitVec.xor_assoc]

theorem wordRound_injective (f : Option (Fin 3)) : Function.Injective (fun v => wordRound v f) :=
  (show Function.LeftInverse (unround f) (fun v => wordRound v f) from
    unround_wordRound f).injective

theorem wordRounds_injective (flips : List (Option (Fin 3))) :
    Function.Injective (fun v : Words => flips.foldl wordRound v) := by
  induction flips with
  | nil => exact fun _ _ h => h
  | cons f flips ih => exact ih.comp (wordRound_injective f)

theorem rounds_refine {laws : BasisLaws L} {r : ℕ} {s u : QecState W} {v : Words}
    {flips : List (Option (Fin 3))} (h : Run (rounds laws r) s flips u)
    (hs : Refines laws r s v) : Refines laws r u (flips.foldl wordRound v) := by
  induction h generalizing v with
  | nil => exact hs
  | cons he hm _ ih => exact ih (round_refines laws hs he hm)

theorem refines_unique {laws : BasisLaws L} {r : ℕ} {s : QecState W} {v w : Words}
    (hv : Refines laws r s v) (hw : Refines laws r s w) : v = w := by
  obtain ⟨-,x,y,hx,-,-,-,-,b,e,hb,he,hd,ha⟩ := hv
  obtain ⟨-,x',y',hx',-,-,-,-,b',e',hb',he',hd',ha'⟩ := hw
  obtain rfl : x = x' := Ptr.obj.inj (hx.symm.trans hx')
  obtain rfl : b = b' := Option.some.inj (hb.symm.trans hb')
  obtain rfl : e = e' := Option.some.inj (he.symm.trans he')
  exact Prod.ext (hd.symm.trans hd') (ha.symm.trans ha')

def quiet (v : Words) : Words := wordRound v none

def quietPeriod : ℕ := 420

theorem quiet_cycle (d a : BitVec 3) :
    ∃ k ∈ [4,6,7,10], Function.IsPeriodicPt quiet k (d,a) := by
  have h : ∀ d a : BitVec 3, ∃ k ∈ [4,6,7,10], quiet^[k] (d,a) = (d,a) := by decide
  exact h d a

theorem quiet_period (v : Words) (k : ℕ) : quiet^[quietPeriod*k] v = v := by
  obtain ⟨n,hn,hcycle⟩ := quiet_cycle v.1 v.2
  have hdvd : n ∣ quietPeriod := by
    have hall : ∀ n ∈ [4,6,7,10], n ∣ quietPeriod := by decide
    exact hall n hn
  exact hcycle.trans_dvd (hdvd.mul_right k)

theorem foldl_quiet (v : Words) (n : ℕ) :
    (List.replicate n none).foldl wordRound v = quiet^[n] v := by
  induction n generalizing v with
  | zero => rfl
  | succ n ih => exact ih (quiet v)

/-- Rounds with the same disturbances never lead from different words to the
same ones, and every `quietPeriod` rounds without a disturbance give the
register and the ancilla back the words they had. -/
theorem rounds_reversible (laws : BasisLaws L) {r : ℕ} {s u s' u' : QecState W} {v v' : Words}
    (hs : Refines laws r s v) (hs' : Refines laws r s' v') {flips : List (Option (Fin 3))}
    (h : Run (rounds laws r) s flips u) (h' : Run (rounds laws r) s' flips u') :
    ((∃ w, Refines laws r u w ∧ Refines laws r u' w) ↔ v = v') ∧
      ∀ k, flips = List.replicate (quietPeriod*k) none → Refines laws r u v := by
  have hu := rounds_refine h hs
  have hu' := rounds_refine h' hs'
  refine ⟨⟨?_,?_⟩,?_⟩
  · rintro ⟨w,hw,hw'⟩
    apply wordRounds_injective flips
    exact (refines_unique hu hw).trans (refines_unique hu' hw').symm
  · rintro rfl
    exact ⟨_,hu,hu'⟩
  · rintro k rfl
    rw [foldl_quiet,quiet_period] at hu
    exact hu

theorem initialised_refines (c : Bool) :
    Refines bitLaws 9 (initialised c) (codeword c,0) := by
  have hinit : ctrlxtQecInit bitLayer (idle c) true true = some (initialised c,0) := rfl
  exact prepared_refines hinit (initialised_sized c) (initialised_prepared c)

theorem rounds_reversible_ones :
    ∃ u u', Run (rounds bitLaws 9) (initialised true) [some 2,none] u ∧
      Run (rounds bitLaws 9) (initialised false) [some 2,none] u' ∧
      ¬∃ w, Refines bitLaws 9 u w ∧ Refines bitLaws 9 u' w := by
  have h : ∀ c, ∃ u, Run (rounds bitLaws 9) (initialised c) [some 2,none] u := by
    intro c
    cases c <;> exact ⟨_,run_iff_exec.mpr rfl⟩
  obtain ⟨u,hu⟩ := h true
  obtain ⟨u',hu'⟩ := h false
  have hwords := (rounds_reversible bitLaws (initialised_refines true) (initialised_refines false)
    hu hu').1
  exact ⟨u,u',hu,hu',fun hsame => absurd (hwords.mp hsame) (by decide)⟩

def HoldsWord (laws : BasisLaws L) (r : ℕ) (d : BitVec 3) (s : QecState W) : Prop :=
  ∃ b, laws.reading s.world r = some b ∧ b.word 3 = d

def Keeps (laws : BasisLaws L) (r : ℕ) (d : BitVec 3) (s : QecState W) (f : Option (Fin 3)) :
    Prop :=
  ∀ u, (rounds laws r).step s f = some u → HoldsWord laws r d u

theorem holdsWord_iff {laws : BasisLaws L} {r : ℕ} {s : QecState W} {v : Words}
    (hs : Refines laws r s v) (d : BitVec 3) : HoldsWord laws r d s ↔ v.1 = d := by
  obtain ⟨-,x,y,-,-,-,-,-,b,e,hb,-,hword,-⟩ := hs
  constructor
  · rintro ⟨b',hb',hd⟩
    obtain rfl : b = b' := Option.some.inj (hb.symm.trans hb')
    exact hword.symm.trans hd
  · exact fun hd => ⟨b,hb,hword.trans hd⟩

theorem keeps_cons {laws : BasisLaws L} {r : ℕ} {d : BitVec 3} {s m : QecState W}
    {f : Option (Fin 3)} {fs : List (Option (Fin 3))} {v : Words} (hs : Refines laws r s v)
    (he : (rounds laws r).enabled s f) (hm : (rounds laws r).step s f = some m) :
    Always (rounds laws r) (Keeps laws r d) s (f::fs) ↔
      (wordRound v f).1 = d ∧ Always (rounds laws r) (Keeps laws r d) m fs := by
  have hkeeps : Keeps laws r d s f ↔ HoldsWord laws r d m := by
    constructor
    · exact fun h => h m hm
    · intro h k hk
      obtain rfl : m = k := Option.some.inj (hm.symm.trans hk)
      exact h
  rw [always_cons hm,hkeeps,holdsWord_iff (round_refines laws hs he hm)]

def Harmless (a : BitVec 3) : Prop := corrected a = 0

instance (a : BitVec 3) : Decidable (Harmless a) :=
  inferInstanceAs (Decidable (corrected a = 0))

theorem quiet_harmless {d a : BitVec 3} (hd : Harmless (a ^^^ d)) : quiet (d,a) = (d,a ^^^ d) := by
  have hzero : corrected (a ^^^ d) = 0 := hd
  simp [quiet,wordRound,noiseMask,hzero]

theorem quiet_kept_iff (d a : BitVec 3) : (quiet (d,a)).1 = d ↔ Harmless (a ^^^ d) := by
  have h : ∀ d a : BitVec 3, (quiet (d,a)).1 = d ↔ Harmless (a ^^^ d) := by decide
  exact h d a

theorem harmless_kept {laws : BasisLaws L} {r : ℕ} {s u : QecState W} {d a : BitVec 3} {n : ℕ}
    (h : Run (rounds laws r) s (List.replicate n none) u) (hs : Refines laws r s (d,a))
    (ha : Harmless a) (hd : Harmless (a ^^^ d)) :
    Always (rounds laws r) (Keeps laws r d) s (List.replicate n none) := by
  induction n generalizing s a with
  | zero => trivial
  | succ n ih =>
    cases h with
    | cons he hm rest =>
      have hnext := round_refines laws hs he hm
      have hquiet : wordRound (d,a) none = (d,a ^^^ d) := quiet_harmless hd
      rw [List.replicate_succ,keeps_cons hs he hm,hquiet]
      rw [hquiet] at hnext
      refine ⟨rfl,ih rest hnext hd ?_⟩
      rw [BitVec.xor_assoc,BitVec.xor_self,BitVec.xor_zero]
      exact ha

/-- Two or more rounds that nothing disturbs all leave the data alone exactly when
neither the word on the ancilla nor its sum with the data flips a bit. The
codeword of ones is never left alone. -/
theorem data_kept_iff (laws : BasisLaws L) {r : ℕ} {s u : QecState W} {d a : BitVec 3}
    (hs : Refines laws r s (d,a)) {n : ℕ} (hn : 2 ≤ n)
    (h : Run (rounds laws r) s (List.replicate n none) u) :
    (Always (rounds laws r) (Keeps laws r d) s (List.replicate n none) ↔
      Harmless a ∧ Harmless (a ^^^ d)) ∧
    (d = codeword true →
      ¬Always (rounds laws r) (Keeps laws r d) s (List.replicate n none)) := by
  have hiff : Always (rounds laws r) (Keeps laws r d) s (List.replicate n none) ↔
      Harmless a ∧ Harmless (a ^^^ d) := by
    constructor
    · intro hall
      obtain ⟨k,rfl⟩ := Nat.exists_eq_add_of_le' hn
      cases h with
      | cons he hm rest =>
        have hnext := round_refines laws hs he hm
        obtain ⟨h1,hall⟩ := (keeps_cons hs he hm).mp hall
        have hd := (quiet_kept_iff d a).mp h1
        have hquiet : wordRound (d,a) none = (d,a ^^^ d) := quiet_harmless hd
        rw [hquiet] at hnext
        cases rest with
        | cons he hm rest =>
          have h2 := (quiet_kept_iff d (a ^^^ d)).mp ((keeps_cons hnext he hm).mp hall).1
          rw [BitVec.xor_assoc,BitVec.xor_self,BitVec.xor_zero] at h2
          exact ⟨h2,hd⟩
    · exact fun ⟨ha,hd⟩ => harmless_kept h hs ha hd
  refine ⟨hiff,?_⟩
  rintro rfl
  rw [hiff]
  have hones : ∀ a : BitVec 3, ¬(Harmless a ∧ Harmless (a ^^^ codeword true)) := by decide
  exact hones a

theorem data_kept_zeros :
    ∃ u, Run (rounds bitLaws 9) (initialised false) (List.replicate 3 none) u ∧
      Always (rounds bitLaws 9) (Keeps bitLaws 9 0) (initialised false) (List.replicate 3 none) := by
  have h : ∃ u, Run (rounds bitLaws 9) (initialised false) (List.replicate 3 none) u :=
    ⟨_,run_iff_exec.mpr rfl⟩
  obtain ⟨u,hu⟩ := h
  have hkept := data_kept_iff bitLaws (initialised_refines false) (by decide) hu
  exact ⟨u,hu,hkept.1.mpr (by decide)⟩

end CtrlxtKernel.ErrorCorrection
