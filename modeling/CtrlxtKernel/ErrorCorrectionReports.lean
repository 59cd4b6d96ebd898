import CtrlxtKernel.ErrorCorrectionCounters

/-!
# What the error corrector reports

The rate is a quotient of `int`s, and the product above the line is one too.
It is a percentage as long as the product is represented. The two counters are
read without the lock, one after the other.
-/

set_option autoImplicit false

namespace CtrlxtKernel.ErrorCorrection
open MachineInt ObjectHeap StepMachine

variable {t : Target} {W : Type*}

/-- The rate reported is the integer part of the percentage. -/
def RateExact (q : CtrlxtQec) : Prop :=
  ∀ stats, ∃ r, ctrlxtQecGetStats q (some stats) = some (some r) ∧
    (r.successRate.toNat:ℤ) = 100*q.correctionCount.toInt/q.errorCount.toInt ∧
    r.successRate.toNat ≤ 100

theorem rateExact_iff {q : CtrlxtQec} (he : 1 ≤ q.errorCount.toInt) :
    RateExact q ↔
      (((q.correctionCount*100).sdiv q.errorCount).toNat:ℤ) =
          100*q.correctionCount.toInt/q.errorCount.toInt ∧
        ((q.correctionCount*100).sdiv q.errorCount).toNat ≤ 100 := by
  obtain ⟨hdiv,-⟩ := intDiv_pos (q.correctionCount*100) (show 0 < q.errorCount.toInt by omega)
  constructor
  · intro h
    obtain ⟨r,hr,hrate⟩ := h ⟨0,0,0⟩
    simp only [ctrlxtQecGetStats,hdiv,Option.map_some,Option.some.injEq] at hr
    subst hr
    exact hrate
  · intro h stats
    exact ⟨⟨q.errorCount,q.correctionCount,_⟩,by rw [ctrlxtQecGetStats,hdiv]; rfl,h⟩

theorem bmod_wrapped {n : ℤ} (h : 2^31 ≤ n) : n.bmod (2^32) ≤ n-2^32 := by
  rw [Int.bmod_def]
  split_ifs <;> omega

theorem wrapped_below {p c e : ℤ} (hp : p ≤ 100*c-2^32) (he : 0 < e) (hlt : e < 2^31)
    (hc : 2^31 ≤ 100*c) : p.tdiv e < 100*c/e := by
  have hone : 1 ≤ 100*c/e := by
    rw [Int.le_ediv_iff_mul_le he]
    omega
  by_cases h0 : 0 ≤ p
  · rw [Int.tdiv_eq_ediv_of_nonneg h0]
    have hmono : p/e ≤ (100*c-1*e)/e := Int.ediv_le_ediv he (by omega)
    rw [Int.sub_mul_ediv_right _ _ he.ne'] at hmono
    omega
  · have hneg : 0 ≤ (-p).tdiv e := Int.tdiv_nonneg (by omega) he.le
    rw [Int.neg_tdiv] at hneg
    omega

theorem product_toInt (c : CInt) : (c*100).toInt = (100*c.toInt).bmod (2^32) := by
  have h100 : (100:CInt).toInt = 100 := rfl
  rw [BitVec.toInt_mul,h100,mul_comm]

theorem hundred_toInt {c : CInt} (hc : 0 ≤ c.toInt) (hfew : c.toInt ≤ 21474836) :
    (c*100).toInt = 100*c.toInt := by
  rw [product_toInt]
  apply Int.bmod_eq_of_le <;> omega

theorem rate_toNat {c e : CInt} (he : 1 ≤ e.toInt) (hc : 0 ≤ c.toInt)
    (hfew : c.toInt ≤ 21474836) :
    (((c*100).sdiv e).toNat:ℤ) = 100*c.toInt/e.toInt := by
  have hquot := (intDiv_pos (c*100) (show 0 < e.toInt by omega)).2
  rw [hundred_toInt hc hfew,Int.tdiv_eq_ediv_of_nonneg (by omega)] at hquot
  have hge : 0 ≤ 100*c.toInt/e.toInt := Int.ediv_nonneg (by omega) (by omega)
  rw [← hquot] at hge
  exact (toNat_of_nonneg _ hge).trans hquot

/-- The rate is exact exactly when a hundred times the corrections counted is
an `int`. -/
theorem rate_exact_iff {q : CtrlxtQec} (he : 1 ≤ q.errorCount.toInt)
    (hc : 0 ≤ q.correctionCount.toInt) (hle : q.correctionCount.toInt ≤ q.errorCount.toInt) :
    RateExact q ↔ q.correctionCount.toInt ≤ 21474836 := by
  have hbound := (int_bounds q.errorCount).2
  have hquot := (intDiv_pos (q.correctionCount*100) (show 0 < q.errorCount.toInt by omega)).2
  have hsmall : 100*q.correctionCount.toInt/q.errorCount.toInt ≤ 100 :=
    Int.ediv_le_of_le_mul (by omega) (by omega)
  rw [rateExact_iff he]
  constructor
  · rintro ⟨hrate,hpercent⟩
    by_contra hmany
    have hp := bmod_wrapped (show 2^31 ≤ 100*q.correctionCount.toInt by omega)
    rw [← product_toInt] at hp
    have hlt := wrapped_below hp (by omega) hbound (by omega)
    have hint := (toNat_le_iff _ (by decide)).mp hpercent
    have hsame := toNat_of_nonneg _ hint.1
    omega
  · intro hfew
    have hrate := rate_toNat he hc hfew
    exact ⟨hrate,by omega⟩

theorem rate_exact_quarter : RateExact ⟨.obj 0,.obj 1,200,50⟩ :=
  (rate_exact_iff (q := ⟨.obj 0,.obj 1,200,50⟩) (by decide) (by decide) (by decide)).mpr
    (by decide)

theorem showing_counts (v : ℤ) {n : ℕ} {u : QecState Unit}
    (h : Run (corrections (showing v)) started (List.replicate n ⟨(),.obj 9⟩) u) :
    u.qec.errorCount = BitVec.ofNat 32 n ∧ u.qec.correctionCount = BitVec.ofNat 32 n := by
  have hret : ∀ s, ∀ c ∈ List.replicate n ⟨(),.obj 9⟩, Returned (showing v) s c := by
    intro s c hc
    obtain rfl := List.eq_of_mem_replicate hc
    refine returned_iff.mpr ⟨⟨Ptr.noConfusion,le_refl (0:ℤ)⟩,?_⟩
    rintro ⟨-,ret,hret,hneg⟩
    obtain ⟨call,-,rfl⟩ := Option.map_eq_some_iff.mp hret
    exact lt_irrefl (0:ℤ) hneg
  have hm : ∀ s, ∀ c ∈ List.replicate n ⟨(),.obj 9⟩, Measured (showing v) s c :=
    fun s c hc => (returned_iff.mp (hret s c hc)).1
  have hc := counters_tally (started_init v) h
  rwa [tally_all hm h,tally_all hret h,List.length_replicate] at hc

/-- The first call too many is the one that brings the counter to 21474837. -/
theorem rate_overflows :
    ctrlxtQecInit (showing 1) unstarted true true = some (started,0) ∧
      ∃ u, Run (corrections (showing 1)) started (List.replicate 21474837 ⟨(),.obj 9⟩) u ∧
        u.qec.errorCount.toInt = 21474837 ∧ u.qec.correctionCount.toInt = 21474837 ∧
        ctrlxtQecGetStats u.qec (some ⟨0,0,0⟩) =
          some (some ⟨21474837,21474837,4294967197⟩) ∧
        ¬RateExact u.qec := by
  refine ⟨rfl,?_⟩
  obtain ⟨u,hu⟩ := started_calls 1 (List.replicate 21474837 ⟨(),.obj 9⟩)
  obtain ⟨herror,hcorrection⟩ := showing_counts 1 hu
  have hrate : ctrlxtQecGetStats u.qec (some ⟨0,0,0⟩) =
      some (some ⟨21474837,21474837,4294967197⟩) := by
    rw [ctrlxtQecGetStats,herror,hcorrection]
    rfl
  refine ⟨u,hu,by rw [herror]; rfl,by rw [hcorrection]; rfl,hrate,?_⟩
  intro h
  obtain ⟨r,hr,-,hle⟩ := h ⟨0,0,0⟩
  rw [hrate] at hr
  cases hr
  revert hle
  decide

/-- The shared structure, with the state that the caller between its two
increments is correcting. That caller holds the lock. -/
structure LockedQec (W : Type*) where
  shared : QecState W
  corrects : Option Ptr

/-- The part of `ctrlxt_qec_apply` up to and including its first increment. -/
def measureLocked (L : QuantumLayer t W) (s : QecState W) (state : Ptr) : LockedQec W :=
  let (s,ret) := measureSyndrome L s state
  if ret < 0 then ⟨s,none⟩ else ⟨s,some state⟩

def correctLocked (L : QuantumLayer t W) (s : QecState W) (state : Ptr) : LockedQec W :=
  let (s,ret) := applyCorrection L s state
  if ret < 0 then ⟨s,none⟩
  else ⟨{ s with qec := { s.qec with correctionCount := s.qec.correctionCount+1 } },none⟩

inductive ApplyStep (W : Type*) where
  | measure (c : QecCall W)
  | correct (world : W)

def interleaved (L : QuantumLayer t W) : Machine (LockedQec W) (ApplyStep W) where
  enabled s
    | .measure c => c.state = .null ∨ s.corrects = none
    | .correct _ => s.corrects ≠ none
  step s
    | .measure c =>
      if c.state = .null then some ⟨s.shared.found c,s.corrects⟩
      else some (measureLocked L (s.shared.found c) c.state)
    | .correct world => s.corrects.map (correctLocked L { s.shared with world := world })

/-- What is reported when `error_count` is read in the first state and
`correction_count` in the second. -/
def readStats (first later : CtrlxtQec) : Option QuantumErrorStats :=
  (intDiv (later.correctionCount*100) first.errorCount).map fun rate =>
    ⟨first.errorCount,later.correctionCount,rate⟩

theorem getStats_read (q : CtrlxtQec) (stats : QuantumErrorStats) :
    ctrlxtQecGetStats q (some stats) = (readStats q q).map some := by
  simp only [ctrlxtQecGetStats,readStats,Option.map_map]
  rfl

section Halves

variable {L : QuantumLayer t W} {s : QecState W} {state : Ptr}

theorem measureLocked_failed (h : (measureSyndrome L s state).2 < 0) :
    measureLocked L s state = ⟨(measureSyndrome L s state).1,none⟩ := if_pos h

theorem measureLocked_measured (h : ¬(measureSyndrome L s state).2 < 0) :
    measureLocked L s state = ⟨(measureSyndrome L s state).1,some state⟩ := if_neg h

theorem apply_locked (hs : state ≠ .null) : (ctrlxtQecApply L s state).1 =
    (measureLocked L s state).corrects.elim (measureLocked L s state).shared
      (fun p => (correctLocked L (measureLocked L s state).shared p).shared) := by
  by_cases h : (measureSyndrome L s state).2 < 0
  · simp only [ctrlxtQecApply,hs,measureLocked_failed h,h,if_false,if_true,Option.elim_none]
  · simp only [ctrlxtQecApply,hs,measureLocked_measured h,h,if_false,Option.elim_some,
      correctLocked]
    split_ifs <;> rfl

theorem correctLocked_done :
    correctLocked L s state = ⟨(correctLocked L s state).shared,none⟩ := by
  unfold correctLocked
  simp only
  split_ifs <;> rfl

end Halves

theorem call_interleaved (L : QuantumLayer t W) (s : QecState W) (c : QecCall W) :
    ∃ ls, Run (interleaved L) ⟨s,none⟩ ls ⟨(ctrlxtQecApply L (s.found c) c.state).1,none⟩ := by
  by_cases hnull : c.state = .null
  · rw [ctrlxtQecApply,if_pos hnull]
    exact ⟨[.measure c],.cons (Or.inl hnull) (if_pos hnull) (.nil _)⟩
  · rw [apply_locked hnull]
    by_cases h : (measureSyndrome L (s.found c) c.state).2 < 0
    · have hfirst := measureLocked_failed h
      refine ⟨[.measure c],.cons (Or.inr rfl) (if_neg hnull) ?_⟩
      rw [hfirst]
      exact .nil _
    · have hfirst := measureLocked_measured h
      refine ⟨[.measure c,.correct (measureSyndrome L (s.found c) c.state).1.world],
        .cons (Or.inr rfl) (if_neg hnull) ?_⟩
      rw [hfirst]
      refine .cons (Option.some_ne_none _) rfl ?_
      rw [correctLocked_done]
      exact .nil _

/-- A list of whole calls is a list of steps. -/
theorem corrections_interleaved {L : QuantumLayer t W} {s u : QecState W}
    {calls : List (QecCall W)} (h : Run (corrections L) s calls u) :
    ∃ ls, Run (interleaved L) ⟨s,none⟩ ls ⟨u,none⟩ := by
  induction h with
  | nil s => exact ⟨[],.nil _⟩
  | @cons s v u c calls _ hs _ ih =>
    cases hs
    obtain ⟨first,hfirst⟩ := call_interleaved L s c
    obtain ⟨rest,hrest⟩ := ih
    exact ⟨first++rest,hfirst.append hrest⟩

section Steps

variable (L : QuantumLayer t W)

def Detects (s : LockedQec W) : ApplyStep W → Prop
  | .measure c => Measured L s.shared c
  | .correct _ => False

def Corrects (s : LockedQec W) : ApplyStep W → Prop
  | .measure _ => False
  | .correct world => ∃ state ∈ s.corrects,
    0 ≤ (applyCorrection L { s.shared with world := world } state).2

def Fails (s : LockedQec W) : ApplyStep W → Prop
  | .measure _ => False
  | .correct world => ∃ state ∈ s.corrects,
    (applyCorrection L { s.shared with world := world } state).2 < 0

def Ends (s : LockedQec W) : ApplyStep W → Prop
  | .measure _ => False
  | .correct _ => s.corrects ≠ none

instance (s : LockedQec W) : (l : ApplyStep W) → Decidable (Detects L s l)
  | .measure c => inferInstanceAs (Decidable (Measured L s.shared c))
  | .correct _ => inferInstanceAs (Decidable False)

instance (s : LockedQec W) : (l : ApplyStep W) → Decidable (Corrects L s l)
  | .measure _ => inferInstanceAs (Decidable False)
  | .correct world => inferInstanceAs (Decidable (∃ state ∈ s.corrects,
      0 ≤ (applyCorrection L { s.shared with world := world } state).2))

instance (s : LockedQec W) : (l : ApplyStep W) → Decidable (Fails L s l)
  | .measure _ => inferInstanceAs (Decidable False)
  | .correct world => inferInstanceAs (Decidable (∃ state ∈ s.corrects,
      (applyCorrection L { s.shared with world := world } state).2 < 0))

instance (s : LockedQec W) : (l : ApplyStep W) → Decidable (Ends s l)
  | .measure _ => inferInstanceAs (Decidable False)
  | .correct _ => inferInstanceAs (Decidable (s.corrects ≠ none))

end Steps

theorem measureLocked_effect {L : QuantumLayer t W} {s : QecState W} {c : QecCall W}
    (hnull : c.state ≠ .null) :
    (measureLocked L (s.found c) c.state).shared.qec =
        { s.qec with errorCount := s.qec.errorCount+if Measured L s c then 1 else 0 } ∧
      (measureLocked L (s.found c) c.state).corrects =
        if Measured L s c then some c.state else none := by
  have hcounts := measureSyndrome_counts L (s.found c) c.state
  by_cases h : (measureSyndrome L (s.found c) c.state).2 < 0
  · have hm : ¬Measured L s c := fun hm => not_le.mpr h hm.2
    rw [measureLocked_failed h,if_neg hm,if_neg hm,add_zero]
    rw [if_neg (not_le.mpr h)] at hcounts
    exact ⟨hcounts,rfl⟩
  · have hm : Measured L s c := ⟨hnull,not_lt.mp h⟩
    rw [measureLocked_measured h,if_pos hm,if_pos hm]
    rw [if_pos (not_lt.mp h)] at hcounts
    exact ⟨hcounts,rfl⟩

theorem correctLocked_effect {L : QuantumLayer t W} {s : QecState W} {state : Ptr} :
    (correctLocked L s state).shared.qec =
      { s.qec with correctionCount :=
          s.qec.correctionCount+if 0 ≤ (applyCorrection L s state).2 then 1 else 0 } := by
  have hcounts := applyCorrection_counts L s state
  unfold correctLocked
  simp only
  split_ifs with h h'
  · omega
  · rw [add_zero]
    exact hcounts
  · simp only [hcounts]
  · omega

section Steps

variable {L : QuantumLayer t W} {s v : LockedQec W} {l : ApplyStep W}

theorem step_errorCount (h : (interleaved L).step s l = some v) :
    v.shared.qec.errorCount =
      s.shared.qec.errorCount+if Detects L s l then 1 else 0 := by
  cases l with
  | measure c =>
    by_cases hnull : c.state = .null
    · have hm : ¬Detects L s (.measure c) := fun hm => hm.1 hnull
      rw [if_neg hm,add_zero]
      simp only [interleaved,hnull,if_true] at h
      cases h
      rfl
    · simp only [interleaved,hnull,if_false] at h
      cases h
      rw [(measureLocked_effect hnull).1]
      rfl
  | correct world =>
    obtain ⟨state,-,rfl⟩ := Option.map_eq_some_iff.mp h
    rw [correctLocked_effect]
    exact (add_zero _).symm

theorem step_correctionCount (h : (interleaved L).step s l = some v) :
    v.shared.qec.correctionCount =
      s.shared.qec.correctionCount+if Corrects L s l then 1 else 0 := by
  cases l with
  | measure c =>
    refine Eq.trans ?_ (add_zero _).symm
    by_cases hnull : c.state = .null
    · simp only [interleaved,hnull,if_true] at h
      cases h
      rfl
    · simp only [interleaved,hnull,if_false] at h
      cases h
      rw [(measureLocked_effect hnull).1]
  | correct world =>
    obtain ⟨state,hstate,rfl⟩ := Option.map_eq_some_iff.mp h
    rw [correctLocked_effect]
    simp only [Corrects,hstate,Option.mem_def,Option.some.injEq,exists_eq_left']

/-- One call at most is between its increments. -/
def between (s : LockedQec W) : ℕ := if s.corrects.isSome then 1 else 0

theorem step_between (he : (interleaved L).enabled s l) (h : (interleaved L).step s l = some v) :
    between s+(if Detects L s l then 1 else 0) = between v+if Ends s l then 1 else 0 := by
  cases l with
  | measure c =>
    by_cases hnull : c.state = .null
    · have hm : ¬Detects L s (.measure c) := fun hm => hm.1 hnull
      simp only [interleaved,hnull,if_true] at h
      cases h
      rw [if_neg hm]
      rfl
    · have hfree : s.corrects = none := he.resolve_left hnull
      simp only [interleaved,hnull,if_false] at h
      cases h
      by_cases hm : Measured L s.shared c
      · simp [between,hfree,(measureLocked_effect hnull).2,Detects,Ends,hm]
      · simp [between,hfree,(measureLocked_effect hnull).2,Detects,Ends,hm]
  | correct world =>
    have hends : Ends s (.correct world) := he
    obtain ⟨state,hstate,rfl⟩ := Option.map_eq_some_iff.mp h
    rw [if_pos hends,between,between,hstate,correctLocked_done]
    rfl

theorem ends_iff (s : LockedQec W) (l : ApplyStep W) :
    Ends s l ↔ Corrects L s l ∨ Fails L s l := by
  cases l with
  | measure c => exact iff_of_false id (fun h => h.elim id id)
  | correct world =>
    cases hs : s.corrects with
    | none => simp [Ends,Corrects,Fails,hs]
    | some state =>
      have hsign := le_or_gt 0 (applyCorrection L { s.shared with world := world } state).2
      simpa [Ends,Corrects,Fails,hs] using hsign

theorem corrects_fails (h : Corrects L s l) : ¬Fails L s l := by
  cases l with
  | measure c => exact h.elim
  | correct world =>
    obtain ⟨state,hstate,hpos⟩ := h
    rintro ⟨p,hp,hneg⟩
    obtain rfl := Option.mem_unique hstate hp
    omega

end Steps

def Below (s : LockedQec W) (_ : ApplyStep W) : Prop :=
  s.shared.qec.errorCount.toInt < 10^6 ∧ s.shared.qec.correctionCount.toInt < 10^6

instance (L : QuantumLayer t W) (s : LockedQec W) :
    (l : ApplyStep W) → Decidable ((interleaved L).enabled s l)
  | .measure c => inferInstanceAs (Decidable (c.state = .null ∨ s.corrects = none))
  | .correct _ => inferInstanceAs (Decidable (s.corrects ≠ none))

instance (s : LockedQec W) (l : ApplyStep W) : Decidable (Below s l) :=
  inferInstanceAs (Decidable (_ ∧ _))

section Runs

variable {L : QuantumLayer t W} {s₀ q : QecState W} {a b : Bool} {s u : LockedQec W}
  {before after ls : List (ApplyStep W)}

theorem init_counters (hi : ctrlxtQecInit L s₀ a b = some (q,0)) :
    (LockedQec.mk q none).shared.qec.errorCount.toInt = 0 ∧
      (LockedQec.mk q none).shared.qec.correctionCount.toInt = 0 := by
  obtain ⟨_,_,_,_,-,-,-,-,rfl⟩ := init_success hi
  exact ⟨rfl,rfl⟩

theorem below_errorCount (h : Run ((interleaved L).restrict Below) s ls u) :
    u.shared.qec.errorCount.toInt =
      s.shared.qec.errorCount.toInt+tally (interleaved L) (Detects L) s ls := by
  apply h.counter_below (f := fun s => s.shared.qec.errorCount) (fun _ _ _ => step_errorCount)
  rintro s l ⟨herror,-⟩
  omega

theorem below_correctionCount (h : Run ((interleaved L).restrict Below) s ls u) :
    u.shared.qec.correctionCount.toInt =
      s.shared.qec.correctionCount.toInt+tally (interleaved L) (Corrects L) s ls := by
  apply h.counter_below (f := fun s => s.shared.qec.correctionCount)
    (fun _ _ _ => step_correctionCount)
  rintro s l ⟨-,hcorrection⟩
  omega

/-- What error_count is ahead by are the calls whose correction gate failed and
the one between its increments. -/
theorem lead_eq (hi : ctrlxtQecInit L s₀ a b = some (q,0))
    (h : Run ((interleaved L).restrict Below) ⟨q,none⟩ before s) :
    s.shared.qec.errorCount.toInt-s.shared.qec.correctionCount.toInt =
      tally (interleaved L) (Fails L) ⟨q,none⟩ before+between s := by
  obtain ⟨hr,-⟩ := restrict_run_iff.mp h
  have hzero := init_counters hi
  have herror := below_errorCount h
  have hcorrection := below_correctionCount h
  have hbalance := hr.balance (fun _ _ _ => step_between)
  have hfree : between ⟨q,none⟩ = 0 := rfl
  have hends := tally_add (ends_iff (L := L)) (fun _ _ => corrects_fails) hr
  omega

theorem readStats_small {first later : CtrlxtQec} (he : 1 ≤ first.errorCount.toInt)
    (hc : 0 ≤ later.correctionCount.toInt) (hfew : later.correctionCount.toInt ≤ 21474836) :
    ∃ r, readStats first later = some r ∧ r.errorCount = first.errorCount ∧
      r.correctionCount = later.correctionCount ∧
      (r.successRate.toNat:ℤ) =
        100*later.correctionCount.toInt/first.errorCount.toInt := by
  have hdiv := (intDiv_pos (later.correctionCount*100)
    (show 0 < first.errorCount.toInt by omega)).1
  have hread : readStats first later = some ⟨first.errorCount,later.correctionCount,
      (later.correctionCount*100).sdiv first.errorCount⟩ := by
    rw [readStats,hdiv,Option.map_some]
  exact ⟨_,hread,rfl,rfl,rate_toNat he hc hfew⟩

/-- A report whose first counter was read in one state and whose second in a
later one is a percentage exactly when the corrections counted between the two
are at most the lead that error_count had at the first. -/
theorem torn_report_iff (hi : ctrlxtQecInit L s₀ a b = some (q,0))
    (hb : Run ((interleaved L).restrict Below) ⟨q,none⟩ before s)
    (ha : Run ((interleaved L).restrict Below) s after u)
    (hread : 1 ≤ s.shared.qec.errorCount.toInt)
    (hfew : u.shared.qec.correctionCount.toInt < 10^6) :
    (∃ r, readStats s.shared.qec u.shared.qec = some r ∧
        r.correctionCount.toInt ≤ r.errorCount.toInt ∧ r.successRate.toNat ≤ 100) ↔
      tally (interleaved L) (Corrects L) s after ≤
        tally (interleaved L) (Fails L) ⟨q,none⟩ before+between s := by
  have hlead := lead_eq hi hb
  have hzero := init_counters hi
  have hfirst := below_correctionCount hb
  have hlater := below_correctionCount ha
  obtain ⟨r,hr,herror,hcorrection,hrate⟩ := readStats_small hread
    (show 0 ≤ u.shared.qec.correctionCount.toInt by omega) (by omega)
  constructor
  · rintro ⟨r',hr',hle,-⟩
    obtain rfl : r = r' := Option.some.inj (hr.symm.trans hr')
    rw [herror,hcorrection] at hle
    omega
  · intro hle
    have hpercent : 100*u.shared.qec.correctionCount.toInt/s.shared.qec.errorCount.toInt ≤ 100 :=
      Int.ediv_le_of_le_mul (by omega) (by omega)
    refine ⟨r,hr,?_,by omega⟩
    rw [herror,hcorrection]
    omega

end Runs

/-- The call is between its increments at the first read and done at the second. -/
theorem torn_report_call :
    ∃ s u, Run ((interleaved (showing 1)).restrict Below) ⟨started,none⟩
        [.measure ⟨(),.obj 9⟩] s ∧
      Run ((interleaved (showing 1)).restrict Below) s [.correct ()] u ∧
      ∃ r, readStats s.shared.qec u.shared.qec = some r ∧
        r.correctionCount.toInt ≤ r.errorCount.toInt ∧ r.successRate.toNat ≤ 100 := by
  have hs : ∃ s, Run ((interleaved (showing 1)).restrict Below) ⟨started,none⟩
      [.measure ⟨(),.obj 9⟩] s ∧ s.shared.qec.errorCount = 1 ∧
        tally (interleaved (showing 1)) (Corrects (showing 1)) s [.correct ()] ≤
          tally (interleaved (showing 1)) (Fails (showing 1)) ⟨started,none⟩
            [.measure ⟨(),.obj 9⟩]+between s ∧
        ∃ u, Run ((interleaved (showing 1)).restrict Below) s [.correct ()] u ∧
          u.shared.qec.correctionCount = 1 :=
    ⟨_,run_iff_exec.mpr rfl,rfl,by decide,_,run_iff_exec.mpr rfl,rfl⟩
  obtain ⟨s,hs,herror,hlead,u,hu,hcorrection⟩ := hs
  exact ⟨s,u,hs,hu,(torn_report_iff (started_init 1) hs hu (by rw [herror]; decide)
    (by rw [hcorrection]; decide)).mpr hlead⟩

/-- A whole call before the first read and a whole call between the reads: one
error, two corrections, two hundred percent. -/
theorem torn_report :
    ctrlxtQecInit (showing 1) unstarted true true = some (started,0) ∧
      ∃ s u, Run ((interleaved (showing 1)).restrict Below) ⟨started,none⟩
          [.measure ⟨(),.obj 9⟩,.correct ()] s ∧
        Run ((interleaved (showing 1)).restrict Below) s
          [.measure ⟨(),.obj 9⟩,.correct ()] u ∧
        s.shared.qec.errorCount.toInt = 1 ∧ u.shared.qec.correctionCount.toInt = 2 ∧
        readStats s.shared.qec u.shared.qec = some ⟨1,2,200⟩ :=
  ⟨rfl,_,_,run_iff_exec.mpr rfl,run_iff_exec.mpr rfl,rfl,rfl,rfl⟩

end CtrlxtKernel.ErrorCorrection
