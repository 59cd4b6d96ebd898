import CtrlxtKernel.ErrorCorrection
import CtrlxtKernel.StepMachine

/-!
# What the counters of the error corrector count

Every call of `ctrlxt_qec_apply` holds the lock throughout, so the calls of any
number of callers form one list. A call may find any world of the gate layer.
It counts an error when the syndrome has been measured, whatever was read, and
a correction when it returns zero, whether or not a gate was issued.
-/

set_option autoImplicit false

namespace CtrlxtKernel.ErrorCorrection
open MachineInt ObjectHeap StepMachine

variable {t : Target} {W : Type*}

structure QecCall (W : Type*) where
  world : W
  state : Ptr

def QecState.found (s : QecState W) (c : QecCall W) : QecState W := { s with world := c.world }

def corrections (L : QuantumLayer t W) : Machine (QecState W) (QecCall W) where
  enabled _ _ := True
  step s c := some (ctrlxtQecApply L (s.found c) c.state).1

instance (L : QuantumLayer t W) (s : QecState W) (c : QecCall W) :
    Decidable ((corrections L).enabled s c) :=
  inferInstanceAs (Decidable True)

section Calls

variable (L : QuantumLayer t W) (s : QecState W) (c : QecCall W)

def measurement : QecState W × ℤ := measureSyndrome L (s.found c) c.state

/-- The call completes the measurement of the syndrome. -/
def Measured : Prop := c.state ≠ .null ∧ 0 ≤ (measurement L s c).2

def readSyndrome : ℤ :=
  L.stateGetValue (measurement L s c).1.world (measurement L s c).1.qec.syndrome

def answer : Option ℤ :=
  (correction L c.state (readSyndrome L s c)).map fun call =>
    (L.gateApply (measurement L s c).1.world call).2

/-- The syndrome was read as a number that names an error. -/
def Named : Prop := Measured L s c ∧ 1 ≤ readSyndrome L s c ∧ readSyndrome L s c ≤ 7

def Issued : Prop := Measured L s c ∧ ∃ ret ∈ answer L s c, 0 ≤ ret

def Refused : Prop := Measured L s c ∧ ∃ ret ∈ answer L s c, ret < 0

def Returned : Prop := (ctrlxtQecApply L (s.found c) c.state).2 = 0

instance : Decidable (Measured L s c) :=
  inferInstanceAs (Decidable (c.state ≠ .null ∧ 0 ≤ (measurement L s c).2))

instance : Decidable (Named L s c) :=
  inferInstanceAs (Decidable (Measured L s c ∧ 1 ≤ readSyndrome L s c ∧ readSyndrome L s c ≤ 7))

instance : Decidable (Issued L s c) :=
  inferInstanceAs (Decidable (Measured L s c ∧ ∃ ret ∈ answer L s c, 0 ≤ ret))

instance : Decidable (Refused L s c) :=
  inferInstanceAs (Decidable (Measured L s c ∧ ∃ ret ∈ answer L s c, ret < 0))

instance : Decidable (Returned L s c) :=
  inferInstanceAs (Decidable ((ctrlxtQecApply L (s.found c) c.state).2 = 0))

end Calls

theorem correction_named (L : QuantumLayer t W) (state : Ptr) (v : ℤ) :
    (correction L state v).isSome ↔ 1 ≤ v ∧ v ≤ 7 := by
  constructor
  · intro h
    unfold correction at h
    split at h <;> first | omega | cases h
  · rintro ⟨hlo,hhi⟩
    interval_cases v <;> rfl

theorem measureSyndrome_counts (L : QuantumLayer t W) (s : QecState W) (state : Ptr) :
    (measureSyndrome L s state).1.qec =
      if 0 ≤ (measureSyndrome L s state).2 then { s.qec with errorCount := s.qec.errorCount+1 }
      else s.qec := by
  unfold measureSyndrome
  simp only
  split_ifs <;> first | rfl | omega

theorem applyCorrection_counts (L : QuantumLayer t W) (s : QecState W) (state : Ptr) :
    (applyCorrection L s state).1.qec = s.qec := by
  unfold applyCorrection
  split <;> rfl

section Calls

variable {L : QuantumLayer t W} {s : QecState W} {c : QecCall W}

theorem refused_iff (h : Measured L s c) :
    Refused L s c ↔ (applyCorrection L (measurement L s c).1 c.state).2 < 0 := by
  have hanswer : (applyCorrection L (measurement L s c).1 c.state).2 =
      (answer L s c).getD 0 := by
    unfold applyCorrection answer readSyndrome
    cases correction L c.state _ <;> rfl
  rw [hanswer]
  unfold Refused
  cases answer L s c <;> simp [h]

theorem measured_counts (h : Measured L s c) :
    (applyCorrection L (measurement L s c).1 c.state).1.qec =
      { s.qec with errorCount := s.qec.errorCount+1 } := by
  rw [applyCorrection_counts]
  exact (measureSyndrome_counts L (s.found c) c.state).trans (if_pos h.2)

theorem apply_unmeasured (h : ¬Measured L s c) :
    (ctrlxtQecApply L (s.found c) c.state).2 < 0 ∧
      (ctrlxtQecApply L (s.found c) c.state).1.qec = s.qec := by
  by_cases hnull : c.state = .null
  · have hcall : ctrlxtQecApply L (s.found c) c.state = (s.found c,-einval) := by
      rw [ctrlxtQecApply,if_pos hnull]
    have hneg : -einval < 0 := by decide
    rw [hcall]
    exact ⟨hneg,rfl⟩
  · have hret : (measurement L s c).2 < 0 := by
      by_contra hge
      exact h ⟨hnull,not_lt.mp hge⟩
    have hcall : ctrlxtQecApply L (s.found c) c.state = measurement L s c := by
      simp only [ctrlxtQecApply,hnull,if_false]
      exact if_pos hret
    have hq := measureSyndrome_counts L (s.found c) c.state
    rw [hcall]
    exact ⟨hret,hq.trans (if_neg (not_le.mpr hret))⟩

theorem apply_refused (h : Refused L s c) :
    (ctrlxtQecApply L (s.found c) c.state).2 < 0 ∧
      (ctrlxtQecApply L (s.found c) c.state).1.qec =
        { s.qec with errorCount := s.qec.errorCount+1 } := by
  have hneg := (refused_iff h.1).mp h
  have hcall : ctrlxtQecApply L (s.found c) c.state =
      applyCorrection L (measurement L s c).1 c.state := by
    simp only [ctrlxtQecApply,h.1.1,if_false]
    exact (if_neg (not_lt.mpr h.1.2)).trans (if_pos hneg)
  rw [hcall]
  exact ⟨hneg,measured_counts h.1⟩

theorem apply_accepted (h : Measured L s c) (hr : ¬Refused L s c) :
    (ctrlxtQecApply L (s.found c) c.state).2 = 0 ∧
      (ctrlxtQecApply L (s.found c) c.state).1.qec =
        { s.qec with
          errorCount := s.qec.errorCount+1
          correctionCount := s.qec.correctionCount+1 } := by
  have hpos := fun hneg => hr ((refused_iff h).mpr hneg)
  have hcall : ctrlxtQecApply L (s.found c) c.state =
      let u := (applyCorrection L (measurement L s c).1 c.state).1
      ({ u with qec := { u.qec with correctionCount := u.qec.correctionCount+1 } },0) := by
    simp only [ctrlxtQecApply,h.1,if_false]
    exact (if_neg (not_lt.mpr h.2)).trans (if_neg hpos)
  rw [hcall]
  simp only [measured_counts h,and_self]

theorem returned_iff : Returned L s c ↔ Measured L s c ∧ ¬Refused L s c := by
  by_cases h : Measured L s c
  · by_cases hr : Refused L s c
    · exact iff_of_false (apply_refused hr).1.ne (fun h => h.2 hr)
    · exact iff_of_true (apply_accepted h hr).1 ⟨h,hr⟩
  · exact iff_of_false (apply_unmeasured h).1.ne (fun hm => h hm.1)

theorem apply_errorCount : (ctrlxtQecApply L (s.found c) c.state).1.qec.errorCount =
    s.qec.errorCount+if Measured L s c then 1 else 0 := by
  by_cases h : Measured L s c
  · rw [if_pos h]
    by_cases hr : Refused L s c
    · rw [(apply_refused hr).2]
    · rw [(apply_accepted h hr).2]
  · rw [if_neg h,(apply_unmeasured h).2,add_zero]

theorem apply_correctionCount : (ctrlxtQecApply L (s.found c) c.state).1.qec.correctionCount =
    s.qec.correctionCount+if Returned L s c then 1 else 0 := by
  have hret := returned_iff (L := L) (s := s) (c := c)
  by_cases h : Measured L s c
  · by_cases hr : Refused L s c
    · rw [if_neg (fun hz => (hret.mp hz).2 hr),(apply_refused hr).2,add_zero]
    · rw [if_pos (hret.mpr ⟨h,hr⟩),(apply_accepted h hr).2]
  · rw [if_neg (fun hz => h (hret.mp hz).1),(apply_unmeasured h).2,add_zero]

end Calls

variable {L : QuantumLayer t W} {s₀ s u : QecState W} {a b : Bool} {calls : List (QecCall W)}

theorem counters_tally (hi : ctrlxtQecInit L s₀ a b = some (s,0))
    (h : Run (corrections L) s calls u) :
    u.qec.errorCount = BitVec.ofNat 32 (tally (corrections L) (Measured L) s calls) ∧
      u.qec.correctionCount = BitVec.ofNat 32 (tally (corrections L) (Returned L) s calls) := by
  have hzero : s.qec.errorCount = 0 ∧ s.qec.correctionCount = 0 := by
    obtain ⟨_,_,_,_,-,-,-,-,rfl⟩ := init_success hi
    exact ⟨rfl,rfl⟩
  have herror := h.counter (f := fun s => s.qec.errorCount) (C := Measured L) (by
    rintro s c _ ⟨⟩
    exact apply_errorCount)
  have hcorrection := h.counter (f := fun s => s.qec.correctionCount) (C := Returned L) (by
    rintro s c _ ⟨⟩
    exact apply_correctionCount)
  simp only [hzero,zero_add] at herror hcorrection
  exact ⟨herror,hcorrection⟩

theorem returned_le_measured (h : Run (corrections L) s calls u) :
    tally (corrections L) (Returned L) s calls ≤ tally (corrections L) (Measured L) s calls :=
  tally_le (fun _ _ hr => (returned_iff.mp hr).1) h

theorem counters_toInt (hi : ctrlxtQecInit L s₀ a b = some (s,0))
    (h : Run (corrections L) s calls u) (hfew : calls.length < 2^31) :
    u.qec.errorCount.toInt = tally (corrections L) (Measured L) s calls ∧
      u.qec.correctionCount.toInt = tally (corrections L) (Returned L) s calls := by
  obtain ⟨herror,hcorrection⟩ := counters_tally hi h
  have hlen := tally_le_length (C := Measured L) h
  have hle := returned_le_measured h
  rw [herror,hcorrection,ofNat_toInt (by omega),ofNat_toInt (by omega)]
  exact ⟨rfl,rfl⟩

/-- A layer in which nothing fails and every syndrome is read as this number. -/
def showing (v : ℤ) : QuantumLayer .bits64 Unit :=
  { CtrlxtKernel.idle .bits64 with stateGetValue := fun _ _ => v }

def unstarted : QecState Unit := ⟨⟨.null,.null,0,0⟩,.empty,()⟩

def started : QecState Unit := ⟨⟨.obj 0,.obj 1,0,0⟩,(Heap.empty.alloc 3).alloc 3,()⟩

theorem started_init (v : ℤ) :
    ctrlxtQecInit (showing v) unstarted true true = some (started,0) := rfl

theorem started_calls (v : ℤ) (calls : List (QecCall Unit)) :
    ∃ u, Run (corrections (showing v)) started calls u := by
  generalize started = s
  induction calls generalizing s with
  | nil => exact ⟨s,.nil s⟩
  | cons c calls ih =>
    obtain ⟨u,hu⟩ := ih (ctrlxtQecApply (showing v) (s.found c) c.state).1
    exact ⟨u,.cons trivial rfl hu⟩

/-- What error_count exceeds correction_count by are the calls whose correction
gate failed, and correction_count counts the calls that returned zero. -/
theorem corrections_within (hi : ctrlxtQecInit L s₀ a b = some (s,0))
    (h : Run (corrections L) s calls u) (hfew : calls.length < 2^31) :
    0 ≤ u.qec.errorCount.toInt-u.qec.correctionCount.toInt ∧
      u.qec.errorCount.toInt-u.qec.correctionCount.toInt =
        tally (corrections L) (Refused L) s calls ∧
      u.qec.correctionCount.toInt = tally (corrections L) (Returned L) s calls := by
  obtain ⟨herror,hcorrection⟩ := counters_toInt hi h hfew
  have hsplit : ∀ s c, Measured L s c ↔ Refused L s c ∨ Returned L s c := by
    intro s c
    rw [returned_iff]
    constructor
    · intro hm
      by_cases hr : Refused L s c
      · exact Or.inl hr
      · exact Or.inr ⟨hm,hr⟩
    · rintro (hr | hr)
      · exact hr.1
      · exact hr.1
  have hsum := tally_add hsplit (fun _ _ hr hz => (returned_iff.mp hz).2 hr) h
  rw [herror,hcorrection]
  omega

theorem corrections_within_null :
    ∃ u, Run (corrections (showing 5)) started [⟨(),.obj 9⟩,⟨(),.null⟩] u ∧
      (0 ≤ u.qec.errorCount.toInt-u.qec.correctionCount.toInt ∧
        u.qec.errorCount.toInt-u.qec.correctionCount.toInt =
          tally (corrections (showing 5)) (Refused (showing 5)) started
            [⟨(),.obj 9⟩,⟨(),.null⟩] ∧
        u.qec.correctionCount.toInt = tally (corrections (showing 5)) (Returned (showing 5))
          started [⟨(),.obj 9⟩,⟨(),.null⟩]) := by
  obtain ⟨u,hu⟩ := started_calls 5 [⟨(),.obj 9⟩,⟨(),.null⟩]
  exact ⟨u,hu,corrections_within (started_init 5) hu (by decide)⟩

theorem named_iff {c : QecCall W} :
    Named L s c ↔ Measured L s c ∧ (answer L s c).isSome = true := by
  unfold Named answer
  rw [Option.isSome_map,correction_named]

theorem issued_returned {c : QecCall W} (h : Issued L s c) : Returned L s c := by
  obtain ⟨hm,ret,hret,hpos⟩ := h
  refine returned_iff.mpr ⟨hm,?_⟩
  rintro ⟨-,ret',hret',hneg⟩
  obtain rfl : ret = ret' := Option.mem_unique hret hret'
  omega

theorem returned_issued {c : QecCall W} (hn : Measured L s c → Named L s c)
    (h : Returned L s c) : Issued L s c := by
  obtain ⟨hm,hr⟩ := returned_iff.mp h
  obtain ⟨ret,hret⟩ := Option.isSome_iff_exists.mp (named_iff.mp (hn hm)).2
  refine ⟨hm,ret,hret,?_⟩
  by_contra hneg
  exact hr ⟨hm,ret,hret,not_le.mp hneg⟩

/-- The counters count errors and corrections exactly when every syndrome that
was measured named an error. -/
theorem counters_exact_iff (hi : ctrlxtQecInit L s₀ a b = some (s,0))
    (h : Run (corrections L) s calls u) (hfew : calls.length < 2^31) :
    (u.qec.errorCount.toInt = tally (corrections L) (Named L) s calls ∧
        u.qec.correctionCount.toInt = tally (corrections L) (Issued L) s calls) ↔
      Always (corrections L) (fun s c => Measured L s c → Named L s c) s calls := by
  obtain ⟨herror,hcorrection⟩ := counters_toInt hi h hfew
  have hnamed := tally_eq_iff (C := Named L) (D := Measured L) (fun _ _ hn => hn.1) h
  have hissued := tally_eq_iff (C := Issued L) (D := Returned L) (fun _ _ => issued_returned) h
  rw [herror,hcorrection,← hnamed]
  constructor
  · intro hc
    omega
  · intro hn
    have hall := Always.imp (I := fun _ => True)
      (fun _ _ _ _ hmn => returned_issued hmn) (fun _ _ _ _ _ _ _ => trivial) h.attempt trivial
      (hnamed.mp hn)
    have hz := hissued.mpr hall
    omega

theorem counters_exact_flip :
    ∃ u, Run (corrections (showing 1)) started [⟨(),.obj 9⟩] u ∧
      u.qec.errorCount.toInt =
        tally (corrections (showing 1)) (Named (showing 1)) started [⟨(),.obj 9⟩] ∧
      u.qec.correctionCount.toInt =
        tally (corrections (showing 1)) (Issued (showing 1)) started [⟨(),.obj 9⟩] := by
  obtain ⟨u,hu⟩ := started_calls 1 [⟨(),.obj 9⟩]
  exact ⟨u,hu,(counters_exact_iff (started_init 1) hu (by decide)).mpr (by decide)⟩

/-- One call that finds no error counts one error and one correction. -/
theorem counters_no_error :
    ctrlxtQecInit (showing 0) unstarted true true = some (started,0) ∧
      ∃ u, Run (corrections (showing 0)) started [⟨(),.obj 9⟩] u ∧
        u.qec.errorCount.toInt = 1 ∧ u.qec.correctionCount.toInt = 1 ∧
        tally (corrections (showing 0)) (Named (showing 0)) started [⟨(),.obj 9⟩] = 0 ∧
        tally (corrections (showing 0)) (Issued (showing 0)) started [⟨(),.obj 9⟩] = 0 :=
  ⟨rfl,_,run_iff_exec.mpr rfl,rfl,rfl,rfl,rfl⟩

/-- The statistics can be asked for, and the rate is a percentage. -/
def StatsSound (q : CtrlxtQec) : Prop :=
  ∀ stats, ∃ r, ctrlxtQecGetStats q (some stats) = some (some r) ∧ r.successRate.toNat ≤ 100

theorem stats_zero {q : CtrlxtQec} (hq : q.errorCount = 0) : ¬StatsSound q := by
  intro h
  obtain ⟨r,hr,-⟩ := h ⟨0,0,0⟩
  simp [ctrlxtQecGetStats,intDiv,hq] at hr

theorem bmod_le_self (n : ℕ) : (n:ℤ).bmod (2^32) ≤ n := by
  rw [Int.bmod_def]
  split_ifs <;> omega

theorem statsSound_iff {q : CtrlxtQec} {measured returned : ℕ}
    (hm : q.errorCount = BitVec.ofNat 32 measured)
    (hz : q.correctionCount = BitVec.ofNat 32 returned) (hle : returned ≤ measured)
    (hfew : measured < 2^31) :
    StatsSound q ↔
      0 < measured ∧ -(measured:ℤ) < ((100*returned : ℕ):ℤ).bmod (2^32) := by
  by_cases h0 : measured = 0
  · subst h0
    exact iff_of_false (stats_zero hm) (fun h => absurd h.1 (lt_irrefl 0))
  · have herror : q.errorCount.toInt = measured := by rw [hm,ofNat_toInt hfew]
    have hproduct : (q.correctionCount*100).toInt = ((100*returned : ℕ):ℤ).bmod (2^32) := by
      rw [hz,mul_comm,show (100:CInt) = BitVec.ofNat 32 100 from rfl,← BitVec.ofNat_mul,
        BitVec.toInt_ofNat']
    obtain ⟨hdiv,hquot⟩ := intDiv_pos (q.correctionCount*100)
      (show 0 < q.errorCount.toInt by omega)
    have hbound : ((100*returned : ℕ):ℤ).bmod (2^32) ≤ (100:ℕ)*(measured:ℤ) := by
      have hself := bmod_le_self (100*returned)
      push_cast at hself ⊢
      omega
    have hrate := tdiv_between 100 (show (0:ℤ) < measured by omega) hbound
    rw [← hrate,← hproduct,← herror,← hquot,← toNat_le_iff _ (by decide)]
    constructor
    · intro h
      obtain ⟨r,hr,hle⟩ := h ⟨0,0,0⟩
      simp only [ctrlxtQecGetStats,hdiv,Option.map_some,Option.some.injEq] at hr
      subst hr
      exact ⟨by omega,hle⟩
    · rintro ⟨-,hr⟩ stats
      exact ⟨⟨q.errorCount,q.correctionCount,_⟩,by rw [ctrlxtQecGetStats,hdiv]; rfl,hr⟩

/-- While fewer than `2^31` calls have completed the measurement, the statistics
can be asked for exactly when one has, and a hundred times the calls that
returned zero, as an `int`, is more than minus the calls that measured. -/
theorem stats_sound_iff (hi : ctrlxtQecInit L s₀ a b = some (s,0))
    (h : Run (corrections L) s calls u)
    (hfew : tally (corrections L) (Measured L) s calls < 2^31) :
    StatsSound u.qec ↔
      0 < tally (corrections L) (Measured L) s calls ∧
        -(tally (corrections L) (Measured L) s calls : ℤ) <
          ((100*tally (corrections L) (Returned L) s calls : ℕ):ℤ).bmod (2^32) := by
  obtain ⟨herror,hcorrection⟩ := counters_tally hi h
  exact statsSound_iff herror hcorrection (returned_le_measured h) hfew

theorem stats_sound_flip :
    ∃ u, Run (corrections (showing 1)) started [⟨(),.obj 9⟩] u ∧ StatsSound u.qec := by
  obtain ⟨u,hu⟩ := started_calls 1 [⟨(),.obj 9⟩]
  exact ⟨u,hu,(stats_sound_iff (started_init 1) hu (by decide)).mpr (by decide)⟩

/-- Right after the initialisation the statistics divide by zero. -/
theorem stats_unmeasured :
    ctrlxtQecInit (showing 0) unstarted true true = some (started,0) ∧
      Run (corrections (showing 0)) started [] started ∧
      ctrlxtQecGetStats started.qec (some ⟨0,0,0⟩) = none :=
  ⟨rfl,.nil _,rfl⟩

end CtrlxtKernel.ErrorCorrection
