import CtrlxtKernel.KernelLocksRuns
import CtrlxtKernel.QuantumClassicalData

/-!
# The calls of a conversion

The loop of `ctrlxt_qc_classical_to_quantum`, call by call, against the list of
gates that its data ask for. The gate layer may answer anything.
-/

set_option autoImplicit false

namespace CtrlxtKernel.KernelLocks
open MachineInt ErrorCorrection QuantumClassical LockDiscipline FallibleCalls QuantumGateRange

variable {t : Target} {W : Type*}

/-- A Hadamard gate for every byte, and a phase gate after it when the byte is odd. -/
def intendedGates (L : QuantumLayer t W) (state : Ptr) (bytes : ℕ → UInt8) (size : ℕ) :
    List GateCall :=
  (List.range size).flatMap fun (i : ℕ) =>
    ⟨L.gateH,state,i,.null,0⟩::
      if (bytes i).toNat%2 = 1 then [⟨L.gatePhase,state,i,.null,0⟩] else []

theorem byteCalls_parity (L : QuantumLayer t W) (state : Ptr) (i : ℕ) (byte : UInt8) :
    byteCalls L state i byte =
      ⟨L.gateH,state,i,.null,0⟩::
        if byte.toNat%2 = 1 then [⟨L.gatePhase,state,i,.null,0⟩] else [] := by
  have hbit := lowBit_toNat byte
  have hodd : byte &&& 1 ≠ 0 ↔ byte.toNat%2 = 1 := by
    rw [ne_eq,← UInt8.toNat_inj,hbit]
    show ¬byte.toNat%2 = 0 ↔ _
    omega
  unfold byteCalls
  by_cases h : byte.toNat%2 = 1
  · rw [if_pos (hodd.mpr h),if_pos h]
  · rw [if_neg (fun hb => h (hodd.mp hb)),if_neg h]

/-- The code with its locks, on a live interface, makes the gates of the data one
after the other and stops at the first that fails. -/
theorem conversion_run (L : QuantumLayer t W) {s : QcState t Unit} (hs : Live s) (world : W)
    (bytes : ℕ → UInt8) {size : ULong t} (hsize : size ≤ s.qc.bufferSize) :
    ∃ v : QcState t (W × List GateCall), v.qc = s.qc ∧
      run (answerQc (traced L)) (ctrlxtQcClassicalToQuantum (traced L) (some bytes) size)
          (onInterface s world) =
        some (converted v (performAll (logged L.gateApply) (world,[])
          (intendedGates L s.qc.quantumState bytes size.toNat))) := by
  obtain ⟨v,hv,hqc,hqec,hlive⟩ := fill_live (onInterface_live hs world) bytes size
  have hcalls : conversionCalls (traced L) v size =
      intendedGates L s.qc.quantumState bytes size.toNat := by
    rw [fill_conversion hv]
    exact List.flatMap_congr fun i _ => byteCalls_parity (traced L) s.qc.quantumState i (bytes i)
  have happly : applyGates (traced L) v.qec.world (conversionCalls (traced L) v size) =
      performAll (logged L.gateApply) (world,[])
        (intendedGates L s.qc.quantumState bytes size.toNat) := by
    rw [applyGates_eq,hcalls,hqec]
    rfl
  refine ⟨v,hqc,?_⟩
  have hfits : ¬size > (onInterface s world).qc.bufferSize := BitVec.not_lt.mpr hsize
  rw [classicalToQuantum_run,QuantumClassical.ctrlxtQcClassicalToQuantum]
  simp only [hfits,if_false,hv,Option.bind_some,hlive.state,or_true,if_true,happly,converted]
  split_ifs <;> rfl

/-- Whatever the gate layer answers, the gates applied are those that the data ask
for, up to and including the first that fails; its code is returned, and the
conversion is counted only when there is none. -/
theorem conversion_calls (L : QuantumLayer t W) {s : QcState t Unit} (hs : Live s) (world : W)
    (bytes : ℕ → UInt8) {size : ULong t} (hsize : size ≤ s.qc.bufferSize) :
    ∃ u ret, run (answerQc (traced L)) (ctrlxtQcClassicalToQuantum (traced L) (some bytes) size)
        (onInterface s world) = some (u,ret) ∧
      (∀ k r, FirstFailure (answers L.gateApply world
          (intendedGates L s.qc.quantumState bytes size.toNat)) k r →
        u.qec.world.2 = (intendedGates L s.qc.quantumState bytes size.toNat).take (k+1) ∧
          ret = r ∧ u.qc.conversionCount = s.qc.conversionCount) ∧
      ((∀ r ∈ answers L.gateApply world (intendedGates L s.qc.quantumState bytes size.toNat),
          0 ≤ r) →
        u.qec.world.2 = intendedGates L s.qc.quantumState bytes size.toNat ∧
          ret = 0 ∧ u.qc.conversionCount = s.qc.conversionCount+1) := by
  obtain ⟨v,hqc,hrun⟩ := conversion_run L hs world bytes hsize
  have hcount : v.qc.conversionCount = s.qc.conversionCount := by rw [hqc]
  generalize hp : performAll (logged L.gateApply) (world,[])
    (intendedGates L s.qc.quantumState bytes size.toNat) = p at hrun
  refine ⟨(converted v p).1,(converted v p).2,hrun,?_,?_⟩
  · intro k r h
    obtain ⟨w',hw⟩ := logged_first h []
    obtain rfl := hp.symm.trans hw
    rw [converted,if_pos h.2.1]
    exact ⟨rfl,rfl,hcount⟩
  · intro h
    obtain ⟨w',hw⟩ := logged_complete h []
    obtain rfl := hp.symm.trans hw
    rw [converted,if_neg (lt_irrefl 0)]
    exact ⟨rfl,rfl,congrArg (fun c => c+1) hcount⟩

def scripted (t : Target) : QuantumLayer t (List ℤ) where
  gateX := 1
  gateY := 2
  gateZ := 3
  gateCnot := 4
  gateH := 5
  gatePhase := 6
  gateApply w _ := (w.tail,w.headD 0)
  stateInit w _ _ := (w,0)
  stateMeasure w _ _ := (w,0)
  stateGetValue _ _ := 0

/-- Two odd bytes, when the third of their four gates fails. -/
theorem conversion_calls_third :
    ∃ u, run (answerQc (traced (scripted .bits64)))
        (ctrlxtQcClassicalToQuantum (traced (scripted .bits64)) (some fun _ => 1) 2)
        (onInterface eightQubits [0,0,-5]) = some (u,-5) ∧
      u.qec.world.2 = [⟨5,.obj 0,0,.null,0⟩,⟨6,.obj 0,0,.null,0⟩,⟨5,.obj 0,1,.null,0⟩] ∧
      u.qc.conversionCount = 0 := by
  have hlive : Live eightQubits := ⟨rfl,rfl⟩
  have hsize : (2 : ULong .bits64) ≤ eightQubits.qc.bufferSize := by decide
  obtain ⟨u,ret,hrun,hfirst,-⟩ :=
    conversion_calls (scripted .bits64) hlive [0,0,-5] (fun _ => 1) hsize
  obtain ⟨hcalls,rfl,hcount⟩ := hfirst 2 (-5) ⟨rfl,by decide,by decide⟩
  exact ⟨u,hrun,hcalls,hcount⟩

end CtrlxtKernel.KernelLocks
