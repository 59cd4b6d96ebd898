import CtrlxtKernel.QuantumClassicalFailures
import CtrlxtKernel.QuantumClassicalRuns
import CtrlxtKernel.QuantumDeviceRuns

/-!
# The qubits that gates are applied to

Every gate that an entry point asks for is put on a log beside the world of the
gate layer. A gate is in range if the state it names was allocated with more
qubits than its index. The interface and the device have states of eight
qubits; the error corrector takes the state of its caller.
-/

set_option autoImplicit false

namespace CtrlxtKernel.QuantumGateRange
open MachineInt ObjectHeap ErrorCorrection QuantumClassical QuantumDevice QuantumMemory
open FallibleCalls

variable {t : Target} {W : Type*}

/-- The layer with a log of the gates it was asked to apply. -/
def traced (L : QuantumLayer t W) : QuantumLayer t (W × List GateCall) where
  gateX := L.gateX
  gateY := L.gateY
  gateZ := L.gateZ
  gateCnot := L.gateCnot
  gateH := L.gateH
  gatePhase := L.gatePhase
  gateApply := logged L.gateApply
  stateInit s state value :=
    (((L.stateInit s.1 state value).1,s.2),(L.stateInit s.1 state value).2)
  stateMeasure s state result :=
    (((L.stateMeasure s.1 state result).1,s.2),(L.stateMeasure s.1 state result).2)
  stateGetValue s state := L.stateGetValue s.1 state

def onQec (s : QecState Unit) (world : W) : QecState (W × List GateCall) :=
  ⟨s.qec,s.states,world,[]⟩

def onInterface (s : QcState t Unit) (world : W) : QcState t (W × List GateCall) :=
  ⟨s.qc,s.buffers,onQec s.qec world⟩

def onDevice (s : IoctlState t Unit) (world : W) : IoctlState t (W × List GateCall) :=
  ⟨s.dev,s.qmem,world,[]⟩

def qubitsIn (states : Heap ℕ) : Ptr → Option ℕ
  | .obj i => states.cells i
  | _ => none

def stateQubits : Resource → Option ℕ
  | .state numQubits => some numQubits
  | _ => none

def deviceQubits (resources : Heap Resource) : Ptr → Option ℕ
  | .obj i => (resources.cells i).bind stateQubits
  | _ => none

def InRange (qubits : Ptr → Option ℕ) (c : GateCall) : Prop :=
  ∃ n, qubits c.state = some n ∧ 0 ≤ c.qubit ∧ c.qubit < n

/-- Whatever the layer does, the conversion returns and its gates are in range. -/
def DataInRange (s : QcState t Unit) (data : Option (ℕ → UInt8)) (size : ULong t) : Prop :=
  ∀ (W : Type) (L : QuantumLayer t W) (world : W),
    ∃ r, ctrlxtQcClassicalToQuantum (traced L) (onInterface s world) data size = some r ∧
      ∀ c ∈ r.1.qec.world.2, InRange (qubitsIn s.qec.states) c

def ControlledInRange (s : QcState t Unit) (gate qubit : CInt) (controlData : Bool) : Prop :=
  ∀ (W : Type) (L : QuantumLayer t W) (world : W),
    ∃ r, ctrlxtQcControlledOperation (traced L) (onInterface s world) gate qubit controlData =
        some r ∧
      ∀ c ∈ r.1.qec.world.2, InRange (qubitsIn s.qec.states) c

def IoctlInRange (resources : Heap Resource) (user : UserMemory t) (o : AllocOutcome)
    (s : IoctlState t Unit) (cmd : BitVec 32) (arg : ULong t) : Prop :=
  ∀ (W : Type) (L : QuantumLayer t W) (world : W) r,
    quantumIoctl (traced L) user o (onDevice s world) cmd arg = some r →
      ∀ c ∈ r.1.world.2, InRange (deviceQubits resources) c

def CorrectionInRange (t : Target) (s : QecState Unit) (state : Ptr) : Prop :=
  ∀ (W : Type) (L : QuantumLayer t W) (world : W),
    ∀ c ∈ (ctrlxtQecApply (traced L) (onQec s world) state).1.world.2,
      InRange (qubitsIn s.states) c

theorem inRange_iff {qubits : Ptr → Option ℕ} {c : GateCall} {n : ℕ}
    (h : qubits c.state = some n) : InRange qubits c ↔ 0 ≤ c.qubit ∧ c.qubit < n := by
  simp [InRange,h]

theorem applyGates_log (L : QuantumLayer t W) (s : W × List GateCall) (cs : List GateCall) :
    ∀ c ∈ (applyGates (traced L) s cs).1.2, c ∈ s.2 ∨ c ∈ cs := by
  intro c hc
  rw [applyGates_eq] at hc
  obtain ⟨done,rest,hcs,hlog⟩ := logged_prefix L.gateApply s.1 s.2 cs
  rw [traced,hlog] at hc
  rw [hcs]
  rcases List.mem_append.mp hc with hc | hc
  · exact Or.inl hc
  · exact Or.inr (List.mem_append_left rest hc)

theorem idle_log (log cs : List GateCall) :
    (applyGates (traced (idle t)) ((),log) cs).1.2 = log++cs := by
  rw [applyGates_eq]
  have hnever : ∀ w c, ¬((idle t).gateApply w c).2 < 0 := fun _ _ => lt_irrefl 0
  obtain ⟨w,hw⟩ := logged_all hnever () log cs
  rw [traced,hw]

def OnFirstThree (state : Ptr) (c : GateCall) : Prop :=
  c.state = state ∧ 0 ≤ c.qubit ∧ c.qubit < 3

theorem syndromeCircuit_gate {L : QuantumLayer t W} {state ancilla : Ptr} {c : GateCall}
    (h : c ∈ syndromeCircuit L state ancilla) : OnFirstThree state c := by
  simp only [syndromeCircuit,List.mem_cons,List.not_mem_nil,or_false] at h
  rcases h with rfl | rfl | rfl <;> exact ⟨rfl,by norm_num,by norm_num⟩

theorem correction_gate {L : QuantumLayer t W} {state : Ptr} {v : ℤ} {c : GateCall}
    (h : correction L state v = some c) : OnFirstThree state c := by
  unfold correction at h
  split at h <;> cases h <;> exact ⟨rfl,by norm_num,by norm_num⟩

theorem measureSyndrome_log (L : QuantumLayer t W) (s : QecState (W × List GateCall))
    (state : Ptr) : ∀ c ∈ (measureSyndrome (traced L) s state).1.world.2,
      c ∈ s.world.2 ∨ OnFirstThree state c := by
  have hlog : (measureSyndrome (traced L) s state).1.world.2 =
      (applyGates (traced L) s.world (syndromeCircuit (traced L) state s.qec.ancilla)).1.2 := by
    unfold measureSyndrome
    simp only
    split_ifs <;> rfl
  intro c hc
  rw [hlog] at hc
  exact (applyGates_log L _ _ c hc).imp_right syndromeCircuit_gate

theorem applyCorrection_log (L : QuantumLayer t W) (s : QecState (W × List GateCall))
    (state : Ptr) : ∀ c ∈ (applyCorrection (traced L) s state).1.world.2,
      c ∈ s.world.2 ∨ OnFirstThree state c := by
  intro c hc
  unfold applyCorrection at hc
  split at hc
  · exact Or.inl hc
  · rename_i call hcall
    have hmem : c ∈ s.world.2++[call] := hc
    rcases List.mem_append.mp hmem with hmem | hmem
    · exact Or.inl hmem
    · rw [List.mem_singleton.mp hmem]
      exact Or.inr (correction_gate hcall)

theorem qecApply_log (L : QuantumLayer t W) (s : QecState (W × List GateCall)) (state : Ptr) :
    ∀ c ∈ (ctrlxtQecApply (traced L) s state).1.world.2,
      c ∈ s.world.2 ∨ OnFirstThree state c := by
  have hm := measureSyndrome_log L s state
  have hboth : ∀ c ∈ (applyCorrection (traced L) (measureSyndrome (traced L) s state).1
      state).1.world.2, c ∈ s.world.2 ∨ OnFirstThree state c := by
    intro c hc
    rcases applyCorrection_log L _ state c hc with hc | hc
    · exact hm c hc
    · exact Or.inr hc
  intro c hc
  unfold ctrlxtQecApply at hc
  simp only at hc
  split_ifs at hc
  · exact Or.inl hc
  · exact hm c hc
  · exact hboth c hc
  · exact hboth c hc

theorem idle_correction_log (s : QecState (Unit × List GateCall)) (i : ℕ) :
    (ctrlxtQecApply (traced (idle t)) s (.obj i)).1.world.2 =
      s.world.2++syndromeCircuit (idle t) (.obj i) s.qec.ancilla := by
  obtain ⟨qec,states,u,log⟩ := s
  rw [← idle_log]
  rfl

theorem correction_inRange_iff {s : QecState Unit} {state : Ptr} {n : ℕ}
    (hn : qubitsIn s.states state = some n) : CorrectionInRange t s state ↔ 3 ≤ n := by
  constructor
  · intro h
    cases state with
    | null => cases hn
    | errPtr code => cases hn
    | obj i =>
      have hlast := h Unit (idle t) () ⟨(idle t).gateCnot,.obj i,2,s.qec.ancilla,2⟩
        (by rw [idle_correction_log]; simp [onQec,syndromeCircuit])
      have hrange := ((inRange_iff hn).mp hlast).2
      simp only at hrange
      omega
  · intro h W L world c hc
    rcases qecApply_log L _ state c hc with hc | ⟨rfl,hlo,hhi⟩
    · cases hc
    · exact (inRange_iff hn).mpr ⟨hlo,by omega⟩

theorem qubitsIn_live {s : QcState t W} {n : ℕ}
    (hn : qubitsIn s.qec.states s.qc.quantumState = some n) : s.stateLive = true := by
  cases hs : s.qc.quantumState with
  | null =>
    rw [hs] at hn
    cases hn
  | errPtr code =>
    rw [hs] at hn
    cases hn
  | obj i =>
    rw [hs] at hn
    exact stateLive_iff.mpr ⟨i,n,hs,hn⟩

theorem onInterface_state {s : QcState t Unit} (hs : s.stateLive = true) (world : W) :
    (onInterface s world).stateLive = true := hs

theorem onInterface_live {s : QcState t Unit} (hs : Live s) (world : W) :
    Live (onInterface s world) := ⟨hs.state,hs.buffer⟩

theorem conversion_gate {L : QuantumLayer t W} {s : QcState t W} {size : ULong t} {c : GateCall}
    (h : c ∈ conversionCalls L s size) :
    c.state = s.qc.quantumState ∧ ∃ i < size.toNat, c.qubit = i := by
  obtain ⟨i,hi,hc⟩ := List.mem_flatMap.mp h
  have hlt := List.mem_range.mp hi
  unfold byteCalls at hc
  split_ifs at hc
  · rcases List.mem_cons.mp hc with rfl | hc
    · exact ⟨rfl,i,hlt,rfl⟩
    · rw [List.mem_singleton.mp hc]
      exact ⟨rfl,i,hlt,rfl⟩
  · rw [List.mem_singleton.mp hc]
    exact ⟨rfl,i,hlt,rfl⟩

theorem hadamard_mem (L : QuantumLayer t W) (s : QcState t W) {size : ULong t} {i : ℕ}
    (hi : i < size.toNat) :
    ⟨L.gateH,s.qc.quantumState,i,.null,0⟩ ∈ conversionCalls L s size := by
  apply List.mem_flatMap.mpr
  refine ⟨i,List.mem_range.mpr hi,?_⟩
  unfold byteCalls
  split_ifs <;> exact List.mem_cons_self

theorem toQuantum_world (L : QuantumLayer t W) {s : QcState t W} (hs : Live s)
    (bytes : ℕ → UInt8) {size : ULong t} (hsize : ¬size > s.qc.bufferSize) :
    ∃ r v, ctrlxtQcClassicalToQuantum L s (some bytes) size = some r ∧
      v.qc.quantumState = s.qc.quantumState ∧
      r.1.qec.world = (applyGates L s.qec.world (conversionCalls L v size)).1 := by
  obtain ⟨v,hv,hqc,hqec,hlive⟩ := fill_live hs bytes size
  have hstate : v.qc.quantumState = s.qc.quantumState := by rw [hqc]
  simp only [ctrlxtQcClassicalToQuantum,hsize,if_false,hv,Option.bind_some,hlive.state,or_true,
    if_true,hqec]
  split_ifs
  · exact ⟨_,v,rfl,hstate,rfl⟩
  · exact ⟨_,v,rfl,hstate,rfl⟩

theorem data_small {s : QcState t Unit} (hs : Live s) {n : ℕ}
    (hn : qubitsIn s.qec.states s.qc.quantumState = some n) {bytes : ℕ → UInt8}
    {size : ULong t} (hsize : ¬size > s.qc.bufferSize) (h : DataInRange s (some bytes) size) :
    size.toNat ≤ n := by
  obtain ⟨r,v,hr,hv,hworld⟩ := toQuantum_world (traced (idle t)) (onInterface_live hs ()) bytes
    hsize
  obtain ⟨r',hr',hrange⟩ := h Unit (idle t) ()
  obtain rfl := Option.some.inj (hr.symm.trans hr')
  by_contra hlt
  have hmem := hadamard_mem (traced (idle t)) v (show n < size.toNat by omega)
  have hlog : r.1.qec.world.2 = conversionCalls (traced (idle t)) v size := by
    rw [hworld,onInterface,onQec,idle_log]
    rfl
  rw [← hlog,hv] at hmem
  have hupper := ((inRange_iff hn).mp (hrange _ hmem)).2
  exact lt_irrefl _ hupper

theorem data_inRange {s : QcState t Unit} (hs : Live s) {n : ℕ}
    (hn : qubitsIn s.qec.states s.qc.quantumState = some n) {bytes : ℕ → UInt8}
    {size : ULong t} (hsize : ¬size > s.qc.bufferSize) (h : size.toNat ≤ n) :
    DataInRange s (some bytes) size := by
  intro W L world
  obtain ⟨r,v,hr,hv,hworld⟩ := toQuantum_world (traced L) (onInterface_live hs world) bytes hsize
  refine ⟨r,hr,?_⟩
  intro c hc
  rw [hworld] at hc
  rcases applyGates_log L _ _ c hc with hc | hc
  · cases hc
  · obtain ⟨hstate,i,hi,hq⟩ := conversion_gate hc
    have hqubits : qubitsIn s.qec.states c.state = some n := by
      rw [hstate,hv]
      exact hn
    rw [inRange_iff hqubits,hq]
    omega

theorem data_refused {s : QcState t Unit} {bytes : ℕ → UInt8} {size : ULong t}
    (hsize : size > s.qc.bufferSize) : DataInRange s (some bytes) size := by
  intro W L world
  refine ⟨(onInterface s world,-einval),?_,?_⟩
  · simp only [ctrlxtQcClassicalToQuantum,onInterface,hsize,if_true]
  · intro c hc
    cases hc

theorem data_inRange_iff {s : QcState t Unit} (hs : Live s) {n : ℕ}
    (hn : qubitsIn s.qec.states s.qc.quantumState = some n) (data : Option (ℕ → UInt8))
    (size : ULong t) :
    DataInRange s data size ↔ data = none ∨ size > s.qc.bufferSize ∨ size.toNat ≤ n := by
  cases data with
  | none =>
    refine ⟨fun _ => Or.inl rfl,fun _ W L world => ⟨_,rfl,?_⟩⟩
    intro c hc
    cases hc
  | some bytes =>
    by_cases hsize : size > s.qc.bufferSize
    · exact ⟨fun _ => Or.inr (Or.inl hsize),fun _ => data_refused hsize⟩
    · constructor
      · intro h
        exact Or.inr (Or.inr (data_small hs hn hsize h))
      · intro h
        rcases h with h | h | h
        · cases h
        · exact absurd h hsize
        · exact data_inRange hs hn hsize h

theorem controlled_log (L : QuantumLayer t W) {s : QcState t (W × List GateCall)}
    (hs : s.stateLive = true) (gate qubit : CInt) :
    ∃ r, ctrlxtQcControlledOperation (traced L) s gate qubit true = some r ∧
      ∀ c ∈ r.1.qec.world.2, c ∈ s.qec.world.2 ∨
        c = ⟨gate,s.qc.quantumState,qubit.toInt,.null,0⟩ ∨ OnFirstThree s.qc.quantumState c := by
  let call : GateCall := ⟨gate,s.qc.quantumState,qubit.toInt,.null,0⟩
  let next := s.withWorld (logged L.gateApply s.qec.world call).1
  have hfirst : ∀ c ∈ next.qec.world.2, c ∈ s.qec.world.2 ∨ c = call := by
    intro c hc
    rcases List.mem_append.mp hc with hc | hc
    · exact Or.inl hc
    · exact Or.inr (List.mem_singleton.mp hc)
  have hboth : ∀ c ∈ (ctrlxtQecApply (traced L) next.qec next.qc.quantumState).1.world.2,
      c ∈ s.qec.world.2 ∨ c = call ∨ OnFirstThree s.qc.quantumState c := by
    intro c hc
    rcases qecApply_log L next.qec _ c hc with hc | hc
    · exact (hfirst c hc).imp_right Or.inl
    · exact Or.inr (Or.inr hc)
  simp only [ctrlxtQcControlledOperation,hs,if_true,if_neg (show ¬true = false by decide)]
  split_ifs
  · exact ⟨_,rfl,fun c hc => (hfirst c hc).imp_right Or.inl⟩
  · exact ⟨_,rfl,hboth⟩
  · exact ⟨_,rfl,hboth⟩

theorem idle_controlled_log {s : QcState t Unit} {i : ℕ} (hs : s.stateLive = true)
    (hi : s.qc.quantumState = .obj i) (gate qubit : CInt) :
    ∃ r, ctrlxtQcControlledOperation (traced (idle t)) (onInterface s ()) gate qubit true =
        some r ∧
      ⟨gate,s.qc.quantumState,qubit.toInt,.null,0⟩ ∈ r.1.qec.world.2 := by
  have hlive := onInterface_state hs ()
  have hstate : (onInterface s ()).qc.quantumState = .obj i := hi
  simp only [ctrlxtQcControlledOperation,hlive,if_true,if_neg (show ¬true = false by decide)]
  split_ifs with h1 h2
  · exact ⟨_,rfl,List.mem_singleton_self _⟩
  · refine ⟨_,rfl,?_⟩
    simp only [QcState.withWorld,hstate,idle_correction_log]
    exact List.mem_append_left _ (by rw [hi]; exact List.mem_singleton_self _)
  · refine ⟨_,rfl,?_⟩
    simp only [QcState.withWorld,hstate,idle_correction_log]
    exact List.mem_append_left _ (by rw [hi]; exact List.mem_singleton_self _)

theorem controlled_inRange_iff {s : QcState t Unit} (hs : s.stateLive = true) {n : ℕ}
    (hn : qubitsIn s.qec.states s.qc.quantumState = some n) (h3 : 3 ≤ n) (gate qubit : CInt)
    (controlData : Bool) :
    ControlledInRange s gate qubit controlData ↔
      controlData = false ∨ (0 ≤ qubit.toInt ∧ qubit.toInt < n) := by
  constructor
  · intro h
    cases controlData with
    | false => exact Or.inl rfl
    | true =>
      obtain ⟨i,-,hi,-⟩ := stateLive_iff.mp hs
      obtain ⟨r,hr,hmem⟩ := idle_controlled_log hs hi gate qubit
      obtain ⟨r',hr',hrange⟩ := h Unit (idle t) ()
      obtain rfl := Option.some.inj (hr.symm.trans hr')
      exact Or.inr ((inRange_iff hn).mp (hrange _ hmem))
  · intro h W L world
    cases controlData with
    | false => exact ⟨_,rfl,fun c hc => by cases hc⟩
    | true =>
      obtain ⟨r,hr,hlog⟩ := controlled_log L (onInterface_state hs world) gate qubit
      refine ⟨r,hr,?_⟩
      intro c hc
      rcases hlog c hc with hc | rfl | ⟨hstate,hlo,hhi⟩
      · cases hc
      · rcases h with h | h
        · cases h
        · exact (inRange_iff hn).mpr h
      · have hc : qubitsIn s.qec.states c.state = some n := by rw [hstate]; exact hn
        exact (inRange_iff hc).mpr ⟨hlo,by omega⟩

theorem ioctlCommand_log (L : QuantumLayer t W) {user : UserMemory t} {o : AllocOutcome}
    {s r : IoctlState t (W × List GateCall)} {cmd : BitVec 32} {arg : ULong t} {ret : ℤ}
    (hcmd : cmd ≠ quantumIoctlApplyGate t)
    (h : ioctlCommand (traced L) user o s cmd arg = some (r,ret)) : r.world.2 = s.world.2 := by
  unfold ioctlCommand at h
  split_ifs at h with h1 h2 h3 h4
  · cases h
    rfl
  · cases h
    rfl
  · cases hp : user.memoryParams arg with
    | none =>
      simp only [hp] at h
      cases h
      rfl
    | some params =>
      simp only [hp] at h
      obtain ⟨q,-,hq⟩ := Option.map_eq_some_iff.mp h
      cases hq
      rfl
  · obtain ⟨q,-,hq⟩ := Option.map_eq_some_iff.mp h
    cases hq
    rfl
  · cases h
    rfl

theorem ioctl_inRange_iff {resources : Heap Resource} {s : IoctlState t Unit} {n : ℕ}
    (hn : deviceQubits resources s.dev.state = some n) (user : UserMemory t) (o : AllocOutcome)
    (cmd : BitVec 32) (arg : ULong t) :
    IoctlInRange resources user o s cmd arg ↔ (cmd = quantumIoctlApplyGate t →
      ∀ params, user.gateParams arg = some params →
        0 ≤ params.qubit.toInt ∧ params.qubit.toInt < n) := by
  constructor
  · rintro h rfl params hp
    have hc : ioctlCommand (traced (idle t)) user o (onDevice s ()) (quantumIoctlApplyGate t) arg =
      _ := ioctlCommand_gate
    simp only [hp] at hc
    obtain ⟨u,hu,-,-,hw⟩ := quantumIoctl_of hc
    have hmem : ⟨params.gate,s.dev.state,params.qubit.toInt,.null,0⟩ ∈ u.world.2 := by
      rw [hw]
      exact List.mem_singleton_self _
    exact (inRange_iff hn).mp (h Unit (idle t) () _ hu _ hmem)
  · rintro h W L world ⟨u,ret⟩ hr c hc
    obtain ⟨r,hr,hw⟩ := quantumIoctl_from hr
    rw [hw] at hc
    by_cases hcmd : cmd = quantumIoctlApplyGate t
    · subst hcmd
      rw [ioctlCommand_gate] at hr
      cases hp : user.gateParams arg with
      | none =>
        simp only [hp] at hr
        cases hr
        cases hc
      | some params =>
        simp only [hp] at hr
        cases hr
        obtain rfl := List.mem_singleton.mp hc
        exact (inRange_iff hn).mpr (h rfl params hp)
    · rw [ioctlCommand_log L hcmd hr] at hc
      cases hc

theorem init_qubits {L : QuantumLayer t W} {s u : QcState t W} {o : QcOutcome} {ret : ℤ}
    (h : ctrlxtQcInit L s o = some (u,ret)) (hu : u.stateLive = true) :
    qubitsIn u.qec.states u.qc.quantumState = some qcQubits := by
  have hexit : ∀ {v : QcState t W} {ret' : ℤ}, v.qc.quantumState = .obj s.qec.states.next →
      (qcExit v).map (fun s => (s,ret')) ≠ some (u,ret) := by
    intro v ret' hv hcon
    obtain ⟨w,hw,he⟩ := Option.map_eq_some_iff.mp hcon
    cases he
    obtain ⟨states,hst,hw⟩ := Option.bind_eq_some_iff.mp hw
    obtain ⟨buffers,-,rfl⟩ := Option.map_eq_some_iff.mp hw
    rw [hv] at hst
    obtain ⟨hdead,-⟩ := free_freed hst
    simp [QcState.stateLive,hv,hdead] at hu
  unfold ctrlxtQcInit at h
  cases ho : o.quantumStateAlloc with
  | false =>
    simp only [ho,stateAlloc,Bool.false_eq_true,if_false,if_true] at h
    cases h
    cases hu
  | true =>
    simp only [ho,stateAlloc,if_true,reduceCtorEq,if_false] at h
    split_ifs at h
    · exact absurd h (hexit rfl)
    · cases h
      simp [qubitsIn,QcState.withWorld]
    · exact absurd h (hexit rfl)

theorem installed_qubits {D E : Driver t} {q r : CtrlxtQmem t} {o : DeviceOutcome}
    (h : ctrlxtQuantumDeviceInit D q o = some (E,r,0)) :
    ∃ d, E.quantumDev = some d ∧ deviceQubits E.resources d.state = some 8 := by
  obtain ⟨rfl,-⟩ := init_installs h
  refine ⟨_,rfl,?_⟩
  simp [deviceQubits,installed,installedDevice,stateQubits,Function.update]

/-- When the gates of an entry point are in range, whatever the gate layer does. -/
theorem gates_in_range_iff (t : Target) :
    (∀ (s : QcState t Unit) data size, s.bufferLive = true →
      qubitsIn s.qec.states s.qc.quantumState = some qcQubits →
      (DataInRange s data size ↔
        data = none ∨ size > s.qc.bufferSize ∨ size.toNat ≤ qcQubits)) ∧
    (∀ (s : QcState t Unit) gate qubit controlData,
      qubitsIn s.qec.states s.qc.quantumState = some qcQubits →
      (ControlledInRange s gate qubit controlData ↔
        controlData = false ∨ (0 ≤ qubit.toInt ∧ qubit.toInt < qcQubits))) ∧
    (∀ resources user o (s : IoctlState t Unit) cmd arg,
      deviceQubits resources s.dev.state = some 8 →
      (IoctlInRange resources user o s cmd arg ↔ (cmd = quantumIoctlApplyGate t →
        ∀ params, user.gateParams arg = some params →
          0 ≤ params.qubit.toInt ∧ params.qubit.toInt < 8))) ∧
    (∀ (s : QecState Unit) state n, qubitsIn s.states state = some n →
      (CorrectionInRange t s state ↔ 3 ≤ n)) := by
  refine ⟨?_,?_,?_,?_⟩
  · intro s data size hb hn
    exact data_inRange_iff ⟨qubitsIn_live hn,hb⟩ hn data size
  · intro s gate qubit controlData hn
    exact controlled_inRange_iff (qubitsIn_live hn) hn (by decide) gate qubit controlData
  · intro resources user o s cmd arg hn
    exact ioctl_inRange_iff hn user o cmd arg
  · intro s state n hn
    exact correction_inRange_iff hn

def eightQubits : QcState .bits64 Unit where
  qc := ⟨.obj 0,.obj 0,BitVec.ofNat 64 qcBufferSize,0,0⟩
  buffers := Heap.empty.alloc fun _ => 0
  qec := ⟨⟨.obj 1,.obj 2,0,0⟩,((Heap.empty.alloc qcQubits).alloc 3).alloc 3,()⟩

def userGate : UserMemory .bits64 := ⟨fun _ => some ⟨1,7⟩,fun _ => none⟩

theorem gates_in_range_eight :
    DataInRange eightQubits (some fun _ => 1) 8 ∧ ControlledInRange eightQubits 1 7 true ∧
      IoctlInRange (installed .bits64 .empty).resources userGate ⟨true,true⟩
        ⟨installedDevice .bits64 0,.static,()⟩ (quantumIoctlApplyGate .bits64) 4096 ∧
      CorrectionInRange .bits64 eightQubits.qec (.obj 0) := by
  obtain ⟨hdata,hcontrolled,hioctl,hcorrection⟩ := gates_in_range_iff .bits64
  refine ⟨?_,?_,?_,?_⟩
  · exact (hdata eightQubits _ 8 rfl rfl).mpr (Or.inr (Or.inr (by decide)))
  · exact (hcontrolled eightQubits 1 7 true rfl).mpr (Or.inr (by decide))
  · apply (hioctl _ userGate _ _ _ _ rfl).mpr
    intro _ params hp
    obtain rfl := Option.some.inj hp
    decide
  · exact (hcorrection eightQubits.qec (.obj 0) 8 rfl).mpr (by decide)

/-- Nine bytes fit in the buffer, and the ninth gate has index 8. -/
theorem gates_out_of_range :
    ∃ u, ctrlxtQcClassicalToQuantum (traced (idle .bits64)) (onInterface eightQubits ())
        (some fun _ => 0) 9 = some (u,0) ∧
      ∃ c ∈ u.qec.world.2, c.qubit = 8 ∧ qubitsIn u.qec.states c.state = some 8 :=
  ⟨_,rfl,_,List.mem_of_getElem? (i := 8) rfl,rfl,rfl⟩

end CtrlxtKernel.QuantumGateRange
