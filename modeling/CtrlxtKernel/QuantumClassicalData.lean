import CtrlxtKernel.QuantumGateRange

/-!
# What a conversion keeps of its data

A byte becomes a Hadamard gate on the qubit with its index, and a phase gate
when its lowest bit is set. In the other direction every byte is the result of
measuring the whole state again; no qubit is named.
-/

set_option autoImplicit false

namespace CtrlxtKernel.QuantumClassical
open MachineInt ObjectHeap ErrorCorrection FallibleCalls QuantumGateRange

variable {t : Target} {W : Type*}

def dataGates (L : QuantumLayer t W) (state : Ptr) (bytes : ℕ → UInt8) (size : ℕ) :
    List GateCall :=
  (List.range size).flatMap fun i => byteCalls L state i (bytes i)

theorem toQuantum_success {L : QuantumLayer t W} {s u : QcState t W} {bytes : ℕ → UInt8}
    {size : ULong t} (h : ctrlxtQcClassicalToQuantum L s (some bytes) size = some (u,0)) :
    applyGates L s.qec.world (dataGates L s.qc.quantumState bytes size.toNat) =
        (u.qec.world,0) ∧ u.qc.quantumState = s.qc.quantumState := by
  have hne : -einval ≠ 0 := by decide
  unfold ctrlxtQcClassicalToQuantum at h
  simp only at h
  split_ifs at h with hsize
  · exact absurd (Prod.mk.inj (Option.some.inj h)).2 hne
  · obtain ⟨v,hv,h⟩ := Option.bind_eq_some_iff.mp h
    obtain ⟨hqc,hqec,-⟩ := fill_byte hv
    rw [fill_conversion hv,hqec,applyGates_eq] at h
    rw [applyGates_eq,dataGates]
    split_ifs at h with hlive hret
    · exact absurd (Prod.mk.inj (Option.some.inj h)).2 hret.ne
    · have hzero := performAll_zero _ _ hret
      cases h
      exact ⟨Prod.ext rfl hzero,by rw [← hqc]; rfl⟩

def issued (s : QcState t (W × List GateCall)) : List (CInt × ℤ) :=
  s.qec.world.2.map fun c => (c.gate,c.qubit)

def byteGates (L : QuantumLayer t W) (i : ℕ) (byte : UInt8) : List (CInt × ℤ) :=
  (byteCalls L .null i byte).map fun c => (c.gate,c.qubit)

theorem byteGates_tag (L : QuantumLayer t W) (i : ℕ) (byte : UInt8) :
    ∀ c ∈ byteGates L i byte, c.2.toNat = i := by
  intro c hc
  unfold byteGates byteCalls at hc
  split_ifs at hc
  · rcases List.mem_cons.mp hc with rfl | hc
    · rfl
    · rw [List.mem_singleton.mp hc]
      rfl
  · rw [List.mem_singleton.mp hc]
    rfl

theorem lowBit_toNat (byte : UInt8) : (byte &&& 1).toNat = byte.toNat%2 := by
  simp [Nat.and_one_is_mod]

theorem byteGates_bit (L : QuantumLayer t W) (i : ℕ) (byte : UInt8) :
    byteGates L i byte =
      if (byte &&& 1).toNat = 0 then [(L.gateH,(i:ℤ))]
      else [(L.gateH,(i:ℤ)),(L.gatePhase,(i:ℤ))] := by
  have hzero : byte &&& 1 = 0 ↔ (byte &&& 1).toNat = 0 := UInt8.toNat_inj.symm
  unfold byteGates byteCalls
  by_cases h : byte &&& 1 = 0
  · rw [if_neg (not_not.mpr h),if_pos (hzero.mp h)]
    rfl
  · rw [if_pos h,if_neg (fun h0 => h (hzero.mpr h0))]
    rfl

theorem byteGates_eq_iff (L : QuantumLayer t W) (i : ℕ) (b c : UInt8) :
    byteGates L i b = byteGates L i c ↔ b &&& 1 = c &&& 1 := by
  have hb := lowBit_toNat b
  have hc := lowBit_toNat c
  constructor
  · intro h
    have hlen := congrArg List.length h
    rw [byteGates_bit,byteGates_bit] at hlen
    rw [← UInt8.toNat_inj]
    split_ifs at hlen <;> simp at hlen <;> omega
  · intro h
    rw [byteGates_bit,byteGates_bit,h]

theorem conversion_issued {L : QuantumLayer t W} {s : QcState t Unit} {world : W}
    {bytes : ℕ → UInt8} {size : ULong t} {u : QcState t (W × List GateCall)}
    (h : ctrlxtQcClassicalToQuantum (traced L) (onInterface s world) (some bytes) size =
      some (u,0)) :
    issued u = (List.range size.toNat).flatMap fun i => byteGates L i (bytes i) := by
  obtain ⟨happly,-⟩ := toQuantum_success h
  let calls := dataGates (traced L) s.qc.quantumState bytes size.toNat
  have hdone : performAll (logged L.gateApply) (world,[]) calls = (u.qec.world,0) := by
    rw [applyGates_eq] at happly
    exact happly
  have hlog := logged_success L.gateApply world [] calls (by rw [hdone]; exact lt_irrefl 0)
  rw [hdone] at hlog
  rw [issued,hlog,List.nil_append]
  show (dataGates (traced L) s.qc.quantumState bytes size.toNat).map _ = _
  unfold dataGates
  rw [List.map_flatMap]
  congr 1
  funext i
  unfold byteGates byteCalls
  split_ifs <;> rfl

/-- Two conversions that succeed issue different gates exactly when some byte
differs in its lowest bit. -/
theorem conversion_distinct_iff (L : QuantumLayer t W) {s : QcState t Unit} {world : W}
    {size : ULong t} {bytes bytes' : ℕ → UInt8} {u u' : QcState t (W × List GateCall)}
    (h : ctrlxtQcClassicalToQuantum (traced L) (onInterface s world) (some bytes) size =
      some (u,0))
    (h' : ctrlxtQcClassicalToQuantum (traced L) (onInterface s world) (some bytes') size =
      some (u',0)) :
    issued u ≠ issued u' ↔ ∃ i < size.toNat, bytes i &&& 1 ≠ bytes' i &&& 1 := by
  have hrows := rows_eq_iff (fun c : CInt × ℤ => c.2.toNat)
    (fun i => byteGates_tag L i (bytes i)) (fun i => byteGates_tag L i (bytes' i)) size.toNat
  rw [conversion_issued h,conversion_issued h',ne_eq,hrows]
  simp only [byteGates_eq_iff,not_forall,exists_prop,ne_eq]

theorem conversion_distinct_bit :
    ∃ u u', ctrlxtQcClassicalToQuantum (traced (idle .bits64)) (onInterface eightQubits ())
        (some fun _ => 1) 1 = some (u,0) ∧
      ctrlxtQcClassicalToQuantum (traced (idle .bits64)) (onInterface eightQubits ())
        (some fun _ => 2) 1 = some (u',0) ∧ issued u ≠ issued u' := by
  have h : ∃ u, ctrlxtQcClassicalToQuantum (traced (idle .bits64)) (onInterface eightQubits ())
    (some fun _ => 1) 1 = some (u,0) := ⟨_,rfl⟩
  have h' : ∃ u, ctrlxtQcClassicalToQuantum (traced (idle .bits64)) (onInterface eightQubits ())
    (some fun _ => 2) 1 = some (u,0) := ⟨_,rfl⟩
  obtain ⟨u,hu⟩ := h
  obtain ⟨u',hu'⟩ := h'
  have hbit : ∃ i < (1 : ULong .bits64).toNat, (fun _ : ℕ => (1:UInt8)) i &&& 1 ≠ 2 &&& 1 :=
    ⟨0,by decide,by decide⟩
  exact ⟨u,u',hu,hu',(conversion_distinct_iff (idle .bits64) hu hu').mpr hbit⟩

/-- The bytes 0 and 254 become the same gate. -/
theorem conversion_loses_bits :
    ∃ u u', ctrlxtQcClassicalToQuantum (traced (idle .bits64)) (onInterface eightQubits ())
        (some fun _ => 0) 1 = some (u,0) ∧
      ctrlxtQcClassicalToQuantum (traced (idle .bits64)) (onInterface eightQubits ())
        (some fun _ => 254) 1 = some (u',0) ∧ issued u = issued u' :=
  ⟨_,_,rfl,rfl,rfl⟩

abbrev BasisState := Fin qcQubits → Bool

/-- On a basis state a measurement to an address leaves the state as it is and
writes there a value that depends on the state alone. -/
structure MeasureLaws (L : QuantumLayer t W) where
  reading : W → ℕ → Option BasisState
  byteAt : W → ULong t → UInt8
  value : BasisState → UInt8
  measure : ∀ {w i b a w' ret}, reading w i = some b →
    L.stateMeasure w (.obj i) (.addr a) = (w',ret) → 0 ≤ ret →
    reading w' i = some b ∧ byteAt w' a = value b ∧ ∀ c, c ≠ a → byteAt w' c = byteAt w c

variable {L : QuantumLayer t W}

def HoldsBasis (laws : MeasureLaws L) (s : QcState t W) (b : BasisState) : Prop :=
  ∃ i, s.qc.quantumState = .obj i ∧ laws.reading s.qec.world i = some b

structure Converts (laws : MeasureLaws L) (n : ULong t) (s : QcState t W) (b : BasisState)
    (data : ULong t) (u : QcState t W) : Prop where
  holds : HoldsBasis laws s b
  success : ctrlxtQcQuantumToClassical L s (some data) n = some (u,0)

def Convertible (laws : MeasureLaws L) (n : ULong t) (b : BasisState) : Prop :=
  ∃ s data u, Converts laws n s b data u

def written (laws : MeasureLaws L) (u : QcState t W) (data : ULong t) (j : ℕ) : UInt8 :=
  laws.byteAt u.qec.world (data+BitVec.ofNat t.width j)

/-- From every byte the value of the qubit with its index can be read off; an index
may have a reading of its own. -/
def RecoversBy (laws : MeasureLaws L) (n : ULong t) (qubitOf : Fin qcQubits → UInt8 → Bool) :
    Prop :=
  ∀ s b data u, Converts laws n s b data u →
    ∀ j : Fin qcQubits, j.val < n.toNat → qubitOf j (written laws u data j) = b j

theorem measureAt_values (laws : MeasureLaws L) {i : ℕ} {b : BasisState}
    (addrs : List (ULong t)) {w w' : W} {ret : ℤ} (hw : laws.reading w i = some b)
    (h : measureAt L (.obj i) w addrs = (w',ret)) (hret : 0 ≤ ret) :
    (∀ a ∈ addrs, laws.byteAt w' a = laws.value b) ∧
      ∀ a, a ∉ addrs → laws.byteAt w' a = laws.byteAt w a := by
  induction addrs generalizing w with
  | nil =>
    cases h
    exact ⟨fun a ha => absurd ha List.not_mem_nil,fun _ _ => rfl⟩
  | cons a rest ih =>
    rcases hm : L.stateMeasure w (.obj i) (.addr a) with ⟨w₁,r⟩
    simp only [measureAt,hm] at h
    split_ifs at h with hneg
    · cases h
      exact absurd hneg (not_lt.mpr hret)
    · obtain ⟨hr,ha,hkeep⟩ := laws.measure hw hm (not_lt.mp hneg)
      obtain ⟨hin,hout⟩ := ih hr h
      constructor
      · intro c hc
        by_cases hcr : c ∈ rest
        · exact hin c hcr
        · obtain rfl : c = a := (List.mem_cons.mp hc).resolve_right hcr
          rw [hout c hcr,ha]
      · intro c hc
        obtain ⟨hca,hcr⟩ := not_or.mp (mt List.mem_cons.mpr hc)
        rw [hout c hcr,hkeep c hca]

theorem converts_written {laws : MeasureLaws L} {n : ULong t} {s u : QcState t W}
    {b : BasisState} {data : ULong t} (h : Converts laws n s b data u) {j : ℕ}
    (hj : j < n.toNat) : written laws u data j = laws.value b := by
  obtain ⟨⟨i,hi,hb⟩,hs⟩ := h
  have hne : -einval ≠ 0 := by decide
  have hmem : data+BitVec.ofNat t.width j ∈ byteAddrs data n :=
    List.mem_map.mpr ⟨j,List.mem_range.mpr hj,rfl⟩
  unfold ctrlxtQcQuantumToClassical at hs
  rcases hm : measureAt L s.qc.quantumState s.qec.world (byteAddrs data n) with ⟨w,ret⟩
  simp only [hm] at hs
  split_ifs at hs with hsize hlive hneg
  · exact absurd (Prod.mk.inj (Option.some.inj hs)).2 hne
  · exact absurd (Prod.mk.inj (Option.some.inj hs)).2 hneg.ne
  · rw [hi] at hm
    have hvalues := (measureAt_values laws _ hb hm (not_lt.mp hneg)).1
    cases hs
    exact hvalues _ hmem

/-- A reading for every index works when states of one value agree in their first qubits. -/
theorem recoversBy_iff (laws : MeasureLaws L) (n : ULong t)
    (qubitOf : Fin qcQubits → UInt8 → Bool) :
    RecoversBy laws n qubitOf ↔ ∀ b, Convertible laws n b →
      ∀ j : Fin qcQubits, j.val < n.toNat → qubitOf j (laws.value b) = b j := by
  constructor
  · intro h b ⟨s,data,u,hc⟩ j hj
    rw [← converts_written hc hj]
    exact h s b data u hc j hj
  · intro h s b data u hc j hj
    rw [converts_written hc hj]
    exact h b ⟨s,data,u,hc⟩ j hj

/-- Besides, every basis state occurs and measuring it succeeds. -/
structure SteadyLaws (L : QuantumLayer t W) extends MeasureLaws L where
  occurs : ∀ b, ∃ w i, reading w i = some b
  succeeds : ∀ {w i b} a, reading w i = some b → 0 ≤ (L.stateMeasure w (.obj i) (.addr a)).2

theorem measureAt_succeeds (laws : SteadyLaws L) {i : ℕ} {b : BasisState}
    (addrs : List (ULong t)) {w : W} (hw : laws.reading w i = some b) :
    ∃ w', measureAt L (.obj i) w addrs = (w',0) := by
  induction addrs generalizing w with
  | nil => exact ⟨w,rfl⟩
  | cons a rest ih =>
    have hret := laws.succeeds a hw
    rcases hm : L.stateMeasure w (.obj i) (.addr a) with ⟨w₁,r⟩
    rw [hm] at hret
    obtain ⟨w',hw'⟩ := ih (laws.measure hw hm hret).1
    exact ⟨w',by rw [measureAt,hm]; simp only [if_neg (not_lt.mpr hret),hw']⟩

theorem live_heap (i : ℕ) : ∃ states : Heap ℕ, states.cells i = some qcQubits := by
  have hnext : ∃ states : Heap ℕ, states.next = i := by
    induction i with
    | zero => exact ⟨Heap.empty,rfl⟩
    | succ i ih =>
      obtain ⟨states,hn⟩ := ih
      exact ⟨states.alloc qcQubits,by rw [← hn]; rfl⟩
  obtain ⟨states,rfl⟩ := hnext
  exact ⟨states.alloc qcQubits,Function.update_self _ _ _⟩

theorem all_convertible (laws : SteadyLaws L) {n : ULong t} (hn : n.toNat ≤ 8) (b : BasisState) :
    Convertible laws.toMeasureLaws n b := by
  obtain ⟨w,i,hw⟩ := laws.occurs b
  obtain ⟨states,hlive⟩ := live_heap i
  let s : QcState t W := ⟨⟨.obj i,.null,BitVec.ofNat t.width qcBufferSize,0,0⟩,Heap.empty,
    ⟨⟨.null,.null,0,0⟩,states,w⟩⟩
  have hbuffer : s.qc.bufferSize.toNat = qcBufferSize := by cases t <;> rfl
  have hsize : ¬n > s.qc.bufferSize := by
    rw [gt_iff_lt,BitVec.lt_def,hbuffer]
    unfold qcBufferSize
    omega
  have hstate : s.stateLive = true := stateLive_iff.mpr ⟨i,qcQubits,rfl,hlive⟩
  obtain ⟨w',hw'⟩ := measureAt_succeeds laws (byteAddrs 0 n) hw
  have hall : measureAt L s.qc.quantumState s.qec.world (byteAddrs 0 n) = (w',0) := hw'
  have hsuccess : ∃ u, ctrlxtQcQuantumToClassical L s (some 0) n = some (u,0) := by
    simp only [ctrlxtQcQuantumToClassical,if_neg hsize,hstate,or_true,if_true,hall,lt_irrefl,
      if_false]
    exact ⟨_,rfl⟩
  obtain ⟨u,hu⟩ := hsuccess
  exact ⟨s,0,u,⟨i,rfl,hw⟩,hu⟩

theorem recovers_iff (laws : SteadyLaws L) {n : ULong t} (hn : n.toNat ≤ 8)
    (qubitOf : Fin qcQubits → UInt8 → Bool) :
    RecoversBy laws.toMeasureLaws n qubitOf ↔
      ∀ b (j : Fin qcQubits), j.val < n.toNat → qubitOf j (laws.value b) = b j := by
  rw [recoversBy_iff]
  exact ⟨fun h b => h b (all_convertible laws hn b),fun h b _ => h b⟩

def Tells (value : BasisState → UInt8) (j : Fin qcQubits) : Prop :=
  ∀ b b', value b = value b' → b j = b' j

theorem tells_iff (value : BasisState → UInt8) (j : Fin qcQubits) :
    Tells value j ↔ ∃ qubitOf : UInt8 → Bool, ∀ b, qubitOf (value b) = b j := by
  have h := Function.factorsThrough_iff (f := value) fun b : BasisState => b j
  constructor
  · intro ht
    obtain ⟨qubitOf,hq⟩ := h.mp fun b b' => ht b b'
    exact ⟨qubitOf,fun b => (congrFun hq b).symm⟩
  · rintro ⟨qubitOf,hq⟩ b b' hv
    rw [← hq b,← hq b',hv]

theorem single_reading {value : BasisState → UInt8} {n : ℕ} {qubitOf : UInt8 → Bool}
    (h : ∀ b (j : Fin qcQubits), j.val < n → qubitOf (value b) = b j) : n ≤ 1 := by
  by_contra hn
  let first : Fin qcQubits := ⟨0,by decide⟩
  let second : Fin qcQubits := ⟨1,by decide⟩
  have h1 := h (fun j => j = first) first (show 0 < n by omega)
  have h2 := h (fun j => j = first) second (show 1 < n by omega)
  exact absurd (h1.symm.trans h2) (by decide)

/-- Of the sizes from 1 to 8, one reading for all bytes recovers the qubits for size
1 alone, and then exactly when the measured value tells qubit 0. With a reading of
its own for every byte, the value must tell every qubit that is asked for. -/
theorem reads_each_iff (laws : SteadyLaws L) {n : ULong t} (hn : 1 ≤ n.toNat ∧ n.toNat ≤ 8) :
    ((∃ qubitOf, RecoversBy laws.toMeasureLaws n fun _ => qubitOf) ↔
      n.toNat = 1 ∧ Tells laws.value ⟨0,by decide⟩) ∧
    ((∃ qubitOf, RecoversBy laws.toMeasureLaws n qubitOf) ↔
      ∀ j : Fin qcQubits, j.val < n.toNat → Tells laws.value j) := by
  simp only [recovers_iff laws hn.2]
  constructor
  · rw [tells_iff]
    constructor
    · rintro ⟨qubitOf,h⟩
      have hone := single_reading h
      exact ⟨by omega,qubitOf,fun b => h b ⟨0,by decide⟩ hn.1⟩
    · rintro ⟨hone,qubitOf,h⟩
      refine ⟨qubitOf,fun b j hj => ?_⟩
      obtain rfl : j = ⟨0,by decide⟩ := Fin.ext (show j.val = 0 by omega)
      exact h b
  · constructor
    · rintro ⟨qubitOf,h⟩ j hj
      exact (tells_iff _ j).mpr ⟨qubitOf j,fun b => h b j hj⟩
    · intro h
      have hread : ∀ j : Fin qcQubits, ∃ qubitOf : UInt8 → Bool,
          j.val < n.toNat → ∀ b, qubitOf (laws.value b) = b j := by
        intro j
        by_cases hj : j.val < n.toNat
        · obtain ⟨qubitOf,hq⟩ := (tells_iff _ j).mp (h j hj)
          exact ⟨qubitOf,fun _ => hq⟩
        · exact ⟨fun _ => false,fun h0 => absurd h0 hj⟩
      choose qubitOf hq using hread
      exact ⟨qubitOf,fun b j hj => hq j hj b⟩

structure BasisWorld (t : Target) where
  states : ℕ → Option BasisState
  memory : ULong t → UInt8

def basisMeasure (f : BasisState → UInt8) (w : BasisWorld t) : Ptr → Dest t → BasisWorld t × ℤ
  | .obj i, .addr a =>
    match w.states i with
    | some b => ({ w with memory := Function.update w.memory a (f b) },0)
    | none => (w,-einval)
  | _, _ => (w,-einval)

def basisLayer (t : Target) (f : BasisState → UInt8) : QuantumLayer t (BasisWorld t) where
  gateX := 1
  gateY := 2
  gateZ := 3
  gateCnot := 4
  gateH := 5
  gatePhase := 6
  gateApply w _ := (w,0)
  stateInit w _ _ := (w,0)
  stateMeasure := basisMeasure f
  stateGetValue _ _ := 0

def basisLaws (t : Target) (f : BasisState → UInt8) : MeasureLaws (basisLayer t f) where
  reading w i := w.states i
  byteAt w a := w.memory a
  value := f
  measure := by
    intro w i b a w' ret hw h hret
    simp only [basisLayer,basisMeasure,hw] at h
    cases h
    exact ⟨hw,Function.update_self _ _ _,fun c hc => Function.update_of_ne hc _ _⟩

def steadyLaws (t : Target) (f : BasisState → UInt8) : SteadyLaws (basisLayer t f) where
  toMeasureLaws := basisLaws t f
  occurs b := ⟨⟨fun _ => some b,fun _ => 0⟩,0,rfl⟩
  succeeds := by
    intro w i b a hw
    have hw : w.states i = some b := hw
    simp only [basisLayer,basisMeasure,hw,le_refl]

def inBasis (b : BasisState) : QcState .bits64 (BasisWorld .bits64) :=
  ⟨eightQubits.qc,eightQubits.buffers,
    ⟨eightQubits.qec.qec,eightQubits.qec.states,⟨fun _ => some b,fun _ => 0⟩⟩⟩

theorem inBasis_converts (f : BasisState → UInt8) (b : BasisState) :
    ∃ u, Converts (basisLaws .bits64 f) 2 (inBasis b) b 4096 u :=
  ⟨_,⟨0,rfl,rfl⟩,rfl⟩

def firstQubit (b : BasisState) : UInt8 :=
  if b ⟨0,by decide⟩ then 1 else 0

theorem reads_each_single :
    ∃ qubitOf, RecoversBy (basisLaws .bits64 firstQubit) 1 fun _ => qubitOf := by
  refine ((reads_each_iff (steadyLaws .bits64 firstQubit) (n := 1) (by decide)).1).mpr ⟨rfl,?_⟩
  intro b b' h
  have hv : firstQubit b = firstQubit b' := h
  unfold firstQubit at hv
  split_ifs at hv with h1 h2 h2
  · exact h1.trans h2.symm
  · cases hv
  · cases hv
  · exact (Bool.eq_false_iff.mpr h1).trans (Bool.eq_false_iff.mpr h2).symm

/-- States that differ in qubit 1 alone give the same two bytes. -/
theorem reads_one_qubit :
    ¬ ∃ qubitOf, RecoversBy (basisLaws .bits64 firstQubit) 2 qubitOf := by
  rintro ⟨qubitOf,h⟩
  let one : Fin qcQubits := ⟨1,by decide⟩
  let off : BasisState := fun _ => false
  let on : BasisState := fun j => j = one
  have hread := (recoversBy_iff _ _ _).mp h
  have hoff := hread off ⟨_,_,inBasis_converts firstQubit off⟩ one (by decide)
  have hon := hread on ⟨_,_,inBasis_converts firstQubit on⟩ one (by decide)
  exact Bool.false_ne_true (hoff.symm.trans hon)

end CtrlxtKernel.QuantumClassical
