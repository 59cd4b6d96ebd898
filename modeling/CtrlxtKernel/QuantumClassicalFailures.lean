import CtrlxtKernel.QuantumClassical

/-!
# What a failed operation leaves

The operations call the gate layer up to the first failure and undo nothing.
Each is read as the sequence of calls it would make. When it fails, the calls
before the failing one were made, and the error counter has counted the
syndrome if that was measured.
-/

set_option autoImplicit false

namespace CtrlxtKernel.QuantumClassical
open MachineInt ObjectHeap ErrorCorrection FallibleCalls

variable {t : Target} {W : Type*}

inductive LayerCall (t : Target) where
  | gate (c : GateCall)
  | measure (state : Ptr) (result : Dest t)

def LayerCall.isMeasure : LayerCall t → Bool
  | .gate _ => false
  | .measure _ _ => true

def perform (L : QuantumLayer t W) (w : W) : LayerCall t → W × ℤ
  | .gate c => L.gateApply w c
  | .measure state result => L.stateMeasure w state result

def gates (cs : List GateCall) : List (LayerCall t) := cs.map .gate

def syndromeCalls (L : QuantumLayer t W) (s : QecState W) (state : Ptr) : List (LayerCall t) :=
  gates (syndromeCircuit L state s.qec.ancilla)++[.measure s.qec.ancilla (.state s.qec.syndrome)]

/-- The calls of `ctrlxt_qec_apply`: the correction is chosen by what the world
shows after the measurement. -/
def qecCalls (L : QuantumLayer t W) (s : QecState W) (state : Ptr) : List (LayerCall t) :=
  let (world,_) := performAll (perform L) s.world (syndromeCalls L s state)
  syndromeCalls L s state++
    gates (correction L state (L.stateGetValue world s.qec.syndrome)).toList

def controlledCalls (L : QuantumLayer t W) (s : QcState t W) (gate qubit : CInt) :
    List (LayerCall t) :=
  let call : GateCall := ⟨gate,s.qc.quantumState,qubit.toInt,.null,0⟩
  .gate call::qecCalls L { s.qec with world := (L.gateApply s.qec.world call).1 } s.qc.quantumState

def dataCalls (L : QuantumLayer t W) (state : Ptr) (bytes : ℕ → UInt8) (size : ℕ) :
    List (LayerCall t) :=
  gates ((List.range size).flatMap fun i => byteCalls L state i (bytes i))

/-- The calls in `done` and no others took effect on the states, and of the
corrector's record only the error counter has moved, by the measurements made. -/
def Leaves (L : QuantumLayer t W) (s u : QecState W) (calls : List (LayerCall t)) (ret : ℤ) :
    Prop :=
  ∃ done, Stopped (perform L) s.world calls u.world ret done ∧ u.states = s.states ∧
    u.qec = { s.qec with
      errorCount := s.qec.errorCount+BitVec.ofNat 32 (done.countP LayerCall.isMeasure) }

theorem applyGates_perform (L : QuantumLayer t W) (w : W) (cs : List GateCall) :
    applyGates L w cs = performAll (perform L) w (gates cs) := by
  rw [applyGates_eq,gates,performAll_map]
  rfl

theorem gates_countP (cs : List GateCall) :
    (gates cs : List (LayerCall t)).countP LayerCall.isMeasure = 0 := by
  rw [List.countP_eq_zero]
  intro c hc
  obtain ⟨d,-,rfl⟩ := List.mem_map.mp hc
  simp [LayerCall.isMeasure]

theorem stopped_gates {L : QuantumLayer t W} {w w' : W} {cs : List GateCall} {ret : ℤ}
    {done : List (LayerCall t)} (h : Stopped (perform L) w (gates cs) w' ret done) :
    done.countP LayerCall.isMeasure = 0 := by
  obtain ⟨c,rest,hcs,-⟩ := h.next
  have ht := gates_countP (t := t) cs
  rw [hcs,List.countP_append] at ht
  omega

theorem stopped_syndrome {L : QuantumLayer t W} {w w' : W} {cs : List GateCall}
    {m : LayerCall t} {ret : ℤ} {done : List (LayerCall t)}
    (h : Stopped (perform L) w (gates cs++[m]) w' ret done) :
    done.countP LayerCall.isMeasure = 0 := by
  obtain ⟨c,rest,hcs,-⟩ := h.next
  have hprefix : ∃ r, gates cs = done++r := by
    rcases List.eq_nil_or_concat rest with rfl | ⟨r,x,rfl⟩
    · exact ⟨[],by rw [List.append_nil]; exact (List.append_inj' hcs rfl).1⟩
    · have hsplit : gates cs++[m] = (done++c::r)++[x] := by rw [hcs]; simp
      exact ⟨c::r,(List.append_inj' hsplit rfl).1⟩
  obtain ⟨r,hr⟩ := hprefix
  have ht := gates_countP (t := t) cs
  rw [hr,List.countP_append] at ht
  omega

theorem measureSyndrome_eq (L : QuantumLayer t W) (s : QecState W) (state : Ptr) :
    measureSyndrome L s state =
      let (world,ret) := performAll (perform L) s.world (syndromeCalls L s state)
      if ret < 0 then ({ s with world := world },ret)
      else ({ s with
        world := world
        qec := { s.qec with errorCount := s.qec.errorCount+1 } },0) := by
  have hm : ∀ w : W, performAll (perform L) w
      [.measure s.qec.ancilla (.state s.qec.syndrome)] =
        if (L.stateMeasure w s.qec.ancilla (.state s.qec.syndrome)).2 < 0 then
          L.stateMeasure w s.qec.ancilla (.state s.qec.syndrome)
        else ((L.stateMeasure w s.qec.ancilla (.state s.qec.syndrome)).1,0) := fun _ => rfl
  simp only [measureSyndrome,syndromeCalls,applyGates_perform,performAll_append,hm]
  split_ifs with h1 h2 h3
  · rfl
  · rfl
  · omega
  · rfl

/-- A failure before the syndrome is known, which no counter has counted. -/
theorem syndrome_leaves {L : QuantumLayer t W} (hL : FailsClean (perform L)) (s : QecState W)
    (state : Ptr) {w : W} {ret : ℤ}
    (hp : performAll (perform L) s.world (syndromeCalls L s state) = (w,ret)) (hret : ret < 0) :
    Leaves L s { s with world := w } (qecCalls L s state) ret := by
  have hst := performAll_stopped hL s.world (syndromeCalls L s state) (by rw [hp]; exact hret)
  rw [hp] at hst
  obtain ⟨done,hd⟩ := hst
  refine ⟨done,hd.append _,rfl,?_⟩
  rw [stopped_syndrome hd]
  simp

/-- A failure of the correction, after the syndrome was counted as an error. -/
theorem correction_leaves {L : QuantumLayer t W} (hL : FailsClean (perform L)) (s : QecState W)
    (state : Ptr) {w w' : W} {call : GateCall} {ret : ℤ}
    (hp : performAll (perform L) s.world (syndromeCalls L s state) = (w,0))
    (hc : correction L state (L.stateGetValue w s.qec.syndrome) = some call)
    (hg : L.gateApply w call = (w',ret)) (hret : ret < 0) :
    Leaves L s ⟨{ s.qec with errorCount := s.qec.errorCount+1 },s.states,w'⟩
      (qecCalls L s state) ret := by
  have hfail : perform L w (.gate call) = (w',ret) := hg
  obtain rfl := hL.world hfail hret
  have hcalls : qecCalls L s state = syndromeCalls L s state++[.gate call] := by
    simp only [qecCalls,hp,hc]
    rfl
  rw [hcalls]
  exact ⟨syndromeCalls L s state,⟨hret,hp,.gate call,[],rfl,hfail⟩,rfl,rfl⟩

/-- A corrector that fails on a state stopped in the calls that it would make. -/
theorem qecApply_leaves {L : QuantumLayer t W} (hL : FailsClean (perform L)) {s u : QecState W}
    {state : Ptr} {ret : ℤ} (hs : state ≠ .null) (h : ctrlxtQecApply L s state = (u,ret))
    (hret : ret < 0) : Leaves L s u (qecCalls L s state) ret := by
  rw [ctrlxtQecApply,if_neg hs,measureSyndrome_eq] at h
  rcases hp : performAll (perform L) s.world (syndromeCalls L s state) with ⟨w,r⟩
  simp only [hp] at h
  by_cases hr : r < 0
  · simp only [hr,if_true] at h
    cases h
    exact syndrome_leaves hL s state hp hr
  · have hzero := performAll_zero s.world (syndromeCalls L s state)
      (show ¬(performAll (perform L) _ _).2 < 0 by rw [hp]; exact hr)
    rw [hp] at hzero
    obtain rfl : r = 0 := hzero
    simp only [lt_irrefl,if_false] at h
    cases hc : correction L state (L.stateGetValue w s.qec.syndrome) with
    | none =>
      simp only [applyCorrection,hc,lt_irrefl,if_false] at h
      cases h
      exact absurd hret (lt_irrefl 0)
    | some call =>
      rcases hg : L.gateApply w call with ⟨w',r'⟩
      simp only [applyCorrection,hc,hg] at h
      split_ifs at h with hr'
      · cases h
        exact correction_leaves hL s state hp hc hg hr'
      · cases h
        exact absurd hret (lt_irrefl 0)

theorem stateLive_ne {s : QcState t W} (h : s.stateLive = true) : s.qc.quantumState ≠ .null := by
  obtain ⟨i,n,hi,-⟩ := stateLive_iff.mp h
  rw [hi]
  simp

theorem controlled_leaves {L : QuantumLayer t W} (hL : FailsClean (perform L)) {s u : QcState t W}
    {gate qubit : CInt} {controlData : Bool} {ret : ℤ}
    (h : ctrlxtQcControlledOperation L s gate qubit controlData = some (u,ret)) (hret : ret < 0) :
    controlData = false ∧ u = s ∧ ret = -einval ∨
      controlData = true ∧ u.qc = s.qc ∧
        Leaves L s.qec u.qec (controlledCalls L s gate qubit) ret := by
  let call : GateCall := ⟨gate,s.qc.quantumState,qubit.toInt,.null,0⟩
  unfold ctrlxtQcControlledOperation at h
  rcases hg : L.gateApply s.qec.world call with ⟨w,r⟩
  have hcall : perform L s.qec.world (.gate call) = (w,r) := hg
  rcases hq : ctrlxtQecApply L (s.withWorld w).qec (s.withWorld w).qc.quantumState with ⟨v,rq⟩
  have hw : (L.gateApply s.qec.world call).1 = w := by rw [hg]
  simp only [call] at hg
  simp only [hg,hq] at h
  split_ifs at h with hcd hlive hr hrq
  · cases h
    exact Or.inl ⟨hcd,rfl,rfl⟩
  · cases h
    obtain rfl := hL.world hcall hret
    exact Or.inr ⟨Bool.eq_true_of_not_eq_false hcd,rfl,[],⟨hr,rfl,.gate call,_,rfl,hcall⟩,rfl,
      by simp [QcState.withWorld]⟩
  · cases h
    refine Or.inr ⟨Bool.eq_true_of_not_eq_false hcd,rfl,?_⟩
    obtain ⟨done,hd,hst,hqec⟩ := qecApply_leaves hL (stateLive_ne hlive) hq hrq
    have hcons : ¬(perform L s.qec.world (.gate call)).2 < 0 := by
      rw [hcall]
      exact hr
    refine ⟨.gate call::done,?_,hst,?_⟩
    · rw [controlledCalls]
      simp only [call] at hw
      rw [hw]
      apply Stopped.cons hcons
      rw [hcall]
      exact hd
    · rw [hqec,List.countP_cons]
      rfl
  · cases h
    exact absurd hret (lt_irrefl 0)

theorem fill_byte {s v : QcState t W} {bytes : ℕ → UInt8} {size : ULong t}
    (h : s.fill bytes size = some v) :
    v.qc = s.qc ∧ v.qec = s.qec ∧ ∀ i < size.toNat, v.byte i = bytes i := by
  unfold QcState.fill at h
  split_ifs at h with h0
  · cases h
    subst h0
    exact ⟨rfl,rfl,fun i hi => absurd hi (by simp)⟩
  · split at h
    · rename_i j hj
      obtain ⟨old,-,h⟩ := Option.bind_eq_some_iff.mp h
      obtain ⟨buffers,hst,rfl⟩ := Option.map_eq_some_iff.mp h
      refine ⟨rfl,rfl,fun i hi => ?_⟩
      obtain ⟨hc,-,-⟩ := store_spec hst
      simp [QcState.byte,hj,hc,hi]
    · cases h

theorem fill_conversion {L : QuantumLayer t W} {s v : QcState t W} {bytes : ℕ → UInt8}
    {size : ULong t} (h : s.fill bytes size = some v) :
    conversionCalls L v size =
      (List.range size.toNat).flatMap fun i => byteCalls L s.qc.quantumState i (bytes i) := by
  obtain ⟨hqc,-,hb⟩ := fill_byte h
  have hcongr : ∀ i ∈ List.range size.toNat,
      byteCalls L v.qc.quantumState i (v.byte i) = byteCalls L s.qc.quantumState i (bytes i) := by
    intro i hi
    rw [hqc,hb i (List.mem_range.mp hi)]
  rw [conversionCalls,List.flatMap_congr hcongr]

theorem fill_calls {L : QuantumLayer t W} {s v : QcState t W} {bytes : ℕ → UInt8}
    {size : ULong t} (h : s.fill bytes size = some v) :
    gates (conversionCalls L v size) = dataCalls L s.qc.quantumState bytes size.toNat := by
  rw [fill_conversion h,dataCalls]

theorem toQuantum_leaves {L : QuantumLayer t W} (hL : FailsClean (perform L)) {s u : QcState t W}
    {data : Option (ℕ → UInt8)} {size : ULong t} {ret : ℤ}
    (h : ctrlxtQcClassicalToQuantum L s data size = some (u,ret)) (hret : ret < 0) :
    (data = none ∨ size > s.qc.bufferSize) ∧ u = s ∧ ret = -einval ∨
      ∃ bytes, data = some bytes ∧ size ≤ s.qc.bufferSize ∧ u.qc = s.qc ∧
        Leaves L s.qec u.qec (dataCalls L s.qc.quantumState bytes size.toNat) ret := by
  unfold ctrlxtQcClassicalToQuantum at h
  cases data with
  | none =>
    cases h
    exact Or.inl ⟨Or.inl rfl,rfl,rfl⟩
  | some bytes =>
    simp only at h
    split_ifs at h with hsize
    · cases h
      exact Or.inl ⟨Or.inr hsize,rfl,rfl⟩
    · obtain ⟨v,hv,h⟩ := Option.bind_eq_some_iff.mp h
      obtain ⟨hqc,hqec,-⟩ := fill_byte hv
      rw [applyGates_perform,fill_calls hv,hqec] at h
      rcases hp : performAll (perform L) s.qec.world
        (dataCalls L s.qc.quantumState bytes size.toNat) with ⟨w,r⟩
      simp only [hp] at h
      split_ifs at h with hlive hr
      · cases h
        have hst := performAll_stopped hL s.qec.world
          (dataCalls L s.qc.quantumState bytes size.toNat) (by rw [hp]; exact hr)
        rw [hp] at hst
        obtain ⟨done,hd⟩ := hst
        refine Or.inr ⟨bytes,rfl,BitVec.not_lt.mp hsize,hqc,done,hd,?_,?_⟩
        · simp [QcState.withWorld,hqec]
        · rw [stopped_gates hd]
          simp [QcState.withWorld,hqec]
      · cases h
        exact absurd hret (lt_irrefl 0)

/-- A failed operation has rejected its argument and changed nothing, or it leaves
what the calls before the failing one made. The counters of the interface and of
corrections are as they were, and that of errors has counted the syndrome if it
was measured. -/
theorem failure_leaves (L : QuantumLayer t W) (hL : FailsClean (perform L)) :
    (∀ (s u : QcState t W) data size ret,
      ctrlxtQcClassicalToQuantum L s data size = some (u,ret) → ret < 0 →
      (data = none ∨ size > s.qc.bufferSize) ∧ u = s ∧ ret = -einval ∨
        ∃ bytes, data = some bytes ∧ size ≤ s.qc.bufferSize ∧ u.qc = s.qc ∧
          Leaves L s.qec u.qec (dataCalls L s.qc.quantumState bytes size.toNat) ret) ∧
    (∀ (s u : QcState t W) gate qubit controlData ret,
      ctrlxtQcControlledOperation L s gate qubit controlData = some (u,ret) → ret < 0 →
      controlData = false ∧ u = s ∧ ret = -einval ∨
        controlData = true ∧ u.qc = s.qc ∧
          Leaves L s.qec u.qec (controlledCalls L s gate qubit) ret) ∧
    (∀ (s u : QecState W) state ret, ctrlxtQecApply L s state = (u,ret) → ret < 0 →
      state = .null ∧ u = s ∧ ret = -einval ∨
        state ≠ .null ∧ Leaves L s u (qecCalls L s state) ret) := by
  refine ⟨fun _ _ _ _ _ h hret => toQuantum_leaves hL h hret,
    fun _ _ _ _ _ _ h hret => controlled_leaves hL h hret,fun s u state ret h hret => ?_⟩
  by_cases hs : state = .null
  · rw [ctrlxtQecApply,if_pos hs] at h
    cases h
    exact Or.inl ⟨hs,rfl,rfl⟩
  · exact Or.inr ⟨hs,qecApply_leaves hL hs h hret⟩

def phaseless (t : Target) : QuantumLayer t ℕ where
  gateX := 1
  gateY := 2
  gateZ := 3
  gateCnot := 4
  gateH := 5
  gatePhase := 6
  gateApply world call := if call.gate = 6 then (world,-1) else (world+1,0)
  stateInit world _ _ := (world,0)
  stateMeasure world _ _ := (world,0)
  stateGetValue _ _ := 0

theorem phaseless_clean (t : Target) : FailsClean (perform (phaseless t)) := by
  intro w c h
  cases c with
  | gate call =>
    simp only [perform,phaseless] at h ⊢
    split_ifs at h ⊢ with hg
    · rfl
    · exact absurd h (lt_irrefl 0)
  | measure state result => exact absurd h (lt_irrefl 0)

def prepared : QcState .bits64 ℕ where
  qc := ⟨.obj 0,.obj 0,1024,0,0⟩
  buffers := Heap.empty.alloc fun _ => 0
  qec := ⟨⟨.obj 1,.obj 2,0,0⟩,((Heap.empty.alloc 8).alloc 3).alloc 3,0⟩

theorem failure_leaves_hadamard :
    ∃ u, ctrlxtQcClassicalToQuantum (phaseless .bits64) prepared (some fun _ => 1) 1 =
        some (u,-1) ∧ u.qc = prepared.qc ∧
      Leaves (phaseless .bits64) prepared.qec u.qec
        (dataCalls (phaseless .bits64) (.obj 0) (fun _ => 1) 1) (-1) := by
  refine ⟨_,rfl,?_⟩
  rcases (failure_leaves (phaseless .bits64) (phaseless_clean .bits64)).1 prepared _
    (some fun _ => 1) 1 (-1) rfl (by decide) with ⟨-,-,h⟩ | ⟨bytes,h,-,hqc,hleaves⟩
  · exact absurd h (by decide)
  · cases h
    exact ⟨hqc,hleaves⟩

/-- The phase gate of the first byte fails, and the Hadamard gate before it stays. -/
theorem failure_leaves_trace :
    FailsClean (perform (phaseless .bits64)) ∧
      ∃ u, ctrlxtQcClassicalToQuantum (phaseless .bits64) prepared (some fun _ => 1) 1 =
        some (u,-1) ∧ u.qec.world ≠ prepared.qec.world :=
  ⟨phaseless_clean .bits64,_,rfl,by decide⟩

end CtrlxtKernel.QuantumClassical
