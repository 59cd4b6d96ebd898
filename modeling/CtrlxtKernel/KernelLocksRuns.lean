import CtrlxtKernel.KernelLocks
import CtrlxtKernel.QuantumMemoryBlocks

/-!
# The code with locks, run by itself

Without other threads the calls of an operation are answered from the state of
the kernel. Then the code that takes locks does what the functions without
locks do.
-/

set_option autoImplicit false

namespace CtrlxtKernel.KernelLocks
open MachineInt ObjectHeap ErrorCorrection QuantumClassical QuantumMemory LockDiscipline

variable {t : Target} {W : Type*}

def answerQec (L : QuantumLayer t W) (s : QecState W) :
    (op : KernelOp t) → Option (QecState W × op.Answer)
  | .gateApply c =>
    let (world,ret) := L.gateApply s.world c
    some ({ s with world := world },ret)
  | .stateMeasure state result =>
    let (world,ret) := L.stateMeasure s.world state result
    some ({ s with world := world },ret)
  | .stateGetValue state => some (s,L.stateGetValue s.world state)
  | .ancilla => some (s,s.qec.ancilla)
  | .syndrome => some (s,s.qec.syndrome)
  | .incErrorCount => some ({ s with qec := { s.qec with errorCount := s.qec.errorCount+1 } },())
  | .incCorrectionCount =>
    some ({ s with qec := { s.qec with correctionCount := s.qec.correctionCount+1 } },())
  | _ => none

/-- The calls of the interface. To pass on its state is to touch it. -/
def answerQc (L : QuantumLayer t W) (s : QcState t W) :
    (op : KernelOp t) → Option (QcState t W × op.Answer)
  | .bufferSize => some (s,s.qc.bufferSize)
  | .memcpy bytes size => (s.fill bytes size).map fun s => (s,())
  | .classicalBuffer i => some (s,s.byte i)
  | .quantumState => if s.stateLive then some (s,s.qc.quantumState) else none
  | .incConversionCount =>
    some ({ s with qc := { s.qc with conversionCount := s.qc.conversionCount+1 } },())
  | .incMeasurementCount =>
    some ({ s with qc := { s.qc with measurementCount := s.qc.measurementCount+1 } },())
  | op => (answerQec L s.qec op).map fun r => ({ s with qec := r.1 },r.2)

theorem measureSyndrome_run (L : QuantumLayer t W) (s : QecState W) (state : Ptr) :
    run (answerQec L) (measureSyndrome L state) s =
      some (ErrorCorrection.measureSyndrome L s state) := by
  have h0 : ¬(0:ℤ) < 0 := lt_irrefl 0
  simp only [measureSyndrome,ErrorCorrection.measureSyndrome,syndromeCircuit,applyGates,run_bind,
    run_ask,run_ite,answerQec,Option.bind_some]
  split_ifs <;> rfl

theorem applyCorrection_run (L : QuantumLayer t W) (s : QecState W) (state : Ptr) :
    run (answerQec L) (applyCorrection L state) s =
      some (ErrorCorrection.applyCorrection L s state) := by
  simp only [applyCorrection,ErrorCorrection.applyCorrection,run_bind,run_ask,answerQec,
    Option.bind_some]
  cases correction L state (L.stateGetValue s.world s.qec.syndrome) with
  | none => rfl
  | some gate => rfl

theorem ctrlxtQecApply_run (L : QuantumLayer t W) (s : QecState W) (state : Ptr) :
    run (answerQec L) (ctrlxtQecApply L state) s =
      some (ErrorCorrection.ctrlxtQecApply L s state) := by
  simp only [ctrlxtQecApply,ErrorCorrection.ctrlxtQecApply,run_bind,run_ite,run_lock,run_unlock,
    run_ask,measureSyndrome_run,applyCorrection_run,answerQec,Option.bind_some]
  split_ifs <;> rfl

@[simp] theorem answerQc_gateApply (L : QuantumLayer t W) (s : QcState t W) (c : GateCall) :
    answerQc L s (.gateApply c) =
      some (s.withWorld (L.gateApply s.qec.world c).1,(L.gateApply s.qec.world c).2) := rfl

@[simp] theorem answerQc_stateMeasure (L : QuantumLayer t W) (s : QcState t W) (state : Ptr)
    (result : Dest t) :
    answerQc L s (.stateMeasure state result) =
      some (s.withWorld (L.stateMeasure s.qec.world state result).1,
        (L.stateMeasure s.qec.world state result).2) := rfl

@[simp] theorem withWorld_world (s : QcState t W) (w : W) : (s.withWorld w).qec.world = w := rfl

@[simp] theorem withWorld_qc (s : QcState t W) (w : W) : (s.withWorld w).qc = s.qc := rfl

@[simp] theorem withWorld_withWorld (s : QcState t W) (v w : W) :
    (s.withWorld v).withWorld w = s.withWorld w := rfl

def bytesCalls (L : QuantumLayer t W) (s : QcState t W) (is : List ℕ) : List GateCall :=
  is.flatMap fun i => byteCalls L s.qc.quantumState i (s.byte i)

def converted (s : QcState t W) (r : W × ℤ) : QcState t W × ℤ :=
  let s := s.withWorld r.1
  if r.2 < 0 then (s,r.2)
  else ({ s with qc := { s.qc with conversionCount := s.qc.conversionCount+1 } },0)

theorem converted_cons (L : QuantumLayer t W) (s : QcState t W) (w : W) (c : GateCall)
    (cs : List GateCall) :
    converted s (applyGates L w (c::cs)) =
      if (L.gateApply w c).2 < 0 then (s.withWorld (L.gateApply w c).1,(L.gateApply w c).2)
      else converted s (applyGates L (L.gateApply w c).1 cs) := by
  simp only [applyGates,converted]
  split_ifs <;> rfl

theorem convertBytes_run (L : QuantumLayer t W) {s : QcState t W} (hs : s.stateLive = true)
    (is : List ℕ) :
    run (answerQc L) (convertBytes L is) s =
      some (converted s (applyGates L s.qec.world (bytesCalls L s is))) := by
  induction is generalizing s with
  | nil => rfl
  | cons i is ih =>
    have hrest : ∀ w, run (answerQc L) (convertBytes L is) (s.withWorld w) =
        some (converted s (applyGates L w (bytesCalls L s is))) :=
      fun w => ih (s := s.withWorld w) hs
    have hread : ∀ w, answerQc L (s.withWorld w) .quantumState =
        some (s.withWorld w,s.qc.quantumState) := fun w => if_pos hs
    have hfirst : answerQc L s .quantumState = some (s,s.qc.quantumState) := if_pos hs
    have hbyte : answerQc L s (.classicalBuffer i) = some (s,s.byte i) := rfl
    have hcalls : bytesCalls L s (i::is) =
        byteCalls L s.qc.quantumState i (s.byte i)++bytesCalls L s is := rfl
    simp only [convertBytes,run_bind,run_ask,run_ite,run_unlock,run_pure,hbyte,hfirst,hread,hcalls,
      Option.bind_some,answerQc_gateApply,withWorld_world,withWorld_withWorld,hrest,byteCalls]
    by_cases hbit : s.byte i &&& 1 = 0
    · simp only [hbit,ne_eq,not_true_eq_false,if_false,List.cons_append,List.nil_append,
        converted_cons]
      split_ifs <;> rfl
    · simp only [hbit,ne_eq,not_false_eq_true,if_true,List.cons_append,List.nil_append,
        converted_cons]
      split_ifs <;> rfl

theorem convertBytes_dead (L : QuantumLayer t W) {s : QcState t W} (hs : s.stateLive = false)
    {is : List ℕ} (his : is ≠ []) : run (answerQc L) (convertBytes L is) s = none := by
  obtain ⟨i,is,rfl⟩ := List.exists_cons_of_ne_nil his
  have hread : answerQc L s .quantumState = none := if_neg (by simp [hs])
  have hbyte : answerQc L s (.classicalBuffer i) = some (s,s.byte i) := rfl
  simp only [convertBytes,run_bind,run_ask,hbyte,hread,Option.bind_some,Option.bind_none]

theorem range_ne_nil {size : ULong t} (h : size ≠ 0) : List.range size.toNat ≠ [] := by
  intro hnil
  rw [List.range_eq_nil] at hnil
  exact h (BitVec.eq_of_toNat_eq hnil)

theorem classicalToQuantum_run (L : QuantumLayer t W) (s : QcState t W)
    (data : Option (ℕ → UInt8)) (size : ULong t) :
    run (answerQc L) (ctrlxtQcClassicalToQuantum L data size) s =
      QuantumClassical.ctrlxtQcClassicalToQuantum L s data size := by
  cases data with
  | none => rfl
  | some bytes =>
    have hread : answerQc L s .bufferSize = some (s,s.qc.bufferSize) := rfl
    simp only [ctrlxtQcClassicalToQuantum,QuantumClassical.ctrlxtQcClassicalToQuantum,run_bind,
      run_ask,run_ite,run_lock,hread,Option.bind_some]
    split_ifs with hsize
    · rfl
    · show ((s.fill bytes size).map fun s => (s,())).bind _ = _
      cases s.fill bytes size with
      | none => rfl
      | some u =>
        show run (answerQc L) (convertBytes L (List.range size.toNat)) u = _
        rw [Option.bind_some]
        cases hu : u.stateLive with
        | true =>
          have hcalls : bytesCalls L u (List.range size.toNat) = conversionCalls L u size := rfl
          rw [convertBytes_run L hu,if_pos (Or.inr rfl),hcalls]
          simp only [converted]
          split_ifs <;> rfl
        | false =>
          by_cases h0 : size = 0
          · rw [h0]
            rfl
          · rw [convertBytes_dead L hu (range_ne_nil h0),
              if_neg (not_or.mpr ⟨h0,Bool.false_ne_true⟩)]

def measured (s : QcState t W) (r : W × ℤ) : QcState t W × ℤ :=
  let s := s.withWorld r.1
  if r.2 < 0 then (s,r.2)
  else ({ s with qc := { s.qc with measurementCount := s.qc.measurementCount+1 } },0)

theorem measureBytes_run (L : QuantumLayer t W) {s : QcState t W} (hs : s.stateLive = true)
    (data : ULong t) (is : List ℕ) :
    run (answerQc L) (measureBytes data is) s =
      some (measured s (measureAt L s.qc.quantumState s.qec.world
        (is.map fun i => data+BitVec.ofNat t.width i))) := by
  induction is generalizing s with
  | nil => rfl
  | cons i is ih =>
    have hrest : ∀ w, run (answerQc L) (measureBytes data is) (s.withWorld w) =
        some (measured s (measureAt L s.qc.quantumState w
          (is.map fun i => data+BitVec.ofNat t.width i))) := fun w => ih (s := s.withWorld w) hs
    have hread : answerQc L s .quantumState = some (s,s.qc.quantumState) := if_pos hs
    simp only [measureBytes,run_bind,run_ask,run_ite,run_unlock,run_pure,hread,Option.bind_some,
      answerQc_stateMeasure,hrest,List.map_cons,measureAt,measured]
    split_ifs <;> rfl

theorem measureBytes_dead (L : QuantumLayer t W) {s : QcState t W} (hs : s.stateLive = false)
    (data : ULong t) {is : List ℕ} (his : is ≠ []) :
    run (answerQc L) (measureBytes data is) s = none := by
  obtain ⟨i,is,rfl⟩ := List.exists_cons_of_ne_nil his
  have hread : answerQc L s .quantumState = none := if_neg (by simp [hs])
  simp only [measureBytes,run_bind,run_ask,hread,Option.bind_none]

theorem quantumToClassical_run (L : QuantumLayer t W) (s : QcState t W)
    (data : Option (ULong t)) (size : ULong t) :
    run (answerQc L) (ctrlxtQcQuantumToClassical data size) s =
      QuantumClassical.ctrlxtQcQuantumToClassical L s data size := by
  cases data with
  | none => rfl
  | some data =>
    have hread : answerQc L s .bufferSize = some (s,s.qc.bufferSize) := rfl
    simp only [ctrlxtQcQuantumToClassical,QuantumClassical.ctrlxtQcQuantumToClassical,run_bind,
      run_ask,run_ite,run_lock,hread,Option.bind_some]
    by_cases hsize : size > s.qc.bufferSize
    · rw [if_pos hsize,if_pos hsize]
      rfl
    · rw [if_neg hsize,if_neg hsize]
      cases hs : s.stateLive with
      | true =>
        have haddrs : (List.range size.toNat).map (fun i => data+BitVec.ofNat t.width i) =
            byteAddrs data size := rfl
        rw [measureBytes_run L hs,if_pos (Or.inr rfl),haddrs]
        simp only [measured]
        split_ifs <;> rfl
      | false =>
        by_cases h0 : size = 0
        · rw [h0]
          rfl
        · rw [measureBytes_dead L hs data (range_ne_nil h0),
            if_neg (not_or.mpr ⟨h0,Bool.false_ne_true⟩)]

theorem qecApply_run (L : QuantumLayer t W) (s : QcState t W) (state : Ptr) :
    run (answerQc L) (ctrlxtQecApply L state) s =
      some ({ s with qec := (ErrorCorrection.ctrlxtQecApply L s.qec state).1 },
        (ErrorCorrection.ctrlxtQecApply L s.qec state).2) := by
  have hrelated : ∀ (v : QecState W) (s' : QcState t W) (op : KernelOp t) u x,
      { s with qec := v } = s' → answerQec L v op = some (u,x) →
        ∃ u', answerQc L s' op = some (u',x) ∧ { s with qec := u } = u' := by
    rintro v s' op u x rfl h
    refine ⟨_,?_,rfl⟩
    cases op <;> first | cases h; rfl | cases h
  obtain ⟨u',hu',rfl⟩ := run_related (answerQec L) hrelated rfl (ctrlxtQecApply_run L s.qec state)
  exact hu'

theorem controlledOperation_run (L : QuantumLayer t W) (s : QcState t W) (gate qubit : CInt)
    (controlData : Bool) :
    run (answerQc L) (ctrlxtQcControlledOperation L gate qubit controlData) s =
      QuantumClassical.ctrlxtQcControlledOperation L s gate qubit controlData := by
  have hread : ∀ w, answerQc L (s.withWorld w) .quantumState =
      if s.stateLive then some (s.withWorld w,s.qc.quantumState) else none := fun w => rfl
  have hfirst : answerQc L s .quantumState =
    if s.stateLive then some (s,s.qc.quantumState) else none := rfl
  simp only [ctrlxtQcControlledOperation,QuantumClassical.ctrlxtQcControlledOperation,run_bind,
    run_ask,run_ite,run_lock,run_unlock,run_pure,hfirst,Option.bind_some]
  cases hs : s.stateLive with
  | false => simp
  | true =>
    rcases hg : L.gateApply s.qec.world ⟨gate,s.qc.quantumState,qubit.toInt,.null,0⟩ with ⟨w,ret⟩
    simp only [hs,hg,if_true,Option.bind_some,answerQc_gateApply,hread,qecApply_run,withWorld_qc]

def answerQmem (o : AllocOutcome) (q : CtrlxtQmem t) :
    (op : KernelOp t) → Option (CtrlxtQmem t × op.Answer)
  | .allocatedQubits => some (q,q.allocatedQubits)
  | .maxQubits => some (q,q.maxQubits)
  | .kzallocBlock =>
    if o.kzalloc then some (withHeap q (q.heap.alloc (.block zeroedBlock)),some q.heap.next)
    else some (q,none)
  | .stateAlloc n =>
    if o.quantumStateAlloc then some (withHeap q (q.heap.alloc (.state n)),some q.heap.next)
    else some (q,none)
  | .setBlock p b => (q.heap.store p (.block b)).map fun k => (withHeap q k,())
  | .listAdd p => some ({ q with usedBlocks := p::q.usedBlocks },())
  | .addTotal n => some ({ q with totalQubits := q.totalQubits+narrow n },())
  | .addAllocated n => some ({ q with allocatedQubits := q.allocatedQubits+narrow n },())
  | .decAndTest (.obj p) => atomicDecAndTest q p
  | .listDel (.obj p) => some ({ q with usedBlocks := q.usedBlocks.erase p },())
  | .blockState (.obj p) => (q.block p).map fun b => (q,b.state)
  | .blockSize (.obj p) => (q.block p).map fun b => (q,b.size)
  | .stateFree s => (q.heap.free s).map fun k => (withHeap q k,())
  | .subTotal n => some ({ q with totalQubits := q.totalQubits-narrow n },())
  | .subAllocated n => some ({ q with allocatedQubits := q.allocatedQubits-narrow n },())
  | .kfreeBlock (.obj p) => (q.heap.free p).map fun k => (withHeap q k,())
  | _ => none

theorem qmemAlloc_run (o : AllocOutcome) (q : CtrlxtQmem t) (numQubits flags : ULong t) :
    run (answerQmem o) (ctrlxtQmemAlloc numQubits flags) q =
      QuantumMemory.ctrlxtQmemAlloc q numQubits flags o := by
  have hinval : -einval < 0 := by decide
  have hnomem : -enomem < 0 := by decide
  simp only [ctrlxtQmemAlloc,QuantumMemory.ctrlxtQmemAlloc,allocTests,overLimit,run_bind,run_ask,
    run_ite,run_lock,answerQmem,Option.bind_some,decide_eq_true_eq]
  by_cases hsize : numQubits = 0 ∨ numQubits.toNat > qmemMaxQubitsPerBlock
  · simp only [if_pos hsize,if_pos hinval]
    rfl
  · simp only [if_neg hsize]
    by_cases hlimit : widen t q.allocatedQubits+numQubits > widen t q.maxQubits
    · simp only [if_pos hlimit,if_pos hnomem]
      rfl
    · simp only [if_neg hlimit,lt_irrefl,if_false]
      obtain ⟨kz,sa⟩ := o
      cases kz with
      | false => rfl
      | true =>
        let h := q.heap.alloc (.block zeroedBlock)
        cases sa with
        | true =>
          let b : QuantumMemoryBlock t := ⟨some h.next,numQubits,flags,1⟩
          show ((((h.alloc (.state numQubits)).store q.heap.next (.block b)).map _).bind _) =
            ((h.alloc (.state numQubits)).store q.heap.next (.block b)).bind _
          cases (h.alloc (.state numQubits)).store q.heap.next (.block b) <;> rfl
        | false =>
          show ((h.free q.heap.next).map _).bind _ = (h.free q.heap.next).bind _
          cases h.free q.heap.next <;> rfl

theorem dropBlock_run (o : AllocOutcome) (q : CtrlxtQmem t) (p : ℕ) :
    run (answerQmem o) (dropBlock (.obj p)) q = (q.block p).bind fun b =>
      (q.heap.free p).map fun k => ({ q with
        heap := k
        totalQubits := q.totalQubits-narrow b.size
        allocatedQubits := q.allocatedQubits-narrow b.size },()) := by
  cases hb : q.block p with
  | none =>
    have hsize : answerQmem o q (.blockSize (.obj p)) = none := by simp [answerQmem,hb]
    simp only [dropBlock,run_bind,run_ask,hsize,Option.bind_none]
  | some b =>
    let q₁ : CtrlxtQmem t := { q with totalQubits := q.totalQubits-narrow b.size }
    have hsize : answerQmem o q (.blockSize (.obj p)) = some (q,b.size) := by
      simp [answerQmem,hb]
    have htotal : answerQmem o q (.subTotal b.size) = some (q₁,()) := rfl
    have hagain : answerQmem o q₁ (.blockSize (.obj p)) = some (q₁,b.size) := by
      have hsame : q₁.block p = some b := hb
      simp [answerQmem,hsame]
    simp only [dropBlock,run_bind,run_ask,hsize,htotal,hagain,Option.bind_some]
    rfl

theorem destroyBlock_run (o : AllocOutcome) (q : CtrlxtQmem t) (p : ℕ) :
    run (answerQmem o) (destroyBlock (.obj p)) q =
      (QuantumMemory.destroyBlock q p).map fun q => (q,()) := by
  let q₁ : CtrlxtQmem t := { q with usedBlocks := q.usedBlocks.erase p }
  have hlist : answerQmem o q (.listDel (.obj p)) = some (q₁,()) := rfl
  have hsame : q₁.block p = q.block p := rfl
  simp only [destroyBlock,run_bind,run_ask,hlist,Option.bind_some]
  rw [destroyBlock_eq]
  cases hb : q.block p with
  | none => simp [answerQmem,hsame,hb]
  | some b =>
    have hblock : asBlock (q.heap.cells p) = some b := hb
    have hread : answerQmem o q₁ (.blockState (.obj p)) = some (q₁,b.state) := by
      simp [answerQmem,hsame,hb]
    rw [hread]
    simp only [Option.bind_some,releaseBlock,hblock,Option.bind_eq_bind]
    cases hst : b.state with
    | none =>
      simp only [dropBlock_run,hsame,hb,Option.bind_some,Option.map_map]
      cases q.heap.free p <;> rfl
    | some s =>
      have hfree : answerQmem o q₁ (.stateFree s) =
          (q.heap.free s).map fun k => (withHeap q₁ k,()) := rfl
      simp only [run_bind,run_ask,hfree]
      cases hk : q.heap.free s with
      | none => rfl
      | some k =>
        obtain ⟨-,hc,-⟩ := free_spec hk
        simp only [Option.map_some,Option.bind_some,dropBlock_run]
        have hafter : (withHeap q₁ k).block p = if p = s then none else some b := by
          show asBlock (k.cells p) = _
          rw [hc]
          by_cases hps : p = s
          · rw [if_pos hps,hps,Function.update_self]
            rfl
          · rw [if_neg hps,Function.update_of_ne hps,hblock]
        rw [hafter]
        by_cases hps : p = s
        · have hdead : k.free p = none := free_dead (by simp [hc,hps])
          rw [if_pos hps,Option.bind_none,hdead,Option.map_none,Option.map_none]
        · rw [if_neg hps,Option.bind_some]
          show (k.free p).map _ = _
          cases k.free p <;> rfl

theorem qmemFree_run (o : AllocOutcome) (q : CtrlxtQmem t) (block : Ptr) :
    run (answerQmem o) (ctrlxtQmemFree block) q =
      (QuantumMemory.ctrlxtQmemFree q block).map fun q => (q,()) := by
  cases block with
  | null => rfl
  | errPtr e => rfl
  | obj p =>
    simp only [ctrlxtQmemFree,QuantumMemory.ctrlxtQmemFree,run_bind,run_ite,run_ask,run_lock,
      run_unlock,destroyBlock_run,reduceCtorEq,if_false,Option.bind_some]
    have hdec : answerQmem o q (.decAndTest (.obj p)) = atomicDecAndTest q p := rfl
    rw [hdec]
    cases atomicDecAndTest q p with
    | none => rfl
    | some r =>
      obtain ⟨q₁,zero⟩ := r
      cases zero with
      | false => rfl
      | true =>
        show ((QuantumMemory.destroyBlock q₁ p).map _).bind _ = Option.map _ _
        simp only [Option.bind_eq_bind,Option.bind_some,if_true]
        cases QuantumMemory.destroyBlock q₁ p <;> rfl

end CtrlxtKernel.KernelLocks
