import CtrlxtKernel.QuantumClassicalHistory
import CtrlxtKernel.QubitWeights

/-!
# What is read back after a conversion

The lowest bit of a byte decides a phase behind the Hadamard gate of its qubit,
and a measurement does not see phases. The other direction measures the whole
state for every byte, and only the first of these measurements has a choice.
-/

set_option autoImplicit false

namespace CtrlxtKernel.QuantumClassical
noncomputable section
open MachineInt ObjectHeap ErrorCorrection StepMachine QubitAmplitudes

variable {t : Target} {W : Type*} {L : QuantumLayer t W}

theorem dataRow_succ (act : StandardAction L) (bytes : ℕ → UInt8) {n : ℕ} (hn : n < qcQubits) :
    dataRow act bytes (n+1) = dataRow act bytes n++byteRow act ⟨n,hn⟩ (bytes n) := by
  rw [dataRow,List.range_succ,List.flatMap_append,List.flatMap_singleton,dif_pos hn]
  rfl

theorem byteRow_zero (act : StandardAction L) (q : Fin qcQubits) :
    byteRow act q 0 = [⟨hadamard,q⟩] := if_neg (by decide)

theorem byteRow_twisted (act : StandardAction L) {free : Set (Fin qcQubits)}
    {ψ φ : Amplitudes (Fin qcQubits)} (h : Twisted free ψ φ) {q : Fin qcQubits} (hq : q ∈ free)
    (byte : UInt8) :
    Twisted (free\{q}) (run (byteRow act q 0) ψ) (run (byteRow act q byte) φ) := by
  have hgate := h.gate hadamard hq
  rw [byteRow_zero]
  unfold byteRow
  split_ifs
  · exact hgate.phase act.factor_norm q
  · exact hgate.mono Set.sdiff_subset

theorem dataRow_twisted (act : StandardAction L) (bytes : ℕ → UInt8) {n : ℕ} (hn : n ≤ qcQubits)
    (ψ : Amplitudes (Fin qcQubits)) :
    Twisted {q | n ≤ q.val} (run (dataRow act (fun _ => 0) n) ψ) (run (dataRow act bytes n) ψ) := by
  induction n with
  | zero => exact .refl _ ψ
  | succ k ih =>
    have hk := ih (Nat.le_of_succ_le hn)
    have hstep := byteRow_twisted act hk (q := ⟨k,hn⟩) (le_refl k) (bytes k)
    rw [dataRow_succ act _ hn,dataRow_succ act _ hn,run_append,run_append]
    refine hstep.mono fun q hq => ⟨Nat.le_of_succ_le hq,?_⟩
    rintro rfl
    exact Nat.not_succ_le_self _ hq

theorem dataRow_weight (act : StandardAction L) (bytes bytes' : ℕ → UInt8) {n : ℕ}
    (hn : n ≤ qcQubits) (ψ : Amplitudes (Fin qcQubits)) (b : BasisState) :
    ‖run (dataRow act bytes n) ψ b‖ = ‖run (dataRow act bytes' n) ψ b‖ := by
  rw [(dataRow_twisted act bytes hn ψ).weight,(dataRow_twisted act bytes' hn ψ).weight]

theorem zeroRow_ground (act : StandardAction L) {n : ℕ} (hn : n ≤ qcQubits) :
    run (dataRow act (fun _ => 0) n) ground =
      product fun q => if q.val < n then evenColumn else zeroColumn := by
  induction n with
  | zero => rfl
  | succ k ih =>
    rw [dataRow_succ act _ hn,run_append,ih (Nat.le_of_succ_le hn),byteRow_zero]
    show apply hadamard (⟨k,hn⟩ : Fin qcQubits) (product _) = _
    rw [apply_product]
    congr 1
    ext q : 1
    by_cases hq : q = ⟨k,hn⟩
    · subst hq
      rw [Function.update_self,if_neg (lt_irrefl k),if_pos (Nat.lt_succ_self k),evenColumn]
    · have hne : q.val ≠ k := fun h => hq (Fin.ext h)
      rw [Function.update_of_ne hq]
      exact if_congr (by omega) rfl rfl

/-- Half for every qubit below the border, and only words that are 0 from there on. -/
theorem border_weight {n : ℕ} (hn : n ≤ qcQubits) (b : BasisState) :
    ‖product (fun q : Fin qcQubits => if q.val < n then evenColumn else zeroColumn) b‖^2 =
      if ∀ q : Fin qcQubits, n ≤ q.val → b q = false then (1/2)^n else 0 := by
  rw [product_weight]
  have hcard : (Finset.univ.filter fun q : Fin qcQubits => q.val < n).card = n := by
    rw [Fin.card_filter_val_lt,min_eq_right hn]
  split_ifs with hall
  · have hfactor : ∀ q : Fin qcQubits,
        ‖(if q.val < n then evenColumn else zeroColumn) (b q)‖^2 = if q.val < n then 1/2 else 1 := by
      intro q
      split_ifs with hq
      · exact evenColumn_weight (b q)
      · rw [hall q (not_lt.mp hq),zeroColumn,if_neg Bool.false_ne_true,norm_one,one_pow]
    rw [Finset.prod_congr rfl fun q _ => hfactor q,Finset.prod_ite,Finset.prod_const,
      Finset.prod_const_one,mul_one,hcard]
  · obtain ⟨q,hq,hb⟩ := not_forall₂.mp hall
    refine Finset.prod_eq_zero (Finset.mem_univ q) ?_
    rw [if_neg (not_lt.mpr hq),zeroColumn,if_pos (eq_true_of_ne_false hb),norm_zero,
      zero_pow two_ne_zero]

def weights (act : StandardAction L) (s : QcState t W) : Option (BasisState → ℝ) :=
  (interfaceState act s).map fun ψ b => ‖ψ b‖^2

def Collapsed (act : StandardAction L) (w : W) (i : ℕ) (b : BasisState) : Prop :=
  ∀ c, act.amplitudes w i c ≠ 0 ↔ c = b

/-- A measurement of this register to an address settles on a basis state that has a
weight, and writes there a value that depends on it alone. -/
structure ReadingLaws (act : StandardAction L) (register : Ptr) where
  byteAt : W → ULong t → UInt8
  value : BasisState → UInt8
  measure : ∀ {w i a w' ret}, register = .obj i →
    L.stateMeasure w (.obj i) (.addr a) = (w',ret) → 0 ≤ ret →
    ∃ b, act.amplitudes w i b ≠ 0 ∧ Collapsed act w' i b ∧
      byteAt w' a = value b ∧ ∀ c, c ≠ a → byteAt w' c = byteAt w c

open Classical in
def collapsedReading (act : StandardAction L) (w : W) (i : ℕ) : Option BasisState :=
  if h : ∃ b, Collapsed act w i b then some h.choose else none

variable {act : StandardAction L} {register : Ptr}

theorem collapsedReading_iff {w : W} {i : ℕ} {b : BasisState} :
    collapsedReading act w i = some b ↔ Collapsed act w i b := by
  unfold collapsedReading
  constructor
  · intro h
    split_ifs at h with hs
    exact Option.some.inj h ▸ hs.choose_spec
  · intro h
    have hs : ∃ b, Collapsed act w i b := ⟨b,h⟩
    rw [dif_pos hs]
    exact congrArg some ((h _).mp ((hs.choose_spec _).mpr rfl))

def ReadingLaws.collapsed (laws : ReadingLaws act register) : MeasureLaws L where
  reading w i := if register = .obj i then collapsedReading act w i else none
  byteAt := laws.byteAt
  value := laws.value
  measure := by
    intro w i b a w' ret hb h hret
    split_ifs at hb with hi
    obtain ⟨c,hc,hr,ha,hkeep⟩ := laws.measure hi h hret
    obtain rfl := (collapsedReading_iff.mp hb c).mp hc
    exact ⟨(if_pos hi).trans (collapsedReading_iff.mpr hr),ha,hkeep⟩

/-- Only the first measurement of a row has a choice. -/
theorem measureAt_reads (laws : ReadingLaws act register) {i : ℕ} (hi : register = .obj i)
    {a : ULong t} {rest : List (ULong t)} {w w' : W} {ret : ℤ}
    (h : measureAt L (.obj i) w (a::rest) = (w',ret)) (hret : 0 ≤ ret) :
    ∃ b, act.amplitudes w i b ≠ 0 ∧ ∀ d ∈ a::rest, laws.byteAt w' d = laws.value b := by
  rcases hm : L.stateMeasure w (.obj i) (.addr a) with ⟨w₁,r⟩
  simp only [measureAt,hm] at h
  split_ifs at h with hneg
  · cases h
    exact absurd hneg (not_lt.mpr hret)
  · obtain ⟨b,hb,hr,ha,-⟩ := laws.measure hi hm (not_lt.mp hneg)
    have hreading : laws.collapsed.reading w₁ i = some b :=
      (if_pos hi).trans (collapsedReading_iff.mpr hr)
    obtain ⟨hin,hout⟩ := measureAt_values laws.collapsed rest hreading h hret
    refine ⟨b,hb,fun d hd => ?_⟩
    by_cases hdr : d ∈ rest
    · exact hin d hdr
    · obtain rfl := (List.mem_cons.mp hd).resolve_right hdr
      exact (hout d hdr).trans ha

/-- The bytes of a successful conversion are all the value of one state that had a weight. -/
theorem toClassical_reads {s u : QcState t W} (laws : ReadingLaws act s.qc.quantumState)
    {data size : ULong t} (hsize : size ≠ 0)
    (h : ctrlxtQcQuantumToClassical L s (some data) size = some (u,0)) :
    ∃ ψ b, interfaceState act s = some ψ ∧ ψ b ≠ 0 ∧ ∀ j < size.toNat,
      laws.byteAt u.qec.world (data+BitVec.ofNat t.width j) = laws.value b := by
  have hne : -einval ≠ 0 := by decide
  obtain ⟨n,hn⟩ : ∃ n, size.toNat = n+1 :=
    Nat.exists_eq_succ_of_ne_zero fun h0 => hsize (BitVec.eq_of_toNat_eq h0)
  obtain ⟨rest,hrest⟩ : ∃ rest, byteAddrs data size = (data+BitVec.ofNat t.width 0)::rest := by
    rw [byteAddrs,hn,List.range_succ_eq_map,List.map_cons]
    exact ⟨_,rfl⟩
  unfold ctrlxtQcQuantumToClassical at h
  rcases hm : measureAt L s.qc.quantumState s.qec.world (byteAddrs data size) with ⟨w,ret⟩
  simp only [hm] at h
  split_ifs at h with hbig hlive hneg
  · exact absurd (Prod.mk.inj (Option.some.inj h)).2 hne
  · exact absurd (Prod.mk.inj (Option.some.inj h)).2 hneg.ne
  · obtain ⟨i,_,hi,-⟩ := stateLive_iff.mp (hlive.resolve_left hsize)
    rw [hi,hrest] at hm
    obtain ⟨b,hb,hbytes⟩ := measureAt_reads laws hi hm (not_lt.mp hneg)
    rw [← hrest] at hbytes
    cases h
    refine ⟨act.amplitudes s.qec.world i,b,by rw [interfaceState,hi],hb,fun j hj => ?_⟩
    exact hbytes _ (List.mem_map.mpr ⟨j,List.mem_range.mpr hj,rfl⟩)

theorem conversion_weights (act : StandardAction L) {s s' u u' : QcState t W}
    {bytes bytes' : ℕ → UInt8} {size : ULong t} (hsize : size.toNat ≤ qcQubits)
    (hsame : interfaceState act s = interfaceState act s')
    (h : ctrlxtQcClassicalToQuantum L s (some bytes) size = some (u,0))
    (h' : ctrlxtQcClassicalToQuantum L s' (some bytes') size = some (u',0)) :
    weights act u = weights act u' := by
  rw [weights,weights,conversion_action act hsize h,conversion_action act hsize h',← hsame,
    Option.map_map,Option.map_map]
  congr 1
  funext ψ b
  exact congrArg (·^2) (dataRow_weight act bytes bytes' hsize ψ b)

def Reached (size : ℕ) (b : BasisState) : Prop :=
  ∀ q : Fin qcQubits, size ≤ q.val → b q = false

instance (size : ℕ) (b : BasisState) : Decidable (Reached size b) :=
  inferInstanceAs (Decidable (∀ q : Fin qcQubits, size ≤ q.val → b q = false))

theorem fresh_weights {s₀ s u : QcState t W} {o : QcOutcome}
    (hi : ctrlxtQcInit L s₀ o = some (s,0)) {w : W}
    (hw : interfaceState act (s.withWorld w) = interfaceState act s) {bytes : ℕ → UInt8}
    {size : ULong t} (hsize : size.toNat ≤ qcQubits)
    (h : ctrlxtQcClassicalToQuantum L (s.withWorld w) (some bytes) size = some (u,0)) :
    weights act u = some fun b => if Reached size.toNat b then (1/2)^size.toNat else 0 := by
  rw [weights,conversion_action act hsize h,hw,init_ground hi,Option.map_map,Option.map_some]
  congr 1
  funext b
  rw [Function.comp_apply,dataRow_weight act bytes (fun _ => 0) hsize,zeroRow_ground act hsize]
  exact border_weight hsize b

theorem weights_some {s : QcState t W} {ψ : Amplitudes (Fin qcQubits)}
    (h : interfaceState act s = some ψ) : weights act s = some fun b => ‖ψ b‖^2 := by
  rw [weights,h,Option.map_some]

structure MeasuredWorld (t : Target) where
  amplitudes : ℕ → Amplitudes (Fin qcQubits)
  memory : ULong t → UInt8

open Classical in
def collapsedMeasure (w : MeasuredWorld t) : Ptr → Dest t → MeasuredWorld t × ℤ
  | .obj i, .addr a =>
    if h : ∃ b, w.amplitudes i b ≠ 0 then
      (⟨Function.update w.amplitudes i (Pi.single h.choose 1),
        Function.update w.memory a (firstQubit h.choose)⟩,0)
    else (w,-einval)
  | _, _ => (w,-einval)

def measuredLayer (t : Target) : QuantumLayer t (MeasuredWorld t) where
  gateX := 1
  gateY := 2
  gateZ := 3
  gateCnot := 4
  gateH := 5
  gatePhase := 6
  gateApply w c := ({ w with amplitudes := vectorGate w.amplitudes c },0)
  stateInit w p _ := ({ w with amplitudes := vectorInit w.amplitudes p },0)
  stateMeasure := collapsedMeasure
  stateGetValue _ _ := 0

def measuredAction (t : Target) : StandardAction (measuredLayer t) where
  amplitudes w i := w.amplitudes i
  factor := (vectorAction t).factor
  factor_norm := (vectorAction t).factor_norm
  gate_h := by
    rintro w i _ _ q ⟨⟩ -
    simp [measuredLayer,vectorGate]
  gate_phase := by
    rintro w i _ _ q ⟨⟩ -
    simp [measuredLayer,vectorGate,vectorAction]
  init := by
    rintro w i _ _ ⟨⟩ -
    exact Function.update_self i ground w.amplitudes

def measuredLaws (t : Target) (register : Ptr) : ReadingLaws (measuredAction t) register where
  byteAt w a := w.memory a
  value := firstQubit
  measure := by
    intro w i a w' ret _ h hret
    have hneg : ¬0 ≤ -einval := by decide
    simp only [measuredLayer,collapsedMeasure] at h
    split_ifs at h with hb
    · cases h
      refine ⟨hb.choose,hb.choose_spec,fun c => ?_,Function.update_self _ _ _,
        fun c hc => Function.update_of_ne hc _ _⟩
      simp [measuredAction,Pi.single_apply]
    · cases h
      exact absurd hret hneg

def beforeMeasured : QcState .bits64 (MeasuredWorld .bits64) :=
  ⟨⟨.null,.null,0,0,0⟩,Heap.empty,⟨⟨.null,.null,0,0⟩,Heap.empty,⟨fun _ => ground,fun _ => 0⟩⟩⟩

def onMeasured : QcState .bits64 (MeasuredWorld .bits64) :=
  ((ctrlxtQcInit (measuredLayer .bits64) beforeMeasured ⟨true,true⟩).map Prod.fst).getD
    beforeMeasured

theorem measured_init :
    ctrlxtQcInit (measuredLayer .bits64) beforeMeasured ⟨true,true⟩ = some (onMeasured,0) :=
  rfl

def oneThenZero (i : ℕ) : UInt8 := if i = 0 then 1 else 0

def afterBytes (bytes : ℕ → UInt8) : QcState .bits64 (MeasuredWorld .bits64) :=
  ((ctrlxtQcClassicalToQuantum (measuredLayer .bits64) onMeasured (some bytes) 2).map
    Prod.fst).getD onMeasured

theorem measured_zeros :
    ctrlxtQcClassicalToQuantum (measuredLayer .bits64) onMeasured (some fun _ => 0) 2 =
      some (afterBytes fun _ => 0,0) :=
  rfl

theorem measured_oneThenZero :
    ctrlxtQcClassicalToQuantum (measuredLayer .bits64) onMeasured (some oneThenZero) 2 =
      some (afterBytes oneThenZero,0) :=
  rfl

theorem measureAt_all {w : MeasuredWorld t} {i : ℕ} (addrs : List (ULong t))
    (h : ∃ b, w.amplitudes i b ≠ 0) :
    ∃ w', measureAt (measuredLayer t) (.obj i) w addrs = (w',0) := by
  induction addrs generalizing w with
  | nil => exact ⟨w,rfl⟩
  | cons a rest ih =>
    let next : MeasuredWorld t := ⟨Function.update w.amplitudes i (Pi.single h.choose 1),
      Function.update w.memory a (firstQubit h.choose)⟩
    have hnext : ∃ b, next.amplitudes i b ≠ 0 := ⟨h.choose,by simp [next]⟩
    obtain ⟨w',hw'⟩ := ih hnext
    refine ⟨w',?_⟩
    simp only [measureAt,measuredLayer,collapsedMeasure,dif_pos h,lt_irrefl,if_false]
    exact hw'

theorem undisturbed (s : QcState .bits64 (MeasuredWorld .bits64)) :
    interfaceState (measuredAction .bits64) (s.withWorld s.qec.world) =
      interfaceState (measuredAction .bits64) s := rfl

theorem measured_read :
    ∃ v, ctrlxtQcQuantumToClassical (measuredLayer .bits64) (afterBytes fun _ => 0) (some 4096) 2 =
      some (v,0) := by
  let s := afterBytes fun _ => 0
  have hsome : interfaceState (measuredAction .bits64) s = some (s.qec.world.amplitudes 0) := rfl
  have hfresh := fresh_weights measured_init (undisturbed onMeasured) (by decide) measured_zeros
  have hweight := congrFun (Option.some.inj ((weights_some hsome).symm.trans hfresh)) fun _ => false
  have hreached : Reached (2 : ULong .bits64).toNat fun _ => false := fun _ _ => rfl
  have hb : ∃ b, s.qec.world.amplitudes 0 b ≠ 0 := by
    refine ⟨fun _ => false,fun hzero => ?_⟩
    rw [hzero,norm_zero,zero_pow two_ne_zero,if_pos hreached] at hweight
    exact (pow_pos (by norm_num) _).ne hweight
  obtain ⟨w,hw⟩ := measureAt_all (byteAddrs 4096 2) hb
  have hall : measureAt (measuredLayer .bits64) s.qc.quantumState s.qec.world
      (byteAddrs 4096 2) = (w,0) := hw
  have hsize : ¬2 > s.qc.bufferSize := by decide
  have hlive : (2 : ULong .bits64) = 0 ∨ s.stateLive := .inr rfl
  change ∃ v, ctrlxtQcQuantumToClassical _ s _ _ = _
  simp only [ctrlxtQcQuantumToClassical,if_neg hsize,if_pos hlive,hall]
  exact ⟨_,rfl⟩

/-- Whatever the data are, at most eight bytes of them leave the same weights, and a result
that is read after one conversion may be that of the other. -/
theorem data_unseen {s s' u u' v : QcState t W} (laws : ReadingLaws act u.qc.quantumState)
    {bytes bytes' : ℕ → UInt8} {size n data : ULong t} {w : W} (hsize : size.toNat ≤ 8)
    (hsame : interfaceState act s = interfaceState act s')
    (h : ctrlxtQcClassicalToQuantum L s (some bytes) size = some (u,0))
    (h' : ctrlxtQcClassicalToQuantum L s' (some bytes') size = some (u',0)) (hn : n ≠ 0)
    (hw : interfaceState act (u.withWorld w) = interfaceState act u)
    (hv : ctrlxtQcQuantumToClassical L (u.withWorld w) (some data) n = some (v,0)) :
    weights act u = weights act u' ∧
      ∃ p b, weights act u' = some p ∧ 0 < p b ∧ ∀ j < n.toNat,
        laws.byteAt v.qec.world (data+BitVec.ofNat t.width j) = laws.value b := by
  have heq := conversion_weights act hsize hsame h h'
  obtain ⟨ψ,b,hψ,hb,hbytes⟩ := toClassical_reads (s := u.withWorld w) laws hn hv
  have hsome := weights_some (hw ▸ hψ)
  exact ⟨heq,_,b,heq ▸ hsome,pow_pos (norm_pos_iff.mpr hb) 2,hbytes⟩

theorem data_unseen_two :
    ∃ v, ctrlxtQcQuantumToClassical (measuredLayer .bits64) (afterBytes fun _ => 0) (some 4096) 2 =
        some (v,0) ∧
      weights (measuredAction .bits64) (afterBytes fun _ => 0) =
        weights (measuredAction .bits64) (afterBytes oneThenZero) ∧
      ∃ p b, weights (measuredAction .bits64) (afterBytes oneThenZero) = some p ∧ 0 < p b ∧
        v.qec.world.memory 4096 = firstQubit b ∧ v.qec.world.memory 4097 = firstQubit b := by
  obtain ⟨v,hv⟩ := measured_read
  obtain ⟨hsame,p,b,hp,hpos,hbytes⟩ := data_unseen (measuredLaws .bits64 (.obj 0)) (by decide) rfl
    measured_zeros measured_oneThenZero (by decide) (undisturbed (afterBytes fun _ => 0)) hv
  exact ⟨v,hv,hsame,p,b,hp,hpos,hbytes 0 (by decide),hbytes 1 (by decide)⟩

/-- On a fresh interface the first conversion makes all words of its size equally likely,
and what is read is the value of one of them. -/
theorem fresh_even {s₀ s u v : QcState t W} (laws : ReadingLaws act u.qc.quantumState)
    {o : QcOutcome} (hi : ctrlxtQcInit L s₀ o = some (s,0)) {w w' : W}
    (hw : interfaceState act (s.withWorld w) = interfaceState act s) {bytes : ℕ → UInt8}
    {size n data : ULong t} (hsize : size.toNat ≤ 8)
    (h : ctrlxtQcClassicalToQuantum L (s.withWorld w) (some bytes) size = some (u,0)) (hn : n ≠ 0)
    (hw' : interfaceState act (u.withWorld w') = interfaceState act u)
    (hv : ctrlxtQcQuantumToClassical L (u.withWorld w') (some data) n = some (v,0)) :
    weights act u = some (fun b => if Reached size.toNat b then (1/2)^size.toNat else 0) ∧
      ∃ b, Reached size.toNat b ∧ ∀ j < n.toNat,
        laws.byteAt v.qec.world (data+BitVec.ofNat t.width j) = laws.value b := by
  have hfresh := fresh_weights hi hw hsize h
  obtain ⟨ψ,b,hψ,hb,hbytes⟩ := toClassical_reads (s := u.withWorld w') laws hn hv
  have hsome := weights_some (hw' ▸ hψ)
  have hweight := congrFun (Option.some.inj (hsome.symm.trans hfresh)) b
  refine ⟨hfresh,b,?_,hbytes⟩
  by_contra hout
  rw [if_neg hout] at hweight
  exact hb (norm_eq_zero.mp (pow_eq_zero_iff two_ne_zero |>.mp hweight))

theorem fresh_even_two :
    ∃ v, ctrlxtQcQuantumToClassical (measuredLayer .bits64) (afterBytes fun _ => 0) (some 4096) 2 =
        some (v,0) ∧
      weights (measuredAction .bits64) (afterBytes fun _ => 0) =
        some (fun b => if Reached 2 b then (1/2)^2 else 0) ∧
      ∃ b, Reached 2 b ∧ v.qec.world.memory 4096 = firstQubit b ∧
        v.qec.world.memory 4097 = firstQubit b := by
  obtain ⟨v,hv⟩ := measured_read
  obtain ⟨hweights,b,hb,hbytes⟩ := fresh_even (measuredLaws .bits64 (.obj 0)) measured_init
    (undisturbed onMeasured) (by decide) measured_zeros (by decide)
    (undisturbed (afterBytes fun _ => 0)) hv
  exact ⟨v,hv,hweights,b,hb,hbytes 0 (by decide),hbytes 1 (by decide)⟩

end

end CtrlxtKernel.QuantumClassical
