import CtrlxtKernel.QuantumClassicalData
import CtrlxtKernel.QubitAmplitudes

/-!
# What earlier conversions leave on the interface

The state of the interface is set to zero by the initialisation only. Every
conversion applies its gates to what the conversions before it left. A row of
Hadamard and phase gates loses nothing, so the result is that of a fresh
interface only if the gates of the history cancelled.
-/

set_option autoImplicit false

namespace CtrlxtKernel.QuantumClassical
noncomputable section
open MachineInt ObjectHeap ErrorCorrection FallibleCalls StepMachine QubitAmplitudes

variable {t : Target} {W : Type*} {L : QuantumLayer t W}

/-- Gates that succeed transform the eight amplitudes of a state as their
matrices do, and a state that is initialised with 0 is the ground state. -/
structure StandardAction (L : QuantumLayer t W) where
  amplitudes : W → ℕ → Amplitudes (Fin qcQubits)
  factor : ℂ
  factor_norm : ‖factor‖ = 1
  gate_h : ∀ {w i w' ret} (q : Fin qcQubits),
    L.gateApply w ⟨L.gateH,.obj i,q.val,.null,0⟩ = (w',ret) → 0 ≤ ret →
    amplitudes w' i = apply hadamard q (amplitudes w i)
  gate_phase : ∀ {w i w' ret} (q : Fin qcQubits),
    L.gateApply w ⟨L.gatePhase,.obj i,q.val,.null,0⟩ = (w',ret) → 0 ≤ ret →
    amplitudes w' i = apply (phase factor) q (amplitudes w i)
  init : ∀ {w i w' ret}, L.stateInit w (.obj i) 0 = (w',ret) → 0 ≤ ret →
    amplitudes w' i = ground

structure Conversion (t : Target) (W : Type*) where
  world : W
  bytes : ℕ → UInt8
  size : ULong t

variable (act : StandardAction L)

def interfaceState (s : QcState t W) : Option (Amplitudes (Fin qcQubits)) :=
  match s.qc.quantumState with
  | .obj i => some (act.amplitudes s.qec.world i)
  | _ => none

/-- Nobody else touches the state of the interface, and the call succeeds. -/
def conversions : Machine (QcState t W) (Conversion t W) where
  enabled s c := interfaceState act (s.withWorld c.world) = interfaceState act s ∧
    ∃ u, ctrlxtQcClassicalToQuantum L (s.withWorld c.world) (some c.bytes) c.size = some (u,0)
  step s c := (ctrlxtQcClassicalToQuantum L (s.withWorld c.world) (some c.bytes) c.size).map
    Prod.fst

def byteRow (q : Fin qcQubits) (byte : UInt8) : List (Gate (Fin qcQubits)) :=
  if byte &&& 1 ≠ 0 then [⟨hadamard,q⟩,⟨phase act.factor,q⟩] else [⟨hadamard,q⟩]

def dataRow (bytes : ℕ → UInt8) (size : ℕ) : List (Gate (Fin qcQubits)) :=
  (List.range size).flatMap fun i =>
    if h : i < qcQubits then byteRow act ⟨i,h⟩ (bytes i) else []

def historyRow (history : List (Conversion t W)) : List (Gate (Fin qcQubits)) :=
  history.flatMap fun c => dataRow act c.bytes c.size.toNat

variable {act}

theorem factor_ne_zero (act : StandardAction L) : act.factor ≠ 0 := by
  intro h
  have hn := act.factor_norm
  rw [h,norm_zero] at hn
  exact zero_ne_one hn

theorem byteRow_invertible (q : Fin qcQubits) (byte : UInt8) :
    ∀ g ∈ byteRow act q byte, ∃ n, n*g.matrix = 1 := by
  intro g hg
  have hphase := phase_mul_phase (factor_ne_zero act)
  unfold byteRow at hg
  split_ifs at hg
  · rcases List.mem_cons.mp hg with rfl | hg
    · exact ⟨_,hadamard_mul_self⟩
    · rw [List.mem_singleton.mp hg]
      exact ⟨_,hphase⟩
  · rw [List.mem_singleton.mp hg]
    exact ⟨_,hadamard_mul_self⟩

theorem dataRow_invertible (act : StandardAction L) (bytes : ℕ → UInt8) (size : ℕ) :
    ∀ g ∈ dataRow act bytes size, ∃ n, n*g.matrix = 1 := by
  intro g hg
  obtain ⟨i,-,hi⟩ := List.mem_flatMap.mp hg
  split_ifs at hi with h
  · exact byteRow_invertible _ _ g hi
  · exact absurd hi List.not_mem_nil

theorem byteCalls_action (act : StandardAction L) {w w' : W} {i : ℕ} (q : Fin qcQubits)
    (byte : UInt8) (h : performAll L.gateApply w (byteCalls L (.obj i) q byte) = (w',0)) :
    act.amplitudes w' i = run (byteRow act q byte) (act.amplitudes w i) := by
  rcases hh : L.gateApply w ⟨L.gateH,.obj i,q.val,.null,0⟩ with ⟨w₁,ret₁⟩
  rcases hp : L.gateApply w₁ ⟨L.gatePhase,.obj i,q.val,.null,0⟩ with ⟨w₂,ret₂⟩
  unfold byteCalls at h
  unfold byteRow
  split_ifs at h ⊢ with hb
  · simp only [performAll,hh,hp] at h
    split_ifs at h with h1 h2
    · cases h
      exact absurd h1 (lt_irrefl 0)
    · cases h
      exact absurd h2 (lt_irrefl 0)
    · cases h
      rw [act.gate_phase q hp (not_lt.mp h2),act.gate_h q hh (not_lt.mp h1)]
      rfl
  · simp only [performAll,hh] at h
    split_ifs at h with h1
    · cases h
      exact absurd h1 (lt_irrefl 0)
    · cases h
      exact act.gate_h q hh (not_lt.mp h1)

theorem dataGates_action (act : StandardAction L) {i : ℕ} (bytes : ℕ → UInt8) {size : ℕ}
    (hsize : size ≤ qcQubits) {w w' : W}
    (h : applyGates L w (dataGates L (.obj i) bytes size) = (w',0)) :
    act.amplitudes w' i = run (dataRow act bytes size) (act.amplitudes w i) := by
  rw [applyGates_eq] at h
  unfold dataGates at h
  unfold dataRow
  induction size generalizing w' with
  | zero =>
    cases h
    rfl
  | succ k ih =>
    simp only [List.range_succ,List.flatMap_append,List.flatMap_singleton] at h ⊢
    rcases hk : performAll L.gateApply w
      ((List.range k).flatMap fun j => byteCalls L (.obj i) j (bytes j)) with ⟨w₁,ret₁⟩
    rw [performAll_append,hk] at h
    split_ifs at h with hneg
    · cases h
      exact absurd hneg (lt_irrefl 0)
    · have hzero := performAll_zero w _ (by rw [hk]; exact hneg)
      rw [hk] at hzero
      obtain rfl : ret₁ = 0 := hzero
      have hbyte := byteCalls_action act ⟨k,hsize⟩ (bytes k) h
      rw [hbyte,ih (Nat.le_of_succ_le hsize) hk,run_append,dif_pos (Nat.lt_of_succ_le hsize)]

theorem conversion_action (act : StandardAction L) {s u : QcState t W} {bytes : ℕ → UInt8}
    {size : ULong t} (hsize : size.toNat ≤ qcQubits)
    (h : ctrlxtQcClassicalToQuantum L s (some bytes) size = some (u,0)) :
    interfaceState act u =
      (interfaceState act s).map (run (dataRow act bytes size.toNat)) := by
  obtain ⟨happly,hstate⟩ := toQuantum_success h
  unfold interfaceState
  rw [hstate]
  cases hp : s.qc.quantumState with
  | null => rfl
  | errPtr code => rfl
  | obj i =>
    rw [hp] at happly
    exact congrArg some (dataGates_action act bytes hsize happly)

theorem step_success {s v : QcState t W} {c : Conversion t W} (he : (conversions act).enabled s c)
    (hv : (conversions act).step s c = some v) :
    ctrlxtQcClassicalToQuantum L (s.withWorld c.world) (some c.bytes) c.size = some (v,0) := by
  obtain ⟨-,u,hu⟩ := he
  simp only [conversions,hu,Option.map_some] at hv
  rw [hu,Option.some.inj hv]

theorem step_action {s v : QcState t W} {c : Conversion t W} (he : (conversions act).enabled s c)
    (hv : (conversions act).step s c = some v) (hsize : c.size.toNat ≤ qcQubits) :
    interfaceState act v =
      (interfaceState act s).map (run (dataRow act c.bytes c.size.toNat)) := by
  rw [conversion_action act hsize (step_success he hv)]
  congr 1
  exact he.1

theorem history_action {s u : QcState t W} {history : List (Conversion t W)}
    (h : Run (conversions act) s history u) (hsize : ∀ c ∈ history, c.size.toNat ≤ qcQubits) :
    interfaceState act u = (interfaceState act s).map (run (historyRow act history)) := by
  induction h with
  | nil s =>
    cases interfaceState act s <;> rfl
  | @cons s m u c cs he hm _ ih =>
    rw [ih fun d hd => hsize d (List.mem_cons_of_mem _ hd),
      step_action he hm (hsize c List.mem_cons_self),Option.map_map]
    congr 1
    funext ψ
    exact (run_append _ _ ψ).symm

theorem qcExit_interface {s u : QcState t W} (h : qcExit s = some u) :
    interfaceState act u = interfaceState act s := by
  obtain ⟨states,-,h⟩ := Option.bind_eq_some_iff.mp h
  obtain ⟨buffers,-,rfl⟩ := Option.map_eq_some_iff.mp h
  rfl

theorem init_ground {s u : QcState t W} {o : QcOutcome} (h : ctrlxtQcInit L s o = some (u,0)) :
    interfaceState act u = some ground := by
  have hne : -enomem ≠ 0 := by decide
  unfold ctrlxtQcInit at h
  cases hsa : o.quantumStateAlloc with
  | false =>
    rw [hsa] at h
    exact absurd (Prod.mk.inj (Option.some.inj h)).2 hne
  | true =>
    rcases hr : L.stateInit s.qec.world (.obj s.qec.states.next) 0 with ⟨w,ret⟩
    simp only [hsa,stateAlloc,if_true,reduceCtorEq,if_false,hr] at h
    by_cases hneg : ret < 0
    · rw [if_pos hneg] at h
      obtain ⟨v,-,hv⟩ := Option.map_eq_some_iff.mp h
      exact absurd (Prod.mk.inj hv).2 hneg.ne
    · have hground : act.amplitudes w s.qec.states.next = ground := act.init hr (not_lt.mp hneg)
      rw [if_neg hneg] at h
      split_ifs at h
      · cases h
        exact congrArg some hground
      · obtain ⟨v,hv,h⟩ := Option.map_eq_some_iff.mp h
        cases h
        rw [qcExit_interface hv]
        exact congrArg some hground

/-- A conversion of at most eight bytes ends where it ends directly after an
initialisation exactly when it starts from the ground state. After a history of
such conversions the state is a product, with a column for every qubit. -/
theorem result_independent_iff {s₀ s₁ s s' u v v' : QcState t W} {o o' : QcOutcome}
    (hi : ctrlxtQcInit L s₀ o = some (s,0)) (hi' : ctrlxtQcInit L s₁ o' = some (s',0))
    {history : List (Conversion t W)} (h : Run (conversions act) s history u)
    {last first : Conversion t W} (hl : (conversions act).enabled u last)
    (hv : (conversions act).step u last = some v) (hf : (conversions act).enabled s' first)
    (hv' : (conversions act).step s' first = some v')
    (hsame : last.size = first.size ∧ ∀ i < last.size.toNat, last.bytes i = first.bytes i)
    (hsize : last.size.toNat ≤ 8) :
    (interfaceState act v = interfaceState act v' ↔ interfaceState act u = some ground) ∧
      ((∀ c ∈ history, c.size.toNat ≤ 8) →
        interfaceState act u =
          some (product (columns (historyRow act history) fun _ => zeroColumn))) := by
  have hrow : dataRow act last.bytes last.size.toNat =
      dataRow act first.bytes first.size.toNat := by
    rw [← hsame.1]
    apply List.flatMap_congr
    intro i hi
    rw [hsame.2 i (List.mem_range.mp hi)]
  have hlast := step_action hl hv hsize
  have hfirst := step_action hf hv' (hsame.1 ▸ hsize)
  rw [init_ground hi',← hrow,Option.map_some] at hfirst
  constructor
  · rw [hlast,hfirst]
    have hinj := run_injective (dataRow_invertible act last.bytes last.size.toNat)
    constructor
    · intro heq
      obtain ⟨ψ,hψ,hrun⟩ := Option.map_eq_some_iff.mp heq
      rw [hψ,hinj hrun]
    · intro hu
      rw [hu,Option.map_some]
  · intro hsmall
    rw [history_action h hsmall,init_ground hi,Option.map_some,ground,run_product]

def vectorGate (w : ℕ → Amplitudes (Fin qcQubits)) (c : GateCall) : ℕ → Amplitudes (Fin qcQubits) :=
  match c.state with
  | .obj i =>
    if h : c.qubit.toNat < qcQubits then
      if c.gate = 5 then Function.update w i (apply hadamard ⟨_,h⟩ (w i))
      else if c.gate = 6 then Function.update w i (apply (phase (-1)) ⟨_,h⟩ (w i))
      else w
    else w
  | _ => w

def vectorInit (w : ℕ → Amplitudes (Fin qcQubits)) : Ptr → ℕ → Amplitudes (Fin qcQubits)
  | .obj i => Function.update w i ground
  | _ => w

def vectorLayer (t : Target) : QuantumLayer t (ℕ → Amplitudes (Fin qcQubits)) where
  gateX := 1
  gateY := 2
  gateZ := 3
  gateCnot := 4
  gateH := 5
  gatePhase := 6
  gateApply w c := (vectorGate w c,0)
  stateInit w p _ := (vectorInit w p,0)
  stateMeasure w _ _ := (w,0)
  stateGetValue _ _ := 0

def vectorAction (t : Target) : StandardAction (vectorLayer t) where
  amplitudes w i := w i
  factor := -1
  factor_norm := by rw [norm_neg,norm_one]
  gate_h := by
    rintro w i _ _ q ⟨⟩ -
    simp [vectorLayer,vectorGate]
  gate_phase := by
    rintro w i _ _ q ⟨⟩ -
    simp [vectorLayer,vectorGate]
  init := by
    rintro w i _ _ ⟨⟩ -
    exact Function.update_self i ground w

def onVectors : QcState .bits64 (ℕ → Amplitudes (Fin qcQubits)) :=
  ⟨⟨.obj 0,.obj 0,BitVec.ofNat 64 qcBufferSize,0,0⟩,Heap.empty.alloc fun _ => 0,
    ⟨⟨.null,.null,0,0⟩,Heap.empty.alloc qcQubits,
      Function.update (fun _ => ground) 0 ground⟩⟩

def beforeVectors : QcState .bits64 (ℕ → Amplitudes (Fin qcQubits)) :=
  ⟨⟨.null,.null,0,0,0⟩,Heap.empty,⟨⟨.null,.null,0,0⟩,Heap.empty,fun _ => ground⟩⟩

theorem vectors_init :
    ctrlxtQcInit (vectorLayer .bits64) beforeVectors ⟨true,true⟩ = some (onVectors,0) :=
  rfl

def converted (s : QcState .bits64 (ℕ → Amplitudes (Fin qcQubits))) :
    QcState .bits64 (ℕ → Amplitudes (Fin qcQubits)) :=
  ((ctrlxtQcClassicalToQuantum (vectorLayer .bits64) s (some fun _ => 0) 1).map Prod.fst).getD s

def zeroByte (s : QcState .bits64 (ℕ → Amplitudes (Fin qcQubits))) :
    Conversion .bits64 (ℕ → Amplitudes (Fin qcQubits)) :=
  ⟨s.qec.world,fun _ => 0,1⟩

theorem once_converted :
    ctrlxtQcClassicalToQuantum (vectorLayer .bits64) onVectors (some fun _ => 0) 1 =
      some (converted onVectors,0) :=
  rfl

theorem twice_converted :
    ctrlxtQcClassicalToQuantum (vectorLayer .bits64) (converted onVectors) (some fun _ => 0) 1 =
      some (converted (converted onVectors),0) :=
  rfl

theorem third_converted :
    ctrlxtQcClassicalToQuantum (vectorLayer .bits64) (converted (converted onVectors))
      (some fun _ => 0) 1 = some (converted (converted (converted onVectors)),0) :=
  rfl

theorem zero_twice :
    product (columns (historyRow (vectorAction .bits64)
      [zeroByte onVectors,zeroByte (converted onVectors)]) fun _ => zeroColumn) = ground := by
  let q : Fin qcQubits := ⟨0,by decide⟩
  have hrow : historyRow (vectorAction .bits64)
      [zeroByte onVectors,zeroByte (converted onVectors)] = [⟨hadamard,q⟩,⟨hadamard,q⟩] := rfl
  rw [← run_product,hrow]
  exact (apply_apply hadamard hadamard q _).trans (by rw [hadamard_mul_self,apply_one,ground])

theorem result_independent_third :
    interfaceState (vectorAction .bits64) (converted (converted onVectors)) = some ground ∧
      interfaceState (vectorAction .bits64) (converted (converted (converted onVectors))) =
        interfaceState (vectorAction .bits64) (converted onVectors) := by
  have hfirst : (conversions (vectorAction .bits64)).enabled onVectors (zeroByte onVectors) :=
    ⟨rfl,_,once_converted⟩
  have hsecond : (conversions (vectorAction .bits64)).enabled (converted onVectors)
    (zeroByte (converted onVectors)) := ⟨rfl,_,twice_converted⟩
  have hthird : (conversions (vectorAction .bits64)).enabled (converted (converted onVectors))
    (zeroByte (converted (converted onVectors))) := ⟨rfl,_,third_converted⟩
  obtain ⟨hiff,hproduct⟩ := result_independent_iff vectors_init vectors_init
    (.cons hfirst rfl (.cons hsecond rfl (.nil _))) hthird rfl hfirst rfl ⟨rfl,fun _ _ => rfl⟩
    (by decide)
  have hsmall : ∀ c ∈ [zeroByte onVectors,zeroByte (converted onVectors)], c.size.toNat ≤ 8 := by
    have hone : (1 : ULong .bits64).toNat ≤ 8 := by decide
    intro c hc
    rcases List.mem_cons.mp hc with rfl | hc
    · exact hone
    · rw [List.mem_singleton.mp hc]
      exact hone
  have hground := (hproduct hsmall).trans (congrArg some zero_twice)
  exact ⟨hground,hiff.mpr hground⟩

/-- The second of two equal conversions does not end where the first one does. -/
theorem result_remembers :
    ctrlxtQcInit (vectorLayer .bits64) beforeVectors ⟨true,true⟩ = some (onVectors,0) ∧
      ctrlxtQcClassicalToQuantum (vectorLayer .bits64) onVectors (some fun _ => 0) 1 =
        some (converted onVectors,0) ∧
      ctrlxtQcClassicalToQuantum (vectorLayer .bits64) (converted onVectors)
        (some fun _ => 0) 1 = some (converted (converted onVectors),0) ∧
      interfaceState (vectorAction .bits64) (converted (converted onVectors)) ≠
        interfaceState (vectorAction .bits64) (converted onVectors) := by
  have hsize : (1 : ULong .bits64).toNat ≤ qcQubits := by decide
  refine ⟨vectors_init,once_converted,twice_converted,fun heq => ?_⟩
  have hinj := run_injective
    (dataRow_invertible (vectorAction .bits64) (fun _ => 0) (1 : ULong .bits64).toNat)
  have honce := conversion_action (vectorAction .bits64) hsize once_converted
  have htwice := conversion_action (vectorAction .bits64) hsize twice_converted
  rw [init_ground vectors_init,Option.map_some] at honce
  rw [htwice,honce,Option.map_some] at heq
  exact hadamard_ground_ne _ (hinj (Option.some.inj heq))

end

end CtrlxtKernel.QuantumClassical
