import CtrlxtKernel.QuantumClassical
import CtrlxtKernel.StepMachine

/-!
# Runs of the interface

The interface is initialised once and used until its exit, if the
initialisation returned zero.
-/

set_option autoImplicit false

namespace CtrlxtKernel.QuantumClassical
open MachineInt ObjectHeap ErrorCorrection StepMachine

variable {t : Target} {W : Type*}

inductive QcPhase where
  | unloaded
  | loaded
  | over
  deriving DecidableEq

structure QcRun (t : Target) (W : Type*) where
  state : QcState t W
  phase : QcPhase

inductive QcCall (t : Target) where
  | init (o : QcOutcome)
  | classicalToQuantum (data : Option (ℕ → UInt8)) (size : ULong t)
  | quantumToClassical (data : Option (ULong t)) (size : ULong t)
  | controlledOperation (gate qubit : CInt) (controlData : Bool)
  | exit

def QcRun.after (s : QcRun t W) (r : QcState t W × ℤ) : QcRun t W := { s with state := r.1 }

def interface (L : QuantumLayer t W) : Machine (QcRun t W) (QcCall t) where
  enabled s
    | .init _ => s.phase = .unloaded
    | _ => s.phase = .loaded
  step s
    | .init o => (ctrlxtQcInit L s.state o).map fun (state,ret) =>
        ⟨state,if ret = 0 then .loaded else .over⟩
    | .classicalToQuantum data size =>
        (ctrlxtQcClassicalToQuantum L s.state data size).map s.after
    | .quantumToClassical data size =>
        (ctrlxtQcQuantumToClassical L s.state data size).map s.after
    | .controlledOperation gate qubit controlData =>
        (ctrlxtQcControlledOperation L s.state gate qubit controlData).map s.after
    | .exit => (qcExit s.state).map fun state => ⟨state,.over⟩

instance (L : QuantumLayer t W) (s : QcRun t W) :
    (l : QcCall t) → Decidable ((interface L).enabled s l)
  | .init _ => inferInstanceAs (Decidable (s.phase = .unloaded))
  | .classicalToQuantum _ _ | .quantumToClassical _ _ | .controlledOperation _ _ _ | .exit =>
    inferInstanceAs (Decidable (s.phase = .loaded))

/-- The module as it is loaded, its static variables zero, next to the states
and buffers of others. -/
def unloaded (buffers : Heap (ℕ → UInt8)) (qec : QecState W) : QcRun t W :=
  ⟨⟨⟨.null,.null,0,0,0⟩,buffers,qec⟩,.unloaded⟩

structure Live (s : QcState t W) : Prop where
  state : s.stateLive = true
  buffer : s.bufferLive = true

structure FreedOnce (s : QcState t W) : Prop where
  state : ∀ i, s.qc.quantumState = .obj i → s.qec.states.freed.count i = 1
  buffer : ∀ i, s.qc.classicalBuffer = .obj i → s.buffers.freed.count i = 1

/-- The call touches nothing that is not live; while the interface is loaded
its state and its buffer are live, and in the end each has been freed once. -/
def SafeCall (L : QuantumLayer t W) (s : QcRun t W) (l : QcCall t) : Prop :=
  ∃ u, (interface L).step s l = some u ∧ (u.phase = .loaded → Live u.state) ∧
    (u.phase = .over → FreedOnce u.state)

def Granted (L : QuantumLayer t W) (s : QcState t W) (o : QcOutcome) : Prop :=
  o.quantumStateAlloc = true → (L.stateInit s.qec.world (.obj s.qec.states.next) 0).2 = 0 →
    o.kzalloc = true

/-- The buffer is granted if the state is and `quantum_state_init` returns zero. -/
def BufferGranted (L : QuantumLayer t W) (s : QcRun t W) : QcCall t → Prop
  | .init o => Granted L s.state o
  | _ => True

theorem exit_frees {s : QcState t W} (hs : s.stateLive = true)
    (hb : s.qc.classicalBuffer = .null ∨ s.bufferLive = true) :
    ∃ u, qcExit s = some u ∧ u.stateLive = false ∧ FreedOnce u := by
  obtain ⟨i,n,hi,hn⟩ := stateLive_iff.mp hs
  obtain ⟨states,hfree⟩ := free_live hn
  obtain ⟨hdead,honce⟩ := free_freed hfree
  rcases hb with hb | hb
  · refine ⟨{ s with qec := { s.qec with states := states } },?_,?_,?_,?_⟩
    · simp [qcExit,stateFree,freeBuffer,hi,hb,hfree]
    · simp [QcState.stateLive,hi,hdead]
    · intro j hj
      obtain rfl : i = j := Ptr.obj.inj (hi.symm.trans hj)
      exact honce
    · intro j hj
      cases hb.symm.trans hj
  · obtain ⟨k,bytes,hk,hbytes⟩ := bufferLive_iff.mp hb
    obtain ⟨buffers,hbfree⟩ := free_live hbytes
    obtain ⟨-,hbonce⟩ := free_freed hbfree
    refine ⟨{ s with buffers := buffers, qec := { s.qec with states := states } },?_,?_,?_,?_⟩
    · simp [qcExit,stateFree,freeBuffer,hi,hk,hfree,hbfree]
    · simp [QcState.stateLive,hi,hdead]
    · intro j hj
      obtain rfl : i = j := Ptr.obj.inj (hi.symm.trans hj)
      exact honce
    · intro j hj
      obtain rfl : k = j := Ptr.obj.inj (hk.symm.trans hj)
      exact hbonce

theorem fill_live {s : QcState t W} (hs : Live s) (bytes : ℕ → UInt8) (size : ULong t) :
    ∃ u, s.fill bytes size = some u ∧ u.qc = s.qc ∧ u.qec = s.qec ∧ Live u := by
  obtain ⟨i,old,hi,hold⟩ := bufferLive_iff.mp hs.buffer
  by_cases h0 : size = 0
  · exact ⟨s,by rw [QcState.fill,if_pos h0],rfl,rfl,hs⟩
  · obtain ⟨buffers,hst⟩ := store_live hold (fun j => if j < size.toNat then bytes j else old j)
    obtain ⟨hc,-,-⟩ := store_spec hst
    refine ⟨{ s with buffers := buffers },?_,rfl,rfl,hs.state,?_⟩
    · simp only [QcState.fill,h0,if_false,hi,hold,hst,Option.bind_some,Option.map_some]
    · exact bufferLive_iff.mpr ⟨i,_,hi,by rw [hc,Function.update_self]⟩

theorem Live.same {s u : QcState t W} (hs : Live s) (hq : u.qc.quantumState = s.qc.quantumState)
    (hc : u.qc.classicalBuffer = s.qc.classicalBuffer) (hst : u.qec.states = s.qec.states)
    (hb : u.buffers = s.buffers) : Live u := by
  constructor
  · simpa only [QcState.stateLive,hq,hst] using hs.state
  · simpa only [QcState.bufferLive,hc,hb] using hs.buffer

theorem toQuantum_live {s : QcState t W} (hs : Live s) (L : QuantumLayer t W)
    (data : Option (ℕ → UInt8)) (size : ULong t) :
    ∃ r, ctrlxtQcClassicalToQuantum L s data size = some r ∧ Live r.1 := by
  unfold ctrlxtQcClassicalToQuantum
  cases data with
  | none => exact ⟨_,rfl,hs⟩
  | some bytes =>
    obtain ⟨u,hu,-,-,hlu⟩ := fill_live hs bytes size
    simp only [hu,Option.bind_some,hlu.state,or_true,if_true]
    split_ifs
    · exact ⟨_,rfl,hs⟩
    · exact ⟨_,rfl,hlu.same rfl rfl rfl rfl⟩
    · exact ⟨_,rfl,hlu.same rfl rfl rfl rfl⟩

theorem toClassical_live {s : QcState t W} (hs : Live s) (L : QuantumLayer t W)
    (data : Option (ULong t)) (size : ULong t) :
    ∃ r, ctrlxtQcQuantumToClassical L s data size = some r ∧ Live r.1 := by
  unfold ctrlxtQcQuantumToClassical
  cases data with
  | none => exact ⟨_,rfl,hs⟩
  | some data =>
    simp only [hs.state,or_true,if_true]
    split_ifs
    · exact ⟨_,rfl,hs⟩
    · exact ⟨_,rfl,hs.same rfl rfl rfl rfl⟩
    · exact ⟨_,rfl,hs.same rfl rfl rfl rfl⟩

theorem measureSyndrome_states (L : QuantumLayer t W) (s : QecState W) (state : Ptr) :
    (measureSyndrome L s state).1.states = s.states := by
  unfold measureSyndrome
  simp only
  split_ifs <;> rfl

theorem applyCorrection_states (L : QuantumLayer t W) (s : QecState W) (state : Ptr) :
    (applyCorrection L s state).1.states = s.states := by
  unfold applyCorrection
  split <;> rfl

theorem qecApply_states (L : QuantumLayer t W) (s : QecState W) (state : Ptr) :
    (ctrlxtQecApply L s state).1.states = s.states := by
  unfold ctrlxtQecApply
  simp only
  split_ifs
  · rfl
  · exact measureSyndrome_states L s state
  · rw [applyCorrection_states,measureSyndrome_states]
  · rw [applyCorrection_states,measureSyndrome_states]

theorem controlled_live {s : QcState t W} (hs : Live s) (L : QuantumLayer t W)
    (gate qubit : CInt) (controlData : Bool) :
    ∃ r, ctrlxtQcControlledOperation L s gate qubit controlData = some r ∧ Live r.1 := by
  unfold ctrlxtQcControlledOperation
  simp only [hs.state,if_true]
  split_ifs
  · exact ⟨_,rfl,hs⟩
  · exact ⟨_,rfl,hs.same rfl rfl rfl rfl⟩
  · exact ⟨_,rfl,hs.same rfl rfl (qecApply_states ..) rfl⟩
  · exact ⟨_,rfl,hs.same rfl rfl (qecApply_states ..) rfl⟩

theorem initError_frees {s : QcState t W} (hs : s.stateLive = true)
    (hb : s.qc.classicalBuffer = .null) (ret : ℤ) :
    ∃ u, (qcExit s).map (fun s => (s,ret)) = some (u,ret) ∧ u.stateLive = false ∧
      FreedOnce u := by
  obtain ⟨u,hu,hd,hf⟩ := exit_frees hs (Or.inl hb)
  exact ⟨u,by rw [hu]; rfl,hd,hf⟩

theorem init_outcome (L : QuantumLayer t W) {s : QcState t W} (hb : s.qc.classicalBuffer = .null)
    (o : QcOutcome) :
    ∃ u ret, ctrlxtQcInit L s o = some (u,ret) ∧
      ((Granted L s o ∧ ret = 0 ∧ Live u) ∨ (Granted L s o ∧ ret ≠ 0 ∧ FreedOnce u) ∨
        (¬Granted L s o ∧ ret = 0 ∧ u.stateLive = false)) := by
  obtain ⟨sa,kz⟩ := o
  cases sa with
  | false =>
    refine ⟨_,_,rfl,Or.inr (Or.inl ⟨by simp [Granted],by decide,?_,?_⟩)⟩
    · rintro i ⟨⟩
    · intro i hi
      cases hb.symm.trans hi
  | true =>
    rcases hr : L.stateInit s.qec.world (.obj s.qec.states.next) 0 with ⟨w,ret⟩
    let s₁ : QcState t W := ⟨⟨.obj s.qec.states.next,s.qc.classicalBuffer,s.qc.bufferSize,0,0⟩,
      s.buffers,⟨s.qec.qec,s.qec.states.alloc qcQubits,w⟩⟩
    have hl : s₁.stateLive = true := by simp [QcState.stateLive,s₁]
    have hinit : (L.stateInit s.qec.world (.obj s.qec.states.next) 0).2 = ret := by rw [hr]
    have hne : ret ≠ 0 → Granted L s ⟨true,kz⟩ := fun h _ h0 => absurd (hinit.symm.trans h0) h
    by_cases hneg : ret < 0
    · obtain ⟨u,hu,-,hf⟩ := initError_frees hl hb ret
      refine ⟨u,ret,?_,Or.inr (Or.inl ⟨hne hneg.ne,hneg.ne,hf⟩)⟩
      simp only [ctrlxtQcInit,stateAlloc,if_true,reduceCtorEq,if_false,hr,QcState.withWorld,hneg]
      exact hu
    · cases kz with
      | true =>
        refine ⟨⟨⟨.obj s.qec.states.next,.obj s.buffers.next,BitVec.ofNat t.width qcBufferSize,0,0⟩,
          s.buffers.alloc (fun _ => 0),s₁.qec⟩,0,?_,Or.inl ⟨fun _ _ => rfl,rfl,?_,?_⟩⟩
        · simp only [ctrlxtQcInit,stateAlloc,if_true,reduceCtorEq,if_false,hr,QcState.withWorld,
            hneg]
          rfl
        · exact hl
        · simp [QcState.bufferLive]
      | false =>
        let s₂ : QcState t W := { s₁ with qc := ⟨.obj s.qec.states.next,.null,
          BitVec.ofNat t.width qcBufferSize,0,0⟩ }
        obtain ⟨u,hu,hd,hf⟩ := initError_frees (s := s₂) hl rfl ret
        refine ⟨u,ret,?_,?_⟩
        · simp only [ctrlxtQcInit,stateAlloc,if_true,reduceCtorEq,if_false,hr,QcState.withWorld,
            hneg,Bool.false_eq_true]
          exact hu
        · by_cases h0 : ret = 0
          · refine Or.inr (Or.inr ⟨fun hg => ?_,h0,hd⟩)
            cases hg rfl (hinit.trans h0)
          · exact Or.inr (Or.inl ⟨hne h0,h0,hf⟩)

def Settled (s : QcRun t W) : Prop :=
  (s.phase = .unloaded → s.state.qc.classicalBuffer = .null) ∧ (s.phase = .loaded → Live s.state)

theorem init_safe_iff (L : QuantumLayer t W) {s : QcRun t W}
    (hb : s.state.qc.classicalBuffer = .null) (o : QcOutcome) :
    SafeCall L s (.init o) ↔ BufferGranted L s (.init o) := by
  obtain ⟨u,ret,hu,hout⟩ := init_outcome L hb o
  have hstep : (interface L).step s (.init o) =
      some ⟨u,if ret = 0 then .loaded else .over⟩ := by
    simp only [interface,hu,Option.map_some]
  rcases hout with ⟨hg,h0,hl⟩ | ⟨hg,h0,hf⟩ | ⟨hg,h0,hd⟩
  · rw [if_pos h0] at hstep
    exact iff_of_true ⟨_,hstep,fun _ => hl,by simp⟩ hg
  · rw [if_neg h0] at hstep
    exact iff_of_true ⟨_,hstep,by simp,fun _ => hf⟩ hg
  · rw [if_pos h0] at hstep
    refine iff_of_false ?_ hg
    rintro ⟨v,hv,hl,-⟩
    cases hstep.symm.trans hv
    have hlive := (hl rfl).state
    rw [hd] at hlive
    cases hlive

theorem loaded_safe {L : QuantumLayer t W} {s : QcRun t W} (hs : Live s.state)
    (hp : s.phase = .loaded) {l : QcCall t} (hl : ∀ o, l ≠ .init o) : SafeCall L s l := by
  have kept : ∀ r : QcState t W × ℤ, Live r.1 →
      ((s.after r).phase = .loaded → Live (s.after r).state) ∧
      ((s.after r).phase = .over → FreedOnce (s.after r).state) := by
    intro r hr
    have hph : (s.after r).phase = .loaded := hp
    exact ⟨fun _ => hr,fun ho => by rw [hph] at ho; cases ho⟩
  cases l with
  | init o => exact absurd rfl (hl o)
  | classicalToQuantum data size =>
    obtain ⟨r,hr,hlr⟩ := toQuantum_live hs L data size
    exact ⟨s.after r,by simp only [interface,hr,Option.map_some],kept r hlr⟩
  | quantumToClassical data size =>
    obtain ⟨r,hr,hlr⟩ := toClassical_live hs L data size
    exact ⟨s.after r,by simp only [interface,hr,Option.map_some],kept r hlr⟩
  | controlledOperation gate qubit controlData =>
    obtain ⟨r,hr,hlr⟩ := controlled_live hs L gate qubit controlData
    exact ⟨s.after r,by simp only [interface,hr,Option.map_some],kept r hlr⟩
  | exit =>
    obtain ⟨u,hu,-,hf⟩ := exit_frees hs.state (Or.inr hs.buffer)
    exact ⟨⟨u,.over⟩,by simp only [interface,hu,Option.map_some],by simp,fun _ => hf⟩

theorem safe_iff {L : QuantumLayer t W} {s : QcRun t W} (hs : Settled s) {l : QcCall t}
    (he : (interface L).enabled s l) : SafeCall L s l ↔ BufferGranted L s l := by
  cases l with
  | init o => exact init_safe_iff L (hs.1 he) o
  | _ => exact iff_of_true (loaded_safe (hs.2 he) he (by simp)) trivial

theorem step_phase {L : QuantumLayer t W} {s u : QcRun t W} {l : QcCall t}
    (he : (interface L).enabled s l) (hu : (interface L).step s l = some u) :
    u.phase ≠ .unloaded := by
  cases l with
  | init o =>
    obtain ⟨⟨v,ret⟩,-,rfl⟩ := Option.map_eq_some_iff.mp hu
    by_cases h0 : ret = 0 <;> simp [h0]
  | exit =>
    obtain ⟨v,-,rfl⟩ := Option.map_eq_some_iff.mp hu
    rintro ⟨⟩
  | _ =>
    obtain ⟨r,-,rfl⟩ := Option.map_eq_some_iff.mp hu
    have hp : s.phase = .loaded := he
    simp [QcRun.after,hp]

theorem safe_settled {L : QuantumLayer t W} {s u : QcRun t W} {l : QcCall t}
    (he : (interface L).enabled s l) (hc : SafeCall L s l)
    (hu : (interface L).step s l = some u) : Settled u := by
  obtain ⟨v,hv,hl,-⟩ := hc
  obtain rfl : v = u := Option.some.inj (hv.symm.trans hu)
  exact ⟨fun hp => absurd hp (step_phase he hu),hl⟩

/-- Along every run of the interface a return of zero means that its state and
its buffer are live, no call uses anything else, and both are freed exactly
once, exactly when the buffer was granted or the initialisation had already
failed or answered something else than zero. -/
theorem interface_safe_iff (L : QuantumLayer t W) (buffers : Heap (ℕ → UInt8)) (qec : QecState W)
    {ls : List (QcCall t)}
    (h : Always (interface L) (interface L).enabled (unloaded buffers qec) ls) :
    Always (interface L) (SafeCall L) (unloaded buffers qec) ls ↔
      Always (interface L) (BufferGranted L) (unloaded buffers qec) ls :=
  always_attempt_iff (I := Settled) (fun _ _ hs he => safe_iff hs he)
    (fun _ _ _ _ he hc hu => safe_settled he hc hu) h ⟨fun _ => rfl,by rintro ⟨⟩⟩

def noStates : QecState Unit := ⟨⟨.null,.null,0,0⟩,.empty,()⟩

theorem interface_safe_session :
    Always (interface (idle .bits64)) (SafeCall (idle .bits64)) (unloaded .empty noStates)
      [.init ⟨true,true⟩,.classicalToQuantum (some fun _ => 1) 3,.controlledOperation 5 2 true,
        .quantumToClassical (some 4096) 2,.exit] := by
  have h : ∃ u, Run (interface (idle .bits64)) (unloaded .empty noStates)
      [.init ⟨true,true⟩,.classicalToQuantum (some fun _ => 1) 3,.controlledOperation 5 2 true,
        .quantumToClassical (some 4096) 2,.exit] u := ⟨_,run_iff_exec.mpr rfl⟩
  obtain ⟨u,hu⟩ := h
  rw [interface_safe_iff (idle .bits64) .empty noStates hu.attempt]
  refine (always_cons rfl).mpr ⟨fun _ _ => rfl,?_⟩
  iterate 4 refine (always_cons rfl).mpr ⟨trivial,?_⟩
  trivial

/-- Without a buffer the initialisation frees the state and returns zero; the
first conversion then writes through a NULL pointer. -/
theorem interface_runs_freed :
    ∃ u, Run (interface (idle .bits64)) (unloaded .empty noStates) [.init ⟨true,false⟩] u ∧
      u.phase = .loaded ∧ u.state.stateLive = false ∧ u.state.qc.classicalBuffer = .null ∧
      (interface (idle .bits64)).enabled u (.classicalToQuantum (some fun _ => 1) 1) ∧
      (interface (idle .bits64)).step u (.classicalToQuantum (some fun _ => 1) 1) = none ∧
      ¬SafeCall (idle .bits64) (unloaded .empty noStates) (.init ⟨true,false⟩) := by
  refine ⟨_,run_iff_exec.mpr rfl,rfl,rfl,rfl,rfl,rfl,?_⟩
  rintro ⟨v,⟨⟩,hl,-⟩
  cases (hl rfl).state

end CtrlxtKernel.QuantumClassical
