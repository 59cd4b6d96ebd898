import CtrlxtKernel.ErrorCorrection
import CtrlxtKernel.StepMachine

/-!
# Loading and unloading the corrector

A load attempt runs `ctrlxt_qec_init`, which stores to every static variable
before it reads any; the module is loaded when it returns zero. An unload runs
`qec_exit`. The heap has the states that the module has acquired.
-/

set_option autoImplicit false

namespace CtrlxtKernel.ErrorCorrection
open MachineInt ObjectHeap StepMachine

variable {t : Target} {W : Type*}

def qecExit (s : QecState W) : Option (QecState W) := freeStates s

structure QecLoad (W : Type*) where
  state : QecState W
  loaded : Bool

/-- Whether memory is found for the ancilla and for the syndrome. What the two
calls of `quantum_state_init` answer is up to the gate layer. -/
inductive QecLoadStep where
  | load (forAncilla forSyndrome : Bool)
  | unload

def qecLoading (L : QuantumLayer t W) : Machine (QecLoad W) QecLoadStep where
  enabled s
    | .load _ _ => s.loaded = false
    | .unload => s.loaded = true
  step s
    | .load forAncilla forSyndrome =>
      (ctrlxtQecInit L s.state forAncilla forSyndrome).map
        fun (state,ret) => ⟨state,decide (ret = 0)⟩
    | .unload => (qecExit s.state).map fun state => ⟨state,false⟩

instance (L : QuantumLayer t W) (s : QecLoad W) :
    (l : QecLoadStep) → Decidable ((qecLoading L).enabled s l)
  | .load _ _ => inferInstanceAs (Decidable (s.loaded = false))
  | .unload => inferInstanceAs (Decidable (s.loaded = true))

def OwnsBoth (s : QecState W) : Prop :=
  ∃ a b, s.qec.ancilla = .obj a ∧ s.qec.syndrome = .obj b ∧ a ≠ b ∧ s.states.Holds [a,b]

def HoldsOwn (s : QecLoad W) : Prop :=
  (s.loaded = true ∧ OwnsBoth s.state) ∨ (s.loaded = false ∧ s.state.states.Holds [])

/-- The step frees nothing that is not live, no state has been freed twice, and
the live states are then those of a loaded module, or none. -/
def CleanStep (L : QuantumLayer t W) (s : QecLoad W) (l : QecLoadStep) : Prop :=
  ∃ u, (qecLoading L).step s l = some u ∧ (∀ i, u.state.states.freed.count i ≤ 1) ∧ HoldsOwn u

def Paired (_ : QecLoad W) : QecLoadStep → Prop
  | .load forAncilla forSyndrome => forAncilla = forSyndrome
  | .unload => True

theorem freeStates_clears {s : QecState W} (hs : OwnsBoth s) :
    ∃ u, freeStates s = some u ∧ u.states.Holds [] := by
  obtain ⟨a,b,ha,hb,hab,hh⟩ := hs
  obtain ⟨g,hg,hgh,-⟩ := holds_free hh (by simpa using hab)
  obtain ⟨k,hk,hkh,-⟩ := holds_free hgh (by simp)
  refine ⟨{ s with states := k },?_,hkh⟩
  simp only [freeStates,stateFree,ha,hb,hg,hk,Option.bind_some,Option.map_some]

theorem initStates_leaves (L : QuantumLayer t W) {s : QecState W} (hs : OwnsBoth s) :
    ∃ u ret, initStates L s = some (u,ret) ∧
      ((ret = 0 ∧ OwnsBoth u) ∨ (ret < 0 ∧ u.states.Holds [])) := by
  have failed : ∀ (w : W) (ret : ℤ), ret < 0 → ∃ u r,
      (freeStates { s with world := w }).map (fun s => (s,ret)) = some (u,r) ∧
        ((r = 0 ∧ OwnsBoth u) ∨ (r < 0 ∧ u.states.Holds [])) := by
    intro w ret hret
    obtain ⟨u,hu,hh⟩ := freeStates_clears (s := { s with world := w }) hs
    exact ⟨u,ret,by rw [hu,Option.map_some],Or.inr ⟨hret,hh⟩⟩
  unfold initStates
  simp only
  split_ifs with h1 h2
  · exact failed _ _ h1
  · exact failed _ _ h2
  · exact ⟨_,0,rfl,Or.inl ⟨rfl,hs⟩⟩

theorem init_both (L : QuantumLayer t W) {s : QecState W} (hs : s.states.Holds []) :
    ∃ u ret, ctrlxtQecInit L s true true = some (u,ret) ∧
      ((ret = 0 ∧ OwnsBoth u) ∨ (ret < 0 ∧ u.states.Holds [])) := by
  have h1 := holds_alloc hs 3
  have h2 := holds_alloc h1 3
  apply initStates_leaves L (s := ⟨⟨.obj s.states.next,.obj (s.states.next+1),0,0⟩,
    (s.states.alloc 3).alloc 3,s.world⟩)
  refine ⟨_,_,rfl,rfl,by omega,fun i => (h2 i).trans ?_⟩
  rw [alloc_next,List.mem_pair,List.mem_pair]
  exact or_comm

theorem init_neither (L : QuantumLayer t W) {s : QecState W} (hs : s.states.Holds []) :
    ∃ u, ctrlxtQecInit L s false false = some (u,-enomem) ∧ u.states.Holds [] :=
  ⟨_,rfl,hs⟩

theorem init_single (L : QuantumLayer t W) {s : QecState W} (hs : s.states.Holds []) {a b : Bool}
    (hab : a ≠ b) :
    ∃ u, ctrlxtQecInit L s a b = some (u,-enomem) ∧ u.states.Holds [s.states.next] := by
  have hh := holds_alloc hs 3
  cases a <;> cases b
  · exact absurd rfl hab
  · exact ⟨_,rfl,hh⟩
  · exact ⟨_,rfl,hh⟩
  · exact absurd rfl hab

theorem load_step (L : QuantumLayer t W) {s : QecLoad W} {u : QecState W} {ret : ℤ} {a b : Bool}
    (h : ctrlxtQecInit L s.state a b = some (u,ret)) :
    (qecLoading L).step s (.load a b) = some ⟨u,decide (ret = 0)⟩ := by
  simp only [qecLoading,h,Option.map_some]

theorem load_clean_iff (L : QuantumLayer t W) {s : QecLoad W} (hs : s.state.states.Holds [])
    (a b : Bool) : CleanStep L s (.load a b) ↔ a = b := by
  by_cases hab : a = b
  · refine iff_of_true ?_ hab
    subst hab
    cases a with
    | false =>
      obtain ⟨u,hu,hh⟩ := init_neither L hs
      exact ⟨_,load_step L hu,fun i => freed_once _ i,Or.inr ⟨rfl,hh⟩⟩
    | true =>
      obtain ⟨u,ret,hu,⟨rfl,hh⟩ | ⟨hret,hh⟩⟩ := init_both L hs
      · exact ⟨_,load_step L hu,fun i => freed_once _ i,Or.inl ⟨rfl,hh⟩⟩
      · exact ⟨_,load_step L hu,fun i => freed_once _ i,Or.inr ⟨decide_eq_false hret.ne,hh⟩⟩
  · refine iff_of_false ?_ hab
    rintro ⟨v,hv,-,hown⟩
    obtain ⟨u,hu,hh⟩ := init_single L hs hab
    obtain rfl := Option.some.inj ((load_step L hu).symm.trans hv)
    rcases hown with ⟨hl,-⟩ | ⟨-,hnone⟩
    · cases hl
    · simpa using (hnone _).mp ((hh s.state.states.next).mpr (by simp))

theorem unload_clean (L : QuantumLayer t W) {s : QecLoad W} (hs : OwnsBoth s.state) :
    CleanStep L s .unload := by
  obtain ⟨u,hu,hh⟩ := freeStates_clears hs
  refine ⟨⟨u,false⟩,?_,fun i => freed_once _ i,Or.inr ⟨rfl,hh⟩⟩
  simp only [qecLoading,qecExit,hu,Option.map_some]

theorem clean_iff (L : QuantumLayer t W) {s : QecLoad W} (hs : HoldsOwn s) {l : QecLoadStep}
    (he : (qecLoading L).enabled s l) : CleanStep L s l ↔ Paired s l := by
  rcases hs with ⟨hl,hown⟩ | ⟨hl,hnone⟩
  · cases l with
    | load a b => cases hl.symm.trans he
    | unload => exact iff_of_true (unload_clean L hown) trivial
  · cases l with
    | load a b => exact load_clean_iff L hnone a b
    | unload => cases hl.symm.trans he

def notLoaded (w : W) : QecLoad W := ⟨⟨⟨.null,.null,0,0⟩,.empty,w⟩,false⟩

/-- Along every sequence of load attempts and unloads the live states are the
ancilla and the syndrome of a loaded module, and nothing is freed twice, exactly
when every attempt finds memory for both states or for neither. -/
theorem loading_clean_iff (L : QuantumLayer t W) (w : W) {ls : List QecLoadStep}
    (h : Always (qecLoading L) (qecLoading L).enabled (notLoaded w) ls) :
    Always (qecLoading L) (CleanStep L) (notLoaded w) ls ↔
      Always (qecLoading L) Paired (notLoaded w) ls :=
  always_attempt_iff (I := HoldsOwn) (fun _ _ hs he => clean_iff L hs he)
    (fun _ _ _ _ _ hc hu => by
      obtain ⟨v,hv,-,hown⟩ := hc
      obtain rfl := Option.some.inj (hv.symm.trans hu)
      exact hown)
    h (Or.inr ⟨rfl,holds_empty⟩)

theorem loading_clean_cycle :
    Always (qecLoading (idle .bits64)) (CleanStep (idle .bits64)) (notLoaded ())
      [.load true true,.unload,.load false false,.load true true,.unload] := by
  have h : ∃ u, Run (qecLoading (idle .bits64)) (notLoaded ())
      [.load true true,.unload,.load false false,.load true true,.unload] u :=
    ⟨_,run_iff_exec.mpr rfl⟩
  obtain ⟨u,hu⟩ := h
  rw [loading_clean_iff (idle .bits64) () hu.attempt]
  simp [Always,Paired]

/-- Two attempts that find memory for the ancilla alone leave two states. -/
theorem loading_leaves_ancilla :
    ∃ u, Run (qecLoading (idle .bits64)) (notLoaded ()) [.load true false,.load true false] u ∧
      u.loaded = false ∧ u.state.states.Holds [1,0] ∧ ¬HoldsOwn u := by
  refine ⟨_,run_iff_exec.mpr rfl,rfl,holds_alloc (holds_alloc holds_empty 3) 3,?_⟩
  rintro (⟨hl,-⟩ | ⟨-,hnone⟩)
  · cases hl
  · exact absurd ((hnone 0).mp rfl) List.not_mem_nil

end CtrlxtKernel.ErrorCorrection
