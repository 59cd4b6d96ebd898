import CtrlxtKernel.QuantumDeviceOpens

/-!
# When a busy answer is true

An open that will fail keeps the counter raised until it backs out. Another
open can be refused for it alone, after the holder has gone.
-/

set_option autoImplicit false

namespace CtrlxtKernel.QuantumDevice
open MachineInt StepMachine

variable {t : Target} {P : Type*}

/-- Another process held the device at some moment since the call began. -/
def Met (c : OpenCall P) : Prop := ∃ p ∈ c.seen, p ≠ c.process

/-- An open that returns `-EBUSY` in this step has met another holder. -/
def BusyTrue (s : OpenState t P) : OpenStep P → Prop
  | .backOut i => ∀ c ∈ s.backing[i]?, Met c
  | _ => True

/-- A process that makes its increment does not hold the device itself and, if
nobody does, no refused open has yet to back out. -/
def InTurn (s : OpenState t P) : OpenStep P → Prop
  | .increment i =>
    (s.holders = [] → s.backing = []) ∧ ∀ c ∈ s.begun[i]?, c.process ∉ s.holders
  | _ => True

def Watched (s : OpenState t P) : Prop :=
  ∀ c, c ∈ s.begun ∨ c ∈ s.backing → ∀ p ∈ s.holders, p ∈ c.seen

def BackingMet (s : OpenState t P) : Prop := ∀ c ∈ s.backing, Met c

theorem observe_watched (s : OpenState t P) : Watched s.observe := by
  intro c hc p hp
  have hm : c ∈ (s.begun++s.backing).map (OpenCall.observe s.holders) := by
    rw [List.map_append,List.mem_append]
    exact hc
  obtain ⟨d,-,rfl⟩ := List.mem_map.mp hm
  exact List.mem_append_left _ hp

theorem met_observe {c : OpenCall P} (h : Met c) (holders : List P) :
    Met (c.observe holders) := by
  obtain ⟨p,hp,hne⟩ := h
  exact ⟨p,List.mem_append_right _ hp,hne⟩

theorem observe_backingMet {s : OpenState t P} (h : BackingMet s) : BackingMet s.observe := by
  intro c hc
  obtain ⟨d,hd,rfl⟩ := List.mem_map.mp hc
  exact met_observe (h d hd) _

variable [DecidableEq P]

instance (c : OpenCall P) : Decidable (Met c) :=
  inferInstanceAs (Decidable (∃ p ∈ c.seen, p ≠ c.process))

instance (s : OpenState t P) : (l : OpenStep P) → Decidable (BusyTrue s l)
  | .backOut i => inferInstanceAs (Decidable (∀ c ∈ s.backing[i]?, Met c))
  | .start _ | .increment _ | .release _ => inferInstanceAs (Decidable True)

instance (s : OpenState t P) : (l : OpenStep P) → Decidable (InTurn s l)
  | .increment i => inferInstanceAs
      (Decidable ((s.holders = [] → s.backing = []) ∧ ∀ c ∈ s.begun[i]?, c.process ∉ s.holders))
  | .start _ | .backOut _ | .release _ => inferInstanceAs (Decidable True)

theorem step_backingMet {s u : OpenState t P} (hs : Counts s) (hw : Watched s)
    (hm : BackingMet s) {l : OpenStep P} (hc : InTurn s l)
    (hu : (opening t P).step s l = some u) : BackingMet u := by
  cases l with
  | start p =>
    cases hu
    exact observe_backingMet hm
  | increment i =>
    obtain ⟨c,hi,rfl⟩ := Option.map_eq_some_iff.mp hu
    obtain ⟨hfree,hown⟩ := hc
    apply observe_backingMet
    cases hh : s.holders with
    | nil =>
      have h0 : s.dev.openCount = BitVec.ofNat 32 0 := by
        rw [hs,hh,hfree hh]
        rfl
      have hbusy := (busy_iff h0 (by decide)).not.mpr (lt_irrefl 0)
      rw [if_neg hbusy]
      exact hm
    | cons p holders =>
      have hp : p ∈ s.holders := by
        rw [hh]
        exact List.mem_cons_self
      have hmet : Met c := by
        refine ⟨p,hw c (Or.inl (List.mem_of_getElem? hi)) p hp,?_⟩
        rintro rfl
        exact hown c hi hp
      split_ifs
      · intro d hd
        rcases List.mem_cons.mp hd with rfl | hd
        · exact hmet
        · exact hm d hd
      · exact hm
  | backOut i =>
    obtain ⟨c,-,rfl⟩ := Option.map_eq_some_iff.mp hu
    apply observe_backingMet
    intro d hd
    exact hm d (List.mem_of_mem_eraseIdx hd)
  | release p =>
    cases hu
    exact observe_backingMet hm

theorem step_watched {s u : OpenState t P} {l : OpenStep P}
    (hu : (opening t P).step s l = some u) : Watched u := by
  cases l with
  | start p =>
    cases hu
    exact observe_watched _
  | increment i =>
    obtain ⟨c,-,rfl⟩ := Option.map_eq_some_iff.mp hu
    exact observe_watched _
  | backOut i =>
    obtain ⟨c,-,rfl⟩ := Option.map_eq_some_iff.mp hu
    exact observe_watched _
  | release p =>
    cases hu
    exact observe_watched _

/-- In every run whose opens make their increments in turn, every busy answer is
true. -/
theorem busy_true_in_turn {b : ℕ} {u : OpenState t P} {ls : List (OpenStep P)}
    (h : Run ((opening t P).restrict InTurn) (closed t P b) ls u) :
    Always (opening t P) BusyTrue (closed t P b) ls := by
  obtain ⟨hrun,hturn⟩ := restrict_run_iff.mp h
  apply Always.imp (I := fun s => Counts s ∧ Watched s ∧ BackingMet s) _ _ hrun.attempt _ hturn
  · rintro s l ⟨-,-,hm⟩ - -
    cases l with
    | backOut i => exact fun c hi => hm c (List.mem_of_getElem? hi)
    | start | increment | release => trivial
  · rintro s l v ⟨hs,hw,hm⟩ he hc hu
    exact ⟨step_counts hs he hu,step_watched hu,step_backingMet hs hw hm hc hu⟩
  · exact ⟨rfl,by simp [Watched,closed],by simp [BackingMet,closed]⟩

theorem busy_true_overlapping :
    Always (opening .bits64 ℕ) BusyTrue (closed .bits64 ℕ 0)
      [.start 1,.increment 0,.start 2,.start 3,.increment 0,.increment 0,.release 1,.start 4,
        .backOut 1,.backOut 0,.increment 0] := by
  have h : ∃ u, Run ((opening .bits64 ℕ).restrict InTurn) (closed .bits64 ℕ 0)
      [.start 1,.increment 0,.start 2,.start 3,.increment 0,.increment 0,.release 1,.start 4,
        .backOut 1,.backOut 0,.increment 0] u := ⟨_,run_iff_exec.mpr rfl⟩
  obtain ⟨u,hu⟩ := h
  exact busy_true_in_turn hu

/-- Process 1 has released the device before process 3 begins, and process 3 is
refused because the open of process 2 has yet to back out. -/
theorem busy_for_nobody :
    ∃ s, Run (opening .bits64 ℕ) (closed .bits64 ℕ 0)
        [.start 1,.increment 0,.start 2,.increment 0,.release 1,.start 3,.increment 0,
          .backOut 1] s ∧
      s.backing = [⟨3,[]⟩] ∧ (opening .bits64 ℕ).enabled s (.backOut 0) ∧
      ¬BusyTrue s (.backOut 0) := by
  refine ⟨_,run_iff_exec.mpr rfl,rfl,Nat.zero_lt_one,?_⟩
  decide

end CtrlxtKernel.QuantumDevice
