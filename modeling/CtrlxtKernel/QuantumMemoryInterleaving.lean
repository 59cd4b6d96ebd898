import CtrlxtKernel.QuantumMemorySerial

/-!
# Interleaved calls of the memory manager

An allocation tests the limit before it takes the lock, and
`ctrlxt_qmem_set_max_qubits` tests the new limit before it stores it. Between
a test and what it guards any other caller may step. A caller that has passed
its test is pending with the arguments of its call.
-/

set_option autoImplicit false

namespace CtrlxtKernel.QuantumMemory
open MachineInt ObjectHeap RefLedger StepMachine

variable {t : Target} {H : Type*}

inductive Call (t : Target) where
  | alloc (numQubits flags : ULong t)
  | setMaxQubits (maxQubits : ULong t)
  deriving DecidableEq

structure System (t : Target) (H : Type*) where
  session : Session t H
  pending : H → Option (Call t)

def booted : System t H := ⟨loaded,fun _ => none⟩

inductive Step (t : Target) (H : Type*) where
  | allocTests (h : H) (numQubits flags : ULong t)
  | allocLocked (h : H) (o : AllocOutcome)
  | get (h : H) (p : ℕ)
  | put (h : H) (p : ℕ)
  | free (h : H) (p : ℕ)
  | setMaxTest (h : H) (maxQubits : ULong t)
  | setMaxStore (h : H)

def WithinLimit (q : CtrlxtQmem t) : Prop := q.allocatedQubits.toInt ≤ q.maxQubits.toInt

def passes (q : CtrlxtQmem t) : Option (Call t) → Bool
  | some (.alloc n _) => !overLimit q n
  | some (.setMaxQubits m) => !setMaxTest q m
  | none => true

/-- The state from which a guarded section starts still passes the test that
its caller made. -/
def StillFits (s : System t H) : Step t H → Prop
  | .allocLocked h o => o = ⟨true,true⟩ → passes s.session.qmem (s.pending h) = true
  | .setMaxStore h => passes s.session.qmem (s.pending h) = true
  | _ => True

instance (s : System t H) : (l : Step t H) → Decidable (StillFits s l)
  | .allocLocked h o => inferInstanceAs
      (Decidable (o = ⟨true,true⟩ → passes s.session.qmem (s.pending h) = true))
  | .setMaxStore h => inferInstanceAs (Decidable (passes s.session.qmem (s.pending h) = true))
  | .allocTests _ _ _ | .get _ _ | .put _ _ | .free _ _ | .setMaxTest _ _ =>
    inferInstanceAs (Decidable True)

def Tested (pending : H → Option (Call t)) : Prop :=
  ∀ h c, pending h = some c → match c with
    | .alloc n _ => 1 ≤ n.toNat ∧ n.toNat ≤ qmemMaxQubitsPerBlock
    | .setMaxQubits m => m.toNat ≤ intMax

variable [DecidableEq H]

def System.await (s : System t H) (h : H) (c : Call t) : System t H :=
  { s with pending := Function.update s.pending h (some c) }

def System.finish (s : System t H) (h : H) (r : Session t H) : System t H :=
  ⟨r,Function.update s.pending h none⟩

def System.allocTests (s : System t H) (h : H) (numQubits flags : ULong t) : System t H :=
  if QuantumMemory.allocTests s.session.qmem numQubits < 0 then s
  else s.await h (.alloc numQubits flags)

def System.setMaxTest (s : System t H) (h : H) (maxQubits : ULong t) : System t H :=
  if QuantumMemory.setMaxTest s.session.qmem maxQubits then s
  else s.await h (.setMaxQubits maxQubits)

def System.allocLocked (s : System t H) (h : H) (o : AllocOutcome) : Option (System t H) :=
  match s.pending h with
  | some (.alloc n flags) => (s.session.allocLocked h n flags o).map (s.finish h)
  | _ => none

def System.setMaxStore (s : System t H) (h : H) : Option (System t H) :=
  match s.pending h with
  | some (.setMaxQubits m) =>
    some (s.finish h { s.session with qmem := QuantumMemory.setMaxStore s.session.qmem m })
  | _ => none

def Call.isAlloc : Option (Call t) → Bool
  | some (.alloc _ _) => true
  | _ => false

def Call.isSetMax : Option (Call t) → Bool
  | some (.setMaxQubits _) => true
  | _ => false

def concurrent : Machine (System t H) (Step t H) where
  enabled s
    | .allocTests h _ _ => s.pending h = none
    | .allocLocked h _ => Call.isAlloc (s.pending h) = true
    | .get h p => (h,p) ∈ s.session.refs ∧ outstanding s.session.refs p+1 < 2^31
    | .put h p | .free h p => (h,p) ∈ s.session.refs
    | .setMaxTest h m => s.pending h = none ∧ m.toNat ≤ intMax
    | .setMaxStore h => Call.isSetMax (s.pending h) = true
  step s
    | .allocTests h n flags => some (s.allocTests h n flags)
    | .allocLocked h o => s.allocLocked h o
    | .get h p => (s.session.get h p).map (fun r => { s with session := r })
    | .put h p => (s.session.put h p).map (fun r => { s with session := r })
    | .free h p => (s.session.free h p).map (fun r => { s with session := r })
    | .setMaxTest h m => some (s.setMaxTest h m)
    | .setMaxStore h => s.setMaxStore h

instance (s : System t H) : (l : Step t H) → Decidable (concurrent.enabled s l)
  | .allocTests h _ _ => inferInstanceAs (Decidable (s.pending h = none))
  | .allocLocked h _ => inferInstanceAs (Decidable (Call.isAlloc (s.pending h) = true))
  | .get h p => inferInstanceAs
      (Decidable ((h,p) ∈ s.session.refs ∧ outstanding s.session.refs p+1 < 2^31))
  | .put h p | .free h p => inferInstanceAs (Decidable ((h,p) ∈ s.session.refs))
  | .setMaxTest h m => inferInstanceAs (Decidable (s.pending h = none ∧ m.toNat ≤ intMax))
  | .setMaxStore h => inferInstanceAs (Decidable (Call.isSetMax (s.pending h) = true))

theorem tested_await {pending : H → Option (Call t)} (hp : Tested pending) (h : H) {c : Call t}
    (hc : match c with
      | .alloc n _ => 1 ≤ n.toNat ∧ n.toNat ≤ qmemMaxQubitsPerBlock
      | .setMaxQubits m => m.toNat ≤ intMax) :
    Tested (Function.update pending h (some c)) := by
  intro i d hd
  by_cases hi : i = h
  · subst i
    rw [Function.update_self] at hd
    cases hd
    exact hc
  · rw [Function.update_of_ne hi] at hd
    exact hp i d hd

theorem tested_finish {pending : H → Option (Call t)} (hp : Tested pending) (h : H) :
    Tested (Function.update pending h none) := by
  intro i d hd
  by_cases hi : i = h
  · subst i
    simp at hd
  · rw [Function.update_of_ne hi] at hd
    exact hp i d hd

theorem tested_allocTests {s : System t H} (hp : Tested s.pending) (h : H) (n flags : ULong t) :
    Tested (s.allocTests h n flags).pending := by
  unfold System.allocTests
  split_ifs with ht
  · exact hp
  · exact tested_await hp h (allocTests_pass ht).1

theorem tested_setMaxTest {s : System t H} (hp : Tested s.pending) (h : H) {m : ULong t}
    (hm : m.toNat ≤ intMax) : Tested (s.setMaxTest h m).pending := by
  unfold System.setMaxTest
  split_ifs
  · exact hp
  · exact tested_await hp h hm

theorem allocTests_session (s : System t H) (h : H) (n flags : ULong t) :
    (s.allocTests h n flags).session = s.session := by
  unfold System.allocTests System.await
  split_ifs <;> rfl

theorem setMaxTest_session (s : System t H) (h : H) (m : ULong t) :
    (s.setMaxTest h m).session = s.session := by
  unfold System.setMaxTest System.await
  split_ifs <;> rfl

theorem pending_alloc {c : Option (Call t)} (h : Call.isAlloc c = true) :
    ∃ n flags, c = some (.alloc n flags) := by
  match c with
  | some (.alloc n flags) => exact ⟨n,flags,rfl⟩

theorem pending_setMax {c : Option (Call t)} (h : Call.isSetMax c = true) :
    ∃ m, c = some (.setMaxQubits m) := by
  match c with
  | some (.setMaxQubits m) => exact ⟨m,rfl⟩

/-- Every step that still fits has a result, sound and tested again. -/
theorem concurrent_step_sound {s : System t H} (hs : Sound s.session) (hp : Tested s.pending)
    {l : Step t H} (he : (concurrent.restrict StillFits).enabled s l) :
    ∃ r, concurrent.step s l = some r ∧ Sound r.session ∧ Tested r.pending := by
  obtain ⟨he,hfit⟩ := he
  cases l with
  | allocTests h n flags =>
    refine ⟨_,rfl,?_,tested_allocTests hp h n flags⟩
    rw [allocTests_session]
    exact hs
  | allocLocked h o =>
    obtain ⟨n,flags,hc⟩ := pending_alloc he
    obtain ⟨r,hr,hsr⟩ := allocLocked_sound hs h flags o (hp h _ hc)
      (fun ho => by simpa [StillFits,passes,hc] using hfit ho)
    have hstep : s.allocLocked h o = some (s.finish h r) := by simp [System.allocLocked,hc,hr]
    exact ⟨_,hstep,hsr,tested_finish hp h⟩
  | get h p =>
    obtain ⟨r,hr,hsr⟩ := get_sound hs he.1 he.2
    exact ⟨{ s with session := r },by simp [concurrent,hr],hsr,hp⟩
  | put h p =>
    obtain ⟨r,hr,hsr⟩ := free_sound hs he
    rw [← put_eq_free] at hr
    exact ⟨{ s with session := r },by simp [concurrent,hr],hsr,hp⟩
  | free h p =>
    obtain ⟨r,hr,hsr⟩ := free_sound hs he
    exact ⟨{ s with session := r },by simp [concurrent,hr],hsr,hp⟩
  | setMaxTest h m =>
    refine ⟨_,rfl,?_,tested_setMaxTest hp h he.2⟩
    rw [setMaxTest_session]
    exact hs
  | setMaxStore h =>
    obtain ⟨m,hc⟩ := pending_setMax he
    have hk := setMax_kept hs.held (hp h _ hc) (by simpa [StillFits,passes,hc] using hfit)
    have hstep : s.setMaxStore h = some
        (s.finish h { s.session with qmem := setMaxStore s.session.qmem m }) := by
      simp [System.setMaxStore,hc]
    exact ⟨_,hstep,⟨hk.held,hk.counted hs.counted,hs.few⟩,tested_finish hp h⟩

/-- A run in which each guarded section still passes its test when it starts
keeps within the limit. -/
theorem interleaved_limit {s : System t H} {ls : List (Step t H)}
    (h : Run (concurrent.restrict StillFits) booted ls s) : WithinLimit s.session.qmem := by
  have hs : Sound s.session ∧ Tested s.pending := by
    apply h.sound (I := fun s => Sound s.session ∧ Tested s.pending)
    · exact fun s l hs he => concurrent_step_sound hs.1 hs.2 he
    · exact ⟨loaded_sound,fun h c hc => by cases hc⟩
  exact hs.1.accounting.limit.2

theorem interleaved_limit_tight :
    ∃ s, Run (concurrent.restrict StillFits) (booted : System .bits64 Bool)
      [.setMaxTest false 64,.allocTests true 60 0,.setMaxStore false,.allocTests false 4 0,
        .allocLocked true ⟨true,true⟩,.allocLocked false ⟨true,true⟩,.free true 1] s ∧
      WithinLimit s.session.qmem := by
  have h : ∃ s, Run (concurrent.restrict StillFits) (booted : System .bits64 Bool)
      [.setMaxTest false 64,.allocTests true 60 0,.setMaxStore false,.allocTests false 4 0,
        .allocLocked true ⟨true,true⟩,.allocLocked false ⟨true,true⟩,.free true 1] s :=
    ⟨_,run_iff_exec.mpr rfl⟩
  obtain ⟨s,hs⟩ := h
  exact ⟨s,hs,interleaved_limit hs⟩

/-- Two callers pass the test before either takes the lock. -/
theorem interleaved_limit_race :
    ∃ s, Run concurrent (booted : System .bits64 Bool)
      [.setMaxTest false 64,.setMaxStore false,.allocTests false 64 0,.allocTests true 64 0,
        .allocLocked false ⟨true,true⟩,.allocLocked true ⟨true,true⟩] s ∧
      ¬WithinLimit s.session.qmem := by
  refine ⟨_,run_iff_exec.mpr rfl,?_⟩
  unfold WithinLimit
  decide

end CtrlxtKernel.QuantumMemory
