import CtrlxtKernel.QuantumMemoryInterleaving
import CtrlxtKernel.QuantumMemoryStore

/-!
# Interleaved calls in a row

A call of the memory manager takes effect at its last step: at the section that
its test guards, or at the test itself when that refuses. When every guarded
section starts from a state that still passes its test, the calls do the same
one after the other in the order of their last steps, with the same answers.
-/

set_option autoImplicit false

namespace CtrlxtKernel.QuantumMemory
open MachineInt ObjectHeap RefLedger StepMachine LimitedStore

variable {t : Target} {H : Type*} [DecidableEq H]

/-- The state from which a section starts still passes the test that its caller
made, whether or not memory will be found. -/
def StillPasses (s : System t H) : Step t H → Prop
  | .allocLocked h _ | .setMaxStore h => passes s.session.qmem (s.pending h) = true
  | _ => True

instance (s : System t H) : (l : Step t H) → Decidable (StillPasses s l)
  | .allocLocked h _ | .setMaxStore h =>
    inferInstanceAs (Decidable (passes s.session.qmem (s.pending h) = true))
  | .allocTests _ _ _ | .get _ _ | .put _ _ | .free _ _ | .setMaxTest _ _ =>
    inferInstanceAs (Decidable True)

/-- The call that ends with the step, if one does. A test that refuses asks for no memory. -/
def ended (s : System t H) : Step t H → Option (SerialCall t H)
  | .allocTests h n flags =>
    if allocTests s.session.qmem n < 0 then some (.alloc h n flags ⟨true,true⟩) else none
  | .allocLocked h o =>
    match s.pending h with
    | some (.alloc n flags) => some (.alloc h n flags o)
    | _ => none
  | .get h p => some (.get h p)
  | .put h p => some (.put h p)
  | .free h p => some (.free h p)
  | .setMaxTest _ m => if setMaxTest s.session.qmem m then some (.setMaxQubits m) else none
  | .setMaxStore h =>
    match s.pending h with
    | some (.setMaxQubits m) => some (.setMaxQubits m)
    | _ => none

def stepAnswer (s : System t H) : Step t H → List (Option (Event H))
  | .allocTests h n _ =>
    if allocTests s.session.qmem n < 0 then
      [allocAnswer h n ⟨true,true⟩ (.errPtr (allocTests s.session.qmem n))]
    else []
  | .allocLocked h o =>
    match s.pending h with
    | some (.alloc n flags) =>
      [(allocLocked s.session.qmem n flags o).bind fun r => allocAnswer h n o r.2]
    | _ => []
  | .get h p => [answer s.session (.get h p)]
  | .put h p => [answer s.session (.put h p)]
  | .free h p => [answer s.session (.free h p)]
  | .setMaxTest _ m =>
    if setMaxTest s.session.qmem m then [setMaxAnswer m (-einval)] else []
  | .setMaxStore h =>
    match s.pending h with
    | some (.setMaxQubits m) => [setMaxAnswer m 0]
    | _ => []

def InStep (s : System t H) (r : Session t H) : Prop :=
  r = s.session ∧ Sound s.session ∧ Tested s.pending

omit [DecidableEq H] in
theorem stillPasses_fits {s : System t H} {l : Step t H} (h : StillPasses s l) : StillFits s l := by
  cases l with
  | allocLocked k o => exact fun _ => h
  | setMaxStore k => exact h
  | _ => trivial

theorem passing_enabled {s : System t H} {l : Step t H}
    (h : (concurrent.restrict StillPasses).enabled s l) :
    (concurrent.restrict StillFits).enabled s l :=
  ⟨h.1,stillPasses_fits h.2⟩

theorem allocTests_passing {q : CtrlxtQmem t} {n : ULong t}
    (hn : 1 ≤ n.toNat ∧ n.toNat ≤ qmemMaxQubitsPerBlock) (hl : overLimit q n = false) :
    allocTests q n = 0 := by
  have hsize : ¬(n = 0 ∨ n.toNat > qmemMaxQubitsPerBlock) := by
    rintro (rfl | hbig)
    · simp at hn
    · omega
  rw [allocTests,if_neg hsize,hl]
  rfl

def Linear (s u : System t H) (l : Step t H) : Prop :=
  (ended s l = none ∧ stepAnswer s l = [] ∧ u.session = s.session) ∨
    ∃ c, ended s l = some c ∧ (serial.restrict RefsFit).enabled s.session c ∧
      serial.step s.session c = some u.session ∧ stepAnswer s l = [answer s.session c]

theorem allocTests_linear (s : System t H) (h : H) (n flags : ULong t) :
    Linear s (s.allocTests h n flags) (.allocTests h n flags) := by
  by_cases ht : allocTests s.session.qmem n < 0
  · have hcall : ctrlxtQmemAlloc s.session.qmem n flags ⟨true,true⟩ =
        some (s.session.qmem,.errPtr (allocTests s.session.qmem n)) := by
      rw [ctrlxtQmemAlloc,if_pos ht]
    refine Or.inr ⟨.alloc h n flags ⟨true,true⟩,if_pos ht,⟨trivial,trivial⟩,?_,?_⟩
    · show s.session.alloc h n flags ⟨true,true⟩ = _
      rw [Session.alloc,hcall,allocTests_session]
      rfl
    · rw [stepAnswer,if_pos ht,answer,hcall]
      rfl
  · exact Or.inl ⟨if_neg ht,if_neg ht,allocTests_session s h n flags⟩

theorem allocLocked_linear {s u : System t H} (hp : Tested s.pending) {h : H} {o : AllocOutcome}
    (hfit : StillPasses s (.allocLocked h o)) (hu : s.allocLocked h o = some u) :
    Linear s u (.allocLocked h o) := by
  cases hc : s.pending h with
  | none => simp [System.allocLocked,hc] at hu
  | some c =>
    cases c with
    | setMaxQubits m => simp [System.allocLocked,hc] at hu
    | alloc n flags =>
      have hl : overLimit s.session.qmem n = false := by simpa [StillPasses,passes,hc] using hfit
      have hcall : ctrlxtQmemAlloc s.session.qmem n flags o =
          QuantumMemory.allocLocked s.session.qmem n flags o := by
        rw [ctrlxtQmemAlloc,allocTests_passing (hp h _ hc) hl,if_neg (lt_irrefl 0)]
      simp only [System.allocLocked,hc] at hu
      obtain ⟨r,hr,rfl⟩ := Option.map_eq_some_iff.mp hu
      refine Or.inr ⟨.alloc h n flags o,by rw [ended,hc],⟨trivial,trivial⟩,?_,?_⟩
      · show s.session.alloc h n flags o = some r
        rw [← hr,Session.alloc,hcall]
        rfl
      · rw [answer,hcall]
        simp only [stepAnswer,hc]

theorem setMaxTest_linear (s : System t H) (h : H) {m : ULong t} (hm : m.toNat ≤ intMax) :
    Linear s (s.setMaxTest h m) (.setMaxTest h m) := by
  cases ht : setMaxTest s.session.qmem m with
  | true =>
    have hcall : ctrlxtQmemSetMaxQubits s.session.qmem m = (s.session.qmem,-einval) := by
      rw [ctrlxtQmemSetMaxQubits,ht,if_pos rfl]
    refine Or.inr ⟨.setMaxQubits m,if_pos ht,⟨hm,trivial⟩,?_,?_⟩
    · show some { s.session with qmem := (ctrlxtQmemSetMaxQubits s.session.qmem m).1 } = _
      rw [hcall,setMaxTest_session]
    · rw [stepAnswer,if_pos ht,answer,hcall]
  | false =>
    have ht' : ¬setMaxTest s.session.qmem m = true := by simp [ht]
    exact Or.inl ⟨if_neg ht',if_neg ht',setMaxTest_session s h m⟩

theorem setMaxStore_linear {s u : System t H} (hp : Tested s.pending) {h : H}
    (hfit : StillPasses s (.setMaxStore h)) (hu : s.setMaxStore h = some u) :
    Linear s u (.setMaxStore h) := by
  cases hc : s.pending h with
  | none => simp [System.setMaxStore,hc] at hu
  | some c =>
    cases c with
    | alloc n flags => simp [System.setMaxStore,hc] at hu
    | setMaxQubits m =>
      have ht : setMaxTest s.session.qmem m = false := by simpa [StillPasses,passes,hc] using hfit
      have hcall : ctrlxtQmemSetMaxQubits s.session.qmem m =
          (QuantumMemory.setMaxStore s.session.qmem m,0) := by
        rw [ctrlxtQmemSetMaxQubits,ht]
        rfl
      simp only [System.setMaxStore,hc] at hu
      cases hu
      refine Or.inr ⟨.setMaxQubits m,by rw [ended,hc],⟨hp h _ hc,trivial⟩,?_,?_⟩
      · show some { s.session with qmem := (ctrlxtQmemSetMaxQubits s.session.qmem m).1 } = _
        rw [hcall]
        rfl
      · rw [answer,hcall]
        simp only [stepAnswer,hc]

theorem step_linear {s u : System t H} (hp : Tested s.pending) {l : Step t H}
    (he : (concurrent.restrict StillPasses).enabled s l) (hu : concurrent.step s l = some u) :
    Linear s u l := by
  obtain ⟨he,hfit⟩ := he
  cases l with
  | allocTests h n flags =>
    cases hu
    exact allocTests_linear s h n flags
  | allocLocked h o => exact allocLocked_linear hp hfit hu
  | setMaxTest h m =>
    cases hu
    exact setMaxTest_linear s h he.2
  | setMaxStore h => exact setMaxStore_linear hp hfit hu
  | get h p =>
    obtain ⟨r,hr,rfl⟩ := Option.map_eq_some_iff.mp hu
    exact Or.inr ⟨.get h p,rfl,he,hr,rfl⟩
  | put h p =>
    obtain ⟨r,hr,rfl⟩ := Option.map_eq_some_iff.mp hu
    exact Or.inr ⟨.put h p,rfl,⟨he,trivial⟩,hr,rfl⟩
  | free h p =>
    obtain ⟨r,hr,rfl⟩ := Option.map_eq_some_iff.mp hu
    exact Or.inr ⟨.free h p,rfl,⟨he,trivial⟩,hr,rfl⟩

theorem concurrent_simulates :
    Simulates (concurrent.restrict StillPasses) (serial.restrict RefsFit)
      (fun (s : System t H) l => (ended s l).toList) stepAnswer (fun s l => [answer s l])
      InStep := by
  intro s l u r ⟨hsame,hs,hp⟩ he hu
  subst hsame
  have hstep : concurrent.step s l = some u := hu
  obtain ⟨u',hu',hsound,htested⟩ := concurrent_step_sound hs hp (passing_enabled he)
  obtain rfl : u' = u := Option.some.inj (hu'.symm.trans hstep)
  refine ⟨u'.session,?_⟩
  rcases step_linear hp he hstep with ⟨hend,hanswer,hsession⟩ | ⟨c,hend,hen,hc,hanswer⟩
  · simp only [hend,hanswer,hsession]
    exact ⟨.nil _,⟨hsession.symm,hsound,htested⟩,rfl⟩
  · simp only [hend,hanswer,Option.toList_some]
    exact ⟨Run.single hen hc,⟨rfl,hsound,htested⟩,trace_cons (M := serial.restrict RefsFit) hc⟩

/-- Interleaved calls whose sections still pass their tests leave the same
manager and the same references as the calls made one after the other, each at
its last step, and every caller gets the same answer. -/
theorem interleaved_linear {s : System t H} {ls : List (Step t H)}
    (h : Run (concurrent.restrict StillPasses) booted ls s) :
    ∃ calls, calls = trace concurrent (fun s l => (ended s l).toList) booted ls ∧
      Run (serial.restrict RefsFit) loaded calls s.session ∧
      trace serial (fun s l => [answer s l]) loaded calls = trace concurrent stepAnswer booted ls := by
  have hstart : InStep (booted : System t H) loaded :=
    ⟨rfl,loaded_sound,fun h c hc => by cases hc⟩
  obtain ⟨r,hr,⟨rfl,-⟩,hshown⟩ := h.simulate concurrent_simulates hstart
  simp only [trace_restrict] at hr hshown
  exact ⟨_,rfl,hr,hshown⟩

theorem interleaved_linear_overlapping :
    ∃ (s : System .bits64 Bool) (ls : List (Step .bits64 Bool)) (calls : List _), ls.length = 7 ∧
      Run (concurrent.restrict StillPasses) booted ls s ∧
      Run (serial.restrict RefsFit) loaded calls s.session := by
  have h : ∃ s, Run (concurrent.restrict StillPasses) (booted : System .bits64 Bool)
      [.setMaxTest false 64,.allocTests true 60 0,.setMaxStore false,.allocTests false 4 0,
        .allocLocked true ⟨true,true⟩,.allocLocked false ⟨true,true⟩,.free true 1] s :=
    ⟨_,run_iff_exec.mpr rfl⟩
  obtain ⟨s,hs⟩ := h
  obtain ⟨calls,-,hr,-⟩ := interleaved_linear hs
  exact ⟨s,_,calls,rfl,hs,hr⟩

/-- What any number of interleaved callers are answered is a run of the store,
and in the end the manager and its report stand for the store. -/
theorem interleaved_refines_store {s : System t H} {ls : List (Step t H)}
    (h : Run (concurrent.restrict StillPasses) booted ls s) :
    ∃ events v, trace concurrent stepAnswer booted ls = events.map some ∧
      Run (store H qmemMaxQubitsPerBlock) (Store.empty qmemMaxQubits) events v ∧
      Agrees s.session.qmem s.session.refs v ∧
      ∃ r, ctrlxtQmemGetStats s.session.qmem (some r) = some r ∧
        r.totalQubits.toInt = v.held ∧ r.allocatedQubits.toInt = v.held ∧
        r.maxQubits.toInt = v.limit ∧ r.freeQubits.toInt = v.limit-v.held := by
  have hstart : InStep (booted : System t H) loaded :=
    ⟨rfl,loaded_sound,fun h c hc => by cases hc⟩
  obtain ⟨r,hr,⟨rfl,-⟩,hlinear⟩ := h.simulate concurrent_simulates hstart
  obtain ⟨v,hv,hsv,hshown⟩ := hr.simulate serial_simulates loaded_standsFor
  simp only [trace_restrict] at hlinear hv hshown
  refine ⟨_,v,?_,hv,hsv.2,hsv.report⟩
  rw [← hlinear,← hshown]
  exact trace_map some hv

theorem interleaved_refines_store_overlapping :
    ∃ (s : System .bits64 Bool) (ls : List (Step .bits64 Bool)) (events : List (Event Bool))
      (v : Store Bool), ls.length = 7 ∧
      trace concurrent stepAnswer booted ls = events.map some ∧
      Run (store Bool qmemMaxQubitsPerBlock) (Store.empty qmemMaxQubits) events v ∧
      Agrees s.session.qmem s.session.refs v := by
  have h : ∃ s, Run (concurrent.restrict StillPasses) (booted : System .bits64 Bool)
      [.allocTests true 60 0,.allocTests false 65 0,.allocLocked true ⟨true,true⟩,.get true 1,
        .setMaxTest false 7,.put true 1,.free true 1] s := ⟨_,run_iff_exec.mpr rfl⟩
  obtain ⟨s,hs⟩ := h
  obtain ⟨events,v,htrace,hv,hagrees,-⟩ := interleaved_refines_store hs
  exact ⟨s,_,events,v,rfl,htrace,hv,hagrees⟩

end CtrlxtKernel.QuantumMemory
