import CtrlxtKernel.QuantumDeviceLoading
import CtrlxtKernel.QuantumMemorySerial

/-!
# Runs of the quantum device

The device holds its references to memory blocks under the name `none`; the
other callers of the memory manager step between its calls. What a call does
to `dev->memory` is one of four effects, and each invariant is read off them.
-/

set_option autoImplicit false

namespace CtrlxtKernel.QuantumDevice
open MachineInt ObjectHeap RefLedger StepMachine QuantumMemory

variable {t : Target} {H W : Type*}

structure DeviceRun (t : Target) (H W : Type*) where
  driver : Driver t
  session : Session t (Option H)
  world : W

def DeviceRun.memory (s : DeviceRun t H W) : Ptr :=
  match s.driver.quantumDev with
  | some d => d.memory
  | none => .null

def DeviceRun.withDev (s : DeviceRun t H W) (d : CtrlxtQuantumDevice t) : DeviceRun t H W :=
  { s with driver := { s.driver with quantumDev := some d } }

/-- The parameters of an allocation request that gets past `copy_from_user`. -/
def allocRequest (user : UserMemory t) (cmd : BitVec 32) (arg : ULong t) :
    Option (QuantumMemoryParams t) :=
  if cmd = quantumIoctlAllocMemory t then user.memoryParams arg else none

inductive DeviceCall (t : Target) (H : Type*) where
  | openFile
  | releaseFile
  | ioctl (cmd : BitVec 32) (arg : ULong t) (user : UserMemory t) (o : AllocOutcome)
  | exit
  | other (c : SerialCall t H)

def lift : SerialCall t H → SerialCall t (Option H)
  | .alloc h n flags o => .alloc (some h) n flags o
  | .get h p => .get (some h) p
  | .put h p => .put (some h) p
  | .free h p => .free (some h) p
  | .setMaxQubits m => .setMaxQubits m

theorem ioctl_numbers (t : Target) : quantumIoctlAllocMemory t ≠ quantumIoctlInit ∧
    quantumIoctlAllocMemory t ≠ quantumIoctlMeasure t ∧
    quantumIoctlAllocMemory t ≠ quantumIoctlApplyGate t ∧
    quantumIoctlFreeMemory ≠ quantumIoctlInit ∧
    quantumIoctlFreeMemory ≠ quantumIoctlMeasure t ∧
    quantumIoctlFreeMemory ≠ quantumIoctlApplyGate t ∧
    quantumIoctlFreeMemory ≠ quantumIoctlAllocMemory t ∧
    quantumIoctlMeasure t ≠ quantumIoctlInit ∧
    quantumIoctlApplyGate t ≠ quantumIoctlInit ∧
    quantumIoctlApplyGate t ≠ quantumIoctlMeasure t := by
  cases t <;> decide

variable {L : QuantumLayer t W} {user : UserMemory t} {o : AllocOutcome} {i : IoctlState t W}
  {cmd : BitVec 32} {arg : ULong t}

theorem ioctlCommand_alloc {params : QuantumMemoryParams t}
    (h : allocRequest user cmd arg = some params) :
    ioctlCommand L user o i cmd arg =
      (ctrlxtQmemAlloc i.qmem params.numQubits params.flags o).map fun (qmem,memory) =>
        ({ i with qmem := qmem, dev := { i.dev with memory := memory } },
          if memory.isErr then memory.ptrErr else 0) := by
  unfold allocRequest at h
  split_ifs at h with hc
  obtain ⟨h1,h2,h3,-⟩ := ioctl_numbers t
  subst hc
  simp only [ioctlCommand,if_neg h1,if_neg h2,if_neg h3,if_true,h]

theorem ioctlCommand_free :
    ioctlCommand L user o i quantumIoctlFreeMemory arg =
      (freeMemory i.qmem i.dev.memory).map fun qmem =>
        ({ i with qmem := qmem, dev := { i.dev with memory := .null } },0) := by
  obtain ⟨-,-,-,h1,h2,h3,h4,-⟩ := ioctl_numbers t
  simp only [ioctlCommand,if_neg h1,if_neg h2,if_neg h3,if_neg h4,if_true]

theorem ioctlCommand_measure :
    ioctlCommand L user o i (quantumIoctlMeasure t) arg =
      some ({ i with world := (L.stateMeasure i.world i.dev.state (.addr arg)).1 },
        (L.stateMeasure i.world i.dev.state (.addr arg)).2) := by
  obtain ⟨-,-,-,-,-,-,-,h1,-⟩ := ioctl_numbers t
  simp only [ioctlCommand,if_neg h1,if_true]

theorem ioctlCommand_gate :
    ioctlCommand L user o i (quantumIoctlApplyGate t) arg =
      some (match user.gateParams arg with
        | none => (i,-efault)
        | some params =>
          let call : GateCall := ⟨params.gate,i.dev.state,params.qubit.toInt,.null,0⟩
          ({ i with world := (L.gateApply i.world call).1 },(L.gateApply i.world call).2)) := by
  obtain ⟨-,-,-,-,-,-,-,-,h1,h2⟩ := ioctl_numbers t
  simp only [ioctlCommand,if_neg h1,if_neg h2,if_true]
  cases user.gateParams arg <;> rfl

/-- Every other command leaves the device and the memory manager alone. -/
theorem ioctlCommand_other (ha : allocRequest user cmd arg = none)
    (hf : cmd ≠ quantumIoctlFreeMemory) :
    ∃ world ret, ioctlCommand L user o i cmd arg = some ({ i with world := world },ret) := by
  unfold ioctlCommand
  split_ifs with h1 h2 h3 h4
  · exact ⟨_,_,rfl⟩
  · exact ⟨_,_,rfl⟩
  · cases user.gateParams arg with
    | none => exact ⟨_,_,rfl⟩
    | some params => exact ⟨_,_,rfl⟩
  · rw [allocRequest,if_pos h4] at ha
    rw [ha]
    exact ⟨_,_,rfl⟩
  · exact ⟨_,_,rfl⟩

theorem quantumIoctl_of {r : IoctlState t W} {ret : ℤ}
    (h : ioctlCommand L user o i cmd arg = some (r,ret)) :
    ∃ u, quantumIoctl L user o i cmd arg = some (u,ret) ∧ u.qmem = r.qmem ∧
      u.dev.memory = r.dev.memory ∧ u.world = r.world := by
  unfold quantumIoctl
  rw [h]
  by_cases h0 : ret = 0
  · exact ⟨{ r with dev := { r.dev with operationCount := r.dev.operationCount+1 } },
      by simp only [Option.bind_eq_bind,Option.bind_some,if_pos h0],rfl,rfl,rfl⟩
  · exact ⟨r,by simp only [Option.bind_eq_bind,Option.bind_some,if_neg h0],rfl,rfl,rfl⟩

theorem quantumIoctl_from {u : IoctlState t W} {ret : ℤ}
    (h : quantumIoctl L user o i cmd arg = some (u,ret)) :
    ∃ r, ioctlCommand L user o i cmd arg = some (r,ret) ∧ u.world = r.world := by
  obtain ⟨⟨r,ret'⟩,hr,-⟩ := Option.bind_eq_some_iff.mp h
  obtain ⟨v,hv,-,-,hw⟩ := quantumIoctl_of hr
  obtain ⟨rfl,rfl⟩ := Prod.mk.inj (Option.some.inj (hv.symm.trans h))
  exact ⟨r,hr,hw⟩

theorem quantumExit_qmem {D : Driver t} {d : CtrlxtQuantumDevice t}
    (hd : D.quantumDev = some d) {q q' : CtrlxtQmem t} {resources : Heap Resource}
    (h : quantumExit D q = some (resources,q')) :
    freeMemory q d.memory = some q' := by
  simp only [quantumExit,hd,freeDevice,Option.bind_eq_bind,Option.bind_eq_some_iff] at h
  obtain ⟨_,_,_,_,_,_,_,_,_,_,r,hr,_,_,he⟩ := h
  cases he
  exact hr

theorem init_memory {D₀ D : Driver t} {q q' : CtrlxtQmem t} {o : DeviceOutcome}
    (h : ctrlxtQuantumDeviceInit D₀ q o = some (D,q',0)) :
    q' = q ∧ ∃ d, D.quantumDev = some d ∧ d.memory = .null := by
  obtain ⟨rfl,rfl⟩ := init_installs h
  exact ⟨rfl,_,rfl,rfl⟩

def started (D : Driver t) (w : W) : DeviceRun t H W := ⟨D,loaded,w⟩

theorem started_memory {D₀ D : Driver t} {q : CtrlxtQmem t} {o : DeviceOutcome}
    (h : ctrlxtQuantumDeviceInit D₀ loadedQmem o = some (D,q,0)) (w : W) :
    (started D w : DeviceRun t H W).memory = .null := by
  obtain ⟨-,d,hd,hm⟩ := init_memory h
  rw [DeviceRun.memory,started,hd]
  exact hm

theorem held_used {s : Session t (Option H)} (hs : Sound s) {h : Option H} {p : ℕ}
    (hm : (h,p) ∈ s.refs) : p ∈ s.qmem.usedBlocks := by
  obtain ⟨b,hb,-⟩ := hs.held.live hm
  rw [hs.held.listed.mem,hb]
  rfl

theorem sizeAt_pos {s : Session t (Option H)} (hs : Sound s) {h : Option H} {p : ℕ}
    (hm : (h,p) ∈ s.refs) : 0 < sizeAt s.qmem p := by
  obtain ⟨b,hb,-⟩ := hs.held.live hm
  have h1 := (hs.held.listed.size p b hb).1
  simp only [sizeAt,hb,Option.map_some,Option.getD_some]
  omega

def otherHolds (refs : List (Option H × ℕ)) (p : ℕ) : Bool :=
  refs.any (fun r => r.1.isSome && r.2 == p)

def Apart (refs : List (Option H × ℕ)) : Prop := ∀ p, (none,p) ∈ refs → otherHolds refs p = false

theorem apart_iff {refs : List (Option H × ℕ)} :
    Apart refs ↔ ∀ p, (none,p) ∈ refs → ∀ h, (some h,p) ∉ refs := by
  apply forall₂_congr
  intro p _
  simp only [otherHolds,List.any_eq_false,Bool.and_eq_true,beq_iff_eq,not_and]
  constructor
  · exact fun ha h hm => ha (some h,p) hm rfl rfl
  · rintro ha ⟨_ | h,q⟩ hm hs rfl
    · cases hs
    · exact ha h hm

theorem Apart.subset {refs refs' : List (Option H × ℕ)} (h : Apart refs) (hs : refs' ⊆ refs) :
    Apart refs' :=
  apart_iff.mpr fun p hp h' hm => apart_iff.mp h p (hs hp) h' (hs hm)

theorem Apart.cons {refs : List (Option H × ℕ)} (h : Apart refs) {p : ℕ}
    (hp : ∀ k, (k,p) ∉ refs) (k : Option H) : Apart ((k,p)::refs) := by
  apply apart_iff.mpr
  intro q hq k' hm
  by_cases hqp : q = p
  · subst q
    have h1 := (List.mem_cons.mp hq).resolve_right (hp _)
    have h2 := (List.mem_cons.mp hm).resolve_right (hp _)
    cases (Prod.mk.inj h1).1.trans (Prod.mk.inj h2).1.symm
  · have hne : ∀ i, (i,q) ∈ (k,p)::refs → (i,q) ∈ refs := fun i hi =>
      (List.mem_cons.mp hi).resolve_left fun he => hqp (Prod.mk.inj he).2
    exact apart_iff.mp h q (hne _ hq) k' (hne _ hm)

theorem next_unheld {s : Session t (Option H)} (hs : Sound s) (k : Option H) :
    (k,s.qmem.heap.next) ∉ s.refs := by
  intro hm
  have hu := held_used hs hm
  rw [hs.held.listed.mem,block_fresh s.qmem (le_refl s.qmem.heap.next)] at hu
  cases hu

def asks : DeviceCall t H → Option (ULong t × AllocOutcome)
  | .ioctl cmd arg user o => (allocRequest user cmd arg).map (fun params => (params.numQubits,o))
  | _ => none

theorem asks_ioctl {l : DeviceCall t H} {n : ULong t} {o : AllocOutcome}
    (h : asks l = some (n,o)) : ∃ cmd arg user params, l = .ioctl cmd arg user o ∧
      allocRequest user cmd arg = some params ∧ params.numQubits = n := by
  cases l with
  | ioctl cmd arg user o' =>
    obtain ⟨params,hp,hn⟩ := Option.map_eq_some_iff.mp h
    obtain ⟨hnum,rfl⟩ := Prod.mk.inj hn
    exact ⟨cmd,arg,user,params,rfl,hp,hnum⟩
  | openFile | releaseFile | exit | other => cases h

variable [DecidableEq H]

/-- The ledger after an `ioctl`, which left `dev->memory` at `after`. -/
def record (s : Session t (Option H)) (user : UserMemory t) (cmd : BitVec 32) (arg : ULong t)
    (q : CtrlxtQmem t) (before after : Ptr) : Session t (Option H) :=
  if (allocRequest user cmd arg).isSome then s.grant none q after
  else if cmd = quantumIoctlFreeMemory then s.giveUp none q before
  else { s with qmem := q }

def DeviceRun.ioctl (L : QuantumLayer t W) (s : DeviceRun t H W) (cmd : BitVec 32)
    (arg : ULong t) (user : UserMemory t) (o : AllocOutcome) : Option (DeviceRun t H W × ℤ) :=
  match s.driver.quantumDev with
  | none => none
  | some d =>
    (quantumIoctl L user o ⟨d,s.session.qmem,s.world⟩ cmd arg).map fun (r,ret) =>
      (⟨{ s.driver with quantumDev := some r.dev },
        record s.session user cmd arg r.qmem d.memory r.dev.memory,r.world⟩,ret)

def DeviceRun.exit (s : DeviceRun t H W) : Option (DeviceRun t H W) :=
  (quantumExit s.driver s.session.qmem).map fun (resources,q) =>
    ⟨{ s.driver with resources := resources, quantumDev := none },
      s.session.giveUp none q s.memory,s.world⟩

def device (L : QuantumLayer t W) : Machine (DeviceRun t H W) (DeviceCall t H) where
  enabled s
    | .openFile | .releaseFile | .ioctl _ _ _ _ | .exit => s.driver.quantumDev.isSome = true
    | .other c => (serial.restrict RefsFit).enabled s.session (lift c)
  step s
    | .openFile => s.driver.quantumDev.map (fun d => s.withDev (quantumOpen d).1)
    | .releaseFile => s.driver.quantumDev.map (fun d => s.withDev (quantumRelease d))
    | .ioctl cmd arg user o => (s.ioctl L cmd arg user o).map Prod.fst
    | .exit => s.exit
    | .other c => (serial.step s.session (lift c)).map (fun r => { s with session := r })

instance (s : DeviceRun t H W) : (l : DeviceCall t H) → Decidable ((device L).enabled s l)
  | .openFile | .releaseFile | .ioctl _ _ _ _ | .exit =>
    inferInstanceAs (Decidable (s.driver.quantumDev.isSome = true))
  | .other c => inferInstanceAs (Decidable ((serial.restrict RefsFit).enabled s.session (lift c)))

def MemoryHeld (s : DeviceRun t H W) : Prop :=
  s.memory = .null ∨ ∃ p, s.memory = .obj p ∧ p ∈ s.session.qmem.usedBlocks ∧
    (none,p) ∈ s.session.refs

theorem giveUp_sound {s : Session t (Option H)} (hs : Sound s) {m : Ptr}
    (hm : m = .null ∨ ∃ p, m = .obj p ∧ (none,p) ∈ s.refs) :
    ∃ q, freeMemory s.qmem m = some q ∧ Sound (s.giveUp none q m) := by
  rcases hm with rfl | ⟨p,rfl,hp⟩
  · exact ⟨s.qmem,rfl,hs⟩
  · obtain ⟨r,hr,hsr⟩ := free_sound hs hp
    obtain ⟨q,hq,rfl⟩ := Option.map_eq_some_iff.mp hr
    exact ⟨q,by rw [freeMemory,if_neg (by simp),hq],hsr⟩

theorem ioctl_of {s : DeviceRun t H W} {d : CtrlxtQuantumDevice t}
    (hd : s.driver.quantumDev = some d) {r : IoctlState t W} {ret : ℤ}
    (h : ioctlCommand L user o ⟨d,s.session.qmem,s.world⟩ cmd arg = some (r,ret)) :
    ∃ u, s.ioctl L cmd arg user o = some (u,ret) ∧ u.memory = r.dev.memory ∧
      u.session = record s.session user cmd arg r.qmem s.memory r.dev.memory := by
  obtain ⟨i,hi,hq,hm,-⟩ := quantumIoctl_of h
  have hsm : s.memory = d.memory := by rw [DeviceRun.memory,hd]
  refine ⟨⟨{ s.driver with quantumDev := some i.dev },
    record s.session user cmd arg i.qmem d.memory i.dev.memory,i.world⟩,?_,hm,?_⟩
  · simp only [DeviceRun.ioctl,hd,hi,Option.map_some]
  · rw [hq,hm,hsm]

theorem ioctl_granted {s : DeviceRun t H W} (hs : Sound s.session)
    {d : CtrlxtQuantumDevice t} (hd : s.driver.quantumDev = some d)
    {params : QuantumMemoryParams t} (hr : allocRequest user cmd arg = some params)
    (hg : grants s.session.qmem params.numQubits o = true) :
    ∃ u, s.ioctl L cmd arg user o = some (u,0) ∧ Sound u.session ∧
      u.memory = .obj s.session.qmem.heap.next ∧
      u.session.refs = (none,s.session.qmem.heap.next)::s.session.refs := by
  obtain ⟨q,hq,hsq⟩ := alloc_granted hs none params.flags hg
  have hc := ioctlCommand_alloc (L := L) (o := o) (i := ⟨d,s.session.qmem,s.world⟩) hr
  rw [hq] at hc
  obtain ⟨u,hu,hm,hses⟩ := ioctl_of hd hc
  rw [record,if_pos (by rw [hr]; rfl)] at hses
  exact ⟨u,hu,by rw [hses]; exact hsq,hm,by rw [hses]; rfl⟩

theorem ioctl_refused {s : DeviceRun t H W} (hs : Sound s.session)
    {d : CtrlxtQuantumDevice t} (hd : s.driver.quantumDev = some d)
    {params : QuantumMemoryParams t} (hr : allocRequest user cmd arg = some params)
    (hg : grants s.session.qmem params.numQubits o = false) :
    ∃ u err, s.ioctl L cmd arg user o = some (u,err) ∧ Sound u.session ∧
      u.memory = .errPtr err ∧ u.session.refs = s.session.refs := by
  obtain ⟨q,err,hq,-,hsq⟩ := alloc_refused hs none params.flags hg
  have hc := ioctlCommand_alloc (L := L) (o := o) (i := ⟨d,s.session.qmem,s.world⟩) hr
  rw [hq] at hc
  obtain ⟨u,hu,hm,hses⟩ := ioctl_of hd hc
  rw [record,if_pos (by rw [hr]; rfl)] at hses
  exact ⟨u,err,hu,by rw [hses]; exact hsq,hm,by rw [hses]; rfl⟩

theorem other_apart {s r : Session t (Option H)} (hs : Sound s) (ha : Apart s.refs)
    {c : SerialCall t H} (he : serial.enabled s (lift c)) (h : serial.step s (lift c) = some r) :
    Apart r.refs := by
  cases c with
  | alloc h' n flags o =>
    cases hg : grants s.qmem n o with
    | true =>
      obtain ⟨q,hq,-⟩ := alloc_granted hs (some h') flags hg
      obtain ⟨x,hx,rfl⟩ := Option.map_eq_some_iff.mp h
      cases hq.symm.trans hx
      exact ha.cons (next_unheld hs) (some h')
    | false =>
      obtain ⟨q,e,hq,-⟩ := alloc_refused hs (some h') flags hg
      obtain ⟨x,hx,rfl⟩ := Option.map_eq_some_iff.mp h
      cases hq.symm.trans hx
      exact ha
  | get h' p =>
    obtain ⟨x,-,rfl⟩ := Option.map_eq_some_iff.mp h
    exact ha.subset (List.cons_subset.mpr ⟨he,List.Subset.refl _⟩)
  | put h' p | free h' p =>
    obtain ⟨x,-,rfl⟩ := Option.map_eq_some_iff.mp h
    exact ha.subset (erase_subset _ _ _)
  | setMaxQubits m =>
    cases h
    exact ha

theorem giveUp_apart {s : Session t (Option H)} (ha : Apart s.refs) (q : CtrlxtQmem t) (m : Ptr) :
    Apart (s.giveUp none q m).refs := by
  cases m with
  | obj p => exact ha.subset (erase_subset _ _ _)
  | null | errPtr e => exact ha

def Quiet (s u : DeviceRun t H W) : Prop :=
  (u.memory = s.memory ∧ holding u.session.refs none = holding s.session.refs none) ∨
  (u.memory = .null ∧ ∃ q, u.session = s.session.giveUp none q s.memory)

theorem ioctl_quiet {s : DeviceRun t H W} (hs : Sound s.session) (hv : MemoryHeld s)
    {d : CtrlxtQuantumDevice t} (hd : s.driver.quantumDev = some d)
    (hr : allocRequest user cmd arg = none) :
    ∃ u ret, s.ioctl L cmd arg user o = some (u,ret) ∧ Sound u.session ∧ Quiet s u ∧
      (Apart s.session.refs → Apart u.session.refs) ∧ (ret < 0 → u.memory = s.memory) := by
  by_cases hf : cmd = quantumIoctlFreeMemory
  · subst hf
    have hsm : s.memory = d.memory := by rw [DeviceRun.memory,hd]
    obtain ⟨q,hq,hsq⟩ := giveUp_sound hs (m := s.memory) (by
      rcases hv with h0 | ⟨p,hp,-,hm⟩
      · exact Or.inl h0
      · exact Or.inr ⟨p,hp,hm⟩)
    have hc : ioctlCommand L user o ⟨d,s.session.qmem,s.world⟩ quantumIoctlFreeMemory arg = _ :=
      ioctlCommand_free
    rw [← hsm,hq] at hc
    obtain ⟨u,hu,hm,hses⟩ := ioctl_of hd hc
    rw [record,if_neg (by rw [hr]; simp),if_pos rfl] at hses
    refine ⟨u,0,hu,by rw [hses]; exact hsq,Or.inr ⟨hm,q,hses⟩,fun ha => ?_,?_⟩
    · rw [hses]
      exact giveUp_apart ha q s.memory
    · exact fun h0 => absurd h0 (lt_irrefl 0)
  · obtain ⟨world,ret,hc⟩ := ioctlCommand_other (L := L) (o := o)
      (i := ⟨d,s.session.qmem,s.world⟩) hr hf
    obtain ⟨u,hu,hm,hses⟩ := ioctl_of hd hc
    have hsm : s.memory = d.memory := by rw [DeviceRun.memory,hd]
    rw [record,if_neg (by rw [hr]; simp),if_neg hf] at hses
    refine ⟨u,ret,hu,by rw [hses]; exact hs,Or.inl ⟨hm.trans hsm.symm,by rw [hses]⟩,?_,?_⟩
    · rw [hses]
      exact id
    · exact fun _ => hm.trans hsm.symm

theorem grant_holding (s : Session t (Option H)) (h : H) (q : CtrlxtQmem t) (p : Ptr) :
    holding (s.grant (some h) q p).refs none = holding s.refs none := by
  cases p with
  | obj p => exact holding_cons_ne s.refs (Option.some_ne_none h) p
  | null => rfl
  | errPtr e => rfl

/-- The other callers never touch the references of the device. -/
theorem other_holding {s r : Session t (Option H)} {c : SerialCall t H}
    (h : serial.step s (lift c) = some r) : holding r.refs none = holding s.refs none := by
  cases c with
  | alloc h' n flags o =>
    obtain ⟨x,-,rfl⟩ := Option.map_eq_some_iff.mp h
    exact grant_holding s h' x.1 x.2
  | get h' p =>
    obtain ⟨x,-,rfl⟩ := Option.map_eq_some_iff.mp h
    exact holding_cons_ne s.refs (Option.some_ne_none h') p
  | put h' p | free h' p =>
    obtain ⟨x,-,rfl⟩ := Option.map_eq_some_iff.mp h
    exact holding_erase_ne s.refs (Option.some_ne_none h') p
  | setMaxQubits m =>
    cases h
    rfl

theorem step_quiet {s u : DeviceRun t H W} (hs : Sound s.session) (hv : MemoryHeld s)
    {l : DeviceCall t H} (he : (device L).enabled s l) (ha : asks l = none)
    (hu : (device L).step s l = some u) :
    Sound u.session ∧ Quiet s u ∧ (Apart s.session.refs → Apart u.session.refs) := by
  cases l with
  | openFile =>
    obtain ⟨d,hd,rfl⟩ := Option.map_eq_some_iff.mp hu
    refine ⟨hs,Or.inl ⟨?_,rfl⟩,id⟩
    simp only [DeviceRun.memory,DeviceRun.withDev,hd,quantumOpen]
    split_ifs <;> rfl
  | releaseFile =>
    obtain ⟨d,hd,rfl⟩ := Option.map_eq_some_iff.mp hu
    refine ⟨hs,Or.inl ⟨?_,rfl⟩,id⟩
    simp only [DeviceRun.memory,DeviceRun.withDev,hd,quantumRelease]
  | ioctl cmd arg user o =>
    obtain ⟨d,hd⟩ := Option.isSome_iff_exists.mp he
    obtain ⟨v,ret,hv',hsv,hq,ha,-⟩ := ioctl_quiet (L := L) (o := o) hs hv hd
      (Option.map_eq_none_iff.mp ha)
    obtain rfl : v = u := by
      change (s.ioctl L cmd arg user o).map Prod.fst = some u at hu
      rw [hv'] at hu
      exact Option.some.inj hu
    exact ⟨hsv,hq,ha⟩
  | exit =>
    obtain ⟨d,hd⟩ := Option.isSome_iff_exists.mp he
    obtain ⟨⟨resources,q⟩,hq,rfl⟩ := Option.map_eq_some_iff.mp hu
    have hsm : s.memory = d.memory := by rw [DeviceRun.memory,hd]
    have hfree := quantumExit_qmem hd hq
    rw [← hsm] at hfree
    obtain ⟨q',hq',hsq⟩ := giveUp_sound hs (m := s.memory) (by
      rcases hv with h0 | ⟨p,hp,-,hm⟩
      · exact Or.inl h0
      · exact Or.inr ⟨p,hp,hm⟩)
    obtain rfl : q' = q := Option.some.inj (hq'.symm.trans hfree)
    exact ⟨hsq,Or.inr ⟨rfl,q',rfl⟩,fun ha => giveUp_apart ha q' s.memory⟩
  | other c =>
    obtain ⟨r,hr,rfl⟩ := Option.map_eq_some_iff.mp hu
    obtain ⟨r',hr',hsr⟩ := serial_step_sound hs he
    obtain rfl : r = r' := Option.some.inj (hr.symm.trans hr')
    exact ⟨hsr,Or.inl ⟨rfl,other_holding hr⟩,fun ha => other_apart hs ha he.1 hr⟩

theorem quiet_held {s u : DeviceRun t H W} (hu : Sound u.session) (hv : MemoryHeld s)
    (hq : Quiet s u) : MemoryHeld u := by
  rcases hq with ⟨hm,hr⟩ | ⟨hm,-⟩
  · rcases hv with h0 | ⟨p,hp,-,hmem⟩
    · exact Or.inl (hm.trans h0)
    · have hmem' : (none,p) ∈ u.session.refs := by
        rw [← mem_holding,hr,mem_holding]
        exact hmem
      exact Or.inr ⟨p,hm.trans hp,held_used hu hmem',hmem'⟩
  · exact Or.inl hm

def AllocSucceeds (s : DeviceRun t H W) (l : DeviceCall t H) : Prop :=
  (asks l).all (fun (numQubits,o) => grants s.session.qmem numQubits o) = true

instance (s : DeviceRun t H W) (l : DeviceCall t H) : Decidable (AllocSucceeds s l) :=
  inferInstanceAs (Decidable (_ = true))

/-- The call leaves a valid pointer, and the same one if it returns an error. -/
def KeepsPointer (L : QuantumLayer t W) (s : DeviceRun t H W) (l : DeviceCall t H) : Prop :=
  (∀ u, (device L).step s l = some u → MemoryHeld u) ∧
  match l with
  | .ioctl cmd arg user o => ∀ u ret, s.ioctl L cmd arg user o = some (u,ret) → ret < 0 →
      u.memory = s.memory
  | _ => True

theorem step_granted {s : DeviceRun t H W} (hs : Sound s.session) {l : DeviceCall t H}
    (he : (device L).enabled s l) {n : ULong t} {o : AllocOutcome} (ha : asks l = some (n,o))
    (hg : grants s.session.qmem n o = true) :
    ∃ u, (device L).step s l = some u ∧ Sound u.session ∧
      u.memory = .obj s.session.qmem.heap.next ∧
      u.session.refs = (none,s.session.qmem.heap.next)::s.session.refs ∧ KeepsPointer L s l := by
  obtain ⟨cmd,arg,user,params,rfl,hp,rfl⟩ := asks_ioctl ha
  obtain ⟨d,hd⟩ := Option.isSome_iff_exists.mp he
  obtain ⟨u,hu,hsu,hm,hrefs⟩ := ioctl_granted (L := L) hs hd hp hg
  have hstep : (device L).step s (.ioctl cmd arg user o) = some u := by
    change (s.ioctl L cmd arg user o).map Prod.fst = some u
    rw [hu]
    rfl
  refine ⟨u,hstep,hsu,hm,hrefs,?_,?_⟩
  · intro v hv
    obtain rfl : u = v := Option.some.inj (hstep.symm.trans hv)
    have hmem : (none,s.session.qmem.heap.next) ∈ u.session.refs := by
      rw [hrefs]
      exact List.mem_cons_self
    exact Or.inr ⟨_,hm,held_used hsu hmem,hmem⟩
  · intro v ret hv hret
    rw [hu] at hv
    cases hv
    exact absurd hret (lt_irrefl 0)

theorem step_refused {s : DeviceRun t H W} (hs : Sound s.session) {l : DeviceCall t H}
    (he : (device L).enabled s l) {n : ULong t} {o : AllocOutcome} (ha : asks l = some (n,o))
    (hg : grants s.session.qmem n o = false) :
    ∃ u err, (device L).step s l = some u ∧ u.memory = .errPtr err := by
  obtain ⟨cmd,arg,user,params,rfl,hp,rfl⟩ := asks_ioctl ha
  obtain ⟨d,hd⟩ := Option.isSome_iff_exists.mp he
  obtain ⟨u,err,hu,-,hm,-⟩ := ioctl_refused (L := L) hs hd hp hg
  refine ⟨u,err,?_,hm⟩
  change (s.ioctl L cmd arg user o).map Prod.fst = some u
  rw [hu]
  rfl

theorem keepsPointer_quiet {s : DeviceRun t H W} (hs : Sound s.session) (hv : MemoryHeld s)
    {l : DeviceCall t H} (he : (device L).enabled s l) (ha : asks l = none) :
    KeepsPointer L s l := by
  constructor
  · intro u hu
    obtain ⟨hsu,hq,-⟩ := step_quiet hs hv he ha hu
    exact quiet_held hsu hv hq
  · cases l with
    | ioctl cmd arg user o =>
      obtain ⟨d,hd⟩ := Option.isSome_iff_exists.mp he
      obtain ⟨v,ret,hv',-,-,-,herr⟩ := ioctl_quiet (L := L) (o := o) hs hv hd
        (Option.map_eq_none_iff.mp ha)
      intro u ret' hu
      rw [hv'] at hu
      cases hu
      exact herr
    | openFile | releaseFile | exit | other => trivial

theorem keepsPointer_iff {s : DeviceRun t H W} (hs : Sound s.session) (hv : MemoryHeld s)
    {l : DeviceCall t H} (he : (device L).enabled s l) :
    KeepsPointer L s l ↔ AllocSucceeds s l := by
  unfold AllocSucceeds
  cases ha : asks l with
  | none => exact iff_of_true (keepsPointer_quiet hs hv he ha) rfl
  | some x =>
    obtain ⟨n,o⟩ := x
    cases hg : grants s.session.qmem n o with
    | true =>
      obtain ⟨-,-,-,-,-,hk⟩ := step_granted hs he ha hg
      simpa [hg] using hk
    | false =>
      obtain ⟨u,err,hu,hm⟩ := step_refused hs he ha hg
      simp only [Option.all_some,hg,Bool.false_eq_true,iff_false]
      intro hk
      rcases hk.1 u hu with h0 | ⟨p,hp,-,-⟩
      · rw [hm] at h0
        cases h0
      · rw [hm] at hp
        cases hp

theorem step_sound {s u : DeviceRun t H W} (hs : Sound s.session) (hv : MemoryHeld s)
    {l : DeviceCall t H} (he : (device L).enabled s l) (ha : AllocSucceeds s l)
    (hu : (device L).step s l = some u) : Sound u.session := by
  unfold AllocSucceeds at ha
  cases hask : asks l with
  | none => exact (step_quiet hs hv he hask hu).1
  | some x =>
    rw [hask] at ha
    obtain ⟨v,hv',hsv,-⟩ := step_granted hs he hask ha
    obtain rfl : v = u := Option.some.inj (hv'.symm.trans hu)
    exact hsv

/-- The pointer of the device stays valid along a run exactly when every
allocation it asks for is granted. -/
theorem memory_valid_iff {D₀ D : Driver t} {q : CtrlxtQmem t} {o : DeviceOutcome}
    (hi : ctrlxtQuantumDeviceInit D₀ loadedQmem o = some (D,q,0)) (w : W)
    {u : DeviceRun t H W} {ls : List (DeviceCall t H)}
    (h : Run (device L) (started D w) ls u) :
    Always (device L) (KeepsPointer L) (started D w) ls ↔
      Always (device L) AllocSucceeds (started D w) ls := by
  refine always_iff (I := fun s => Sound s.session ∧ MemoryHeld s)
    (fun s l hs he => keepsPointer_iff hs.1 hs.2 he) (fun s l u hs he hk hu => ?_) h
    ⟨loaded_sound,Or.inl (started_memory hi w)⟩
  exact ⟨step_sound hs.1 hs.2 he ((keepsPointer_iff hs.1 hs.2 he).mp hk) hu,hk.1 u hu⟩

def asking (numQubits : ULong .bits64) : UserMemory .bits64 :=
  ⟨fun _ => none,fun _ => some ⟨numQubits,0⟩⟩

def allocCall (numQubits : ULong .bits64) : DeviceCall .bits64 Unit :=
  .ioctl (quantumIoctlAllocMemory .bits64) 0 (asking numQubits) ⟨true,true⟩

def freeCall : DeviceCall .bits64 Unit :=
  .ioctl quantumIoctlFreeMemory 0 (asking 0) ⟨true,true⟩

def emptyDriver : Driver .bits64 := ⟨.empty,none,.null⟩

def smallDriver : Driver .bits64 :=
  ((ctrlxtQuantumDeviceInit emptyDriver loadedQmem ⟨true,true,0,0,0,0⟩).map Prod.fst).getD
    emptyDriver

theorem smallDriver_init :
    ctrlxtQuantumDeviceInit emptyDriver loadedQmem ⟨true,true,0,0,0,0⟩ =
      some (smallDriver,loadedQmem,0) := rfl

theorem memory_valid_shared :
    Always (device (idle .bits64)) (KeepsPointer (idle .bits64)) (started smallDriver ())
      [.openFile,allocCall 3,.other (.alloc () 7 0 ⟨true,true⟩),freeCall,freeCall,allocCall 64,
        .releaseFile,.exit] := by
  have h : ∃ u, Run ((device (idle .bits64)).restrict AllocSucceeds) (started smallDriver ())
      [.openFile,allocCall 3,.other (.alloc () 7 0 ⟨true,true⟩),freeCall,freeCall,allocCall 64,
        .releaseFile,.exit] u := ⟨_,run_iff_exec.mpr rfl⟩
  obtain ⟨u,hu⟩ := h
  obtain ⟨hrun,hsucc⟩ := restrict_run_iff.mp hu
  exact (memory_valid_iff smallDriver_init () hrun).mpr hsucc

/-- A request for no qubits leaves an error pointer, which the next
`QUANTUM_IOCTL_FREE_MEMORY` takes for a block. -/
theorem memory_error_pointer :
    ∃ u, Run (device (idle .bits64)) (started smallDriver ()) [.openFile,allocCall 0] u ∧
      ¬MemoryHeld u ∧ (device (idle .bits64)).enabled u freeCall ∧
      (device (idle .bits64)).step u freeCall = none := by
  refine ⟨_,run_iff_exec.mpr rfl,?_,rfl,rfl⟩
  rintro (h | ⟨p,h,-⟩) <;> cases h

/-- The qubits of the used blocks that no other caller refers to. -/
def deviceQubits (s : DeviceRun t H W) : ℕ :=
  ((s.session.qmem.usedBlocks.filter (fun p => !otherHolds s.session.refs p)).map
    (sizeAt s.session.qmem)).sum

def otherQubits (s : DeviceRun t H W) : ℕ :=
  ((s.session.qmem.usedBlocks.filter (otherHolds s.session.refs)).map
    (sizeAt s.session.qmem)).sum

def memoryQubits (s : DeviceRun t H W) : ℕ :=
  match s.memory with
  | .obj p => sizeAt s.session.qmem p
  | _ => 0

/-- The manager holds for the device what its pointer names, and after the
exit nothing; the rest of its count is held for the other callers. -/
def KeepsCount (L : QuantumLayer t W) (s : DeviceRun t H W) (l : DeviceCall t H) : Prop :=
  ∀ u, (device L).step s l = some u → deviceQubits u = memoryQubits u ∧
    u.session.qmem.allocatedQubits.toInt = memoryQubits u+otherQubits u ∧
    (l = .exit → deviceQubits u = 0)

def AsksEmpty (s : DeviceRun t H W) (l : DeviceCall t H) : Prop :=
  asks l = none ∨ s.memory = .null

instance (s : DeviceRun t H W) (l : DeviceCall t H) : Decidable (AsksEmpty s l) :=
  inferInstanceAs (Decidable (asks l = none ∨ s.memory = .null))

omit [DecidableEq H] in
theorem allocated_split {s : DeviceRun t H W} (hs : Sound s.session) :
    s.session.qmem.allocatedQubits.toInt = deviceQubits s+otherQubits s := by
  have hperm := List.filter_append_perm (otherHolds s.session.refs) s.session.qmem.usedBlocks
  have hsum := (hperm.map (sizeAt s.session.qmem)).sum_eq
  rw [List.map_append,List.sum_append] at hsum
  rw [hs.counted.allocated,heldQubits,← hsum,deviceQubits,otherQubits]
  push_cast
  exact add_comm _ _

omit [DecidableEq H] in
theorem mem_deviceBlocks {s : DeviceRun t H W} (hs : Sound s.session)
    (ha : Apart s.session.refs) (p : ℕ) :
    p ∈ s.session.qmem.usedBlocks.filter (fun p => !otherHolds s.session.refs p) ↔
      (none,p) ∈ s.session.refs := by
  rw [List.mem_filter,Bool.not_eq_true']
  constructor
  · rintro ⟨hu,ho⟩
    rw [hs.held.listed.mem] at hu
    obtain ⟨b,hb⟩ := Option.isSome_iff_exists.mp hu
    have hcount : QuantumMemory.counts s.session.qmem none p = some b.refCount := by
      simp [QuantumMemory.counts,hb]
    have hpos := (hs.held.tracks.live p).mp (by simp [hcount])
    obtain ⟨⟨k,q⟩,hm,hq⟩ := List.countP_pos_iff.mp hpos
    obtain rfl : q = p := of_decide_eq_true hq
    cases k with
    | none => exact hm
    | some h =>
      have hany : otherHolds s.session.refs q = true :=
        List.any_eq_true.mpr ⟨(some h,q),hm,by simp⟩
      rw [hany] at ho
      cases ho
  · exact fun hm => ⟨held_used hs hm,ha p hm⟩

theorem deviceQubits_ledger {s : DeviceRun t H W} (hs : Sound s.session)
    (ha : Apart s.session.refs) {ps : List ℕ} (hps : ps.Nodup)
    (hr : holding s.session.refs none = ps.map (Prod.mk none)) :
    deviceQubits s = (ps.map (sizeAt s.session.qmem)).sum := by
  have hperm : (s.session.qmem.usedBlocks.filter
      (fun p => !otherHolds s.session.refs p)).Perm ps := by
    rw [List.perm_ext_iff_of_nodup (hs.held.listed.nodup.filter _) hps]
    intro p
    rw [mem_deviceBlocks hs ha,← mem_holding,hr]
    simp
  exact (hperm.map (sizeAt s.session.qmem)).sum_eq

def Exact (s : DeviceRun t H W) : Prop :=
  (s.memory = .null ∧ holding s.session.refs none = []) ∨
  ∃ p, s.memory = .obj p ∧ holding s.session.refs none = [(none,p)]

theorem Exact.held {s : DeviceRun t H W} (h : Exact s) (hs : Sound s.session) : MemoryHeld s := by
  rcases h with ⟨hm,-⟩ | ⟨p,hm,hr⟩
  · exact Or.inl hm
  · have hmem : (none,p) ∈ s.session.refs := by
      rw [← mem_holding,hr]
      exact List.mem_singleton_self _
    exact Or.inr ⟨p,hm,held_used hs hmem,hmem⟩

theorem Exact.count {s : DeviceRun t H W} (h : Exact s) (hs : Sound s.session)
    (ha : Apart s.session.refs) : deviceQubits s = memoryQubits s := by
  rcases h with ⟨hm,hr⟩ | ⟨p,hm,hr⟩
  · rw [deviceQubits_ledger hs ha List.nodup_nil hr,memoryQubits,hm]
    rfl
  · rw [deviceQubits_ledger hs ha (List.nodup_singleton p) hr,memoryQubits,hm]
    exact List.sum_singleton

theorem quiet_exact {s u : DeviceRun t H W} (h : Exact s) (hq : Quiet s u) : Exact u := by
  rcases hq with ⟨hm,hr⟩ | ⟨hm,q,hses⟩
  · unfold Exact
    rw [hm,hr]
    exact h
  · refine Or.inl ⟨hm,?_⟩
    rw [hses]
    rcases h with ⟨hsm,hr⟩ | ⟨p,hsm,hr⟩
    · rw [hsm]
      exact hr
    · rw [hsm]
      rw [giveUp_refs,holding_erase_self,hr,drop_single]

structure Kept (s : DeviceRun t H W) : Prop where
  sound : Sound s.session
  apart : Apart s.session.refs
  exact : Exact s

theorem Kept.counts {s u : DeviceRun t H W} (h : Kept u) {l : DeviceCall t H}
    (hu : (device L).step s l = some u) : deviceQubits u = memoryQubits u ∧
      u.session.qmem.allocatedQubits.toInt = memoryQubits u+otherQubits u ∧
      (l = .exit → deviceQubits u = 0) := by
  have hcount := h.exact.count h.sound h.apart
  refine ⟨hcount,?_,?_⟩
  · rw [← hcount]
    exact allocated_split h.sound
  · rintro rfl
    obtain ⟨⟨resources,q⟩,-,rfl⟩ := Option.map_eq_some_iff.mp hu
    exact hcount

theorem quiet_kept {s u : DeviceRun t H W} (h : Kept s) {l : DeviceCall t H}
    (he : (device L).enabled s l) (ha : asks l = none) (hu : (device L).step s l = some u) :
    Kept u := by
  obtain ⟨hsu,hq,hau⟩ := step_quiet h.sound (h.exact.held h.sound) he ha hu
  exact ⟨hsu,hau h.apart,quiet_exact h.exact hq⟩

theorem granted_kept {s u : DeviceRun t H W} (h : Kept s) (hu : Sound u.session)
    (hm : u.memory = .obj s.session.qmem.heap.next)
    (hr : u.session.refs = (none,s.session.qmem.heap.next)::s.session.refs)
    (hs : s.memory = .null) : Kept u := by
  refine ⟨hu,?_,Or.inr ⟨_,hm,?_⟩⟩
  · rw [hr]
    exact h.apart.cons (next_unheld h.sound) none
  · rcases h.exact with ⟨-,hsr⟩ | ⟨b,hb,-⟩
    · rw [hr,holding_cons_self,hsr]
    · rw [hs] at hb
      cases hb

/-- A second block held next to the one the pointer names is counted in vain. -/
theorem granted_count {s u : DeviceRun t H W} (h : Kept s) (hu : Sound u.session)
    (hm : u.memory = .obj s.session.qmem.heap.next)
    (hr : u.session.refs = (none,s.session.qmem.heap.next)::s.session.refs)
    (hc : deviceQubits u = memoryQubits u) : s.memory = .null := by
  rcases h.exact with ⟨hsm,-⟩ | ⟨b,hsm,hsr⟩
  · exact hsm
  · have hb : (none,b) ∈ s.session.refs := by
      rw [← mem_holding,hsr]
      exact List.mem_singleton_self _
    have hne : s.session.qmem.heap.next ≠ b := by
      rintro rfl
      exact next_unheld h.sound none hb
    have hapart : Apart u.session.refs := by
      rw [hr]
      exact h.apart.cons (next_unheld h.sound) none
    have hheld : holding u.session.refs none =
        [s.session.qmem.heap.next,b].map (Prod.mk none) := by
      rw [hr,holding_cons_self,hsr]
      rfl
    have hpos : 0 < sizeAt u.session.qmem b := by
      apply sizeAt_pos hu (h := none)
      rw [hr]
      exact List.mem_cons_of_mem _ hb
    rw [deviceQubits_ledger hu hapart (by simpa using hne) hheld,memoryQubits,hm] at hc
    simp only [List.map_cons,List.map_nil,List.sum_cons,List.sum_nil] at hc
    omega

theorem keepsCount_iff {s : DeviceRun t H W} (hk : Kept s)
    {l : DeviceCall t H} (he : ((device L).restrict AllocSucceeds).enabled s l) :
    KeepsCount L s l ↔ AsksEmpty s l := by
  obtain ⟨he,ha⟩ := he
  unfold AllocSucceeds at ha
  unfold AsksEmpty
  cases hask : asks l with
  | none =>
    refine iff_of_true (fun u hu => ?_) (Or.inl rfl)
    exact (quiet_kept hk he hask hu).counts hu
  | some x =>
    rw [hask] at ha
    obtain ⟨u,hu,hsu,hm,hr,-⟩ := step_granted hk.sound he hask ha
    simp only [reduceCtorEq,false_or]
    constructor
    · exact fun hc => granted_count hk hsu hm hr (hc u hu).1
    · intro hn v hv
      obtain rfl : u = v := Option.some.inj (hu.symm.trans hv)
      exact (granted_kept hk hsu hm hr hn).counts hu

theorem step_kept {s u : DeviceRun t H W} (hk : Kept s)
    {l : DeviceCall t H} (he : ((device L).restrict AllocSucceeds).enabled s l)
    (ha : AsksEmpty s l) (hu : (device L).step s l = some u) : Kept u := by
  cases hask : asks l with
  | none => exact quiet_kept hk he.1 hask hu
  | some x =>
    have hg := he.2
    unfold AllocSucceeds at hg
    rw [hask] at hg
    obtain ⟨v,hv,hsv,hm,hr,-⟩ := step_granted hk.sound he.1 hask hg
    obtain rfl : v = u := Option.some.inj (hv.symm.trans hu)
    rcases ha with hn | hn
    · rw [hask] at hn
      cases hn
    · exact granted_kept hk hsv hm hr hn

/-- In a run whose allocations are granted, the manager holds for the device the
qubits of the block its pointer names, and none after the exit, exactly when
the device asks for memory only while the pointer is NULL. -/
theorem device_qubits_iff {D₀ D : Driver t} {q : CtrlxtQmem t} {o : DeviceOutcome}
    (hi : ctrlxtQuantumDeviceInit D₀ loadedQmem o = some (D,q,0)) (w : W)
    {u : DeviceRun t H W} {ls : List (DeviceCall t H)}
    (h : Run ((device L).restrict AllocSucceeds) (started D w) ls u) :
    Always (device L) (KeepsCount L) (started D w) ls ↔
      Always (device L) AsksEmpty (started D w) ls := by
  rw [← always_restrict (C := AllocSucceeds),
    ← always_restrict (C := AllocSucceeds) (D := AsksEmpty)]
  refine always_iff (I := Kept) (fun s l hs he => keepsCount_iff hs he)
    (fun s l u hs he hk hu => ?_) h ⟨loaded_sound,?_,Or.inl ⟨started_memory hi w,rfl⟩⟩
  · exact step_kept hs he ((keepsCount_iff hs he).mp hk) hu
  · intro p hp
    cases hp

theorem device_qubits_exit :
    Always (device (idle .bits64)) (KeepsCount (idle .bits64)) (started smallDriver ())
      [.openFile,allocCall 3,.other (.alloc () 7 0 ⟨true,true⟩),freeCall,allocCall 5,
        .releaseFile,.exit] := by
  have h : ∃ u, Run ((device (idle .bits64)).restrict AllocSucceeds) (started smallDriver ())
      [.openFile,allocCall 3,.other (.alloc () 7 0 ⟨true,true⟩),freeCall,allocCall 5,
        .releaseFile,.exit] u := ⟨_,run_iff_exec.mpr rfl⟩
  obtain ⟨u,hu⟩ := h
  exact (device_qubits_iff smallDriver_init () hu).mpr (by decide)

/-- A second allocation overwrites the pointer: three qubits stay held for the
device, and still are after the exit. -/
theorem device_qubits_lost :
    ∃ u v, Run ((device (idle .bits64)).restrict AllocSucceeds) (started smallDriver ())
        [.openFile,allocCall 3,allocCall 5] u ∧ deviceQubits u ≠ memoryQubits u ∧
      Run ((device (idle .bits64)).restrict AllocSucceeds) u [.releaseFile,.exit] v ∧
      deviceQubits v = 3 := by
  refine ⟨_,_,run_iff_exec.mpr rfl,?_,run_iff_exec.mpr rfl,?_⟩
  · decide
  · decide

end CtrlxtKernel.QuantumDevice
