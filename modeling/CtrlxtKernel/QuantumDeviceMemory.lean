import CtrlxtKernel.QuantumDeviceRuns

/-!
# What an ioctl writes

Memory is a byte at every address. The addresses below `taskSize` are the
user's, and `copy_from_user` fails on the others. Some addresses of the kernel
are the device's own: its structures, its quantum state and the memory
manager. The gate layer changes bytes of these and, when it measures to an
address, those of the result.
-/

set_option autoImplicit false

namespace CtrlxtKernel.QuantumDevice
open MachineInt ObjectHeap QuantumMemory

variable {t : Target} {W : Type*}

structure AddressSpace (t : Target) where
  taskSize : ℕ
  own : ULong t → Bool

def AddressSpace.IsUser (S : AddressSpace t) (a : ULong t) : Prop := a.toNat < S.taskSize

def copyFromUser (S : AddressSpace t) (memory : ULong t → UInt8) (a : ULong t) (size : ℕ) :
    Option (ℕ → UInt8) :=
  if a.toNat+size ≤ S.taskSize then some fun i => memory (a+BitVec.ofNat t.width i) else none

def littleEndian (bytes : ℕ → UInt8) (first : ℕ) : ℕ → ℕ
  | 0 => 0
  | size+1 => (bytes first).toNat+256*littleEndian bytes (first+1) size

/-- The parameter structures as the handler copies them. -/
def userMemory (S : AddressSpace t) (memory : ULong t → UInt8) : UserMemory t where
  gateParams a := (copyFromUser S memory a (sizeofGateParams t)).map fun bytes =>
    ⟨BitVec.ofNat 32 (littleEndian bytes 0 sizeofInt),
      BitVec.ofNat 32 (littleEndian bytes sizeofInt sizeofInt)⟩
  memoryParams a := (copyFromUser S memory a (sizeofMemoryParams t)).map fun bytes =>
    ⟨BitVec.ofNat t.width (littleEndian bytes 0 (sizeofPointer t)),
      BitVec.ofNat t.width (littleEndian bytes (sizeofPointer t) (sizeofPointer t))⟩

/-- The gate layer changes nothing outside the device's own memory, but for a
measurement to an address, which stores the `size` bytes of its result there. -/
structure MemoryLaws (S : AddressSpace t) (size : ℕ) (L : QuantumLayer t W) where
  memory : W → ULong t → UInt8
  result : W → Ptr → ℕ → UInt8
  gate : ∀ w c a, S.own a = false → memory (L.gateApply w c).1 a = memory w a
  init : ∀ w state value a, S.own a = false →
    memory (L.stateInit w state value).1 a = memory w a
  beside : ∀ w state a b, S.own b = false → size ≤ (b-a).toNat →
    memory (L.stateMeasure w state (.addr a)).1 b = memory w b
  stored : ∀ w state a b, S.own b = false → 0 ≤ (L.stateMeasure w state (.addr a)).2 →
    (b-a).toNat < size → memory (L.stateMeasure w state (.addr a)).1 b = result w state (b-a).toNat

/-- Under any gate layer the handler returns, every byte of the kernel that is
not the device's own is kept, and to measure to an address that is not the
user's fails with `EFAULT` and changes nothing. -/
def Confined (S : AddressSpace t) (size : ℕ) (o : AllocOutcome) (dev : CtrlxtQuantumDevice t)
    (qmem : CtrlxtQmem t) (cmd : BitVec 32) (arg : ULong t) : Prop :=
  ∀ (W : Type) (L : QuantumLayer t W) (laws : MemoryLaws S size L) (world : W),
    ∃ u ret, quantumIoctl L (userMemory S (laws.memory world)) o ⟨dev,qmem,world⟩ cmd arg =
        some (u,ret) ∧
      (∀ a, ¬S.IsUser a → S.own a = false → laws.memory u.world a = laws.memory world a) ∧
      (cmd = quantumIoctlMeasure t → ¬S.IsUser arg → ret = -efault ∧ u = ⟨dev,qmem,world⟩)

def Releasable (q : CtrlxtQmem t) (memory : Ptr) : Prop :=
  memory = .null ∨ ∃ p b, memory = .obj p ∧ q.block p = some b ∧
    (b.refCount-1 = 0 → ∀ st, b.state = some st → st ≠ p ∧ (q.heap.cells st).isSome)

theorem destroyBlock_iff {q : CtrlxtQmem t} {p : ℕ} {b : QuantumMemoryBlock t}
    (hb : q.block p = some b) : (∃ r, destroyBlock q p = some r) ↔
      ∀ st, b.state = some st → st ≠ p ∧ (q.heap.cells st).isSome := by
  have hp := block_eq_some.mp hb
  constructor
  · rintro ⟨r,hr⟩ st hst
    simp only [destroyBlock,hb,hst,Option.bind_eq_bind,Option.bind_some,
      Option.bind_eq_some_iff] at hr
    obtain ⟨h1,hh1,h2,hh2,-⟩ := hr
    obtain ⟨⟨a,ha⟩,hc1,-,-⟩ := free_spec hh1
    obtain ⟨⟨c,hc⟩,-,-,-⟩ := free_spec hh2
    refine ⟨?_,by rw [ha]; rfl⟩
    rintro rfl
    rw [hc1,Function.update_self] at hc
    cases hc
  · intro h
    cases hst : b.state with
    | none =>
      obtain ⟨k,hk⟩ := free_live hp
      exact ⟨withoutBlock q k p b.size,by
        simp only [destroyBlock,hb,hst,hk,Option.bind_eq_bind,Option.bind_some,withoutBlock]⟩
    | some st =>
      obtain ⟨hne,hlive⟩ := h st hst
      obtain ⟨a,ha⟩ := Option.isSome_iff_exists.mp hlive
      obtain ⟨h1,hh1⟩ := free_live ha
      obtain ⟨-,hc1,-,-⟩ := free_spec hh1
      obtain ⟨h2,hh2⟩ := free_live (show h1.cells p = some (.block b) by
        rw [hc1,Function.update_of_ne hne.symm,hp])
      exact ⟨withoutBlock q h2 p b.size,by
        simp only [destroyBlock,hb,hst,hh1,hh2,Option.bind_eq_bind,Option.bind_some,withoutBlock]⟩

theorem releasable_iff (q : CtrlxtQmem t) (memory : Ptr) :
    (∃ r, freeMemory q memory = some r) ↔ Releasable q memory := by
  cases memory with
  | null => exact ⟨fun _ => Or.inl rfl,fun _ => ⟨q,rfl⟩⟩
  | errPtr code => simp [freeMemory,ctrlxtQmemFree,Releasable]
  | obj p =>
    cases hb : q.block p with
    | none =>
      simp [freeMemory,ctrlxtQmemFree,atomicDecAndTest,Releasable,hb]
    | some b =>
      obtain ⟨k,hk,hc,hblock⟩ := ctrlxtQmemFree_live hb
      have hrel : Releasable q (.obj p) ↔ (b.refCount-1 = 0 → ∀ st, b.state = some st →
          st ≠ p ∧ (q.heap.cells st).isSome) := by
        simp [Releasable,hb]
      have hfree : freeMemory q (.obj p) =
          if b.refCount-1 = 0 then destroyBlock (withHeap q k) p else some (withHeap q k) := by
        rw [freeMemory,if_neg (by simp),hk]
      rw [hrel,hfree]
      by_cases hz : b.refCount-1 = 0
      · rw [if_pos hz,destroyBlock_iff hblock]
        have hcells : ∀ st, st ≠ p → ((withHeap q k).heap.cells st) = q.heap.cells st := by
          intro st hst
          rw [withHeap,hc,Function.update_of_ne hst]
        constructor
        · intro h _ st hst
          obtain ⟨hne,hl⟩ := h st hst
          exact ⟨hne,by rwa [hcells st hne] at hl⟩
        · intro h st hst
          obtain ⟨hne,hl⟩ := h hz st hst
          exact ⟨hne,by rwa [hcells st hne]⟩
      · rw [if_neg hz]
        exact ⟨fun _ h0 => absurd h0 hz,fun _ => ⟨_,rfl⟩⟩

theorem alloc_returns (q : CtrlxtQmem t) (numQubits flags : ULong t) (o : AllocOutcome) :
    ∃ r, ctrlxtQmemAlloc q numQubits flags o = some r := by
  rcases ctrlxtQmemAlloc_live q numQubits flags o with ⟨k,e,hk,-⟩ | ⟨-,k,hk,-⟩
  · exact ⟨_,hk⟩
  · exact ⟨_,hk⟩

theorem copy_faults {S : AddressSpace t} {arg : ULong t} (harg : ¬S.IsUser arg)
    {cmd : BitVec 32} (hcmd : cmd = quantumIoctlApplyGate t ∨ cmd = quantumIoctlAllocMemory t)
    (L : QuantumLayer t W) (memory : ULong t → UInt8) (o : AllocOutcome) (s : IoctlState t W) :
    quantumIoctl L (userMemory S memory) o s cmd arg = some (s,-efault) := by
  have hcopy : ∀ size, 0 < size → copyFromUser S memory arg size = none := by
    intro size hsize
    apply if_neg
    intro h
    exact harg (show arg.toNat < S.taskSize by omega)
  have hgate : (userMemory S memory).gateParams arg = none := by
    have hsize : 0 < sizeofGateParams t := by cases t <;> decide
    simp only [userMemory,hcopy _ hsize,Option.map_none]
  have hmemory : (userMemory S memory).memoryParams arg = none := by
    have hsize : 0 < sizeofMemoryParams t := by cases t <;> decide
    simp only [userMemory,hcopy _ hsize,Option.map_none]
  obtain ⟨h1,h2,h3,-,-,-,-,-,h4,h5⟩ := ioctl_numbers t
  have hret : (-efault) ≠ 0 := by decide
  rcases hcmd with rfl | rfl
  · simp only [quantumIoctl,ioctlCommand,if_neg h4,if_neg h5,if_true,hgate,Option.bind_eq_bind,
      Option.bind_some,if_neg hret]
  · simp only [quantumIoctl,ioctlCommand,if_neg h1,if_neg h2,if_neg h3,if_true,hmemory,
      Option.bind_eq_bind,Option.bind_some,if_neg hret]

/-- The result of a measurement fits into what an ioctl may change. -/
def ResultAllowed (S : AddressSpace t) (size : ℕ) (arg : ULong t) : Prop :=
  S.IsUser arg ∧ ∀ b, (b-arg).toNat < size → S.IsUser b ∨ S.own b = true

theorem ioctlCommand_frame {S : AddressSpace t} {size : ℕ} {L : QuantumLayer t W}
    (laws : MemoryLaws S size L) (user : UserMemory t) (o : AllocOutcome) (s : IoctlState t W)
    {cmd : BitVec 32} {arg : ULong t}
    (hm : cmd = quantumIoctlMeasure t → ResultAllowed S size arg)
    (hf : cmd = quantumIoctlFreeMemory → Releasable s.qmem s.dev.memory) :
    ∃ r ret, ioctlCommand L user o s cmd arg = some (r,ret) ∧
      ∀ a, ¬S.IsUser a → S.own a = false → laws.memory r.world a = laws.memory s.world a := by
  unfold ioctlCommand
  split_ifs with h1 h2 h3 h4 h5
  · exact ⟨_,_,rfl,fun a _ ha => laws.init _ _ _ a ha⟩
  · refine ⟨_,_,rfl,?_⟩
    intro a hu ha
    apply laws.beside _ _ _ a ha
    by_contra hlt
    rcases (hm h2).2 a (by omega) with hu' | ha'
    · exact hu hu'
    · rw [ha] at ha'
      cases ha'
  · cases user.gateParams arg with
    | none => exact ⟨_,_,rfl,fun _ _ _ => rfl⟩
    | some params => exact ⟨_,_,rfl,fun a _ ha => laws.gate _ _ a ha⟩
  · cases user.memoryParams arg with
    | none => exact ⟨_,_,rfl,fun _ _ _ => rfl⟩
    | some params =>
      obtain ⟨r,hr⟩ := alloc_returns s.qmem params.numQubits params.flags o
      simp only [hr,Option.map_some]
      exact ⟨_,_,rfl,fun _ _ _ => rfl⟩
  · obtain ⟨q,hq⟩ := (releasable_iff s.qmem s.dev.memory).mpr (hf h5)
    simp only [hq,Option.map_some]
    exact ⟨_,_,rfl,fun _ _ _ => rfl⟩
  · exact ⟨_,_,rfl,fun _ _ _ => rfl⟩

def stamping (t : Target) (size : ℕ) : QuantumLayer t (ULong t → UInt8) where
  gateX := 1
  gateY := 2
  gateZ := 3
  gateCnot := 4
  gateH := 5
  gatePhase := 6
  gateApply memory _ := (memory,0)
  stateInit memory _ _ := (memory,0)
  stateMeasure memory _
    | .addr a => (fun b => if (b-a).toNat < size then 1 else memory b,0)
    | .state _ => (memory,0)
  stateGetValue _ _ := 0

def stampingLaws (S : AddressSpace t) (size : ℕ) : MemoryLaws S size (stamping t size) where
  memory w := w
  result _ _ _ := 1
  gate _ _ _ _ := rfl
  init _ _ _ _ _ := rfl
  beside _ _ _ _ _ h := if_neg (by omega)
  stored _ _ _ _ _ _ h := if_pos h

theorem confined_measure {S : AddressSpace t} {size : ℕ} {o : AllocOutcome}
    {dev : CtrlxtQuantumDevice t} {qmem : CtrlxtQmem t} {arg : ULong t}
    (h : Confined S size o dev qmem (quantumIoctlMeasure t) arg) : ResultAllowed S size arg := by
  obtain ⟨u,ret,hu,hframe,hfault⟩ :=
    h _ (stamping t size) (stampingLaws S size) (fun _ => 0)
  obtain ⟨r,hr,hw⟩ := quantumIoctl_from hu
  rw [ioctlCommand_measure] at hr
  obtain ⟨rfl,rfl⟩ := Prod.mk.inj (Option.some.inj hr)
  constructor
  · by_contra hn
    have hret : (0:ℤ) = -efault := (hfault rfl hn).1
    exact absurd hret (by decide)
  · intro b hb
    by_contra hn
    obtain ⟨hu,ho⟩ := not_or.mp hn
    have hkept : u.world b = 0 := hframe b hu (Bool.eq_false_iff.mpr ho)
    have hone : u.world b = 1 := by
      rw [hw]
      exact if_pos hb
    rw [hkept] at hone
    exact absurd hone (by decide)

theorem confined_free {S : AddressSpace t} {size : ℕ} {o : AllocOutcome}
    {dev : CtrlxtQuantumDevice t} {qmem : CtrlxtQmem t} {arg : ULong t}
    (h : Confined S size o dev qmem quantumIoctlFreeMemory arg) :
    Releasable qmem dev.memory := by
  obtain ⟨u,ret,hu,-,-⟩ := h _ (stamping t size) (stampingLaws S size) (fun _ => 0)
  obtain ⟨r,hr,-⟩ := quantumIoctl_from hu
  rw [ioctlCommand_free] at hr
  obtain ⟨q,hq,-⟩ := Option.map_eq_some_iff.mp hr
  exact (releasable_iff qmem dev.memory).mp ⟨q,hq⟩

/-- The handler is confined but for a measurement to memory that is not the
user's and a release of what is not live. -/
theorem confined_iff (S : AddressSpace t) (size : ℕ) (o : AllocOutcome)
    (dev : CtrlxtQuantumDevice t) (qmem : CtrlxtQmem t) (cmd : BitVec 32) (arg : ULong t) :
    Confined S size o dev qmem cmd arg ↔
      (cmd = quantumIoctlMeasure t → ResultAllowed S size arg) ∧
      (cmd = quantumIoctlFreeMemory → Releasable qmem dev.memory) := by
  constructor
  · intro h
    constructor
    · rintro rfl
      exact confined_measure h
    · rintro rfl
      exact confined_free h
  · rintro ⟨hm,hf⟩ W L laws world
    obtain ⟨r,ret,hr,hframe⟩ := ioctlCommand_frame laws (userMemory S (laws.memory world)) o
      ⟨dev,qmem,world⟩ hm hf
    obtain ⟨u,hu,-,-,hw⟩ := quantumIoctl_of hr
    refine ⟨u,ret,hu,?_,?_⟩
    · intro a ha ho
      rw [hw]
      exact hframe a ha ho
    · intro hcmd hn
      exact absurd (hm hcmd).1 hn

def x86 : AddressSpace .bits64 where
  taskSize := 0x7ffffffff000
  own a := decide (0xffff888100000000 ≤ a.toNat ∧ a.toNat < 0xffff888100001000)

def opened : CtrlxtQuantumDevice .bits64 := { installedDevice .bits64 0 with openCount := 1 }

theorem confined_user :
    Confined x86 1 ⟨true,true⟩ opened .static (quantumIoctlMeasure .bits64) 0x7ffc00001000 := by
  apply (confined_iff x86 1 ⟨true,true⟩ opened .static _ _).mpr
  constructor
  · intro _
    refine ⟨by unfold AddressSpace.IsUser x86; decide,?_⟩
    intro b hb
    have hdiff : b-0x7ffc00001000 = 0 := BitVec.eq_of_toNat_eq (Nat.lt_one_iff.mp hb)
    obtain rfl : b = 0x7ffc00001000 := by rwa [BitVec.sub_eq_iff_eq_add,zero_add] at hdiff
    exact Or.inl (by unfold AddressSpace.IsUser x86; decide)
  · intro h
    exact absurd h (by decide)

/-- A measurement to an address of the kernel succeeds and overwrites the byte there. -/
theorem measure_overwrites_kernel :
    ∃ u, quantumIoctl (stamping .bits64 1) (userMemory x86 fun _ => 0) ⟨true,true⟩
        ⟨opened,.static,fun _ => 0⟩ (quantumIoctlMeasure .bits64) 0xffff888000000000 =
        some (u,0) ∧
      ¬x86.IsUser 0xffff888000000000 ∧ x86.own 0xffff888000000000 = false ∧
      u.world 0xffff888000000000 = 1 :=
  ⟨_,rfl,by unfold AddressSpace.IsUser x86; decide,rfl,rfl⟩

end CtrlxtKernel.QuantumDevice
