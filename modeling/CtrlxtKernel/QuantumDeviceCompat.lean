import CtrlxtKernel.QuantumDeviceMemory

/-!
# Requests of 32-bit and of 64-bit processes

The kernel is one of 64 bits, and `quantum_fops` installs the same handler for
both kinds of process. A process takes the numbers of the commands and the
layout of their structures from the header, with its own size of a pointer.
The handler compares with the numbers, and copies the structures, of the kernel.
-/

set_option autoImplicit false

namespace CtrlxtKernel.QuantumDevice
open MachineInt ObjectHeap QuantumMemory

variable {W : Type*}

def toBytes : ℕ → ℕ → List UInt8
  | 0, _ => []
  | size+1, v => UInt8.ofNat v::toBytes size (v/256)

inductive Request where
  | gate (gate qubit params paramSize : BitVec 32)
  | measure (result : BitVec 32)
  | alloc (numQubits flags : BitVec 32)
  | free
  deriving DecidableEq

def Request.number (p : Target) : Request → BitVec 32
  | .gate _ _ _ _ => quantumIoctlApplyGate p
  | .measure _ => quantumIoctlMeasure p
  | .alloc _ _ => quantumIoctlAllocMemory p
  | .free => quantumIoctlFreeMemory

/-- The structure that the request points to. No member needs padding. -/
def Request.bytes (p : Target) : Request → List UInt8
  | .gate g qubit params paramSize =>
    toBytes sizeofInt g.toNat++toBytes sizeofInt qubit.toNat++
      toBytes (sizeofPointer p) params.toNat++toBytes (sizeofPointer p) paramSize.toNat
  | .alloc numQubits flags =>
    toBytes (sizeofPointer p) numQubits.toNat++toBytes (sizeofPointer p) flags.toNat
  | .measure _ | .free => []

def Request.argument (address : ULong .bits64) : Request → ULong .bits64
  | .measure result => result.setWidth 64
  | .gate _ _ _ _ | .alloc _ _ | .free => address

def placed (memory : ULong .bits64 → UInt8) (address : ULong .bits64) (bytes : List UInt8) :
    ULong .bits64 → UInt8 :=
  fun a => bytes.getD (a-address).toNat (memory a)

/-- A process of target `p` makes the request, with the structure at an address
of its memory. -/
def issue (p : Target) (S : AddressSpace .bits64) (L : QuantumLayer .bits64 W)
    (memory : ULong .bits64 → UInt8) (address : ULong .bits64) (o : AllocOutcome)
    (s : IoctlState .bits64 W) (r : Request) : Option (IoctlState .bits64 W × ℤ) :=
  quantumIoctl L (userMemory S (placed memory address (r.bytes p))) o s (r.number p)
    (r.argument address)

theorem toBytes_length (size v : ℕ) : (toBytes size v).length = size := by
  induction size generalizing v with
  | zero => rfl
  | succ size ih => rw [toBytes,List.length_cons,ih]

theorem littleEndian_toBytes {bytes : ℕ → UInt8} {first size v : ℕ}
    (h : ∀ i < size, bytes (first+i) = (toBytes size v).getD i 0) :
    littleEndian bytes first size = v % 256^size := by
  induction size generalizing first v with
  | zero => exact (Nat.mod_one v).symm
  | succ size ih =>
    have hlow : (bytes first).toNat = v%256 := by
      rw [show bytes first = UInt8.ofNat v from h 0 (Nat.succ_pos size)]
      exact UInt8.toNat_ofNat'
    have hrest := @ih (first+1) (v/256) (fun i hi => by
      rw [Nat.add_right_comm,Nat.add_assoc]
      exact h (i+1) (Nat.succ_lt_succ hi))
    rw [littleEndian,hlow,hrest,pow_succ',Nat.mod_mul]

theorem littleEndian_word {bytes : ℕ → UInt8} {first size : ℕ} {v : BitVec 32}
    (hsize : 4 ≤ size) (h : ∀ i < size, bytes (first+i) = (toBytes size v.toNat).getD i 0) :
    littleEndian bytes first size = v.toNat := by
  have hpow : 2^32 ≤ 256^size := by
    calc 2^32 = 256^4 := by norm_num
      _ ≤ 256^size := Nat.pow_le_pow_right (by decide) hsize
  rw [littleEndian_toBytes h,Nat.mod_eq_of_lt (v.isLt.trans_le hpow)]

theorem field_placed (memory : ULong .bits64 → UInt8) (address : ULong .bits64)
    (pre : List UInt8) {size : ℕ} (v : BitVec 32) (post : List UInt8) (hsize : 4 ≤ size)
    (hlen : pre.length+size < 2^64) :
    littleEndian (fun i => placed memory address (pre++toBytes size v.toNat++post)
      (address+BitVec.ofNat Target.bits64.width i)) pre.length size = v.toNat := by
  apply littleEndian_word hsize
  intro i hi
  have hoffset : (address+BitVec.ofNat Target.bits64.width (pre.length+i)-address).toNat =
      pre.length+i := by
    rw [add_sub_cancel_left,BitVec.toNat_ofNat,Target.width,Nat.mod_eq_of_lt (by omega)]
  have hlength := toBytes_length size v.toNat
  rw [placed,hoffset,List.append_assoc,List.getD_eq_getElem?_getD,List.getD_eq_getElem?_getD,
    List.getElem?_append_right (Nat.le_add_right _ _),Nat.add_sub_cancel_left,
    List.getElem?_append_left (hi.trans_eq hlength.symm),
    List.getElem?_eq_getElem (hi.trans_eq hlength.symm),Option.getD_some,Option.getD_some]

/-- In a 64-bit process the structure of the header is the one that the handler
copies. -/
theorem gateParams_placed {S : AddressSpace .bits64} (memory : ULong .bits64 → UInt8)
    {address : ULong .bits64} (g qubit params paramSize : BitVec 32)
    (h : address.toNat+sizeofGateParams .bits64 ≤ S.taskSize) :
    (userMemory S (placed memory address
      (Request.bytes .bits64 (.gate g qubit params paramSize)))).gateParams address =
        some ⟨g,qubit⟩ := by
  let rest := toBytes (sizeofPointer .bits64) params.toNat++
    toBytes (sizeofPointer .bits64) paramSize.toNat
  have hsize : 4 ≤ sizeofInt := le_refl 4
  have hgate := field_placed memory address [] g (toBytes sizeofInt qubit.toNat++rest) hsize
    (by decide)
  have hqubit := field_placed memory address (toBytes sizeofInt g.toNat) qubit rest hsize
    (by rw [toBytes_length]; decide)
  rw [toBytes_length] at hqubit
  simp only [List.nil_append,List.length_nil,List.append_assoc,rest] at hgate hqubit
  simp only [userMemory,copyFromUser,h,if_true,Option.map_some,Request.bytes,List.append_assoc]
  rw [hgate,hqubit,BitVec.ofNat_toNat,BitVec.ofNat_toNat,BitVec.setWidth_eq,BitVec.setWidth_eq]

theorem memoryParams_placed {S : AddressSpace .bits64} (memory : ULong .bits64 → UInt8)
    {address : ULong .bits64} (numQubits flags : BitVec 32)
    (h : address.toNat+sizeofMemoryParams .bits64 ≤ S.taskSize) :
    (userMemory S (placed memory address
      (Request.bytes .bits64 (.alloc numQubits flags)))).memoryParams address =
        some ⟨numQubits.setWidth 64,flags.setWidth 64⟩ := by
  have hsize : 4 ≤ sizeofPointer .bits64 := by decide
  have hnum := field_placed memory address [] numQubits
    (toBytes (sizeofPointer .bits64) flags.toNat) hsize (by decide)
  have hflags := field_placed memory address (toBytes (sizeofPointer .bits64) numQubits.toNat)
    flags [] hsize (by rw [toBytes_length]; decide)
  rw [toBytes_length] at hflags
  simp only [List.nil_append,List.length_nil,List.append_nil] at hnum hflags
  simp only [userMemory,copyFromUser,h,if_true,Option.map_some,Request.bytes]
  rw [hnum,hflags,BitVec.ofNat_toNat,BitVec.ofNat_toNat]
  rfl

section Commands

variable {L : QuantumLayer .bits64 W} {user : UserMemory .bits64} {o : AllocOutcome}
  {s v : IoctlState .bits64 W} {cmd : BitVec 32} {arg : ULong .bits64} {ret : ℤ}

/-- Only an answer of the `switch` that changed nothing is the answer of its
default case. -/
theorem quantumIoctl_enotty (h : ioctlCommand L user o s cmd arg = some (v,ret)) :
    quantumIoctl L user o s cmd arg = some (s,-enotty) ↔ v = s ∧ ret = -enotty := by
  have henotty : -enotty ≠ 0 := by decide
  simp only [quantumIoctl,h,Option.bind_eq_bind,Option.bind_some]
  by_cases h0 : ret = 0
  · subst h0
    simp only [if_true,Option.some.injEq,Prod.mk.injEq]
    exact iff_of_false (fun h => henotty h.2.symm) (fun h => henotty h.2.symm)
  · simp only [h0,if_false,Option.some.injEq,Prod.mk.injEq]

theorem quantumIoctl_unknown (h : cmd ≠ quantumIoctlInit ∧ cmd ≠ quantumIoctlMeasure .bits64 ∧
    cmd ≠ quantumIoctlApplyGate .bits64 ∧ cmd ≠ quantumIoctlAllocMemory .bits64 ∧
    cmd ≠ quantumIoctlFreeMemory) :
    quantumIoctl L user o s cmd arg = some (s,-enotty) := by
  obtain ⟨h1,h2,h3,h4,h5⟩ := h
  have hdefault : ioctlCommand L user o s cmd arg = some (s,-enotty) := by
    rw [ioctlCommand,if_neg h1,if_neg h2,if_neg h3,if_neg h4,if_neg h5]
  exact (quantumIoctl_enotty hdefault).mpr ⟨rfl,rfl⟩

end Commands

/-- A number with the size of a pointer in it is another one in a 32-bit
process, and the kernel knows only its own. -/
theorem number_unknown {r : Request} (hr : r ≠ .free) :
    r.number .bits32 ≠ quantumIoctlInit ∧
      r.number .bits32 ≠ quantumIoctlMeasure .bits64 ∧
      r.number .bits32 ≠ quantumIoctlApplyGate .bits64 ∧
      r.number .bits32 ≠ quantumIoctlAllocMemory .bits64 ∧
      r.number .bits32 ≠ quantumIoctlFreeMemory := by
  cases r with
  | gate g qubit params paramSize =>
    simp only [Request.number]
    decide
  | measure result =>
    simp only [Request.number]
    decide
  | alloc numQubits flags =>
    simp only [Request.number]
    decide
  | free => exact absurd rfl hr

/-- The request is answered as if its number were unknown. -/
def Unsupported (S : AddressSpace .bits64) (L : QuantumLayer .bits64 W)
    (address : ULong .bits64) (s : IoctlState .bits64 W) : Request → Prop
  | .gate g qubit _ _ => address.toNat+sizeofGateParams .bits64 ≤ S.taskSize ∧
    L.gateApply s.world ⟨g,s.dev.state,qubit.toInt,.null,0⟩ = (s.world,-enotty)
  | .measure result =>
    L.stateMeasure s.world s.dev.state (.addr (result.setWidth 64)) = (s.world,-enotty)
  | .alloc _ _ => False
  | .free => False

theorem allocTests_code (q : CtrlxtQmem .bits64) (n : ULong .bits64) :
    allocTests q n = -einval ∨ allocTests q n = -enomem ∨ allocTests q n = 0 := by
  unfold allocTests
  split_ifs
  · exact Or.inl rfl
  · exact Or.inr (Or.inl rfl)
  · exact Or.inr (Or.inr rfl)

theorem alloc_code {q r : CtrlxtQmem .bits64} {n flags : ULong .bits64} {o : AllocOutcome}
    {e : ℤ} (h : ctrlxtQmemAlloc q n flags o = some (r,.errPtr e)) :
    e = -einval ∨ e = -enomem := by
  by_cases ht : allocTests q n < 0
  · rw [ctrlxtQmemAlloc,if_pos ht] at h
    cases h
    rcases allocTests_code q n with he | he | he
    · exact Or.inl he
    · exact Or.inr he
    · exact absurd he ht.ne
  · rw [ctrlxtQmemAlloc,if_neg ht] at h
    by_cases ho : o = ⟨true,true⟩
    · subst o
      obtain ⟨k,hk,-⟩ := allocLocked_success q n flags
      cases hk.symm.trans h
    · obtain ⟨k,hk,-⟩ := allocLocked_failure q n flags ho
      cases hk.symm.trans h
      exact Or.inr rfl

theorem world_kept {s : IoctlState .bits64 W} {world : W} :
    ({ s with world := world } : IoctlState .bits64 W) = s ↔ world = s.world := by
  obtain ⟨dev,qmem,w⟩ := s
  simp

section Requests

variable {S : AddressSpace .bits64} {L : QuantumLayer .bits64 W}
  {memory : ULong .bits64 → UInt8} {address : ULong .bits64} {o : AllocOutcome}
  {s : IoctlState .bits64 W}

theorem issue_compat {r : Request} (hr : r ≠ .free) :
    issue .bits32 S L memory address o s r = some (s,-enotty) :=
  quantumIoctl_unknown (number_unknown hr)

theorem issue_gate {g qubit params paramSize : BitVec 32} :
    issue .bits64 S L memory address o s (.gate g qubit params paramSize) = some (s,-enotty) ↔
      Unsupported S L address s (.gate g qubit params paramSize) := by
  let user := userMemory S (placed memory address
    (Request.bytes .bits64 (.gate g qubit params paramSize)))
  have hcommand : ioctlCommand L user o s (quantumIoctlApplyGate .bits64) address = _ :=
    ioctlCommand_gate
  by_cases h : address.toNat+sizeofGateParams .bits64 ≤ S.taskSize
  · have hread : user.gateParams address = some ⟨g,qubit⟩ :=
      gateParams_placed memory g qubit params paramSize h
    rw [hread] at hcommand
    refine (quantumIoctl_enotty hcommand).trans ?_
    simp only [Unsupported,h,true_and,world_kept,Prod.ext_iff]
  · have hread : user.gateParams address = none := by
      simp only [user,userMemory,copyFromUser,h,if_false,Option.map_none]
    rw [hread] at hcommand
    refine (quantumIoctl_enotty hcommand).trans ?_
    exact iff_of_false (fun he => absurd he.2 (by decide)) (fun hu => h hu.1)

theorem issue_measure {result : BitVec 32} :
    issue .bits64 S L memory address o s (.measure result) = some (s,-enotty) ↔
      Unsupported S L address s (.measure result) := by
  refine (quantumIoctl_enotty ioctlCommand_measure).trans ?_
  simp only [Unsupported,Request.argument,world_kept,Prod.ext_iff]

theorem issue_alloc {numQubits flags : BitVec 32} :
    issue .bits64 S L memory address o s (.alloc numQubits flags) ≠ some (s,-enotty) := by
  let user := userMemory S (placed memory address
    (Request.bytes .bits64 (.alloc numQubits flags)))
  intro hissue
  obtain ⟨⟨v,ret⟩,hv,-⟩ := Option.bind_eq_some_iff.mp hissue
  obtain ⟨-,hret⟩ := (quantumIoctl_enotty hv).mp hissue
  have hcommand : ioctlCommand L user o s (quantumIoctlAllocMemory .bits64) address =
      some (v,ret) := hv
  by_cases h : address.toNat+sizeofMemoryParams .bits64 ≤ S.taskSize
  · have hread : user.memoryParams address = _ := memoryParams_placed memory numQubits flags h
    rw [ioctlCommand_alloc ((if_pos rfl).trans hread)] at hcommand
    obtain ⟨⟨qmem,ptr⟩,halloc,hpair⟩ := Option.map_eq_some_iff.mp hcommand
    cases hpair
    cases ptr with
    | null => exact absurd hret (by decide)
    | obj p => exact absurd (show (0:ℤ) = -enotty from hret) (by decide)
    | errPtr e =>
      have he : e = -enotty := hret
      rcases alloc_code halloc with hcode | hcode
      · exact absurd (hcode.symm.trans he) (by decide)
      · exact absurd (hcode.symm.trans he) (by decide)
  · have hread : user.memoryParams address = none := by
      simp only [user,userMemory,copyFromUser,h,if_false,Option.map_none]
    obtain ⟨h1,h2,h3,-⟩ := ioctl_numbers .bits64
    simp only [ioctlCommand,if_neg h1,if_neg h2,if_neg h3,if_true,hread] at hcommand
    cases hcommand
    exact absurd hret (by decide)

theorem issue_free {memory' : ULong .bits64 → UInt8} {address' : ULong .bits64} :
    issue .bits32 S L memory address o s .free = issue .bits64 S L memory' address' o s .free := by
  unfold issue quantumIoctl
  simp only [Request.number,ioctlCommand_free]

end Requests

/-- A process of 32 bits gets what one of 64 bits gets exactly when it frees, or
makes a request that the gate layer does not support. -/
theorem compat_iff (S : AddressSpace .bits64) (L : QuantumLayer .bits64 W) (o : AllocOutcome)
    (s : IoctlState .bits64 W) (r : Request) (memory memory' : ULong .bits64 → UInt8)
    (address address' : ULong .bits64) :
    issue .bits32 S L memory address o s r = issue .bits64 S L memory' address' o s r ↔
      r = .free ∨ Unsupported S L address' s r := by
  by_cases hr : r = .free
  · subst hr
    exact iff_of_true issue_free (Or.inl rfl)
  · rw [issue_compat hr]
    simp only [hr,false_or]
    refine eq_comm.trans ?_
    cases r with
    | gate g qubit params paramSize => exact issue_gate
    | measure result => exact issue_measure
    | alloc numQubits flags => exact iff_of_false issue_alloc id
    | free => exact absurd rfl hr

/-- The same gate succeeds for a process of 64 bits and is an unknown command
from one of 32 bits. -/
theorem compat_gate_refused :
    issue .bits32 x86 (CtrlxtKernel.idle .bits64) (fun _ => 0) 0x1000 ⟨true,true⟩
        ⟨opened,.static,()⟩ (.gate 1 0 0 0) = some (⟨opened,.static,()⟩,-enotty) ∧
      issue .bits64 x86 (CtrlxtKernel.idle .bits64) (fun _ => 0) 0x1000 ⟨true,true⟩
        ⟨opened,.static,()⟩ (.gate 1 0 0 0) =
          some (⟨{ opened with operationCount := 1 },.static,()⟩,0) ∧
      issue .bits32 x86 (CtrlxtKernel.idle .bits64) (fun _ => 0) 0x1000 ⟨true,true⟩
          ⟨opened,.static,()⟩ (.gate 1 0 0 0) ≠
        issue .bits64 x86 (CtrlxtKernel.idle .bits64) (fun _ => 0) 0x1000 ⟨true,true⟩
          ⟨opened,.static,()⟩ (.gate 1 0 0 0) := by
  have h32 : issue .bits32 x86 (CtrlxtKernel.idle .bits64) (fun _ => 0) 0x1000 ⟨true,true⟩
      ⟨opened,.static,()⟩ (.gate 1 0 0 0) = some (⟨opened,.static,()⟩,-enotty) := rfl
  have h64 : issue .bits64 x86 (CtrlxtKernel.idle .bits64) (fun _ => 0) 0x1000 ⟨true,true⟩
      ⟨opened,.static,()⟩ (.gate 1 0 0 0) =
        some (⟨{ opened with operationCount := 1 },.static,()⟩,0) := rfl
  refine ⟨h32,h64,?_⟩
  rw [h32,h64]
  intro h
  have hret : (-enotty) = 0 := congrArg Prod.snd (Option.some.inj h)
  exact absurd hret (by decide)

end CtrlxtKernel.QuantumDevice
