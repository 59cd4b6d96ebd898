import CtrlxtKernel.QuantumLayer
import CtrlxtKernel.QuantumMemory

/-!
# The quantum device driver

The character device of `drivers/quantum/quantum_device.c`. What the driver
takes from the kernel (its structure, its quantum state, the device number,
the registered cdev, the class and the node) are objects of one heap. User
memory is what `copy_from_user` finds at an address, if anything. A function
has no result when it touches an object that is not live.
-/

set_option autoImplicit false

namespace CtrlxtKernel.QuantumDevice
open MachineInt ObjectHeap QuantumMemory

variable {t : Target} {W : Type*}

inductive Resource where
  | device
  | state (numQubits : ℕ)
  | region
  | cdev
  | deviceClass
  | node
  deriving DecidableEq, Repr

structure CtrlxtQuantumDevice (t : Target) where
  self : ℕ
  dev : Ptr
  cdev : Ptr
  devt : Ptr
  state : Ptr
  openCount : CInt
  operationCount : CInt
  memory : Ptr

structure Driver (t : Target) where
  resources : Heap Resource
  quantumDev : Option (CtrlxtQuantumDevice t)
  quantumClass : Ptr

def release (h : Heap Resource) : Ptr → Option (Heap Resource)
  | .obj p => h.free p
  | _ => none

def freeState (resources : Heap Resource) (state : Ptr) : Option (Heap Resource) :=
  if state = .null then some resources else release resources state

def freeMemory (q : CtrlxtQmem t) (memory : Ptr) : Option (CtrlxtQmem t) :=
  if memory = .null then some q else ctrlxtQmemFree q memory

def quantumOpen (d : CtrlxtQuantumDevice t) : CtrlxtQuantumDevice t × ℤ :=
  let opened := { d with openCount := d.openCount+1 }
  if opened.openCount.toInt > 1 then ({ opened with openCount := opened.openCount-1 },-ebusy)
  else (opened,0)

def quantumRelease (d : CtrlxtQuantumDevice t) : CtrlxtQuantumDevice t :=
  { d with openCount := d.openCount-1 }

structure QuantumGateParams where
  gate : CInt
  qubit : CInt

structure QuantumMemoryParams (t : Target) where
  numQubits : ULong t
  flags : ULong t

structure UserMemory (t : Target) where
  gateParams : ULong t → Option QuantumGateParams
  memoryParams : ULong t → Option (QuantumMemoryParams t)

def iocNone : ℕ := 0

def iocWrite : ℕ := 1

def iocRead : ℕ := 2

def quantumIocMagic : ℕ := 0x71

def ioc (dir nr size : ℕ) : BitVec 32 :=
  BitVec.ofNat 32 (dir*2^30+size*2^16+quantumIocMagic*2^8+nr)

def sizeofInt : ℕ := 4

def sizeofPointer (t : Target) : ℕ := t.width/8

def sizeofGateParams (t : Target) : ℕ := 2*sizeofInt+2*sizeofPointer t

def sizeofMemoryParams (t : Target) : ℕ := 2*sizeofPointer t

def quantumIoctlInit : BitVec 32 := ioc iocWrite 1 sizeofInt

def quantumIoctlMeasure (t : Target) : BitVec 32 := ioc iocRead 2 (sizeofPointer t)

def quantumIoctlApplyGate (t : Target) : BitVec 32 :=
  ioc (iocRead+iocWrite) 3 (sizeofGateParams t)

def quantumIoctlAllocMemory (t : Target) : BitVec 32 :=
  ioc (iocRead+iocWrite) 4 (sizeofMemoryParams t)

def quantumIoctlFreeMemory : BitVec 32 := ioc iocNone 5 0

structure IoctlState (t : Target) (W : Type*) where
  dev : CtrlxtQuantumDevice t
  qmem : CtrlxtQmem t
  world : W

/-- The `switch` of the handler: the new state and `ret`, with an early return
where the handler makes one. -/
def ioctlCommand (L : QuantumLayer t W) (user : UserMemory t) (o : AllocOutcome)
    (s : IoctlState t W) (cmd : BitVec 32) (arg : ULong t) : Option (IoctlState t W × ℤ) :=
  if cmd = quantumIoctlInit then
    let (world,ret) := L.stateInit s.world s.dev.state arg
    some ({ s with world := world },ret)
  else if cmd = quantumIoctlMeasure t then
    let (world,ret) := L.stateMeasure s.world s.dev.state (.addr arg)
    some ({ s with world := world },ret)
  else if cmd = quantumIoctlApplyGate t then
    match user.gateParams arg with
    | none => some (s,-efault)
    | some params =>
      let (world,ret) :=
        L.gateApply s.world ⟨params.gate,s.dev.state,params.qubit.toInt,.null,0⟩
      some ({ s with world := world },ret)
  else if cmd = quantumIoctlAllocMemory t then
    match user.memoryParams arg with
    | none => some (s,-efault)
    | some params =>
      (ctrlxtQmemAlloc s.qmem params.numQubits params.flags o).map fun (qmem,memory) =>
        ({ s with qmem := qmem, dev := { s.dev with memory := memory } },
          if memory.isErr then memory.ptrErr else 0)
  else if cmd = quantumIoctlFreeMemory then
    (freeMemory s.qmem s.dev.memory).map fun qmem =>
      ({ s with qmem := qmem, dev := { s.dev with memory := .null } },0)
  else some (s,-enotty)

def quantumIoctl (L : QuantumLayer t W) (user : UserMemory t) (o : AllocOutcome)
    (s : IoctlState t W) (cmd : BitVec 32) (arg : ULong t) : Option (IoctlState t W × ℤ) := do
  let (s,ret) ← ioctlCommand L user o s cmd arg
  if ret = 0 then
    some ({ s with dev := { s.dev with operationCount := s.dev.operationCount+1 } },ret)
  else some (s,ret)

def freeDevice (resources : Heap Resource) (q : CtrlxtQmem t) (d : CtrlxtQuantumDevice t) :
    Option (Heap Resource × CtrlxtQmem t) := do
  let resources ← freeState resources d.state
  let q ← freeMemory q d.memory
  let resources ← resources.free d.self
  some (resources,q)

/-- What the kernel answers. A negative number is an error code; from
`class_create` and `device_create` it comes as an error pointer. -/
structure DeviceOutcome where
  kzalloc : Bool
  quantumStateAlloc : Bool
  allocChrdevRegion : ℤ
  cdevAdd : ℤ
  classCreate : ℤ
  deviceCreate : ℤ

def initError (D : Driver t) (q : CtrlxtQmem t) (d : CtrlxtQuantumDevice t) (ret : ℤ) :
    Option (Driver t × CtrlxtQmem t × ℤ) :=
  (freeDevice D.resources q d).map fun (resources,q) =>
    ({ D with resources := resources, quantumDev := some d },q,ret)

def createNode (D : Driver t) (q : CtrlxtQmem t) (o : DeviceOutcome) (d : CtrlxtQuantumDevice t) :
    Option (Driver t × CtrlxtQmem t × ℤ) :=
  if o.classCreate < 0 then
    initError { D with quantumClass := .errPtr o.classCreate } q d o.classCreate
  else
    let D := { D with
      resources := D.resources.alloc .deviceClass
      quantumClass := .obj D.resources.next }
    if o.deviceCreate < 0 then
      initError D q { d with dev := .errPtr o.deviceCreate } o.deviceCreate
    else
      some ({ D with
        resources := D.resources.alloc .node
        quantumDev := some { d with dev := .obj D.resources.next } },q,0)

def ctrlxtQuantumDeviceInit (D : Driver t) (q : CtrlxtQmem t) (o : DeviceOutcome) :
    Option (Driver t × CtrlxtQmem t × ℤ) :=
  if o.kzalloc then
    let d : CtrlxtQuantumDevice t := ⟨D.resources.next,.null,.null,.null,.null,0,0,.null⟩
    let D := { D with resources := D.resources.alloc .device }
    if o.quantumStateAlloc then
      let d := { d with state := .obj D.resources.next }
      let D := { D with resources := D.resources.alloc (.state 8) }
      if o.allocChrdevRegion < 0 then initError D q d o.allocChrdevRegion
      else
        let d := { d with devt := .obj D.resources.next }
        let D := { D with resources := D.resources.alloc .region }
        if o.cdevAdd < 0 then initError D q d o.cdevAdd
        else
          let d := { d with cdev := .obj D.resources.next }
          createNode { D with resources := D.resources.alloc .cdev } q o d
    else initError D q d (-enomem)
  else some ({ D with quantumDev := none },q,-enomem)

def quantumExit (D : Driver t) (q : CtrlxtQmem t) : Option (Heap Resource × CtrlxtQmem t) :=
  match D.quantumDev with
  | none => some (D.resources,q)
  | some d => do
    let resources ← release D.resources d.dev
    let resources ← release resources D.quantumClass
    let resources ← release resources d.cdev
    let resources ← release resources d.devt
    freeDevice resources q d

end CtrlxtKernel.QuantumDevice
