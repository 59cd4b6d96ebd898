import CtrlxtKernel.KernelTypes
import CtrlxtKernel.MachineInt
import CtrlxtKernel.ObjectHeap

/-!
# The quantum memory manager

The manager of `quantum/quantum_memory.c`. Blocks, their quantum states and the
pool are objects of one heap; the lists hold names. An allocation is its tests,
made before the lock is taken, followed by its locked section; a free is a
decrement followed, when it reaches zero, by the destruction of the block, both
under the lock. The outcome of `kzalloc` and of `quantum_state_alloc` is the
environment's. A function has no result when it touches an object that is not
live.
-/

set_option autoImplicit false

namespace CtrlxtKernel.QuantumMemory
open MachineInt ObjectHeap

variable {t : Target}

def qmemPoolSize : ℕ := 1024*1024

def qmemMaxQubits : ℕ := 1024

def qmemMaxQubitsPerBlock : ℕ := 64

structure QuantumMemoryBlock (t : Target) where
  state : Option ℕ
  size : ULong t
  flags : ULong t
  refCount : CInt

inductive Object (t : Target) where
  | block (b : QuantumMemoryBlock t)
  | state (numQubits : ULong t)
  | pool (size : ULong t)

structure CtrlxtQmem (t : Target) where
  heap : Heap (Object t)
  freeBlocks : List ℕ
  usedBlocks : List ℕ
  totalQubits : CInt
  allocatedQubits : CInt
  maxQubits : CInt
  memoryPool : Option ℕ
  poolSize : ULong t

def zeroedBlock : QuantumMemoryBlock t := ⟨none,0,0,0⟩

def CtrlxtQmem.static : CtrlxtQmem t where
  heap := .empty
  freeBlocks := []
  usedBlocks := []
  totalQubits := 0
  allocatedQubits := 0
  maxQubits := 0
  memoryPool := none
  poolSize := 0

def asBlock : Option (Object t) → Option (QuantumMemoryBlock t)
  | some (.block b) => some b
  | _ => none

def CtrlxtQmem.block (q : CtrlxtQmem t) (p : ℕ) : Option (QuantumMemoryBlock t) :=
  asBlock (q.heap.cells p)

def ctrlxtQmemInit (q : CtrlxtQmem t) (kzalloc : Bool) : CtrlxtQmem t × ℤ :=
  let q := { q with
    freeBlocks := []
    usedBlocks := []
    totalQubits := 0
    allocatedQubits := 0
    maxQubits := BitVec.ofNat 32 qmemMaxQubits
    poolSize := BitVec.ofNat t.width qmemPoolSize }
  if kzalloc then
    ({ q with heap := q.heap.alloc (.pool q.poolSize), memoryPool := some q.heap.next },0)
  else ({ q with memoryPool := none },-enomem)

structure AllocOutcome where
  kzalloc : Bool
  quantumStateAlloc : Bool
  deriving DecidableEq, Repr

def overLimit (q : CtrlxtQmem t) (numQubits : ULong t) : Bool :=
  decide (widen t q.allocatedQubits+numQubits > widen t q.maxQubits)

def allocTests (q : CtrlxtQmem t) (numQubits : ULong t) : ℤ :=
  if numQubits = 0 ∨ numQubits.toNat > qmemMaxQubitsPerBlock then -einval
  else if overLimit q numQubits then -enomem
  else 0

def allocLocked (q : CtrlxtQmem t) (numQubits flags : ULong t) (o : AllocOutcome) :
    Option (CtrlxtQmem t × Ptr) :=
  if o.kzalloc then
    let block := q.heap.next
    let heap := q.heap.alloc (.block zeroedBlock)
    if o.quantumStateAlloc then do
      let state := heap.next
      let heap ← (heap.alloc (.state numQubits)).store block
        (.block ⟨some state,numQubits,flags,1⟩)
      some ({ q with
        heap := heap
        usedBlocks := block::q.usedBlocks
        totalQubits := q.totalQubits+narrow numQubits
        allocatedQubits := q.allocatedQubits+narrow numQubits },.obj block)
    else do
      let heap ← heap.free block
      some ({ q with heap := heap },.errPtr (-enomem))
  else some (q,.errPtr (-enomem))

def ctrlxtQmemAlloc (q : CtrlxtQmem t) (numQubits flags : ULong t) (o : AllocOutcome) :
    Option (CtrlxtQmem t × Ptr) :=
  if allocTests q numQubits < 0 then some (q,.errPtr (allocTests q numQubits))
  else allocLocked q numQubits flags o

def atomicDecAndTest (q : CtrlxtQmem t) (p : ℕ) : Option (CtrlxtQmem t × Bool) := do
  let b ← q.block p
  let heap ← q.heap.store p (.block { b with refCount := b.refCount-1 })
  some ({ q with heap := heap },b.refCount-1 = 0)

def destroyBlock (q : CtrlxtQmem t) (p : ℕ) : Option (CtrlxtQmem t) := do
  let b ← q.block p
  let heap ← match b.state with
    | some s => q.heap.free s
    | none => some q.heap
  let heap ← heap.free p
  some { q with
    heap := heap
    usedBlocks := q.usedBlocks.erase p
    totalQubits := q.totalQubits-narrow b.size
    allocatedQubits := q.allocatedQubits-narrow b.size }

def ctrlxtQmemFree (q : CtrlxtQmem t) : Ptr → Option (CtrlxtQmem t)
  | .null => some q
  | .errPtr _ => none
  | .obj p => do
    let (q,zero) ← atomicDecAndTest q p
    if zero then destroyBlock q p else some q

def setMaxTest (q : CtrlxtQmem t) (maxQubits : ULong t) : Bool :=
  decide (maxQubits < widen t q.allocatedQubits)

def setMaxStore (q : CtrlxtQmem t) (maxQubits : ULong t) : CtrlxtQmem t :=
  { q with maxQubits := narrow maxQubits }

def ctrlxtQmemSetMaxQubits (q : CtrlxtQmem t) (maxQubits : ULong t) : CtrlxtQmem t × ℤ :=
  if setMaxTest q maxQubits then (q,-einval) else (setMaxStore q maxQubits,0)

def ctrlxtQmemGet (q : CtrlxtQmem t) : Ptr → Option (CtrlxtQmem t × Ptr)
  | .null => some (q,.null)
  | .errPtr _ => none
  | .obj p => do
    let b ← q.block p
    let heap ← q.heap.store p (.block { b with refCount := b.refCount+1 })
    some ({ q with heap := heap },.obj p)

def ctrlxtQmemPut (q : CtrlxtQmem t) : Ptr → Option (CtrlxtQmem t)
  | .null => some q
  | block => ctrlxtQmemFree q block

/-- What the loop of `qmem_exit` does to a block after `list_del`. -/
def releaseBlock (heap : Heap (Object t)) (p : ℕ) : Option (Heap (Object t)) := do
  let b ← asBlock (heap.cells p)
  let heap ← match b.state with
    | some s => heap.free s
    | none => some heap
  heap.free p

def releaseBlocks (heap : Heap (Object t)) : List ℕ → Option (Heap (Object t))
  | [] => some heap
  | p::ps => (releaseBlock heap p).bind fun heap => releaseBlocks heap ps

/-- The pool and the counters are not reset. -/
def qmemExit (q : CtrlxtQmem t) : Option (CtrlxtQmem t) := do
  let heap ← releaseBlocks q.heap q.usedBlocks
  let heap ← match q.memoryPool with
    | some p => heap.free p
    | none => some heap
  some { q with heap := heap, usedBlocks := [] }

end CtrlxtKernel.QuantumMemory
