import CtrlxtKernel.KernelTypes
import CtrlxtKernel.MachineInt

/-!
# Memory regions

The region list of `mm/memory.c`. The quantum region is a stretch of pages
from `__get_free_pages` whose `start` doubles as the allocation cursor: an
allocation hands out `start` and advances it, a free may move it back. The
page size, the amount of memory and the page allocator are the platform's.
-/

set_option autoImplicit false

namespace CtrlxtKernel.MemoryManagement
open MachineInt

variable {t : Target}

def memoryRegionNormal : ULong t := 1

def memoryRegionQuantum : ULong t := 2

def quantumMemoryCoherent : ULong t := 1

structure MemoryRegion (t : Target) where
  start : ULong t
  endAddr : ULong t
  flags : ULong t
  quantumFlags : ULong t
  deriving DecidableEq

structure CtrlxtMm (t : Target) where
  memoryRegions : List (MemoryRegion t)
  totalPages : CInt
  freePages : CInt
  quantumPages : CInt

structure Platform (t : Target) where
  pageOffset : ULong t
  pageShift : ℕ
  totalramPages : ULong t
  getOrder : ULong t → ℕ
  getFreePages : ℕ → ULong t

def registerMemoryRegions (P : Platform t) (mm : CtrlxtMm t) (kzalloc : Bool) :
    CtrlxtMm t × ℤ :=
  let start := P.pageOffset
  let endAddr := start+P.totalramPages <<< P.pageShift
  if kzalloc then
    let pages := narrow ((endAddr-start) >>> P.pageShift)
    ({ mm with
      memoryRegions := ⟨start,endAddr,memoryRegionNormal,0⟩::mm.memoryRegions
      totalPages := mm.totalPages+pages
      freePages := mm.freePages+pages },0)
  else (mm,-enomem)

def quantumSize (P : Platform t) : ULong t := (P.totalramPages <<< P.pageShift)/100

def initQuantumMemory (P : Platform t) (mm : CtrlxtMm t) (kzalloc : Bool) : CtrlxtMm t × ℤ :=
  if kzalloc then
    let start := P.getFreePages (P.getOrder (quantumSize P))
    if start = 0 then (mm,-enomem)
    else
      ({ mm with
        memoryRegions :=
          ⟨start,start+quantumSize P,memoryRegionQuantum,quantumMemoryCoherent⟩::mm.memoryRegions
        quantumPages := mm.quantumPages+narrow (quantumSize P >>> P.pageShift) },0)
  else (mm,-enomem)

structure InitOutcome where
  registerKzalloc : Bool
  quantumKzalloc : Bool

def ctrlxtMmInit (P : Platform t) (o : InitOutcome) : CtrlxtMm t × ℤ :=
  let (mm,err) := registerMemoryRegions P ⟨[],0,0,0⟩ o.registerKzalloc
  if err < 0 then (mm,-enomem)
  else
    let (mm,err) := initQuantumMemory P mm o.quantumKzalloc
    if err < 0 then (mm,-enomem) else (mm,0)

def MemoryRegion.isQuantum (r : MemoryRegion t) : Bool := r.flags &&& memoryRegionQuantum ≠ 0

def allocIn : List (MemoryRegion t) → ULong t → List (MemoryRegion t) × ULong t
  | [], _ => ([],0)
  | region::rest, size =>
    if region.isQuantum then ({ region with start := region.start+size }::rest,region.start)
    else
      let (rest,addr) := allocIn rest size
      (region::rest,addr)

def quantumMemoryAlloc (mm : CtrlxtMm t) (size : ULong t) : CtrlxtMm t × ULong t :=
  let (regions,addr) := allocIn mm.memoryRegions size
  ({ mm with memoryRegions := regions },addr)

def freeIn : List (MemoryRegion t) → ULong t → ULong t → List (MemoryRegion t)
  | [], _, _ => []
  | region::rest, addr, size =>
    if region.isQuantum ∧ addr ≥ region.start-size ∧ addr ≤ region.endAddr then
      { region with start := region.start-size }::rest
    else region::freeIn rest addr size

def quantumMemoryFree (mm : CtrlxtMm t) (addr size : ULong t) : CtrlxtMm t :=
  { mm with memoryRegions := freeIn mm.memoryRegions addr size }

/-- The calls of `free_pages` that the exit makes, each an address and an order. -/
def freedPages (P : Platform t) : List (MemoryRegion t) → List (ULong t × ℕ)
  | [] => []
  | region::rest =>
    if region.isQuantum then
      (region.start,P.getOrder (region.endAddr-region.start))::freedPages P rest
    else freedPages P rest

def mmExit (P : Platform t) (mm : CtrlxtMm t) : CtrlxtMm t × List (ULong t × ℕ) :=
  ({ mm with memoryRegions := [] },freedPages P mm.memoryRegions)

end CtrlxtKernel.MemoryManagement
