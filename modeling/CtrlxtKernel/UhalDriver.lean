import CtrlxtKernel.KernelTypes
import CtrlxtKernel.ObjectHeap
import CtrlxtKernel.StepMachine

/-!
# The UHAL driver

The character device of `drivers/uhal/uhal_driver.c`, from load to unload, in a
kernel with a table of character device majors. Classes and devices are objects
of one heap; a function has no result when it destroys a class that is not live.
-/

set_option autoImplicit false

namespace CtrlxtKernel.Uhal
open ObjectHeap StepMachine

inductive UhalObject where
  | deviceClass (name : String)
  | device (deviceClass : Ptr) (devt : BitVec 32) (name : String)
  deriving DecidableEq

/-- The majors in use, each under the name that it was registered with. -/
structure Chrdevs where
  entries : List (ℕ × String)
  distinct : (entries.map Prod.fst).Nodup
  nonzero : 0 ∉ entries.map Prod.fst

def Chrdevs.majors (c : Chrdevs) : List ℕ := c.entries.map Prod.fst

def Chrdevs.Fresh (c : Chrdevs) (major : ℕ) : Prop := major ≠ 0 ∧ major ∉ c.majors

instance (c : Chrdevs) (major : ℕ) : Decidable (c.Fresh major) :=
  inferInstanceAs (Decidable (major ≠ 0 ∧ major ∉ c.majors))

def Chrdevs.add (c : Chrdevs) (major : ℕ) (name : String) (h : c.Fresh major) : Chrdevs where
  entries := (major,name)::c.entries
  distinct := List.nodup_cons.mpr ⟨h.2,c.distinct⟩
  nonzero hmem := (List.mem_cons.mp hmem).elim h.1.symm c.nonzero

/-- For major 0: the answer is an error or a fresh major, which is now in use. -/
def registerChrdev (c : Chrdevs) (name : String) (answer : ℤ) : Chrdevs × ℤ :=
  if h : 0 ≤ answer ∧ c.Fresh answer.toNat then (c.add answer.toNat name h.2,answer)
  else (c,answer)

/-- The name is not looked at. -/
def unregisterChrdev (c : Chrdevs) (major : ℕ) : Chrdevs where
  entries := c.entries.filter fun e => e.1 ≠ major
  distinct := c.distinct.sublist (List.filter_sublist.map Prod.fst)
  nonzero hmem := c.nonzero ((List.filter_sublist.map Prod.fst).subset hmem)

def mkdev (major minor : ℕ) : BitVec 32 := BitVec.ofNat 32 (major*2^20+minor)

def classCreate (objects : Heap UhalObject) (name : String) (answer : ℤ) : Heap UhalObject × Ptr :=
  if answer < 0 then (objects,.errPtr answer)
  else (objects.alloc (.deviceClass name),.obj objects.next)

def deviceCreate (objects : Heap UhalObject) (deviceClass : Ptr) (devt : BitVec 32)
    (name : String) (answer : ℤ) : Heap UhalObject × Ptr :=
  if answer < 0 then (objects,.errPtr answer)
  else (objects.alloc (.device deviceClass devt name),.obj objects.next)

def IsDevice (deviceClass : Ptr) (devt : BitVec 32) : Option UhalObject → Bool
  | some (.device c d _) => c = deviceClass ∧ d = devt
  | _ => false

/-- The first device of the class with this number is destroyed, if there is one. -/
def deviceDestroy (objects : Heap UhalObject) (deviceClass : Ptr) (devt : BitVec 32) :
    Option (Heap UhalObject) :=
  match (List.range objects.next).find? fun i => IsDevice deviceClass devt (objects.cells i) with
  | none => some objects
  | some i => objects.free i

def classDestroy (objects : Heap UhalObject) : Ptr → Option (Heap UhalObject)
  | .obj i => objects.free i
  | _ => some objects

/-- The two static variables, the objects and the table of majors. -/
structure UhalDriver where
  objects : Heap UhalObject
  chrdevs : Chrdevs
  uhalClass : Ptr
  uhalDevice : Ptr

/-- What the kernel answers, as far as it is asked: a negative number is an error. -/
structure UhalOutcome where
  classCreate : ℤ
  deviceCreate : ℤ
  registerChrdev : ℤ

/-- The major that `register_chrdev` returns is not kept. -/
def uhalDriverInit (s : UhalDriver) (o : UhalOutcome) : Option (UhalDriver × ℤ) :=
  let (objects,uhalClass) := classCreate s.objects "uhal" o.classCreate
  let s : UhalDriver := { s with objects := objects, uhalClass := uhalClass }
  if s.uhalClass.isErr then some (s,s.uhalClass.ptrErr)
  else
    let (objects,uhalDevice) :=
      deviceCreate s.objects s.uhalClass (mkdev 0 0) "uhal" o.deviceCreate
    let s : UhalDriver := { s with objects := objects, uhalDevice := uhalDevice }
    if s.uhalDevice.isErr then
      (classDestroy s.objects s.uhalClass).map fun objects =>
        ({ s with objects := objects },s.uhalDevice.ptrErr)
    else
      let (chrdevs,ret) := registerChrdev s.chrdevs "uhal" o.registerChrdev
      let s : UhalDriver := { s with chrdevs := chrdevs }
      if ret < 0 then
        (deviceDestroy s.objects s.uhalClass (mkdev 0 0)).bind fun objects =>
          (classDestroy objects s.uhalClass).map fun objects => ({ s with objects := objects },ret)
      else some (s,0)

def uhalDriverExit (s : UhalDriver) : Option UhalDriver :=
  let s : UhalDriver := { s with chrdevs := unregisterChrdev s.chrdevs 0 }
  (deviceDestroy s.objects s.uhalClass (mkdev 0 0)).bind fun objects =>
    (classDestroy objects s.uhalClass).map fun objects => { s with objects := objects }

structure UhalLoad where
  driver : UhalDriver
  loaded : Bool

inductive UhalStep where
  | load (o : UhalOutcome)
  | unload

def UhalStep.isUnload : UhalStep → Bool
  | .load _ => false
  | .unload => true

def uhalLoading : Machine UhalLoad UhalStep where
  enabled s
    | .load o => s.loaded = false ∧
        (o.registerChrdev < 0 ∨ s.driver.chrdevs.Fresh o.registerChrdev.toNat)
    | .unload => s.loaded = true
  step s
    | .load o => (uhalDriverInit s.driver o).map fun (driver,ret) => ⟨driver,decide (ret = 0)⟩
    | .unload => (uhalDriverExit s.driver).map fun driver => ⟨driver,false⟩

instance (s : UhalLoad) : (l : UhalStep) → Decidable (uhalLoading.enabled s l)
  | .load o => inferInstanceAs (Decidable (s.loaded = false ∧
      (o.registerChrdev < 0 ∨ s.driver.chrdevs.Fresh o.registerChrdev.toNat)))
  | .unload => inferInstanceAs (Decidable (s.loaded = true))

end CtrlxtKernel.Uhal
