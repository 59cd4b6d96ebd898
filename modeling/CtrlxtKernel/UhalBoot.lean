import CtrlxtKernel.UhalBlueprint
import CtrlxtKernel.StepMachine

/-!
# The life of a hardware layer

The other methods of the class UHAL, and `boot_omni_kernel_prime`, which calls
them. `initialize_hardware` is run from its text, in whatever state the object
is. Floats are a parameter, and what `random.uniform` answers is an argument.
-/

set_option autoImplicit false

namespace CtrlxtKernel.UhalBlueprint
open PythonRules StepMachine

variable {F : Type}

structure Floats (F : Type) where
  literal : ℚ → F
  gt : F → F → Bool
  mul : F → F → F
  format2f : F → String

structure Knowledge (F : Type) extends KnowledgeBase where
  osInterfaces : List String
  overclockMaxMultiplier : List (String × F)

abbrev Attrs : Type := String → Option Value

def newUhal : Attrs := start.attrs

section Methods

def entered (attrs : Attrs) : State ℕ := ⟨fun _ => none,attrs,0⟩

def inMethod (body : Exec ℕ Unit) : Exec ℕ Unit := fun s =>
  match body (entered s.attrs) with
  | .ok () s' => .ok () { s with attrs := s'.attrs }
  | .error e s' => .error e { s with attrs := s'.attrs }

def callInitializeHardware (K : KnowledgeBase) (R : Runtime) : Exec ℕ Unit :=
  inMethod (execText K R (parse initializeHardwareLines))

def contains (i : Value) : Value → Except PyError Bool
  | .dict items => i.hash.map fun k => (items.lookup k).isSome
  | _ => .error .outside

/-- `self.hardware_status[device_id][key] = v` -/
def setStatus (deviceId : Value) (key : String) (v : Value) : Exec ℕ Unit := do
  let status ← getAttr "hardware_status"
  let entry ← lift (getItem status deviceId)
  match status, entry with
  | .dict items, .dict entry => do
    let k ← lift deviceId.hash
    setAttr "hardware_status" (.dict (store items k (.dict (store entry (.str key) v))))
  | _, _ => lift (.error .outside)

/-- The last two are the answers of `random.uniform`. -/
def setOverclockFrequency (K : Knowledge F) (X : Floats F) (deviceId : Value)
    (targetMultiplier currentFreq baseVoltage : F) : Exec ℕ Bool := do
  let status ← getAttr "hardware_status"
  let found ← lift (contains deviceId status)
  if found then
    let entry ← lift (getItem status deviceId)
    let deviceClass ← lift (getItem entry (.str "class"))
    match deviceClass with
    | .key (.str cls) =>
      if cls ∈ ["CPU","GPU","Quantum_Accelerator"] then
        let maxMultiplier := (K.overclockMaxMultiplier.lookup cls).getD (X.literal 1)
        let multiplier := if X.gt targetMultiplier maxMultiplier then maxMultiplier else targetMultiplier
        let newFreq := X.mul currentFreq multiplier
        let newVoltage := X.mul baseVoltage multiplier
        setStatus deviceId "current_freq" (.str (X.format2f newFreq++" GHz/Qubit Hz"))
        setStatus deviceId "current_voltage" (.str (X.format2f newVoltage++" V/Control Signal"))
        pure true
      else pure false
    | _ => pure false
  else pure false

/-- The size in bytes is computed and not used. -/
def createSwapFile (_path : String) (_sizeGb : Option ℤ) : Exec ℕ Bool := pure true

/-- The usage decides only what is printed. -/
def manageSwapSpace (_memoryUsage : F) : Exec ℕ Bool := pure true

def provideOsInterface (K : Knowledge F) (osType : String) : Exec ℕ String :=
  pure (if osType ∈ K.osInterfaces then "UHAL_Interface_"++osType++"_Ready"
    else "UHAL_Interface_Emulation_Mode")

end Methods

section Running

variable {A B : Type}

theorem bind_lifted {p : Exec ℕ A} {f : A → Exec ℕ B} {r : Except PyError A} {s s' : State ℕ}
    (h : p s = lift r s') : (p >>= f) s = (lift r >>= f) s' := by
  simp only [bind,EStateM.bind,h]

theorem inMethod_lifted {body : Exec ℕ Unit} {r : Except PyError Unit} {s s' : State ℕ}
    (h : body (entered s.attrs) = lift r s') :
    inMethod body s = lift r { s with attrs := s'.attrs } := by
  simp only [inMethod,h]
  cases r <;> rfl

end Running

section Initialising

variable {K : KnowledgeBase} {R : Runtime} {s : State ℕ} {drivers : List (Key × Value)}

def listedFrom (s : State ℕ) (devices : List Device) : State ℕ :=
  { s with vars := Function.update s.vars "hardware_list" (some (.list (devices.map Device.toDict))) }

theorem text_listed :
    execText K R (parse initializeHardwareLines) s = execAll (host K R) [
      .forIn "device" (.name "hardware_list") deviceBody,
      .expr (.call "print" [.str "UHAL: All detected hardware initialized."])]
        (listedFrom s (detectHardware K R)) := by
  have hdoc : exec (host K R)
      (.expr (.str "Initializes all detected hardware with dynamic drivers.")) s = .ok () s :=
    exec_expr rfl
  have hlist : exec (host K R) (.assign "hardware_list" (.callSelf "_detect_hardware" [])) s =
      .ok () (listedFrom s (detectHardware K R)) :=
    exec_assign (eval_callSelf rfl (detect_called s.host))
  rw [lines_parse,execText,initializeHardwareBody,execAll_cons_ok hdoc,
    execAll_cons_ok (print_runs _),execAll_cons_ok hlist]

theorem loop_listed (devices : List Device) :
    exec (host K R) (.forIn "device" (.name "hardware_list") deviceBody) (listedFrom s devices) =
      loop "device" (execAll (host K R) deviceBody) (devices.map Device.toDict)
        (listedFrom s devices) :=
  exec_forIn (eval_name rfl)

theorem text_ends (h : detectHardware K R = []) :
    execText K R (parse initializeHardwareLines) s = .ok () (listedFrom s []) := by
  have hloop : exec (host K R) (.forIn "device" (.name "hardware_list") deviceBody)
      (listedFrom s []) = .ok () (listedFrom s []) := loop_listed []
  rw [text_listed,h,execAll_cons_ok hloop,execAll_cons_ok (print_runs _)]
  rfl

theorem text_raises {d : Device} {devices : List Device} (h : detectHardware K R = d::devices)
    (hdrivers : s.attrs "drivers" = some (.dict drivers)) :
    ∃ s', execText K R (parse initializeHardwareLines) s =
        .error (.typeError "unhashable type: 'dict'") s' ∧
      s'.attrs = Function.update s.attrs "drivers"
        (some (.dict (store drivers (.str d.id) (.str (loadDynamicDriver K R s.host d.cls))))) := by
  let s₁ : State ℕ := { listedFrom s (d::devices) with
    vars := Function.update (listedFrom s (d::devices)).vars "device" (some d.toDict) }
  have hbody : execAll (host K R) deviceBody s₁ =
      .error (.typeError "unhashable type: 'dict'") (driverStored K R s₁ drivers d) :=
    device_raises rfl hdrivers
  refine ⟨driverStored K R s₁ drivers d,?_,rfl⟩
  rw [text_listed,h]
  apply execAll_cons_error
  rw [loop_listed]
  exact loop_cons_error hbody

def driversAfter (K : KnowledgeBase) (R : Runtime) (drivers : List (Key × Value)) :
    List (Key × Value) :=
  match detectHardware K R with
  | [] => drivers
  | d::_ => store drivers (.str d.id) (.str (loadDynamicDriver K R 0 d.cls))

def initializeAnswer (K : KnowledgeBase) (R : Runtime) : Except PyError Unit :=
  match detectHardware K R with
  | [] => .ok ()
  | _::_ => .error (.typeError "unhashable type: 'dict'")

def withDrivers (s : State ℕ) (drivers : List (Key × Value)) : State ℕ :=
  { s with attrs := Function.update s.attrs "drivers" (some (.dict drivers)) }

/-- Initialising again adds at most one driver and no status. -/
theorem callInitializeHardware_eq (hdrivers : s.attrs "drivers" = some (.dict drivers)) :
    callInitializeHardware K R s =
      lift (initializeAnswer K R) (withDrivers s (driversAfter K R drivers)) := by
  have hentered : (entered s.attrs).attrs "drivers" = some (.dict drivers) := hdrivers
  unfold driversAfter initializeAnswer
  cases h : detectHardware K R with
  | nil =>
    have hrun : execText K R (parse initializeHardwareLines) (entered s.attrs) =
        lift (.ok ()) (listedFrom (entered s.attrs) []) := text_ends h
    have hsame : withDrivers s drivers = s := by
      rw [withDrivers,← hdrivers,Function.update_eq_self]
    rw [callInitializeHardware,inMethod_lifted hrun]
    exact congrArg (lift (.ok ())) hsame.symm
  | cons d devices =>
    obtain ⟨s',hrun,hattrs⟩ := text_raises h hentered
    have hlifted : execText K R (parse initializeHardwareLines) (entered s.attrs) =
        lift (.error (.typeError "unhashable type: 'dict'")) s' := hrun
    rw [callInitializeHardware,inMethod_lifted hlifted,hattrs]
    rfl

structure Statusless (attrs : Attrs) (drivers : List (Key × Value)) : Prop where
  drivers : attrs "drivers" = some (.dict drivers)
  status : attrs "hardware_status" = some (.dict [])

theorem Statusless.initialized (h : Statusless s.attrs drivers) (R : Runtime) :
    Statusless (withDrivers s (driversAfter K R drivers)).attrs (driversAfter K R drivers) where
  drivers := by simp [withDrivers]
  status := by simpa [withDrivers] using h.status

end Initialising

section Life

inductive Method (F : Type) where
  | initializeHardware (R : Runtime)
  | setOverclockFrequency (deviceId : Value) (targetMultiplier currentFreq baseVoltage : F)
  | createSwapFile (path : String) (sizeGb : Option ℤ)
  | manageSwapSpace (memoryUsage : F)
  | provideOsInterface (osType : String)

inductive Answer where
  | none
  | bool (b : Bool)
  | text (s : String)

def callOf (K : Knowledge F) (X : Floats F) : Method F → Exec ℕ Answer
  | .initializeHardware R => do
    callInitializeHardware K.toKnowledgeBase R
    pure .none
  | .setOverclockFrequency deviceId m f v => Answer.bool <$> setOverclockFrequency K X deviceId m f v
  | .createSwapFile path sizeGb => Answer.bool <$> UhalBlueprint.createSwapFile path sizeGb
  | .manageSwapSpace usage => Answer.bool <$> UhalBlueprint.manageSwapSpace usage
  | .provideOsInterface osType => Answer.text <$> UhalBlueprint.provideOsInterface K osType

def outcome {A : Type} : EStateM.Result PyError (State ℕ) A → Except PyError A × Attrs
  | .ok a s => (.ok a,s.attrs)
  | .error e s => (.error e,s.attrs)

def life (K : Knowledge F) (X : Floats F) : Machine Attrs (Method F) where
  enabled _ _ := True
  step attrs m := some (outcome (callOf K X m (entered attrs))).2

def answer (K : Knowledge F) : Method F → Except PyError Answer
  | .initializeHardware R => (initializeAnswer K.toKnowledgeBase R).map fun _ => .none
  | .setOverclockFrequency deviceId _ _ _ => deviceId.hash.map fun _ => .bool false
  | .createSwapFile _ _ => .ok (.bool true)
  | .manageSwapSpace _ => .ok (.bool true)
  | .provideOsInterface osType =>
    .ok (.text (if osType ∈ K.osInterfaces then "UHAL_Interface_"++osType++"_Ready"
      else "UHAL_Interface_Emulation_Mode"))

def driversOf (K : Knowledge F) : List (Key × Value) → Method F → List (Key × Value)
  | drivers, .initializeHardware R => driversAfter K.toKnowledgeBase R drivers
  | drivers, _ => drivers

variable {K : Knowledge F} {X : Floats F} {attrs : Attrs} {drivers : List (Key × Value)}

theorem overclock_refused {s : State ℕ} (h : s.attrs "hardware_status" = some (.dict []))
    (deviceId : Value) (m f v : F) :
    setOverclockFrequency K X deviceId m f v s = lift (deviceId.hash.map fun _ => false) s := by
  simp only [setOverclockFrequency,bind,EStateM.bind,getAttr,h,contains,List.lookup_nil]
  cases hk : deviceId.hash with
  | ok k => rfl
  | error e => rfl

/-- What one call does: its answer is that of the method, and the object stays without a
status. -/
theorem call_outcome (h : Statusless attrs drivers) (m : Method F) :
    (outcome (callOf K X m (entered attrs))).1 = answer K m ∧
      Statusless (outcome (callOf K X m (entered attrs))).2 (driversOf K drivers m) := by
  cases m with
  | initializeHardware R =>
    have hdrivers : (entered attrs).attrs "drivers" = some (.dict drivers) := h.drivers
    have hrun := callInitializeHardware_eq (K := K.toKnowledgeBase) (R := R) hdrivers
    have hkept : Statusless (withDrivers (entered attrs)
        (driversAfter K.toKnowledgeBase R drivers)).attrs _ := Statusless.initialized h R
    rw [callOf,bind_lifted hrun,answer,driversOf]
    cases initializeAnswer K.toKnowledgeBase R with
    | ok => exact ⟨rfl,hkept⟩
    | error e => exact ⟨rfl,hkept⟩
  | setOverclockFrequency deviceId m f v =>
    have hstatus : (entered attrs).attrs "hardware_status" = some (.dict []) := h.status
    have hrun := overclock_refused (K := K) (X := X) hstatus deviceId m f v
    simp only [callOf,Functor.map,EStateM.map,hrun,answer,driversOf]
    cases deviceId.hash with
    | ok => exact ⟨rfl,h⟩
    | error e => exact ⟨rfl,h⟩
  | createSwapFile path sizeGb => exact ⟨rfl,h⟩
  | manageSwapSpace usage => exact ⟨rfl,h⟩
  | provideOsInterface osType => exact ⟨rfl,h⟩

theorem newUhal_statusless : Statusless newUhal [] where
  drivers := rfl
  status := rfl

theorem life_statusless (h : Statusless attrs drivers) (ms : List (Method F)) :
    ∃ u, Run (life K X) attrs ms u ∧ Statusless u (ms.foldl (driversOf K) drivers) ∧
      Always (life K X)
        (fun attrs m => (outcome (callOf K X m (entered attrs))).1 = answer K m) attrs ms := by
  induction ms generalizing attrs drivers with
  | nil => exact ⟨attrs,.nil attrs,h,trivial⟩
  | cons m ms ih =>
    obtain ⟨hanswer,hkept⟩ := call_outcome (X := X) h m
    obtain ⟨u,hu,hend,hrest⟩ := ih hkept
    exact ⟨u,.cons trivial rfl hu,hend,(always_cons rfl).mpr ⟨hanswer,hrest⟩⟩

/-- No sequence of calls gives the layer a status: initialising fails whenever it detects
something, and every overclocking is refused. The drivers are those of the first device of
each attempt. -/
theorem never_overclocks (K : Knowledge F) (X : Floats F) (ms : List (Method F)) :
    ∃ u, Run (life K X) newUhal ms u ∧
      u "hardware_status" = some (.dict []) ∧
      u "drivers" = some (.dict (ms.foldl (driversOf K) [])) ∧
      Always (life K X)
        (fun attrs m => (outcome (callOf K X m (entered attrs))).1 = answer K m) newUhal ms := by
  obtain ⟨u,hu,hend,hanswers⟩ := life_statusless (K := K) (X := X) newUhal_statusless ms
  exact ⟨u,hu,hend.status,hend.drivers,hanswers⟩

end Life

section Boot

/-- `next((id for id, status in uhal.hardware_status.items() if status["class"] == cls), None)` -/
def findClass (cls : String) : List (Key × Value) → Except PyError (Option Key)
  | [] => .ok none
  | (id,status)::items => do
    match ← getItem status (.str "class") with
    | .key (.str c) => if c = cls then .ok (some id) else findClass cls items
    | _ => findClass cls items

def firstOfClass (cls : String) : Exec ℕ (Option Key) := do
  match ← getAttr "hardware_status" with
  | .dict items => lift (findClass cls items)
  | _ => lift (.error .outside)

def truthy : Key → Bool
  | .none => false
  | .int n => n ≠ 0
  | .str s => s ≠ ""

/-- What each branch of the boot did: nothing where its `else` was taken. -/
structure BootReport where
  cpu : Option Bool
  gpu : Option Bool
  quantum : Option Bool
  swap : Option (Bool × Bool)
  interfaces : List String

variable {A : Type}

def whenFound (id : Option Key) (f : Key → Exec ℕ A) : Exec ℕ (Option A) :=
  match id with
  | some k => if truthy k then some <$> f k else pure none
  | none => pure none

variable (X : Floats F)

def fullKnowledge : Knowledge F where
  toKnowledgeBase := synthesizeAllKnowledge
  osInterfaces := ["POSIX_Compliant","Kiriachiama_Native","Legacy_OS_Bridge"]
  overclockMaxMultiplier := [("CPU",X.literal 1.5),("GPU",X.literal 1.3),
    ("Quantum_Accelerator",X.literal 1.1)]

/-- What follows the initialisation. `uniform` are the answers of `random.uniform` in turn. -/
def bootInitialized (uniform : ℕ → F) : Exec ℕ BootReport := do
  let K := fullKnowledge X
  let cpuId ← firstOfClass "CPU"
  let gpuId ← firstOfClass "GPU"
  let quantumId ← firstOfClass "Quantum_Accelerator"
  let cpu ← whenFound cpuId fun id =>
    setOverclockFrequency K X (.key id) (X.literal 1.2) (uniform 0) (uniform 1)
  let gpu ← whenFound gpuId fun id =>
    setOverclockFrequency K X (.key id) (X.literal 1.1) (uniform 2) (uniform 3)
  let quantum ← whenFound quantumId fun id =>
    setOverclockFrequency K X (.key id) (X.literal 1.05) (uniform 4) (uniform 5)
  let storageId ← firstOfClass "Storage"
  let swap ← whenFound storageId fun _ => do
    let created ← createSwapFile "/swapfile" none
    let managed ← manageSwapSpace (uniform 6)
    pure (created,managed)
  let posix ← provideOsInterface K "POSIX_Compliant"
  let kiriachiama ← provideOsInterface K "Kiriachiama_Native"
  let legacy ← provideOsInterface K "Some_Legacy_OS"
  pure ⟨cpu,gpu,quantum,swap,[posix,kiriachiama,legacy]⟩

def bootOmniKernelPrime (R : Runtime) (uniform : ℕ → F) : Exec ℕ BootReport := do
  callInitializeHardware synthesizeAllKnowledge R
  bootInitialized X uniform

def emptyBoot : BootReport := ⟨none,none,none,none,
  ["UHAL_Interface_POSIX_Compliant_Ready","UHAL_Interface_Kiriachiama_Native_Ready",
    "UHAL_Interface_Emulation_Mode"]⟩

theorem firstOfClass_none {s : State ℕ} (h : s.attrs "hardware_status" = some (.dict []))
    (cls : String) : firstOfClass cls s = .ok none s := by
  simp only [firstOfClass,bind,EStateM.bind,getAttr,h]
  rfl

theorem boot_outcome (R : Runtime) (uniform : ℕ → F) :
    bootOmniKernelPrime X R uniform (entered newUhal) =
      ((fun _ => emptyBoot) <$> lift (initializeAnswer synthesizeAllKnowledge R) : Exec ℕ BootReport)
        (withDrivers (entered newUhal) (driversAfter synthesizeAllKnowledge R [])) := by
  have hdrivers : (entered newUhal).attrs "drivers" = some (.dict []) := rfl
  have hkept : Statusless (withDrivers (entered newUhal)
      (driversAfter synthesizeAllKnowledge R [])).attrs _ :=
    newUhal_statusless.initialized R
  have hrun := callInitializeHardware_eq (K := synthesizeAllKnowledge) (R := R) hdrivers
  have hfirst := firstOfClass_none hkept.status
  have hbind := bind_lifted (f := fun _ => bootInitialized X uniform) hrun
  rw [bootOmniKernelPrime,hbind]
  cases initializeAnswer synthesizeAllKnowledge R with
  | error e => rfl
  | ok =>
    simp only [bind,EStateM.bind,lift,bootInitialized,hfirst,whenFound]
    rfl

/-- The boot completes exactly when no draw finds a device; then it overclocks nothing and makes
no swap file. Otherwise it ends in an exception, with one driver and no status. -/
theorem boots_only_empty (X : Floats F) (R : Runtime) (uniform : ℕ → F) :
    ((∀ i < 9, present (R.random i) = false) ∧
      ∃ s, bootOmniKernelPrime X R uniform (entered newUhal) = .ok emptyBoot s ∧
        s.attrs "drivers" = some (.dict [])) ∨
    ((∃ i < 9, present (R.random i) = true) ∧
      ∃ s id driver, bootOmniKernelPrime X R uniform (entered newUhal) =
          .error (.typeError "unhashable type: 'dict'") s ∧
        s.attrs "drivers" = some (.dict [(id,driver)]) ∧
        s.attrs "hardware_status" = some (.dict [])) := by
  have hempty := detectHardware_eq_nil (K := synthesizeAllKnowledge) (R := R)
  have hkept : Statusless (withDrivers (entered newUhal)
      (driversAfter synthesizeAllKnowledge R [])).attrs _ :=
    newUhal_statusless.initialized R
  rw [boot_outcome]
  cases h : detectHardware synthesizeAllKnowledge R with
  | nil =>
    refine Or.inl ⟨hempty.mp h,_,?_,hkept.drivers.trans ?_⟩
    · simp only [initializeAnswer,h]
      rfl
    · rw [driversAfter,h]
  | cons d devices =>
    have hfound : ¬∀ i < 9, present (R.random i) = false := by
      intro hall
      rw [hempty.mpr hall] at h
      cases h
    refine Or.inr ⟨by simpa using hfound,_,.str d.id,
      .str (loadDynamicDriver synthesizeAllKnowledge R 0 d.cls),?_,hkept.drivers.trans ?_,hkept.status⟩
    · simp only [initializeAnswer,h]
      rfl
    · rw [driversAfter,h]
      rfl

end Boot

end CtrlxtKernel.UhalBlueprint
