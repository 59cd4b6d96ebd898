import CtrlxtKernel.PythonRules

/-!
# The generated hardware layer

`generate_uhal_blueprint` joins string literals to the text of the class UHAL,
and `exec` runs that text. The body of `initialize_hardware` is read here from
its lines as they are joined. The methods that it calls are its host.
-/

set_option autoImplicit false

namespace CtrlxtKernel.UhalBlueprint
open PythonRules

def initializeHardwareLines : List String := [
  "        '''Initializes all detected hardware with dynamic drivers.'''",
  "        print(\"UHAL: Initializing hardware with dynamic driver matrix...\")",
  "        hardware_list = self._detect_hardware()",
  "        for device in hardware_list:",
  "            # Ensure device['id'] is a string before using as a key",
  "            key_id = str(device[\"id\"])",
  "            driver = self._load_dynamic_driver(device[\"class\"])",
  "            self.drivers[key_id] = driver",
  "            self.hardware_status[key_id] = \x7b\x7b\"class\": device[\"class\"], \"driver\": driver, \"current_freq\": None, \"current_voltage\": None\x7d\x7d",
  "            print(\"    Device \x7b\x7d (\x7b\x7d) initialized with \x7b\x7d\".format(key_id, device['class'], driver))",
  "        print(\"UHAL: All detected hardware initialized.\")",
  ""]

structure KnowledgeBase where
  deviceClasses : List String
  driverBlueprints : List (String × String)

/-- What the modules `random`, `time` and `hashlib` answer, by the place of a
class in the list and by the number of drivers loaded before. `random()` draws
a multiple of 2^-53. -/
structure Runtime where
  random : ℕ → Fin (2^53)
  time : ℕ → String
  number : ℕ → Fin 900
  version : ℕ → Fin 5
  minor : ℕ → Fin 10
  hexdigest : String → String
  lower : String → String

/-- `random() > 0.1`, where the float 0.1 is 3602879701896397 of 2^-55. -/
def present (draw : Fin (2^53)) : Bool := 3602879701896397 < 4*draw.val

structure Device where
  cls : String
  id : String

def Device.toDict (d : Device) : Value := .dict [
  (.str "class",.str d.cls),
  (.str "id",.str d.id),
  (.str "status",.str "detected")]

section Methods

variable (K : KnowledgeBase) (R : Runtime)

def deviceId (i : ℕ) (devClass : String) : String :=
  devClass++"-"++String.ofList ((R.hexdigest (R.time i)).toList.take 8)++"-"++
    toString (100+(R.number i).val)

def detectHardware : List Device :=
  K.deviceClasses.zipIdx.filterMap fun e =>
    if present (R.random e.2) then some { cls := e.1, id := deviceId R e.2 e.1 } else none

/-- `loaded` drivers have been loaded before. -/
def loadDynamicDriver (loaded : ℕ) (deviceClass : String) : String :=
  (K.driverBlueprints.lookup ("universal_"++R.lower deviceClass)).getD "generic_driver"
    ++"_v"++toString (1+(R.version loaded).val)++"."++toString (R.minor loaded).val

end Methods

/-- `str` of a key. -/
def strOf : Value → Except PyError String
  | .key .none => .ok "None"
  | .key (.int n) => .ok (toString n)
  | .key (.str s) => .ok s
  | _ => .error .outside

/-- `str.format` with fields that are empty. -/
def formatFields : List Char → List Value → Except PyError (List Char)
  | '{' :: '{' :: cs, vs => (formatFields cs vs).map fun r => '{' :: r
  | '}' :: '}' :: cs, vs => (formatFields cs vs).map fun r => '}' :: r
  | '{' :: '}' :: _, [] => .error .indexError
  | '{' :: '}' :: cs, v::vs => do
    let s ← strOf v
    let r ← formatFields cs vs
    .ok (s.toList++r)
  | c::cs, vs => if c = '{' ∨ c = '}' then .error .outside else (formatFields cs vs).map fun r => c::r
  | [], _ => .ok []

/-- What `print` writes is not kept. -/
def callFunction : String → List Value → Except PyError Value
  | "print", _ => .ok (.key .none)
  | "str", [v] => (strOf v).map Value.str
  | f, _ => if f = "str" then .error .outside else .error (.nameError f)

def callMethod (K : KnowledgeBase) (R : Runtime) :
    String → List Value → ℕ → Except PyError Value × ℕ
  | "_detect_hardware", [], loaded =>
    (.ok (.list ((detectHardware K R).map Device.toDict)),loaded)
  | "_load_dynamic_driver", [.key (.str c)], loaded =>
    (.ok (.str (loadDynamicDriver K R loaded c)),loaded+1)
  | _, _, loaded => (.error .outside,loaded)

def callOnValue : Value → String → List Value → Except PyError Value
  | .key (.str s), "format", vs => (formatFields s.toList vs).map fun r => .str (String.ofList r)
  | _, _, _ => .error .outside

def host (K : KnowledgeBase) (R : Runtime) : Host ℕ where
  function f vs loaded := (callFunction f vs,loaded)
  method := callMethod K R
  valueMethod := callOnValue

def start : State ℕ where
  vars := fun _ => none
  attrs := Function.update (Function.update (fun _ => none) "drivers" (some (.dict [])))
    "hardware_status" (some (.dict []))
  host := 0

def execText (K : KnowledgeBase) (R : Runtime) : Option (List Stmt) → Exec ℕ Unit
  | some body => execAll (host K R) body
  | none => lift (.error .syntaxError)

def initializeHardware (K : KnowledgeBase) (R : Runtime) : EStateM.Result PyError (State ℕ) Unit :=
  execText K R (parse initializeHardwareLines) start

def initializeHardwareTokens : List (ℕ × List Token) := [
  (8,[.str "",.str "Initializes all detected hardware with dynamic drivers.",.str ""]),
  (8,[.word "print",.sym '(',.str "UHAL: Initializing hardware with dynamic driver matrix...",.sym ')']),
  (8,[.word "hardware_list",.sym '=',.word "self",.sym '.',.word "_detect_hardware",.sym '(',.sym ')']),
  (8,[.word "for",.word "device",.word "in",.word "hardware_list",.sym ':']),
  (12,[]),
  (12,[.word "key_id",.sym '=',.word "str",.sym '(',.word "device",.sym '[',.str "id",.sym ']',.sym ')']),
  (12,[.word "driver",.sym '=',.word "self",.sym '.',.word "_load_dynamic_driver",.sym '(',
    .word "device",.sym '[',.str "class",.sym ']',.sym ')']),
  (12,[.word "self",.sym '.',.word "drivers",.sym '[',.word "key_id",.sym ']',.sym '=',.word "driver"]),
  (12,[.word "self",.sym '.',.word "hardware_status",.sym '[',.word "key_id",.sym ']',.sym '=',
    .sym '{',.sym '{',.str "class",.sym ':',.word "device",.sym '[',.str "class",.sym ']',.sym ',',
    .str "driver",.sym ':',.word "driver",.sym ',',.str "current_freq",.sym ':',.word "None",.sym ',',
    .str "current_voltage",.sym ':',.word "None",.sym '}',.sym '}']),
  (12,[.word "print",.sym '(',.str "    Device \x7b\x7d (\x7b\x7d) initialized with \x7b\x7d",.sym '.',
    .word "format",.sym '(',.word "key_id",.sym ',',.word "device",.sym '[',.str "class",.sym ']',.sym ',',
    .word "driver",.sym ')',.sym ')']),
  (8,[.word "print",.sym '(',.str "UHAL: All detected hardware initialized.",.sym ')']),
  (0,[])]

set_option maxRecDepth 4000 in
theorem lines_read : initializeHardwareLines.mapM readLine = some initializeHardwareTokens := by
  unfold initializeHardwareLines initializeHardwareTokens
  repeat refine readLines_cons (by decide +kernel) ?_
  rfl

def deviceBody : List Stmt := [
  .assign "key_id" (.call "str" [.index (.name "device") (.str "id")]),
  .assign "driver" (.callSelf "_load_dynamic_driver" [.index (.name "device") (.str "class")]),
  .setItem "drivers" (.name "key_id") (.name "driver"),
  .setItem "hardware_status" (.name "key_id") (.set [.dict [
    (.str "class",.index (.name "device") (.str "class")),
    (.str "driver",.name "driver"),
    (.str "current_freq",.none),
    (.str "current_voltage",.none)]]),
  .expr (.call "print" [.callOn (.str "    Device \x7b\x7d (\x7b\x7d) initialized with \x7b\x7d") "format"
    [.name "key_id",.index (.name "device") (.str "class"),.name "driver"]])]

def initializeHardwareBody : List Stmt := [
  .expr (.str "Initializes all detected hardware with dynamic drivers."),
  .expr (.call "print" [.str "UHAL: Initializing hardware with dynamic driver matrix..."]),
  .assign "hardware_list" (.callSelf "_detect_hardware" []),
  .forIn "device" (.name "hardware_list") deviceBody,
  .expr (.call "print" [.str "UHAL: All detected hardware initialized."])]

theorem lines_parse : parse initializeHardwareLines = some initializeHardwareBody := by
  rw [parse,lines_read]
  rfl

section Run

variable {K : KnowledgeBase} {R : Runtime} {s : State ℕ} {d : Device} {drivers : List (Key × Value)}

theorem eval_device_class (hd : s.vars "device" = some d.toDict) :
    eval (host K R) (.index (.name "device") (.str "class")) s = .ok (.str d.cls) s :=
  eval_index (eval_name hd) rfl rfl

theorem eval_device_id (hd : s.vars "device" = some d.toDict) :
    eval (host K R) (.index (.name "device") (.str "id")) s = .ok (.str d.id) s :=
  eval_index (eval_name hd) rfl rfl

theorem key_assigned (hd : s.vars "device" = some d.toDict) :
    exec (host K R) (.assign "key_id" (.call "str" [.index (.name "device") (.str "id")])) s =
      .ok () { s with vars := Function.update s.vars "key_id" (some (.str d.id)) } :=
  exec_assign (eval_call (evalList_cons (eval_device_id hd) rfl) rfl)

theorem driver_assigned (hd : s.vars "device" = some d.toDict) :
    exec (host K R) (.assign "driver"
        (.callSelf "_load_dynamic_driver" [.index (.name "device") (.str "class")])) s =
      .ok () { s with
        vars := Function.update s.vars "driver" (some (.str (loadDynamicDriver K R s.host d.cls)))
        host := s.host+1 } := by
  have hcall : eval (host K R) (.callSelf "_load_dynamic_driver"
      [.index (.name "device") (.str "class")]) s =
        .ok (.str (loadDynamicDriver K R s.host d.cls)) { s with host := s.host+1 } :=
    eval_callSelf (evalList_cons (eval_device_class hd) rfl) rfl
  exact exec_assign hcall

theorem driver_stored {key : Key} {driver : Value} (hk : s.vars "key_id" = some (.key key))
    (hv : s.vars "driver" = some driver) (ha : s.attrs "drivers" = some (.dict drivers)) :
    exec (host K R) (.setItem "drivers" (.name "key_id") (.name "driver")) s =
      .ok () { s with attrs :=
        Function.update s.attrs "drivers" (some (.dict (store drivers key driver))) } :=
  exec_setItem (eval_name hv) ha (eval_name hk) rfl

theorem status_raises {driver : Value} (hd : s.vars "device" = some d.toDict)
    (hv : s.vars "driver" = some driver) :
    exec (host K R) (.setItem "hardware_status" (.name "key_id") (.set [.dict [
        (.str "class",.index (.name "device") (.str "class")),
        (.str "driver",.name "driver"),
        (.str "current_freq",.none),
        (.str "current_voltage",.none)]])) s =
      .error (.typeError "unhashable type: 'dict'") s := by
  have hnone : evalItems (host K R) [(.str "current_freq",.none),(.str "current_voltage",.none)] s =
      .ok [(.str "current_freq",.key .none),(.str "current_voltage",.key .none)] s := rfl
  have hitems := evalItems_cons (a := .str "class") rfl (eval_device_class hd)
    (evalItems_cons (a := .str "driver") rfl (eval_name hv) hnone)
  exact exec_setItem_error (set_of_dict_raises hitems rfl)

def driverStored (K : KnowledgeBase) (R : Runtime) (s : State ℕ) (drivers : List (Key × Value))
    (d : Device) : State ℕ where
  vars := Function.update (Function.update s.vars "key_id" (some (.str d.id)))
    "driver" (some (.str (loadDynamicDriver K R s.host d.cls)))
  attrs := Function.update s.attrs "drivers"
    (some (.dict (store drivers (.str d.id) (.str (loadDynamicDriver K R s.host d.cls)))))
  host := s.host+1

theorem device_raises (hd : s.vars "device" = some d.toDict)
    (ha : s.attrs "drivers" = some (.dict drivers)) :
    execAll (host K R) deviceBody s =
      .error (.typeError "unhashable type: 'dict'") (driverStored K R s drivers d) := by
  let s₁ : State ℕ := { s with vars := Function.update s.vars "key_id" (some (.str d.id)) }
  let s₂ : State ℕ := { s₁ with
    vars := Function.update s₁.vars "driver" (some (.str (loadDynamicDriver K R s.host d.cls)))
    host := s.host+1 }
  have hkey : exec (host K R) _ s = .ok () s₁ := key_assigned hd
  have hdriver : exec (host K R) _ s₁ = .ok () s₂ := driver_assigned (d := d) hd
  have hstored : exec (host K R) _ s₂ = .ok () (driverStored K R s drivers d) :=
    driver_stored rfl rfl ha
  rw [deviceBody,execAll_cons_ok hkey,execAll_cons_ok hdriver,execAll_cons_ok hstored]
  exact execAll_cons_error (status_raises hd rfl)

def listed (devices : List Device) : State ℕ where
  vars := Function.update start.vars "hardware_list" (some (.list (devices.map Device.toDict)))
  attrs := start.attrs
  host := 0

theorem print_runs (text : String) :
    exec (host K R) (.expr (.call "print" [.str text])) s = .ok () s := by
  have hcall : eval (host K R) (.call "print" [.str text]) s =
      .ok (.key .none) { s with host := s.host } := eval_call (evalList_cons rfl rfl) rfl
  exact exec_expr hcall

theorem detect_called (loaded : ℕ) :
    (host K R).method "_detect_hardware" [] loaded =
      (.ok (.list ((detectHardware K R).map Device.toDict)),loaded) := by
  simp only [host,callMethod]

theorem initializeHardware_eq :
    initializeHardware K R = execAll (host K R) [
      .forIn "device" (.name "hardware_list") deviceBody,
      .expr (.call "print" [.str "UHAL: All detected hardware initialized."])]
        (listed (detectHardware K R)) := by
  have hdoc : exec (host K R)
      (.expr (.str "Initializes all detected hardware with dynamic drivers.")) start = .ok () start :=
    exec_expr rfl
  have hlist : exec (host K R) (.assign "hardware_list" (.callSelf "_detect_hardware" [])) start =
      .ok () (listed (detectHardware K R)) :=
    exec_assign (eval_callSelf rfl (detect_called start.host))
  rw [initializeHardware,lines_parse,execText,initializeHardwareBody,execAll_cons_ok hdoc,
    execAll_cons_ok (print_runs _),execAll_cons_ok hlist]

theorem loop_entered (devices : List Device) :
    exec (host K R) (.forIn "device" (.name "hardware_list") deviceBody) (listed devices) =
      loop "device" (execAll (host K R) deviceBody) (devices.map Device.toDict) (listed devices) :=
  exec_forIn (eval_name rfl)

theorem first_device_raises {devices : List Device} (h : detectHardware K R = d::devices) :
    ∃ s, initializeHardware K R = .error (.typeError "unhashable type: 'dict'") s ∧
      s.attrs "drivers" = some (.dict [(.str d.id,.str (loadDynamicDriver K R 0 d.cls))]) ∧
      s.attrs "hardware_status" = some (.dict []) := by
  let s : State ℕ := { listed (d::devices) with
    vars := Function.update (listed (d::devices)).vars "device" (some d.toDict) }
  have hbody : execAll (host K R) deviceBody s =
      .error (.typeError "unhashable type: 'dict'") (driverStored K R s [] d) :=
    device_raises rfl rfl
  refine ⟨driverStored K R s [] d,?_,rfl,rfl⟩
  rw [initializeHardware_eq,h]
  apply execAll_cons_error
  rw [loop_entered]
  exact loop_cons_error hbody

theorem nothing_detected (h : detectHardware K R = []) :
    initializeHardware K R = .ok () (listed []) := by
  have hloop : exec (host K R) (.forIn "device" (.name "hardware_list") deviceBody) (listed []) =
      .ok () (listed []) := loop_entered []
  rw [initializeHardware_eq,h,execAll_cons_ok hloop,execAll_cons_ok (print_runs _)]
  rfl

theorem detectHardware_eq_nil :
    detectHardware K R = [] ↔
      ∀ i < K.deviceClasses.length, present (R.random i) = false := by
  simp only [detectHardware,List.filterMap_eq_nil_iff,Prod.forall,List.mem_zipIdx_iff_getElem?]
  constructor
  · intro h i hi
    have hc := h K.deviceClasses[i] i (by simp)
    simpa using hc
  · intro h c i hc
    obtain ⟨hi,-⟩ := List.getElem?_eq_some_iff.mp hc
    simp [h i hi]

/-- Both maps have the detected devices for keys, a status the class and the driver of its device. -/
def Initialised (K : KnowledgeBase) (R : Runtime) : Prop :=
  ∃ s drivers status, initializeHardware K R = .ok () s ∧
    s.attrs "drivers" = some (.dict drivers) ∧
    s.attrs "hardware_status" = some (.dict status) ∧
    (∀ k, k ∈ drivers.map Prod.fst ↔ ∃ d ∈ detectHardware K R, k = .str d.id) ∧
    (∀ k, k ∈ status.map Prod.fst ↔ ∃ d ∈ detectHardware K R, k = .str d.id) ∧
    ∀ d ∈ detectHardware K R, ∃ entry driver,
      drivers.lookup (.str d.id) = some driver ∧
      status.lookup (.str d.id) = some (.dict entry) ∧
      entry.lookup (.str "class") = some (.str d.cls) ∧
      entry.lookup (.str "driver") = some driver

theorem initialised_iff_nothing_detected : Initialised K R ↔ detectHardware K R = [] := by
  constructor
  · rintro ⟨s,_,_,hrun,-⟩
    cases hd : detectHardware K R with
    | nil => rfl
    | cons d devices =>
      obtain ⟨s',herr,-⟩ := first_device_raises hd
      rw [herr] at hrun
      cases hrun
  · intro h
    refine ⟨listed [],[],[],nothing_detected h,rfl,rfl,?_,?_,?_⟩ <;> simp [h]

end Run
/-- The layer comes up exactly when it detects nothing: the braces that a format
string doubles are doubled in text that is not formatted again. -/
theorem initialised_iff (K : KnowledgeBase) (R : Runtime) :
    Initialised K R ↔ ∀ i < K.deviceClasses.length, present (R.random i) = false := by
  rw [initialised_iff_nothing_detected,detectHardware_eq_nil]

def synthesizeAllKnowledge : KnowledgeBase where
  deviceClasses := ["CPU","GPU","Memory","Storage","Network","Input","Display","IoT",
    "Quantum_Accelerator"]
  driverBlueprints := [
    ("universal_display","adaptive_graphics_protocol_v1.0"),
    ("universal_network","omni_net_interface_v2.1"),
    ("universal_storage","quantum_data_flow_manager_v3.0"),
    ("universal_cpu_control","dynamic_frequency_voltage_manager_v1.0"),
    ("universal_quantum_control","quantum_gate_array_manager_v1.0"),
    ("linux_6_15_feature_set","fully_integrated_and_optimized_drivers_and_subsystems")]

def halfway : Runtime where
  random := fun _ => ⟨2^52,by norm_num⟩
  time := fun _ => "0.0"
  number := fun _ => 0
  version := fun _ => 0
  minor := fun _ => 0
  hexdigest := fun _ => "8aed642bf5118b9d3c859bd4be35ecac75b6e873cce34e7b6f554b06f75550d7"
  lower := String.toLower

theorem initialize_raises : ¬ ∀ (K : KnowledgeBase) (R : Runtime),
    K.deviceClasses.Nodup → Initialised K R := by
  intro h
  have hi := h synthesizeAllKnowledge halfway (by decide)
  rw [initialised_iff_nothing_detected,detectHardware_eq_nil] at hi
  exact absurd (hi 0 (by decide)) (by decide)

end CtrlxtKernel.UhalBlueprint
