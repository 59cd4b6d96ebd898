import Mathlib.Tactic

/-!
# A fragment of Python

Lines of text become tokens, expressions and statements, which are run with
exceptions. The values are those of code that shares no list and no dict: a
key is a value that can be hashed, and sets and dicts have keys only. Functions
and methods are the host's.
-/

set_option autoImplicit false

namespace PythonRules

inductive Key where
  | none
  | int (n : ℤ)
  | str (s : String)
  deriving DecidableEq

/-- A dict is in the order of its insertions. -/
inductive Value where
  | key (k : Key)
  | list (elts : List Value)
  | set (elts : List Key)
  | dict (items : List (Key × Value))

/-- The last one is raised for what the fragment does not have. -/
inductive PyError where
  | syntaxError
  | nameError (name : String)
  | attributeError (name : String)
  | keyError (k : Key)
  | indexError
  | typeError (message : String)
  | outside

def Value.str (s : String) : Value := .key (.str s)

def Value.hash : Value → Except PyError Key
  | .key k => .ok k
  | .list _ => .error (.typeError "unhashable type: 'list'")
  | .set _ => .error (.typeError "unhashable type: 'set'")
  | .dict _ => .error (.typeError "unhashable type: 'dict'")

/-- A key keeps its place when it is stored again. -/
def store {V : Type} : List (Key × V) → Key → V → List (Key × V)
  | [], k, v => [(k,v)]
  | e::items, k, v => if e.1 = k then (k,v)::items else e::store items k v

def addKey (elts : List Key) (k : Key) : List Key := if k ∈ elts then elts else elts++[k]

def addItem (items : List (Key × Value)) (e : Value × Value) : Except PyError (List (Key × Value)) :=
  e.1.hash.map fun k => store items k e.2

section Text

inductive Token where
  | word (s : String)
  | str (s : String)
  | sym (c : Char)
  deriving DecidableEq

inductive Mode where
  | start
  | word (read : List Char)
  | str (quote : Char) (read : List Char)
  | comment
  | refused

def isWordChar (c : Char) : Bool := c.isAlphanum || c = '_'

def isQuote (c : Char) : Bool := c = Char.ofNat 34 || c = Char.ofNat 39

def isBackslash (c : Char) : Bool := c = Char.ofNat 92

def begin (c : Char) : List Token × Mode :=
  if c = ' ' then ([],.start)
  else if c = '#' then ([],.comment)
  else if c.isDigit then ([],.refused)
  else if isWordChar c then ([],.word [c])
  else if isQuote c then ([],.str c [])
  else ([.sym c],.start)

/-- Numbers, and escapes in strings, are not read. -/
def lexStep : Mode → Char → List Token × Mode
  | .start, c => begin c
  | .word read, c =>
    if isWordChar c then ([],.word (c::read))
    else (.word (String.ofList read.reverse)::(begin c).1,(begin c).2)
  | .str quote read, c =>
    if c = quote then ([.str (String.ofList read.reverse)],.start)
    else if isBackslash c then ([],.refused)
    else ([],.str quote (c::read))
  | .comment, _ => ([],.comment)
  | .refused, _ => ([],.refused)

def lexEnd : Mode → Option (List Token)
  | .word read => some [.word (String.ofList read.reverse)]
  | .start | .comment => some []
  | .str _ _ | .refused => none

def lex : Mode → List Char → Option (List Token)
  | mode, [] => lexEnd mode
  | mode, c::cs => (lex (lexStep mode c).2 cs).map fun ts => (lexStep mode c).1++ts

/-- Calls are of a function by name, of a method of `self`, or of a method of a value. -/
inductive Expr where
  | none
  | str (s : String)
  | name (x : String)
  | attr (field : String)
  | index (e i : Expr)
  | call (f : String) (args : List Expr)
  | callSelf (method : String) (args : List Expr)
  | callOn (e : Expr) (method : String) (args : List Expr)
  | dict (items : List (Expr × Expr))
  | set (elts : List Expr)

inductive Stmt where
  | expr (e : Expr)
  | assign (x : String) (e : Expr)
  | setItem (field : String) (i e : Expr)
  | forIn (x : String) (e : Expr) (body : List Stmt)

/-- Strings side by side are one; so a string in triple quotes is read, on one line. -/
def joinStrings (s : String) : List Token → String × List Token
  | .str r::ts => joinStrings (s++r) ts
  | ts => (s,ts)

mutual

def parseAtom : ℕ → List Token → Option (Expr × List Token)
  | _+1, .str s::ts => some (.str (joinStrings s ts).1,(joinStrings s ts).2)
  | _+1, .sym '{'::.sym '}'::ts => some (.dict [],ts)
  | fuel+1, .sym '{'::ts => do
    let (e,ts) ← parseExpr fuel ts
    match ts with
    | .sym ':'::ts => do
      let (v,ts) ← parseExpr fuel ts
      let (items,ts) ← parseItems fuel ts
      some (.dict ((e,v)::items),ts)
    | ts => do
      let (elts,ts) ← parseMore fuel '}' ts
      some (.set (e::elts),ts)
  | _+1, .word "None"::ts => some (.none,ts)
  | fuel+1, .word "self"::.sym '.'::.word m::.sym '('::ts => do
    let (args,ts) ← parseArgs fuel ts
    some (.callSelf m args,ts)
  | _+1, .word "self"::.sym '.'::.word field::ts => some (.attr field,ts)
  | fuel+1, .word f::.sym '('::ts => do
    let (args,ts) ← parseArgs fuel ts
    some (.call f args,ts)
  | _+1, .word x::ts => some (.name x,ts)
  | _, _ => none

def parseExpr : ℕ → List Token → Option (Expr × List Token)
  | fuel+1, ts => do
    let (e,ts) ← parseAtom fuel ts
    parsePostfix fuel e ts
  | 0, _ => none

def parsePostfix : ℕ → Expr → List Token → Option (Expr × List Token)
  | fuel+1, e, .sym '['::ts => do
    let (i,ts) ← parseExpr fuel ts
    match ts with
    | .sym ']'::ts => parsePostfix fuel (.index e i) ts
    | _ => none
  | fuel+1, e, .sym '.'::.word m::.sym '('::ts => do
    let (args,ts) ← parseArgs fuel ts
    parsePostfix fuel (.callOn e m args) ts
  | _, e, ts => some (e,ts)

def parseArgs : ℕ → List Token → Option (List Expr × List Token)
  | _, .sym ')'::ts => some ([],ts)
  | fuel+1, ts => do
    let (e,ts) ← parseExpr fuel ts
    let (args,ts) ← parseMore fuel ')' ts
    some (e::args,ts)
  | 0, _ => none

def parseMore : ℕ → Char → List Token → Option (List Expr × List Token)
  | fuel+1, close, .sym c::ts =>
    if c = close then some ([],ts)
    else if c = ',' then do
      let (e,ts) ← parseExpr fuel ts
      let (elts,ts) ← parseMore fuel close ts
      some (e::elts,ts)
    else none
  | _, _, _ => none

def parseItems : ℕ → List Token → Option (List (Expr × Expr) × List Token)
  | _, .sym '}'::ts => some ([],ts)
  | fuel+1, .sym ','::ts => do
    let (k,ts) ← parseExpr fuel ts
    match ts with
    | .sym ':'::ts => do
      let (v,ts) ← parseExpr fuel ts
      let (items,ts) ← parseItems fuel ts
      some ((k,v)::items,ts)
    | _ => none
  | _, _ => none

end

def readChars (cs : List Char) : Option (ℕ × List Token) :=
  (lex .start cs).map fun ts => ((cs.takeWhile fun c => c = ' ').length,ts)

def readLine (line : String) : Option (ℕ × List Token) := readChars line.toList

/-- A literal is the list of its characters, which need not be decoded. -/
theorem readLines_cons {cs : List Char} {text : List String} {line : ℕ × List Token}
    {lines : List (ℕ × List Token)} (h : readChars cs = some line)
    (hs : text.mapM readLine = some lines) :
    (String.ofList cs::text).mapM readLine = some (line::lines) := by
  rw [List.mapM_cons,readLine,String.toList_ofList,h,hs]
  rfl

def parseSimple (fuel : ℕ) (ts : List Token) : Option Stmt := do
  let (e,ts) ← parseExpr fuel ts
  match ts with
  | [] => some (.expr e)
  | .sym '='::ts => do
    let (v,ts) ← parseExpr fuel ts
    match e, ts with
    | .name x, [] => some (.assign x v)
    | .index (.attr field) i, [] => some (.setItem field i v)
    | _, _ => none
  | _ => none

def nextIndent : List (ℕ × List Token) → ℕ
  | [] => 0
  | (n,ts)::lines => if ts = [] then nextIndent lines else n

def parseBlock : ℕ → ℕ → List (ℕ × List Token) → Option (List Stmt × List (ℕ × List Token))
  | 0, _, _ => none
  | _+1, _, [] => some ([],[])
  | fuel+1, indent, (n,ts)::lines =>
    if ts = [] then parseBlock fuel indent lines
    else if n < indent then some ([],(n,ts)::lines)
    else if n > indent then none
    else
      match ts with
      | .word "for"::.word x::.word "in"::ts => do
        let (e,rest) ← parseExpr fuel ts
        if rest = [.sym ':'] ∧ indent < nextIndent lines then
          let (body,lines) ← parseBlock fuel (nextIndent lines) lines
          let (stmts,lines) ← parseBlock fuel indent lines
          some (.forIn x e body::stmts,lines)
        else none
      | ts => do
        let st ← parseSimple fuel ts
        let (stmts,lines) ← parseBlock fuel indent lines
        some (st::stmts,lines)

/-- No rule goes deeper than four levels without reading a token or a line. -/
def depth (lines : List (ℕ × List Token)) : ℕ := 4*(lines.map fun l => l.2.length+1).sum

def parse (text : List String) : Option (List Stmt) := do
  let lines ← text.mapM readLine
  let (stmts,rest) ← parseBlock (depth lines) (nextIndent lines) lines
  if rest = [] then some stmts else none

end Text

section Running

/-- The variables of a method, the attributes of `self` and the state of the host. -/
structure State (S : Type) where
  vars : String → Option Value
  attrs : String → Option Value
  host : S

abbrev Exec (S A : Type) : Type := EStateM PyError (State S) A

structure Host (S : Type) where
  function : String → List Value → S → Except PyError Value × S
  method : String → List Value → S → Except PyError Value × S
  valueMethod : Value → String → List Value → Except PyError Value

variable {S A : Type}

def lift (r : Except PyError A) : Exec S A := fun s =>
  match r with
  | .ok a => .ok a s
  | .error e => .error e s

def onHost (f : S → Except PyError A × S) : Exec S A := fun s =>
  match f s.host with
  | (.ok a,h) => .ok a { s with host := h }
  | (.error e,h) => .error e { s with host := h }

def getVar (x : String) : Exec S Value := fun s =>
  match s.vars x with
  | some v => .ok v s
  | none => .error (.nameError x) s

def getAttr (field : String) : Exec S Value := fun s =>
  match s.attrs field with
  | some v => .ok v s
  | none => .error (.attributeError field) s

def setVar (x : String) (v : Value) : Exec S Unit := fun s =>
  .ok () { s with vars := Function.update s.vars x (some v) }

def setAttr (field : String) (v : Value) : Exec S Unit := fun s =>
  .ok () { s with attrs := Function.update s.attrs field (some v) }

def getItem : Value → Value → Except PyError Value
  | .dict items, i => do
    let k ← i.hash
    match items.lookup k with
    | some v => .ok v
    | none => .error (.keyError k)
  | _, _ => .error .outside

variable (H : Host S)

mutual

/-- The elements of a display are evaluated in order, then hashed. -/
def eval : Expr → Exec S Value
  | .none => pure (.key .none)
  | .str s => pure (.str s)
  | .name x => getVar x
  | .attr field => getAttr field
  | .index e i => do
    let v ← eval e
    let i ← eval i
    lift (getItem v i)
  | .call f args => do
    let vs ← evalList args
    onHost (H.function f vs)
  | .callSelf m args => do
    let vs ← evalList args
    onHost (H.method m vs)
  | .callOn e m args => do
    let v ← eval e
    let vs ← evalList args
    lift (H.valueMethod v m vs)
  | .dict items => do
    let vs ← evalItems items
    let items ← lift (vs.foldlM addItem [])
    pure (.dict items)
  | .set elts => do
    let vs ← evalList elts
    let ks ← lift (vs.mapM Value.hash)
    pure (.set (ks.foldl addKey []))

def evalList : List Expr → Exec S (List Value)
  | [] => pure []
  | e::es => do
    let v ← eval e
    let vs ← evalList es
    pure (v::vs)

def evalItems : List (Expr × Expr) → Exec S (List (Value × Value))
  | [] => pure []
  | (k,e)::rest => do
    let k ← eval k
    let v ← eval e
    let vs ← evalItems rest
    pure ((k,v)::vs)

end

def loop (x : String) (body : Exec S Unit) : List Value → Exec S Unit
  | [] => pure ()
  | v::vs => do
    setVar x v
    body
    loop x body vs

mutual

def exec : Stmt → Exec S Unit
  | .expr e => do
    let _ ← eval H e
  | .assign x e => do
    let v ← eval H e
    setVar x v
  | .setItem field i e => do
    let v ← eval H e
    let d ← getAttr field
    let i ← eval H i
    match d with
    | .dict items => do
      let k ← lift i.hash
      setAttr field (.dict (store items k v))
    | _ => lift (.error .outside)
  | .forIn x e body => do
    let v ← eval H e
    match v with
    | .list vs => loop x (execAll body) vs
    | _ => lift (.error .outside)

def execAll : List Stmt → Exec S Unit
  | [] => pure ()
  | st::stmts => do
    exec st
    execAll stmts

end

variable {H} {s s' s₁ s₂ : State S} {e : PyError} {st : Stmt} {stmts : List Stmt}

attribute [local simp] eval exec loop in
theorem eval_name {x : String} {v : Value} (h : s.vars x = some v) :
    eval H (.name x) s = .ok v s := by
  rw [eval]
  simp only [getVar,h]

theorem eval_index {a i : Expr} {v k w : Value} (ha : eval H a s = .ok v s₁)
    (hi : eval H i s₁ = .ok k s₂) (hw : getItem v k = .ok w) :
    eval H (.index a i) s = .ok w s₂ := by
  rw [eval]
  simp only [bind,EStateM.bind,ha,hi,lift,hw]

theorem eval_call {f : String} {args : List Expr} {vs : List Value} {v : Value} {h : S}
    (ha : evalList H args s = .ok vs s₁) (hf : H.function f vs s₁.host = (.ok v,h)) :
    eval H (.call f args) s = .ok v { s₁ with host := h } := by
  rw [eval]
  simp only [bind,EStateM.bind,ha,onHost,hf]

theorem eval_callSelf {m : String} {args : List Expr} {vs : List Value} {v : Value} {h : S}
    (ha : evalList H args s = .ok vs s₁) (hm : H.method m vs s₁.host = (.ok v,h)) :
    eval H (.callSelf m args) s = .ok v { s₁ with host := h } := by
  rw [eval]
  simp only [bind,EStateM.bind,ha,onHost,hm]

theorem evalList_cons {a : Expr} {as : List Expr} {v : Value} {vs : List Value}
    (ha : eval H a s = .ok v s₁) (hs : evalList H as s₁ = .ok vs s₂) :
    evalList H (a::as) s = .ok (v::vs) s₂ := by
  rw [evalList]
  simp only [bind,EStateM.bind,ha,hs]
  rfl

theorem evalItems_cons {a b : Expr} {items : List (Expr × Expr)} {k v : Value}
    {vs : List (Value × Value)} (ha : eval H a s = .ok k s₁) (hb : eval H b s₁ = .ok v s₂)
    (hs : evalItems H items s₂ = .ok vs s') :
    evalItems H ((a,b)::items) s = .ok ((k,v)::vs) s' := by
  rw [evalItems]
  simp only [bind,EStateM.bind,ha,hb,hs]
  rfl

theorem execAll_cons_ok (h : exec H st s = .ok () s') :
    execAll H (st::stmts) s = execAll H stmts s' := by
  rw [execAll]
  simp only [bind,EStateM.bind,h]

theorem execAll_cons_error (h : exec H st s = .error e s') :
    execAll H (st::stmts) s = .error e s' := by
  rw [execAll]
  simp only [bind,EStateM.bind,h]

theorem loop_cons_error {x : String} {body : Exec S Unit} {v : Value} {vs : List Value}
    (h : body { s with vars := Function.update s.vars x (some v) } = .error e s') :
    loop x body (v::vs) s = .error e s' := by
  rw [loop]
  simp only [bind,EStateM.bind,setVar,h]

theorem exec_expr {a : Expr} {v : Value} (h : eval H a s = .ok v s') :
    exec H (.expr a) s = .ok () s' := by
  rw [exec]
  simp only [bind,EStateM.bind,h]
  rfl

theorem exec_assign {x : String} {a : Expr} {v : Value} (h : eval H a s = .ok v s') :
    exec H (.assign x a) s = .ok () { s' with vars := Function.update s'.vars x (some v) } := by
  rw [exec]
  simp only [bind,EStateM.bind,h]
  rfl

theorem exec_forIn {x : String} {a : Expr} {vs : List Value} (h : eval H a s = .ok (.list vs) s') :
    exec H (.forIn x a stmts) s = loop x (execAll H stmts) vs s' := by
  rw [exec]
  simp only [bind,EStateM.bind,h]

theorem exec_setItem {field : String} {i a : Expr} {v w : Value} {k : Key}
    {items : List (Key × Value)} (ha : eval H a s = .ok v s₁)
    (hd : s₁.attrs field = some (.dict items)) (hi : eval H i s₁ = .ok w s₂) (hk : w.hash = .ok k) :
    exec H (.setItem field i a) s =
      .ok () { s₂ with attrs := Function.update s₂.attrs field (some (.dict (store items k v))) } := by
  rw [exec]
  simp only [bind,EStateM.bind,ha,getAttr,hd,hi,lift,hk]
  rfl

/-- The value is evaluated before the attribute and the key. -/
theorem exec_setItem_error {field : String} {i a : Expr} (h : eval H a s = .error e s') :
    exec H (.setItem field i a) s = .error e s' := by
  rw [exec]
  simp only [bind,EStateM.bind,h]

/-- Braces around a dict display make a set, whose element is not hashable. -/
theorem set_of_dict_raises {items : List (Expr × Expr)} {vs : List (Value × Value)}
    {ds : List (Key × Value)} (hv : evalItems H items s = .ok vs s')
    (hk : vs.foldlM addItem [] = .ok ds) :
    eval H (.set [.dict items]) s = .error (.typeError "unhashable type: 'dict'") s' := by
  have hd : eval H (.dict items) s = .ok (.dict ds) s' := by
    rw [eval]
    simp only [bind,EStateM.bind,hv,lift,hk]
    rfl
  have hl : evalList H [.dict items] s = .ok [.dict ds] s' := evalList_cons hd rfl
  rw [eval]
  simp only [bind,EStateM.bind,hl]
  rfl

end Running

end PythonRules
