import CtrlxtKernel.KernelTypes
import CtrlxtKernel.MachineInt
import CtrlxtKernel.ObjectHeap

/-!
# Counted contexts

`security.c` and `performance.c` keep their contexts with the same code: each
has a global context, a spinlock and a `ref_count`, and they differ in the
other fields of a context and in the arguments that `create` checks. Every
function here is one locked section, except that `exit` is two, because it
frees the context after it has released the lock.
-/

set_option autoImplicit false

namespace CtrlxtKernel
open MachineInt ObjectHeap

structure Context (F : Type) where
  fields : F
  privateData : Ptr
  refCount : CInt

structure ContextModule (F : Type) where
  heap : Heap (Context F)
  globalContext : Ptr

variable {F A : Type}

def kfree (heap : Heap (Context F)) : Ptr → Option (Heap (Context F))
  | .null => some heap
  | .errPtr _ => none
  | .obj i => heap.free i

/-- `kfree(ctx->private_data); kfree(ctx);` -/
def freeContext (heap : Heap (Context F)) (p : ℕ) : Option (Heap (Context F)) := do
  let ctx ← heap.cells p
  let heap ← kfree heap ctx.privateData
  heap.free p

def newContext (fields : F) : Context F := ⟨fields,.null,1⟩

def initContext (fields : F) (m : ContextModule F) (kzalloc : Bool) : ContextModule F × ℤ :=
  if kzalloc then (⟨m.heap.alloc (newContext fields),.obj m.heap.next⟩,0) else (m,-enomem)

def exitLocked (m : ContextModule F) : ContextModule F × Ptr :=
  ({ m with globalContext := .null },m.globalContext)

def exitFree (m : ContextModule F) : Ptr → Option (ContextModule F)
  | .null => some m
  | .errPtr _ => none
  | .obj p => (freeContext m.heap p).map (fun heap => { m with heap := heap })

def createContext (fields : F) (m : ContextModule F) (kzalloc : Bool) : ContextModule F × Ptr :=
  if kzalloc then ({ m with heap := m.heap.alloc (newContext fields) },.obj m.heap.next)
  else (m,.errPtr (-enomem))

def getContext (m : ContextModule F) : Option (ContextModule F × Ptr) :=
  match m.globalContext with
  | .null => some (m,.null)
  | .errPtr _ => none
  | .obj p => do
    let ctx ← m.heap.cells p
    let heap ← m.heap.store p { ctx with refCount := ctx.refCount+1 }
    some ({ m with heap := heap },.obj p)

def putContext (m : ContextModule F) : Ptr → Option (ContextModule F)
  | .null => some m
  | .errPtr _ => none
  | .obj p => do
    let ctx ← m.heap.cells p
    let heap ← m.heap.store p { ctx with refCount := ctx.refCount-1 }
    if ctx.refCount-1 = 0 then
      (freeContext heap p).map (fun heap => { m with heap := heap })
    else some { m with heap := heap }

/-- The context functions of a module, with the arguments of `create`. -/
structure ContextApi (F A : Type) where
  init : ContextModule F → Bool → ContextModule F × ℤ
  exitLocked : ContextModule F → ContextModule F × Ptr
  exitFree : ContextModule F → Ptr → Option (ContextModule F)
  createContext : A → ContextModule F → Bool → ContextModule F × Ptr
  getContext : ContextModule F → Option (ContextModule F × Ptr)
  putContext : ContextModule F → Ptr → Option (ContextModule F)

structure ContextApi.Counted (api : ContextApi F A) : Prop where
  init : ∃ fields, api.init = initContext fields
  exitLocked : api.exitLocked = CtrlxtKernel.exitLocked
  exitFree : api.exitFree = CtrlxtKernel.exitFree
  create : ∀ a m kzalloc, (∃ fields, api.createContext a m kzalloc =
    CtrlxtKernel.createContext fields m kzalloc) ∨
      ∃ e, api.createContext a m kzalloc = (m,.errPtr e)
  get : api.getContext = CtrlxtKernel.getContext
  put : api.putContext = CtrlxtKernel.putContext

theorem freeContext_live {heap : Heap (Context F)} {p : ℕ} {ctx : Context F}
    (hp : heap.cells p = some ctx) (hd : ctx.privateData = .null) :
    ∃ k, freeContext heap p = some k ∧ k.cells = Function.update heap.cells p none ∧
      k.next = heap.next ∧ k.freed = p::heap.freed := by
  obtain ⟨k,hk⟩ := free_live hp
  obtain ⟨-,hc,hn,hf⟩ := free_spec hk
  exact ⟨k,by simp [freeContext,hp,hd,kfree,hk],hc,hn,hf⟩

theorem getContext_live {m : ContextModule F} {p : ℕ} {ctx : Context F}
    (hg : m.globalContext = .obj p) (hp : m.heap.cells p = some ctx) :
    ∃ k, getContext m = some ({ m with heap := k },.obj p) ∧
      k.cells = Function.update m.heap.cells p (some { ctx with refCount := ctx.refCount+1 }) ∧
      k.next = m.heap.next ∧ k.freed = m.heap.freed := by
  obtain ⟨k,hk⟩ := store_live hp { ctx with refCount := ctx.refCount+1 }
  refine ⟨k,?_,store_spec hk⟩
  simp only [getContext,hg,hp,Option.bind_eq_bind,Option.bind_some,hk]

/-- `put` stores the decremented count and then frees the context, or not. -/
theorem putContext_live {m : ContextModule F} {p : ℕ} {ctx : Context F}
    (hp : m.heap.cells p = some ctx) (hd : ctx.privateData = .null) :
    ∃ k, putContext m (.obj p) = some { m with heap := k } ∧ k.next = m.heap.next ∧
      if ctx.refCount-1 = 0 then
        k.cells = Function.update m.heap.cells p none ∧ k.freed = p::m.heap.freed
      else k.cells = Function.update m.heap.cells p
          (some { ctx with refCount := ctx.refCount-1 }) ∧ k.freed = m.heap.freed := by
  obtain ⟨r,hr⟩ := store_live hp { ctx with refCount := ctx.refCount-1 }
  obtain ⟨hrc,hrn,hrf⟩ := store_spec hr
  by_cases h0 : ctx.refCount-1 = 0
  · have hlive : r.cells p = some { ctx with refCount := ctx.refCount-1 } := by simp [hrc]
    obtain ⟨k,hk,hkc,hkn,hkf⟩ := freeContext_live hlive hd
    refine ⟨k,?_,hkn.trans hrn,?_⟩
    · simp only [putContext,hp,Option.bind_eq_bind,Option.bind_some,hr,if_pos h0,hk,
        Option.map_some]
    · rw [if_pos h0,hkc,hrc,hkf,hrf]
      simp
  · refine ⟨r,?_,hrn,?_⟩
    · simp only [putContext,hp,Option.bind_eq_bind,Option.bind_some,hr,if_neg h0]
    · rw [if_neg h0]
      exact ⟨hrc,hrf⟩

end CtrlxtKernel
