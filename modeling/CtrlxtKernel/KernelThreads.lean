import CtrlxtKernel.HeapMoves
import CtrlxtKernel.KernelLocksRuns
import CtrlxtKernel.LockReduction
import CtrlxtKernel.QuantumMemorySerial

/-!
# Threads in the memory manager

Any number of threads call the memory manager, each running its code one access
at a time. The code of `ctrlxt_qmem_alloc` and `ctrlxt_qmem_free` is the code
with locks; the other calls touch the manager without its lock. A caller passes
NULL or a reference that it has. An access has no result when it touches an
object that is not live, and none when it takes away an object that somebody
still refers to.
-/

set_option autoImplicit false

namespace CtrlxtKernel.KernelThreads
open MachineInt ObjectHeap RefLedger StepMachine LockDiscipline LockReduction
open KernelLocks (KernelOp KernelCode LockName answerQmem)
open QuantumMemory (Object CtrlxtQmem QuantumMemoryBlock Session AllocOutcome qmemMaxQubitsPerBlock
  withHeap)

variable {t : Target} {H : Type*}

/-- What is done without the lock: `atomic_inc` of a count, `atomic_set` of the limit. -/
inductive UnlockedOp (t : Target) where
  | incRefCount (block : Ptr)
  | setMaxQubits (maxQubits : ULong t)

abbrev QmemOp (t : Target) : Type := KernelOp t ⊕ UnlockedOp t

abbrev QmemOp.Answer : QmemOp t → Type
  | .inl op => op.Answer
  | .inr _ => Unit

abbrev QmemCode (t : Target) (A : Type) : Type := Code LockName (QmemOp t) QmemOp.Answer A

def lift {A : Type} : KernelCode t A → QmemCode t A
  | .ret a => .ret a
  | .acquire l p => .acquire l (lift p)
  | .release l p => .release l (lift p)
  | .call op next => .call (.inl op) fun x => lift (next x)

inductive QmemAnswer where
  | block (p : Ptr)
  | status (ret : ℤ)
  | done

inductive QmemCall (t : Target) where
  | alloc (numQubits flags : ULong t)
  | free (block : Ptr)
  | get (block : Ptr)
  | put (block : Ptr)
  | setMaxQubits (maxQubits : ULong t)

def freeCode (block : Ptr) : QmemCode t QmemAnswer :=
  (lift (KernelLocks.ctrlxtQmemFree block)).bind fun _ => .ret .done

def QmemCall.code : QmemCall t → QmemCode t QmemAnswer
  | .alloc numQubits flags =>
    (lift (KernelLocks.ctrlxtQmemAlloc numQubits flags)).bind fun p => .ret (.block p)
  | .free block => freeCode block
  | .get block =>
    if block = .null then .ret (.block .null)
    else .call (.inr (.incRefCount block)) fun _ => .ret (.block block)
  | .put block => if block = .null then .ret .done else freeCode block
  | .setMaxQubits maxQubits =>
    .call (.inl .allocatedQubits) fun allocated =>
      if maxQubits < widen t allocated then .ret (.status (-einval))
      else .call (.inr (.setMaxQubits maxQubits)) fun _ => .ret (.status 0)

/-- NULL, or a reference of the caller. -/
def holds (refs : List (H × ℕ)) (h : H) : Ptr → Prop
  | .null => True
  | .obj p => (h,p) ∈ refs
  | .errPtr _ => False

def QmemCall.may (s : Session t H) (h : H) : QmemCall t → Prop
  | .free block | .get block | .put block => holds s.refs h block
  | .alloc _ _ | .setMaxQubits _ => True

def QmemOp.fits (s : Session t H) (_ : H) : QmemOp t → Prop
  | .inr (.incRefCount (.obj p)) => outstanding s.refs p+1 < 2^31
  | _ => True

def qmemInterface : Interface (Session t H) H (QmemCall t) LockName (QmemOp t) QmemOp.Answer
    QmemAnswer where
  body := QmemCall.code
  may := QmemCall.may
  fits := QmemOp.fits

def access (o : AllocOutcome) (s : Session t H) (op : KernelOp t) :
    Option (Session t H × op.Answer) :=
  (answerQmem o s.qmem op).map fun r => ({ s with qmem := r.1 },r.2)

/-- The access is made only if nobody refers to the object. -/
def unreferenced {B : Type*} (s : Session t H) (p : ℕ) (r : Option B) : Option B :=
  if outstanding s.refs p = 0 then r else none

variable [DecidableEq H]

def handle (h : H) (o : AllocOutcome) (s : Session t H) :
    (op : QmemOp t) → Option (Session t H × op.Answer)
  | .inl .kzallocBlock => unreferenced s s.qmem.heap.next (access o s .kzallocBlock)
  | .inl (.setBlock p b) => unreferenced s p (access o s (.setBlock p b))
  | .inl (.stateFree p) => unreferenced s p (access o s (.stateFree p))
  | .inl (.kfreeBlock (.obj p)) => unreferenced s p (access o s (.kfreeBlock (.obj p)))
  | .inl (.decAndTest (.obj p)) =>
    if (h,p) ∈ s.refs then
      (s.decAndTest h p).bind fun r =>
        if r.2 = true → outstanding r.1.refs p = 0 then some r else none
    else none
  | .inl (.addAllocated n) =>
    (access o s (.addAllocated n)).map fun r =>
      (match r.1.qmem.usedBlocks with
        | p::_ => r.1.grant h r.1.qmem (.obj p)
        | [] => r.1,())
  | .inl op => access o s op
  | .inr (.incRefCount (.obj p)) =>
    if (h,p) ∈ s.refs then (s.get h p).map fun r => (r,()) else none
  | .inr (.incRefCount _) => none
  | .inr (.setMaxQubits m) => some ({ s with qmem := QuantumMemory.setMaxStore s.qmem m },())

def Outer : QmemOp t → Prop
  | .inl .allocatedQubits | .inl .maxQubits | .inr _ => True
  | _ => False

/-- What a thread with the lock does before others can tell: everything but the
updates of `allocated_qubits` and a decrement that leaves references. -/
def Quiet : (op : QmemOp t) → op.Answer → Prop
  | .inl .kzallocBlock, _ | .inl (.stateAlloc _), _ | .inl (.setBlock _ _), _
  | .inl (.listAdd _), _ | .inl (.addTotal _), _ | .inl (.listDel _), _
  | .inl (.blockState _), _ | .inl (.blockSize _), _ | .inl (.stateFree _), _
  | .inl (.subTotal _), _ | .inl (.kfreeBlock _), _ => True
  | .inl (.decAndTest _), zero => zero = true
  | _, _ => False

def FreesBlock : QmemOp t → Prop
  | .inl (.kfreeBlock _) => True
  | _ => False

structure Frame (h : H) (s u : Session t H) : Prop where
  allocated : u.qmem.allocatedQubits = s.qmem.allocatedQubits
  max : u.qmem.maxQubits = s.qmem.maxQubits
  refs : ∀ j, j ≠ h → ∀ p, (j,p) ∈ u.refs ↔ (j,p) ∈ s.refs
  block : ∀ j, j ≠ h → ∀ p, (j,p) ∈ u.refs → u.qmem.block p = s.qmem.block p
  few : ∀ p, outstanding u.refs p+1 < 2^31 ↔ outstanding s.refs p+1 < 2^31

omit [DecidableEq H] in
/-- The blocks that are referred to are as they were. -/
theorem frame_heap {h : H} {s : Session t H} {q : CtrlxtQmem t}
    (ha : q.allocatedQubits = s.qmem.allocatedQubits) (hm : q.maxQubits = s.qmem.maxQubits)
    (hb : ∀ p, 0 < outstanding s.refs p → q.block p = s.qmem.block p) :
    Frame h s { s with qmem := q } :=
  ⟨ha,hm,fun _ _ _ => Iff.rfl,fun _ _ p hp => hb p (outstanding_pos hp),fun _ => Iff.rfl⟩

omit [DecidableEq H] in
theorem unreferenced_some {B : Type*} {s : Session t H} {p : ℕ} {r : Option B} {b : B} :
    unreferenced s p r = some b ↔ outstanding s.refs p = 0 ∧ r = some b := by
  unfold unreferenced
  split_ifs with h <;> simp [h]

omit [DecidableEq H] in
theorem access_some {o : AllocOutcome} {s u : Session t H} {op : KernelOp t} {x : op.Answer} :
    access o s op = some (u,x) ↔ ∃ q, answerQmem o s.qmem op = some (q,x) ∧
      u = { s with qmem := q } := by
  constructor
  · intro h
    obtain ⟨⟨q,y⟩,hq,he⟩ := Option.map_eq_some_iff.mp h
    cases he
    exact ⟨q,hq,rfl⟩
  · rintro ⟨q,hq,rfl⟩
    rw [access,hq]
    rfl

omit [DecidableEq H] in
theorem frame_update {h : H} {s : Session t H} {q : CtrlxtQmem t} {n : ℕ}
    {v : Option (Object t)} (ha : q.allocatedQubits = s.qmem.allocatedQubits)
    (hm : q.maxQubits = s.qmem.maxQubits)
    (hk : q.heap.cells = Function.update s.qmem.heap.cells n v)
    (hn : outstanding s.refs n = 0 ∨ QuantumMemory.asBlock v = s.qmem.block n) :
    Frame h s { s with qmem := q } := by
  refine frame_heap ha hm fun p hp => ?_
  rw [CtrlxtQmem.block,hk]
  by_cases hpn : p = n
  · subst hpn
    rcases hn with hn | hn
    · omega
    · rw [Function.update_self,hn]
  · rw [Function.update_of_ne hpn]
    rfl

omit [DecidableEq H] in
theorem frame_same {h : H} {s : Session t H} {q : CtrlxtQmem t}
    (ha : q.allocatedQubits = s.qmem.allocatedQubits) (hm : q.maxQubits = s.qmem.maxQubits)
    (hk : q.heap = s.qmem.heap) : Frame h s { s with qmem := q } :=
  frame_heap ha hm fun p _ => by rw [CtrlxtQmem.block,hk]; rfl

theorem frame_decrement {h : H} {s u : Session t H} {p : ℕ}
    (hm : (h,p) ∈ s.refs) (hu : s.decAndTest h p = some (u,true))
    (hlast : outstanding u.refs p = 0) : Frame h s u := by
  obtain ⟨⟨q,zero⟩,hq,he⟩ := Option.map_eq_some_iff.mp hu
  cases he
  obtain ⟨b,hb,hrest⟩ := Option.bind_eq_some_iff.mp hq
  obtain ⟨k,hk,hk'⟩ := Option.bind_eq_some_iff.mp hrest
  obtain ⟨rfl,-⟩ := Prod.mk.inj (Option.some.inj hk')
  have hout : ∀ i, outstanding (s.refs.erase (h,p)) i =
      outstanding s.refs i-if p = i then 1 else 0 := outstanding_erase hm
  refine ⟨rfl,rfl,fun j hj i => ?_,fun j hj i hi => ?_,fun i => ?_⟩
  · exact List.mem_erase_of_ne (fun he => hj (Prod.mk.inj he).1)
  · have hne : i ≠ p := by
      rintro rfl
      have hpos := outstanding_pos hi
      omega
    show QuantumMemory.asBlock (k.cells i) = _
    rw [(store_spec hk).1,Function.update_of_ne hne]
    rfl
  · show outstanding (s.refs.erase (h,p)) i+1 < 2^31 ↔ _
    have hpos := outstanding_pos hm
    replace hlast : outstanding (s.refs.erase (h,p)) p = 0 := hlast
    rw [hout] at hlast ⊢
    split_ifs with hpi
    · subst hpi
      rw [if_pos rfl] at hlast
      omega
    · rfl

theorem quiet_frame {h : H} {o : AllocOutcome} {s u : Session t H} {op : QmemOp t}
    {x : op.Answer} (hq : Quiet op x) (hu : handle h o s op = some (u,x)) : Frame h s u := by
  rcases op with op | op
  swap
  · exact hq.elim
  cases op with
  | kzallocBlock =>
    obtain ⟨hn,hu⟩ := unreferenced_some.mp hu
    obtain ⟨q,hq,rfl⟩ := access_some.mp hu
    simp only [answerQmem] at hq
    split_ifs at hq <;> cases hq
    · exact frame_update rfl rfl (alloc_cells _ _) (Or.inl hn)
    · exact frame_same rfl rfl rfl
  | stateAlloc n =>
    obtain ⟨q,hq,rfl⟩ := access_some.mp hu
    simp only [answerQmem] at hq
    split_ifs at hq <;> cases hq
    · exact frame_update rfl rfl (alloc_cells _ _)
        (Or.inr (QuantumMemory.block_fresh s.qmem (le_refl _)).symm)
    · exact frame_same rfl rfl rfl
  | setBlock p b =>
    obtain ⟨hn,hu⟩ := unreferenced_some.mp hu
    obtain ⟨q,hq,rfl⟩ := access_some.mp hu
    obtain ⟨k,hk,he⟩ := Option.map_eq_some_iff.mp hq
    cases he
    exact frame_update rfl rfl (store_spec hk).1 (Or.inl hn)
  | listAdd p =>
    obtain ⟨q,hq,rfl⟩ := access_some.mp hu
    cases hq
    exact frame_same rfl rfl rfl
  | addTotal n =>
    obtain ⟨q,hq,rfl⟩ := access_some.mp hu
    cases hq
    exact frame_same rfl rfl rfl
  | decAndTest ptr =>
    cases ptr with
    | null | errPtr e => simp [handle,access,answerQmem] at hu
    | obj p =>
      obtain rfl : x = true := hq
      simp only [handle] at hu
      split_ifs at hu with hm
      obtain ⟨⟨r,zero⟩,hr,he⟩ := Option.bind_eq_some_iff.mp hu
      split_ifs at he with hlast
      cases he
      exact frame_decrement hm hr (hlast rfl)
  | listDel ptr =>
    cases ptr with
    | null | errPtr e => simp [handle,access,answerQmem] at hu
    | obj p =>
      obtain ⟨q,hq,rfl⟩ := access_some.mp hu
      cases hq
      exact frame_same rfl rfl rfl
  | blockState ptr | blockSize ptr =>
    cases ptr with
    | null | errPtr e => simp [handle,access,answerQmem] at hu
    | obj p =>
      obtain ⟨q,hq,rfl⟩ := access_some.mp hu
      obtain ⟨b,hb,he⟩ := Option.map_eq_some_iff.mp hq
      cases he
      exact frame_same rfl rfl rfl
  | stateFree p =>
    obtain ⟨hn,hu⟩ := unreferenced_some.mp hu
    obtain ⟨q,hq,rfl⟩ := access_some.mp hu
    obtain ⟨k,hk,he⟩ := Option.map_eq_some_iff.mp hq
    cases he
    exact frame_update rfl rfl (free_spec hk).2.1 (Or.inl hn)
  | subTotal n =>
    obtain ⟨q,hq,rfl⟩ := access_some.mp hu
    cases hq
    exact frame_same rfl rfl rfl
  | kfreeBlock ptr =>
    cases ptr with
    | null | errPtr e => simp [handle,access,answerQmem] at hu
    | obj p =>
      obtain ⟨hn,hu⟩ := unreferenced_some.mp hu
      obtain ⟨q,hq,rfl⟩ := access_some.mp hu
      obtain ⟨k,hk,he⟩ := Option.map_eq_some_iff.mp hq
      cases he
      exact frame_update rfl rfl (free_spec hk).2.1 (Or.inl hn)
  | _ => exact hq.elim

def bump (s : Session t H) (j : H) (p : ℕ) (g : Heap (Object t)) : Session t H :=
  { s with qmem := withHeap s.qmem g, refs := (j,p)::s.refs }

def raised (b : QuantumMemoryBlock t) : Object t := .block { b with refCount := b.refCount+1 }

omit [DecidableEq H] in
theorem get_eq_some {s r : Session t H} {j : H} {p : ℕ} :
    s.get j p = some r ↔ ∃ b g, s.qmem.block p = some b ∧
      s.qmem.heap.store p (raised b) = some g ∧ r = bump s j p g := by
  constructor
  · intro h
    obtain ⟨⟨q,ptr⟩,hq,rfl⟩ := Option.map_eq_some_iff.mp h
    obtain ⟨b,hb,hrest⟩ := Option.bind_eq_some_iff.mp hq
    obtain ⟨g,hg,he⟩ := Option.bind_eq_some_iff.mp hrest
    cases he
    exact ⟨b,g,hb,hg,rfl⟩
  · rintro ⟨b,g,hb,hg,rfl⟩
    have hget : QuantumMemory.ctrlxtQmemGet s.qmem (.obj p) =
        some (withHeap s.qmem g,.obj p) := by
      rw [raised] at hg
      simp only [QuantumMemory.ctrlxtQmemGet,hb,hg,Option.bind_eq_bind,Option.bind_some]
      rfl
    rw [Session.get,hget]
    rfl

omit [DecidableEq H] in
theorem bump_outstanding (s : Session t H) (j : H) {p n : ℕ} (g : Heap (Object t))
    (hne : p ≠ n) (hn : outstanding s.refs n = 0) : outstanding (bump s j p g).refs n = 0 := by
  show outstanding ((j,p)::s.refs) n = 0
  rw [outstanding_cons,if_neg hne,hn]

omit [DecidableEq H] in
theorem ne_of_outstanding {s : Session t H} {j : H} {p n : ℕ} (hm : (j,p) ∈ s.refs)
    (hn : outstanding s.refs n = 0) : p ≠ n := by
  rintro rfl
  have hpos := outstanding_pos hm
  omega

omit [DecidableEq H] in
theorem bump_block {s : Session t H} {j : H} {p n : ℕ} {b : QuantumMemoryBlock t}
    {g : Heap (Object t)} (hg : s.qmem.heap.store p (raised b) = some g) (hne : n ≠ p) :
    (bump s j p g).qmem.block n = s.qmem.block n := by
  show QuantumMemory.asBlock (g.cells n) = _
  rw [(store_spec hg).1,Function.update_of_ne hne]
  rfl

omit [DecidableEq H] in
theorem bump_size {s : Session t H} (j : H) {p n : ℕ} {b c : QuantumMemoryBlock t}
    {g : Heap (Object t)} (hb : s.qmem.block p = some b)
    (hg : s.qmem.heap.store p (raised b) = some g) (hc : s.qmem.block n = some c) :
    ∃ d, (bump s j p g).qmem.block n = some d ∧ d.state = c.state ∧ d.size = c.size := by
  by_cases hne : n = p
  · subst hne
    obtain rfl : b = c := Option.some.inj (hb.symm.trans hc)
    refine ⟨{ b with refCount := b.refCount+1 },?_,rfl,rfl⟩
    show QuantumMemory.asBlock (g.cells n) = _
    rw [(store_spec hg).1,Function.update_self]
    rfl
  · exact ⟨c,by rw [bump_block hg hne,hc],rfl,rfl⟩

theorem swap_decrement {h j : H} (hij : h ≠ j) {s u : Session t H} {n p : ℕ}
    (hu : s.decAndTest h n = some (u,true)) (hlast : outstanding u.refs n = 0)
    {b : QuantumMemoryBlock t} (hm : (j,p) ∈ s.refs)
    {g : Heap (Object t)} (hg : s.qmem.heap.store p (raised b) = some g) :
    ∃ f, u.qmem.heap.store p (raised b) = some f ∧
      (bump s j p g).decAndTest h n = some (bump u j p f,true) ∧
      outstanding (bump u j p f).refs n = 0 := by
  obtain ⟨⟨q,zero⟩,hq,he⟩ := Option.map_eq_some_iff.mp hu
  cases he
  obtain ⟨c,hc,hrest⟩ := Option.bind_eq_some_iff.mp hq
  obtain ⟨k,hk,hk'⟩ := Option.bind_eq_some_iff.mp hrest
  obtain ⟨rfl,hz⟩ := Prod.mk.inj (Option.some.inj hk')
  have hother : (j,p) ≠ (h,n) := fun he => hij (Prod.mk.inj he).1.symm
  have hkept : (j,p) ∈ s.refs.erase (h,n) := (List.mem_erase_of_ne hother).mpr hm
  have hne : p ≠ n := by
    rintro rfl
    have hpos := outstanding_pos hkept
    replace hlast : outstanding (s.refs.erase (h,p)) p = 0 := hlast
    omega
  obtain ⟨f,hf,hgf⟩ := store_store hne hg hk
  refine ⟨f,hf,?_,?_⟩
  · have hc' : (bump s j p g).qmem.block n = some c := by rw [bump_block hg hne.symm,hc]
    have hstore : (bump s j p g).qmem.heap.store n (.block { c with refCount := c.refCount-1 }) =
      some f := hgf
    have herase : ((j,p)::s.refs).erase (h,n) = (j,p)::s.refs.erase (h,n) :=
      List.erase_cons_tail (by simpa using hother)
    simp only [Session.decAndTest,QuantumMemory.atomicDecAndTest,hc',hstore,Option.bind_eq_bind,
      Option.bind_some,Option.map_some,hz]
    simp only [bump,herase]
    rfl
  · exact bump_outstanding _ j f hne hlast

theorem swap_get {h j : H} (hij : h ≠ j) {o : AllocOutcome} {s u : Session t H} {op : QmemOp t}
    {x : op.Answer} (hq : Quiet op x) (hu : handle h o s op = some (u,x)) {p : ℕ}
    {b : QuantumMemoryBlock t} (hm : (j,p) ∈ s.refs) (hb : s.qmem.block p = some b)
    {g : Heap (Object t)} (hg : s.qmem.heap.store p (raised b) = some g) :
    ∃ f, u.qmem.heap.store p (raised b) = some f ∧
      handle h o (bump s j p g) op = some (bump u j p f,x) := by
  rcases op with op | op
  swap
  · exact hq.elim
  have hgn := (store_spec hg).2.1
  cases op with
  | kzallocBlock =>
    obtain ⟨hn,hu⟩ := unreferenced_some.mp hu
    obtain ⟨q,hq,rfl⟩ := access_some.mp hu
    have hn' := bump_outstanding s j g (ne_of_outstanding hm hn) hn
    simp only [answerQmem] at hq
    split_ifs at hq with ho <;> cases hq
    · refine ⟨_,store_alloc hg _,unreferenced_some.mpr ⟨?_,access_some.mpr ⟨_,?_,rfl⟩⟩⟩
      · rw [← hgn] at hn'
        exact hn'
      · simp only [answerQmem,ho,if_true,bump,withHeap,hgn]
    · refine ⟨g,hg,unreferenced_some.mpr ⟨?_,access_some.mpr ⟨_,?_,rfl⟩⟩⟩
      · rw [← hgn] at hn'
        exact hn'
      · simp only [answerQmem,ho,bump,withHeap]
        rfl
  | stateAlloc n =>
    obtain ⟨q,hq,rfl⟩ := access_some.mp hu
    simp only [answerQmem] at hq
    split_ifs at hq with ho <;> cases hq
    · refine ⟨_,store_alloc hg _,access_some.mpr ⟨_,?_,rfl⟩⟩
      simp only [answerQmem,ho,if_true,bump,withHeap,hgn]
    · refine ⟨g,hg,access_some.mpr ⟨_,?_,rfl⟩⟩
      simp only [answerQmem,ho,bump,withHeap]
      rfl
  | setBlock n c =>
    obtain ⟨hn,hu⟩ := unreferenced_some.mp hu
    obtain ⟨q,hq,rfl⟩ := access_some.mp hu
    obtain ⟨k,hk,he⟩ := Option.map_eq_some_iff.mp hq
    cases he
    have hne := ne_of_outstanding hm hn
    obtain ⟨f,hf,hgf⟩ := store_store hne hg hk
    refine ⟨f,hf,unreferenced_some.mpr ⟨bump_outstanding s j g hne hn,access_some.mpr
      ⟨_,?_,rfl⟩⟩⟩
    simp only [answerQmem,bump,withHeap,hgf,Option.map_some]
  | listAdd n | addTotal n | subTotal n =>
    obtain ⟨q,hq,rfl⟩ := access_some.mp hu
    cases hq
    exact ⟨g,hg,rfl⟩
  | decAndTest ptr =>
    cases ptr with
    | null | errPtr e => simp [handle,access,answerQmem] at hu
    | obj n =>
      obtain rfl : x = true := hq
      simp only [handle] at hu
      split_ifs at hu with hn
      obtain ⟨⟨r,zero⟩,hr,he⟩ := Option.bind_eq_some_iff.mp hu
      split_ifs at he with hlast
      cases he
      obtain ⟨f,hf,hdec,hlast'⟩ := swap_decrement hij hr (hlast rfl) hm hg
      have hn' : (h,n) ∈ (bump s j p g).refs := List.mem_cons_of_mem _ hn
      refine ⟨f,hf,?_⟩
      simp only [handle]
      rw [if_pos hn',hdec,Option.bind_some,if_pos fun _ => hlast']
  | listDel ptr =>
    cases ptr with
    | null | errPtr e => simp [handle,access,answerQmem] at hu
    | obj n =>
      obtain ⟨q,hq,rfl⟩ := access_some.mp hu
      cases hq
      exact ⟨g,hg,rfl⟩
  | blockState ptr | blockSize ptr =>
    cases ptr with
    | null | errPtr e => simp [handle,access,answerQmem] at hu
    | obj n =>
      obtain ⟨q,hq,rfl⟩ := access_some.mp hu
      obtain ⟨c,hc,he⟩ := Option.map_eq_some_iff.mp hq
      cases he
      obtain ⟨d,hd,hstate,hsize⟩ := bump_size j hb hg hc
      refine ⟨g,hg,access_some.mpr ⟨_,?_,rfl⟩⟩
      simp only [answerQmem,hd,Option.map_some,hstate,hsize]
      rfl
  | stateFree n =>
    obtain ⟨hn,hu⟩ := unreferenced_some.mp hu
    obtain ⟨q,hq,rfl⟩ := access_some.mp hu
    obtain ⟨k,hk,he⟩ := Option.map_eq_some_iff.mp hq
    cases he
    have hne := ne_of_outstanding hm hn
    obtain ⟨f,hf,hgf⟩ := store_free hne hg hk
    refine ⟨f,hf,unreferenced_some.mpr ⟨bump_outstanding s j g hne hn,access_some.mpr
      ⟨_,?_,rfl⟩⟩⟩
    simp only [answerQmem,bump,withHeap,hgf,Option.map_some]
  | kfreeBlock ptr =>
    cases ptr with
    | null | errPtr e => simp [handle,access,answerQmem] at hu
    | obj n =>
      obtain ⟨hn,hu⟩ := unreferenced_some.mp hu
      obtain ⟨q,hq,rfl⟩ := access_some.mp hu
      obtain ⟨k,hk,he⟩ := Option.map_eq_some_iff.mp hq
      cases he
      have hne := ne_of_outstanding hm hn
      obtain ⟨f,hf,hgf⟩ := store_free hne hg hk
      refine ⟨f,hf,unreferenced_some.mpr ⟨bump_outstanding s j g hne hn,access_some.mpr
        ⟨_,?_,rfl⟩⟩⟩
      simp only [answerQmem,bump,withHeap,hgf,Option.map_some]
  | _ => exact hq.elim

def limited (s : Session t H) (m : ULong t) : Session t H :=
  { s with qmem := QuantumMemory.setMaxStore s.qmem m }

omit [DecidableEq H] in
theorem access_limited {o : AllocOutcome} {s u : Session t H} {op : KernelOp t} {x : op.Answer}
    (hq : Quiet (.inl op) x) (hu : access o s op = some (u,x)) (m : ULong t) :
    access o (limited s m) op = some (limited u m,x) := by
  obtain ⟨q,hans,rfl⟩ := access_some.mp hu
  refine access_some.mpr ⟨QuantumMemory.setMaxStore q m,?_,rfl⟩
  cases op with
  | kzallocBlock | stateAlloc n =>
    simp only [answerQmem] at hans
    split_ifs at hans with ho <;> cases hans <;> simp only [answerQmem,ho] <;> rfl
  | setBlock n c | stateFree n =>
    obtain ⟨k,hk,he⟩ := Option.map_eq_some_iff.mp hans
    cases he
    exact Option.map_eq_some_iff.mpr ⟨k,hk,rfl⟩
  | listAdd n | addTotal n | subTotal n =>
    cases hans
    rfl
  | listDel ptr =>
    cases ptr with
    | null | errPtr e => cases hans
    | obj n =>
      cases hans
      rfl
  | blockState ptr | blockSize ptr | kfreeBlock ptr =>
    cases ptr with
    | null | errPtr e => cases hans
    | obj n =>
      obtain ⟨k,hk,he⟩ := Option.map_eq_some_iff.mp hans
      cases he
      exact Option.map_eq_some_iff.mpr ⟨k,hk,rfl⟩
  | decAndTest ptr =>
    cases ptr with
    | null | errPtr e => cases hans
    | obj n =>
      obtain ⟨c,hc,hrest⟩ := Option.bind_eq_some_iff.mp hans
      obtain ⟨k,hk,he⟩ := Option.bind_eq_some_iff.mp hrest
      cases he
      exact Option.bind_eq_some_iff.mpr ⟨c,hc,Option.bind_eq_some_iff.mpr ⟨k,hk,rfl⟩⟩
  | _ => exact hq.elim

theorem decAndTest_limited {h : H} {s u : Session t H} {n : ℕ} {zero : Bool}
    (hu : s.decAndTest h n = some (u,zero)) (m : ULong t) :
    (limited s m).decAndTest h n = some (limited u m,zero) := by
  obtain ⟨⟨q,zero'⟩,hq,he⟩ := Option.map_eq_some_iff.mp hu
  cases he
  obtain ⟨c,hc,hrest⟩ := Option.bind_eq_some_iff.mp hq
  obtain ⟨k,hk,hk'⟩ := Option.bind_eq_some_iff.mp hrest
  cases hk'
  exact Option.map_eq_some_iff.mpr ⟨_,Option.bind_eq_some_iff.mpr
    ⟨c,hc,Option.bind_eq_some_iff.mpr ⟨k,hk,rfl⟩⟩,rfl⟩

/-- A new limit stored by another thread before a quiet access instead of after it. -/
theorem swap_setMax {h : H} {o : AllocOutcome} {s u : Session t H} {op : QmemOp t}
    {x : op.Answer} (hq : Quiet op x) (hu : handle h o s op = some (u,x)) (m : ULong t) :
    handle h o (limited s m) op = some (limited u m,x) := by
  rcases op with op | op
  swap
  · exact hq.elim
  cases op with
  | kzallocBlock | setBlock n c | stateFree n =>
    obtain ⟨hn,hu⟩ := unreferenced_some.mp hu
    exact unreferenced_some.mpr ⟨hn,access_limited hq hu m⟩
  | kfreeBlock ptr =>
    cases ptr with
    | null | errPtr e => exact access_limited hq hu m
    | obj n =>
      obtain ⟨hn,hu⟩ := unreferenced_some.mp hu
      exact unreferenced_some.mpr ⟨hn,access_limited hq hu m⟩
  | stateAlloc n | listAdd n | addTotal n | subTotal n | listDel n | blockState n | blockSize n =>
    exact access_limited hq hu m
  | decAndTest ptr =>
    cases ptr with
    | null | errPtr e => exact access_limited hq hu m
    | obj n =>
      obtain rfl : x = true := hq
      simp only [handle] at hu ⊢
      split_ifs at hu with hn
      obtain ⟨⟨r,zero⟩,hr,he⟩ := Option.bind_eq_some_iff.mp hu
      split_ifs at he with hlast
      cases he
      have hn' : (h,n) ∈ (limited s m).refs := hn
      have hlast' : outstanding (limited u m).refs n = 0 := hlast rfl
      rw [if_pos hn',decAndTest_limited hr m,Option.bind_some,if_pos fun _ => hlast']
  | _ => exact hq.elim

inductive OuterEffect (j : H) (s v : Session t H) : (op : QmemOp t) → op.Answer → Prop
  | allocated (hv : v = s) : OuterEffect j s v (.inl .allocatedQubits) s.qmem.allocatedQubits
  | max (hv : v = s) : OuterEffect j s v (.inl .maxQubits) s.qmem.maxQubits
  | get {p : ℕ} {b : QuantumMemoryBlock t} {g : Heap (Object t)} (hm : (j,p) ∈ s.refs)
      (hb : s.qmem.block p = some b) (hg : s.qmem.heap.store p (raised b) = some g)
      (hv : v = bump s j p g) : OuterEffect j s v (.inr (.incRefCount (.obj p))) ()
  | setMax (m : ULong t) (hv : v = limited s m) : OuterEffect j s v (.inr (.setMaxQubits m)) ()

theorem outer_effect {j : H} {o : AllocOutcome} {s v : Session t H} {op : QmemOp t}
    {y : op.Answer} (ho : Outer op) :
    handle j o s op = some (v,y) ↔ OuterEffect j s v op y := by
  constructor
  · intro h
    rcases op with op | op
    · cases op with
      | allocatedQubits =>
        cases h
        exact .allocated rfl
      | maxQubits =>
        cases h
        exact .max rfl
      | _ => exact ho.elim
    · cases op with
      | incRefCount ptr =>
        cases ptr with
        | null | errPtr e => cases h
        | obj p =>
          simp only [handle] at h
          split_ifs at h with hm
          obtain ⟨r,hr,he⟩ := Option.map_eq_some_iff.mp h
          cases he
          obtain ⟨b,g,hb,hg,hr⟩ := get_eq_some.mp hr
          exact .get hm hb hg hr
      | setMaxQubits m =>
        cases h
        exact .setMax m rfl
  · rintro (rfl | rfl | ⟨hm,hb,hg,rfl⟩ | ⟨m,rfl⟩)
    · rfl
    · rfl
    · simp only [handle]
      rw [if_pos hm,get_eq_some.mpr ⟨_,_,hb,hg,rfl⟩]
      rfl
    · rfl

theorem outer_swap {h j : H} (hij : h ≠ j) {o o' : AllocOutcome} {s u v : Session t H}
    {op op' : QmemOp t} {x : op.Answer} {y : op'.Answer} (hq : Quiet op x) (ho : Outer op')
    (hu : handle h o s op = some (u,x)) (hv : handle j o' s op' = some (v,y)) :
    ∃ w, handle j o' u op' = some (w,y) ∧ handle h o v op = some (w,x) := by
  have hframe := quiet_frame hq hu
  have heffect := (outer_effect ho).mp hv
  cases heffect with
  | allocated hvs =>
    refine ⟨u,?_,by rw [hvs]; exact hu⟩
    rw [← hframe.allocated]
    exact (outer_effect ho).mpr (.allocated rfl)
  | max hvs =>
    refine ⟨u,?_,by rw [hvs]; exact hu⟩
    rw [← hframe.max]
    exact (outer_effect ho).mpr (.max rfl)
  | @get p b g hm hb hg hvs =>
    obtain ⟨f,hf,hswap⟩ := swap_get hij hq hu hm hb hg
    have hm' := (hframe.refs j hij.symm p).mpr hm
    have hb' : u.qmem.block p = some b := by rw [hframe.block j hij.symm p hm',hb]
    exact ⟨_,(outer_effect ho).mpr (.get hm' hb' hf rfl),by rw [hvs]; exact hswap⟩
  | setMax m hvs =>
    exact ⟨_,(outer_effect ho).mpr (.setMax m rfl),by rw [hvs]; exact swap_setMax hq hu m⟩

theorem outer_back {h j : H} (hij : h ≠ j) {o o' : AllocOutcome} {s u w : Session t H}
    {op op' : QmemOp t} {x : op.Answer} {y : op'.Answer} (hq : Quiet op x) (ho : Outer op')
    (hu : handle h o s op = some (u,x)) (hw : handle j o' u op' = some (w,y)) :
    ∃ r, handle j o' s op' = some r := by
  have hframe := quiet_frame hq hu
  have heffect := (outer_effect ho).mp hw
  cases heffect with
  | allocated _ => exact ⟨_,(outer_effect ho).mpr (.allocated rfl)⟩
  | max _ => exact ⟨_,(outer_effect ho).mpr (.max rfl)⟩
  | @get p b g hm hb hg _ =>
    have hm' := (hframe.refs j hij.symm p).mp hm
    have hb' : s.qmem.block p = some b := by rw [← hframe.block j hij.symm p hm,hb]
    obtain ⟨g',hg'⟩ := store_live (QuantumMemory.block_eq_some.mp hb') (raised b)
    exact ⟨_,(outer_effect ho).mpr (.get hm' hb' hg' rfl)⟩
  | setMax m _ => exact ⟨_,(outer_effect ho).mpr (.setMax m rfl)⟩

/-- The limit, the counts and `allocated_qubits` are all that sections and other
threads share, and only one access of a section changes what others find there. -/
theorem qmem_commuting : Commuting (qmemInterface : Interface (Session t H) H (QmemCall t)
    LockName (QmemOp t) QmemOp.Answer QmemAnswer) handle Outer Quiet where
  swap hij hq ho hu hv := outer_swap hij hq ho hu hv
  back hij hq ho hu hw := outer_back hij hq ho hu hw
  may_iff := by
    intro i j e s u op x c hij hq hu
    have hrefs := (quiet_frame hq hu).refs j hij.symm
    have hholds : ∀ block, holds u.refs j block ↔ holds s.refs j block := by
      intro block
      cases block with
      | null | errPtr e => rfl
      | obj p => exact hrefs p
    cases c with
    | free block | get block | put block => exact hholds block
    | alloc n flags | setMaxQubits m => rfl
  fits_iff := by
    intro i j e s u op op' x hij hq hu
    have hfew := (quiet_frame hq hu).few
    rcases op' with op' | op'
    · rfl
    · cases op' with
      | incRefCount ptr =>
        cases ptr with
        | null | errPtr e => rfl
        | obj p => exact hfew p
      | setMaxQubits m => rfl

end CtrlxtKernel.KernelThreads
