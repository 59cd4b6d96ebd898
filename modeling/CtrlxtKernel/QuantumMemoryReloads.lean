import CtrlxtKernel.QuantumMemorySerial

/-!
# Loading, using and unloading the memory manager

While the module is loaded the live objects are the pool, the blocks of the used
list and a state for each of them. A block goes either with its last reference
or with the module; the references that callers still hold are then void.
-/

set_option autoImplicit false

namespace CtrlxtKernel.QuantumMemory
open MachineInt ObjectHeap RefLedger StepMachine

variable {t : Target} {H : Type*}

/-- The pool is live, and nothing is live that is neither the pool nor a listed
block nor the state of one. -/
structure Pooled (q : CtrlxtQmem t) : Prop where
  pool : ∃ i size, q.memoryPool = some i ∧ q.heap.cells i = some (.pool size)
  only : ∀ i, (q.heap.cells i).isSome → q.memoryPool = some i ∨ i ∈ q.usedBlocks ∨
    ∃ p b, q.block p = some b ∧ b.state = some i

theorem pooled_same {q r : CtrlxtQmem t} (hq : Pooled q) (hc : r.heap.cells = q.heap.cells)
    (hu : r.usedBlocks = q.usedBlocks) (hp : r.memoryPool = q.memoryPool) : Pooled r := by
  constructor
  · rw [hp,hc]
    exact hq.pool
  · rw [hp,hc,hu,block_same hc]
    exact hq.only

theorem pooled_recount {q : CtrlxtQmem t} (hq : Pooled q) {p : ℕ} {b : QuantumMemoryBlock t}
    {c : CInt} (hb : q.block p = some b) {k : Heap (Object t)}
    (hc : k.cells = Function.update q.heap.cells p (some (.block { b with refCount := c }))) :
    Pooled (withHeap q k) := by
  have hr := withHeap_block hc
  have hcp := block_eq_some.mp hb
  constructor
  · obtain ⟨i,size,hi,hpool⟩ := hq.pool
    have hip : i ≠ p := cells_ne hpool hcp (by simp)
    refine ⟨i,size,hi,?_⟩
    show k.cells i = _
    rw [hc,Function.update_of_ne hip,hpool]
  · intro i hi
    have hlive : (q.heap.cells i).isSome := by
      by_cases hip : i = p
      · rw [hip,hcp]
        rfl
      · rwa [withHeap,hc,Function.update_of_ne hip] at hi
    refine (hq.only i hlive).imp_right (Or.imp_right ?_)
    rintro ⟨r,d,hd,hds⟩
    rw [hr]
    by_cases hrp : r = p
    · subst hrp
      obtain rfl : b = d := Option.some.inj (hb.symm.trans hd)
      exact ⟨r,_,Function.update_self ..,hds⟩
    · exact ⟨r,d,by rw [Function.update_of_ne hrp,hd],hds⟩

theorem pooled_withBlock {q : CtrlxtQmem t} (hq : Pooled q) {k : Heap (Object t)}
    {n flags : ULong t} (hc : k.cells = Function.update
        (Function.update q.heap.cells (q.heap.next+1) (some (.state n)))
        q.heap.next (some (.block (newBlock q n flags)))) : Pooled (withBlock q k n) := by
  have hr := withBlock_block hc
  constructor
  · obtain ⟨i,size,hi,hpool⟩ := hq.pool
    have hlt := lt_next hpool
    refine ⟨i,size,hi,?_⟩
    show k.cells i = _
    rw [hc,Function.update_of_ne (by omega),Function.update_of_ne (by omega),hpool]
  · intro i hi
    rw [hr]
    by_cases hin : i = q.heap.next
    · exact Or.inr (Or.inl (hin ▸ List.mem_cons_self))
    · by_cases his : i = q.heap.next+1
      · exact Or.inr (Or.inr ⟨q.heap.next,_,Function.update_self ..,congrArg some his.symm⟩)
      · have hlive : (q.heap.cells i).isSome := by
          rwa [withBlock,hc,Function.update_of_ne hin,Function.update_of_ne his] at hi
        refine (hq.only i hlive).imp_right (Or.imp (List.mem_cons_of_mem _) ?_)
        rintro ⟨p,d,hd,hds⟩
        have hlt := lt_next (block_eq_some.mp hd)
        exact ⟨p,d,by rw [Function.update_of_ne (by omega),hd],hds⟩

theorem pooled_withoutBlock {q : CtrlxtQmem t} (hl : Listed q) (hq : Pooled q)
    {k : Heap (Object t)} {p s : ℕ} {b : QuantumMemoryBlock t} (hb : q.block p = some b)
    (hs : b.state = some s)
    (hc : k.cells = Function.update (Function.update q.heap.cells s none) p none) :
    Pooled (withoutBlock q k p b.size) := by
  obtain ⟨u,hu,hcs⟩ := hl.state p b hb
  obtain rfl : u = s := Option.some.inj (hu.symm.trans hs)
  have hr : (withoutBlock q k p b.size).block = Function.update q.block p none :=
    withoutBlock_block hcs hc
  have hcp := block_eq_some.mp hb
  constructor
  · obtain ⟨i,size,hi,hpool⟩ := hq.pool
    have hip : i ≠ p := cells_ne hpool hcp (by simp)
    have hiu : i ≠ u := cells_ne hpool hcs (by simp)
    refine ⟨i,size,hi,?_⟩
    show k.cells i = _
    rw [hc,Function.update_of_ne hip,Function.update_of_ne hiu,hpool]
  · intro i hi
    have hlive : i ≠ p ∧ i ≠ u ∧ (q.heap.cells i).isSome := by
      rw [withoutBlock,hc] at hi
      by_cases hip : i = p
      · simp [hip] at hi
      · rw [Function.update_of_ne hip] at hi
        by_cases hiu : i = u
        · simp [hiu] at hi
        · rw [Function.update_of_ne hiu] at hi
          exact ⟨hip,hiu,hi⟩
    obtain ⟨hip,hiu,hlive⟩ := hlive
    refine (hq.only i hlive).imp_right (Or.imp ?_ ?_)
    · exact (List.mem_erase_of_ne hip).mpr
    · rintro ⟨r,d,hd,hds⟩
      have hrp : r ≠ p := by
        rintro rfl
        obtain rfl : b = d := Option.some.inj (hb.symm.trans hd)
        exact hiu (Option.some.inj (hds.symm.trans hs))
      exact ⟨r,d,by rw [hr,Function.update_of_ne hrp,hd],hds⟩

theorem releaseBlocks_live {q : CtrlxtQmem t} (hl : Listed q) (hq : Pooled q) :
    ∃ k, releaseBlocks q.heap q.usedBlocks = some k ∧
      ∀ i, (k.cells i).isSome ↔ q.memoryPool = some i := by
  generalize hu : q.usedBlocks = ps
  induction ps generalizing q with
  | nil =>
    have hnone : ∀ p, q.block p = none := by
      intro p
      have hmem := (hl.mem p).not.mp (by simp [hu])
      simpa using hmem
    refine ⟨q.heap,rfl,fun i => ⟨fun hi => ?_,fun hi => ?_⟩⟩
    · simpa [hu,hnone] using hq.only i hi
    · obtain ⟨j,size,hj,hpool⟩ := hq.pool
      obtain rfl : i = j := Option.some.inj (hi.symm.trans hj)
      rw [hpool]
      rfl
  | cons p ps ih =>
    obtain ⟨b,hb⟩ := Option.isSome_iff_exists.mp ((hl.mem p).mp (by simp [hu]))
    obtain ⟨k,s,hs,hk,hc,-⟩ := releaseBlock_live hl hb
    have hrest : (withoutBlock q k p b.size).usedBlocks = ps := by
      show q.usedBlocks.erase p = ps
      rw [hu,List.erase_cons_head]
    obtain ⟨h,hh,hpool⟩ := ih (listed_withoutBlock hl hb hs hc) (pooled_withoutBlock hl hq hb hs hc)
      hrest
    exact ⟨h,by rw [releaseBlocks,hk]; exact hh,hpool⟩

theorem qmemExit_live {q : CtrlxtQmem t} (hl : Listed q) (hq : Pooled q) :
    ∃ r, qmemExit q = some r ∧ ∀ i, r.heap.cells i = none := by
  obtain ⟨k,hk,hlive⟩ := releaseBlocks_live hl hq
  obtain ⟨i,-,hi,-⟩ := hq.pool
  obtain ⟨a,ha⟩ := Option.isSome_iff_exists.mp ((hlive i).mpr hi)
  obtain ⟨h,hh⟩ := free_live ha
  obtain ⟨-,hc,-⟩ := free_spec hh
  refine ⟨{ q with heap := h, usedBlocks := [] },?_,fun j => ?_⟩
  · simp only [qmemExit,hk,hi,hh,Option.bind_eq_bind,Option.bind_some]
  · show h.cells j = none
    rw [hc]
    by_cases hj : j = i
    · rw [hj,Function.update_self]
    · rw [Function.update_of_ne hj,← Option.not_isSome_iff_eq_none,hlive]
      exact fun hm => hj (Option.some.inj (hm.symm.trans hi))

theorem alloc_failed {q r : CtrlxtQmem t} {n flags : ULong t} {o : AllocOutcome} {e : ℤ}
    (h : ctrlxtQmemAlloc q n flags o = some (r,.errPtr e)) :
    r = withHeap q r.heap ∧ r.heap.cells = q.heap.cells := by
  rcases ctrlxtQmemAlloc_live q n flags o with ⟨k,e,hk,hc⟩ | ⟨-,k,hk,-⟩
  · cases hk.symm.trans h
    exact ⟨rfl,hc⟩
  · cases hk.symm.trans h

theorem alloc_pooled {q r : CtrlxtQmem t} (hq : Pooled q) {n flags : ULong t}
    {o : AllocOutcome} {p : Ptr} (h : ctrlxtQmemAlloc q n flags o = some (r,p)) : Pooled r := by
  rcases ctrlxtQmemAlloc_live q n flags o with ⟨k,e,hk,hc⟩ | ⟨-,k,hk,hc⟩
  · cases hk.symm.trans h
    exact pooled_same hq hc rfl rfl
  · cases hk.symm.trans h
    exact pooled_withBlock hq hc

theorem get_pooled {q r : CtrlxtQmem t} (hq : Pooled q) {p : ℕ} {v : Ptr}
    (h : ctrlxtQmemGet q (.obj p) = some (r,v)) : Pooled r := by
  obtain ⟨b,hb,-⟩ := Option.bind_eq_some_iff.mp h
  obtain ⟨k,hk,hc,-⟩ := ctrlxtQmemGet_live hb
  rw [hk] at h
  cases h
  exact pooled_recount hq hb hc

theorem free_pooled {q r : CtrlxtQmem t} (hl : Listed q) (hq : Pooled q) {p : ℕ}
    (h : ctrlxtQmemFree q (.obj p) = some r) : Pooled r := by
  obtain ⟨m,hm,-⟩ := Option.bind_eq_some_iff.mp h
  obtain ⟨b,hb,-⟩ := Option.bind_eq_some_iff.mp hm
  obtain ⟨k,hk,hc,hb'⟩ := ctrlxtQmemFree_live hb
  have hpool := pooled_recount hq hb hc
  rw [hk] at h
  split_ifs at h
  · have hlist := listed_recount hl hb hc
    obtain ⟨g,s,hs,hg,hgc,-⟩ := destroyBlock_live hlist hb'
    rw [hg] at h
    cases h
    exact pooled_withoutBlock hlist hpool hb' hs hgc
  · cases h
    exact hpool

theorem grant_qmem (s : Session t H) (h : H) (q : CtrlxtQmem t) (p : Ptr) :
    (s.grant h q p).qmem = q := by
  cases p <;> rfl

structure Fitting (s : Session t H) : Prop where
  held : Held none s
  fit : ∀ p, outstanding s.refs p < 2^32+1

def GetFits (s : Session t H) : SerialCall t H → Prop
  | .get _ p => outstanding s.refs p < 2^32
  | _ => True

theorem alloc_fitting {s : Session t H} (hs : Fitting s) (h : H) (n flags : ULong t)
    (o : AllocOutcome) : ∃ r, s.alloc h n flags o = some r ∧ Fitting r := by
  by_cases ht : allocTests s.qmem n < 0
  · refine ⟨s,?_,hs⟩
    rw [Session.alloc,ctrlxtQmemAlloc,if_pos ht]
    rfl
  · have hlocked : s.alloc h n flags o = s.allocLocked h n flags o := by
      rw [Session.alloc,ctrlxtQmemAlloc,if_neg ht]
      rfl
    rw [hlocked]
    by_cases ho : o = ⟨true,true⟩
    · obtain ⟨k,hk,hh,-⟩ := allocLocked_granted hs.held h flags (allocTests_pass ht).1
      have hf := granting_fresh hs.held
      exact ⟨_,by rw [ho]; exact hk,hh,outstanding_cons_lt hs.fit h (by omega)⟩
    · obtain ⟨r,hr,hk,hrefs,-⟩ := allocLocked_refused hs.held h n flags ho
      exact ⟨r,hr,hk.held,by rw [hrefs]; exact hs.fit⟩

section Calls

variable [DecidableEq H]

theorem call_pooled {s r : Session t H} (hl : Listed s.qmem) (hq : Pooled s.qmem)
    {l : SerialCall t H} (h : serial.step s l = some r) : Pooled r.qmem := by
  cases l with
  | alloc c n flags o =>
    obtain ⟨⟨q,p⟩,ha,rfl⟩ := Option.map_eq_some_iff.mp h
    rw [grant_qmem]
    exact alloc_pooled hq ha
  | get c p =>
    obtain ⟨⟨q,v⟩,hg,rfl⟩ := Option.map_eq_some_iff.mp h
    exact get_pooled hq hg
  | put c p | free c p =>
    obtain ⟨q,hf,rfl⟩ := Option.map_eq_some_iff.mp h
    exact free_pooled hl hq hf
  | setMaxQubits m =>
    cases h
    show Pooled (ctrlxtQmemSetMaxQubits s.qmem m).1
    unfold ctrlxtQmemSetMaxQubits
    split_ifs
    · exact hq
    · exact pooled_same hq rfl rfl rfl

theorem free_fitting {s : Session t H} (hs : Fitting s) {h : H} {p : ℕ} (hm : (h,p) ∈ s.refs) :
    ∃ r, s.free h p = some r ∧ Fitting r := by
  obtain ⟨r,hr,hk,hrefs,-⟩ := free_kept hs.held hm (Nat.lt_succ_iff.mp (hs.fit p))
  refine ⟨r,hr,hk.held,?_⟩
  rw [hrefs]
  exact outstanding_erase_lt hs.fit hm

theorem call_fitting {s : Session t H} (hs : Fitting s) {l : SerialCall t H}
    (he : serial.enabled s l) (hf : GetFits s l) :
    ∃ r, serial.step s l = some r ∧ Fitting r := by
  cases l with
  | alloc h n flags o => exact alloc_fitting hs h n flags o
  | get h p =>
    have hp : outstanding s.refs p < 2^32 := hf
    obtain ⟨r,hr,hk,hrefs,-⟩ := get_kept hs.held he
    refine ⟨r,hr,hk.held,?_⟩
    rw [hrefs]
    exact outstanding_cons_lt hs.fit h (by omega)
  | put h p | free h p => exact free_fitting hs he
  | setMaxQubits m =>
    refine ⟨_,rfl,?_⟩
    unfold ctrlxtQmemSetMaxQubits
    split_ifs with ht
    · exact hs
    · exact ⟨(setMax_kept hs.held he (by simpa using ht)).held,hs.fit⟩

end Calls

structure QmemModule (t : Target) (H : Type*) where
  loaded : Bool
  session : Session t H

def notLoaded : QmemModule t H := ⟨false,Session.start CtrlxtQmem.static⟩

inductive ModuleCall (t : Target) (H : Type*) where
  | load (kzalloc : Bool)
  | unload
  | call (l : SerialCall t H)

/-- Only a module that is not loaded can be loaded, and only a loaded one is called
or unloaded. A load that fails leaves it not loaded; no reference survives an unload. -/
def reloads [DecidableEq H] : Machine (QmemModule t H) (ModuleCall t H) where
  enabled m
    | .load _ => m.loaded = false
    | .unload => m.loaded = true
    | .call l => m.loaded = true ∧ serial.enabled m.session l
  step m
    | .load kzalloc =>
      let (q,ret) := ctrlxtQmemInit m.session.qmem kzalloc
      some ⟨ret = 0,Session.start q⟩
    | .unload => (qmemExit m.session.qmem).map fun q => ⟨false,Session.start q⟩
    | .call l => (serial.step m.session l).map fun s => ⟨true,s⟩

def CallFits (m : QmemModule t H) : ModuleCall t H → Prop
  | .call l => GetFits m.session l
  | _ => True

instance [DecidableEq H] (m : QmemModule t H) :
    (l : ModuleCall t H) → Decidable (reloads.enabled m l)
  | .load _ => inferInstanceAs (Decidable (m.loaded = false))
  | .unload => inferInstanceAs (Decidable (m.loaded = true))
  | .call l => inferInstanceAs (Decidable (m.loaded = true ∧ serial.enabled m.session l))

instance (s : Session t H) : (l : SerialCall t H) → Decidable (GetFits s l)
  | .get _ p => inferInstanceAs (Decidable (outstanding s.refs p < 2^32))
  | .alloc _ _ _ _ | .put _ _ | .free _ _ | .setMaxQubits _ => inferInstanceAs (Decidable True)

instance (m : QmemModule t H) : (l : ModuleCall t H) → Decidable (CallFits m l)
  | .call l => inferInstanceAs (Decidable (GetFits m.session l))
  | .load _ | .unload => inferInstanceAs (Decidable True)

/-- What is live, loaded or not. An object that is gone has been freed exactly once. -/
structure Owns (m : QmemModule t H) : Prop where
  loaded : m.loaded = true → Listed m.session.qmem ∧ Pooled m.session.qmem
  unloaded : m.loaded = false → ∀ i, m.session.qmem.heap.cells i = none
  once : ∀ i, m.session.qmem.heap.freed.count i =
    if i < m.session.qmem.heap.next ∧ m.session.qmem.heap.cells i = none then 1 else 0

structure Managed (m : QmemModule t H) : Prop where
  loaded : m.loaded = true → Fitting m.session ∧ Pooled m.session.qmem
  unloaded : m.loaded = false → ∀ i, m.session.qmem.heap.cells i = none

theorem Managed.owns {m : QmemModule t H} (hm : Managed m) : Owns m where
  loaded h := ⟨(hm.loaded h).1.held.listed,(hm.loaded h).2⟩
  unloaded := hm.unloaded
  once := m.session.qmem.heap.once

theorem start_fitting {q : CtrlxtQmem t} (hb : ∀ p, q.block p = none) (hu : q.usedBlocks = []) :
    Fitting (Session.start q : Session t H) :=
  ⟨held_start hb hu,fun _ => Nat.zero_lt_succ _⟩

theorem init_live {q : CtrlxtQmem t} (hq : ∀ i, q.heap.cells i = none) :
    (∀ p, (ctrlxtQmemInit q true).1.block p = none) ∧ Pooled (ctrlxtQmemInit q true).1 := by
  have hcells : (ctrlxtQmemInit q true).1.heap.cells =
      Function.update q.heap.cells q.heap.next (some (.pool (BitVec.ofNat t.width qmemPoolSize))) :=
    rfl
  refine ⟨fun p => ?_,⟨_,_,rfl,by rw [hcells,Function.update_self]⟩,fun i hi => ?_⟩
  · rw [CtrlxtQmem.block,hcells]
    by_cases hp : p = q.heap.next
    · rw [hp,Function.update_self]
      rfl
    · rw [Function.update_of_ne hp,hq]
      rfl
  · by_cases hp : i = q.heap.next
    · exact Or.inl (congrArg some hp.symm)
    · rw [hcells,Function.update_of_ne hp,hq] at hi
      cases hi

theorem load_managed {q : CtrlxtQmem t} (hq : ∀ i, q.heap.cells i = none) (kzalloc : Bool) :
    Managed (⟨(ctrlxtQmemInit q kzalloc).2 = 0,Session.start (ctrlxtQmemInit q kzalloc).1⟩ :
      QmemModule t H) := by
  cases kzalloc with
  | false =>
    have hne : -enomem ≠ 0 := by decide
    exact ⟨fun h => absurd (of_decide_eq_true h) hne,fun _ => hq⟩
  | true =>
    obtain ⟨hblock,hpool⟩ := init_live hq
    exact ⟨fun _ => ⟨start_fitting hblock rfl,hpool⟩,fun h => by cases h⟩

theorem notLoaded_managed : Managed (notLoaded : QmemModule t H) :=
  ⟨fun h => absurd h Bool.false_ne_true,fun _ _ => rfl⟩

variable [DecidableEq H]

theorem reload_step {m : QmemModule t H} (hm : Managed m) {l : ModuleCall t H}
    (he : (reloads.restrict CallFits).enabled m l) :
    ∃ r, (reloads.restrict CallFits).step m l = some r ∧ Managed r := by
  obtain ⟨he,hf⟩ : reloads.enabled m l ∧ CallFits m l := he
  cases l with
  | load kzalloc => exact ⟨_,rfl,load_managed (hm.unloaded he) kzalloc⟩
  | unload =>
    obtain ⟨hfit,hpool⟩ := hm.loaded he
    obtain ⟨q,hq,hgone⟩ := qmemExit_live hfit.held.listed hpool
    exact ⟨⟨false,Session.start q⟩,congrArg (Option.map _) hq,
      fun h => absurd h Bool.false_ne_true,fun _ => hgone⟩
  | call l =>
    obtain ⟨hfit,hpool⟩ := hm.loaded he.1
    obtain ⟨s,hs,hsf⟩ := call_fitting hfit he.2 hf
    exact ⟨⟨true,s⟩,congrArg (Option.map _) hs,fun _ => ⟨hsf,call_pooled hfit.held.listed hpool hs⟩,
      fun h => absurd h.symm Bool.false_ne_true⟩

/-- Across loads and unloads the live objects are the pool, the listed blocks and
their states, no permitted call touches a dead object, and an allocation that
fails changes nothing, as long as no block has more than `2^32` references at once. -/
theorem reloads_own {m : QmemModule t H} {ls : List (ModuleCall t H)}
    (h : Run (reloads.restrict CallFits) notLoaded ls m) :
    Owns m ∧ (∀ l, (reloads.restrict CallFits).enabled m l → ∃ r, reloads.step m l = some r) ∧
      ∀ n flags o q e, ctrlxtQmemAlloc m.session.qmem n flags o = some (q,.errPtr e) →
        q = withHeap m.session.qmem q.heap ∧ q.heap.cells = m.session.qmem.heap.cells := by
  have hm : Managed m := by
    apply h.sound (I := Managed)
    · exact fun m l hm he => reload_step hm he
    · exact notLoaded_managed
  refine ⟨hm.owns,fun l he => ?_,fun n flags o q e ha => alloc_failed ha⟩
  obtain ⟨r,hr,-⟩ := reload_step hm he
  exact ⟨r,hr⟩

/-- Two blocks, a failed load and a failed allocation, an unload with a reference
outstanding, and a second life of the module. -/
theorem reloads_own_twice :
    ∃ m, Run (reloads.restrict CallFits) (notLoaded : QmemModule .bits64 ℕ)
      [.load false,.load true,.call (.alloc 0 5 0 ⟨true,true⟩),.call (.alloc 1 3 0 ⟨true,true⟩),
        .call (.alloc 1 3 0 ⟨true,false⟩),.call (.get 1 3),.call (.put 0 1),.call (.free 1 3),
        .unload,.load true,.call (.alloc 0 64 0 ⟨true,true⟩)] m ∧
      Owns m ∧ (∀ l, (reloads.restrict CallFits).enabled m l → ∃ r, reloads.step m l = some r) ∧
      ∀ n flags o q e, ctrlxtQmemAlloc m.session.qmem n flags o = some (q,.errPtr e) →
        q = withHeap m.session.qmem q.heap ∧ q.heap.cells = m.session.qmem.heap.cells := by
  have h : ∃ m, Run (reloads.restrict CallFits) (notLoaded : QmemModule .bits64 ℕ)
      [.load false,.load true,.call (.alloc 0 5 0 ⟨true,true⟩),.call (.alloc 1 3 0 ⟨true,true⟩),
        .call (.alloc 1 3 0 ⟨true,false⟩),.call (.get 1 3),.call (.put 0 1),.call (.free 1 3),
        .unload,.load true,.call (.alloc 0 64 0 ⟨true,true⟩)] m := ⟨_,run_iff_exec.mpr rfl⟩
  obtain ⟨m,hm⟩ := h
  exact ⟨m,hm,reloads_own hm⟩

theorem calls_run {s r : Session t H} {ls : List (SerialCall t H)} (h : Run serial s ls r) :
    Run reloads ⟨true,s⟩ (ls.map .call) ⟨true,r⟩ := by
  induction h with
  | nil s => exact .nil _
  | cons he hs _ ih => exact .cons ⟨rfl,he⟩ (congrArg (Option.map _) hs) ih

theorem put_destroys {s : Session t H} (hl : Listed s.qmem) {h : H} {p : ℕ}
    {b : QuantumMemoryBlock t} (hb : s.qmem.block p = some b) (hc : b.refCount = 1) :
    ∃ r, s.put h p = some r ∧ r.qmem.block p = none ∧ r.refs = s.refs.erase (h,p) := by
  obtain ⟨k,hk,hkc,hb'⟩ := ctrlxtQmemFree_live hb
  have hlist := listed_recount hl hb hkc
  obtain ⟨g,i,hi,hg,hgc,-⟩ := destroyBlock_live hlist hb'
  obtain ⟨u,hu,hcu⟩ := hlist.state p _ hb'
  obtain rfl : u = i := Option.some.inj (hu.symm.trans hi)
  have hgone : (withoutBlock (withHeap s.qmem k) g p b.size).block p = none := by
    rw [withoutBlock_block hcu hgc,Function.update_self]
  have hzero : b.refCount-1 = 0 := by rw [hc]; rfl
  refine ⟨⟨_,s.refs.erase (h,p),s.granted⟩,?_,hgone,rfl⟩
  rw [put_eq_free,Session.free,hk,if_pos hzero,hg]
  rfl

/-- After `2^32` further references to a new block its count is one again, the first
put destroys it, and the next one touches a dead block. -/
theorem reloads_overflow :
    ∃ m, Run reloads (notLoaded : QmemModule .bits64 Unit)
      (.load true::.call (.alloc () 1 0 ⟨true,true⟩)::
        ((List.replicate (2^32) (.get () 1)).map .call++[.call (.put () 1)])) m ∧
      reloads.enabled m (.call (.put () 1)) ∧ reloads.step m (.call (.put () 1)) = none := by
  have h : ∃ r : Session .bits64 Unit,
      serial.step loaded (.alloc () 1 0 ⟨true,true⟩) = some r ∧ ((),1) ∈ r.refs ∧
      ∃ b, r.qmem.block 1 = some b ∧ b.refCount = 1 :=
    ⟨_,rfl,.head _,_,rfl,rfl⟩
  obtain ⟨r,hr,hm,b,hb,hc⟩ := h
  have hlisted : Listed r.qmem := by
    obtain ⟨r',hr',hs⟩ := alloc_sound loaded_sound () 1 0 ⟨true,true⟩
    obtain rfl : r' = r := Option.some.inj (hr'.symm.trans hr)
    exact hs.held.listed
  obtain ⟨s,c,hs,-,hcb,hcount,hlist,hrefs⟩ := gets_run hm hb (2^32)
  have hone : c.refCount = 1 := by
    rw [hcount,hc]
    rfl
  obtain ⟨u,hu,hgone,hurefs⟩ := put_destroys (h := ()) (hlist hlisted) hcb hone
  have hmore : ∀ n, ((),1) ∈ (List.replicate (n+1) ((),1)++r.refs).erase ((),1) := by
    intro n
    rw [List.replicate_succ,List.cons_append,List.erase_cons_head]
    exact List.mem_append_right _ hm
  have hheld : ((),1) ∈ u.refs := by
    rw [hurefs,hrefs]
    exact hmore (2^32-1)
  have hput : ((),1) ∈ s.refs := by
    rw [hrefs]
    exact List.mem_append_right _ hm
  have hnext : u.put () 1 = none := by
    simp [Session.put,ctrlxtQmemPut,ctrlxtQmemFree,atomicDecAndTest,hgone]
  refine ⟨⟨true,u⟩,?_,⟨rfl,hheld⟩,congrArg (Option.map _) hnext⟩
  have hlast : Run reloads ⟨true,s⟩ [.call (.put () 1)] ⟨true,u⟩ :=
    .cons ⟨rfl,hput⟩ (congrArg (Option.map _) hu) (.nil _)
  have hload : reloads.step (notLoaded : QmemModule .bits64 Unit) (.load true) =
    some ⟨true,loaded⟩ := rfl
  exact .cons rfl hload (.cons ⟨rfl,trivial⟩ (congrArg (Option.map _) hr)
    ((calls_run hs).append hlast))

end CtrlxtKernel.QuantumMemory
