import CtrlxtKernel.QuantumMemory

/-!
# What each operation does to the blocks

The used list names exactly the live blocks, each once, and each block owns a
live quantum state of its own. One lemma for each outcome of an operation says
what becomes of the heap; the blocks follow from it, and the invariant from
the blocks.
-/

set_option autoImplicit false

namespace CtrlxtKernel.QuantumMemory
open MachineInt ObjectHeap

variable {t : Target}

structure Listed (q : CtrlxtQmem t) : Prop where
  nodup : q.usedBlocks.Nodup
  mem : ∀ p, p ∈ q.usedBlocks ↔ (q.block p).isSome
  state : ∀ p b, q.block p = some b →
    ∃ s, b.state = some s ∧ q.heap.cells s = some (.state b.size)
  owner : ∀ p r b c, q.block p = some b → q.block r = some c → b.state = c.state → p = r
  size : ∀ p b, q.block p = some b →
    1 ≤ b.size.toNat ∧ b.size.toNat ≤ qmemMaxQubitsPerBlock

theorem block_eq_some {q : CtrlxtQmem t} {p : ℕ} {b : QuantumMemoryBlock t} :
    q.block p = some b ↔ q.heap.cells p = some (.block b) := by
  unfold CtrlxtQmem.block
  cases q.heap.cells p with
  | none => simp [asBlock]
  | some a => cases a <;> simp [asBlock]

theorem state_ne_block {q : CtrlxtQmem t} {p s : ℕ} {b : QuantumMemoryBlock t} {n : ULong t}
    (hb : q.block p = some b) (hs : q.heap.cells s = some (.state n)) : s ≠ p :=
  cells_ne hs (block_eq_some.mp hb) (by simp)

theorem block_fresh (q : CtrlxtQmem t) {p : ℕ} (hp : q.heap.next ≤ p) : q.block p = none := by
  simp [CtrlxtQmem.block,q.heap.fresh p hp,asBlock]

def newBlock (q : CtrlxtQmem t) (numQubits flags : ULong t) : QuantumMemoryBlock t :=
  ⟨some (q.heap.next+1),numQubits,flags,1⟩

def withHeap (q : CtrlxtQmem t) (k : Heap (Object t)) : CtrlxtQmem t := { q with heap := k }

def withBlock (q : CtrlxtQmem t) (k : Heap (Object t)) (numQubits : ULong t) : CtrlxtQmem t :=
  { q with
    heap := k
    usedBlocks := q.heap.next::q.usedBlocks
    totalQubits := q.totalQubits+narrow numQubits
    allocatedQubits := q.allocatedQubits+narrow numQubits }

def withoutBlock (q : CtrlxtQmem t) (k : Heap (Object t)) (p : ℕ) (size : ULong t) :
    CtrlxtQmem t :=
  { q with
    heap := k
    usedBlocks := q.usedBlocks.erase p
    totalQubits := q.totalQubits-narrow size
    allocatedQubits := q.allocatedQubits-narrow size }

theorem allocLocked_success (q : CtrlxtQmem t) (n flags : ULong t) :
    ∃ k, allocLocked q n flags ⟨true,true⟩ = some (withBlock q k n,.obj q.heap.next) ∧
      k.cells = Function.update
        (Function.update q.heap.cells (q.heap.next+1) (some (.state n)))
        q.heap.next (some (.block (newBlock q n flags))) ∧
      k.next = q.heap.next+2 := by
  let h := (q.heap.alloc (.block zeroedBlock)).alloc (.state n)
  have hlive : h.cells q.heap.next = some (.block zeroedBlock) := by
    simp [h]
  obtain ⟨k,hk⟩ := store_live hlive (.block (newBlock q n flags))
  obtain ⟨hc,hn,-⟩ := store_spec hk
  refine ⟨k,?_,?_,?_⟩
  · change (h.store q.heap.next (.block (newBlock q n flags))).bind _ = _
    rw [hk]
    rfl
  · rw [hc]
    simp only [h,alloc_cells,alloc_next]
    rw [Function.update_comm (by omega),Function.update_idem,Function.update_comm (by omega)]
  · simp [hn,h]

theorem allocLocked_failure (q : CtrlxtQmem t) (n flags : ULong t) {o : AllocOutcome}
    (ho : o ≠ ⟨true,true⟩) :
    ∃ k, allocLocked q n flags o = some (withHeap q k,.errPtr (-enomem)) ∧
      k.cells = q.heap.cells ∧ q.heap.next ≤ k.next := by
  obtain ⟨kz,sa⟩ := o
  cases kz with
  | false => exact ⟨q.heap,by simp [allocLocked,withHeap],rfl,le_refl _⟩
  | true =>
    cases sa with
    | true => exact absurd rfl ho
    | false =>
      have hlive : (q.heap.alloc (.block zeroedBlock)).cells q.heap.next =
          some (.block zeroedBlock) := by simp
      obtain ⟨k,hk⟩ := free_live hlive
      obtain ⟨-,hc,hn,-⟩ := free_spec hk
      refine ⟨k,by simp [allocLocked,withHeap,hk],?_,by simp [hn]⟩
      rw [hc,alloc_cells,Function.update_idem,Function.update_eq_self_iff]
      exact (q.heap.fresh _ (le_refl _)).symm

/-- An allocation returns an error and leaves the live objects, or passes the tests
and adds one block. -/
theorem ctrlxtQmemAlloc_live (q : CtrlxtQmem t) (n flags : ULong t) (o : AllocOutcome) :
    (∃ k e, ctrlxtQmemAlloc q n flags o = some (withHeap q k,.errPtr e) ∧
      k.cells = q.heap.cells) ∨
    ¬allocTests q n < 0 ∧
      ∃ k, ctrlxtQmemAlloc q n flags o = some (withBlock q k n,.obj q.heap.next) ∧
        k.cells = Function.update
          (Function.update q.heap.cells (q.heap.next+1) (some (.state n)))
          q.heap.next (some (.block (newBlock q n flags))) := by
  by_cases ht : allocTests q n < 0
  · exact Or.inl ⟨q.heap,_,by rw [ctrlxtQmemAlloc,if_pos ht]; rfl,rfl⟩
  · rw [ctrlxtQmemAlloc,if_neg ht]
    by_cases ho : o = ⟨true,true⟩
    · subst o
      obtain ⟨k,hk,hc,-⟩ := allocLocked_success q n flags
      exact Or.inr ⟨ht,k,hk,hc⟩
    · obtain ⟨k,hk,hc,-⟩ := allocLocked_failure q n flags ho
      exact Or.inl ⟨k,_,hk,hc⟩

theorem ctrlxtQmemGet_live {q : CtrlxtQmem t} {p : ℕ} {b : QuantumMemoryBlock t}
    (hb : q.block p = some b) :
    ∃ k, ctrlxtQmemGet q (.obj p) = some (withHeap q k,.obj p) ∧
      k.cells = Function.update q.heap.cells p
        (some (.block { b with refCount := b.refCount+1 })) ∧
      k.next = q.heap.next := by
  obtain ⟨k,hk⟩ := store_live (block_eq_some.mp hb)
    (.block { b with refCount := b.refCount+1 })
  obtain ⟨hc,hn,-⟩ := store_spec hk
  refine ⟨k,?_,hc,hn⟩
  simp only [ctrlxtQmemGet,withHeap,hb,hk,Option.bind_eq_bind,Option.bind_some]

theorem atomicDecAndTest_live {q : CtrlxtQmem t} {p : ℕ} {b : QuantumMemoryBlock t}
    (hb : q.block p = some b) :
    ∃ k, atomicDecAndTest q p = some (withHeap q k,decide (b.refCount-1 = 0)) ∧
      k.cells = Function.update q.heap.cells p
        (some (.block { b with refCount := b.refCount-1 })) ∧
      k.next = q.heap.next := by
  obtain ⟨k,hk⟩ := store_live (block_eq_some.mp hb)
    (.block { b with refCount := b.refCount-1 })
  obtain ⟨hc,hn,-⟩ := store_spec hk
  refine ⟨k,?_,hc,hn⟩
  simp only [atomicDecAndTest,withHeap,hb,hk,Option.bind_eq_bind,Option.bind_some]

theorem releaseBlock_live {q : CtrlxtQmem t} (hq : Listed q) {p : ℕ}
    {b : QuantumMemoryBlock t} (hb : q.block p = some b) :
    ∃ k s, b.state = some s ∧ releaseBlock q.heap p = some k ∧
      k.cells = Function.update (Function.update q.heap.cells s none) p none ∧
      k.next = q.heap.next := by
  obtain ⟨s,hs,hcs⟩ := hq.state p b hb
  have hcp := block_eq_some.mp hb
  have hps : p ≠ s := (state_ne_block hb hcs).symm
  obtain ⟨h1,hh1⟩ := free_live hcs
  obtain ⟨-,hc1,hn1,-⟩ := free_spec hh1
  obtain ⟨h2,hh2⟩ := free_live (show h1.cells p = some (.block b) by
    rw [hc1,Function.update_of_ne hps,hcp])
  obtain ⟨-,hc2,hn2,-⟩ := free_spec hh2
  refine ⟨h2,s,hs,?_,by rw [hc2,hc1],by omega⟩
  simp only [releaseBlock,hcp,asBlock,hs,hh1,hh2,Option.bind_eq_bind,Option.bind_some]

theorem destroyBlock_eq (q : CtrlxtQmem t) (p : ℕ) :
    destroyBlock q p = (q.block p).bind fun b =>
      (releaseBlock q.heap p).map fun k => withoutBlock q k p b.size := by
  unfold destroyBlock releaseBlock CtrlxtQmem.block
  cases asBlock (q.heap.cells p) with
  | none => rfl
  | some b =>
    cases hs : b.state with
    | none =>
      simp only [Option.bind_eq_bind,Option.bind_some,hs]
      cases q.heap.free p <;> rfl
    | some s =>
      simp only [Option.bind_eq_bind,Option.bind_some,hs]
      cases q.heap.free s with
      | none => rfl
      | some k =>
        simp only [Option.bind_some]
        cases k.free p <;> rfl

theorem destroyBlock_live {q : CtrlxtQmem t} (hq : Listed q) {p : ℕ}
    {b : QuantumMemoryBlock t} (hb : q.block p = some b) :
    ∃ k s, b.state = some s ∧ destroyBlock q p = some (withoutBlock q k p b.size) ∧
      k.cells = Function.update (Function.update q.heap.cells s none) p none ∧
      k.next = q.heap.next := by
  obtain ⟨k,s,hs,hk,hc,hn⟩ := releaseBlock_live hq hb
  exact ⟨k,s,hs,by rw [destroyBlock_eq,hb,hk]; rfl,hc,hn⟩

theorem block_same {q r : CtrlxtQmem t} (h : r.heap.cells = q.heap.cells) :
    r.block = q.block := by
  funext p
  simp [CtrlxtQmem.block,h]

theorem withHeap_block {q : CtrlxtQmem t} {k : Heap (Object t)} {p : ℕ}
    {b : QuantumMemoryBlock t}
    (hk : k.cells = Function.update q.heap.cells p (some (.block b))) :
    (withHeap q k).block = Function.update q.block p (some b) := by
  change asBlock ∘ k.cells = _
  rw [hk,Function.comp_update]
  rfl

theorem ctrlxtQmemFree_live {q : CtrlxtQmem t} {p : ℕ} {b : QuantumMemoryBlock t}
    (hb : q.block p = some b) :
    ∃ k, ctrlxtQmemFree q (.obj p) =
        (if b.refCount-1 = 0 then destroyBlock (withHeap q k) p else some (withHeap q k)) ∧
      k.cells = Function.update q.heap.cells p
        (some (.block { b with refCount := b.refCount-1 })) ∧
      (withHeap q k).block p = some { b with refCount := b.refCount-1 } := by
  obtain ⟨k,hk,hc,-⟩ := atomicDecAndTest_live hb
  refine ⟨k,?_,hc,by rw [withHeap_block hc,Function.update_self]⟩
  simp only [ctrlxtQmemFree,hk,Option.bind_eq_bind,Option.bind_some,decide_eq_true_eq]

theorem withBlock_block {q : CtrlxtQmem t} {k : Heap (Object t)} {n flags : ULong t}
    (hk : k.cells = Function.update
        (Function.update q.heap.cells (q.heap.next+1) (some (.state n)))
        q.heap.next (some (.block (newBlock q n flags)))) :
    (withBlock q k n).block = Function.update q.block q.heap.next (some (newBlock q n flags)) := by
  change asBlock ∘ k.cells = _
  rw [hk,Function.comp_update,Function.comp_update]
  congr 1
  apply Function.update_eq_self_iff.mpr
  exact (block_fresh q (by omega)).symm

theorem withoutBlock_block {q : CtrlxtQmem t} {k : Heap (Object t)} {p s : ℕ}
    {size n : ULong t} (hs : q.heap.cells s = some (.state n))
    (hk : k.cells = Function.update (Function.update q.heap.cells s none) p none) :
    (withoutBlock q k p size).block = Function.update q.block p none := by
  change asBlock ∘ k.cells = _
  rw [hk,Function.comp_update,Function.comp_update]
  congr 1
  apply Function.update_eq_self_iff.mpr
  simp [asBlock,hs]

theorem listed_same {q r : CtrlxtQmem t} (hq : Listed q) (hc : r.heap.cells = q.heap.cells)
    (hu : r.usedBlocks = q.usedBlocks) : Listed r := by
  have hb := block_same hc
  constructor
  · rw [hu]
    exact hq.nodup
  · rw [hu,hb]
    exact hq.mem
  · rw [hb,hc]
    exact hq.state
  · rw [hb]
    exact hq.owner
  · rw [hb]
    exact hq.size

theorem listed_recount {q : CtrlxtQmem t} (hq : Listed q) {p : ℕ} {b : QuantumMemoryBlock t}
    {c : CInt} (hb : q.block p = some b) {k : Heap (Object t)}
    (hc : k.cells = Function.update q.heap.cells p (some (.block { b with refCount := c }))) :
    Listed (withHeap q k) := by
  have hr := withHeap_block hc
  have old : ∀ i d, (withHeap q k).block i = some d →
      ∃ e, q.block i = some e ∧ e.state = d.state ∧ e.size = d.size := by
    intro i d hd
    rw [hr] at hd
    rcases update_eq_some.mp hd with ⟨rfl,hv⟩ | ⟨-,hd⟩
    · cases hv
      exact ⟨b,hb,rfl,rfl⟩
    · exact ⟨d,hd,rfl,rfl⟩
  constructor
  · exact hq.nodup
  · intro i
    change i ∈ q.usedBlocks ↔ _
    rw [hq.mem,hr]
    by_cases hi : i = p
    · subst i
      simp [hb]
    · rw [Function.update_of_ne hi]
  · intro i d hd
    obtain ⟨e,he,hes,hez⟩ := old i d hd
    obtain ⟨s,hs,hcs⟩ := hq.state i e he
    have hsp : s ≠ p := state_ne_block hb hcs
    refine ⟨s,hes ▸ hs,?_⟩
    change k.cells s = _
    rw [hc,Function.update_of_ne hsp,hcs,hez]
  · intro i j d e hd he hde
    obtain ⟨d',hd',hds,-⟩ := old i d hd
    obtain ⟨e',he',hes,-⟩ := old j e he
    exact hq.owner i j d' e' hd' he' (by rw [hds,hes,hde])
  · intro i d hd
    obtain ⟨e,he,-,hez⟩ := old i d hd
    rw [← hez]
    exact hq.size i e he

theorem Listed.state_lt {q : CtrlxtQmem t} (hq : Listed q) {p s : ℕ} {b : QuantumMemoryBlock t}
    (hb : q.block p = some b) (hs : b.state = some s) : s < q.heap.next := by
  obtain ⟨s',hs',hcs⟩ := hq.state p b hb
  obtain rfl := Option.some.inj (hs'.symm.trans hs)
  exact lt_next hcs

theorem withBlock_cases {q : CtrlxtQmem t} {k : Heap (Object t)} {n flags : ULong t}
    (hk : k.cells = Function.update
        (Function.update q.heap.cells (q.heap.next+1) (some (.state n)))
        q.heap.next (some (.block (newBlock q n flags)))) {i : ℕ} {d : QuantumMemoryBlock t}
    (hd : (withBlock q k n).block i = some d) :
    (i = q.heap.next ∧ d = newBlock q n flags) ∨ (i ≠ q.heap.next ∧ q.block i = some d) := by
  rw [withBlock_block hk] at hd
  rcases update_eq_some.mp hd with ⟨hi,hd⟩ | hd
  · exact Or.inl ⟨hi,(Option.some.inj hd).symm⟩
  · exact Or.inr hd

theorem listed_withBlock {q : CtrlxtQmem t} (hq : Listed q) {k : Heap (Object t)}
    {n flags : ULong t} (hn : 1 ≤ n.toNat ∧ n.toNat ≤ qmemMaxQubitsPerBlock)
    (hk : k.cells = Function.update
        (Function.update q.heap.cells (q.heap.next+1) (some (.state n)))
        q.heap.next (some (.block (newBlock q n flags)))) : Listed (withBlock q k n) := by
  have hb := withBlock_block hk
  have hf := block_fresh q (le_refl q.heap.next)
  have owned : ∀ i d, q.block i = some d → d.state ≠ some (q.heap.next+1) := by
    intro i d hd he
    exact absurd (hq.state_lt hd he) (by omega)
  constructor
  · apply List.nodup_cons.mpr
    refine ⟨fun hm => ?_,hq.nodup⟩
    rw [hq.mem,hf] at hm
    cases hm
  · intro i
    rw [hb]
    by_cases hi : i = q.heap.next
    · subst i
      simp [withBlock]
    · rw [Function.update_of_ne hi,← hq.mem]
      simp [withBlock,hi]
  · intro i d hd
    rcases withBlock_cases hk hd with ⟨-,rfl⟩ | ⟨-,hd⟩
    · refine ⟨q.heap.next+1,rfl,?_⟩
      change k.cells (q.heap.next+1) = _
      rw [hk,Function.update_of_ne (by omega),Function.update_self]
      rfl
    · obtain ⟨s,hs,hcs⟩ := hq.state i d hd
      have hlt := lt_next hcs
      refine ⟨s,hs,?_⟩
      change k.cells s = _
      rw [hk,Function.update_of_ne (by omega),Function.update_of_ne (by omega),hcs]
  · intro i j d e hd he hde
    rcases withBlock_cases hk hd with ⟨hi,rfl⟩ | ⟨-,hd⟩
    · rcases withBlock_cases hk he with ⟨hj,-⟩ | ⟨-,he⟩
      · rw [hi,hj]
      · exact absurd hde.symm (owned j e he)
    · rcases withBlock_cases hk he with ⟨-,rfl⟩ | ⟨-,he⟩
      · exact absurd hde (owned i d hd)
      · exact hq.owner i j d e hd he hde
  · intro i d hd
    rcases withBlock_cases hk hd with ⟨-,rfl⟩ | ⟨-,hd⟩
    · exact hn
    · exact hq.size i d hd

theorem listed_withoutBlock {q : CtrlxtQmem t} (hq : Listed q) {k : Heap (Object t)} {p s : ℕ}
    {b : QuantumMemoryBlock t} (hb : q.block p = some b) (hs : b.state = some s)
    (hk : k.cells = Function.update (Function.update q.heap.cells s none) p none) :
    Listed (withoutBlock q k p b.size) := by
  obtain ⟨s',hs',hcs⟩ := hq.state p b hb
  obtain rfl : s' = s := Option.some.inj (hs'.symm.trans hs)
  have hr : (withoutBlock q k p b.size).block = Function.update q.block p none :=
    withoutBlock_block hcs hk
  have old : ∀ i d, (withoutBlock q k p b.size).block i = some d → i ≠ p ∧ q.block i = some d := by
    intro i d hd
    rw [hr] at hd
    rcases update_eq_some.mp hd with ⟨-,hd⟩ | hd
    · cases hd
    · exact hd
  constructor
  · exact hq.nodup.erase p
  · intro i
    rw [hr]
    change i ∈ q.usedBlocks.erase p ↔ _
    rw [hq.nodup.mem_erase_iff,hq.mem]
    by_cases hi : i = p
    · subst i
      simp
    · simp [hi]
  · intro i d hd
    obtain ⟨hi,hd⟩ := old i d hd
    obtain ⟨u,hu,hcu⟩ := hq.state i d hd
    have hup : u ≠ p := state_ne_block hb hcu
    have hus : u ≠ s' := by
      rintro rfl
      exact hi (hq.owner i p d b hd hb (by rw [hu,hs]))
    refine ⟨u,hu,?_⟩
    change k.cells u = _
    rw [hk,Function.update_of_ne hup,Function.update_of_ne hus,hcu]
  · intro i j d e hd he hde
    exact hq.owner i j d e (old i d hd).2 (old j e he).2 hde
  · intro i d hd
    exact hq.size i d (old i d hd).2

end CtrlxtKernel.QuantumMemory
