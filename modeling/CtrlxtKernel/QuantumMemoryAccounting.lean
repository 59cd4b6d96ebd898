import CtrlxtKernel.QuantumMemoryBlocks

/-!
# Accounting of qubits

Both counters equal the sum of the sizes of the used blocks, and the sum
stays within the limit. The law is one statement about the list; each
operation changes the sum and the counters alike.
-/

set_option autoImplicit false

namespace CtrlxtKernel.QuantumMemory
open MachineInt ObjectHeap

variable {t : Target}

def sizeAt (q : CtrlxtQmem t) (p : ℕ) : ℕ := ((q.block p).map (fun b => b.size.toNat)).getD 0

def heldQubits (q : CtrlxtQmem t) : ℕ := (q.usedBlocks.map (sizeAt q)).sum

structure Counted (q : CtrlxtQmem t) : Prop where
  total : q.totalQubits.toInt = heldQubits q
  allocated : q.allocatedQubits.toInt = heldQubits q
  limit : (heldQubits q:ℤ) ≤ q.maxQubits.toInt

theorem heldQubits_withHeap {q : CtrlxtQmem t} {k : Heap (Object t)}
    (hs : ∀ p, sizeAt (withHeap q k) p = sizeAt q p) :
    heldQubits (withHeap q k) = heldQubits q := by
  have hf : sizeAt (withHeap q k) = sizeAt q := funext hs
  unfold heldQubits
  rw [hf]
  rfl

theorem heldQubits_recount {q : CtrlxtQmem t} {p : ℕ} {b : QuantumMemoryBlock t} {c : CInt}
    (hb : q.block p = some b) {k : Heap (Object t)}
    (hc : k.cells = Function.update q.heap.cells p (some (.block { b with refCount := c }))) :
    heldQubits (withHeap q k) = heldQubits q := by
  apply heldQubits_withHeap
  intro i
  rw [sizeAt,withHeap_block hc]
  by_cases hi : i = p
  · subst i
    simp [sizeAt,hb]
  · rw [Function.update_of_ne hi]
    rfl

theorem heldQubits_withBlock {q : CtrlxtQmem t} (hq : Listed q) {k : Heap (Object t)}
    {n flags : ULong t} (hc : k.cells = Function.update
        (Function.update q.heap.cells (q.heap.next+1) (some (.state n)))
        q.heap.next (some (.block (newBlock q n flags)))) :
    heldQubits (withBlock q k n) = heldQubits q+n.toNat := by
  have hb := withBlock_block hc
  have hf := block_fresh q (le_refl q.heap.next)
  have hm : q.usedBlocks.map (sizeAt (withBlock q k n)) = q.usedBlocks.map (sizeAt q) := by
    apply List.map_congr_left
    intro p hp
    have hne : p ≠ q.heap.next := by
      rintro rfl
      rw [hq.mem,hf] at hp
      cases hp
    rw [sizeAt,hb,Function.update_of_ne hne]
    rfl
  have hn : sizeAt (withBlock q k n) q.heap.next = n.toNat := by
    simp [sizeAt,hb,newBlock]
  change ((q.heap.next::q.usedBlocks).map (sizeAt (withBlock q k n))).sum = _
  rw [List.map_cons,List.sum_cons,hm,hn,add_comm]
  rfl

theorem heldQubits_withoutBlock {q : CtrlxtQmem t} (hq : Listed q) {k : Heap (Object t)}
    {p s : ℕ} {b : QuantumMemoryBlock t} (hb : q.block p = some b) (hs : b.state = some s)
    (hc : k.cells = Function.update (Function.update q.heap.cells s none) p none) :
    b.size.toNat+heldQubits (withoutBlock q k p b.size) = heldQubits q := by
  obtain ⟨u,hu,hcu⟩ := hq.state p b hb
  obtain rfl : u = s := Option.some.inj (hu.symm.trans hs)
  have hr : (withoutBlock q k p b.size).block = Function.update q.block p none :=
    withoutBlock_block hcu hc
  have hp : p ∈ q.usedBlocks := by
    rw [hq.mem,hb]
    rfl
  have hm : (q.usedBlocks.erase p).map (sizeAt (withoutBlock q k p b.size)) =
      (q.usedBlocks.erase p).map (sizeAt q) := by
    apply List.map_congr_left
    intro i hi
    have hip := (hq.nodup.mem_erase_iff.mp hi).1
    rw [sizeAt,hr,Function.update_of_ne hip]
    rfl
  have he := List.sum_map_erase (sizeAt q) hp
  have hsize : sizeAt q p = b.size.toNat := by simp [sizeAt,hb]
  rw [hsize] at he
  change b.size.toNat+((q.usedBlocks.erase p).map (sizeAt (withoutBlock q k p b.size))).sum = _
  rw [hm]
  exact he

theorem block_size_small {n : ULong t} (hn : n.toNat ≤ qmemMaxQubitsPerBlock) :
    n.toNat ≤ intMax := hn.trans (by decide)

/-- On a state that respects the limit, the test of `ctrlxt_qmem_alloc` decides
whether the request fits, with no overflow on either width of `size_t`. -/
theorem overLimit_iff {q : CtrlxtQmem t} (hq : Counted q) {n : ULong t}
    (hn : n.toNat ≤ qmemMaxQubitsPerBlock) :
    overLimit q n = false ↔ (heldQubits q+n.toNat:ℤ) ≤ q.maxQubits.toInt := by
  have hl := hq.limit
  have ha := widen_toNat t q.allocatedQubits (by rw [hq.allocated]; omega)
  have hm := widen_toNat t q.maxQubits (by omega)
  have hb := (int_bounds q.maxQubits).2
  have hw := two_pow_width t
  have hs : n.toNat ≤ 64 := hn
  rw [hq.allocated] at ha
  have hadd := add_toNat (widen t q.allocatedQubits) n (by omega)
  simp only [overLimit,decide_eq_false_iff_not,gt_iff_lt,BitVec.lt_def,hadd]
  omega

theorem counted_withBlock {q : CtrlxtQmem t} (hl : Listed q) (hq : Counted q)
    {k : Heap (Object t)} {n flags : ULong t} (hn : n.toNat ≤ qmemMaxQubitsPerBlock)
    (ht : overLimit q n = false) (hc : k.cells = Function.update
        (Function.update q.heap.cells (q.heap.next+1) (some (.state n)))
        q.heap.next (some (.block (newBlock q n flags)))) :
    Counted (withBlock q k n) := by
  have hh := heldQubits_withBlock hl hc
  have hfit := (overLimit_iff hq hn).mp ht
  have hsmall := block_size_small hn
  have hb := (int_bounds q.maxQubits).2
  have htot := hq.total
  have hall := hq.allocated
  constructor
  · change (q.totalQubits+narrow n).toInt = _
    rw [add_narrow hsmall (by omega) (by omega),hh]
    omega
  · change (q.allocatedQubits+narrow n).toInt = _
    rw [add_narrow hsmall (by omega) (by omega),hh]
    omega
  · rw [hh]
    exact_mod_cast hfit

theorem counted_withoutBlock {q : CtrlxtQmem t} (hl : Listed q) (hq : Counted q)
    {k : Heap (Object t)} {p s : ℕ} {b : QuantumMemoryBlock t} (hb : q.block p = some b)
    (hs : b.state = some s)
    (hc : k.cells = Function.update (Function.update q.heap.cells s none) p none) :
    Counted (withoutBlock q k p b.size) := by
  have hh := heldQubits_withoutBlock hl hb hs hc
  have hsmall := block_size_small (hl.size p b hb).2
  have htot := hq.total
  have hall := hq.allocated
  have hlim := hq.limit
  constructor
  · change (q.totalQubits-narrow b.size).toInt = _
    rw [sub_narrow hsmall (by omega)]
    omega
  · change (q.allocatedQubits-narrow b.size).toInt = _
    rw [sub_narrow hsmall (by omega)]
    omega
  · change _ ≤ q.maxQubits.toInt
    omega

theorem counted_withHeap {q : CtrlxtQmem t} (hq : Counted q) {k : Heap (Object t)}
    (hh : heldQubits (withHeap q k) = heldQubits q) : Counted (withHeap q k) := by
  constructor
  · rw [hh]
    exact hq.total
  · rw [hh]
    exact hq.allocated
  · rw [hh]
    exact hq.limit

theorem counted_recount {q : CtrlxtQmem t} (hq : Counted q) {p : ℕ} {b : QuantumMemoryBlock t}
    {c : CInt} (hb : q.block p = some b) {k : Heap (Object t)}
    (hc : k.cells = Function.update q.heap.cells p (some (.block { b with refCount := c }))) :
    Counted (withHeap q k) :=
  counted_withHeap hq (heldQubits_recount hb hc)

theorem counted_same {q : CtrlxtQmem t} (hq : Counted q) {k : Heap (Object t)}
    (hc : k.cells = q.heap.cells) : Counted (withHeap q k) := by
  have hb : (withHeap q k).block = q.block := block_same hc
  apply counted_withHeap hq
  apply heldQubits_withHeap
  intro p
  rw [sizeAt,hb]
  rfl

theorem counted_setMax {q : CtrlxtQmem t} (hq : Counted q) {m : ULong t}
    (hm : m.toNat ≤ intMax) (ht : setMaxTest q m = false) : Counted (setMaxStore q m) := by
  have hl := hq.limit
  have ha := widen_toNat t q.allocatedQubits (by rw [hq.allocated]; omega)
  simp only [setMaxTest,decide_eq_false_iff_not,BitVec.lt_def] at ht
  have hall := hq.allocated
  refine ⟨hq.total,hq.allocated,?_⟩
  change (heldQubits q:ℤ) ≤ (narrow m).toInt
  rw [narrow_toInt m hm]
  omega

end CtrlxtKernel.QuantumMemory
