import CtrlxtKernel.QuantumMemoryAccounting

/-!
# The two halves of a locked section

An allocation and the free that destroys a block update `total_qubits` and then
`allocated_qubits`. The section is cut between the two updates; the halves in
a row are the section.
-/

set_option autoImplicit false

namespace CtrlxtKernel.QuantumMemory
open MachineInt ObjectHeap

variable {t : Target}

/-- The locked section of `ctrlxt_qmem_alloc` up to its first counter update. -/
def allocFirst (q : CtrlxtQmem t) (numQubits flags : ULong t) (o : AllocOutcome) :
    Option (CtrlxtQmem t × Ptr) :=
  if o.kzalloc then
    let block := q.heap.next
    let heap := q.heap.alloc (.block zeroedBlock)
    if o.quantumStateAlloc then do
      let state := heap.next
      let heap ← (heap.alloc (.state numQubits)).store block
        (.block ⟨some state,numQubits,flags,1⟩)
      some ({ q with
        heap := heap
        usedBlocks := block::q.usedBlocks
        totalQubits := q.totalQubits+narrow numQubits },.obj block)
    else do
      let heap ← heap.free block
      some ({ q with heap := heap },.errPtr (-enomem))
  else some (q,.errPtr (-enomem))

def allocSecond (q : CtrlxtQmem t) (numQubits : ULong t) : CtrlxtQmem t :=
  { q with allocatedQubits := q.allocatedQubits+narrow numQubits }

def destroyFirst (q : CtrlxtQmem t) (p : ℕ) : Option (CtrlxtQmem t) := do
  let b ← q.block p
  let heap ← match b.state with
    | some s => q.heap.free s
    | none => some q.heap
  some { q with
    heap := heap
    usedBlocks := q.usedBlocks.erase p
    totalQubits := q.totalQubits-narrow b.size }

def destroySecond (q : CtrlxtQmem t) (p : ℕ) : Option (CtrlxtQmem t) := do
  let b ← q.block p
  let heap ← q.heap.free p
  some { q with heap := heap, allocatedQubits := q.allocatedQubits-narrow b.size }

inductive Half (t : Target) where
  | adding (numQubits : ULong t)
  | removing (p : ℕ)

def secondHalf (q : CtrlxtQmem t) : Half t → Option (CtrlxtQmem t)
  | .adding n => some (allocSecond q n)
  | .removing p => destroySecond q p

def Half.adds (q : CtrlxtQmem t) : Half t → ℤ
  | .adding n => n.toNat
  | .removing p => -(sizeAt q p)

theorem allocLocked_halves (q : CtrlxtQmem t) (n flags : ULong t) (o : AllocOutcome) :
    allocLocked q n flags o = (allocFirst q n flags o).map fun r =>
      match r.2 with
      | .obj p => (allocSecond r.1 n,.obj p)
      | e => (r.1,e) := by
  obtain ⟨kz,sa⟩ := o
  cases kz with
  | false => rfl
  | true =>
    cases sa with
    | true =>
      simp only [allocLocked,allocFirst,if_true,Option.bind_eq_bind]
      cases ((q.heap.alloc (.block zeroedBlock)).alloc (.state n)).store _ _ <;> rfl
    | false =>
      simp only [allocLocked,allocFirst,if_true,Bool.false_eq_true,if_false,Option.bind_eq_bind]
      cases (q.heap.alloc (.block zeroedBlock)).free _ <;> rfl

theorem destroySecond_eq {q : CtrlxtQmem t} {p : ℕ} {b : QuantumMemoryBlock t}
    (hb : q.block p = some b) : destroySecond q p = (q.heap.free p).map fun k =>
      { q with heap := k, allocatedQubits := q.allocatedQubits-narrow b.size } := by
  rw [destroySecond,hb]
  cases q.heap.free p <;> rfl

theorem destroySecond_cases {q r : CtrlxtQmem t} {p : ℕ} (h : destroySecond q p = some r) :
    ∃ b k, q.block p = some b ∧ q.heap.free p = some k ∧
      r = { q with heap := k, allocatedQubits := q.allocatedQubits-narrow b.size } := by
  cases hb : q.block p with
  | none => simp [destroySecond,hb] at h
  | some b =>
    rw [destroySecond_eq hb] at h
    obtain ⟨k,hk,rfl⟩ := Option.map_eq_some_iff.mp h
    exact ⟨b,k,rfl,hk,rfl⟩

def unlisted (q : CtrlxtQmem t) (k : Heap (Object t)) (p : ℕ) (size : ULong t) :
    CtrlxtQmem t :=
  { q with
    heap := k
    usedBlocks := q.usedBlocks.erase p
    totalQubits := q.totalQubits-narrow size }

theorem destroyBlock_halves (q : CtrlxtQmem t) (p : ℕ) :
    destroyBlock q p = (destroyFirst q p).bind fun r => destroySecond r p := by
  unfold destroyBlock destroyFirst
  cases hb : q.block p with
  | none => rfl
  | some b =>
    simp only [Option.bind_eq_bind,Option.bind_some]
    cases hs : b.state with
    | none =>
      have hblock : (unlisted q q.heap p b.size).block p = some b := hb
      have hsecond := destroySecond_eq hblock
      simp only [Option.bind_some]
      rw [unlisted] at hsecond
      rw [hsecond]
      cases q.heap.free p <;> rfl
    | some s =>
      cases hk : q.heap.free s with
      | none => simp [hk]
      | some k =>
        obtain ⟨-,hc,-⟩ := free_spec hk
        simp only [hk,Option.bind_some]
        by_cases hsp : p = s
        · have hdead : k.cells p = none := by rw [hc,hsp,Function.update_self]
          rw [free_dead hdead]
          simp [destroySecond,CtrlxtQmem.block,hdead,asBlock]
        · have hlive : k.cells p = q.heap.cells p := by rw [hc,Function.update_of_ne hsp]
          have hblock : (unlisted q k p b.size).block p = some b := by
            simpa only [CtrlxtQmem.block,unlisted,hlive] using hb
          have hsecond := destroySecond_eq hblock
          rw [unlisted] at hsecond
          rw [hsecond]
          cases k.free p <;> rfl

theorem destroyFirst_unlisted {q r : CtrlxtQmem t} {p : ℕ} (h : destroyFirst q p = some r) :
    ∃ b k, q.block p = some b ∧ r = unlisted q k p b.size := by
  unfold destroyFirst at h
  obtain ⟨b,hb,hr⟩ := Option.bind_eq_some_iff.mp h
  refine ⟨b,r.heap,hb,?_⟩
  cases hs : b.state with
  | none =>
    rw [hs] at hr
    cases hr
    rfl
  | some s =>
    rw [hs] at hr
    obtain ⟨k,-,hk⟩ := Option.bind_eq_some_iff.mp hr
    cases hk
    rfl

theorem allocFirst_frame {q r : CtrlxtQmem t} {n flags : ULong t} {o : AllocOutcome} {ptr : Ptr}
    (h : allocFirst q n flags o = some (r,ptr)) :
    r.allocatedQubits = q.allocatedQubits ∧ r.maxQubits = q.maxQubits ∧
      ((∃ p, ptr = .obj p) ∨ r.totalQubits = q.totalQubits) := by
  unfold allocFirst at h
  simp only [Option.bind_eq_bind] at h
  split_ifs at h
  · obtain ⟨k,-,hk⟩ := Option.bind_eq_some_iff.mp h
    cases hk
    exact ⟨rfl,rfl,Or.inl ⟨_,rfl⟩⟩
  · obtain ⟨k,-,hk⟩ := Option.bind_eq_some_iff.mp h
    cases hk
    exact ⟨rfl,rfl,Or.inr rfl⟩
  · cases h
    exact ⟨rfl,rfl,Or.inr rfl⟩

theorem secondHalf_frame {q r : CtrlxtQmem t} {half : Half t} (h : secondHalf q half = some r) :
    r.totalQubits = q.totalQubits ∧ r.maxQubits = q.maxQubits := by
  cases half with
  | adding n =>
    cases h
    exact ⟨rfl,rfl⟩
  | removing p =>
    obtain ⟨b,-,hb⟩ := Option.bind_eq_some_iff.mp h
    obtain ⟨k,-,hk⟩ := Option.bind_eq_some_iff.mp hb
    cases hk
    exact ⟨rfl,rfl⟩

theorem allocFirst_success (q : CtrlxtQmem t) (n flags : ULong t) :
    ∃ r k, allocFirst q n flags ⟨true,true⟩ = some (r,.obj q.heap.next) ∧
      allocSecond r n = withBlock q k n ∧ r.totalQubits = q.totalQubits+narrow n ∧
      k.cells = Function.update
        (Function.update q.heap.cells (q.heap.next+1) (some (.state n)))
        q.heap.next (some (.block (newBlock q n flags))) := by
  obtain ⟨k,hk,hc,-⟩ := allocLocked_success q n flags
  rw [allocLocked_halves] at hk
  obtain ⟨⟨r,ptr⟩,hr,hhalves⟩ := Option.map_eq_some_iff.mp hk
  cases ptr with
  | null => simp at hhalves
  | errPtr e => simp at hhalves
  | obj p =>
    simp only [Prod.mk.injEq,Ptr.obj.injEq] at hhalves
    obtain ⟨hsecond,rfl⟩ := hhalves
    have htotal := congrArg CtrlxtQmem.totalQubits hsecond
    exact ⟨r,k,hr,hsecond,htotal,hc⟩

theorem allocFirst_failure (q : CtrlxtQmem t) (n flags : ULong t) {o : AllocOutcome}
    (ho : o ≠ ⟨true,true⟩) :
    ∃ k, allocFirst q n flags o = some (withHeap q k,.errPtr (-enomem)) ∧
      k.cells = q.heap.cells := by
  obtain ⟨k,hk,hc,-⟩ := allocLocked_failure q n flags ho
  rw [allocLocked_halves] at hk
  obtain ⟨⟨r,ptr⟩,hr,hhalves⟩ := Option.map_eq_some_iff.mp hk
  cases ptr with
  | null => simp at hhalves
  | obj p => simp at hhalves
  | errPtr e =>
    cases hhalves
    exact ⟨k,hr,hc⟩

/-- The first half of a destruction, and the second after it. -/
theorem destroyFirst_live {q : CtrlxtQmem t} (hq : Listed q) {p : ℕ} {b : QuantumMemoryBlock t}
    (hb : q.block p = some b) :
    ∃ k k' s, destroyFirst q p = some (unlisted q k p b.size) ∧
      (unlisted q k p b.size).block p = some b ∧
      destroySecond (unlisted q k p b.size) p = some (withoutBlock q k' p b.size) ∧
      b.state = some s ∧
      k'.cells = Function.update (Function.update q.heap.cells s none) p none := by
  obtain ⟨s,hs,hcs⟩ := hq.state p b hb
  obtain ⟨k,hk⟩ := free_live hcs
  obtain ⟨-,hc,-⟩ := free_spec hk
  have hps : p ≠ s := (state_ne_block hb hcs).symm
  have hcp : k.cells p = some (.block b) := by
    rw [hc,Function.update_of_ne hps,block_eq_some.mp hb]
  have hblock : (unlisted q k p b.size).block p = some b := block_eq_some.mpr hcp
  obtain ⟨k',hk'⟩ := free_live hcp
  obtain ⟨-,hc',-⟩ := free_spec hk'
  refine ⟨k,k',s,?_,hblock,?_,hs,by rw [hc',hc]⟩
  · simp only [destroyFirst,hb,hs,hk,Option.bind_eq_bind,Option.bind_some]
    rfl
  · rw [destroySecond_eq hblock]
    show (k.free p).map _ = _
    rw [hk']
    rfl

theorem heldQubits_same {q : CtrlxtQmem t} {k : Heap (Object t)} (hc : k.cells = q.heap.cells) :
    heldQubits (withHeap q k) = heldQubits q := by
  have hb : (withHeap q k).block = q.block := block_same hc
  apply heldQubits_withHeap
  intro p
  rw [sizeAt,hb]
  rfl

/-- A reference taken while a block is being destroyed changes only what is
destroyed, or another block. -/
theorem recount_second {q r : CtrlxtQmem t} {p i : ℕ} {d : QuantumMemoryBlock t} {c : CInt}
    {k : Heap (Object t)} (hi : q.block i = some d)
    (hc : k.cells = Function.update q.heap.cells i (some (.block { d with refCount := c })))
    (h : destroySecond q p = some r) :
    sizeAt (withHeap q k) p = sizeAt q p ∧
    ∃ g, destroySecond (withHeap q k) p = some (withHeap r g) ∧
      (g.cells = r.heap.cells ∨ r.block i = some d ∧
        g.cells = Function.update r.heap.cells i (some (.block { d with refCount := c }))) := by
  obtain ⟨b,f,hb,hf,rfl⟩ := destroySecond_cases h
  obtain ⟨-,hfc,-⟩ := free_spec hf
  have hblock : ∃ b', (withHeap q k).block p = some b' ∧ b'.size = b.size := by
    rw [withHeap_block hc]
    by_cases hpi : p = i
    · subst p
      rw [Function.update_self]
      obtain rfl := Option.some.inj (hi.symm.trans hb)
      exact ⟨_,rfl,rfl⟩
    · rw [Function.update_of_ne hpi]
      exact ⟨b,hb,rfl⟩
  obtain ⟨b',hb',hsize⟩ := hblock
  obtain ⟨g,hg⟩ := free_live (block_eq_some.mp hb')
  obtain ⟨-,hgc,-⟩ := free_spec hg
  refine ⟨by simp [sizeAt,hb,hb',hsize],g,?_,?_⟩
  · rw [destroySecond_eq hb',hg,hsize]
    rfl
  · have hcells : g.cells = Function.update
        (Function.update q.heap.cells i (some (.block { d with refCount := c }))) p none := by
      rw [hgc]
      exact congrArg (fun cells => Function.update cells p none) hc
    by_cases hpi : p = i
    · subst p
      left
      rw [hcells,Function.update_idem]
      exact hfc.symm
    · right
      constructor
      · apply block_eq_some.mpr
        show f.cells i = _
        rw [hfc,Function.update_of_ne (Ne.symm hpi)]
        exact block_eq_some.mp hi
      · rw [hcells,Function.update_comm (Ne.symm hpi)]
        show _ = Function.update f.cells i _
        rw [hfc]

theorem recount_finish {q r : CtrlxtQmem t} {half : Half t} {i : ℕ} {d : QuantumMemoryBlock t}
    {c : CInt} {k : Heap (Object t)} (hi : q.block i = some d)
    (hc : k.cells = Function.update q.heap.cells i (some (.block { d with refCount := c })))
    (h : secondHalf q half = some r) (hl : Listed r) :
    Half.adds (withHeap q k) half = Half.adds q half ∧
      ∃ r', secondHalf (withHeap q k) half = some r' ∧ Listed r' ∧
        heldQubits r' = heldQubits r := by
  cases half with
  | adding n =>
    cases h
    have hblock : (allocSecond q n).block i = some d := hi
    exact ⟨rfl,withHeap (allocSecond q n) k,rfl,listed_recount hl hblock hc,
      heldQubits_recount hblock hc⟩
  | removing p =>
    obtain ⟨hsize,g,hg,hcells⟩ := recount_second hi hc h
    refine ⟨by rw [Half.adds,hsize]; rfl,withHeap r g,hg,?_⟩
    rcases hcells with hsame | ⟨hblock,hgc⟩
    · exact ⟨listed_same hl hsame rfl,heldQubits_same hsame⟩
    · exact ⟨listed_recount hl hblock hgc,heldQubits_recount hblock hgc⟩

theorem setMaxStore_second (q : CtrlxtQmem t) (m : ULong t) (half : Half t) :
    secondHalf (setMaxStore q m) half = (secondHalf q half).map (fun r => setMaxStore r m) := by
  cases half with
  | adding n => rfl
  | removing p =>
    have hblock : (setMaxStore q m).block p = q.block p := rfl
    cases hb : q.block p with
    | none => simp [secondHalf,destroySecond,hblock,hb]
    | some b =>
      rw [secondHalf,secondHalf,destroySecond_eq hb,destroySecond_eq (hblock.trans hb),
        Option.map_map]
      rfl

theorem narrow_ofInt (n : ULong t) : narrow n = BitVec.ofInt 32 n.toNat := by
  apply BitVec.eq_of_toNat_eq
  simp [narrow]

end CtrlxtKernel.QuantumMemory
