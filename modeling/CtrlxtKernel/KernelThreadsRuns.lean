import CtrlxtKernel.KernelThreads
import CtrlxtKernel.QuantumMemoryHalves

/-!
# Sections of the memory manager as single steps

The locked sections of `ctrlxt_qmem_alloc` and `ctrlxt_qmem_free`, written out,
and what they do from a state in which the books are right. From this follows
that threads that run call by call do what they do section by section.
-/

set_option autoImplicit false

namespace CtrlxtKernel.KernelThreads
open MachineInt ObjectHeap RefLedger StepMachine LockDiscipline LockReduction
open KernelLocks (KernelOp KernelCode LockName answerQmem)
open QuantumMemory (Object CtrlxtQmem QuantumMemoryBlock Session AllocOutcome Held heldQubits
  qmemMaxQubitsPerBlock withHeap)

variable {t : Target} {H : Type*}

def leave (a : QmemAnswer) : QmemCode t QmemAnswer := .release .qmem (.ret a)

def allocSection (n flags : ULong t) : QmemCode t QmemAnswer :=
  .call (.inl .kzallocBlock) fun block =>
    match block with
    | none => leave (.block (.errPtr (-enomem)))
    | some block =>
      .call (.inl (.stateAlloc n)) fun state =>
        match state with
        | none =>
          .call (.inl (.kfreeBlock (.obj block))) fun _ => leave (.block (.errPtr (-enomem)))
        | some state =>
          .call (.inl (.setBlock block ⟨some state,n,flags,1⟩)) fun _ =>
            .call (.inl (.listAdd block)) fun _ =>
              .call (.inl (.addTotal n)) fun _ =>
                .call (.inl (.addAllocated n)) fun _ => leave (.block (.obj block))

def dropSection (p : ℕ) : QmemCode t QmemAnswer :=
  .call (.inl (.blockSize (.obj p))) fun n =>
    .call (.inl (.subTotal n)) fun _ =>
      .call (.inl (.blockSize (.obj p))) fun n =>
        .call (.inl (.subAllocated n)) fun _ =>
          .call (.inl (.kfreeBlock (.obj p))) fun _ => leave .done

def destroySection (p : ℕ) : QmemCode t QmemAnswer :=
  .call (.inl (.listDel (.obj p))) fun _ =>
    .call (.inl (.blockState (.obj p))) fun state =>
      match state with
      | none => dropSection p
      | some i => .call (.inl (.stateFree i)) fun _ => dropSection p

def freeSection (p : ℕ) : QmemCode t QmemAnswer :=
  .call (.inl (.decAndTest (.obj p))) fun zero =>
    match zero with
    | true => destroySection p
    | false => leave .done

theorem alloc_code (n flags : ULong t) : (QmemCall.alloc n flags).code =
    if n = 0 ∨ n.toNat > qmemMaxQubitsPerBlock then .ret (.block (.errPtr (-einval)))
    else .call (.inl .allocatedQubits) fun allocated => .call (.inl .maxQubits) fun max =>
      if widen t allocated+n > widen t max then .ret (.block (.errPtr (-enomem)))
      else .acquire .qmem (allocSection n flags) := by
  rw [QmemCall.code,KernelLocks.ctrlxtQmemAlloc]
  split_ifs
  · rfl
  · show Code.call _ _ = Code.call _ _
    congr 1
    funext allocated
    show Code.call _ _ = Code.call _ _
    congr 1
    funext max
    show Code.bind (lift (if widen t allocated+n > widen t max then _ else _)) _ = _
    split_ifs
    · rfl
    · show Code.acquire _ (Code.call _ _) = Code.acquire _ (Code.call _ _)
      congr 2
      funext block
      cases block with
      | none => rfl
      | some block =>
        show Code.call _ _ = Code.call _ _
        congr 1
        funext state
        cases state <;> rfl

theorem free_code (p : ℕ) : (freeCode (.obj p) : QmemCode t QmemAnswer) =
    .acquire .qmem (freeSection p) := by
  show Code.acquire _ (Code.call _ _) = Code.acquire _ (Code.call _ _)
  congr 2
  funext zero
  cases zero with
  | false => rfl
  | true =>
    show Code.call _ _ = Code.call _ _
    congr 1
    funext _
    show Code.call _ _ = Code.call _ _
    congr 1
    funext state
    cases state <;> rfl

/-- The blocks, their states, the references and the counters agree; the counters
modulo their size, whatever the limit. -/
structure BooksRight (s : Session t H) : Prop where
  held : Held none s
  few : ∀ p, outstanding s.refs p < 2^31
  allocated : s.qmem.allocatedQubits = BitVec.ofNat 32 (heldQubits s.qmem)
  total : s.qmem.totalQubits = s.qmem.allocatedQubits

theorem narrow_ofNat (n : ULong t) : narrow n = BitVec.ofNat 32 n.toNat := by
  apply BitVec.eq_of_toNat_eq
  rw [narrow,BitVec.toNat_setWidth,BitVec.toNat_ofNat]

theorem loaded_right : BooksRight (QuantumMemory.loaded : Session t H) where
  held := QuantumMemory.loaded_sound.held
  few := QuantumMemory.loaded_sound.few
  allocated := rfl
  total := rfl

theorem get_right {s : Session t H} (hs : BooksRight s) {h : H} {p : ℕ} (hm : (h,p) ∈ s.refs)
    (hb : outstanding s.refs p+1 < 2^31) : ∃ r, s.get h p = some r ∧ BooksRight r ∧
      r.refs = (h,p)::s.refs := by
  obtain ⟨r,hr,hkept,hrefs,-⟩ := QuantumMemory.get_kept hs.held hm
  obtain ⟨b,g,hblock,hg,rfl⟩ := get_eq_some.mp hr
  have hheld := QuantumMemory.heldQubits_recount hblock (store_spec hg).1
  refine ⟨_,hr,⟨hkept.held,?_,?_,hs.total⟩,rfl⟩
  · exact outstanding_cons_lt hs.few h hb
  · show s.qmem.allocatedQubits = BitVec.ofNat 32 (heldQubits (withHeap s.qmem g))
    rw [hheld]
    exact hs.allocated

theorem setMax_right {s : Session t H} (hs : BooksRight s) (m : ULong t) :
    BooksRight (limited s m) :=
  ⟨QuantumMemory.held_same hs.held rfl rfl (le_refl _),hs.few,hs.allocated,hs.total⟩

theorem alloc_right {s : Session t H} (hs : BooksRight s) (h : H) {n flags : ULong t}
    (hn : 1 ≤ n.toNat ∧ n.toNat ≤ qmemMaxQubitsPerBlock) {o : AllocOutcome}
    {r : CtrlxtQmem t × Ptr} (hr : QuantumMemory.allocLocked s.qmem n flags o = some r) :
    BooksRight (s.grant h r.1 r.2) := by
  by_cases ho : o = ⟨true,true⟩
  · subst ho
    obtain ⟨k,hk,hc,hnx⟩ := QuantumMemory.allocLocked_success s.qmem n flags
    cases hk.symm.trans hr
    have hb : (QuantumMemory.withBlock s.qmem k n).block s.qmem.heap.next =
        some (QuantumMemory.newBlock s.qmem n flags) := by
      rw [QuantumMemory.withBlock_block hc,Function.update_self]
    have hgrant : s.grant h (QuantumMemory.withBlock s.qmem k n) (.obj s.qmem.heap.next) =
        s.granting h k n := by
      simp only [Session.grant,hb,Option.bind_some]
      rfl
    have hheld := QuantumMemory.heldQubits_withBlock hs.held.listed hc
    have hfresh := QuantumMemory.granting_fresh hs.held
    rw [hgrant]
    refine ⟨QuantumMemory.held_granting hs.held h hn hc hnx,?_,?_,?_⟩
    · exact outstanding_cons_lt hs.few h (by omega)
    · show s.qmem.allocatedQubits+narrow n =
        BitVec.ofNat 32 (heldQubits (QuantumMemory.withBlock s.qmem k n))
      rw [hheld,hs.allocated,narrow_ofNat,BitVec.ofNat_add]
    · show s.qmem.totalQubits+narrow n = s.qmem.allocatedQubits+narrow n
      rw [hs.total]
  · obtain ⟨k,hk,hc,hnx⟩ := QuantumMemory.allocLocked_failure s.qmem n flags ho
    cases hk.symm.trans hr
    refine ⟨QuantumMemory.held_same hs.held hc rfl hnx,hs.few,?_,hs.total⟩
    show s.qmem.allocatedQubits = BitVec.ofNat 32 (heldQubits (withHeap s.qmem k))
    rw [QuantumMemory.heldQubits_same hc]
    exact hs.allocated

variable [DecidableEq H]

section Reducing

variable {h : H} {Q : QmemCode t QmemAnswer → Session t H → Prop}

abbrev Reducing (h : H) (Q : QmemCode t QmemAnswer → Session t H → Prop)
    (p : QmemCode t QmemAnswer) (s : Session t H) : Prop :=
  Reduces (handle h) LockName.qmem Quiet FreesBlock Q p s

abbrev Concluding (h : H) (Q : QmemCode t QmemAnswer → Session t H → Prop)
    (p : QmemCode t QmemAnswer) (s : Session t H) : Prop :=
  Concludes (handle h) LockName.qmem Quiet FreesBlock Q p s

theorem leave_reducing {a : QmemAnswer} {s : Session t H} (hQ : Q (.ret a) s) :
    Reducing h Q (leave a) s := ⟨rfl,hQ⟩

theorem leave_concluding {a : QmemAnswer} {s : Session t H} (hQ : Q (.ret a) s) :
    Concluding h Q (leave a) s := ⟨rfl,hQ⟩

theorem grant_reducing {s : Session t H} {n flags : ULong t} {p : ℕ} {g k : Heap (Object t)}
    (hk : g.store p (.block ⟨some (p+1),n,flags,1⟩) = some k) (hp : outstanding s.refs p = 0)
    (hQ : Q (.ret (.block (.obj p))) (s.grant h
      { s.qmem with
        heap := k
        usedBlocks := p::s.qmem.usedBlocks
        totalQubits := s.qmem.totalQubits+narrow n
        allocatedQubits := s.qmem.allocatedQubits+narrow n } (.obj p))) :
    Reducing h Q
      (.call (.inl (.setBlock p ⟨some (p+1),n,flags,1⟩)) fun _ =>
        .call (.inl (.listAdd p)) fun _ => .call (.inl (.addTotal n)) fun _ =>
          .call (.inl (.addAllocated n)) fun _ => leave (.block (.obj p)))
      { s with qmem := withHeap s.qmem g } := by
  have hset : ∀ o, handle h o { s with qmem := withHeap s.qmem g }
      (.inl (.setBlock p ⟨some (p+1),n,flags,1⟩)) =
        some ({ s with qmem := withHeap s.qmem k },()) := by
    intro o
    refine unreferenced_some.mpr ⟨hp,access_some.mpr ⟨withHeap s.qmem k,?_,rfl⟩⟩
    simp only [answerQmem,withHeap,hk,Option.map_some]
  refine Reduces.before hset trivial ?_
  refine Reduces.before (fun _ => rfl) ?_ ?_
  · trivial
  refine Reduces.before (fun _ => rfl) ?_ ?_
  · trivial
  refine Reduces.effect (fun _ => rfl) ?_ ?_
  · exact id
  · exact leave_concluding hQ

theorem alloc_reducing {s : Session t H} (hs : Held none s) {n flags : ULong t}
    (hQ : ∀ o r, QuantumMemory.allocLocked s.qmem n flags o = some r →
      Q (.ret (.block r.2)) (s.grant h r.1 r.2)) : Reducing h Q (allocSection n flags) s := by
  have hfresh : outstanding s.refs s.qmem.heap.next = 0 := QuantumMemory.granting_fresh hs
  intro o
  cases ho : o.kzalloc with
  | false =>
    have hstep : handle h o s (.inl .kzallocBlock) = some (s,none) := by
      refine unreferenced_some.mpr ⟨hfresh,access_some.mpr ⟨s.qmem,?_,rfl⟩⟩
      simp [answerQmem,ho]
    exact ⟨s,none,hstep,fun _ => leave_reducing (hQ ⟨false,true⟩ _ rfl),
      fun hn => absurd trivial hn⟩
  | true =>
    let p := s.qmem.heap.next
    let g := s.qmem.heap.alloc (.block QuantumMemory.zeroedBlock)
    let u : Session t H := { s with qmem := withHeap s.qmem g }
    have hstep : handle h o s (.inl .kzallocBlock) = some (u,some p) := by
      refine unreferenced_some.mpr ⟨hfresh,access_some.mpr ⟨u.qmem,?_,rfl⟩⟩
      simp [answerQmem,ho,u,g,p]
    refine ⟨u,some p,hstep,fun _ => ?_,fun hn => absurd trivial hn⟩
    intro o'
    cases ho' : o'.quantumStateAlloc with
    | false =>
      have hstep' : handle h o' u (.inl (.stateAlloc n)) = some (u,none) := by
        refine access_some.mpr ⟨u.qmem,?_,rfl⟩
        simp [answerQmem,ho']
      refine ⟨u,none,hstep',fun _ => ?_,fun hn => absurd trivial hn⟩
      have hnew : g.cells p = some (.block QuantumMemory.zeroedBlock) := by simp [g,p]
      obtain ⟨k,hk⟩ := free_live hnew
      have hfree : ∀ o, handle h o u (.inl (.kfreeBlock (.obj p))) =
          some ({ s with qmem := withHeap s.qmem k },()) := by
        intro o
        refine unreferenced_some.mpr ⟨hfresh,access_some.mpr ⟨withHeap s.qmem k,?_,rfl⟩⟩
        simp only [answerQmem,u,withHeap,hk,Option.map_some]
      have halloc : QuantumMemory.allocLocked s.qmem n flags ⟨true,false⟩ =
          some (withHeap s.qmem k,.errPtr (-enomem)) := by
        show (g.free p).bind _ = _
        rw [hk]
        rfl
      exact Reduces.before hfree trivial (leave_reducing (hQ _ _ halloc))
    | true =>
      let f := g.alloc (.state n)
      have hstep' : handle h o' u (.inl (.stateAlloc n)) =
          some ({ s with qmem := withHeap s.qmem f },some (p+1)) := by
        refine access_some.mpr ⟨withHeap s.qmem f,?_,rfl⟩
        simp only [answerQmem,ho',if_true]
        rfl
      refine ⟨_,some (p+1),hstep',fun _ => ?_,fun hn => absurd trivial hn⟩
      have hnew : f.cells p = some (.block QuantumMemory.zeroedBlock) := by simp [f,g,p]
      obtain ⟨k,hk⟩ := store_live hnew (.block ⟨some (p+1),n,flags,1⟩)
      have halloc : QuantumMemory.allocLocked s.qmem n flags ⟨true,true⟩ =
          some ({ s.qmem with
            heap := k
            usedBlocks := p::s.qmem.usedBlocks
            totalQubits := s.qmem.totalQubits+narrow n
            allocatedQubits := s.qmem.allocatedQubits+narrow n },.obj p) := by
        show (f.store p _).bind _ = _
        rw [show f.store p (.block ⟨some g.next,n,flags,1⟩) = some k from hk]
        rfl
      exact grant_reducing hk hfresh (hQ _ _ halloc)

omit [DecidableEq H] in
theorem state_unreferenced {dying : Option ℕ} {s : Session t H} (hs : Held dying s) {p i : ℕ}
    {b : QuantumMemoryBlock t} (hb : s.qmem.block p = some b) (hi : b.state = some i) :
    s.qmem.heap.cells i = some (.state b.size) ∧ outstanding s.refs i = 0 := by
  obtain ⟨j,hj,hcells⟩ := hs.listed.state p b hb
  obtain rfl : j = i := Option.some.inj (hj.symm.trans hi)
  have hnone : s.qmem.block j = none := by
    rw [CtrlxtQmem.block,hcells]
    rfl
  exact ⟨hcells,hs.tracks.dead (by simp [QuantumMemory.counts,hnone])⟩

theorem drop_reducing {s : Session t H} {p : ℕ} {b : QuantumMemoryBlock t}
    (hb : s.qmem.block p = some b) (hp : outstanding s.refs p = 0) {k : Heap (Object t)}
    (hk : s.qmem.heap.free p = some k)
    (hQ : Q (.ret .done) { s with qmem := { s.qmem with
        heap := k
        totalQubits := s.qmem.totalQubits-narrow b.size
        allocatedQubits := s.qmem.allocatedQubits-narrow b.size } }) :
    Reducing h Q (dropSection p) s := by
  let u : Session t H :=
    { s with qmem := { s.qmem with totalQubits := s.qmem.totalQubits-narrow b.size } }
  let v : Session t H :=
    { u with qmem := { u.qmem with allocatedQubits := s.qmem.allocatedQubits-narrow b.size } }
  have hsize : ∀ o, handle h o s (.inl (.blockSize (.obj p))) = some (s,b.size) := by
    intro o
    refine access_some.mpr ⟨s.qmem,?_,rfl⟩
    simp only [answerQmem,hb,Option.map_some]
  have hagain : ∀ o, handle h o u (.inl (.blockSize (.obj p))) = some (u,b.size) := by
    intro o
    have hu : u.qmem.block p = some b := hb
    refine access_some.mpr ⟨u.qmem,?_,rfl⟩
    simp only [answerQmem,hu,Option.map_some]
  have hfree : ∀ o, handle h o v (.inl (.kfreeBlock (.obj p))) =
      some ({ v with qmem := withHeap v.qmem k },()) := by
    intro o
    refine unreferenced_some.mpr ⟨hp,access_some.mpr ⟨withHeap v.qmem k,?_,rfl⟩⟩
    have hv : v.qmem.heap.free p = some k := hk
    simp only [answerQmem,hv,Option.map_some]
  refine Reduces.before hsize trivial ?_
  refine Reduces.before (u := u) (fun _ => rfl) trivial ?_
  refine Reduces.before hagain trivial ?_
  refine Reduces.effect (u := v) (fun _ => rfl) id ?_
  exact ⟨trivial,fun o => ⟨_,(),hfree o,trivial,leave_concluding hQ⟩⟩

theorem destroy_reducing {s : Session t H} {p : ℕ} (hs : Held (some p) s)
    (hQ : ∀ v, s.destroy p = some v → Q (.ret .done) v) :
    Reducing h Q (destroySection p) s := by
  obtain ⟨b,hb,-⟩ := hs.zero p rfl
  obtain ⟨i,hi,-⟩ := hs.listed.state p b hb
  obtain ⟨hstate,hout⟩ := state_unreferenced hs hb hi
  have hp : outstanding s.refs p = 0 := hs.tracks.dead (by simp [QuantumMemory.counts])
  have hne : p ≠ i := (QuantumMemory.state_ne_block hb hstate).symm
  obtain ⟨k₁,hk₁⟩ := free_live hstate
  have hcells := (free_spec hk₁).2.1
  have hlive : k₁.cells p = some (.block b) := by
    rw [hcells,Function.update_of_ne hne,QuantumMemory.block_eq_some.mp hb]
  obtain ⟨k₂,hk₂⟩ := free_live hlive
  let u : Session t H :=
    { s with qmem := { s.qmem with usedBlocks := s.qmem.usedBlocks.erase p } }
  let v : Session t H := { u with qmem := withHeap u.qmem k₁ }
  have hread : ∀ o, handle h o u (.inl (.blockState (.obj p))) = some (u,some i) := by
    intro o
    have hu : u.qmem.block p = some b := hb
    refine access_some.mpr ⟨u.qmem,?_,rfl⟩
    simp only [answerQmem,hu,Option.map_some,hi]
  have hfree : ∀ o, handle h o u (.inl (.stateFree i)) = some (v,()) := by
    intro o
    have hu : u.qmem.heap.free i = some k₁ := hk₁
    refine unreferenced_some.mpr ⟨hout,access_some.mpr ⟨v.qmem,?_,rfl⟩⟩
    simp only [answerQmem,hu,Option.map_some]
    rfl
  have hblock : v.qmem.block p = some b := QuantumMemory.block_eq_some.mpr hlive
  refine Reduces.before (u := u) (fun _ => rfl) trivial ?_
  refine Reduces.before hread trivial ?_
  refine Reduces.before hfree trivial ?_
  refine drop_reducing hblock hp hk₂ (hQ _ ?_)
  have hrelease : QuantumMemory.releaseBlock s.qmem.heap p = some k₂ := by
    have hasblock : QuantumMemory.asBlock (s.qmem.heap.cells p) = some b := hb
    simp only [QuantumMemory.releaseBlock,hasblock,hi,hk₁,hk₂,Option.bind_eq_bind,
      Option.bind_some]
  rw [Session.destroy,QuantumMemory.destroyBlock_eq,hb,Option.bind_some,hrelease]
  rfl

theorem free_reducing {s : Session t H} (hs : Held none s) (hfew : ∀ p, outstanding s.refs p < 2^31)
    {p : ℕ} (hm : (h,p) ∈ s.refs) (hQ : ∀ v, s.free h p = some v → Q (.ret .done) v) :
    Reducing h Q (freeSection p) s := by
  have hp := hfew p
  obtain ⟨r,zero,hr,hzero,hkept,hrefs,-⟩ := QuantumMemory.decAndTest_kept hs hm (by omega)
  have hlast : zero = true → outstanding r.refs p = 0 := by
    intro hz
    rw [hrefs,outstanding_erase hm,if_pos rfl,hzero.mp hz]
  have hstep : ∀ o, handle h o s (.inl (.decAndTest (.obj p))) = some (r,zero) := by
    intro o
    simp only [handle]
    rw [if_pos hm,hr,Option.bind_some,if_pos hlast]
  have hfree : s.free h p = if zero then r.destroy p else some r := by
    rw [QuantumMemory.free_eq_bind,hr,Option.bind_some]
  cases zero with
  | false => exact Reduces.effect hstep Bool.false_ne_true (leave_concluding (hQ r hfree))
  | true =>
    refine Reduces.before hstep rfl (destroy_reducing hkept.held fun v hv => hQ v ?_)
    rw [hfree]
    exact hv

end Reducing

theorem free_right {s v : Session t H} (hs : BooksRight s) {h : H} {p : ℕ}
    (hm : (h,p) ∈ s.refs) (hv : s.free h p = some v) :
    BooksRight v ∧ v.refs = s.refs.erase (h,p) := by
  have hfew := hs.few p
  obtain ⟨r,hr,hkept,hrefs,-⟩ := QuantumMemory.free_kept hs.held hm (by omega)
  obtain rfl : r = v := Option.some.inj (hr.symm.trans hv)
  have hcounters : r.qmem.allocatedQubits = BitVec.ofNat 32 (heldQubits r.qmem) ∧
      r.qmem.totalQubits = r.qmem.allocatedQubits := by
    obtain ⟨b,hb,-⟩ := hs.held.live hm
    obtain ⟨k,hk,hc,hblock⟩ := QuantumMemory.ctrlxtQmemFree_live hb
    have hheld := QuantumMemory.heldQubits_recount hb hc
    obtain ⟨q,hq,rfl⟩ := Option.map_eq_some_iff.mp hr
    rw [hk] at hq
    split_ifs at hq with h0
    · have hlisted := QuantumMemory.listed_recount hs.held.listed hb hc
      obtain ⟨g,i,hi,hg,hgc,-⟩ := QuantumMemory.destroyBlock_live hlisted hblock
      obtain rfl := Option.some.inj (hg.symm.trans hq)
      have hsum := QuantumMemory.heldQubits_withoutBlock hlisted hblock hi hgc
      refine ⟨?_,congrArg (fun c => c-narrow b.size) hs.total⟩
      show s.qmem.allocatedQubits-narrow b.size = _
      rw [hs.allocated,← hheld,← hsum,narrow_ofNat,Nat.add_comm,BitVec.ofNat_add,
        BitVec.add_sub_cancel]
    · cases hq
      refine ⟨?_,hs.total⟩
      show s.qmem.allocatedQubits = _
      rw [hs.allocated,hheld]
  refine ⟨⟨hkept.held,?_,hcounters.1,hcounters.2⟩,hrefs⟩
  rw [hrefs]
  exact outstanding_erase_lt hs.few hm

inductive Ready (refs : List (H × ℕ)) (h : H) : QmemCode t QmemAnswer → Prop
  | ret (a : QmemAnswer) : Ready refs h (.ret a)
  | read {op : KernelOp t} {next : op.Answer → QmemCode t QmemAnswer} (ho : Outer (.inl op))
      (hrest : ∀ x, Ready refs h (next x)) : Ready refs h (.call (.inl op) next)
  | get {p : ℕ} {a : QmemAnswer} (hm : (h,p) ∈ refs) :
      Ready refs h (.call (.inr (.incRefCount (.obj p))) fun _ => .ret a)
  | setMax (m : ULong t) {a : QmemAnswer} :
      Ready refs h (.call (.inr (.setMaxQubits m)) fun _ => .ret a)
  | alloc {n : ULong t} (flags : ULong t) (hn : 1 ≤ n.toNat ∧ n.toNat ≤ qmemMaxQubitsPerBlock) :
      Ready refs h (.acquire .qmem (allocSection n flags))
  | free {p : ℕ} (hm : (h,p) ∈ refs) : Ready refs h (.acquire .qmem (freeSection p))

omit [DecidableEq H] in
theorem Ready.mono {refs refs' : List (H × ℕ)} {h : H} {p : QmemCode t QmemAnswer}
    (hp : Ready refs h p) (hrefs : ∀ q, (h,q) ∈ refs → (h,q) ∈ refs') : Ready refs' h p := by
  induction hp with
  | ret a => exact .ret a
  | read ho _ ih => exact .read ho ih
  | get hm => exact .get (hrefs _ hm)
  | setMax m => exact .setMax m
  | alloc flags hn => exact .alloc flags hn
  | free hm => exact .free (hrefs _ hm)

omit [DecidableEq H] in
theorem ready_free {refs : List (H × ℕ)} {h : H} {block : Ptr} (hb : holds refs h block) :
    Ready refs h (freeCode block : QmemCode t QmemAnswer) := by
  cases block with
  | null => exact .ret .done
  | errPtr e => exact hb.elim
  | obj p =>
    rw [free_code]
    exact .free hb

omit [DecidableEq H] in
theorem ready_code {s : Session t H} {h : H} {c : QmemCall t} (hc : c.may s h) :
    Ready s.refs h c.code := by
  cases c with
  | alloc n flags =>
    rw [alloc_code]
    split_ifs with hsize
    · exact .ret _
    · refine .read trivial fun allocated => .read trivial fun max => ?_
      split_ifs
      · exact .ret _
      · rw [not_or] at hsize
        have hpos : n.toNat ≠ 0 := fun h0 => hsize.1 (BitVec.eq_of_toNat_eq h0)
        exact .alloc flags ⟨by omega,by omega⟩
  | free block => exact ready_free hc
  | put block =>
    simp only [QmemCall.code]
    split_ifs
    · exact .ret _
    · exact ready_free hc
  | get block =>
    cases block with
    | null => exact .ret _
    | errPtr e => exact hc.elim
    | obj p => exact .get hc
  | setMaxQubits m =>
    refine .read trivial fun allocated => ?_
    split_ifs
    · exact .ret _
    · exact .setMax m

abbrev QmemThreads (t : Target) (H : Type*) :=
  Threads (Session t H) H LockName (QmemOp t) QmemOp.Answer QmemAnswer

abbrev QmemAtomic (t : Target) (H : Type*) :=
  AtomicThreads (Session t H) H LockName (QmemOp t) QmemOp.Answer QmemAnswer

structure ThreadsRight (a : QmemAtomic t H) : Prop where
  books : BooksRight a.shared
  ready : ∀ i p, a.code i = some p → Ready a.shared.refs i p

theorem ThreadsRight.set {a : QmemAtomic t H} (ha : ThreadsRight a) {i : H} {v : Session t H}
    {p : Option (QmemCode t QmemAnswer)} (hv : BooksRight v)
    (hrefs : ∀ j, j ≠ i → ∀ q, (j,q) ∈ a.shared.refs → (j,q) ∈ v.refs)
    (hp : ∀ c, p = some c → Ready v.refs i c) : ThreadsRight (a.set i v p) := by
  refine ⟨hv,fun j c hc => ?_⟩
  rw [atomic_set_code] at hc
  split_ifs at hc with hji
  · rw [hji]
    exact hp c hc
  · exact (ha.ready j c hc).mono (hrefs j hji)

omit [DecidableEq H] in
theorem grant_refs {s : Session t H} {h : H} {q : CtrlxtQmem t} {ptr : Ptr} {r : H × ℕ}
    (hr : r ∈ s.refs) : r ∈ (s.grant h q ptr).refs := by
  cases ptr with
  | obj p => exact List.mem_cons_of_mem _ hr
  | null | errPtr e => exact hr

def SectionDone (s : Session t H) (h : H) (p q : QmemCode t QmemAnswer) (v : Session t H) :
    Prop :=
  (∃ n flags o r, p = allocSection n flags ∧ 1 ≤ n.toNat ∧ n.toNat ≤ qmemMaxQubitsPerBlock ∧
    QuantumMemory.allocLocked s.qmem n flags o = some r ∧ v = s.grant h r.1 r.2 ∧
    q = .ret (.block r.2)) ∨
  ∃ i, p = freeSection i ∧ (h,i) ∈ s.refs ∧ s.free h i = some v ∧ q = .ret .done

theorem ready_reducing {s : Session t H} (hs : BooksRight s) {h : H} {m : LockName}
    {p : QmemCode t QmemAnswer} (hp : Ready s.refs h (.acquire m p)) :
    m = .qmem ∧ Reducing h (SectionDone s h p) p s := by
  cases hp with
  | alloc flags hn =>
    exact ⟨rfl,alloc_reducing hs.held fun o r hr =>
      Or.inl ⟨_,flags,o,r,rfl,hn.1,hn.2,hr,rfl,rfl⟩⟩
  | free hm =>
    exact ⟨rfl,free_reducing hs.held hs.few hm fun v hv => Or.inr ⟨_,rfl,hm,hv,rfl⟩⟩

theorem done_right {a : QmemAtomic t H} (ha : ThreadsRight a) {i : H}
    {p q : QmemCode t QmemAnswer} {v : Session t H} (hv : SectionDone a.shared i p q v) :
    ThreadsRight (a.set i v (some q)) := by
  rcases hv with ⟨n,flags,o,r,-,h1,h2,hr,rfl,rfl⟩ | ⟨k,-,hm,hv,rfl⟩
  · refine ha.set (alloc_right ha.books i ⟨h1,h2⟩ hr) (fun j _ k hk => grant_refs hk) ?_
    rintro c ⟨⟩
    exact .ret _
  · obtain ⟨hright,hrefs⟩ := free_right ha.books hm hv
    refine ha.set hright (fun j hj k hk => ?_) ?_
    · rw [hrefs]
      exact (List.mem_erase_of_ne fun he => hj (Prod.mk.inj he).1).mpr hk
    · rintro c ⟨⟩
      exact .ret _

theorem settled_same {h : H} (o o' : AllocOutcome) {s : Session t H} {op : QmemOp t}
    (hop : FreesBlock op) : handle h o s op = handle h o' s op := by
  rcases op with op | op
  · cases op with
    | kfreeBlock ptr => cases ptr <;> rfl
    | _ => exact hop.elim
  · exact hop.elim

theorem ready_go {a : QmemAtomic t H} (ha : ThreadsRight a) {i : H} {op : QmemOp t}
    {next : op.Answer → QmemCode t QmemAnswer} (hi : a.code i = some (.call op next))
    (hfits : QmemOp.fits a.shared i op) : Outer op ∧ ∀ o, ∃ u x,
      handle i o a.shared op = some (u,x) ∧ ThreadsRight (a.set i u (some (next x))) := by
  have hready := ha.ready i _ hi
  cases hready with
  | @read op _ ho hrest =>
    refine ⟨ho,fun o => ?_⟩
    have hsame : ∃ x, handle i o a.shared (.inl op) = some (a.shared,x) := by
      cases op with
      | allocatedQubits | maxQubits => exact ⟨_,rfl⟩
      | _ => exact ho.elim
    obtain ⟨x,hx⟩ := hsame
    refine ⟨a.shared,x,hx,ha.set ha.books (fun _ _ _ h => h) ?_⟩
    rintro c ⟨⟩
    exact hrest x
  | get hm =>
    obtain ⟨r,hr,hright,hrefs⟩ := get_right ha.books hm hfits
    refine ⟨trivial,fun o => ⟨r,(),?_,ha.set hright (fun j _ k hk => ?_) ?_⟩⟩
    · simp only [handle]
      rw [if_pos hm,hr]
      rfl
    · rw [hrefs]
      exact List.mem_cons_of_mem _ hk
    · rintro c ⟨⟩
      exact .ret _
  | setMax m =>
    refine ⟨trivial,fun o => ⟨limited a.shared m,(),rfl,
      ha.set (setMax_right ha.books m) (fun _ _ _ h => h) ?_⟩⟩
    rintro c ⟨⟩
    exact .ret _

theorem qmem_atomic : Atomic .qmem (qmemInterface : Interface (Session t H) H (QmemCall t)
    LockName (QmemOp t) QmemOp.Answer QmemAnswer) handle Outer FreesBlock Quiet
      ThreadsRight where
  settles o o' _ _ hop := settled_same o o' hop
  start ha hi hmay := by
    refine ha.set ha.books (fun _ _ _ h => h) ?_
    rintro c ⟨⟩
    exact ready_code hmay
  go ha hi hfits := ready_go ha hi hfits
  locked ha hi := by
    obtain ⟨hm,hp⟩ := ready_reducing ha.books (ha.ready _ _ hi)
    exact ⟨hm,hp.mono fun q v hv => done_right ha hv⟩
  release ha hi := by
    have hready := ha.ready _ _ hi
    cases hready
  finish ha _ := ha.set ha.books (fun _ _ _ h => h) nofun

omit [DecidableEq H] in
theorem resting_right : ThreadsRight (restingAtomic QuantumMemory.loaded : QmemAtomic t H) :=
  ⟨loaded_right,nofun⟩

instance : Nonempty AllocOutcome := ⟨⟨true,true⟩⟩

abbrev qmemThreads (t : Target) (H : Type*) [DecidableEq H] :
    Machine (QmemThreads t H) (ThreadStep AllocOutcome H (QmemCall t)) :=
  threads .qmem qmemInterface handle

abbrev qmemAtomic (t : Target) (H : Type*) [DecidableEq H] :
    Machine (QmemAtomic t H) (AtomicStep AllocOutcome H (QmemCall t)) :=
  atomicThreads qmemInterface handle

/-- Threads that run the manager's code one access at a time do what they do when
every locked section is one step, and such a step is what the model of the
manager does; outside the sections the manager is the same too. -/
theorem threads_atomic {ls : List (ThreadStep AllocOutcome H (QmemCall t))} {u : QmemThreads t H}
    (h : Run (qmemThreads t H) (resting QuantumMemory.loaded) ls u) :
    ∃ ks a, Run (qmemAtomic t H) (restingAtomic QuantumMemory.loaded) ks a ∧
      Always (qmemAtomic t H) (SectionIs .qmem handle SectionDone)
        (restingAtomic QuantumMemory.loaded) ks ∧
      trace (qmemAtomic t H) shown (restingAtomic QuantumMemory.loaded) ks =
        trace (qmemThreads t H) seen (resting QuantumMemory.loaded) ls ∧
      (u.owner = none → u.shared = a.shared ∧ u.code = a.code) :=
  run_atomic qmem_commuting qmem_atomic
    (fun ha hi => (ready_reducing ha.books (ha.ready _ _ hi)).2) resting_right h

def decidableHolds (refs : List (H × ℕ)) (h : H) : (p : Ptr) → Decidable (holds refs h p)
  | .null => .isTrue trivial
  | .obj p => inferInstanceAs (Decidable ((h,p) ∈ refs))
  | .errPtr _ => .isFalse id

instance (s : Session t H) (h : H) : (c : QmemCall t) → Decidable (qmemInterface.may s h c)
  | .free block | .get block | .put block => decidableHolds s.refs h block
  | .alloc _ _ | .setMaxQubits _ => .isTrue trivial

instance (s : Session t H) (h : H) : (op : QmemOp t) → Decidable (qmemInterface.fits s h op)
  | .inr (.incRefCount (.obj p)) =>
    inferInstanceAs (Decidable (outstanding s.refs p+1 < 2^31))
  | .inr (.incRefCount .null) | .inr (.incRefCount (.errPtr _)) | .inr (.setMaxQubits _)
  | .inl _ => .isTrue trivial

/-- One thread allocates 60 qubits while the other lowers the limit to 64 and
allocates 5, which its test allows since the first has not counted yet. -/
def overlapping : List (ThreadStep AllocOutcome Bool (QmemCall .bits64)) :=
  let first := .go true ⟨true,true⟩
  let second := .go false ⟨true,true⟩
  [.start true (.alloc 60 0),first,.start false (.setMaxQubits 64),second,first,first,first,first,
    second,.finish false,.start false (.alloc 5 0),second,first,second,first,first,first,first,
    .finish true,second,.start true (.get (.obj 1)),first,second,.finish true,second,second,second,
    second,second,second,.finish false,.start true (.put (.obj 1)),first,first,first,.finish true]

theorem threads_atomic_overlapping :
    ∃ (u : QmemThreads .bits64 Bool) (ls : List (ThreadStep AllocOutcome Bool (QmemCall .bits64)))
      (ks : List (AtomicStep AllocOutcome Bool (QmemCall .bits64))) (a : QmemAtomic .bits64 Bool),
      Run (qmemThreads .bits64 Bool) (resting QuantumMemory.loaded) ls u ∧ ls.length = 36 ∧
      Run (qmemAtomic .bits64 Bool) (restingAtomic QuantumMemory.loaded) ks a ∧
      u.shared = a.shared := by
  have h : ∃ u, Run (qmemThreads .bits64 Bool) (resting QuantumMemory.loaded) overlapping u ∧
      u.owner = none := ⟨_,run_iff_exec.mpr rfl,rfl⟩
  obtain ⟨u,hu,howner⟩ := h
  obtain ⟨ks,a,hrun,-,-,hshared⟩ := threads_atomic hu
  exact ⟨u,overlapping,ks,a,hu,rfl,hrun,(hshared howner).1⟩

def Locked (op : QmemOp t) : Prop := op.isLeft = true

omit [DecidableEq H] in
theorem section_locked {refs : List (H × ℕ)} {h : H} {m : LockName} {p : QmemCode t QmemAnswer}
    (hp : Ready refs h (.acquire m p)) : Inner Locked p := by
  have hdrop : ∀ i, Inner Locked (dropSection i : QmemCode t QmemAnswer) := fun i =>
    ⟨rfl,fun _ => ⟨rfl,fun _ => ⟨rfl,fun _ => ⟨rfl,fun _ => ⟨rfl,fun _ => trivial⟩⟩⟩⟩⟩
  cases hp with
  | alloc flags hn =>
    refine ⟨rfl,fun block => ?_⟩
    cases block with
    | none => trivial
    | some block =>
      refine ⟨rfl,fun state => ?_⟩
      cases state with
      | none => exact ⟨rfl,fun _ => trivial⟩
      | some state =>
        exact ⟨rfl,fun _ => ⟨rfl,fun _ => ⟨rfl,fun _ => ⟨rfl,fun _ => trivial⟩⟩⟩⟩
  | free hm =>
    refine ⟨rfl,fun zero => ?_⟩
    cases zero with
    | false => trivial
    | true =>
      refine ⟨rfl,fun _ => ⟨rfl,fun state => ?_⟩⟩
      cases state with
      | none => exact hdrop _
      | some i => exact ⟨rfl,fun _ => hdrop _⟩

omit [DecidableEq H] in
theorem locked_fits (s : Session t H) (h : H) (op : QmemOp t) (hop : Locked op) :
    (qmemInterface : Interface (Session t H) H (QmemCall t) LockName (QmemOp t) QmemOp.Answer
      QmemAnswer).fits s h op := by
  rcases op with op | op
  · trivial
  · cases hop

/-- No thread touches an object that is not live or takes one away that somebody
refers to, whoever has the lock gives it back after some steps of its own, and
while nobody has it blocks, references and counters agree. -/
theorem threads_safe {ls : List (ThreadStep AllocOutcome H (QmemCall t))} {u : QmemThreads t H}
    (h : Run (qmemThreads t H) (resting QuantumMemory.loaded) ls u) :
    (∀ x, (qmemThreads t H).enabled u x → ∃ v, (qmemThreads t H).step u x = some v) ∧
    (∀ i, u.owner = some i → ∀ os : ℕ → AllocOutcome, ∃ n v,
      Run (qmemThreads t H) u ((List.range n).map fun k => .go i (os k)) v ∧ v.owner = none) ∧
    (u.owner = none → BooksRight u.shared) := by
  obtain ⟨ks,a,-,hrel,-⟩ := run_matched qmem_commuting qmem_atomic resting_right h
  refine ⟨fun x he => step_result qmem_commuting qmem_atomic hrel he,fun i howner os => ?_,
    fun howner => ?_⟩
  · refine hrel.released qmem_atomic locked_fits (fun op hop => ?_) (fun ha hi => ?_) howner os
    · rcases op with op | op
      · rfl
      · exact hop.elim
    · exact section_locked (ha.ready _ _ hi)
  · rw [hrel.free howner]
    exact hrel.inv.books

theorem threads_safe_overlapping :
    ∃ u : QmemThreads .bits64 Bool, Run (qmemThreads .bits64 Bool) (resting QuantumMemory.loaded)
      (overlapping.take 15) u ∧ u.owner = some true ∧ ∃ n v, Run (qmemThreads .bits64 Bool) u
        ((List.range n).map fun _ => .go true ⟨true,true⟩) v ∧ v.owner = none := by
  have h : ∃ u, Run (qmemThreads .bits64 Bool) (resting QuantumMemory.loaded)
      (overlapping.take 15) u ∧ u.owner = some true := ⟨_,run_iff_exec.mpr rfl,rfl⟩
  obtain ⟨u,hu,howner⟩ := h
  exact ⟨u,hu,howner,(threads_safe hu).2.1 true howner fun _ => ⟨true,true⟩⟩

end CtrlxtKernel.KernelThreads
