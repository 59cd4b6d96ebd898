import CtrlxtKernel.QuantumMemoryAccounting
import CtrlxtKernel.RefLedger

/-!
# Callers and their references

A session is the manager together with the ledger of the references its
callers hold. A caller gains a reference from a successful allocation or from
`ctrlxt_qmem_get`, and gives one up to `ctrlxt_qmem_put` or `ctrlxt_qmem_free`.
The session also records the block and the state of every allocation granted,
so that what became of a destroyed block can still be said.
-/

set_option autoImplicit false

namespace CtrlxtKernel.QuantumMemory
open MachineInt ObjectHeap RefLedger

variable {t : Target} {H : Type*}

structure Session (t : Target) (H : Type*) where
  qmem : CtrlxtQmem t
  refs : List (H × ℕ)
  granted : List (ℕ × Option ℕ)

def Session.start (q : CtrlxtQmem t) : Session t H := ⟨q,[],[]⟩

def Session.grant (s : Session t H) (h : H) (q : CtrlxtQmem t) : Ptr → Session t H
  | .obj p => ⟨q,(h,p)::s.refs,(p,(q.block p).bind (fun b => b.state))::s.granted⟩
  | _ => { s with qmem := q }

def Session.allocLocked (s : Session t H) (h : H) (numQubits flags : ULong t)
    (o : AllocOutcome) : Option (Session t H) :=
  (QuantumMemory.allocLocked s.qmem numQubits flags o).map (fun r => s.grant h r.1 r.2)

def Session.alloc (s : Session t H) (h : H) (numQubits flags : ULong t)
    (o : AllocOutcome) : Option (Session t H) :=
  (ctrlxtQmemAlloc s.qmem numQubits flags o).map (fun r => s.grant h r.1 r.2)

def Session.get (s : Session t H) (h : H) (p : ℕ) : Option (Session t H) :=
  (ctrlxtQmemGet s.qmem (.obj p)).map (fun r =>
    { s with qmem := r.1, refs := (h,p)::s.refs })

def Session.put [DecidableEq H] (s : Session t H) (h : H) (p : ℕ) : Option (Session t H) :=
  (ctrlxtQmemPut s.qmem (.obj p)).map (fun q =>
    { s with qmem := q, refs := s.refs.erase (h,p) })

def Session.free [DecidableEq H] (s : Session t H) (h : H) (p : ℕ) : Option (Session t H) :=
  (ctrlxtQmemFree s.qmem (.obj p)).map (fun q =>
    { s with qmem := q, refs := s.refs.erase (h,p) })

def Session.decAndTest [DecidableEq H] (s : Session t H) (h : H) (p : ℕ) :
    Option (Session t H × Bool) :=
  (atomicDecAndTest s.qmem p).map (fun r =>
    ({ s with qmem := r.1, refs := s.refs.erase (h,p) },r.2))

def Session.destroy (s : Session t H) (p : ℕ) : Option (Session t H) :=
  (destroyBlock s.qmem p).map (fun q => { s with qmem := q })

/-- The ledger after a pointer was passed to `ctrlxt_qmem_free`. -/
def Session.giveUp [DecidableEq H] (s : Session t H) (h : H) (q : CtrlxtQmem t) :
    Ptr → Session t H
  | .obj p => { s with qmem := q, refs := s.refs.erase (h,p) }
  | _ => { s with qmem := q }

theorem giveUp_refs [DecidableEq H] (s : Session t H) (h : H) (q : CtrlxtQmem t) (p : ℕ) :
    (s.giveUp h q (.obj p)).refs = s.refs.erase (h,p) := rfl

theorem put_eq_free [DecidableEq H] (s : Session t H) (h : H) (p : ℕ) :
    s.put h p = s.free h p := rfl

theorem free_eq_bind [DecidableEq H] (s : Session t H) (h : H) (p : ℕ) :
    s.free h p = (s.decAndTest h p).bind (fun r => if r.2 then r.1.destroy p else some r.1) := by
  simp only [Session.free,Session.decAndTest,Session.destroy,ctrlxtQmemFree]
  cases atomicDecAndTest s.qmem p with
  | none => rfl
  | some r =>
    obtain ⟨q,zero⟩ := r
    cases zero <;> rfl

def counts (q : CtrlxtQmem t) (dying : Option ℕ) (p : ℕ) : Option CInt :=
  if dying = some p then none else (q.block p).map (fun b => b.refCount)

/-- The record of a grant: the block is live and owns the recorded state, or
both are gone. -/
def Settled (q : CtrlxtQmem t) (p : ℕ) (st : Option ℕ) : Prop :=
  ∃ i, st = some i ∧ p < q.heap.next ∧ i < q.heap.next ∧
    ((∃ b, q.block p = some b ∧ b.state = some i) ∨
      (q.heap.cells p = none ∧ q.heap.cells i = none))

structure Held (dying : Option ℕ) (s : Session t H) : Prop where
  listed : Listed s.qmem
  tracks : Tracks (counts s.qmem dying) s.refs
  settled : ∀ g ∈ s.granted, Settled s.qmem g.1 g.2
  issued : ∀ p b, s.qmem.block p = some b → (p,b.state) ∈ s.granted
  zero : ∀ p, dying = some p → ∃ b, s.qmem.block p = some b ∧ b.refCount = 0

theorem counts_eq_some {q : CtrlxtQmem t} {dying : Option ℕ} {p : ℕ} {c : CInt} :
    counts q dying p = some c ↔ dying ≠ some p ∧ ∃ b, q.block p = some b ∧ b.refCount = c := by
  unfold counts
  split_ifs with h <;> simp [h]

theorem Held.live {dying : Option ℕ} {s : Session t H} (hs : Held dying s) {h : H} {p : ℕ}
    (hm : (h,p) ∈ s.refs) : ∃ b, s.qmem.block p = some b ∧
      counts s.qmem dying p = some b.refCount ∧ dying ≠ some p := by
  have hl := (hs.tracks.live p).mpr (outstanding_pos hm)
  obtain ⟨c,hc⟩ := Option.isSome_iff_exists.mp hl
  obtain ⟨hd,b,hb,rfl⟩ := counts_eq_some.mp hc
  exact ⟨b,hb,hc,hd⟩

theorem counts_update {q r : CtrlxtQmem t} {dying : Option ℕ} {p : ℕ}
    {b : Option (QuantumMemoryBlock t)} (h : r.block = Function.update q.block p b)
    (hd : dying ≠ some p) :
    counts r dying = Function.update (counts q dying) p (b.map (fun b => b.refCount)) := by
  funext i
  unfold counts
  rw [h]
  by_cases hi : i = p
  · subst i
    simp [hd]
  · simp [Function.update_of_ne hi]

theorem counts_dying {q r : CtrlxtQmem t} {p : ℕ} {b : Option (QuantumMemoryBlock t)}
    (h : r.block = Function.update q.block p b) :
    counts r (some p) = Function.update (counts q none) p none := by
  funext i
  unfold counts
  rw [h]
  by_cases hi : i = p
  · subst i
    simp
  · simp [Function.update_of_ne hi,Ne.symm hi]

theorem counts_destroyed {q r : CtrlxtQmem t} {p : ℕ}
    (h : r.block = Function.update q.block p none) : counts r none = counts q (some p) := by
  funext i
  unfold counts
  rw [h]
  by_cases hi : i = p
  · subst i
    simp
  · simp [Function.update_of_ne hi,Ne.symm hi]

theorem settled_same {q r : CtrlxtQmem t} (hc : r.heap.cells = q.heap.cells)
    (hn : q.heap.next ≤ r.heap.next) {p : ℕ} {st : Option ℕ} (h : Settled q p st) :
    Settled r p st := by
  obtain ⟨i,hi,hp,hin,hh⟩ := h
  refine ⟨i,hi,by omega,by omega,?_⟩
  rw [block_same hc,hc]
  exact hh

theorem held_same {dying : Option ℕ} {s : Session t H} (hs : Held dying s) {r : CtrlxtQmem t}
    (hc : r.heap.cells = s.qmem.heap.cells) (hu : r.usedBlocks = s.qmem.usedBlocks)
    (hn : s.qmem.heap.next ≤ r.heap.next) : Held dying { s with qmem := r } := by
  have hb : r.block = s.qmem.block := block_same hc
  constructor
  · exact listed_same hs.listed hc hu
  · have hcounts : counts r dying = counts s.qmem dying := by
      funext p
      simp only [counts,hb]
    change Tracks (counts r dying) s.refs
    rw [hcounts]
    exact hs.tracks
  · intro g hg
    exact settled_same hc hn (hs.settled g hg)
  · intro p b hp
    exact hs.issued p b (by rw [← hb]; exact hp)
  · intro p hp
    change ∃ b, r.block p = some b ∧ _
    rw [hb]
    exact hs.zero p hp

theorem settled_recount {q : CtrlxtQmem t} {p : ℕ} {b : QuantumMemoryBlock t} {c : CInt}
    (hb : q.block p = some b) {k : Heap (Object t)}
    (hc : k.cells = Function.update q.heap.cells p (some (.block { b with refCount := c })))
    (hn : k.next = q.heap.next) {i : ℕ} {st : Option ℕ} (h : Settled q i st) :
    Settled (withHeap q k) i st := by
  have hr := withHeap_block hc
  obtain ⟨j,hj,hi,hjn,hh⟩ := h
  refine ⟨j,hj,hn ▸ hi,hn ▸ hjn,?_⟩
  change _ ∨ (k.cells i = none ∧ k.cells j = none)
  rcases hh with ⟨d,hd,hds⟩ | ⟨hi0,hj0⟩
  · left
    by_cases hip : i = p
    · subst i
      refine ⟨{ b with refCount := c },by rw [hr,Function.update_self],?_⟩
      obtain rfl : d = b := Option.some.inj (hd.symm.trans hb)
      exact hds
    · exact ⟨d,by rw [hr,Function.update_of_ne hip,hd],hds⟩
  · right
    have hcp := block_eq_some.mp hb
    have hip : i ≠ p := by
      rintro rfl
      rw [hcp] at hi0
      cases hi0
    have hjp : j ≠ p := by
      rintro rfl
      rw [hcp] at hj0
      cases hj0
    rw [hc,Function.update_of_ne hip,Function.update_of_ne hjp]
    exact ⟨hi0,hj0⟩

theorem held_recount {dying after : Option ℕ} {s : Session t H} (hs : Held dying s) {p : ℕ}
    {b : QuantumMemoryBlock t} {c : CInt} (hb : s.qmem.block p = some b) {k : Heap (Object t)}
    (hc : k.cells = Function.update s.qmem.heap.cells p
      (some (.block { b with refCount := c }))) (hn : k.next = s.qmem.heap.next)
    {refs : List (H × ℕ)} (ht : Tracks (counts (withHeap s.qmem k) after) refs)
    (hz : ∀ i, after = some i → ∃ e, (withHeap s.qmem k).block i = some e ∧ e.refCount = 0) :
    Held after { s with qmem := withHeap s.qmem k, refs := refs } := by
  have hr := withHeap_block hc
  constructor
  · exact listed_recount hs.listed hb hc
  · exact ht
  · intro g hg
    exact settled_recount hb hc hn (hs.settled g hg)
  · intro i d hd
    change (withHeap s.qmem k).block i = some d at hd
    rw [hr] at hd
    rcases update_eq_some.mp hd with ⟨rfl,hv⟩ | ⟨-,hd⟩
    · cases hv
      exact hs.issued i b hb
    · exact hs.issued i d hd
  · exact hz

structure Kept (dying : Option ℕ) (s r : Session t H) : Prop where
  held : Held dying r
  counted : Counted s.qmem → Counted r.qmem

theorem get_kept {dying : Option ℕ} {s : Session t H} (hs : Held dying s) {h : H} {p : ℕ}
    (hm : (h,p) ∈ s.refs) : ∃ r, s.get h p = some r ∧ Kept dying s r ∧
      r.refs = (h,p)::s.refs ∧ r.granted = s.granted := by
  obtain ⟨b,hb,hcb,hd⟩ := hs.live hm
  obtain ⟨k,hk,hc,hn⟩ := ctrlxtQmemGet_live hb
  have hr := withHeap_block hc
  refine ⟨{ s with qmem := withHeap s.qmem k, refs := (h,p)::s.refs },
    by simp [Session.get,hk],⟨?_,?_⟩,rfl,rfl⟩
  · apply held_recount hs hb hc hn
    · rw [counts_update hr hd]
      exact tracks_acquire hs.tracks h hcb
    · intro i hi
      have hip : i ≠ p := by
        rintro rfl
        exact hd hi
      rw [hr,Function.update_of_ne hip]
      exact hs.zero i hi
  · exact fun hq => counted_recount hq hb hc

theorem settled_withoutBlock {q : CtrlxtQmem t} (hq : Listed q) {k : Heap (Object t)} {p s : ℕ}
    {b : QuantumMemoryBlock t} (hb : q.block p = some b) (hs : b.state = some s)
    (hc : k.cells = Function.update (Function.update q.heap.cells s none) p none)
    (hn : k.next = q.heap.next) {i : ℕ} {st : Option ℕ} (h : Settled q i st) :
    Settled (withoutBlock q k p b.size) i st := by
  obtain ⟨u,hu,hcs⟩ := hq.state p b hb
  obtain rfl : u = s := Option.some.inj (hu.symm.trans hs)
  have hr : (withoutBlock q k p b.size).block = Function.update q.block p none :=
    withoutBlock_block hcs hc
  obtain ⟨j,hj,hi,hjn,hh⟩ := h
  refine ⟨j,hj,hn ▸ hi,hn ▸ hjn,?_⟩
  change _ ∨ (k.cells i = none ∧ k.cells j = none)
  rw [hr,hc]
  rcases hh with ⟨d,hd,hds⟩ | ⟨hi0,hj0⟩
  · by_cases hip : i = p
    · right
      subst i
      obtain rfl : d = b := Option.some.inj (hd.symm.trans hb)
      obtain rfl : j = u := Option.some.inj (hds.symm.trans hs)
      refine ⟨Function.update_self ..,?_⟩
      by_cases hjp : j = p
      · simp [hjp]
      · simp [Function.update_of_ne hjp]
    · left
      exact ⟨d,by rw [Function.update_of_ne hip,hd],hds⟩
  · right
    constructor
    · simp [Function.update_apply,hi0]
    · simp [Function.update_apply,hj0]

theorem held_withoutBlock {s : Session t H} {p i : ℕ} (hs : Held (some p) s)
    {b : QuantumMemoryBlock t} (hb : s.qmem.block p = some b) (hi : b.state = some i)
    {k : Heap (Object t)}
    (hc : k.cells = Function.update (Function.update s.qmem.heap.cells i none) p none)
    (hn : k.next = s.qmem.heap.next) :
    Held none { s with qmem := withoutBlock s.qmem k p b.size } := by
  obtain ⟨u,hu,hcs⟩ := hs.listed.state p b hb
  obtain rfl : u = i := Option.some.inj (hu.symm.trans hi)
  have hr : (withoutBlock s.qmem k p b.size).block = Function.update s.qmem.block p none :=
    withoutBlock_block hcs hc
  constructor
  · exact listed_withoutBlock hs.listed hb hi hc
  · change Tracks (counts (withoutBlock s.qmem k p b.size) none) _
    rw [counts_destroyed hr]
    exact hs.tracks
  · intro g hg
    exact settled_withoutBlock hs.listed hb hi hc hn (hs.settled g hg)
  · intro j d hd
    change (withoutBlock s.qmem k p b.size).block j = some d at hd
    rw [hr] at hd
    rcases update_eq_some.mp hd with ⟨-,hd⟩ | ⟨-,hd⟩
    · cases hd
    · exact hs.issued j d hd
  · intro j hj
    cases hj

theorem destroy_kept {s : Session t H} {p : ℕ} (hs : Held (some p) s) :
    ∃ r, s.destroy p = some r ∧ Kept none s r ∧ r.refs = s.refs ∧ r.granted = s.granted := by
  obtain ⟨b,hb,-⟩ := hs.zero p rfl
  obtain ⟨k,i,hi,hk,hc,hn⟩ := destroyBlock_live hs.listed hb
  refine ⟨{ s with qmem := withoutBlock s.qmem k p b.size },by simp [Session.destroy,hk],
    ⟨held_withoutBlock hs hb hi hc hn,?_⟩,rfl,rfl⟩
  exact fun hq => counted_withoutBlock hs.listed hq hb hi hc

theorem decAndTest_kept [DecidableEq H] {s : Session t H} (hs : Held none s) {h : H} {p : ℕ}
    (hm : (h,p) ∈ s.refs) (hb : outstanding s.refs p ≤ 2^32) :
    ∃ r zero, s.decAndTest h p = some (r,zero) ∧ (zero = true ↔ outstanding s.refs p = 1) ∧
      Kept (if zero then some p else none) s r ∧ r.refs = s.refs.erase (h,p) ∧
      r.granted = s.granted := by
  obtain ⟨b,hbp,hcb,hd⟩ := hs.live hm
  have hlast := hs.tracks.last_iff hcb hb
  obtain ⟨k,hk,hc,hn⟩ := atomicDecAndTest_live hbp
  have hr := withHeap_block hc
  refine ⟨{ s with qmem := withHeap s.qmem k, refs := s.refs.erase (h,p) },
    decide (b.refCount-1 = 0),by simp [Session.decAndTest,hk],by simpa using hlast,⟨?_,?_⟩,
    rfl,rfl⟩
  · by_cases hl : b.refCount-1 = 0
    · simp only [hl,decide_true,if_true]
      apply held_recount hs hbp hc hn
      · rw [counts_dying hr]
        exact tracks_destroy hs.tracks hm (hlast.mp hl)
      · intro i hi
        cases hi
        exact ⟨_,by rw [hr,Function.update_self],hl⟩
    · simp only [hl,decide_false,Bool.false_eq_true,if_false]
      apply held_recount hs hbp hc hn
      · rw [counts_update hr hd]
        exact tracks_release hs.tracks hcb hm (fun h1 => hl (hlast.mpr h1))
      · intro i hi
        cases hi
  · exact fun hq => counted_recount hq hbp hc

theorem free_kept [DecidableEq H] {s : Session t H} (hs : Held none s) {h : H} {p : ℕ}
    (hm : (h,p) ∈ s.refs) (hb : outstanding s.refs p ≤ 2^32) :
    ∃ r, s.free h p = some r ∧ Kept none s r ∧ r.refs = s.refs.erase (h,p) ∧
      r.granted = s.granted := by
  obtain ⟨r,zero,hr,-,hk,hrefs,hg⟩ := decAndTest_kept hs hm hb
  rw [free_eq_bind,hr,Option.bind_some]
  cases zero with
  | false => exact ⟨r,rfl,hk,hrefs,hg⟩
  | true =>
    obtain ⟨u,hu,hku,hurefs,hug⟩ := destroy_kept hk.held
    exact ⟨u,hu,⟨hku.held,fun hq => hku.counted (hk.counted hq)⟩,hurefs.trans hrefs,hug.trans hg⟩

def Session.granting (s : Session t H) (h : H) (k : Heap (Object t)) (n : ULong t) :
    Session t H where
  qmem := withBlock s.qmem k n
  refs := (h,s.qmem.heap.next)::s.refs
  granted := (s.qmem.heap.next,some (s.qmem.heap.next+1))::s.granted

theorem settled_withBlock {q : CtrlxtQmem t} {k : Heap (Object t)} {n flags : ULong t}
    (hc : k.cells = Function.update
        (Function.update q.heap.cells (q.heap.next+1) (some (.state n)))
        q.heap.next (some (.block (newBlock q n flags))))
    (hn : k.next = q.heap.next+2) {i : ℕ} {st : Option ℕ} (h : Settled q i st) :
    Settled (withBlock q k n) i st := by
  obtain ⟨j,hj,hi,hjn,hh⟩ := h
  have hi2 : i < k.next := by omega
  have hj2 : j < k.next := by omega
  refine ⟨j,hj,hi2,hj2,?_⟩
  change _ ∨ (k.cells i = none ∧ k.cells j = none)
  rw [withBlock_block hc,Function.update_of_ne (by omega),hc,Function.update_of_ne (by omega),
    Function.update_of_ne (by omega),Function.update_of_ne (by omega),
    Function.update_of_ne (by omega)]
  exact hh

theorem held_granting {s : Session t H} (hs : Held none s) (h : H) {k : Heap (Object t)}
    {n flags : ULong t} (hn : 1 ≤ n.toNat ∧ n.toNat ≤ qmemMaxQubitsPerBlock)
    (hc : k.cells = Function.update
        (Function.update s.qmem.heap.cells (s.qmem.heap.next+1) (some (.state n)))
        s.qmem.heap.next (some (.block (newBlock s.qmem n flags))))
    (hnx : k.next = s.qmem.heap.next+2) : Held none (s.granting h k n) := by
  have hb := withBlock_block hc
  have hf := block_fresh s.qmem (le_refl s.qmem.heap.next)
  constructor
  · exact listed_withBlock hs.listed hn hc
  · change Tracks (counts (withBlock s.qmem k n) none) ((h,s.qmem.heap.next)::s.refs)
    rw [counts_update hb (by simp)]
    exact tracks_create hs.tracks h (by simp [counts,hf])
  · intro g hg
    rcases List.mem_cons.mp hg with rfl | hg
    · have h1 : s.qmem.heap.next < k.next := by omega
      have h2 : s.qmem.heap.next+1 < k.next := by omega
      refine ⟨s.qmem.heap.next+1,rfl,h1,h2,Or.inl ⟨newBlock s.qmem n flags,?_,rfl⟩⟩
      change (withBlock s.qmem k n).block s.qmem.heap.next = _
      rw [hb,Function.update_self]
    · exact settled_withBlock hc hnx (hs.settled g hg)
  · intro p b hp
    change (withBlock s.qmem k n).block p = some b at hp
    rw [hb] at hp
    rcases update_eq_some.mp hp with ⟨rfl,hv⟩ | ⟨-,hp⟩
    · cases hv
      exact List.mem_cons_self
    · exact List.mem_cons_of_mem _ (hs.issued p b hp)
  · intro p hp
    cases hp

theorem allocLocked_granted {s : Session t H} (hs : Held none s) (h : H) {n : ULong t}
    (flags : ULong t) (hn : 1 ≤ n.toNat ∧ n.toNat ≤ qmemMaxQubitsPerBlock) :
    ∃ k, s.allocLocked h n flags ⟨true,true⟩ = some (s.granting h k n) ∧
      Held none (s.granting h k n) ∧
      (Counted s.qmem → overLimit s.qmem n = false → Counted (s.granting h k n).qmem) ∧
      ∃ b, (s.granting h k n).qmem.block s.qmem.heap.next = some b ∧ b.size = n := by
  obtain ⟨k,hk,hc,hnx⟩ := allocLocked_success s.qmem n flags
  have hb := withBlock_block hc
  have hbn : (withBlock s.qmem k n).block s.qmem.heap.next = some (newBlock s.qmem n flags) := by
    rw [hb,Function.update_self]
  refine ⟨k,?_,held_granting hs h hn hc hnx,?_,newBlock s.qmem n flags,hbn,rfl⟩
  · simp [Session.allocLocked,hk,Session.grant,Session.granting,hbn,newBlock]
  · exact fun hq ho => counted_withBlock hs.listed hq hn.2 ho hc

theorem allocLocked_refused {dying : Option ℕ} {s : Session t H} (hs : Held dying s) (h : H)
    (n flags : ULong t) {o : AllocOutcome} (ho : o ≠ ⟨true,true⟩) :
    ∃ r, s.allocLocked h n flags o = some r ∧ Kept dying s r ∧ r.refs = s.refs ∧
      r.granted = s.granted := by
  obtain ⟨k,hk,hc,hn⟩ := allocLocked_failure s.qmem n flags ho
  refine ⟨{ s with qmem := withHeap s.qmem k },
    by simp [Session.allocLocked,hk,Session.grant],⟨?_,?_⟩,rfl,rfl⟩
  · exact held_same hs hc rfl hn
  · exact fun hq => counted_same hq hc

theorem granting_fresh {s : Session t H} (hs : Held none s) :
    outstanding s.refs s.qmem.heap.next = 0 :=
  hs.tracks.dead (by simp [counts,block_fresh])

theorem setMax_kept {dying : Option ℕ} {s : Session t H} (hs : Held dying s) {m : ULong t}
    (hm : m.toNat ≤ intMax) (ht : setMaxTest s.qmem m = false) :
    Kept dying s { s with qmem := setMaxStore s.qmem m } :=
  ⟨held_same hs rfl rfl (le_refl _),fun hq => counted_setMax hq hm ht⟩

theorem held_start {q : CtrlxtQmem t} (hb : ∀ p, q.block p = none) (hu : q.usedBlocks = []) :
    Held none (Session.start q : Session t H) := by
  constructor
  · constructor <;> simp [Session.start,hu,hb]
  · constructor <;> simp [Session.start,counts,hb]
  · simp [Session.start]
  · simp [Session.start,hb]
  · simp

/-- What the invariant says of every block ever granted: it is freed, and its
state with it, exactly when no reference to it is outstanding and its
destruction is over. -/
theorem Held.freed_once {dying : Option ℕ} {s : Session t H} (hs : Held dying s) {p : ℕ}
    {st : Option ℕ} (hg : (p,st) ∈ s.granted) :
    ∃ i, st = some i ∧
      s.qmem.heap.freed.count p = (if outstanding s.refs p = 0 ∧ dying ≠ some p then 1 else 0) ∧
      s.qmem.heap.freed.count i = (if outstanding s.refs p = 0 ∧ dying ≠ some p then 1 else 0) := by
  obtain ⟨i,hi,hp,hin,hh⟩ := hs.settled (p,st) hg
  refine ⟨i,hi,?_⟩
  rcases hh with ⟨b,hb,hbs⟩ | ⟨hp0,hi0⟩
  · obtain ⟨u,hu,hcu⟩ := hs.listed.state p b hb
    obtain rfl : i = u := Option.some.inj (hbs.symm.trans hu)
    have hn : ¬(outstanding s.refs p = 0 ∧ dying ≠ some p) := by
      rintro ⟨h0,hd⟩
      have hc : counts s.qmem dying p = some b.refCount := counts_eq_some.mpr ⟨hd,b,hb,rfl⟩
      have hl : 0 < outstanding s.refs p := (hs.tracks.live p).mp (by simp [hc])
      omega
    rw [if_neg hn]
    exact ⟨freed_live (block_eq_some.mp hb),freed_live hcu⟩
  · have hb : s.qmem.block p = none := by simp [CtrlxtQmem.block,hp0,asBlock]
    have hd : outstanding s.refs p = 0 := hs.tracks.dead (by simp [counts,hb])
    have hn : dying ≠ some p := by
      intro hd
      obtain ⟨b,hbp,-⟩ := hs.zero p hd
      rw [hb] at hbp
      cases hbp
    rw [if_pos ⟨hd,hn⟩]
    exact ⟨freed_dead hp hp0,freed_dead hin hi0⟩

end CtrlxtKernel.QuantumMemory
