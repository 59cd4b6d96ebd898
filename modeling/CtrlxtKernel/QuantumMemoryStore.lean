import CtrlxtKernel.LimitedStore
import CtrlxtKernel.QuantumMemoryReports
import CtrlxtKernel.StepRefinement

/-!
# The memory manager as a store of blocks

Every call is answered as a store with holders and a limit allows, and the
manager goes on as the store does. Sizes, limit and sums of the store are
numbers; those of the manager are words that stand for them.
-/

set_option autoImplicit false

namespace CtrlxtKernel.QuantumMemory
open MachineInt ObjectHeap RefLedger StepMachine LimitedStore

variable {t : Target} {H : Type*}

def allocAnswer (h : H) (numQubits : ULong t) (o : AllocOutcome) : Ptr → Option (Event H)
  | .obj p => some (.granted h numQubits.toNat p)
  | .errPtr e =>
    if e = -einval then some (.invalid h numQubits.toNat)
    else if e = -enomem then some (.full h numQubits.toNat (decide (o = ⟨true,true⟩)))
    else none
  | .null => none

def setMaxAnswer (maxQubits : ULong t) (ret : ℤ) : Option (Event H) :=
  if ret = 0 then some (.limited maxQubits.toNat)
  else if ret = -einval then some (.limitRefused maxQubits.toNat)
  else none

/-- The answer to a call. A result that no caller expects is none of the answers. -/
def answer (s : Session t H) : SerialCall t H → Option (Event H)
  | .alloc h n flags o =>
    (ctrlxtQmemAlloc s.qmem n flags o).bind fun r => allocAnswer h n o r.2
  | .get h p =>
    (ctrlxtQmemGet s.qmem (.obj p)).bind fun r => if r.2 = .obj p then some (.got h p) else none
  | .put h p => (ctrlxtQmemPut s.qmem (.obj p)).map fun _ => .dropped h p
  | .free h p => (ctrlxtQmemFree s.qmem (.obj p)).map fun _ => .dropped h p
  | .setMaxQubits m => setMaxAnswer m (ctrlxtQmemSetMaxQubits s.qmem m).2

structure Agrees (q : CtrlxtQmem t) (refs : List (H × ℕ)) (v : Store H) : Prop where
  size : ∀ p, v.size p = sizeAt q p
  holders : v.holders = refs
  limit : (v.limit:ℤ) = q.maxQubits.toInt

theorem sizeAt_update {q r : CtrlxtQmem t} {p : ℕ} {b : Option (QuantumMemoryBlock t)}
    (h : r.block = Function.update q.block p b) (i : ℕ) :
    sizeAt r i = if i = p then (b.map fun b => b.size.toNat).getD 0 else sizeAt q i := by
  rw [sizeAt,h]
  split_ifs with hi
  · rw [hi,Function.update_self]
  · rw [Function.update_of_ne hi]
    rfl

theorem sizeAt_recount {q : CtrlxtQmem t} {p : ℕ} {b : QuantumMemoryBlock t} {c : CInt}
    (hb : q.block p = some b) {k : Heap (Object t)}
    (hc : k.cells = Function.update q.heap.cells p (some (.block { b with refCount := c })))
    (i : ℕ) : sizeAt (withHeap q k) i = sizeAt q i := by
  rw [sizeAt_update (withHeap_block hc)]
  split_ifs with hi
  · simp [hi,sizeAt,hb]
  · rfl

theorem Agrees.support {q : CtrlxtQmem t} {refs : List (H × ℕ)} {v : Store H}
    (h : Agrees q refs v) (hq : Listed q) : v.size.support = q.usedBlocks.toFinset := by
  ext p
  rw [Finsupp.mem_support_iff,h.size,List.mem_toFinset,hq.mem]
  cases hb : q.block p with
  | none => simp [sizeAt,hb]
  | some b =>
    have hsize := (hq.size p b hb).1
    simp only [sizeAt,hb,Option.map_some,Option.getD_some,Option.isSome_some,iff_true]
    omega

theorem Agrees.held {q : CtrlxtQmem t} {refs : List (H × ℕ)} {v : Store H}
    (h : Agrees q refs v) (hq : Listed q) : v.held = heldQubits q := by
  rw [Store.held,LimitedStore.held,Finsupp.sum,h.support hq,List.sum_toFinset _ hq.nodup]
  exact congrArg List.sum (List.map_congr_left fun p _ => h.size p)

theorem agrees_same {q r : CtrlxtQmem t} {refs : List (H × ℕ)} {v : Store H}
    (h : Agrees q refs v) (hs : ∀ p, sizeAt r p = sizeAt q p) (hm : r.maxQubits = q.maxQubits) :
    Agrees r refs v :=
  ⟨fun p => (h.size p).trans (hs p).symm,h.holders,by rw [h.limit,hm]⟩

theorem allocTests_cases {q : CtrlxtQmem t} (hq : Counted q) {refs : List (H × ℕ)} {v : Store H}
    (h : Agrees q refs v) (hl : Listed q) (n : ULong t) :
    (¬(1 ≤ n.toNat ∧ n.toNat ≤ qmemMaxQubitsPerBlock) ∧ allocTests q n = -einval) ∨
      ((1 ≤ n.toNat ∧ n.toNat ≤ qmemMaxQubitsPerBlock) ∧
        ((v.limit < v.held+n.toNat ∧ allocTests q n = -enomem) ∨
          (v.held+n.toNat ≤ v.limit ∧ allocTests q n = 0))) := by
  have hheld := h.held hl
  have hlimit := h.limit
  unfold allocTests
  by_cases hbad : n = 0 ∨ n.toNat > qmemMaxQubitsPerBlock
  · left
    refine ⟨?_,if_pos hbad⟩
    rintro ⟨h1,h64⟩
    rcases hbad with rfl | hbig
    · simp at h1
    · omega
  · right
    rw [if_neg hbad]
    rw [not_or] at hbad
    have h0 : n.toNat ≠ 0 := fun h0 => hbad.1 (BitVec.eq_of_toNat_eq h0)
    have hsize : 1 ≤ n.toNat ∧ n.toNat ≤ qmemMaxQubitsPerBlock := ⟨by omega,by omega⟩
    have hover := overLimit_iff hq hsize.2
    refine ⟨hsize,?_⟩
    cases ho : overLimit q n with
    | true =>
      have hfull : ¬(heldQubits q+n.toNat:ℤ) ≤ q.maxQubits.toInt := by
        rw [← hover,ho]
        simp
      exact Or.inl ⟨by omega,rfl⟩
    | false =>
      have hfit := hover.mp ho
      exact Or.inr ⟨by omega,rfl⟩

variable [DecidableEq H]

def Answered (v : Store H) (e : Option (Event H)) (r : Session t H) : Prop :=
  ∃ a w, e = some a ∧ v.allows qmemMaxQubitsPerBlock a ∧ v.after a = some w ∧
    Agrees r.qmem r.refs w

theorem answered_same {r : Session t H} {v : Store H} {a : Event H}
    (ha : v.allows qmemMaxQubitsPerBlock a) (hv : v.after a = some v)
    (h : Agrees r.qmem r.refs v) : Answered v (some a) r :=
  ⟨a,v,rfl,ha,hv,h⟩

theorem allocLocked_answered {s : Session t H} (hs : Sound s) {v : Store H}
    (hv : Agrees s.qmem s.refs v) (h : H) {n : ULong t} (flags : ULong t) (o : AllocOutcome)
    (hn : 1 ≤ n.toNat ∧ n.toNat ≤ qmemMaxQubitsPerBlock) (hfit : v.held+n.toNat ≤ v.limit) :
    ∃ r, s.allocLocked h n flags o = some r ∧
      Answered v ((QuantumMemory.allocLocked s.qmem n flags o).bind fun r => allocAnswer h n o r.2)
        r := by
  by_cases ho : o = ⟨true,true⟩
  · subst o
    obtain ⟨k,hk,hc,-⟩ := allocLocked_success s.qmem n flags
    have hfresh : s.qmem.heap.next ∉ v.size.support := by
      rw [hv.support hs.held.listed,List.mem_toFinset,hs.held.listed.mem,
        block_fresh s.qmem (le_refl _)]
      simp
    refine ⟨s.grant h (withBlock s.qmem k n) (.obj s.qmem.heap.next),
      by rw [Session.allocLocked,hk]; rfl,.granted h n.toNat s.qmem.heap.next,_,
      by rw [hk]; rfl,⟨hn,hfit,hfresh⟩,after_granted hn.1 hfresh hfit,?_,?_,hv.limit⟩
    · intro p
      have hsize := sizeAt_update (withBlock_block hc) p
      show v.size.update s.qmem.heap.next n.toNat p = sizeAt (withBlock s.qmem k n) p
      rw [hsize,Finsupp.update_apply,hv.size]
      rfl
    · show (h,s.qmem.heap.next) ::ₘ v.holders = _
      rw [hv.holders]
      rfl
  · obtain ⟨k,hk,hc,-⟩ := allocLocked_failure s.qmem n flags ho
    have hanswer : allocAnswer h n o (.errPtr (-enomem)) =
        some (.full h n.toNat (decide (o = ⟨true,true⟩))) := rfl
    have hsame : (withHeap s.qmem k).block = s.qmem.block := block_same hc
    have hsize : ∀ p, sizeAt (withHeap s.qmem k) p = sizeAt s.qmem p := by
      intro p
      rw [sizeAt,hsame]
      rfl
    refine ⟨{ s with qmem := withHeap s.qmem k },by rw [Session.allocLocked,hk]; rfl,?_⟩
    rw [hk,Option.bind_some,hanswer]
    exact answered_same (v := v) ⟨hn,Or.inr (by simpa using ho)⟩ rfl (agrees_same hv hsize rfl)

theorem alloc_answered {s : Session t H} (hs : Sound s) {v : Store H}
    (hv : Agrees s.qmem s.refs v) (h : H) (n flags : ULong t) (o : AllocOutcome) :
    ∃ r, s.alloc h n flags o = some r ∧ Answered v (answer s (.alloc h n flags o)) r := by
  have hinval : -einval < 0 := by decide
  have hnomem : -enomem < 0 := by decide
  rcases allocTests_cases hs.counted hv hs.held.listed n with
    ⟨hbad,ht⟩ | ⟨hn,⟨hfull,ht⟩ | ⟨hfit,ht⟩⟩
  · have hcall : ctrlxtQmemAlloc s.qmem n flags o = some (s.qmem,.errPtr (-einval)) := by
      rw [ctrlxtQmemAlloc,ht,if_pos hinval]
    refine ⟨s,by rw [Session.alloc,hcall]; rfl,?_⟩
    rw [answer,hcall]
    exact answered_same hbad rfl hv
  · have hcall : ctrlxtQmemAlloc s.qmem n flags o = some (s.qmem,.errPtr (-enomem)) := by
      rw [ctrlxtQmemAlloc,ht,if_pos hnomem]
    refine ⟨s,by rw [Session.alloc,hcall]; rfl,?_⟩
    rw [answer,hcall]
    exact answered_same ⟨hn,Or.inl hfull⟩ rfl hv
  · have hcall : ctrlxtQmemAlloc s.qmem n flags o =
        QuantumMemory.allocLocked s.qmem n flags o := by
      rw [ctrlxtQmemAlloc,ht,if_neg (lt_irrefl 0)]
    rw [answer,Session.alloc,hcall]
    exact allocLocked_answered hs hv h flags o hn hfit

theorem get_answered {s : Session t H} (hs : Sound s) {v : Store H}
    (hv : Agrees s.qmem s.refs v) {h : H} {p : ℕ} (hm : (h,p) ∈ s.refs) :
    ∃ r, s.get h p = some r ∧ Answered v (answer s (.get h p)) r := by
  obtain ⟨b,hb,-⟩ := hs.held.live hm
  obtain ⟨k,hk,hc,-⟩ := ctrlxtQmemGet_live hb
  have hheld : (h,p) ∈ v.holders := by
    rw [hv.holders]
    exact hm
  have hanswer : answer s (.get h p) = some (.got h p) := by
    rw [answer,hk,Option.bind_some,if_pos rfl]
  refine ⟨{ s with qmem := withHeap s.qmem k, refs := (h,p)::s.refs },
    by rw [Session.get,hk]; rfl,_,v.get hheld,hanswer,hheld,after_got hheld,?_,?_,hv.limit⟩
  · intro i
    exact (hv.size i).trans (sizeAt_recount hb hc i).symm
  · show (h,p) ::ₘ v.holders = _
    rw [hv.holders]
    rfl

theorem held_elsewhere {refs : List (H × ℕ)} {h : H} {p : ℕ} (hm : (h,p) ∈ refs) :
    (∃ k, (k,p) ∈ refs.erase (h,p)) ↔ outstanding refs p ≠ 1 := by
  have hpos := outstanding_pos hm
  have herase := outstanding_erase hm p
  rw [if_pos rfl] at herase
  constructor
  · rintro ⟨k,hk⟩
    have hleft := outstanding_pos hk
    omega
  · intro hne
    have hleft : 0 < outstanding (refs.erase (h,p)) p := by omega
    obtain ⟨⟨k,q⟩,hk,hq⟩ := List.countP_pos_iff.mp hleft
    obtain rfl : q = p := by simpa using hq
    exact ⟨k,hk⟩

theorem free_sizes {s r : Session t H} (hs : Sound s) {h : H} {p : ℕ} (hm : (h,p) ∈ s.refs)
    (hr : s.free h p = some r) :
    r.refs = s.refs.erase (h,p) ∧ r.qmem.maxQubits = s.qmem.maxQubits ∧
      ∀ i, sizeAt r.qmem i = if i = p ∧ outstanding s.refs p = 1 then 0 else sizeAt s.qmem i := by
  obtain ⟨b,hb,hcb,-⟩ := hs.held.live hm
  have hfew := hs.few p
  have hlast := hs.held.tracks.last_iff hcb (by omega)
  obtain ⟨k,hk,hc,hkb⟩ := ctrlxtQmemFree_live hb
  rw [Session.free,hk] at hr
  by_cases hzero : b.refCount-1 = 0
  · have hlisted := listed_recount hs.held.listed hb hc
    obtain ⟨g,st,hst,hg,hgc,-⟩ := destroyBlock_live hlisted hkb
    rw [if_pos hzero,hg] at hr
    cases hr
    refine ⟨rfl,rfl,fun i => ?_⟩
    obtain ⟨st',hst',hcs⟩ := hlisted.state p _ hkb
    obtain rfl := Option.some.inj (hst'.symm.trans hst)
    have hblocks : (withoutBlock (withHeap s.qmem k) g p b.size).block =
        Function.update (withHeap s.qmem k).block p none := withoutBlock_block hcs hgc
    have hgone := sizeAt_update hblocks i
    have hsame := sizeAt_recount hb hc i
    rw [hgone,hsame]
    simp [hlast.mp hzero]
  · rw [if_neg hzero] at hr
    cases hr
    refine ⟨rfl,rfl,fun i => ?_⟩
    have hmore : ¬outstanding s.refs p = 1 := fun h1 => hzero (hlast.mpr h1)
    rw [if_neg (fun h => hmore h.2)]
    exact sizeAt_recount hb hc i

theorem free_answered {s : Session t H} (hs : Sound s) {v : Store H}
    (hv : Agrees s.qmem s.refs v) {h : H} {p : ℕ} (hm : (h,p) ∈ s.refs) :
    ∃ r, s.free h p = some r ∧ Answered v (answer s (.free h p)) r := by
  obtain ⟨r,hr,-⟩ := free_sound hs hm
  obtain ⟨hrefs,hmax,hsize⟩ := free_sizes hs hm hr
  have hheld : (h,p) ∈ v.holders := by
    rw [hv.holders]
    exact hm
  obtain ⟨q,hq,-⟩ := Option.map_eq_some_iff.mp hr
  have hanswer : answer s (.free h p) = some (.dropped h p) := by
    rw [answer,hq]
    rfl
  have hholders : (v.drop h p).holders = r.refs := by
    rw [drop_holders,hrefs,hv.holders]
    convert Multiset.coe_erase s.refs (h,p)
  refine ⟨r,hr,.dropped h p,v.drop h p,hanswer,hheld,rfl,?_,?_,?_⟩
  · intro i
    have hleft := held_elsewhere hm
    rw [drop_size,hsize i,hholders,hrefs]
    unfold remaining
    simp only [Multiset.mem_coe,hleft]
    by_cases h1 : outstanding s.refs p = 1
    · by_cases hi : i = p
      · simp [h1,hi]
      · simp [h1,hi,Finsupp.erase_ne hi,hv.size]
    · simp [h1,hv.size]
  · exact hholders
  · rw [hmax]
    exact hv.limit

theorem setMaxTest_iff {q : CtrlxtQmem t} (hq : Counted q) (m : ULong t) :
    setMaxTest q m = true ↔ m.toNat < heldQubits q := by
  have hw := widen_toNat t q.allocatedQubits (by rw [hq.allocated]; omega)
  have hall := hq.allocated
  simp only [setMaxTest,decide_eq_true_eq,BitVec.lt_def]
  omega

theorem setMaxStore_answered {s : Session t H} {v : Store H} (hv : Agrees s.qmem s.refs v)
    {m : ULong t} (hm : m.toNat ≤ intMax) (hfit : v.held ≤ m.toNat) :
    Answered v (setMaxAnswer m 0) { s with qmem := setMaxStore s.qmem m } := by
  refine ⟨.limited m.toNat,v.setLimit hfit,rfl,hfit,after_limited hfit,hv.size,hv.holders,?_⟩
  exact (narrow_toInt m hm).symm

theorem setMax_answered {s : Session t H} (hs : Sound s) {v : Store H}
    (hv : Agrees s.qmem s.refs v) {m : ULong t} (hm : m.toNat ≤ intMax) :
    Answered v (answer s (.setMaxQubits m))
      { s with qmem := (ctrlxtQmemSetMaxQubits s.qmem m).1 } := by
  have hheld := hv.held hs.held.listed
  have htest := setMaxTest_iff hs.counted m
  cases ht : setMaxTest s.qmem m with
  | true =>
    have hcall : ctrlxtQmemSetMaxQubits s.qmem m = (s.qmem,-einval) := by
      rw [ctrlxtQmemSetMaxQubits,ht,if_pos rfl]
    have hless := htest.mp ht
    rw [answer,hcall]
    exact answered_same (v := v) (a := .limitRefused m.toNat) (by rw [Store.allows]; omega) rfl hv
  | false =>
    have hcall : ctrlxtQmemSetMaxQubits s.qmem m = (setMaxStore s.qmem m,0) := by
      rw [ctrlxtQmemSetMaxQubits,ht]
      rfl
    have hfit : v.held ≤ m.toNat := by
      by_contra hlt
      rw [htest.mpr (by omega)] at ht
      cases ht
    rw [answer,hcall]
    exact setMaxStore_answered hv hm hfit

theorem serial_answered {s : Session t H} (hs : Sound s) {v : Store H}
    (hv : Agrees s.qmem s.refs v) {l : SerialCall t H} (he : serial.enabled s l) :
    ∃ r, serial.step s l = some r ∧ Answered v (answer s l) r := by
  cases l with
  | alloc h n flags o => exact alloc_answered hs hv h n flags o
  | get h p => exact get_answered hs hv he
  | put h p => exact free_answered hs hv he
  | free h p => exact free_answered hs hv he
  | setMaxQubits m => exact ⟨_,rfl,setMax_answered hs hv he⟩

def StandsFor (s : Session t H) (v : Store H) : Prop := Sound s ∧ Agrees s.qmem s.refs v

theorem serial_simulates :
    Simulates (serial.restrict RefsFit) (store H qmemMaxQubitsPerBlock)
      (fun (s : Session t H) l => (answer s l).toList) (fun s l => [answer s l])
      (fun _ e => [some e]) StandsFor := by
  intro s l u v ⟨hs,hv⟩ he hu
  have hcall : serial.enabled s l := he.1
  obtain ⟨r,hr,e,w,ha,hallows,hw,hagrees⟩ := serial_answered hs hv hcall
  obtain ⟨r',hr',hsound⟩ := serial_step_sound hs he
  obtain rfl : r = u := Option.some.inj (hr.symm.trans hu)
  obtain rfl : r' = r := Option.some.inj (hr'.symm.trans hu)
  simp only [ha,Option.toList_some]
  exact ⟨w,Run.single hallows hw,⟨hsound,hagrees⟩,trace_cons hw⟩

omit [DecidableEq H] in
theorem loaded_standsFor : StandsFor (loaded : Session t H) (Store.empty qmemMaxQubits) := by
  refine ⟨loaded_sound,fun p => ?_,rfl,?_⟩
  · have hnone := loadedQmem_block (t := t) p
    show 0 = sizeAt loadedQmem p
    rw [sizeAt,hnone]
    rfl
  · show (qmemMaxQubits:ℤ) = (BitVec.ofNat 32 qmemMaxQubits).toInt
    decide

omit [DecidableEq H] in
theorem StandsFor.report {s : Session t H} {v : Store H} (h : StandsFor s v) :
    ∃ r, ctrlxtQmemGetStats s.qmem (some r) = some r ∧ r.totalQubits.toInt = v.held ∧
      r.allocatedQubits.toInt = v.held ∧ r.maxQubits.toInt = v.limit ∧
      r.freeQubits.toInt = v.limit-v.held := by
  obtain ⟨hs,hv⟩ := h
  have hheld := hv.held hs.held.listed
  have htotal := hs.counted.total
  have hall := hs.counted.allocated
  have hlimit := hv.limit
  have hfits : v.held ≤ v.limit := v.fits
  have hbound := int_bounds s.qmem.maxQubits
  refine ⟨⟨_,_,_,_⟩,rfl,by rw [htotal,hheld],by rw [hall,hheld],hlimit.symm,?_⟩
  rw [sub_toInt _ _ (by omega) (by omega),hall,hheld,hlimit]

end CtrlxtKernel.QuantumMemory
