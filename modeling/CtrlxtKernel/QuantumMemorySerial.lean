import CtrlxtKernel.QuantumMemoryReferences
import CtrlxtKernel.StepMachine

/-!
# Serial runs of the memory manager

Any caller may allocate and move the limit, and uses a block only through a
reference it holds. `atomic_inc` wraps, so the reference counts are exact as
long as no block has `2^31` references at once.
-/

set_option autoImplicit false

namespace CtrlxtKernel.QuantumMemory
open MachineInt ObjectHeap RefLedger StepMachine

variable {t : Target} {H : Type*}

structure Accounting (q : CtrlxtQmem t) : Prop where
  total : q.totalQubits.toInt = q.allocatedQubits.toInt
  allocated : q.allocatedQubits.toInt = heldQubits q
  blocks : ∀ p ∈ q.usedBlocks, ∃ b, q.block p = some b ∧
    1 ≤ b.size.toNat ∧ b.size.toNat ≤ qmemMaxQubitsPerBlock ∧ 1 ≤ b.refCount.toInt
  limit : 0 ≤ q.allocatedQubits.toInt ∧ q.allocatedQubits.toInt ≤ q.maxQubits.toInt

def loadedQmem : CtrlxtQmem t := (ctrlxtQmemInit CtrlxtQmem.static true).1

def loaded : Session t H := Session.start loadedQmem

structure Sound (s : Session t H) : Prop where
  held : Held none s
  counted : Counted s.qmem
  few : ∀ p, outstanding s.refs p < 2^31

theorem allocTests_pass {q : CtrlxtQmem t} {n : ULong t} (h : ¬allocTests q n < 0) :
    (1 ≤ n.toNat ∧ n.toNat ≤ qmemMaxQubitsPerBlock) ∧ overLimit q n = false := by
  unfold allocTests at h
  split_ifs at h with h1 h2
  · simp [einval] at h
  · simp [enomem] at h
  · rw [not_or] at h1
    have h0 : n.toNat ≠ 0 := fun h0 => h1.1 (BitVec.eq_of_toNat_eq h0)
    exact ⟨⟨by omega,by omega⟩,by simpa using h2⟩

theorem allocLocked_sound {s : Session t H} (hs : Sound s) (h : H) {n : ULong t}
    (flags : ULong t) (o : AllocOutcome)
    (hn : 1 ≤ n.toNat ∧ n.toNat ≤ qmemMaxQubitsPerBlock)
    (hl : o = ⟨true,true⟩ → overLimit s.qmem n = false) :
    ∃ r, s.allocLocked h n flags o = some r ∧ Sound r := by
  by_cases ho : o = ⟨true,true⟩
  · subst o
    obtain ⟨k,hk,hh,hc,-⟩ := allocLocked_granted hs.held h flags hn
    refine ⟨_,hk,hh,hc hs.counted (hl rfl),?_⟩
    have hf := granting_fresh hs.held
    exact outstanding_cons_lt hs.few h (by omega)
  · obtain ⟨r,hr,hk,hrefs,-⟩ := allocLocked_refused hs.held h n flags ho
    exact ⟨r,hr,hk.held,hk.counted hs.counted,by rw [hrefs]; exact hs.few⟩

/-- Whether an allocation will be granted, from the tests and the outcome. -/
def grants (q : CtrlxtQmem t) (numQubits : ULong t) (o : AllocOutcome) : Bool :=
  0 ≤ allocTests q numQubits ∧ o = ⟨true,true⟩

theorem alloc_granted {s : Session t H} (hs : Sound s) (h : H) {n : ULong t} (flags : ULong t)
    {o : AllocOutcome} (hg : grants s.qmem n o = true) :
    ∃ q, ctrlxtQmemAlloc s.qmem n flags o = some (q,.obj s.qmem.heap.next) ∧
      Sound (s.grant h q (.obj s.qmem.heap.next)) := by
  obtain ⟨ht,rfl⟩ : 0 ≤ allocTests s.qmem n ∧ o = ⟨true,true⟩ := by simpa [grants] using hg
  have ht' : ¬allocTests s.qmem n < 0 := by omega
  obtain ⟨hn,hl⟩ := allocTests_pass ht'
  obtain ⟨k,hk,-,-⟩ := allocLocked_success s.qmem n flags
  obtain ⟨r,hr,hsr⟩ := allocLocked_sound hs h flags ⟨true,true⟩ hn (fun _ => hl)
  refine ⟨withBlock s.qmem k n,by rw [ctrlxtQmemAlloc,if_neg ht',hk],?_⟩
  rw [Session.allocLocked,hk,Option.map_some,Option.some.injEq] at hr
  rw [hr]
  exact hsr

theorem alloc_refused {s : Session t H} (hs : Sound s) (h : H) {n : ULong t} (flags : ULong t)
    {o : AllocOutcome} (hg : grants s.qmem n o = false) :
    ∃ q e, ctrlxtQmemAlloc s.qmem n flags o = some (q,.errPtr e) ∧ e < 0 ∧
      Sound (s.grant h q (.errPtr e)) := by
  by_cases ht : allocTests s.qmem n < 0
  · exact ⟨s.qmem,allocTests s.qmem n,by rw [ctrlxtQmemAlloc,if_pos ht],ht,hs⟩
  · have ho : o ≠ ⟨true,true⟩ := by
      rintro rfl
      simp [grants] at hg
      omega
    obtain ⟨hn,hl⟩ := allocTests_pass ht
    obtain ⟨k,hk,-,-⟩ := allocLocked_failure s.qmem n flags ho
    obtain ⟨r,hr,hsr⟩ := allocLocked_sound hs h flags o hn (fun _ => hl)
    refine ⟨withHeap s.qmem k,-enomem,by rw [ctrlxtQmemAlloc,if_neg ht,hk],by decide,?_⟩
    rw [Session.allocLocked,hk,Option.map_some,Option.some.injEq] at hr
    rw [hr]
    exact hsr

theorem alloc_sound {s : Session t H} (hs : Sound s) (h : H) (n flags : ULong t)
    (o : AllocOutcome) : ∃ r, s.alloc h n flags o = some r ∧ Sound r := by
  cases hg : grants s.qmem n o with
  | true =>
    obtain ⟨q,hq,hsq⟩ := alloc_granted hs h flags hg
    exact ⟨_,by rw [Session.alloc,hq]; rfl,hsq⟩
  | false =>
    obtain ⟨q,e,hq,-,hsq⟩ := alloc_refused hs h flags hg
    exact ⟨_,by rw [Session.alloc,hq]; rfl,hsq⟩

theorem get_sound {s : Session t H} (hs : Sound s) {h : H} {p : ℕ} (hm : (h,p) ∈ s.refs)
    (hb : outstanding s.refs p+1 < 2^31) : ∃ r, s.get h p = some r ∧ Sound r := by
  obtain ⟨r,hr,hk,hrefs,-⟩ := get_kept hs.held hm
  refine ⟨r,hr,hk.held,hk.counted hs.counted,?_⟩
  rw [hrefs]
  exact outstanding_cons_lt hs.few h hb

theorem setMax_sound {s : Session t H} (hs : Sound s) {m : ULong t} (hm : m.toNat ≤ intMax) :
    Sound { s with qmem := (ctrlxtQmemSetMaxQubits s.qmem m).1 } := by
  cases ht : setMaxTest s.qmem m with
  | true => simpa [ctrlxtQmemSetMaxQubits,ht] using hs
  | false =>
    have hk := setMax_kept hs.held hm ht
    simp only [ctrlxtQmemSetMaxQubits,ht,Bool.false_eq_true,if_false]
    exact ⟨hk.held,hk.counted hs.counted,hs.few⟩

theorem Sound.accounting {s : Session t H} (hs : Sound s) : Accounting s.qmem := by
  have hall := hs.counted.allocated
  have hlim := hs.counted.limit
  constructor
  · rw [hs.counted.total,hall]
  · exact hall
  · intro p hp
    rw [hs.held.listed.mem] at hp
    obtain ⟨b,hb⟩ := Option.isSome_iff_exists.mp hp
    have hcb : counts s.qmem none p = some b.refCount := by simp [counts,hb]
    have hl : 0 < outstanding s.refs p := (hs.held.tracks.live p).mp (by simp [hcb])
    have hr := hs.held.tracks.toInt hcb (hs.few p)
    obtain ⟨h1,h2⟩ := hs.held.listed.size p b hb
    exact ⟨b,hb,h1,h2,by omega⟩
  · omega

theorem loadedQmem_block (p : ℕ) : (loadedQmem : CtrlxtQmem t).block p = none := by
  simp [loadedQmem,ctrlxtQmemInit,CtrlxtQmem.static,CtrlxtQmem.block,
    Function.update_apply]
  split <;> rfl

theorem loaded_sound : Sound (loaded : Session t H) := by
  refine ⟨held_start loadedQmem_block rfl,?_,?_⟩
  · constructor <;> simp [loaded,loadedQmem,Session.start,ctrlxtQmemInit,heldQubits]
    decide
  · simp [loaded,Session.start]

inductive SerialCall (t : Target) (H : Type*) where
  | alloc (h : H) (numQubits flags : ULong t) (o : AllocOutcome)
  | get (h : H) (p : ℕ)
  | put (h : H) (p : ℕ)
  | free (h : H) (p : ℕ)
  | setMaxQubits (maxQubits : ULong t)

variable [DecidableEq H]

def serial : Machine (Session t H) (SerialCall t H) where
  enabled s
    | .alloc _ _ _ _ => True
    | .get h p | .put h p | .free h p => (h,p) ∈ s.refs
    | .setMaxQubits m => m.toNat ≤ intMax
  step s
    | .alloc h n flags o => s.alloc h n flags o
    | .get h p => s.get h p
    | .put h p => s.put h p
    | .free h p => s.free h p
    | .setMaxQubits m => some { s with qmem := (ctrlxtQmemSetMaxQubits s.qmem m).1 }

def RefsFit (s : Session t H) : SerialCall t H → Prop
  | .get _ p => outstanding s.refs p+1 < 2^31
  | _ => True

instance (s : Session t H) : (l : SerialCall t H) → Decidable (serial.enabled s l)
  | .alloc _ _ _ _ => inferInstanceAs (Decidable True)
  | .get h p | .put h p | .free h p => inferInstanceAs (Decidable ((h,p) ∈ s.refs))
  | .setMaxQubits m => inferInstanceAs (Decidable (m.toNat ≤ intMax))

instance (s : Session t H) : (l : SerialCall t H) → Decidable (RefsFit s l)
  | .get _ p => inferInstanceAs (Decidable (outstanding s.refs p+1 < 2^31))
  | .alloc _ _ _ _ | .put _ _ | .free _ _ | .setMaxQubits _ => inferInstanceAs (Decidable True)

theorem free_sound {s : Session t H} (hs : Sound s) {h : H} {p : ℕ} (hm : (h,p) ∈ s.refs) :
    ∃ r, s.free h p = some r ∧ Sound r := by
  have hp := hs.few p
  obtain ⟨r,hr,hk,hrefs,-⟩ := free_kept hs.held hm (by omega)
  refine ⟨r,hr,hk.held,hk.counted hs.counted,?_⟩
  rw [hrefs]
  exact outstanding_erase_lt hs.few hm

theorem serial_step_sound {s : Session t H} (hs : Sound s) {l : SerialCall t H}
    (he : (serial.restrict RefsFit).enabled s l) :
    ∃ r, (serial.restrict RefsFit).step s l = some r ∧ Sound r := by
  cases l with
  | alloc h n flags o => exact alloc_sound hs h n flags o
  | get h p => exact get_sound hs he.1 he.2
  | put h p => exact free_sound hs he.1
  | free h p => exact free_sound hs he.1
  | setMaxQubits m => exact ⟨_,rfl,setMax_sound hs he.1⟩

/-- The accounting law in every state a serial run reaches, while no block has
`2^31` references at once. -/
theorem serial_accounting {s : Session t H} {ls : List (SerialCall t H)}
    (h : Run (serial.restrict RefsFit) loaded ls s) : Accounting s.qmem := by
  have hs : Sound s := by
    apply h.sound (I := Sound)
    · exact fun s l hs he => serial_step_sound hs he
    · exact loaded_sound
  exact hs.accounting

theorem serial_accounting_mixed :
    ∃ s, Run (serial.restrict RefsFit) (loaded : Session .bits64 ℕ)
      [.alloc 0 5 0 ⟨true,true⟩,.get 0 1,.setMaxQubits 7,.put 0 1,.alloc 1 3 0 ⟨true,false⟩,
        .free 0 1] s ∧ Accounting s.qmem := by
  have h : ∃ s, Run (serial.restrict RefsFit) (loaded : Session .bits64 ℕ)
      [.alloc 0 5 0 ⟨true,true⟩,.get 0 1,.setMaxQubits 7,.put 0 1,.alloc 1 3 0 ⟨true,false⟩,
        .free 0 1] s := ⟨_,run_iff_exec.mpr rfl⟩
  obtain ⟨s,hs⟩ := h
  exact ⟨s,hs,serial_accounting hs⟩

theorem gets_run {s : Session t H} {h : H} {p : ℕ} (hm : (h,p) ∈ s.refs)
    {b : QuantumMemoryBlock t} (hb : s.qmem.block p = some b) (n : ℕ) :
    ∃ r c, Run serial s (List.replicate n (.get h p)) r ∧
      r.qmem.usedBlocks = s.qmem.usedBlocks ∧ r.qmem.block p = some c ∧
      c.refCount = b.refCount+BitVec.ofNat 32 n ∧ (Listed s.qmem → Listed r.qmem) ∧
      r.refs = List.replicate n (h,p)++s.refs := by
  induction n generalizing s b with
  | zero => exact ⟨s,b,.nil s,rfl,hb,by simp,id,rfl⟩
  | succ n ih =>
    obtain ⟨k,hk,hc,-⟩ := ctrlxtQmemGet_live hb
    let s' : Session t H := { s with qmem := withHeap s.qmem k, refs := (h,p)::s.refs }
    have hstep : serial.step s (.get h p) = some s' := by
      simp [serial,Session.get,hk,s']
    have hb' : s'.qmem.block p = some { b with refCount := b.refCount+1 } := by
      rw [withHeap_block hc,Function.update_self]
    obtain ⟨r,c,hr,hu,hcb,hcount,hlisted,hrefs⟩ := ih (s := s') List.mem_cons_self hb'
    refine ⟨r,c,?_,hu,hcb,?_,?_,?_⟩
    · rw [List.replicate_succ]
      exact .cons hm hstep hr
    · rw [hcount,BitVec.ofNat_add,add_assoc,add_comm 1]
      rfl
    · exact fun hq => hlisted (listed_recount hq hb hc)
    · rw [hrefs,List.replicate_succ',List.append_assoc]
      rfl

/-- After `2^31-1` further references to one block its count is negative. -/
theorem serial_accounting_overflow :
    ∃ s, Run serial (loaded : Session .bits64 Unit)
      (.alloc () 1 0 ⟨true,true⟩::List.replicate intMax (.get () 1)) s ∧
      ¬Accounting s.qmem := by
  have h : ∃ r : Session .bits64 Unit,
      serial.step loaded (.alloc () 1 0 ⟨true,true⟩) = some r ∧ ((),1) ∈ r.refs ∧
      r.qmem.usedBlocks = [1] ∧ ∃ b, r.qmem.block 1 = some b ∧ b.refCount = 1 :=
    ⟨_,rfl,.head _,rfl,_,rfl,rfl⟩
  obtain ⟨r,hr,hm,hu,b,hb,hc⟩ := h
  obtain ⟨s,c,hs,hus,hcb,hcount,-⟩ := gets_run hm hb intMax
  refine ⟨s,.cons trivial hr hs,fun ha => ?_⟩
  obtain ⟨d,hd,-,-,hpos⟩ := ha.blocks 1 (by rw [hus,hu]; exact List.mem_singleton_self 1)
  obtain rfl : d = c := Option.some.inj (hd.symm.trans hcb)
  rw [hcount,hc] at hpos
  exact absurd hpos (by decide)

end CtrlxtKernel.QuantumMemory
