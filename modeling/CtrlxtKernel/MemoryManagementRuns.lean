import CtrlxtKernel.BumpArena
import CtrlxtKernel.MemoryManagement
import CtrlxtKernel.StepMachine

/-!
# Runs of the quantum region

The callers of `quantum_memory_alloc` keep a ledger of the blocks they got and
have not given back. The region and the ledger show an arena: the guard of
`quantum_memory_free` compares with the moving cursor, so it takes back exactly
a block that ends there.
-/

set_option autoImplicit false

namespace CtrlxtKernel.MemoryManagement
open MachineInt BumpArena StepMachine

variable {t : Target}

structure LiveBlock (t : Target) where
  addr : ULong t
  size : ULong t
  deriving DecidableEq

def LiveBlock.block (b : LiveBlock t) : Block := ⟨b.addr.toNat,b.size.toNat⟩

structure Use (t : Target) where
  mm : CtrlxtMm t
  live : List (LiveBlock t)

def opened (mm : CtrlxtMm t) : Use t := ⟨mm,[]⟩

inductive Request (t : Target) where
  | alloc (size : ULong t)
  | free (addr size : ULong t)

def Use.alloc (s : Use t) (size : ULong t) : Use t :=
  let (mm,addr) := quantumMemoryAlloc s.mm size
  ⟨mm,if addr = 0 then s.live else ⟨addr,size⟩::s.live⟩

def Use.free (s : Use t) (addr size : ULong t) : Use t :=
  ⟨quantumMemoryFree s.mm addr size,s.live.erase ⟨addr,size⟩⟩

def memoryUse : Machine (Use t) (Request t) where
  enabled s
    | .alloc _ => True
    | .free addr size => ⟨addr,size⟩ ∈ s.live
  step s
    | .alloc size => some (s.alloc size)
    | .free addr size => some (s.free addr size)

instance (s : Use t) : (l : Request t) → Decidable (memoryUse.enabled s l)
  | .alloc _ => inferInstanceAs (Decidable True)
  | .free addr size => inferInstanceAs (Decidable (⟨addr,size⟩ ∈ s.live))

def quantumRegion (mm : CtrlxtMm t) : Option (MemoryRegion t) :=
  mm.memoryRegions.find? MemoryRegion.isQuantum

def cursor (mm : CtrlxtMm t) : ℕ := ((quantumRegion mm).map (fun r => r.start.toNat)).getD 0

def limit (mm : CtrlxtMm t) : ℕ := ((quantumRegion mm).map (fun r => r.endAddr.toNat)).getD 0

/-- The quantum region heads the list and is the only one. -/
def Layout (mm : CtrlxtMm t) (region : MemoryRegion t) : Prop :=
  ∃ rest, mm.memoryRegions = region::rest ∧ region.isQuantum = true ∧
    ∀ r ∈ rest, r.isQuantum = false

theorem Layout.region {mm : CtrlxtMm t} {r : MemoryRegion t} (h : Layout mm r) :
    quantumRegion mm = some r := by
  obtain ⟨rest,hm,hq,-⟩ := h
  rw [quantumRegion,hm,List.find?_cons_of_pos hq]

theorem allocIn_quantum {r : MemoryRegion t} (hq : r.isQuantum = true)
    (rest : List (MemoryRegion t)) (size : ULong t) :
    allocIn (r::rest) size = ({ r with start := r.start+size }::rest,r.start) := by
  simp [allocIn,hq]

theorem freeIn_none {regions : List (MemoryRegion t)}
    (h : ∀ r ∈ regions, r.isQuantum = false) (addr size : ULong t) :
    freeIn regions addr size = regions := by
  induction regions with
  | nil => rfl
  | cons r rest ih =>
    have hr := h r List.mem_cons_self
    rw [freeIn,if_neg (by simp [hr]),ih (fun x hx => h x (List.mem_cons_of_mem r hx))]

theorem alloc_layout {mm : CtrlxtMm t} {r : MemoryRegion t} (h : Layout mm r) (size : ULong t) :
    (quantumMemoryAlloc mm size).2 = r.start ∧
      Layout (quantumMemoryAlloc mm size).1 { r with start := r.start+size } := by
  obtain ⟨rest,hm,hq,hr⟩ := h
  have ha := allocIn_quantum hq rest size
  unfold quantumMemoryAlloc
  rw [hm,ha]
  exact ⟨rfl,rest,rfl,hq,hr⟩

theorem free_layout {mm : CtrlxtMm t} {r : MemoryRegion t} (h : Layout mm r)
    (addr size : ULong t) :
    Layout (quantumMemoryFree mm addr size)
      (if addr ≥ r.start-size ∧ addr ≤ r.endAddr then { r with start := r.start-size } else r) := by
  obtain ⟨rest,hm,hq,hr⟩ := h
  unfold quantumMemoryFree
  split_ifs with hg
  · refine ⟨rest,?_,hq,hr⟩
    rw [hm,freeIn,if_pos ⟨hq,hg⟩]
  · refine ⟨rest,?_,hq,hr⟩
    rw [hm,freeIn,if_neg (fun hc => hg hc.2),freeIn_none hr]

theorem quantum_isQuantum (a b q : ULong t) :
    (⟨a,b,memoryRegionQuantum,q⟩ : MemoryRegion t).isQuantum = true := by
  change decide (memoryRegionQuantum &&& memoryRegionQuantum ≠ (0 : ULong t)) = true
  cases t <;> decide

theorem normal_isQuantum (a b q : ULong t) :
    (⟨a,b,memoryRegionNormal,q⟩ : MemoryRegion t).isQuantum = false := by
  change decide (memoryRegionNormal &&& memoryRegionQuantum ≠ (0 : ULong t)) = false
  cases t <;> decide

def takenRegion (P : Platform t) : MemoryRegion t :=
  let start := P.getFreePages (P.getOrder (quantumSize P))
  ⟨start,start+quantumSize P,memoryRegionQuantum,quantumMemoryCoherent⟩

theorem initQuantumMemory_region {P : Platform t} {mm : CtrlxtMm t} {kzalloc : Bool}
    (h : ¬(initQuantumMemory P mm kzalloc).2 < 0) :
    (initQuantumMemory P mm kzalloc).1.memoryRegions = takenRegion P::mm.memoryRegions ∧
      (takenRegion P).start ≠ 0 := by
  have hneg : -enomem < 0 := by decide
  unfold initQuantumMemory at h ⊢
  simp only at h ⊢
  split_ifs at h ⊢ with hk hz
  · exact absurd hneg h
  · exact ⟨rfl,hz⟩
  · exact absurd hneg h

theorem registerMemoryRegions_region {P : Platform t} {mm : CtrlxtMm t} {kzalloc : Bool}
    (h : ¬(registerMemoryRegions P mm kzalloc).2 < 0) :
    ∃ r, (registerMemoryRegions P mm kzalloc).1.memoryRegions = r::mm.memoryRegions ∧
      r.isQuantum = false := by
  have hneg : -enomem < 0 := by decide
  unfold registerMemoryRegions at h ⊢
  simp only at h ⊢
  split_ifs at h ⊢
  · exact ⟨_,rfl,normal_isQuantum ..⟩
  · exact absurd hneg h

theorem init_taken {P : Platform t} {o : InitOutcome} {mm : CtrlxtMm t}
    (h : ctrlxtMmInit P o = (mm,0)) :
    Layout mm (takenRegion P) ∧ (takenRegion P).start ≠ 0 := by
  have hne : -enomem ≠ 0 := by decide
  unfold ctrlxtMmInit at h
  simp only at h
  split_ifs at h with h1 h2
  · exact absurd (Prod.mk.inj h).2 hne
  · exact absurd (Prod.mk.inj h).2 hne
  · obtain ⟨rfl,-⟩ := Prod.mk.inj h
    obtain ⟨n,hn,hnq⟩ := registerMemoryRegions_region h1
    obtain ⟨hr,hz⟩ := initQuantumMemory_region h2
    rw [hn] at hr
    exact ⟨⟨[n],hr,quantum_isQuantum ..,by simpa using hnq⟩,hz⟩

theorem init_layout {P : Platform t} {o : InitOutcome} {mm : CtrlxtMm t}
    (h : ctrlxtMmInit P o = (mm,0)) : ∃ r, Layout mm r ∧ r.start ≠ 0 :=
  ⟨takenRegion P,init_taken h⟩

structure Shows {base : ULong t} (endAddr : ULong t) (s : Use t) (A : Arena base.toNat) : Prop where
  region : ∃ r, Layout s.mm r ∧ r.start.toNat = A.cursor ∧ r.endAddr = endAddr
  live : s.live.map LiveBlock.block = A.live

theorem block_injective : Function.Injective (LiveBlock.block : LiveBlock t → Block) := by
  rintro ⟨a,n⟩ ⟨b,m⟩ h
  obtain ⟨h1,h2⟩ := Block.mk.inj h
  obtain rfl : a = b := BitVec.eq_of_toNat_eq h1
  obtain rfl : n = m := BitVec.eq_of_toNat_eq h2
  rfl

variable {base endAddr : ULong t} {s : Use t} {A : Arena base.toNat}

theorem opened_shows {mm : CtrlxtMm t} {r : MemoryRegion t} (h : Layout mm r) :
    Shows r.endAddr (opened mm) (Arena.fresh r.start.toNat) :=
  ⟨⟨r,h,rfl,rfl⟩,rfl⟩

theorem Shows.cursor (h : Shows endAddr s A) : cursor s.mm = A.cursor := by
  obtain ⟨r,hr,hc,-⟩ := h.region
  simp [MemoryManagement.cursor,hr.region,hc]

theorem Shows.limit (h : Shows endAddr s A) : limit s.mm = endAddr.toNat := by
  obtain ⟨r,hr,-,he⟩ := h.region
  simp [MemoryManagement.limit,hr.region,he]

theorem Shows.mem (h : Shows endAddr s A) {b : LiveBlock t} (hb : b ∈ s.live) :
    b.block ∈ A.live := by
  rw [← h.live]
  exact List.mem_map_of_mem hb

theorem Shows.erase (h : Shows endAddr s A) (b : LiveBlock t) :
    (s.live.erase b).map LiveBlock.block = A.live.erase b.block := by
  rw [List.map_erase block_injective,h.live]

theorem Shows.addr (hb : base ≠ 0) (h : Shows endAddr s A) (size : ULong t) :
    (quantumMemoryAlloc s.mm size).2.toNat = A.cursor ∧ (quantumMemoryAlloc s.mm size).2 ≠ 0 := by
  obtain ⟨r,hr,hc,-⟩ := h.region
  rw [(alloc_layout hr size).1]
  refine ⟨hc,fun h0 => hb ?_⟩
  have hbase := base_le_cursor A
  rw [h0] at hc
  have hz : (0 : ULong t).toNat = 0 := BitVec.toNat_zero ..
  exact BitVec.eq_of_toNat_eq (by omega)

/-- Without a wrap, an allocation is the arena's. -/
theorem alloc_shows (hb : base ≠ 0) (h : Shows endAddr s A) {size : ULong t}
    (hw : A.cursor+size.toNat < 2^t.width) : Shows endAddr (s.alloc size) (A.alloc size.toNat) := by
  obtain ⟨-,hne⟩ := h.addr hb size
  obtain ⟨r,hr,hc,he⟩ := h.region
  obtain ⟨haddr,hl⟩ := alloc_layout hr size
  rw [haddr] at hne
  refine ⟨⟨_,hl,?_,he⟩,?_⟩
  · change (r.start+size).toNat = A.cursor+size.toNat
    rw [add_toNat _ _ (by omega),hc]
  · have hlive : (s.alloc size).live = ⟨r.start,size⟩::s.live := by
      simp only [Use.alloc,haddr,if_neg hne]
    rw [hlive,List.map_cons,h.live]
    change Block.mk r.start.toNat size.toNat::A.live = ⟨A.cursor,size.toNat⟩::A.live
    rw [hc]

/-- A free of a live block moves the cursor back if the block ends there, and
otherwise changes nothing. -/
theorem free_shows (h : Shows endAddr s A) {b : LiveBlock t} (hb : b ∈ s.live) :
    (∃ (hz : b.block.size ≠ 0) (ht : b.block.addr+b.block.size = A.cursor),
      Shows endAddr (s.free b.addr b.size) (A.reclaim b.block (h.mem hb) hz ht)) ∨
    ((b.block.size = 0 ∨ b.block.addr+b.block.size ≠ A.cursor ∨ endAddr.toNat < b.block.addr) ∧
      Shows endAddr (s.free b.addr b.size) (A.abandon b.block (h.mem hb))) := by
  obtain ⟨r,hr,hc,he⟩ := h.region
  have hl := free_layout hr b.addr b.size
  have hlive : (s.free b.addr b.size).live.map LiveBlock.block = A.live.erase b.block := h.erase b
  by_cases hz : b.size = 0
  · right
    rw [hz,sub_zero,ite_self] at hl
    refine ⟨Or.inl (by simp [LiveBlock.block,hz]),⟨r,?_,hc,he⟩,hlive⟩
    rw [hz]
    exact hl
  · have hz0 : b.block.size ≠ 0 := fun h0 => hz (BitVec.eq_of_toNat_eq h0)
    have hlow : b.addr.toNat+b.size.toNat ≤ A.cursor := A.below b.block (h.mem hb) hz0
    have hsub := sub_toNat r.start b.size (by omega)
    have hguard : (b.addr ≥ r.start-b.size ∧ b.addr ≤ r.endAddr) ↔
        b.addr.toNat+b.size.toNat = A.cursor ∧ b.addr.toNat ≤ endAddr.toNat := by
      rw [ge_iff_le,BitVec.le_def,BitVec.le_def,hsub,hc,he]
      omega
    by_cases hg : b.addr.toNat+b.size.toNat = A.cursor ∧ b.addr.toNat ≤ endAddr.toNat
    · left
      rw [if_pos (hguard.mpr hg)] at hl
      refine ⟨hz0,hg.1,⟨_,hl,?_,he⟩,hlive⟩
      change (r.start-b.size).toNat = b.addr.toNat
      omega
    · right
      rw [if_neg (fun hh => hg (hguard.mp hh))] at hl
      refine ⟨Or.inr ?_,⟨r,hl,hc,he⟩,hlive⟩
      change b.addr.toNat+b.size.toNat ≠ A.cursor ∨ endAddr.toNat < b.addr.toNat
      omega

theorem free_shows_some (h : Shows endAddr s A) {b : LiveBlock t} (hb : b ∈ s.live) :
    ∃ B : Arena base.toNat, Shows endAddr (s.free b.addr b.size) B := by
  rcases free_shows h hb with ⟨hz,ht,hs⟩ | ⟨-,hs⟩
  · exact ⟨_,hs⟩
  · exact ⟨_,hs⟩

def Fits (s : Use t) : Request t → Prop
  | .alloc size => cursor s.mm+size.toNat ≤ limit s.mm
  | .free _ _ => True

def NoWrap (s : Use t) : Request t → Prop
  | .alloc size => cursor s.mm+size.toNat < 2^t.width
  | .free _ _ => True

def LastOut (s : Use t) : Request t → Prop
  | .alloc _ => True
  | .free addr size => size = 0 ∨ addr.toNat+size.toNat = cursor s.mm

def Inside (base limit : ℕ) (s : Use t) : Request t → Prop
  | .alloc size =>
    let addr := (quantumMemoryAlloc s.mm size).2
    addr = 0 ∨ base ≤ addr.toNat ∧ addr.toNat+size.toNat ≤ limit
  | .free _ _ => True

instance (s : Use t) : (l : Request t) → Decidable (Fits s l)
  | .alloc size => inferInstanceAs (Decidable (cursor s.mm+size.toNat ≤ limit s.mm))
  | .free _ _ => inferInstanceAs (Decidable True)

instance (s : Use t) : (l : Request t) → Decidable (NoWrap s l)
  | .alloc size => inferInstanceAs (Decidable (cursor s.mm+size.toNat < 2^t.width))
  | .free _ _ => inferInstanceAs (Decidable True)

instance (base limit : ℕ) (s : Use t) : (l : Request t) → Decidable (Inside base limit s l)
  | .alloc size => inferInstanceAs (Decidable ((quantumMemoryAlloc s.mm size).2 = 0 ∨
      base ≤ (quantumMemoryAlloc s.mm size).2.toNat ∧
      (quantumMemoryAlloc s.mm size).2.toNat+size.toNat ≤ limit))
  | .free _ _ => inferInstanceAs (Decidable True)

instance (s : Use t) : (l : Request t) → Decidable (LastOut s l)
  | .alloc _ => inferInstanceAs (Decidable True)
  | .free addr size => inferInstanceAs
      (Decidable (size = 0 ∨ addr.toNat+size.toNat = cursor s.mm))

theorem Fits.noWrap (h : Shows endAddr s A) {l : Request t} (hf : Fits s l) : NoWrap s l := by
  cases l with
  | free => trivial
  | alloc size =>
    have hl : limit s.mm < 2^t.width := by
      rw [h.limit]
      exact endAddr.isLt
    exact lt_of_le_of_lt hf hl

theorem step_shows (hb : base ≠ 0) (h : Shows endAddr s A) {l : Request t} {u : Use t}
    (he : memoryUse.enabled s l) (hw : NoWrap s l) (hu : memoryUse.step s l = some u) :
    ∃ B : Arena base.toNat, Shows endAddr u B := by
  cases l with
  | alloc size =>
    obtain rfl : s.alloc size = u := Option.some.inj hu
    have hw' : A.cursor+size.toNat < 2^t.width := by
      rw [← h.cursor]
      exact hw
    exact ⟨_,alloc_shows hb h hw'⟩
  | free addr size =>
    obtain rfl : s.free addr size = u := Option.some.inj hu
    exact free_shows_some h he

theorem run_shows (hb : base ≠ 0) {u : Use t} {ls : List (Request t)}
    (h : Run (memoryUse.restrict NoWrap) s ls u) (hs : Shows endAddr s A) :
    ∃ B : Arena base.toNat, Shows endAddr u B := by
  refine h.invariant (I := fun s => ∃ A : Arena base.toNat, Shows endAddr s A)
    (fun s l u hs he hu => ?_) ⟨A,hs⟩
  obtain ⟨A,hA⟩ := hs
  exact step_shows hb hA he.1 he.2 hu

/-- Every block handed out lies in the region exactly when every request fits
what was left of it, in every run from initialisation. -/
theorem alloc_inside_iff {P : Platform t} {o : InitOutcome} {mm : CtrlxtMm t}
    (hi : ctrlxtMmInit P o = (mm,0)) {u : Use t} {ls : List (Request t)}
    (h : Run memoryUse (opened mm) ls u) :
    Always memoryUse (Inside (cursor mm) (limit mm)) (opened mm) ls ↔
      Always memoryUse Fits (opened mm) ls := by
  obtain ⟨r,hr,hz⟩ := init_layout hi
  have hc : cursor mm = r.start.toNat := (opened_shows hr).cursor
  have hl : limit mm = r.endAddr.toNat := (opened_shows hr).limit
  have agree : ∀ (s : Use t) (l : Request t), (∃ A : Arena r.start.toNat, Shows r.endAddr s A) →
      (Inside (cursor mm) (limit mm) s l ↔ Fits s l) := by
    rintro s l ⟨A,hA⟩
    cases l with
    | free => exact Iff.rfl
    | alloc size =>
      obtain ⟨haddr,hne⟩ := hA.addr hz size
      have hbase := base_le_cursor A
      have hcur := hA.cursor
      have hlim := hA.limit
      simp only [Inside,Fits,hne,false_or,haddr]
      omega
  refine always_iff (fun s l hs _ => agree s l hs) (fun s l u hs he hin hu => ?_) h
    ⟨_,opened_shows hr⟩
  have hfit := (agree s l hs).mp hin
  obtain ⟨A,hA⟩ := hs
  exact step_shows hz hA he (hfit.noWrap hA) hu

def smallPlatform : Platform .bits64 where
  pageOffset := 0xffff888000000000
  pageShift := 12
  totalramPages := 1000
  getOrder size := Nat.size ((size.toNat-1)/4096)
  getFreePages _ := 0xffff888000100000

def smallMm : CtrlxtMm .bits64 := (ctrlxtMmInit smallPlatform ⟨true,true⟩).1

theorem smallMm_init : ctrlxtMmInit smallPlatform ⟨true,true⟩ = (smallMm,0) := rfl

theorem alloc_inside_exhausted :
    Always memoryUse (Inside (cursor smallMm) (limit smallMm)) (opened smallMm)
      [.alloc 4096,.alloc 36864,.free 0xffff888000101000 36864,.alloc 0] := by
  have h : ∃ u, Run (memoryUse.restrict Fits) (opened smallMm)
      [.alloc 4096,.alloc 36864,.free 0xffff888000101000 36864,.alloc 0] u :=
    ⟨_,run_iff_exec.mpr rfl⟩
  obtain ⟨u,hu⟩ := h
  obtain ⟨hrun,hfits⟩ := restrict_run_iff.mp hu
  exact (alloc_inside_iff smallMm_init hrun).mpr hfits

/-- One byte more than the region has is granted all the same. -/
theorem alloc_outside :
    ∃ u, Run memoryUse (opened smallMm) [.alloc 40961] u ∧
      ¬Always memoryUse (Inside (cursor smallMm) (limit smallMm)) (opened smallMm)
        [.alloc 40961] := by
  refine ⟨_,run_iff_exec.mpr rfl,fun h => ?_⟩
  exact absurd h.1 (by decide)

/-- Live blocks share no address, whatever the order of the frees. -/
theorem live_apart {P : Platform t} {o : InitOutcome} {mm : CtrlxtMm t}
    (hi : ctrlxtMmInit P o = (mm,0)) {s : Use t} {ls : List (Request t)}
    (h : Run (memoryUse.restrict NoWrap) (opened mm) ls s) :
    s.live.Pairwise (fun b c => b.size ≠ 0 → c.size ≠ 0 →
      b.addr.toNat+b.size.toNat ≤ c.addr.toNat ∨ c.addr.toNat+c.size.toNat ≤ b.addr.toNat) := by
  obtain ⟨r,hr,hz⟩ := init_layout hi
  obtain ⟨A,hA⟩ := run_shows hz h (opened_shows hr)
  have hp := A.apart
  rw [← hA.live,List.pairwise_map] at hp
  have nonzero : ∀ b : LiveBlock t, b.size ≠ 0 → b.block.size ≠ 0 :=
    fun b hb h0 => hb (BitVec.eq_of_toNat_eq h0)
  exact hp.imp (fun hbc hb hc => hbc (nonzero _ hb) (nonzero _ hc))

theorem live_apart_out_of_order :
    ∃ s : Use .bits64, Run (memoryUse.restrict NoWrap) (opened smallMm)
      [.alloc 16,.alloc 32,.free 0xffff888000100000 16,.alloc 8] s ∧
      s.live.Pairwise (fun b c => b.size ≠ 0 → c.size ≠ 0 →
        b.addr.toNat+b.size.toNat ≤ c.addr.toNat ∨ c.addr.toNat+c.size.toNat ≤ b.addr.toNat) := by
  have h : ∃ s : Use .bits64, Run (memoryUse.restrict NoWrap) (opened smallMm)
      [.alloc 16,.alloc 32,.free 0xffff888000100000 16,.alloc 8] s := ⟨_,run_iff_exec.mpr rfl⟩
  obtain ⟨s,hs⟩ := h
  exact ⟨s,hs,live_apart smallMm_init hs⟩

def LiveInside (endAddr : ULong t) (s : Use t) : Prop :=
  ∀ b ∈ s.live, b.addr.toNat ≤ endAddr.toNat

theorem alloc_lost (hb : base ≠ 0) (h : Shows endAddr s A) (hin : LiveInside endAddr s)
    {size : ULong t} (hf : Fits s (.alloc size)) :
    Shows endAddr (s.alloc size) (A.alloc size.toNat) ∧ LiveInside endAddr (s.alloc size) := by
  have hw : NoWrap s (.alloc size) := hf.noWrap h
  have hfit : cursor s.mm+size.toNat ≤ limit s.mm := hf
  obtain ⟨haddr,hne⟩ := h.addr hb size
  have hcur := h.cursor
  have hlim := h.limit
  refine ⟨alloc_shows hb h (by rw [← hcur]; exact hw),?_⟩
  intro b hm
  have hlive : (s.alloc size).live = ⟨(quantumMemoryAlloc s.mm size).2,size⟩::s.live := if_neg hne
  rw [hlive] at hm
  rcases List.mem_cons.mp hm with rfl | hm
  · change (quantumMemoryAlloc s.mm size).2.toNat ≤ _
    omega
  · exact hin b hm

theorem free_lost (h : Shows endAddr s A) (hin : LiveInside endAddr s) {addr size : ULong t}
    (hm : ⟨addr,size⟩ ∈ s.live) :
    ∃ B : Arena base.toNat, Shows endAddr (s.free addr size) B ∧ A.lost ≤ B.lost ∧
      LiveInside endAddr (s.free addr size) ∧
      (B.lost = A.lost ↔ LastOut s (.free addr size)) := by
  have hin' : LiveInside endAddr (s.free addr size) :=
    fun b hb => hin b (List.mem_of_mem_erase hb)
  have hlow := hin ⟨addr,size⟩ hm
  have hz : size = 0 ↔ size.toNat = 0 :=
    ⟨fun h0 => by rw [h0]; exact BitVec.toNat_zero ..,fun h0 => BitVec.eq_of_toNat_eq h0⟩
  simp only [LastOut,h.cursor,hz]
  rcases free_shows h hm with ⟨hz0,ht,hs⟩ | ⟨hno,hs⟩
  · have htop : addr.toNat+size.toNat = A.cursor := ht
    exact ⟨_,hs,le_refl _,hin',iff_of_true rfl (Or.inr htop)⟩
  · refine ⟨_,hs,Nat.le_add_right _ _,hin',?_⟩
    change A.lost+size.toNat = A.lost ↔ _
    change size.toNat = 0 ∨ addr.toNat+size.toNat ≠ A.cursor ∨ endAddr.toNat < addr.toNat at hno
    change addr.toNat ≤ endAddr.toNat at hlow
    omega

/-- Along a run that stays in the region, what is abandoned only grows, and it
does not grow exactly when every free is of the last block out. -/
theorem lost_run (hb : base ≠ 0) {u : Use t} {ls : List (Request t)}
    (h : Run (memoryUse.restrict Fits) s ls u) (hs : Shows endAddr s A)
    (hin : LiveInside endAddr s) :
    ∃ B : Arena base.toNat, Shows endAddr u B ∧ A.lost ≤ B.lost ∧ LiveInside endAddr u ∧
      (B.lost = A.lost ↔ Always memoryUse LastOut s ls) := by
  induction h generalizing A with
  | nil => exact ⟨A,hs,le_refl _,hin,by simp [Always]⟩
  | @cons s v u l ls he hv _ ih =>
    have hv' : memoryUse.step s l = some v := hv
    have step : ∃ B : Arena base.toNat, Shows endAddr v B ∧ A.lost ≤ B.lost ∧
        LiveInside endAddr v ∧ (B.lost = A.lost ↔ LastOut s l) := by
      cases l with
      | alloc size =>
        obtain rfl : s.alloc size = v := Option.some.inj hv'
        obtain ⟨hsA,hinA⟩ := alloc_lost hb hs hin he.2
        exact ⟨_,hsA,le_refl _,hinA,iff_of_true rfl trivial⟩
      | free addr size =>
        obtain rfl : s.free addr size = v := Option.some.inj hv'
        exact free_lost hs hin he.1
    obtain ⟨B,hB,hAB,hinB,hiffB⟩ := step
    obtain ⟨C,hC,hBC,hinC,hiffC⟩ := ih hB hinB
    refine ⟨C,hC,hAB.trans hBC,hinC,?_⟩
    rw [always_cons hv',← hiffB,← hiffC]
    omega

/-- Between two states with no live block the cursor comes back exactly when
blocks are given back in the order opposite to their allocation. -/
theorem space_returned_iff {P : Platform t} {o : InitOutcome} {mm : CtrlxtMm t}
    (hi : ctrlxtMmInit P o = (mm,0)) {s u : Use t} {before ls : List (Request t)}
    (h₀ : Run (memoryUse.restrict Fits) (opened mm) before s) (hs : s.live = [])
    (h : Run (memoryUse.restrict Fits) s ls u) (hu : u.live = []) :
    cursor u.mm = cursor s.mm ↔ Always memoryUse LastOut s ls := by
  obtain ⟨r,hr,hz⟩ := init_layout hi
  obtain ⟨A,hA,-,hin,-⟩ := lost_run hz h₀ (opened_shows hr) (fun b hb => by cases hb)
  obtain ⟨B,hB,-,-,hiff⟩ := lost_run hz h hA hin
  have hAe : A.live = [] := by rw [← hA.live,hs,List.map_nil]
  have hBe : B.live = [] := by rw [← hB.live,hu,List.map_nil]
  rw [← hiff,hA.cursor,hB.cursor,cursor_empty hAe,cursor_empty hBe]
  omega

theorem space_returned_nested :
    ∃ s u : Use .bits64,
      Run (memoryUse.restrict Fits) (opened smallMm) [.alloc 64,.free 0xffff888000100000 64] s ∧
      Run (memoryUse.restrict Fits) s [.alloc 16,.alloc 32,.free 0xffff888000100010 32,
        .free 0xffff888000100000 16] u ∧
      cursor u.mm = cursor s.mm := by
  have h : ∃ s u : Use .bits64,
      Run (memoryUse.restrict Fits) (opened smallMm) [.alloc 64,.free 0xffff888000100000 64] s ∧
      Run (memoryUse.restrict Fits) s [.alloc 16,.alloc 32,.free 0xffff888000100010 32,
        .free 0xffff888000100000 16] u ∧ s.live = [] ∧ u.live = [] ∧
      Always memoryUse LastOut s [.alloc 16,.alloc 32,.free 0xffff888000100010 32,
        .free 0xffff888000100000 16] :=
    ⟨_,_,run_iff_exec.mpr rfl,run_iff_exec.mpr rfl,rfl,rfl,by decide⟩
  obtain ⟨s,u,hs,hu,hse,hue,hlast⟩ := h
  exact ⟨s,u,hs,hu,(space_returned_iff smallMm_init hs hse hu hue).mpr hlast⟩

/-- Two blocks given back in the order of their allocation: the first free is
ignored, and its space is lost. -/
theorem space_not_returned :
    ∃ u : Use .bits64, Run (memoryUse.restrict Fits) (opened smallMm)
      [.alloc 16,.alloc 16,.free 0xffff888000100000 16,.free 0xffff888000100010 16] u ∧
      u.live = [] ∧ cursor u.mm ≠ cursor smallMm := by
  refine ⟨_,run_iff_exec.mpr rfl,rfl,?_⟩
  decide

end CtrlxtKernel.MemoryManagement
