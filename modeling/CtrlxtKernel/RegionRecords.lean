import CtrlxtKernel.MemoryManagementRuns
import CtrlxtKernel.ObjectHeap
import CtrlxtKernel.StepRefinement

/-!
# Records of memory regions

The code of `mm/memory.c` with the records that `kzalloc` makes: the list links
records, regions are read and stored through them, and `kfree` takes them back.
The module is loaded, used and unloaded any number of times, and a load begins
with an empty list, whatever records are there from before. What it does to the
regions is what the model without records does.
-/

set_option autoImplicit false

namespace CtrlxtKernel.RegionRecords
open MachineInt ObjectHeap StepMachine
open MemoryManagement (MemoryRegion CtrlxtMm Platform InitOutcome memoryRegionNormal
  memoryRegionQuantum quantumMemoryCoherent quantumSize freedPages)

variable {t : Target}

/-- The static structure, and the records that are live. -/
structure MmState (t : Target) where
  memoryRegions : List ℕ
  totalPages : CInt
  freePages : CInt
  quantumPages : CInt
  records : Heap (MemoryRegion t)

def MmState.kzallocRegion (s : MmState t) : MmState t × ℕ :=
  ({ s with records := s.records.alloc ⟨0,0,0,0⟩ },s.records.next)

/-- The fields of a new record are stored and it is linked in. -/
def MmState.addRegion (s : MmState t) (region : ℕ) (r : MemoryRegion t) : Option (MmState t) :=
  (s.records.store region r).map fun records =>
    { s with memoryRegions := region::s.memoryRegions, records := records }

def registerMemoryRegions (P : Platform t) (s : MmState t) (kzalloc : Bool) :
    Option (MmState t × ℤ) :=
  let start := P.pageOffset
  let endAddr := start+P.totalramPages <<< P.pageShift
  if kzalloc then
    let (s,region) := s.kzallocRegion
    (s.addRegion region ⟨start,endAddr,memoryRegionNormal,0⟩).map fun s =>
      let pages := narrow ((endAddr-start) >>> P.pageShift)
      ({ s with totalPages := s.totalPages+pages, freePages := s.freePages+pages },0)
  else some (s,-enomem)

def initQuantumMemory (P : Platform t) (s : MmState t) (kzalloc : Bool) :
    Option (MmState t × ℤ) :=
  if kzalloc then
    let (s,region) := s.kzallocRegion
    let start := P.getFreePages (P.getOrder (quantumSize P))
    if start = 0 then
      (s.records.free region).map fun records => ({ s with records := records },-enomem)
    else
      (s.addRegion region
          ⟨start,start+quantumSize P,memoryRegionQuantum,quantumMemoryCoherent⟩).map fun s =>
        ({ s with quantumPages := s.quantumPages+narrow (quantumSize P >>> P.pageShift) },0)
  else some (s,-enomem)

def ctrlxtMmInit (P : Platform t) (s : MmState t) (o : InitOutcome) : Option (MmState t × ℤ) :=
  (registerMemoryRegions P ⟨[],0,0,0,s.records⟩ o.registerKzalloc).bind fun (s,err) =>
    if err < 0 then some (s,-enomem)
    else
      (initQuantumMemory P s o.quantumKzalloc).map fun (s,err) =>
        if err < 0 then (s,-enomem) else (s,0)

def allocIn (records : Heap (MemoryRegion t)) :
    List ℕ → ULong t → Option (Heap (MemoryRegion t) × ULong t)
  | [], _ => some (records,0)
  | p::rest, size =>
    (records.cells p).bind fun region =>
      if region.isQuantum then
        (records.store p { region with start := region.start+size }).map fun records =>
          (records,region.start)
      else allocIn records rest size

def quantumMemoryAlloc (s : MmState t) (size : ULong t) : Option (MmState t × ULong t) :=
  (allocIn s.records s.memoryRegions size).map fun (records,addr) =>
    ({ s with records := records },addr)

def freeIn (records : Heap (MemoryRegion t)) :
    List ℕ → ULong t → ULong t → Option (Heap (MemoryRegion t))
  | [], _, _ => some records
  | p::rest, addr, size =>
    (records.cells p).bind fun region =>
      if region.isQuantum ∧ addr ≥ region.start-size ∧ addr ≤ region.endAddr then
        records.store p { region with start := region.start-size }
      else freeIn records rest addr size

def quantumMemoryFree (s : MmState t) (addr size : ULong t) : Option (MmState t) :=
  (freeIn s.records s.memoryRegions addr size).map fun records => { s with records := records }

/-- The walk of the exit, which has taken the next link before it frees a record,
with its calls of `free_pages`. -/
def exitIn (P : Platform t) (records : Heap (MemoryRegion t)) :
    List ℕ → Option (Heap (MemoryRegion t) × List (ULong t × ℕ))
  | [] => some (records,[])
  | p::rest =>
    (records.cells p).bind fun region =>
      (records.free p).bind fun records =>
        (exitIn P records rest).map fun (records,pages) =>
          (records,if region.isQuantum then
            (region.start,P.getOrder (region.endAddr-region.start))::pages else pages)

def mmExit (P : Platform t) (s : MmState t) :
    Option (MmState t × List (ULong t × ℕ)) :=
  (exitIn P s.records s.memoryRegions).map fun (records,pages) =>
    ({ s with memoryRegions := [], records := records },pages)

def answering (P : Platform t) (pages : ULong t) : Platform t :=
  { P with getFreePages := fun _ => pages }

structure MmModule (t : Target) where
  state : MmState t
  loaded : Bool

inductive MmCall (t : Target) where
  | load (o : InitOutcome) (pages : ULong t)
  | alloc (size : ULong t)
  | free (addr size : ULong t)
  | unload

inductive MmAnswer (t : Target) where
  | status (ret : ℤ)
  | address (addr : ULong t)
  | done
  | pages (freed : List (ULong t × ℕ))

def MmModule.call (P : Platform t) (s : MmModule t) : MmCall t → Option (MmModule t × MmAnswer t)
  | .load o pages => (ctrlxtMmInit (answering P pages) s.state o).map fun (state,ret) =>
      (⟨state,decide (ret = 0)⟩,.status ret)
  | .alloc size => (quantumMemoryAlloc s.state size).map fun (state,addr) =>
      (⟨state,s.loaded⟩,.address addr)
  | .free addr size => (quantumMemoryFree s.state addr size).map fun state =>
      (⟨state,s.loaded⟩,.done)
  | .unload => (mmExit P s.state).map fun (state,freed) => (⟨state,false⟩,.pages freed)

def MmCall.allowed (loaded : Bool) : MmCall t → Prop
  | .load _ _ => loaded = false
  | .alloc _ | .free _ _ | .unload => loaded = true

def recorded (P : Platform t) : Machine (MmModule t) (MmCall t) where
  enabled s l := l.allowed s.loaded
  step s l := (s.call P l).map Prod.fst

def answered (P : Platform t) (s : MmModule t) (l : MmCall t) : List (MmAnswer t) :=
  ((s.call P l).map Prod.snd).toList

/-- The module without records, and how many loads failed when the first region was
registered already. -/
structure Regions (t : Target) where
  mm : CtrlxtMm t
  loaded : Bool
  failedLate : ℕ

def Regions.call (P : Platform t) (m : Regions t) : MmCall t → Regions t × MmAnswer t
  | .load o pages =>
    let (mm,ret) := MemoryManagement.ctrlxtMmInit (answering P pages) o
    (⟨mm,decide (ret = 0),m.failedLate+if o.registerKzalloc = true ∧ ret ≠ 0 then 1 else 0⟩,
      .status ret)
  | .alloc size =>
    let (mm,addr) := MemoryManagement.quantumMemoryAlloc m.mm size
    ({ m with mm := mm },.address addr)
  | .free addr size =>
    ({ m with mm := MemoryManagement.quantumMemoryFree m.mm addr size },.done)
  | .unload =>
    let (mm,freed) := MemoryManagement.mmExit P m.mm
    ({ m with mm := mm, loaded := false },.pages freed)

def unrecorded (P : Platform t) : Machine (Regions t) (MmCall t) where
  enabled m l := l.allowed m.loaded
  step m l := some (m.call P l).1

def shown (P : Platform t) (m : Regions t) (l : MmCall t) : List (MmAnswer t) := [(m.call P l).2]

structure Walked (h k : Heap (MemoryRegion t)) (ps : List ℕ) (rs : List (MemoryRegion t)) :
    Prop where
  regions : ps.map k.cells = rs.map some
  others : ∀ i, i ∉ ps → k.cells i = h.cells i
  live : ∀ i, (k.cells i).isSome = (h.cells i).isSome

theorem Walked.holds {h k : Heap (MemoryRegion t)} {ps : List ℕ} {rs : List (MemoryRegion t)}
    (hw : Walked h k ps rs) {names : List ℕ} (hh : h.Holds names) : k.Holds names := by
  intro i
  rw [hw.live i]
  exact hh i

theorem map_update {f : ℕ → Option (MemoryRegion t)} {p : ℕ} {v : Option (MemoryRegion t)}
    {ps : List ℕ} (hp : p ∉ ps) : ps.map (Function.update f p v) = ps.map f := by
  refine List.map_congr_left fun q hq => Function.update_of_ne ?_ _ _
  rintro rfl
  exact hp hq

theorem walked_store {h : Heap (MemoryRegion t)} {p : ℕ} {ps : List ℕ} {r : MemoryRegion t}
    {rs : List (MemoryRegion t)} (hn : (p::ps).Nodup)
    (hm : (p::ps).map h.cells = (r::rs).map some) (r' : MemoryRegion t) :
    ∃ k, h.store p r' = some k ∧ Walked h k (p::ps) (r'::rs) := by
  obtain ⟨hp,-⟩ := List.nodup_cons.mp hn
  obtain ⟨hr,hrest⟩ := List.cons.inj hm
  obtain ⟨k,hk⟩ := store_live hr r'
  have hcells := (store_spec hk).1
  refine ⟨k,hk,?_,fun i hi => ?_,fun i => ?_⟩
  · rw [hcells,List.map_cons,map_update hp,hrest,Function.update_self]
    rfl
  · rw [hcells,Function.update_of_ne (List.ne_of_not_mem_cons hi)]
  · rw [hcells]
    by_cases hi : i = p
    · rw [hi,Function.update_self,hr]
      rfl
    · rw [Function.update_of_ne hi]

theorem Walked.cons {h k : Heap (MemoryRegion t)} {p : ℕ} {ps : List ℕ} {r : MemoryRegion t}
    {rs : List (MemoryRegion t)} (hw : Walked h k ps rs) (hp : p ∉ ps) (hr : h.cells p = some r) :
    Walked h k (p::ps) (r::rs) := by
  refine ⟨?_,fun i hi => hw.others i (List.not_mem_of_not_mem_cons hi),hw.live⟩
  rw [List.map_cons,hw.others p hp,hr,hw.regions]
  rfl

theorem alloc_walked {h : Heap (MemoryRegion t)} {ps : List ℕ} {rs : List (MemoryRegion t)}
    (hn : ps.Nodup) (hm : ps.map h.cells = rs.map some) (size : ULong t) :
    ∃ k, allocIn h ps size = some (k,(MemoryManagement.allocIn rs size).2) ∧
      Walked h k ps (MemoryManagement.allocIn rs size).1 := by
  induction ps generalizing rs with
  | nil =>
    obtain rfl := List.map_eq_nil_iff.mp hm.symm
    exact ⟨h,rfl,rfl,fun _ _ => rfl,fun _ => rfl⟩
  | cons p ps ih =>
    cases rs with
    | nil => cases hm
    | cons r rs =>
      obtain ⟨hr,hrest⟩ := List.cons.inj hm
      obtain ⟨hp,hps⟩ := List.nodup_cons.mp hn
      rw [allocIn,hr,Option.bind_some,MemoryManagement.allocIn]
      split_ifs with hq
      · obtain ⟨k,hk,hw⟩ := walked_store hn hm { r with start := r.start+size }
        exact ⟨k,by rw [hk]; rfl,hw⟩
      · obtain ⟨k,hk,hw⟩ := ih hps hrest
        exact ⟨k,hk,hw.cons hp hr⟩

theorem free_walked {h : Heap (MemoryRegion t)} {ps : List ℕ} {rs : List (MemoryRegion t)}
    (hn : ps.Nodup) (hm : ps.map h.cells = rs.map some) (addr size : ULong t) :
    ∃ k, freeIn h ps addr size = some k ∧
      Walked h k ps (MemoryManagement.freeIn rs addr size) := by
  induction ps generalizing rs with
  | nil =>
    obtain rfl := List.map_eq_nil_iff.mp hm.symm
    exact ⟨h,rfl,rfl,fun _ _ => rfl,fun _ => rfl⟩
  | cons p ps ih =>
    cases rs with
    | nil => cases hm
    | cons r rs =>
      obtain ⟨hr,hrest⟩ := List.cons.inj hm
      obtain ⟨hp,hps⟩ := List.nodup_cons.mp hn
      rw [freeIn,hr,Option.bind_some,MemoryManagement.freeIn]
      split_ifs with hq
      · exact walked_store hn hm { r with start := r.start-size }
      · obtain ⟨k,hk,hw⟩ := ih hps hrest
        exact ⟨k,hk,hw.cons hp hr⟩

theorem exit_walked (P : Platform t) {h : Heap (MemoryRegion t)} {ps names : List ℕ}
    {rs : List (MemoryRegion t)} (hn : (ps++names).Nodup) (hh : h.Holds (ps++names))
    (hm : ps.map h.cells = rs.map some) :
    ∃ k, exitIn P h ps = some (k,freedPages P rs) ∧ k.Holds names := by
  induction ps generalizing h rs with
  | nil =>
    obtain rfl := List.map_eq_nil_iff.mp hm.symm
    exact ⟨h,rfl,hh⟩
  | cons p ps ih =>
    cases rs with
    | nil => cases hm
    | cons r rs =>
      obtain ⟨hr,hrest⟩ := List.cons.inj hm
      obtain ⟨hp,hps⟩ := List.nodup_cons.mp hn
      obtain ⟨g,hg,hgh,-⟩ := holds_free hh hp
      have hcells : ps.map g.cells = rs.map some := by
        rw [(free_spec hg).2.1,map_update (fun hmem => hp (List.mem_append_left _ hmem)),hrest]
      obtain ⟨k,hk,hkh⟩ := ih hps hgh hcells
      refine ⟨k,?_,hkh⟩
      rw [exitIn,hr,Option.bind_some,hg,Option.bind_some,hk,Option.map_some,freedPages]

/-- The records of the list hold the regions, and the live ones are those of the list and
others that no list names. -/
structure Stands (s : MmState t) (mm : CtrlxtMm t) (lost : List ℕ) : Prop where
  nodup : (s.memoryRegions++lost).Nodup
  live : s.records.Holds (s.memoryRegions++lost)
  regions : s.memoryRegions.map s.records.cells = mm.memoryRegions.map some
  totalPages : s.totalPages = mm.totalPages
  freePages : s.freePages = mm.freePages
  quantumPages : s.quantumPages = mm.quantumPages

theorem Stands.walked {s : MmState t} {mm : CtrlxtMm t} {lost : List ℕ} (hs : Stands s mm lost)
    {k : Heap (MemoryRegion t)} {rs : List (MemoryRegion t)}
    (hw : Walked s.records k s.memoryRegions rs) :
    Stands { s with records := k } { mm with memoryRegions := rs } lost :=
  ⟨hs.nodup,hw.holds hs.live,hw.regions,hs.totalPages,hs.freePages,hs.quantumPages⟩

theorem Stands.fresh {s : MmState t} {mm : CtrlxtMm t} {lost : List ℕ} (hs : Stands s mm lost) :
    s.records.next ∉ s.memoryRegions++lost := by
  intro hmem
  have hsome := (hs.live _).mpr hmem
  rw [s.records.fresh _ (le_refl _)] at hsome
  cases hsome

theorem Stands.add {s : MmState t} {mm : CtrlxtMm t} {lost : List ℕ} (hs : Stands s mm lost)
    (r : MemoryRegion t) :
    ∃ k, s.kzallocRegion.1.addRegion s.records.next r =
        some { s with memoryRegions := s.records.next::s.memoryRegions, records := k } ∧
      Stands { s with memoryRegions := s.records.next::s.memoryRegions, records := k }
        { mm with memoryRegions := r::mm.memoryRegions } lost := by
  have hnew := hs.fresh
  have hn : (s.records.next::(s.memoryRegions++lost)).Nodup := List.nodup_cons.mpr ⟨hnew,hs.nodup⟩
  have hlist : s.records.next ∉ s.memoryRegions := fun hmem => hnew (List.mem_append_left _ hmem)
  have hcells : (s.records.next::s.memoryRegions).map (s.records.alloc ⟨0,0,0,0⟩).cells =
      (⟨0,0,0,0⟩::mm.memoryRegions).map some := by
    rw [alloc_cells,List.map_cons,map_update hlist,Function.update_self,hs.regions]
    rfl
  obtain ⟨k,hk,hw⟩ := walked_store (List.nodup_cons.mpr
    ⟨hlist,(List.nodup_append.mp hs.nodup).1⟩) hcells r
  refine ⟨k,?_,hn,hw.holds (holds_alloc hs.live _),hw.regions,hs.totalPages,hs.freePages,
    hs.quantumPages⟩
  rw [MmState.addRegion,MmState.kzallocRegion,hk]
  rfl

theorem Stands.taken_back {s : MmState t} {mm : CtrlxtMm t} {lost : List ℕ}
    (hs : Stands s mm lost) :
    ∃ k, s.kzallocRegion.1.records.free s.records.next = some k ∧
      k.Holds (s.memoryRegions++lost) ∧
      s.memoryRegions.map k.cells = s.memoryRegions.map s.records.cells := by
  have hlist : s.records.next ∉ s.memoryRegions :=
    fun hmem => hs.fresh (List.mem_append_left _ hmem)
  obtain ⟨k,hk,hh,-⟩ := holds_free (holds_alloc hs.live ⟨0,0,0,0⟩) hs.fresh
  refine ⟨k,hk,hh,?_⟩
  rw [(free_spec hk).2.1,map_update hlist,alloc_cells,map_update hlist]

theorem register_stands (P : Platform t) {s : MmState t} {mm : CtrlxtMm t} {lost : List ℕ}
    (hs : Stands s mm lost) (kzalloc : Bool) :
    ∃ v, registerMemoryRegions P s kzalloc =
        some (v,(MemoryManagement.registerMemoryRegions P mm kzalloc).2) ∧
      Stands v (MemoryManagement.registerMemoryRegions P mm kzalloc).1 lost := by
  cases kzalloc with
  | false => exact ⟨s,rfl,hs⟩
  | true =>
    obtain ⟨k,hk,hv⟩ := hs.add ⟨P.pageOffset,P.pageOffset+P.totalramPages <<< P.pageShift,
      memoryRegionNormal,0⟩
    let pages : CInt := narrow ((P.pageOffset+P.totalramPages <<< P.pageShift-P.pageOffset) >>>
      P.pageShift)
    refine ⟨⟨s.records.next::s.memoryRegions,s.totalPages+pages,s.freePages+pages,s.quantumPages,k⟩,
      ?_,hv.nodup,hv.live,hv.regions,?_,?_,hs.quantumPages⟩
    · exact congrArg (Option.map _) hk
    · exact congrArg (fun n => n+pages) hs.totalPages
    · exact congrArg (fun n => n+pages) hs.freePages

theorem quantum_stands (P : Platform t) {s : MmState t} {mm : CtrlxtMm t} {lost : List ℕ}
    (hs : Stands s mm lost) (kzalloc : Bool) :
    ∃ v, initQuantumMemory P s kzalloc =
        some (v,(MemoryManagement.initQuantumMemory P mm kzalloc).2) ∧
      Stands v (MemoryManagement.initQuantumMemory P mm kzalloc).1 lost := by
  cases kzalloc with
  | false => exact ⟨s,rfl,hs⟩
  | true =>
    unfold initQuantumMemory MemoryManagement.initQuantumMemory
    simp only [if_true]
    split_ifs with hz
    · obtain ⟨k,hk,hh,hcells⟩ := hs.taken_back
      exact ⟨_,congrArg (Option.map _) hk,hs.nodup,hh,hcells.trans hs.regions,hs.totalPages,
        hs.freePages,hs.quantumPages⟩
    · obtain ⟨k,hk,hv⟩ := hs.add (MemoryManagement.takenRegion P)
      let pages : CInt := narrow (quantumSize P >>> P.pageShift)
      refine ⟨⟨s.records.next::s.memoryRegions,s.totalPages,s.freePages,s.quantumPages+pages,k⟩,
        ?_,hv.nodup,hv.live,hv.regions,hs.totalPages,hs.freePages,?_⟩
      · exact congrArg (Option.map _) hk
      · exact congrArg (fun n => n+pages) hs.quantumPages

theorem Stands.length {s : MmState t} {mm : CtrlxtMm t} {lost : List ℕ} (hs : Stands s mm lost) :
    s.memoryRegions.length = mm.memoryRegions.length := by
  have h := congrArg List.length hs.regions
  simpa using h

theorem nothing_stands {h : Heap (MemoryRegion t)} {lost : List ℕ} (hn : lost.Nodup)
    (hh : h.Holds lost) : Stands ⟨[],0,0,0,h⟩ ⟨[],0,0,0⟩ lost :=
  ⟨hn,hh,rfl,rfl,rfl,rfl⟩

theorem register_first (P : Platform t) (kzalloc : Bool) :
    ((MemoryManagement.registerMemoryRegions P ⟨[],0,0,0⟩ kzalloc).2 < 0 ↔ kzalloc = false) ∧
    (MemoryManagement.registerMemoryRegions P ⟨[],0,0,0⟩ kzalloc).1.memoryRegions.length =
      if kzalloc = true then 1 else 0 := by
  cases kzalloc with
  | false => exact ⟨iff_of_true (show -enomem < 0 by decide) rfl,rfl⟩
  | true => exact ⟨iff_of_false (lt_irrefl 0) nofun,rfl⟩

theorem quantum_failed {P : Platform t} {mm : CtrlxtMm t} {kzalloc : Bool}
    (h : (MemoryManagement.initQuantumMemory P mm kzalloc).2 < 0) :
    (MemoryManagement.initQuantumMemory P mm kzalloc).1 = mm := by
  unfold MemoryManagement.initQuantumMemory at h ⊢
  simp only at h ⊢
  split_ifs at h ⊢ with hk hz
  · rfl
  · exact absurd h (lt_irrefl 0)
  · rfl

/-- A load that fails late leaves a record behind, and any other that fails leaves none. -/
theorem init_stands (P : Platform t) {s : MmState t} {lost : List ℕ} (hn : lost.Nodup)
    (hh : s.records.Holds lost) (o : InitOutcome) :
    ∃ v, ctrlxtMmInit P s o = some (v,(MemoryManagement.ctrlxtMmInit P o).2) ∧
      ((MemoryManagement.ctrlxtMmInit P o).2 = 0 →
        Stands v (MemoryManagement.ctrlxtMmInit P o).1 lost ∧ v.memoryRegions.length = 2) ∧
      ((MemoryManagement.ctrlxtMmInit P o).2 ≠ 0 → ∃ more, more.Nodup ∧ v.records.Holds more ∧
        more.length = lost.length+if o.registerKzalloc = true then 1 else 0) := by
  obtain ⟨v,hv,hvs⟩ := register_stands P (nothing_stands hn hh) o.registerKzalloc
  obtain ⟨w,hw,hws⟩ := quantum_stands P hvs o.quantumKzalloc
  obtain ⟨hneg,hlen⟩ := register_first P o.registerKzalloc
  have hne : -enomem ≠ 0 := by decide
  rw [ctrlxtMmInit,hv,Option.bind_some]
  unfold MemoryManagement.ctrlxtMmInit
  simp only
  by_cases h1 : (MemoryManagement.registerMemoryRegions P ⟨[],0,0,0⟩ o.registerKzalloc).2 < 0
  · simp only [h1,if_true]
    refine ⟨v,rfl,fun h => absurd h hne,fun _ => ⟨_,hvs.nodup,hvs.live,?_⟩⟩
    rw [List.length_append,hvs.length,hlen,Nat.add_comm]
  · simp only [h1,if_false,hw,Option.map_some]
    by_cases h2 : (MemoryManagement.initQuantumMemory P (MemoryManagement.registerMemoryRegions P
        ⟨[],0,0,0⟩ o.registerKzalloc).1 o.quantumKzalloc).2 < 0
    · simp only [h2,if_true]
      refine ⟨w,rfl,fun h => absurd h hne,fun _ => ⟨_,hws.nodup,hws.live,?_⟩⟩
      rw [List.length_append,hws.length,quantum_failed h2,hlen,Nat.add_comm]
    · simp only [h2,if_false]
      refine ⟨w,rfl,fun _ => ⟨hws,?_⟩,fun h => absurd rfl h⟩
      obtain ⟨hr,-⟩ := MemoryManagement.initQuantumMemory_region h2
      rw [hws.length,hr,List.length_cons,hlen,if_pos]
      exact Bool.eq_true_of_not_eq_false fun hk => h1 (hneg.mpr hk)

/-- The module and the one without records agree, and the live records are those of the
list and one for each load that failed late. -/
structure Related (u : MmModule t) (m : Regions t) : Prop where
  loaded : u.loaded = m.loaded
  there : u.loaded = true → ∃ lost, Stands u.state m.mm lost ∧ lost.length = m.failedLate ∧
    u.state.memoryRegions.length = 2
  gone : u.loaded = false → ∃ lost, lost.Nodup ∧ u.state.records.Holds lost ∧
    lost.length = m.failedLate

def Matched (P : Platform t) (u : MmModule t) (m : Regions t) (l : MmCall t) : Prop :=
  ∃ v, u.call P l = some (v,(m.call P l).2) ∧ Related v (m.call P l).1

theorem load_matched (P : Platform t) {u : MmModule t} {m : Regions t} (h : Related u m)
    (hl : u.loaded = false) (o : InitOutcome) (pages : ULong t) :
    Matched P u m (.load o pages) := by
  obtain ⟨lost,hn,hh,hlost⟩ := h.gone hl
  obtain ⟨v,hv,hsuccess,hfailure⟩ := init_stands (answering P pages) hn hh o
  refine ⟨_,congrArg (Option.map _) hv,rfl,fun hloaded => ?_,fun hgone => ?_⟩
  · have hret := of_decide_eq_true hloaded
    obtain ⟨hs,hlen⟩ := hsuccess hret
    have hcounted : ¬(o.registerKzalloc = true ∧
      (MemoryManagement.ctrlxtMmInit (answering P pages) o).2 ≠ 0) := fun hc => hc.2 hret
    have hkept : (m.call P (.load o pages)).1.failedLate = m.failedLate :=
      congrArg (fun n => m.failedLate+n) (if_neg hcounted)
    exact ⟨lost,hs,hlost.trans hkept.symm,hlen⟩
  · have hret := of_decide_eq_false hgone
    obtain ⟨more,hmore,hlive,hcount⟩ := hfailure hret
    refine ⟨more,hmore,hlive,?_⟩
    rw [hcount,hlost]
    exact congrArg (m.failedLate+·) (if_congr (and_iff_left hret).symm rfl rfl)

theorem alloc_matched (P : Platform t) {u : MmModule t} {m : Regions t} (h : Related u m)
    (hl : u.loaded = true) (size : ULong t) : Matched P u m (.alloc size) := by
  obtain ⟨lost,hs,hlost,hlen⟩ := h.there hl
  obtain ⟨k,hk,hw⟩ := alloc_walked (List.nodup_append.mp hs.nodup).1 hs.regions size
  have hcall : quantumMemoryAlloc u.state size = some ({ u.state with records := k },
      (MemoryManagement.quantumMemoryAlloc m.mm size).2) := congrArg (Option.map _) hk
  exact ⟨_,congrArg (Option.map _) hcall,h.loaded,fun _ => ⟨lost,hs.walked hw,hlost,hlen⟩,
    fun hgone => absurd hl (by simp [show u.loaded = false from hgone])⟩

theorem free_matched (P : Platform t) {u : MmModule t} {m : Regions t} (h : Related u m)
    (hl : u.loaded = true) (addr size : ULong t) : Matched P u m (.free addr size) := by
  obtain ⟨lost,hs,hlost,hlen⟩ := h.there hl
  obtain ⟨k,hk,hw⟩ := free_walked (List.nodup_append.mp hs.nodup).1 hs.regions addr size
  have hcall : quantumMemoryFree u.state addr size = some { u.state with records := k } :=
    congrArg (Option.map _) hk
  exact ⟨_,congrArg (Option.map _) hcall,h.loaded,fun _ => ⟨lost,hs.walked hw,hlost,hlen⟩,
    fun hgone => absurd hl (by simp [show u.loaded = false from hgone])⟩

theorem unload_matched (P : Platform t) {u : MmModule t} {m : Regions t} (h : Related u m)
    (hl : u.loaded = true) : Matched P u m .unload := by
  obtain ⟨lost,hs,hlost,-⟩ := h.there hl
  obtain ⟨k,hk,hh⟩ := exit_walked P hs.nodup hs.live hs.regions
  have hcall : mmExit P u.state = some ({ u.state with memoryRegions := [], records := k },
      freedPages P m.mm.memoryRegions) := congrArg (Option.map _) hk
  exact ⟨_,congrArg (Option.map _) hcall,rfl,nofun,
    fun _ => ⟨lost,(List.nodup_append.mp hs.nodup).2.1,hh,hlost⟩⟩

theorem call_matched (P : Platform t) {u : MmModule t} {m : Regions t} (h : Related u m)
    {l : MmCall t} (hl : l.allowed u.loaded) : Matched P u m l := by
  cases l with
  | load o pages => exact load_matched P h hl o pages
  | alloc size => exact alloc_matched P h hl size
  | free addr size => exact free_matched P h hl addr size
  | unload => exact unload_matched P h hl

def notLoaded : MmModule t := ⟨⟨[],0,0,0,.empty⟩,false⟩

def noRegions : Regions t := ⟨⟨[],0,0,0⟩,false,0⟩

theorem notLoaded_related : Related (notLoaded : MmModule t) noRegions :=
  ⟨rfl,nofun,fun _ => ⟨[],List.nodup_nil,holds_empty,rfl⟩⟩

theorem step_matched (P : Platform t) {s : MmModule t} {l : MmCall t} {m : Regions t}
    (h : Related s m) (he : (recorded P).enabled s l) :
    ∃ u n, (recorded P).step s l = some u ∧ Run (unrecorded P) m [l] n ∧ Related u n ∧
      trace (unrecorded P) (shown P) m [l] = answered P s l := by
  obtain ⟨v,hv,hR⟩ := call_matched P h he
  have he' : (unrecorded P).enabled m l := by
    show l.allowed m.loaded
    rw [← h.loaded]
    exact he
  refine ⟨v,_,congrArg (Option.map Prod.fst) hv,Run.single he' rfl,hR,?_⟩
  rw [answered,hv]
  rfl

theorem recorded_simulates (P : Platform t) :
    Simulates (recorded P) (unrecorded P) (fun _ l => [l]) (answered P) (shown P) Related := by
  intro s l u m hR he hu
  obtain ⟨v,n,hv,hn,hR',hanswer⟩ := step_matched P hR he
  obtain rfl := Option.some.inj (hv.symm.trans hu)
  exact ⟨n,hn,hR',hanswer⟩

/-- Over any sequence of load attempts, calls and unloads, with whatever memory is found and
whatever addresses are freed, no record is touched after it was freed and none is freed twice;
every call answers what it answers on the list of regions alone, and the records that are live
are the two of a loaded module and one for each load that failed when the first region was
registered already. -/
theorem records_refine (P : Platform t) {ls : List (MmCall t)}
    (h : Always (recorded P) (recorded P).enabled notLoaded ls) :
    ∃ u m, Run (recorded P) notLoaded ls u ∧ Run (unrecorded P) noRegions ls m ∧
      trace (recorded P) (answered P) notLoaded ls = trace (unrecorded P) (shown P) noRegions ls ∧
      u.loaded = m.loaded ∧
      (u.loaded = true → u.state.memoryRegions.map u.state.records.cells =
        m.mm.memoryRegions.map some) ∧
      ∃ names, names.Nodup ∧ u.state.records.Holds names ∧
        names.length = m.failedLate+if u.loaded = true then 2 else 0 := by
  obtain ⟨u,-,hu,-,-⟩ := attempt_simulate (N := unrecorded P) (f := fun _ l => [l])
    (fun s l m hR he => by
      obtain ⟨v,n,hv,hn,hR',-⟩ := step_matched P hR he
      exact ⟨v,n,hv,hn,hR'⟩) h notLoaded_related
  obtain ⟨m,hm,hR,hanswers⟩ := hu.simulate (recorded_simulates P) notLoaded_related
  rw [trace_map (fun l => l) hu,List.map_id'] at hm hanswers
  refine ⟨u,m,hu,hm,hanswers.symm,hR.loaded,fun hl => ?_,?_⟩
  · obtain ⟨lost,hs,-⟩ := hR.there hl
    exact hs.regions
  · cases hl : u.loaded with
    | false =>
      obtain ⟨lost,hn,hh,hcount⟩ := hR.gone hl
      exact ⟨lost,hn,hh,hcount⟩
    | true =>
      obtain ⟨lost,hs,hcount,hlen⟩ := hR.there hl
      refine ⟨_,hs.nodup,hs.live,?_⟩
      rw [List.length_append,hlen,hcount,Nat.add_comm]
      rfl

instance (P : Platform t) (s : MmModule t) : (l : MmCall t) → Decidable ((recorded P).enabled s l)
  | .load _ _ => inferInstanceAs (Decidable (s.loaded = false))
  | .alloc _ | .free _ _ | .unload => inferInstanceAs (Decidable (s.loaded = true))

instance (P : Platform t) (m : Regions t) : (l : MmCall t) → Decidable ((unrecorded P).enabled m l)
  | .load _ _ => inferInstanceAs (Decidable (m.loaded = false))
  | .alloc _ | .free _ _ | .unload => inferInstanceAs (Decidable (m.loaded = true))

def reloads : List (MmCall .bits64) :=
  [.load ⟨true,true⟩ 0,.load ⟨true,true⟩ 0xffff888000100000,.alloc 16,
    .free 0xffff888000100000 16,.free 8 64,.unload,.load ⟨true,true⟩ 0xffff888000200000]

theorem records_refine_reloads :
    ∃ u : MmModule .bits64, Run (recorded MemoryManagement.smallPlatform) notLoaded reloads u ∧
      ∃ names, names.Nodup ∧ u.state.records.Holds names ∧ names.length = 3 := by
  have hrun : ∃ u, Run (recorded MemoryManagement.smallPlatform) notLoaded reloads u ∧
      u.loaded = true := ⟨_,run_iff_exec.mpr rfl,rfl⟩
  have hlist : ∃ m, Run (unrecorded MemoryManagement.smallPlatform) noRegions reloads m ∧
      m.failedLate = 1 := ⟨_,run_iff_exec.mpr rfl,rfl⟩
  obtain ⟨v,hv,hloaded⟩ := hrun
  obtain ⟨n,hn,hlate⟩ := hlist
  obtain ⟨u,m,hu,hm,-,-,-,names,hnames,hlive,hcount⟩ :=
    records_refine MemoryManagement.smallPlatform hv.attempt
  obtain rfl := hu.unique hv
  obtain rfl := hm.unique hn
  rw [hlate,if_pos hloaded] at hcount
  exact ⟨u,hu,names,hnames,hlive,hcount⟩

end CtrlxtKernel.RegionRecords
