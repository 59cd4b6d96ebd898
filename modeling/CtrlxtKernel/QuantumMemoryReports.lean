import CtrlxtKernel.QuantumMemorySections

/-!
# What the memory manager reports

`ctrlxt_qmem_get_stats` reads the two counters and the limit without the lock,
one after the other. The report is that of one state between operations when
nothing that it depends on moves between that state and the three reads.
-/

set_option autoImplicit false

namespace CtrlxtKernel.QuantumMemory
open MachineInt ObjectHeap StepMachine

variable {t : Target}

structure QuantumMemoryStats where
  totalQubits : CInt
  allocatedQubits : CInt
  maxQubits : CInt
  freeQubits : CInt
  deriving DecidableEq

/-- The argument is NULL or what the pointer points to. -/
def ctrlxtQmemGetStats (q : CtrlxtQmem t) : Option QuantumMemoryStats → Option QuantumMemoryStats
  | none => none
  | some _ => some ⟨q.totalQubits,q.allocatedQubits,q.maxQubits,q.maxQubits-q.allocatedQubits⟩

/-- What is reported when the three counters are read one after the other. -/
def readStats (first second third : CtrlxtQmem t) : QuantumMemoryStats :=
  ⟨first.totalQubits,second.allocatedQubits,third.maxQubits,
    third.maxQubits-second.allocatedQubits⟩

theorem getStats_read (q : CtrlxtQmem t) (stats : QuantumMemoryStats) :
    ctrlxtQmemGetStats q (some stats) = some (readStats q q q) := rfl

/-- Between the first two reads the section that was open at the first, if any,
does its second update and no other section does. Some moment comes before any
further section has begun, finds none open, and no limit is stored from it on. -/
structure Undisturbed (s₁ : Sections t) (ls₁ ls₂ : List (SectionStep t)) : Prop where
  closed : tally (sections t) Closes s₁ ls₁ = openSections s₁
  moment : ∃ a b x, ls₁++ls₂ = a++b ∧ Run (sections t) s₁ a x ∧ x.opened = none ∧
    Always (sections t) (fun s l => ¬Opens s l) s₁ a ∧
    Always (sections t) (fun s l => ¬SetsLimit s l) x b

def Snapshot (s₁ : Sections t) (ls : List (SectionStep t)) (r : QuantumMemoryStats) : Prop :=
  ∃ a b x, ls = a++b ∧ Run (sections t) s₁ a x ∧ x.opened = none ∧
    r = readStats x.qmem x.qmem x.qmem ∧ r.totalQubits = r.allocatedQubits ∧
    r.freeQubits.toInt = r.maxQubits.toInt-r.allocatedQubits.toInt ∧ 0 ≤ r.freeQubits.toInt

section Kept

variable {s u : Sections t} {ls : List (SectionStep t)}

theorem total_kept (h : Run (sections t) s ls u)
    (hc : Always (sections t) (fun s l => ¬Opens s l) s ls) :
    u.qmem.totalQubits = s.qmem.totalQubits := by
  apply (restrict_run_iff.mpr ⟨h,hc⟩).restrict_invariant
    (I := fun v => v.qmem.totalQubits = s.qmem.totalQubits) _ rfl
  exact fun v l w hv he hc hw => ((step_frame he hw).total hc).trans hv

theorem allocated_kept (h : Run (sections t) s ls u)
    (hc : Always (sections t) (fun s l => ¬Closes s l) s ls) :
    u.qmem.allocatedQubits = s.qmem.allocatedQubits := by
  apply (restrict_run_iff.mpr ⟨h,hc⟩).restrict_invariant
    (I := fun v => v.qmem.allocatedQubits = s.qmem.allocatedQubits) _ rfl
  exact fun v l w hv he hc hw => ((step_frame he hw).allocated hc).trans hv

theorem limit_kept (h : Run (sections t) s ls u)
    (hc : Always (sections t) (fun s l => ¬SetsLimit s l) s ls) :
    u.qmem.maxQubits = s.qmem.maxQubits := by
  apply (restrict_run_iff.mpr ⟨h,hc⟩).restrict_invariant
    (I := fun v => v.qmem.maxQubits = s.qmem.maxQubits) _ rfl
  exact fun v l w hv he hc hw => ((step_frame he hw).limit hc).trans hv

theorem sections_balance (h : Run (sections t) s ls u) :
    openSections s+tally (sections t) Opens s ls =
      openSections u+tally (sections t) Closes s ls :=
  h.balance (fun _ _ _ => step_openSections)

end Kept

theorem AtRest.report {q : CtrlxtQmem t} (h : AtRest q) :
    (readStats q q q).totalQubits = (readStats q q q).allocatedQubits ∧
      (readStats q q q).freeQubits.toInt =
        (readStats q q q).maxQubits.toInt-(readStats q q q).allocatedQubits.toInt ∧
      0 ≤ (readStats q q q).freeQubits.toInt := by
  have hall := h.allocated
  have hlimit := h.limit
  have hmax := (int_bounds q.maxQubits).2
  have hfree := sub_toInt q.maxQubits q.allocatedQubits (by omega) (by omega)
  refine ⟨h.total,hfree,?_⟩
  show 0 ≤ (q.maxQubits-q.allocatedQubits).toInt
  omega

section Reports

variable {s₁ s₂ s₃ x : Sections t} {before ls₁ ls₂ a b : List (SectionStep t)}

/-- The second read finds what the counter holds at the moment in question,
which comes before it or after it. -/
theorem allocated_at (h₁ : Run (sections t) s₁ ls₁ s₂) (hax : Run (sections t) s₁ a x)
    (hab : ls₁++ls₂ = a++b) (hidle : x.opened = none)
    (hclosed : tally (sections t) Closes s₁ ls₁ = openSections s₁)
    (hopens : Always (sections t) (fun s l => ¬Opens s l) s₁ a) :
    s₂.qmem.allocatedQubits = x.qmem.allocatedQubits := by
  have hx : openSections x = 0 := if_pos hidle
  rcases List.append_eq_append_iff.mp hab with ⟨c,rfl,-⟩ | ⟨c,rfl,-⟩
  · obtain ⟨y,hy,hc⟩ := hax.split
    obtain rfl := hy.unique h₁
    obtain ⟨hfirst,hsecond⟩ := (always_append h₁).mp hopens
    have hfirst := (tally_eq_zero h₁).mpr hfirst
    have hsecond := (tally_eq_zero hc).mpr hsecond
    have hbalance₁ := sections_balance h₁
    have hbalance₂ := sections_balance hc
    exact (allocated_kept hc ((tally_eq_zero hc).mp (by omega))).symm
  · obtain ⟨y,hy,hc⟩ := h₁.split
    obtain rfl := hy.unique hax
    have hnone := (tally_eq_zero hax).mpr hopens
    have hbalance := sections_balance hax
    rw [tally_append hax] at hclosed
    exact allocated_kept hc ((tally_eq_zero hc).mp (by omega))

/-- An undisturbed report is a snapshot. -/
theorem report_snapshot (h₀ : Run ((sections t).restrict KeepsLimit) loadedSections before s₁)
    (h₁ : Run ((sections t).restrict KeepsLimit) s₁ ls₁ s₂)
    (h₂ : Run ((sections t).restrict KeepsLimit) s₂ ls₂ s₃) (hu : Undisturbed s₁ ls₁ ls₂) :
    Snapshot s₁ (ls₁++ls₂) (readStats s₁.qmem s₂.qmem s₃.qmem) := by
  obtain ⟨hclosed,a,b,x,hab,hax,hidle,hopens,hlimits⟩ := hu
  have hwhole := h₁.append h₂
  rw [hab] at hwhole
  obtain ⟨y,hy,hb⟩ := hwhole.split
  obtain rfl := (restrict_run_iff.mp hy).1.unique hax
  have htotal := total_kept hax hopens
  have hall := allocated_at (restrict_run_iff.mp h₁).1 hax hab hidle hclosed hopens
  have hmax := limit_kept (restrict_run_iff.mp hb).1 hlimits
  have hread : readStats s₁.qmem s₂.qmem s₃.qmem = readStats y.qmem y.qmem y.qmem := by
    rw [readStats,readStats,htotal,hall,hmax]
  have hrest := (run_consistent (h₀.append hy)).atRest hidle
  refine ⟨a,b,y,hab,hax,hidle,hread,?_⟩
  rw [hread]
  exact hrest.report

end Reports

/-- The first read finds an allocation half done, which is finished before the
second; a later one begins before the third. -/
theorem report_snapshot_finished :
    ∃ s₁ s₂ s₃ : Sections .bits64,
      Run ((sections .bits64).restrict KeepsLimit) loadedSections
        [.test (.alloc 5 0),.test (.alloc 3 0),.alloc 5 0 ⟨true,true⟩] s₁ ∧
      Run ((sections .bits64).restrict KeepsLimit) s₁ [.second] s₂ ∧
      Run ((sections .bits64).restrict KeepsLimit) s₂
        [.alloc 3 0 ⟨true,true⟩,.second] s₃ ∧
      Snapshot s₁ [.second,.alloc 3 0 ⟨true,true⟩,.second]
        (readStats s₁.qmem s₂.qmem s₃.qmem) := by
  have h : ∃ s₁ s₂ s₃ : Sections .bits64,
      Run ((sections .bits64).restrict KeepsLimit) loadedSections
        [.test (.alloc 5 0),.test (.alloc 3 0),.alloc 5 0 ⟨true,true⟩] s₁ ∧
      Run ((sections .bits64).restrict KeepsLimit) s₁ [.second] s₂ ∧
      Run ((sections .bits64).restrict KeepsLimit) s₂
        [.alloc 3 0 ⟨true,true⟩,.second] s₃ ∧
      Undisturbed s₁ [.second] [.alloc 3 0 ⟨true,true⟩,.second] :=
    ⟨_,_,_,run_iff_exec.mpr rfl,run_iff_exec.mpr rfl,run_iff_exec.mpr rfl,rfl,
      [.second],_,_,rfl,run_iff_exec.mpr rfl,rfl,by decide,by decide⟩
  obtain ⟨s₁,s₂,s₃,h₀,h₁,h₂,hu⟩ := h
  exact ⟨s₁,s₂,s₃,h₀,h₁,h₂,report_snapshot h₀ h₁ h₂ hu⟩

/-- An allocation between the first two reads is half reported. A block that is
freed, with the limit then lowered, before the third read leaves fewer than no
qubits. -/
theorem report_torn :
    (∃ s₁ s₂ : Sections .bits64,
      Run ((sections .bits64).restrict KeepsLimit) loadedSections [] s₁ ∧
      Run ((sections .bits64).restrict KeepsLimit) s₁
        [.test (.alloc 5 0),.alloc 5 0 ⟨true,true⟩,.second] s₂ ∧
      readStats s₁.qmem s₂.qmem s₂.qmem = ⟨0,5,1024,1019⟩ ∧
      ¬Snapshot s₁ [.test (.alloc 5 0),.alloc 5 0 ⟨true,true⟩,.second]
        (readStats s₁.qmem s₂.qmem s₂.qmem)) ∧
    ∃ s₂ s₃ : Sections .bits64,
      Run ((sections .bits64).restrict KeepsLimit) loadedSections
        [.test (.alloc 64 0),.alloc 64 0 ⟨true,true⟩,.second] s₂ ∧
      Run ((sections .bits64).restrict KeepsLimit) s₂
        [.free (.obj 1),.second,.test (.setMaxQubits 10),.setMaxStore 10] s₃ ∧
      (readStats s₂.qmem s₂.qmem s₃.qmem).freeQubits.toInt = -54 ∧
      ¬Snapshot s₂ [.free (.obj 1),.second,.test (.setMaxQubits 10),.setMaxStore 10]
        (readStats s₂.qmem s₂.qmem s₃.qmem) := by
  constructor
  · refine ⟨_,_,.nil _,run_iff_exec.mpr rfl,rfl,?_⟩
    rintro ⟨_,_,_,-,-,-,-,htotal,-⟩
    exact absurd htotal (by decide)
  · refine ⟨_,_,run_iff_exec.mpr rfl,run_iff_exec.mpr rfl,rfl,?_⟩
    rintro ⟨_,_,_,-,-,-,-,-,-,hfree⟩
    exact absurd hfree (by decide)

end CtrlxtKernel.QuantumMemory
