import CtrlxtKernel.MemoryManagementRuns

/-!
# What the exit returns

`mm_exit` gives the pages of the quantum region back from where the allocation
cursor stands, with the order of what is left above it.
-/

set_option autoImplicit false

namespace CtrlxtKernel.MemoryManagement
open MachineInt BumpArena StepMachine

variable {t : Target}

def takenPages (P : Platform t) : ULong t × ℕ :=
  ((takenRegion P).start,P.getOrder (quantumSize P))

theorem freedPages_none (P : Platform t) {regions : List (MemoryRegion t)}
    (h : ∀ r ∈ regions, r.isQuantum = false) : freedPages P regions = [] := by
  induction regions with
  | nil => rfl
  | cons r rest ih =>
    have hr := h r List.mem_cons_self
    rw [freedPages,if_neg (by simp [hr]),ih (fun x hx => h x (List.mem_cons_of_mem r hx))]

theorem exit_pages (P : Platform t) {mm : CtrlxtMm t} {r : MemoryRegion t} (h : Layout mm r) :
    (mmExit P mm).2 = [(r.start,P.getOrder (r.endAddr-r.start))] := by
  obtain ⟨rest,hm,hq,hr⟩ := h
  rw [mmExit,hm,freedPages,if_pos hq,freedPages_none P hr]

theorem step_layout {s u : Use t} {r : MemoryRegion t} (h : Layout s.mm r) {l : Request t}
    (hu : memoryUse.step s l = some u) :
    ∃ r', Layout u.mm r' ∧ r'.endAddr = r.endAddr := by
  cases l with
  | alloc size =>
    cases hu
    exact ⟨_,(alloc_layout h size).2,rfl⟩
  | free addr size =>
    cases hu
    refine ⟨_,free_layout h addr size,?_⟩
    split_ifs <;> rfl

theorem run_layout {M : Machine (Use t) (Request t)} (hM : M.step = memoryUse.step) {s u : Use t}
    {r : MemoryRegion t} (h : Layout s.mm r) {ls : List (Request t)} (hrun : Run M s ls u) :
    ∃ r', Layout u.mm r' ∧ r'.endAddr = r.endAddr := by
  refine hrun.invariant (I := fun s => ∃ r', Layout s.mm r' ∧ r'.endAddr = r.endAddr)
    (fun s l u hs _ hu => ?_) ⟨r,h,rfl⟩
  obtain ⟨r₁,h₁,he₁⟩ := hs
  rw [hM] at hu
  obtain ⟨r₂,h₂,he₂⟩ := step_layout h₁ hu
  exact ⟨r₂,h₂,he₂.trans he₁⟩

theorem Layout.cursor {mm : CtrlxtMm t} {r : MemoryRegion t} (h : Layout mm r) :
    cursor mm = r.start.toNat := by
  simp [MemoryManagement.cursor,h.region]

/-- The exit returns what was taken exactly when the cursor is back at the base,
in every run, also one that overruns the region. -/
theorem exit_cursor_iff {P : Platform t} {o : InitOutcome} {mm : CtrlxtMm t}
    (hi : ctrlxtMmInit P o = (mm,0)) {u : Use t} {ls : List (Request t)}
    (h : Run memoryUse (opened mm) ls u) :
    (mmExit P u.mm).2 = [takenPages P] ↔ cursor u.mm = cursor mm := by
  obtain ⟨hl,-⟩ := init_taken hi
  obtain ⟨r,hr,he⟩ := run_layout (s := opened mm) rfl hl h
  rw [exit_pages P hr,hr.cursor,hl.cursor]
  constructor
  · intro hp
    have hstart : r.start = (takenRegion P).start := (Prod.mk.inj (List.cons.inj hp).1).1
    rw [hstart]
  · intro hc
    have hstart : r.start = (takenRegion P).start := BitVec.eq_of_toNat_eq hc
    have hsize : r.endAddr-r.start = quantumSize P := by
      rw [he,hstart]
      show (takenRegion P).start+quantumSize P-(takenRegion P).start = quantumSize P
      rw [BitVec.add_comm,BitVec.add_sub_cancel]
    rw [hsize,hstart]
    rfl

theorem bytes_zero {live : List (LiveBlock t)} :
    bytes (live.map LiveBlock.block) = 0 ↔ ∀ b ∈ live, b.size = 0 := by
  induction live with
  | nil => simp
  | cons b rest ih =>
    have hb : b.block.size = 0 ↔ b.size = 0 :=
      ⟨fun h => BitVec.eq_of_toNat_eq h,fun h => by simp [LiveBlock.block,h]⟩
    rw [List.map_cons,bytes_cons,Nat.add_eq_zero_iff,ih,hb]
    simp

/-- In a run whose requests fit the region, the exit returns the pages that
initialisation took exactly when every free named the last block out and no
block of any size is live at the end. -/
theorem exit_returned_iff {P : Platform t} {o : InitOutcome} {mm : CtrlxtMm t}
    (hi : ctrlxtMmInit P o = (mm,0)) {u : Use t} {ls : List (Request t)}
    (h : Run memoryUse (opened mm) ls u) :
    ((mmExit P u.mm).2 = [takenPages P] ↔ cursor u.mm = cursor mm) ∧
    (Always memoryUse Fits (opened mm) ls →
      ((mmExit P u.mm).2 = [takenPages P] ↔
        Always memoryUse LastOut (opened mm) ls ∧ ∀ b ∈ u.live, b.size = 0)) := by
  have hcur := exit_cursor_iff hi h
  refine ⟨hcur,fun hf => ?_⟩
  obtain ⟨hl,hz⟩ := init_taken hi
  obtain ⟨B,hB,-,-,hiff⟩ := lost_run hz (restrict_run_iff.mpr ⟨h,hf⟩) (opened_shows hl)
    (fun b hb => by cases hb)
  have ht := B.total
  rw [hcur,hB.cursor,hl.cursor,← hiff,← bytes_zero,hB.live]
  change _ ↔ B.lost = 0 ∧ _
  omega

theorem exit_returned_nested :
    ∃ u : Use .bits64, Run memoryUse (opened smallMm)
        [.alloc 16,.alloc 32,.free 0xffff888000100010 32,.free 0xffff888000100000 16] u ∧
      (mmExit smallPlatform u.mm).2 = [takenPages smallPlatform] := by
  have h : ∃ u : Use .bits64, Run memoryUse (opened smallMm)
      [.alloc 16,.alloc 32,.free 0xffff888000100010 32,.free 0xffff888000100000 16] u ∧
      cursor u.mm = cursor smallMm := ⟨_,run_iff_exec.mpr rfl,rfl⟩
  obtain ⟨u,hu,hc⟩ := h
  exact ⟨u,hu,(exit_returned_iff smallMm_init hu).1.mpr hc⟩

/-- One page that was handed out and not returned moves the address. -/
theorem exit_not_returned :
    ∃ u : Use .bits64, Run memoryUse (opened smallMm) [.alloc 4096] u ∧
      takenPages smallPlatform = (0xffff888000100000,4) ∧
      (mmExit smallPlatform u.mm).2 = [(0xffff888000101000,4)] := by
  refine ⟨_,run_iff_exec.mpr rfl,rfl,?_⟩
  decide

end CtrlxtKernel.MemoryManagement
