import CtrlxtKernel.MemoryManagementExit

/-!
# Frees of what is not live

The caller may pass any address and any size to `quantum_memory_free`. The
guard compares the address with the cursor less the size and with the end of
the region, so it lets through whatever lies between the two.
-/

set_option autoImplicit false

namespace CtrlxtKernel.MemoryManagement
open MachineInt BumpArena StepMachine

variable {t : Target}

def anyUse : Machine (Use t) (Request t) where
  enabled _ _ := True
  step := memoryUse.step

instance (s : Use t) (l : Request t) : Decidable (anyUse.enabled s l) :=
  inferInstanceAs (Decidable True)

/-- Nothing is to be taken back, or the address lies below the cursor less the
size, a difference that may wrap, or above the end. -/
def Refused (mm : CtrlxtMm t) (addr size : ULong t) : Prop :=
  size = 0 ∨ ∀ r, quantumRegion mm = some r → addr < r.start-size ∨ r.endAddr < addr

instance (mm : CtrlxtMm t) (addr size : ULong t) : Decidable (Refused mm addr size) :=
  inferInstanceAs (Decidable
    (size = 0 ∨ ∀ r ∈ quantumRegion mm, addr < r.start-size ∨ r.endAddr < addr))

/-- A free names a live block or is refused, and an allocation does not take
the cursor past the last address. -/
def Careful (s : Use t) : Request t → Prop
  | .alloc size => NoWrap s (.alloc size)
  | .free addr size => ⟨addr,size⟩ ∈ s.live ∨ Refused s.mm addr size

instance (s : Use t) : (l : Request t) → Decidable (Careful s l)
  | .alloc size => inferInstanceAs (Decidable (NoWrap s (.alloc size)))
  | .free addr size => inferInstanceAs (Decidable (⟨addr,size⟩ ∈ s.live ∨ Refused s.mm addr size))

theorem refused_iff {mm : CtrlxtMm t} {r : MemoryRegion t} (h : Layout mm r)
    (addr size : ULong t) :
    Refused mm addr size ↔ size = 0 ∨ ¬(addr ≥ r.start-size ∧ addr ≤ r.endAddr) := by
  simp only [Refused,h.region,Option.some.injEq,forall_eq',not_and_or,ge_iff_le,BitVec.not_le]

theorem Layout.eq {mm : CtrlxtMm t} {r r' : MemoryRegion t} (h : Layout mm r)
    (h' : Layout mm r') : r = r' :=
  Option.some.inj (h.region.symm.trans h'.region)

theorem free_refused {mm : CtrlxtMm t} {r : MemoryRegion t} (h : Layout mm r)
    {addr size : ULong t} (hr : size = 0 ∨ ¬(addr ≥ r.start-size ∧ addr ≤ r.endAddr)) :
    quantumMemoryFree mm addr size = mm := by
  obtain ⟨rest,hm,hq,hrest⟩ := h
  have hfree : freeIn mm.memoryRegions addr size = mm.memoryRegions := by
    rw [hm,freeIn]
    split_ifs with hg
    · obtain rfl := hr.resolve_right (not_not.mpr hg.2)
      rw [sub_zero]
    · rw [freeIn_none hrest]
  rw [quantumMemoryFree,hfree]

theorem free_unchanged_iff {mm : CtrlxtMm t} {r : MemoryRegion t} (h : Layout mm r)
    (addr size : ULong t) : quantumMemoryFree mm addr size = mm ↔ Refused mm addr size := by
  rw [refused_iff h]
  constructor
  · intro hsame
    by_cases hg : addr ≥ r.start-size ∧ addr ≤ r.endAddr
    · left
      have hmoved := free_layout h addr size
      rw [hsame,if_pos hg] at hmoved
      have hstart := congrArg MemoryRegion.start (h.eq hmoved)
      exact sub_eq_self.mp hstart.symm
    · exact Or.inr hg
  · exact free_refused h

/-- A careful step keeps the region and its ledger an arena. -/
theorem careful_shows {base endAddr : ULong t} {s u : Use t} (hb : base ≠ 0)
    (hs : ∃ A : Arena base.toNat, Shows endAddr s A) {l : Request t} (hc : Careful s l)
    (hu : anyUse.step s l = some u) : ∃ A : Arena base.toNat, Shows endAddr u A := by
  obtain ⟨A,hA⟩ := hs
  cases l with
  | alloc size => exact step_shows hb hA (l := .alloc size) trivial hc hu
  | free addr size =>
    by_cases hm : ⟨addr,size⟩ ∈ s.live
    · exact step_shows hb hA (l := .free addr size) hm trivial hu
    · obtain ⟨r,hr,-,-⟩ := hA.region
      have hsame := (free_unchanged_iff hr addr size).mpr (hc.resolve_left hm)
      have hlive : s.live.erase ⟨addr,size⟩ = s.live := List.erase_of_not_mem hm
      obtain rfl : (⟨quantumMemoryFree s.mm addr size,s.live.erase ⟨addr,size⟩⟩ : Use t) = u :=
        Option.some.inj hu
      rw [hsame,hlive]
      exact ⟨A,hA⟩

/-- A free of what is not live leaves the region unchanged exactly when it is
refused; and while all such frees are refused and no allocation wraps, the
cursor does not drop below where it started. -/
theorem bad_free_iff {P : Platform t} {o : InitOutcome} {mm : CtrlxtMm t}
    (hi : ctrlxtMmInit P o = (mm,0)) {s : Use t} {ls : List (Request t)}
    (h : Run anyUse (opened mm) ls s) :
    (∀ addr size, ⟨addr,size⟩ ∉ s.live →
      (quantumMemoryFree s.mm addr size = s.mm ↔ Refused s.mm addr size)) ∧
    (Always anyUse Careful (opened mm) ls → cursor mm ≤ cursor s.mm) := by
  obtain ⟨r,hr,hz⟩ := init_layout hi
  constructor
  · intro addr size _
    obtain ⟨r',hr',-⟩ := run_layout (M := anyUse) rfl (s := opened mm) hr h
    exact free_unchanged_iff hr' addr size
  · intro hc
    have hshows := (restrict_run_iff.mpr ⟨h,hc⟩).restrict_invariant
      (I := fun s => ∃ A : Arena r.start.toNat, Shows r.endAddr s A)
      (fun _ _ _ hs _ hc hu => careful_shows hz hs hc hu) ⟨_,opened_shows hr⟩
    obtain ⟨A,hA⟩ := hshows
    rw [hA.cursor,hr.cursor]
    exact base_le_cursor A

theorem bad_free_below :
    ∃ s : Use .bits64, Run anyUse (opened smallMm) [.alloc 16,.free 7 16] s ∧
      quantumMemoryFree s.mm 7 16 = s.mm ∧ cursor smallMm ≤ cursor s.mm := by
  have h : ∃ s : Use .bits64, Run anyUse (opened smallMm) [.alloc 16,.free 7 16] s ∧
      ⟨7,16⟩ ∉ s.live ∧ Refused s.mm 7 16 := ⟨_,run_iff_exec.mpr rfl,by decide,by decide⟩
  obtain ⟨s,hs,hlive,hrefused⟩ := h
  obtain ⟨hiff,hbelow⟩ := bad_free_iff smallMm_init hs
  exact ⟨s,hs,(hiff 7 16 hlive).mpr hrefused,hbelow (by decide)⟩

/-- With nothing live, a free at the start of the region takes the cursor below it. -/
theorem bad_free_taken :
    ctrlxtMmInit smallPlatform ⟨true,true⟩ = (smallMm,0) ∧
      (⟨0xffff888000100000,16⟩ : LiveBlock .bits64) ∉ (opened smallMm).live ∧
      cursor (quantumMemoryFree smallMm 0xffff888000100000 16) < cursor smallMm := by
  refine ⟨rfl,List.not_mem_nil,?_⟩
  decide

end CtrlxtKernel.MemoryManagement
