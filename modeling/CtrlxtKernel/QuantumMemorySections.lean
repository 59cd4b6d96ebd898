import CtrlxtKernel.QuantumMemoryHalves
import CtrlxtKernel.QuantumMemoryInterleaving

/-!
# Locked sections that others see half done

Whoever reads the counters without the lock may find a section open between its
two updates. Callers that have passed a test are remembered by their calls, and
any pointer may be passed. The books are kept for what the manager will be when
the open section is finished.
-/

set_option autoImplicit false

namespace CtrlxtKernel.QuantumMemory
open MachineInt ObjectHeap StepMachine

variable {t : Target}

structure Sections (t : Target) where
  qmem : CtrlxtQmem t
  pending : List (Call t)
  opened : Option (Half t)

def loadedSections : Sections t := ⟨loadedQmem,[],none⟩

inductive SectionStep (t : Target) where
  | test (c : Call t)
  | alloc (numQubits flags : ULong t) (o : AllocOutcome)
  | get (block : Ptr)
  | free (block : Ptr)
  | second
  | setMaxStore (maxQubits : ULong t)

def testFails (q : CtrlxtQmem t) : Call t → Bool
  | .alloc n _ => decide (allocTests q n < 0)
  | .setMaxQubits m => setMaxTest q m

def Sections.test (s : Sections t) (c : Call t) : Sections t :=
  if testFails s.qmem c then s else { s with pending := c::s.pending }

def Sections.alloc (s : Sections t) (numQubits flags : ULong t) (o : AllocOutcome) :
    Option (Sections t) :=
  (allocFirst s.qmem numQubits flags o).map fun r =>
    ⟨r.1,s.pending.erase (.alloc numQubits flags),
      match r.2 with
      | .obj _ => some (.adding numQubits)
      | _ => none⟩

def Sections.free (s : Sections t) : Ptr → Option (Sections t)
  | .null => some s
  | .errPtr _ => none
  | .obj p => (atomicDecAndTest s.qmem p).bind fun r =>
    if r.2 then (destroyFirst r.1 p).map fun q => ⟨q,s.pending,some (.removing p)⟩
    else some { s with qmem := r.1 }

def Sections.second (s : Sections t) : Option (Sections t) :=
  s.opened.bind fun half => (secondHalf s.qmem half).map fun q => ⟨q,s.pending,none⟩

/-- `ctrlxt_qmem_put` is `ctrlxt_qmem_free`. -/
def sections (t : Target) : Machine (Sections t) (SectionStep t) where
  enabled s
    | .test (.alloc _ _) => True
    | .test (.setMaxQubits m) => m.toNat ≤ intMax
    | .alloc n flags _ => s.opened = none ∧ .alloc n flags ∈ s.pending
    | .get _ => True
    | .free block => block = .null ∨ s.opened = none
    | .second => s.opened ≠ none
    | .setMaxStore m => .setMaxQubits m ∈ s.pending
  step s
    | .test c => some (s.test c)
    | .alloc n flags o => s.alloc n flags o
    | .get block => (ctrlxtQmemGet s.qmem block).map fun r => { s with qmem := r.1 }
    | .free block => s.free block
    | .second => s.second
    | .setMaxStore m => some
      ⟨QuantumMemory.setMaxStore s.qmem m,s.pending.erase (.setMaxQubits m),s.opened⟩

def KeepsLimit (s : Sections t) : SectionStep t → Prop
  | .second =>
    match s.opened with
    | some (.adding n) => s.qmem.allocatedQubits.toInt+n.toNat ≤ s.qmem.maxQubits.toInt
    | _ => True
  | .setMaxStore m => s.qmem.allocatedQubits.toInt ≤ m.toNat
  | _ => True

instance (s : Sections t) : (l : SectionStep t) → Decidable ((sections t).enabled s l)
  | .test (.alloc _ _) | .get _ => inferInstanceAs (Decidable True)
  | .test (.setMaxQubits m) => inferInstanceAs (Decidable (m.toNat ≤ intMax))
  | .alloc n flags _ =>
    inferInstanceAs (Decidable (s.opened = none ∧ .alloc n flags ∈ s.pending))
  | .free block => inferInstanceAs (Decidable (block = .null ∨ s.opened = none))
  | .second => inferInstanceAs (Decidable (s.opened ≠ none))
  | .setMaxStore m => inferInstanceAs (Decidable (.setMaxQubits m ∈ s.pending))

instance (s : Sections t) : (l : SectionStep t) → Decidable (KeepsLimit s l)
  | .second =>
    match h : s.opened with
    | some (.adding n) =>
      decidable_of_iff (s.qmem.allocatedQubits.toInt+n.toNat ≤ s.qmem.maxQubits.toInt)
        (by simp [KeepsLimit,h])
    | some (.removing _) | none => isTrue (by simp [KeepsLimit,h])
  | .setMaxStore m => inferInstanceAs (Decidable (s.qmem.allocatedQubits.toInt ≤ m.toNat))
  | .test _ | .alloc _ _ _ | .get _ | .free _ => inferInstanceAs (Decidable True)

def Opens (s : Sections t) (l : SectionStep t) : Prop :=
  s.opened = none ∧ ∃ u ∈ (sections t).step s l, u.opened ≠ none

def Closes (s : Sections t) : SectionStep t → Prop
  | .second => s.opened ≠ none
  | _ => False

def SetsLimit (_ : Sections t) : SectionStep t → Prop
  | .setMaxStore _ => True
  | _ => False

instance (s : Sections t) (l : SectionStep t) : Decidable (Opens s l) :=
  inferInstanceAs (Decidable (_ ∧ ∃ u ∈ (sections t).step s l, u.opened ≠ none))

instance (s : Sections t) : (l : SectionStep t) → Decidable (Closes s l)
  | .second => inferInstanceAs (Decidable (s.opened ≠ none))
  | .test _ | .alloc _ _ _ | .get _ | .free _ | .setMaxStore _ => inferInstanceAs (Decidable False)

instance (s : Sections t) : (l : SectionStep t) → Decidable (SetsLimit s l)
  | .setMaxStore _ => inferInstanceAs (Decidable True)
  | .test _ | .alloc _ _ _ | .get _ | .free _ | .second => inferInstanceAs (Decidable False)

structure SameCounters (q r : CtrlxtQmem t) : Prop where
  total : r.totalQubits = q.totalQubits
  allocated : r.allocatedQubits = q.allocatedQubits
  max : r.maxQubits = q.maxQubits

theorem ctrlxtQmemGet_counters {q r : CtrlxtQmem t} {block ptr : Ptr}
    (h : ctrlxtQmemGet q block = some (r,ptr)) : SameCounters q r := by
  cases block with
  | null =>
    cases h
    exact ⟨rfl,rfl,rfl⟩
  | errPtr e => cases h
  | obj p =>
    obtain ⟨b,-,hb⟩ := Option.bind_eq_some_iff.mp h
    obtain ⟨k,-,hk⟩ := Option.bind_eq_some_iff.mp hb
    cases hk
    exact ⟨rfl,rfl,rfl⟩

theorem atomicDecAndTest_counters {q r : CtrlxtQmem t} {p : ℕ} {zero : Bool}
    (h : atomicDecAndTest q p = some (r,zero)) : SameCounters q r := by
  obtain ⟨b,-,hb⟩ := Option.bind_eq_some_iff.mp h
  obtain ⟨k,-,hk⟩ := Option.bind_eq_some_iff.mp hb
  cases hk
  exact ⟨rfl,rfl,rfl⟩

structure StepFrame (s u : Sections t) (l : SectionStep t) : Prop where
  total : ¬Opens s l → u.qmem.totalQubits = s.qmem.totalQubits
  allocated : ¬Closes s l → u.qmem.allocatedQubits = s.qmem.allocatedQubits
  limit : ¬SetsLimit s l → u.qmem.maxQubits = s.qmem.maxQubits

theorem SameCounters.frame {s u : Sections t} {l : SectionStep t}
    (h : SameCounters s.qmem u.qmem) : StepFrame s u l :=
  ⟨fun _ => h.total,fun _ => h.allocated,fun _ => h.max⟩

theorem free_frame {s u : Sections t} {block : Ptr} (he : (sections t).enabled s (.free block))
    (h : s.free block = some u) : StepFrame s u (.free block) := by
  cases block with
  | null =>
    cases h
    exact SameCounters.frame ⟨rfl,rfl,rfl⟩
  | errPtr e => cases h
  | obj p =>
    have hfree : s.opened = none := he.resolve_left Ptr.noConfusion
    have hstep := h
    obtain ⟨⟨q,zero⟩,hq,hr⟩ := Option.bind_eq_some_iff.mp h
    have hsame := atomicDecAndTest_counters hq
    cases zero with
    | false =>
      cases hr
      exact hsame.frame
    | true =>
      obtain ⟨r,hfirst,rfl⟩ := Option.map_eq_some_iff.mp hr
      obtain ⟨b,k,-,rfl⟩ := destroyFirst_unlisted hfirst
      refine ⟨fun hno => ?_,fun _ => hsame.allocated,fun _ => hsame.max⟩
      exact absurd ⟨hfree,_,hstep,Option.some_ne_none _⟩ hno

theorem step_frame {s u : Sections t} {l : SectionStep t} (he : (sections t).enabled s l)
    (h : (sections t).step s l = some u) : StepFrame s u l := by
  cases l with
  | test c =>
    cases h
    apply SameCounters.frame
    unfold Sections.test
    split_ifs <;> exact ⟨rfl,rfl,rfl⟩
  | alloc n flags o =>
    have hstep := h
    obtain ⟨⟨q,ptr⟩,hq,rfl⟩ := Option.map_eq_some_iff.mp h
    obtain ⟨hall,hmax,htotal⟩ := allocFirst_frame hq
    refine ⟨fun hno => ?_,fun _ => hall,fun _ => hmax⟩
    rcases htotal with ⟨p,rfl⟩ | htotal
    · exact absurd ⟨he.1,_,hstep,Option.some_ne_none _⟩ hno
    · exact htotal
  | get block =>
    obtain ⟨⟨q,ptr⟩,hq,rfl⟩ := Option.map_eq_some_iff.mp h
    exact (ctrlxtQmemGet_counters hq).frame
  | free block => exact free_frame he h
  | second =>
    obtain ⟨half,-,hhalf⟩ := Option.bind_eq_some_iff.mp h
    obtain ⟨q,hq,rfl⟩ := Option.map_eq_some_iff.mp hhalf
    have hframe := secondHalf_frame hq
    exact ⟨fun _ => hframe.1,fun hno => absurd he hno,fun _ => hframe.2⟩
  | setMaxStore m =>
    cases h
    exact ⟨fun _ => rfl,fun _ => rfl,fun hno => absurd trivial hno⟩

theorem step_opened {s u : Sections t} {l : SectionStep t} (he : (sections t).enabled s l)
    (h : (sections t).step s l = some u) :
    (Closes s l ∧ u.opened = none) ∨ (¬Closes s l ∧ (s.opened = none ∨ u.opened = s.opened)) := by
  cases l with
  | test c =>
    cases h
    refine Or.inr ⟨id,Or.inr ?_⟩
    unfold Sections.test
    split_ifs <;> rfl
  | alloc n flags o => exact Or.inr ⟨id,Or.inl he.1⟩
  | get block =>
    obtain ⟨r,-,rfl⟩ := Option.map_eq_some_iff.mp h
    exact Or.inr ⟨id,Or.inr rfl⟩
  | free block =>
    rcases he with rfl | hfree
    · cases h
      exact Or.inr ⟨id,Or.inr rfl⟩
    · exact Or.inr ⟨id,Or.inl hfree⟩
  | second =>
    obtain ⟨half,-,hhalf⟩ := Option.bind_eq_some_iff.mp h
    obtain ⟨q,-,rfl⟩ := Option.map_eq_some_iff.mp hhalf
    exact Or.inl ⟨he,rfl⟩
  | setMaxStore m =>
    cases h
    exact Or.inr ⟨id,Or.inr rfl⟩

theorem opens_iff {s u : Sections t} {l : SectionStep t} (h : (sections t).step s l = some u) :
    Opens s l ↔ s.opened = none ∧ u.opened ≠ none := by
  simp [Opens,h]

def openSections (s : Sections t) : ℕ := if s.opened = none then 0 else 1

theorem step_openSections {s u : Sections t} {l : SectionStep t}
    (he : (sections t).enabled s l) (h : (sections t).step s l = some u) :
    openSections s+(if Opens s l then 1 else 0) = openSections u+if Closes s l then 1 else 0 := by
  have hopens := opens_iff h
  rcases step_opened he h with ⟨hcloses,hu⟩ | ⟨hcloses,hs | hu⟩
  · have hs : s.opened ≠ none := by
      cases l <;> first | exact hcloses | exact hcloses.elim
    simp [openSections,hopens,hcloses,hs,hu]
  · by_cases hu : u.opened = none
    · simp [openSections,hopens,hcloses,hs,hu]
    · simp [openSections,hopens,hcloses,hs,hu]
  · by_cases hs : s.opened = none
    · simp [openSections,hopens,hcloses,hs,hu]
    · simp [openSections,hopens,hcloses,hs,hu]

def left (s : Sections t) : ℤ := s.opened.elim 0 (Half.adds s.qmem)

def finish (s : Sections t) : Option (CtrlxtQmem t) :=
  s.opened.elim (some s.qmem) (secondHalf s.qmem)

def Passed : Call t → Prop
  | .alloc n _ => 1 ≤ n.toNat ∧ n.toNat ≤ qmemMaxQubitsPerBlock
  | .setMaxQubits m => m.toNat ≤ intMax

structure Consistent (s : Sections t) : Prop where
  finished : ∃ q, finish s = some q ∧ Listed q ∧
    s.qmem.allocatedQubits.toInt+left s = heldQubits q
  total : s.qmem.totalQubits = s.qmem.allocatedQubits+BitVec.ofInt 32 (left s)
  limit : 0 ≤ s.qmem.allocatedQubits.toInt ∧
    s.qmem.allocatedQubits.toInt ≤ s.qmem.maxQubits.toInt
  passed : ∀ c ∈ s.pending, Passed c

structure AtRest (q : CtrlxtQmem t) : Prop where
  listed : Listed q
  allocated : q.allocatedQubits.toInt = heldQubits q
  total : q.totalQubits = q.allocatedQubits
  limit : q.allocatedQubits.toInt ≤ q.maxQubits.toInt

theorem consistent_iff {q : CtrlxtQmem t} {pending : List (Call t)} :
    Consistent ⟨q,pending,none⟩ ↔ AtRest q ∧ ∀ c ∈ pending, Passed c := by
  have hzero : BitVec.ofInt 32 0 = 0 := rfl
  constructor
  · rintro ⟨⟨r,hr,hl,hh⟩,htotal,hlimit,hp⟩
    cases hr
    simp only [left,Option.elim_none,hzero,add_zero] at hh htotal
    exact ⟨⟨hl,hh,htotal,hlimit.2⟩,hp⟩
  · rintro ⟨⟨hl,hh,htotal,hlimit⟩,hp⟩
    refine ⟨⟨q,rfl,hl,?_⟩,?_,⟨?_,hlimit⟩,hp⟩
    · simp only [left,Option.elim_none,add_zero]
      exact hh
    · simp only [left,Option.elim_none,hzero,add_zero]
      exact htotal
    · simp only [hh]
      omega

theorem Consistent.atRest {s : Sections t} (h : Consistent s) (hs : s.opened = none) :
    AtRest s.qmem := by
  obtain ⟨q,pending,opened⟩ := s
  subst hs
  exact (consistent_iff.mp h).1

theorem loaded_atRest : AtRest (loadedQmem : CtrlxtQmem t) := by
  have hs := loaded_sound (t := t) (H := Unit)
  exact ⟨hs.held.listed,hs.counted.allocated,rfl,
    hs.counted.allocated.trans_le hs.counted.limit⟩

theorem consistent_loaded : Consistent (loadedSections : Sections t) :=
  consistent_iff.mpr ⟨loaded_atRest,fun _ hc => absurd hc List.not_mem_nil⟩

theorem Consistent.repend {s : Sections t} (h : Consistent s) {pending : List (Call t)}
    (hp : ∀ c ∈ pending, Passed c) : Consistent { s with pending := pending } :=
  ⟨h.finished,h.total,h.limit,hp⟩

theorem test_consistent {s : Sections t} (hs : Consistent s) {c : Call t}
    (he : (sections t).enabled s (.test c)) : Consistent (s.test c) := by
  unfold Sections.test
  split_ifs with hfail
  · exact hs
  · apply hs.repend
    rintro d (_ | ⟨_,hd⟩)
    · cases c with
      | alloc n flags =>
        have ht : ¬allocTests s.qmem n < 0 := by simpa [testFails] using hfail
        exact (allocTests_pass ht).1
      | setMaxQubits m => exact he
    · exact hs.passed d hd

theorem AtRest.withHeap {q : CtrlxtQmem t} (h : AtRest q) {k : Heap (Object t)}
    (hl : Listed (withHeap q k)) (hh : heldQubits (withHeap q k) = heldQubits q) :
    AtRest (withHeap q k) :=
  ⟨hl,h.allocated.trans (congrArg _ hh.symm),h.total,h.limit⟩

theorem alloc_consistent {s u : Sections t} (hs : Consistent s) {n flags : ULong t}
    {o : AllocOutcome} (he : (sections t).enabled s (.alloc n flags o))
    (h : s.alloc n flags o = some u) : Consistent u := by
  obtain ⟨hfree,hpending⟩ := he
  have hn : 1 ≤ n.toNat ∧ n.toNat ≤ qmemMaxQubitsPerBlock := hs.passed _ hpending
  have hp : ∀ c ∈ s.pending.erase (.alloc n flags), Passed c :=
    fun c hc => hs.passed c (List.mem_of_mem_erase hc)
  have hrest := hs.atRest hfree
  by_cases ho : o = ⟨true,true⟩
  · subst o
    obtain ⟨r,k,hr,hsecond,htotal,hc⟩ := allocFirst_success s.qmem n flags
    obtain ⟨hall,hmax,-⟩ := allocFirst_frame hr
    rw [Sections.alloc,hr,Option.map_some] at h
    cases h
    refine ⟨⟨_,rfl,?_,?_⟩,?_,?_,hp⟩
    · rw [hsecond]
      exact listed_withBlock hrest.listed hn hc
    · rw [hsecond,heldQubits_withBlock hrest.listed hc,hall,hrest.allocated]
      rfl
    · rw [htotal,hall,hrest.total,narrow_ofInt]
      rfl
    · rw [hall,hmax]
      exact hs.limit
  · obtain ⟨k,hk,hc⟩ := allocFirst_failure s.qmem n flags ho
    rw [Sections.alloc,hk,Option.map_some] at h
    cases h
    exact consistent_iff.mpr
      ⟨hrest.withHeap (listed_same hrest.listed hc rfl) (heldQubits_same hc),hp⟩

theorem free_consistent {s u : Sections t} (hs : Consistent s) {block : Ptr}
    (he : (sections t).enabled s (.free block)) (h : s.free block = some u) : Consistent u := by
  cases block with
  | null =>
    cases h
    exact hs
  | errPtr e => cases h
  | obj p =>
    have hrest := hs.atRest (he.resolve_left Ptr.noConfusion)
    cases hb : s.qmem.block p with
    | none => simp [Sections.free,atomicDecAndTest,hb] at h
    | some b =>
      obtain ⟨k,hk,hkc,-⟩ := atomicDecAndTest_live hb
      have hkb : (withHeap s.qmem k).block p = some { b with refCount := b.refCount-1 } := by
        rw [withHeap_block hkc,Function.update_self]
      have hk₁ := hrest.withHeap (listed_recount hrest.listed hb hkc) (heldQubits_recount hb hkc)
      rw [Sections.free,hk,Option.bind_some] at h
      by_cases hz : b.refCount-1 = 0
      · obtain ⟨g,g',i,hg,hgb,hsecond,hi,hgc⟩ := destroyFirst_live hk₁.listed hkb
        simp only [hz,decide_true,if_true,hg,Option.map_some] at h
        cases h
        have hheld := heldQubits_withoutBlock hk₁.listed hkb hi hgc
        have hall := hk₁.allocated
        have htotal := hk₁.total
        refine ⟨⟨_,hsecond,listed_withoutBlock hk₁.listed hkb hi hgc,?_⟩,?_,hs.limit,hs.passed⟩
        · simp only [left,Option.elim_some,Half.adds,sizeAt,hgb,Option.map_some,Option.getD_some]
          change s.qmem.allocatedQubits.toInt = _ at hall
          change s.qmem.allocatedQubits.toInt+_ = _
          simp only at hheld
          omega
        · simp only [left,Option.elim_some,Half.adds,sizeAt,hgb,Option.map_some,Option.getD_some,
            BitVec.ofInt_neg,← narrow_ofInt,← BitVec.sub_eq_add_neg]
          exact congrArg (fun c => c-narrow b.size) htotal
      · have hopened := he.resolve_left Ptr.noConfusion
        simp only [hz,decide_false,Bool.false_eq_true,if_false] at h
        cases h
        rw [hopened]
        exact consistent_iff.mpr ⟨hk₁,hs.passed⟩

theorem second_consistent {s u : Sections t} (hs : Consistent s) (hk : KeepsLimit s .second)
    (h : s.second = some u) : Consistent u := by
  obtain ⟨half,hhalf,hmap⟩ := Option.bind_eq_some_iff.mp h
  obtain ⟨q,hq,rfl⟩ := Option.map_eq_some_iff.mp hmap
  obtain ⟨q',hfinish,hl,hheld⟩ := hs.finished
  obtain ⟨hnonneg,hlimit⟩ := hs.limit
  have htotal := hs.total
  have hmax := (int_bounds s.qmem.maxQubits).2
  rw [finish,hhalf,Option.elim_some,hq] at hfinish
  cases hfinish
  refine consistent_iff.mpr ⟨?_,hs.passed⟩
  cases half with
  | adding n =>
    cases hq
    simp only [KeepsLimit,hhalf] at hk
    simp only [left,hhalf,Option.elim_some,Half.adds] at hheld htotal
    have hsmall : n.toNat ≤ intMax := by unfold intMax; omega
    have hall := add_narrow hsmall (a := s.qmem.allocatedQubits) (by omega) (by omega)
    refine ⟨hl,hall.trans hheld,?_,hall.trans_le hk⟩
    exact htotal.trans (by rw [← narrow_ofInt]; rfl)
  | removing p =>
    obtain ⟨b,k,hb,-,rfl⟩ := destroySecond_cases hq
    simp only [left,hhalf,Option.elim_some,Half.adds,sizeAt,hb,Option.map_some,
      Option.getD_some] at hheld htotal
    have hsmall : b.size.toNat ≤ intMax := by unfold intMax; omega
    have hall := sub_narrow hsmall (a := s.qmem.allocatedQubits) (by omega)
    refine ⟨hl,hall.trans hheld,?_,hall.trans_le ?_⟩
    · rw [BitVec.ofInt_neg,← narrow_ofInt,← BitVec.sub_eq_add_neg] at htotal
      exact htotal
    · show _ ≤ s.qmem.maxQubits.toInt
      omega

theorem get_consistent {s : Sections t} (hs : Consistent s) {block ptr : Ptr} {r : CtrlxtQmem t}
    (h : ctrlxtQmemGet s.qmem block = some (r,ptr)) : Consistent { s with qmem := r } := by
  cases block with
  | null =>
    cases h
    exact hs
  | errPtr e => cases h
  | obj i =>
    cases hb : s.qmem.block i with
    | none => simp [ctrlxtQmemGet,hb] at h
    | some d =>
      obtain ⟨k,hk,hc,-⟩ := ctrlxtQmemGet_live hb
      cases hk.symm.trans h
      cases hopened : s.opened with
      | none =>
        have hrest := hs.atRest hopened
        exact consistent_iff.mpr ⟨hrest.withHeap (listed_recount hrest.listed hb hc)
          (heldQubits_recount hb hc),hs.passed⟩
      | some half =>
        obtain ⟨q,hq,hl,hheld⟩ := hs.finished
        have htotal := hs.total
        rw [finish,hopened,Option.elim_some] at hq
        rw [left,hopened,Option.elim_some] at hheld htotal
        obtain ⟨hadds,q',hq',hl',hheld'⟩ := recount_finish hb hc hq hl
        refine ⟨⟨q',hq',hl',?_⟩,?_,hs.limit,hs.passed⟩
        · rw [left,Option.elim_some,hadds,hheld']
          exact hheld
        · rw [left,Option.elim_some,hadds]
          exact htotal

theorem setMax_consistent {s : Sections t} (hs : Consistent s) {m : ULong t}
    (he : (sections t).enabled s (.setMaxStore m)) (hk : KeepsLimit s (.setMaxStore m)) :
    Consistent ⟨setMaxStore s.qmem m,s.pending.erase (.setMaxQubits m),s.opened⟩ := by
  have hm : m.toNat ≤ intMax := hs.passed _ he
  obtain ⟨q,hq,hl,hheld⟩ := hs.finished
  refine ⟨⟨setMaxStore q m,?_,listed_same hl rfl rfl,hheld⟩,hs.total,⟨hs.limit.1,?_⟩,?_⟩
  · rw [finish] at hq ⊢
    cases hopened : s.opened with
    | none =>
      rw [hopened] at hq
      cases hq
      rfl
    | some half =>
      rw [hopened,Option.elim_some] at hq
      rw [Option.elim_some,setMaxStore_second,hq]
      rfl
  · show _ ≤ (narrow m).toInt
    rw [narrow_toInt m hm]
    exact hk
  · exact fun c hc => hs.passed c (List.mem_of_mem_erase hc)

theorem step_consistent {s u : Sections t} {l : SectionStep t} (hs : Consistent s)
    (he : (sections t).enabled s l) (hk : KeepsLimit s l)
    (h : (sections t).step s l = some u) : Consistent u := by
  cases l with
  | test c =>
    cases h
    exact test_consistent hs he
  | alloc n flags o => exact alloc_consistent hs he h
  | get block =>
    obtain ⟨⟨r,ptr⟩,hr,rfl⟩ := Option.map_eq_some_iff.mp h
    exact get_consistent hs hr
  | free block => exact free_consistent hs he h
  | second => exact second_consistent hs hk h
  | setMaxStore m =>
    cases h
    exact setMax_consistent hs he hk

theorem run_consistent {s : Sections t} {ls : List (SectionStep t)}
    (h : Run ((sections t).restrict KeepsLimit) loadedSections ls s) : Consistent s :=
  h.restrict_invariant (fun _ _ _ hs he hk hu => step_consistent hs he hk hu) consistent_loaded

end CtrlxtKernel.QuantumMemory
