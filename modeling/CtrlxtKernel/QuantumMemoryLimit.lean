import CtrlxtKernel.QuantumMemorySerial

/-!
# The limit that was accepted and the limit that is enforced

`ctrlxt_qmem_set_max_qubits` takes an `unsigned long` and stores it in a 32-bit
counter. Any calls with any pointers may come before and after; the limit that
was accepted last is remembered beside the manager.
-/

set_option autoImplicit false

namespace CtrlxtKernel.QuantumMemory
open MachineInt ObjectHeap StepMachine

variable {t : Target}

structure LimitState (t : Target) where
  qmem : CtrlxtQmem t
  accepted : Option (ULong t)

inductive LimitCall (t : Target) where
  | alloc (numQubits flags : ULong t) (o : AllocOutcome)
  | get (block : Ptr)
  | put (block : Ptr)
  | free (block : Ptr)
  | setMaxQubits (maxQubits : ULong t)

def LimitState.withQmem (s : LimitState t) (q : CtrlxtQmem t) : LimitState t := { s with qmem := q }

def limited (t : Target) : Machine (LimitState t) (LimitCall t) where
  enabled _ _ := True
  step s
    | .alloc n flags o => (ctrlxtQmemAlloc s.qmem n flags o).map fun r => s.withQmem r.1
    | .get block => (ctrlxtQmemGet s.qmem block).map fun r => s.withQmem r.1
    | .put block => (ctrlxtQmemPut s.qmem block).map s.withQmem
    | .free block => (ctrlxtQmemFree s.qmem block).map s.withQmem
    | .setMaxQubits m =>
      let (qmem,ret) := ctrlxtQmemSetMaxQubits s.qmem m
      some ⟨qmem,if ret = 0 then some m else s.accepted⟩

def loadedLimit (t : Target) : LimitState t := ⟨loadedQmem,none⟩

/-- The limit test decides for the limit `m` as integers do, and the counter is
within it. -/
def Enforces (q : CtrlxtQmem t) (m : ℕ) : Prop :=
  (∀ n : ULong t, 1 ≤ n.toNat → n.toNat ≤ qmemMaxQubitsPerBlock →
    (overLimit q n = true ↔ (m:ℤ) < q.allocatedQubits.toInt+n.toNat)) ∧
  q.allocatedQubits.toInt ≤ m

def AcceptsInt (s : LimitState t) : LimitCall t → Prop
  | .setMaxQubits m => setMaxTest s.qmem m = true ∨ m.toNat ≤ intMax
  | _ => True

instance (s : LimitState t) : (l : LimitCall t) → Decidable (AcceptsInt s l)
  | .setMaxQubits m => inferInstanceAs (Decidable (setMaxTest s.qmem m = true ∨ m.toNat ≤ intMax))
  | .alloc _ _ _ | .get _ | .put _ | .free _ => inferInstanceAs (Decidable True)

instance (s : LimitState t) (l : LimitCall t) : Decidable ((limited t).enabled s l) :=
  inferInstanceAs (Decidable True)

structure LimitKept (q r : CtrlxtQmem t) : Prop where
  listed : Listed r
  counted : Counted r
  limit : r.maxQubits = q.maxQubits

theorem alloc_limitKept {q r : CtrlxtQmem t} (hl : Listed q) (hc : Counted q)
    {n flags : ULong t} {o : AllocOutcome} {memory : Ptr}
    (h : ctrlxtQmemAlloc q n flags o = some (r,memory)) : LimitKept q r := by
  rcases ctrlxtQmemAlloc_live q n flags o with ⟨k,e,hk,hkc⟩ | ⟨ht,k,hk,hkc⟩
  · cases hk.symm.trans h
    exact ⟨listed_same hl hkc rfl,counted_same hc hkc,rfl⟩
  · obtain ⟨hn,hfit⟩ := allocTests_pass ht
    cases hk.symm.trans h
    exact ⟨listed_withBlock hl hn hkc,counted_withBlock hl hc hn.2 hfit hkc,rfl⟩

theorem get_limitKept {q r : CtrlxtQmem t} (hl : Listed q) (hc : Counted q) {block memory : Ptr}
    (h : ctrlxtQmemGet q block = some (r,memory)) : LimitKept q r := by
  cases block with
  | null =>
    cases h
    exact ⟨hl,hc,rfl⟩
  | errPtr e => cases h
  | obj p =>
    cases hb : q.block p with
    | none => simp [ctrlxtQmemGet,hb] at h
    | some b =>
      obtain ⟨k,hk,hkc,-⟩ := ctrlxtQmemGet_live hb
      cases hk.symm.trans h
      exact ⟨listed_recount hl hb hkc,counted_recount hc hb hkc,rfl⟩

theorem free_limitKept {q r : CtrlxtQmem t} (hl : Listed q) (hc : Counted q) {block : Ptr}
    (h : ctrlxtQmemFree q block = some r) : LimitKept q r := by
  cases block with
  | null =>
    cases h
    exact ⟨hl,hc,rfl⟩
  | errPtr e => cases h
  | obj p =>
    cases hb : q.block p with
    | none => simp [ctrlxtQmemFree,atomicDecAndTest,hb] at h
    | some b =>
      obtain ⟨k,hk,hkc,hkb⟩ := ctrlxtQmemFree_live hb
      have hkl := listed_recount hl hb hkc
      have hkn := counted_recount hc hb hkc
      rw [hk] at h
      split_ifs at h with hz
      · obtain ⟨g,s,hs,hg,hgc,-⟩ := destroyBlock_live hkl hkb
        cases hg.symm.trans h
        exact ⟨listed_withoutBlock hkl hkb hs hgc,counted_withoutBlock hkl hkn hkb hs hgc,rfl⟩
      · cases h
        exact ⟨hkl,hkn,rfl⟩

theorem ctrlxtQmemPut_eq (q : CtrlxtQmem t) (block : Ptr) :
    ctrlxtQmemPut q block = ctrlxtQmemFree q block := by
  cases block <;> rfl

structure Stored (s : LimitState t) : Prop where
  listed : Listed s.qmem
  counted : Counted s.qmem
  limit : ∀ m ∈ s.accepted, s.qmem.maxQubits.toInt = m.toNat

theorem LimitKept.stored {s : LimitState t} (hs : Stored s) {q : CtrlxtQmem t}
    (h : LimitKept s.qmem q) : Stored (s.withQmem q) where
  listed := h.listed
  counted := h.counted
  limit m hm := by
    show q.maxQubits.toInt = m.toNat
    rw [h.limit]
    exact hs.limit m hm

theorem setMax_stored {s : LimitState t} (hs : Stored s) {m : ULong t}
    (hm : m.toNat ≤ intMax) (ht : setMaxTest s.qmem m = false) :
    Stored ⟨setMaxStore s.qmem m,some m⟩ := by
  refine ⟨listed_same hs.listed rfl rfl,counted_setMax hs.counted hm ht,?_⟩
  rintro k ⟨⟩
  exact narrow_toInt m hm

theorem step_stored {s u : LimitState t} (hs : Stored s) {l : LimitCall t}
    (ha : AcceptsInt s l) (hu : (limited t).step s l = some u) : Stored u := by
  cases l with
  | alloc n flags o =>
    obtain ⟨⟨q,memory⟩,hq,rfl⟩ := Option.map_eq_some_iff.mp hu
    exact (alloc_limitKept hs.listed hs.counted hq).stored hs
  | get block =>
    obtain ⟨⟨q,memory⟩,hq,rfl⟩ := Option.map_eq_some_iff.mp hu
    exact (get_limitKept hs.listed hs.counted hq).stored hs
  | put block =>
    obtain ⟨q,hq,rfl⟩ := Option.map_eq_some_iff.mp hu
    rw [ctrlxtQmemPut_eq] at hq
    exact (free_limitKept hs.listed hs.counted hq).stored hs
  | free block =>
    obtain ⟨q,hq,rfl⟩ := Option.map_eq_some_iff.mp hu
    exact (free_limitKept hs.listed hs.counted hq).stored hs
  | setMaxQubits m =>
    cases ht : setMaxTest s.qmem m with
    | true =>
      simp only [limited,ctrlxtQmemSetMaxQubits,ht,if_true] at hu
      cases hu
      exact hs
    | false =>
      have hm : m.toNat ≤ intMax := by simpa [AcceptsInt,ht] using ha
      simp only [limited,ctrlxtQmemSetMaxQubits,ht,Bool.false_eq_true,if_false,if_true] at hu
      cases hu
      exact setMax_stored hs hm ht

theorem loadedLimit_stored : Stored (loadedLimit t) := by
  have hs := loaded_sound (t := t) (H := Unit)
  refine ⟨hs.held.listed,hs.counted,?_⟩
  rintro m ⟨⟩

theorem Stored.enforces {s : LimitState t} (hs : Stored s) {m : ULong t} (hm : m ∈ s.accepted) :
    Enforces s.qmem m.toNat := by
  have hlim := hs.limit m hm
  have hall := hs.counted.allocated
  have hfit := hs.counted.limit
  refine ⟨fun n _ hn => ?_,by omega⟩
  have hover := overLimit_iff hs.counted hn
  cases ho : overLimit s.qmem n with
  | true =>
    rw [ho] at hover
    simp only [reduceCtorEq,false_iff,not_le] at hover
    simp only [true_iff]
    omega
  | false =>
    rw [ho] at hover
    have hle := hover.mp rfl
    simp only [Bool.false_eq_true,false_iff,not_lt]
    omega

/-- If every limit that is accepted fits an `int`, then from the acceptance of
a limit to the next one it is the limit that is enforced. -/
theorem accepted_enforced {s : LimitState t} {ls : List (LimitCall t)}
    (h : Run ((limited t).restrict AcceptsInt) (loadedLimit t) ls s) {m : ULong t}
    (hm : m ∈ s.accepted) : Enforces s.qmem m.toNat := by
  have hs : Stored s :=
    h.restrict_invariant (fun _ _ _ hs _ ha hu => step_stored hs ha hu) loadedLimit_stored
  exact hs.enforces hm

theorem accepted_enforced_hundred :
    ∃ s, Run ((limited .bits64).restrict AcceptsInt) (loadedLimit .bits64)
        [.alloc 60 0 ⟨true,true⟩,.setMaxQubits 59,.setMaxQubits 100,.alloc 41 0 ⟨true,true⟩,
          .alloc 40 0 ⟨true,true⟩] s ∧
      Enforces s.qmem 100 := by
  have h : ∃ s, Run ((limited .bits64).restrict AcceptsInt) (loadedLimit .bits64)
      [.alloc 60 0 ⟨true,true⟩,.setMaxQubits 59,.setMaxQubits 100,.alloc 41 0 ⟨true,true⟩,
        .alloc 40 0 ⟨true,true⟩] s ∧ s.accepted = some 100 :=
    ⟨_,run_iff_exec.mpr rfl,rfl⟩
  obtain ⟨s,hs,hm⟩ := h
  exact ⟨s,hs,accepted_enforced hs (m := 100) hm⟩

/-- The limit `2^32` is accepted and stored as zero: no qubit is granted. -/
theorem accepted_not_enforced :
    (ctrlxtQmemSetMaxQubits (loadedQmem : CtrlxtQmem .bits64) (2^32)).2 = 0 ∧
    ∃ s, Run (limited .bits64) (loadedLimit .bits64) [.setMaxQubits (2^32)] s ∧
      s.accepted = some (2^32) ∧ s.qmem.allocatedQubits.toInt = 0 ∧
      overLimit s.qmem 1 = true ∧ ¬Enforces s.qmem (2^32) := by
  refine ⟨rfl,_,run_iff_exec.mpr rfl,rfl,rfl,rfl,?_⟩
  intro h
  have h1 := (h.1 1 (by decide) (by decide)).mp rfl
  revert h1
  decide

end CtrlxtKernel.QuantumMemory
