import CtrlxtKernel.ErrorCorrectionCounters
import CtrlxtKernel.RepetitionCode

/-!
# What earlier calls leave on the ancilla

The ancilla is set to zero by the initialisation only. Every call adds to it
the data bits that its CNOT gates copy, so a call measures the sum of its own
data and of everything copied before.
-/

set_option autoImplicit false

namespace CtrlxtKernel.ErrorCorrection
open MachineInt ObjectHeap StepMachine BasisRegisters

variable {t : Target} {W : Type*} {L : QuantumLayer t W}

def succeeded (L : QuantumLayer t W) : W → List GateCall → ℕ
  | _, [] => 0
  | w, c::cs =>
    if (L.gateApply w c).2 < 0 then 0 else succeeded L (L.gateApply w c).1 cs+1

/-- A call of the gate layer that fails changes no basis state. -/
structure Undisturbed (laws : BasisLaws L) : Prop where
  gate : ∀ w c, (L.gateApply w c).2 < 0 → laws.reading (L.gateApply w c).1 = laws.reading w
  measure : ∀ w p d, (L.stateMeasure w p d).2 < 0 →
    laws.reading (L.stateMeasure w p d).1 = laws.reading w

def dataBits (laws : BasisLaws L) (c : QecCall W) : Option Bits :=
  match c.state with
  | .obj r => laws.reading c.world r
  | _ => none

/-- A caller presents a register of its own in a basis state, and the ancilla is
as the call before left it. -/
structure Presented (laws : BasisLaws L) (s : QecState W) (c : QecCall W) : Prop where
  basis : (dataBits laws c).isSome
  own : c.state ≠ s.qec.ancilla ∧ c.state ≠ s.qec.syndrome
  ancilla : ∀ x, s.qec.ancilla = .obj x → laws.reading c.world x = laws.reading s.world x

/-- A call in a history may fail, if failing gates change nothing. -/
def Accepted (laws : BasisLaws L) (s : QecState W) (c : QecCall W) : Prop :=
  Presented laws s c ∧ (Returned L s c ∨ Undisturbed laws)

def copied (laws : BasisLaws L) (s : QecState W) (c : QecCall W) : BitVec 3 :=
  (dataBits laws c).elim 0 fun b =>
    (b.low (succeeded L c.world (syndromeCircuit L c.state s.qec.ancilla))).word 3

def collected (laws : BasisLaws L) : QecState W → List (QecCall W) → BitVec 3
  | _, [] => 0
  | s, c::cs => copied laws s c ^^^ collected laws (ctrlxtQecApply L (s.found c) c.state).1 cs

def AncillaHolds (laws : BasisLaws L) (s : QecState W) (a : BitVec 3) : Prop :=
  ∃ x y e, s.qec.ancilla = .obj x ∧ s.qec.syndrome = .obj y ∧
    OwnStates laws.qubits x y ∧ laws.reading s.world x = some e ∧ e.word 3 = a

theorem succeeded_le (w : W) (cs : List GateCall) : succeeded L w cs ≤ cs.length := by
  induction cs generalizing w with
  | nil => exact le_refl 0
  | cons c cs ih =>
    have hrest := ih (L.gateApply w c).1
    rw [succeeded,List.length_cons]
    split_ifs <;> omega

theorem applyGates_copies (laws : BasisLaws L) {r x : ℕ} (hrx : r ≠ x) (qs : List ℕ) {w w' : W}
    {ret : ℤ} (hr : (laws.reading w r).isSome) (hx : (laws.reading w x).isSome)
    (h : applyGates L w (qs.map (fun q : ℕ => ⟨L.gateCnot,.obj r,q,.obj x,q⟩)) = (w',ret))
    (hok : 0 ≤ ret ∨ Undisturbed laws) :
    laws.reading w' = (qs.take (succeeded L w
      (qs.map (fun q : ℕ => ⟨L.gateCnot,.obj r,q,.obj x,q⟩)))).foldl
        (fun R q => R.cnot r q x q) (laws.reading w) := by
  induction qs generalizing w with
  | nil =>
    cases h
    rfl
  | cons q qs ih =>
    simp only [List.map_cons,applyGates] at h
    rw [List.map_cons,succeeded]
    split_ifs at h with hneg
    · cases h
      have hclean := hok.resolve_left (not_le.mpr hneg)
      rw [if_pos hneg,List.take_zero,List.foldl_nil]
      exact hclean.gate _ _ hneg
    · have hcnot := laws.gate_cnot (p := q) hrx hr hx rfl (not_lt.mp hneg)
      obtain ⟨b,hb⟩ := Option.isSome_iff_exists.mp hr
      obtain ⟨e,he⟩ := Option.isSome_iff_exists.mp hx
      rw [if_neg hneg,List.take_succ_cons,List.foldl_cons,← hcnot]
      apply ih _ _ h
      · rw [hcnot,cnot_ne _ hrx]
        exact hr
      · rw [hcnot,cnot_target hb he]
        rfl

theorem syndromeCircuit_copies (laws : BasisLaws L) {r x : ℕ} (hrx : r ≠ x) {w w' : W} {ret : ℤ}
    {b e : Bits} (hr : laws.reading w r = some b) (hx : laws.reading w x = some e)
    (h : applyGates L w (syndromeCircuit L (.obj r) (.obj x)) = (w',ret))
    (hok : 0 ≤ ret ∨ Undisturbed laws) :
    laws.reading w' r = some b ∧ laws.reading w' x = some (fun i =>
      e i ^^ b.low (succeeded L w (syndromeCircuit L (.obj r) (.obj x))) i) := by
  let k := succeeded L w (syndromeCircuit L (.obj r) (.obj x))
  have hk : k ≤ 3 := succeeded_le w _
  have hfold := applyGates_copies laws hrx [0,1,2] (by rw [hr]; rfl) (by rw [hx]; rfl) h hok
  have htake : [0,1,2].take k = List.range k := by
    generalize k = k at hk
    interval_cases k <;> rfl
  have hspread : laws.reading w' = (laws.reading w).spread r x k := by
    rw [hfold,Registers.spread,← htake]
    rfl
  rw [hspread]
  exact ⟨(spread_ne _ hrx k).trans hr,spread_low hrx hr hx k⟩

/-- Whether or not the measurement is completed, the ancilla ends with what the
circuit copied. -/
theorem measureSyndrome_copies (laws : BasisLaws L) {s u : QecState W} {r x y : ℕ} {ret : ℤ}
    {b e : Bits} (hx : s.qec.ancilla = .obj x) (hy : s.qec.syndrome = .obj y) (hrx : r ≠ x)
    (hry : r ≠ y) (hxy : OwnStates laws.qubits x y) (hr : laws.reading s.world r = some b)
    (he : laws.reading s.world x = some e) (h : measureSyndrome L s (.obj r) = (u,ret))
    (hok : 0 ≤ ret ∨ Undisturbed laws) :
    laws.reading u.world r = some b ∧ laws.reading u.world x = some (fun i =>
      e i ^^ b.low (succeeded L s.world (syndromeCircuit L (.obj r) (.obj x))) i) := by
  rcases hg : applyGates L s.world (syndromeCircuit L (.obj r) (.obj x)) with ⟨w₁,ret₁⟩
  rcases hm : L.stateMeasure w₁ (.obj x) (.state (.obj y)) with ⟨w₂,ret₂⟩
  unfold measureSyndrome at h
  simp only [hx,hy,hg,hm] at h
  split_ifs at h with h1 h2
  · cases h
    exact syndromeCircuit_copies laws hrx hr he hg hok
  · cases h
    obtain ⟨hr₁,he₁⟩ := syndromeCircuit_copies laws hrx hr he hg (Or.inl (not_lt.mp h1))
    have hsame := (hok.resolve_left (not_le.mpr h2)).measure w₁ (.obj x) (.state (.obj y))
      (by rw [hm]; exact h2)
    rw [hm] at hsame
    simp only [hsame]
    exact ⟨hr₁,he₁⟩
  · cases h
    obtain ⟨hr₁,he₁⟩ := syndromeCircuit_copies laws hrx hr he hg (Or.inl (not_lt.mp h1))
    obtain ⟨hkeep,-⟩ := laws.measure hxy he₁ hm (not_lt.mp h2)
    exact ⟨(hkeep r hry).trans hr₁,(hkeep x hxy.ne).trans he₁⟩

theorem applyCorrection_ne (laws : BasisLaws L) {s u : QecState W} {r x : ℕ} {ret : ℤ}
    (hrx : r ≠ x) (hr : (laws.reading s.world r).isSome)
    (h : applyCorrection L s (.obj r) = (u,ret)) (hok : 0 ≤ ret ∨ Undisturbed laws) :
    laws.reading u.world x = laws.reading s.world x := by
  have hworld : ∀ call w', correction L (.obj r) (L.stateGetValue s.world s.qec.syndrome) =
      some call → L.gateApply s.world call = (w',ret) →
      laws.reading w' x = laws.reading s.world x := by
    intro call w' hcall hgate
    by_cases hneg : ret < 0
    · have hsame := (hok.resolve_left (not_le.mpr hneg)).gate s.world call
        (by rw [hgate]; exact hneg)
      rw [hgate] at hsame
      rw [hsame]
    · have h0 : 0 ≤ ret := not_lt.mp hneg
      have hflip : ∀ q, laws.reading w' = (laws.reading s.world).flip r q →
          laws.reading w' x = laws.reading s.world x := by
        intro q hq
        rw [hq,flip_ne _ (Ne.symm hrx)]
      unfold correction at hcall
      split at hcall <;> cases hcall
      · exact hflip _ (laws.gate_x hr hgate h0)
      · exact hflip _ (laws.gate_x hr hgate h0)
      · exact hflip _ (laws.gate_x hr hgate h0)
      · rw [laws.gate_z hr hgate h0]
      · rw [laws.gate_z hr hgate h0]
      · rw [laws.gate_z hr hgate h0]
      · exact hflip _ (laws.gate_y hr hgate h0)
  unfold applyCorrection at h
  cases hcall : correction L (.obj r) (L.stateGetValue s.world s.qec.syndrome) with
  | none =>
    rw [hcall] at h
    cases h
    rfl
  | some call =>
    rw [hcall] at h
    cases h
    exact hworld call _ hcall rfl

theorem apply_names (L : QuantumLayer t W) (s : QecState W) (state : Ptr) :
    (ctrlxtQecApply L s state).1.qec.ancilla = s.qec.ancilla ∧
      (ctrlxtQecApply L s state).1.qec.syndrome = s.qec.syndrome := by
  have hm : (measureSyndrome L s state).1.qec.ancilla = s.qec.ancilla ∧
      (measureSyndrome L s state).1.qec.syndrome = s.qec.syndrome := by
    rw [measureSyndrome_counts]
    split_ifs <;> exact ⟨rfl,rfl⟩
  unfold ctrlxtQecApply
  simp only
  split_ifs
  · exact ⟨rfl,rfl⟩
  · exact hm
  · rw [applyCorrection_counts]
    exact hm
  · simp only [applyCorrection_counts]
    exact hm

theorem apply_world {s : QecState W} {state : Ptr} (hs : state ≠ .null) :
    (ctrlxtQecApply L s state).1.world =
      if (measureSyndrome L s state).2 < 0 then (measureSyndrome L s state).1.world
      else (applyCorrection L (measureSyndrome L s state).1 state).1.world := by
  simp only [ctrlxtQecApply,hs,if_false]
  split_ifs <;> rfl

theorem apply_copies (laws : BasisLaws L) {s : QecState W} {c : QecCall W} {a : BitVec 3}
    (hs : AncillaHolds laws s a) (hc : Accepted laws s c) :
    AncillaHolds laws (ctrlxtQecApply L (s.found c) c.state).1 (a ^^^ copied laws s c) := by
  obtain ⟨x,y,e,hx,hy,hxy,he,rfl⟩ := hs
  obtain ⟨hp,hok⟩ := hc
  obtain ⟨world,state⟩ := c
  obtain ⟨b,hb⟩ := Option.isSome_iff_exists.mp hp.basis
  cases state with
  | null => cases hb
  | errPtr code => cases hb
  | obj r =>
    have hr : laws.reading world r = some b := hb
    have hrx : r ≠ x := by
      rintro rfl
      exact hp.own.1 hx.symm
    have hry : r ≠ y := by
      rintro rfl
      exact hp.own.2 hy.symm
    have hret : Returned L s ⟨world,.obj r⟩ → 0 ≤ (measurement L s ⟨world,.obj r⟩).2 :=
      fun h => (returned_iff.mp h).1.2
    have hex : laws.reading world x = some e := (hp.ancilla x hx).trans he
    obtain ⟨hr₁,he₁⟩ := measureSyndrome_copies laws (s := s.found ⟨world,.obj r⟩) hx hy hrx hry
      hxy hr hex Prod.mk.eta.symm (hok.imp_left hret)
    have hkeep : laws.reading (ctrlxtQecApply L (s.found ⟨world,.obj r⟩) (.obj r)).1.world x =
        laws.reading (measurement L s ⟨world,.obj r⟩).1.world x := by
      rw [apply_world (by simp)]
      split_ifs with hneg
      · rfl
      · apply applyCorrection_ne laws hrx _ Prod.mk.eta.symm _
        · rw [hr₁]
          rfl
        · refine hok.imp_left fun h => ?_
          by_contra hlt
          have hm := (returned_iff.mp h)
          exact hm.2 ((refused_iff hm.1).mpr (not_le.mp hlt))
    obtain ⟨hn₁,hn₂⟩ := apply_names L (s.found ⟨world,.obj r⟩) (.obj r)
    refine ⟨x,y,_,hn₁.trans hx,hn₂.trans hy,hxy,hkeep.trans he₁,?_⟩
    rw [word_xor,copied,hb,Option.elim_some,hx]
    rfl

theorem history_collects (laws : BasisLaws L) {s u : QecState W} {calls : List (QecCall W)}
    {a : BitVec 3} (h : Run ((corrections L).restrict (Accepted laws)) s calls u)
    (hs : AncillaHolds laws s a) : AncillaHolds laws u (a ^^^ collected laws s calls) := by
  induction h generalizing a with
  | nil => simpa [collected] using hs
  | @cons s m u c cs he hm _ ih =>
    obtain ⟨-,hc⟩ : (corrections L).enabled s c ∧ Accepted laws s c := he
    cases hm
    rw [collected,← BitVec.xor_assoc]
    exact ih (apply_copies laws hs hc)

theorem readSyndrome_sum (laws : BasisLaws L) {s : QecState W} {c : QecCall W} {a : BitVec 3}
    {b : Bits} (hs : AncillaHolds laws s a) (hp : Presented laws s c) (hret : Returned L s c)
    (hb : dataBits laws c = some b) : readSyndrome L s c = (a ^^^ b.word 3).toNat := by
  obtain ⟨x,y,e,hx,hy,hxy,he,rfl⟩ := hs
  obtain ⟨world,state⟩ := c
  cases state with
  | null => cases hb
  | errPtr code => cases hb
  | obj r =>
    have hrx : r ≠ x := by
      rintro rfl
      exact hp.own.1 hx.symm
    have hry : r ≠ y := by
      rintro rfl
      exact hp.own.2 hy.symm
    have hreads : Reads laws (s.found ⟨world,.obj r⟩).world r x (b.word 3) (e.word 3) :=
      ⟨b,e,hb,(hp.ancilla x hx).trans he,rfl,rfl⟩
    obtain ⟨-,-,hy₁,hv⟩ := measureSyndrome_reads laws (s := s.found ⟨world,.obj r⟩) hx hy hrx hry
      hxy hreads Prod.mk.eta.symm (returned_iff.mp hret).1.2
    rw [readSyndrome,measurement,hy₁]
    exact hv

/-- A successful call reads the syndrome and issues the correction that it would
directly after an initialisation exactly when what the calls before it copied
sums up to zero. -/
theorem history_independent_iff (laws : BasisLaws L) {s₀ s u s₁ s₂ : QecState W}
    {a b a' b' : Bool} (hi : ctrlxtQecInit L s₀ a b = some (s,0)) (hn : Sized laws.qubits s)
    (hi' : ctrlxtQecInit L s₁ a' b' = some (s₂,0)) (hn' : Sized laws.qubits s₂)
    {history : List (QecCall W)} (h : Run ((corrections L).restrict (Accepted laws)) s history u)
    {last first : QecCall W} (hl : Presented laws u last) (hlr : Returned L u last)
    (hf : Presented laws s₂ first) (hfr : Returned L s₂ first)
    (hsame : last.state = first.state ∧ dataBits laws last = dataBits laws first) :
    (readSyndrome L u last = readSyndrome L s₂ first ∧
        correction L last.state (readSyndrome L u last) =
          correction L first.state (readSyndrome L s₂ first)) ↔
      collected laws s history = 0 := by
  have fresh : ∀ {v w : QecState W} {c d : Bool}, ctrlxtQecInit L v c d = some (w,0) →
      Sized laws.qubits w → AncillaHolds laws w 0 := by
    intro v w c d hw hn
    obtain ⟨x,y,hx,hy,hxy,hzero⟩ := init_ancilla laws hw hn
    exact ⟨x,y,_,hx,hy,hxy,hzero,by decide⟩
  obtain ⟨bits,hbits⟩ := Option.isSome_iff_exists.mp hl.basis
  have hlast := readSyndrome_sum laws (history_collects laws h (fresh hi hn)) hl hlr hbits
  have hfirst := readSyndrome_sum laws (fresh hi' hn') hf hfr (hsame.2.symm.trans hbits)
  rw [hlast,hfirst,hsame.1]
  simp only [BitVec.ofNat_eq_ofNat,BitVec.zero_xor]
  constructor
  · rintro ⟨hv,-⟩
    have hword := BitVec.eq_of_toNat_eq (Int.ofNat_inj.mp hv)
    exact (BitVec.xor_left_inj _).mp (hword.trans BitVec.zero_xor.symm)
  · intro hzero
    rw [hzero]
    simp

def withOnes (s : QecState BitWorld) : QecCall BitWorld where
  world := { s.world with
    registers := Function.update s.world.registers 9 (some fun _ => true) }
  state := .obj 9

theorem withOnes_presented {s : QecState BitWorld} (h : s.qec.ancilla = .obj 0)
    (hy : s.qec.syndrome = .obj 1) : Presented bitLaws s (withOnes s) where
  basis := by simp [dataBits,withOnes,bitLaws]
  own := by simp [withOnes,h,hy]
  ancilla := by
    intro x hx
    obtain rfl : 0 = x := Ptr.obj.inj (h.symm.trans hx)
    simp [withOnes,bitLaws]

def correctedOnes (s : QecState BitWorld) : QecState BitWorld :=
  (ctrlxtQecApply bitLayer (s.found (withOnes s)) (.obj 9)).1

def onceCorrected : QecState BitWorld := correctedOnes (initialised true)

theorem correctedOnes_run :
    Run ((corrections bitLayer).restrict (Accepted bitLaws)) (initialised true)
      [withOnes (initialised true),withOnes onceCorrected] (correctedOnes onceCorrected) :=
  .cons ⟨trivial,withOnes_presented rfl rfl,Or.inl rfl⟩ rfl
    (.cons ⟨trivial,withOnes_presented rfl rfl,Or.inl rfl⟩ rfl (.nil _))

theorem history_independent_ones :
    let s := correctedOnes onceCorrected
    readSyndrome bitLayer s (withOnes s) =
        readSyndrome bitLayer (initialised true) (withOnes (initialised true)) ∧
      correction bitLayer (.obj 9) (readSyndrome bitLayer s (withOnes s)) =
        correction bitLayer (.obj 9)
          (readSyndrome bitLayer (initialised true) (withOnes (initialised true))) := by
  have hi : ctrlxtQecInit bitLayer (idle true) true true = some (initialised true,0) := rfl
  have hn := initialised_sized true
  have hsame : dataBits bitLaws (withOnes (correctedOnes onceCorrected)) =
      dataBits bitLaws (withOnes (initialised true)) := by simp [dataBits,withOnes,bitLaws]
  exact (history_independent_iff bitLaws hi hn hi hn correctedOnes_run (withOnes_presented rfl rfl)
    rfl (withOnes_presented rfl rfl) rfl ⟨rfl,hsame⟩).mpr (by decide)

/-- The second of two equal calls reads no error where the first one read 7. -/
theorem history_changes_syndrome :
    ctrlxtQecInit bitLayer (idle true) true true = some (initialised true,0) ∧
      Presented bitLaws onceCorrected (withOnes onceCorrected) ∧
      Returned bitLayer onceCorrected (withOnes onceCorrected) ∧
      Returned bitLayer (initialised true) (withOnes (initialised true)) ∧
      readSyndrome bitLayer (initialised true) (withOnes (initialised true)) = 7 ∧
      readSyndrome bitLayer onceCorrected (withOnes onceCorrected) = 0 :=
  ⟨rfl,withOnes_presented rfl rfl,rfl,rfl,rfl,rfl⟩

end CtrlxtKernel.ErrorCorrection
