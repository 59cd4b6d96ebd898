import CtrlxtKernel.BasisRegisters
import CtrlxtKernel.ErrorCorrection
import CtrlxtKernel.StepMachine

/-!
# Rounds of error correction on a repetition code

A round disturbs at most one of the qubits 0, 1 and 2 of a register and calls
`ctrlxt_qec_apply`. On basis states it acts on two words of three bits, the
data and the ancilla, and the ancilla is never reset between rounds.
-/

set_option autoImplicit false

namespace CtrlxtKernel.ErrorCorrection
open MachineInt ObjectHeap StepMachine BasisRegisters

variable {t : Target} {W : Type*}

/-- Two registers of three qubits, as the initialisation allocates them for the
ancilla and the syndrome. -/
structure OwnStates (qubits : ℕ → ℕ) (x y : ℕ) : Prop where
  ne : x ≠ y
  ancilla : qubits x = 3
  syndrome : qubits y = 3

/-- Registers have the sizes they were allocated with. -/
def Sized (qubits : ℕ → ℕ) (s : QecState W) : Prop :=
  ∀ r n, s.states.cells r = some n → qubits r = n

/-- What the gate layer does on registers in basis states when it succeeds, and
what a flip of one of their bits by the environment does. Of measurements only
those of a register of three qubits to another one matter. -/
structure BasisLaws (L : QuantumLayer t W) where
  reading : W → Registers ℕ
  qubits : ℕ → ℕ
  noise : W → ℕ → ℕ → W
  gate_x : ∀ {w r q w' ret}, (reading w r).isSome →
    L.gateApply w ⟨L.gateX,.obj r,(q:ℕ),.null,0⟩ = (w',ret) → 0 ≤ ret →
    reading w' = (reading w).flip r q
  gate_y : ∀ {w r q w' ret}, (reading w r).isSome →
    L.gateApply w ⟨L.gateY,.obj r,(q:ℕ),.null,0⟩ = (w',ret) → 0 ≤ ret →
    reading w' = (reading w).flip r q
  gate_z : ∀ {w r q w' ret}, (reading w r).isSome →
    L.gateApply w ⟨L.gateZ,.obj r,(q:ℕ),.null,0⟩ = (w',ret) → 0 ≤ ret → reading w' = reading w
  gate_cnot : ∀ {w r q s p w' ret}, r ≠ s → (reading w r).isSome → (reading w s).isSome →
    L.gateApply w ⟨L.gateCnot,.obj r,(q:ℕ),.obj s,p⟩ = (w',ret) → 0 ≤ ret →
    reading w' = (reading w).cnot r q s p
  measure : ∀ {w r d b w' ret}, OwnStates qubits r d → reading w r = some b →
    L.stateMeasure w (.obj r) (.state (.obj d)) = (w',ret) → 0 ≤ ret →
    (∀ i, i ≠ d → reading w' i = reading w i) ∧
      L.stateGetValue w' (.obj d) = (b.word 3).toNat
  init : ∀ {w r w' ret}, L.stateInit w (.obj r) 0 = (w',ret) → 0 ≤ ret →
    reading w' r = some (fun _ => false) ∧
      ∀ i b, i ≠ r → reading w i = some b → reading w' i = some b
  noise_flip : ∀ {w r q}, q < qubits r → (reading w r).isSome →
    reading (noise w r q) = (reading w).flip r q

variable {L : QuantumLayer t W}

theorem applyGates_cnots (laws : BasisLaws L) {r x : ℕ} (hrx : r ≠ x) (qs : List ℕ) {w w' : W}
    {ret : ℤ} (hr : (laws.reading w r).isSome) (hx : (laws.reading w x).isSome)
    (h : applyGates L w (qs.map (fun q : ℕ => ⟨L.gateCnot,.obj r,q,.obj x,q⟩)) = (w',ret))
    (h0 : 0 ≤ ret) :
    laws.reading w' = qs.foldl (fun R q => R.cnot r q x q) (laws.reading w) := by
  induction qs generalizing w with
  | nil =>
    cases h
    rfl
  | cons q qs ih =>
    simp only [List.map_cons,applyGates] at h
    split_ifs at h with hneg
    · cases h
      omega
    · have hcnot := laws.gate_cnot (p := q) hrx hr hx rfl (not_lt.mp hneg)
      obtain ⟨b,hb⟩ := Option.isSome_iff_exists.mp hr
      obtain ⟨e,he⟩ := Option.isSome_iff_exists.mp hx
      rw [List.foldl_cons,← hcnot]
      apply ih _ _ h
      · rw [hcnot,cnot_ne _ hrx]
        exact hr
      · rw [hcnot,cnot_target hb he]
        rfl

theorem syndromeCircuit_spread (laws : BasisLaws L) {r x : ℕ} (hrx : r ≠ x) {w w' : W} {ret : ℤ}
    (hr : (laws.reading w r).isSome) (hx : (laws.reading w x).isSome)
    (h : applyGates L w (syndromeCircuit L (.obj r) (.obj x)) = (w',ret)) (h0 : 0 ≤ ret) :
    laws.reading w' = (laws.reading w).spread r x 3 :=
  applyGates_cnots laws hrx [0,1,2] hr hx h h0

def Reads (laws : BasisLaws L) (w : W) (r x : ℕ) (data ancilla : BitVec 3) : Prop :=
  ∃ b e, laws.reading w r = some b ∧ laws.reading w x = some e ∧ b.word 3 = data ∧
    e.word 3 = ancilla

theorem measureSyndrome_reads (laws : BasisLaws L) {s u : QecState W} {r x y : ℕ} {ret : ℤ}
    {d a : BitVec 3} (hx : s.qec.ancilla = .obj x) (hy : s.qec.syndrome = .obj y) (hrx : r ≠ x)
    (hry : r ≠ y) (hxy : OwnStates laws.qubits x y) (hs : Reads laws s.world r x d a)
    (h : measureSyndrome L s (.obj r) = (u,ret)) (h0 : 0 ≤ ret) :
    Reads laws u.world r x d (a ^^^ d) ∧ u.qec.ancilla = .obj x ∧ u.qec.syndrome = .obj y ∧
      L.stateGetValue u.world (.obj y) = (a ^^^ d).toNat := by
  obtain ⟨b,e,hb,he,rfl,rfl⟩ := hs
  rcases hg : applyGates L s.world (syndromeCircuit L (.obj r) (.obj x)) with ⟨w₁,ret₁⟩
  rcases hm : L.stateMeasure w₁ (.obj x) (.state (.obj y)) with ⟨w₂,ret₂⟩
  unfold measureSyndrome at h
  simp only [hx,hy,hg,hm] at h
  split_ifs at h with h1 h2
  · cases h
    omega
  · cases h
    omega
  · cases h
    have hspread := syndromeCircuit_spread laws hrx (by rw [hb]; rfl) (by rw [he]; rfl) hg
      (not_lt.mp h1)
    obtain ⟨f,hf,hword⟩ := spread_word hrx hb he 3
    rw [← hspread] at hf
    obtain ⟨hkeep,hvalue⟩ := laws.measure hxy hf hm (not_lt.mp h2)
    refine ⟨⟨b,f,?_,?_,rfl,hword⟩,rfl,rfl,?_⟩
    · rw [hkeep r hry,hspread,spread_ne _ hrx,hb]
    · rw [hkeep x hxy.ne,hf]
    · rw [hvalue,hword]

/-- The data bits that the correction flips for this word of the ancilla: the
number 3 stands for qubit 2, and the numbers 4 to 6 change the phase only. -/
def corrected (a : BitVec 3) : BitVec 3 :=
  if a = 1 then 1 else if a = 2 then 2 else if a = 3 then 4 else if a = 7 then 1 else 0

theorem correction_cases (L : QuantumLayer t W) (state : Ptr) (a : BitVec 3) :
    (∃ q : ℕ, (correction L state a.toNat = some ⟨L.gateX,state,q,.null,0⟩ ∨
        correction L state a.toNat = some ⟨L.gateY,state,q,.null,0⟩) ∧
        corrected a = BitVec.twoPow 3 q) ∨
      ((correction L state a.toNat = none ∨
        ∃ q : ℕ, correction L state a.toNat = some ⟨L.gateZ,state,q,.null,0⟩) ∧
        corrected a = 0) := by
  have ha : a = 0 ∨ a = 1 ∨ a = 2 ∨ a = 3 ∨ a = 4 ∨ a = 5 ∨ a = 6 ∨ a = 7 := by
    revert a
    decide
  rcases ha with rfl | rfl | rfl | rfl | rfl | rfl | rfl | rfl
  · exact Or.inr ⟨Or.inl rfl,by decide⟩
  · exact Or.inl ⟨0,Or.inl rfl,by decide⟩
  · exact Or.inl ⟨1,Or.inl rfl,by decide⟩
  · exact Or.inl ⟨2,Or.inl rfl,by decide⟩
  · exact Or.inr ⟨Or.inr ⟨0,rfl⟩,by decide⟩
  · exact Or.inr ⟨Or.inr ⟨1,rfl⟩,by decide⟩
  · exact Or.inr ⟨Or.inr ⟨2,rfl⟩,by decide⟩
  · exact Or.inl ⟨0,Or.inr rfl,by decide⟩

theorem applyCorrection_reads (laws : BasisLaws L) {s u : QecState W} {r x y : ℕ} {ret : ℤ}
    {d a : BitVec 3} (hy : s.qec.syndrome = .obj y) (hrx : r ≠ x)
    (hs : Reads laws s.world r x d a) (hv : L.stateGetValue s.world (.obj y) = a.toNat)
    (h : applyCorrection L s (.obj r) = (u,ret)) (h0 : 0 ≤ ret) :
    Reads laws u.world r x (d ^^^ corrected a) a ∧ u.qec = s.qec := by
  obtain ⟨b,e,hb,he,rfl,rfl⟩ := hs
  have hr : (laws.reading s.world r).isSome := by rw [hb]; rfl
  unfold applyCorrection at h
  rw [hy,hv] at h
  rcases correction_cases L (.obj r) (e.word 3) with ⟨q,hgate,hc⟩ | ⟨hgate,hc⟩
  · have hflip : laws.reading u.world = (laws.reading s.world).flip r q ∧ u.qec = s.qec := by
      rcases hgate with hgate | hgate
      · rw [hgate] at h
        cases h
        exact ⟨laws.gate_x hr rfl h0,rfl⟩
      · rw [hgate] at h
        cases h
        exact ⟨laws.gate_y hr rfl h0,rfl⟩
    refine ⟨⟨b.flip q,e,?_,?_,?_,rfl⟩,hflip.2⟩
    · rw [hflip.1,flip_self hb]
    · rw [hflip.1,flip_ne _ (Ne.symm hrx),he]
    · rw [word_flip,hc]
  · have hsame : laws.reading u.world = laws.reading s.world ∧ u.qec = s.qec := by
      rcases hgate with hgate | ⟨q,hgate⟩
      · rw [hgate] at h
        cases h
        exact ⟨rfl,rfl⟩
      · rw [hgate] at h
        cases h
        exact ⟨laws.gate_z hr rfl h0,rfl⟩
    exact ⟨⟨b,e,by rw [hsame.1,hb],by rw [hsame.1,he],by simp [hc],rfl⟩,hsame.2⟩

theorem apply_reads (laws : BasisLaws L) {s u : QecState W} {r x y : ℕ} {d a : BitVec 3}
    (hx : s.qec.ancilla = .obj x) (hy : s.qec.syndrome = .obj y) (hrx : r ≠ x)
    (hry : r ≠ y) (hxy : OwnStates laws.qubits x y) (hs : Reads laws s.world r x d a)
    (h : ctrlxtQecApply L s (.obj r) = (u,0)) :
    Reads laws u.world r x (d ^^^ corrected (a ^^^ d)) (a ^^^ d) ∧
      u.qec.ancilla = .obj x ∧ u.qec.syndrome = .obj y := by
  rcases hm : measureSyndrome L s (.obj r) with ⟨s₁,ret₁⟩
  rcases hc : applyCorrection L s₁ (.obj r) with ⟨s₂,ret₂⟩
  unfold ctrlxtQecApply at h
  rw [if_neg (by simp)] at h
  simp only [hm,hc] at h
  split_ifs at h with h1 h2
  · cases h
    omega
  · cases h
    omega
  · cases h
    obtain ⟨hs₁,hx₁,hy₁,hv⟩ := measureSyndrome_reads laws hx hy hrx hry hxy hs hm (not_lt.mp h1)
    obtain ⟨hs₂,hq⟩ := applyCorrection_reads laws hy₁ hrx hs₁ hv hc (not_lt.mp h2)
    exact ⟨hs₂,by rw [hq]; exact hx₁,by rw [hq]; exact hy₁⟩

def disturb (laws : BasisLaws L) (w : W) (r : ℕ) : Option (Fin 3) → W
  | none => w
  | some q => laws.noise w r q

def noiseMask : Option (Fin 3) → BitVec 3
  | none => 0
  | some q => BitVec.twoPow 3 q

theorem disturb_reads (laws : BasisLaws L) {w : W} {r x : ℕ} {d a : BitVec 3}
    (hr : 3 ≤ laws.qubits r) (hrx : r ≠ x) (hs : Reads laws w r x d a) (f : Option (Fin 3)) :
    Reads laws (disturb laws w r f) r x (d ^^^ noiseMask f) a := by
  obtain ⟨b,e,hb,he,rfl,rfl⟩ := hs
  cases f with
  | none => exact ⟨b,e,hb,he,by simp [noiseMask],rfl⟩
  | some q =>
    have hflip := laws.noise_flip (w := w) (q.isLt.trans_le hr) (by rw [hb]; rfl)
    refine ⟨b.flip q,e,?_,?_,?_,rfl⟩
    · rw [disturb,hflip,flip_self hb]
    · rw [disturb,hflip,flip_ne _ (Ne.symm hrx),he]
    · rw [word_flip,noiseMask]

def round (laws : BasisLaws L) (s : QecState W) (r : ℕ) (f : Option (Fin 3)) : QecState W × ℤ :=
  ctrlxtQecApply L { s with world := disturb laws s.world r f } (.obj r)

/-- Rounds on one register. A round whose call fails is not enabled. -/
def rounds (laws : BasisLaws L) (r : ℕ) : Machine (QecState W) (Option (Fin 3)) where
  enabled s f := (round laws s r f).2 = 0
  step s f := some (round laws s r f).1

instance (laws : BasisLaws L) (r : ℕ) (s : QecState W) (f : Option (Fin 3)) :
    Decidable ((rounds laws r).enabled s f) :=
  inferInstanceAs (Decidable ((round laws s r f).2 = 0))

def wordRound (s : BitVec 3 × BitVec 3) (f : Option (Fin 3)) : BitVec 3 × BitVec 3 :=
  let data := s.1 ^^^ noiseMask f
  let ancilla := s.2 ^^^ data
  (data ^^^ corrected ancilla,ancilla)

/-- The module names two states, and the register of the caller is neither and has
at least three qubits. -/
def Refines (laws : BasisLaws L) (r : ℕ) (s : QecState W) (v : BitVec 3 × BitVec 3) : Prop :=
  3 ≤ laws.qubits r ∧ ∃ x y, s.qec.ancilla = .obj x ∧ s.qec.syndrome = .obj y ∧ r ≠ x ∧ r ≠ y ∧
    OwnStates laws.qubits x y ∧ Reads laws s.world r x v.1 v.2

/-- Whatever the gate layer is, the code and the two words step together. -/
theorem round_refines (laws : BasisLaws L) {r : ℕ} {s u : QecState W}
    {v : BitVec 3 × BitVec 3} (hs : Refines laws r s v) {f : Option (Fin 3)}
    (he : (rounds laws r).enabled s f) (hu : (rounds laws r).step s f = some u) :
    Refines laws r u (wordRound v f) := by
  obtain ⟨hr,x,y,hx,hy,hrx,hry,hxy,hw⟩ := hs
  have hround : ctrlxtQecApply L { s with world := disturb laws s.world r f } (.obj r) =
      (u,0) := Prod.ext (Option.some.inj hu) he
  obtain ⟨hreads,hx',hy'⟩ := apply_reads laws (s := { s with world := disturb laws s.world r f })
    hx hy hrx hry hxy (disturb_reads laws hr hrx hw f) hround
  exact ⟨hr,x,y,hx',hy',hrx,hry,hxy,hreads⟩

def codeword (c : Bool) : BitVec 3 := if c then 7 else 0

def HoldsCodeword (laws : BasisLaws L) (r : ℕ) (c : Bool) (s : QecState W) : Prop :=
  ∃ b, laws.reading s.world r = some b ∧ b.word 3 = codeword c

def Restores (laws : BasisLaws L) (r : ℕ) (c : Bool) (s : QecState W) (f : Option (Fin 3)) :
    Prop :=
  ∀ u, (rounds laws r).step s f = some u → HoldsCodeword laws r c u

theorem holdsCodeword_iff {laws : BasisLaws L} {r : ℕ} {s : QecState W}
    {v : BitVec 3 × BitVec 3} (hs : Refines laws r s v) (c : Bool) :
    HoldsCodeword laws r c s ↔ v.1 = codeword c := by
  obtain ⟨-,x,y,-,-,-,-,-,b,e,hb,-,hword,-⟩ := hs
  constructor
  · rintro ⟨b',hb',hc⟩
    obtain rfl : b = b' := Option.some.inj (hb.symm.trans hb')
    exact hword.symm.trans hc
  · intro hc
    exact ⟨b,hb,hword.trans hc⟩

def WordsRestored (c : BitVec 3) : BitVec 3 × BitVec 3 → List (Option (Fin 3)) → Prop
  | _, [] => True
  | v, f::fs => (wordRound v f).1 = c ∧ WordsRestored c (wordRound v f) fs

theorem always_restores_iff {laws : BasisLaws L} {r : ℕ} {c : Bool} {s u : QecState W}
    {v : BitVec 3 × BitVec 3} {flips : List (Option (Fin 3))}
    (h : Run (rounds laws r) s flips u) (hs : Refines laws r s v) :
    Always (rounds laws r) (Restores laws r c) s flips ↔
      WordsRestored (codeword c) v flips := by
  induction h generalizing v with
  | nil => exact Iff.rfl
  | @cons s m u f fs he hm _ ih =>
    have href := round_refines laws hs he hm
    have hstep : Restores laws r c s f ↔ HoldsCodeword laws r c m := by
      constructor
      · exact fun hr => hr m hm
      · intro hh k hk
        obtain rfl : m = k := Option.some.inj (hm.symm.trans hk)
        exact hh
    rw [always_cons hm,hstep,holdsCodeword_iff href,ih href]
    exact Iff.rfl

/-- The disturbances that rounds on this codeword undo. On 000 there is at most
one, of qubit 0 or 1, in the last round; on 111 the first round disturbs
qubit 2 and at most one more round follows, which disturbs nothing. -/
def Correctable : Bool → List (Option (Fin 3)) → Prop
  | false, flips => flips.dropWhile Option.isNone ∈ [[],[some 0],[some 1]]
  | true, flips => flips ∈ [[],[some 2],[some 2,none]]

theorem wordsRestored_cons {c : BitVec 3} {v w : BitVec 3 × BitVec 3} {f : Option (Fin 3)}
    (h : wordRound v f = w) (fs : List (Option (Fin 3))) :
    WordsRestored c v (f::fs) ↔ w.1 = c ∧ WordsRestored c w fs := by
  rw [← h]
  rfl

/-- Where every disturbance, and none at all, breaks the codeword, no further
round can be made. -/
theorem wordsRestored_stuck {c : BitVec 3} {v : BitVec 3 × BitVec 3}
    (h : ∀ f, (wordRound v f).1 ≠ c) (fs : List (Option (Fin 3))) :
    WordsRestored c v fs ↔ fs = [] := by
  cases fs with
  | nil => exact iff_of_true trivial rfl
  | cons f fs => exact iff_of_false (fun hr => h f hr.1) (List.cons_ne_nil f fs)

theorem flip_cases (f : Option (Fin 3)) : f = none ∨ f = some 0 ∨ f = some 1 ∨ f = some 2 := by
  revert f
  decide

theorem zeros_restored_iff (flips : List (Option (Fin 3))) :
    WordsRestored 0 (0,0) flips ↔ Correctable false flips := by
  induction flips with
  | nil => exact iff_of_true trivial (by simp [Correctable])
  | cons f fs ih =>
    rcases flip_cases f with rfl | rfl | rfl | rfl
    · rw [wordsRestored_cons (w := (0,0)) (by decide),ih]
      simp [Correctable]
    · rw [wordsRestored_cons (w := (0,1)) (by decide),wordsRestored_stuck (by decide)]
      simp [Correctable]
    · rw [wordsRestored_cons (w := (0,2)) (by decide),wordsRestored_stuck (by decide)]
      simp [Correctable]
    · rw [wordsRestored_cons (w := (4,4)) (by decide)]
      simp [Correctable]

theorem ones_restored_iff (flips : List (Option (Fin 3))) :
    WordsRestored 7 (7,0) flips ↔ Correctable true flips := by
  have hbroken : ∀ f, f ≠ some 2 → (wordRound (7,0) f).1 ≠ 7 := by decide
  have hsecond : ∀ f, f ≠ none → (wordRound (7,3) f).1 ≠ 7 := by decide
  rcases flips with _ | ⟨f,fs⟩
  · exact iff_of_true trivial (by simp [Correctable])
  by_cases hf : f = some 2
  · subst hf
    rw [wordsRestored_cons (w := (7,3)) (by decide)]
    rcases fs with _ | ⟨g,gs⟩
    · simp [WordsRestored,Correctable]
    by_cases hg : g = none
    · subst hg
      rw [wordsRestored_cons (w := (7,4)) (by decide),wordsRestored_stuck (by decide)]
      simp [Correctable]
    · exact iff_of_false (fun h => hsecond g hg h.2.1) (by simp [Correctable,hg])
  · exact iff_of_false (fun h => hbroken f hf h.1) (by simp [Correctable,hf])

theorem wordsRestored_iff (c : Bool) (flips : List (Option (Fin 3))) :
    WordsRestored (codeword c) (codeword c,0) flips ↔ Correctable c flips := by
  cases c with
  | false => exact zeros_restored_iff flips
  | true => exact ones_restored_iff flips

/-- After the initialisation a caller has prepared a register of its own, and
has left the ancilla alone. -/
structure Prepared (laws : BasisLaws L) (r : ℕ) (c : Bool) (s u : QecState W) : Prop where
  size : 3 ≤ laws.qubits r
  qec : u.qec = s.qec
  own : .obj r ≠ s.qec.ancilla ∧ .obj r ≠ s.qec.syndrome
  ancilla : ∀ x, s.qec.ancilla = .obj x → laws.reading u.world x = laws.reading s.world x
  codeword : HoldsCodeword laws r c u

theorem init_own {qubits : ℕ → ℕ} {s₀ s : QecState W} {a b : Bool}
    (hi : ctrlxtQecInit L s₀ a b = some (s,0)) (hn : Sized qubits s) :
    OwnStates qubits s₀.states.next (s₀.states.next+1) := by
  obtain ⟨_,_,_,_,-,-,-,-,rfl⟩ := init_success hi
  refine ⟨by omega,hn _ 3 ?_,hn _ 3 ?_⟩
  · exact (Function.update_of_ne (by simp [Heap.alloc]) _ _).trans (Function.update_self _ _ _)
  · exact Function.update_self _ _ _

theorem init_ancilla (laws : BasisLaws L) {s₀ s : QecState W} {a b : Bool}
    (hi : ctrlxtQecInit L s₀ a b = some (s,0)) (hn : Sized laws.qubits s) :
    ∃ x y, s.qec.ancilla = .obj x ∧ s.qec.syndrome = .obj y ∧ OwnStates laws.qubits x y ∧
      laws.reading s.world x = some (fun _ => false) := by
  have hown := init_own hi hn
  obtain ⟨w₁,ret₁,w₂,ret₂,h1,h1n,h2,h2n,rfl⟩ := init_success hi
  have hzero := (laws.init h1 h1n).1
  have hkeep := (laws.init h2 h2n).2 s₀.states.next _ (by omega) hzero
  exact ⟨s₀.states.next,s₀.states.next+1,rfl,rfl,hown,hkeep⟩

theorem prepared_refines {laws : BasisLaws L} {r : ℕ} {c : Bool} {s₀ s u : QecState W}
    {a b : Bool} (hi : ctrlxtQecInit L s₀ a b = some (s,0)) (hn : Sized laws.qubits s)
    (hp : Prepared laws r c s u) : Refines laws r u (codeword c,0) := by
  obtain ⟨x,y,hx,hy,hxy,hzero⟩ := init_ancilla laws hi hn
  obtain ⟨e,he,hword⟩ := hp.codeword
  have hanc := (hp.ancilla x hx).trans hzero
  refine ⟨hp.size,x,y,by rw [hp.qec,hx],by rw [hp.qec,hy],?_,?_,hxy,e,_,he,hanc,hword,rfl⟩
  · rintro rfl
    exact hp.own.1 hx.symm
  · rintro rfl
    exact hp.own.2 hy.symm

/-- For every gate layer that acts on basis states as stated, the codeword is
restored after every round exactly when the disturbances are correctable. -/
theorem restores_iff (laws : BasisLaws L) {r : ℕ} {c : Bool} {s₀ s u v : QecState W} {a b : Bool}
    (hi : ctrlxtQecInit L s₀ a b = some (s,0)) (hn : Sized laws.qubits s)
    (hp : Prepared laws r c s u) {flips : List (Option (Fin 3))} (h : Run (rounds laws r) u flips v) :
    Always (rounds laws r) (Restores laws r c) u flips ↔ Correctable c flips := by
  rw [always_restores_iff h (prepared_refines hi hn hp),wordsRestored_iff]

structure BitWorld where
  registers : Registers ℕ
  value : ℕ → ℤ

def bitGate (w : BitWorld) (c : GateCall) : BitWorld :=
  match c.state, c.target with
  | .obj r, .null =>
    if c.gate = 0 ∨ c.gate = 1 then
      { w with registers := w.registers.flip r c.qubit.toNat }
    else w
  | .obj r, .obj s =>
    if c.gate = 3 then
      { w with registers := w.registers.cnot r c.qubit.toNat s c.targetQubit }
    else w
  | _, _ => w

def bitQubits (r : ℕ) : ℕ := if r < 2 then 3 else 8

def bitMeasure (w : BitWorld) : Ptr → Dest .bits64 → BitWorld
  | .obj r, .state (.obj d) =>
    let number : ℤ := (w.registers r).elim 0 (fun b => (b.word (bitQubits r)).toNat)
    { w with value := Function.update w.value d number }
  | _, _ => w

def bitInit (w : BitWorld) (a : ULong .bits64) : Ptr → BitWorld
  | .obj r => { w with registers := Function.update w.registers r (some (fun i => a.getLsbD i)) }
  | _ => w

def bitLayer : QuantumLayer .bits64 BitWorld where
  gateX := 0
  gateY := 1
  gateZ := 2
  gateCnot := 3
  gateH := 4
  gatePhase := 5
  gateApply w c := (bitGate w c,0)
  stateInit w p a := (bitInit w a p,0)
  stateMeasure w p d := (bitMeasure w p d,0)
  stateGetValue w
    | .obj d => w.value d
    | _ => 0

def bitLaws : BasisLaws bitLayer where
  reading := BitWorld.registers
  qubits := bitQubits
  noise w r q := { w with registers := w.registers.flip r q }
  gate_x _ h _ := by
    cases h
    rfl
  gate_y _ h _ := by
    cases h
    rfl
  gate_z _ h _ := by
    cases h
    rfl
  gate_cnot _ _ _ h _ := by
    cases h
    rfl
  measure := by
    intro w r d b w' ret hn hb h _
    cases h
    refine ⟨fun _ _ => rfl,?_⟩
    have hthree : bitQubits r = 3 := hn.ancilla
    simp only [bitLayer,bitMeasure,hb,Option.elim_some,Function.update_self]
    rw [hthree]
  init := by
    intro w r w' ret h _
    cases h
    refine ⟨by simp [bitInit],fun i b hi hb => ?_⟩
    rw [← hb]
    exact Function.update_of_ne hi _ _
  noise_flip _ _ := rfl

def idle (c : Bool) : QecState BitWorld :=
  ⟨⟨.null,.null,0,0⟩,Heap.empty,⟨fun i => if i = 9 then some (fun _ => c) else none,fun _ => 0⟩⟩

def initialised (c : Bool) : QecState BitWorld :=
  ⟨⟨.obj 0,.obj 1,0,0⟩,(Heap.empty.alloc 3).alloc 3,
    bitInit (bitInit (idle c).world 0 (.obj 0)) 0 (.obj 1)⟩

theorem initialised_prepared (c : Bool) :
    Prepared bitLaws 9 c (initialised c) (initialised c) where
  size := by decide
  qec := rfl
  own := ⟨by simp [initialised],by simp [initialised]⟩
  ancilla _ _ := rfl
  codeword := ⟨fun _ => c,rfl,by cases c <;> decide⟩

theorem initialised_sized (c : Bool) : Sized bitLaws.qubits (initialised c) := by
  intro r n h
  have hr : r < 2 := lt_next h
  have hthree : (initialised c).states.cells r = some 3 := by
    interval_cases r <;> rfl
  rw [h] at hthree
  rw [Option.some.inj hthree]
  exact if_pos hr

theorem restores_flips :
    ∃ v, Run (rounds bitLaws 9) (initialised true) [some 2,none] v ∧
      Always (rounds bitLaws 9) (Restores bitLaws 9 true) (initialised true) [some 2,none] := by
  have h : ∃ v, Run (rounds bitLaws 9) (initialised true) [some 2,none] v :=
    ⟨_,run_iff_exec.mpr rfl⟩
  have hi : ctrlxtQecInit bitLayer (idle true) true true = some (initialised true,0) := rfl
  obtain ⟨v,hv⟩ := h
  have hrestores := restores_iff bitLaws hi (initialised_sized true) (initialised_prepared true) hv
  exact ⟨v,hv,hrestores.mpr (by simp [Correctable])⟩

/-- A bit flip of qubit 2 reads as a phase flip of qubit 0 and stays. -/
theorem flip_not_restored :
    ctrlxtQecInit bitLayer (idle false) true true = some (initialised false,0) ∧
      HoldsCodeword bitLaws 9 false (initialised false) ∧
      ∃ v, Run (rounds bitLaws 9) (initialised false) [some 2] v ∧
        ¬ HoldsCodeword bitLaws 9 false v := by
  refine ⟨rfl,(initialised_prepared false).codeword,_,run_iff_exec.mpr rfl,?_⟩
  rintro ⟨b,hb,hword⟩
  obtain rfl := Option.some.inj hb
  revert hword
  decide

end CtrlxtKernel.ErrorCorrection
