import CtrlxtKernel.QubitSupports
import CtrlxtKernel.RepetitionCode

/-!
# Error correction on superposed data

The rounds of the corrector when the register of the caller need not be in a
basis state. The CNOT gates copy the data bits themselves, not their sums, so
measuring the ancilla measures the data. From then on the registers hold words,
and the words go on as rounds on words do.
-/

set_option autoImplicit false

namespace CtrlxtKernel.ErrorCorrection
open MachineInt ObjectHeap StepMachine BasisRegisters QubitAmplitudes

variable {t : Target} {W : Type*}

/-- What the gate layer does on amplitudes when it succeeds, and what a Pauli
error of the environment does. A measurement of a register of three qubits to
another one finds one of the possible words; what it makes of the other one is
left open. -/
structure AmplitudeLaws (L : QuantumLayer t W) where
  amplitudes : W → Amplitudes (ℕ × ℕ)
  qubits : ℕ → ℕ
  noise : W → ℕ → ℕ → Pauli → W
  gate_x : ∀ {w r q w' ret}, L.gateApply w ⟨L.gateX,.obj r,(q:ℕ),.null,0⟩ = (w',ret) → 0 ≤ ret →
    amplitudes w' = apply Pauli.x.matrix (r,q) (amplitudes w)
  gate_y : ∀ {w r q w' ret}, L.gateApply w ⟨L.gateY,.obj r,(q:ℕ),.null,0⟩ = (w',ret) → 0 ≤ ret →
    amplitudes w' = apply Pauli.y.matrix (r,q) (amplitudes w)
  gate_z : ∀ {w r q w' ret}, L.gateApply w ⟨L.gateZ,.obj r,(q:ℕ),.null,0⟩ = (w',ret) → 0 ≤ ret →
    amplitudes w' = apply Pauli.z.matrix (r,q) (amplitudes w)
  gate_cnot : ∀ {w r q s p w' ret}, r ≠ s →
    L.gateApply w ⟨L.gateCnot,.obj r,(q:ℕ),.obj s,p⟩ = (w',ret) → 0 ≤ ret →
    amplitudes w' = cnot (r,q) (s,p) (amplitudes w)
  measure : ∀ {w r d w' ret}, OwnStates qubits r d →
    L.stateMeasure w (.obj r) (.state (.obj d)) = (w',ret) → 0 ≤ ret →
    ∃ m : BitVec 3, L.stateGetValue w' (.obj d) = m.toNat ∧ (∃ b, amplitudes w' b ≠ 0) ∧
      Finds 3 r d m (amplitudes w) (amplitudes w')
  init : ∀ {w r w' ret}, L.stateInit w (.obj r) 0 = (w',ret) → 0 ≤ ret →
    Definite 3 (amplitudes w') r 0 ∧
      ∀ i a, i ≠ r → Definite 3 (amplitudes w) i a → Definite 3 (amplitudes w') i a
  noise_pauli : ∀ {w r q} p, q < qubits r →
    amplitudes (noise w r q p) = apply p.matrix (r,q) (amplitudes w)

variable {L : QuantumLayer t W}

theorem applyGates_amplitudes (laws : AmplitudeLaws L) {r x : ℕ} (hrx : r ≠ x) (qs : List ℕ)
    {w w' : W} {ret : ℤ}
    (h : applyGates L w (qs.map (fun q : ℕ => ⟨L.gateCnot,.obj r,q,.obj x,q⟩)) = (w',ret))
    (h0 : 0 ≤ ret) :
    laws.amplitudes w' = qs.foldl (fun ψ q => cnot (r,q) (x,q) ψ) (laws.amplitudes w) := by
  induction qs generalizing w with
  | nil =>
    cases h
    rfl
  | cons q qs ih =>
    simp only [List.map_cons,applyGates] at h
    split_ifs at h with hneg
    · cases h
      omega
    · rw [List.foldl_cons,← laws.gate_cnot (p := q) hrx rfl (not_lt.mp hneg)]
      exact ih h

theorem syndromeCircuit_copy (laws : AmplitudeLaws L) {r x : ℕ} (hrx : r ≠ x) {w w' : W} {ret : ℤ}
    (h : applyGates L w (syndromeCircuit L (.obj r) (.obj x)) = (w',ret)) (h0 : 0 ≤ ret) :
    laws.amplitudes w' = copy r x 3 (laws.amplitudes w) :=
  applyGates_amplitudes laws hrx [0,1,2] h h0

structure Collapsed (laws : AmplitudeLaws L) (w : W) (r x : ℕ) (data ancilla : BitVec 3) : Prop where
  some : ∃ b, laws.amplitudes w b ≠ 0
  data : Definite 3 (laws.amplitudes w) r data
  ancilla : Definite 3 (laws.amplitudes w) x ancilla

theorem measureSyndrome_collapses (laws : AmplitudeLaws L) {s u : QecState W} {r x y : ℕ} {ret : ℤ}
    {a : BitVec 3} (hx : s.qec.ancilla = .obj x) (hy : s.qec.syndrome = .obj y) (hrx : r ≠ x)
    (hry : r ≠ y) (hxy : OwnStates laws.qubits x y)
    (ha : Definite 3 (laws.amplitudes s.world) x a)
    (h : measureSyndrome L s (.obj r) = (u,ret)) (h0 : 0 ≤ ret) :
    ∃ d, Collapsed laws u.world r x d (a ^^^ d) ∧
      (∀ e, Definite 3 (laws.amplitudes s.world) r e → d = e) ∧
      u.qec.ancilla = .obj x ∧ u.qec.syndrome = .obj y ∧
      L.stateGetValue u.world (.obj y) = (a ^^^ d).toNat := by
  rcases hg : applyGates L s.world (syndromeCircuit L (.obj r) (.obj x)) with ⟨w₁,ret₁⟩
  rcases hm : L.stateMeasure w₁ (.obj x) (.state (.obj y)) with ⟨w₂,ret₂⟩
  unfold measureSyndrome at h
  simp only [hx,hy,hg,hm] at h
  split_ifs at h with h1 h2
  · cases h
    omega
  · cases h
    omega
  · cases h
    have hcopy := syndromeCircuit_copy laws hrx hg (not_lt.mp h1)
    obtain ⟨m,hvalue,hsome,hfinds⟩ := laws.measure hxy hm (not_lt.mp h2)
    rw [hcopy] at hfinds
    have hdef := definite_select_copy hrx ha m
    have hsum : a ^^^ (a ^^^ m) = m := by
      rw [← BitVec.xor_assoc,BitVec.xor_self,BitVec.zero_xor]
    refine ⟨a ^^^ m,⟨hsome,hfinds.definite hry hdef.1,?_⟩,?_,rfl,rfl,?_⟩
    · rw [hsum]
      exact hfinds.definite hxy.ne hdef.2
    · intro e he
      obtain ⟨b,hb⟩ := hsome
      obtain ⟨c,hc,-⟩ := hfinds b hb
      have hword := hdef.1 c hc
      unfold select at hc
      split_ifs at hc
      · rw [copy_apply hrx] at hc
        rw [← hword,← (wordOf_addBits hrx c).2]
        exact he _ hc
      · exact absurd rfl hc
    · rw [hvalue,hsum]

def pauliGate (L : QuantumLayer t W) : Pauli → CInt
  | .x => L.gateX
  | .y => L.gateY
  | .z => L.gateZ

theorem AmplitudeLaws.gate_pauli (laws : AmplitudeLaws L) (p : Pauli) {w w' : W} {r q : ℕ} {ret : ℤ}
    (h : L.gateApply w ⟨pauliGate L p,.obj r,(q:ℕ),.null,0⟩ = (w',ret)) (h0 : 0 ≤ ret) :
    laws.amplitudes w' = apply p.matrix (r,q) (laws.amplitudes w) := by
  cases p with
  | x => exact laws.gate_x h h0
  | y => exact laws.gate_y h h0
  | z => exact laws.gate_z h h0

theorem correction_pauli (L : QuantumLayer t W) (state : Ptr) (a : BitVec 3) :
    (correction L state a.toNat = none ∧ corrected a = 0) ∨
      ∃ p, ∃ q : ℕ, correction L state a.toNat = some ⟨pauliGate L p,state,q,.null,0⟩ ∧
        corrected a = p.mask q := by
  rcases correction_cases L state a with ⟨q,hx | hy,hc⟩ | ⟨hnone | ⟨q,hz⟩,hc⟩
  · exact Or.inr ⟨.x,q,hx,hc⟩
  · exact Or.inr ⟨.y,q,hy,hc⟩
  · exact Or.inl ⟨hnone,hc⟩
  · exact Or.inr ⟨.z,q,hz,hc⟩

theorem collapsed_pauli {laws : AmplitudeLaws L} {w w' : W} {r x : ℕ} {d a : BitVec 3}
    (hs : Collapsed laws w r x d a) (hrx : r ≠ x) (p : Pauli) (q : ℕ)
    (h : laws.amplitudes w' = apply p.matrix (r,q) (laws.amplitudes w)) :
    Collapsed laws w' r x (d ^^^ p.mask q) a := by
  constructor
  · rw [h]
    exact pauli_ne_zero p (r,q) hs.some
  · rw [h]
    exact definite_pauli hs.data p q
  · rw [h]
    exact definite_pauli_ne hrx.symm hs.ancilla p q

theorem applyCorrection_collapsed (laws : AmplitudeLaws L) {s u : QecState W} {r x y : ℕ} {ret : ℤ}
    {d a : BitVec 3} (hy : s.qec.syndrome = .obj y) (hrx : r ≠ x)
    (hs : Collapsed laws s.world r x d a) (hv : L.stateGetValue s.world (.obj y) = a.toNat)
    (h : applyCorrection L s (.obj r) = (u,ret)) (h0 : 0 ≤ ret) :
    Collapsed laws u.world r x (d ^^^ corrected a) a ∧ u.qec = s.qec := by
  unfold applyCorrection at h
  rw [hy,hv] at h
  rcases correction_pauli L (.obj r) a with ⟨hgate,hc⟩ | ⟨p,q,hgate,hc⟩
  · rw [hgate] at h
    cases h
    rw [hc]
    exact ⟨by simpa using hs,rfl⟩
  · rw [hgate] at h
    cases h
    rw [hc]
    exact ⟨collapsed_pauli hs hrx p q (laws.gate_pauli p rfl h0),rfl⟩

/-- A successful call leaves words: those after a round that found the data to
hold the word `d`, which is the word of the data if they held one. -/
theorem apply_collapses (laws : AmplitudeLaws L) {s u : QecState W} {r x y : ℕ} {a : BitVec 3}
    (hx : s.qec.ancilla = .obj x) (hy : s.qec.syndrome = .obj y) (hrx : r ≠ x) (hry : r ≠ y)
    (hxy : OwnStates laws.qubits x y) (ha : Definite 3 (laws.amplitudes s.world) x a)
    (h : ctrlxtQecApply L s (.obj r) = (u,0)) :
    ∃ d, Collapsed laws u.world r x (d ^^^ corrected (a ^^^ d)) (a ^^^ d) ∧
      (∀ e, Definite 3 (laws.amplitudes s.world) r e → d = e) ∧
      u.qec.ancilla = .obj x ∧ u.qec.syndrome = .obj y := by
  rcases hm : measureSyndrome L s (.obj r) with ⟨s₁,ret₁⟩
  rcases hc : applyCorrection L s₁ (.obj r) with ⟨s₂,ret₂⟩
  unfold ctrlxtQecApply at h
  rw [if_neg (by simp)] at h
  simp only [hm,hc] at h
  split_ifs at h with h1 h2
  · cases h
    omega
  · cases h
    omega
  · cases h
    obtain ⟨d,hs₁,hd,hx₁,hy₁,hv⟩ :=
      measureSyndrome_collapses laws hx hy hrx hry hxy ha hm (not_lt.mp h1)
    obtain ⟨hs₂,hq⟩ := applyCorrection_collapsed laws hy₁ hrx hs₁ hv hc (not_lt.mp h2)
    exact ⟨d,hs₂,hd,by rw [hq]; exact hx₁,by rw [hq]; exact hy₁⟩

abbrev Error := Option (Pauli × Fin 3)

def Error.flipped : Error → Option (Fin 3)
  | none => none
  | some (p,q) => if p = .z then none else some q

def AmplitudeLaws.disturb (laws : AmplitudeLaws L) (w : W) (r : ℕ) : Error → W
  | none => w
  | some (p,q) => laws.noise w r q p

def AmplitudeLaws.round (laws : AmplitudeLaws L) (s : QecState W) (r : ℕ) (f : Error) :
    QecState W × ℤ :=
  ctrlxtQecApply L { s with world := laws.disturb s.world r f } (.obj r)

/-- Rounds on one register. A round whose call fails is not enabled. -/
def AmplitudeLaws.rounds (laws : AmplitudeLaws L) (r : ℕ) : Machine (QecState W) Error where
  enabled s f := (laws.round s r f).2 = 0
  step s f := some (laws.round s r f).1

/-- The module names two states, neither is the register of the caller, which has at
least three qubits, and the ancilla holds a word. -/
def AncillaReady (laws : AmplitudeLaws L) (r : ℕ) (s : QecState W) (a : BitVec 3) : Prop :=
  3 ≤ laws.qubits r ∧ ∃ x y, s.qec.ancilla = .obj x ∧ s.qec.syndrome = .obj y ∧ r ≠ x ∧ r ≠ y ∧
    OwnStates laws.qubits x y ∧ Definite 3 (laws.amplitudes s.world) x a

def HoldsWords (laws : AmplitudeLaws L) (r : ℕ) (s : QecState W) (v : BitVec 3 × BitVec 3) : Prop :=
  3 ≤ laws.qubits r ∧ ∃ x y, s.qec.ancilla = .obj x ∧ s.qec.syndrome = .obj y ∧ r ≠ x ∧ r ≠ y ∧
    OwnStates laws.qubits x y ∧ Collapsed laws s.world r x v.1 v.2

theorem HoldsWords.ready {laws : AmplitudeLaws L} {r : ℕ} {s : QecState W}
    {v : BitVec 3 × BitVec 3} (h : HoldsWords laws r s v) : AncillaReady laws r s v.2 := by
  obtain ⟨hr,x,y,hx,hy,hrx,hry,hxy,hc⟩ := h
  exact ⟨hr,x,y,hx,hy,hrx,hry,hxy,hc.ancilla⟩

theorem init_ready (laws : AmplitudeLaws L) {s₀ s : QecState W} {a b : Bool}
    (hi : ctrlxtQecInit L s₀ a b = some (s,0)) (hn : Sized laws.qubits s) {r : ℕ}
    (hr : 3 ≤ laws.qubits r) (hra : .obj r ≠ s.qec.ancilla) (hrs : .obj r ≠ s.qec.syndrome) :
    AncillaReady laws r s 0 := by
  have hown := init_own hi hn
  obtain ⟨w₁,ret₁,w₂,ret₂,h1,h1n,h2,h2n,rfl⟩ := init_success hi
  have hzero := (laws.init h1 h1n).1
  have hkeep := (laws.init h2 h2n).2 s₀.states.next 0 (by omega) hzero
  exact ⟨hr,s₀.states.next,s₀.states.next+1,rfl,rfl,fun h => hra (by rw [h]),
    fun h => hrs (by rw [h]),hown,hkeep⟩

theorem disturb_ancilla (laws : AmplitudeLaws L) {w : W} {r x : ℕ} {a : BitVec 3}
    (hr : 3 ≤ laws.qubits r) (hrx : r ≠ x) (h : Definite 3 (laws.amplitudes w) x a) (f : Error) :
    Definite 3 (laws.amplitudes (laws.disturb w r f)) x a := by
  cases f with
  | none => exact h
  | some e =>
    rw [AmplitudeLaws.disturb,laws.noise_pauli e.1 (e.2.isLt.trans_le hr)]
    exact definite_pauli_ne hrx.symm h e.1 e.2

theorem disturb_data (laws : AmplitudeLaws L) {w : W} {r : ℕ} {d : BitVec 3}
    (hr : 3 ≤ laws.qubits r) (h : Definite 3 (laws.amplitudes w) r d) (f : Error) :
    Definite 3 (laws.amplitudes (laws.disturb w r f)) r (d ^^^ noiseMask f.flipped) := by
  cases f with
  | none =>
    have hzero : d ^^^ noiseMask (Error.flipped none) = d := BitVec.xor_zero
    rw [hzero]
    exact h
  | some e =>
    obtain ⟨p,q⟩ := e
    have hmask : noiseMask (Error.flipped (some (p,q))) = p.mask q := by
      cases p <;> rfl
    rw [AmplitudeLaws.disturb,laws.noise_pauli p (q.isLt.trans_le hr),hmask]
    exact definite_pauli h p q

theorem round_collapses {laws : AmplitudeLaws L} {r : ℕ} {s u : QecState W} {a : BitVec 3}
    (hs : AncillaReady laws r s a) {f : Error} (he : (laws.rounds r).enabled s f)
    (hu : (laws.rounds r).step s f = some u) :
    ∃ d, HoldsWords laws r u (wordRound (d,a) none) ∧
      ∀ e, Definite 3 (laws.amplitudes s.world) r e → d = e ^^^ noiseMask f.flipped := by
  obtain ⟨hr,x,y,hx,hy,hrx,hry,hxy,ha⟩ := hs
  have hround : ctrlxtQecApply L { s with world := laws.disturb s.world r f } (.obj r) = (u,0) :=
    Prod.ext (Option.some.inj hu) he
  obtain ⟨d,hc,hd,hx',hy'⟩ := apply_collapses laws
    (s := { s with world := laws.disturb s.world r f }) hx hy hrx hry hxy
    (disturb_ancilla laws hr hrx ha f) hround
  have hwords : wordRound (d,a) none = (d ^^^ corrected (a ^^^ d),a ^^^ d) := by
    simp [wordRound,noiseMask]
  refine ⟨d,⟨hr,x,y,hx',hy',hrx,hry,hxy,by rw [hwords]; exact hc⟩,?_⟩
  exact fun e he => hd _ (disturb_data laws hr he f)

theorem round_words {laws : AmplitudeLaws L} {r : ℕ} {s u : QecState W}
    {v : BitVec 3 × BitVec 3} (hs : HoldsWords laws r s v) {f : Error}
    (he : (laws.rounds r).enabled s f) (hu : (laws.rounds r).step s f = some u) :
    HoldsWords laws r u (wordRound v f.flipped) := by
  obtain ⟨d,hwords,hd⟩ := round_collapses hs.ready he hu
  obtain ⟨-,x,y,-,-,-,-,-,hc⟩ := hs
  rw [hd _ hc.data] at hwords
  have hsame : wordRound (v.1 ^^^ noiseMask f.flipped,v.2) none = wordRound v f.flipped := by
    simp [wordRound,noiseMask]
  rw [hsame] at hwords
  exact hwords

theorem rounds_words {laws : AmplitudeLaws L} {r : ℕ} {s u : QecState W} {errors : List Error}
    (h : Run (laws.rounds r) s errors u) {v : BitVec 3 × BitVec 3} (hs : HoldsWords laws r s v) :
    HoldsWords laws r u ((errors.map Error.flipped).foldl wordRound v) := by
  induction h generalizing v with
  | nil => exact hs
  | cons he hu _ ih => exact ih (round_words hs he hu)

/-- Whatever superposition the data were in, the first successful round leaves a
single word on them and on the ancilla, and from then on the words go on as
rounds on words do. A phase error changes nothing in this. -/
theorem rounds_collapse (laws : AmplitudeLaws L) {r : ℕ} {s u : QecState W} {a : BitVec 3}
    (hs : AncillaReady laws r s a) {f : Error} {errors : List Error}
    (h : Run (laws.rounds r) s (f::errors) u) :
    ∃ d, HoldsWords laws r u
        ((errors.map Error.flipped).foldl wordRound (wordRound (d,a) none)) ∧
      ∀ e, Definite 3 (laws.amplitudes s.world) r e → d = e ^^^ noiseMask f.flipped := by
  cases h with
  | cons he hu rest =>
    obtain ⟨d,hwords,hd⟩ := round_collapses hs he hu
    exact ⟨d,rounds_words rest hwords,hd⟩

noncomputable section Superposed

structure AmpWorld where
  amplitudes : Amplitudes (ℕ × ℕ)
  value : ℕ → ℤ

def ampGate (w : AmpWorld) (c : GateCall) : AmpWorld :=
  match c.state, c.target with
  | .obj r, .null =>
    let p : Pauli := if c.gate = 0 then .x else if c.gate = 1 then .y else .z
    { w with amplitudes := apply p.matrix (r,c.qubit.toNat) w.amplitudes }
  | .obj r, .obj s =>
    { w with amplitudes := cnot (r,c.qubit.toNat) (s,c.targetQubit) w.amplitudes }
  | _, _ => w

open Classical in
def ampMeasure (w : AmpWorld) : Ptr → Dest .bits64 → AmpWorld × ℤ
  | .obj r, .state (.obj d) =>
    if h : ∃ m b, select 3 r m w.amplitudes b ≠ 0 then
      (⟨select 3 r h.choose w.amplitudes,Function.update w.value d h.choose.toNat⟩,0)
    else (w,-einval)
  | _, _ => (w,-einval)

def ampInit (w : AmpWorld) : Ptr → AmpWorld
  | .obj r => { w with amplitudes := select 3 r 0 w.amplitudes }
  | _ => w

def ampLayer : QuantumLayer .bits64 AmpWorld where
  gateX := 0
  gateY := 1
  gateZ := 2
  gateCnot := 3
  gateH := 4
  gatePhase := 5
  gateApply w c := (ampGate w c,0)
  stateInit w p _ := (ampInit w p,0)
  stateMeasure := ampMeasure
  stateGetValue w
    | .obj d => w.value d
    | _ => 0

theorem ampMeasure_law {w w' : AmpWorld} {r d : ℕ} {ret : ℤ}
    (h : ampMeasure w (.obj r) (.state (.obj d)) = (w',ret)) (h0 : 0 ≤ ret) :
    ∃ m : BitVec 3, w'.value d = m.toNat ∧ (∃ b, w'.amplitudes b ≠ 0) ∧
      Finds 3 r d m w.amplitudes w'.amplitudes := by
  unfold ampMeasure at h
  simp only at h
  split_ifs at h with hpossible
  · cases h
    exact ⟨hpossible.choose,by simp,hpossible.choose_spec,fun b hb => ⟨b,hb,fun _ _ _ => rfl⟩⟩
  · cases h
    simp [einval] at h0

def ampLaws : AmplitudeLaws ampLayer where
  amplitudes := AmpWorld.amplitudes
  qubits r := if r < 2 then 3 else 8
  noise w r q p := { w with amplitudes := apply p.matrix (r,q) w.amplitudes }
  gate_x h _ := by
    cases h
    rfl
  gate_y h _ := by
    cases h
    rfl
  gate_z h _ := by
    cases h
    rfl
  gate_cnot _ h _ := by
    cases h
    rfl
  measure _ h h0 := ampMeasure_law h h0
  init := by
    intro w r w' ret h _
    cases h
    constructor
    · intro b hb
      by_contra hne
      exact hb (if_neg hne)
    · intro i a _ hi b hb
      apply hi b
      intro hzero
      apply hb
      show (if _ then w.amplitudes b else 0) = 0
      rw [hzero,ite_self]
  noise_pauli _ _ := rfl

def superposed : QecState AmpWorld :=
  ⟨⟨.obj 0,.obj 1,0,0⟩,(Heap.empty.alloc 3).alloc 3,
    ⟨fun b => if wordOf 3 0 b = 0 then 1 else 0,fun _ => 0⟩⟩

theorem superposed_ready : AncillaReady ampLaws 9 superposed 0 := by
  refine ⟨by decide,0,1,rfl,rfl,by decide,by decide,⟨by decide,rfl,rfl⟩,fun b hb => ?_⟩
  by_contra hne
  exact hb (if_neg hne)

theorem ampGates_succeed (w : AmpWorld) (cs : List GateCall) : (applyGates ampLayer w cs).2 = 0 := by
  induction cs generalizing w with
  | nil => rfl
  | cons c cs ih => exact ih (ampGate w c)

theorem ampRound_succeeds {s : QecState AmpWorld} {r x y : ℕ} (hx : s.qec.ancilla = .obj x)
    (hy : s.qec.syndrome = .obj y) (hrx : r ≠ x) (hs : ∃ b, s.world.amplitudes b ≠ 0)
    (p : Pauli) (q : Fin 3) : (ampLaws.round s r (some (p,q))).2 = 0 := by
  let s' : QecState AmpWorld := { s with world := ampLaws.disturb s.world r (some (p,q)) }
  have hs' : ∃ b, s'.world.amplitudes b ≠ 0 := pauli_ne_zero p (r,(q:ℕ)) hs
  rcases hg : applyGates ampLayer s'.world (syndromeCircuit ampLayer (.obj r) (.obj x)) with ⟨w₁,ret₁⟩
  have hret : ret₁ = 0 := by
    rw [← ampGates_succeed s'.world (syndromeCircuit ampLayer (.obj r) (.obj x)),hg]
  have hw₁ : w₁.amplitudes = copy r x 3 s'.world.amplitudes :=
    syndromeCircuit_copy ampLaws hrx hg (by omega)
  have hpossible : ∃ m b, select 3 x m w₁.amplitudes b ≠ 0 := by
    rw [hw₁]
    exact select_ne_zero 3 x (copy_ne_zero hrx 3 hs')
  have hm : (ampMeasure w₁ (.obj x) (.state (.obj y))).2 = 0 := by
    rw [ampMeasure,dif_pos hpossible]
  have hmeasure : (measureSyndrome ampLayer s' (.obj r)).2 = 0 := by
    have hx' : s'.qec.ancilla = .obj x := hx
    have hy' : s'.qec.syndrome = .obj y := hy
    have hm' : (ampLayer.stateMeasure w₁ (.obj x) (.state (.obj y))).2 = 0 := hm
    simp only [measureSyndrome,hx',hy',hg,hret,hm',lt_irrefl,if_false]
  have hcorrect : ∀ u, (applyCorrection ampLayer u (.obj r)).2 = 0 := by
    intro u
    unfold applyCorrection
    cases correction ampLayer (.obj r) (ampLayer.stateGetValue u.world u.qec.syndrome) <;> rfl
  show (ctrlxtQecApply ampLayer s' (.obj r)).2 = 0
  simp only [ctrlxtQecApply,hmeasure,hcorrect,lt_irrefl,if_false,reduceCtorEq]

theorem rounds_collapse_superposed :
    ∃ u d, Run (ampLaws.rounds 9) superposed [some (.z,0)] u ∧
      HoldsWords ampLaws 9 u (wordRound (d,0) none) := by
  have hsome : ∃ b, superposed.world.amplitudes b ≠ 0 :=
    ⟨fun _ => false,by simp [superposed,wordOf,Bits.word]⟩
  have henabled := ampRound_succeeds (s := superposed) rfl rfl (by decide : 9 ≠ 0) hsome .z 0
  have hrun : Run (ampLaws.rounds 9) superposed [some (.z,0)] _ := .cons henabled rfl (.nil _)
  obtain ⟨d,hwords,-⟩ := rounds_collapse ampLaws superposed_ready hrun
  exact ⟨_,d,hrun,hwords⟩

end Superposed

end CtrlxtKernel.ErrorCorrection
