import CtrlxtKernel.QuantumDeviceLoading

/-!
# Overlapping opens of the device

An open is its atomic increment and test, followed on the busy branch by its
decrement; a release is one decrement. Calls by any number of processes take
these steps in any order. A call that is still running remembers every process
that held the device at some moment since it began.
-/

set_option autoImplicit false

namespace CtrlxtKernel.QuantumDevice
open MachineInt StepMachine

variable {t : Target} {P : Type*}

/-- `atomic_inc_return(&dev->open_count) > 1`. -/
def openIncrement (d : CtrlxtQuantumDevice t) : CtrlxtQuantumDevice t × Bool :=
  let d := { d with openCount := d.openCount+1 }
  (d,decide (d.openCount.toInt > 1))

def openBackOut (d : CtrlxtQuantumDevice t) : CtrlxtQuantumDevice t :=
  { d with openCount := d.openCount-1 }

theorem quantumOpen_split (d : CtrlxtQuantumDevice t) :
    quantumOpen d =
      if (openIncrement d).2 then (openBackOut (openIncrement d).1,-ebusy)
      else ((openIncrement d).1,0) := by
  simp only [quantumOpen,openIncrement,openBackOut,decide_eq_true_eq]

structure OpenCall (P : Type*) where
  process : P
  seen : List P
  deriving DecidableEq

/-- The opens that have not made their increment yet, those that found the
device busy and have yet to decrement, and the processes that hold it. -/
structure OpenState (t : Target) (P : Type*) where
  dev : CtrlxtQuantumDevice t
  holders : List P
  begun : List (OpenCall P)
  backing : List (OpenCall P)

def OpenCall.observe (holders : List P) (c : OpenCall P) : OpenCall P :=
  { c with seen := holders++c.seen }

def OpenState.observe (s : OpenState t P) : OpenState t P :=
  { s with
    begun := s.begun.map (OpenCall.observe s.holders)
    backing := s.backing.map (OpenCall.observe s.holders) }

def OpenState.refuse (s : OpenState t P) (i : ℕ) (c : OpenCall P) : OpenState t P :=
  { s with
    dev := (openIncrement s.dev).1
    begun := s.begun.eraseIdx i
    backing := c::s.backing }

def OpenState.grant (s : OpenState t P) (i : ℕ) (c : OpenCall P) : OpenState t P :=
  { s with
    dev := (openIncrement s.dev).1
    begun := s.begun.eraseIdx i
    holders := c.process::s.holders }

inductive OpenStep (P : Type*) where
  | start (p : P)
  | increment (i : ℕ)
  | backOut (i : ℕ)
  | release (p : P)

def closed (t : Target) (P : Type*) (b : ℕ) : OpenState t P := ⟨installedDevice t b,[],[],[]⟩

def inFlight (s : OpenState t P) : ℕ := s.begun.length+s.backing.length

def Counts (s : OpenState t P) : Prop :=
  s.dev.openCount = BitVec.ofNat 32 (s.holders.length+s.backing.length)

theorem openIncrement_counts {d : CtrlxtQuantumDevice t} {n : ℕ}
    (h : d.openCount = BitVec.ofNat 32 n) :
    (openIncrement d).1.openCount = BitVec.ofNat 32 (n+1) := by
  show d.openCount+1 = _
  rw [h,BitVec.ofNat_add]
  rfl

theorem decrement_counts {c : CInt} {n : ℕ} (h : c = BitVec.ofNat 32 (n+1)) :
    c-1 = BitVec.ofNat 32 n := by
  have hs : c = BitVec.ofNat 32 n+1 := by
    rw [h,BitVec.ofNat_add]
    rfl
  rw [hs,BitVec.add_sub_cancel]

theorem busy_iff {d : CtrlxtQuantumDevice t} {n : ℕ} (h : d.openCount = BitVec.ofNat 32 n)
    (hn : n+1 < 2^31) : (openIncrement d).2 = true ↔ 0 < n := by
  have hc : (d.openCount+1).toInt = (n+1:ℕ) := by
    rw [← ofNat_toInt hn,← openIncrement_counts h]
    rfl
  simp only [openIncrement,hc,decide_eq_true_eq]
  omega

structure Exclusive (s : OpenState t P) : Prop where
  counts : Counts s
  few : inFlight s < 2^31-1
  single : s.holders.length ≤ 1

theorem closed_exclusive (b : ℕ) : Exclusive (closed t P b) where
  counts := rfl
  few := show 0 < 2^31-1 by decide
  single := Nat.zero_le 1

theorem observe_inFlight (s : OpenState t P) : inFlight s.observe = inFlight s := by
  simp [inFlight,OpenState.observe]

theorem increment_busy {s : OpenState t P} (hs : Exclusive s) (hb : 0 < s.begun.length) :
    (openIncrement s.dev).2 = true ↔ 0 < s.holders.length+s.backing.length := by
  have hfew := hs.few
  have hone := hs.single
  unfold inFlight at hfew
  exact busy_iff hs.counts (by omega)

theorem increment_inFlight {s : OpenState t P} {i : ℕ} (hi : i < s.begun.length)
    (c : OpenCall P) :
    inFlight (s.refuse i c) = inFlight s ∧ inFlight (s.grant i c)+1 = inFlight s := by
  simp only [inFlight,OpenState.refuse,OpenState.grant,List.length_eraseIdx_of_lt hi,
    List.length_cons]
  omega

variable [DecidableEq P]

def opening (t : Target) (P : Type*) [DecidableEq P] : Machine (OpenState t P) (OpenStep P) where
  enabled s
    | .start _ => True
    | .increment i => i < s.begun.length
    | .backOut i => i < s.backing.length
    | .release p => p ∈ s.holders
  step s
    | .start p => some { s with begun := ⟨p,[]⟩::s.begun }.observe
    | .increment i => s.begun[i]?.map fun c =>
        (if (openIncrement s.dev).2 then s.refuse i c else s.grant i c).observe
    | .backOut i => s.backing[i]?.map fun _ =>
        { s with dev := openBackOut s.dev, backing := s.backing.eraseIdx i }.observe
    | .release p => some
        { s with dev := quantumRelease s.dev, holders := s.holders.erase p }.observe

instance (s : OpenState t P) : (l : OpenStep P) → Decidable ((opening t P).enabled s l)
  | .start _ => inferInstanceAs (Decidable True)
  | .increment i => inferInstanceAs (Decidable (i < s.begun.length))
  | .backOut i => inferInstanceAs (Decidable (i < s.backing.length))
  | .release p => inferInstanceAs (Decidable (p ∈ s.holders))

def FewCalls (n : ℕ) (s : OpenState t P) : OpenStep P → Prop
  | .start _ => inFlight s+1 < n
  | _ => True

instance (n : ℕ) (s : OpenState t P) : (l : OpenStep P) → Decidable (FewCalls n s l)
  | .start _ => inferInstanceAs (Decidable (inFlight s+1 < n))
  | .increment _ | .backOut _ | .release _ => inferInstanceAs (Decidable True)

theorem step_counts {s u : OpenState t P} (hs : Counts s) {l : OpenStep P}
    (he : (opening t P).enabled s l) (hu : (opening t P).step s l = some u) : Counts u := by
  cases l with
  | start p =>
    cases hu
    simpa [Counts,OpenState.observe] using hs
  | increment i =>
    obtain ⟨c,-,rfl⟩ := Option.map_eq_some_iff.mp hu
    have hc := openIncrement_counts hs
    split_ifs
    · simpa [Counts,OpenState.observe,OpenState.refuse,add_assoc] using hc
    · simpa [Counts,OpenState.observe,OpenState.grant,add_right_comm] using hc
  | backOut i =>
    obtain ⟨c,-,rfl⟩ := Option.map_eq_some_iff.mp hu
    have hi : i < s.backing.length := he
    have hl : (s.backing.eraseIdx i).length+1 = s.backing.length := by
      rw [List.length_eraseIdx_of_lt hi]
      omega
    show s.dev.openCount-1 = BitVec.ofNat 32 (s.holders.length+
      ((s.backing.eraseIdx i).map (OpenCall.observe s.holders)).length)
    rw [List.length_map]
    apply decrement_counts
    rw [add_assoc,hl]
    exact hs
  | release p =>
    cases hu
    have hp : p ∈ s.holders := he
    have hl : (s.holders.erase p).length+1 = s.holders.length := by
      rw [List.length_erase_of_mem hp]
      have hpos := List.length_pos_of_mem hp
      omega
    show s.dev.openCount-1 = BitVec.ofNat 32 ((s.holders.erase p).length+
      (s.backing.map (OpenCall.observe (s.holders.erase p))).length)
    rw [List.length_map]
    apply decrement_counts
    rw [add_right_comm,hl]
    exact hs

theorem step_inFlight {s u : OpenState t P} {l : OpenStep P} {n : ℕ} (hs : inFlight s < n)
    (he : ((opening t P).restrict (FewCalls n)).enabled s l)
    (hu : (opening t P).step s l = some u) : inFlight u < n := by
  cases l with
  | start p =>
    cases hu
    have hf : inFlight s+1 < n := he.2
    rw [observe_inFlight]
    simp only [inFlight,List.length_cons] at hf ⊢
    omega
  | increment i =>
    obtain ⟨c,-,rfl⟩ := Option.map_eq_some_iff.mp hu
    obtain ⟨hr,hg⟩ := increment_inFlight he.1 c
    rw [observe_inFlight]
    split_ifs
    · rw [hr]
      exact hs
    · omega
  | backOut i =>
    obtain ⟨c,-,rfl⟩ := Option.map_eq_some_iff.mp hu
    rw [observe_inFlight]
    apply lt_of_le_of_lt _ hs
    exact Nat.add_le_add_left (List.length_eraseIdx_le _ _) _
  | release p =>
    cases hu
    rw [observe_inFlight]
    exact hs

theorem step_single {s u : OpenState t P} (hs : Exclusive s) {l : OpenStep P}
    (he : (opening t P).enabled s l) (hu : (opening t P).step s l = some u) :
    u.holders.length ≤ 1 := by
  cases l with
  | start p =>
    cases hu
    exact hs.single
  | increment i =>
    obtain ⟨c,-,rfl⟩ := Option.map_eq_some_iff.mp hu
    have hi : i < s.begun.length := he
    have hb := increment_busy hs (by omega)
    split_ifs with h
    · exact hs.single
    · rw [hb] at h
      show (c.process::s.holders).length ≤ 1
      rw [List.length_cons]
      omega
  | backOut i =>
    obtain ⟨c,-,rfl⟩ := Option.map_eq_some_iff.mp hu
    exact hs.single
  | release p =>
    cases hu
    exact (List.length_erase_le).trans hs.single

theorem step_exclusive {s u : OpenState t P} {l : OpenStep P} (hs : Exclusive s)
    (he : ((opening t P).restrict (FewCalls (2^31-1))).enabled s l)
    (hu : (opening t P).step s l = some u) : Exclusive u :=
  ⟨step_counts hs.counts he.1 hu,step_inFlight hs.few he hu,step_single hs he.1 hu⟩

theorem run_exclusive {b : ℕ} {s : OpenState t P} {ls : List (OpenStep P)}
    (h : Run ((opening t P).restrict (FewCalls (2^31-1))) (closed t P b) ls s) : Exclusive s :=
  h.invariant (fun _ _ _ hs he hu => step_exclusive hs he hu) (closed_exclusive b)

/-- With fewer than `2^31-1` calls in flight, at most one process holds the
device, and the counter is the number of holders and of opens that have yet to
back out. -/
theorem open_exclusive {b : ℕ} {s : OpenState t P} {ls : List (OpenStep P)}
    (h : Run ((opening t P).restrict (FewCalls (2^31-1))) (closed t P b) ls s) :
    s.holders.length ≤ 1 ∧
      s.dev.openCount.toInt = s.holders.length+s.backing.length ∧
      (inFlight s = 0 → s.dev.openCount.toInt = s.holders.length) := by
  have hs := run_exclusive h
  have hfew := hs.few
  have hone := hs.single
  unfold inFlight at hfew ⊢
  have hc : s.dev.openCount.toInt = (s.holders.length+s.backing.length:ℕ) := by
    rw [hs.counts]
    exact ofNat_toInt (by omega)
  refine ⟨hone,?_,fun h0 => ?_⟩
  · rw [hc]
    push_cast
    rfl
  · rw [hc]
    omega

theorem open_exclusive_three : ∃ s, Run ((opening .bits64 ℕ).restrict (FewCalls (2^31-1)))
      (closed .bits64 ℕ 0)
      [.start 1,.start 2,.increment 1,.increment 0,.release 1,.start 3,.increment 0] s ∧
    s.holders.length ≤ 1 ∧ s.dev.openCount.toInt = s.holders.length+s.backing.length ∧
      (inFlight s = 0 → s.dev.openCount.toInt = s.holders.length) := by
  have h : ∃ s, Run ((opening .bits64 ℕ).restrict (FewCalls (2^31-1))) (closed .bits64 ℕ 0)
      [.start 1,.start 2,.increment 1,.increment 0,.release 1,.start 3,.increment 0] s :=
    ⟨_,run_iff_exec.mpr rfl⟩
  obtain ⟨s,hs⟩ := h
  exact ⟨s,hs,open_exclusive hs⟩

/-- One call up to its increment, with no other that has begun. -/
theorem start_increment {s : OpenState t P} {n : ℕ} (hb : s.begun = []) (hf : inFlight s+1 < n)
    (p : P) :
    ∃ u, Run ((opening t P).restrict (FewCalls n)) s [.start p,.increment 0] u ∧
      u.begun = [] ∧ u.dev = (openIncrement s.dev).1 ∧
      ((openIncrement s.dev).2 = true → u.holders = s.holders ∧
        u.backing.length = s.backing.length+1) ∧
      ((openIncrement s.dev).2 = false → u.holders = p::s.holders ∧
        u.backing.length = s.backing.length) := by
  obtain ⟨dev,holders,begun,backing⟩ := s
  obtain rfl : begun = [] := hb
  let s₁ : OpenState t P := OpenState.observe ⟨dev,holders,[⟨p,[]⟩],backing⟩
  have h1 : (opening t P).step ⟨dev,holders,[],backing⟩ (.start p) = some s₁ := rfl
  have h2 : (opening t P).step s₁ (.increment 0) =
      some (if (openIncrement dev).2 then s₁.refuse 0 ⟨p,holders++[]⟩
        else s₁.grant 0 ⟨p,holders++[]⟩).observe := rfl
  refine ⟨_,.cons ⟨trivial,hf⟩ h1 (.cons ⟨Nat.zero_lt_one,trivial⟩ h2 (.nil _)),?_⟩
  cases hbusy : (openIncrement dev).2 with
  | true => simp [OpenState.refuse,OpenState.observe,s₁]
  | false => simp [OpenState.grant,OpenState.observe,s₁]

theorem run_counts {s u : OpenState t P} {ls : List (OpenStep P)}
    {C : OpenState t P → OpenStep P → Prop} (h : Run ((opening t P).restrict C) s ls u)
    (hs : Counts s) : Counts u :=
  h.restrict_invariant (fun _ _ _ hs he _ hu => step_counts hs he hu) hs

theorem opens_refused {n : ℕ} (hn : n+1 < 2^31) :
    ∃ ls s, Run ((opening .bits64 ℕ).restrict (FewCalls (2^31))) (closed .bits64 ℕ 0) ls s ∧
      s.holders = [0] ∧ s.begun = [] ∧ s.backing.length = n := by
  induction n with
  | zero =>
    obtain ⟨u,hu,hb,-,-,hg⟩ := start_increment (s := closed .bits64 ℕ 0) (n := 2^31) rfl
      (by decide) 0
    obtain ⟨hh,hk⟩ := hg rfl
    exact ⟨_,u,hu,hh,hb,hk⟩
  | succ n ih =>
    obtain ⟨ls,s,hs,hh,hb,hk⟩ := ih (by omega)
    have hf : inFlight s+1 < 2^31 := by
      simp only [inFlight,hb,hk,List.length_nil]
      omega
    obtain ⟨u,hu,hub,-,hr,-⟩ := start_increment hb hf (n+1)
    have hc : s.dev.openCount = BitVec.ofNat 32 (1+n) := by
      have hcounts := run_counts hs rfl
      rw [Counts,hh,hk] at hcounts
      exact hcounts
    have hbusy := (busy_iff hc (by omega)).mpr (by omega)
    obtain ⟨huh,huk⟩ := hr hbusy
    exact ⟨_,u,hs.append hu,by rw [huh,hh],hub,by rw [huk,hk]⟩

/-- The bound is tight: the call number `2^31-1` in flight makes the counter
negative, and a second process gets the device. -/
theorem open_not_exclusive :
    ∃ ls s, Run ((opening .bits64 ℕ).restrict (FewCalls (2^31))) (closed .bits64 ℕ 0) ls s ∧
      s.holders = [2^31-1,0] := by
  obtain ⟨ls,s,hs,hh,hb,hk⟩ := opens_refused (n := 2^31-2) (by decide)
  have hf : inFlight s+1 < 2^31 := by
    simp only [inFlight,hb,hk,List.length_nil]
    decide
  obtain ⟨u,hu,-,-,-,hg⟩ := start_increment hb hf (2^31-1)
  have hfree : (openIncrement s.dev).2 = false := by
    have hc : s.dev.openCount = BitVec.ofNat 32 (2^31-1) := by
      have hcounts := run_counts hs rfl
      rw [Counts,hh,hk] at hcounts
      exact hcounts
    simp only [openIncrement,hc]
    decide
  exact ⟨_,u,hs.append hu,by rw [(hg hfree).1,hh]⟩

end CtrlxtKernel.QuantumDevice
