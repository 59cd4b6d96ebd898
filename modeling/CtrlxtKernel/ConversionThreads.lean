import CtrlxtKernel.KernelLocksRuns
import CtrlxtKernel.NestedLocks
import CtrlxtKernel.QuantumClassicalRuns

/-!
# Threads in the interface

Any number of threads convert data, apply controlled operations and read the
statistics, each running its code call by call. The code is the code with locks.
The lock of the corrector is taken under that of the interface only, so it is a
flag; the two counters are read without a lock.
-/

set_option autoImplicit false

namespace CtrlxtKernel.ConversionThreads
open MachineInt StepMachine LockDiscipline LockReduction QuantumClassical
open KernelLocks (KernelOp KernelCode LockName answerQc convertBytes measureBytes)

variable {t : Target} {W : Type*} {H : Type*}

inductive StatsRead where
  | conversionCount
  | measurementCount

abbrev StatsRead.Answer : StatsRead → Type
  | .conversionCount | .measurementCount => CInt

def readStats (s : QcState t W) : (x : StatsRead) → Option (QcState t W × x.Answer)
  | .conversionCount => some (s,s.qc.conversionCount)
  | .measurementCount => some (s,s.qc.measurementCount)

abbrev QcOp (t : Target) : Type := NestedOp LockName (KernelOp t) StatsRead

abbrev QcOp.Answer : QcOp t → Type := NestedOp.Answer KernelOp.Answer StatsRead.Answer

structure QuantumClassicalStats where
  conversionCount : CInt
  measurementCount : CInt

/-- The statistics are stored for the caller, unless the pointer is NULL. -/
inductive QcAnswer where
  | status (ret : ℤ)
  | stats (stats : Option QuantumClassicalStats)

/-- Of the pointer to the statistics it is only said whether it is there. -/
inductive ConversionCall (t : Target) where
  | classicalToQuantum (data : Option (ℕ → UInt8)) (size : ULong t)
  | quantumToClassical (data : Option (ULong t)) (size : ULong t)
  | controlledOperation (gate qubit : CInt) (controlData : Bool)
  | getStats (stats : Bool)

abbrev QcCode (t : Target) : Type := Code LockName (QcOp t) QcOp.Answer QcAnswer

def withStatus (p : KernelCode t ℤ) : QcCode t :=
  nest .qcInterface (p.bind fun ret => .ret (.status ret))

section Code

variable (L : QuantumLayer t W)

def ConversionCall.code : ConversionCall t → QcCode t
  | .classicalToQuantum data size => withStatus (KernelLocks.ctrlxtQcClassicalToQuantum L data size)
  | .quantumToClassical data size => withStatus (KernelLocks.ctrlxtQcQuantumToClassical data size)
  | .controlledOperation gate qubit controlData =>
    withStatus (KernelLocks.ctrlxtQcControlledOperation L gate qubit controlData)
  | .getStats stats =>
    if stats = false then .ret (.stats none)
    else
      .call (.other .conversionCount) fun conversionCount =>
        .call (.other .measurementCount) fun measurementCount =>
          .ret (.stats (some ⟨conversionCount,measurementCount⟩))

def toQuantumSection (bytes : ℕ → UInt8) (size : ULong t) : KernelCode t ℤ := do
  KernelLocks.call (.memcpy bytes size)
  convertBytes L (List.range size.toNat)

def toClassicalSection (data size : ULong t) : KernelCode t ℤ :=
  measureBytes data (List.range size.toNat)

def controlledSection (gate qubit : CInt) : KernelCode t ℤ := do
  let ret : ℤ ← KernelLocks.call
    (.gateApply ⟨gate,← KernelLocks.call .quantumState,qubit.toInt,.null,0⟩)
  if ret < 0 then
    unlock .qcInterface
    return ret
  else
    let ret : ℤ ← KernelLocks.ctrlxtQecApply L (← KernelLocks.call .quantumState)
    if ret < 0 then
      unlock .qcInterface
      return ret
    else
      unlock .qcInterface
      return 0

inductive SectionOf (bufferSize : ULong t) : ConversionCall t → KernelCode t ℤ → Prop
  | classicalToQuantum (bytes : ℕ → UInt8) {size : ULong t} (h : ¬size > bufferSize) :
      SectionOf bufferSize (.classicalToQuantum (some bytes) size) (toQuantumSection L bytes size)
  | quantumToClassical (data : ULong t) {size : ULong t} (h : ¬size > bufferSize) :
      SectionOf bufferSize (.quantumToClassical (some data) size) (toClassicalSection data size)
  | controlledOperation (gate qubit : CInt) :
      SectionOf bufferSize (.controlledOperation gate qubit true) (controlledSection L gate qubit)

def ConversionCall.whole (s : QcState t W) : ConversionCall t → Option (QcState t W × ℤ)
  | .classicalToQuantum data size => ctrlxtQcClassicalToQuantum L s data size
  | .quantumToClassical data size => ctrlxtQcQuantumToClassical L s data size
  | .controlledOperation gate qubit controlData =>
    ctrlxtQcControlledOperation L s gate qubit controlData
  | .getStats _ => none

end Code

theorem toQuantum_code (L : QuantumLayer t W) (bytes : ℕ → UInt8) (size : ULong t) :
    KernelLocks.ctrlxtQcClassicalToQuantum L (some bytes) size =
      .call .bufferSize fun bufferSize =>
        if size > bufferSize then .ret (-einval)
        else .acquire .qcInterface (toQuantumSection L bytes size) := rfl

theorem toClassical_code (data size : ULong t) :
    KernelLocks.ctrlxtQcQuantumToClassical (some data) size =
      .call .bufferSize fun bufferSize =>
        if size > bufferSize then .ret (-einval)
        else .acquire .qcInterface (toClassicalSection data size) := rfl

theorem section_run (L : QuantumLayer t W) {s : QcState t W} {c : ConversionCall t}
    {p : KernelCode t ℤ} (h : SectionOf L s.qc.bufferSize c p) :
    run (answerQc L) p s = c.whole L s := by
  have hread : answerQc L s .bufferSize = some (s,s.qc.bufferSize) := rfl
  cases h with
  | @classicalToQuantum bytes size h =>
    have hrun := KernelLocks.classicalToQuantum_run L s (some bytes) size
    rw [toQuantum_code,run,hread,Option.bind_some,if_neg h] at hrun
    exact hrun
  | @quantumToClassical data size h =>
    have hrun := KernelLocks.quantumToClassical_run L s (some data) size
    rw [toClassical_code,run,hread,Option.bind_some,if_neg h] at hrun
    exact hrun
  | controlledOperation gate qubit => exact KernelLocks.controlledOperation_run L s gate qubit true

def Counts : KernelOp t → Prop
  | .incConversionCount | .incMeasurementCount => True
  | _ => False

theorem convertBytes_section (L : QuantumLayer t W) (is : List ℕ) :
    IsSection .qcInterface Counts [] (convertBytes L is) := by
  induction is with
  | nil => exact ⟨fun _ => ⟨rfl,fun _ => ⟨0,rfl⟩⟩,fun _ => section_unlock 0⟩
  | cons i is ih =>
    refine section_ask id fun byte => section_ask id fun state => section_ask id fun ret => ?_
    split_ifs
    · exact section_unlock ret
    · refine section_ask id fun state => section_ask id fun ret => ?_
      split_ifs
      · exact section_unlock ret
      · exact ih
    · exact ih

theorem measureBytes_section (data : ULong t) (is : List ℕ) :
    IsSection .qcInterface Counts [] (measureBytes data is) := by
  induction is with
  | nil => exact ⟨fun _ => ⟨rfl,fun _ => ⟨0,rfl⟩⟩,fun _ => section_unlock 0⟩
  | cons i is ih =>
    refine section_ask id fun state => section_ask id fun ret => ?_
    split_ifs
    · exact section_unlock ret
    · exact ih

theorem qecApply_within (L : QuantumLayer t W) (state : Ptr) {Q : ℤ → List LockName → Prop}
    (hQ : ∀ ret, Q ret []) :
    Within .qcInterface Counts (KernelLocks.ctrlxtQecApply L state) Q [] := by
  have hmeasure : ∀ {Q : ℤ → List LockName → Prop} {held : List LockName}, (∀ ret, Q ret held) →
      Within .qcInterface Counts (KernelLocks.measureSyndrome L state) Q held := by
    intro Q held hQ
    simp only [KernelLocks.measureSyndrome,within_bind,within_ite,within_pure,within_ask,Counts,hQ,
      not_false_eq_true,implies_true,and_self]
  have hcorrect : ∀ {Q : ℤ → List LockName → Prop} {held : List LockName}, (∀ ret, Q ret held) →
      Within .qcInterface Counts (KernelLocks.applyCorrection L state) Q held := by
    intro Q held hQ
    simp only [KernelLocks.applyCorrection,within_bind,within_ask,Counts,not_false_eq_true,true_and]
    intro p v
    split
    · exact hQ 0
    · exact ⟨id,hQ⟩
  simp only [KernelLocks.ctrlxtQecApply,within_bind,within_ite,within_lock]
  refine ⟨fun _ => hQ _,fun _ => ⟨nofun,List.not_mem_nil,?_⟩⟩
  apply hmeasure
  intro ret
  have hgiven : ∀ ret : ℤ, Within .qcInterface Counts
      (do unlock .qec; pure ret : KernelCode t ℤ) Q [.qec] := fun ret => ⟨nofun,by simp,hQ ret⟩
  split_ifs
  · exact hgiven ret
  · rw [within_bind]
    apply hcorrect
    intro ret
    split_ifs
    · exact hgiven ret
    · exact ⟨id,fun _ => hgiven 0⟩

theorem controlled_section (L : QuantumLayer t W) (gate qubit : CInt) :
    IsSection .qcInterface Counts [] (controlledSection L gate qubit) := by
  refine section_ask id fun state => section_ask id fun ret => ?_
  split_ifs
  · exact section_unlock ret
  · refine section_ask id fun state => section_bind (qecApply_within L state fun ret => ?_)
    split_ifs
    · exact section_unlock ret
    · exact section_unlock 0

theorem section_is {L : QuantumLayer t W} {n : ULong t} {c : ConversionCall t}
    {p : KernelCode t ℤ} (h : SectionOf L n c p) : IsSection .qcInterface Counts [] p := by
  cases h with
  | classicalToQuantum bytes h =>
    exact section_ask id fun _ => convertBytes_section L _
  | quantumToClassical data h => exact measureBytes_section data _
  | controlledOperation gate qubit => exact controlled_section L gate qubit

theorem answerQc_qc {L : QuantumLayer t W} {s u : QcState t W} {op : KernelOp t} {x : op.Answer}
    (hop : ¬Counts op) (h : answerQc L s op = some (u,x)) : u.qc = s.qc := by
  cases op with
  | incConversionCount | incMeasurementCount => exact absurd trivial hop
  | memcpy bytes size =>
    obtain ⟨v,hv,he⟩ := Option.map_eq_some_iff.mp h
    cases he
    unfold QcState.fill at hv
    split_ifs at hv
    · cases hv
      rfl
    · split at hv
      · obtain ⟨old,-,hv⟩ := Option.bind_eq_some_iff.mp hv
        obtain ⟨buffers,-,rfl⟩ := Option.map_eq_some_iff.mp hv
        rfl
      · cases hv
  | quantumState =>
    simp only [answerQc] at h
    split_ifs at h
    cases h
    rfl
  | _ => first | cases h; rfl | cases h

theorem answerQc_bufferSize {L : QuantumLayer t W} {s u : QcState t W} {op : KernelOp t}
    {x : op.Answer} (h : answerQc L s op = some (u,x)) : u.qc.bufferSize = s.qc.bufferSize := by
  by_cases hop : Counts op
  · cases op with
    | incConversionCount | incMeasurementCount =>
      cases h
      rfl
    | _ => exact hop.elim
  · rw [answerQc_qc hop h]

abbrev handle (L : QuantumLayer t W) : Handler (NestedState (QcState t W) LockName) Unit H
    (QcOp.Answer : QcOp t → Type) := nestHandle (answerQc L) readStats

def qcInterface (L : QuantumLayer t W) : Interface (NestedState (QcState t W) LockName) H
    (ConversionCall t) LockName (QcOp t) QcOp.Answer QcAnswer where
  body c := c.code L
  may _ _ _ := True
  fits _ _ _ := True

def Outer : QcOp t → Prop
  | .code .bufferSize | .other _ => True
  | _ => False

theorem outer_same {L : QuantumLayer t W} {i : H} {s u : NestedState (QcState t W) LockName}
    {op : QcOp t} (ho : Outer op) (hs : u.shared.qc = s.shared.qc) :
    ∃ y, handle L i () s op = some (s,y) ∧ handle L i () u op = some (u,y) := by
  cases op with
  | take m | give m => exact ho.elim
  | other x =>
    cases x with
    | conversionCount => exact ⟨s.shared.qc.conversionCount,rfl,by rw [← hs]; rfl⟩
    | measurementCount => exact ⟨s.shared.qc.measurementCount,rfl,by rw [← hs]; rfl⟩
  | code op =>
    cases op with
    | bufferSize => exact ⟨s.shared.qc.bufferSize,rfl,by rw [← hs]; rfl⟩
    | _ => exact ho.elim

theorem silent_qc {L : QuantumLayer t W} {i : H} {s u : NestedState (QcState t W) LockName}
    {op : QcOp t} {x : QcOp.Answer op} (hq : Silent Counts op x)
    (h : handle L i () s op = some (u,x)) : u.shared.qc = s.shared.qc := by
  cases op with
  | other x => exact hq.elim
  | take m | give m =>
    simp only [nestHandle] at h
    split_ifs at h
    cases h
    rfl
  | code op =>
    obtain ⟨⟨v,y⟩,hv,he⟩ := Option.map_eq_some_iff.mp h
    cases he
    exact answerQc_qc hq hv

theorem qc_commuting (L : QuantumLayer t W) : Commuting (qcInterface L : Interface _ H _ _ _ _ _)
    (handle L) Outer (Silent Counts) where
  swap := by
    intro i j e e' s u v op op' x y _ hq ho hu hv
    obtain ⟨y',hs,hu'⟩ := outer_same (L := L) (i := j) ho (silent_qc hq hu)
    cases hs.symm.trans hv
    exact ⟨u,hu',hu⟩
  back := by
    intro i j e e' s u w op op' x y _ hq ho hu _
    obtain ⟨y',hs,-⟩ := outer_same (L := L) (i := j) ho (silent_qc hq hu)
    exact ⟨_,hs⟩
  may_iff _ _ _ := Iff.rfl
  fits_iff _ _ _ := Iff.rfl

inductive Ready (L : QuantumLayer t W) (bufferSize : ULong t) : QcCode t → Prop
  | ret (a : QcAnswer) : Ready L bufferSize (.ret a)
  | size {next : ULong t → QcCode t} (h : Ready L bufferSize (next bufferSize)) :
      Ready L bufferSize (.call (.code .bufferSize) next)
  | other {x : StatsRead} {next : x.Answer → QcCode t} (h : ∀ y, Ready L bufferSize (next y)) :
      Ready L bufferSize (.call (.other x) next)
  | locked {c : ConversionCall t} {p : KernelCode t ℤ} (h : SectionOf L bufferSize c p) :
      Ready L bufferSize (.acquire .qcInterface (withStatus p))

theorem ready_code (L : QuantumLayer t W) (n : ULong t) (c : ConversionCall t) :
    Ready L n (c.code L) := by
  cases c with
  | classicalToQuantum data size =>
    cases data with
    | none => exact .ret _
    | some bytes =>
      refine .size ?_
      show Ready L n (withStatus (if size > n then .ret (-einval)
        else .acquire .qcInterface (toQuantumSection L bytes size)))
      split_ifs with h
      · exact .ret _
      · exact .locked (.classicalToQuantum bytes h)
  | quantumToClassical data size =>
    cases data with
    | none => exact .ret _
    | some data =>
      refine .size ?_
      show Ready L n (withStatus (if size > n then .ret (-einval)
        else .acquire .qcInterface (toClassicalSection data size)))
      split_ifs with h
      · exact .ret _
      · exact .locked (.quantumToClassical data h)
  | controlledOperation gate qubit controlData =>
    cases controlData with
    | false => exact .ret _
    | true => exact .locked (.controlledOperation gate qubit)
  | getStats stats =>
    cases stats with
    | false => exact .ret _
    | true => exact .other fun _ => .other fun _ => .ret _

/-- What a section does in the model of the interface, and what is left of its code. -/
def SectionDone (L : QuantumLayer t W) (s : NestedState (QcState t W) LockName) (p q : QcCode t)
    (v : NestedState (QcState t W) LockName) : Prop :=
  ∃ c body ret, SectionOf L s.shared.qc.bufferSize c body ∧ p = withStatus body ∧
    c.whole L s.shared = some (v.shared,ret) ∧ v.held = [] ∧ q = .ret (.status ret)

theorem section_live {L : QuantumLayer t W} {s : QcState t W} (hs : Live s) {c : ConversionCall t}
    {p : KernelCode t ℤ} (h : SectionOf L s.qc.bufferSize c p) :
    ∃ v ret, run (answerQc L) p s = some (v,ret) ∧ Live v := by
  rw [section_run L h]
  cases h with
  | classicalToQuantum bytes h =>
    obtain ⟨⟨v,ret⟩,hr,hlive⟩ := toQuantum_live hs L (some bytes) _
    exact ⟨v,ret,hr,hlive⟩
  | quantumToClassical data h =>
    obtain ⟨⟨v,ret⟩,hr,hlive⟩ := toClassical_live hs L (some data) _
    exact ⟨v,ret,hr,hlive⟩
  | controlledOperation gate qubit =>
    obtain ⟨⟨v,ret⟩,hr,hlive⟩ := controlled_live hs L gate qubit true
    exact ⟨v,ret,hr,hlive⟩

theorem ready_reducing {L : QuantumLayer t W} {s : NestedState (QcState t W) LockName}
    (hs : Live s.shared) (hheld : s.held = []) {i : H} {m : LockName} {p : QcCode t}
    (hp : Ready L s.shared.qc.bufferSize (.acquire m p)) : m = .qcInterface ∧
      Reduces (handle L i) .qcInterface (Silent Counts) (fun _ => False)
        (fun q v => SectionDone L s p q v ∧ Live v.shared ∧
          v.shared.qc.bufferSize = s.shared.qc.bufferSize) p s := by
  obtain ⟨s,held⟩ := s
  dsimp only at hs hheld hp
  subst hheld
  cases hp with
  | @locked c body h =>
    refine ⟨rfl,?_⟩
    obtain ⟨v,ret,hrun,hlive⟩ := section_live hs h
    have hwhole := (section_run L h).symm.trans hrun
    have hsize : v.qc.bufferSize = s.qc.bufferSize :=
      run_keeps (R := fun u => u.qc.bufferSize = s.qc.bufferSize)
        (fun _ _ _ _ hstep hu => (answerQc_bufferSize hstep).trans hu) hrun rfl
    have hmapped : run (answerQc L) (body.bind fun ret => .ret (QcAnswer.status ret)) s =
        some (v,QcAnswer.status ret) := by
      have hbind := run_bind (answerQc L) body (fun ret => .ret (QcAnswer.status ret)) s
      rw [hrun] at hbind
      exact hbind
    refine (section_reduces ((section_is h).map QcAnswer.status) hmapped i).mono ?_
    rintro q u ⟨rfl,rfl⟩
    exact ⟨⟨c,body,ret,h,rfl,hwhole,rfl,rfl⟩,hlive,hsize⟩

section Runs

variable [DecidableEq H]

abbrev QcThreads (t : Target) (W H : Type*) :=
  Threads (NestedState (QcState t W) LockName) H LockName (QcOp t) QcOp.Answer QcAnswer

abbrev QcAtomic (t : Target) (W H : Type*) :=
  AtomicThreads (NestedState (QcState t W) LockName) H LockName (QcOp t) QcOp.Answer QcAnswer

structure ThreadsRight (L : QuantumLayer t W) (a : QcAtomic t W H) : Prop where
  live : Live a.shared.shared
  held : a.shared.held = []
  ready : ∀ i p, a.code i = some p → Ready L a.shared.shared.qc.bufferSize p

theorem ThreadsRight.set {L : QuantumLayer t W} {a : QcAtomic t W H} (ha : ThreadsRight L a) {i : H}
    {v : NestedState (QcState t W) LockName} {p : Option (QcCode t)} (hlive : Live v.shared)
    (hheld : v.held = []) (hsize : v.shared.qc.bufferSize = a.shared.shared.qc.bufferSize)
    (hp : ∀ c, p = some c → Ready L v.shared.qc.bufferSize c) : ThreadsRight L (a.set i v p) := by
  refine ⟨hlive,hheld,fun j c hc => ?_⟩
  rw [atomic_set_code] at hc
  split_ifs at hc
  · exact hp c hc
  · show Ready L v.shared.qc.bufferSize c
    rw [hsize]
    exact ha.ready j c hc

theorem ready_go {L : QuantumLayer t W} {a : QcAtomic t W H} (ha : ThreadsRight L a) {i : H}
    {op : QcOp t} {next : QcOp.Answer op → QcCode t} (hi : a.code i = some (.call op next)) :
    Outer op ∧ ∃ x, handle L i () a.shared op = some (a.shared,x) ∧
      ThreadsRight L (a.set i a.shared (some (next x))) := by
  have hset : ∀ {p : QcCode t}, Ready L a.shared.shared.qc.bufferSize p →
      ThreadsRight L (a.set i a.shared (some p)) := by
    intro p hp
    refine ha.set ha.live ha.held rfl ?_
    rintro c ⟨⟩
    exact hp
  have hready := ha.ready i _ hi
  cases hready with
  | size h => exact ⟨trivial,_,rfl,hset h⟩
  | @other x _ h =>
    cases x with
    | conversionCount | measurementCount => exact ⟨trivial,_,rfl,hset (h _)⟩

theorem qc_atomic (L : QuantumLayer t W) :
    Atomic .qcInterface (qcInterface L : Interface _ H _ _ _ _ _) (handle L) Outer
      (fun _ => False) (Silent Counts) (ThreadsRight L) where
  settles _ _ _ _ hop := hop.elim
  start ha _ _ := by
    refine ha.set ha.live ha.held rfl ?_
    rintro c ⟨⟩
    exact ready_code L _ _
  go ha hi _ := by
    obtain ⟨ho,x,hx,hset⟩ := ready_go ha hi
    exact ⟨ho,fun _ => ⟨_,x,hx,hset⟩⟩
  locked ha hi := by
    obtain ⟨hm,hp⟩ := ready_reducing ha.live ha.held (ha.ready _ _ hi)
    refine ⟨hm,hp.mono ?_⟩
    rintro q v ⟨⟨c,body,ret,-,-,-,hheld,rfl⟩,hlive,hsize⟩
    refine ha.set hlive hheld hsize ?_
    rintro c ⟨⟩
    exact .ret _
  release ha hi := by
    have hready := ha.ready _ _ hi
    cases hready
  finish ha _ := ha.set ha.live ha.held rfl nofun

abbrev qcThreads (L : QuantumLayer t W) (H : Type*) [DecidableEq H] :
    Machine (QcThreads t W H) (ThreadStep Unit H (ConversionCall t)) :=
  threads .qcInterface (qcInterface L) (handle L)

abbrev qcAtomic (L : QuantumLayer t W) (H : Type*) [DecidableEq H] :
    Machine (QcAtomic t W H) (AtomicStep Unit H (ConversionCall t)) :=
  atomicThreads (qcInterface L) (handle L)

/-- Threads that run the code of an initialised interface call by call do what they do
when every section is one step, which is the whole conversion or controlled operation of
the model: the gates and measurements of one call are never mixed with those of another.
No call touches what is not live or finds the lock of the corrector taken, and whoever
has the lock gives it back. -/
theorem conversions_atomic (L : QuantumLayer t W) {s : QcState t W} (hs : Live s)
    {ls : List (ThreadStep Unit H (ConversionCall t))} {u : QcThreads t W H}
    (h : Run (qcThreads L H) (resting ⟨s,[]⟩) ls u) :
    (∃ ks a, Run (qcAtomic L H) (restingAtomic ⟨s,[]⟩) ks a ∧
      Always (qcAtomic L H) (SectionIs .qcInterface (handle L) fun s _ => SectionDone L s)
        (restingAtomic ⟨s,[]⟩) ks ∧
      trace (qcAtomic L H) shown (restingAtomic ⟨s,[]⟩) ks =
        trace (qcThreads L H) seen (resting ⟨s,[]⟩) ls ∧
      (u.owner = none → u.shared = a.shared ∧ u.code = a.code)) ∧
    (∀ x, (qcThreads L H).enabled u x → ∃ v, (qcThreads L H).step u x = some v) ∧
    ∀ i, u.owner = some i → ∃ n v,
      Run (qcThreads L H) u (List.replicate n (.go i ())) v ∧ v.owner = none := by
  have hresting : ThreadsRight L (restingAtomic ⟨s,[]⟩ : QcAtomic t W H) := ⟨hs,rfl,nofun⟩
  obtain ⟨ks,a,-,hrel,-⟩ := run_matched (qc_commuting L) (qc_atomic L) hresting h
  refine ⟨?_,fun x he => step_result (qc_commuting L) (qc_atomic L) hrel he,fun i howner => ?_⟩
  · refine run_atomic (qc_commuting L) (qc_atomic L) (fun ha hi => ?_) hresting h
    obtain ⟨rfl,hp⟩ := ready_reducing ha.live ha.held (ha.ready _ _ hi)
    exact hp.mono fun _ _ hv => hv.1
  · have hreleased := hrel.released (P := fun _ => True) (qc_atomic L) (fun _ _ _ _ => trivial)
      (fun _ _ => trivial) (fun ha hi => ?_) howner fun _ => ()
    · obtain ⟨n,v,hv,hfree⟩ := hreleased
      rw [List.map_const',List.length_range] at hv
      exact ⟨n,v,hv,hfree⟩
    · have hready := ha.ready _ _ hi
      cases hready with
      | locked h => exact inner_nest (fun _ => trivial) _

instance (L : QuantumLayer t W) (s : NestedState (QcState t W) LockName) (i : H)
    (c : ConversionCall t) : Decidable ((qcInterface L : Interface _ H _ _ _ _ _).may s i c) :=
  .isTrue trivial

instance (L : QuantumLayer t W) (s : NestedState (QcState t W) LockName) (i : H) (op : QcOp t) :
    Decidable ((qcInterface L : Interface _ H _ _ _ _ _).fits s i op) := .isTrue trivial

def initialized : QcState .bits64 Unit where
  qc := ⟨.obj 0,.obj 0,1024,0,0⟩
  buffers := ObjectHeap.Heap.empty.alloc fun _ => 0
  qec := ⟨⟨.null,.null,0,0⟩,ObjectHeap.Heap.empty.alloc qcQubits,()⟩

/-- One thread converts two bytes while the other reads the first counter, waits for the
lock with a controlled operation, and has it for five calls. -/
def mixed : List (ThreadStep Unit Bool (ConversionCall .bits64)) :=
  let first := .go true ()
  let second := .go false ()
  [.start true (.classicalToQuantum (some fun _ => 1) 2),first,first,first,
    .start false (.getStats true),second,first,first,first,first,first,first,first,first,first,
    second,.finish false,.start false (.controlledOperation 5 2 true),first,first,first,
    second,.finish true,second,second,second,second,second]

theorem conversions_atomic_mixed :
    ∃ u : QcThreads .bits64 Unit Bool,
      Run (qcThreads (idle .bits64) Bool) (resting ⟨initialized,[]⟩) mixed u ∧
      u.owner = some false ∧ u.shared.shared.qc.conversionCount = 1 ∧
      ∃ n v, Run (qcThreads (idle .bits64) Bool) u (List.replicate n (.go false ())) v ∧
        v.owner = none := by
  have h : ∃ u, Run (qcThreads (idle .bits64) Bool) (resting ⟨initialized,[]⟩) mixed u ∧
      u.owner = some false ∧ u.shared.shared.qc.conversionCount = 1 :=
    ⟨_,run_iff_exec.mpr rfl,rfl,rfl⟩
  obtain ⟨u,hu,howner,hcount⟩ := h
  exact ⟨u,hu,howner,hcount,(conversions_atomic (idle .bits64) ⟨rfl,rfl⟩ hu).2.2 false howner⟩

end Runs

end CtrlxtKernel.ConversionThreads
