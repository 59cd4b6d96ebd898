import CtrlxtKernel.Performance
import CtrlxtKernel.StepMachine

/-!
# Sampling sessions

A start and a stop each test `sampling_active` and store afterwards, with no lock
in between. Called one after the other they open and close sessions, in which
the duration can be asked for; the clock never goes back. Called at the same
time, two of them may both pass the test before either stores.
-/

set_option autoImplicit false

namespace CtrlxtKernel.Performance
open MachineInt StepMachine

variable {t : Target} {H : Type*}

def startStore (ctx : PerfFields t) (now : Ktime) : PerfFields t :=
  { ctx with samplingActive := true, samplingStart := now }

def stopStore (ctx : PerfFields t) (now : Ktime) : PerfFields t :=
  { ctx with samplingActive := false, samplingEnd := now }

/-- Arguments are NULL or what the pointer points to. -/
def quantumPerfStartSampling (ctx : Option (PerfFields t)) (now : Ktime) :
    Option (PerfFields t) × ℤ :=
  match ctx with
  | none => (none,-einval)
  | some ctx => if ctx.samplingActive then (some ctx,-ebusy) else (some (startStore ctx now),0)

def quantumPerfStopSampling (ctx : Option (PerfFields t)) (now : Ktime) :
    Option (PerfFields t) × ℤ :=
  match ctx with
  | none => (none,-einval)
  | some ctx => if ¬ctx.samplingActive then (some ctx,-einval) else (some (stopStore ctx now),0)

def quantumPerfGetSamplingDuration (ctx : Option (PerfFields t)) (duration : Option Ktime)
    (now : Ktime) : Option Ktime × ℤ :=
  match ctx, duration with
  | some ctx, some old =>
    if ¬ctx.samplingActive then (some old,-einval) else (some (now-ctx.samplingStart),0)
  | _, _ => (duration,-einval)

inductive SamplingCall where
  | start
  | stop
  deriving DecidableEq

/-- A caller that has passed its test and has yet to store is pending. The calls
that have stored are remembered, the latest first. -/
structure SamplingSystem (t : Target) (H : Type*) where
  ctx : PerfFields t
  pending : H → Option SamplingCall
  stores : List SamplingCall

inductive SamplingStep (H : Type*) where
  | test (h : H) (call : SamplingCall)
  | store (h : H) (now : Ktime)

def samplingStart (samplingRate : ULong t) : SamplingSystem t H :=
  ⟨perfFields samplingRate,fun _ => none,[]⟩

def testPasses (ctx : PerfFields t) : SamplingCall → Bool
  | .start => !ctx.samplingActive
  | .stop => ctx.samplingActive

def storeCall (ctx : PerfFields t) (now : Ktime) : SamplingCall → PerfFields t
  | .start => startStore ctx now
  | .stop => stopStore ctx now

theorem startSampling_eq (ctx : PerfFields t) (now : Ktime) :
    quantumPerfStartSampling (some ctx) now =
      if testPasses ctx .start then (some (storeCall ctx now .start),0) else (some ctx,-ebusy) := by
  cases h : ctx.samplingActive <;> simp [quantumPerfStartSampling,testPasses,storeCall,h]

theorem stopSampling_eq (ctx : PerfFields t) (now : Ktime) :
    quantumPerfStopSampling (some ctx) now =
      if testPasses ctx .stop then (some (storeCall ctx now .stop),0) else (some ctx,-einval) := by
  cases h : ctx.samplingActive <;> simp [quantumPerfStopSampling,testPasses,storeCall,h]

variable [DecidableEq H]

def SamplingSystem.test (s : SamplingSystem t H) (h : H) (call : SamplingCall) :
    SamplingSystem t H :=
  if testPasses s.ctx call then { s with pending := Function.update s.pending h call } else s

def SamplingSystem.store (s : SamplingSystem t H) (h : H) (now : Ktime) :
    Option (SamplingSystem t H) :=
  (s.pending h).map fun call =>
    ⟨storeCall s.ctx now call,Function.update s.pending h none,call::s.stores⟩

def sampling : Machine (SamplingSystem t H) (SamplingStep H) where
  enabled s
    | .test h _ => s.pending h = none
    | .store h _ => (s.pending h).isSome = true
  step s
    | .test h call => some (s.test h call)
    | .store h now => s.store h now

instance (s : SamplingSystem t H) : (l : SamplingStep H) → Decidable (sampling.enabled s l)
  | .test h _ => inferInstanceAs (Decidable (s.pending h = none))
  | .store h _ => inferInstanceAs (Decidable ((s.pending h).isSome = true))

/-- The latest first: each call follows one of the other kind, and the earliest is
a start. -/
def Alternating : List SamplingCall → Prop
  | [] => True
  | call::calls => call ≠ calls.headD .stop ∧ Alternating calls

def StillPasses (s : SamplingSystem t H) : SamplingStep H → Prop
  | .test _ _ => True
  | .store h _ => ∀ call ∈ s.pending h, testPasses s.ctx call = true

instance (s : SamplingSystem t H) : (l : SamplingStep H) → Decidable (StillPasses s l)
  | .test _ _ => inferInstanceAs (Decidable True)
  | .store h _ => inferInstanceAs (Decidable (∀ call ∈ s.pending h, testPasses s.ctx call = true))

def FlagKept (s : SamplingSystem t H) : Prop :=
  s.ctx.samplingActive = decide (s.stores.headD .stop = .start)

omit [DecidableEq H] in
theorem testPasses_iff {s : SamplingSystem t H} (hs : FlagKept s) (call : SamplingCall) :
    testPasses s.ctx call = true ↔ call ≠ s.stores.headD .stop := by
  have hflag : s.ctx.samplingActive = decide (s.stores.headD .stop = .start) := hs
  generalize s.stores.headD .stop = last at hflag ⊢
  cases call <;> cases last <;> simp [testPasses,hflag]

theorem step_alternating {s r : SamplingSystem t H} (hs : FlagKept s) {l : SamplingStep H}
    (hr : sampling.step s l = some r) :
    FlagKept r ∧ (Alternating r.stores ↔ StillPasses s l ∧ Alternating s.stores) := by
  cases l with
  | test h call =>
    cases hr
    have hsame : (s.test h call).ctx = s.ctx ∧ (s.test h call).stores = s.stores := by
      unfold SamplingSystem.test
      split_ifs <;> exact ⟨rfl,rfl⟩
    rw [FlagKept,hsame.1,hsame.2]
    exact ⟨hs,(and_iff_right trivial).symm⟩
  | store h now =>
    obtain ⟨call,hcall,rfl⟩ := Option.map_eq_some_iff.mp hr
    have htest := testPasses_iff hs call
    constructor
    · cases call <;> simp [FlagKept,storeCall,startStore,stopStore]
    · simp only [StillPasses,hcall,Option.mem_def,Option.some.injEq,forall_eq',htest]
      rfl

theorem run_alternating {s r : SamplingSystem t H} {ls : List (SamplingStep H)}
    (h : Run sampling s ls r) (hs : FlagKept s) :
    Alternating r.stores ↔ Alternating s.stores ∧ Always sampling StillPasses s ls := by
  induction h with
  | nil => exact (and_iff_left trivial).symm
  | cons _ hr _ ih =>
    obtain ⟨hkept,hiff⟩ := step_alternating hs hr
    rw [ih hkept,hiff,always_cons hr,and_comm (a := StillPasses _ _),and_assoc]

/-- The calls that return zero alternate, beginning with a start, exactly when
each of them stores while its test would still pass. -/
theorem sessions_alternate_iff {samplingRate : ULong t} {s : SamplingSystem t H}
    {ls : List (SamplingStep H)} (h : Run sampling (samplingStart samplingRate) ls s) :
    Alternating s.stores ↔
      Always sampling StillPasses (samplingStart samplingRate : SamplingSystem t H) ls := by
  rw [run_alternating h rfl]
  exact and_iff_right trivial

theorem sessions_alternate_overlapping :
    ∃ s, Run sampling (samplingStart 100 : SamplingSystem .bits64 ℕ)
        [.test 0 .start,.test 1 .stop,.store 0 5,.test 1 .stop,.test 0 .start,.store 1 6,
          .test 2 .start,.store 2 7] s ∧ Alternating s.stores := by
  have h : ∃ s, Run sampling (samplingStart 100 : SamplingSystem .bits64 ℕ)
      [.test 0 .start,.test 1 .stop,.store 0 5,.test 1 .stop,.test 0 .start,.store 1 6,
        .test 2 .start,.store 2 7] s := ⟨_,run_iff_exec.mpr rfl⟩
  obtain ⟨s,hs⟩ := h
  exact ⟨s,hs,(sessions_alternate_iff hs).mpr (by decide)⟩

/-- Two callers pass the test of a start before either stores: both return zero. -/
theorem sessions_overlap :
    ∃ s, Run sampling (samplingStart 100 : SamplingSystem .bits64 Bool)
        [.test false .start,.test true .start,.store false 5,.store true 6] s ∧
      s.stores = [.start,.start] ∧ ¬Alternating s.stores :=
  ⟨_,run_iff_exec.mpr rfl,rfl,fun h => h.1 rfl⟩

inductive SamplingEvent where
  | started (time : Ktime)
  | stopped (time : Ktime)
  | reported (duration : Ktime)

/-- Calls one after the other. The successful ones are remembered, the latest first. -/
structure SamplingSession (t : Target) where
  ctx : PerfFields t
  clock : Ktime
  log : List SamplingEvent

inductive SessionCall where
  | start
  | stop
  | getDuration (duration : Option Ktime)

structure TimedCall where
  call : SessionCall
  now : Ktime

/-- When the last start that succeeded, if no stop has succeeded since. -/
def openSince : List SamplingEvent → Option Ktime
  | .started time::_ => some time
  | .reported _::log => openSince log
  | _ => none

def reported : List SamplingEvent → List Ktime
  | .reported duration::log => duration::reported log
  | _ => []

def freshSession (samplingRate : ULong t) (clock : Ktime) : SamplingSession t :=
  ⟨perfFields samplingRate,clock,[]⟩

def SamplingSession.answer (s : SamplingSession t) (c : TimedCall) : Option (PerfFields t) × ℤ :=
  match c.call with
  | .start => quantumPerfStartSampling (some s.ctx) c.now
  | .stop => quantumPerfStopSampling (some s.ctx) c.now
  | .getDuration duration =>
    (some s.ctx,(quantumPerfGetSamplingDuration (some s.ctx) duration c.now).2)

def SamplingSession.event (s : SamplingSession t) (c : TimedCall) : List SamplingEvent :=
  match c.call with
  | .start => [.started c.now]
  | .stop => [.stopped c.now]
  | .getDuration duration =>
    ((quantumPerfGetSamplingDuration (some s.ctx) duration c.now).1.map .reported).toList

/-- `ktime_sub` does not overflow. -/
def SubFits (a b : Ktime) : Prop := -2^63 ≤ a.toInt-b.toInt ∧ a.toInt-b.toInt < 2^63

instance (a b : Ktime) : Decidable (SubFits a b) :=
  inferInstanceAs (Decidable (-2^63 ≤ a.toInt-b.toInt ∧ a.toInt-b.toInt < 2^63))

def sessions : Machine (SamplingSession t) TimedCall where
  enabled s c := s.clock.toInt ≤ c.now.toInt ∧
    match c.call with
    | .getDuration _ => s.ctx.samplingActive = true → SubFits c.now s.ctx.samplingStart
    | _ => True
  step s c :=
    let (ctx,ret) := s.answer c
    ctx.map fun ctx => ⟨ctx,c.now,if ret = 0 then s.event c++s.log else s.log⟩

structure TimesRight (s : SamplingSession t) : Prop where
  duration : ∀ old now, sessions.enabled s ⟨.getDuration (some old),now⟩ →
    match openSince s.log with
    | none => quantumPerfGetSamplingDuration (some s.ctx) (some old) now = (some old,-einval)
    | some start => ∃ d, quantumPerfGetSamplingDuration (some s.ctx) (some old) now = (some d,0) ∧
        d.toInt = now.toInt-start.toInt ∧ 0 ≤ d.toInt ∧ ∀ e ∈ reported s.log, e.toInt ≤ d.toInt
  stopped : ∀ time log, s.log = .stopped time::log →
    s.ctx.samplingStart.toInt ≤ s.ctx.samplingEnd.toInt ∧ ∀ e ∈ reported log,
      e.toInt ≤ s.ctx.samplingEnd.toInt-s.ctx.samplingStart.toInt
  refused : ∀ c, (s.answer c).2 ≠ 0 → (s.answer c).1 = some s.ctx

structure Timed (s : SamplingSession t) : Prop where
  flag : s.ctx.samplingActive = (openSince s.log).isSome
  since : ∀ start ∈ openSince s.log, s.ctx.samplingStart = start ∧
    start.toInt ≤ s.clock.toInt ∧ ∀ e ∈ reported s.log, e.toInt ≤ s.clock.toInt-start.toInt
  stopped : ∀ time log, s.log = .stopped time::log →
    s.ctx.samplingStart.toInt ≤ s.ctx.samplingEnd.toInt ∧ ∀ e ∈ reported log,
      e.toInt ≤ s.ctx.samplingEnd.toInt-s.ctx.samplingStart.toInt

theorem ktimeSub_toInt {a b : Ktime} (h : SubFits a b) : (a-b).toInt = a.toInt-b.toInt := by
  obtain ⟨hlo,hhi⟩ := h
  rw [BitVec.toInt_sub]
  apply Int.bmod_eq_of_le <;> omega

theorem fresh_timed (samplingRate : ULong t) (clock : Ktime) :
    Timed (freshSession samplingRate clock) :=
  ⟨rfl,by rintro start ⟨⟩,by rintro time log ⟨⟩⟩

theorem Timed.later {s : SamplingSession t} (hs : Timed s) {now : Ktime}
    (hnow : s.clock.toInt ≤ now.toInt) : Timed { s with clock := now } := by
  refine ⟨hs.flag,?_,hs.stopped⟩
  intro start hstart
  obtain ⟨hctx,hle,hreported⟩ := hs.since start hstart
  refine ⟨hctx,hle.trans hnow,fun e he => ?_⟩
  have hold := hreported e he
  change e.toInt ≤ now.toInt-start.toInt
  omega

theorem duration_succeeds {ctx : PerfFields t} {duration : Option Ktime} {now : Ktime}
    (h : (quantumPerfGetSamplingDuration (some ctx) duration now).2 = 0) :
    ∃ old, duration = some old ∧ ctx.samplingActive = true ∧
      quantumPerfGetSamplingDuration (some ctx) duration now =
        (some (now-ctx.samplingStart),0) := by
  cases duration with
  | none => simp [quantumPerfGetSamplingDuration,einval] at h
  | some old =>
    cases hflag : ctx.samplingActive with
    | false => simp [quantumPerfGetSamplingDuration,hflag,einval] at h
    | true => exact ⟨old,rfl,rfl,by simp [quantumPerfGetSamplingDuration,hflag]⟩

theorem session_step {s : SamplingSession t} {c : TimedCall} {ctx : PerfFields t} {ret : ℤ}
    (h : s.answer c = (some ctx,ret)) :
    sessions.step s c = some ⟨ctx,c.now,if ret = 0 then s.event c++s.log else s.log⟩ := by
  simp only [sessions,h,Option.map_some]

/-- What a call does: it fails and changes nothing, or it succeeds as one of three. -/
theorem session_cases {s r : SamplingSession t} {c : TimedCall} (h : sessions.step s c = some r) :
    r = { s with clock := c.now } ∨
    (s.ctx.samplingActive = false ∧
      r = ⟨startStore s.ctx c.now,c.now,.started c.now::s.log⟩) ∨
    (s.ctx.samplingActive = true ∧ r = ⟨stopStore s.ctx c.now,c.now,.stopped c.now::s.log⟩) ∨
    (s.ctx.samplingActive = true ∧ (∃ old, c.call = .getDuration old) ∧
      r = ⟨s.ctx,c.now,.reported (c.now-s.ctx.samplingStart)::s.log⟩) := by
  obtain ⟨call,now⟩ := c
  cases call with
  | start =>
    cases hflag : s.ctx.samplingActive with
    | false =>
      have hanswer : s.answer ⟨.start,now⟩ = (some (startStore s.ctx now),0) := by
        simp [SamplingSession.answer,quantumPerfStartSampling,hflag]
      rw [session_step hanswer] at h
      exact Or.inr (Or.inl ⟨rfl,(Option.some.inj h).symm⟩)
    | true =>
      have hanswer : s.answer ⟨.start,now⟩ = (some s.ctx,-ebusy) := by
        simp [SamplingSession.answer,quantumPerfStartSampling,hflag]
      rw [session_step hanswer] at h
      exact Or.inl (Option.some.inj h).symm
  | stop =>
    cases hflag : s.ctx.samplingActive with
    | false =>
      have hanswer : s.answer ⟨.stop,now⟩ = (some s.ctx,-einval) := by
        simp [SamplingSession.answer,quantumPerfStopSampling,hflag]
      rw [session_step hanswer] at h
      exact Or.inl (Option.some.inj h).symm
    | true =>
      have hanswer : s.answer ⟨.stop,now⟩ = (some (stopStore s.ctx now),0) := by
        simp [SamplingSession.answer,quantumPerfStopSampling,hflag]
      rw [session_step hanswer] at h
      exact Or.inr (Or.inr (Or.inl ⟨rfl,(Option.some.inj h).symm⟩))
  | getDuration duration =>
    by_cases hcall : (quantumPerfGetSamplingDuration (some s.ctx) duration now).2 = 0
    · obtain ⟨old,rfl,hflag,hret⟩ := duration_succeeds hcall
      have hanswer : s.answer ⟨.getDuration (some old),now⟩ = (some s.ctx,0) := by
        simp only [SamplingSession.answer,hcall]
      have hevent : s.event ⟨.getDuration (some old),now⟩ =
          [.reported (now-s.ctx.samplingStart)] := by
        simp [SamplingSession.event,hret]
      rw [session_step hanswer,hevent] at h
      exact Or.inr (Or.inr (Or.inr ⟨hflag,⟨old,rfl⟩,(Option.some.inj h).symm⟩))
    · rw [session_step rfl,if_neg hcall] at h
      exact Or.inl (Option.some.inj h).symm

theorem step_timed {s r : SamplingSession t} (hs : Timed s) {c : TimedCall}
    (he : sessions.enabled s c) (hr : sessions.step s c = some r) : Timed r := by
  obtain ⟨hnow,hfits⟩ := he
  rcases session_cases hr with rfl | ⟨-,rfl⟩ | ⟨hflag,rfl⟩ | ⟨hflag,⟨old,hc⟩,rfl⟩
  · exact hs.later hnow
  · refine ⟨rfl,?_,by rintro time log ⟨⟩⟩
    rintro start ⟨⟩
    exact ⟨rfl,le_refl _,by rintro e ⟨⟩⟩
  · obtain ⟨start,hstart⟩ := Option.isSome_iff_exists.mp (hs.flag.symm.trans hflag)
    obtain ⟨hctx,hle,hreported⟩ := hs.since start hstart
    refine ⟨rfl,by rintro start ⟨⟩,?_⟩
    rintro time log ⟨⟩
    simp only [stopStore,hctx]
    refine ⟨hle.trans hnow,fun e he => ?_⟩
    have hold := hreported e he
    omega
  · obtain ⟨start,hstart⟩ := Option.isSome_iff_exists.mp (hs.flag.symm.trans hflag)
    rw [hc] at hfits
    have hsub := ktimeSub_toInt (hfits hflag)
    have hlater := (hs.later hnow).since start hstart
    obtain ⟨hctx,hle,hreported⟩ := hlater
    refine ⟨hs.flag,?_,by rintro time log ⟨⟩⟩
    intro start' hstart'
    obtain rfl : start = start' := Option.mem_unique hstart hstart'
    refine ⟨hctx,hle,fun e he => ?_⟩
    rcases List.mem_cons.mp he with rfl | he
    · exact (hsub.trans (by rw [show s.ctx.samplingStart = start from hctx])).le
    · exact hreported e he

theorem answer_refused {s : SamplingSession t} {c : TimedCall} (h : (s.answer c).2 ≠ 0) :
    (s.answer c).1 = some s.ctx := by
  obtain ⟨call,now⟩ := c
  cases call with
  | start =>
    simp only [SamplingSession.answer,startSampling_eq] at h ⊢
    split_ifs at h ⊢
    · exact absurd rfl h
    · rfl
  | stop =>
    simp only [SamplingSession.answer,stopSampling_eq] at h ⊢
    split_ifs at h ⊢
    · exact absurd rfl h
    · rfl
  | getDuration old => rfl

theorem Timed.right {s : SamplingSession t} (hs : Timed s) : TimesRight s := by
  refine ⟨?_,hs.stopped,fun c => answer_refused⟩
  rintro old now ⟨hnow,hfits⟩
  have hflag := hs.flag
  cases hopen : openSince s.log with
  | none =>
    rw [hopen] at hflag
    simp [quantumPerfGetSamplingDuration,hflag]
  | some start =>
    rw [hopen] at hflag
    obtain ⟨hctx,hle,hreported⟩ := hs.since start hopen
    have hsub : (now-start).toInt = now.toInt-start.toInt := by
      rw [← hctx]
      exact ktimeSub_toInt (hfits hflag)
    have hcall : quantumPerfGetSamplingDuration (some s.ctx) (some old) now =
        (some (now-start),0) := by
      simp [quantumPerfGetSamplingDuration,hflag,hctx]
    have hlater : s.clock.toInt ≤ now.toInt := hnow
    refine ⟨now-start,hcall,hsub,by omega,fun e he => ?_⟩
    have hold := hreported e he
    omega

/-- In every state that is reached the duration can be asked for exactly in an open
session, and is the time since its start; a session that was closed is at least as
long as any duration reported in it; and what fails changes nothing. -/
theorem sampling_times {samplingRate : ULong t} {clock : Ktime} {s : SamplingSession t}
    {cs : List TimedCall} (h : Run sessions (freshSession samplingRate clock) cs s) :
    TimesRight s :=
  (h.invariant (fun _ _ _ hs he hr => step_timed hs he hr) (fresh_timed samplingRate clock)).right

instance (s : SamplingSession t) : (c : TimedCall) → Decidable (sessions.enabled s c)
  | ⟨.getDuration _,now⟩ => inferInstanceAs (Decidable (s.clock.toInt ≤ now.toInt ∧
      (s.ctx.samplingActive = true → SubFits now s.ctx.samplingStart)))
  | ⟨.start,now⟩ | ⟨.stop,now⟩ => inferInstanceAs (Decidable (s.clock.toInt ≤ now.toInt ∧ True))

/-- Two sessions, the first of four units with three reported in it. Between them no
duration is given, and one unit into the second it is one. -/
theorem sampling_times_twice :
    ∃ r s, Run sessions (freshSession 100 3 : SamplingSession .bits64)
        [⟨.stop,3⟩,⟨.start,5⟩,⟨.start,6⟩,⟨.getDuration (some 0),8⟩,⟨.getDuration none,8⟩,
          ⟨.stop,9⟩] r ∧
      Run sessions r [⟨.getDuration (some 0),9⟩,⟨.start,20⟩] s ∧
      r.log = [.stopped 9,.reported 3,.started 5] ∧
      r.ctx.samplingStart.toInt ≤ r.ctx.samplingEnd.toInt ∧
      (3 : Ktime).toInt ≤ r.ctx.samplingEnd.toInt-r.ctx.samplingStart.toInt ∧
      quantumPerfGetSamplingDuration (some r.ctx) (some 7) 10 = (some 7,-einval) ∧
      ∃ d, quantumPerfGetSamplingDuration (some s.ctx) (some 7) 21 = (some d,0) ∧
        d.toInt = 1 := by
  have h : ∃ r s, Run sessions (freshSession 100 3 : SamplingSession .bits64)
        [⟨.stop,3⟩,⟨.start,5⟩,⟨.start,6⟩,⟨.getDuration (some 0),8⟩,⟨.getDuration none,8⟩,
          ⟨.stop,9⟩] r ∧
      Run sessions r [⟨.getDuration (some 0),9⟩,⟨.start,20⟩] s ∧
      r.log = [.stopped 9,.reported 3,.started 5] ∧ openSince s.log = some 20 ∧
      sessions.enabled r ⟨.getDuration (some 7),10⟩ ∧
      sessions.enabled s ⟨.getDuration (some 7),21⟩ :=
    ⟨_,_,run_iff_exec.mpr rfl,run_iff_exec.mpr rfl,rfl,rfl,by decide,by decide⟩
  obtain ⟨r,s,hr,hs,hlog,hopen,hearly,hlate⟩ := h
  have hfirst := sampling_times hr
  obtain ⟨hle,hreported⟩ := hfirst.stopped 9 _ hlog
  have hclosed := hfirst.duration 7 10 hearly
  have hsecond := (sampling_times (hr.append hs)).duration 7 21 hlate
  rw [hlog] at hclosed
  rw [hopen] at hsecond
  obtain ⟨d,hd,hsince,-⟩ := hsecond
  exact ⟨r,s,hr,hs,hlog,hle,hreported 3 (by decide),hclosed,d,hd,hsince⟩

end CtrlxtKernel.Performance
