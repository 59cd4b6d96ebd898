import CtrlxtKernel.LockDiscipline
import CtrlxtKernel.StepRefinement

/-!
# AtomicThreads under a lock are single steps

Threads run their code call by call over a shared state, and one lock keeps
their sections apart. Outside the sections they may touch the state too. When a
section has one call at most that others can tell, and all its other calls
commute with what others do without the lock, it takes effect at that call: the
threads do what they do when every section is a single step.
-/

set_option autoImplicit false

namespace LockReduction
open LockDiscipline StepMachine

variable {K Op A : Type} {Ans : Op → Type} {S E I C : Type*}

/-- What a call of a thread does, with whatever the environment decides. -/
abbrev Handler (S E I : Type*) {Op : Type} (Ans : Op → Type) :=
  I → E → S → (op : Op) → Option (S × Ans op)

/-- The calls of the threads: the code of each, when a thread may make it, and
when a state has room for an operation of it. -/
structure Interface (S I C : Type*) (K Op : Type) (Ans : Op → Type) (A : Type) where
  body : C → Code K Op Ans A
  may : S → I → C → Prop
  fits : S → I → Op → Prop

inductive Visible (I C : Type*) (A : Type) where
  | started (i : I) (c : C)
  | finished (i : I) (a : A)

section Machines

variable [DecidableEq I]

structure Threads (S I : Type*) (K Op : Type) (Ans : Op → Type) (A : Type) where
  shared : S
  owner : Option I
  code : I → Option (Code K Op Ans A)

inductive ThreadStep (E I C : Type*) where
  | start (i : I) (c : C)
  | go (i : I) (e : E)
  | finish (i : I)

def Threads.goes (l : K) (fits : S → I → Op → Prop) (s : Threads S I K Op Ans A) (i : I) :
    Option (Code K Op Ans A) → Prop
  | some (.acquire m _) => m = l ∧ s.owner = none
  | some (.release m _) => m = l ∧ s.owner = some i
  | some (.call op _) => fits s.shared i op
  | some (.ret _) | none => False

def Threads.set (s : Threads S I K Op Ans A) (i : I) (shared : S) (owner : Option I)
    (p : Option (Code K Op Ans A)) : Threads S I K Op Ans A :=
  ⟨shared,owner,Function.update s.code i p⟩

def Threads.go (handle : Handler S E I Ans) (s : Threads S I K Op Ans A) (i : I) (e : E) :
    Option (Threads S I K Op Ans A) :=
  match s.code i with
  | some (.acquire _ p) => some (s.set i s.shared (some i) (some p))
  | some (.release _ p) => some (s.set i s.shared none (some p))
  | some (.call op next) =>
    (handle i e s.shared op).map fun r => s.set i r.1 s.owner (some (next r.2))
  | some (.ret _) | none => none

def returned : Option (Code K Op Ans A) → Option A
  | some (.ret a) => some a
  | _ => none

/-- One call at a time. -/
def threads (l : K) (F : Interface S I C K Op Ans A) (handle : Handler S E I Ans) :
    Machine (Threads S I K Op Ans A) (ThreadStep E I C) where
  enabled s
    | .start i c => s.code i = none ∧ F.may s.shared i c
    | .go i _ => s.goes l F.fits i (s.code i)
    | .finish i => (returned (s.code i)).isSome = true
  step s
    | .start i c => some (s.set i s.shared s.owner (some (F.body c)))
    | .go i e => s.go handle i e
    | .finish i => some (s.set i s.shared s.owner none)

instance [DecidableEq K] (l : K) (F : Interface S I C K Op Ans A) (handle : Handler S E I Ans)
    [∀ s i c, Decidable (F.may s i c)] [∀ s i op, Decidable (F.fits s i op)]
    (s : Threads S I K Op Ans A) : (x : ThreadStep E I C) →
      Decidable ((threads l F handle).enabled s x)
  | .start i c => decidable_of_iff ((s.code i).isNone = true ∧ F.may s.shared i c)
      (and_congr Option.isNone_iff_eq_none Iff.rfl)
  | .finish i => inferInstanceAs (Decidable ((returned (s.code i)).isSome = true))
  | .go i _ =>
    match h : s.code i with
    | some (.acquire m _) => decidable_of_iff (m = l ∧ s.owner = none)
        (by simp [threads,Threads.goes,h])
    | some (.release m _) => decidable_of_iff (m = l ∧ s.owner = some i)
        (by simp [threads,Threads.goes,h])
    | some (.call op _) => decidable_of_iff (F.fits s.shared i op)
        (by simp [threads,Threads.goes,h])
    | some (.ret _) | none => isFalse (by simp [threads,Threads.goes,h])

/-- What callers see: their calls, and what these return. -/
def seen (s : Threads S I K Op Ans A) : ThreadStep E I C → List (Visible I C A)
  | .start i c => [.started i c]
  | .go _ _ => []
  | .finish i => (returned (s.code i)).toList.map (.finished i)

structure AtomicThreads (S I : Type*) (K Op : Type) (Ans : Op → Type) (A : Type) where
  shared : S
  code : I → Option (Code K Op Ans A)

inductive AtomicStep (E I C : Type*) where
  | start (i : I) (c : C)
  | go (i : I) (e : E)
  | locked (i : I) (es : List E)
  | finish (i : I)

def runSection (handle : E → S → (op : Op) → Option (S × Ans op)) :
    List E → Code K Op Ans A → S → Option (S × Code K Op Ans A)
  | _, .release _ q, s => some (s,q)
  | e::es, .call op next, s => (handle e s op).bind fun r => runSection handle es (next r.2) r.1
  | _, _, _ => none

def AtomicThreads.set (s : AtomicThreads S I K Op Ans A) (i : I) (shared : S)
    (p : Option (Code K Op Ans A)) : AtomicThreads S I K Op Ans A :=
  ⟨shared,Function.update s.code i p⟩

def AtomicThreads.goes (fits : S → I → Op → Prop) (s : AtomicThreads S I K Op Ans A) (i : I) :
    Option (Code K Op Ans A) → Prop
  | some (.call op _) => fits s.shared i op
  | _ => False

def acquires : Option (Code K Op Ans A) → Prop
  | some (.acquire _ _) => True
  | _ => False

def AtomicThreads.go (handle : Handler S E I Ans) (s : AtomicThreads S I K Op Ans A) (i : I) (e : E) :
    Option (AtomicThreads S I K Op Ans A) :=
  match s.code i with
  | some (.call op next) => (handle i e s.shared op).map fun r => s.set i r.1 (some (next r.2))
  | _ => none

def AtomicThreads.locked (handle : Handler S E I Ans) (s : AtomicThreads S I K Op Ans A) (i : I)
    (es : List E) : Option (AtomicThreads S I K Op Ans A) :=
  match s.code i with
  | some (.acquire _ p) =>
    (runSection (handle i) es p s.shared).map fun r => s.set i r.1 (some r.2)
  | _ => none

/-- A section at a time. -/
def atomicThreads (F : Interface S I C K Op Ans A) (handle : Handler S E I Ans) :
    Machine (AtomicThreads S I K Op Ans A) (AtomicStep E I C) where
  enabled s
    | .start i c => s.code i = none ∧ F.may s.shared i c
    | .go i _ => s.goes F.fits i (s.code i)
    | .locked i _ => acquires (s.code i)
    | .finish i => (returned (s.code i)).isSome = true
  step s
    | .start i c => some (s.set i s.shared (some (F.body c)))
    | .go i e => s.go handle i e
    | .locked i es => s.locked handle i es
    | .finish i => some (s.set i s.shared none)

def shown (s : AtomicThreads S I K Op Ans A) : AtomicStep E I C → List (Visible I C A)
  | .start i c => [.started i c]
  | .go _ _ | .locked _ _ => []
  | .finish i => (returned (s.code i)).toList.map (.finished i)

end Machines

section Progress

variable {handle : Handler S E I Ans} {P : (op : Op) → Ans op → Prop}

inductive Progress (handle : Handler S E I Ans) (P : (op : Op) → Ans op → Prop) (i : I) :
    S → Code K Op Ans A → S → Code K Op Ans A → Prop
  | refl (s : S) (p : Code K Op Ans A) : Progress handle P i s p s p
  | step {s u v : S} {op : Op} {next : Ans op → Code K Op Ans A} {q : Code K Op Ans A} {e : E}
      {x : Ans op} (h : handle i e s op = some (u,x)) (hP : P op x)
      (rest : Progress handle P i u (next x) v q) : Progress handle P i s (.call op next) v q

theorem Progress.snoc {i : I} {s u v : S} {p : Code K Op Ans A} {op : Op}
    {next : Ans op → Code K Op Ans A} {e : E} {x : Ans op}
    (h : Progress handle P i s p u (.call op next)) (hstep : handle i e u op = some (v,x))
    (hP : P op x) : Progress handle P i s p v (next x) := by
  generalize hq : Code.call op next = q at h
  induction h with
  | refl s p =>
    subst hq
    exact .step hstep hP (.refl _ _)
  | step h hP' _ ih => exact .step h hP' (ih hstep hq)

theorem Progress.runSection {i : I} {s u v : S} {p q r : Code K Op Ans A} {es : List E}
    (h : Progress handle P i s p u q) (hrun : runSection (handle i) es q u = some (v,r)) :
    ∃ es, LockReduction.runSection (handle i) es p s = some (v,r) := by
  induction h with
  | refl s p => exact ⟨es,hrun⟩
  | @step s u w op next q e x h _ _ ih =>
    obtain ⟨es,hes⟩ := ih hrun
    exact ⟨e::es,by rw [LockReduction.runSection,h]; exact hes⟩

end Progress

/-- Quiet calls of a section commute with outer calls of others, and neither make
them possible nor prevent them. -/
structure Commuting (F : Interface S I C K Op Ans A) (handle : Handler S E I Ans)
    (outer : Op → Prop) (quiet : (op : Op) → Ans op → Prop) : Prop where
  swap : ∀ {i j : I} {e e' : E} {s u v : S} {op op' : Op} {x : Ans op} {y : Ans op'},
    i ≠ j → quiet op x → outer op' → handle i e s op = some (u,x) →
      handle j e' s op' = some (v,y) →
      ∃ w, handle j e' u op' = some (w,y) ∧ handle i e v op = some (w,x)
  back : ∀ {i j : I} {e e' : E} {s u w : S} {op op' : Op} {x : Ans op} {y : Ans op'},
    i ≠ j → quiet op x → outer op' → handle i e s op = some (u,x) →
      handle j e' u op' = some (w,y) → ∃ r, handle j e' s op' = some r
  may_iff : ∀ {i j : I} {e : E} {s u : S} {op : Op} {x : Ans op} {c : C},
    i ≠ j → quiet op x → handle i e s op = some (u,x) → (F.may u j c ↔ F.may s j c)
  fits_iff : ∀ {i j : I} {e : E} {s u : S} {op op' : Op} {x : Ans op},
    i ≠ j → quiet op x → handle i e s op = some (u,x) → (F.fits u j op' ↔ F.fits s j op')

section Moving

variable {F : Interface S I C K Op Ans A} {handle : Handler S E I Ans} {outer : Op → Prop}
  {quiet P : (op : Op) → Ans op → Prop}

/-- A later call of another thread moves before the calls of the section. -/
theorem Progress.before (hC : Commuting F handle outer quiet) (hP : ∀ op x, P op x → quiet op x)
    {i j : I} (hij : i ≠ j) {s u w : S} {p q : Code K Op Ans A}
    (h : Progress handle P i s p u q) {op : Op} (ho : outer op) {e : E} {y : Ans op}
    (hstep : handle j e u op = some (w,y)) :
    ∃ v, handle j e s op = some (v,y) ∧ Progress handle P i v p w q := by
  induction h with
  | refl s p => exact ⟨w,hstep,.refl w p⟩
  | step h hquiet _ ih =>
    obtain ⟨v,hv,hrest⟩ := ih hstep
    obtain ⟨⟨v',y'⟩,hv'⟩ := hC.back hij (hP _ _ hquiet) ho h hv
    obtain ⟨w',hw',hi⟩ := hC.swap hij (hP _ _ hquiet) ho h hv'
    cases hv.symm.trans hw'
    exact ⟨v',hv',.step hi hquiet hrest⟩

/-- An earlier one moves behind them. -/
theorem Progress.after (hC : Commuting F handle outer quiet) (hP : ∀ op x, P op x → quiet op x)
    {i j : I} (hij : i ≠ j) {s u v : S} {p q : Code K Op Ans A}
    (h : Progress handle P i s p u q) {op : Op} (ho : outer op) {e : E} {y : Ans op}
    (hstep : handle j e s op = some (v,y)) :
    ∃ w, handle j e u op = some (w,y) ∧ Progress handle P i v p w q := by
  induction h generalizing v with
  | refl s p => exact ⟨v,hstep,.refl v p⟩
  | step h hquiet _ ih =>
    obtain ⟨w',hw',hi⟩ := hC.swap hij (hP _ _ hquiet) ho h hstep
    obtain ⟨w,hw,hrest⟩ := ih hw'
    exact ⟨w,hw,.step hi hquiet hrest⟩

theorem Progress.may_iff (hC : Commuting F handle outer quiet)
    (hP : ∀ op x, P op x → quiet op x) {i j : I} (hij : i ≠ j) {s u : S}
    {p q : Code K Op Ans A} (h : Progress handle P i s p u q) (c : C) :
    F.may u j c ↔ F.may s j c := by
  induction h with
  | refl s p => exact Iff.rfl
  | step h hquiet _ ih => exact ih.trans (hC.may_iff hij (hP _ _ hquiet) h)

theorem Progress.fits_iff (hC : Commuting F handle outer quiet)
    (hP : ∀ op x, P op x → quiet op x) {i j : I} (hij : i ≠ j) {s u : S}
    {p q : Code K Op Ans A} (h : Progress handle P i s p u q) (op : Op) :
    F.fits u j op ↔ F.fits s j op := by
  induction h with
  | refl s p => exact Iff.rfl
  | step h hquiet _ ih => exact ih.trans (hC.fits_iff hij (hP _ _ hquiet) h)

end Moving

section Reduction

variable {l : K} {F : Interface S I C K Op Ans A} {handle : Handler S E I Ans}
  {outer settled : Op → Prop} {quiet : (op : Op) → Ans op → Prop}

/-- The rest of a section that others cannot tell any more. -/
def Concludes (handle : E → S → (op : Op) → Option (S × Ans op)) (l : K)
    (quiet : (op : Op) → Ans op → Prop) (settled : Op → Prop)
    (Q : Code K Op Ans A → S → Prop) : Code K Op Ans A → S → Prop
  | .release m q, s => m = l ∧ Q q s
  | .call op next, s => settled op ∧ ∀ e, ∃ u x, handle e s op = some (u,x) ∧ quiet op x ∧
      Concludes handle l quiet settled Q (next x) u
  | .ret _, _ | .acquire _ _, _ => False

/-- The section has results, whatever the environment decides, and at most one
call that is not quiet. -/
def Reduces (handle : E → S → (op : Op) → Option (S × Ans op)) (l : K)
    (quiet : (op : Op) → Ans op → Prop) (settled : Op → Prop)
    (Q : Code K Op Ans A → S → Prop) : Code K Op Ans A → S → Prop
  | .release m q, s => m = l ∧ Q q s
  | .call op next, s => ∀ e, ∃ u x, handle e s op = some (u,x) ∧
      (quiet op x → Reduces handle l quiet settled Q (next x) u) ∧
      (¬quiet op x → Concludes handle l quiet settled Q (next x) u)
  | .ret _, _ | .acquire _ _, _ => False

structure Atomic [DecidableEq I] (l : K) (F : Interface S I C K Op Ans A)
    (handle : Handler S E I Ans) (outer settled : Op → Prop)
    (quiet : (op : Op) → Ans op → Prop) (Inv : AtomicThreads S I K Op Ans A → Prop) : Prop where
  settles : ∀ {i : I} (e e' : E) {s : S} {op : Op}, settled op →
    handle i e s op = handle i e' s op
  start : ∀ {s i c}, Inv s → s.code i = none → F.may s.shared i c →
    Inv (s.set i s.shared (some (F.body c)))
  go : ∀ {s i op next}, Inv s → s.code i = some (.call op next) → F.fits s.shared i op →
    outer op ∧ ∀ e, ∃ u x, handle i e s.shared op = some (u,x) ∧ Inv (s.set i u (some (next x)))
  locked : ∀ {s i m p}, Inv s → s.code i = some (.acquire m p) → m = l ∧
    Reduces (handle i) l quiet settled (fun q v => Inv (s.set i v (some q))) p s.shared
  release : ∀ {s i m p}, Inv s → s.code i ≠ some (.release m p)
  finish : ∀ {s i a}, Inv s → s.code i = some (.ret a) → Inv (s.set i s.shared none)

abbrev Settled (quiet : (op : Op) → Ans op → Prop) (settled : Op → Prop) (op : Op)
    (x : Ans op) : Prop := quiet op x ∧ settled op

/-- A section that others can still not tell has not begun, and one that they
cannot tell any more is over. -/
inductive Inside (l : K) (handle : Handler S E I Ans) (settled : Op → Prop)
    (quiet : (op : Op) → Ans op → Prop) (c : Threads S I K Op Ans A)
    (a : AtomicThreads S I K Op Ans A) (i : I) : Prop
  | waiting {p₀ p : Code K Op Ans A} (ha : a.code i = some (.acquire l p₀))
      (hc : c.code i = some p) (h : Progress handle quiet i a.shared p₀ c.shared p)
  | committed {p q : Code K Op Ans A} (ha : a.code i = some q) (hc : c.code i = some p)
      (h : Progress handle (Settled quiet settled) i c.shared p a.shared (.release l q))

structure Related (l : K) (handle : Handler S E I Ans) (settled : Op → Prop)
    (quiet : (op : Op) → Ans op → Prop) (Inv : AtomicThreads S I K Op Ans A → Prop)
    (c : Threads S I K Op Ans A) (a : AtomicThreads S I K Op Ans A) : Prop where
  inv : Inv a
  others : ∀ j, c.owner ≠ some j → c.code j = a.code j
  free : c.owner = none → c.shared = a.shared
  held : ∀ i, c.owner = some i → Inside l handle settled quiet c a i

variable {Q : Code K Op Ans A → S → Prop}

theorem Reduces.progress {i : I} {s u : S} {p q : Code K Op Ans A}
    (h : Reduces (handle i) l quiet settled Q p s) (hp : Progress handle quiet i s p u q) :
    Reduces (handle i) l quiet settled Q q u := by
  induction hp with
  | refl s p => exact h
  | @step s u v op next q e x hstep hquiet _ ih =>
    obtain ⟨u',x',h',hrest,-⟩ := h e
    cases hstep.symm.trans h'
    exact ih (hrest hquiet)

theorem Concludes.progress [Nonempty E] {i : I} {s : S} {p : Code K Op Ans A}
    (h : Concludes (handle i) l quiet settled Q p s) :
    ∃ v q, Progress handle (Settled quiet settled) i s p v (.release l q) ∧ Q q v := by
  induction p generalizing s with
  | ret a => exact h.elim
  | acquire m p => exact h.elim
  | release m q =>
    obtain ⟨rfl,hQ⟩ := h
    exact ⟨s,q,.refl s _,hQ⟩
  | call op next ih =>
    obtain ⟨hsettled,hall⟩ := h
    obtain ⟨e⟩ := ‹Nonempty E›
    obtain ⟨u,x,hstep,hquiet,hrest⟩ := hall e
    obtain ⟨v,q,hv,hQ⟩ := ih x hrest
    exact ⟨v,q,.step hstep ⟨hquiet,hsettled⟩ hv,hQ⟩

theorem Reduces.before {handle : E → S → (op : Op) → Option (S × Ans op)} {op : Op}
    {next : Ans op → Code K Op Ans A} {s u : S} {x : Ans op}
    (hstep : ∀ e, handle e s op = some (u,x)) (hq : quiet op x)
    (hrest : Reduces handle l quiet settled Q (next x) u) :
    Reduces handle l quiet settled Q (.call op next) s :=
  fun e => ⟨u,x,hstep e,fun _ => hrest,fun hn => absurd hq hn⟩

theorem Reduces.effect {handle : E → S → (op : Op) → Option (S × Ans op)} {op : Op}
    {next : Ans op → Code K Op Ans A} {s u : S} {x : Ans op}
    (hstep : ∀ e, handle e s op = some (u,x)) (hq : ¬quiet op x)
    (hrest : Concludes handle l quiet settled Q (next x) u) :
    Reduces handle l quiet settled Q (.call op next) s :=
  fun e => ⟨u,x,hstep e,fun hn => absurd hn hq,fun _ => hrest⟩

theorem Concludes.mono {R : Code K Op Ans A → S → Prop} {i : I} {p : Code K Op Ans A} {s : S}
    (h : Concludes (handle i) l quiet settled Q p s) (hQR : ∀ q v, Q q v → R q v) :
    Concludes (handle i) l quiet settled R p s := by
  induction p generalizing s with
  | ret a => exact h
  | acquire m p => exact h
  | release m q => exact ⟨h.1,hQR q s h.2⟩
  | call op next ih =>
    refine ⟨h.1,fun e => ?_⟩
    obtain ⟨u,x,hstep,hquiet,hrest⟩ := h.2 e
    exact ⟨u,x,hstep,hquiet,ih x hrest⟩

theorem Reduces.mono {R : Code K Op Ans A → S → Prop} {i : I} {p : Code K Op Ans A} {s : S}
    (h : Reduces (handle i) l quiet settled Q p s) (hQR : ∀ q v, Q q v → R q v) :
    Reduces (handle i) l quiet settled R p s := by
  induction p generalizing s with
  | ret a => exact h
  | acquire m p => exact h
  | release m q => exact ⟨h.1,hQR q s h.2⟩
  | call op next ih =>
    intro e
    obtain ⟨u,x,hstep,hquiet,hloud⟩ := h e
    exact ⟨u,x,hstep,fun hq => ih x (hquiet hq),fun hq => (hloud hq).mono hQR⟩

theorem Concludes.run {i : I} {p q : Code K Op Ans A} {s v : S} {es : List E}
    (h : Concludes (handle i) l quiet settled Q p s)
    (hrun : runSection (handle i) es p s = some (v,q)) : Q q v := by
  induction p generalizing s es with
  | ret a => exact h.elim
  | acquire m p => exact h.elim
  | release m r =>
    rw [runSection] at hrun
    cases hrun
    exact h.2
  | call op next ih =>
    cases es with
    | nil => cases hrun
    | cons e es =>
      obtain ⟨u,x,hstep,-,hrest⟩ := h.2 e
      rw [runSection,hstep] at hrun
      exact ih x hrest hrun

/-- Whatever the environment decides, the section ends as it must. -/
theorem Reduces.run {i : I} {p q : Code K Op Ans A} {s v : S} {es : List E}
    (h : Reduces (handle i) l quiet settled Q p s)
    (hrun : runSection (handle i) es p s = some (v,q)) : Q q v := by
  induction p generalizing s es with
  | ret a => exact h.elim
  | acquire m p => exact h.elim
  | release m r =>
    rw [runSection] at hrun
    cases hrun
    exact h.2
  | call op next ih =>
    cases es with
    | nil => cases hrun
    | cons e es =>
      obtain ⟨u,x,hstep,hquiet,hloud⟩ := h e
      rw [runSection,hstep] at hrun
      by_cases hq : quiet op x
      · exact ih x (hquiet hq) hrun
      · exact (hloud hq).run hrun

theorem released {i : I} {P : (op : Op) → Ans op → Prop} {m : K} {s v : S}
    {q r : Code K Op Ans A} (h : Progress handle P i s (.release m q) v (.release l r)) :
    s = v ∧ q = r := by
  cases h
  exact ⟨rfl,rfl⟩

theorem Progress.next (hsettles : ∀ {i : I} (e e' : E) {s : S} {op : Op}, settled op →
      handle i e s op = handle i e' s op) {i : I} {s w v : S} {op : Op}
    {next : Ans op → Code K Op Ans A} {q : Code K Op Ans A} {e : E} {y : Ans op}
    (h : Progress handle (Settled quiet settled) i s (.call op next) v (.release l q))
    (hstep : handle i e s op = some (w,y)) :
    Progress handle (Settled quiet settled) i w (next y) v (.release l q) := by
  cases h with
  | @step _ _ _ _ _ _ e' _ h hP rest =>
    rw [hsettles e e' hP.2,h] at hstep
    cases hstep
    exact rest

theorem Progress.result (hsettles : ∀ {i : I} (e e' : E) {s : S} {op : Op}, settled op →
      handle i e s op = handle i e' s op) {i : I} {s v : S} {op : Op}
    {next : Ans op → Code K Op Ans A} {q : Code K Op Ans A}
    (h : Progress handle (Settled quiet settled) i s (.call op next) v (.release l q)) (e : E) :
    ∃ r, handle i e s op = some r := by
  cases h with
  | @step _ _ _ _ _ _ e' _ h hP _ => exact ⟨_,(hsettles e e' hP.2).trans h⟩

theorem not_returned {i : I} {P : (op : Op) → Ans op → Prop} {s v : S} {b : A}
    {q : Code K Op Ans A} (h : Progress handle P i s (.ret b) v (.release l q)) : False := by
  cases h

variable [DecidableEq I] {Inv : AtomicThreads S I K Op Ans A → Prop}

@[simp] theorem threads_set_code (s : Threads S I K Op Ans A) (i : I) (shared : S)
    (owner : Option I) (p : Option (Code K Op Ans A)) (j : I) :
    (s.set i shared owner p).code j = if j = i then p else s.code j := by
  simp [Threads.set,Function.update_apply]

@[simp] theorem atomic_set_code (s : AtomicThreads S I K Op Ans A) (i : I) (shared : S)
    (p : Option (Code K Op Ans A)) (j : I) :
    (s.set i shared p).code j = if j = i then p else s.code j := by
  simp [AtomicThreads.set,Function.update_apply]

omit [DecidableEq I] in
theorem returned_eq_some {p : Option (Code K Op Ans A)} {b : A} (h : returned p = some b) :
    p = some (.ret b) := by
  match p with
  | some (.ret _) =>
    cases h
    rfl

theorem Atomic.step (hA : Atomic l F handle outer settled quiet Inv)
    {a b : AtomicThreads S I K Op Ans A} (ha : Inv a) {x : AtomicStep E I C}
    (he : (atomicThreads F handle).enabled a x) (hb : (atomicThreads F handle).step a x = some b) :
    Inv b := by
  cases x with
  | start i c =>
    cases hb
    exact hA.start ha he.1 he.2
  | finish i =>
    obtain ⟨r,hr⟩ := Option.isSome_iff_exists.mp he
    cases hb
    exact hA.finish ha (returned_eq_some hr)
  | go i e =>
    replace hb : a.go handle i e = some b := hb
    replace he : a.goes F.fits i (a.code i) := he
    unfold AtomicThreads.go at hb
    split at hb
    · rename_i op next hi
      rw [hi] at he
      obtain ⟨-,hall⟩ := hA.go ha hi he
      obtain ⟨u,y,hu,hinv⟩ := hall e
      rw [hu] at hb
      cases hb
      exact hinv
    · cases hb
  | locked i es =>
    replace hb : a.locked handle i es = some b := hb
    unfold AtomicThreads.locked at hb
    split at hb
    · rename_i m p hi
      obtain ⟨⟨v,q⟩,hrun,rfl⟩ := Option.map_eq_some_iff.mp hb
      exact (hA.locked ha hi).2.run hrun
    · cases hb

def SectionIs (l : K) (handle : Handler S E I Ans)
    (D : S → I → Code K Op Ans A → Code K Op Ans A → S → Prop) (a : AtomicThreads S I K Op Ans A) :
    AtomicStep E I C → Prop
  | .locked i es => ∃ p q v, a.code i = some (.acquire l p) ∧
      runSection (handle i) es p a.shared = some (v,q) ∧ D a.shared i p q v
  | .start _ _ | .go _ _ | .finish _ => True

theorem Atomic.sections (hA : Atomic l F handle outer settled quiet Inv)
    {D : S → I → Code K Op Ans A → Code K Op Ans A → S → Prop}
    (hD : ∀ {s i m p}, Inv s → s.code i = some (.acquire m p) →
      Reduces (handle i) l quiet settled (D s.shared i p) p s.shared)
    {a b : AtomicThreads S I K Op Ans A} {ks : List (AtomicStep E I C)}
    (h : Run (atomicThreads F handle) a ks b) (ha : Inv a) :
    Always (atomicThreads F handle) (SectionIs l handle D) a ks := by
  induction h with
  | nil => trivial
  | @cons a b _ x _ he hb _ ih =>
    refine (always_cons hb).mpr ⟨?_,ih (hA.step ha he hb)⟩
    cases x with
    | start i c | go i e | finish i => trivial
    | locked i es =>
      replace hb : a.locked handle i es = some b := hb
      unfold AtomicThreads.locked at hb
      split at hb
      · rename_i m p hi
        obtain ⟨⟨v,q⟩,hrun,-⟩ := Option.map_eq_some_iff.mp hb
        obtain rfl := (hA.locked ha hi).1
        exact ⟨p,q,v,hi,hrun,(hD ha hi).run hrun⟩
      · cases hb

omit [DecidableEq I] in
theorem Related.not_owner {c : Threads S I K Op Ans A} {a : AtomicThreads S I K Op Ans A}
    (h : Related l handle settled quiet Inv c a) {i : I} (hi : c.code i = none) :
    c.owner ≠ some i := by
  intro howner
  cases h.held i howner with
  | waiting _ hc _ | committed _ hc _ =>
    rw [hi] at hc
    cases hc

theorem settled_quiet (op : Op) (x : Ans op) (h : Settled quiet settled op x) : quiet op x := h.1

theorem Inside.other (hC : Commuting F handle outer quiet) {c : Threads S I K Op Ans A}
    {a : AtomicThreads S I K Op Ans A} {i k : I} (hik : k ≠ i)
    (h : Inside l handle settled quiet c a k) {op : Op} (ho : outer op) {e : E} {u : S}
    {y : Ans op} (hstep : handle i e c.shared op = some (u,y)) (p : Option (Code K Op Ans A)) :
    ∃ v, handle i e a.shared op = some (v,y) ∧
      Inside l handle settled quiet (c.set i u c.owner p) (a.set i v p) k := by
  cases h with
  | waiting ha hc hp =>
    obtain ⟨v,hv,hrest⟩ := hp.before hC (fun _ _ h => h) hik ho hstep
    exact ⟨v,hv,.waiting (by simp [hik,ha]) (by simp [hik,hc]) hrest⟩
  | committed ha hc hp =>
    obtain ⟨v,hv,hrest⟩ := hp.after hC settled_quiet hik ho hstep
    exact ⟨v,hv,.committed (by simp [hik,ha]) (by simp [hik,hc]) hrest⟩

omit [DecidableEq I] in
theorem Inside.may_iff (hC : Commuting F handle outer quiet) {c : Threads S I K Op Ans A}
    {a : AtomicThreads S I K Op Ans A} {i k : I} (hik : k ≠ i)
    (h : Inside l handle settled quiet c a k) (x : C) :
    F.may c.shared i x ↔ F.may a.shared i x := by
  cases h with
  | waiting _ _ hp => exact hp.may_iff hC (fun _ _ h => h) hik x
  | committed _ _ hp => exact (hp.may_iff hC settled_quiet hik x).symm

omit [DecidableEq I] in
theorem Inside.fits_iff (hC : Commuting F handle outer quiet) {c : Threads S I K Op Ans A}
    {a : AtomicThreads S I K Op Ans A} {i k : I} (hik : k ≠ i)
    (h : Inside l handle settled quiet c a k) (op : Op) :
    F.fits c.shared i op ↔ F.fits a.shared i op := by
  cases h with
  | waiting _ _ hp => exact hp.fits_iff hC (fun _ _ h => h) hik op
  | committed _ _ hp => exact (hp.fits_iff hC settled_quiet hik op).symm

section Steps

variable {c u : Threads S I K Op Ans A} {a : AtomicThreads S I K Op Ans A} {i : I}

theorem Related.update (h : Related l handle settled quiet Inv c a) {w v : S}
    {p : Option (Code K Op Ans A)} (hinv : Inv (a.set i v p)) (hfree : c.owner = none → w = v)
    (hheld : ∀ k, c.owner = some k →
      Inside l handle settled quiet (c.set i w c.owner p) (a.set i v p) k) :
    Related l handle settled quiet Inv (c.set i w c.owner p) (a.set i v p) := by
  refine ⟨hinv,fun j hj => ?_,hfree,hheld⟩
  rw [threads_set_code,atomic_set_code]
  split_ifs
  · rfl
  · exact h.others j hj

omit [DecidableEq I] in
theorem Related.may_iff (hC : Commuting F handle outer quiet)
    (h : Related l handle settled quiet Inv c a) (hi : c.owner ≠ some i) (x : C) :
    F.may c.shared i x ↔ F.may a.shared i x := by
  cases howner : c.owner with
  | none => rw [h.free howner]
  | some k =>
    have hik : k ≠ i := fun hki => hi (by rw [howner,hki])
    exact (h.held k howner).may_iff hC hik x

omit [DecidableEq I] in
theorem Related.fits_iff (hC : Commuting F handle outer quiet)
    (h : Related l handle settled quiet Inv c a) (hi : c.owner ≠ some i) (op : Op) :
    F.fits c.shared i op ↔ F.fits a.shared i op := by
  cases howner : c.owner with
  | none => rw [h.free howner]
  | some k =>
    have hik : k ≠ i := fun hki => hi (by rw [howner,hki])
    exact (h.held k howner).fits_iff hC hik op

theorem Inside.recode {k : I} (hik : k ≠ i) (h : Inside l handle settled quiet c a k)
    (p : Option (Code K Op Ans A)) :
    Inside l handle settled quiet (c.set i c.shared c.owner p) (a.set i a.shared p) k := by
  cases h with
  | waiting ha hc hp => exact .waiting (by simp [hik,ha]) (by simp [hik,hc]) hp
  | committed ha hc hp => exact .committed (by simp [hik,ha]) (by simp [hik,hc]) hp

def Matched (l : K) (F : Interface S I C K Op Ans A) (handle : Handler S E I Ans)
    (settled : Op → Prop) (quiet : (op : Op) → Ans op → Prop)
    (Inv : AtomicThreads S I K Op Ans A → Prop) (a : AtomicThreads S I K Op Ans A)
    (u : Threads S I K Op Ans A) (vs : List (Visible I C A)) : Prop :=
  ∃ ks v, Run (atomicThreads F handle) a ks v ∧ Related l handle settled quiet Inv u v ∧
    trace (atomicThreads F handle) shown a ks = vs

theorem Related.stutter (h : Related l handle settled quiet Inv u a) :
    Matched l F handle settled quiet Inv a u [] :=
  ⟨[],a,.nil a,h,rfl⟩

theorem Related.single {v : AtomicThreads S I K Op Ans A} {x : AtomicStep E I C}
    (he : (atomicThreads F handle).enabled a x) (hs : (atomicThreads F handle).step a x = some v)
    (h : Related l handle settled quiet Inv u v) :
    Matched l F handle settled quiet Inv a u (shown a x) :=
  ⟨[x],v,.single he hs,h,by rw [trace_cons hs]; exact List.append_nil _⟩

theorem start_matched (hC : Commuting F handle outer quiet)
    (hA : Atomic l F handle outer settled quiet Inv)
    (h : Related l handle settled quiet Inv c a) (hi : c.code i = none) {x : C}
    (hmay : F.may c.shared i x) :
    Matched l F handle settled quiet Inv a (c.set i c.shared c.owner (some (F.body x)))
      [.started i x] := by
  have howner := h.not_owner hi
  have ha : a.code i = none := (h.others i howner).symm.trans hi
  have hmay' := (h.may_iff hC howner x).mp hmay
  have hrel := h.update (hA.start h.inv ha hmay') h.free fun k hk =>
    (h.held k hk).recode (fun hki => howner (by rw [hk,hki])) _
  have he : (atomicThreads F handle).enabled a (.start i x) := ⟨ha,hmay'⟩
  exact hrel.single he rfl

theorem returned_not_owner (hA : Atomic l F handle outer settled quiet Inv)
    (h : Related l handle settled quiet Inv c a) {b : A} (hi : c.code i = some (.ret b)) :
    c.owner ≠ some i := by
  intro howner
  cases h.held i howner with
  | waiting ha hc hp =>
    obtain rfl := Option.some.inj (hi.symm.trans hc)
    exact (hA.locked h.inv ha).2.progress hp
  | committed ha hc hp =>
    obtain rfl := Option.some.inj (hi.symm.trans hc)
    exact not_returned hp

theorem finish_matched (hA : Atomic l F handle outer settled quiet Inv)
    (h : Related l handle settled quiet Inv c a) {b : A} (hi : c.code i = some (.ret b)) :
    Matched l F handle settled quiet Inv a (c.set i c.shared c.owner none) [.finished i b] := by
  have howner := returned_not_owner hA h hi
  have ha : a.code i = some (.ret b) := (h.others i howner).symm.trans hi
  have hrel := h.update (hA.finish h.inv ha) h.free fun k hk =>
    (h.held k hk).recode (fun hki => howner (by rw [hk,hki])) _
  have he : (atomicThreads F handle).enabled a (.finish i) := by
    simp [atomicThreads,returned,ha]
  have hshown : shown a (.finish i : AtomicStep E I C) = [.finished i b] := by
    simp [shown,returned,ha]
  rw [← hshown]
  exact hrel.single he rfl

theorem outer_matched (hC : Commuting F handle outer quiet)
    (hA : Atomic l F handle outer settled quiet Inv)
    (h : Related l handle settled quiet Inv c a) (howner : c.owner ≠ some i) {op : Op}
    {next : Ans op → Code K Op Ans A} (hi : c.code i = some (.call op next))
    (hfits : F.fits c.shared i op) {e : E} {w : S} {y : Ans op}
    (hstep : handle i e c.shared op = some (w,y)) :
    Matched l F handle settled quiet Inv a (c.set i w c.owner (some (next y))) [] := by
  have ha : a.code i = some (.call op next) := (h.others i howner).symm.trans hi
  have hfits' := (h.fits_iff hC howner op).mp hfits
  obtain ⟨ho,hall⟩ := hA.go h.inv ha hfits'
  obtain ⟨v,y',hv,hinv⟩ := hall e
  have hsame : y' = y ∧ (c.owner = none → w = v) ∧ ∀ k, c.owner = some k →
      Inside l handle settled quiet (c.set i w c.owner (some (next y)))
        (a.set i v (some (next y))) k := by
    cases hown : c.owner with
    | none =>
      rw [h.free hown,hv] at hstep
      cases hstep
      exact ⟨rfl,fun _ => rfl,nofun⟩
    | some k =>
      have hki : k ≠ i := fun hki => howner (by rw [hown,hki])
      obtain ⟨v',hv',hin⟩ := (h.held k hown).other hC hki ho hstep (some (next y))
      cases hv.symm.trans hv'
      refine ⟨rfl,nofun,fun k' hk' => ?_⟩
      cases hk'
      rw [hown] at hin
      exact hin
  obtain ⟨rfl,hfree,hheld⟩ := hsame
  have hrel := h.update hinv hfree hheld
  have he : (atomicThreads F handle).enabled a (.go i e) := by
    show a.goes F.fits i (a.code i)
    rw [ha]
    exact hfits'
  have hs : (atomicThreads F handle).step a (.go i e) = some (a.set i v (some (next y'))) := by
    show a.go handle i e = _
    rw [AtomicThreads.go,ha]
    simp [hv]
  exact hrel.single he hs

theorem Related.section_step (h : Related l handle settled quiet Inv c a)
    (hi : ∀ j, c.owner = some j → j = i) {b : AtomicThreads S I K Op Ans A} (hinv : Inv b)
    (hothers : ∀ j, j ≠ i → b.code j = a.code j) {w : S} {p : Code K Op Ans A}
    (hin : Inside l handle settled quiet (c.set i w (some i) (some p)) b i) :
    Related l handle settled quiet Inv (c.set i w (some i) (some p)) b := by
  refine ⟨hinv,fun j hj => ?_,nofun,fun j hj => ?_⟩
  · have hji : j ≠ i := fun hji => hj (by rw [hji]; rfl)
    rw [threads_set_code,if_neg hji,hothers j hji]
    exact h.others j fun hown => hji (hi j hown)
  · cases hj
    exact hin

theorem Related.section_over (h : Related l handle settled quiet Inv c a)
    (hi : ∀ j, c.owner = some j → j = i) {b : AtomicThreads S I K Op Ans A} (hinv : Inv b)
    (hothers : ∀ j, j ≠ i → b.code j = a.code j) {q : Code K Op Ans A}
    (hb : b.code i = some q) (hshared : c.shared = b.shared) :
    Related l handle settled quiet Inv (c.set i c.shared none (some q)) b := by
  refine ⟨hinv,fun j _ => ?_,fun _ => hshared,nofun⟩
  rw [threads_set_code]
  split_ifs with hji
  · rw [hji,hb]
  · rw [hothers j hji]
    exact h.others j fun hown => hji (hi j hown)

theorem acquire_matched (h : Related l handle settled quiet Inv c a) {p : Code K Op Ans A}
    (hi : c.code i = some (.acquire l p)) (howner : c.owner = none) :
    Matched l F handle settled quiet Inv a (c.set i c.shared (some i) (some p)) [] := by
  have hnot : c.owner ≠ some i := by
    rw [howner]
    nofun
  have ha : a.code i = some (.acquire l p) := (h.others i hnot).symm.trans hi
  have hprogress : Progress handle quiet i a.shared p c.shared p := by
    rw [h.free howner]
    exact .refl _ _
  have hall : ∀ j, c.owner = some j → j = i := fun j hj => by
    rw [howner] at hj
    cases hj
  exact (h.section_step hall h.inv (fun _ _ => rfl)
    (.waiting ha (by simp) hprogress)).stutter

theorem locked_matched {p p' q : Code K Op Ans A} (ha : a.code i = some (.acquire l p))
    {v w : S} (hp : Progress handle quiet i a.shared p w p') {es : List E}
    (hrun : runSection (handle i) es p' w = some (v,q))
    (hrel : Related l handle settled quiet Inv u (a.set i v (some q))) :
    Matched l F handle settled quiet Inv a u [] := by
  obtain ⟨fs,hfs⟩ := hp.runSection hrun
  have he : (atomicThreads F handle).enabled a (.locked i fs) := by
    show acquires (a.code i)
    rw [ha]
    trivial
  have hs : (atomicThreads F handle).step a (.locked i fs) = some (a.set i v (some q)) := by
    show a.locked handle i fs = _
    rw [AtomicThreads.locked,ha]
    simp [hfs]
  exact hrel.single he hs

theorem inner_matched [Nonempty E] (hA : Atomic l F handle outer settled quiet Inv)
    (h : Related l handle settled quiet Inv c a) (howner : c.owner = some i) {op : Op}
    {next : Ans op → Code K Op Ans A} (hi : c.code i = some (.call op next)) {e : E} {w : S}
    {y : Ans op} (hstep : handle i e c.shared op = some (w,y)) :
    Matched l F handle settled quiet Inv a (c.set i w (some i) (some (next y))) [] := by
  have hall : ∀ j, c.owner = some j → j = i := fun j hj =>
    (Option.some.inj (howner.symm.trans hj)).symm
  cases h.held i howner with
  | waiting ha hc hp =>
    obtain rfl := Option.some.inj (hi.symm.trans hc)
    obtain ⟨w',y',h',hquiet,hloud⟩ := ((hA.locked h.inv ha).2.progress hp) e
    cases hstep.symm.trans h'
    by_cases hq : quiet op y
    · exact (h.section_step hall h.inv (fun _ _ => rfl)
        (.waiting ha (by simp) (hp.snoc hstep hq))).stutter
    · obtain ⟨v,q,hv,hinv⟩ := (hloud hq).progress
      have hover : runSection (handle i) [] (.release l q) v = some (v,q) := rfl
      obtain ⟨es,hes⟩ := hv.runSection hover
      have hrun : runSection (handle i) (e::es) (.call op next) c.shared = some (v,q) := by
        rw [runSection,hstep]
        exact hes
      refine locked_matched ha hp hrun (h.section_step hall hinv ?_ (.committed ?_ ?_ hv))
      · intro j hj
        rw [atomic_set_code,if_neg hj]
      · rw [atomic_set_code,if_pos rfl]
      · rw [threads_set_code,if_pos rfl]
  | committed ha hc hp =>
    obtain rfl := Option.some.inj (hi.symm.trans hc)
    have hrest := hp.next hA.settles hstep
    exact (h.section_step hall h.inv (fun _ _ => rfl) (.committed ha (by simp) hrest)).stutter

theorem release_matched (hA : Atomic l F handle outer settled quiet Inv)
    (h : Related l handle settled quiet Inv c a) (howner : c.owner = some i) {m : K}
    {q : Code K Op Ans A} (hi : c.code i = some (.release m q)) :
    Matched l F handle settled quiet Inv a (c.set i c.shared none (some q)) [] := by
  have hall : ∀ j, c.owner = some j → j = i := fun j hj =>
    (Option.some.inj (howner.symm.trans hj)).symm
  cases h.held i howner with
  | waiting ha hc hp =>
    obtain rfl := Option.some.inj (hi.symm.trans hc)
    obtain ⟨-,hinv⟩ := (hA.locked h.inv ha).2.progress hp
    have hover : runSection (handle i) [] (.release m q) c.shared = some (c.shared,q) := rfl
    refine locked_matched ha hp hover (h.section_over hall hinv ?_ ?_ rfl)
    · intro j hj
      rw [atomic_set_code,if_neg hj]
    · rw [atomic_set_code,if_pos rfl]
  | committed ha hc hp =>
    obtain rfl := Option.some.inj (hi.symm.trans hc)
    obtain ⟨hshared,rfl⟩ := released hp
    exact (h.section_over hall h.inv (fun _ _ => rfl) ha hshared).stutter

theorem go_matched [Nonempty E] (hC : Commuting F handle outer quiet)
    (hA : Atomic l F handle outer settled quiet Inv)
    (h : Related l handle settled quiet Inv c a) {e : E} (he : c.goes l F.fits i (c.code i))
    (hu : c.go handle i e = some u) : Matched l F handle settled quiet Inv a u [] := by
  cases hi : c.code i with
  | none =>
    rw [hi] at he
    exact he.elim
  | some p =>
    rw [hi] at he
    rw [Threads.go,hi] at hu
    cases p with
    | ret b => exact he.elim
    | acquire m p =>
      obtain ⟨rfl,howner⟩ := he
      cases hu
      exact acquire_matched h hi howner
    | release m q =>
      obtain ⟨rfl,howner⟩ := he
      cases hu
      exact release_matched hA h howner hi
    | call op next =>
      obtain ⟨⟨w,y⟩,hstep,rfl⟩ := Option.map_eq_some_iff.mp hu
      by_cases howner : c.owner = some i
      · have hmatched := inner_matched hA h howner hi hstep
        rw [← howner] at hmatched
        exact hmatched
      · exact outer_matched hC hA h howner hi he hstep

theorem step_matched [Nonempty E] (hC : Commuting F handle outer quiet)
    (hA : Atomic l F handle outer settled quiet Inv)
    (h : Related l handle settled quiet Inv c a) {x : ThreadStep E I C}
    (he : (threads l F handle).enabled c x) (hu : (threads l F handle).step c x = some u) :
    Matched l F handle settled quiet Inv a u (seen c x) := by
  cases x with
  | start i x =>
    cases hu
    exact start_matched hC hA h he.1 he.2
  | go i e => exact go_matched hC hA h he hu
  | finish i =>
    obtain ⟨b,hb⟩ := Option.isSome_iff_exists.mp he
    cases hu
    rw [seen,hb]
    exact finish_matched hA h (returned_eq_some hb)

theorem outer_result (hC : Commuting F handle outer quiet)
    (hA : Atomic l F handle outer settled quiet Inv)
    (h : Related l handle settled quiet Inv c a) (howner : c.owner ≠ some i) {op : Op}
    {next : Ans op → Code K Op Ans A} (hi : c.code i = some (.call op next))
    (hfits : F.fits c.shared i op) (e : E) : ∃ r, handle i e c.shared op = some r := by
  have ha : a.code i = some (.call op next) := (h.others i howner).symm.trans hi
  obtain ⟨ho,hall⟩ := hA.go h.inv ha ((h.fits_iff hC howner op).mp hfits)
  obtain ⟨v,y,hv,-⟩ := hall e
  cases hown : c.owner with
  | none =>
    rw [h.free hown]
    exact ⟨_,hv⟩
  | some k =>
    have hki : k ≠ i := fun hki => howner (by rw [hown,hki])
    cases h.held k hown with
    | waiting _ _ hp =>
      obtain ⟨w,hw,-⟩ := hp.after hC (fun _ _ h => h) hki ho hv
      exact ⟨_,hw⟩
    | committed _ _ hp =>
      obtain ⟨w,hw,-⟩ := hp.before hC settled_quiet hki ho hv
      exact ⟨_,hw⟩

theorem inner_result (hA : Atomic l F handle outer settled quiet Inv)
    (h : Related l handle settled quiet Inv c a) (howner : c.owner = some i) {op : Op}
    {next : Ans op → Code K Op Ans A} (hi : c.code i = some (.call op next)) (e : E) :
    ∃ r, handle i e c.shared op = some r := by
  cases h.held i howner with
  | waiting ha hc hp =>
    obtain rfl := Option.some.inj (hi.symm.trans hc)
    obtain ⟨w,y,hw,-⟩ := ((hA.locked h.inv ha).2.progress hp) e
    exact ⟨_,hw⟩
  | committed ha hc hp =>
    obtain rfl := Option.some.inj (hi.symm.trans hc)
    exact hp.result hA.settles e

theorem step_result (hC : Commuting F handle outer quiet)
    (hA : Atomic l F handle outer settled quiet Inv)
    (h : Related l handle settled quiet Inv c a) {x : ThreadStep E I C}
    (he : (threads l F handle).enabled c x) : ∃ u, (threads l F handle).step c x = some u := by
  cases x with
  | start i x => exact ⟨_,rfl⟩
  | finish i => exact ⟨_,rfl⟩
  | go i e =>
    show ∃ u, c.go handle i e = some u
    replace he : c.goes l F.fits i (c.code i) := he
    rw [Threads.go]
    cases hi : c.code i with
    | none =>
      rw [hi] at he
      exact he.elim
    | some p =>
      rw [hi] at he
      cases p with
      | ret b => exact he.elim
      | acquire m p => exact ⟨_,rfl⟩
      | release m q => exact ⟨_,rfl⟩
      | call op next =>
        have hresult : ∃ r, handle i e c.shared op = some r := by
          by_cases howner : c.owner = some i
          · exact inner_result hA h howner hi e
          · exact outer_result hC hA h howner hi he e
        obtain ⟨r,hr⟩ := hresult
        exact ⟨_,by simp only [hr,Option.map_some]; rfl⟩

end Steps

def resting (s : S) : Threads S I K Op Ans A := ⟨s,none,fun _ => none⟩

def restingAtomic (s : S) : AtomicThreads S I K Op Ans A := ⟨s,fun _ => none⟩

omit [DecidableEq I] in
theorem resting_related {s : S} (hs : Inv (restingAtomic s)) :
    Related l handle settled quiet Inv (resting s) (restingAtomic s) :=
  ⟨hs,fun _ _ => rfl,fun _ => rfl,nofun⟩

/-- Whatever threads do call by call, they also do section by section: the callers
make the same calls, and get the same answers, in the same order. -/
theorem run_matched [Nonempty E] (hC : Commuting F handle outer quiet)
    (hA : Atomic l F handle outer settled quiet Inv) {s : S} (hs : Inv (restingAtomic s))
    {u : Threads S I K Op Ans A} {ls : List (ThreadStep E I C)}
    (h : Run (threads l F handle) (resting s) ls u) :
    Matched l F handle settled quiet Inv (restingAtomic s) u
      (trace (threads l F handle) seen (resting s) ls) := by
  have hstep : ∀ c x w a, Related l handle settled quiet Inv c a →
      (threads l F handle).enabled c x → (threads l F handle).step c x = some w →
      Matched l F handle settled quiet Inv a w (seen c x) :=
    fun _ _ _ _ hr he hu => step_matched hC hA hr he hu
  exact h.follow hstep (resting_related hs)

/-- The same with what the sections are, each in one step. -/
theorem run_atomic [Nonempty E] (hC : Commuting F handle outer quiet)
    (hA : Atomic l F handle outer settled quiet Inv)
    {D : S → I → Code K Op Ans A → Code K Op Ans A → S → Prop}
    (hD : ∀ {s i m p}, Inv s → s.code i = some (.acquire m p) →
      Reduces (handle i) l quiet settled (D s.shared i p) p s.shared)
    {s : S} (hs : Inv (restingAtomic s)) {u : Threads S I K Op Ans A}
    {ls : List (ThreadStep E I C)} (h : Run (threads l F handle) (resting s) ls u) :
    ∃ ks a, Run (atomicThreads F handle) (restingAtomic s) ks a ∧
      Always (atomicThreads F handle) (SectionIs l handle D) (restingAtomic s) ks ∧
      trace (atomicThreads F handle) shown (restingAtomic s) ks =
        trace (threads l F handle) seen (resting s) ls ∧
      (u.owner = none → u.shared = a.shared ∧ u.code = a.code) := by
  obtain ⟨ks,a,hrun,hrel,htrace⟩ := run_matched hC hA hs h
  refine ⟨ks,a,hrun,hA.sections hD hrun hs,htrace,fun howner => ?_⟩
  refine ⟨hrel.free howner,funext fun j => hrel.others j ?_⟩
  rw [howner]
  nofun

section Leaving

variable {P : Op → Prop}

def Inner (P : Op → Prop) : Code K Op Ans A → Prop
  | .call op next => P op ∧ ∀ x, Inner P (next x)
  | .ret _ | .acquire _ _ | .release _ _ => True

def Leaves (handle : E → S → (op : Op) → Option (S × Ans op)) (l : K) (P : Op → Prop) :
    Code K Op Ans A → S → Prop
  | .release m _, _ => m = l
  | .call op next, s => P op ∧ ∀ e, ∃ u x, handle e s op = some (u,x) ∧
      Leaves handle l P (next x) u
  | .ret _, _ | .acquire _ _, _ => False

omit [DecidableEq I] in
theorem Progress.inner {handle : Handler S E I Ans} {R : (op : Op) → Ans op → Prop} {i : I}
    {s u : S} {p q : Code K Op Ans A} (h : Progress handle R i s p u q) (hp : Inner P p) :
    Inner P q := by
  induction h with
  | refl s p => exact hp
  | step _ _ _ ih => exact ih (hp.2 _)

omit [DecidableEq I] in
theorem Concludes.leaves {i : I} {s : S} {p : Code K Op Ans A}
    (h : Concludes (handle i) l quiet settled Q p s) (hp : Inner P p) :
    Leaves (handle i) l P p s := by
  induction p generalizing s with
  | ret a => exact h
  | acquire m p => exact h
  | release m q => exact h.1
  | call op next ih =>
    refine ⟨hp.1,fun e => ?_⟩
    obtain ⟨u,x,hstep,-,hrest⟩ := h.2 e
    exact ⟨u,x,hstep,ih x hrest (hp.2 x)⟩

omit [DecidableEq I] in
theorem Reduces.leaves {i : I} {s : S} {p : Code K Op Ans A}
    (h : Reduces (handle i) l quiet settled Q p s) (hp : Inner P p) :
    Leaves (handle i) l P p s := by
  induction p generalizing s with
  | ret a => exact h
  | acquire m p => exact h
  | release m q => exact h.1
  | call op next ih =>
    refine ⟨hp.1,fun e => ?_⟩
    obtain ⟨u,x,hstep,hquiet,hloud⟩ := h e
    refine ⟨u,x,hstep,?_⟩
    by_cases hq : quiet op x
    · exact ih x (hquiet hq) (hp.2 x)
    · exact (hloud hq).leaves (hp.2 x)

omit [DecidableEq I] in
theorem Progress.leaves (hsettles : ∀ {i : I} (e e' : E) {s : S} {op : Op}, settled op →
      handle i e s op = handle i e' s op) (hP : ∀ op, settled op → P op) {i : I} {s v : S}
    {p q : Code K Op Ans A}
    (h : Progress handle (Settled quiet settled) i s p v (.release l q)) :
    Leaves (handle i) l P p s := by
  generalize hr : Code.release l q = r at h
  induction h with
  | refl s p =>
    subst hr
    rfl
  | @step s u v op next q e x hstep hset _ ih =>
    refine ⟨hP op hset.2,fun e' => ⟨u,x,?_,ih hr⟩⟩
    rw [← hstep]
    exact hsettles e' e hset.2

theorem Leaves.run (hfits : ∀ s i op, P op → F.fits s i op) {c : Threads S I K Op Ans A} {i : I}
    {p : Code K Op Ans A} (h : Leaves (handle i) l P p c.shared) (hi : c.code i = some p)
    (howner : c.owner = some i) (es : ℕ → E) :
    ∃ n u, Run (threads l F handle) c ((List.range n).map fun k => .go i (es k)) u ∧
      u.owner = none := by
  induction p generalizing c es with
  | ret a => exact h.elim
  | acquire m p => exact h.elim
  | release m q =>
    have he : (threads l F handle).enabled c (.go i (es 0)) := by
      show c.goes l F.fits i (c.code i)
      rw [hi]
      exact ⟨h,howner⟩
    have hs : (threads l F handle).step c (.go i (es 0)) =
        some (c.set i c.shared none (some q)) := by
      show c.go handle i (es 0) = _
      rw [Threads.go,hi]
    exact ⟨1,_,.single he hs,rfl⟩
  | call op next ih =>
    obtain ⟨hop,hall⟩ := h
    obtain ⟨w,x,hstep,hrest⟩ := hall (es 0)
    have he : (threads l F handle).enabled c (.go i (es 0)) := by
      show c.goes l F.fits i (c.code i)
      rw [hi]
      exact hfits c.shared i op hop
    have hs : (threads l F handle).step c (.go i (es 0)) =
        some (c.set i w c.owner (some (next x))) := by
      show c.go handle i (es 0) = _
      rw [Threads.go,hi]
      simp [hstep]
    have hnext : (c.set i w c.owner (some (next x))).code i = some (next x) := by simp
    obtain ⟨n,u,hrun,hu⟩ := ih x (c := c.set i w c.owner (some (next x))) hrest hnext howner
      fun k => es (k+1)
    refine ⟨n+1,u,?_,hu⟩
    rw [List.range_succ_eq_map,List.map_cons,List.map_map]
    exact .cons he hs hrun

theorem Related.released (hA : Atomic l F handle outer settled quiet Inv)
    (hfits : ∀ s i op, P op → F.fits s i op) (hP : ∀ op, settled op → P op)
    (hinner : ∀ {s i m p}, Inv s → s.code i = some (.acquire m p) → Inner P p)
    {c : Threads S I K Op Ans A} {a : AtomicThreads S I K Op Ans A}
    (h : Related l handle settled quiet Inv c a) {i : I} (howner : c.owner = some i) (es : ℕ → E) :
    ∃ n u, Run (threads l F handle) c ((List.range n).map fun k => .go i (es k)) u ∧
      u.owner = none := by
  cases h.held i howner with
  | waiting ha hc hp =>
    have hreduces := (hA.locked h.inv ha).2.progress hp
    exact (hreduces.leaves (hp.inner (hinner h.inv ha))).run hfits hc howner es
  | committed ha hc hp => exact (hp.leaves hA.settles hP).run hfits hc howner es

end Leaving

end Reduction

end LockReduction
