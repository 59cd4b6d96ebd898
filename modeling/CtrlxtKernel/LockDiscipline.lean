import Mathlib.Logic.Relation
import Mathlib.Tactic

/-!
# Code that takes locks

Code acquires and releases locks and makes calls, whose answers may be any. A
postcondition is taken back through the code, with the locks taken so far and
the locks held. Code in order takes no lock twice, and takes a lock only under
locks that come before it; threads that run such code never wait in a cycle.
-/

set_option autoImplicit false

namespace LockDiscipline

variable {K Op : Type} {Ans : Op → Type} {A B : Type}

inductive Code (K Op : Type) (Ans : Op → Type) (A : Type)
  | ret (a : A)
  | acquire (l : K) (rest : Code K Op Ans A)
  | release (l : K) (rest : Code K Op Ans A)
  | call (op : Op) (next : Ans op → Code K Op Ans A)

def Code.bind : Code K Op Ans A → (A → Code K Op Ans B) → Code K Op Ans B
  | .ret a, f => f a
  | .acquire l p, f => .acquire l (p.bind f)
  | .release l p, f => .release l (p.bind f)
  | .call op next, f => .call op fun x => (next x).bind f

instance : Monad (Code K Op Ans) where
  pure := .ret
  bind := .bind

def lock (l : K) : Code K Op Ans Unit := .acquire l (.ret ())

def unlock (l : K) : Code K Op Ans Unit := .release l (.ret ())

def ask (op : Op) : Code K Op Ans (Ans op) := .call op .ret

section Running

variable {S : Type*}

/-- The code by itself, with calls that touch a state and may fault. Locks are no effect. -/
def run (handle : S → (op : Op) → Option (S × Ans op)) : Code K Op Ans A → S → Option (S × A)
  | .ret a, s => some (s,a)
  | .acquire _ p, s => run handle p s
  | .release _ p, s => run handle p s
  | .call op next, s => (handle s op).bind fun r => run handle (next r.2) r.1

variable (handle : S → (op : Op) → Option (S × Ans op))

theorem run_bind (p : Code K Op Ans A) (f : A → Code K Op Ans B) (s : S) :
    run handle (p >>= f) s = (run handle p s).bind fun r => run handle (f r.2) r.1 := by
  show run handle (p.bind f) s = _
  induction p generalizing s with
  | ret a => rfl
  | acquire l p ih => exact ih s
  | release l p ih => exact ih s
  | call op next ih =>
    simp only [Code.bind,run]
    cases handle s op with
    | none => rfl
    | some r => exact ih r.2 r.1

@[simp] theorem run_pure (a : A) (s : S) :
    run handle (pure a : Code K Op Ans A) s = some (s,a) := rfl

@[simp] theorem run_lock (l : K) (s : S) : run handle (lock l) s = some (s,()) := rfl

@[simp] theorem run_unlock (l : K) (s : S) : run handle (unlock l) s = some (s,()) := rfl

@[simp] theorem run_ask (op : Op) (s : S) :
    run handle (ask op : Code K Op Ans (Ans op)) s = handle s op := by
  show (handle s op).bind (fun r => some (r.1,r.2)) = _
  cases handle s op <;> rfl

@[simp] theorem run_ite (c : Prop) [Decidable c] (p q : Code K Op Ans A) (s : S) :
    run handle (if c then p else q) s = if c then run handle p s else run handle q s := by
  split_ifs <;> rfl

theorem run_related {S' : Type*} {R : S → S' → Prop}
    {handle' : S' → (op : Op) → Option (S' × Ans op)}
    (h : ∀ s s' op u x, R s s' → handle s op = some (u,x) →
      ∃ u', handle' s' op = some (u',x) ∧ R u u')
    {p : Code K Op Ans A} {s u : S} {s' : S'} {a : A} (hs : R s s')
    (hp : run handle p s = some (u,a)) : ∃ u', run handle' p s' = some (u',a) ∧ R u u' := by
  induction p generalizing s s' with
  | ret b =>
    obtain ⟨rfl,rfl⟩ := Prod.mk.inj (Option.some.inj hp)
    exact ⟨s',rfl,hs⟩
  | acquire l p ih => exact ih hs hp
  | release l p ih => exact ih hs hp
  | call op next ih =>
    obtain ⟨⟨v,x⟩,hv,hrest⟩ := Option.bind_eq_some_iff.mp hp
    obtain ⟨v',hv',hR⟩ := h s s' op v x hs hv
    obtain ⟨u',hu',hRu⟩ := ih x hR hrest
    exact ⟨u',by rw [run,hv']; exact hu',hRu⟩

end Running

inductive Event (K : Type)
  | acquire (l : K)
  | release (l : K)
  deriving DecidableEq

inductive Path : Code K Op Ans A → List (Event K) → A → Prop
  | ret (a : A) : Path (.ret a) [] a
  | acquire {l : K} {p : Code K Op Ans A} {es : List (Event K)} {a : A} (h : Path p es a) :
      Path (.acquire l p) (.acquire l::es) a
  | release {l : K} {p : Code K Op Ans A} {es : List (Event K)} {a : A} (h : Path p es a) :
      Path (.release l p) (.release l::es) a
  | call {op : Op} {next : Ans op → Code K Op Ans A} {es : List (Event K)} {a : A} (x : Ans op)
      (h : Path (next x) es a) : Path (.call op next) es a

theorem path_exists (h : ∀ op, Nonempty (Ans op)) (p : Code K Op Ans A) :
    ∃ es a, Path p es a := by
  induction p with
  | ret a => exact ⟨[],a,.ret a⟩
  | acquire l p ih =>
    obtain ⟨es,a,hp⟩ := ih
    exact ⟨_,a,.acquire hp⟩
  | release l p ih =>
    obtain ⟨es,a,hp⟩ := ih
    exact ⟨_,a,.release hp⟩
  | call op next ih =>
    obtain ⟨x⟩ := h op
    obtain ⟨es,a,hp⟩ := ih x
    exact ⟨es,a,.call x hp⟩

structure Locks (K : Type) where
  taken : List K
  held : List K

def Locks.none : Locks K := ⟨[],[]⟩

def Locks.acquire (s : Locks K) (l : K) : Locks K := ⟨l::s.taken,l::s.held⟩

@[simp] theorem none_taken : (Locks.none : Locks K).taken = [] := rfl

@[simp] theorem none_held : (Locks.none : Locks K).held = [] := rfl

@[simp] theorem acquire_taken (s : Locks K) (l : K) : (s.acquire l).taken = l::s.taken := rfl

@[simp] theorem acquire_held (s : Locks K) (l : K) : (s.acquire l).held = l::s.held := rfl

variable [DecidableEq K] {before : K → K → Prop}

def Locks.release (s : Locks K) (l : K) : Locks K := ⟨s.taken,s.held.erase l⟩

@[simp] theorem release_taken (s : Locks K) (l : K) : (s.release l).taken = s.taken := rfl

@[simp] theorem release_held (s : Locks K) (l : K) : (s.release l).held = s.held.erase l := rfl

/-- Whatever the calls answer, the code is in order and ends in the postcondition. -/
def wp (before : K → K → Prop) : Code K Op Ans A → (A → Locks K → Prop) → Locks K → Prop
  | .ret a, Q, s => Q a s
  | .acquire l p, Q, s =>
    l ∉ s.taken ∧ (∀ h ∈ s.held, before h l) ∧ wp before p Q (s.acquire l)
  | .release l p, Q, s => l ∈ s.held ∧ wp before p Q (s.release l)
  | .call _ next, Q, s => ∀ x, wp before (next x) Q s

theorem wp_bind (p : Code K Op Ans A) (f : A → Code K Op Ans B) (Q : B → Locks K → Prop)
    (s : Locks K) :
    wp before (p >>= f) Q s ↔ wp before p (fun a s => wp before (f a) Q s) s := by
  show wp before (p.bind f) Q s ↔ _
  induction p generalizing s with
  | ret a => exact Iff.rfl
  | acquire l p ih => exact and_congr_right fun _ => and_congr_right fun _ => ih _
  | release l p ih => exact and_congr_right fun _ => ih _
  | call op next ih => exact forall_congr' fun x => ih x s

theorem wp_mono {Q R : A → Locks K → Prop} (hQR : ∀ a s, Q a s → R a s) {p : Code K Op Ans A}
    {s : Locks K} (h : wp before p Q s) : wp before p R s := by
  induction p generalizing s with
  | ret a => exact hQR a s h
  | acquire l p ih => exact ⟨h.1,h.2.1,ih h.2.2⟩
  | release l p ih => exact ⟨h.1,ih h.2⟩
  | call op next ih => exact fun x => ih x (h x)

@[simp] theorem wp_pure (a : A) (Q : A → Locks K → Prop) (s : Locks K) :
    wp before (pure a : Code K Op Ans A) Q s ↔ Q a s := Iff.rfl

@[simp] theorem wp_lock (l : K) (Q : Unit → Locks K → Prop) (s : Locks K) :
    wp before (lock l : Code K Op Ans Unit) Q s ↔
      l ∉ s.taken ∧ (∀ h ∈ s.held, before h l) ∧ Q () (s.acquire l) := Iff.rfl

@[simp] theorem wp_unlock (l : K) (Q : Unit → Locks K → Prop) (s : Locks K) :
    wp before (unlock l : Code K Op Ans Unit) Q s ↔ l ∈ s.held ∧ Q () (s.release l) := Iff.rfl

@[simp] theorem wp_ask (op : Op) (Q : Ans op → Locks K → Prop) (s : Locks K) :
    wp before (ask op : Code K Op Ans (Ans op)) Q s ↔ ∀ x, Q x s := Iff.rfl

@[simp] theorem wp_ite (c : Prop) [Decidable c] (p q : Code K Op Ans A)
    (Q : A → Locks K → Prop) (s : Locks K) :
    wp before (if c then p else q) Q s ↔ (c → wp before p Q s) ∧ (¬c → wp before q Q s) := by
  split_ifs with h <;> simp [h]

inductive Follows (before : K → K → Prop) : Locks K → List (Event K) → Locks K → Prop
  | nil (s : Locks K) : Follows before s [] s
  | acquire {s u : Locks K} {l : K} {es : List (Event K)} (hl : l ∉ s.taken)
      (ho : ∀ h ∈ s.held, before h l) (rest : Follows before (s.acquire l) es u) :
      Follows before s (.acquire l::es) u
  | release {s u : Locks K} {l : K} {es : List (Event K)} (hl : l ∈ s.held)
      (rest : Follows before (s.release l) es u) : Follows before s (.release l::es) u

theorem wp_path {p : Code K Op Ans A} {es : List (Event K)} {a : A} (h : Path p es a)
    {Q : A → Locks K → Prop} {s : Locks K} (hp : wp before p Q s) :
    ∃ u, Follows before s es u ∧ Q a u := by
  induction h generalizing s with
  | ret a => exact ⟨s,.nil s,hp⟩
  | acquire _ ih =>
    obtain ⟨hl,ho,hp⟩ := hp
    obtain ⟨u,hu,hQ⟩ := ih hp
    exact ⟨u,.acquire hl ho hu,hQ⟩
  | release _ ih =>
    obtain ⟨hl,hp⟩ := hp
    obtain ⟨u,hu,hQ⟩ := ih hp
    exact ⟨u,.release hl hu,hQ⟩
  | call x _ ih => exact ih (hp x)

theorem Follows.split {s u : Locks K} {pre post : List (Event K)}
    (h : Follows before s (pre++post) u) :
    ∃ v, Follows before s pre v ∧ Follows before v post u := by
  induction pre generalizing s with
  | nil => exact ⟨s,.nil s,h⟩
  | cons e pre ih =>
    cases h with
    | acquire hl ho rest =>
      obtain ⟨v,hv,hu⟩ := ih rest
      exact ⟨v,.acquire hl ho hv,hu⟩
    | release hl rest =>
      obtain ⟨v,hv,hu⟩ := ih rest
      exact ⟨v,.release hl hv,hu⟩

theorem Follows.taken_count {s u : Locks K} {es : List (Event K)} (h : Follows before s es u)
    (l : K) : u.taken.count l = s.taken.count l+es.count (.acquire l) := by
  induction h with
  | nil s => rfl
  | acquire _ _ _ ih =>
    rw [ih,Locks.acquire,List.count_cons,List.count_cons]
    simp only [beq_iff_eq,Event.acquire.injEq]
    omega
  | release _ _ ih =>
    rw [ih,Locks.release,List.count_cons]
    simp

theorem Follows.held_count {s u : Locks K} {es : List (Event K)} (h : Follows before s es u)
    (l : K) :
    u.held.count l+es.count (.release l) = s.held.count l+es.count (.acquire l) := by
  induction h with
  | nil s => rfl
  | acquire _ _ _ ih =>
    rw [Locks.acquire,List.count_cons] at ih
    simp only [List.count_cons,beq_iff_eq,Event.acquire.injEq,reduceCtorEq,if_false] at ih ⊢
    omega
  | @release s u m es hm _ ih =>
    rw [Locks.release] at ih
    simp only [List.count_cons,beq_iff_eq,Event.release.injEq,reduceCtorEq,if_false]
    by_cases hml : m = l
    · subst hml
      have hpos := List.count_pos_iff.mpr hm
      rw [List.count_erase_self] at ih
      rw [if_pos rfl]
      omega
    · rw [List.count_erase_of_ne (Ne.symm hml)] at ih
      rw [if_neg hml]
      omega

theorem Follows.taken_nodup {s u : Locks K} {es : List (Event K)} (h : Follows before s es u)
    (hs : s.taken.Nodup) : u.taken.Nodup := by
  induction h with
  | nil s => exact hs
  | acquire hl _ _ ih => exact ih (List.nodup_cons.mpr ⟨hl,hs⟩)
  | release _ _ ih => exact ih hs

theorem Follows.taken_mem {s u : Locks K} {es : List (Event K)} (h : Follows before s es u)
    {l : K} (hl : .acquire l ∈ es) : l ∈ u.taken := by
  have hcount := h.taken_count l
  have hpos := List.count_pos_iff.mpr hl
  exact List.count_pos_iff.mp (by omega)

theorem Follows.ordered {s u : Locks K} {pre post : List (Event K)} {l h : K}
    (hf : Follows before s (pre++.acquire l::post) u)
    (hh : pre.count (.release h) < s.held.count h+pre.count (.acquire h)) : before h l := by
  obtain ⟨v,hv,hu⟩ := hf.split
  have hcount := hv.held_count h
  have hheld : h ∈ v.held := List.count_pos_iff.mp (by omega)
  cases hu with
  | acquire _ ho _ => exact ho h hheld

/-- The events done by a holder of these locks. It must not take a lock that it
holds, or release one that it does not hold. -/
def replay : List K → List (Event K) → Option (List K)
  | held, [] => some held
  | held, .acquire l::es => if l ∈ held then none else replay (l::held) es
  | held, .release l::es => if l ∈ held then replay (held.erase l) es else none

theorem Follows.replay {s u : Locks K} {es : List (Event K)} (h : Follows before s es u)
    (hs : s.held ⊆ s.taken) {entry : List K} (he : ∀ l, .acquire l ∈ es → l ∉ entry) :
    replay (s.held++entry) es = some (u.held++entry) := by
  induction h with
  | nil s => rfl
  | @acquire s u l es hl _ _ ih =>
    have hfree : l ∉ s.held++entry := by
      rw [List.mem_append,not_or]
      exact ⟨fun hm => hl (hs hm),he l List.mem_cons_self⟩
    rw [LockDiscipline.replay,if_neg hfree]
    exact ih (List.cons_subset_cons l hs) fun m hm => he m (List.mem_cons_of_mem _ hm)
  | @release s u l es hl _ ih =>
    rw [LockDiscipline.replay,if_pos (List.mem_append_left entry hl),List.erase_append_left _ hl]
    exact ih (fun m hm => hs (List.mem_of_mem_erase hm))
      fun m hm => he m (List.mem_cons_of_mem _ hm)

def InOrder (before : K → K → Prop) (p : Code K Op Ans A) : Prop :=
  wp before p (fun _ s => s.held = []) .none

section Threads

variable {I : Type*}

structure Thread (K Op : Type) (Ans : Op → Type) where
  code : Code K Op Ans Unit
  locks : Locks K

def idle : I → Thread K Op Ans := fun _ => ⟨.ret (),.none⟩

def WaitsFor (s : I → Thread K Op Ans) (i j : I) : Prop :=
  ∃ l p, (s i).code = .acquire l p ∧ l ∈ (s j).locks.held

def Thread.InOrder (before : K → K → Prop) (x : Thread K Op Ans) : Prop :=
  wp before x.code (fun _ s => s.held = []) x.locks

theorem waits_before {s : I → Thread K Op Ans} (hs : ∀ i, (s i).InOrder before) {i j : I}
    (h : Relation.TransGen (WaitsFor s) i j) {l m : K} {p q : Code K Op Ans Unit}
    (hi : (s i).code = .acquire l p) (hj : (s j).code = .acquire m q) :
    Relation.TransGen before l m := by
  have hold : ∀ {k n m' : _} {q' : Code K Op Ans Unit}, n ∈ (s k).locks.held →
      (s k).code = .acquire m' q' → before n m' := by
    intro k n m' q' hn hk
    have hnow := hs k
    rw [Thread.InOrder,hk] at hnow
    exact hnow.2.1 n hn
  induction h generalizing m q with
  | single hw =>
    obtain ⟨l',p',hi',hheld⟩ := hw
    obtain ⟨rfl,-⟩ := Code.acquire.inj (hi.symm.trans hi')
    exact .single (hold hheld hj)
  | tail _ hw ih =>
    obtain ⟨n,p',hk,hheld⟩ := hw
    exact .tail (ih hk) (hold hheld hj)

variable [DecidableEq I]

/-- One thread goes on: with a new call, with a lock that nobody holds, with a
release, or with any answer to its call. -/
inductive Step (calls : Code K Op Ans Unit → Prop) :
    (I → Thread K Op Ans) → (I → Thread K Op Ans) → Prop
  | start {s : I → Thread K Op Ans} {i : I} {a : Unit} {p : Code K Op Ans Unit} (hp : calls p)
      (hi : (s i).code = .ret a) :
      Step calls s (Function.update s i ⟨p,⟨[],(s i).locks.held⟩⟩)
  | acquire {s : I → Thread K Op Ans} {i : I} {l : K} {p : Code K Op Ans Unit}
      (hi : (s i).code = .acquire l p) (hfree : ∀ j, l ∉ (s j).locks.held) :
      Step calls s (Function.update s i ⟨p,(s i).locks.acquire l⟩)
  | release {s : I → Thread K Op Ans} {i : I} {l : K} {p : Code K Op Ans Unit}
      (hi : (s i).code = .release l p) :
      Step calls s (Function.update s i ⟨p,(s i).locks.release l⟩)
  | answer {s : I → Thread K Op Ans} {i : I} {op : Op} {next : Ans op → Code K Op Ans Unit}
      (hi : (s i).code = .call op next) (x : Ans op) :
      Step calls s (Function.update s i ⟨next x,(s i).locks⟩)

def Reachable (calls : Code K Op Ans Unit → Prop) (s : I → Thread K Op Ans) : Prop :=
  Relation.ReflTransGen (Step calls) idle s

variable {calls : Code K Op Ans Unit → Prop}

theorem step_inOrder (hc : ∀ p, calls p → InOrder before p) {s u : I → Thread K Op Ans}
    (h : Step calls s u) (hs : ∀ i, (s i).InOrder before) (i : I) : (u i).InOrder before := by
  have hset : ∀ {j : I} {x : Thread K Op Ans}, x.InOrder before →
      (Function.update s j x i).InOrder before := by
    intro j x hx
    by_cases hij : i = j
    · rw [hij,Function.update_self]
      exact hx
    · rw [Function.update_of_ne hij]
      exact hs i
  cases h with
  | @start j a p hp hj =>
    have hdone := hs j
    rw [Thread.InOrder,hj] at hdone
    have hheld : (s j).locks.held = [] := hdone
    apply hset
    rw [hheld]
    exact hc p hp
  | @acquire j l p hj _ =>
    have hnow := hs j
    rw [Thread.InOrder,hj] at hnow
    exact hset hnow.2.2
  | @release j l p hj =>
    have hnow := hs j
    rw [Thread.InOrder,hj] at hnow
    exact hset hnow.2
  | @answer j op next hj x =>
    have hnow := hs j
    rw [Thread.InOrder,hj] at hnow
    exact hset (hnow x)

theorem reachable_inOrder (hc : ∀ p, calls p → InOrder before p) {s : I → Thread K Op Ans}
    (h : Reachable calls s) (i : I) : (s i).InOrder before := by
  induction h generalizing i with
  | refl => rfl
  | tail _ hstep ih => exact step_inOrder hc hstep ih i

/-- Threads whose calls are in order never wait for each other in a cycle. -/
theorem no_wait_cycle (hb : ∀ l, ¬Relation.TransGen before l l)
    (hc : ∀ p, calls p → InOrder before p) {s : I → Thread K Op Ans} (h : Reachable calls s)
    (i : I) : ¬Relation.TransGen (WaitsFor s) i i := by
  intro hcycle
  obtain ⟨j,⟨l,p,hi,-⟩,-⟩ := Relation.TransGen.head'_iff.mp hcycle
  exact hb l (waits_before (reachable_inOrder hc h) hcycle hi hi)

end Threads

end LockDiscipline
