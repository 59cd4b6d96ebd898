import CtrlxtKernel.LockReduction

/-!
# Locks under a lock

Where all threads take their further locks only under one lock, nobody ever
waits for these: they are flags in the state, and to take one that is taken
already, or to give back one that is not, is a fault. A section that takes
each once, gives all back and makes at most one call that others can tell, its
last, takes effect as a whole.
-/

set_option autoImplicit false

namespace LockReduction
open LockDiscipline

variable {K Op X A B : Type} {Ans : Op → Type} {AnsX : X → Type} {S I : Type*}

inductive NestedOp (K Op X : Type) where
  | code (op : Op)
  | other (x : X)
  | take (m : K)
  | give (m : K)

abbrev NestedOp.Answer (Ans : Op → Type) (AnsX : X → Type) : NestedOp K Op X → Type
  | .code op => Ans op
  | .other x => AnsX x
  | .take _ | .give _ => Unit

structure NestedState (S K : Type*) where
  shared : S
  held : List K

section Nesting

variable [DecidableEq K]

abbrev NestedCode (K : Type) (Ans : Op → Type) (AnsX : X → Type) (A : Type) : Type :=
  Code K (NestedOp K Op X) (NestedOp.Answer Ans AnsX) A

def nest (l : K) : Code K Op Ans A → NestedCode K Ans AnsX A
  | .ret a => .ret a
  | .acquire m p => if m = l then .acquire l (nest l p) else .call (.take m) fun _ => nest l p
  | .release m p => if m = l then .release l (nest l p) else .call (.give m) fun _ => nest l p
  | .call op next => .call (.code op) fun x => nest l (next x)

def nestHandle (answer : S → (op : Op) → Option (S × Ans op))
    (other : S → (x : X) → Option (S × AnsX x)) (_ : I) (_ : Unit) (s : NestedState S K) :
    (op : NestedOp K Op X) → Option (NestedState S K × op.Answer Ans AnsX)
  | .code op => (answer s.shared op).map fun r => (⟨r.1,s.held⟩,r.2)
  | .other x => (other s.shared x).map fun r => (⟨r.1,s.held⟩,r.2)
  | .take m => if m ∈ s.held then none else some (⟨s.shared,m::s.held⟩,())
  | .give m => if m ∈ s.held then some (⟨s.shared,s.held.erase m⟩,()) else none

def IsSection (l : K) (loud : Op → Prop) : List K → Code K Op Ans A → Prop
  | held, .call op next =>
    (loud op → held = [] ∧ ∀ x, ∃ a, next x = .release l (.ret a)) ∧
      ∀ x, IsSection l loud held (next x)
  | held, .acquire m p => m ≠ l ∧ m ∉ held ∧ IsSection l loud (m::held) p
  | held, .release m p =>
    if m = l then held = [] ∧ ∃ a, p = .ret a else m ∈ held ∧ IsSection l loud (held.erase m) p
  | _, .ret _ => False

def Within (l : K) (loud : Op → Prop) : Code K Op Ans A → (A → List K → Prop) → List K → Prop
  | .ret a, Q, held => Q a held
  | .acquire m p, Q, held => m ≠ l ∧ m ∉ held ∧ Within l loud p Q (m::held)
  | .release m p, Q, held => m ≠ l ∧ m ∈ held ∧ Within l loud p Q (held.erase m)
  | .call op next, Q, held => ¬loud op ∧ ∀ x, Within l loud (next x) Q held

def Silent (loud : Op → Prop) : (op : NestedOp K Op X) → op.Answer Ans AnsX → Prop
  | .code op, _ => ¬loud op
  | .take _, _ | .give _, _ => True
  | .other _, _ => False

variable {l : K} {loud : Op → Prop}

theorem within_bind {p : Code K Op Ans A} {f : A → Code K Op Ans B} {Q : B → List K → Prop}
    {held : List K} :
    Within l loud (p >>= f) Q held ↔ Within l loud p (fun a => Within l loud (f a) Q) held := by
  show Within l loud (p.bind f) Q held ↔ _
  induction p generalizing held with
  | ret a => exact Iff.rfl
  | acquire m p ih => exact and_congr_right fun _ => and_congr_right fun _ => ih
  | release m p ih => exact and_congr_right fun _ => and_congr_right fun _ => ih
  | call op next ih => exact and_congr_right fun _ => forall_congr' fun x => ih x

@[simp] theorem within_pure (a : A) (Q : A → List K → Prop) (held : List K) :
    Within l loud (pure a : Code K Op Ans A) Q held ↔ Q a held := Iff.rfl

@[simp] theorem within_lock (m : K) (Q : Unit → List K → Prop) (held : List K) :
    Within l loud (lock m : Code K Op Ans Unit) Q held ↔ m ≠ l ∧ m ∉ held ∧ Q () (m::held) :=
  Iff.rfl

@[simp] theorem within_ask (op : Op) (Q : Ans op → List K → Prop) (held : List K) :
    Within l loud (ask op : Code K Op Ans (Ans op)) Q held ↔ ¬loud op ∧ ∀ x, Q x held := Iff.rfl

@[simp] theorem within_ite (c : Prop) [Decidable c] (p q : Code K Op Ans A)
    (Q : A → List K → Prop) (held : List K) :
    Within l loud (if c then p else q) Q held ↔
      (c → Within l loud p Q held) ∧ (¬c → Within l loud q Q held) := by
  split_ifs with h <;> simp [h]

theorem section_bind {p : Code K Op Ans A} {f : A → Code K Op Ans B} {held : List K}
    (h : Within l loud p (fun a held => IsSection l loud held (f a)) held) :
    IsSection l loud held (p >>= f) := by
  show IsSection l loud held (p.bind f)
  induction p generalizing held with
  | ret a => exact h
  | acquire m p ih => exact ⟨h.1,h.2.1,ih h.2.2⟩
  | release m p ih =>
    rw [Code.bind,IsSection,if_neg h.1]
    exact ⟨h.2.1,ih h.2.2⟩
  | call op next ih => exact ⟨fun hl => absurd hl h.1,fun x => ih x (h.2 x)⟩

theorem section_ask {op : Op} {f : Ans op → Code K Op Ans B} {held : List K} (hop : ¬loud op)
    (h : ∀ x, IsSection l loud held (f x)) : IsSection l loud held (ask op >>= f) :=
  section_bind ⟨hop,h⟩

theorem section_unlock (a : A) :
    IsSection l loud [] (do unlock l; pure a : Code K Op Ans A) := by
  show if l = l then _ else _
  rw [if_pos rfl]
  exact ⟨rfl,a,rfl⟩

theorem IsSection.map {p : Code K Op Ans A} {held : List K} (h : IsSection l loud held p)
    (f : A → B) : IsSection l loud held (p.bind fun a => .ret (f a)) := by
  induction p generalizing held with
  | ret a => exact h
  | acquire m p ih => exact ⟨h.1,h.2.1,ih h.2.2⟩
  | release m p ih =>
    rw [Code.bind,IsSection]
    rw [IsSection] at h
    split_ifs at h ⊢ with hm
    · obtain ⟨hheld,a,rfl⟩ := h
      exact ⟨hheld,f a,rfl⟩
    · exact ⟨h.1,ih h.2⟩
  | call op next ih =>
    refine ⟨fun hl => ?_,fun x => ih x (h.2 x)⟩
    obtain ⟨hheld,hend⟩ := h.1 hl
    refine ⟨hheld,fun x => ?_⟩
    obtain ⟨a,ha⟩ := hend x
    refine ⟨f a,?_⟩
    show (next x).bind _ = _
    rw [ha]
    rfl

variable {answer : S → (op : Op) → Option (S × Ans op)}
  {other : S → (x : X) → Option (S × AnsX x)}

omit [DecidableEq K] in
theorem run_keeps {R : S → Prop} (hR : ∀ s op u x, answer s op = some (u,x) → R s → R u)
    {p : Code K Op Ans A} {s v : S} {a : A} (hrun : run answer p s = some (v,a)) (hs : R s) :
    R v := by
  induction p generalizing s with
  | ret b =>
    cases hrun
    exact hs
  | acquire m p ih | release m p ih => exact ih hrun hs
  | call op next ih =>
    obtain ⟨⟨u,x⟩,hstep,hrest⟩ := Option.bind_eq_some_iff.mp hrun
    exact ih x hrest (hR s op u x hstep hs)

/-- A section that has a result by itself has it as a whole, and gives back all locks. -/
theorem section_reduces {p : Code K Op Ans A} {held : List K} (h : IsSection l loud held p)
    {s v : S} {a : A} (hrun : run answer p s = some (v,a)) (i : I) :
    Reduces (nestHandle answer other i) l (Silent loud) (fun _ => False)
      (fun q u => q = .ret a ∧ u = ⟨v,[]⟩) (nest l p) ⟨s,held⟩ := by
  induction p generalizing held s with
  | ret b => exact h.elim
  | acquire m p ih =>
    obtain ⟨hm,hfree,h⟩ := h
    rw [nest,if_neg hm]
    exact Reduces.before (fun _ => if_neg hfree) trivial (ih h hrun)
  | release m p ih =>
    rw [IsSection] at h
    by_cases hm : m = l
    · rw [if_pos hm] at h
      obtain ⟨rfl,b,rfl⟩ := h
      cases hrun
      rw [nest,if_pos hm]
      exact ⟨rfl,rfl,rfl⟩
    · rw [if_neg hm] at h
      rw [nest,if_neg hm]
      exact Reduces.before (fun _ => if_pos h.1) trivial (ih h.2 hrun)
  | call op next ih =>
    obtain ⟨⟨u,x⟩,hstep,hrest⟩ := Option.bind_eq_some_iff.mp hrun
    have hcall : ∀ e, nestHandle answer other i e ⟨s,held⟩ (.code op) = some (⟨u,held⟩,x) := by
      intro e
      simp only [nestHandle,hstep,Option.map_some]
    rw [nest]
    by_cases hl : loud op
    · obtain ⟨rfl,hend⟩ := h.1 hl
      obtain ⟨b,hb⟩ := hend x
      dsimp only at hrest
      rw [hb] at hrest
      cases hrest
      refine Reduces.effect hcall (fun hn => hn hl) ?_
      rw [hb,nest,if_pos rfl]
      exact ⟨rfl,rfl,rfl⟩
    · exact Reduces.before hcall hl (ih x (h.2 x) hrest)

theorem inner_nest {P : NestedOp K Op X → Prop} (hP : ∀ op, P op) (p : Code K Op Ans A) :
    Inner P (nest l p : NestedCode K Ans AnsX A) := by
  induction p with
  | ret a => trivial
  | acquire m p ih =>
    rw [nest]
    split_ifs
    · trivial
    · exact ⟨hP _,fun _ => ih⟩
  | release m p ih =>
    rw [nest]
    split_ifs
    · trivial
    · exact ⟨hP _,fun _ => ih⟩
  | call op next ih => exact ⟨hP _,ih⟩

end Nesting

end LockReduction
