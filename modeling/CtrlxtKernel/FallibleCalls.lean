import Mathlib.Tactic

/-!
# Fallible calls in a row

A call changes a world and answers with a number; a negative answer is a
failure. A program makes calls one after the other and returns at the first
failure. What it leaves is what the calls before that one made, if a call that
fails changes nothing. A log beside the world records the calls made.
-/

set_option autoImplicit false

namespace FallibleCalls

variable {W C D : Type*}

def performAll (perform : W → C → W × ℤ) : W → List C → W × ℤ
  | w, [] => (w,0)
  | w, c::cs =>
    if (perform w c).2 < 0 then perform w c else performAll perform (perform w c).1 cs

def FailsClean (perform : W → C → W × ℤ) : Prop :=
  ∀ w c, (perform w c).2 < 0 → (perform w c).1 = w

/-- The calls in `done` were made and succeeded, the next one failed with `ret`,
and the world is `w'` from the last success on. -/
structure Stopped (perform : W → C → W × ℤ) (w : W) (cs : List C) (w' : W) (ret : ℤ)
    (done : List C) : Prop where
  failed : ret < 0
  before : performAll perform w done = (w',0)
  next : ∃ c rest, cs = done++c::rest ∧ perform w' c = (w',ret)

variable {perform : W → C → W × ℤ}

theorem FailsClean.world (hp : FailsClean perform) {w w' : W} {c : C} {ret : ℤ}
    (h : perform w c = (w',ret)) (hret : ret < 0) : w' = w := by
  have hw := hp w c (by rw [h]; exact hret)
  rwa [h] at hw

theorem performAll_cons_failed {w : W} {c : C} (h : (perform w c).2 < 0) (cs : List C) :
    performAll perform w (c::cs) = perform w c := by
  rw [performAll,if_pos h]

theorem performAll_cons {w : W} {c : C} (h : ¬(perform w c).2 < 0) (cs : List C) :
    performAll perform w (c::cs) = performAll perform (perform w c).1 cs := by
  rw [performAll,if_neg h]

theorem performAll_zero (w : W) (cs : List C) (h : ¬(performAll perform w cs).2 < 0) :
    (performAll perform w cs).2 = 0 := by
  induction cs generalizing w with
  | nil => rfl
  | cons c cs ih =>
    by_cases hc : (perform w c).2 < 0
    · rw [performAll_cons_failed hc] at h
      exact absurd hc h
    · rw [performAll_cons hc] at h ⊢
      exact ih _ h

theorem performAll_append (w : W) (cs rest : List C) :
    performAll perform w (cs++rest) =
      if (performAll perform w cs).2 < 0 then performAll perform w cs
      else performAll perform (performAll perform w cs).1 rest := by
  induction cs generalizing w with
  | nil => simp [performAll]
  | cons c cs ih =>
    by_cases hc : (perform w c).2 < 0
    · rw [List.cons_append,performAll_cons_failed hc,performAll_cons_failed hc,if_pos hc]
    · rw [List.cons_append,performAll_cons hc,performAll_cons hc,ih]

theorem performAll_map (f : D → C) (w : W) (ds : List D) :
    performAll perform w (ds.map f) = performAll (fun w d => perform w (f d)) w ds := by
  induction ds generalizing w with
  | nil => rfl
  | cons d ds ih => simp only [List.map_cons,performAll,ih]

theorem Stopped.cons {w w' : W} {c : C} {cs done : List C} {ret : ℤ}
    (hc : ¬(perform w c).2 < 0) (h : Stopped perform (perform w c).1 cs w' ret done) :
    Stopped perform w (c::cs) w' ret (c::done) := by
  obtain ⟨d,rest,hcs,hd⟩ := h.next
  refine ⟨h.failed,?_,d,rest,by rw [hcs]; rfl,hd⟩
  rw [performAll_cons hc]
  exact h.before

theorem Stopped.append {w w' : W} {cs done : List C} {ret : ℤ}
    (h : Stopped perform w cs w' ret done) (more : List C) :
    Stopped perform w (cs++more) w' ret done := by
  obtain ⟨d,rest,hcs,hd⟩ := h.next
  exact ⟨h.failed,h.before,d,rest++more,by rw [hcs]; simp,hd⟩

/-- A sequence that fails stopped at a call that failed. -/
theorem performAll_stopped (hp : FailsClean perform) (w : W) (cs : List C)
    (h : (performAll perform w cs).2 < 0) :
    ∃ done, Stopped perform w cs (performAll perform w cs).1 (performAll perform w cs).2 done := by
  induction cs generalizing w with
  | nil => simp [performAll] at h
  | cons c cs ih =>
    by_cases hc : (perform w c).2 < 0
    · rw [performAll_cons_failed hc,hp w c hc]
      exact ⟨[],hc,rfl,c,cs,rfl,Prod.ext (hp w c hc) rfl⟩
    · rw [performAll_cons hc] at h ⊢
      obtain ⟨done,hd⟩ := ih _ h
      exact ⟨c::done,hd.cons hc⟩

def logged (perform : W → C → W × ℤ) (s : W × List C) (c : C) : (W × List C) × ℤ :=
  (((perform s.1 c).1,s.2++[c]),(perform s.1 c).2)

theorem logged_prefix (perform : W → C → W × ℤ) (w : W) (log cs : List C) :
    ∃ done rest, cs = done++rest ∧
      (performAll (logged perform) (w,log) cs).1.2 = log++done := by
  induction cs generalizing w log with
  | nil => exact ⟨[],[],rfl,by simp [performAll]⟩
  | cons c cs ih =>
    by_cases hc : (logged perform (w,log) c).2 < 0
    · refine ⟨[c],cs,rfl,?_⟩
      rw [performAll_cons_failed hc]
      rfl
    · rw [performAll_cons hc]
      obtain ⟨done,rest,hcs,hlog⟩ := ih (perform w c).1 (log++[c])
      refine ⟨c::done,rest,by rw [hcs]; rfl,?_⟩
      rw [logged,hlog]
      simp

theorem logged_success (perform : W → C → W × ℤ) (w : W) (log cs : List C)
    (h : ¬(performAll (logged perform) (w,log) cs).2 < 0) :
    (performAll (logged perform) (w,log) cs).1.2 = log++cs := by
  induction cs generalizing w log with
  | nil => simp [performAll]
  | cons c cs ih =>
    by_cases hc : (logged perform (w,log) c).2 < 0
    · rw [performAll_cons_failed hc] at h
      exact absurd hc h
    · rw [performAll_cons hc] at h ⊢
      rw [logged] at h ⊢
      rw [ih _ _ h]
      simp

def answers (perform : W → C → W × ℤ) : W → List C → List ℤ
  | _, [] => []
  | w, c::cs => (perform w c).2::answers perform (perform w c).1 cs

def FirstFailure (rets : List ℤ) (k : ℕ) (ret : ℤ) : Prop :=
  rets[k]? = some ret ∧ ret < 0 ∧ ∀ r ∈ rets.take k, 0 ≤ r

theorem firstFailure_zero {r : ℤ} {rets : List ℤ} {ret : ℤ} :
    FirstFailure (r::rets) 0 ret ↔ r = ret ∧ ret < 0 := by
  simp [FirstFailure]

theorem firstFailure_succ {r : ℤ} {rets : List ℤ} {k : ℕ} {ret : ℤ} :
    FirstFailure (r::rets) (k+1) ret ↔ 0 ≤ r ∧ FirstFailure rets k ret := by
  simp only [FirstFailure,List.getElem?_cons_succ,List.take_succ_cons,List.forall_mem_cons]
  tauto

theorem logged_first {w : W} {cs : List C} {k : ℕ} {ret : ℤ}
    (h : FirstFailure (answers perform w cs) k ret) (log : List C) :
    ∃ w', performAll (logged perform) (w,log) cs = ((w',log++cs.take (k+1)),ret) := by
  induction cs generalizing w k log with
  | nil => simp [answers,FirstFailure] at h
  | cons c cs ih =>
    cases k with
    | zero =>
      obtain ⟨hret,hneg⟩ := firstFailure_zero.mp h
      have hc : (logged perform (w,log) c).2 < 0 := hret.trans_lt hneg
      rw [performAll_cons_failed hc]
      exact ⟨(perform w c).1,Prod.ext rfl hret⟩
    | succ k =>
      obtain ⟨hc,hrest⟩ := firstFailure_succ.mp h
      obtain ⟨w',hw⟩ := ih hrest (log++[c])
      have hgo : ¬(logged perform (w,log) c).2 < 0 := not_lt.mpr hc
      rw [performAll_cons hgo]
      exact ⟨w',hw.trans (by simp)⟩

theorem logged_complete {w : W} {cs : List C} (h : ∀ r ∈ answers perform w cs, 0 ≤ r)
    (log : List C) : ∃ w', performAll (logged perform) (w,log) cs = ((w',log++cs),0) := by
  induction cs generalizing w log with
  | nil => exact ⟨w,by simp [performAll]⟩
  | cons c cs ih =>
    obtain ⟨hc,hrest⟩ := List.forall_mem_cons.mp h
    obtain ⟨w',hw⟩ := ih hrest (log++[c])
    have hgo : ¬(logged perform (w,log) c).2 < 0 := not_lt.mpr hc
    rw [performAll_cons hgo]
    exact ⟨w',hw.trans (by simp)⟩

theorem logged_all (hp : ∀ w c, ¬(perform w c).2 < 0) (w : W) (log cs : List C) :
    ∃ w', performAll (logged perform) (w,log) cs = ((w',log++cs),0) := by
  apply logged_complete
  induction cs generalizing w with
  | nil => simp [answers]
  | cons c cs ih => exact List.forall_mem_cons.mpr ⟨not_lt.mp (hp w c),ih _⟩

/-- Of rows of calls that carry the number of their row, one row can be told. -/
theorem row_filter {f : ℕ → List C} (tag : C → ℕ) (hf : ∀ i, ∀ c ∈ f i, tag c = i) (n i : ℕ) :
    ((List.range n).flatMap f).filter (fun c => tag c = i) = if i < n then f i else [] := by
  induction n with
  | zero => rfl
  | succ n ih =>
    rw [List.range_succ,List.flatMap_append,List.filter_append,ih,List.flatMap_singleton]
    by_cases hi : i = n
    · subst i
      have hall : (f n).filter (fun c => tag c = n) = f n := by
        rw [List.filter_eq_self]
        intro c hc
        simpa using hf n c hc
      simp [hall]
    · have hnone : (f n).filter (fun c => tag c = i) = [] := by
        rw [List.filter_eq_nil_iff]
        intro c hc
        simpa [hf n c hc] using Ne.symm hi
      have hlt : i < n+1 ↔ i < n := by omega
      rw [hnone,List.append_nil]
      simp only [hlt]

theorem rows_eq_iff {f g : ℕ → List C} (tag : C → ℕ) (hf : ∀ i, ∀ c ∈ f i, tag c = i)
    (hg : ∀ i, ∀ c ∈ g i, tag c = i) (n : ℕ) :
    (List.range n).flatMap f = (List.range n).flatMap g ↔ ∀ i < n, f i = g i := by
  constructor
  · intro h i hi
    have hrow := congrArg (List.filter fun c => tag c = i) h
    rwa [row_filter tag hf,row_filter tag hg,if_pos hi,if_pos hi] at hrow
  · intro h
    exact List.flatMap_congr fun i hi => h i (List.mem_range.mp hi)

end FallibleCalls
