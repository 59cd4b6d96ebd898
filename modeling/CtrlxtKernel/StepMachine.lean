import Mathlib.Tactic

/-!
# Runs of a step machine

A step consumes one label, which carries the caller's choice and whatever the
environment decides. `enabled` states what the callers promise. `step` has no
result when the program touches an object it must not touch, so a fault is a
step that is enabled and has no result. A condition on steps restricts a
machine, and a run of the restricted machine is a run that always meets it.
-/

set_option autoImplicit false

namespace StepMachine

variable {S L : Type*}

structure Machine (S L : Type*) where
  enabled : S → L → Prop
  step : S → L → Option S

inductive Run (M : Machine S L) : S → List L → S → Prop
  | nil (s : S) : Run M s [] s
  | cons {s t u : S} {l : L} {ls : List L} (he : M.enabled s l) (hs : M.step s l = some t)
      (rest : Run M t ls u) : Run M s (l::ls) u

theorem Run.append {M : Machine S L} {s t u : S} {ls rest : List L}
    (h : Run M s ls t) (hr : Run M t rest u) : Run M s (ls++rest) u := by
  induction h with
  | nil => exact hr
  | cons he hs _ ih => exact .cons he hs (ih hr)

theorem Run.split {M : Machine S L} {s u : S} {ls rest : List L} (h : Run M s (ls++rest) u) :
    ∃ t, Run M s ls t ∧ Run M t rest u := by
  induction ls generalizing s with
  | nil => exact ⟨s,.nil s,h⟩
  | cons l ls ih =>
    cases h with
    | cons he hs h =>
      obtain ⟨t,hl,hr⟩ := ih h
      exact ⟨t,.cons he hs hl,hr⟩

theorem Run.unique {M : Machine S L} {s t u : S} {ls : List L} (h : Run M s ls t)
    (hu : Run M s ls u) : t = u := by
  induction h with
  | nil =>
    cases hu
    rfl
  | cons _ hs _ ih =>
    cases hu with
    | cons _ hs' hu =>
      cases hs.symm.trans hs'
      exact ih hu

/-- What every enabled step preserves holds at the end of every run. Prefixes
of runs are runs, so this covers every reachable state. -/
theorem Run.invariant {M : Machine S L} {I : S → Prop}
    (hI : ∀ s l t, I s → M.enabled s l → M.step s l = some t → I t)
    {s t : S} {ls : List L} (h : Run M s ls t) (hs : I s) : I t := by
  induction h with
  | nil => exact hs
  | cons he ht _ ih => exact ih (hI _ _ _ hs he ht)

/-- The same for steps that also never fail where the invariant holds. -/
theorem Run.sound {M : Machine S L} {I : S → Prop}
    (hI : ∀ s l, I s → M.enabled s l → ∃ t, M.step s l = some t ∧ I t)
    {s t : S} {ls : List L} (h : Run M s ls t) (hs : I s) : I t := by
  apply h.invariant _ hs
  intro s l t hs he ht
  obtain ⟨u,hu,hIu⟩ := hI s l hs he
  obtain rfl : u = t := Option.some.inj (hu.symm.trans ht)
  exact hIu

def Machine.restrict (M : Machine S L) (C : S → L → Prop) : Machine S L where
  enabled s l := M.enabled s l ∧ C s l
  step := M.step

theorem Run.restrict_invariant {M : Machine S L} {C : S → L → Prop} {I : S → Prop}
    (hI : ∀ s l t, I s → M.enabled s l → C s l → M.step s l = some t → I t)
    {s t : S} {ls : List L} (h : Run (M.restrict C) s ls t) (hs : I s) : I t := by
  apply h.invariant _ hs
  intro s l t hs he ht
  obtain ⟨hl,hc⟩ : M.enabled s l ∧ C s l := he
  exact hI s l t hs hl hc ht

instance (M : Machine S L) (C : S → L → Prop) [∀ s l, Decidable (M.enabled s l)]
    [∀ s l, Decidable (C s l)] (s : S) (l : L) : Decidable ((M.restrict C).enabled s l) :=
  inferInstanceAs (Decidable (M.enabled s l ∧ C s l))

def Always (M : Machine S L) (C : S → L → Prop) : S → List L → Prop
  | _, [] => True
  | s, l::ls => C s l ∧ ∀ t, M.step s l = some t → Always M C t ls

theorem always_cons {M : Machine S L} {C : S → L → Prop} {s t : S} {l : L} {ls : List L}
    (ht : M.step s l = some t) : Always M C s (l::ls) ↔ C s l ∧ Always M C t ls := by
  simp [Always,ht]

theorem always_of_forall {M : Machine S L} {C : S → L → Prop} (h : ∀ s l, C s l) (s : S)
    (ls : List L) : Always M C s ls := by
  induction ls generalizing s with
  | nil => trivial
  | cons l ls ih => exact ⟨h s l,fun t _ => ih t⟩

theorem always_append {M : Machine S L} {C : S → L → Prop} {s t : S} {ls rest : List L}
    (h : Run M s ls t) : Always M C s (ls++rest) ↔ Always M C s ls ∧ Always M C t rest := by
  induction h with
  | nil => exact (iff_of_eq (true_and _)).symm
  | cons _ hs _ ih => rw [List.cons_append,always_cons hs,always_cons hs,ih,and_assoc]

instance decidableAlways (M : Machine S L) (C : S → L → Prop) [∀ s l, Decidable (C s l)] :
    (s : S) → (ls : List L) → Decidable (Always M C s ls)
  | _, [] => isTrue trivial
  | s, l::ls =>
    match h : M.step s l with
    | none => decidable_of_iff (C s l) (by simp [Always,h])
    | some t =>
      have := decidableAlways M C t ls
      decidable_of_iff (C s l ∧ Always M C t ls) (always_cons h).symm

theorem always_restrict {M : Machine S L} {C D : S → L → Prop} {s : S} {ls : List L} :
    Always (M.restrict C) D s ls ↔ Always M D s ls := by
  induction ls generalizing s with
  | nil => exact Iff.rfl
  | cons l ls ih =>
    simp only [Always,ih]
    rfl

/-- The steps of a run are enabled. A list of calls that are enabled as long as
the program goes on may also end in a fault. -/
theorem Run.attempt {M : Machine S L} {s t : S} {ls : List L} (h : Run M s ls t) :
    Always M M.enabled s ls := by
  induction h with
  | nil => trivial
  | cons he hs _ ih => exact (always_cons hs).mpr ⟨he,ih⟩

theorem Always.imp {M : Machine S L} {I : S → Prop} {C D : S → L → Prop}
    (hCD : ∀ s l, I s → M.enabled s l → C s l → D s l)
    (hI : ∀ s l t, I s → M.enabled s l → C s l → M.step s l = some t → I t)
    {s : S} {ls : List L} (h : Always M M.enabled s ls) (hs : I s) (hc : Always M C s ls) :
    Always M D s ls := by
  induction ls generalizing s with
  | nil => trivial
  | cons l ls ih =>
    obtain ⟨he,hr⟩ := h
    obtain ⟨hc,hcs⟩ := hc
    refine ⟨hCD s l hs he hc,fun t ht => ?_⟩
    exact ih (hr t ht) (hI s l t hs he hc ht) (hcs t ht)

/-- Two conditions that agree where an invariant holds agree along every list of
enabled calls, if a step that meets the first preserves the invariant. -/
theorem always_attempt_iff {M : Machine S L} {I : S → Prop} {C D : S → L → Prop}
    (hCD : ∀ s l, I s → M.enabled s l → (C s l ↔ D s l))
    (hI : ∀ s l t, I s → M.enabled s l → C s l → M.step s l = some t → I t)
    {s : S} {ls : List L} (h : Always M M.enabled s ls) (hs : I s) :
    Always M C s ls ↔ Always M D s ls := by
  constructor
  · exact Always.imp (fun s l hs he => (hCD s l hs he).mp) hI h hs
  · apply Always.imp (fun s l hs he => (hCD s l hs he).mpr) _ h hs
    intro s l t hs he hd ht
    exact hI s l t hs he ((hCD s l hs he).mpr hd) ht

theorem always_iff {M : Machine S L} {I : S → Prop} {C D : S → L → Prop}
    (hCD : ∀ s l, I s → M.enabled s l → (C s l ↔ D s l))
    (hI : ∀ s l t, I s → M.enabled s l → C s l → M.step s l = some t → I t)
    {s t : S} {ls : List L} (h : Run M s ls t) (hs : I s) :
    Always M C s ls ↔ Always M D s ls :=
  always_attempt_iff hCD hI h.attempt hs

theorem restrict_run_iff {M : Machine S L} {C : S → L → Prop} {s t : S} {ls : List L} :
    Run (M.restrict C) s ls t ↔ Run M s ls t ∧ Always M C s ls := by
  constructor
  · intro h
    induction h with
    | nil => exact ⟨.nil _,trivial⟩
    | @cons s t u l ls he hs _ ih =>
      have ht : M.step s l = some t := hs
      exact ⟨.cons he.1 ht ih.1,(always_cons ht).mpr ⟨he.2,ih.2⟩⟩
  · rintro ⟨h,hc⟩
    induction h with
    | nil => exact .nil _
    | cons he hs _ ih =>
      obtain ⟨hl,hr⟩ := (always_cons hs).mp hc
      exact .cons ⟨he,hl⟩ hs (ih hr)

def tally (M : Machine S L) (C : S → L → Prop) [∀ s l, Decidable (C s l)] : S → List L → ℕ
  | _, [] => 0
  | s, l::ls => (if C s l then 1 else 0)+(M.step s l).elim 0 (fun t => tally M C t ls)

section Tallies

variable {M : Machine S L} {C D E : S → L → Prop} [∀ s l, Decidable (C s l)]
  [∀ s l, Decidable (D s l)] [∀ s l, Decidable (E s l)]

theorem tally_cons {s t : S} {l : L} {ls : List L} (ht : M.step s l = some t) :
    tally M C s (l::ls) = (if C s l then 1 else 0)+tally M C t ls := by
  rw [tally,ht,Option.elim_some]

theorem tally_le_length {s t : S} {ls : List L} (h : Run M s ls t) :
    tally M C s ls ≤ ls.length := by
  induction h with
  | nil => exact Nat.zero_le _
  | @cons s t u l ls _ ht _ ih =>
    rw [tally_cons ht,List.length_cons]
    split_ifs <;> omega

theorem tally_append {s t : S} {ls rest : List L} (h : Run M s ls t) :
    tally M C s (ls++rest) = tally M C s ls+tally M C t rest := by
  induction h with
  | nil => exact (Nat.zero_add _).symm
  | cons _ hs _ ih => rw [List.cons_append,tally_cons hs,tally_cons hs,ih,Nat.add_assoc]

theorem tally_eq_zero {s t : S} {ls : List L} (h : Run M s ls t) :
    tally M C s ls = 0 ↔ Always M (fun s l => ¬C s l) s ls := by
  induction h with
  | nil => exact iff_of_true rfl trivial
  | @cons s t u l ls _ ht _ ih =>
    rw [tally_cons ht,always_cons ht,← ih]
    by_cases hc : C s l
    · simp only [hc,if_true,not_true,false_and,iff_false]
      omega
    · simp only [hc,if_false,not_false_iff,true_and,Nat.zero_add]

theorem tally_all {s t : S} {ls : List L} (hC : ∀ s, ∀ l ∈ ls, C s l) (h : Run M s ls t) :
    tally M C s ls = ls.length := by
  induction h with
  | nil => rfl
  | @cons s t u l ls _ ht _ ih =>
    have hrest := ih (fun s k hk => hC s k (List.mem_cons_of_mem l hk))
    rw [tally_cons ht,hrest,if_pos (hC s l List.mem_cons_self),List.length_cons,add_comm]

/-- A word that each step advances by one exactly when it meets the condition
has been advanced by the tally. -/
theorem Run.counter {w : ℕ} {f : S → BitVec w}
    (hf : ∀ s l t, M.step s l = some t → f t = f s+if C s l then 1 else 0)
    {s t : S} {ls : List L} (h : Run M s ls t) : f t = f s+BitVec.ofNat w (tally M C s ls) := by
  induction h with
  | nil s => simp [tally]
  | @cons s t u l ls _ ht _ ih =>
    have hone : (if C s l then 1 else 0) = BitVec.ofNat w (if C s l then 1 else 0) := by
      split_ifs <;> rfl
    rw [ih,hf s l t ht,tally_cons ht,BitVec.ofNat_add,BitVec.add_assoc,hone]

/-- As an integer too, when the run never steps on from a value so large that
the next one would not be represented. -/
theorem Run.counter_below {f : S → BitVec 32} {P : S → L → Prop}
    (hf : ∀ s l t, M.step s l = some t → f t = f s+if C s l then 1 else 0)
    (hP : ∀ s l, P s l → (f s).toInt+1 < 2^31) {s t : S} {ls : List L}
    (h : Run (M.restrict P) s ls t) : (f t).toInt = (f s).toInt+tally M C s ls := by
  induction h with
  | nil s => simp [tally]
  | @cons s t u l ls he hs _ ih =>
    have ht : M.step s l = some t := hs
    have hlow := (f s).le_toInt
    have hone : (f t).toInt = (f s).toInt+if C s l then 1 else 0 := by
      rw [hf s l t ht]
      split_ifs with hc
      · have hnext := hP s l he.2
        have h1 : (1#32).toInt = 1 := rfl
        rw [BitVec.ofNat_eq_ofNat,BitVec.toInt_add,h1]
        apply Int.bmod_eq_of_le <;> omega
      · simp
    rw [ih,tally_cons ht,hone]
    split_ifs <;> push_cast <;> ring

theorem Run.balance {g : S → ℕ}
    (hg : ∀ s l t, M.enabled s l → M.step s l = some t →
      g s+(if C s l then 1 else 0) = g t+if D s l then 1 else 0)
    {s t : S} {ls : List L} (h : Run M s ls t) :
    g s+tally M C s ls = g t+tally M D s ls := by
  induction h with
  | nil => rfl
  | @cons s t u l ls he ht _ ih =>
    have hone := hg s l t he ht
    rw [tally_cons ht,tally_cons ht]
    omega

theorem tally_add (hE : ∀ s l, E s l ↔ C s l ∨ D s l) (hCD : ∀ s l, C s l → ¬D s l)
    {s t : S} {ls : List L} (h : Run M s ls t) :
    tally M E s ls = tally M C s ls+tally M D s ls := by
  induction h with
  | nil => rfl
  | @cons s t u l ls _ ht _ ih =>
    have he := hE s l
    have hcd := hCD s l
    rw [tally_cons ht,tally_cons ht,tally_cons ht,ih]
    by_cases hc : C s l
    · simp only [he.mpr (Or.inl hc),hc,hcd hc,if_true,if_false]
      omega
    · by_cases hd : D s l
      · simp only [he.mpr (Or.inr hd),hc,hd,if_true,if_false]
        omega
      · have hn : ¬E s l := fun h => (he.mp h).elim hc hd
        simp only [hn,hc,hd,if_false]
        omega

theorem tally_le (hCD : ∀ s l, C s l → D s l) {s t : S} {ls : List L} (h : Run M s ls t) :
    tally M C s ls ≤ tally M D s ls := by
  induction h with
  | nil => exact le_refl _
  | @cons s t u l ls _ ht _ ih =>
    have hcd := hCD s l
    rw [tally_cons ht,tally_cons ht]
    by_cases hc : C s l
    · simp only [hc,hcd hc,if_true]
      omega
    · simp only [hc,if_false]
      omega

theorem tally_eq_iff (hCD : ∀ s l, C s l → D s l) {s t : S} {ls : List L} (h : Run M s ls t) :
    tally M C s ls = tally M D s ls ↔ Always M (fun s l => D s l → C s l) s ls := by
  induction h with
  | nil => exact iff_of_true rfl trivial
  | @cons s t u l ls _ ht hr ih =>
    have hle := tally_le hCD hr
    rw [tally_cons ht,tally_cons ht,always_cons ht,← ih]
    by_cases hc : C s l
    · have hd := hCD s l hc
      simp only [hc,hd,if_true,true_implies,true_and]
      omega
    · by_cases hd : D s l
      · simp only [hc,hd,if_true,if_false,true_implies,false_and,iff_false]
        omega
      · simp only [hc,hd,if_false,false_implies,true_and]
        omega

end Tallies

/-- How many steps have met a condition since the last step that resets, when
there were `n` before. -/
def tallySince (M : Machine S L) (R C : S → L → Prop) [∀ s l, Decidable (R s l)]
    [∀ s l, Decidable (C s l)] : ℕ → S → List L → ℕ
  | n, _, [] => n
  | n, s, l::ls =>
    let m := if R s l then 0 else n+if C s l then 1 else 0
    (M.step s l).elim m (fun t => tallySince M R C m t ls)

section TalliesSince

variable {M : Machine S L} {R C D : S → L → Prop} [∀ s l, Decidable (R s l)]
  [∀ s l, Decidable (C s l)] [∀ s l, Decidable (D s l)]

theorem tallySince_cons {s t : S} {l : L} (n : ℕ) (ls : List L) (ht : M.step s l = some t) :
    tallySince M R C n s (l::ls) =
      tallySince M R C (if R s l then 0 else n+if C s l then 1 else 0) t ls := by
  rw [tallySince,ht,Option.elim_some]

/-- A word that some steps reset and others advance by one. -/
theorem Run.counterSince {w : ℕ} {f : S → BitVec w}
    (hf : ∀ s l t, M.step s l = some t → f t = if R s l then 0 else f s+if C s l then 1 else 0)
    {s t : S} {ls : List L} (h : Run M s ls t) {n : ℕ} (hn : f s = BitVec.ofNat w n) :
    f t = BitVec.ofNat w (tallySince M R C n s ls) := by
  induction h generalizing n with
  | nil s => exact hn
  | @cons s t u l ls _ ht _ ih =>
    rw [tallySince_cons n ls ht]
    apply ih
    rw [hf s l t ht,hn]
    split_ifs <;> simp [BitVec.ofNat_add]

theorem tallySince_le (hCD : ∀ s l, C s l → D s l) {s t : S} {ls : List L} (h : Run M s ls t)
    {m n : ℕ} (hmn : m ≤ n) : tallySince M R C m s ls ≤ tallySince M R D n s ls := by
  induction h generalizing m n with
  | nil => exact hmn
  | @cons s t u l ls _ ht _ ih =>
    have hcd := hCD s l
    rw [tallySince_cons m ls ht,tallySince_cons n ls ht]
    apply ih
    by_cases hc : C s l
    · simp only [hc,hcd hc,if_true]
      split_ifs <;> omega
    · simp only [hc,if_false]
      split_ifs <;> omega

end TalliesSince

def exec (M : Machine S L) [∀ s l, Decidable (M.enabled s l)] : S → List L → Option S
  | s, [] => some s
  | s, l::ls => if M.enabled s l then (M.step s l).bind (fun t => exec M t ls) else none

theorem run_iff_exec {M : Machine S L} [∀ s l, Decidable (M.enabled s l)] {s t : S}
    {ls : List L} : Run M s ls t ↔ exec M s ls = some t := by
  constructor
  · intro h
    induction h with
    | nil => rfl
    | cons he hs _ ih => simpa [exec,he,hs] using ih
  · intro h
    induction ls generalizing s with
    | nil =>
      cases h
      exact .nil _
    | cons l ls ih =>
      by_cases he : M.enabled s l
      · simp only [exec,he,if_true,Option.bind_eq_some_iff] at h
        obtain ⟨u,hu,hr⟩ := h
        exact .cons he hu (ih hr)
      · simp [exec,he] at h

end StepMachine
