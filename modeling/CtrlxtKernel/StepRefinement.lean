import CtrlxtKernel.StepMachine

/-!
# Refinement between step machines

A step of the lower machine is matched by a run of the upper one, which may be
empty: the lower machine takes its steps in smaller pieces. What the upper
machine does along a run of the lower one is read off the lower run.
-/

set_option autoImplicit false

namespace StepMachine

variable {S T L K J : Type*}

/-- The labels of the upper machine along a run of the lower one. -/
def trace (M : Machine S L) (f : S → L → List K) : S → List L → List K
  | _, [] => []
  | s, l::ls => f s l++(M.step s l).elim [] (fun t => trace M f t ls)

theorem trace_cons {M : Machine S L} {f : S → L → List K} {s t : S} {l : L} {ls : List L}
    (ht : M.step s l = some t) : trace M f s (l::ls) = f s l++trace M f t ls := by
  rw [trace,ht,Option.elim_some]

theorem trace_append {M : Machine S L} {f : S → L → List K} {s t : S} {ls rest : List L}
    (h : Run M s ls t) : trace M f s (ls++rest) = trace M f s ls++trace M f t rest := by
  induction h with
  | nil => rfl
  | cons _ hs _ ih => rw [List.cons_append,trace_cons hs,trace_cons hs,ih,List.append_assoc]

theorem trace_map {M : Machine S L} (g : L → K) {s t : S} {ls : List L} (h : Run M s ls t) :
    trace M (fun _ l => [g l]) s ls = ls.map g := by
  induction h with
  | nil => rfl
  | cons _ hs _ ih => rw [trace_cons hs,ih,List.map_cons,List.singleton_append]

theorem trace_restrict (M : Machine S L) (C : S → L → Prop) (f : S → L → List K) (s : S)
    (ls : List L) : trace (M.restrict C) f s ls = trace M f s ls := by
  induction ls generalizing s with
  | nil => rfl
  | cons l ls ih =>
    simp only [trace,ih]
    rfl

/-- The upper machine keeps up with the lower one, and shows in its steps what the
lower one is seen to do. -/
def Simulates (M : Machine S L) (N : Machine T K) (f : S → L → List K) (seen : S → L → List J)
    (shown : T → K → List J) (R : S → T → Prop) : Prop :=
  ∀ s l u t, R s t → M.enabled s l → M.step s l = some u →
    ∃ v, Run N t (f s l) v ∧ R u v ∧ trace N shown t (f s l) = seen s l

theorem Run.simulate {M : Machine S L} {N : Machine T K} {f : S → L → List K}
    {seen : S → L → List J} {shown : T → K → List J} {R : S → T → Prop}
    (hR : Simulates M N f seen shown R) {s u : S} {ls : List L} (h : Run M s ls u) {t : T}
    (hs : R s t) :
    ∃ v, Run N t (trace M f s ls) v ∧ R u v ∧
      trace N shown t (trace M f s ls) = trace M seen s ls := by
  induction h generalizing t with
  | nil => exact ⟨t,.nil t,hs,rfl⟩
  | cons he hm _ ih =>
    obtain ⟨v,hv,hRv,hshown⟩ := hR _ _ _ _ hs he hm
    obtain ⟨w,hw,hRw,hrest⟩ := ih hRv
    rw [trace_cons hm,trace_cons hm]
    exact ⟨w,hv.append hw,hRw,by rw [trace_append hv,hshown,hrest]⟩

theorem Run.follow {M : Machine S L} {N : Machine T K} {seen : S → L → List J}
    {shown : T → K → List J} {R : S → T → Prop}
    (hR : ∀ s l u t, R s t → M.enabled s l → M.step s l = some u →
      ∃ ks v, Run N t ks v ∧ R u v ∧ trace N shown t ks = seen s l)
    {s u : S} {ls : List L} (h : Run M s ls u) {t : T} (hs : R s t) :
    ∃ ks v, Run N t ks v ∧ R u v ∧ trace N shown t ks = trace M seen s ls := by
  induction h generalizing t with
  | nil => exact ⟨[],t,.nil t,hs,rfl⟩
  | cons he hm _ ih =>
    obtain ⟨ks,v,hv,hRv,hshown⟩ := hR _ _ _ _ hs he hm
    obtain ⟨js,w,hw,hRw,hrest⟩ := ih hRv
    exact ⟨ks++js,w,hv.append hw,hRw,by rw [trace_append hv,trace_cons hm,hshown,hrest]⟩

/-- Where the lower machine also never fails, every list of enabled labels is a run of it
that the upper one matches. -/
theorem attempt_simulate {M : Machine S L} {N : Machine T K} {f : S → L → List K} {R : S → T → Prop}
    (hR : ∀ s l t, R s t → M.enabled s l →
      ∃ u v, M.step s l = some u ∧ Run N t (f s l) v ∧ R u v)
    {s : S} {ls : List L} (h : Always M M.enabled s ls) {t : T} (hs : R s t) :
    ∃ u v, Run M s ls u ∧ Run N t (trace M f s ls) v ∧ R u v := by
  induction ls generalizing s t with
  | nil => exact ⟨s,t,.nil s,.nil t,hs⟩
  | cons l ls ih =>
    obtain ⟨he,hrest⟩ := h
    obtain ⟨s',t',hstep,hrun,hR'⟩ := hR s l t hs he
    obtain ⟨u,v,hu,hv,huv⟩ := ih (hrest s' hstep) hR'
    rw [trace_cons hstep]
    exact ⟨u,v,.cons he hstep hu,hrun.append hv,huv⟩

def latest (M : Machine S L) (w : S → L → Option K) (s : S) (ls : List L) : Option K :=
  (trace M (fun s l => (w s l).toList) s ls).getLast?

theorem latest_written {M : Machine S L} {w : S → L → Option K} {s : S} {ls : List L} {b : K}
    (h : latest M w s ls = some b) : ∃ r l, w r l = some b := by
  have hmem := List.mem_of_getLast? h
  clear h
  induction ls generalizing s with
  | nil => cases hmem
  | cons l ls ih =>
    rcases List.mem_append.mp hmem with hl | hls
    · exact ⟨s,l,Option.mem_toList.mp hl⟩
    · cases ht : M.step s l with
      | none => simp [ht] at hls
      | some t =>
        rw [ht] at hls
        exact ih hls

/-- A value that only the writing steps change is the one written last. -/
theorem Run.latest_eq {M : Machine S L} {w : S → L → Option K} {f : S → Option K}
    (hf : ∀ s l t b, M.step s l = some t → f t = some b →
      w s l = some b ∨ w s l = none ∧ f s = some b)
    {s t : S} {ls : List L} (h : Run M s ls t) (hs : f s = none) {b : K} (hb : f t = some b) :
    latest M w s ls = some b := by
  have hor : latest M w s ls = some b ∨
      trace M (fun s l => (w s l).toList) s ls = [] ∧ f s = some b := by
    clear hs
    induction h with
    | nil => exact Or.inr ⟨rfl,hb⟩
    | cons _ hm _ ih =>
      rw [latest,trace_cons hm]
      rcases ih hb with hlast | ⟨hnil,hbefore⟩
      · exact Or.inl (List.mem_getLast?_append_of_mem_getLast? hlast)
      · rcases hf _ _ _ b hm hbefore with hw | ⟨hw,hold⟩
        · exact Or.inl (by simp [hw,hnil])
        · exact Or.inr ⟨by simp [hw,hnil],hold⟩
  rcases hor with hlast | ⟨-,hsome⟩
  · exact hlast
  · rw [hs] at hsome
    cases hsome

theorem Run.single {M : Machine S L} {s t : S} {l : L} (he : M.enabled s l)
    (hs : M.step s l = some t) : Run M s [l] t :=
  .cons he hs (.nil t)

end StepMachine
