import CtrlxtKernel.UhalDriver

/-!
# Majors across loads and unloads of the UHAL driver

A load registers a fresh major and an unload unregisters major 0, which nobody
has. The class and the device are given back; the major stays in use.
-/

set_option autoImplicit false

namespace CtrlxtKernel.Uhal
open ObjectHeap StepMachine

structure HoldsPair (objects : Heap UhalObject) (c : ℕ) : Prop where
  classLive : objects.cells c = some (.deviceClass "uhal")
  deviceLive : objects.cells (c+1) = some (.device (.obj c) (mkdev 0 0) "uhal")
  held : objects.Holds [c+1,c]

structure Installed (others : List (ℕ × String)) (s : UhalDriver) : Prop where
  pair : ∃ c, s.uhalClass = .obj c ∧ HoldsPair s.objects c
  major : ∃ m, s.chrdevs.entries = (m,"uhal")::others

structure HoldsNothing (others : List (ℕ × String)) (s : UhalDriver) : Prop where
  majors : s.chrdevs.entries = others
  objects : s.objects.Holds []

def ReleasesAll (others : List (ℕ × String)) (s : UhalLoad) (l : UhalStep) : Prop :=
  ∃ u, uhalLoading.step s l = some u ∧ (u.loaded = false → HoldsNothing others u.driver)

def StaysLoaded (_ : UhalLoad) (l : UhalStep) : Prop := l.isUnload = false

def Settled (others : List (ℕ × String)) (s : UhalLoad) : Prop :=
  (s.loaded = false ∧ HoldsNothing others s.driver) ∨ (s.loaded = true ∧ Installed others s.driver)

theorem isDevice_iff {deviceClass : Ptr} {devt : BitVec 32} {x : Option UhalObject} :
    IsDevice deviceClass devt x = true ↔ ∃ name, x = some (.device deviceClass devt name) := by
  cases x with
  | none => simp [IsDevice]
  | some x =>
    cases x with
    | deviceClass name => simp [IsDevice]
    | device c d name => simp [IsDevice]

theorem deviceDestroy_only {h : Heap UhalObject} {deviceClass : Ptr} {devt : BitVec 32} {i : ℕ}
    {name : String} (hi : h.cells i = some (.device deviceClass devt name))
    (honly : ∀ j n, h.cells j = some (.device deviceClass devt n) → j = i) :
    deviceDestroy h deviceClass devt = h.free i := by
  unfold deviceDestroy
  split
  · rename_i hnone
    have hno := List.find?_eq_none.mp hnone i (List.mem_range.mpr (lt_next hi))
    exact absurd (isDevice_iff.mpr ⟨name,hi⟩) hno
  · rename_i j hfound
    have hmatch := List.find?_some hfound
    obtain ⟨n,hj⟩ := isDevice_iff.mp hmatch
    rw [honly j n hj]

theorem destroy_pair {h : Heap UhalObject} {c : ℕ} (hh : HoldsPair h c) :
    ∃ g k, deviceDestroy h (.obj c) (mkdev 0 0) = some g ∧ classDestroy g (.obj c) = some k ∧
      k.Holds [] := by
  have honly : ∀ j n, h.cells j = some (.device (.obj c) (mkdev 0 0) n) → j = c+1 := by
    intro j n hj
    have hmem := (hh.held j).mp (by rw [hj]; rfl)
    rcases List.mem_pair.mp hmem with rfl | rfl
    · rfl
    · rw [hh.classLive] at hj
      cases hj
  obtain ⟨g,hg,hgh,-⟩ := holds_free hh.held (by simp)
  obtain ⟨k,hk,hkh,-⟩ := holds_free hgh (by simp)
  exact ⟨g,k,(deviceDestroy_only hh.deviceLive honly).trans hg,hk,hkh⟩

theorem pair_alloc {h : Heap UhalObject} (hh : h.Holds []) :
    HoldsPair ((h.alloc (.deviceClass "uhal")).alloc
      (.device (.obj h.next) (mkdev 0 0) "uhal")) h.next := by
  refine ⟨?_,?_,?_⟩
  · simp
  · rw [alloc_cells,alloc_next,Function.update_self]
  · exact holds_alloc (holds_alloc hh _) _

theorem unregister_zero (c : Chrdevs) : (unregisterChrdev c 0).entries = c.entries := by
  apply List.filter_eq_self.mpr
  intro e he
  have hmem := List.mem_map_of_mem (f := Prod.fst) he
  simp only [ne_eq,decide_not,Bool.not_eq_true',decide_eq_false_iff_not]
  rintro h0
  exact c.nonzero (h0 ▸ hmem)

theorem init_leaves {others : List (ℕ × String)} {s : UhalDriver} (hs : HoldsNothing others s)
    {o : UhalOutcome}
    (ho : o.registerChrdev < 0 ∨ s.chrdevs.Fresh o.registerChrdev.toNat) :
    ∃ u ret, uhalDriverInit s o = some (u,ret) ∧
      ((ret = 0 ∧ Installed others u) ∨ (ret < 0 ∧ HoldsNothing others u)) := by
  obtain ⟨hmajors,hobjects⟩ := hs
  have hpair := pair_alloc hobjects
  by_cases hc : o.classCreate < 0
  · refine ⟨⟨s.objects,s.chrdevs,.errPtr o.classCreate,s.uhalDevice⟩,o.classCreate,?_,
      Or.inr ⟨hc,hmajors,hobjects⟩⟩
    simp only [uhalDriverInit,classCreate,hc,if_true,Ptr.isErr,Ptr.ptrErr]
  · by_cases hd : o.deviceCreate < 0
    · obtain ⟨k,hk,hkh,-⟩ :=
        holds_free (holds_alloc hobjects (.deviceClass "uhal")) List.not_mem_nil
      refine ⟨⟨k,s.chrdevs,.obj s.objects.next,.errPtr o.deviceCreate⟩,o.deviceCreate,?_,
        Or.inr ⟨hd,hmajors,hkh⟩⟩
      simp only [uhalDriverInit,classCreate,deviceCreate,hc,hd,if_true,if_false,Ptr.isErr,
        Bool.false_eq_true,Ptr.ptrErr,classDestroy,hk,Option.map_some]
    · by_cases hr : o.registerChrdev < 0
      · obtain ⟨g,k,hg,hk,hkh⟩ := destroy_pair hpair
        have href : ¬(0 ≤ o.registerChrdev ∧ s.chrdevs.Fresh o.registerChrdev.toNat) :=
          fun h => not_le.mpr hr h.1
        refine ⟨⟨k,s.chrdevs,.obj s.objects.next,.obj (s.objects.next+1)⟩,o.registerChrdev,?_,
          Or.inr ⟨hr,hmajors,hkh⟩⟩
        simp only [uhalDriverInit,classCreate,deviceCreate,registerChrdev,hc,hd,dif_neg href,hr,
          if_true,if_false,Ptr.isErr,Bool.false_eq_true,hg,hk,Option.bind_some,Option.map_some,
          alloc_next]
      · have hfresh := ho.resolve_left hr
        have hreg : 0 ≤ o.registerChrdev ∧ s.chrdevs.Fresh o.registerChrdev.toNat :=
          ⟨not_lt.mp hr,hfresh⟩
        refine ⟨⟨_,s.chrdevs.add o.registerChrdev.toNat "uhal" hfresh,.obj s.objects.next,
          .obj (s.objects.next+1)⟩,0,?_,Or.inl ⟨rfl,⟨_,rfl,hpair⟩,_,congrArg _ hmajors⟩⟩
        simp only [uhalDriverInit,classCreate,deviceCreate,registerChrdev,hc,hd,dif_pos hreg,hr,
          if_false,Ptr.isErr,Bool.false_eq_true]
        rfl

theorem exit_leaves {others : List (ℕ × String)} {s : UhalDriver} (hs : Installed others s) :
    ∃ u, uhalDriverExit s = some u ∧ u.chrdevs.entries = s.chrdevs.entries ∧
      u.objects.Holds [] := by
  obtain ⟨c,hc,hpair⟩ := hs.pair
  obtain ⟨g,k,hg,hk,hkh⟩ := destroy_pair hpair
  refine ⟨⟨k,unregisterChrdev s.chrdevs 0,s.uhalClass,s.uhalDevice⟩,?_,unregister_zero _,hkh⟩
  simp only [uhalDriverExit,hc,hg,hk,Option.bind_some,Option.map_some]

theorem load_step {s : UhalLoad} {o : UhalOutcome} {u : UhalDriver} {ret : ℤ}
    (h : uhalDriverInit s.driver o = some (u,ret)) :
    uhalLoading.step s (.load o) = some ⟨u,decide (ret = 0)⟩ := by
  simp only [uhalLoading,h,Option.map_some]

theorem unload_step {s : UhalLoad} {u : UhalDriver} (h : uhalDriverExit s.driver = some u) :
    uhalLoading.step s .unload = some ⟨u,false⟩ := by
  simp only [uhalLoading,h,Option.map_some]

/-- A load attempt loses nothing, and an unload one major. -/
theorem step_settled {others : List (ℕ × String)} {s : UhalLoad} (hs : Settled others s)
    {l : UhalStep} (he : uhalLoading.enabled s l) :
    ∃ u lost, uhalLoading.step s l = some u ∧ Settled (lost++others) u ∧
      match l with
      | .load _ => lost = []
      | .unload => u.loaded = false ∧ lost.length = 1 := by
  rcases hs with ⟨hl,hnothing⟩ | ⟨hl,hinstalled⟩
  · cases l with
    | unload => cases hl.symm.trans he
    | load o =>
      obtain ⟨u,ret,hu,⟨rfl,hu'⟩ | ⟨hret,hu'⟩⟩ := init_leaves hnothing he.2
      · exact ⟨_,[],load_step hu,Or.inr ⟨rfl,hu'⟩,rfl⟩
      · exact ⟨_,[],load_step hu,Or.inl ⟨decide_eq_false hret.ne,hu'⟩,rfl⟩
  · cases l with
    | load o => cases hl.symm.trans he.1
    | unload =>
      obtain ⟨u,hu,hmajors,hobjects⟩ := exit_leaves hinstalled
      obtain ⟨m,hm⟩ := hinstalled.major
      exact ⟨_,[(m,"uhal")],unload_step hu,Or.inl ⟨rfl,hmajors.trans hm,hobjects⟩,rfl,rfl⟩

theorem releases_iff {others : List (ℕ × String)} {s : UhalLoad} (hs : Settled others s)
    {l : UhalStep} (he : uhalLoading.enabled s l) : ReleasesAll others s l ↔ StaysLoaded s l := by
  obtain ⟨u,lost,hu,hset,hlost⟩ := step_settled hs he
  cases l with
  | load o =>
    obtain rfl : lost = [] := hlost
    refine iff_of_true ⟨u,hu,fun hl => ?_⟩ rfl
    rcases hset with ⟨-,h⟩ | ⟨h,-⟩
    · exact h
    · cases hl.symm.trans h
  | unload =>
    obtain ⟨hl,hlen⟩ := hlost
    refine iff_of_false ?_ (by rintro ⟨⟩)
    rintro ⟨v,hv,hnothing⟩
    obtain rfl := Option.some.inj (hu.symm.trans hv)
    rcases hset with ⟨-,h⟩ | ⟨h,-⟩
    · have hmajors := congrArg List.length (h.majors.symm.trans (hnothing hl).majors)
      rw [List.length_append,hlen] at hmajors
      omega
    · cases hl.symm.trans h

theorem releases_settled {others : List (ℕ × String)} {s u : UhalLoad} (hs : Settled others s)
    {l : UhalStep} (he : uhalLoading.enabled s l) (hc : ReleasesAll others s l)
    (hu : uhalLoading.step s l = some u) : Settled others u := by
  have hstays := (releases_iff hs he).mp hc
  obtain ⟨v,lost,hv,hset,hlost⟩ := step_settled hs he
  obtain rfl := Option.some.inj (hv.symm.trans hu)
  cases l with
  | load o =>
    obtain rfl : lost = [] := hlost
    exact hset
  | unload => cases hstays

def notLoaded (others : Chrdevs) : UhalLoad := ⟨⟨.empty,others,.null,.null⟩,false⟩

/-- Along every sequence of load attempts and unloads the driver that is not loaded
holds nothing exactly when it is never unloaded. -/
theorem unloaded_releases_iff (others : Chrdevs) {ls : List UhalStep}
    (h : Always uhalLoading uhalLoading.enabled (notLoaded others) ls) :
    Always uhalLoading (ReleasesAll others.entries) (notLoaded others) ls ↔
      Always uhalLoading StaysLoaded (notLoaded others) ls :=
  always_attempt_iff (I := Settled others.entries) (fun _ _ hs he => releases_iff hs he)
    (fun _ _ _ hs he hc hu => releases_settled hs he hc hu) h (Or.inl ⟨rfl,rfl,holds_empty⟩)

/-- Every unload of a run leaves one major in use. -/
theorem majors_lost {others : List (ℕ × String)} {s u : UhalLoad} {ls : List UhalStep}
    (h : Run uhalLoading s ls u) (hs : Settled others s) :
    ∃ lost, Settled (lost++others) u ∧ lost.length = ls.countP UhalStep.isUnload := by
  induction h generalizing others with
  | nil => exact ⟨[],hs,rfl⟩
  | @cons s v u l ls he hv _ ih =>
    obtain ⟨w,lost,hw,hset,hlost⟩ := step_settled hs he
    obtain rfl := Option.some.inj (hw.symm.trans hv)
    obtain ⟨more,hmore,hlen⟩ := ih hset
    refine ⟨more++lost,by rwa [List.append_assoc],?_⟩
    rw [List.length_append,hlen,List.countP_cons]
    cases l with
    | load o =>
      obtain rfl : lost = [] := hlost
      rfl
    | unload => rw [hlost.2]; rfl

def granted (major : ℤ) : UhalOutcome := ⟨0,0,major⟩

def noMajors : Chrdevs := ⟨[],List.nodup_nil,List.not_mem_nil⟩

theorem unloaded_releases_attempts :
    Always uhalLoading (ReleasesAll []) (notLoaded noMajors)
      [.load ⟨-12,0,-16⟩,.load ⟨0,-12,-16⟩,.load ⟨0,0,-16⟩,.load (granted 240)] := by
  have h : ∃ u, Run uhalLoading (notLoaded noMajors)
      [.load ⟨-12,0,-16⟩,.load ⟨0,-12,-16⟩,.load ⟨0,0,-16⟩,.load (granted 240)] u :=
    ⟨_,run_iff_exec.mpr rfl⟩
  obtain ⟨u,hu⟩ := h
  rw [show ([] : List (ℕ × String)) = noMajors.entries from rfl,
    unloaded_releases_iff noMajors hu.attempt]
  simp [Always,StaysLoaded,UhalStep.isUnload]

/-- After two cycles two majors are in use, and the driver is not loaded. -/
theorem unloaded_keeps_majors :
    ∃ u, Run uhalLoading (notLoaded noMajors)
        [.load (granted 240),.unload,.load (granted 241),.unload] u ∧
      u.loaded = false ∧ u.driver.chrdevs.entries = [(241,"uhal"),(240,"uhal")] ∧
      ¬HoldsNothing [] u.driver :=
  ⟨_,run_iff_exec.mpr rfl,rfl,rfl,fun h => List.cons_ne_nil _ _ h.majors⟩

end CtrlxtKernel.Uhal
