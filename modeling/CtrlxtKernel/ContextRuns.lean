import CtrlxtKernel.Performance
import CtrlxtKernel.RefLedger
import CtrlxtKernel.Security
import CtrlxtKernel.StepMachine

/-!
# Runs of counted contexts

Any number of callers and of exits, one locked section at a time. The ledger
lists what the counts stand for: the references of the callers, and with the
holder `none` one of the module for every context of an `init`, until an exit
frees it. An `init` that overwrites the global pointer leaves the count of the
old context as it is, though nobody can give that reference up any more. So who
still refers to a context is read off the callers and the pointers of the
module. Between its two sections an exit has taken the context and not yet
freed it.
-/

set_option autoImplicit false

namespace CtrlxtKernel
open MachineInt ObjectHeap RefLedger StepMachine Security Performance

variable {t : Target} {F A : Type} {H : Type*}

structure ContextRun (F : Type) (H : Type*) where
  module : ContextModule F
  taken : List ℕ
  refs : List (Option H × ℕ)

inductive ContextCall (A : Type) (H : Type*) where
  | init (kzalloc : Bool)
  | exitLocked
  | exitFree (p : ℕ)
  | create (h : H) (args : A) (kzalloc : Bool)
  | get (h : H)
  | put (h : H) (ctx : Ptr)

def ContextRun.grant (s : ContextRun F H) (h : Option H) (m : ContextModule F) :
    Ptr → ContextRun F H
  | .obj p => { s with module := m, refs := (h,p)::s.refs }
  | _ => { s with module := m }

/-- The contexts the module refers to: the global one and those an exit took. -/
def owned (global : Ptr) (taken : List ℕ) : List ℕ :=
  match global with
  | .obj p => p::taken
  | _ => taken

def counts (m : ContextModule F) (p : ℕ) : Option CInt := (m.heap.cells p).map Context.refCount

def unused : ContextRun F H := ⟨⟨Heap.empty,.null⟩,[],[]⟩

def held (refs : List (Option H × ℕ)) (p : ℕ) : ℕ :=
  refs.countP (fun r => r.1.isSome && r.2 == p)

def ofModule (refs : List (Option H × ℕ)) (p : ℕ) : ℕ :=
  refs.countP (fun r => r.1.isNone && r.2 == p)

/-- How many callers and pointers of the module refer to the context. -/
def ContextRun.referred (s : ContextRun F H) (p : ℕ) : ℕ :=
  held s.refs p+(owned s.module.globalContext s.taken).count p

/-- Every context ever allocated has been freed once if nobody refers to it any
more, and has not been freed otherwise. -/
def FreedAtLast (s : ContextRun F H) : Prop :=
  ∀ p < s.module.heap.next, s.module.heap.freed.count p = if s.referred p = 0 then 1 else 0

/-- An `init` overwrites the global pointer only to a context that a caller
holds, an exit frees a context that only the module refers to, and a put finds
the count at 1, modulo `2^32`, exactly when it gives up the last reference. -/
def OnlyReference (s : ContextRun F H) : ContextCall A H → Prop
  | .init true => ∀ p, s.module.globalContext = .obj p → s.referred p ≠ 1
  | .exitFree p => s.referred p = 1
  | .put _ (.obj p) => outstanding s.refs p % 2^32 = 1 ↔ s.referred p = 1
  | _ => True

/-- An exit frees a context that is counted once, and a put does not meet a count
that has wrapped round to 1. -/
def CountKept (s : ContextRun F H) : ContextCall A H → Prop
  | .exitFree p => outstanding s.refs p = 1
  | .put _ (.obj p) => outstanding s.refs p % 2^32 = 1 → outstanding s.refs p = 1
  | _ => True

structure Accounted (s : ContextRun F H) : Prop where
  tracks : Tracks (counts s.module) s.refs
  bare : ∀ p ctx, s.module.heap.cells p = some ctx → ctx.privateData = .null
  global : ∀ e, s.module.globalContext ≠ .errPtr e
  owner : ∀ p ∈ owned s.module.globalContext s.taken, (none,p) ∈ s.refs
  apart : (owned s.module.globalContext s.taken).Nodup
  once : ∀ p, ofModule s.refs p ≤ 1

theorem outstanding_split (refs : List (Option H × ℕ)) (p : ℕ) :
    outstanding refs p = held refs p+ofModule refs p := by
  induction refs with
  | nil => rfl
  | cons r refs ih =>
    obtain ⟨h,q⟩ := r
    simp only [outstanding,held,ofModule] at ih
    cases h <;> simp only [outstanding,held,ofModule,List.countP_cons,ih] <;>
      by_cases hq : q = p <;> simp [hq] <;> omega

theorem ofModule_pos {refs : List (Option H × ℕ)} {p : ℕ} (h : (none,p) ∈ refs) :
    0 < ofModule refs p :=
  List.countP_pos_iff.mpr ⟨_,h,by simp⟩

theorem ofModule_cons (refs : List (Option H × ℕ)) (h : Option H) (p q : ℕ) :
    ofModule ((h,p)::refs) q = ofModule refs q+if h = none ∧ p = q then 1 else 0 := by
  cases h <;> simp [ofModule,List.countP_cons]

theorem held_cons (refs : List (Option H × ℕ)) (h : Option H) (p q : ℕ) :
    held ((h,p)::refs) q = held refs q+if h ≠ none ∧ p = q then 1 else 0 := by
  cases h <;> simp [held,List.countP_cons]

theorem Accounted.module_ref {s : ContextRun F H} (hs : Accounted s) {p : ℕ}
    (hp : p ∈ owned s.module.globalContext s.taken) :
    ofModule s.refs p = 1 ∧ (owned s.module.globalContext s.taken).count p = 1 := by
  have hpos := ofModule_pos (hs.owner p hp)
  have honce := hs.once p
  exact ⟨by omega,List.count_eq_one_of_mem hs.apart hp⟩

theorem referred_le {s : ContextRun F H} (hs : Accounted s) (p : ℕ) :
    s.referred p ≤ outstanding s.refs p := by
  rw [outstanding_split,ContextRun.referred]
  by_cases hp : p ∈ owned s.module.globalContext s.taken
  · obtain ⟨h1,h2⟩ := hs.module_ref hp
    omega
  · rw [List.count_eq_zero_of_not_mem hp]
    omega

/-- No count stands for references that nobody has. -/
def NoneLost (s : ContextRun F H) : Prop := ∀ p, s.referred p = 0 → outstanding s.refs p = 0

theorem accounted_count {s : ContextRun F H} (hs : Accounted s) {p : ℕ}
    (hp : p < s.module.heap.next) :
    s.module.heap.freed.count p = if outstanding s.refs p = 0 then 1 else 0 := by
  rw [s.module.heap.once p]
  have hl := hs.tracks.live p
  simp only [counts,Option.isSome_map] at hl
  by_cases h0 : outstanding s.refs p = 0
  · have hnone : s.module.heap.cells p = none := by
      rw [h0] at hl
      simpa using hl
    rw [if_pos ⟨hp,hnone⟩,if_pos h0]
  · have hsome : (s.module.heap.cells p).isSome := hl.mpr (by omega)
    rw [if_neg h0,if_neg]
    rintro ⟨-,hnone⟩
    rw [hnone] at hsome
    cases hsome

theorem freedAtLast_iff {s : ContextRun F H} (hs : Accounted s) : FreedAtLast s ↔ NoneLost s := by
  constructor
  · intro h p h0
    by_cases hp : p < s.module.heap.next
    · have hone := h p hp
      rw [if_pos h0,accounted_count hs hp] at hone
      by_contra hne
      rw [if_neg hne] at hone
      cases hone
    · apply hs.tracks.dead
      rw [counts,s.module.heap.fresh p (not_lt.mp hp)]
      rfl
  · intro h p hp
    have hle := referred_le hs p
    rw [accounted_count hs hp]
    by_cases h0 : s.referred p = 0
    · rw [if_pos (h p h0),if_pos h0]
    · rw [if_neg (by omega),if_neg h0]

theorem freed_unreferred {s : ContextRun F H} (h : FreedAtLast s) {p : ℕ}
    (hf : p ∈ s.module.heap.freed) (hn : p < s.module.heap.next) : s.referred p = 0 := by
  by_contra hne
  have hcount := h p hn
  have hpos := List.count_pos_iff.mpr hf
  rw [if_neg hne] at hcount
  omega

theorem unused_accounted : Accounted (unused : ContextRun F H) where
  tracks := ⟨by simp [counts,unused],by simp [counts,unused]⟩
  bare _ _ h := by cases h
  global _ h := by cases h
  owner _ h := by cases h
  apart := List.nodup_nil
  once _ := Nat.zero_le 1

theorem live_of_ref {s : ContextRun F H} (hs : Accounted s) {h : Option H} {p : ℕ}
    (hm : (h,p) ∈ s.refs) : ∃ ctx, s.module.heap.cells p = some ctx := by
  have hl := (hs.tracks.live p).mpr (outstanding_pos hm)
  rw [counts,Option.isSome_map] at hl
  exact Option.isSome_iff_exists.mp hl

theorem accounted_update {s : ContextRun F H} (hs : Accounted s) {m : ContextModule F}
    {taken : List ℕ} {refs : List (Option H × ℕ)} {p : ℕ} {v : Option (Context F)}
    (hc : m.heap.cells = Function.update s.module.heap.cells p v)
    (hv : ∀ ctx, v = some ctx → ctx.privateData = .null)
    (ht : Tracks (Function.update (counts s.module) p (v.map Context.refCount)) refs)
    (hg : ∀ e, m.globalContext ≠ .errPtr e)
    (ho : ∀ q ∈ owned m.globalContext taken, (none,q) ∈ refs)
    (ha : (owned m.globalContext taken).Nodup) (h1 : ∀ q, ofModule refs q ≤ 1) :
    Accounted ⟨m,taken,refs⟩ := by
  constructor
  · have hcounts : counts m = Function.update (counts s.module) p (v.map Context.refCount) := by
      funext q
      by_cases hq : q = p
      · subst q
        simp [counts,hc]
      · simp [counts,hc,Function.update_of_ne hq]
    change Tracks (counts m) refs
    rw [hcounts]
    exact ht
  · intro q ctx hq
    change m.heap.cells q = some ctx at hq
    rw [hc] at hq
    rcases update_eq_some.mp hq with ⟨-,hq⟩ | ⟨-,hq⟩
    · exact hv ctx hq
    · exact hs.bare q ctx hq
  · exact hg
  · exact ho
  · exact ha
  · exact h1

theorem taken_owned {global : Ptr} {taken : List ℕ} {p : ℕ} (hp : p ∈ taken) :
    p ∈ owned global taken := by
  cases global with
  | obj q => exact List.mem_cons_of_mem q hp
  | null | errPtr e => exact hp

theorem taken_nodup {global : Ptr} {taken : List ℕ} (h : (owned global taken).Nodup) :
    taken.Nodup := by
  cases global with
  | obj q => exact (List.nodup_cons.mp h).2
  | null | errPtr e => exact h

theorem owned_erase {global : Ptr} {taken : List ℕ} {p : ℕ} (hp : p ∈ taken)
    (h : (owned global taken).Nodup) :
    owned global (taken.erase p) = (owned global taken).erase p := by
  cases global with
  | obj q =>
    have hq : q ≠ p := by
      rintro rfl
      exact (List.nodup_cons.mp h).1 hp
    exact (List.erase_cons_tail (by simpa using hq)).symm
  | null | errPtr e => rfl

/-- A new context with one reference, of `h`. The global pointer stays or, when
the reference is the module's, moves to the new context. -/
theorem accounted_alloc {s : ContextRun F H} (hs : Accounted s) (fields : F) (h : Option H)
    {g : Ptr} (hg : g = s.module.globalContext ∨ h = none ∧ g = .obj s.module.heap.next) :
    Accounted ⟨⟨s.module.heap.alloc (newContext fields),g⟩,s.taken,
      (h,s.module.heap.next)::s.refs⟩ := by
  have hnew : counts s.module s.module.heap.next = none := by
    simp [counts,s.module.heap.fresh s.module.heap.next le_rfl]
  have hnot : ∀ q ∈ s.taken, q ≠ s.module.heap.next := by
    rintro q hq rfl
    obtain ⟨ctx,hctx⟩ := live_of_ref hs (hs.owner _ (taken_owned hq))
    exact lt_irrefl _ (lt_next hctx)
  apply accounted_update hs (p := s.module.heap.next) (v := some (newContext fields)) rfl
  · rintro ctx hctx
    cases hctx
    rfl
  · exact tracks_create hs.tracks h hnew
  · rcases hg with rfl | ⟨-,rfl⟩
    · exact hs.global
    · intro e he
      cases he
  · rcases hg with rfl | ⟨rfl,rfl⟩
    · intro q hq
      exact List.mem_cons_of_mem _ (hs.owner q hq)
    · intro q hq
      rcases List.mem_cons.mp hq with rfl | hq
      · exact List.mem_cons_self
      · exact List.mem_cons_of_mem _ (hs.owner q (taken_owned hq))
  · rcases hg with rfl | ⟨-,rfl⟩
    · exact hs.apart
    · exact List.nodup_cons.mpr ⟨fun hq => hnot _ hq rfl,taken_nodup hs.apart⟩
  · intro q
    have hzero := hs.tracks.dead hnew
    have honce := hs.once q
    rw [outstanding_split] at hzero
    rw [ofModule_cons]
    split_ifs with hq
    · rw [← hq.2]
      omega
    · omega

theorem noneLost_cons {s : ContextRun F H} (h : H) (p : ℕ) {m : ContextModule F}
    (hg : m.globalContext = s.module.globalContext) (hl : NoneLost s) :
    NoneLost ⟨m,s.taken,(some h,p)::s.refs⟩ := by
  intro q hq
  have hlost := hl q
  simp only [ContextRun.referred,held_cons,outstanding_cons,hg] at hq hlost ⊢
  by_cases hp : p = q
  · simp [hp] at hq
  · simp only [hp,and_false,if_false] at hq ⊢
    exact hlost hq

theorem accounted_acquire {s : ContextRun F H} (hs : Accounted s) (h : H) {p : ℕ}
    {ctx : Context F} (hp : s.module.heap.cells p = some ctx) {k : Heap (Context F)}
    (hk : k.cells = Function.update s.module.heap.cells p
      (some { ctx with refCount := ctx.refCount+1 })) :
    Accounted ⟨{ s.module with heap := k },s.taken,(some h,p)::s.refs⟩ := by
  have hcount : counts s.module p = some ctx.refCount := by rw [counts,hp]; rfl
  apply accounted_update hs hk
  · rintro c hc
    cases hc
    exact hs.bare p ctx hp
  · exact tracks_acquire hs.tracks (some h) hcount
  · exact hs.global
  · intro q hq
    exact List.mem_cons_of_mem _ (hs.owner q hq)
  · exact hs.apart
  · intro q
    rw [ofModule_cons,if_neg (fun hq => Option.some_ne_none h hq.1)]
    exact hs.once q

variable [DecidableEq H]

theorem ofModule_drop_le (refs : List (Option H × ℕ)) (h : Option H) (p q : ℕ) :
    ofModule (drop refs h p) q ≤ ofModule refs q :=
  (countP_drop refs h p _).trans_le (Nat.sub_le _ _)

theorem held_drop_none (refs : List (Option H × ℕ)) (p q : ℕ) :
    held (drop refs none p) q = held refs q := by
  simp [held,countP_drop]

theorem held_drop_some {refs : List (Option H × ℕ)} {h : H} {p : ℕ} (hm : (some h,p) ∈ refs)
    (q : ℕ) : held (drop refs (some h) p) q = held refs q-if p = q then 1 else 0 := by
  simp [held,countP_drop,hm]

omit [DecidableEq H] in
theorem held_pos {refs : List (Option H × ℕ)} {h : H} {p : ℕ} (hm : (some h,p) ∈ refs) :
    0 < held refs p :=
  List.countP_pos_iff.mpr ⟨_,hm,by simp⟩

def ContextRun.giveUp (s : ContextRun F H) (h : Option H) (m : ContextModule F) :
    Ptr → ContextRun F H
  | .obj p => { s with module := m, refs := drop s.refs h p }
  | _ => { s with module := m }

/-- A caller puts NULL or a reference it has. -/
def mayPut (refs : List (Option H × ℕ)) (h : H) : Ptr → Bool
  | .null => true
  | .errPtr _ => false
  | .obj p => decide ((some h,p) ∈ refs)

def contexts (api : ContextApi F A) : Machine (ContextRun F H) (ContextCall A H) where
  enabled s
    | .exitFree p => p ∈ s.taken
    | .put h ctx => mayPut s.refs h ctx = true
    | .init _ | .exitLocked | .create _ _ _ | .get _ => True
  step s
    | .init kzalloc =>
      let (m,ret) := api.init s.module kzalloc
      some (if ret = 0 then s.grant none m m.globalContext else { s with module := m })
    | .exitLocked =>
      let (m,ctx) := api.exitLocked s.module
      some { s with module := m, taken := owned ctx s.taken }
    | .exitFree p =>
      (api.exitFree s.module (.obj p)).map
        (fun m => { s.giveUp none m (.obj p) with taken := s.taken.erase p })
    | .create h args kzalloc =>
      let (m,ctx) := api.createContext args s.module kzalloc
      some (s.grant (some h) m ctx)
    | .get h => (api.getContext s.module).map (fun (m,ctx) => s.grant (some h) m ctx)
    | .put h ctx => (api.putContext s.module ctx).map (fun m => s.giveUp (some h) m ctx)

instance (api : ContextApi F A) (s : ContextRun F H) :
    (l : ContextCall A H) → Decidable ((contexts api).enabled s l)
  | .exitFree p => inferInstanceAs (Decidable (p ∈ s.taken))
  | .put h ctx => inferInstanceAs (Decidable (mayPut s.refs h ctx = true))
  | .init _ | .exitLocked | .create _ _ _ | .get _ => inferInstanceAs (Decidable True)

instance (s : ContextRun F H) : (l : ContextCall A H) → Decidable (OnlyReference s l)
  | .init true =>
    match h : s.module.globalContext with
    | .obj p => decidable_of_iff (s.referred p ≠ 1) (by simp [OnlyReference,h])
    | .null | .errPtr _ => isTrue (by simp [OnlyReference,h])
  | .exitFree p => inferInstanceAs (Decidable (s.referred p = 1))
  | .put _ (.obj p) =>
    inferInstanceAs (Decidable (outstanding s.refs p % 2^32 = 1 ↔ s.referred p = 1))
  | .put _ .null | .put _ (.errPtr _) | .init false | .exitLocked | .create _ _ _ | .get _ =>
    inferInstanceAs (Decidable True)

/-- The call touches no freed context and leaves the contexts without
references, and only these, freed. -/
def ContextSafe (api : ContextApi F A) (s : ContextRun F H) (l : ContextCall A H) : Prop :=
  ∃ u, (contexts api).step s l = some u ∧ FreedAtLast u

theorem accounted_release {s : ContextRun F H} (hs : Accounted s) {h : H} {p : ℕ}
    {ctx : Context F} (hp : s.module.heap.cells p = some ctx) (hm : (some h,p) ∈ s.refs)
    (hn : outstanding s.refs p ≠ 1) {k : Heap (Context F)}
    (hk : k.cells = Function.update s.module.heap.cells p
      (some { ctx with refCount := ctx.refCount-1 })) :
    Accounted ⟨{ s.module with heap := k },s.taken,drop s.refs (some h) p⟩ := by
  have hcount : counts s.module p = some ctx.refCount := by rw [counts,hp]; rfl
  apply accounted_update hs hk
  · rintro c hc
    cases hc
    exact hs.bare p ctx hp
  · exact tracks_release hs.tracks hcount hm hn
  · exact hs.global
  · intro q hq
    exact (mem_drop (by simp)).mpr (hs.owner q hq)
  · exact hs.apart
  · exact fun q => (ofModule_drop_le _ _ _ q).trans (hs.once q)

theorem accounted_destroy {s : ContextRun F H} (hs : Accounted s) {h : Option H} {p : ℕ}
    (hm : (h,p) ∈ s.refs) (hn : outstanding s.refs p = 1) {taken : List ℕ}
    {k : Heap (Context F)} (hk : k.cells = Function.update s.module.heap.cells p none)
    (ho : ∀ q ∈ owned s.module.globalContext taken,
      q ∈ owned s.module.globalContext s.taken ∧ (h = none → q ≠ p))
    (ha : (owned s.module.globalContext taken).Nodup) :
    Accounted ⟨{ s.module with heap := k },taken,drop s.refs h p⟩ := by
  apply accounted_update hs hk
  · intro c hc
    cases hc
  · exact tracks_destroy hs.tracks hm hn
  · exact hs.global
  · intro q hq
    obtain ⟨hold,hne⟩ := ho q hq
    have hpair : ((none,q) : Option H × ℕ) ≠ (h,p) := by
      intro he
      obtain ⟨h1,h2⟩ := Prod.mk.inj he
      exact hne h1.symm h2
    exact (mem_drop hpair).mpr (hs.owner q hold)
  · exact ha
  · exact fun q => (ofModule_drop_le _ _ _ q).trans (hs.once q)

variable {api : ContextApi F A}

def ContextRun.released (s : ContextRun F H) (k : Heap (Context F)) (taken : List ℕ)
    (h : Option H) (p : ℕ) : ContextRun F H :=
  ⟨{ s.module with heap := k },taken,drop s.refs h p⟩

theorem exitFree_live (hapi : api.Counted) {s : ContextRun F H} (hs : Accounted s) {p : ℕ}
    (hp : p ∈ s.taken) :
    ∃ k, (contexts api).step s (.exitFree p) = some (s.released k (s.taken.erase p) none p) ∧
      k.next = s.module.heap.next ∧ p ∈ k.freed ∧
      (outstanding s.refs p = 1 → Accounted (s.released k (s.taken.erase p) none p)) := by
  have hm := hs.owner p (taken_owned hp)
  obtain ⟨ctx,hctx⟩ := live_of_ref hs hm
  obtain ⟨k,hk,hkc,hkn,hkf⟩ := freeContext_live hctx (hs.bare p ctx hctx)
  refine ⟨k,?_,hkn,by rw [hkf]; exact List.mem_cons_self,fun hn => ?_⟩
  · change (api.exitFree s.module (.obj p)).map _ = _
    rw [hapi.exitFree,exitFree,hk]
    rfl
  · have herase := owned_erase hp hs.apart
    apply accounted_destroy hs hm hn hkc
    · intro q hq
      rw [herase,hs.apart.mem_erase_iff] at hq
      exact ⟨hq.2,fun _ => hq.1⟩
    · rw [herase]
      exact hs.apart.erase p

theorem put_live (hapi : api.Counted) {s : ContextRun F H} (hs : Accounted s) {h : H} {p : ℕ}
    (hm : (some h,p) ∈ s.refs) :
    ∃ k, (contexts api).step s (.put h (.obj p)) = some (s.released k s.taken (some h) p) ∧
      k.next = s.module.heap.next ∧ (outstanding s.refs p%2^32 = 1 → p ∈ k.freed) ∧
      ((outstanding s.refs p%2^32 = 1 → outstanding s.refs p = 1) →
        Accounted (s.released k s.taken (some h) p)) := by
  obtain ⟨ctx,hctx⟩ := live_of_ref hs hm
  have hcount : counts s.module p = some ctx.refCount := by rw [counts,hctx]; rfl
  have hzero : ctx.refCount-1 = 0 ↔ outstanding s.refs p%2^32 = 1 := hs.tracks.zero_iff hcount
  obtain ⟨k,hk,hkn,heff⟩ := putContext_live hctx (hs.bare p ctx hctx)
  refine ⟨k,?_,hkn,fun h1 => ?_,fun hn => ?_⟩
  · change (api.putContext s.module (.obj p)).map _ = _
    rw [hapi.put,hk]
    rfl
  · rw [if_pos (hzero.mpr h1)] at heff
    rw [heff.2]
    exact List.mem_cons_self
  · by_cases h0 : ctx.refCount-1 = 0
    · rw [if_pos h0] at heff
      apply accounted_destroy hs hm (hn (hzero.mp h0)) heff.1
      · exact fun q hq => ⟨hq,fun hh => absurd hh (Option.some_ne_none h)⟩
      · exact hs.apart
    · rw [if_neg h0] at heff
      apply accounted_release hs hctx hm _ heff.1
      intro h1
      exact h0 (hzero.mpr (by rw [h1]; rfl))

theorem get_outcome (hapi : api.Counted) {s : ContextRun F H} (hs : Accounted s) (h : H) :
    ∃ u, (contexts api).step s (.get h) = some u ∧ Accounted u ∧ (NoneLost s → NoneLost u) := by
  change ∃ u, (api.getContext s.module).map _ = some u ∧ Accounted u ∧ (NoneLost s → NoneLost u)
  rw [hapi.get]
  cases hg : s.module.globalContext with
  | null =>
    refine ⟨s,?_,hs,id⟩
    simp only [getContext,hg,Option.map_some]
    rfl
  | errPtr e => exact absurd hg (hs.global e)
  | obj p =>
    have hown : p ∈ owned s.module.globalContext s.taken := by
      rw [hg]
      exact List.mem_cons_self
    obtain ⟨ctx,hctx⟩ := live_of_ref hs (hs.owner p hown)
    obtain ⟨k,hk,hkc,-,-⟩ := getContext_live hg hctx
    exact ⟨_,by rw [hk]; rfl,accounted_acquire hs h hctx hkc,noneLost_cons h p rfl⟩

omit [DecidableEq H] in
theorem noneLost_init {s : ContextRun F H} (hs : Accounted s) (hn : NoneLost s)
    (heap : Heap (Context F)) :
    NoneLost ⟨⟨heap,.obj s.module.heap.next⟩,s.taken,(none,s.module.heap.next)::s.refs⟩ ↔
      ∀ p, s.module.globalContext = .obj p → s.referred p ≠ 1 := by
  have hfresh : ∀ p ∈ owned s.module.globalContext s.taken, s.module.heap.next ≠ p := by
    rintro p hp rfl
    obtain ⟨ctx,hctx⟩ := live_of_ref hs (hs.owner _ hp)
    exact lt_irrefl _ (lt_next hctx)
  let u : ContextRun F H :=
    ⟨⟨heap,.obj s.module.heap.next⟩,s.taken,(none,s.module.heap.next)::s.refs⟩
  have hout : ∀ p, outstanding u.refs p =
      outstanding s.refs p+if s.module.heap.next = p then 1 else 0 :=
    outstanding_cons none s.module.heap.next s.refs
  have hnew : ∀ p, u.referred p =
      held s.refs p+s.taken.count p+if s.module.heap.next = p then 1 else 0 := by
    intro p
    change held ((none,s.module.heap.next)::s.refs) p+(s.module.heap.next::s.taken).count p = _
    rw [held_cons,if_neg (fun h => h.1 rfl),List.count_cons]
    simp only [beq_iff_eq]
    omega
  have hold : ∀ p, s.referred p =
      held s.refs p+s.taken.count p+if s.module.globalContext = .obj p then 1 else 0 := by
    intro p
    rw [ContextRun.referred]
    cases hg : s.module.globalContext with
    | obj q =>
      rw [owned,List.count_cons]
      simp only [beq_iff_eq,Ptr.obj.injEq]
      omega
    | null | errPtr e => simp [owned]
  constructor
  · intro h p hg h1
    have hp : p ∈ owned s.module.globalContext s.taken := by
      rw [hg]
      exact List.mem_cons_self
    have hpos := outstanding_pos (hs.owner p hp)
    have hzero : u.referred p = 0 → outstanding u.refs p = 0 := h p
    have h1 := (hold p).symm.trans h1
    rw [hnew,hout,if_neg (hfresh p hp)] at hzero
    rw [if_pos hg] at h1
    omega
  · intro h p h0
    have h0 : u.referred p = 0 := h0
    change outstanding u.refs p = 0
    have hlost := hn p
    have hone := h p
    rw [hold] at hlost hone
    rw [hnew] at h0
    rw [hout]
    by_cases hp : s.module.heap.next = p
    · rw [if_pos hp] at h0
      omega
    rw [if_neg hp] at h0 ⊢
    by_cases hg : s.module.globalContext = .obj p
    · rw [if_pos hg] at hone
      have hmany := hone hg
      omega
    · rw [if_neg hg] at hlost
      exact hlost h0

theorem init_outcome (hapi : api.Counted) {s : ContextRun F H} (hs : Accounted s)
    (kzalloc : Bool) :
    ∃ u, (contexts api).step s (.init kzalloc : ContextCall A H) = some u ∧ Accounted u ∧
      (NoneLost s → (NoneLost u ↔ OnlyReference s (.init kzalloc : ContextCall A H))) := by
  obtain ⟨fields,hinit⟩ := hapi.init
  have hstep : (contexts api).step s (.init kzalloc : ContextCall A H) =
      some (if (api.init s.module kzalloc).2 = 0 then
        s.grant none (api.init s.module kzalloc).1 (api.init s.module kzalloc).1.globalContext
      else { s with module := (api.init s.module kzalloc).1 }) := rfl
  rw [hstep,hinit]
  cases kzalloc with
  | false => exact ⟨s,rfl,hs,fun hn => iff_of_true hn trivial⟩
  | true =>
    exact ⟨_,rfl,accounted_alloc hs fields none (Or.inr ⟨rfl,rfl⟩),fun hn => noneLost_init hs hn _⟩

theorem create_outcome (hapi : api.Counted) {s : ContextRun F H} (hs : Accounted s) (h : H)
    (args : A) (kzalloc : Bool) :
    ∃ u, (contexts api).step s (.create h args kzalloc) = some u ∧ Accounted u ∧
      (NoneLost s → NoneLost u) := by
  have hstep : (contexts api).step s (.create h args kzalloc) =
      some (s.grant (some h) (api.createContext args s.module kzalloc).1
        (api.createContext args s.module kzalloc).2) := rfl
  rw [hstep]
  rcases hapi.create args s.module kzalloc with ⟨fields,hc⟩ | ⟨e,hc⟩
  · rw [hc]
    cases kzalloc with
    | false => exact ⟨s,rfl,hs,id⟩
    | true =>
      exact ⟨_,rfl,accounted_alloc hs fields (some h) (Or.inl rfl),
        noneLost_cons h s.module.heap.next rfl⟩
  · rw [hc]
    exact ⟨s,rfl,hs,id⟩

theorem exitLocked_outcome (hapi : api.Counted) {s : ContextRun F H} (hs : Accounted s) :
    ∃ u, (contexts api).step s (.exitLocked : ContextCall A H) = some u ∧ Accounted u ∧
      (NoneLost s → NoneLost u) := by
  have hstep : (contexts api).step s (.exitLocked : ContextCall A H) =
      some { s with
        module := (api.exitLocked s.module).1
        taken := owned (api.exitLocked s.module).2 s.taken } := rfl
  rw [hstep,hapi.exitLocked]
  refine ⟨_,rfl,⟨hs.tracks,hs.bare,?_,hs.owner,hs.apart,hs.once⟩,id⟩
  intro e he
  cases he

theorem call_accounted (hapi : api.Counted) {s : ContextRun F H} (hs : Accounted s)
    {l : ContextCall A H} (he : (contexts api).enabled s l) (hc : CountKept s l) :
    ∃ u, (contexts api).step s l = some u ∧ Accounted u := by
  cases l with
  | init kzalloc =>
    obtain ⟨u,hu,ha,-⟩ := init_outcome hapi hs kzalloc
    exact ⟨u,hu,ha⟩
  | exitLocked =>
    obtain ⟨u,hu,ha,-⟩ := exitLocked_outcome hapi hs
    exact ⟨u,hu,ha⟩
  | exitFree p =>
    obtain ⟨k,hk,-,-,ha⟩ := exitFree_live hapi hs he
    exact ⟨_,hk,ha hc⟩
  | create h args kzalloc =>
    obtain ⟨u,hu,ha,-⟩ := create_outcome hapi hs h args kzalloc
    exact ⟨u,hu,ha⟩
  | get h =>
    obtain ⟨u,hu,ha,-⟩ := get_outcome hapi hs h
    exact ⟨u,hu,ha⟩
  | put h ctx =>
    cases ctx with
    | null =>
      refine ⟨s,?_,hs⟩
      change (api.putContext s.module .null).map _ = _
      rw [hapi.put]
      rfl
    | errPtr e => cases he
    | obj p =>
      obtain ⟨k,hk,-,-,ha⟩ := put_live hapi hs (of_decide_eq_true he)
      exact ⟨_,hk,ha hc⟩

def Outcome (api : ContextApi F A) (s : ContextRun F H) (l : ContextCall A H) : Prop :=
  ∃ u, (contexts api).step s l = some u ∧ (OnlyReference s l → Accounted u ∧ FreedAtLast u) ∧
    (FreedAtLast u → OnlyReference s l)

theorem exitFree_outcome (hapi : api.Counted) {s : ContextRun F H} (hs : Accounted s)
    (hl : NoneLost s) {p : ℕ} (hp : p ∈ s.taken) : Outcome api s (.exitFree p) := by
  have hown : p ∈ owned s.module.globalContext s.taken := taken_owned hp
  have hm := hs.owner p hown
  have hpos := outstanding_pos hm
  obtain ⟨ctx,hctx⟩ := live_of_ref hs hm
  obtain ⟨hmodule,hcount⟩ := hs.module_ref hown
  have hsame : s.referred p = outstanding s.refs p := by
    rw [outstanding_split,ContextRun.referred,hmodule,hcount]
  obtain ⟨k,hk,hkn,hkf,hau⟩ := exitFree_live hapi hs hp
  have hreferred : ∀ q, (s.released k (s.taken.erase p) none p).referred q =
      s.referred q-if p = q then 1 else 0 := by
    intro q
    simp only [ContextRun.referred,ContextRun.released,held_drop_none,owned_erase hp hs.apart,
      List.count_erase,beq_iff_eq]
    by_cases hq : p = q
    · subst hq
      simp only [if_true]
      omega
    · simp [hq]
  refine ⟨_,hk,fun hone => ?_,fun hu => ?_⟩
  · have hau := hau (hsame.symm.trans hone)
    refine ⟨hau,(freedAtLast_iff hau).mpr fun q hq => ?_⟩
    rw [hreferred] at hq
    change outstanding (drop s.refs none p) q = 0
    rw [outstanding_drop hm]
    by_cases hpq : p = q
    · subst hpq
      rw [if_pos rfl,← hsame,hone]
    · rw [if_neg hpq] at hq ⊢
      exact hl q hq
  · have hzero : (s.released k (s.taken.erase p) none p).referred p = 0 :=
      freed_unreferred hu hkf (hkn.symm ▸ lt_next hctx)
    rw [hreferred,if_pos rfl] at hzero
    change s.referred p = 1
    omega

theorem put_outcome (hapi : api.Counted) {s : ContextRun F H} (hs : Accounted s)
    (hl : NoneLost s) {h : H} {p : ℕ} (hm : (some h,p) ∈ s.refs) :
    Outcome api s (.put h (.obj p)) := by
  obtain ⟨ctx,hctx⟩ := live_of_ref hs hm
  have honce := hs.once p
  have hsplit := outstanding_split s.refs p
  have hheld := held_pos hm
  have hlive : s.referred p = held s.refs p+(owned s.module.globalContext s.taken).count p := rfl
  obtain ⟨k,hk,hkn,hkf,hau⟩ := put_live hapi hs hm
  have hreferred : ∀ q, (s.released k s.taken (some h) p).referred q =
      s.referred q-if p = q then 1 else 0 := by
    intro q
    simp only [ContextRun.referred,ContextRun.released,held_drop_some hm]
    split_ifs with hq
    · subst hq
      omega
    · omega
  have hnone : (s.referred p = 1 → outstanding s.refs p = 1) →
      NoneLost (s.released k s.taken (some h) p) := by
    intro hlast q hq
    rw [hreferred] at hq
    change outstanding (drop s.refs (some h) p) q = 0
    rw [outstanding_drop hm]
    by_cases hpq : p = q
    · subst hpq
      rw [if_pos rfl] at hq ⊢
      rw [hlast (by omega)]
    · rw [if_neg hpq] at hq ⊢
      exact hl q hq
  refine ⟨_,hk,fun hn => ?_,fun hu => ?_⟩
  · have hn' : outstanding s.refs p%2^32 = 1 ↔ s.referred p = 1 := hn
    have hlast : outstanding s.refs p%2^32 = 1 → outstanding s.refs p = 1 := by
      intro hmod
      have hone := hn'.mp hmod
      omega
    refine ⟨hau hlast,(freedAtLast_iff (hau hlast)).mpr (hnone fun hone => ?_)⟩
    exact hlast (hn'.mpr hone)
  · change outstanding s.refs p%2^32 = 1 ↔ s.referred p = 1
    constructor
    · intro hmod
      have hgone : (s.released k s.taken (some h) p).referred p = 0 :=
        freed_unreferred hu (hkf hmod) (hkn.symm ▸ lt_next hctx)
      rw [hreferred,if_pos rfl] at hgone
      omega
    · intro hone
      by_contra hmod
      have hau := hau (fun h1 => absurd h1 hmod)
      have hgone := (freedAtLast_iff hau).mp hu p (by rw [hreferred,if_pos rfl,hone])
      change outstanding (drop s.refs (some h) p) p = 0 at hgone
      rw [outstanding_drop hm,if_pos rfl] at hgone
      have hle := referred_le hs p
      exact hmod (by rw [show outstanding s.refs p = 1 by omega]; rfl)

/-- Every enabled call has a result, and the contexts are freed at last exactly
when it meets the condition. -/
theorem call_outcome (hapi : api.Counted) {s : ContextRun F H} (hs : Accounted s)
    (hf : FreedAtLast s) {l : ContextCall A H} (he : (contexts api).enabled s l) :
    Outcome api s l := by
  have hl := (freedAtLast_iff hs).mp hf
  cases l with
  | init kzalloc =>
    obtain ⟨u,hu,ha,hiff⟩ := init_outcome hapi hs kzalloc
    have hfreed := (freedAtLast_iff ha).trans (hiff hl)
    exact ⟨u,hu,fun hc => ⟨ha,hfreed.mpr hc⟩,hfreed.mp⟩
  | exitLocked =>
    obtain ⟨u,hu,ha,hn⟩ := exitLocked_outcome hapi hs
    exact ⟨u,hu,fun _ => ⟨ha,(freedAtLast_iff ha).mpr (hn hl)⟩,fun _ => trivial⟩
  | exitFree p => exact exitFree_outcome hapi hs hl he
  | create h args kzalloc =>
    obtain ⟨u,hu,ha,hn⟩ := create_outcome hapi hs h args kzalloc
    exact ⟨u,hu,fun _ => ⟨ha,(freedAtLast_iff ha).mpr (hn hl)⟩,fun _ => trivial⟩
  | get h =>
    obtain ⟨u,hu,ha,hn⟩ := get_outcome hapi hs h
    exact ⟨u,hu,fun _ => ⟨ha,(freedAtLast_iff ha).mpr (hn hl)⟩,fun _ => trivial⟩
  | put h ctx =>
    cases ctx with
    | null =>
      refine ⟨s,?_,fun _ => ⟨hs,hf⟩,fun _ => trivial⟩
      change (api.putContext s.module .null).map _ = _
      rw [hapi.put]
      rfl
    | errPtr e => cases he
    | obj p => exact put_outcome hapi hs hl (of_decide_eq_true he)

theorem contexts_safe_iff (hapi : api.Counted) {ls : List (ContextCall A H)}
    (h : Always (contexts api) (contexts api).enabled unused ls) :
    Always (contexts api) (ContextSafe api) unused ls ↔
      Always (contexts api) OnlyReference unused ls := by
  refine always_attempt_iff (I := fun s => Accounted s ∧ FreedAtLast s)
    (fun s l hs he => ?_) (fun s l u hs he hc hu => ?_) h ⟨unused_accounted,?_⟩
  · obtain ⟨u,hu,hgood,hbad⟩ := call_outcome hapi hs.1 hs.2 he
    constructor
    · rintro ⟨v,hv,hf⟩
      obtain rfl : u = v := Option.some.inj (hu.symm.trans hv)
      exact hbad hf
    · exact fun hc => ⟨u,hu,(hgood hc).2⟩
  · obtain ⟨v,hv,hgood,hbad⟩ := call_outcome hapi hs.1 hs.2 he
    obtain ⟨w,hw,hf⟩ := hc
    obtain rfl : v = w := Option.some.inj (hv.symm.trans hw)
    obtain rfl : v = u := Option.some.inj (hv.symm.trans hu)
    exact hgood (hbad hf)
  · intro p hp
    cases hp

/-- For every list of calls that the callers may make, in any order: no context
is touched after it was freed, and the contexts freed are those that nobody
refers to any more, if and only if no `init` overwrites the last pointer to a
context, every exit frees a context that nobody else refers to, and every put
finds the count at 1 exactly when it is the last. -/
theorem context_lifetime_iff (defaultPolicy : QuantumSecurityPolicy t) (samplingRate : ULong t) :
    (∀ ls : List (ContextCall (CInt × ULong t) H),
      Always (contexts (securityApi defaultPolicy)) (contexts (securityApi defaultPolicy)).enabled
        unused ls →
      (Always (contexts (securityApi defaultPolicy)) (ContextSafe (securityApi defaultPolicy))
          unused ls ↔
        Always (contexts (securityApi defaultPolicy)) OnlyReference unused ls)) ∧
    (∀ ls : List (ContextCall Unit H),
      Always (contexts (perfApi samplingRate)) (contexts (perfApi samplingRate)).enabled
        unused ls →
      (Always (contexts (perfApi samplingRate)) (ContextSafe (perfApi samplingRate)) unused ls ↔
        Always (contexts (perfApi samplingRate)) OnlyReference unused ls)) :=
  ⟨fun _ h => contexts_safe_iff (security_counted defaultPolicy) h,
    fun _ h => contexts_safe_iff (perf_counted samplingRate) h⟩

def noPolicy : QuantumSecurityPolicy .bits64 := ⟨0,0,0⟩

def returnedCalls (A : Type) : List (ContextCall A Unit) :=
  [.init true,.get (),.exitLocked,.put () (.obj 0),.exitFree 0]

def heldCalls (A : Type) : List (ContextCall A Unit) :=
  [.init true,.get (),.exitLocked,.exitFree 0]

theorem context_lifetime_returned :
    Always (contexts (securityApi noPolicy)) (ContextSafe (securityApi noPolicy)) unused
        (returnedCalls _) ∧
    Always (contexts (perfApi (0 : ULong .bits64))) (ContextSafe (perfApi (0 : ULong .bits64)))
        unused (returnedCalls _) := by
  have hsec : ∃ s, Run (contexts (securityApi noPolicy)) unused (returnedCalls _) s :=
    ⟨_,run_iff_exec.mpr rfl⟩
  have hperf : ∃ s, Run (contexts (perfApi (0 : ULong .bits64))) unused (returnedCalls _) s :=
    ⟨_,run_iff_exec.mpr rfl⟩
  obtain ⟨s,hs⟩ := hsec
  obtain ⟨r,hr⟩ := hperf
  exact ⟨((context_lifetime_iff noPolicy 0).1 _ hs.attempt).mpr (by decide),
    ((context_lifetime_iff noPolicy 0).2 _ hr.attempt).mpr (by decide)⟩

def twiceCalls (A : Type) : List (ContextCall A Unit) :=
  [.init true,.init true,.exitLocked,.exitFree 1]

/-- The exit frees the context under a caller that holds it, and the put of that
caller then touches freed memory. -/
theorem context_freed_while_held :
    (∃ s, Run (contexts (securityApi noPolicy)) unused (heldCalls _) s ∧
      (contexts (securityApi noPolicy)).enabled s (.put () (.obj 0)) ∧
      s.module.heap.freed.count 0 = 1 ∧ s.referred 0 = 1 ∧
      (contexts (securityApi noPolicy)).step s (.put () (.obj 0)) = none) ∧
    (∃ s, Run (contexts (perfApi (0 : ULong .bits64))) unused (heldCalls _) s ∧
      (contexts (perfApi (0 : ULong .bits64))).enabled s (.put () (.obj 0)) ∧
      s.module.heap.freed.count 0 = 1 ∧ s.referred 0 = 1 ∧
      (contexts (perfApi (0 : ULong .bits64))).step s (.put () (.obj 0)) = none) := by
  constructor
  · exact ⟨_,run_iff_exec.mpr rfl,rfl,rfl,rfl,rfl⟩
  · exact ⟨_,run_iff_exec.mpr rfl,rfl,rfl,rfl,rfl⟩

example : (exec (contexts (securityApi noPolicy)) unused (twiceCalls _)).map
    (fun s => (s.module.heap.freed,s.referred 0)) = some ([1],0) := rfl

end CtrlxtKernel
