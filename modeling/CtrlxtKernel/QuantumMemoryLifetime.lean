import CtrlxtKernel.QuantumMemoryInterleaving

/-!
# The lifetime of a block

`ctrlxt_qmem_get` takes no lock, so it may step between the decrement of a
free and the destruction that follows under the lock. A free is therefore two
steps here. While the lock is held by a free that reached zero, only the steps
that take no lock go on.
-/

set_option autoImplicit false

namespace CtrlxtKernel.QuantumMemory
open MachineInt ObjectHeap RefLedger StepMachine

variable {t : Target} {H : Type*}

structure Locking (t : Target) (H : Type*) where
  system : System t H
  lock : Option (H × ℕ)

def unlocked : Locking t H := ⟨booted,none⟩

inductive LockStep (t : Target) (H : Type*) where
  | call (l : Step t H)
  | destroy (h : H)

def takesLock : Step t H → Bool
  | .allocLocked _ _ | .put _ _ | .free _ _ => true
  | _ => false

def Locking.refs (s : Locking t H) : List (H × ℕ) := s.system.session.refs

def Locking.granted (s : Locking t H) : List (ℕ × Option ℕ) := s.system.session.granted

def Locking.qmem (s : Locking t H) : CtrlxtQmem t := s.system.session.qmem

/-- The block whose last reference the holder of the lock has given up. -/
def Locking.dying (s : Locking t H) : Option ℕ := s.lock.map Prod.snd

def Locking.destroy (s : Locking t H) : Option (Locking t H) :=
  match s.lock with
  | some (_,p) => (s.system.session.destroy p).map (fun r => ⟨{ s.system with session := r },none⟩)
  | none => none

structure Guarded (s : Locking t H) : Prop where
  held : Held s.dying s.system.session
  few : ∀ p, outstanding s.refs p < 2^31
  tested : Tested s.system.pending

theorem grants_kept {a b : List (ℕ × Option ℕ)} (h : b = a) : a ⊆ b := by
  rw [h]
  exact List.Subset.refl a

theorem guarded_same {s : Locking t H} (hs : Guarded s) {r : System t H}
    (hr : r.session = s.system.session) (hp : Tested r.pending) :
    Guarded { s with system := r } := by
  refine ⟨?_,?_,hp⟩
  · change Held s.dying r.session
    rw [hr]
    exact hs.held
  · change ∀ p, outstanding r.session.refs p < 2^31
    rw [hr]
    exact hs.few

theorem unlocked_guarded : Guarded (unlocked : Locking t H) :=
  ⟨loaded_sound.held,loaded_sound.few,fun h c hc => by cases hc⟩

theorem Guarded.freed {s : Locking t H} (hs : Guarded s) {p : ℕ} {st : Option ℕ}
    (hg : (p,st) ∈ s.granted) : ∃ i, st = some i ∧
      s.qmem.heap.freed.count p = (if outstanding s.refs p = 0 ∧ s.dying ≠ some p then 1 else 0) ∧
      s.qmem.heap.freed.count i = (if outstanding s.refs p = 0 ∧ s.dying ≠ some p then 1 else 0) :=
  hs.held.freed_once hg

def gone (s : Locking t H) (p : ℕ) : Prop := outstanding s.refs p = 0 ∧ s.dying ≠ some p

theorem gone_same {s r : Locking t H} {p : ℕ}
    (ho : outstanding r.refs p = outstanding s.refs p) (hl : r.lock = s.lock) :
    gone s p ↔ gone r p := by
  simp only [gone,Locking.dying,ho,hl]

variable [DecidableEq H]

def Locking.release (s : Locking t H) (h : H) (p : ℕ) : Option (Locking t H) :=
  (s.system.session.decAndTest h p).map (fun r =>
    ⟨{ s.system with session := r.1 },if r.2 then some (h,p) else none⟩)

def locking : Machine (Locking t H) (LockStep t H) where
  enabled s
    | .call l => concurrent.enabled s.system l ∧ (takesLock l = true → s.lock = none)
    | .destroy h => s.lock.map Prod.fst = some h
  step s
    | .call (.put h p) | .call (.free h p) => s.release h p
    | .call l => (concurrent.step s.system l).map (fun r => { s with system := r })
    | .destroy _ => s.destroy

instance (s : Locking t H) : (l : LockStep t H) → Decidable (locking.enabled s l)
  | .call l => inferInstanceAs
      (Decidable (concurrent.enabled s.system l ∧ (takesLock l = true → s.lock = none)))
  | .destroy h => inferInstanceAs (Decidable (s.lock.map Prod.fst = some h))

def Effect (s r : Locking t H) : LockStep t H → Prop
  | .call (.get h p) => r.refs = (h,p)::s.refs ∧ r.lock = s.lock
  | .call (.put h p) | .call (.free h p) => s.lock = none ∧ r.refs = s.refs.erase (h,p) ∧
      r.lock = if outstanding s.refs p = 1 then some (h,p) else none
  | .call (.allocLocked h _) => r.lock = s.lock ∧
      (r.refs = s.refs ∨ r.refs = (h,s.qmem.heap.next)::s.refs)
  | .call _ => r.refs = s.refs ∧ r.lock = s.lock
  | .destroy h => r.refs = s.refs ∧ r.lock = none ∧ s.lock.map Prod.fst = some h

theorem release_guarded {s : Locking t H} (hs : Guarded s) {h : H} {p : ℕ}
    (hm : (h,p) ∈ s.refs) (hl : s.lock = none) :
    ∃ r, s.release h p = some r ∧ Guarded r ∧ s.granted ⊆ r.granted ∧
      r.refs = s.refs.erase (h,p) ∧
      r.lock = if outstanding s.refs p = 1 then some (h,p) else none := by
  have hheld : Held none s.system.session := by
    have hd : s.dying = none := by simp [Locking.dying,hl]
    rw [← hd]
    exact hs.held
  have hp := hs.few p
  obtain ⟨r,zero,hr,hz,hk,hrefs,hg⟩ := decAndTest_kept hheld hm
    (show outstanding s.refs p ≤ 2^32 by omega)
  refine ⟨⟨{ s.system with session := r },if zero then some (h,p) else none⟩,
    by simp [Locking.release,hr],⟨?_,?_,hs.tested⟩,?_,hrefs,?_⟩
  · cases zero <;> exact hk.held
  · change ∀ i, outstanding r.refs i < 2^31
    rw [hrefs]
    exact outstanding_erase_lt hs.few hm
  · exact grants_kept hg
  · exact if_congr hz rfl rfl

theorem alloc_guarded {s : Locking t H} (hs : Guarded s) {h : H} {n flags : ULong t}
    (hc : s.system.pending h = some (.alloc n flags)) (o : AllocOutcome) (hl : s.lock = none) :
    ∃ r, s.system.allocLocked h o = some r ∧ Guarded { s with system := r } ∧
      s.granted ⊆ r.session.granted ∧
      (r.session.refs = s.refs ∨ r.session.refs = (h,s.qmem.heap.next)::s.refs) := by
  have hd : s.dying = none := by simp [Locking.dying,hl]
  have hheld : Held none s.system.session := by
    rw [← hd]
    exact hs.held
  have keep : ∀ r, Held none r → (∀ p, outstanding r.refs p < 2^31) →
      Guarded { s with system := s.system.finish h r } := by
    intro r hr hf
    refine ⟨?_,hf,tested_finish hs.tested h⟩
    change Held s.dying r
    rw [hd]
    exact hr
  by_cases ho : o = ⟨true,true⟩
  · subst o
    obtain ⟨k,hk,hh,-,-⟩ := allocLocked_granted hheld h flags (hs.tested h _ hc)
    refine ⟨s.system.finish h (s.system.session.granting h k n),
      by simp [System.allocLocked,hc,hk],?_,List.subset_cons_self _ _,Or.inr rfl⟩
    apply keep _ hh
    have hf := granting_fresh hheld
    exact outstanding_cons_lt hs.few h (by change outstanding s.system.session.refs _+1 < _; omega)
  · obtain ⟨r,hr,hk,hrefs,hg⟩ := allocLocked_refused hheld h n flags ho
    refine ⟨s.system.finish h r,by simp [System.allocLocked,hc,hr],?_,?_,Or.inl hrefs⟩
    · apply keep _ hk.held
      rw [hrefs]
      exact hs.few
    · exact grants_kept hg

/-- Every enabled step has a result, so none touches a freed block. -/
theorem locking_step {s : Locking t H} (hs : Guarded s) {l : LockStep t H}
    (he : locking.enabled s l) :
    ∃ r, locking.step s l = some r ∧ Guarded r ∧ Effect s r l ∧ s.granted ⊆ r.granted := by
  cases l with
  | destroy h =>
    obtain ⟨⟨i,p⟩,hl,rfl⟩ := Option.map_eq_some_iff.mp he
    have hheld : Held (some p) s.system.session := by
      have hd : s.dying = some p := by simp [Locking.dying,hl]
      rw [← hd]
      exact hs.held
    obtain ⟨r,hr,hk,hrefs,hg⟩ := destroy_kept hheld
    refine ⟨⟨{ s.system with session := r },none⟩,by simp [locking,Locking.destroy,hl,hr],
      ⟨hk.held,?_,hs.tested⟩,⟨hrefs,rfl,he⟩,grants_kept hg⟩
    change ∀ p, outstanding r.refs p < 2^31
    rw [hrefs]
    exact hs.few
  | call l =>
    obtain ⟨he,hlock⟩ := he
    cases l with
    | allocTests h n flags =>
      have hr := allocTests_session s.system h n flags
      exact ⟨{ s with system := s.system.allocTests h n flags },rfl,
        guarded_same hs hr (tested_allocTests hs.tested h n flags),
        ⟨congrArg Session.refs hr,rfl⟩,grants_kept (congrArg Session.granted hr)⟩
    | allocLocked h o =>
      obtain ⟨n,flags,hc⟩ := pending_alloc he
      obtain ⟨r,hr,hg,hsub,hrefs⟩ := alloc_guarded hs hc o (hlock rfl)
      exact ⟨{ s with system := r },by simp [locking,concurrent,hr],hg,⟨rfl,hrefs⟩,hsub⟩
    | get h p =>
      obtain ⟨r,hr,hk,hrefs,hg⟩ := get_kept hs.held he.1
      refine ⟨{ s with system := { s.system with session := r } },
        by simp [locking,concurrent,hr],⟨hk.held,?_,hs.tested⟩,⟨hrefs,rfl⟩,grants_kept hg⟩
      change ∀ p, outstanding r.refs p < 2^31
      rw [hrefs]
      exact outstanding_cons_lt hs.few h he.2
    | put h p | free h p =>
      obtain ⟨r,hr,hg,hsub,hrefs,hrl⟩ := release_guarded hs he (hlock rfl)
      exact ⟨r,hr,hg,⟨hlock rfl,hrefs,hrl⟩,hsub⟩
    | setMaxTest h m =>
      have hr := setMaxTest_session s.system h m
      exact ⟨{ s with system := s.system.setMaxTest h m },rfl,
        guarded_same hs hr (tested_setMaxTest hs.tested h he.2),
        ⟨congrArg Session.refs hr,rfl⟩,grants_kept (congrArg Session.granted hr)⟩
    | setMaxStore h =>
      obtain ⟨m,hc⟩ := pending_setMax he
      let r := { s.system.session with qmem := setMaxStore s.qmem m }
      have hstep : s.system.setMaxStore h = some (s.system.finish h r) := by
        simp [System.setMaxStore,hc,r,Locking.qmem]
      refine ⟨{ s with system := s.system.finish h r },by simp [locking,concurrent,hstep],
        ⟨?_,hs.few,tested_finish hs.tested h⟩,⟨rfl,rfl⟩,List.Subset.refl _⟩
      exact held_same hs.held rfl rfl (le_refl _)

theorem guarded_run {s r : Locking t H} {ls : List (LockStep t H)} (h : Run locking s ls r)
    (hs : Guarded s) : Guarded r := by
  refine h.sound (fun s l hs he => ?_) hs
  obtain ⟨u,hu,hg,-,-⟩ := locking_step hs he
  exact ⟨u,hu,hg⟩

/-- What holds of every block in a state, and of every step from it. A block
whose last reference is given up is in `used_blocks` until the call that gave
it up has destroyed it. -/
structure Lifetime (s : Locking t H) : Prop where
  refCount : ∀ p b, s.qmem.block p = some b → b.refCount.toInt = outstanding s.refs p
  used : ∀ p, p ∈ s.qmem.usedBlocks ↔ 0 < outstanding s.refs p ∨ s.dying = some p
  issued : ∀ p ∈ s.qmem.usedBlocks, ∃ b, s.qmem.block p = some b ∧ (p,b.state) ∈ s.granted
  freed : ∀ p st, (p,st) ∈ s.granted → ∃ i, st = some i ∧
    s.qmem.heap.freed.count p = (if outstanding s.refs p = 0 ∧ s.dying ≠ some p then 1 else 0) ∧
    s.qmem.heap.freed.count i = (if outstanding s.refs p = 0 ∧ s.dying ≠ some p then 1 else 0)
  safe : ∀ l, locking.enabled s l → ∃ r, locking.step s l = some r
  last : ∀ l r h p, locking.enabled s l → locking.step s l = some r → s.lock = none →
    r.lock = some (h,p) → (l = .call (.put h p) ∨ l = .call (.free h p)) ∧
      outstanding s.refs p = 1
  destroyed : ∀ l r p st, locking.enabled s l → locking.step s l = some r →
    (p,st) ∈ s.granted → r.qmem.heap.freed.count p ≠ s.qmem.heap.freed.count p →
    ∃ h, l = .destroy h ∧ s.lock = some (h,p)

/-- Only the holder of the lock completes a destruction, and only of the block
whose last reference it gave up. -/
theorem gone_step {s r : Locking t H} {l : LockStep t H} (he : locking.enabled s l)
    (hr : Effect s r l) {p : ℕ} (hp : p < s.qmem.heap.next) :
    (gone s p ↔ gone r p) ∨ ∃ h, l = .destroy h ∧ s.lock = some (h,p) := by
  cases l with
  | destroy h =>
    obtain ⟨hrefs,hlock,hh⟩ := hr
    obtain ⟨⟨i,u⟩,hl,rfl⟩ := Option.map_eq_some_iff.mp hh
    by_cases hu : u = p
    · subst u
      exact Or.inr ⟨i,rfl,hl⟩
    · left
      simp [gone,Locking.dying,hrefs,hlock,hl,hu]
  | call l =>
    left
    cases l with
    | allocTests | setMaxTest | setMaxStore => exact gone_same (by rw [hr.1]) hr.2
    | allocLocked h o =>
      obtain ⟨hl,hrefs | hrefs⟩ := hr
      · exact gone_same (by rw [hrefs]) hl
      · have hne : s.qmem.heap.next ≠ p := by omega
        exact gone_same (by rw [hrefs,outstanding_cons,if_neg hne,add_zero]) hl
    | get h u =>
      obtain ⟨hrefs,hl⟩ := hr
      by_cases hu : u = p
      · subst u
        have hpos : 0 < outstanding s.refs p := outstanding_pos he.1.1
        simp [gone,hrefs,outstanding_cons,hpos.ne']
      · exact gone_same (by rw [hrefs,outstanding_cons,if_neg hu,add_zero]) hl
    | put h u | free h u =>
      obtain ⟨hs,hrefs,hl⟩ := hr
      have hpos : 0 < outstanding s.refs u := outstanding_pos he.1
      have ho := outstanding_erase he.1 p
      change outstanding (s.refs.erase (h,u)) p = outstanding s.refs p-_ at ho
      rw [← hrefs] at ho
      by_cases hu : u = p
      · subst u
        rw [if_pos rfl] at ho
        by_cases h1 : outstanding s.refs p = 1
        · simp [gone,Locking.dying,hl,h1]
        · have hne : outstanding r.refs p ≠ 0 := by omega
          simp [gone,hne,hpos.ne']
      · rw [if_neg hu,Nat.sub_zero] at ho
        by_cases h1 : outstanding s.refs u = 1
        · simp [gone,Locking.dying,hl,hs,ho,h1,hu]
        · exact gone_same ho (by rw [hl,if_neg h1,hs])

theorem lock_taken {s r : Locking t H} {l : LockStep t H} (hr : Effect s r l)
    (hl : s.lock = none) {h : H} {p : ℕ} (hlr : r.lock = some (h,p)) :
    (l = .call (.put h p) ∨ l = .call (.free h p)) ∧ outstanding s.refs p = 1 := by
  have same : r.lock ≠ s.lock := by
    rw [hl,hlr]
    simp
  cases l with
  | destroy i =>
    rw [hr.2.1] at hlr
    cases hlr
  | call l =>
    cases l with
    | allocTests | setMaxTest | setMaxStore | get => exact absurd hr.2 same
    | allocLocked => exact absurd hr.1 same
    | put i u =>
      rw [hr.2.2] at hlr
      split_ifs at hlr with h1
      cases hlr
      exact ⟨Or.inl rfl,h1⟩
    | free i u =>
      rw [hr.2.2] at hlr
      split_ifs at hlr with h1
      cases hlr
      exact ⟨Or.inr rfl,h1⟩

/-- The lifetime of every block, in every state that the interleaved calls
reach. -/
theorem block_lifetime {s : Locking t H} {ls : List (LockStep t H)}
    (h : Run locking unlocked ls s) : Lifetime s := by
  have hs := guarded_run h unlocked_guarded
  have listed := hs.held.listed
  have tracks := hs.held.tracks
  have block : ∀ p ∈ s.qmem.usedBlocks, ∃ b, s.qmem.block p = some b := by
    intro p hp
    exact Option.isSome_iff_exists.mp ((listed.mem p).mp hp)
  constructor
  · intro p b hb
    by_cases hd : s.dying = some p
    · obtain ⟨c,hc,h0⟩ := hs.held.zero p hd
      obtain rfl : b = c := Option.some.inj (hb.symm.trans hc)
      have ho : outstanding s.refs p = 0 := tracks.dead (by simp [counts,hd])
      simp [h0,ho]
    · exact tracks.toInt (counts_eq_some.mpr ⟨hd,b,hb,rfl⟩) (hs.few p)
  · intro p
    have hl := tracks.live p
    change p ∈ s.system.session.qmem.usedBlocks ↔ 0 < outstanding s.system.session.refs p ∨ _
    rw [listed.mem p,← hl]
    by_cases hd : s.dying = some p
    · obtain ⟨c,hc,-⟩ := hs.held.zero p hd
      simp [hd,hc]
    · simp [counts,hd]
  · intro p hp
    obtain ⟨b,hb⟩ := block p hp
    exact ⟨b,hb,hs.held.issued p b hb⟩
  · exact fun p st hg => hs.freed hg
  · intro l he
    obtain ⟨r,hr,-⟩ := locking_step hs he
    exact ⟨r,hr⟩
  · intro l r i p he hr hl hlr
    obtain ⟨u,hu,-,hf,-⟩ := locking_step hs he
    obtain rfl : r = u := Option.some.inj (hr.symm.trans hu)
    exact lock_taken hf hl hlr
  · intro l r p st he hr hg hne
    obtain ⟨u,hu,hgu,hf,hsub⟩ := locking_step hs he
    obtain rfl : r = u := Option.some.inj (hr.symm.trans hu)
    obtain ⟨-,-,hp,-⟩ := hs.held.settled _ hg
    obtain ⟨-,-,hcs,-⟩ := hs.freed hg
    obtain ⟨-,-,hcr,-⟩ := hgu.freed (hsub hg)
    rcases gone_step he hf hp with hsame | hdone
    · unfold gone at hsame
      rw [hcs,hcr] at hne
      exact absurd (if_congr hsame rfl rfl).symm hne
    · exact hdone

theorem block_lifetime_last_put :
    ∃ s, Run locking (unlocked : Locking .bits64 Bool)
      [.call (.allocTests false 3 0),.call (.allocLocked false ⟨true,true⟩),
        .call (.get false 1),.call (.free false 1),.call (.put false 1),.destroy false] s ∧
      Lifetime s := by
  have h : ∃ s, Run locking (unlocked : Locking .bits64 Bool)
      [.call (.allocTests false 3 0),.call (.allocLocked false ⟨true,true⟩),
        .call (.get false 1),.call (.free false 1),.call (.put false 1),.destroy false] s :=
    ⟨_,run_iff_exec.mpr rfl⟩
  obtain ⟨s,hs⟩ := h
  exact ⟨s,hs,block_lifetime hs⟩

end CtrlxtKernel.QuantumMemory
