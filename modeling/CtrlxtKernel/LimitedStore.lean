import CtrlxtKernel.StepMachine
import Mathlib.Data.Finsupp.BigOperators
import Mathlib.Data.Multiset.Basic

/-!
# A store of blocks with holders and a limit

What a manager of sized blocks is for: a block is live as long as somebody
holds it, and the sizes of the live blocks never add up to more than the limit.
Both are fields, so no event leads out of them. An event is a call together
with its answer; the store says which answers are right.
-/

set_option autoImplicit false

namespace LimitedStore
noncomputable section
open StepMachine

variable {H : Type*}

def held (size : ℕ →₀ ℕ) : ℕ := size.sum fun _ n => n

structure Store (H : Type*) where
  size : ℕ →₀ ℕ
  holders : Multiset (H × ℕ)
  limit : ℕ
  live : ∀ p, p ∈ size.support ↔ ∃ h, (h,p) ∈ holders
  fits : held size ≤ limit

def Store.held (s : Store H) : ℕ := LimitedStore.held s.size

inductive Event (H : Type*) where
  | granted (h : H) (n p : ℕ)
  | invalid (h : H) (n : ℕ)
  | full (h : H) (n : ℕ) (memory : Bool)
  | got (h : H) (p : ℕ)
  | dropped (h : H) (p : ℕ)
  | limited (n : ℕ)
  | limitRefused (n : ℕ)

theorem held_update {size : ℕ →₀ ℕ} {p : ℕ} (hp : p ∉ size.support) (n : ℕ) :
    held (size.update p n) = held size+n := by
  have hzero : size p = 0 := Finsupp.notMem_support_iff.mp hp
  have hsum : size.update p n = size+Finsupp.single p n := by
    rw [Finsupp.update_eq_erase_add_single,Finsupp.erase_of_notMem_support hp]
  rw [held,hsum,Finsupp.sum_add_index' (fun _ => rfl) (fun _ _ _ => rfl),
    Finsupp.sum_single_index rfl]
  rfl

theorem held_erase (size : ℕ →₀ ℕ) (p : ℕ) : held (size.erase p)+size p = held size := by
  have hsum := congrArg held (Finsupp.erase_add_single p size)
  rw [held,Finsupp.sum_add_index' (fun _ => rfl) (fun _ _ _ => rfl),
    Finsupp.sum_single_index rfl] at hsum
  exact hsum

def Store.empty (limit : ℕ) : Store H where
  size := 0
  holders := 0
  limit := limit
  live p := by simp
  fits := by simp [LimitedStore.held]

def Store.grant (s : Store H) (h : H) {n p : ℕ} (hn : 0 < n) (hp : p ∉ s.size.support)
    (hl : s.held+n ≤ s.limit) : Store H where
  size := s.size.update p n
  holders := (h,p) ::ₘ s.holders
  limit := s.limit
  live q := by
    have hq := s.live q
    rw [Finsupp.mem_support_iff] at hq ⊢
    by_cases hqp : q = p
    · subst hqp
      simp [hn.ne']
    · simp [Finsupp.update_apply,hqp,hq]
  fits := by rw [held_update hp]; exact hl

def Store.get (s : Store H) {h : H} {p : ℕ} (hm : (h,p) ∈ s.holders) : Store H where
  size := s.size
  holders := (h,p) ::ₘ s.holders
  limit := s.limit
  live q := by
    rw [s.live q]
    constructor
    · rintro ⟨k,hk⟩
      exact ⟨k,Multiset.mem_cons_of_mem hk⟩
    · rintro ⟨k,hk⟩
      rcases Multiset.mem_cons.mp hk with heq | hk
      · exact ⟨h,by rw [(Prod.mk.inj heq).2]; exact hm⟩
      · exact ⟨k,hk⟩
  fits := s.fits

open Classical in
def remaining (size : ℕ →₀ ℕ) (holders : Multiset (H × ℕ)) (p : ℕ) : ℕ →₀ ℕ :=
  if ∃ h, (h,p) ∈ holders then size else size.erase p

variable [DecidableEq H]

def Store.drop (s : Store H) (h : H) (p : ℕ) : Store H where
  size := remaining s.size (s.holders.erase (h,p)) p
  holders := s.holders.erase (h,p)
  limit := s.limit
  live q := by
    have hother : q ≠ p → ∀ k, (k,q) ∈ s.holders.erase (h,p) ↔ (k,q) ∈ s.holders := by
      intro hqp k
      exact Multiset.mem_erase_of_ne (by simp [hqp])
    unfold remaining
    split_ifs with hleft
    · by_cases hqp : q = p
      · subst hqp
        obtain ⟨k,hk⟩ := hleft
        exact iff_of_true ((s.live q).mpr ⟨k,Multiset.mem_of_mem_erase hk⟩) ⟨k,hk⟩
      · simp only [s.live q,hother hqp]
    · by_cases hqp : q = p
      · subst hqp
        exact iff_of_false (by simp) hleft
      · rw [Finsupp.support_erase,Finset.mem_erase]
        simp only [s.live q,hother hqp,hqp,ne_eq,not_false_eq_true,true_and]
  fits := by
    have herase := held_erase s.size p
    have hfits := s.fits
    unfold remaining
    split_ifs <;> omega

theorem drop_holders (s : Store H) (h : H) (p : ℕ) :
    (s.drop h p).holders = s.holders.erase (h,p) := rfl

theorem drop_size (s : Store H) (h : H) (p : ℕ) :
    (s.drop h p).size = remaining s.size (s.drop h p).holders p := rfl

def Store.setLimit (s : Store H) {n : ℕ} (hn : s.held ≤ n) : Store H where
  size := s.size
  holders := s.holders
  limit := n
  live := s.live
  fits := hn

/-- Which answers are right. A block has a size from 1 to `most`. -/
def Store.allows (most : ℕ) (s : Store H) : Event H → Prop
  | .granted _ n p => (1 ≤ n ∧ n ≤ most) ∧ s.held+n ≤ s.limit ∧ p ∉ s.size.support
  | .invalid _ n => ¬(1 ≤ n ∧ n ≤ most)
  | .full _ n memory => (1 ≤ n ∧ n ≤ most) ∧ (s.limit < s.held+n ∨ memory = false)
  | .got h p | .dropped h p => (h,p) ∈ s.holders
  | .limited n => s.held ≤ n
  | .limitRefused n => n < s.held

open Classical in
def Store.after (s : Store H) : Event H → Option (Store H)
  | .granted h n p =>
    if hg : 0 < n ∧ p ∉ s.size.support ∧ s.held+n ≤ s.limit then
      some (s.grant h hg.1 hg.2.1 hg.2.2)
    else none
  | .got h p => if hm : (h,p) ∈ s.holders then some (s.get hm) else none
  | .dropped h p => some (s.drop h p)
  | .limited n => if hn : s.held ≤ n then some (s.setLimit hn) else none
  | .invalid _ _ | .full _ _ _ | .limitRefused _ => some s

theorem after_granted {s : Store H} {h : H} {n p : ℕ} (hn : 0 < n) (hp : p ∉ s.size.support)
    (hl : s.held+n ≤ s.limit) : s.after (.granted h n p) = some (s.grant h hn hp hl) :=
  dif_pos ⟨hn,hp,hl⟩

theorem after_got {s : Store H} {h : H} {p : ℕ} (hm : (h,p) ∈ s.holders) :
    s.after (.got h p) = some (s.get hm) :=
  dif_pos hm

theorem after_limited {s : Store H} {n : ℕ} (hn : s.held ≤ n) :
    s.after (.limited n) = some (s.setLimit hn) :=
  dif_pos hn

def store (H : Type*) [DecidableEq H] (most : ℕ) : Machine (Store H) (Event H) where
  enabled s e := s.allows most e
  step s e := s.after e

end

end LimitedStore
