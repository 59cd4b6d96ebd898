import Mathlib.Logic.Function.Basic
import Mathlib.Tactic

/-!
# A heap that remembers what it freed

Objects are named by the order of their allocation, so a stale name never
denotes a later object. Reading, storing or freeing an object that is not
live has no result. That every name is either live or was freed exactly
once is a field of the heap, not a property of the programs that use it.
-/

set_option autoImplicit false

namespace ObjectHeap

variable {α : Type*}

structure Heap (α : Type*) where
  cells : ℕ → Option α
  next : ℕ
  freed : List ℕ
  fresh : ∀ i, next ≤ i → cells i = none
  once : ∀ i, freed.count i = if i < next ∧ cells i = none then 1 else 0

def Heap.empty : Heap α where
  cells _ := none
  next := 0
  freed := []
  fresh _ _ := rfl
  once i := by simp

def Heap.alloc (h : Heap α) (a : α) : Heap α where
  cells := Function.update h.cells h.next (some a)
  next := h.next+1
  freed := h.freed
  fresh i hi := by
    rw [Function.update_of_ne (by omega)]
    exact h.fresh i (by omega)
  once i := by
    rw [h.once i]
    by_cases hi : i = h.next
    · subst i
      simp
    · simp [Function.update_of_ne hi,show i < h.next+1 ↔ i < h.next by omega]

theorem lt_next {h : Heap α} {i : ℕ} {a : α} (hi : h.cells i = some a) : i < h.next := by
  by_contra hn
  rw [h.fresh i (by omega)] at hi
  cases hi

def Heap.store (h : Heap α) (i : ℕ) (a : α) : Option (Heap α) :=
  if hi : (h.cells i).isSome then
    some {
      cells := Function.update h.cells i (some a)
      next := h.next
      freed := h.freed
      fresh := by
        intro j hj
        obtain ⟨b,hb⟩ := Option.isSome_iff_exists.mp hi
        have hlt := lt_next hb
        rw [Function.update_of_ne (by omega)]
        exact h.fresh j hj
      once := by
        intro j
        rw [h.once j]
        by_cases hj : j = i
        · subst j
          simp [Option.isSome_iff_ne_none.mp hi]
        · simp [Function.update_of_ne hj] }
  else none

def Heap.free (h : Heap α) (i : ℕ) : Option (Heap α) :=
  if hi : (h.cells i).isSome then
    some {
      cells := Function.update h.cells i none
      next := h.next
      freed := i::h.freed
      fresh := by
        intro j hj
        by_cases hij : j = i
        · subst j
          simp
        · rw [Function.update_of_ne hij]
          exact h.fresh j hj
      once := by
        intro j
        rw [List.count_cons,h.once j]
        by_cases hij : j = i
        · subst j
          obtain ⟨b,hb⟩ := Option.isSome_iff_exists.mp hi
          simp [lt_next hb,hb]
        · simp [Function.update_of_ne hij,Ne.symm hij] }
  else none

theorem cells_ne {h : Heap α} {i j : ℕ} {a b : α} (hi : h.cells i = some a)
    (hj : h.cells j = some b) (hab : a ≠ b) : i ≠ j := by
  rintro rfl
  exact hab (Option.some.inj (hi.symm.trans hj))

@[simp] theorem empty_cells (i : ℕ) : (Heap.empty : Heap α).cells i = none := rfl

@[simp] theorem alloc_cells (h : Heap α) (a : α) :
    (h.alloc a).cells = Function.update h.cells h.next (some a) := rfl

@[simp] theorem alloc_next (h : Heap α) (a : α) : (h.alloc a).next = h.next+1 := rfl

theorem update_eq_some {f : ℕ → Option α} {i p : ℕ} {v : Option α} {a : α} :
    Function.update f p v i = some a ↔ (i = p ∧ v = some a) ∨ (i ≠ p ∧ f i = some a) := by
  by_cases hi : i = p
  · subst i
    simp
  · simp [hi]

theorem store_live {h : Heap α} {i : ℕ} {b : α} (hi : h.cells i = some b) (a : α) :
    ∃ k, h.store i a = some k := by
  simp [Heap.store,hi]

theorem store_spec {h k : Heap α} {i : ℕ} {a : α} (hk : h.store i a = some k) :
    k.cells = Function.update h.cells i (some a) ∧ k.next = h.next ∧ k.freed = h.freed := by
  unfold Heap.store at hk
  split at hk
  · cases hk
    exact ⟨rfl,rfl,rfl⟩
  · cases hk

theorem free_live {h : Heap α} {i : ℕ} {b : α} (hi : h.cells i = some b) :
    ∃ k, h.free i = some k := by
  simp [Heap.free,hi]

theorem free_dead {h : Heap α} {i : ℕ} (hi : h.cells i = none) : h.free i = none := by
  simp [Heap.free,hi]

theorem free_spec {h k : Heap α} {i : ℕ} (hk : h.free i = some k) :
    (∃ a, h.cells i = some a) ∧ k.cells = Function.update h.cells i none ∧
      k.next = h.next ∧ k.freed = i::h.freed := by
  unfold Heap.free at hk
  split at hk
  · rename_i hi
    cases hk
    exact ⟨Option.isSome_iff_exists.mp hi,rfl,rfl,rfl⟩
  · cases hk

theorem freed_live {h : Heap α} {i : ℕ} {a : α} (hi : h.cells i = some a) :
    h.freed.count i = 0 := by
  simp [h.once i,hi]

theorem freed_dead {h : Heap α} {i : ℕ} (hn : i < h.next) (hi : h.cells i = none) :
    h.freed.count i = 1 := by
  simp [h.once i,hi,hn]

theorem free_freed {h k : Heap α} {i : ℕ} (hk : h.free i = some k) :
    k.cells i = none ∧ k.freed.count i = 1 := by
  obtain ⟨⟨a,ha⟩,hc,hn,-⟩ := free_spec hk
  have hi : k.cells i = none := by rw [hc,Function.update_self]
  have hlt : i < k.next := by
    rw [hn]
    exact lt_next ha
  exact ⟨hi,freed_dead hlt hi⟩

def Heap.Holds (h : Heap α) (is : List ℕ) : Prop := ∀ i, (h.cells i).isSome ↔ i ∈ is

theorem holds_empty : (Heap.empty : Heap α).Holds [] := by
  intro i
  simp

theorem holds_alloc {h : Heap α} {is : List ℕ} (hh : h.Holds is) (a : α) :
    (h.alloc a).Holds (h.next::is) := by
  intro i
  rw [alloc_cells,List.mem_cons,← hh i]
  by_cases hi : i = h.next
  · subst i
    simp
  · simp [hi]

theorem holds_free {h : Heap α} {i : ℕ} {is : List ℕ} (hh : h.Holds (i::is)) (hi : i ∉ is) :
    ∃ k, h.free i = some k ∧ k.Holds is ∧ k.next = h.next := by
  obtain ⟨a,ha⟩ := Option.isSome_iff_exists.mp ((hh i).mpr (by simp))
  obtain ⟨k,hk⟩ := free_live ha
  obtain ⟨-,hc,hn,-⟩ := free_spec hk
  refine ⟨k,hk,fun j => ?_,hn⟩
  rw [hc]
  by_cases hj : j = i
  · subst j
    simpa using hi
  · simp [hj,hh j]

def Heap.freeAll (h : Heap α) : List ℕ → Option (Heap α)
  | [] => some h
  | i::is => (h.free i).bind (fun h => h.freeAll is)

theorem holds_freeAll {h : Heap α} {is js : List ℕ} (hh : h.Holds (is++js))
    (hn : (is++js).Nodup) : ∃ k, h.freeAll is = some k ∧ k.Holds js ∧ k.next = h.next := by
  induction is generalizing h with
  | nil => exact ⟨h,rfl,hh,rfl⟩
  | cons i is ih =>
    obtain ⟨hi,hn⟩ := List.nodup_cons.mp hn
    obtain ⟨g,hg,hgh,hgn⟩ := holds_free hh hi
    obtain ⟨k,hk,hkh,hkn⟩ := ih hgh hn
    exact ⟨k,by rw [Heap.freeAll,hg]; exact hk,hkh,hkn.trans hgn⟩

theorem freed_once (h : Heap α) (i : ℕ) : h.freed.count i ≤ 1 := by
  rw [h.once i]
  split_ifs <;> omega

end ObjectHeap
