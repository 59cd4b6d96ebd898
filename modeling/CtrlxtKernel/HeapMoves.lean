import CtrlxtKernel.ObjectHeap

/-!
# Operations on different objects of a heap

A store into one object and an allocation, or a store into another object, or
its freeing, may be done in either order.
-/

set_option autoImplicit false

namespace ObjectHeap

variable {α : Type*}

theorem heap_eq {h k : Heap α} (hc : h.cells = k.cells) (hn : h.next = k.next)
    (hf : h.freed = k.freed) : h = k := by
  cases h
  cases k
  cases hc
  cases hn
  cases hf
  rfl

theorem store_some {h k : Heap α} {i : ℕ} {a : α} (hk : h.store i a = some k) :
    ∃ b, h.cells i = some b := by
  unfold Heap.store at hk
  split at hk
  · exact Option.isSome_iff_exists.mp ‹_›
  · cases hk

theorem store_alloc {h g : Heap α} {i : ℕ} {a : α} (hg : h.store i a = some g) (b : α) :
    (h.alloc b).store i a = some (g.alloc b) := by
  obtain ⟨hgc,hgn,hgf⟩ := store_spec hg
  obtain ⟨c,hc⟩ := store_some hg
  have hne : i ≠ h.next := (lt_next hc).ne
  have hlive : (h.alloc b).cells i = some c := by
    rw [alloc_cells,Function.update_of_ne hne,hc]
  obtain ⟨k,hk⟩ := store_live hlive a
  obtain ⟨hkc,hkn,hkf⟩ := store_spec hk
  refine hk.trans (congrArg some (heap_eq ?_ ?_ ?_))
  · rw [hkc,alloc_cells,alloc_cells,hgc,hgn,Function.update_comm hne]
  · rw [hkn,alloc_next,alloc_next,hgn]
  · exact hkf.trans hgf.symm

theorem store_store {h g k : Heap α} {i j : ℕ} (hij : i ≠ j) {a b : α}
    (hg : h.store i a = some g) (hk : h.store j b = some k) :
    ∃ f, k.store i a = some f ∧ g.store j b = some f := by
  obtain ⟨hgc,hgn,hgf⟩ := store_spec hg
  obtain ⟨hkc,hkn,hkf⟩ := store_spec hk
  obtain ⟨c,hc⟩ := store_some hg
  obtain ⟨d,hd⟩ := store_some hk
  have hki : k.cells i = some c := by rw [hkc,Function.update_of_ne hij,hc]
  have hgj : g.cells j = some d := by rw [hgc,Function.update_of_ne hij.symm,hd]
  obtain ⟨f,hf⟩ := store_live hki a
  obtain ⟨e,he⟩ := store_live hgj b
  obtain ⟨hfc,hfn,hff⟩ := store_spec hf
  obtain ⟨hec,hen,hef⟩ := store_spec he
  refine ⟨f,hf,he.trans (congrArg some (heap_eq ?_ ?_ ?_))⟩
  · rw [hec,hfc,hgc,hkc,Function.update_comm hij]
  · rw [hen,hfn,hgn,hkn]
  · rw [hef,hff,hgf,hkf]

theorem store_free {h g k : Heap α} {i j : ℕ} (hij : i ≠ j) {a : α}
    (hg : h.store i a = some g) (hk : h.free j = some k) :
    ∃ f, k.store i a = some f ∧ g.free j = some f := by
  obtain ⟨hgc,hgn,hgf⟩ := store_spec hg
  obtain ⟨⟨d,hd⟩,hkc,hkn,hkf⟩ := free_spec hk
  obtain ⟨c,hc⟩ := store_some hg
  have hki : k.cells i = some c := by rw [hkc,Function.update_of_ne hij,hc]
  have hgj : g.cells j = some d := by rw [hgc,Function.update_of_ne hij.symm,hd]
  obtain ⟨f,hf⟩ := store_live hki a
  obtain ⟨e,he⟩ := free_live hgj
  obtain ⟨hfc,hfn,hff⟩ := store_spec hf
  obtain ⟨-,hec,hen,hef⟩ := free_spec he
  refine ⟨f,hf,he.trans (congrArg some (heap_eq ?_ ?_ ?_))⟩
  · rw [hec,hfc,hgc,hkc,Function.update_comm hij]
  · rw [hen,hfn,hgn,hkn]
  · rw [hef,hff,hgf,hkf]

end ObjectHeap
