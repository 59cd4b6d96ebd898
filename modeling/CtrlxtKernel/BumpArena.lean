import Mathlib.Data.List.Basic
import Mathlib.Tactic

/-!
# A bump arena

One cursor over a stretch of addresses. A block is an address and a size.
Allocation takes the block at the cursor and advances it. A returned block
moves the cursor back if it ends there; otherwise its space is abandoned.
That live blocks lie apart below the cursor, and that every byte below the
cursor is live or abandoned, are fields of the arena.
-/

set_option autoImplicit false

namespace BumpArena

structure Block where
  addr : ℕ
  size : ℕ
  deriving DecidableEq

def Apart (b c : Block) : Prop :=
  b.size ≠ 0 → c.size ≠ 0 → b.addr+b.size ≤ c.addr ∨ c.addr+c.size ≤ b.addr

def bytes (live : List Block) : ℕ := (live.map Block.size).sum

structure Arena (base : ℕ) where
  cursor : ℕ
  live : List Block
  lost : ℕ
  below : ∀ b ∈ live, b.size ≠ 0 → b.addr+b.size ≤ cursor
  apart : live.Pairwise Apart
  total : cursor = base+bytes live+lost

theorem apart_symm {b c : Block} (h : Apart b c) : Apart c b :=
  fun hc hb => (h hb hc).symm

@[simp] theorem bytes_nil : bytes [] = 0 := rfl

@[simp] theorem bytes_cons (b : Block) (live : List Block) :
    bytes (b::live) = b.size+bytes live := by
  simp [bytes]

theorem bytes_erase {b : Block} {live : List Block} (hb : b ∈ live) :
    b.size+bytes (live.erase b) = bytes live :=
  List.sum_map_erase Block.size hb

theorem apart_erase {b c : Block} {live : List Block} (h : live.Pairwise Apart)
    (hb : b ∈ live) (hc : c ∈ live.erase b) : Apart b c := by
  have hp := (List.perm_cons_erase hb).pairwise_iff (fun h => apart_symm h) |>.mp h
  exact (List.pairwise_cons.mp hp).1 c hc

variable {base : ℕ}

def Arena.fresh (base : ℕ) : Arena base where
  cursor := base
  live := []
  lost := 0
  below := by simp
  apart := .nil
  total := rfl

theorem base_le_cursor (A : Arena base) : base ≤ A.cursor := by
  have h := A.total
  omega

def Arena.alloc (A : Arena base) (size : ℕ) : Arena base where
  cursor := A.cursor+size
  live := ⟨A.cursor,size⟩::A.live
  lost := A.lost
  below := by
    intro b hb hz
    rcases List.mem_cons.mp hb with rfl | hb
    · exact le_refl _
    · have h := A.below b hb hz
      omega
  apart := by
    apply List.pairwise_cons.mpr
    refine ⟨fun b hb _ hz => ?_,A.apart⟩
    exact Or.inr (A.below b hb hz)
  total := by
    have h := A.total
    change A.cursor+size = base+(bytes (⟨A.cursor,size⟩::A.live))+A.lost
    rw [bytes_cons]
    change A.cursor+size = base+(size+bytes A.live)+A.lost
    omega

def Arena.reclaim (A : Arena base) (b : Block) (hb : b ∈ A.live) (hz : b.size ≠ 0)
    (htop : b.addr+b.size = A.cursor) : Arena base where
  cursor := b.addr
  live := A.live.erase b
  lost := A.lost
  below := by
    intro c hc hcz
    have hlow := A.below c (List.mem_of_mem_erase hc) hcz
    rcases apart_erase A.apart hb hc hz hcz with h | h
    · omega
    · exact h
  apart := A.apart.sublist List.erase_sublist
  total := by
    have h := A.total
    have he := bytes_erase hb
    omega

def Arena.abandon (A : Arena base) (b : Block) (hb : b ∈ A.live) : Arena base where
  cursor := A.cursor
  live := A.live.erase b
  lost := A.lost+b.size
  below := fun c hc hz => A.below c (List.mem_of_mem_erase hc) hz
  apart := A.apart.sublist List.erase_sublist
  total := by
    have h := A.total
    have he := bytes_erase hb
    omega

theorem cursor_empty {A : Arena base} (h : A.live = []) : A.cursor = base+A.lost := by
  have ht := A.total
  rw [h] at ht
  simpa using ht

end BumpArena
