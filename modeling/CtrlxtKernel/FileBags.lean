import CtrlxtKernel.FileSystem
import CtrlxtKernel.StepRefinement

/-!
# A bag of files

No call looks for a file of the same name before it adds one, so the files are a
bag: a creation puts one, and a removal takes one of its name, whichever the lookup
finds. The entries, the inodes and the counters refine it.
-/

set_option autoImplicit false

namespace CtrlxtKernel.FileSystem
open MachineInt ObjectHeap StepMachine

variable {t : Target}

inductive BagEvent (A : Type*) where
  | put (a : A)
  | take (a : A)

def bag (A : Type*) [DecidableEq A] : Machine (Multiset A) (BagEvent A) where
  enabled b
    | .put _ => True
    | .take a => a ∈ b
  step b
    | .put a => some (a ::ₘ b)
    | .take a => some (b.erase a)

abbrev File := Dentry × Inode

/-- The file that a call puts or takes when it succeeds. -/
def fileEvents (L : Lookup) (s : FsState) (l : FileCall t) : List (BagEvent File) :=
  match l, s.call L l with
  | .create name size _, some (_,ret) =>
    if ret < 0 then []
    else [.put (⟨name,s.inodes.next⟩,⟨sIfreg ||| 0o644,size.setWidth 64⟩)]
  | .remove name _, some (_,ret) =>
    if ret < 0 then []
    else ((L.find s.entries name).bind fun d => (s.inodes.cells d.inode).map fun inode =>
      BagEvent.take (d,inode)).toList
  | _, none => []

/-- The entries are those of the bag, each with an inode of its own that is as it was
made, and both counters count them, as words. -/
structure Bagged (s : FsState) (b : Multiset File) : Prop where
  entries : b.map Prod.fst = s.entries
  contents : ∀ f ∈ b, s.inodes.cells f.1.inode = some f.2
  own : (s.entries.map Dentry.inode).Nodup
  counters : s.fs = ⟨BitVec.ofNat 32 b.card,BitVec.ofNat 32 b.card⟩

theorem mounted_bagged : Bagged mounted 0 where
  entries := rfl
  contents _ hf := absurd hf (Multiset.notMem_zero _)
  own := List.nodup_nil
  counters := rfl

theorem Bagged.file {s : FsState} {b : Multiset File} (h : Bagged s b) {d : Dentry}
    (hd : d ∈ s.entries) : ∃ inode, (d,inode) ∈ b ∧ s.inodes.cells d.inode = some inode := by
  have hmem : d ∈ b.map Prod.fst := by
    rw [h.entries]
    exact hd
  obtain ⟨⟨e,inode⟩,hf,rfl⟩ := Multiset.mem_map.mp hmem
  exact ⟨inode,hf,h.contents _ hf⟩

theorem Bagged.same {s u : FsState} {b : Multiset File} (h : Bagged s b) (hu : SameFiles s u) :
    Bagged u b where
  entries := by
    rw [hu.entries]
    exact h.entries
  contents := by
    rw [hu.inodes]
    exact h.contents
  own := by
    rw [hu.entries]
    exact h.own
  counters := by
    rw [hu.counters]
    exact h.counters

theorem Bagged.create {s : FsState} {b : Multiset File} (h : Bagged s b) (name : String)
    (inode : Inode) :
    Bagged {
      fs := ⟨s.fs.inodeCount+1,s.fs.dentryCount+1⟩
      inodes := s.inodes.alloc inode
      entries := ⟨name,s.inodes.next⟩::s.entries }
      ((⟨name,s.inodes.next⟩,inode) ::ₘ b) := by
  have hold : ∀ d ∈ s.entries, d.inode ≠ s.inodes.next := by
    intro d hd
    obtain ⟨i,-,hlive⟩ := h.file hd
    exact (lt_next hlive).ne
  refine ⟨?_,?_,?_,?_⟩
  · rw [Multiset.map_cons,h.entries]
    rfl
  · intro f hf
    rcases Multiset.mem_cons.mp hf with rfl | hf
    · exact Function.update_self _ _ _
    · have hmem : f.1 ∈ s.entries := by
        rw [← Multiset.mem_coe,← h.entries]
        exact Multiset.mem_map_of_mem Prod.fst hf
      rw [alloc_cells,Function.update_of_ne (hold _ hmem)]
      exact h.contents f hf
  · refine List.nodup_cons.mpr ⟨fun hmem => ?_,h.own⟩
    obtain ⟨d,hd,hnext⟩ := List.mem_map.mp hmem
    exact hold d hd hnext
  · rw [h.counters,Multiset.card_cons,BitVec.ofNat_add]
    rfl

theorem Bagged.remove {s : FsState} {b : Multiset File} (h : Bagged s b) {f : File} (hf : f ∈ b) :
    Bagged ⟨⟨s.fs.inodeCount-1,s.fs.dentryCount-1⟩,s.inodes,s.entries.erase f.1⟩ (b.erase f) := by
  have hcard := Multiset.card_erase_add_one hf
  refine ⟨?_,?_,?_,?_⟩
  · rw [Multiset.map_erase_of_mem _ _ hf,h.entries,Multiset.coe_erase]
  · exact fun g hg => h.contents g (Multiset.mem_of_mem_erase hg)
  · exact h.own.sublist (List.erase_sublist.map _)
  · have hpred : BitVec.ofNat 32 b.card-1 = BitVec.ofNat 32 (b.erase f).card := by
      rw [← hcard,BitVec.ofNat_add]
      exact add_sub_cancel_right _ _
    simp only [h.counters,hpred]

theorem create_matched (L : Lookup) {s : FsState} {b : Multiset File} (h : Bagged s b)
    (name : String) (size : ULong t) (o : CreateOutcome) :
    ∃ u c, (files t L).step s (.create name size o) = some u ∧
      Run (bag File) b (fileEvents L s (.create name size o)) c ∧ Bagged u c := by
  rcases create_cases s name size o with ⟨-,u,hu,hsame⟩ | ⟨hi,hd,-⟩
  · have hnone : fileEvents L s (.create name size o) = [] := by
      simp only [fileEvents,FsState.call,hu]
      rfl
    rw [hnone]
    exact ⟨u,b,congrArg (Option.map Prod.fst) hu,.nil b,h.same hsame⟩
  · have hcall : createQuantumFile s name size o = some ({
        fs := ⟨s.fs.inodeCount+1,s.fs.dentryCount+1⟩
        inodes := s.inodes.alloc ⟨sIfreg ||| 0o644,size.setWidth 64⟩
        entries := ⟨name,s.inodes.next⟩::s.entries },0) := by
      simp only [createQuantumFile,hi,hd,if_true]
    have hput : fileEvents L s (.create name size o) =
        [.put (⟨name,s.inodes.next⟩,⟨sIfreg ||| 0o644,size.setWidth 64⟩)] := by
      simp only [fileEvents,FsState.call,hcall,lt_irrefl,if_false]
    rw [hput]
    exact ⟨_,_,congrArg (Option.map Prod.fst) hcall,Run.single trivial rfl,h.create name _⟩

theorem remove_matched (L : Lookup) {s : FsState} {b : Multiset File} (h : Bagged s b)
    (name : String) (o : RemoveOutcome) :
    ∃ c, Run (bag File) b (fileEvents L s (.remove name o : FileCall t)) c ∧
      Bagged (removeQuantumFile L s name o).1 c := by
  rcases remove_cases L s name o with ⟨ret,hcall,hret,-⟩ | ⟨-,-,d,hd,hcall⟩
  · have hnone : fileEvents L s (.remove name o : FileCall t) = [] := by
      simp only [fileEvents,FsState.call,hcall,hret,if_true]
    rw [hnone,hcall]
    exact ⟨b,.nil b,h⟩
  · obtain ⟨inode,hf,hlive⟩ := h.file (L.found _ _ _ hd).1
    have htake : fileEvents L s (.remove name o : FileCall t) = [.take (d,inode)] := by
      simp only [fileEvents,FsState.call,hcall,hd,hlive,lt_irrefl,if_false,Option.bind_some,
        Option.map_some,Option.toList_some]
    rw [htake,hcall]
    exact ⟨_,Run.single hf rfl,h.remove hf⟩

theorem call_matched (L : Lookup) (s : FsState) (l : FileCall t) (b : Multiset File)
    (h : Bagged s b) :
    ∃ u c, (files t L).step s l = some u ∧ Run (bag File) b (fileEvents L s l) c ∧ Bagged u c := by
  cases l with
  | create name size o => exact create_matched L h name size o
  | remove name o =>
    obtain ⟨c,hrun,hbagged⟩ := remove_matched (t := t) L h name o
    exact ⟨_,c,rfl,hrun,hbagged⟩

theorem Bagged.removes_iff {s : FsState} {b : Multiset File} (h : Bagged s b) (L : Lookup)
    (name : String) {o : RemoveOutcome} (hl : 0 ≤ o.lookupOneLen) (hu : 0 ≤ o.vfsUnlink) :
    (removeQuantumFile L s name o).2 = 0 ↔ ∃ f ∈ b, f.1.name = name := by
  rcases remove_cases L s name o with ⟨ret,hcall,hret,hwhy⟩ | ⟨-,-,d,hd,hcall⟩
  · have hnone : L.find s.entries name = none := by
      rcases hwhy with hneg | hnone | hneg
      · omega
      · exact hnone
      · omega
    refine iff_of_false (by rw [hcall]; exact hret.ne) ?_
    rintro ⟨f,hf,hname⟩
    have hmem : f.1 ∈ s.entries := by
      rw [← Multiset.mem_coe,← h.entries]
      exact Multiset.mem_map_of_mem Prod.fst hf
    exact L.missed _ _ hnone f.1 hmem hname
  · obtain ⟨hmem,hname⟩ := L.found _ _ _ hd
    obtain ⟨inode,hf,-⟩ := h.file hmem
    exact iff_of_true (by rw [hcall]) ⟨(d,inode),hf,hname⟩

/-- Whichever of several files of a name a lookup finds, every sequence of calls runs, and
its creations and removals that succeed are a run of the bag. -/
theorem files_bagged (t : Target) (L : Lookup) (ls : List (FileCall t)) :
    ∃ u b, Run (files t L) mounted ls u ∧
      Run (bag File) 0 (trace (files t L) (fileEvents L) mounted ls) b ∧ Bagged u b ∧
      ∀ name o, 0 ≤ o.lookupOneLen → 0 ≤ o.vfsUnlink →
        ((removeQuantumFile L u name o).2 = 0 ↔ ∃ f ∈ b, f.1.name = name) := by
  obtain ⟨u,b,hu,hb,h⟩ := attempt_simulate (fun s l b hs _ => call_matched L s l b hs)
    (always_of_forall (fun _ _ => trivial) mounted ls) mounted_bagged
  exact ⟨u,b,hu,hb,h,fun name o hl hv => h.removes_iff L name hl hv⟩

end CtrlxtKernel.FileSystem
