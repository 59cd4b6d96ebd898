import CtrlxtKernel.KernelTypes
import CtrlxtKernel.MachineInt
import CtrlxtKernel.ObjectHeap
import CtrlxtKernel.StepMachine

/-!
# Files

`create_quantum_file` and `remove_quantum_file` of `fs/ctrlxt_fs.c`, over the
part of the VFS that they use: inodes, and the entries under the root by name.
`d_alloc_name` and `d_add` do not look for an entry of the same name. Which of
several a lookup then finds is the choice of the VFS, and so is what becomes of the
inode of an entry that is unlinked: it is not followed.
-/

set_option autoImplicit false

namespace CtrlxtKernel.FileSystem
open MachineInt ObjectHeap StepMachine

variable {t : Target}

def sIfreg : BitVec 16 := 0o100000

structure Inode where
  iMode : BitVec 16
  iSize : BitVec 64
  deriving DecidableEq

structure Dentry where
  name : String
  inode : ℕ
  deriving DecidableEq

structure CtrlxtFs where
  inodeCount : CInt
  dentryCount : CInt

structure FsState where
  fs : CtrlxtFs
  inodes : Heap Inode
  entries : List Dentry

/-- Whether `new_inode` and `d_alloc_name` find memory. -/
structure CreateOutcome where
  newInode : Bool
  dAllocName : Bool

/-- Negative numbers are the errors of `lookup_one_len` and `vfs_unlink`. -/
structure RemoveOutcome where
  lookupOneLen : ℤ
  vfsUnlink : ℤ

def createQuantumFile (s : FsState) (name : String) (size : ULong t) (o : CreateOutcome) :
    Option (FsState × ℤ) :=
  if o.newInode then
    let inode := s.inodes.next
    let inodes := s.inodes.alloc ⟨sIfreg ||| 0o644,size.setWidth 64⟩
    if o.dAllocName then
      some ({ s with
        inodes := inodes
        entries := ⟨name,inode⟩::s.entries
        fs := ⟨s.fs.inodeCount+1,s.fs.dentryCount+1⟩ },0)
    else (inodes.free inode).map fun inodes => ({ s with inodes := inodes },-enomem)
  else some (s,-enomem)

/-- A lookup finds an entry of the name, whenever there is one. -/
structure Lookup where
  find : List Dentry → String → Option Dentry
  found : ∀ entries name d, find entries name = some d → d ∈ entries ∧ d.name = name
  missed : ∀ entries name, find entries name = none → ∀ d ∈ entries, d.name ≠ name

def latestFirst : Lookup where
  find entries name := entries.find? fun d => d.name = name
  found entries name d h := by
    have hname := List.find?_some h
    exact ⟨List.mem_of_find?_eq_some h,of_decide_eq_true hname⟩
  missed entries name h d hd hname := List.find?_eq_none.mp h d hd (decide_eq_true hname)

/-- An error, an entry, or a negative one when there is none of the name. -/
def lookupOneLen (L : Lookup) (entries : List Dentry) (name : String) (answer : ℤ) :
    Except ℤ (Option Dentry) :=
  if answer < 0 then .error answer else .ok (L.find entries name)

def vfsUnlink (entries : List Dentry) (dentry : Option Dentry) (answer : ℤ) :
    List Dentry × ℤ :=
  match dentry with
  | none => (entries,-enoent)
  | some d => if answer < 0 then (entries,answer) else (entries.erase d,0)

def removeQuantumFile (L : Lookup) (s : FsState) (name : String) (o : RemoveOutcome) :
    FsState × ℤ :=
  match lookupOneLen L s.entries name o.lookupOneLen with
  | .error code => (s,code)
  | .ok dentry =>
    let (entries,ret) := vfsUnlink s.entries dentry o.vfsUnlink
    let s : FsState := { s with entries := entries }
    if ret < 0 then (s,ret)
    else ({ s with fs := ⟨s.fs.inodeCount-1,s.fs.dentryCount-1⟩ },0)

inductive FileCall (t : Target) where
  | create (name : String) (size : ULong t) (o : CreateOutcome)
  | remove (name : String) (o : RemoveOutcome)

def FsState.call (L : Lookup) (s : FsState) : FileCall t → Option (FsState × ℤ)
  | .create name size o => createQuantumFile s name size o
  | .remove name o => some (removeQuantumFile L s name o)

def files (t : Target) (L : Lookup) : Machine FsState (FileCall t) where
  enabled _ _ := True
  step s l := (s.call L l).map Prod.fst

instance (L : Lookup) (s : FsState) (l : FileCall t) : Decidable ((files t L).enabled s l) :=
  inferInstanceAs (Decidable True)

def FsState.names (s : FsState) : Finset String := (s.entries.map Dentry.name).toFinset

structure CountsMatch (s : FsState) : Prop where
  inodes : s.fs.inodeCount.toInt = s.names.card
  dentries : s.fs.dentryCount.toInt = s.names.card

/-- Nothing but the record of what was freed has changed. -/
structure SameFiles (s u : FsState) : Prop where
  counters : u.fs = s.fs
  entries : u.entries = s.entries
  inodes : u.inodes.cells = s.inodes.cells

/-- The counters match after the call, a name that exists is refused, and a call that
fails changes nothing. -/
def RightCall (L : Lookup) (s : FsState) (l : FileCall t) : Prop :=
  ∃ u ret, s.call L l = some (u,ret) ∧ CountsMatch u ∧
    (∀ name size o, l = .create name size o → name ∈ s.names → ret < 0) ∧
    (ret < 0 → SameFiles s u)

/-- A file that memory is found for has a new name, and its count is an `int`. -/
def NewName (s : FsState) : FileCall t → Prop
  | .create name _ o => o.newInode = true → o.dAllocName = true →
      name ∉ s.names ∧ s.names.card < intMax
  | .remove _ _ => True

instance (s : FsState) : (l : FileCall t) → Decidable (NewName s l)
  | .create name _ o => inferInstanceAs (Decidable (o.newInode = true → o.dAllocName = true →
      name ∉ s.names ∧ s.names.card < intMax))
  | .remove _ _ => inferInstanceAs (Decidable True)

structure Exact (s : FsState) : Prop where
  distinct : (s.entries.map Dentry.name).Nodup
  counts : CountsMatch s

theorem names_card {s : FsState} (hs : (s.entries.map Dentry.name).Nodup) :
    s.names.card = s.entries.length := by
  rw [FsState.names,List.toFinset_card_of_nodup hs,List.length_map]

/-- What a creation does: without memory nothing, and otherwise one more entry. -/
theorem create_cases (s : FsState) (name : String) (size : ULong t) (o : CreateOutcome) :
    (¬(o.newInode = true ∧ o.dAllocName = true) ∧
      ∃ u, createQuantumFile s name size o = some (u,-enomem) ∧ SameFiles s u) ∨
    (o.newInode = true ∧ o.dAllocName = true ∧ ∃ u, createQuantumFile s name size o = some (u,0) ∧
      (∃ i, u.entries = ⟨name,i⟩::s.entries) ∧
      u.fs = ⟨s.fs.inodeCount+1,s.fs.dentryCount+1⟩) := by
  cases hi : o.newInode with
  | false =>
    refine Or.inl ⟨by simp,s,?_,rfl,rfl,rfl⟩
    simp only [createQuantumFile,hi,Bool.false_eq_true,if_false]
  | true =>
    cases hd : o.dAllocName with
    | false =>
      have hlive : (s.inodes.alloc ⟨sIfreg ||| 0o644,size.setWidth 64⟩).cells s.inodes.next =
        some ⟨sIfreg ||| 0o644,size.setWidth 64⟩ := Function.update_self _ _ _
      obtain ⟨k,hk⟩ := free_live hlive
      obtain ⟨-,hc,-,-⟩ := free_spec hk
      refine Or.inl ⟨by simp,{ s with inodes := k },?_,rfl,rfl,?_⟩
      · simp only [createQuantumFile,hi,hd,Bool.false_eq_true,if_true,if_false,hk,Option.map_some]
      · rw [hc,alloc_cells,Function.update_idem,← s.inodes.fresh s.inodes.next (le_refl _),
          Function.update_eq_self]
    | true =>
      refine Or.inr ⟨rfl,rfl,⟨⟨s.fs.inodeCount+1,s.fs.dentryCount+1⟩,
        s.inodes.alloc ⟨sIfreg ||| 0o644,size.setWidth 64⟩,⟨name,s.inodes.next⟩::s.entries⟩,?_,
        ⟨_,rfl⟩,rfl⟩
      simp only [createQuantumFile,hi,hd,if_true]

/-- What a removal does: an error and nothing else, or one entry less. -/
theorem remove_cases (L : Lookup) (s : FsState) (name : String) (o : RemoveOutcome) :
    (∃ ret, removeQuantumFile L s name o = (s,ret) ∧ ret < 0 ∧
      (o.lookupOneLen < 0 ∨ L.find s.entries name = none ∨ o.vfsUnlink < 0)) ∨
    (0 ≤ o.lookupOneLen ∧ 0 ≤ o.vfsUnlink ∧ ∃ d, L.find s.entries name = some d ∧
      removeQuantumFile L s name o =
        (⟨⟨s.fs.inodeCount-1,s.fs.dentryCount-1⟩,s.inodes,s.entries.erase d⟩,0)) := by
  unfold removeQuantumFile lookupOneLen
  by_cases hl : o.lookupOneLen < 0
  · exact Or.inl ⟨o.lookupOneLen,by simp only [hl,if_true],hl,Or.inl hl⟩
  · simp only [hl,if_false]
    cases hfind : L.find s.entries name with
    | none => exact Or.inl ⟨-enoent,by simp [vfsUnlink,enoent],by decide,Or.inr (Or.inl rfl)⟩
    | some d =>
      by_cases hu : o.vfsUnlink < 0
      · exact Or.inl ⟨o.vfsUnlink,by simp [vfsUnlink,hu],hu,Or.inr (Or.inr hu)⟩
      · exact Or.inr ⟨not_lt.mp hl,not_lt.mp hu,d,rfl,by simp [vfsUnlink,hu]⟩

theorem create_right_iff (L : Lookup) {s : FsState} (hs : Exact s) (name : String) (size : ULong t)
    (o : CreateOutcome) :
    RightCall L s (.create name size o) ↔ NewName s (.create name size o : FileCall t) := by
  rcases create_cases s name size o with ⟨hno,u,hu,hsame⟩ | ⟨hi,hd,u,hu,⟨i,hentries⟩,hfs⟩
  · refine iff_of_true ⟨u,-enomem,hu,?_,fun _ _ _ _ _ => by decide,fun _ => hsame⟩
      (fun hi hd => absurd ⟨hi,hd⟩ hno)
    exact ⟨by rw [hsame.counters,FsState.names,hsame.entries]; exact hs.counts.inodes,
      by rw [hsame.counters,FsState.names,hsame.entries]; exact hs.counts.dentries⟩
  · have hnames : u.names = insert name s.names := by
      rw [FsState.names,hentries,List.map_cons,List.toFinset_cons,FsState.names]
    constructor
    · rintro ⟨v,ret,hv,hcounts,hrefused,-⟩ - -
      obtain ⟨rfl,rfl⟩ := Prod.mk.inj (Option.some.inj (hu.symm.trans hv))
      have hnew : name ∉ s.names := fun h => lt_irrefl 0 (hrefused name size o rfl h)
      have hcount := hcounts.inodes
      have hbound := (int_bounds u.fs.inodeCount).2
      rw [hnames,Finset.card_insert_of_notMem hnew] at hcount
      refine ⟨hnew,?_⟩
      unfold intMax
      omega
    · intro hnew
      obtain ⟨hnew,hlt⟩ := hnew hi hd
      refine ⟨u,0,hu,⟨?_,?_⟩,?_,fun h => absurd h (lt_irrefl 0)⟩
      · rw [hfs,hnames,Finset.card_insert_of_notMem hnew]
        exact succ_toInt hs.counts.inodes hlt
      · rw [hfs,hnames,Finset.card_insert_of_notMem hnew]
        exact succ_toInt hs.counts.dentries hlt
      · rintro name' size' o' hcall hmem
        cases hcall
        exact absurd hmem hnew

theorem erase_exact {s : FsState} (hs : Exact s) {d : Dentry} (hd : d ∈ s.entries) :
    Exact ⟨⟨s.fs.inodeCount-1,s.fs.dentryCount-1⟩,s.inodes,s.entries.erase d⟩ := by
  have hdistinct : ((s.entries.erase d).map Dentry.name).Nodup :=
    hs.distinct.sublist (List.erase_sublist.map _)
  have hcard := names_card hs.distinct
  have hlen := List.length_erase_of_mem hd
  have hpos : 0 < s.names.card := hcard ▸ List.length_pos_of_mem hd
  refine ⟨hdistinct,?_,?_⟩
  · rw [names_card hdistinct,hlen,← hcard]
    exact pred_toInt hs.counts.inodes hpos
  · rw [names_card hdistinct,hlen,← hcard]
    exact pred_toInt hs.counts.dentries hpos

theorem Exact.same {s u : FsState} (hs : Exact s) (h : SameFiles s u) : Exact u := by
  obtain ⟨hdistinct,hinodes,hdentries⟩ := hs
  have hnames : u.names = s.names := by rw [FsState.names,FsState.names,h.entries]
  exact ⟨by rw [h.entries]; exact hdistinct,by rw [h.counters,hnames]; exact hinodes,
    by rw [h.counters,hnames]; exact hdentries⟩

theorem remove_right (L : Lookup) {s : FsState} (hs : Exact s) (name : String)
    (o : RemoveOutcome) :
    RightCall L s (.remove name o : FileCall t) ∧ Exact (removeQuantumFile L s name o).1 := by
  rcases remove_cases L s name o with ⟨ret,hr,hret,-⟩ | ⟨-,-,d,hd,hr⟩
  · rw [hr]
    exact ⟨⟨s,ret,congrArg some hr,hs.counts,by rintro _ _ _ ⟨⟩,fun _ => ⟨rfl,rfl,rfl⟩⟩,hs⟩
  · have hexact := erase_exact hs (L.found _ _ _ hd).1
    rw [hr]
    exact ⟨⟨_,0,congrArg some hr,hexact.counts,by rintro _ _ _ ⟨⟩,
      fun h => absurd h (lt_irrefl 0)⟩,hexact⟩

theorem right_iff (L : Lookup) {s : FsState} (hs : Exact s) (l : FileCall t) :
    RightCall L s l ↔ NewName s l := by
  cases l with
  | create name size o => exact create_right_iff L hs name size o
  | remove name o => exact iff_of_true (remove_right L hs name o).1 trivial

theorem right_exact {L : Lookup} {s u : FsState} (hs : Exact s) {l : FileCall t}
    (hr : RightCall L s l) (hu : (files t L).step s l = some u) : Exact u := by
  obtain ⟨x,hx,rfl⟩ := Option.map_eq_some_iff.mp hu
  cases l with
  | remove name o =>
    cases hx
    exact (remove_right (t := t) L hs name o).2
  | create name size o =>
    have hnew := (create_right_iff L hs name size o).mp hr
    obtain ⟨v,ret,hv,hcounts,-,-⟩ := hr
    obtain rfl := Option.some.inj (hv.symm.trans hx)
    refine ⟨?_,hcounts⟩
    rcases create_cases s name size o with ⟨-,w,hw,hsame⟩ | ⟨hi,hd,w,hw,⟨i,hentries⟩,-⟩
    · obtain ⟨rfl,-⟩ := Prod.mk.inj (Option.some.inj (hw.symm.trans hv))
      exact (hs.same hsame).distinct
    · obtain ⟨rfl,-⟩ := Prod.mk.inj (Option.some.inj (hw.symm.trans hv))
      obtain ⟨hfresh,-⟩ := hnew hi hd
      rw [hentries,List.map_cons]
      refine List.nodup_cons.mpr ⟨fun hmem => hfresh ?_,hs.distinct⟩
      exact List.mem_toFinset.mpr hmem

def mounted : FsState := ⟨⟨0,0⟩,.empty,[]⟩

theorem mounted_exact : Exact mounted := ⟨List.nodup_nil,rfl,rfl⟩

/-- Along every sequence of calls the counters match the names that resolve, names that
exist are refused and failures change nothing, exactly when every file that memory is
found for gets a new name, and a count that is an `int`. -/
theorem counts_match_iff (t : Target) (L : Lookup) (ls : List (FileCall t)) :
    Always (files t L) (RightCall L) mounted ls ↔ Always (files t L) NewName mounted ls :=
  always_attempt_iff (I := Exact) (fun _ l hs _ => right_iff L hs l)
    (fun _ _ _ hs _ hr hu => right_exact hs hr hu)
    (always_of_forall (fun _ _ => trivial) mounted ls) mounted_exact

/-- A second file of the same name is created, and counted. -/
theorem counts_drift :
    ∃ u, Run (files .bits64 latestFirst) mounted
        [.create "a" 1 ⟨true,true⟩,.create "a" 2 ⟨true,true⟩] u ∧
      u.fs.inodeCount = 2 ∧ u.names.card = 1 ∧ ¬CountsMatch u ∧
      ¬Always (files .bits64 latestFirst) (RightCall latestFirst) mounted
        [.create "a" 1 ⟨true,true⟩,.create "a" 2 ⟨true,true⟩] := by
  refine ⟨_,run_iff_exec.mpr rfl,rfl,rfl,fun h => absurd h.inodes (by decide),?_⟩
  rintro ⟨-,h⟩
  obtain ⟨⟨u,ret,hu,-,hrefused,-⟩,-⟩ := h _ rfl
  cases hu
  exact lt_irrefl 0 (hrefused "a" 2 ⟨true,true⟩ rfl (by decide))

end CtrlxtKernel.FileSystem
