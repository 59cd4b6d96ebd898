import Mathlib.Data.List.Nodup
import Mathlib.Tactic

/-!
# Circular doubly linked lists

A node names its two neighbours, and a head that is no element closes the ring.
A node that was never linked in, or has been taken out, has no neighbours; to
follow its links has no result. The loop over a ring reads the next node before
it runs its body, so the body may take out the element it is given.
-/

set_option autoImplicit false

namespace LinkedRing

variable {N S : Type*}

structure Links (N : Type*) where
  next : N → Option N
  prev : N → Option N

def Chain (k : Links N) : List N → Prop
  | x::y::l => k.next x = some y ∧ k.prev y = some x ∧ Chain k (y::l)
  | _ => True

/-- The nodes of a ring, from the head around to the head. -/
structure Ring (k : Links N) (head : N) (l : List N) : Prop where
  nodup : (head::l).Nodup
  chain : Chain k (head::l++[head])

theorem chain_append (k : Links N) (l : List N) (x : N) (r : List N) :
    Chain k (l++x::r) ↔ Chain k (l++[x]) ∧ Chain k (x::r) := by
  induction l with
  | nil => simp [Chain]
  | cons a l ih =>
    cases l with
    | nil => simp [Chain,and_assoc]
    | cons b l =>
      simp only [List.cons_append,Chain] at ih ⊢
      rw [ih]
      simp only [and_assoc]

theorem chain_same {k k' : Links N} {x : N} {l : List N} (h : Chain k (x::l))
    (hn : ∀ y ∈ (x::l).dropLast, k'.next y = k.next y) (hp : ∀ y ∈ l, k'.prev y = k.prev y) :
    Chain k' (x::l) := by
  induction l generalizing x with
  | nil => trivial
  | cons y l ih =>
    obtain ⟨hxy,hyx,hl⟩ := h
    refine ⟨?_,?_,ih hl ?_ ?_⟩
    · rw [hn x (by simp),hxy]
    · rw [hp y (by simp),hyx]
    · exact fun z hz => hn z (by simp only [List.dropLast]; exact List.mem_cons_of_mem _ hz)
    · exact fun z hz => hp z (List.mem_cons_of_mem _ hz)

theorem Ring.next_head {k : Links N} {head : N} {l : List N} (h : Ring k head l) :
    k.next head = some (l.headD head) := by
  have hc := h.chain
  cases l with
  | nil => exact hc.1
  | cons x l => exact hc.1

theorem Ring.next_first {k : Links N} {head : N} {l : List N} (h : Ring k head l) :
    k.next (l.headD head) = some (l.tail.headD head) := by
  have hc := h.chain
  cases l with
  | nil => exact hc.1
  | cons x l =>
    cases l with
    | nil => exact hc.2.2.1
    | cons y l => exact hc.2.2.1

variable [DecidableEq N]

def Links.single (head : N) : Links N where
  next := Function.update (fun _ => none) head (some head)
  prev := Function.update (fun _ => none) head (some head)

def Links.add (k : Links N) (node head : N) : Option (Links N) :=
  (k.next head).map fun succ =>
    { next := Function.update (Function.update k.next node (some succ)) head (some node)
      prev := Function.update (Function.update k.prev succ (some node)) node (some head) }

def Links.del (k : Links N) (node : N) : Option (Links N) :=
  (k.next node).bind fun succ => (k.prev node).map fun pred =>
    { next := Function.update (Function.update k.next pred (some succ)) node none
      prev := Function.update (Function.update k.prev succ (some pred)) node none }

theorem ring_single (head : N) : Ring (Links.single head) head [] where
  nodup := by simp
  chain := by simp [Chain,Links.single]

theorem ring_add {k : Links N} {head node : N} {l : List N} (h : Ring k head l)
    (hnode : node ∉ head::l) : ∃ k', k.add node head = some k' ∧ Ring k' head (node::l) := by
  obtain ⟨hhead,hl⟩ := not_or.mp (List.mem_cons.not.mp hnode)
  obtain ⟨hheadl,hnodup⟩ := List.nodup_cons.mp h.nodup
  have hc := h.chain
  refine ⟨_,by rw [Links.add,h.next_head]; rfl,?_,?_⟩
  · simp only [List.nodup_cons,List.mem_cons,not_or]
    exact ⟨⟨Ne.symm hhead,hheadl⟩,hl,hnodup⟩
  · cases l with
    | nil => simp [Chain,hhead,Ne.symm hhead]
    | cons x l =>
      obtain ⟨hxl,-⟩ := List.nodup_cons.mp hnodup
      obtain ⟨hnx,hnl⟩ := not_or.mp (List.mem_cons.not.mp hl)
      obtain ⟨hhx,hhl⟩ := not_or.mp (List.mem_cons.not.mp hheadl)
      refine ⟨by simp,by simp,by simp [hhead],by simp [Ne.symm hnx],chain_same hc.2.2 ?_ ?_⟩
      · intro y hy
        change y ∈ (x::l++[head]).dropLast at hy
        rw [List.dropLast_concat] at hy
        have hyh : y ≠ head := fun e => hheadl (e ▸ hy)
        have hyn : y ≠ node := fun e => hl (e ▸ hy)
        simp [hyh,hyn]
      · intro y hy
        have hyx : y ≠ x := by
          rintro rfl
          simp [hxl,Ne.symm hhx] at hy
        have hyn : y ≠ node := by
          rintro rfl
          simp [hnl,hhead] at hy
        simp [hyx,hyn]

theorem ring_del {k : Links N} {head node : N} {l : List N} (h : Ring k head l)
    (hnode : node ∈ l) : ∃ k', k.del node = some k' ∧ Ring k' head (l.erase node) := by
  obtain ⟨a,b,rfl⟩ := List.append_of_mem hnode
  obtain ⟨pre,pred,hpre⟩ : ∃ pre pred, head::a = pre++[pred] :=
    ⟨_,_,(List.dropLast_append_getLast (List.cons_ne_nil head a)).symm⟩
  obtain ⟨succ,post,hpost⟩ : ∃ succ post, b++[head] = succ::post :=
    List.exists_cons_of_ne_nil (by simp)
  have hc : Chain k (pre++pred::node::succ::post) := by
    have hsplit : head::(a++node::b)++[head] = pre++pred::node::succ::post := by
      rw [← hpost,← List.cons_append,hpre]
      simp
    rw [← hsplit]
    exact h.chain
  obtain ⟨hfirst,hpn,hnp,hns,hsn,hlast⟩ := (chain_append k pre pred _).mp hc
  obtain ⟨hnode,hnodup⟩ := List.nodup_cons.mp (List.nodup_middle.mp (show
    (head::a++node::b).Nodup from h.nodup))
  obtain ⟨hna,hnb⟩ := not_or.mp (List.mem_append.not.mp hnode)
  obtain ⟨hanodup,hbnodup,hapart⟩ := List.nodup_append.mp hnodup
  have hhead : head ∉ b := fun hm => hapart head List.mem_cons_self head hm rfl
  have hpred : pred ∈ head::a := by simp [hpre]
  have hb : node ∉ b++[head] := by
    rintro hm
    rcases List.mem_append.mp hm with hm | hm
    · exact hnb hm
    · exact hna (by simpa using Or.inl (List.mem_singleton.mp hm))
  have hsucc : succ ∈ b++[head] := by simp [hpost]
  have herase : (a++node::b).erase node = a++b := by
    rw [List.erase_append_right _ (fun hm => hna (List.mem_cons_of_mem _ hm)),
      List.erase_cons_head]
  refine ⟨_,by rw [Links.del,hns,Option.bind_some,hnp]; rfl,by rw [herase]; exact hnodup,?_⟩
  have hjoin : head::(a++b)++[head] = pre++pred::succ::post := by
    rw [← hpost,← List.cons_append,hpre]
    simp
  rw [herase,hjoin,chain_append]
  refine ⟨?_,?_,?_,?_⟩
  · rw [← hpre] at hfirst ⊢
    apply chain_same hfirst
    · intro y hy
      rw [hpre,List.dropLast_concat] at hy
      have hyp : y ≠ pred := by
        rintro rfl
        rw [hpre] at hanodup
        exact (List.nodup_append.mp hanodup).2.2 y hy y List.mem_cons_self rfl
      have hyn : y ≠ node := fun e => hna (by rw [hpre,← e]; simp [hy])
      simp [hyp,hyn]
    · intro y hy
      have hys : y ≠ succ := by
        rintro rfl
        rcases List.mem_append.mp hsucc with hm | hm
        · exact hapart y (List.mem_cons_of_mem _ hy) y hm rfl
        · exact (List.nodup_cons.mp hanodup).1 (List.mem_singleton.mp hm ▸ hy)
      have hyn : y ≠ node := fun e => hna (e ▸ List.mem_cons_of_mem _ hy)
      simp [hys,hyn]
  · have hne : pred ≠ node := fun e => hna (e ▸ hpred)
    simp [hne]
  · have hne : succ ≠ node := fun e => hb (e ▸ hsucc)
    simp [hne]
  · apply chain_same hlast
    · intro y hy
      rw [← hpost,List.dropLast_concat] at hy
      have hyp : y ≠ pred := fun e => hapart _ hpred _ hy e.symm
      have hyn : y ≠ node := fun e => hnb (e ▸ hy)
      simp [hyp,hyn]
    · intro y hy
      have hys : y ≠ succ := by
        rintro rfl
        have hnd : (b++[head]).Nodup :=
          List.nodup_append_comm.mpr (List.nodup_cons.mpr ⟨hhead,hbnodup⟩)
        rw [hpost] at hnd
        exact (List.nodup_cons.mp hnd).1 hy
      have hyn : y ≠ node := fun e => hb (by rw [hpost,← e]; simp [hy])
      simp [hys,hyn]

/-- `for (pos = first, n = next; pos != head; pos = n, n = next)`, from any `pos` on. -/
def eachSafe (links : S → Links N) (head : N) (body : S → N → Option S) :
    ℕ → S → N → N → Option S
  | 0, _, _, _ => none
  | fuel+1, s, pos, n =>
    if pos = head then some s
    else (body s pos).bind fun s => ((links s).next n).bind fun m =>
      eachSafe links head body fuel s n m

def forEachSafe (links : S → Links N) (head : N) (body : S → N → Option S) (fuel : ℕ) (s : S) :
    Option S :=
  ((links s).next head).bind fun pos => ((links s).next pos).bind fun n =>
    eachSafe links head body fuel s pos n

section Loops

variable {links : S → Links N} {head : N} {body : S → N → Option S} {I : List N → S → Prop}

theorem eachSafe_unlinks (hring : ∀ l s, I l s → Ring (links s) head l)
    (hbody : ∀ x l s, I (x::l) s → ∃ s', body s x = some s' ∧ I l s') {l : List N} {s : S}
    (h : I l s) {fuel : ℕ} (hf : l.length < fuel) :
    ∃ s', eachSafe links head body fuel s (l.headD head) (l.tail.headD head) = some s' ∧
      l.foldlM body s = some s' ∧ I [] s' := by
  induction l generalizing s fuel with
  | nil =>
    obtain ⟨fuel,rfl⟩ := Nat.exists_eq_succ_of_ne_zero (show fuel ≠ 0 by omega)
    exact ⟨s,by simp [eachSafe],rfl,h⟩
  | cons x l ih =>
    obtain ⟨fuel,rfl⟩ := Nat.exists_eq_succ_of_ne_zero (show fuel ≠ 0 by omega)
    have hx : x ≠ head := by
      rintro rfl
      exact (List.nodup_cons.mp (hring _ _ h).nodup).1 List.mem_cons_self
    obtain ⟨s',hs',hI⟩ := hbody x l s h
    obtain ⟨u,hu,hfold,hIu⟩ := ih hI (Nat.lt_of_succ_lt_succ hf)
    refine ⟨u,?_,by rw [List.foldlM_cons,hs']; exact hfold,hIu⟩
    simp only [eachSafe,List.headD_cons,hx,if_false,hs',Option.bind_some,List.tail_cons,
      (hring l s' hI).next_first]
    exact hu

/-- A body that takes out the element it is given visits every element once, in
the order of the ring, and leaves the ring empty. -/
theorem forEachSafe_unlinks (hring : ∀ l s, I l s → Ring (links s) head l)
    (hbody : ∀ x l s, I (x::l) s → ∃ s', body s x = some s' ∧ I l s') {l : List N} {s : S}
    (h : I l s) {fuel : ℕ} (hf : l.length < fuel) :
    ∃ s', forEachSafe links head body fuel s = some s' ∧
      l.foldlM body s = some s' ∧ I [] s' := by
  have hr := hring l s h
  rw [forEachSafe,hr.next_head,Option.bind_some,hr.next_first,Option.bind_some]
  exact eachSafe_unlinks hring hbody h hf

end Loops

end LinkedRing
