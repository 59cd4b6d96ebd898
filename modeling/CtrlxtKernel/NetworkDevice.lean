import CtrlxtKernel.KernelTypes
import CtrlxtKernel.MachineInt
import CtrlxtKernel.ObjectHeap
import CtrlxtKernel.StepMachine

/-!
# The network device

The callbacks of `net/ctrlxt_net.c`, which the network core makes on device records
and packets of its own, in any order. A packet belongs to the driver once it was
handed over. Which addresses `is_valid_ether_addr` accepts is a parameter.
-/

set_option autoImplicit false

namespace CtrlxtKernel.Network
open MachineInt ObjectHeap StepMachine

variable {t : Target} {D A : Type*}

def eaddrnotavail : ℤ := 99

def netdevTxOk : ℤ := 0

abbrev EtherAddr := Fin 6 → BitVec 8

structure NetDevice where
  devAddr : EtherAddr
  queueRunning : Bool

structure SkBuff where
  len : BitVec 32

structure NetDeviceStats (t : Target) where
  txPackets : ULong t
  txBytes : ULong t

/-- The core's devices and packets, and the statistics of the driver. -/
structure NetState (t : Target) (D : Type*) where
  device : D → NetDevice
  packets : Heap SkBuff
  stats : NetDeviceStats t

section Callbacks

variable [DecidableEq D]

def NetState.setDevice (s : NetState t D) (dev : D) (d : NetDevice) : NetState t D :=
  { s with device := Function.update s.device dev d }

def ctrlxtNetOpen (s : NetState t D) (dev : D) : NetState t D × ℤ :=
  (s.setDevice dev { s.device dev with queueRunning := true },0)

def ctrlxtNetStop (s : NetState t D) (dev : D) : NetState t D × ℤ :=
  (s.setDevice dev { s.device dev with queueRunning := false },0)

/-- The address is the first bytes of `sa_data`. -/
def addrOf (saData : Fin 14 → BitVec 8) : EtherAddr := fun i => saData (i.castLE (by decide))

def ctrlxtNetSetMac (isValidEtherAddr : EtherAddr → Bool) (s : NetState t D) (dev : D)
    (saData : Fin 14 → BitVec 8) : NetState t D × ℤ :=
  if isValidEtherAddr (addrOf saData) then
    (s.setDevice dev { s.device dev with devAddr := addrOf saData },0)
  else (s,-eaddrnotavail)

/-- The branches on the protocol of the packet do nothing yet. -/
def ctrlxtNetXmit (s : NetState t D) (skb : ℕ) (_dev : D) : Option (NetState t D × ℤ) :=
  (s.packets.cells skb).bind fun b =>
    let stats : NetDeviceStats t :=
      ⟨s.stats.txPackets+1,s.stats.txBytes+b.len.setWidth t.width⟩
    (s.packets.free skb).map fun packets =>
      ({ s with stats := stats, packets := packets },netdevTxOk)

def ctrlxtNetGetStats (s : NetState t D) (_dev : D) : NetDeviceStats t := s.stats

inductive NetCallback (D : Type*) where
  | openDev (dev : D)
  | stopDev (dev : D)
  | setMac (dev : D) (saData : Fin 14 → BitVec 8)
  | xmit (skb : ℕ) (dev : D)

/-- The core hands over packets that it has. -/
def callbacks (isValidEtherAddr : EtherAddr → Bool) : Machine (NetState t D) (NetCallback D) where
  enabled s
    | .xmit skb _ => (s.packets.cells skb).isSome = true
    | _ => True
  step s
    | .openDev dev => some (ctrlxtNetOpen s dev).1
    | .stopDev dev => some (ctrlxtNetStop s dev).1
    | .setMac dev saData => some (ctrlxtNetSetMac isValidEtherAddr s dev saData).1
    | .xmit skb dev => (ctrlxtNetXmit s skb dev).map Prod.fst

instance (isValidEtherAddr : EtherAddr → Bool) (s : NetState t D) :
    (l : NetCallback D) → Decidable ((callbacks isValidEtherAddr).enabled s l)
  | .xmit skb _ => inferInstanceAs (Decidable ((s.packets.cells skb).isSome = true))
  | .openDev _ | .stopDev _ | .setMac _ _ => .isTrue trivial

def addrGiven (isValidEtherAddr : EtherAddr → Bool) (dev : D) : NetCallback D → Option EtherAddr
  | .setMac d saData =>
    if d = dev ∧ isValidEtherAddr (addrOf saData) = true then some (addrOf saData) else none
  | _ => none

def queueGiven (dev : D) : NetCallback D → Option Bool
  | .openDev d => if d = dev then some true else none
  | .stopDev d => if d = dev then some false else none
  | _ => none

end Callbacks

def lastGiven (given : NetCallback D → Option A) (ls : List (NetCallback D)) (a : A) : A :=
  ls.foldl (fun a l => (given l).getD a) a

def skbOf : NetCallback D → Option ℕ
  | .xmit skb _ => some skb
  | _ => none

def handedOver (ls : List (NetCallback D)) : List ℕ := ls.filterMap skbOf

def NetState.lenOf (s : NetState t D) (skb : ℕ) : ℕ :=
  (s.packets.cells skb).elim 0 fun b => b.len.toNat

/-- The packets were there, each once, and are freed; all others are as they were. The
statistics count the packets and their bytes, as words. -/
structure Transmitted (s u : NetState t D) (skbs : List ℕ) : Prop where
  distinct : skbs.Nodup
  live : ∀ skb ∈ skbs, (s.packets.cells skb).isSome = true
  gone : ∀ skb, u.packets.cells skb = if skb ∈ skbs then none else s.packets.cells skb
  made : u.packets.next = s.packets.next
  packets : u.stats.txPackets = s.stats.txPackets+BitVec.ofNat t.width skbs.length
  bytes : u.stats.txBytes = s.stats.txBytes+BitVec.ofNat t.width (skbs.map s.lenOf).sum

theorem transmitted_nil (s : NetState t D) : Transmitted s s [] where
  distinct := List.nodup_nil
  live := by simp
  gone := by simp
  made := rfl
  packets := by simp
  bytes := by simp

theorem Transmitted.same {r s u : NetState t D} {skbs : List ℕ} (h : Transmitted s u skbs)
    (hp : s.packets = r.packets) (hs : s.stats = r.stats) : Transmitted r u skbs := by
  obtain ⟨hdistinct,hlive,hgone,hmade,hpackets,hbytes⟩ := h
  have hlen : s.lenOf = r.lenOf := by
    funext skb
    rw [NetState.lenOf,NetState.lenOf,hp]
  rw [hp] at hlive hgone hmade
  rw [hs] at hpackets hbytes
  rw [hlen] at hbytes
  exact ⟨hdistinct,hlive,hgone,hmade,hpackets,hbytes⟩

theorem Transmitted.freed {s u : NetState t D} {skbs : List ℕ} (h : Transmitted s u skbs)
    {skb : ℕ} (hs : skb ∈ skbs) : u.packets.freed.count skb = 1 := by
  obtain ⟨b,hb⟩ := Option.isSome_iff_exists.mp (h.live skb hs)
  have hlt := lt_next hb
  rw [← h.made] at hlt
  exact freed_dead hlt (by rw [h.gone,if_pos hs])

theorem xmit_spec {s : NetState t D} {skb : ℕ} {b : SkBuff} (hb : s.packets.cells skb = some b)
    (dev : D) : ∃ k, s.packets.free skb = some k ∧ ctrlxtNetXmit s skb dev = some ({ s with
      stats := ⟨s.stats.txPackets+1,s.stats.txBytes+b.len.setWidth t.width⟩
      packets := k },netdevTxOk) := by
  obtain ⟨k,hk⟩ := free_live hb
  exact ⟨k,hk,by simp [ctrlxtNetXmit,hb,hk]⟩

theorem Transmitted.xmit {s u : NetState t D} {skb : ℕ} {b : SkBuff} {k : Heap SkBuff}
    {skbs : List ℕ} (hb : s.packets.cells skb = some b) (hk : s.packets.free skb = some k)
    (h : Transmitted { s with
      stats := ⟨s.stats.txPackets+1,s.stats.txBytes+b.len.setWidth t.width⟩
      packets := k } u skbs) : Transmitted s u (skb::skbs) := by
  obtain ⟨-,hcells,hnext,-⟩ := free_spec hk
  have hnew : skb ∉ skbs := by
    intro hmem
    have hlive := h.live skb hmem
    rw [hcells,Function.update_self] at hlive
    cases hlive
  have hother : ∀ i ∈ skbs, k.cells i = s.packets.cells i := by
    intro i hi
    have hne : i ≠ skb := by
      rintro rfl
      exact hnew hi
    rw [hcells,Function.update_of_ne hne]
  have hgone : ∀ i, u.packets.cells i = if i ∈ skb::skbs then none else s.packets.cells i := by
    intro i
    rw [h.gone i,hcells]
    by_cases hi : i = skb
    · subst hi
      simp
    · simp [hi]
  refine ⟨List.nodup_cons.mpr ⟨hnew,h.distinct⟩,?_,hgone,h.made.trans hnext,?_,?_⟩
  · intro i hi
    rcases List.mem_cons.mp hi with rfl | hi
    · rw [hb]
      rfl
    · rw [← hother i hi]
      exact h.live i hi
  · rw [h.packets,List.length_cons,Nat.add_comm,BitVec.ofNat_add,← BitVec.add_assoc]
    rfl
  · have hlens : skbs.map (NetState.lenOf { s with
        stats := ⟨s.stats.txPackets+1,s.stats.txBytes+b.len.setWidth t.width⟩
        packets := k }) = skbs.map s.lenOf := by
      refine List.map_congr_left fun i hi => ?_
      simp only [NetState.lenOf,hother i hi]
    have hlen : BitVec.ofNat t.width (s.lenOf skb) = b.len.setWidth t.width := by
      rw [NetState.lenOf,hb,Option.elim_some,BitVec.ofNat_toNat]
    rw [h.bytes,hlens,List.map_cons,List.sum_cons,BitVec.ofNat_add,hlen,BitVec.add_assoc]

section Runs

variable [DecidableEq D]

theorem run_transmitted {isValidEtherAddr : EtherAddr → Bool} {s u : NetState t D}
    {ls : List (NetCallback D)} (h : Run (callbacks isValidEtherAddr) s ls u) :
    Transmitted s u (handedOver ls) := by
  induction h with
  | nil s => exact transmitted_nil s
  | @cons s r u l ls he hr _ ih =>
    cases l with
    | openDev dev | stopDev dev =>
      cases hr
      exact ih.same rfl rfl
    | setMac dev saData =>
      obtain rfl := Option.some.inj hr
      unfold ctrlxtNetSetMac at ih
      split_ifs at ih
      · exact ih.same rfl rfl
      · exact ih
    | xmit skb dev =>
      obtain ⟨b,hb⟩ := Option.isSome_iff_exists.mp he
      obtain ⟨k,hk,hcall⟩ := xmit_spec hb dev
      obtain rfl := Option.some.inj ((congrArg (Option.map Prod.fst) hcall).symm.trans hr)
      exact ih.xmit hb hk

theorem step_device {isValidEtherAddr : EtherAddr → Bool} {s r : NetState t D}
    {l : NetCallback D} (hr : (callbacks isValidEtherAddr).step s l = some r) (dev : D) :
    r.device dev = ⟨(addrGiven isValidEtherAddr dev l).getD (s.device dev).devAddr,
      (queueGiven dev l).getD (s.device dev).queueRunning⟩ := by
  cases l with
  | openDev d | stopDev d =>
    cases hr
    by_cases hd : d = dev
    · subst hd
      simp [ctrlxtNetOpen,ctrlxtNetStop,NetState.setDevice,addrGiven,queueGiven]
    · simp [ctrlxtNetOpen,ctrlxtNetStop,NetState.setDevice,addrGiven,queueGiven,hd,Ne.symm hd]
  | setMac d saData =>
    obtain rfl := Option.some.inj hr
    by_cases hv : isValidEtherAddr (addrOf saData) = true
    · by_cases hd : d = dev
      · subst hd
        simp [ctrlxtNetSetMac,NetState.setDevice,addrGiven,queueGiven,hv]
      · simp [ctrlxtNetSetMac,NetState.setDevice,addrGiven,queueGiven,hv,hd,Ne.symm hd]
    · simp [ctrlxtNetSetMac,addrGiven,queueGiven,hv]
  | xmit skb d =>
    obtain ⟨⟨v,ret⟩,hv,rfl⟩ := Option.map_eq_some_iff.mp hr
    obtain ⟨b,-,hrest⟩ := Option.bind_eq_some_iff.mp hv
    obtain ⟨k,-,hk⟩ := Option.map_eq_some_iff.mp hrest
    obtain rfl := (Prod.mk.inj hk).1
    rfl

theorem run_device {isValidEtherAddr : EtherAddr → Bool} {s u : NetState t D}
    {ls : List (NetCallback D)} (h : Run (callbacks isValidEtherAddr) s ls u) (dev : D) :
    u.device dev = ⟨lastGiven (addrGiven isValidEtherAddr dev) ls (s.device dev).devAddr,
      lastGiven (queueGiven dev) ls (s.device dev).queueRunning⟩ := by
  induction h with
  | nil s => rfl
  | cons _ hr _ ih => rw [ih,step_device hr dev]; rfl

/-- Whatever the core calls and in whatever order, every packet handed over is freed once
and no other is touched, the statistics count the packets and their bytes, and every
device has the last address that was accepted and the queue of its last opening or
stop. -/
theorem callbacks_right {isValidEtherAddr : EtherAddr → Bool} {s u : NetState t D}
    {ls : List (NetCallback D)} (h : Run (callbacks isValidEtherAddr) s ls u) :
    (handedOver ls).Nodup ∧ (∀ skb ∈ handedOver ls, u.packets.freed.count skb = 1) ∧
      (∀ skb, u.packets.cells skb =
        if skb ∈ handedOver ls then none else s.packets.cells skb) ∧
      (∀ dev, ctrlxtNetGetStats u dev =
        ⟨s.stats.txPackets+BitVec.ofNat t.width (handedOver ls).length,
          s.stats.txBytes+BitVec.ofNat t.width ((handedOver ls).map s.lenOf).sum⟩) ∧
      ∀ dev, u.device dev =
        ⟨lastGiven (addrGiven isValidEtherAddr dev) ls (s.device dev).devAddr,
          lastGiven (queueGiven dev) ls (s.device dev).queueRunning⟩ := by
  have hsent := run_transmitted h
  refine ⟨hsent.distinct,fun skb hs => hsent.freed hs,hsent.gone,fun dev => ?_,run_device h⟩
  rw [← hsent.packets,← hsent.bytes]
  rfl

end Runs

theorem callbacks_right_two : ∃ u : NetState .bits64 Bool,
    Run (callbacks fun addr => addr 0 != 1)
      ⟨fun _ => ⟨0,false⟩,(Heap.empty.alloc ⟨64⟩).alloc ⟨1500⟩,⟨0,0⟩⟩
      [.setMac true fun _ => 2,.openDev true,.xmit 1 true,.setMac true fun _ => 1,
        .openDev false,.xmit 0 false,.stopDev false] u ∧
    ctrlxtNetGetStats u true = ⟨2,1564⟩ ∧ u.packets.freed.count 0 = 1 ∧
    u.packets.freed.count 1 = 1 ∧ u.device true = ⟨fun _ => 2,true⟩ ∧
    u.device false = ⟨0,false⟩ := by
  have h : ∃ u : NetState .bits64 Bool, Run (callbacks fun addr => addr 0 != 1)
      ⟨fun _ => ⟨0,false⟩,(Heap.empty.alloc ⟨64⟩).alloc ⟨1500⟩,⟨0,0⟩⟩
      [.setMac true fun _ => 2,.openDev true,.xmit 1 true,.setMac true fun _ => 1,
        .openDev false,.xmit 0 false,.stopDev false] u := ⟨_,run_iff_exec.mpr rfl⟩
  obtain ⟨u,hu⟩ := h
  obtain ⟨-,hfreed,-,hstats,hdevice⟩ := callbacks_right hu
  exact ⟨u,hu,hstats true,hfreed 0 (by decide),hfreed 1 (by decide),hdevice true,hdevice false⟩

end CtrlxtKernel.Network
