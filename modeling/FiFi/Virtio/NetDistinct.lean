import FiFi.Virtio.NetRx

/-!
# How long the receive descriptors stay distinct

Every received frame takes a fresh descriptor from the free list, and none is ever
given back. As long as there are fresh ones, the heads of the posted buffers are
distinct, the device owns no descriptor twice, and a frame is read from the buffer
it was written to. The 256 descriptors are used up by the four first posts and 252
frames. After that every post takes descriptor 0.
-/

namespace FiFi.Virtio

open StateMachine

variable {σ : NetRx}

/-! ### Posting a buffer -/

theorem rxPost_desc (σ : NetRx) (i : Fin 4) : (rxPost σ i).desc =
    Function.update σ.desc σ.freeHead ⟨σ.rxPhys i, rxBufSz, descWrite, 0⟩ := by
  simp [rxPost, vqAlloc, vqSubmit, notify]

theorem rxPost_freeHead (σ : NetRx) (i : Fin 4) :
    (rxPost σ i).freeHead = (σ.desc σ.freeHead).next := rfl

theorem rxPost_rxDesc (σ : NetRx) (i : Fin 4) :
    (rxPost σ i).rxDesc = Function.update σ.rxDesc i σ.freeHead := rfl

theorem rxPost_owned (i : Fin 4) (h : σ.devAvail = σ.availIdx) :
    (rxPost σ i).owned = σ.owned ++ [σ.freeHead] := by
  simp [rxPost, vqAlloc, vqSubmit, notify, h]

theorem rxPost_devAvail (i : Fin 4) (h : σ.devAvail = σ.availIdx) :
    (rxPost σ i).devAvail = (rxPost σ i).availIdx := by
  simp [rxPost, vqAlloc, vqSubmit, notify, h]

/-! ### The claim -/

/-- The heads are distinct, the device owns each descriptor once, and the frame
that is read next is the one that was written. -/
structure RxOk (σ : NetRx) : Prop where
  heads : Function.Injective σ.rxDesc
  once : σ.owned.Nodup
  exact : ∀ bufLen, σ.usedIdx ≠ σ.lastUsed →
    (netRecv σ bufLen).1 = (σ.usedRing (σ.lastUsed % vqSize)).frame.take bufLen

/-- The number of posts before a post takes a descriptor again. -/
def posts (σ : NetRx) : Nat := 4 + σ.frames

/-- The queue while there are fresh descriptors. `pending` are the elements of the
used ring that were not consumed. -/
structure RxInv (σ : NetRx) (pending : List UsedElem) : Prop where
  phys : Function.Injective σ.rxPhys
  heads : Function.Injective σ.rxDesc
  below : ∀ i, σ.rxDesc i < posts σ
  few : posts σ ≤ vqSize
  addr : ∀ i, (σ.desc (σ.rxDesc i)).addr = σ.rxPhys i
  free : σ.freeHead = posts σ % vqSize
  fresh : ∀ j, posts σ ≤ j → j < vqSize → (σ.desc j).next = (j + 1) % vqSize
  sync : σ.devAvail = σ.availIdx
  size : σ.owned.length + pending.length = 4
  nodup : (σ.owned ++ pending.map UsedElem.id).Nodup
  cover : ∀ h ∈ σ.owned ++ pending.map UsedElem.id, ∃ i, σ.rxDesc i = h
  last : σ.lastUsed < 2 ^ 16
  idx : σ.usedIdx = u16 (σ.lastUsed + pending.length)
  ring : ∀ j e, pending[j]? = some e → σ.usedRing ((σ.lastUsed + j) % vqSize) = e
  written : ∀ e ∈ pending, ∀ i, σ.rxDesc i = e.id → e.len = netHdrSz + e.frame.length ∧
    ((σ.mem (σ.rxPhys i)).drop netHdrSz).take e.frame.length = e.frame

theorem RxInv.idx_eq_iff {pending : List UsedElem} (h : RxInv σ pending) :
    σ.usedIdx = σ.lastUsed ↔ pending = [] := by
  have hlast := h.last
  have hsize := h.size
  rw [h.idx, ← List.length_eq_zero_iff, u16]
  omega

theorem RxInv.find {pending : List UsedElem} (h : RxInv σ pending) {i : Fin 4} {id : Nat}
    (hi : σ.rxDesc i = id) :
    ((List.finRange 4).find? fun i => σ.rxDesc i = u16 id) = some i := by
  have hlt := h.below i
  have hfew := h.few
  have hid : u16 id = id := by
    simp only [vqSize] at hfew
    exact Nat.mod_eq_of_lt (by omega)
  rw [hid]
  cases hf : (List.finRange 4).find? fun j => σ.rxDesc j = id with
  | none =>
      have hnone := List.find?_eq_none.1 hf i (List.mem_finRange i)
      simp [hi] at hnone
  | some j =>
      have hj := List.find?_some hf
      simp only [decide_eq_true_eq] at hj
      rw [h.heads (hj.trans hi.symm)]

/-- The next frame is read from the buffer it was written to. -/
theorem RxInv.netRecv_cons {e : UsedElem} {pending : List UsedElem} (h : RxInv σ (e :: pending))
    (bufLen : Nat) : ∃ i, σ.rxDesc i = e.id ∧
      netRecv σ bufLen = (e.frame.take bufLen,
        rxPost { σ with lastUsed := u16 (σ.lastUsed + 1), frames := σ.frames + 1 } i) := by
  obtain ⟨i, hi⟩ := h.cover e.id (by simp)
  obtain ⟨hlen, hframe⟩ := h.written e List.mem_cons_self i hi
  have hring := h.ring 0 e rfl
  rw [Nat.add_zero] at hring
  have hne : σ.usedIdx ≠ σ.lastUsed := fun heq => by simpa using h.idx_eq_iff.1 heq
  have hframeLen : (if netHdrSz < e.len then e.len - netHdrSz else 0) = e.frame.length := by
    split <;> omega
  refine ⟨i, hi, ?_⟩
  unfold netRecv
  simp only [if_neg hne, hring, h.find hi, hframeLen]
  congr 1
  rw [← hframe, List.take_take]
  congr 1
  rw [hframe]
  split <;> omega

theorem RxInv.rxOk {pending : List UsedElem} (h : RxInv σ pending) : RxOk σ := by
  refine ⟨h.heads, h.nodup.of_append_left, fun bufLen hne => ?_⟩
  cases pending with
  | nil => exact absurd (h.idx_eq_iff.2 rfl) hne
  | cons e pending =>
      obtain ⟨i, -, hrecv⟩ := h.netRecv_cons bufLen
      have hring := h.ring 0 e rfl
      rw [Nat.add_zero] at hring
      rw [hrecv, hring]

/-! ### Steps -/

theorem RxInv.deliver {pending : List UsedElem} (h : RxInv σ pending) {k : Nat} {head : Nat}
    (hk : σ.owned[k]? = some head) {hdr frame : List UInt8} (hhdr : hdr.length = netHdrSz) :
    RxInv (deliver σ k hdr frame) (pending ++ [⟨head, (hdr ++ frame).length, frame⟩]) := by
  have hmem : head ∈ σ.owned := List.mem_of_getElem? hk
  obtain ⟨i, hi⟩ := h.cover head (List.mem_append_left _ hmem)
  obtain ⟨hklt, hkhead⟩ := List.getElem?_eq_some_iff.1 hk
  have haddr : (σ.desc head).addr = σ.rxPhys i := by rw [← hi, h.addr]
  have hsize := h.size
  have hperm : (σ.owned.eraseIdx k ++
      (pending ++ [(⟨head, (hdr ++ frame).length, frame⟩ : UsedElem)]).map UsedElem.id).Perm
        (σ.owned ++ pending.map UsedElem.id) := by
    rw [List.map_append, List.map_singleton, ← List.append_assoc]
    refine (List.perm_append_singleton _ _).trans ?_
    rw [← List.cons_append]
    exact (hkhead ▸ List.getElem_cons_eraseIdx_perm hklt).append_right _
  have hslot : ∀ j, j ≤ pending.length → σ.usedIdx % vqSize = (σ.lastUsed + j) % vqSize →
      j = pending.length := by
    intro j hj heq
    rw [h.idx] at heq
    simp only [u16, vqSize] at heq
    omega
  have hring : σ.usedIdx % vqSize = (σ.lastUsed + pending.length) % vqSize := by
    rw [h.idx]
    simp only [u16, vqSize]
    omega
  unfold Virtio.deliver
  simp only [hk, haddr]
  exact
    { phys := h.phys
      heads := h.heads
      below := h.below
      few := h.few
      addr := h.addr
      free := h.free
      fresh := h.fresh
      sync := h.sync
      size := by
        simp only [List.length_append, List.length_singleton, List.length_eraseIdx_of_lt hklt]
        omega
      nodup := hperm.nodup_iff.2 h.nodup
      cover := fun c hc => h.cover c (hperm.mem_iff.1 hc)
      last := h.last
      idx := by
        simp only [List.length_append, List.length_singleton, h.idx, u16]
        omega
      ring := by
        intro j e hj
        simp only
        by_cases hlt : j < pending.length
        · rw [List.getElem?_append_left hlt] at hj
          rw [Function.update_of_ne (fun heq => absurd (hslot j hlt.le heq.symm) hlt.ne)]
          exact h.ring j e hj
        · have hje : j = pending.length := by
            have hbound := (List.getElem?_eq_some_iff.1 hj).1
            simp at hbound
            omega
          subst hje
          rw [hring, Function.update_self]
          simpa using hj
      written := by
        intro e he i' hi'
        rcases List.mem_append.1 he with hold | hnew
        · have hne : e.id ≠ head := fun heq =>
            (List.nodup_append.1 h.nodup).2.2 _ hmem _ (List.mem_map_of_mem hold) heq.symm
          have hii : i' ≠ i := by
            rintro rfl
            exact hne (hi'.symm.trans hi)
          simp only [Function.update_of_ne (fun heq => hii (h.phys heq))]
          exact h.written e hold i' hi'
        · obtain rfl := List.mem_singleton.1 hnew
          obtain rfl := h.heads (hi'.trans hi.symm)
          refine ⟨by simp [hhdr], ?_⟩
          simp only [Function.update_self]
          rw [← hhdr, List.append_assoc, List.drop_left, List.take_left] }

theorem RxInv.recv {e : UsedElem} {pending : List UsedElem} (h : RxInv σ (e :: pending))
    (hroom : posts σ < vqSize) (bufLen : Nat) : RxInv (netRecv σ bufLen).2 pending := by
  obtain ⟨i, hi, hrecv⟩ := h.netRecv_cons bufLen
  simp only [hrecv]
  set τ : NetRx := { σ with lastUsed := u16 (σ.lastUsed + 1), frames := σ.frames + 1 } with hτ
  have howned : (rxPost τ i).owned = σ.owned ++ [σ.freeHead] := rxPost_owned i h.sync
  have hsize := h.size
  have hfree : σ.freeHead = posts σ := by rw [h.free, Nat.mod_eq_of_lt hroom]
  have hnodup := h.nodup
  rw [List.map_cons, List.nodup_append] at hnodup
  obtain ⟨hown, hids, hapart⟩ := hnodup
  have hnew : ∀ j, σ.rxDesc j ≠ σ.freeHead := by
    intro j heq
    have hlt := h.below j
    omega
  have hold : ∀ c ∈ σ.owned ++ pending.map UsedElem.id, ∃ j, j ≠ i ∧ σ.rxDesc j = c := by
    intro c hc
    obtain ⟨j, hj⟩ := h.cover c (by
      simp only [List.map_cons, List.mem_append, List.mem_cons] at hc ⊢
      tauto)
    refine ⟨j, ?_, hj⟩
    rintro rfl
    rw [hi] at hj
    subst hj
    rcases List.mem_append.1 hc with hc | hc
    · exact hapart _ hc _ List.mem_cons_self rfl
    · exact (List.nodup_cons.1 hids).1 hc
  have hperm : (σ.owned ++ [σ.freeHead] ++ pending.map UsedElem.id).Perm
      (σ.freeHead :: (σ.owned ++ pending.map UsedElem.id)) := by
    rw [List.append_assoc]
    exact List.perm_middle
  exact
    { phys := h.phys
      heads := by
        rw [rxPost_rxDesc]
        intro j j' heq
        change Function.update σ.rxDesc i σ.freeHead j =
          Function.update σ.rxDesc i σ.freeHead j' at heq
        by_cases hj : j = i
        · by_cases hj' : j' = i
          · rw [hj, hj']
          · rw [hj, Function.update_self, Function.update_of_ne hj'] at heq
            exact absurd heq.symm (hnew j')
        · by_cases hj' : j' = i
          · rw [hj', Function.update_self, Function.update_of_ne hj] at heq
            exact absurd heq (hnew j)
          · rw [Function.update_of_ne hj, Function.update_of_ne hj'] at heq
            exact h.heads heq
      below := by
        intro j
        rw [rxPost_rxDesc]
        change Function.update σ.rxDesc i σ.freeHead j < 4 + (σ.frames + 1)
        have hp : posts σ = 4 + σ.frames := rfl
        by_cases hj : j = i
        · subst hj
          rw [Function.update_self]
          omega
        · rw [Function.update_of_ne hj]
          have hlt := h.below j
          omega
      few := by
        change 4 + (σ.frames + 1) ≤ vqSize
        have hp : posts σ = 4 + σ.frames := rfl
        omega
      addr := by
        intro j
        rw [rxPost_rxDesc, rxPost_desc]
        change (Function.update σ.desc σ.freeHead _
          (Function.update σ.rxDesc i σ.freeHead j)).addr = σ.rxPhys j
        by_cases hj : j = i
        · subst hj
          rw [Function.update_self, Function.update_self]
        · rw [Function.update_of_ne hj, Function.update_of_ne (hnew j)]
          exact h.addr j
      free := by
        rw [rxPost_freeHead]
        change (σ.desc σ.freeHead).next = (4 + (σ.frames + 1)) % vqSize
        rw [hfree, h.fresh _ le_rfl hroom]
        rfl
      fresh := by
        intro j hj hj'
        rw [rxPost_desc]
        change (Function.update σ.desc σ.freeHead _ j).next = _
        have hp : posts σ = 4 + σ.frames := rfl
        change 4 + (σ.frames + 1) ≤ j at hj
        rw [Function.update_of_ne (by omega)]
        exact h.fresh j (by omega) hj'
      sync := rxPost_devAvail i h.sync
      size := by
        rw [howned]
        simp only [List.length_append, List.length_cons, List.length_nil] at hsize ⊢
        omega
      nodup := by
        rw [howned]
        refine (hperm.nodup_iff).2 (List.nodup_cons.2 ⟨fun hmem => ?_, ?_⟩)
        · obtain ⟨j, -, hj⟩ := hold _ hmem
          exact hnew j hj
        · exact List.nodup_append.2 ⟨hown, (List.nodup_cons.1 hids).2,
            fun a ha c hc => hapart a ha c (List.mem_cons_of_mem _ hc)⟩
      cover := by
        rw [howned, rxPost_rxDesc]
        intro c hc
        rcases List.mem_cons.1 (hperm.mem_iff.1 hc) with rfl | hc
        · exact ⟨i, Function.update_self _ _ _⟩
        · obtain ⟨j, hj, hjc⟩ := hold c hc
          exact ⟨j, (Function.update_of_ne hj _ _).trans hjc⟩
      last := Nat.mod_lt _ (by norm_num)
      idx := by
        change σ.usedIdx = u16 (u16 (σ.lastUsed + 1) + pending.length)
        rw [h.idx]
        simp only [List.length_cons, u16]
        omega
      ring := by
        intro j d hj
        change σ.usedRing ((u16 (σ.lastUsed + 1) + j) % vqSize) = d
        rw [← h.ring (j + 1) d (by simpa using hj)]
        congr 1
        simp only [u16, vqSize]
        omega
      written := by
        intro d hd j hj
        rw [rxPost_rxDesc] at hj
        obtain ⟨j', hne, hj'⟩ := hold d.id
          (List.mem_append_right _ (List.mem_map_of_mem hd))
        have hjj : j = j' := by
          by_contra hdiff
          by_cases hji : j = i
          · rw [hji, Function.update_self] at hj
            exact hnew j' (hj'.trans hj.symm)
          · rw [Function.update_of_ne hji] at hj
            exact hdiff (h.heads (hj.trans hj'.symm))
        subst hjj
        exact h.written d (List.mem_cons_of_mem e hd) j hj' }

/-! ### Runs -/

theorem netInit_rxDesc (rxPhys : Fin 4 → Nat) (mem : Nat → List UInt8) (i : Fin 4) :
    (netInit rxPhys mem).rxDesc i = i.val := by
  fin_cases i <;> rfl

theorem netInit_owned (rxPhys : Fin 4 → Nat) (mem : Nat → List UInt8) :
    (netInit rxPhys mem).owned = [0, 1, 2, 3] := rfl

theorem netInit_desc (rxPhys : Fin 4 → Nat) (mem : Nat → List UInt8) {j : Nat} (hj : 4 ≤ j) :
    (netInit rxPhys mem).desc j = freeChain j := by
  have hfold : (netInit rxPhys mem).desc = Function.update (Function.update (Function.update
      (Function.update freeChain 0 ⟨rxPhys 0, rxBufSz, descWrite, 0⟩)
      1 ⟨rxPhys 1, rxBufSz, descWrite, 0⟩) 2 ⟨rxPhys 2, rxBufSz, descWrite, 0⟩)
      3 ⟨rxPhys 3, rxBufSz, descWrite, 0⟩ := by
    change (rxPost (rxPost (rxPost (rxPost (vqSetup rxPhys mem) 0) 1) 2) 3).desc = _
    simp only [rxPost_desc]
    rfl
  rw [hfold]
  simp (disch := omega) only [Function.update_of_ne]

theorem netInit_addr (rxPhys : Fin 4 → Nat) (mem : Nat → List UInt8) (i : Fin 4) :
    ((netInit rxPhys mem).desc i.val).addr = rxPhys i := by
  fin_cases i <;> rfl

theorem rxInv_netInit {rxPhys : Fin 4 → Nat} (hphys : Function.Injective rxPhys)
    (mem : Nat → List UInt8) : RxInv (netInit rxPhys mem) [] where
  phys := hphys
  heads := by
    intro i j heq
    rw [netInit_rxDesc, netInit_rxDesc] at heq
    exact Fin.ext heq
  below := by
    intro i
    rw [netInit_rxDesc]
    exact i.isLt
  few := show 4 ≤ 256 by decide
  addr := by
    intro i
    rw [netInit_rxDesc]
    exact netInit_addr rxPhys mem i
  free := rfl
  fresh := by
    intro j hj hj'
    rw [netInit_desc rxPhys mem hj]
    unfold vqSize at hj'
    by_cases hlast : j < vqSize - 1
    · rw [freeChain, if_pos hlast]
      exact (Nat.mod_eq_of_lt (show j + 1 < vqSize by omega)).symm
    · unfold vqSize at hlast
      obtain rfl : j = 255 := by omega
      rfl
  sync := rfl
  size := rfl
  nodup := by
    rw [netInit_owned]
    decide
  cover := by
    intro h hh
    rw [netInit_owned, List.map_nil, List.append_nil] at hh
    have hlt : h < 4 := by
      simp only [List.mem_cons, List.not_mem_nil, or_false] at hh
      omega
    exact ⟨⟨h, hlt⟩, netInit_rxDesc rxPhys mem _⟩
  last := show 0 < 2 ^ 16 by decide
  idx := rfl
  ring := by simp
  written := by simp

theorem RxInv.step {pending : List UsedElem} (h : RxInv σ pending) (a : RxAct)
    (hfew : (rxStep σ a).frames ≤ 252) : ∃ pending', RxInv (rxStep σ a) pending' := by
  cases a with
  | deliver k hdr frame =>
      by_cases hok : hdr.length = netHdrSz ∧ frame.length ≤ maxFrame
      · simp only [rxStep, if_pos hok]
        cases hk : σ.owned[k]? with
        | none =>
            have hsame : Virtio.deliver σ k hdr frame = σ := by simp [Virtio.deliver, hk]
            exact ⟨pending, hsame.symm ▸ h⟩
        | some head => exact ⟨_, h.deliver hk hok.1⟩
      · simp only [rxStep, if_neg hok]
        exact ⟨pending, h⟩
  | recv bufLen =>
      cases pending with
      | nil =>
          have hsame : rxStep σ (.recv bufLen) = σ := by
            simp [rxStep, netRecv, h.idx_eq_iff.2 rfl]
          exact ⟨[], hsame.symm ▸ h⟩
      | cons e pending =>
          refine ⟨pending, h.recv ?_ bufLen⟩
          obtain ⟨i, -, hrecv⟩ := h.netRecv_cons bufLen
          have hframes : (rxStep σ (.recv bufLen)).frames = σ.frames + 1 := by
            simp only [rxStep, hrecv]
            rfl
          simp only [posts, vqSize]
          omega

theorem rxStep_frames (σ : NetRx) (a : RxAct) : σ.frames ≤ (rxStep σ a).frames := by
  cases a with
  | deliver k hdr frame =>
      simp only [rxStep, deliver]
      repeat' split
      all_goals exact le_rfl
  | recv bufLen =>
      simp only [rxStep, netRecv]
      split
      · exact le_rfl
      · cases (List.finRange 4).find? fun i =>
          σ.rxDesc i = u16 (σ.usedRing (σ.lastUsed % vqSize)).id with
        | none => exact Nat.le_succ _
        | some i => exact Nat.le_succ _

theorem run_rxInv {rxPhys : Fin 4 → Nat} (hphys : Function.Injective rxPhys)
    (mem : Nat → List UInt8) (acts : List RxAct)
    (hfew : (run rxStep (netInit rxPhys mem) acts).frames ≤ 252) :
    ∃ pending, RxInv (run rxStep (netInit rxPhys mem) acts) pending := by
  refine inv_run (fun σ => σ.frames ≤ 252 → ∃ pending, RxInv σ pending) ?_
    (fun _ => ⟨[], rxInv_netInit hphys mem⟩) (allSteps_true _ _ acts) hfew
  intro σ a hinv _ hframes
  obtain ⟨pending, h⟩ := hinv ((rxStep_frames σ a).trans hframes)
  exact h.step a hframes

/-! ### A device that keeps one descriptor -/

/-- A frame arrives in the second buffer that the device owns, and is read. -/
def round : List RxAct :=
  [.deliver 1 (List.replicate netHdrSz 0) [7], .recv rxBufSz]

theorem RxInv.run_round (h : RxInv σ []) :
    (run rxStep σ round).owned = σ.owned.eraseIdx 1 ++ [σ.freeHead] ∧
      (run rxStep σ round).frames = σ.frames + 1 ∧
      (posts σ < vqSize → RxInv (run rxStep σ round) []) := by
  have hsize := h.size
  have hk : 1 < σ.owned.length := by
    simp only [List.length_nil] at hsize
    omega
  have hhead : σ.owned[1]? = some (σ.owned[1]) := List.getElem?_eq_getElem hk
  set τ := Virtio.deliver σ 1 (List.replicate netHdrSz 0) [7] with hτ
  have hrun : run rxStep σ round = (netRecv τ rxBufSz).2 := by
    simp [round, rxStep, maxFrame, hτ]
  have hinv : RxInv τ [_] := h.deliver hhead List.length_replicate
  obtain ⟨i, -, hrecv⟩ := hinv.netRecv_cons rxBufSz
  refine ⟨?_, ?_, fun hroom => ?_⟩
  · rw [hrun, hrecv]
    refine (rxPost_owned i ?_).trans ?_
    · exact hinv.sync
    · simp [hτ, Virtio.deliver, hhead]
  · rw [hrun, hrecv]
    simp [rxPost, vqAlloc, vqSubmit, notify, hτ, Virtio.deliver, hhead]
  · rw [hrun]
    refine hinv.recv ?_ rxBufSz
    simpa [posts, hτ, Virtio.deliver, hhead] using hroom

/-- The first descriptor that was posted is never completed. -/
theorem run_rounds {rxPhys : Fin 4 → Nat} (hphys : Function.Injective rxPhys)
    (mem : Nat → List UInt8) {n : Nat} (hn : n ≤ 252) :
    RxInv (run rxStep (netInit rxPhys mem) (List.replicate n round).flatten) [] ∧
      (run rxStep (netInit rxPhys mem) (List.replicate n round).flatten).frames = n ∧
      ∃ rest, (run rxStep (netInit rxPhys mem) (List.replicate n round).flatten).owned =
        0 :: rest := by
  induction n with
  | zero => exact ⟨rxInv_netInit hphys mem, rfl, _, netInit_owned rxPhys mem⟩
  | succ n ih =>
      obtain ⟨hinv, hframes, rest, hrest⟩ := ih (by omega)
      obtain ⟨howned, hcount, hnext⟩ := hinv.run_round
      rw [List.replicate_succ', List.flatten_append, List.flatten_singleton, run_append]
      refine ⟨hnext ?_, hcount.trans (by rw [hframes]), ?_⟩
      · simp only [posts, hframes, vqSize]
        omega
      · rw [howned, hrest]
        exact ⟨_, rfl⟩

theorem not_nodup_rounds {rxPhys : Fin 4 → Nat} (hphys : Function.Injective rxPhys)
    (mem : Nat → List UInt8) :
    (run rxStep (netInit rxPhys mem) (List.replicate 253 round).flatten).frames = 253 ∧
      ¬(run rxStep (netInit rxPhys mem) (List.replicate 253 round).flatten).owned.Nodup := by
  obtain ⟨hinv, hframes, rest, hrest⟩ := run_rounds hphys mem (le_refl 252)
  obtain ⟨howned, hcount, -⟩ := hinv.run_round
  rw [List.replicate_succ', List.flatten_append, List.flatten_singleton, run_append]
  refine ⟨hcount.trans (by rw [hframes]), ?_⟩
  rw [howned, hrest, hinv.free, posts, hframes]
  intro hnodup
  simp [vqSize] at hnodup

/-! ### The receive descriptors -/

/-- The descriptors are distinct in every run in which no more than `n` frames were
consumed exactly if `n ≤ 252`. -/
theorem rxOk_run_iff {rxPhys : Fin 4 → Nat} (hphys : Function.Injective rxPhys)
    (mem : Nat → List UInt8) (n : Nat) :
    (∀ acts, (run rxStep (netInit rxPhys mem) acts).frames ≤ n →
      RxOk (run rxStep (netInit rxPhys mem) acts)) ↔ n ≤ 252 := by
  constructor
  · intro h
    by_contra hn
    obtain ⟨hframes, hdup⟩ := not_nodup_rounds hphys mem
    exact hdup (h _ (by omega)).once
  · intro hn acts hframes
    obtain ⟨pending, hinv⟩ := run_rxInv hphys mem acts (hframes.trans hn)
    exact hinv.rxOk

theorem pages_injective : Function.Injective fun i : Fin 4 => 4096 * (i.val + 1) := by
  intro i j heq
  simp only at heq
  exact Fin.ext (by omega)

theorem rxOk_run_iff_pages : (∀ acts,
    (run rxStep (netInit (fun i => 4096 * (i.val + 1)) fun _ => []) acts).frames ≤ 252 →
      RxOk (run rxStep (netInit (fun i => 4096 * (i.val + 1)) fun _ => []) acts)) ↔ 252 ≤ 252 :=
  rxOk_run_iff pages_injective _ 252

/-- The device keeps the first buffer while 253 frames arrive in others. -/
theorem not_rxOk_run : ¬∀ acts,
    RxOk (run rxStep (netInit (fun i => 4096 * (i.val + 1)) fun _ => []) acts) := fun h =>
  (not_nodup_rounds pages_injective _).2 (h _).once

end FiFi.Virtio
