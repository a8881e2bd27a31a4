import FiFi.Virtio.BlkRequest

/-!
# Which answer a call consumes

A call takes the next movement of the used index for the answer to its own request.
That is right as long as every earlier call has consumed its answer. The driver
could see this from its two counters: it has published as many requests as it has
consumed answers. A call that gives up leaves them one apart for good.

As long as every call finds the counters equal, one request is in flight at most,
and it always uses the descriptors 0, 1 and 2. A run is then in one of four phases:
nothing in flight, a chain published, taken by the device, answered.
-/

namespace FiFi.Virtio

open StateMachine

variable {σ : Blk}

/-! ### The claim -/

/-- The free descriptors: those of the free list that no call holds. -/
def freeDescs (σ : Blk) : List Nat :=
  (List.range (vqSize - 3 * σ.held)).map fun k => (fun d => (σ.desc d).next)^[k] σ.freeHead

/-- A call that returns true has consumed the answer to its request, and the data
have moved. The answer was `consumed`, the request `serial`. -/
structure ReturnOk (disk : Nat → UInt8) (r : Returned) : Prop where
  own : r.ok = true → r.consumed = some r.serial
  read : r.ok = true → r.req.type = .read →
    r.out = (List.range r.req.dataLen).map fun i => disk (512 * r.req.sector + i)
  write : r.ok = true → r.req.type = .write →
    ∀ i < r.req.dataLen, disk (512 * r.req.sector + i) = r.req.src i

/-- What is asked of every state: of a return if a call has just returned, and of
the descriptors in flight and the free ones. -/
structure BlkOk (σ : Blk) : Prop where
  returns : ∀ r, σ.returned = some r → ReturnOk σ.disk r
  apart : (σ.inFlight.flatMap Prod.snd ++ freeDescs σ).Nodup

/-- A new call finds that all earlier requests were answered to their callers. -/
def Caught (σ : Blk) : BlkAct → Prop
  | .read _ _ => σ.call = none → σ.availIdx = σ.lastUsed
  | .write _ _ _ => σ.call = none → σ.availIdx = σ.lastUsed
  | _ => True

/-! ### Phases -/

/-- The status of an answered request tells whether the data have moved. -/
def Answer (σ : Blk) (c : Call) : Prop :=
  σ.status = 0 →
    (c.req.type = .read → ∀ i < c.req.dataLen, σ.bounce i = σ.disk (512 * c.req.sector + i)) ∧
    (c.req.type = .write → ∀ i < c.req.dataLen, σ.disk (512 * c.req.sector + i) = c.req.src i)

/-- The chain of the one call, while it polls. -/
structure OwnChain (c : Call) (serial : Nat) : Prop where
  serial_eq : c.serial = serial
  polling : c.polling = true
  dHdr : c.dHdr = 0
  dData : c.dData = 1
  dStatus : c.dStatus = 2

/-- Nothing is in flight. -/
structure Quiet (σ : Blk) : Prop where
  avail : σ.availIdx = σ.lastUsed
  used : σ.usedIdx = σ.lastUsed
  dev : σ.devAvail = σ.lastUsed
  taken : σ.taken = []
  inFlight : σ.inFlight = []
  unseen : σ.unseen = []
  held : σ.held = 0
  freeHead : σ.freeHead = 0
  tail : (σ.desc 2).next = 3
  call : ∀ c, σ.call = some c → c.polling = false ∧ c.consumed = some c.serial ∧ Answer σ c

/-- A request was published and its answer was not consumed. -/
structure Waiting (σ : Blk) (serial : Nat) : Prop where
  avail : σ.availIdx = u16 (σ.lastUsed + 1)
  held : σ.held = 1
  freeHead : σ.freeHead = 3
  call : ∀ c, σ.call = some c → OwnChain c serial

/-- The device has not seen the request. -/
structure Published (σ : Blk) (serial : Nat) : Prop extends Waiting σ serial where
  used : σ.usedIdx = σ.lastUsed
  dev : σ.devAvail = σ.lastUsed
  taken : σ.taken = []
  inFlight : σ.inFlight = [(serial, [0, 1, 2])]
  unseen : σ.unseen = []
  ring : σ.availRing (σ.lastUsed % vqSize) = 0
  ringSerial : σ.availSerial (σ.lastUsed % vqSize) = serial
  sent : ∀ c, σ.call = some c → σ.hdrType = c.req.type ∧ σ.hdrSector = c.req.sector ∧
    (σ.desc 1).len = c.req.dataLen ∧
    (c.req.type = .write → ∀ i < c.req.dataLen, σ.bounce i = c.req.src i)

/-- The device has read the request. -/
structure Taken (σ : Blk) (serial : Nat) : Prop extends Waiting σ serial where
  used : σ.usedIdx = σ.lastUsed
  dev : σ.devAvail = σ.availIdx
  inFlight : σ.inFlight = [(serial, [0, 1, 2])]
  unseen : σ.unseen = []
  taken : ∃ r, σ.taken = [r] ∧ r.serial = serial ∧ ∀ c, σ.call = some c →
    r.type = c.req.type ∧ r.sector = c.req.sector ∧ r.len = c.req.dataLen ∧
    (c.req.type = .write → ∀ i < c.req.dataLen, σ.bounce i = c.req.src i)

/-- The device has answered the request. -/
structure Answered (σ : Blk) (serial : Nat) : Prop extends Waiting σ serial where
  used : σ.usedIdx = σ.availIdx
  dev : σ.devAvail = σ.availIdx
  taken : σ.taken = []
  inFlight : σ.inFlight = []
  unseen : σ.unseen = [serial]
  answer : ∀ c, σ.call = some c → Answer σ c

/-- The states of a run in which every call finds the counters equal. -/
structure BlkInv (σ : Blk) : Prop where
  last : σ.lastUsed < 2 ^ 16
  links : ∀ d < 255, d ≠ 2 → (σ.desc d).next = d + 1
  phase : Quiet σ ∨ ∃ serial, Published σ serial ∨ Taken σ serial ∨ Answered σ serial

/-! ### The free list -/

theorem iterate_links {desc : Nat → Desc} {a : Nat}
    (hlinks : ∀ d, a ≤ d → d < 255 → (desc d).next = d + 1) {k : Nat} (hk : a + k ≤ 255) :
    (fun d => (desc d).next)^[k] a = a + k := by
  induction k with
  | zero => rfl
  | succ k ih =>
      rw [Function.iterate_succ_apply', ih (by omega), hlinks _ (by omega) (by omega)]
      rfl

theorem freeDescs_eq {a : Nat} (hlinks : ∀ d, a ≤ d → d < 255 → (σ.desc d).next = d + 1)
    (hhead : σ.freeHead = a) (hheld : a = 3 * σ.held) (ha : a ≤ vqSize) :
    freeDescs σ = List.range' a (vqSize - a) := by
  rw [freeDescs, hhead, ← hheld, List.range'_eq_map_range]
  refine List.map_congr_left fun k hk => ?_
  have hlt := List.mem_range.1 hk
  unfold vqSize at hlt ha
  exact iterate_links hlinks (by omega)

theorem BlkInv.freeDescs_quiet (h : BlkInv σ) (hq : Quiet σ) :
    freeDescs σ = List.range' 0 vqSize := by
  refine freeDescs_eq (fun d _ hd => ?_) hq.freeHead (by rw [hq.held]) (Nat.zero_le _)
  by_cases h2 : d = 2
  · rw [h2, hq.tail]
  · exact h.links d hd h2

theorem BlkInv.freeDescs_waiting (h : BlkInv σ) {serial : Nat} (hw : Waiting σ serial) :
    freeDescs σ = List.range' 3 (vqSize - 3) :=
  freeDescs_eq (fun d h3 hd => h.links d hd (by omega)) hw.freeHead (by rw [hw.held]) (by decide)

theorem BlkInv.apart (h : BlkInv σ) : (σ.inFlight.flatMap Prod.snd ++ freeDescs σ).Nodup := by
  obtain hq | ⟨serial, hp | ht | ha⟩ := h.phase
  · rw [h.freeDescs_quiet hq, hq.inFlight]
    exact List.nodup_range'
  · rw [h.freeDescs_waiting hp.toWaiting, hp.inFlight]
    exact List.nodup_range' (s := 0) (n := vqSize)
  · rw [h.freeDescs_waiting ht.toWaiting, ht.inFlight]
    exact List.nodup_range' (s := 0) (n := vqSize)
  · rw [h.freeDescs_waiting ha.toWaiting, ha.inFlight]
    exact List.nodup_range'

/-! ### Steps of the driver -/

theorem u16_succ_ne {n : Nat} (hn : n < 2 ^ 16) : u16 (n + 1) ≠ n := by
  unfold u16
  omega

theorem BlkInv.setReturned (h : BlkInv σ) (r : Option Returned) :
    BlkInv { σ with returned := r } := by
  refine ⟨h.last, h.links, ?_⟩
  obtain hq | ⟨serial, hp | ht | ha⟩ := h.phase
  · exact .inl { hq with }
  · exact .inr ⟨serial, .inl { hp with }⟩
  · exact .inr ⟨serial, .inr (.inl { ht with })⟩
  · exact .inr ⟨serial, .inr (.inr { ha with })⟩

theorem BlkInv.quiet_of_avail (h : BlkInv σ) (havail : σ.availIdx = σ.lastUsed) : Quiet σ := by
  obtain hq | ⟨serial, hp | ht | ha⟩ := h.phase
  · exact hq
  · exact absurd (hp.avail.symm.trans havail) (u16_succ_ne h.last)
  · exact absurd (ht.avail.symm.trans havail) (u16_succ_ne h.last)
  · exact absurd (ha.avail.symm.trans havail) (u16_succ_ne h.last)

/-- The state after `vq_do_request` has notified a device that had nothing to do. -/
theorem Quiet.published (hq : Quiet σ) (h0 : (σ.desc 0).next = 1) (h1 : (σ.desc 1).next = 2)
    (r : BlkReq) :
    Published (publish (fillChain (fillPages σ r) r).2 (fillChain (fillPages σ r) r).1)
      σ.serials where
  avail := by
    simp only [publish, fillChain, fillPages, hq.avail]
  held := by
    simp only [publish, fillChain, fillPages, hq.held]
  freeHead := by
    simp only [publish, fillChain, fillPages, hq.freeHead, h0, h1, hq.tail]
  call := by
    simp only [publish, fillChain, fillPages, hq.freeHead, h0, h1, Option.some.injEq]
    rintro c rfl
    exact ⟨rfl, rfl, rfl, rfl, rfl⟩
  used := hq.used
  dev := hq.dev
  taken := hq.taken
  inFlight := by
    simp only [publish, fillChain, fillPages, hq.freeHead, h0, h1, hq.inFlight, List.nil_append]
  unseen := hq.unseen
  ring := by
    simp only [publish, fillChain, fillPages, hq.avail, Function.update_self, hq.freeHead]
  ringSerial := by
    simp only [publish, fillChain, fillPages, hq.avail, Function.update_self]
  sent := by
    simp only [publish, fillChain, fillPages, hq.freeHead, h0, h1, Option.some.injEq]
    rintro c rfl
    refine ⟨rfl, rfl, ?_, fun hwrite i hi => ?_⟩
    · rw [Function.update_of_ne (by decide), Function.update_self]
    · simp only at hwrite hi
      simp only [hwrite, if_pos hi]

theorem BlkInv.submit (h : BlkInv σ) (hq : Quiet σ) (r : BlkReq) : BlkInv (submit σ r) := by
  have h0 : (σ.desc 0).next = 1 := h.links 0 (by decide) (by decide)
  have h1 : (σ.desc 1).next = 2 := h.links 1 (by decide) (by decide)
  unfold Virtio.submit
  by_cases hok : σ.present = true ∧ r.Valid
  · rw [if_pos hok]
    refine ⟨h.last, fun d hd h2 => ?_, .inr ⟨σ.serials, .inl (hq.published h0 h1 r)⟩⟩
    simp only [fillChain, fillPages, publish, hq.freeHead, h0, h1]
    rw [Function.update_of_ne h2]
    by_cases hd1 : d = 1
    · rw [hd1, Function.update_self]
    · rw [Function.update_of_ne hd1]
      by_cases hd0 : d = 0
      · rw [hd0, Function.update_self]
      · rw [Function.update_of_ne hd0]
        exact h.links d hd h2
  · rw [if_neg hok]
    exact h.setReturned _

/-- A call that finds the used index moved finds its own answer. -/
theorem BlkInv.consume (h : BlkInv σ) {c : Call} (hc : σ.call = some c)
    (hmoved : σ.usedIdx ≠ σ.lastUsed) : BlkInv (consume σ c) := by
  obtain hq | ⟨serial, hp | ht | ha⟩ := h.phase
  · exact absurd hq.used hmoved
  · exact absurd hp.used hmoved
  · exact absurd ht.used hmoved
  · obtain ⟨hserial, -, hhdr, -, hstatus⟩ := ha.call c hc
    refine ⟨Nat.mod_lt _ (by norm_num), fun d hd h2 => ?_, .inl ?_⟩
    · simp only [Virtio.consume, hstatus]
      rw [Function.update_of_ne h2]
      exact h.links d hd h2
    · exact
        { avail := ha.avail
          used := ha.used.trans ha.avail
          dev := ha.dev.trans ha.avail
          taken := ha.taken
          inFlight := ha.inFlight
          unseen := by simp only [Virtio.consume, ha.unseen, List.tail_cons]
          held := by simp only [Virtio.consume, ha.held]
          freeHead := hhdr
          tail := by
            simp only [Virtio.consume, hstatus, Function.update_self]
            exact ha.freeHead
          call := by
            simp only [Virtio.consume, ha.unseen, Option.some.injEq]
            rintro c' rfl
            exact ⟨rfl, by simp [hserial], ha.answer c hc⟩ }

theorem BlkInv.giveUp (h : BlkInv σ) {c : Call} (hc : σ.call = some c)
    (hpoll : c.polling = true) : BlkInv (giveUp σ c) := by
  refine ⟨h.last, h.links, ?_⟩
  obtain hq | ⟨serial, hp | ht | ha⟩ := h.phase
  · have hnot := (hq.call c hc).1
    simp [hpoll] at hnot
  · exact .inr ⟨serial, .inl { hp with call := nofun, sent := nofun }⟩
  · obtain ⟨r, hr, hserial, -⟩ := ht.taken
    exact .inr ⟨serial, .inr (.inl { ht with call := nofun, taken := ⟨r, hr, hserial, nofun⟩ })⟩
  · exact .inr ⟨serial, .inr (.inr { ha with call := nofun, answer := nofun })⟩

/-- A call returns in a phase in which nothing is in flight. -/
theorem BlkInv.finish (h : BlkInv σ) {c : Call} (hc : σ.call = some c)
    (hpoll : ¬c.polling = true) : BlkInv (finish σ c) ∧
      ∀ r, (finish σ c).returned = some r → ReturnOk (finish σ c).disk r := by
  obtain hq | ⟨serial, hp | ht | ha⟩ := h.phase
  · obtain ⟨-, hown, hanswer⟩ := hq.call c hc
    refine ⟨⟨h.last, h.links, .inl { hq with call := by simp [Virtio.finish] }⟩, ?_⟩
    simp only [Virtio.finish, Option.some.injEq]
    rintro r rfl
    by_cases hok : σ.status = 0
    · obtain ⟨hread, hwrite⟩ := hanswer hok
      simp only [if_pos hok]
      refine ⟨fun _ => hown, fun _ htype => ?_, fun _ htype => hwrite htype⟩
      simp only at htype
      simp only [htype]
      exact List.map_congr_left fun i hi => hread htype i (List.mem_range.1 hi)
    · simp only [if_neg hok]
      exact ⟨nofun, nofun, nofun⟩
  · exact absurd (hp.call c hc).polling hpoll
  · exact absurd (ht.call c hc).polling hpoll
  · exact absurd (ha.call c hc).polling hpoll

/-! ### Steps of the device -/

theorem BlkInv.fetch (h : BlkInv σ) : BlkInv (fetch σ) := by
  unfold Virtio.fetch
  by_cases hchain : σ.devAvail ≠ σ.availIdx ∧
      (σ.desc (σ.availRing (σ.devAvail % vqSize))).addr = σ.reqPhys ∧
      (σ.desc (σ.desc (σ.availRing (σ.devAvail % vqSize))).next).addr = σ.dataPhys ∧
      (σ.desc (σ.desc (σ.desc (σ.availRing (σ.devAvail % vqSize))).next).next).addr =
        σ.reqPhys + reqHdrSz
  · rw [if_pos hchain]
    obtain hq | ⟨serial, hp | ht | ha⟩ := h.phase
    · exact absurd (hq.dev.trans hq.avail.symm) hchain.1
    · refine ⟨h.last, h.links, .inr ⟨serial, .inr (.inl ?_)⟩⟩
      have h0 : (σ.desc 0).next = 1 := h.links 0 (by decide) (by decide)
      exact
        { avail := hp.avail
          held := hp.held
          freeHead := hp.freeHead
          call := hp.call
          used := hp.used
          dev := by simp only [hp.dev, hp.avail]
          inFlight := hp.inFlight
          unseen := hp.unseen
          taken := by
            simp only [hp.taken, hp.dev, hp.ring, hp.ringSerial, h0, List.nil_append]
            refine ⟨_, rfl, rfl, fun c hc => ?_⟩
            obtain ⟨htype, hsector, hlen, hwrite⟩ := hp.sent c hc
            exact ⟨htype, hsector, hlen, hwrite⟩ }
    · exact absurd ht.dev hchain.1
    · exact absurd ha.dev hchain.1
  · rw [if_neg hchain]
    exact h

/-- What the device leaves alone when it moves data or reports an error. -/
theorem transfer_frame (σ : Blk) (r : DevReq) : ∃ status bounce disk,
    transfer σ r = { σ with status := status, bounce := bounce, disk := disk } := by
  unfold transfer
  cases r.type with
  | read => exact ⟨0, _, σ.disk, rfl⟩
  | write => exact ⟨0, σ.bounce, _, rfl⟩

theorem transfer_answer {r : DevReq} {c : Call} (htype : r.type = c.req.type)
    (hsector : r.sector = c.req.sector) (hlen : r.len = c.req.dataLen)
    (hwrite : c.req.type = .write → ∀ i < c.req.dataLen, σ.bounce i = c.req.src i) :
    Answer (transfer σ r) c := by
  intro _
  refine ⟨fun hr i hi => ?_, fun hw i hi => ?_⟩
  · simp only [transfer, htype, hr, hsector, hlen, if_pos hi]
  · have hin : 512 * c.req.sector ≤ 512 * c.req.sector + i ∧
        512 * c.req.sector + i < 512 * c.req.sector + c.req.dataLen := by omega
    simp only [transfer, htype, hw, hsector, hlen, if_pos hin, Nat.add_sub_cancel_left]
    exact hwrite hw i hi

theorem complete_cons {r : DevReq} {rest : List DevReq} (h : σ.taken = r :: rest) {ok : Bool} :
    complete σ ok = moveUsed (if ok then transfer σ r else { σ with status := 1 }) r := by
  unfold complete
  split
  · next hnil => simp [hnil] at h
  · next r' rest' hcons =>
      rw [h] at hcons
      obtain rfl := (List.cons.inj hcons).1
      rfl

theorem BlkInv.complete (h : BlkInv σ) (ok : Bool) : BlkInv (complete σ ok) := by
  have hnone : σ.taken = [] → BlkInv (Virtio.complete σ ok) := by
    intro htaken
    simpa only [Virtio.complete, htaken] using h
  obtain hq | ⟨serial, hp | ht | ha⟩ := h.phase
  · exact hnone hq.taken
  · exact hnone hp.taken
  · obtain ⟨r, htaken, hserial, hcall⟩ := ht.taken
    obtain ⟨status, bounce, disk, hframe, hanswer⟩ : ∃ status bounce disk,
        (if ok then transfer σ r else { σ with status := 1 }) =
          { σ with status := status, bounce := bounce, disk := disk } ∧
        ∀ c, σ.call = some c →
          Answer { σ with status := status, bounce := bounce, disk := disk } c := by
      cases ok with
      | false => exact ⟨1, σ.bounce, σ.disk, rfl, fun c _ => nofun⟩
      | true =>
          obtain ⟨status, bounce, disk, hframe⟩ := transfer_frame σ r
          refine ⟨status, bounce, disk, hframe, fun c hc => ?_⟩
          obtain ⟨htype, hsector, hlen, hwrite⟩ := hcall c hc
          exact hframe ▸ transfer_answer htype hsector hlen hwrite
    rw [complete_cons htaken, hframe]
    refine ⟨h.last, h.links, .inr ⟨serial, .inr (.inr ?_)⟩⟩
    exact
      { avail := ht.avail
        held := ht.held
        freeHead := ht.freeHead
        call := ht.call
        used := by simp only [moveUsed, ht.used, ht.avail]
        dev := ht.dev
        taken := by simp [moveUsed, htaken]
        inFlight := by simp [moveUsed, ht.inFlight, hserial]
        unseen := by simp [moveUsed, ht.unseen, hserial]
        answer := hanswer }
  · exact hnone ha.taken

/-! ### Runs -/

theorem submit_returned (hnone : σ.returned = none) (r : BlkReq) :
    ∀ ret, (submit σ r).returned = some ret → ReturnOk (submit σ r).disk ret := by
  unfold submit
  by_cases hok : σ.present = true ∧ r.Valid
  · rw [if_pos hok]
    intro ret hret
    exact absurd (hnone.symm.trans hret) nofun
  · rw [if_neg hok]
    simp only [Option.some.injEq]
    rintro ret rfl
    exact ⟨nofun, nofun, nofun⟩

theorem fetch_returned (σ : Blk) : (fetch σ).returned = σ.returned := by
  simp only [fetch]
  split <;> rfl

theorem complete_returned (σ : Blk) (ok : Bool) : (complete σ ok).returned = σ.returned := by
  cases htaken : σ.taken with
  | nil => simp only [complete, htaken]
  | cons r rest =>
      rw [complete_cons htaken]
      cases ok with
      | false => rfl
      | true =>
          obtain ⟨status, bounce, disk, hframe⟩ := transfer_frame σ r
          rw [if_pos rfl, hframe]
          rfl

/-- The returns of a step are right. -/
def ReturnsOk (σ : Blk) : Prop :=
  ∀ r, σ.returned = some r → ReturnOk σ.disk r

theorem returnsOk_of_none (h : σ.returned = none) : ReturnsOk σ := by
  intro r hr
  rw [h] at hr
  cases hr

theorem BlkInv.act (h : BlkInv σ) (hnone : σ.returned = none) {a : BlkAct}
    (hcaught : Caught σ a) : BlkInv (act σ a) ∧ ReturnsOk (act σ a) := by
  have hsame : BlkInv σ ∧ ReturnsOk σ := ⟨h, returnsOk_of_none hnone⟩
  cases a with
  | read sector count =>
      unfold Virtio.act
      cases hc : σ.call with
      | none =>
          have hq := h.quiet_of_avail (hcaught hc)
          exact ⟨h.submit hq _, submit_returned hnone _⟩
      | some c => exact hsame
  | write sector buf count =>
      unfold Virtio.act
      cases hc : σ.call with
      | none =>
          have hq := h.quiet_of_avail (hcaught hc)
          exact ⟨h.submit hq _, submit_returned hnone _⟩
      | some c => exact hsame
  | poll =>
      unfold Virtio.act
      cases hc : σ.call with
      | none => exact hsame
      | some c =>
          by_cases hmoved : c.polling = true ∧ σ.usedIdx ≠ σ.lastUsed
          · simp only [if_pos hmoved]
            exact ⟨h.consume hc hmoved.2, returnsOk_of_none hnone⟩
          · simp only [if_neg hmoved]
            exact hsame
  | giveUp =>
      unfold Virtio.act
      cases hc : σ.call with
      | none => exact hsame
      | some c =>
          by_cases hlate : c.polling = true ∧ σ.usedIdx = σ.lastUsed
          · simp only [if_pos hlate]
            refine ⟨h.giveUp hc hlate.1, ?_⟩
            rintro r ⟨⟩
            exact ⟨nofun, nofun, nofun⟩
          · simp only [if_neg hlate]
            exact hsame
  | finish =>
      unfold Virtio.act
      cases hc : σ.call with
      | none => exact hsame
      | some c =>
          by_cases hpoll : c.polling = true
          · simp only [if_pos hpoll]
            exact hsame
          · simp only [if_neg hpoll]
            exact h.finish hc hpoll
  | fetch => exact ⟨h.fetch, returnsOk_of_none ((fetch_returned σ).trans hnone)⟩
  | complete ok => exact ⟨h.complete ok, returnsOk_of_none ((complete_returned σ ok).trans hnone)⟩

theorem blkInv_blkInit (reqPhys dataPhys : Nat) (disk : Nat → UInt8) :
    BlkInv (blkInit reqPhys dataPhys disk) where
  last := show 0 < 2 ^ 16 by decide
  links := by
    intro d hd _
    simp only [blkInit]
    rw [freeChain, if_pos (show d < vqSize - 1 from hd)]
  phase := .inl ⟨rfl, rfl, rfl, rfl, rfl, rfl, rfl, rfl, rfl, nofun⟩

/-- If every call of a run finds the counters equal, every state of the run is
right. -/
theorem blkOk_run {reqPhys dataPhys : Nat} {disk : Nat → UInt8} {acts : List BlkAct}
    (hcaught : AllSteps blkStep Caught (blkInit reqPhys dataPhys disk) acts) :
    BlkOk (run blkStep (blkInit reqPhys dataPhys disk) acts) := by
  have hinit : BlkInv (blkInit reqPhys dataPhys disk) ∧ ReturnsOk (blkInit reqPhys dataPhys disk) :=
    ⟨blkInv_blkInit reqPhys dataPhys disk, nofun⟩
  obtain ⟨hinv, hreturns⟩ := inv_run (fun σ => BlkInv σ ∧ ReturnsOk σ)
    (fun σ a hσ ha => (hσ.1.setReturned none).act rfl (by cases a <;> exact ha)) hinit hcaught
  exact ⟨hreturns, hinv.apart⟩

/-- A disk whose first two sectors differ. -/
def twoSectors (a : Nat) : UInt8 :=
  if a < 512 then 1 else 2

/-- A read of sector 0 that the device answers while the driver waits. -/
def inTime : List BlkAct :=
  [.read 0 1, .fetch, .complete true, .poll, .finish]

/-- A read of sector 0 that the driver gives up, and a read of sector 1. The device
answers the first when the second has been published. -/
def tooLate : List BlkAct :=
  [.read 0 1, .fetch, .giveUp, .read 1 1, .complete true, .poll, .finish]

theorem blkOk_run_inTime :
    AllSteps blkStep Caught (blkInit 4096 8192 twoSectors) inTime ∧
      (run blkStep (blkInit 4096 8192 twoSectors) inTime).returned.map (·.ok) = some true ∧
      BlkOk (run blkStep (blkInit 4096 8192 twoSectors) inTime) := by
  have hcaught : AllSteps blkStep Caught (blkInit 4096 8192 twoSectors) inTime :=
    ⟨fun _ => rfl, trivial, trivial, trivial, trivial, trivial⟩
  exact ⟨hcaught, by decide, blkOk_run hcaught⟩

theorem not_blkOk_tooLate : ¬∀ acts, BlkOk (run blkStep (blkInit 4096 8192 twoSectors) acts) := by
  intro h
  have hreturned : (run blkStep (blkInit 4096 8192 twoSectors) tooLate).returned.map
      (fun r => (r.ok, r.consumed, r.serial, r.out.head?)) = some (true, some 0, 1, some 1) := by
    decide +kernel
  obtain ⟨r, hr, hfields⟩ := Option.map_eq_some_iff.1 hreturned
  simp only [Prod.mk.injEq] at hfields
  have hown := ((h tooLate).returns r hr).own hfields.1
  rw [hfields.2.1, hfields.2.2.1] at hown
  cases hown

end FiFi.Virtio
