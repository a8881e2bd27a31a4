import FiFi.Library.KeyedTable
import FiFi.Net.Datagram

/-!
# The ARP cache

Whatever is asked of the cache is compared with all packets that were received. An
entry that is valid holds the last packet from its address, and no address has two:
a store goes to the slot of the address if there is one, and a slot that is taken for
another address forgets the one it had. So a lookup that succeeds gives the latest
answer, and it succeeds only if that is not older than a minute.

Between two calls everything may change but the variables of `arp.c`.
-/

namespace FiFi.Net

open KeyedTable

variable {H : Type*}

/-! ### Calls -/

def arpAnnounce (h : Host H) : Host H := arpSend h arpRequest macBcast zeroMac h.ip.toNat

def arpInit (h : Host H) : Host H :=
  arpAnnounce
    { h with arp := { h.arp with cache := fun i => { h.arp.cache i with valid := false } } }

inductive ArpOp
  | recv (pkt : List UInt8)
  | resolve (ip : UInt32)

/-- A call and the time of it. -/
structure ArpCall where
  ticks : UInt64
  op : ArpOp

def ArpOp.run (h : Host H) : ArpOp → Host H
  | recv pkt => arpRecv h pkt
  | resolve ip => (arpResolve h ip).2

/-- The calls that lead from one host to another. -/
inductive ArpCalls (h : Host H) : List ArpCall → Host H → Prop
  | nil : ArpCalls h [] h
  | snoc {calls : List ArpCall} {k k' : Host H} (hcalls : ArpCalls h calls k)
      (harp : k'.arp = k.arp) (op : ArpOp) : ArpCalls h (calls ++ [⟨k'.ticks, op⟩]) (op.run k')

/-! ### What was heard -/

/-- The packets that `arp_recv` learns from. -/
def accepts (pkt : List UInt8) : Bool :=
  arpPktLen ≤ pkt.length ∧ ntohs pkt 0 = 1 ∧ ntohs pkt 2 = ethProtoIp ∧ byteAt pkt 4 = 6 ∧
    byteAt pkt 5 = 4 ∧ ntohl pkt 14 ≠ 0

/-- What a call lets one know: that an address was at a MAC. -/
def ArpCall.heard (c : ArpCall) : Option ArpEntry :=
  match c.op with
  | .recv pkt =>
      if accepts pkt then some ⟨UInt32.ofNat (ntohl pkt 14), macAt pkt 8, c.ticks, true⟩ else none
  | .resolve _ => none

/-- The last that was heard from an address. -/
def lastHeard (calls : List ArpCall) (ip : UInt32) : Option ArpEntry :=
  ((calls.filterMap ArpCall.heard).filter fun e => e.ip = ip).getLast?

theorem lastHeard_none {c : ArpCall} (h : c.heard = none) (calls : List ArpCall) (ip : UInt32) :
    lastHeard (calls ++ [c]) ip = lastHeard calls ip := by
  simp [lastHeard, List.filterMap_append, h]

theorem lastHeard_some {c : ArpCall} {e : ArpEntry} (h : c.heard = some e) (calls : List ArpCall)
    (ip : UInt32) :
    lastHeard (calls ++ [c]) ip = if e.ip = ip then some e else lastHeard calls ip := by
  unfold lastHeard
  rw [List.filterMap_append, List.filter_append]
  split <;> rename_i hip <;> simp [h, hip]

theorem lastHeard_mem {calls : List ArpCall} {ip : UInt32} {e : ArpEntry}
    (h : lastHeard calls ip = some e) : ∃ c ∈ calls, c.ticks = e.added := by
  obtain ⟨he, -⟩ := List.mem_filter.1 (List.mem_of_getLast? h)
  obtain ⟨c, hc, heard⟩ := List.mem_filterMap.1 he
  refine ⟨c, hc, ?_⟩
  unfold ArpCall.heard at heard
  split at heard
  · split at heard
    · obtain rfl := Option.some.inj heard
      rfl
    · cases heard
  · cases heard

/-! ### The invariant -/

/-- The address of an entry that is valid. -/
def ArpEntry.key (e : ArpEntry) : Option UInt32 := if e.valid then some e.ip else none

theorem ArpEntry.key_eq_some {e : ArpEntry} {ip : UInt32} :
    e.key = some ip ↔ e.valid = true ∧ e.ip = ip := by
  unfold key
  split <;> simp_all

/-- No address has two entries, and each entry holds the last that was heard. -/
structure CacheInv (calls : List ArpCall) (a : Arp) : Prop where
  unique : Unique ArpEntry.key a.cache
  last : ∀ i ip, (a.cache i).key = some ip → lastHeard calls ip = some (a.cache i)

theorem cacheInv_empty {a : Arp} (h : ∀ i, (a.cache i).valid = false) : CacheInv [] a := by
  have hkey : ∀ i, (a.cache i).key = none := fun i => by simp [ArpEntry.key, h i]
  exact ⟨fun i j k hi => (by simp [hkey] at hi), fun i ip hi => (by simp [hkey] at hi)⟩

/-- The slot that a store takes is the only one that may have the address. -/
theorem key_ne_of_storeSlot {a : Arp} (h : Unique ArpEntry.key a.cache) (now : UInt64)
    (ip : UInt32) {j : Fin 16} (hj : j ≠ storeSlot a now ip) : (a.cache j).key ≠ some ip := by
  intro hkey
  have hmatch : ((a.cache j).valid && (a.cache j).ip == ip) = true := by
    obtain ⟨hvalid, hip⟩ := ArpEntry.key_eq_some.1 hkey
    simp [hvalid, hip]
  unfold storeSlot at hj
  cases hfind : (List.finRange 16).find? fun i => (a.cache i).valid && (a.cache i).ip == ip with
  | none => exact List.find?_eq_none.1 hfind j (List.mem_finRange j) hmatch
  | some i =>
      rw [hfind] at hj
      have hi : (a.cache i).key = some ip := by
        have hfound := List.find?_some hfind
        simp only [Bool.and_eq_true, beq_iff_eq] at hfound
        exact ArpEntry.key_eq_some.2 hfound
      exact hj (h j i ip hkey hi)

/-- A store of what was just heard. -/
theorem CacheInv.store {calls : List ArpCall} {a : Arp} (h : CacheInv calls a) {c : ArpCall}
    {e : ArpEntry} (heard : c.heard = some e) (hvalid : e.valid = true) (now : UInt64) :
    CacheInv (calls ++ [c]) (a.set (storeSlot a now e.ip) e) := by
  have hother := fun j hj => key_ne_of_storeSlot h.unique now e.ip (j := j) hj
  have hkey : e.key = some e.ip := ArpEntry.key_eq_some.2 ⟨hvalid, rfl⟩
  refine ⟨h.unique.update_iff.2 fun ip hip j hj => ?_, fun j ip hj => ?_⟩
  · rw [hkey] at hip
    obtain rfl := Option.some.inj hip
    exact hother j hj
  · rw [lastHeard_some heard]
    change (Function.update a.cache _ e j).key = some ip at hj
    change _ = some (Function.update a.cache _ e j)
    by_cases hslot : j = storeSlot a now e.ip
    · subst hslot
      rw [Function.update_self] at hj ⊢
      rw [hkey] at hj
      rw [if_pos (Option.some.inj hj)]
    · rw [Function.update_of_ne hslot] at hj ⊢
      have hne : e.ip ≠ ip := by
        rintro rfl
        exact hother j hslot hj
      rw [if_neg hne, h.last j ip hj]

/-- A slot is emptied, and nothing is heard. -/
theorem CacheInv.invalidate {calls : List ArpCall} {a : Arp} (h : CacheInv calls a)
    (i : Fin 16) : CacheInv calls (a.set i { a.cache i with valid := false }) := by
  have hnone : ({ a.cache i with valid := false } : ArpEntry).key = none := rfl
  refine ⟨h.unique.update_iff.2 fun ip hip => ?_, fun j ip hj => ?_⟩
  · rw [hnone] at hip
    cases hip
  · change (Function.update a.cache i _ j).key = some ip at hj
    change _ = some (Function.update a.cache i _ j)
    by_cases hji : j = i
    · subst hji
      rw [Function.update_self, hnone] at hj
      cases hj
    · rw [Function.update_of_ne hji] at hj ⊢
      exact h.last j ip hj

theorem CacheInv.silent {calls : List ArpCall} {a : Arp} (h : CacheInv calls a) {c : ArpCall}
    (heard : c.heard = none) : CacheInv (calls ++ [c]) a :=
  ⟨h.unique, fun i ip hi => (lastHeard_none heard calls ip).trans (h.last i ip hi)⟩

theorem CacheInv.congr {calls : List ArpCall} {a b : Arp} (h : CacheInv calls a)
    (hcache : b.cache = a.cache) : CacheInv calls b :=
  ⟨hcache ▸ h.unique, hcache ▸ h.last⟩

/-! ### What a call does to the cache -/

@[simp]
theorem arpSend_arp (h : Host H) (oper : Nat) (dstEth tha : Mac) (tpa : Nat) :
    (arpSend h oper dstEth tha tpa).arp = h.arp := by
  unfold arpSend netSendEth nicSend
  split_ifs <;> rfl

@[simp]
theorem arpAsk_cache (h : Host H) (ip : UInt32) : (arpAsk h ip).arp.cache = h.arp.cache := by
  unfold arpAsk
  split_ifs <;> simp

theorem arpRecv_arp (h : Host H) (pkt : List UInt8) : (arpRecv h pkt).arp =
    if accepts pkt then (cacheStore h (UInt32.ofNat (ntohl pkt 14)) (macAt pkt 8)).arp
    else h.arp := by
  by_cases haccept : accepts pkt = true
  · obtain ⟨hlen, htype, hproto, hhlen, hplen, hip⟩ := of_decide_eq_true haccept
    rw [if_pos haccept, arpRecv, if_neg (Nat.not_lt.2 hlen), if_neg (not_not.2 htype),
      if_neg (not_not.2 hproto), if_neg (by simp [hhlen, hplen])]
    dsimp only
    rw [if_pos hip]
    split_ifs <;> simp
  · rw [if_neg haccept]
    unfold arpRecv
    split_ifs with hlen htype hproto hsize
    any_goals rfl
    have hip : ntohl pkt 14 = 0 := by
      by_contra hne
      exact haccept (decide_eq_true ⟨Nat.not_lt.1 hlen, not_not.1 htype, not_not.1 hproto,
        by omega, by omega, hne⟩)
    dsimp only
    rw [if_neg (not_not.2 hip)]
    split_ifs <;> simp

theorem arpRecv_cacheInv {calls : List ArpCall} {h : Host H} (hinv : CacheInv calls h.arp)
    (pkt : List UInt8) : CacheInv (calls ++ [⟨h.ticks, .recv pkt⟩]) (arpRecv h pkt).arp := by
  rw [arpRecv_arp]
  split
  · rename_i haccept
    exact hinv.store (c := ⟨h.ticks, .recv pkt⟩) (if_pos haccept) rfl h.ticks
  · rename_i haccept
    exact hinv.silent (by simp [ArpCall.heard, haccept])

theorem arpResolve_cacheInv {calls : List ArpCall} {h : Host H} (hinv : CacheInv calls h.arp)
    (ip : UInt32) : CacheInv (calls ++ [⟨h.ticks, .resolve ip⟩]) (arpResolve h ip).2.arp := by
  refine CacheInv.silent ?_ rfl
  unfold arpResolve
  split
  · exact hinv.congr (arpAsk_cache h ip)
  · split
    · exact hinv
    · exact (hinv.invalidate _).congr (arpAsk_cache _ ip)

theorem ArpOp.run_cacheInv {calls : List ArpCall} {h : Host H} (hinv : CacheInv calls h.arp)
    (op : ArpOp) : CacheInv (calls ++ [⟨h.ticks, op⟩]) (op.run h).arp := by
  cases op with
  | recv pkt => exact arpRecv_cacheInv hinv pkt
  | resolve ip => exact arpResolve_cacheInv hinv ip

theorem ArpCalls.cacheInv {h h' : Host H} {calls : List ArpCall}
    (hcalls : ArpCalls (arpInit h) calls h') : CacheInv calls h'.arp := by
  induction hcalls with
  | nil => exact cacheInv_empty fun i => by simp [arpInit, arpAnnounce]
  | snoc hcalls harp op ih => exact ArpOp.run_cacheInv (harp ▸ ih) op

/-! ### Answers -/

/-- A lookup that succeeds finds a valid entry that is not too old. -/
theorem arpResolve_eq_some {h : Host H} {ip : UInt32} {mac : Mac}
    (hsome : (arpResolve h ip).1 = some mac) : ∃ i, (h.arp.cache i).key = some ip ∧
      (h.arp.cache i).mac = mac ∧ h.ticks - (h.arp.cache i).added ≤ arpTtlTicks := by
  unfold arpResolve at hsome
  split at hsome
  · cases hsome
  · rename_i i hfind
    have hfound := List.find?_some hfind
    simp only [Bool.and_eq_true, beq_iff_eq] at hfound
    split at hsome
    · rename_i hfresh
      exact ⟨i, ArpEntry.key_eq_some.2 hfound, Option.some.inj hsome, hfresh⟩
    · cases hsome

/-- **Answers are fresh and most recent.** -/
theorem arpResolve_latest {h h' : Host H} {calls : List ArpCall}
    (hcalls : ArpCalls (arpInit h) calls h') :
    (∀ i j, (h'.arp.cache i).valid = true → (h'.arp.cache j).valid = true →
      (h'.arp.cache i).ip = (h'.arp.cache j).ip → i = j) ∧
    ∀ k : Host H, k.arp = h'.arp → (∀ c ∈ calls, c.ticks ≤ k.ticks) →
      ∀ ip mac, (arpResolve k ip).1 = some mac →
        ∃ e, lastHeard calls ip = some e ∧ e.mac = mac ∧ e.added ≤ k.ticks ∧
          k.ticks.toNat ≤ e.added.toNat + 6000 := by
  have hinv := hcalls.cacheInv
  refine ⟨fun i j hi hj hip => ?_, fun k harp hticks ip mac hsome => ?_⟩
  · exact hinv.unique i j _ (ArpEntry.key_eq_some.2 ⟨hi, hip⟩) (ArpEntry.key_eq_some.2 ⟨hj, rfl⟩)
  · obtain ⟨i, hkey, hmac, hfresh⟩ := arpResolve_eq_some hsome
    rw [harp] at hkey hmac hfresh
    have hlast := hinv.last i ip hkey
    obtain ⟨c, hc, hadded⟩ := lastHeard_mem hlast
    have hle := hadded ▸ hticks c hc
    refine ⟨h'.arp.cache i, hlast, hmac, hle, ?_⟩
    have hsub := UInt64.toNat_sub_of_le _ _ hle
    have hle' := UInt64.le_iff_toNat_le.1 hle
    have hfresh' := UInt64.le_iff_toNat_le.1 hfresh
    have httl : arpTtlTicks.toNat = 6000 := rfl
    omega

/-- `10.0.2.2` is at `54:54:54:54:54:54`. -/
def exampleReply : List UInt8 :=
  [0, 1, 8, 0, 6, 4, 0, 2] ++ List.replicate 6 0x54 ++ [10, 0, 2, 2] ++ List.replicate 6 0x52 ++
    [10, 0, 2, 15]

theorem arpResolve_latest_reply :
    ∃ e, lastHeard [⟨500, .recv exampleReply⟩] 0x0A000202 = some e ∧
      e.mac = Vector.replicate 6 0x54 ∧ e.added ≤ 500 ∧
        (500 : UInt64).toNat ≤ e.added.toNat + 6000 :=
  (arpResolve_latest (ArpCalls.snoc .nil rfl (.recv exampleReply))).2
    (arpRecv (arpInit (exampleHost 0x0A00020F)) exampleReply) rfl (by decide) 0x0A000202 _
    (by decide)

end FiFi.Net
