import FiFi.Exec.Image

/-!
# The steps of the loader

One rule for each step of `exec_load`: if the step ends without a jump to `fail`
and without a fault, the machine shows the image the step describes, and the
addresses it used were addresses of the lower half. A step that only stores to
mapped addresses does end; mapping pages can always fail.
-/

namespace FiFi.Exec

open Pmm Vmm Syscall ExceptState

/-- A step from the image `a`. If it ends, `p` holds and the image is `b`; if `q`
holds, it ends. -/
def Leads (D : Domain) (R : Set Nat) (a : Image) (m : ExecM Unit) (p : Prop) (b : Image)
    (q : Prop) : Prop :=
  Triple (Sees D R a) m (fun _ st => p ∧ Sees D R b st) fun _ _ => ¬ q

variable {D : Domain} {R : Set Nat} {a b c : Image} {p p' q q' : Prop}

theorem Leads.seq {m m' : ExecM Unit} (h : Leads D R a m p b q)
    (h' : p → Leads D R b m' p' c q) : Leads D R a (m >>= fun _ => m') (p ∧ p') c q := by
  refine Triple.bind h fun _ => Triple.assume fun hp => ?_
  exact (h' hp).post fun _ _ hs => ⟨⟨hp, hs.1⟩, hs.2⟩

theorem Leads.mono {m : ExecM Unit} (h : Leads D R a m p b q) (hp : p → p') (hq : q' → q) :
    Leads D R a m p' b q' :=
  h.conseq (fun _ hs => hs) (fun _ _ hs => ⟨hp hs.1, hs.2⟩) fun _ _ hn hq' => hn (hq hq')

/-- Only what holds if the step ends. -/
theorem Leads.ended {m : ExecM Unit} (h : Leads D R a m p b q) :
    Triple (Sees D R a) m (fun _ st => p ∧ Sees D R b st) fun _ _ => True :=
  h.except fun _ _ _ => trivial

/-- A loop whose `n`-th state shows the image `f n`. -/
theorem Leads.loop {body : Nat → ExecM Unit} {f : Nat → Image} {p : Nat → Prop} (n : Nat)
    (h0 : f 0 = a)
    (hstep : ∀ k < n, (∀ j < k, p j) → Leads D R (f k) (body k) (p k) (f (k + 1)) q) :
    Leads D R a (execLoop body n) (∀ k < n, p k) (f n) q := by
  subst h0
  induction n with
  | zero => exact Triple.pure fun st hs => ⟨fun k hk => absurd hk (by omega), hs⟩
  | succ n ih =>
      have hseq := (ih fun k hk => hstep k (by omega)).seq (hstep n (by omega))
      refine hseq.mono (fun hp k hk => ?_) id
      rcases Nat.lt_succ_iff_lt_or_eq.1 hk with hlt | rfl
      · exact hp.1 k hlt
      · exact hp.2

/-! ### Stores -/

theorem byte_setByte (w i j : Nat) (b : UInt8) :
    UInt8.ofNat (setByte w i b / 256 ^ j) = if j = i then b else UInt8.ofNat (w / 256 ^ j) := by
  have hb : b.toNat < 256 := b.toNat_lt
  have hlow : w % 256 ^ i < 256 ^ i := Nat.mod_lt _ (by positivity)
  have hpow : 256 ^ (i + 1) = 256 * 256 ^ i := by rw [Nat.pow_succ, Nat.mul_comm]
  rcases Nat.lt_trichotomy j i with hlt | rfl | hgt
  · -- below the byte: the words agree modulo a higher power
    rw [if_neg (by omega)]
    obtain ⟨d, rfl⟩ := Nat.exists_eq_add_of_lt hlt
    have hdvd : 256 ^ j * 256 ∣ 256 ^ (j + d + 1) := by
      rw [← Nat.pow_succ]
      exact Nat.pow_dvd_pow 256 (by omega)
    have hmod : setByte w (j + d + 1) b % (256 ^ j * 256) = w % (256 ^ j * 256) := by
      have hfull : setByte w (j + d + 1) b % 256 ^ (j + d + 1) = w % 256 ^ (j + d + 1) := by
        rw [setByte, hpow, Nat.mul_left_comm, ← Nat.mul_assoc, ← Nat.add_mul, Nat.add_comm,
          Nat.add_mul_mod_self_right, Nat.mod_mod]
      rw [← Nat.mod_mod_of_dvd _ hdvd, hfull, Nat.mod_mod_of_dvd _ hdvd]
    apply UInt8.toNat_inj.1
    rw [UInt8.toNat_ofNat', UInt8.toNat_ofNat']
    change setByte w (j + d + 1) b / 256 ^ j % 256 = w / 256 ^ j % 256
    rw [← Nat.mod_mul_right_div_self, hmod, Nat.mod_mul_right_div_self]
  · rw [if_pos rfl]
    apply UInt8.toNat_inj.1
    rw [UInt8.toNat_ofNat', setByte, hpow]
    have hsum : w / (256 * 256 ^ j) * (256 * 256 ^ j) + b.toNat * 256 ^ j + w % 256 ^ j =
        256 ^ j * (256 * (w / (256 * 256 ^ j)) + b.toNat) + w % 256 ^ j := by ring
    rw [hsum, Nat.mul_add_div (by positivity), Nat.div_eq_of_lt hlow, Nat.add_zero]
    change (256 * _ + b.toNat) % 256 = _
    rw [Nat.mul_add_mod, Nat.mod_eq_of_lt hb]
  · rw [if_neg (by omega)]
    obtain ⟨d, rfl⟩ := Nat.exists_eq_add_of_lt hgt
    have hsplit : 256 ^ (i + d + 1) = 256 ^ (i + 1) * 256 ^ d := by
      rw [← Nat.pow_add]
      congr 1
      omega
    have hrest : b.toNat * 256 ^ i + w % 256 ^ i < 256 ^ (i + 1) := by
      rw [hpow]
      calc b.toNat * 256 ^ i + w % 256 ^ i < b.toNat * 256 ^ i + 256 ^ i := by omega
        _ = (b.toNat + 1) * 256 ^ i := by ring
        _ ≤ 256 * 256 ^ i := Nat.mul_le_mul_right _ (by omega)
    have hhigh : setByte w i b / 256 ^ (i + 1) = w / 256 ^ (i + 1) := by
      rw [setByte, Nat.add_assoc, Nat.mul_comm, Nat.mul_add_div (by positivity),
        Nat.div_eq_of_lt hrest, Nat.add_zero]
    rw [hsplit, ← Nat.div_div_eq_div_mul, hhigh, Nat.div_div_eq_div_mul]

/-- A page after a store of one byte to its frame. -/
theorem pageOf_setByte (mem : Nat → Nat) (e : Nat) {o : Nat} (ho : o < pageSize) (b : UInt8) :
    pageOf (Function.update mem ((ptePage e + o) / 8 * 8)
        (setByte (mem ((ptePage e + o) / 8 * 8)) ((ptePage e + o) % 8) b)) e =
      { pageOf mem e with byte := Function.update (pageOf mem e).byte o b } := by
  simp only [pageOf, Page.mk.injEq, true_and]
  funext i
  by_cases hi : i = o
  · subst hi
    rw [Function.update_self, if_pos ho, physByte, Function.update_self, byte_setByte, if_pos rfl]
  · rw [Function.update_of_ne hi]
    by_cases hlt : i < pageSize
    · rw [if_pos hlt, if_pos hlt, physByte, physByte]
      by_cases hw : (ptePage e + i) / 8 * 8 = (ptePage e + o) / 8 * 8
      · rw [hw, Function.update_self, byte_setByte, if_neg (by omega)]
      · rw [Function.update_of_ne hw]
    · rw [if_neg hlt, if_neg hlt]

theorem eval_storeByte (va : Nat) (b : UInt8) (st : ExecState) :
    eval (storeByte va b) st =
      if !canonical va || vmmTranslate st.vmm va = 0 then (.error .fault, st)
      else
        (.ok (), { st with
          vmm := st.vmm.withMem (Function.update st.vmm.mem (vmmTranslate st.vmm va / 8 * 8)
            (setByte (st.vmm.mem (vmmTranslate st.vmm va / 8 * 8)) (vmmTranslate st.vmm va % 8) b))
          }) := by
  unfold storeByte
  rw [eval_bind]
  change eval (if _ then _ else _) st = _
  split <;> rfl

/-- A store ends exactly at the mapped addresses of the lower half. -/
theorem storeByte_leads {va : Nat} (hva : va ≤ 2 ^ 47) (b : UInt8) :
    Leads D R a (storeByte va b) (a.Mapped va ∧ va < 2 ^ 47) (a.store va (fun _ => b) 1)
      (a.Mapped va ∧ va < 2 ^ 47) := by
  intro st hs
  rw [eval_storeByte]
  by_cases hlow : va < 2 ^ 47
  · rcases hs.running.translate hlow with ⟨hnone, hzero⟩ | ⟨e, he, hpg, htr, hne⟩
    · rw [if_pos (by simp [hzero])]
      rintro ⟨hmap, -⟩
      rw [Image.Mapped, ← hs.pages, hnone] at hmap
      cases hmap
    · have ho : va % pageSize < pageSize := Nat.mod_lt _ (by decide)
      rw [if_neg (by simp [canonical, hlow, htr]; omega), htr]
      obtain ⟨hrun, hspace⟩ := hs.running.writeFrame hlow he fun w hw => update_frame ho hw
      refine ⟨⟨?_, hlow⟩, hrun, ?_, hs.brk, hs.ctx, hs.own⟩
      · rw [Image.Mapped, ← hs.pages, hpg]
        rfl
      · rw [hspace, pageOf_setByte _ _ ho, hs.pages]
        rw [hs.pages] at hpg
        funext k
        by_cases hk : k = va / pageSize
        · subst hk
          rw [Function.update_self, Image.store]
          dsimp only
          rw [hpg, Option.map_some]
          congr 2
          funext o
          by_cases heq : o = va % pageSize
          · subst heq
            rw [Function.update_self, if_pos ⟨ho, by simp only [pageSize]; omega⟩]
          · rw [Function.update_of_ne heq, if_neg]
            simp only [pageSize] at *
            omega
        · rw [Function.update_of_ne hk, Image.store]
          dsimp only
          have hid : ∀ pg : Page, (⟨pg.flags, fun o =>
              if o < pageSize ∧ va ≤ k * pageSize + o ∧ k * pageSize + o < va + 1 then b
              else pg.byte o⟩ : Page) = pg := by
            intro pg
            congr 1
            funext o
            rw [if_neg]
            simp only [pageSize] at *
            omega
          simp only [hid, Option.map_id']
  · rw [if_pos]
    · exact fun hq => hlow hq.2
    · simp only [canonical]
      simp
      omega

/-- A loop of stores to consecutive addresses. Where there is no byte to store,
the loop faults. -/
theorem storeLoop_leads {va n : Nat} (hva : va ≤ 2 ^ 47) {body : Nat → ExecM Unit}
    {f : Nat → Option UInt8} (hbody : ∀ i < n, body i =
      match f i with
      | some b => storeByte (u64 (va + i)) b
      | none => throw .fault) :
    Leads D R a (execLoop body n)
      (∀ i < n, (f i).isSome ∧ a.Mapped (va + i) ∧ va + i < 2 ^ 47)
      (a.store va (fun i => (f i).getD 0) n)
      (∀ i < n, (f i).isSome ∧ a.Mapped (va + i) ∧ va + i < 2 ^ 47) := by
  refine Leads.loop (f := fun k => a.store va (fun i => (f i).getD 0) k) n (a.store_zero va _)
    fun k hk hbefore => ?_
  have hle : va + k ≤ 2 ^ 47 := by
    rcases Nat.eq_zero_or_pos k with rfl | hpos
    · exact hva
    · have := (hbefore (k - 1) (by omega)).2.2
      omega
  have hu : u64 (va + k) = va + k := by
    rw [u64]
    omega
  rw [hbody k hk, hu, ← a.store_succ]
  cases hf : f k with
  | none =>
      refine Triple.throw fun _ _ hall => ?_
      have := (hall k hk).1
      rw [hf] at this
      cases this
  | some b =>
      refine (storeByte_leads hle b).mono (fun h => ⟨rfl, Image.store_mapped.1 h.1, h.2⟩)
        fun hall => ⟨Image.store_mapped.2 (hall k hk).2.1, (hall k hk).2.2⟩

/-! ### Pages -/

theorem Leads.of_ok {m : ExecM Unit}
    (h : ∀ st st', Sees D R a st → eval m st = (.ok (), st') → p ∧ Sees D R b st') :
    Leads D R a m p b False := by
  intro st hs
  rcases heval : eval m st with ⟨_ | _, st'⟩
  · exact not_false
  · exact h st st' hs heval

theorem eval_onVmm {α : Type} (f : VmmState → α × VmmState) (st : ExecState) :
    eval (onVmm f) st = (.ok (f st.vmm).1, { st with vmm := (f st.vmm).2 }) := rfl

/-- A turn of `map_user_pages` that ends has mapped a fresh page. -/
theorem mapUserPage_ok {start v flags : Nat} {st st' : ExecState}
    (h : eval (mapUserPage start v flags) st = (.ok (), st')) :
    canonical v ∧ st' = { st with vmm := st'.vmm } ∧
      Syscall.mapZeroed (vmmUnmapPageAndFree st.vmm v).2 v flags = (true, st'.vmm) := by
  unfold mapUserPage at h
  simp only [eval_bind, eval_onVmm] at h
  unfold Syscall.mapZeroed
  dsimp only
  generalize vmmUnmapPageAndFree st.vmm v = u at h ⊢
  generalize allocPage u.2 = r at h ⊢
  split at h
  · cases h
  · next hr =>
      simp only [eval_bind, eval_onVmm] at h
      generalize vmmMapPage r.2 v r.1 flags = m at h ⊢
      split at h
      · cases h
      · next hm =>
          split at h
          · cases h
          · next hc =>
              cases h
              refine ⟨by simpa using hc, rfl, ?_⟩
              rw [if_neg hr, if_neg hm]

theorem Image.mapPages_one (a : Image) (n flags : Nat) :
    (a.mapPages n 1 flags).pages = Function.update a.pages n (some (zeroedPage flags)) := by
  funext k
  by_cases hk : k = n
  · subst hk
    rw [Function.update_self, Image.mapPages]
    exact if_pos (by omega)
  · rw [Function.update_of_ne hk, Image.mapPages]
    exact if_neg (by omega)

theorem mapUserPage_leads (start : Nat) {v flags : Nat} (hmod : v % pageSize = 0)
    (hv : v ≤ 2 ^ 47) (hflags : flags &&& vmmUser ≠ 0) :
    Leads D R a (mapUserPage start v flags) (v < 2 ^ 47) (a.mapPages (v / pageSize) 1 flags)
      False := by
  refine Leads.of_ok fun st st' hs heval => ?_
  obtain ⟨hcan, hst, hmap⟩ := mapUserPage_ok heval
  have hlow : v < 2 ^ 47 := by
    simp only [canonical] at hcan
    simp at hcan
    omega
  obtain ⟨s1, hun, hrun1, hcr1, hsp1⟩ := hs.running.unmap hmod hlow
  rw [hun] at hmap
  have hnone : space s1 (v / pageSize) = none := by rw [hsp1, Function.update_self]
  rcases hrun1.mapZeroed hmod hlow hflags hnone with
    ⟨s2, heq, -⟩ | ⟨s2, heq, hrun2, hcr2, hsp2⟩
  · rw [heq] at hmap
    cases hmap
  · rw [heq, Prod.mk.injEq] at hmap
    obtain ⟨-, rfl⟩ := hmap
    have hcur : st'.curCr3 = st.curCr3 := by rw [hst]
    refine ⟨hlow, hrun2, ?_, by rw [hst]; exact hs.brk, by rw [hst]; exact hs.ctx,
      by rw [hcur, hs.own, hcr2, hcr1]⟩
    rw [hsp2, hsp1, Function.update_idem, hs.pages, Image.mapPages_one]

/-- The number of pages `map_user_pages` and `protect_user_pages` go over. -/
def pageCount (va size : Nat) : Nat := (rangeEnd va size - alignDown va) / pageSize

theorem alignDown_page (va k : Nat) : (alignDown va + k * pageSize) / pageSize = va / pageSize + k := by
  simp only [alignDown, pageSize]
  omega

theorem alignDown_range_mod (va k : Nat) : (alignDown va + k * pageSize) % pageSize = 0 := by
  simp only [alignDown, pageSize]
  omega

/-- The loop of `map_user_pages`. -/
theorem mapLoop_leads {va flags : Nat} (hva : va ≤ 2 ^ 47) (hflags : flags &&& vmmUser ≠ 0)
    (n : Nat) :
    Leads D R a
      (execLoop (fun k => mapUserPage (alignDown va) (alignDown va + k * pageSize) flags) n)
      (∀ k < n, alignDown va + k * pageSize < 2 ^ 47) (a.mapPages (va / pageSize) n flags)
      False := by
  refine Leads.loop (f := fun k => a.mapPages (va / pageSize) k flags) _ (a.mapPages_zero _ _)
    fun k hk hbefore => ?_
  have hle : alignDown va + k * pageSize ≤ 2 ^ 47 := by
    rcases Nat.eq_zero_or_pos k with rfl | hpos
    · simp only [alignDown, pageSize]
      omega
    · have := hbefore (k - 1) (by omega)
      simp only [alignDown, pageSize] at *
      omega
  have hstep := mapUserPage_leads (D := D) (R := R) (a := a.mapPages (va / pageSize) k flags)
    (alignDown va) (alignDown_range_mod va k) hle hflags
  rwa [alignDown_page, Image.mapPages_succ] at hstep

theorem mapUserPages_leads {va size flags : Nat} (hva : va ≤ 2 ^ 47)
    (hflags : flags &&& vmmUser ≠ 0) :
    Leads D R a (mapUserPages va size flags)
      (∀ k < pageCount va size, alignDown va + k * pageSize < 2 ^ 47)
      (a.mapPages (va / pageSize) (pageCount va size) flags) False := by
  refine Triple.bind (mapLoop_leads hva hflags _) fun _ => Triple.modify fun st hs => ?_
  exact ⟨hs.1, hs.2.running, hs.2.pages, hs.2.brk, hs.2.ctx, hs.2.own⟩

theorem Image.protectPages_one (a : Image) (n flags : Nat) :
    (a.protectPages n 1 flags).pages = Function.update a.pages n
      ((a.pages n).map fun pg => { pg with flags := makePteFlags flags }) := by
  funext k
  by_cases hk : k = n
  · subst hk
    rw [Function.update_self, Image.protectPages]
    exact if_pos (by omega)
  · rw [Function.update_of_ne hk, Image.protectPages]
    exact if_neg (by omega)

theorem protectUserPage_ok {v flags : Nat} {st st' : ExecState}
    (h : eval (protectUserPage v flags) st = (.ok (), st')) :
    alignDown (vmmTranslate st.vmm v) ≠ 0 ∧ st' = { st with vmm := st'.vmm } ∧
      vmmMapPage st.vmm v (alignDown (vmmTranslate st.vmm v)) flags = (true, st'.vmm) := by
  unfold protectUserPage at h
  rw [eval_bind] at h
  change eval (if _ then _ else _) st = _ at h
  split at h
  · cases h
  · next hne =>
      rw [eval_bind, eval_onVmm] at h
      generalize vmmMapPage st.vmm v (alignDown (vmmTranslate st.vmm v)) flags = m at h ⊢
      change eval (if _ then _ else _) _ = _ at h
      split at h
      · cases h
      · next hm =>
          cases h
          refine ⟨hne, rfl, ?_⟩
          exact Prod.ext (by simpa using hm) rfl

/-- A page that has been mapped again with other flags. -/
theorem Sees.protect {v flags : Nat} {st st' : ExecState} (hs : Sees D R a st)
    (hmod : v % pageSize = 0) (hv : v < 2 ^ 47) (hflags : flags &&& vmmUser ≠ 0)
    (hne : vmmTranslate st.vmm v ≠ 0) (hst : st' = { st with vmm := st'.vmm })
    (hmap : vmmMapPage st.vmm v (alignDown (vmmTranslate st.vmm v)) flags = (true, st'.vmm)) :
    Sees D R (a.protectPages (v / pageSize) 1 flags) st' := by
  cases hpg : space st.vmm (v / pageSize) with
  | none =>
      rcases hs.running.translate hv with ⟨-, hzero⟩ | ⟨e, -, hsome, -⟩
      · exact absurd hzero hne
      · rw [hpg] at hsome
        cases hsome
  | some pg =>
      obtain ⟨-, s', heq, hrun, hcr, hsp⟩ := hs.running.protect hmod hv hflags hpg
      rw [heq, Prod.mk.injEq] at hmap
      obtain ⟨-, rfl⟩ := hmap
      have hcur : st'.curCr3 = st.curCr3 := by rw [hst]
      refine ⟨hrun, ?_, by rw [hst]; exact hs.brk, by rw [hst]; exact hs.ctx,
        by rw [hcur, hs.own, hcr]⟩
      rw [hs.pages] at hpg
      rw [hsp, hs.pages, Image.protectPages_one, hpg]
      rfl

theorem protectUserPage_leads {v flags : Nat} (hmod : v % pageSize = 0) (hv : v < 2 ^ 47)
    (hflags : flags &&& vmmUser ≠ 0) :
    Leads D R a (protectUserPage v flags) True (a.protectPages (v / pageSize) 1 flags) False := by
  refine Leads.of_ok fun st st' hs heval => ?_
  obtain ⟨hne, hst, hmap⟩ := protectUserPage_ok heval
  refine ⟨trivial, hs.protect hmod hv hflags (fun hzero => hne ?_) hst hmap⟩
  rw [hzero]
  rfl

/-- A loop that gives the pages of a range other flags. -/
theorem protectLoop_leads {va n flags : Nat} {body : Nat → ExecM Unit}
    (hbody : ∀ k < n, ∀ c, Leads D R c (body k) True
      (c.protectPages ((alignDown va + k * pageSize) / pageSize) 1 flags) False) :
    Leads D R a (execLoop body n) True (a.protectPages (va / pageSize) n flags) False := by
  have hloop : Leads D R a (execLoop body n) (∀ k < n, True)
      (a.protectPages (va / pageSize) n flags) False := by
    refine Leads.loop (f := fun k => a.protectPages (va / pageSize) k flags) _
      (a.protectPages_zero _ _) fun k hk _ => ?_
    have hstep := hbody k hk (a.protectPages (va / pageSize) k flags)
    rwa [alignDown_page, Image.protectPages_succ] at hstep
  exact hloop.mono (fun _ => trivial) id

theorem protectUserPages_leads {va size flags : Nat}
    (hlow : ∀ k < pageCount va size, alignDown va + k * pageSize < 2 ^ 47)
    (hflags : flags &&& vmmUser ≠ 0) :
    Leads D R a (protectUserPages va size flags) True
      (a.protectPages (va / pageSize) (pageCount va size) flags) False :=
  protectLoop_leads fun k hk _ =>
    protectUserPage_leads (alignDown_range_mod va k) (hlow k hk) hflags

end FiFi.Exec
