import FiFi.Exec.Loaded

/-!
# Fidelity of the loaded image

The segments of a program may share pages. `map_user_pages` drops what is mapped
at a page before it maps a fresh one, so the pages of a segment are cleared before
it is filled, whatever an earlier segment left there. The image is the one the
file describes exactly when nothing but zeros is lost in this way.
-/

namespace FiFi.Exec

open Pmm Vmm Syscall

/-! ### What the file describes -/

/-- The address belongs to the segment. -/
def Phdr.Covers (p : Phdr) (x : Nat) : Prop := p.pVaddr ≤ x ∧ x < p.pVaddr + p.pMemsz

/-- The address lies in a page that is mapped for the segment. -/
def Phdr.InPages (p : Phdr) (x : Nat) : Prop :=
  p.pVaddr / pageSize ≤ x / pageSize ∧
    x / pageSize < p.pVaddr / pageSize + pageCount p.pVaddr p.pMemsz

instance (p : Phdr) (x : Nat) : Decidable (p.Covers x) :=
  inferInstanceAs (Decidable (p.pVaddr ≤ x ∧ x < p.pVaddr + p.pMemsz))

instance (p : Phdr) (x : Nat) : Decidable (p.InPages x) :=
  inferInstanceAs (Decidable (p.pVaddr / pageSize ≤ x / pageSize ∧
    x / pageSize < p.pVaddr / pageSize + pageCount p.pVaddr p.pMemsz))

/-- Byte `i` of the segment. -/
def Phdr.byteAt (p : Phdr) (data : List UInt8) (i : Nat) : UInt8 :=
  if i < p.pFilesz then data.getD (p.pOffset + i) 0 else 0

/-- The segment lies inside the file and below the stack. -/
structure Phdr.Placed (p : Phdr) (size : Nat) : Prop where
  filesz_le : p.pFilesz ≤ p.pMemsz
  inFile : p.pOffset + p.pFilesz ≤ size
  below : p.pVaddr + p.pMemsz ≤ userStackBase

/-- A file whose segments are placed well and do not overlap. -/
structure WellPlaced (data : List UInt8) (ps : List Phdr) : Prop where
  size_lt : data.length < 2 ^ 64
  placed : ∀ p ∈ ps, p.Placed data.length
  apart : ps.Pairwise fun p q => ∀ x, p.Covers x → ¬ q.Covers x

/-- Where the pages of `q` reach into `p`, `p` consists of zeros. -/
def Keeps (data : List UInt8) (p q : Phdr) : Prop :=
  ∀ i < p.pMemsz, q.InPages (p.pVaddr + i) → p.byteAt data i = 0

/-! ### Bytes of the image -/

theorem Image.byte_protectPages (a : Image) (first n flags x : Nat) :
    (a.protectPages first n flags).byte x = a.byte x := by
  rw [Image.byte, Image.byte, Image.protectPages]
  dsimp only
  split
  · rw [Option.map_map]
    rfl
  · rfl

theorem Image.byte_mapPages (a : Image) (first n flags x : Nat) :
    (a.mapPages first n flags).byte x =
      if first ≤ x / pageSize ∧ x / pageSize < first + n then some 0 else a.byte x := by
  rw [Image.byte, Image.byte, Image.mapPages]
  dsimp only
  split <;> rfl

variable {data : List UInt8} {outside : Nat → Option UInt8}

theorem Phdr.Placed.inPages {p : Phdr} (h : p.Placed data.length) {x : Nat} (hx : p.Covers x) :
    p.InPages x := by
  have hbelow := h.below
  have hbase : userStackBase = 0x7fffffff6000 := by decide
  obtain ⟨hlo, hhi⟩ := hx
  simp only [InPages, pageCount, rangeEnd, alignUp, alignDown, u64, pageSize]
  omega

/-- The bytes after a segment has been loaded. -/
theorem Image.byte_load (hsize : data.length < 2 ^ 64) {p : Phdr} (h : p.Placed data.length)
    (a : Image) (x : Nat) :
    (a.load (fileByte data outside) p).byte x =
      if p.InPages x then some (if p.Covers x then p.byteAt data (x - p.pVaddr) else 0)
      else a.byte x := by
  have hle := h.filesz_le
  have hin := h.inFile
  rw [Image.load, byte_protectPages, byte_store, byte_store, byte_mapPages]
  change (if _ then Option.map _ (if _ then Option.map _ (if p.InPages x then _ else _)
    else if p.InPages x then _ else _) else if _ then Option.map _ (if p.InPages x then _ else _)
    else if p.InPages x then _ else _) = _
  by_cases hcov : p.Covers x
  · have hpages := h.inPages hcov
    obtain ⟨hlo, hhi⟩ := hcov
    simp only [if_pos hpages, if_pos (show p.Covers x from ⟨hlo, hhi⟩)]
    by_cases hfile : x < p.pVaddr + p.pFilesz
    · rw [if_neg (by omega), if_pos ⟨hlo, hfile⟩, Phdr.byteAt, if_pos (by omega), Option.map_some]
      have hoff : p.pOffset + (x - p.pVaddr) < data.length := by omega
      have hu : u64 (p.pOffset + (x - p.pVaddr)) = p.pOffset + (x - p.pVaddr) := by
        rw [u64]
        omega
      rw [hu, fileByte, if_pos hoff, List.getD_eq_getElem?_getD]
    · rw [if_pos (by omega), if_neg (by omega), Phdr.byteAt, if_neg (by omega), Option.map_some]
  · have hfile : ¬ (p.pVaddr ≤ x ∧ x < p.pVaddr + p.pFilesz) := fun hc =>
      hcov ⟨hc.1, by have := hc.2; omega⟩
    have hbss : ¬ (p.pVaddr + p.pFilesz ≤ x ∧
        x < p.pVaddr + p.pFilesz + (p.pMemsz - p.pFilesz)) := fun hc =>
      hcov ⟨by have := hc.1; omega, by have := hc.2; omega⟩
    rw [if_neg hbss, if_neg hfile, if_neg hcov]

/-- Outside the segments, the pages of the segments are clear. -/
theorem Image.byte_segments (hsize : data.length < 2 ^ 64) {ps : List Phdr}
    (h : ∀ p ∈ ps, p.Placed data.length) (a : Image) {x : Nat} (hx : ∀ p ∈ ps, ¬ p.Covers x) :
    (ps.foldl (Image.load (fileByte data outside)) a).byte x =
      if ∃ p ∈ ps, p.InPages x then some 0 else a.byte x := by
  induction ps generalizing a with
  | nil => simp
  | cons p ps ih =>
      rw [List.foldl_cons, ih (fun q hq => h q (List.mem_cons_of_mem p hq)) _
        fun q hq => hx q (List.mem_cons_of_mem p hq), byte_load hsize (h p (by simp)),
        if_neg (hx p (by simp))]
      by_cases hlater : ∃ q ∈ ps, q.InPages x
      · obtain ⟨q, hq, hpages⟩ := hlater
        rw [if_pos ⟨q, hq, hpages⟩, if_pos ⟨q, List.mem_cons_of_mem p hq, hpages⟩]
      · rw [if_neg hlater]
        by_cases hp : p.InPages x
        · rw [if_pos hp, if_pos ⟨p, by simp, hp⟩]
        · rw [if_neg hp, if_neg]
          rintro ⟨q, hq, hpages⟩
          rcases List.mem_cons.1 hq with rfl | hq
          · exact hp hpages
          · exact hlater ⟨q, hq, hpages⟩

/-- The segments are all there exactly when each one keeps those before it. -/
theorem Image.segments_iff {ps : List Phdr} (h : WellPlaced data ps) (a : Image) :
    (∀ p ∈ ps, ∀ i < p.pMemsz, (ps.foldl (Image.load (fileByte data outside)) a).byte
        (p.pVaddr + i) = some (p.byteAt data i)) ↔ ps.Pairwise (Keeps data) := by
  induction ps generalizing a with
  | nil => simp
  | cons p ps ih =>
      have hplaced : ∀ q ∈ ps, q.Placed data.length := fun q hq =>
        h.placed q (List.mem_cons_of_mem p hq)
      obtain ⟨hapart, hrest⟩ := List.pairwise_cons.1 h.apart
      rw [List.forall_mem_cons, List.pairwise_cons, List.foldl_cons,
        ih ⟨h.size_lt, hplaced, hrest⟩]
      refine and_congr_left fun _ => ?_
      have hbyte : ∀ i < p.pMemsz, (ps.foldl (Image.load (fileByte data outside))
          (a.load (fileByte data outside) p)).byte (p.pVaddr + i) =
          some (if ∃ q ∈ ps, q.InPages (p.pVaddr + i) then 0 else p.byteAt data i) := by
        intro i hi
        have hcov : p.Covers (p.pVaddr + i) := ⟨by omega, by omega⟩
        rw [byte_segments h.size_lt hplaced _ fun q hq => hapart q hq _ hcov,
          byte_load h.size_lt (h.placed p (by simp)),
          if_pos ((h.placed p (by simp)).inPages hcov), if_pos hcov, Nat.add_sub_cancel_left]
        split <;> rfl
      constructor
      · intro hall q hq i hi hpages
        have hi' := (hbyte i hi).symm.trans (hall i hi)
        rw [if_pos ⟨q, hq, hpages⟩, Option.some.injEq] at hi'
        exact hi'.symm
      · intro hkeeps i hi
        rw [hbyte i hi]
        split
        · next hex =>
            obtain ⟨q, hq, hpages⟩ := hex
            rw [hkeeps q hq i hi hpages]
        · rfl

/-! ### The call -/

/-- The byte at a user address. -/
def userByte (s : VmmState) (va : Nat) : Option UInt8 :=
  if vmmTranslate s va = 0 then none else some (physByte s.mem (vmmTranslate s va))

theorem Sees.userByte {D : Domain} {R : Set Nat} {a : Image} {st : ExecState}
    (h : Sees D R a st) {va : Nat} (hva : va < 2 ^ 47) : userByte st.vmm va = a.byte va := by
  rw [Exec.userByte, Image.byte, ← h.pages]
  rcases h.running.translate hva with ⟨hnone, hzero⟩ | ⟨e, -, hpg, htr, hne⟩
  · rw [hzero, if_pos rfl, hnone]
    rfl
  · rw [htr, if_neg (by omega), hpg, Option.map_some, pageOf]
    dsimp only
    rw [if_pos (Nat.mod_lt _ (by decide))]

/-- The process may read a page that has the user flag. -/
theorem Sees.userPageOk {D : Domain} {R : Set Nat} {a : Image} {st : ExecState}
    (h : Sees D R a st) {va f : Nat} (hva : va < 2 ^ 47)
    (hf : a.flags (va / pageSize) = some f) (hok : entryOk f false = true) :
    vmmUserPageOk st.vmm va false = true := by
  rw [h.running.userPageOk hva]
  rw [Image.flags, ← h.pages, space_of_lt hva, Option.map_map] at hf
  cases he : look st.vmm.mem st.vmm.cr3 (vaPath va) with
  | none =>
      rw [he] at hf
      cases hf
  | some e =>
      rw [he] at hf
      obtain rfl := Option.some.inj hf
      have h0 : pteFlags e % 2 = e % 2 := by
        simp only [pteFlags, ptePage, pageSize]
        omega
      have h2 : pteFlags e / 4 % 2 = e / 4 % 2 := by
        simp only [pteFlags, ptePage, pageSize]
        omega
      simpa [entryOk, present, pteUser, pageOf, h0, h2] using hok

theorem Phdr.finalFlags_entryOk (p : Phdr) : entryOk (makePteFlags p.finalFlags) false = true := by
  unfold finalFlags
  split
  · decide
  · split <;> decide

/-- The pages of the segments can be read. -/
theorem Image.segments_readable (rd : Nat → Option UInt8) {ps : List Phdr} (a : Image) {x : Nat}
    (hx : (∃ p ∈ ps, p.InPages x) ∨ ∃ f, a.flags (x / pageSize) = some f ∧ entryOk f false = true) :
    ∃ f, (ps.foldl (Image.load rd) a).flags (x / pageSize) = some f ∧ entryOk f false = true := by
  induction ps generalizing a with
  | nil => exact hx.resolve_left (by simp)
  | cons p ps ih =>
      refine ih (a.load rd p) ?_
      by_cases hlater : ∃ q ∈ ps, q.InPages x
      · exact Or.inl hlater
      · right
        have hflags : (a.load rd p).flags (x / pageSize) =
            if p.InPages x then some (makePteFlags p.finalFlags) else a.flags (x / pageSize) :=
          a.load_flags rd p _
        by_cases hp : p.InPages x
        · exact ⟨_, hflags.trans (if_pos hp), p.finalFlags_entryOk⟩
        · rw [hflags, if_neg hp]
          refine hx.resolve_left ?_
          rintro ⟨q, hq, hpages⟩
          rcases List.mem_cons.1 hq with rfl | hq
          · exact hp hpages
          · exact hlater ⟨q, hq, hpages⟩

/-- Every byte of every segment is in the address space, and its page is
accessible to the process. -/
def Faithful (data : List UInt8) (ps : List Phdr) (s : VmmState) : Prop :=
  ∀ p ∈ ps, ∀ i < p.pMemsz, userByte s (p.pVaddr + i) = some (p.byteAt data i) ∧
    vmmUserPageOk s (p.pVaddr + i) false = true

/-- The loaded image is the one the file describes exactly when the pages of each
segment reach only into zeros of the segments before it. -/
theorem execLoad_faithful_iff {D : Domain} {st st' : ExecState} {argc envc : Int}
    {argv envp : Nat → Option (List UInt8)} (hready : ExecReady D st)
    (hfit : StringsFit argv envp)
    (hplaced : WellPlaced data (segments data (fileByte data outside)))
    (hret : execLoad st (some data) outside argc argv envc envp = .returned 0 st') :
    Faithful data (segments data (fileByte data outside)) st'.vmm ↔
      (segments data (fileByte data outside)).Pairwise (Keeps data) := by
  have hbase : userStackBase = 0x7fffffff6000 := by decide
  obtain ⟨data', a, hdata, hprog⟩ := execLoad_program hready hfit (by
    rintro data' ⟨rfl⟩ p hp
    have := (hplaced.placed p hp).below
    omega) hret
  obtain rfl := Option.some.inj hdata
  obtain ⟨b, hw, -⟩ := hprog.pages
  obtain ⟨lo, mid, argVas, envVas, hframe⟩ := hprog.frame
  obtain ⟨D', R, -, hsees⟩ := hprog.sees
  set ps := segments data (fileByte data outside)
  set c := ps.foldl (Image.load (fileByte data outside)) b
  -- below the stack the image is that of the segments
  have hpages : ∀ x < userStackBase, a.byte x = c.byte x ∧
      a.flags (x / pageSize) = c.flags (x / pageSize) := by
    intro x hx
    have hk : x / pageSize < userStackBase / pageSize := by
      rw [hbase] at hx ⊢
      simp only [pageSize]
      omega
    have hfin := c.finish_pages hk
    refine ⟨(hw.bytes x (Or.inl (by have := hframe.base; omega))).trans ?_,
      (hw.flags _).trans ?_⟩
    · simp only [Image.byte, hfin]
    · exact congrArg (Option.map Page.flags) hfin
  rw [← Image.segments_iff hplaced b]
  refine forall₂_congr fun p hp => forall₂_congr fun i hi => ?_
  have hbelow := (hplaced.placed p hp).below
  have hlow : p.pVaddr + i < 2 ^ 47 := by omega
  obtain ⟨hbyte, hflags⟩ := hpages (p.pVaddr + i) (by omega)
  rw [hsees.userByte hlow, hbyte]
  refine and_iff_left ?_
  obtain ⟨f, hf, hok⟩ := Image.segments_readable (fileByte data outside) b (x := p.pVaddr + i)
    (Or.inl ⟨p, hp, (hplaced.placed p hp).inPages ⟨by omega, by omega⟩⟩)
  exact hsees.userPageOk hlow (hflags.trans hf) hok

/-- A program with two segments in one page. -/
def mixedElf : List UInt8 :=
  elfFile [⟨7, 176, 0x400000, 1, 1⟩, ⟨6, 177, 0x400800, 1, 1⟩] [0x90, 0x41]

/-- Loading it without arguments. -/
def mixedExec : ExecResult :=
  execLoad smallState (some mixedElf) (fun _ => none) 0 (fun _ => none) 0 fun _ => none

/-- The user bytes after a call that returned 0. -/
def ExecResult.loadedByte (va : Nat) : ExecResult → Option UInt8
  | .returned value st => if value = 0 then userByte st.vmm va else none
  | .fault => none

theorem mixedExec_byte :
    ∃ st', mixedExec = .returned 0 st' ∧ userByte st'.vmm 0x400000 = some 0 := by
  have hbyte : mixedExec.loadedByte 0x400000 = some 0 := by decide +kernel
  cases hres : mixedExec with
  | fault =>
      rw [hres] at hbyte
      cases hbyte
  | returned value st =>
      rw [hres, ExecResult.loadedByte] at hbyte
      by_cases hzero : value = 0
      · subst hzero
        exact ⟨st, rfl, hbyte⟩
      · rw [if_neg hzero] at hbyte
        cases hbyte

theorem mixedElf_segments : segments mixedElf (fileByte mixedElf fun _ => none) =
    [⟨7, 176, 0x400000, 1, 1⟩, ⟨6, 177, 0x400800, 1, 1⟩] := by decide +kernel

theorem mixedElf_placed :
    WellPlaced mixedElf (segments mixedElf (fileByte mixedElf fun _ => none)) := by
  rw [mixedElf_segments]
  refine ⟨by decide +kernel, ?_, ?_⟩
  · intro p hp
    simp only [List.mem_cons, List.not_mem_nil, or_false] at hp
    rcases hp with rfl | rfl
    · exact ⟨by decide, by decide +kernel, by decide⟩
    · exact ⟨by decide, by decide +kernel, by decide⟩
  · simp only [List.pairwise_cons, List.mem_singleton, forall_eq, List.not_mem_nil, false_imp_iff,
      implies_true, List.Pairwise.nil, and_true]
    rintro x ⟨-, hx⟩ ⟨hx', -⟩
    dsimp only at hx hx'
    omega

theorem execLoad_faithful_mixed :
    ∃ st', mixedExec = .returned 0 st' ∧
      (Faithful mixedElf (segments mixedElf (fileByte mixedElf fun _ => none)) st'.vmm ↔
        (segments mixedElf (fileByte mixedElf fun _ => none)).Pairwise (Keeps mixedElf)) := by
  obtain ⟨st', hret, -⟩ := mixedExec_byte
  exact ⟨st', hret, execLoad_faithful_iff smallState_ready ⟨by simp, by simp⟩ mixedElf_placed hret⟩

/-- The first segment is the byte 0x90. The second one is loaded into the same
page, and the byte is lost. -/
theorem execLoad_loses_segment :
    ∃ st', mixedExec = .returned 0 st' ∧
      WellPlaced mixedElf (segments mixedElf (fileByte mixedElf fun _ => none)) ∧
      ¬ Faithful mixedElf (segments mixedElf (fileByte mixedElf fun _ => none)) st'.vmm := by
  obtain ⟨st', hret, hbyte⟩ := mixedExec_byte
  refine ⟨st', hret, mixedElf_placed, fun hfaith => ?_⟩
  have hmem : (⟨7, 176, 0x400000, 1, 1⟩ : Phdr) ∈
      segments mixedElf (fileByte mixedElf fun _ => none) := by
    rw [mixedElf_segments]
    simp
  have hat := (hfaith _ hmem 0 (by decide)).1
  rw [show userByte st'.vmm (0x400000 + 0) = some 0 from hbyte] at hat
  exact absurd hat (by decide)

end FiFi.Exec
