import FiFi.Exec.Steps

/-!
# Loading the segments

What step 4 of `exec_load` leaves in the address space. A program header is read
once; the loader then works on its fields. `Image.load` is the effect of one
segment, and the effect of the whole table is that of its segments in their
order.
-/

namespace FiFi.Exec

open Pmm Vmm Syscall ExceptState

/-! ### Program headers -/

/-- The fields of a `PT_LOAD` header that the loader uses. -/
structure Phdr where
  pFlags : Nat
  pOffset : Nat
  pVaddr : Nat
  pFilesz : Nat
  pMemsz : Nat
  deriving DecidableEq, Repr

/-- The header at `ph`, if it is one of a segment. There is no answer when a read
faults. -/
def readLoad (rd : Nat → Option UInt8) (ph : Nat) : Option (Option Phdr) := do
  let pType ← leAt rd ph 4
  if pType ≠ ptLoad then return none
  let pFlags ← leAt rd (ph + 4) 4
  let pOffset ← leAt rd (ph + 8) 8
  let pVaddr ← leAt rd (ph + 16) 8
  let pFilesz ← leAt rd (ph + 32) 8
  let pMemsz ← leAt rd (ph + 40) 8
  return some ⟨pFlags, pOffset, pVaddr, pFilesz, pMemsz⟩

/-- The flags a segment is filled with. -/
def Phdr.mapFlags (p : Phdr) : Nat :=
  vmmUser ||| vmmWrite ||| (if p.pFlags &&& pfX = 0 then vmmNx else 0)

/-- The flags a segment is left with. -/
def Phdr.finalFlags (p : Phdr) : Nat :=
  if p.pFlags &&& pfX ≠ 0 then vmmUser
  else vmmUser ||| (if p.pFlags &&& pfW ≠ 0 then vmmWrite else 0) ||| vmmNx

/-- What a loader does with a segment whose header has been read, with its own
functions for mapping and protecting pages. -/
def fillPhdr (map protect : Nat → Nat → Nat → ExecM Unit) (rd : Nat → Option UInt8) (size : Nat)
    (p : Phdr) (brkInit : Nat) : ExecM Nat := do
  if u64 (p.pOffset + p.pFilesz) > size then throw .fail
  map p.pVaddr p.pMemsz p.mapFlags
  copySegment rd p.pVaddr p.pOffset p.pFilesz
  if p.pMemsz > p.pFilesz then memzero (u64 (p.pVaddr + p.pFilesz)) (p.pMemsz - p.pFilesz)
  protect p.pVaddr p.pMemsz p.finalFlags
  let segTop := rangeEnd p.pVaddr p.pMemsz
  return if segTop > brkInit then segTop else brkInit

/-- Step 4 for a segment whose header has been read. -/
def loadPhdr : (Nat → Option UInt8) → Nat → Phdr → Nat → ExecM Nat :=
  fillPhdr mapUserPages protectUserPages

theorem loadSegment_eq (rd : Nat → Option UInt8) (size ph brkInit : Nat) :
    loadSegment rd size ph brkInit =
      match readLoad rd ph with
      | none => throw .fault
      | some none => pure brkInit
      | some (some p) => loadPhdr rd size p brkInit := by
  unfold loadSegment readLoad phdrField
  cases leAt rd ph 4 with
  | none => rfl
  | some pType =>
      simp only [pure_bind, Option.bind_eq_bind, Option.bind_some]
      by_cases hload : pType ≠ ptLoad
      · rw [if_pos hload, if_pos hload]
        rfl
      · rw [if_neg hload, if_neg hload]
        cases leAt rd (ph + 4) 4 with
        | none => rfl
        | some pFlags =>
            cases leAt rd (ph + 8) 8 with
            | none => rfl
            | some pOffset =>
                cases leAt rd (ph + 16) 8 with
                | none => rfl
                | some pVaddr =>
                    cases leAt rd (ph + 32) 8 with
                    | none => rfl
                    | some pFilesz =>
                        cases leAt rd (ph + 40) 8 with
                        | none => rfl
                        | some pMemsz => rfl

/-! ### One segment -/

/-- The effect of loading a segment. -/
def Image.load (rd : Nat → Option UInt8) (a : Image) (p : Phdr) : Image :=
  ((((a.mapPages (p.pVaddr / pageSize) (pageCount p.pVaddr p.pMemsz) p.mapFlags).store p.pVaddr
    (fun i => (rd (u64 (p.pOffset + i))).getD 0) p.pFilesz).store (p.pVaddr + p.pFilesz)
      (fun _ => 0) (p.pMemsz - p.pFilesz)).protectPages (p.pVaddr / pageSize)
        (pageCount p.pVaddr p.pMemsz) p.finalFlags)

/-- What is known of a segment that has been loaded. -/
structure Phdr.Loaded (rd : Nat → Option UInt8) (size : Nat) (p : Phdr) : Prop where
  inFile : u64 (p.pOffset + p.pFilesz) ≤ size
  low : ∀ k < pageCount p.pVaddr p.pMemsz, alignDown p.pVaddr + k * pageSize < 2 ^ 47
  read : ∀ i < p.pFilesz, (rd (u64 (p.pOffset + i))).isSome
  stored : p.pVaddr + p.pFilesz ≤ 2 ^ 47

theorem or_vmmUser (x : Nat) : (vmmUser ||| x) &&& vmmUser ≠ 0 := by
  rw [Nat.and_or_distrib_right]
  exact fun h => absurd (Nat.or_eq_zero_iff.1 h).1 (by decide)

theorem Phdr.mapFlags_user (p : Phdr) : p.mapFlags &&& vmmUser ≠ 0 := by
  rw [mapFlags, Nat.or_assoc]
  exact or_vmmUser _

theorem Phdr.finalFlags_user (p : Phdr) : p.finalFlags &&& vmmUser ≠ 0 := by
  unfold finalFlags
  split
  · decide
  · rw [Nat.or_assoc]
    exact or_vmmUser _

variable {D : Domain} {R : Set Nat} {a : Image} {rd : Nat → Option UInt8} {size : Nat}

theorem fillPhdr_spec {p : Phdr} {map protect : Nat → Nat → Nat → ExecM Unit}
    (hva : p.pVaddr ≤ 2 ^ 47)
    (hmap : Leads D R a (map p.pVaddr p.pMemsz p.mapFlags)
      (∀ k < pageCount p.pVaddr p.pMemsz, alignDown p.pVaddr + k * pageSize < 2 ^ 47)
      (a.mapPages (p.pVaddr / pageSize) (pageCount p.pVaddr p.pMemsz) p.mapFlags) False)
    (hprotect : (∀ k < pageCount p.pVaddr p.pMemsz, alignDown p.pVaddr + k * pageSize < 2 ^ 47) →
      ∀ b, Leads D R b (protect p.pVaddr p.pMemsz p.finalFlags) True
        (b.protectPages (p.pVaddr / pageSize) (pageCount p.pVaddr p.pMemsz) p.finalFlags) False)
    (brkInit : Nat) :
    Triple (Sees D R a) (fillPhdr map protect rd size p brkInit)
      (fun brk st => p.Loaded rd size ∧ brk = max brkInit (rangeEnd p.pVaddr p.pMemsz) ∧
        Sees D R (a.load rd p) st) fun _ _ => True := by
  unfold fillPhdr
  by_cases hin : u64 (p.pOffset + p.pFilesz) > size
  · rw [if_pos hin]
    exact Triple.bind (Q := fun _ _ => False) (Triple.throw fun _ _ => trivial)
      fun _ _ hf => hf.elim
  · rw [if_neg hin]
    refine Triple.bind hmap.ended fun _ => Triple.assume fun hlow => ?_
    have hcopy := storeLoop_leads (D := D) (R := R)
      (a := a.mapPages (p.pVaddr / pageSize) (pageCount p.pVaddr p.pMemsz) p.mapFlags)
      (n := p.pFilesz) hva (fun i _ => rfl)
      (f := fun i => rd (u64 (p.pOffset + i)))
    refine Triple.bind hcopy.ended fun _ => Triple.assume fun hfile => ?_
    have hstored : p.pVaddr + p.pFilesz ≤ 2 ^ 47 := by
      rcases Nat.eq_zero_or_pos p.pFilesz with hz | hpos
      · omega
      · have := (hfile (p.pFilesz - 1) (by omega)).2.2
        omega
    have hu : u64 (p.pVaddr + p.pFilesz) = p.pVaddr + p.pFilesz := by
      rw [u64]
      omega
    have hloaded : p.Loaded rd size := ⟨by omega, hlow, fun i hi => (hfile i hi).1, hstored⟩
    -- the last two steps are the same whether or not there is something to clear
    have hrest : ∀ b : Image, Triple (Sees D R b)
        (protect p.pVaddr p.pMemsz p.finalFlags >>= fun _ =>
          (pure (if rangeEnd p.pVaddr p.pMemsz > brkInit then rangeEnd p.pVaddr p.pMemsz
            else brkInit) : ExecM Nat))
        (fun brk st => p.Loaded rd size ∧ brk = max brkInit (rangeEnd p.pVaddr p.pMemsz) ∧
          Sees D R (b.protectPages (p.pVaddr / pageSize) (pageCount p.pVaddr p.pMemsz)
            p.finalFlags) st) fun _ _ => True := by
      intro b
      refine Triple.bind (hprotect hlow b).ended fun _ =>
        Triple.pure fun st hs => ⟨hloaded, ?_, hs.2⟩
      rw [Nat.max_def]
      split_ifs <;> omega
    by_cases hmem : p.pMemsz > p.pFilesz
    · rw [if_pos hmem, hu]
      have hzero := storeLoop_leads (D := D) (R := R)
        (a := (a.mapPages (p.pVaddr / pageSize) (pageCount p.pVaddr p.pMemsz) p.mapFlags).store
          p.pVaddr (fun i => (rd (u64 (p.pOffset + i))).getD 0) p.pFilesz)
        (n := p.pMemsz - p.pFilesz) hstored (fun i _ => rfl) (f := fun _ => some 0)
      exact Triple.bind hzero.ended fun _ => Triple.assume fun _ => hrest _
    · rw [if_neg hmem]
      have hnone : p.pMemsz - p.pFilesz = 0 := by omega
      rw [Image.load, hnone, Image.store_zero]
      exact hrest _

theorem loadPhdr_spec {p : Phdr} (hva : p.pVaddr ≤ 2 ^ 47) (brkInit : Nat) :
    Triple (Sees D R a) (loadPhdr rd size p brkInit)
      (fun brk st => p.Loaded rd size ∧ brk = max brkInit (rangeEnd p.pVaddr p.pMemsz) ∧
        Sees D R (a.load rd p) st) fun _ _ => True :=
  fillPhdr_spec hva (mapUserPages_leads hva p.mapFlags_user)
    (fun hlow _ => protectUserPages_leads hlow p.finalFlags_user) brkInit

/-! ### The table of headers -/

/-- Header `n` of the table. -/
def phdrAt (data : List UInt8) (rd : Nat → Option UInt8) (n : Nat) : Option (Option Phdr) :=
  readLoad rd (u64 (ePhoff data + n * ePhentsize data))

/-- The segments among the first `n` headers. -/
def segmentsUpTo (data : List UInt8) (rd : Nat → Option UInt8) : Nat → List Phdr
  | 0 => []
  | n + 1 => segmentsUpTo data rd n ++ (phdrAt data rd n).join.toList

/-- The segments of a file, in the order of the table. -/
def segments (data : List UInt8) (rd : Nat → Option UInt8) : List Phdr :=
  segmentsUpTo data rd (ePhnum data)

/-- The break behind the segments. -/
def brkOf (ps : List Phdr) : Nat := ps.foldl (fun b p => max b (rangeEnd p.pVaddr p.pMemsz)) 0

/-- The `n` bytes of a number. -/
def leBytes (n v : Nat) : List UInt8 := (List.range n).map fun i => UInt8.ofNat (v / 256 ^ i)

/-- An ELF file with the given segments. -/
def elfFile (ps : List Phdr) (payload : List UInt8) : List UInt8 :=
  [0x7f, 0x45, 0x4c, 0x46, 2, 1, 1, 0, 0, 0, 0, 0, 0, 0, 0, 0] ++ leBytes 2 2 ++ leBytes 2 62 ++
    leBytes 4 1 ++ leBytes 8 0x400000 ++ leBytes 8 64 ++ leBytes 8 0 ++ leBytes 4 0 ++
    leBytes 2 64 ++ leBytes 2 56 ++ leBytes 2 ps.length ++ leBytes 6 0 ++
    ps.flatMap (fun p => leBytes 4 ptLoad ++ leBytes 4 p.pFlags ++ leBytes 8 p.pOffset ++
      leBytes 8 p.pVaddr ++ leBytes 8 0 ++ leBytes 8 p.pFilesz ++ leBytes 8 p.pMemsz ++
      leBytes 8 0x1000) ++ payload

theorem loadSegments_spec {data : List UInt8} (n : Nat)
    (hva : ∀ p ∈ segmentsUpTo data rd n, p.pVaddr ≤ 2 ^ 47) :
    Triple (Sees D R a) (loadSegments data rd n)
      (fun brk st => (∀ p ∈ segmentsUpTo data rd n, p.Loaded rd data.length) ∧
        brk = brkOf (segmentsUpTo data rd n) ∧
        Sees D R ((segmentsUpTo data rd n).foldl (Image.load rd) a) st) fun _ _ => True := by
  induction n with
  | zero =>
      exact Triple.pure fun st hs => ⟨fun p hp => absurd hp (by simp [segmentsUpTo]), rfl, hs⟩
  | succ n ih =>
      rw [segmentsUpTo] at hva ⊢
      unfold loadSegments
      refine Triple.bind (ih fun p hp => hva p (List.mem_append_left _ hp)) fun brk => ?_
      rw [loadSegment_eq]
      change Triple _ (match phdrAt data rd n with
        | none => throw .fault
        | some none => pure brk
        | some (some p) => loadPhdr rd data.length p brk) _ _
      cases hph : phdrAt data rd n with
      | none => exact Triple.throw fun _ _ => trivial
      | some o =>
          cases o with
          | none => exact Triple.pure fun st hs => by simpa [hph] using hs
          | some p =>
              rw [hph] at hva
              intro st hs
              obtain ⟨hloaded, hbrk, hsees⟩ := hs
              refine (loadPhdr_spec (hva p (by simp)) brk).post ?_ st hsees
              rintro brk' st' ⟨hp, hbrk', hsees'⟩
              refine ⟨fun q hq => ?_, ?_, ?_⟩
              · rcases List.mem_append.1 hq with hq | hq
                · exact hloaded q hq
                · have heq : q = p := by simpa using hq
                  exact heq ▸ hp
              · rw [hbrk', hbrk]
                simp [brkOf, List.foldl_append]
              · simpa [List.foldl_append] using hsees'

end FiFi.Exec
