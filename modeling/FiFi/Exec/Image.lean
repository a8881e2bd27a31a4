import FiFi.Exec.Load
import FiFi.Library.Computation
import FiFi.Syscall.Space

/-!
# What the loader does to the address space

The steps of `exec_load` described on the view of the address space: mapping a
range of pages, storing bytes and giving a range other flags. `Sees D R a st`
says that the machine shows the image `a`: the pages, and the thread's break and
saved context beside them. A step either does what its description says or stops
with `fail`, when memory runs out, or with a fault, when it touches an address
where nothing is mapped.
-/

namespace FiFi.Exec

open Pmm Vmm Syscall ExceptState

/-! ### Images -/

/-- What `exec_load` works on, without the frames and tables behind it. -/
structure Image where
  pages : Nat → Option Page
  brk : Nat
  ctx : IsrCtx

/-- The machine shows the image. -/
structure Sees (D : Domain) (R : Set Nat) (a : Image) (st : ExecState) : Prop where
  running : Running D R st.vmm
  pages : space st.vmm = a.pages
  brk : st.brk = a.brk
  ctx : st.ctx = a.ctx
  own : st.curCr3 = st.vmm.cr3

/-- A page is mapped at the address. -/
def Image.Mapped (a : Image) (va : Nat) : Prop := (a.pages (va / pageSize)).isSome = true

/-- The byte a process reads at an address. -/
def Image.byte (a : Image) (va : Nat) : Option UInt8 :=
  (a.pages (va / pageSize)).map fun pg => pg.byte (va % pageSize)

/-- The pages `first`, …, `first + n - 1` become cleared pages. -/
def Image.mapPages (a : Image) (first n flags : Nat) : Image :=
  { a with
    pages := fun k => if first ≤ k ∧ k < first + n then some (zeroedPage flags) else a.pages k }

/-- The same pages get other flags. -/
def Image.protectPages (a : Image) (first n flags : Nat) : Image :=
  { a with
    pages := fun k =>
      if first ≤ k ∧ k < first + n then
        (a.pages k).map fun pg => { pg with flags := makePteFlags flags }
      else a.pages k }

/-- The bytes `f 0`, …, `f (n - 1)` are stored from `va` on. -/
def Image.store (a : Image) (va : Nat) (f : Nat → UInt8) (n : Nat) : Image :=
  { a with
    pages := fun k => (a.pages k).map fun pg =>
      { pg with
        byte := fun o =>
          if o < pageSize ∧ va ≤ k * pageSize + o ∧ k * pageSize + o < va + n then
            f (k * pageSize + o - va)
          else pg.byte o } }

theorem Sees.mapped_lt {D : Domain} {R : Set Nat} {a : Image} {st : ExecState}
    (h : Sees D R a st) {va : Nat} (hm : a.Mapped va) : va < 2 ^ 47 := by
  by_contra hge
  have hn : ¬ va / pageSize < 2 ^ 35 := by
    simp only [pageSize]
    omega
  rw [Image.Mapped, ← h.pages, space, if_neg hn] at hm
  simp at hm

theorem Image.store_zero (a : Image) (va : Nat) (f : Nat → UInt8) : a.store va f 0 = a := by
  unfold Image.store
  congr 1
  funext k
  have hid : ∀ pg : Page, (⟨pg.flags, fun o =>
      if o < pageSize ∧ va ≤ k * pageSize + o ∧ k * pageSize + o < va + 0 then
        f (k * pageSize + o - va) else pg.byte o⟩ : Page) = pg := by
    intro pg
    have hbyte : (fun o => if o < pageSize ∧ va ≤ k * pageSize + o ∧ k * pageSize + o < va + 0 then
        f (k * pageSize + o - va) else pg.byte o) = pg.byte := by
      funext o
      rw [if_neg]
      omega
    rw [hbyte]
  cases a.pages k with
  | none => rfl
  | some pg => exact congrArg some (hid pg)

theorem Image.store_mapped {a : Image} {va : Nat} {f : Nat → UInt8} {n v : Nat} :
    (a.store va f n).Mapped v ↔ a.Mapped v := by
  simp [Image.Mapped, Image.store]

/-- Storing one byte more. -/
theorem Image.store_succ (a : Image) (va : Nat) (f : Nat → UInt8) (n : Nat) :
    (a.store va f n).store (va + n) (fun _ => f n) 1 = a.store va f (n + 1) := by
  unfold Image.store
  congr 1
  funext k
  dsimp only
  cases a.pages k with
  | none => rfl
  | some pg =>
      simp only [Option.map_some, Option.some.injEq, Page.mk.injEq, true_and]
      funext o
      by_cases ho : o < pageSize
      · by_cases heq : k * pageSize + o = va + n
        · rw [if_pos (by omega), if_pos (by omega), heq, Nat.add_sub_cancel_left]
        · rw [if_neg (by omega)]
          by_cases hin : va ≤ k * pageSize + o ∧ k * pageSize + o < va + n
          · rw [if_pos ⟨ho, hin⟩, if_pos ⟨ho, hin.1, by omega⟩]
          · rw [if_neg (fun hc => hin hc.2), if_neg (by omega)]
      · rw [if_neg (fun hc => ho hc.1), if_neg (fun hc => ho hc.1), if_neg (fun hc => ho hc.1)]

/-- The bytes after a store. -/
theorem Image.byte_store (a : Image) (va : Nat) (f : Nat → UInt8) (n x : Nat) :
    (a.store va f n).byte x =
      if va ≤ x ∧ x < va + n then (a.byte x).map fun _ => f (x - va) else a.byte x := by
  have ho : x % pageSize < pageSize := Nat.mod_lt _ (by decide)
  have hx : x / pageSize * pageSize + x % pageSize = x := Nat.div_add_mod' x pageSize
  rw [Image.byte, Image.byte, Image.store]
  dsimp only
  cases a.pages (x / pageSize) with
  | none => simp
  | some pg =>
      simp only [Option.map_some, hx]
      by_cases hin : va ≤ x ∧ x < va + n
      · rw [if_pos ⟨ho, hin⟩, if_pos hin]
      · rw [if_neg fun hc => hin hc.2, if_neg hin]

theorem Image.mapPages_zero (a : Image) (first flags : Nat) : a.mapPages first 0 flags = a := by
  unfold Image.mapPages
  congr 1
  funext k
  rw [if_neg (by omega)]

theorem Image.mapPages_succ (a : Image) (first n flags : Nat) :
    (a.mapPages first n flags).mapPages (first + n) 1 flags = a.mapPages first (n + 1) flags := by
  unfold Image.mapPages
  congr 1
  funext k
  dsimp only
  by_cases hk : k = first + n
  · rw [if_pos (by omega), if_pos (by omega)]
  · rw [if_neg (by omega)]
    by_cases hin : first ≤ k ∧ k < first + n
    · rw [if_pos hin, if_pos (by omega)]
    · rw [if_neg hin, if_neg (by omega)]

theorem Image.protectPages_zero (a : Image) (first flags : Nat) :
    a.protectPages first 0 flags = a := by
  unfold Image.protectPages
  congr 1
  funext k
  rw [if_neg (by omega)]

theorem Image.protectPages_succ (a : Image) (first n flags : Nat) :
    (a.protectPages first n flags).protectPages (first + n) 1 flags =
      a.protectPages first (n + 1) flags := by
  unfold Image.protectPages
  congr 1
  funext k
  dsimp only
  have hnot : ¬ (first ≤ first + n ∧ first + n < first + n) := by omega
  by_cases hk : k = first + n
  · subst hk
    rw [if_neg hnot, if_pos (by omega), if_pos (by omega)]
  · rw [if_neg (by omega)]
    by_cases hin : first ≤ k ∧ k < first + n
    · rw [if_pos hin, if_pos (by omega)]
    · rw [if_neg hin, if_neg (by omega)]

/-! ### Changes of bytes -/

/-- The images differ only in bytes from `lo` to below `hi`. -/
structure Image.Within (a b : Image) (lo hi : Nat) : Prop where
  flags : ∀ k, (b.pages k).map Page.flags = (a.pages k).map Page.flags
  bytes : ∀ x, x < lo ∨ hi ≤ x → b.byte x = a.byte x
  brk : b.brk = a.brk
  ctx : b.ctx = a.ctx

theorem Image.Within.refl (a : Image) (lo hi : Nat) : a.Within a lo hi :=
  ⟨fun _ => rfl, fun _ _ => rfl, rfl, rfl⟩

theorem Image.Within.trans {a b c : Image} {lo mid hi : Nat} (h : a.Within b mid hi)
    (h' : b.Within c lo mid) (hlo : lo ≤ mid) (hhi : mid ≤ hi) : a.Within c lo hi := by
  refine ⟨fun k => (h'.flags k).trans (h.flags k), fun x hx => ?_, h'.brk.trans h.brk,
    h'.ctx.trans h.ctx⟩
  rw [h'.bytes x (by omega), h.bytes x (by omega)]

theorem Image.Within.mono {a b : Image} {lo hi lo' hi' : Nat} (h : a.Within b lo hi)
    (hlo : lo' ≤ lo) (hhi : hi ≤ hi') : a.Within b lo' hi' :=
  ⟨h.flags, fun x hx => h.bytes x (by omega), h.brk, h.ctx⟩

theorem Image.store_within (a : Image) (va : Nat) (f : Nat → UInt8) (n : Nat) :
    a.Within (a.store va f n) va (va + n) := by
  refine ⟨fun k => ?_, fun x hx => ?_, rfl, rfl⟩
  · rw [Image.store, Option.map_map]
    rfl
  · rw [a.byte_store, if_neg (by omega)]

/-- Every address of the range is mapped. -/
def Image.MappedIn (a : Image) (lo hi : Nat) : Prop := ∀ x, lo ≤ x → x < hi → a.Mapped x

theorem Image.Within.mapped {a b : Image} {lo hi : Nat} (h : a.Within b lo hi) {x : Nat}
    (hx : a.Mapped x) : b.Mapped x := by
  have hflags := h.flags (x / pageSize)
  rw [Image.Mapped] at *
  rw [← Option.isSome_map, hflags, Option.isSome_map]
  exact hx

/-- The bytes of a list lie in memory from `va` on. -/
def Image.Holds (a : Image) (va : Nat) (l : List UInt8) : Prop :=
  ∀ i < l.length, a.byte (va + i) = l[i]?

theorem Image.Mapped.byte {a : Image} {va : Nat} (h : a.Mapped va) : (a.byte va).isSome := by
  rw [Image.byte, Option.isSome_map]
  exact h

/-- What has been stored can be read. -/
theorem Image.store_holds {a : Image} {va : Nat} {f : Nat → UInt8} {l : List UInt8}
    (hmap : ∀ i < l.length, a.Mapped (va + i)) (hf : ∀ i < l.length, l[i]? = some (f i)) :
    (a.store va f l.length).Holds va l := by
  intro i hi
  obtain ⟨b, hb⟩ := Option.isSome_iff_exists.1 (hmap i hi).byte
  rw [a.byte_store, if_pos (by omega), hb, hf i hi, Option.map_some, Nat.add_sub_cancel_left]

theorem Image.Holds.of_within {a b : Image} {lo hi va : Nat} {l : List UInt8} (h : a.Holds va l)
    (hw : a.Within b lo hi) (hout : va + l.length ≤ lo ∨ hi ≤ va) : b.Holds va l :=
  fun i hi' => (hw.bytes _ (by omega)).trans (h i hi')

end FiFi.Exec
