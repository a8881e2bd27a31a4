import FiFi.Vfs.Layers
import Mathlib.Tactic

/-!
# Paths as lists of components

While `path_resolve` runs, `norm` holds a list of components, each with a slash
behind it. On such lists a component is dropped, removes the last one or is
added, and the answer is the list written with single slashes. Components are
split off at slashes, so they hold none.
-/

namespace FiFi.Vfs

/-- A component that is stored: not empty and neither `.` nor `..`. -/
def Plain (c : List UInt8) : Prop := c ≠ [] ∧ c ≠ [dot] ∧ c ≠ [dot, dot]

instance (c : List UInt8) : Decidable (Plain c) := inferInstanceAs (Decidable (_ ∧ _))

/-- The effect of a component. -/
def pushComp (cs : List (List UInt8)) (c : List UInt8) : List (List UInt8) :=
  if c = [] ∨ c = [dot] then cs else if c = [dot, dot] then cs.dropLast else cs ++ [c]

/-- The contents of `norm`. -/
def render (cs : List (List UInt8)) : List UInt8 := slash :: cs.flatMap fun c => c ++ [slash]

/-- The path with these components. -/
def pathOf (cs : List (List UInt8)) : List UInt8 := slash :: [slash].intercalate cs

/-- Components as they are in `norm`. -/
def Proper (cs : List (List UInt8)) : Prop := ∀ c ∈ cs, Plain c ∧ slash ∉ c

/-! ### Splitting -/

theorem slash_not_mem_splitOn (l : List UInt8) : ∀ c ∈ l.splitOn slash, slash ∉ c := by
  induction l with
  | nil => simp
  | cons x l ih =>
      rw [List.splitOn_cons_eq_if_modifyHead]
      split
      · intro c hc
        rcases List.mem_cons.1 hc with rfl | hc
        · exact List.not_mem_nil
        · exact ih c hc
      · rename_i hx
        have hx : slash ≠ x := fun h => hx (beq_iff_eq.2 h.symm)
        cases hl : l.splitOn slash with
        | nil => exact absurd hl (List.splitOn_ne_nil slash l)
        | cons d ds =>
            rw [hl] at ih
            intro c hc
            rw [List.modifyHead_cons] at hc
            rcases List.mem_cons.1 hc with rfl | hc
            · simpa [hx] using ih d List.mem_cons_self
            · exact ih c (List.mem_cons_of_mem _ hc)

theorem splitOn_slash_cons (l : List UInt8) :
    (slash :: l).splitOn slash = [] :: l.splitOn slash := by
  rw [List.splitOn_cons_eq_if_modifyHead, if_pos (by rfl)]

/-! ### The contents of `norm` -/

theorem render_append (cs : List (List UInt8)) (c : List UInt8) :
    render (cs ++ [c]) = render cs ++ c ++ [slash] := by
  simp [render]

theorem render_getLast (cs : List (List UInt8)) : (render cs).getLast? = some slash := by
  rcases List.eq_nil_or_concat cs with rfl | ⟨cs, c, rfl⟩
  · rfl
  · rw [List.concat_eq_append, render_append, List.getLast?_append]
    rfl

theorem one_lt_length_render {cs : List (List UInt8)} : 1 < (render cs).length ↔ cs ≠ [] := by
  cases cs with
  | nil => simp [render]
  | cons c cs => simp [render]

theorem rdropWhile_append_slash (l c : List UInt8) (hl : l.getLast? = some slash)
    (hc : slash ∉ c) : (l ++ c).rdropWhile (· ≠ slash) = l := by
  induction c using List.reverseRecOn with
  | nil =>
      rw [List.append_nil, List.rdropWhile_eq_self_iff]
      intro hne
      rw [List.getLast?_eq_some_getLast hne, Option.some.injEq] at hl
      simp [hl]
  | append_singleton c x ih =>
      simp only [List.mem_append, List.mem_singleton, not_or] at hc
      rw [← List.append_assoc, List.rdropWhile_concat_pos _ _ _ (by simpa using Ne.symm hc.2)]
      exact ih hc.1

/-- `..` takes the last component away. -/
theorem popComponent_render {cs : List (List UInt8)} {c : List UInt8} (hc : slash ∉ c) :
    popComponent (render (cs ++ [c])) = render cs := by
  unfold popComponent
  rw [render_getLast, if_pos rfl, render_append, List.dropLast_concat]
  exact rdropWhile_append_slash _ _ (render_getLast cs) hc

theorem Proper.pushComp {cs : List (List UInt8)} {c : List UInt8} (h : Proper cs)
    (hc : slash ∉ c) : Proper (pushComp cs c) := by
  unfold Vfs.pushComp
  split
  · exact h
  · split
    · exact fun d hd => h d (List.dropLast_subset cs hd)
    · rename_i hskip hdots
      intro d hd
      rcases List.mem_append.1 hd with hd | hd
      · exact h d hd
      · obtain rfl := List.mem_singleton.1 hd
        exact ⟨⟨fun h => hskip (Or.inl h), fun h => hskip (Or.inr h), hdots⟩, hc⟩

/-- One component, if there is room for it. -/
theorem pathStep_render {cs : List (List UInt8)} {c norm : List UInt8} (h : Proper cs)
    (hstep : pathStep (some (render cs)) c = some norm) : norm = render (pushComp cs c) := by
  simp only [pathStep, Option.bind_some] at hstep
  unfold pushComp
  split
  · rename_i hskip
    rw [if_pos hskip] at hstep
    exact (Option.some.inj hstep).symm
  · rename_i hskip
    rw [if_neg hskip] at hstep
    split
    · rename_i hdots
      rw [if_pos hdots] at hstep
      rcases List.eq_nil_or_concat cs with rfl | ⟨cs, d, rfl⟩
      · exact (Option.some.inj hstep).symm
      · rw [List.concat_eq_append] at hstep h ⊢
        have hlong : 1 < (render (cs ++ [d])).length := one_lt_length_render.2 (by simp)
        rw [if_pos hlong, popComponent_render (h d (by simp)).2] at hstep
        rw [List.dropLast_concat]
        exact (Option.some.inj hstep).symm
    · rename_i hdots
      rw [if_neg hdots] at hstep
      split at hstep
      · cases hstep
      · rw [render_append]
        exact (Option.some.inj hstep).symm

theorem foldl_pathStep_none (comps : List (List UInt8)) : comps.foldl pathStep none = none := by
  induction comps with
  | nil => rfl
  | cons c comps ih => exact ih

/-- All components of a string. -/
theorem foldl_pathStep_render {cs comps : List (List UInt8)} {norm : List UInt8} (h : Proper cs)
    (hcomps : ∀ c ∈ comps, slash ∉ c)
    (hfold : comps.foldl pathStep (some (render cs)) = some norm) :
    Proper (comps.foldl pushComp cs) ∧ norm = render (comps.foldl pushComp cs) := by
  induction comps generalizing cs with
  | nil => exact ⟨h, (Option.some.inj hfold).symm⟩
  | cons c comps ih =>
      rw [List.foldl_cons] at hfold ⊢
      cases hstep : pathStep (some (render cs)) c with
      | none =>
          rw [hstep, foldl_pathStep_none] at hfold
          cases hfold
      | some n =>
          rw [hstep, pathStep_render h hstep] at hfold
          exact ih (h.pushComp (hcomps c List.mem_cons_self))
            (fun d hd => hcomps d (List.mem_cons_of_mem _ hd)) hfold

/-- Plain components are added, if there is room for all of them. -/
theorem foldl_pathStep_plain {cs comps : List (List UInt8)} (hplain : ∀ c ∈ comps, Plain c)
    (hroom : (render (cs ++ comps)).length < pathBuf) :
    comps.foldl pathStep (some (render cs)) = some (render (cs ++ comps)) := by
  induction comps generalizing cs with
  | nil => simp
  | cons c comps ih =>
      have hc := hplain c List.mem_cons_self
      have hassoc : cs ++ c :: comps = cs ++ [c] ++ comps := by simp
      have hlen : (render (cs ++ [c])).length ≤ (render (cs ++ c :: comps)).length := by
        rw [hassoc]
        simp [render]
      rw [render_append] at hlen
      simp only [List.length_append, List.length_singleton] at hlen
      have hstep : pathStep (some (render cs)) c = some (render (cs ++ [c])) := by
        simp only [pathStep, Option.bind_some, hc.1, hc.2.1, hc.2.2, or_self, if_false]
        rw [if_neg (by omega), render_append]
      rw [List.foldl_cons, hstep, hassoc]
      refine ih (fun d hd => hplain d (List.mem_cons_of_mem _ hd)) ?_
      rwa [← hassoc]

theorem foldl_pushComp_plain {cs comps : List (List UInt8)} (hplain : ∀ c ∈ comps, Plain c) :
    comps.foldl pushComp cs = cs ++ comps := by
  induction comps generalizing cs with
  | nil => simp
  | cons c comps ih =>
      have hc := hplain c List.mem_cons_self
      have hpush : pushComp cs c = cs ++ [c] := by
        simp [pushComp, hc.1, hc.2.1, hc.2.2]
      rw [List.foldl_cons, hpush, ih fun d hd => hplain d (List.mem_cons_of_mem _ hd)]
      simp

/-! ### Written paths -/

theorem render_eq_pathOf {cs : List (List UInt8)} (h : cs ≠ []) :
    render cs = pathOf cs ++ [slash] := by
  have hjoin : ∀ {cs : List (List UInt8)}, cs ≠ [] →
      (cs.flatMap fun c => c ++ [slash]) = [slash].intercalate cs ++ [slash] := by
    intro cs
    induction cs with
    | nil => exact fun h => absurd rfl h
    | cons c cs ih =>
        intro _
        by_cases hcs : cs = []
        · subst hcs
          simp
        · rw [List.flatMap_cons, ih hcs, List.intercalate_cons_of_ne_nil hcs]
          simp
  rw [render, hjoin h, pathOf, List.cons_append]

theorem trimSlash_render (cs : List (List UInt8)) : trimSlash (render cs) = pathOf cs := by
  unfold trimSlash
  by_cases h : cs = []
  · subst h
    rfl
  · rw [if_pos ⟨one_lt_length_render.2 h, render_getLast cs⟩, render_eq_pathOf h,
      List.dropLast_concat]

/-- A path without its leading slash gives its components back. -/
theorem splitOn_intercalate_proper {cs : List (List UInt8)} (h : Proper cs) (hne : cs ≠ []) :
    ([slash].intercalate cs).splitOn slash = cs :=
  List.splitOn_intercalate slash (fun c hc => (h c hc).2) hne

theorem intercalate_eq_nil {cs : List (List UInt8)} (h : Proper cs)
    (hnil : [slash].intercalate cs = []) : cs = [] := by
  by_contra hne
  have hsplit := splitOn_intercalate_proper h hne
  rw [hnil, List.splitOn_nil] at hsplit
  exact (h [] (by simp [← hsplit])).1.1 rfl

theorem vfsNormPath_slash (l : List UInt8) : vfsNormPath (slash :: l) = vfsNormPath l := by
  simp [vfsNormPath]

theorem vfsNormPath_of_head_ne {l : List UInt8} (h : l.head? ≠ some slash) : vfsNormPath l = l := by
  cases l with
  | nil => rfl
  | cons x l =>
      have hx : x ≠ slash := by simpa using h
      simp [vfsNormPath, hx]

theorem vfsNormPath_pathOf {cs : List (List UInt8)} (h : Proper cs) :
    vfsNormPath (pathOf cs) = [slash].intercalate cs := by
  rw [pathOf, vfsNormPath_slash]
  refine vfsNormPath_of_head_ne fun hhead => ?_
  cases cs with
  | nil => cases hhead
  | cons c cs =>
      have hc := h c List.mem_cons_self
      cases c with
      | nil => exact hc.1.1 rfl
      | cons x c =>
          have hx : x = slash := by
            cases cs with
            | nil => simpa using hhead
            | cons d cs => simpa using hhead
          exact hc.2 (by simp [hx])

/-! ### The answer of `path_resolve` -/

/-- The components `path_resolve` goes through, if nothing is cut off. -/
def allComps (cwd input : List UInt8) : List (List UInt8) := (pathTmp cwd input).tail.splitOn slash

/-- The components of the answer. -/
def normalComps (cwd input : List UInt8) : List (List UInt8) :=
  (allComps cwd input).foldl pushComp []

theorem proper_nil : Proper [] := nofun

/-- An answer is the path of proper components. -/
theorem pathResolve_some {cap : Nat} {cwd input p : List UInt8}
    (h : pathResolve cap cwd input = some p) :
    Proper (normalComps cwd input) ∧ p = pathOf (normalComps cwd input) := by
  unfold pathResolve at h
  obtain ⟨norm, hfold, hnorm⟩ := Option.bind_eq_some_iff.1 h
  obtain ⟨hproper, hrender⟩ := foldl_pathStep_render proper_nil (slash_not_mem_splitOn _) hfold
  refine ⟨hproper, ?_⟩
  split at hnorm
  · cases hnorm
  · rw [hrender, trimSlash_render] at hnorm
    exact (Option.some.inj hnorm).symm

/-- Leading slashes do not matter once the string is cut into components. -/
theorem foldl_splitOn_norm {α : Type*} {f : α → List UInt8 → α} (hf : ∀ a, f a [] = a) (a : α)
    (l : List UInt8) :
    (l.splitOn slash).foldl f a = ((vfsNormPath l).splitOn slash).foldl f a := by
  induction l with
  | nil => rfl
  | cons x l ih =>
      by_cases hx : x = slash
      · subst hx
        rw [splitOn_slash_cons, List.foldl_cons, hf, vfsNormPath_slash, ih]
      · rw [vfsNormPath_of_head_ne (by simpa using hx)]

theorem pathStep_nil (norm : Option (List UInt8)) : pathStep norm [] = norm := by
  cases norm with
  | none => rfl
  | some n => simp [pathStep]

theorem pathTmp_absolute {cwd input : List UInt8} (h : input.head? = some slash)
    (hlen : input.length < pathBuf) : pathTmp cwd input = input := by
  cases input with
  | nil => cases h
  | cons x input =>
      obtain rfl : x = slash := by simpa using h
      unfold pathTmp
      rw [if_pos h]
      exact List.take_of_length_le (by simpa using Nat.le_sub_one_of_lt hlen)

theorem pathTmp_root {input : List UInt8} (h : input.head? ≠ some slash)
    (hlen : input.length + 1 < pathBuf) : pathTmp [slash] input = slash :: input := by
  unfold pathTmp
  rw [if_neg h]
  have hshort : (slash :: input).length ≤ pathBuf - 1 := by
    rw [List.length_cons]
    omega
  simpa [pathBuf] using List.take_of_length_le hshort

/-- An absolute string is cut into the components of what follows its slashes. -/
theorem allComps_absolute {cwd input : List UInt8} (h : input.head? = some slash)
    (hlen : input.length < pathBuf) : allComps cwd input = input.tail.splitOn slash := by
  rw [allComps, pathTmp_absolute h hlen]

theorem allComps_root {input : List UInt8} (h : input.head? ≠ some slash)
    (hlen : input.length + 1 < pathBuf) : allComps [slash] input = input.splitOn slash := by
  rw [allComps, pathTmp_root h hlen, List.tail_cons]

/-- A path other than the root does not end with a slash. -/
theorem getLast_pathOf {cs : List (List UInt8)} (h : Proper cs) (hne : cs ≠ []) :
    (pathOf cs).getLast? ≠ some slash := by
  rcases List.eq_nil_or_concat cs with rfl | ⟨init, c, rfl⟩
  · exact absurd rfl hne
  · rw [List.concat_eq_append] at h ⊢
    have hc := h c (by simp)
    have hr := render_eq_pathOf (show init ++ [c] ≠ [] by simp)
    rw [render_append] at hr
    rw [← List.append_cancel_right hr, List.getLast?_append_of_ne_nil _ hc.1.1]
    exact fun hmem => hc.2 (List.mem_of_getLast? hmem)

/-- A relative string is cut into the components of the working directory and its
own. -/
theorem allComps_relative {cs : List (List UInt8)} {input : List UInt8} (hcs : Proper cs)
    (hne : cs ≠ []) (h : input.head? ≠ some slash)
    (hlen : (pathOf cs).length + input.length + 1 < pathBuf) :
    allComps (pathOf cs) input = cs ++ input.splitOn slash := by
  have hcut : (pathOf cs).take (pathBuf - 2) = pathOf cs :=
    List.take_of_length_le (by omega)
  have hlast := getLast_pathOf hcs hne
  have hlong : 1 < (pathOf cs).length := by
    have hpos : [slash].intercalate cs ≠ [] := fun hnil => hne (intercalate_eq_nil hcs hnil)
    have := List.length_pos_iff.2 hpos
    simp only [pathOf, List.length_cons]
    omega
  have htmp : pathTmp (pathOf cs) input = pathOf cs ++ slash :: input := by
    unfold pathTmp
    rw [if_neg h]
    simp only [pathOf, List.head?_cons, if_true, List.tail_cons] at hcut hlast hlong ⊢
    rw [hcut, if_pos ⟨hlong, hlast⟩]
    have hfit : (slash :: [slash].intercalate cs ++ [slash] ++ input).length ≤ pathBuf - 1 := by
      simp only [pathOf, List.length_append, List.length_cons, List.length_nil] at hlen ⊢
      omega
    rw [List.take_of_length_le hfit]
    simp
  rw [allComps, htmp, pathOf, List.cons_append, List.tail_cons, List.splitOn_append_cons_self,
    splitOn_intercalate_proper hcs hne]

/-- A string that is in normal form but for its leading slashes is answered with its
normal form. -/
theorem pathResolve_plain (cwd : List UInt8) {input : List UInt8} (hlen : input.length < 256)
    (hfit : (vfsNormPath input).length < 255)
    (hroot : input.head? = some slash ∨ cwd = [slash])
    (hplain : ∀ c ∈ (vfsNormPath input).splitOn slash, Plain c) :
    pathResolve 256 cwd input = some (slash :: vfsNormPath input) := by
  generalize hcomps : (vfsNormPath input).splitOn slash = comps at hplain
  have hjoin : [slash].intercalate comps = vfsNormPath input := by
    rw [← hcomps, List.intercalate_splitOn]
  have hne : comps ≠ [] := hcomps ▸ List.splitOn_ne_nil slash _
  have hfold : (allComps cwd input).foldl pathStep (some [slash]) = some (render comps) := by
    have hall : (allComps cwd input).foldl pathStep (some [slash]) =
        ((vfsNormPath input).splitOn slash).foldl pathStep (some [slash]) := by
      by_cases hhead : input.head? = some slash
      · rw [allComps_absolute hhead (by unfold pathBuf; omega), foldl_splitOn_norm pathStep_nil]
        cases input with
        | nil => cases hhead
        | cons x input =>
            obtain rfl : x = slash := by simpa using hhead
            rw [List.tail_cons, vfsNormPath_slash]
      · rw [hroot.resolve_left hhead, allComps_root hhead (by unfold pathBuf; omega),
          foldl_splitOn_norm pathStep_nil]
    have hroom : (render ([] ++ comps)).length < pathBuf := by
      rw [List.nil_append, render_eq_pathOf hne, pathOf, hjoin]
      simp only [List.length_append, List.length_cons, List.length_nil, pathBuf]
      omega
    have hpush := foldl_pathStep_plain hplain hroom
    rw [hall, hcomps]
    exact hpush
  unfold pathResolve
  rw [show (pathTmp cwd input).tail.splitOn slash = allComps cwd input from rfl, hfold,
    Option.bind_some, trimSlash_render, pathOf, hjoin, if_neg]
  simp only [List.length_cons]
  omega

end FiFi.Vfs
