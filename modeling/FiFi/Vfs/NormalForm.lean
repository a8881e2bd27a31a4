import FiFi.Vfs.Components

/-!
# The normal form of a path

The normal form of a path relative to a working directory is written from its
components: the empty ones and `.` are dropped, and `..` takes the last one away.
`path_resolve` computes it in one pass over two buffers. No component gets cut
off: the path with the working directory in front fits `tmp`, and `norm` is too
small for it only at its last byte, which is past the 255 bytes of an answer.
-/

namespace FiFi.Vfs

/-- The components of the normal form. -/
def normalFormComps (cwd input : List UInt8) : List (List UInt8) :=
  ((if input.head? = some slash then [] else cwd.splitOn slash) ++ input.splitOn slash).foldl
    pushComp []

/-- The normal form of `input` relative to `cwd`. -/
def normalForm (cwd input : List UInt8) : List UInt8 := pathOf (normalFormComps cwd input)

/-- An absolute path without empty components, `.` and `..`, and without a slash at the
end. -/
structure NormalPath (p : List UInt8) : Prop where
  absolute : p.head? = some slash
  plain : p = [slash] ∨ ∀ c ∈ p.tail.splitOn slash, Plain c
  bare : p.getLast? = some slash → p = [slash]

/-! ### Room for the components -/

/-- The number of bytes of a string with these components, and one slash more. -/
def weight (comps : List (List UInt8)) : Nat := (comps.map fun c => c.length + 1).sum

theorem weight_splitOn (l : List UInt8) : weight (l.splitOn slash) = l.length + 1 := by
  induction l with
  | nil => rfl
  | cons x l ih =>
      rw [List.splitOn_cons_eq_if_modifyHead]
      split
      · rw [weight, List.map_cons, List.sum_cons, ← weight, ih, List.length_nil, List.length_cons]
        omega
      · cases hl : l.splitOn slash with
        | nil => exact absurd hl (List.splitOn_ne_nil slash l)
        | cons c cs =>
            rw [hl, weight, List.map_cons, List.sum_cons] at ih
            rw [List.modifyHead_cons, weight, List.map_cons, List.sum_cons, List.length_cons,
              List.length_cons]
            omega

theorem weight_eq_zero {comps : List (List UInt8)} (h : weight comps = 0) : comps = [] := by
  cases comps with
  | nil => rfl
  | cons c comps =>
      rw [weight, List.map_cons, List.sum_cons] at h
      omega

theorem length_render (cs : List (List UInt8)) : (render cs).length = 1 + weight cs := by
  induction cs with
  | nil => rfl
  | cons c cs ih =>
      rw [weight, List.map_cons, List.sum_cons, ← weight]
      simp only [render, List.flatMap_cons, List.length_cons, List.length_append,
        List.length_nil] at ih ⊢
      omega

theorem weight_pushComp (cs : List (List UInt8)) (c : List UInt8) :
    weight (pushComp cs c) ≤ weight cs + (c.length + 1) := by
  unfold pushComp
  split
  · omega
  · split
    · rcases List.eq_nil_or_concat cs with rfl | ⟨init, d, rfl⟩
      · exact Nat.zero_le _
      · rw [List.concat_eq_append, List.dropLast_concat]
        simp only [weight, List.map_append, List.sum_append]
        omega
    · simp [weight]

/-- A component that `norm` has no room for would fill it. -/
theorem pathStep_none {cs : List (List UInt8)} {c : List UInt8}
    (h : pathStep (some (render cs)) c = none) :
    pathBuf ≤ 1 + weight (pushComp cs c) ∧ pathBuf ≤ 1 + weight cs + (c.length + 1) := by
  simp only [pathStep, Option.bind_some] at h
  split at h
  · cases h
  · split at h
    · cases h
    · rename_i hskip hdots
      split at h
      · rename_i hroom
        rw [length_render] at hroom
        have hpush : weight (pushComp cs c) = weight cs + (c.length + 1) := by
          simp [pushComp, hskip, hdots, weight]
        omega
      · cases h

/-- If the string is no longer than `norm`, all components get through, or the answer
fills `norm`. -/
theorem foldl_pathStep_total {cs comps : List (List UInt8)} (h : Proper cs)
    (hcomps : ∀ c ∈ comps, slash ∉ c) (hfit : 1 + weight cs + weight comps ≤ pathBuf) :
    comps.foldl pathStep (some (render cs)) = some (render (comps.foldl pushComp cs)) ∨
      comps.foldl pathStep (some (render cs)) = none ∧
        pathBuf ≤ 1 + weight (comps.foldl pushComp cs) := by
  induction comps generalizing cs with
  | nil => exact Or.inl rfl
  | cons c comps ih =>
      have hw : weight (c :: comps) = c.length + 1 + weight comps := by
        simp [weight]
      have hpush := weight_pushComp cs c
      rw [List.foldl_cons, List.foldl_cons]
      cases hstep : pathStep (some (render cs)) c with
      | none =>
          obtain ⟨hfull, hend⟩ := pathStep_none hstep
          have hnil : comps = [] := weight_eq_zero (by omega)
          subst hnil
          exact Or.inr ⟨rfl, hfull⟩
      | some norm =>
          rw [pathStep_render h hstep]
          exact ih (h.pushComp (hcomps c List.mem_cons_self))
            (fun d hd => hcomps d (List.mem_cons_of_mem _ hd)) (by omega)

/-! ### The components of the normal form -/

theorem foldl_pushComp_proper {cs : List (List UInt8)} (h : Proper cs) :
    cs.foldl pushComp [] = cs :=
  foldl_pushComp_plain fun c hc => (h c hc).1

/-- A normal path gives its components back. -/
theorem foldl_splitOn_pathOf {cs : List (List UInt8)} (h : Proper cs) :
    ((pathOf cs).splitOn slash).foldl pushComp [] = cs := by
  rw [pathOf, splitOn_slash_cons, List.foldl_cons]
  by_cases hne : cs = []
  · subst hne
    rfl
  · rw [splitOn_intercalate_proper h hne]
    exact foldl_pushComp_proper h

/-- What `path_resolve` goes through has the normal form's components. -/
theorem normalComps_eq {cs : List (List UInt8)} {input : List UInt8} (hcs : Proper cs)
    (hlen : (pathOf cs).length + input.length + 1 < pathBuf) :
    normalComps (pathOf cs) input = normalFormComps (pathOf cs) input := by
  unfold normalComps normalFormComps
  by_cases hhead : input.head? = some slash
  · rw [allComps_absolute hhead (by omega), if_pos hhead, List.nil_append]
    cases input with
    | nil => cases hhead
    | cons x input =>
        obtain rfl : x = slash := by simpa using hhead
        rw [splitOn_slash_cons]
        rfl
  · rw [if_neg hhead, List.foldl_append, foldl_splitOn_pathOf hcs]
    by_cases hne : cs = []
    · subst hne
      exact congrArg _ (allComps_root hhead (by omega))
    · rw [allComps_relative hcs hne hhead hlen, List.foldl_append, foldl_pushComp_proper hcs]

/-! ### The answer -/

theorem length_pathTmp (cwd input : List UInt8) : (pathTmp cwd input).length ≤ pathBuf - 1 := by
  unfold pathTmp
  split <;> exact List.length_take_le _ _

theorem length_pathOf (cs : List (List UInt8)) : weight cs ≤ (pathOf cs).length := by
  by_cases h : cs = []
  · subst h
    exact Nat.zero_le _
  · have hlen := length_render cs
    rw [render_eq_pathOf h, List.length_append, List.length_singleton] at hlen
    omega

/-- The answer is the path of the components, if it fits. -/
theorem pathResolve_eq (cwd input : List UInt8) :
    pathResolve 256 cwd input =
      if (pathOf (normalComps cwd input)).length ≤ 255 then some (pathOf (normalComps cwd input))
      else none := by
  have htmp := length_pathTmp cwd input
  have hweight : weight (allComps cwd input) ≤ pathBuf - 1 := by
    unfold allComps
    rw [weight_splitOn, List.length_tail]
    unfold pathBuf at *
    omega
  have hfit : 1 + weight [] + weight (allComps cwd input) ≤ pathBuf := by
    change 1 + 0 + _ ≤ _
    unfold pathBuf at *
    omega
  have htotal : (allComps cwd input).foldl pathStep (some (render [])) =
        some (render (normalComps cwd input)) ∨
      (allComps cwd input).foldl pathStep (some (render [])) = none ∧
        pathBuf ≤ 1 + weight (normalComps cwd input) :=
    foldl_pathStep_total proper_nil (slash_not_mem_splitOn _) hfit
  unfold pathResolve
  change ((allComps cwd input).foldl pathStep (some (render []))).bind _ = _
  rcases htotal with hfold | ⟨hfold, hfull⟩
  · rw [hfold, Option.bind_some, trimSlash_render]
    by_cases hlen : (pathOf (normalComps cwd input)).length ≤ 255
    · rw [if_neg (by omega), if_pos hlen]
    · rw [if_pos (by omega), if_neg hlen]
  · have hlen := length_pathOf (normalComps cwd input)
    rw [hfold, Option.bind_none, if_neg]
    unfold pathBuf at hfull
    omega

/-- The path of proper components is normal. -/
theorem normalPath_pathOf {cs : List (List UInt8)} (h : Proper cs) : NormalPath (pathOf cs) := by
  have hplain : pathOf cs = [slash] ∨ ∀ c ∈ (pathOf cs).tail.splitOn slash, Plain c := by
    by_cases hne : cs = []
    · subst hne
      exact Or.inl rfl
    · rw [pathOf, List.tail_cons, splitOn_intercalate_proper h hne]
      exact Or.inr fun c hc => (h c hc).1
  refine ⟨rfl, hplain, fun hlast => ?_⟩
  by_contra hroot
  refine getLast_pathOf h (fun hnil => hroot ?_) hlast
  rw [hnil]
  rfl

/-- A normal path that fits is its own answer. -/
theorem pathResolve_pathOf (cwd : List UInt8) {cs : List (List UInt8)} (h : Proper cs)
    (hlen : (pathOf cs).length ≤ 255) : pathResolve 256 cwd (pathOf cs) = some (pathOf cs) := by
  have hcomps : normalComps cwd (pathOf cs) = cs := by
    have hsplit := foldl_splitOn_pathOf h
    rw [pathOf, splitOn_slash_cons] at hsplit
    unfold normalComps
    rw [allComps_absolute rfl (by unfold pathBuf; omega)]
    exact hsplit
  rw [pathResolve_eq, hcomps, if_pos hlen]

/-- From a working directory that `path_resolve` has answered, a string of at most 255
bytes is answered with its normal form if that fits. The answer is normal and is its own
answer. -/
theorem pathResolve_normalForm {cwd input : List UInt8}
    (hcwd : cwd = [slash] ∨
      (∃ cap cwd' input', pathResolve cap cwd' input' = some cwd) ∧ cwd.length ≤ 255)
    (hinput : input.length ≤ 255) :
    pathResolve 256 cwd input =
        (if (normalForm cwd input).length ≤ 255 then some (normalForm cwd input) else none) ∧
      ∀ out, pathResolve 256 cwd input = some out →
        NormalPath out ∧ ∀ cwd', pathResolve 256 cwd' out = some out := by
  obtain ⟨cs, hcs, rfl, hlen⟩ : ∃ cs, Proper cs ∧ cwd = pathOf cs ∧ (pathOf cs).length ≤ 255 := by
    rcases hcwd with rfl | ⟨⟨cap, cwd', input', hres⟩, hlen⟩
    · exact ⟨[], proper_nil, rfl, by decide⟩
    · obtain ⟨hcs, rfl⟩ := pathResolve_some hres
      exact ⟨_, hcs, rfl, hlen⟩
  constructor
  · rw [pathResolve_eq, normalComps_eq hcs (by unfold pathBuf; omega)]
    rfl
  · intro out hout
    have hfit := pathResolve_length hout
    obtain ⟨hproper, rfl⟩ := pathResolve_some hout
    exact ⟨normalPath_pathOf hproper, fun cwd' => pathResolve_pathOf cwd' hproper (by omega)⟩

/-- The command `cd ../b/./` in `/a/c`. -/
theorem pathResolve_normalForm_dots :
    pathResolve 256 [slash, 97, slash, 99] [dot, dot, slash, 98, slash, dot, slash] =
      some [slash, 97, slash, 98] := by
  have hcwd : pathResolve 256 [slash] [97, slash, 99] = some [slash, 97, slash, 99] := by
    decide
  rw [(pathResolve_normalForm (Or.inr ⟨⟨256, [slash], [97, slash, 99], hcwd⟩, by decide⟩)
    (by decide)).1]
  decide

end FiFi.Vfs
