import FiFi.Library.KeyedTable
import FiFi.Library.StateMachine
import FiFi.Ush.Shell
import Mathlib.Tactic

/-!
# The variables of the shell

`env_set` and `env_unset` as operations on a finite map from keys to values. A new key
is cut to 31 characters when it is stored, and it is compared in full when it is looked
for. So a key that is longer is not found again, and each `env_set` of it stores one
more variable under the cut key.
-/

namespace FiFi.Ush

open StateMachine AssocList

inductive EnvOp
  | set (key val : List UInt8)
  | unset (key : List UInt8)
  deriving DecidableEq

def EnvOp.key : EnvOp → List UInt8
  | .set key _ => key
  | .unset key => key

/-- The value that a key has after the operation, if it has one. -/
def EnvOp.value : EnvOp → Option (List UInt8)
  | .set _ val => some (val.take (envValMax - 1))
  | .unset _ => none

def envStep (env : Env) : EnvOp → Env
  | .set key val => envSet env key val
  | .unset key => envUnset env key

/-- `ush_build_envp` -/
def ushBuildEnvp (env : Env) : List (List UInt8) :=
  (env.take envMax).map fun kv =>
    kv.1.take (envKeyMax - 1) ++ equals :: kv.2.take (envValMax - 1)

/-! ### One operation -/

theorem envGet_eq (env : Env) (key : List UInt8) : envGet env key = env.lookup key := by
  unfold envGet
  induction env with
  | nil => rfl
  | cons kv env ih =>
      obtain ⟨k, v⟩ := kv
      rw [List.find?_cons, List.lookup_cons]
      by_cases h : k = key
      · subst h
        simp
      · rw [show (decide (k = key)) = false from decide_eq_false h,
          show (key == k) = false from beq_false_of_ne (Ne.symm h)]
        exact ih

variable {env : Env} {key val : List UInt8}

/-- A variable that is set stands at one place, and not before it. -/
theorem exists_of_lookup {x : List UInt8} (h : env.lookup key = some x) :
    ∃ l l', env = l ++ (key, x) :: l' ∧ ∀ p ∈ l, p.1 ≠ key := by
  obtain ⟨l, l', henv, hl⟩ := List.lookup_eq_some_iff.1 h
  exact ⟨l, l', henv, fun p hp hk => by simpa [hk] using hl p hp⟩

theorem modify_length {α : Type*} (f : α → α) (a : α) (l l' : List α) :
    (l ++ a :: l').modify l.length f = l ++ f a :: l' := by
  induction l with
  | nil => rfl
  | cons b l ih =>
      rw [List.cons_append, List.length_cons, List.modify_succ_cons, ih, List.cons_append]

theorem envSet_of_lookup {l l' : Env} {x : List UInt8} (hl : ∀ p ∈ l, p.1 ≠ key) :
    envSet (l ++ (key, x) :: l') key val = l ++ (key, val.take (envValMax - 1)) :: l' := by
  have hnone : l.findIdx? (fun kv => decide (kv.1 = key)) = none :=
    List.findIdx?_eq_none_iff.2 fun p hp => decide_eq_false (hl p hp)
  have hidx : (l ++ (key, x) :: l').findIdx? (fun kv => decide (kv.1 = key)) = some l.length := by
    rw [List.findIdx?_append, hnone, List.findIdx?_cons]
    simp
  simp only [envSet, hidx]
  exact modify_length _ _ _ _

theorem envSet_of_none (h : env.lookup key = none) :
    envSet env key val =
      if env.length < envMax then
        env ++ [(key.take (envKeyMax - 1), val.take (envValMax - 1))]
      else env := by
  have hidx : env.findIdx? (fun kv => decide (kv.1 = key)) = none := by
    refine List.findIdx?_eq_none_iff.2 fun p hp => decide_eq_false fun hk => ?_
    exact lookup_eq_none_iff_notMem.1 h (hk ▸ List.mem_map_of_mem hp)
  simp only [envSet, hidx]

theorem envUnset_of_lookup {l l' : Env} {x : List UInt8} (hl : ∀ p ∈ l, p.1 ≠ key) :
    envUnset (l ++ (key, x) :: l') key = l ++ l' := by
  unfold envUnset
  rw [List.eraseP_append_right _ fun p hp => by simpa using hl p hp]
  simp

theorem envUnset_of_none (h : env.lookup key = none) : envUnset env key = env := by
  refine List.eraseP_of_forall_not fun p hp hk => ?_
  exact lookup_eq_none_iff_notMem.1 h (of_decide_eq_true hk ▸ List.mem_map_of_mem hp)

/-! ### Sizes -/

/-- What is stored fits into the arrays. -/
structure Bounded (env : Env) : Prop where
  length : env.length ≤ envMax
  key p : p ∈ env → p.1.length ≤ envKeyMax - 1
  val p : p ∈ env → p.2.length ≤ envValMax - 1

theorem bounded_nil : Bounded [] :=
  ⟨Nat.zero_le _, fun _ h => absurd h List.not_mem_nil, fun _ h => absurd h List.not_mem_nil⟩

theorem Bounded.step (h : Bounded env) (op : EnvOp) : Bounded (envStep env op) := by
  cases op with
  | set key val =>
      change Bounded (envSet env key val)
      cases hlook : env.lookup key with
      | some x =>
          obtain ⟨l, l', rfl, hl⟩ := exists_of_lookup hlook
          rw [envSet_of_lookup hl]
          refine ⟨by simpa using h.length, fun p hp => ?_, fun p hp => ?_⟩
          · rcases List.mem_append.1 hp with hp | hp
            · exact h.key p (List.mem_append_left _ hp)
            · rcases List.mem_cons.1 hp with rfl | hp
              · exact h.key (key, x) (List.mem_append_right _ List.mem_cons_self)
              · exact h.key p (List.mem_append_right _ (List.mem_cons_of_mem _ hp))
          · rcases List.mem_append.1 hp with hp | hp
            · exact h.val p (List.mem_append_left _ hp)
            · rcases List.mem_cons.1 hp with rfl | hp
              · exact List.length_take_le _ _
              · exact h.val p (List.mem_append_right _ (List.mem_cons_of_mem _ hp))
      | none =>
          rw [envSet_of_none hlook]
          split_ifs with hn
          · refine ⟨?_, fun p hp => ?_, fun p hp => ?_⟩
            · rw [List.length_append, List.length_singleton]
              omega
            · rcases List.mem_append.1 hp with hp | hp
              · exact h.key p hp
              · rw [List.mem_singleton.1 hp]
                exact List.length_take_le _ _
            · rcases List.mem_append.1 hp with hp | hp
              · exact h.val p hp
              · rw [List.mem_singleton.1 hp]
                exact List.length_take_le _ _
          · exact h
  | unset key =>
      have hsub : (envUnset env key).Sublist env := List.eraseP_sublist
      exact ⟨hsub.length_le.trans h.length, fun p hp => h.key p (hsub.subset hp),
        fun p hp => h.val p (hsub.subset hp)⟩

theorem bounded_run (ops : List EnvOp) : Bounded (run envStep [] ops) := by
  have hstep : ∀ env op, Bounded env → True → Bounded (envStep env op) := fun _ op h _ => h.step op
  exact inv_run Bounded hstep bounded_nil (allSteps_true envStep [] ops)

/-- A key that is longer than the array is not found. -/
theorem Bounded.envGet_eq_none (h : Bounded env) (hkey : envKeyMax - 1 < key.length) :
    envGet env key = none := by
  rw [envGet_eq, lookup_eq_none_iff_notMem]
  intro hmem
  obtain ⟨p, hp, rfl⟩ := List.mem_map.1 hmem
  have := h.key p hp
  omega

/-! ### The map -/

/-- Fewer than `ENV_MAX` variables are set, or the key is one of them. -/
def HasRoom (env : Env) : EnvOp → Prop
  | .set key _ => env.length < envMax ∨ (envGet env key).isSome
  | .unset _ => True

/-- The key of an `env_set` fits into its array. -/
def EnvOp.Short : EnvOp → Prop
  | .set key _ => key.length ≤ envKeyMax - 1
  | .unset _ => True

theorem nodup_step (h : (env.map Prod.fst).Nodup) {op : EnvOp} (hshort : op.Short) :
    ((envStep env op).map Prod.fst).Nodup := by
  cases op with
  | set key val =>
      change ((envSet env key val).map Prod.fst).Nodup
      cases hlook : env.lookup key with
      | some x =>
          obtain ⟨l, l', rfl, hl⟩ := exists_of_lookup hlook
          rw [envSet_of_lookup hl]
          simpa using h
      | none =>
          rw [envSet_of_none hlook]
          split_ifs with hn
          · rw [List.take_of_length_le hshort]
            rw [← List.append_nil env] at h hlook
            exact nodup_insert h hlook _
          · exact h
  | unset key => exact h.sublist (List.eraseP_sublist.map Prod.fst)

/-- The value of the key of the operation is what it says, and no other key is touched. -/
theorem envGet_step (h : (env.map Prod.fst).Nodup) {op : EnvOp} (hshort : op.Short)
    (hroom : HasRoom env op) (k : List UInt8) :
    envGet (envStep env op) k = if k = op.key then op.value else envGet env k := by
  simp only [envGet_eq]
  cases op with
  | set key val =>
      change (envSet env key val).lookup k = if k = key then some (val.take _) else _
      cases hlook : env.lookup key with
      | some x =>
          obtain ⟨l, l', rfl, hl⟩ := exists_of_lookup hlook
          have hnew : (l ++ l').lookup key = none := by
            rw [lookup_remove h, beq_self_eq_true, if_pos rfl]
          rw [envSet_of_lookup hl, lookup_insert hnew, lookup_insert hnew]
          by_cases hk : k = key
          · simp [hk]
          · simp [hk]
      | none =>
          have hn : env.length < envMax := by
            rcases hroom with hn | hsome
            · exact hn
            · rw [envGet_eq, hlook] at hsome
              cases hsome
          rw [envSet_of_none hlook, if_pos hn, List.take_of_length_le hshort]
          rw [← List.append_nil env] at hlook
          rw [lookup_insert hlook, List.append_nil]
          by_cases hk : k = key
          · simp [hk]
          · simp [hk]
  | unset key =>
      change (envUnset env key).lookup k = if k = key then none else _
      cases hlook : env.lookup key with
      | some x =>
          obtain ⟨l, l', rfl, hl⟩ := exists_of_lookup hlook
          rw [envUnset_of_lookup hl, lookup_remove h]
          by_cases hk : k = key
          · simp [hk]
          · simp [hk]
      | none =>
          rw [envUnset_of_none hlook]
          split_ifs with hk
          · rw [hk, hlook]
          · rfl

/-- The value of the last `env_set` of the key that no `env_unset` follows. -/
def lastValue (ops : List EnvOp) (key : List UInt8) : Option (List UInt8) :=
  (ops.reverse.find? fun op => op.key = key).bind EnvOp.value

theorem lastValue_append (ops : List EnvOp) (op : EnvOp) (key : List UInt8) :
    lastValue (ops ++ [op]) key = if key = op.key then op.value else lastValue ops key := by
  unfold lastValue
  rw [List.reverse_append, List.reverse_singleton, List.singleton_append, List.find?_cons]
  split_ifs with h
  · rw [h, decide_eq_true rfl]
    rfl
  · rw [decide_eq_false (Ne.symm h)]

/-- The strings for a child are `KEY=VALUE`, one for each variable. -/
def Exports (env : Env) : Prop :=
  ∃ vars : List (List UInt8 × List UInt8), (vars.map Prod.fst).Nodup ∧
    (∀ key val, (key, val) ∈ vars ↔ envGet env key = some val) ∧
    ushBuildEnvp env = vars.map fun kv => kv.1 ++ equals :: kv.2

theorem exports_of_nodup (h : (env.map Prod.fst).Nodup) (hb : Bounded env) : Exports env := by
  refine ⟨env, h, fun key val => ?_, ?_⟩
  · rw [envGet_eq]
    exact (lookup_eq_some_iff_mem h).symm
  · unfold ushBuildEnvp
    rw [List.take_of_length_le hb.length]
    refine List.map_congr_left fun p hp => ?_
    rw [List.take_of_length_le (hb.key p hp), List.take_of_length_le (hb.val p hp)]

/-- The stored variables are the map that the operations describe. -/
structure IsEnvMap (ops : List EnvOp) (env : Env) : Prop where
  keys : (env.map Prod.fst).Nodup
  get key : envGet env key = lastValue ops key
  exports : Exports env

/-- The operation changes the value of its own key only. -/
def Isolated (env : Env) (op : EnvOp) : Prop :=
  ∀ key, key ≠ op.key → envGet (envStep env op) key = envGet env key

theorem isEnvMap_run {ops : List EnvOp} (hroom : AllSteps envStep HasRoom [] ops)
    (hshort : ∀ op ∈ ops, op.Short) : IsEnvMap ops (run envStep [] ops) := by
  induction ops using List.reverseRecOn with
  | nil => exact ⟨List.nodup_nil, fun _ => rfl, exports_of_nodup List.nodup_nil bounded_nil⟩
  | append_singleton ops op ih =>
      obtain ⟨hpre, hop, -⟩ := (allSteps_append envStep HasRoom [] ops [op]).1 hroom
      have hmap := ih hpre fun o ho => hshort o (List.mem_append_left _ ho)
      have hs : op.Short := hshort op (List.mem_append_right _ (List.mem_singleton_self op))
      have hrun : run envStep [] (ops ++ [op]) = envStep (run envStep [] ops) op := by
        rw [run_append]
        rfl
      have hnodup := nodup_step hmap.keys hs
      rw [hrun]
      refine ⟨hnodup, fun key => ?_, exports_of_nodup hnodup ((bounded_run ops).step op)⟩
      rw [envGet_step hmap.keys hs hop, lastValue_append, hmap.get]

/-- As long as there is room, the shell environment is a finite map if and only if every
key that is set fits into its array. -/
theorem isEnvMap_run_iff {ops : List EnvOp} (hroom : AllSteps envStep HasRoom [] ops) :
    ((∀ pre, pre <+: ops → IsEnvMap pre (run envStep [] pre)) ∧
      ∀ pre op, pre ++ [op] <+: ops → Isolated (run envStep [] pre) op) ↔
      ∀ op ∈ ops, op.Short := by
  have hpre : ∀ {pre}, pre <+: ops → AllSteps envStep HasRoom [] pre := by
    rintro pre ⟨post, rfl⟩
    exact ((allSteps_append envStep HasRoom [] pre post).1 hroom).1
  constructor
  · rintro ⟨hmap, -⟩ op hop
    cases op with
    | unset key => trivial
    | set key val =>
        by_contra hlong
        obtain ⟨pre, post, rfl⟩ := List.append_of_mem hop
        have hp : pre ++ [.set key val] <+: pre ++ .set key val :: post := by simp
        have hown : key = (EnvOp.set key val).key := rfl
        have hget := (hmap _ hp).get key
        rw [(bounded_run _).envGet_eq_none (not_le.1 hlong), lastValue_append, if_pos hown] at hget
        cases hget
  · intro hshort
    have hs : ∀ {pre}, pre <+: ops → ∀ op ∈ pre, op.Short :=
      fun hp op hop => hshort op (hp.subset hop)
    refine ⟨fun pre hp => isEnvMap_run (hpre hp) (hs hp), fun pre op hp key hkey => ?_⟩
    obtain ⟨hroom', hop, -⟩ := (allSteps_append envStep HasRoom [] pre [op]).1 (hpre hp)
    have hp' : pre <+: ops := (List.prefix_append pre [op]).trans hp
    have hmap := isEnvMap_run hroom' (hs hp')
    rw [envGet_step hmap.keys (hs hp op (by simp)) hop, if_neg hkey]

/-- `A=B`, then `unset A`. -/
theorem isEnvMap_run_iff_unset :
    envGet (run envStep [] [.set [65] [66], .unset [65]]) [65] = none := by
  have hroom : AllSteps envStep HasRoom [] [.set [65] [66], .unset [65]] :=
    ⟨Or.inl (by decide), trivial, trivial⟩
  have hmap := ((isEnvMap_run_iff hroom).2 (by
    intro op hop
    rcases List.mem_cons.1 hop with rfl | hop
    · exact (by decide : [65].length ≤ envKeyMax - 1)
    · rw [List.mem_singleton.1 hop]
      trivial)).1 _ List.prefix_rfl
  exact hmap.get [65]

/-- A key of 32 characters is set twice: it is not found, and its cut form is stored
twice. -/
theorem not_isEnvMap_long :
    AllSteps envStep HasRoom [] (List.replicate 2 (.set (List.replicate 32 65) [66])) ∧
      envGet (run envStep [] (List.replicate 2 (.set (List.replicate 32 65) [66])))
        (List.replicate 32 65) = none ∧
      ¬ IsEnvMap (List.replicate 2 (.set (List.replicate 32 65) [66]))
        (run envStep [] (List.replicate 2 (.set (List.replicate 32 65) [66]))) := by
  refine ⟨⟨Or.inl (by decide), Or.inl (by decide), trivial⟩, by decide, fun h => ?_⟩
  exact absurd h.keys (by decide)

end FiFi.Ush
