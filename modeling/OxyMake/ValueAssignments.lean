import Mathlib.Algebra.BigOperators.Group.Finset.Basic
import Mathlib.Algebra.Order.BigOperators.Ring.Finset
import Mathlib.Data.List.Dedup

/-!
# Assignments of listed values to names

Every name has a list of values. A loop over names writes each value of each name
into an environment, so a name that is met twice is written twice. The loop gives
one environment for each assignment exactly when some list is empty or every name
that is met twice has a single value.
-/

namespace OxyMake.ValueAssignments

open List Function

variable {N V M : Type} [DecidableEq N]

/-- The environments that a loop over names makes of one environment. -/
def assign (values : N → List V) : List N → (N → V) → List (N → V)
  | [], env => [env]
  | n :: names, env => (values n).flatMap fun v => assign values names (Function.update env n v)

/-- The assignments of listed values to names, as lists of entries. -/
def assignments (values : N → List V) : List N → List (List (N × V))
  | [] => [[]]
  | n :: names => (values n).flatMap fun v => (assignments values names).map ((n, v) :: ·)

/-- The environment that a list of entries makes of another. -/
def reads [BEq N] (env : N → V) (entries : List (N × V)) (n : N) : V :=
  (entries.lookup n).getD (env n)

/-- A name that is met twice has a single value. -/
def Settled [BEq N] (values : N → List V) (names : List N) : Prop :=
  ∀ n, 2 ≤ names.count n → (values n).length = 1

variable {values : N → List V}

/-! ### The loop -/

theorem length_assign (names : List N) (env : N → V) :
    (assign values names env).length = (names.map fun n => (values n).length).prod := by
  induction names generalizing env with
  | nil => rfl
  | cons n names ih =>
    rw [assign, length_flatMap, map_cons, prod_cons]
    have hconst : (values n).map (fun v => (assign values names (Function.update env n v)).length) =
        (values n).map fun _ => (names.map fun n => (values n).length).prod :=
      map_congr_left fun v _ => ih (Function.update env n v)
    rw [hconst, map_const', sum_replicate_nat]

omit [DecidableEq N] in
theorem length_assignments (names : List N) :
    (assignments values names).length = (names.map fun n => (values n).length).prod := by
  induction names with
  | nil => rfl
  | cons n names ih =>
    rw [assignments, length_flatMap, map_cons, prod_cons]
    have hconst : (values n).map (fun v => ((assignments values names).map ((n, v) :: ·)).length) =
        (values n).map fun _ => (names.map fun n => (values n).length).prod :=
      map_congr_left fun v _ => by rw [length_map, ih]
    rw [hconst, map_const', sum_replicate_nat]

theorem assign_congr {values' : N → List V} {names : List N}
    (h : ∀ n ∈ names, values n = values' n) (env : N → V) :
    assign values names env = assign values' names env := by
  induction names generalizing env with
  | nil => rfl
  | cons n names ih =>
    rw [assign, assign, h n mem_cons_self]
    exact flatMap_congr fun v _ => ih (fun m hm => h m (.tail n hm)) _

omit [DecidableEq N] in
theorem assignments_congr {values' : N → List V} {names : List N}
    (h : ∀ n ∈ names, values n = values' n) :
    assignments values names = assignments values' names := by
  induction names with
  | nil => rfl
  | cons n names ih =>
    rw [assignments, assignments, h n mem_cons_self,
      ih fun m hm => h m (.tail n hm)]

omit [DecidableEq N] in
theorem foldl_append_eq_assignments (names : List N) (result : List (List (N × V))) :
    (names.map fun n => (n, values n)).foldl (fun combos axis =>
      combos.flatMap fun combo => axis.2.map fun value => combo ++ [(axis.1, value)]) result =
      result.flatMap fun combo => (assignments values names).map (combo ++ ·) := by
  induction names generalizing result with
  | nil =>
    have hsingle : (fun combo => (assignments values []).map (combo ++ ·)) =
        fun combo : List (N × V) => [combo] := by
      funext combo
      exact congrArg (fun c => [c]) (append_nil combo)
    rw [hsingle, ← map_eq_flatMap, List.map_id']
    rfl
  | cons n names ih =>
    rw [map_cons, foldl_cons, ih, flatMap_assoc]
    refine flatMap_congr fun combo _ => ?_
    rw [flatMap_map, assignments, map_flatMap]
    refine flatMap_congr fun v _ => ?_
    rw [map_map]
    refine map_congr_left fun rest _ => ?_
    exact append_assoc combo [(n, v)] rest

theorem map_foldl_eq_assign (read : M → N → V) (add : N → V → M → M)
    (hadd : ∀ n v m, read (add n v m) = Function.update (read m) n v) (names : List N)
    (result : List M) :
    ((names.map fun n => (n, values n)).foldl (fun result e =>
      result.flatMap fun m => e.2.map fun v => add e.1 v m) result).map read =
      result.flatMap fun m => assign values names (read m) := by
  induction names generalizing result with
  | nil =>
    have hsingle : (fun m => assign values [] (read m)) = fun m => [read m] := rfl
    rw [hsingle, ← map_eq_flatMap]
    rfl
  | cons n names ih =>
    rw [map_cons, foldl_cons, ih, flatMap_assoc]
    refine flatMap_congr fun m _ => ?_
    rw [flatMap_map, assign]
    exact flatMap_congr fun v _ => by rw [hadd]

/-- What depends on some names is the same for environments that agree where the loop writes
nothing. -/
theorem map_assign_congr {T : Type} {read : (N → V) → T} {used : List N}
    (hread : ∀ env env', (∀ n ∈ used, env n = env' n) → read env = read env') {names : List N}
    {env env' : N → V} (h : ∀ n ∈ used, n ∉ names → env n = env' n) :
    (assign values names env).map read = (assign values names env').map read := by
  induction names generalizing env env' with
  | nil =>
    rw [assign, assign, map_singleton, map_singleton,
      hread env env' fun n hn => h n hn not_mem_nil]
  | cons m names ih =>
    rw [assign, assign, map_flatMap, map_flatMap]
    refine flatMap_congr fun v _ => ih fun n hn hnot => ?_
    by_cases heq : n = m
    · rw [heq, update_self, update_self]
    · rw [update_of_ne heq, update_of_ne heq]
      exact h n hn fun hmem => (mem_cons.mp hmem).elim heq hnot

omit [DecidableEq N] in
theorem keys_of_mem_assignments {names : List N} {entries : List (N × V)}
    (h : entries ∈ assignments values names) : entries.map Prod.fst = names := by
  induction names generalizing entries with
  | nil =>
    rw [mem_singleton.mp h]
    rfl
  | cons n names ih =>
    obtain ⟨v, -, hrest⟩ := mem_flatMap.mp h
    obtain ⟨_, hmem, rfl⟩ := mem_map.mp hrest
    rw [map_cons, ih hmem]

omit [DecidableEq N] in
theorem mem_assignments {names : List N} {entries : List (N × V)} :
    entries ∈ assignments values names ↔
      entries.map Prod.fst = names ∧ ∀ e ∈ entries, e.2 ∈ values e.1 := by
  induction names generalizing entries with
  | nil =>
    rw [assignments, mem_singleton, map_eq_nil_iff, iff_self_and]
    rintro rfl e he
    cases he
  | cons n names ih =>
    rw [assignments, mem_flatMap]
    constructor
    · rintro ⟨v, hv, hrest⟩
      obtain ⟨_, hmem, rfl⟩ := mem_map.mp hrest
      obtain ⟨hkeys, hvalues⟩ := ih.mp hmem
      exact ⟨by rw [map_cons, hkeys], forall_mem_cons.mpr ⟨hv, hvalues⟩⟩
    · rintro ⟨hkeys, hvalues⟩
      cases entries with
      | nil => cases hkeys
      | cons e =>
        obtain ⟨hv, hvalues⟩ := forall_mem_cons.mp hvalues
        rw [map_cons, List.cons.injEq] at hkeys
        obtain ⟨rfl, hkeys⟩ := hkeys
        exact ⟨e.2, hv, mem_map_of_mem (ih.mpr ⟨hkeys, hvalues⟩)⟩

section Lookup

variable [BEq N] [LawfulBEq N]

theorem map_assignments {names : List N} (hnodup : names.Nodup) (env : N → V) :
    (assignments values names).map (reads env) = assign values names env := by
  induction names generalizing env with
  | nil => rfl
  | cons n names ih =>
    obtain ⟨hnot, hrest⟩ := nodup_cons.mp hnodup
    rw [assignments, assign, map_flatMap]
    refine flatMap_congr fun v _ => ?_
    rw [← ih hrest, map_map]
    refine map_congr_left fun entries hentries => funext fun k => ?_
    dsimp only [comp_apply, reads]
    rw [lookup_cons]
    by_cases hk : k = n
    · subst hk
      have hnone : entries.lookup k = none := by
        rw [lookup_eq_none_iff]
        intro e he
        have hin : e.1 ∈ names := keys_of_mem_assignments hentries ▸ mem_map_of_mem he
        exact bne_iff_ne.mpr fun heq => hnot (heq ▸ hin)
      rw [beq_self_eq_true, hnone, Option.getD_none, update_self]
      rfl
    · rw [beq_eq_false_iff_ne.mpr hk, update_of_ne hk]

/-! ### Names that are met twice -/

omit [DecidableEq N] in
theorem nodup_eraseDups (names : List N) : names.eraseDups.Nodup := by
  induction hlen : names.length using Nat.strongRecOn generalizing names with
  | ind len ih =>
    cases names with
    | nil => exact nodup_nil
    | cons n names =>
      rw [eraseDups_cons]
      have hshort : (names.filter fun m => !m == n).length < len := by
        have hle := length_filter_le (fun m => !m == n) names
        rw [← hlen, length_cons]
        omega
      refine nodup_cons.mpr ⟨fun hmem => ?_, ih _ hshort _ rfl⟩
      have hne := (mem_filter.mp (mem_eraseDups.mp hmem)).2
      simp at hne

theorem assign_filter {n : N} {names : List N} {env : N → V} (h : values n = [env n]) :
    assign values names env = assign values (names.filter fun m => !m == n) env := by
  induction names generalizing env with
  | nil => rfl
  | cons m names ih =>
    by_cases heq : m = n
    · subst heq
      have hdrop : (m :: names).filter (fun k => !k == m) = names.filter fun k => !k == m :=
        filter_cons_of_neg (by simp)
      rw [hdrop, ← ih h, assign, h]
      simp only [flatMap_cons, flatMap_nil, append_nil, Function.update_eq_self]
    · have hkeep : (m :: names).filter (fun k => !k == n) =
          m :: names.filter fun k => !k == n :=
        filter_cons_of_pos (by simp [heq])
      rw [hkeep, assign, assign]
      refine flatMap_congr fun v _ => ih ?_
      have hne : n ≠ m := fun h => heq h.symm
      rw [update_of_ne hne, h]

/-- Where every name that is met twice has a single value, the loop over the distinct names makes
the same environments. -/
theorem assign_eraseDups {names : List N} (h : Settled values names) (env : N → V) :
    assign values names.eraseDups env = assign values names env := by
  induction hlen : names.length using Nat.strongRecOn generalizing names env with
  | ind len ih =>
    cases names with
    | nil => rfl
    | cons n names =>
      rw [eraseDups_cons, assign, assign]
      refine flatMap_congr fun v hv => ?_
      have hshort : (names.filter fun m => !m == n).length < len := by
        have hle := length_filter_le (fun m => !m == n) names
        rw [← hlen, length_cons]
        omega
      have hsettled : Settled values (names.filter fun m => !m == n) := by
        intro m hm
        have hsub := (filter_sublist (p := fun m => !m == n) (l := names)).count_le m
        have hcons := (sublist_cons_self n names).count_le m
        exact h m (by omega)
      rw [ih _ hshort hsettled _ rfl]
      by_cases hin : n ∈ names
      · have hcount : 2 ≤ (n :: names).count n := by
          have hpos := List.count_pos_iff.mpr hin
          rw [count_cons_self]
          omega
        obtain ⟨u, hu⟩ := length_eq_one_iff.mp (h n hcount)
        have huv : v = u := mem_singleton.mp (hu ▸ hv)
        refine (assign_filter ?_).symm
        rw [update_self, hu, huv]
      · have hall : names.filter (fun m => !m == n) = names := by
          refine filter_eq_self.mpr fun m hm => ?_
          have hne : m ≠ n := fun heq => hin (heq ▸ hm)
          simp [hne]
        rw [hall]

/-- The distinct names multiply as the names that are met only where some list is empty or every name
that is met twice has a single value. -/
theorem settled_of_prod {names : List N}
    (h : (names.eraseDups.map fun n => (values n).length).prod =
      (names.map fun n => (values n).length).prod) :
    (∃ n ∈ names, values n = []) ∨ Settled values names := by
  by_cases hempty : ∃ n ∈ names, values n = []
  · exact Or.inl hempty
  · refine Or.inr fun n hn => ?_
    have hpos : ∀ m ∈ names.toFinset, 0 < (values m).length := by
      intro m hm
      have hne : values m ≠ [] := fun heq => hempty ⟨m, mem_toFinset.mp hm, heq⟩
      exact length_pos_iff.mpr hne
    have hdistinct : (names.eraseDups.map fun n => (values n).length).prod =
        ∏ m ∈ names.toFinset, (values m).length := by
      rw [← prod_toFinset _ (nodup_eraseDups names)]
      refine Finset.prod_congr (Finset.ext fun m => ?_) fun _ _ => rfl
      rw [mem_toFinset, mem_toFinset, mem_eraseDups]
    have hall : (names.map fun n => (values n).length).prod =
        ∏ m ∈ names.toFinset, (values m).length ^ names.count m := by
      rw [Finset.prod_list_map_count]
      refine Finset.prod_congr rfl fun m _ => ?_
      rw [lawful_beq_subsingleton instBEqOfDecidableEq ‹BEq N›]
    have hin : n ∈ names.toFinset :=
      mem_toFinset.mpr (List.count_pos_iff.mp (by omega))
    by_contra hne
    have htwo : 1 < (values n).length := by
      have hone := hpos n hin
      omega
    have hlt : ∏ m ∈ names.toFinset, (values m).length <
        ∏ m ∈ names.toFinset, (values m).length ^ names.count m := by
      refine Finset.prod_lt_prod hpos (fun m hm => ?_) ⟨n, hin, ?_⟩
      · have hcount := List.count_pos_iff.mpr (mem_toFinset.mp hm)
        exact Nat.le_self_pow (by omega) _
      · calc (values n).length = (values n).length ^ 1 := (pow_one _).symm
          _ < (values n).length ^ names.count n := Nat.pow_lt_pow_right htwo (by omega)
    omega

end Lookup

end OxyMake.ValueAssignments
