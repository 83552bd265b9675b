import OxyMake.DeclaredFields

/-!
# Rules that are honoured or rejected

A rule table is honoured when the decoded rule has the values that its fields
declare. A table is documented when each of these fields is in the vocabulary
and range of what can be declared. The decoder honours or rejects a table
exactly when it is documented or has an error that some decoder looks for.
-/

namespace OxyMake.HonouredRules

open RuleInstances (ExpandMode GuardExpr)
open ResourceNormalization (bind_eq_ok)
open RuleFields DeclaredFields

variable {B R E : Type}

/-- The decoded rule has the values that the table declares. -/
structure Honoured (raw : RawRule B) (rule : Rule R) : Prop where
  /-- The timeout is number times unit. -/
  timeout : ∀ t, raw.timeout = some t → ∃ d, Spells t d ∧ rule.timeout = some d.seconds
  /-- The strategy is the declared one. -/
  errorStrategy : ∀ v, raw.errorStrategy = some v → DeclaresStrategy v rule.errorStrategy
  /-- A number of attempts alone declares attempts with the default backoff. -/
  retries : ∀ n, raw.retries = some n → raw.errorStrategy = none →
    rule.errorStrategy = .retry n .exponential
  /-- The mode has the declared name. -/
  expand : ∀ s, raw.expand = some s → s = modeName rule.expandMode
  /-- The class has the declared name. -/
  reproducibility : ∀ s, raw.reproducibility = some s → s = rule.reproducibility.name
  /-- The guard is the declared one. -/
  when : ∀ v, raw.when = some v → ∃ g, rule.when = some g ∧ DeclaresGuard v g

def Lawful (raw : RawRule B) (outcome : Except (Failure E) (Rule R)) : Prop :=
  Orderly outcome ∧ ∀ rule, outcome = .ok rule → Honoured raw rule

/-- The fields are in the vocabulary and range of what can be declared. -/
structure Documented (raw : RawRule B) : Prop where
  /-- The timeout is a number with a unit and has 64 bits. -/
  timeout : ∀ t, raw.timeout = some t → ∃ d, Spells t d ∧ d.seconds < 2 ^ 64
  /-- The strategy is a name, or a table with attempts in range and a known backoff. -/
  errorStrategy : ∀ v, raw.errorStrategy = some v → strategyDocumented v = true
  expand : ∀ s, raw.expand = some s → ["product", "zip"].contains s = true
  reproducibility : ∀ s, raw.reproducibility = some s → classNames.contains s = true
  when : ∀ v, raw.when = some v → ∃ g, DeclaresGuard v g

/-- An error is found ahead of the timeout: in the backend, in the fields that are decoded
elsewhere or by the key of a table. -/
def RejectedEarly (d : Decoders B R E) (name : String) (raw : RawRule B) : Prop :=
  (∃ v, raw.executor = some v ∧ v ≠ "local") ∨ (∃ e, d.body name raw.body = .error e) ∨
    ∃ tbl, raw.errorStrategy = some (.table tbl) ∧ (tbl.lookup "jitter").isSome = true

/-- An error is found behind the timeout: in the guard, in the platforms, in the platforms and
the class together or in when outputs are removed. -/
def RejectedLate (raw : RawRule B) : Prop :=
  (∃ v, raw.when = some v ∧ ∀ g, ¬ ReadsGuard v g) ∨
    (∃ s, raw.cachePlatform = some s ∧ ["exact", "any"].contains s = false) ∨
    (raw.cachePlatform = some "any" ∧ raw.reproducibility = some "non_reproducible") ∨
    ∃ s, raw.cleanOutputs = some s ∧ ["always", "on-failure", "never"].contains s = false

/-- The seconds of the timeout overflow in a build that checks the arithmetic. -/
def Overflows (d : Decoders B R E) (raw : RawRule B) : Prop :=
  d.checks = true ∧ ∃ t, raw.timeout = some t ∧
    ∃ p, Spells t p ∧ p.number < 2 ^ 64 ∧ 2 ^ 64 ≤ p.seconds

/-! ### The checks of a rule -/

theorem checkExecutor_eq_ok {debug : String → String} {name : String} {executor : Option String} :
    checkExecutor (E := E) debug name executor = .ok () ↔ ∀ v, executor = some v → v = "local" := by
  cases executor with
  | none => exact ⟨fun _ v hv => (by cases hv), fun _ => rfl⟩
  | some value =>
    rw [checkExecutor]
    by_cases hlocal : value = "local"
    · rw [if_pos hlocal]
      exact ⟨fun _ v hv => Option.some.inj hv ▸ hlocal, fun _ => rfl⟩
    · rw [if_neg hlocal]
      exact ⟨fun h => (by cases h), fun h => absurd (h value rfl) hlocal⟩

theorem orderly_checkExecutor (debug : String → String) (name : String)
    (executor : Option String) : Orderly (checkExecutor (E := E) debug name executor) := by
  cases executor with
  | none => exact orderly_ok ()
  | some value =>
    rw [checkExecutor]
    by_cases hlocal : value = "local"
    · rw [if_pos hlocal]
      exact orderly_ok ()
    · rw [if_neg hlocal]
      exact orderly_invalidField _ _

theorem orderly_mapError (x : Except E R) : Orderly (x.mapError Failure.other) := by
  cases x <;> exact nofun

theorem parseErrorStrategy_cases (v : Value) :
    (∃ tbl, v = .table tbl ∧ (tbl.lookup "jitter").isSome = true ∧
      ∃ field reason, parseErrorStrategy (E := E) (some v) = .error (.invalidField field reason)) ∨
    ((∀ tbl, v = .table tbl → ¬ (tbl.lookup "jitter").isSome = true) ∧
      ∃ s, parseErrorStrategy (E := E) (some v) = .ok s) := by
  cases v with
  | string =>
    refine .inr ⟨fun tbl heq => (by cases heq), ?_⟩
    unfold parseErrorStrategy
    dsimp only
    split
    · exact ⟨_, rfl⟩
    · exact ⟨_, rfl⟩
    · exact ⟨_, rfl⟩
    · exact ⟨_, rfl⟩
  | table tbl =>
    rw [parseErrorStrategy]
    by_cases hjitter : (tbl.lookup "jitter").isSome = true
    · rw [if_pos hjitter]
      exact .inl ⟨tbl, rfl, hjitter, _, _, rfl⟩
    · rw [if_neg hjitter]
      refine .inr ⟨?_, _, rfl⟩
      intro tbl' heq
      cases heq
      exact hjitter
  | integer | float | boolean | datetime | array =>
    exact .inr ⟨fun tbl heq => (by cases heq), _, rfl⟩

theorem chooseStrategy_some (retries : Option (BitVec 32)) (v : Value) :
    chooseStrategy (E := E) retries (some v) = parseErrorStrategy (some v) := by
  cases retries <;> rfl

theorem chooseStrategy_cases (retries : Option (BitVec 32)) (errorStrategy : Option Value) :
    (∃ tbl, errorStrategy = some (.table tbl) ∧ (tbl.lookup "jitter").isSome = true ∧
      ∃ field reason,
        chooseStrategy (E := E) retries errorStrategy = .error (.invalidField field reason)) ∨
    ((∀ tbl, errorStrategy = some (.table tbl) → ¬ (tbl.lookup "jitter").isSome = true) ∧
      ∃ s, chooseStrategy (E := E) retries errorStrategy = .ok s) := by
  cases errorStrategy with
  | none =>
    refine .inr ⟨nofun, ?_⟩
    cases retries with
    | none | some => exact ⟨_, rfl⟩
  | some v =>
    rw [chooseStrategy_some]
    rcases parseErrorStrategy_cases v with ⟨tbl, rfl, hjitter, herror⟩ | ⟨hnone, hok⟩
    · exact .inl ⟨tbl, rfl, hjitter, herror⟩
    · exact .inr ⟨fun tbl heq => hnone tbl (Option.some.inj heq), hok⟩

theorem parsePlatformScope_cases (debug : String → String) (scope : Option String) :
    (∃ s field reason, scope = some s ∧ ["exact", "any"].contains s = false ∧
      parsePlatformScope (E := E) debug scope = .error (.invalidField field reason)) ∨
    ((∀ s, scope = some s → ["exact", "any"].contains s = true) ∧
      ∃ p, parsePlatformScope (E := E) debug scope = .ok p ∧ (p = .any ↔ scope = some "any")) := by
  cases scope with
  | none => exact .inr ⟨nofun, .exact, rfl, nofun, nofun⟩
  | some s =>
    by_cases hexact : s = "exact"
    · subst hexact
      refine .inr ⟨fun s hs => Option.some.inj hs ▸ rfl, .exact, rfl, nofun, ?_⟩
      intro h
      exact absurd (Option.some.inj h) (by decide)
    · by_cases hany : s = "any"
      · subst hany
        exact .inr ⟨fun s hs => Option.some.inj hs ▸ rfl, .any, rfl, fun _ => rfl, fun _ => rfl⟩
      · refine .inl ⟨s, "cache_platform",
          "unknown value " ++ debug s ++ "; expected one of: exact, any", rfl, ?_, ?_⟩
        · rw [Bool.eq_false_iff, ne_eq, List.contains_iff_mem]
          simp only [List.mem_cons, List.not_mem_nil, or_false, not_or]
          exact ⟨hexact, hany⟩
        · rw [parsePlatformScope]
          · exact hexact
          · exact hany

theorem parseCleanOutputs_cases (debug : String → String) (clean : Option String) :
    (∃ s field reason, clean = some s ∧ ["always", "on-failure", "never"].contains s = false ∧
      parseCleanOutputs (E := E) debug clean = .error (.invalidField field reason)) ∨
    ((∀ s, clean = some s → ["always", "on-failure", "never"].contains s = true) ∧
      ∃ p, parseCleanOutputs (E := E) debug clean = .ok p) := by
  cases clean with
  | none => exact .inr ⟨nofun, .always, rfl⟩
  | some s =>
    by_cases hknown : ["always", "on-failure", "never"].contains s = true
    · refine .inr ⟨fun t ht => Option.some.inj ht ▸ hknown, ?_⟩
      rw [List.contains_iff_mem] at hknown
      simp only [List.mem_cons, List.not_mem_nil, or_false] at hknown
      rcases hknown with rfl | rfl | rfl
      · exact ⟨_, rfl⟩
      · exact ⟨_, rfl⟩
      · exact ⟨_, rfl⟩
    · have hunknown : ∀ t : String,
          ["always", "on-failure", "never"].contains t = true → s ≠ t := by
        rintro t ht rfl
        exact hknown ht
      refine .inl ⟨s, "clean_outputs",
        "unknown value " ++ debug s ++ "; expected one of: always, on-failure, never", rfl,
        Bool.eq_false_iff.mpr hknown, ?_⟩
      rw [parseCleanOutputs]
      · exact hunknown "always" (by decide)
      · exact hunknown "on-failure" (by decide)
      · exact hunknown "never" (by decide)

/-! ### Stages of a rule -/

theorem mapTranspose_eq_ok {α β : Type} {f : α → Except (Failure E) β} {field : Option α}
    {r : Option β} (h : mapTranspose f field = .ok r) :
    (∀ a, field = some a → ∃ b, f a = .ok b ∧ r = some b) ∧ (field = none → r = none) := by
  cases field with
  | none =>
    cases h
    exact ⟨nofun, fun _ => rfl⟩
  | some a =>
    rw [mapTranspose] at h
    refine ⟨?_, nofun⟩
    intro a' ha'
    cases ha'
    cases hf : f a with
    | error =>
      rw [hf] at h
      cases h
    | ok b =>
      rw [hf] at h
      cases h
      exact ⟨b, rfl, rfl⟩

theorem mapTranspose_cases {α β : Type} (f : α → Except (Failure E) β) (field : Option α) :
    (∃ r, mapTranspose f field = .ok r) ∨
      ∃ a e, field = some a ∧ f a = .error e ∧ mapTranspose f field = .error e := by
  cases field with
  | none => exact .inl ⟨none, rfl⟩
  | some a =>
    rw [mapTranspose]
    cases hf : f a with
    | error e => exact .inr ⟨a, e, rfl, hf, rfl⟩
    | ok b => exact .inl ⟨some b, rfl⟩

/-- What the stages give where a rule is decoded. -/
structure Stages (d : Decoders B R E) (name : String) (raw : RawRule B) (rule : Rule R) : Prop where
  executor : checkExecutor (E := E) d.debug name raw.executor = .ok ()
  body : d.body name raw.body = .ok rule.body
  errorStrategy : chooseStrategy (E := E) raw.retries raw.errorStrategy = .ok rule.errorStrategy
  timeout : ∃ t,
    mapTranspose (E := E) (fun s => parseDuration d.checks s.toList) raw.timeout = .ok t ∧
      rule.timeout = t.join
  when : mapTranspose (E := E) (parseGuardExpr d.debug) raw.when = .ok rule.when
  platformScope : parsePlatformScope (E := E) d.debug raw.cachePlatform = .ok rule.platformScope
  compatible : ¬ (rule.platformScope = .any ∧ rule.reproducibility = .nonReproducible)
  /-- When outputs are removed is accepted. -/
  cleanOutputs : parseCleanOutputs (E := E) d.debug raw.cleanOutputs = .ok rule.cleanOutputs
  expandMode : rule.expandMode = parseExpandMode raw.expand
  reproducibility : rule.reproducibility = parseReproducibility raw.reproducibility

variable {d : Decoders B R E} {name : String} {raw : RawRule B}

theorem stages_of_parseRule {rule : Rule R} (h : parseRule d name raw = .ok rule) :
    Stages d name raw rule := by
  obtain ⟨⟨⟩, hexecutor, h⟩ := bind_eq_ok h
  obtain ⟨body, hbody, h⟩ := bind_eq_ok h
  obtain ⟨_, hstrategy, h⟩ := bind_eq_ok h
  obtain ⟨timeout, htimeout, h⟩ := bind_eq_ok h
  obtain ⟨_, hguard, h⟩ := bind_eq_ok h
  obtain ⟨scope, hscope, h⟩ := bind_eq_ok h
  dsimp only at h
  by_cases hboth : scope = .any ∧ parseReproducibility raw.reproducibility = .nonReproducible
  · rw [if_pos hboth] at h
    cases h
  · rw [if_neg hboth] at h
    obtain ⟨_, hclean, h⟩ := bind_eq_ok h
    cases h
    have hother : d.body name raw.body = .ok body := by
      cases hraw : d.body name raw.body with
      | error =>
        rw [hraw] at hbody
        cases hbody
      | ok =>
        rw [hraw] at hbody
        cases hbody
        rfl
    exact ⟨hexecutor, hother, hstrategy, ⟨timeout, htimeout, rfl⟩, hguard, hscope, hboth, hclean,
      rfl, rfl⟩

theorem early_of_not_rejected (h : ¬ RejectedEarly d name raw) :
    checkExecutor (E := E) d.debug name raw.executor = .ok () ∧
      (∃ body, d.body name raw.body = .ok body) ∧
      ∃ s, chooseStrategy (E := E) raw.retries raw.errorStrategy = .ok s := by
  refine ⟨checkExecutor_eq_ok.mpr ?_, ?_, ?_⟩
  · intro v hv
    by_contra hlocal
    exact h (.inl ⟨v, hv, hlocal⟩)
  · cases hbody : d.body name raw.body with
    | error e => exact absurd (.inr (.inl ⟨e, hbody⟩)) h
    | ok body => exact ⟨body, rfl⟩
  · rcases chooseStrategy_cases (E := E) raw.retries raw.errorStrategy with
      ⟨tbl, htbl, hjitter, -⟩ | ⟨-, hok⟩
    · exact absurd (.inr (.inr ⟨tbl, htbl, hjitter⟩)) h
    · exact hok

theorem not_rejected_of_stages {rule : Rule R} (h : Stages d name raw rule) :
    ¬ RejectedEarly d name raw ∧ ¬ RejectedLate raw := by
  constructor
  · rintro (⟨v, hv, hlocal⟩ | ⟨e, he⟩ | ⟨tbl, htbl, hjitter⟩)
    · exact hlocal (checkExecutor_eq_ok.mp h.executor v hv)
    · have hbody := h.body
      rw [he] at hbody
      cases hbody
    · rcases chooseStrategy_cases (E := E) raw.retries raw.errorStrategy with
        ⟨_, -, -, field, reason, herror⟩ | ⟨hnone, -⟩
      · have hok := h.errorStrategy
        rw [herror] at hok
        cases hok
      · exact hnone tbl htbl hjitter
  · have hscope := h.platformScope
    rcases parsePlatformScope_cases (E := E) d.debug raw.cachePlatform with
      ⟨s, field, reason, -, -, herror⟩ | ⟨hknown, p, hp, hany⟩
    · rw [herror] at hscope
      cases hscope
    · rw [hp] at hscope
      rintro (⟨v, hv, hreads⟩ | ⟨s, hs, hunknown⟩ | ⟨hall, hclass⟩ | ⟨s, hs, hunknown⟩)
      · obtain ⟨g, hg, -⟩ := (mapTranspose_eq_ok h.when).1 v hv
        exact hreads g (parseGuardExpr_eq_ok_iff.mp hg)
      · rw [hknown s hs] at hunknown
        cases hunknown
      · refine h.compatible ⟨?_, ?_⟩
        · rw [← Except.ok.inj hscope]
          exact hany.mpr hall
        · rw [h.reproducibility, hclass]
          rfl
      · have hclean := h.cleanOutputs
        rcases parseCleanOutputs_cases (E := E) d.debug raw.cleanOutputs with
          ⟨_, field, reason, -, -, herror⟩ | ⟨hknown', -⟩
        · rw [herror] at hclean
          cases hclean
        · rw [hknown' s hs] at hunknown
          cases hunknown

theorem parseReproducibility_eq_nonReproducible {s : Option String}
    (h : parseReproducibility s = .nonReproducible) : s = some "non_reproducible" := by
  unfold parseReproducibility at h
  split at h
  · cases h
  · cases h
  · cases h
  · rfl
  · cases h

theorem exists_timeout (h : ¬ Overflows d raw) :
    ∃ t, mapTranspose (E := E) (fun s => parseDuration d.checks s.toList) raw.timeout = .ok t := by
  rcases mapTranspose_cases (fun s => parseDuration (E := E) d.checks s.toList) raw.timeout with
    hok | ⟨t, e, ht, he, -⟩
  · exact hok
  · obtain ⟨-, hchecks, p, hspells, hnumber, hseconds⟩ := overflow_of_parseDuration he
    exact absurd ⟨hchecks, t, ht, p, hspells, hnumber, hseconds⟩ h

theorem exists_parseRule (hearly : ¬ RejectedEarly d name raw) (hover : ¬ Overflows d raw)
    (hlate : ¬ RejectedLate raw) : ∃ rule, parseRule d name raw = .ok rule := by
  obtain ⟨hexecutor, ⟨body, hbody⟩, strategy, hstrategy⟩ := early_of_not_rejected hearly
  obtain ⟨timeout, htimeout⟩ := exists_timeout hover
  have hguard : ∃ guard, mapTranspose (E := E) (parseGuardExpr d.debug) raw.when = .ok guard := by
    rcases mapTranspose_cases (parseGuardExpr (E := E) d.debug) raw.when with
      hok | ⟨v, e, hv, he, -⟩
    · exact hok
    · refine absurd (.inl ⟨v, hv, ?_⟩) hlate
      intro g hg
      rw [parseGuardExpr_eq_ok_iff.mpr hg] at he
      cases he
  obtain ⟨guard, hguard⟩ := hguard
  have hscope : ∃ p, parsePlatformScope (E := E) d.debug raw.cachePlatform = .ok p ∧
      (p = .any ↔ raw.cachePlatform = some "any") := by
    rcases parsePlatformScope_cases (E := E) d.debug raw.cachePlatform with
      ⟨s, field, reason, hs, hunknown, -⟩ | ⟨-, hok⟩
    · exact absurd (.inr (.inl ⟨s, hs, hunknown⟩)) hlate
    · exact hok
  obtain ⟨scope, hscope, hany⟩ := hscope
  have hclean : ∃ c, parseCleanOutputs (E := E) d.debug raw.cleanOutputs = .ok c := by
    rcases parseCleanOutputs_cases (E := E) d.debug raw.cleanOutputs with
      ⟨s, field, reason, hs, hunknown, -⟩ | ⟨-, hok⟩
    · exact absurd (.inr (.inr (.inr ⟨s, hs, hunknown⟩))) hlate
    · exact hok
  obtain ⟨clean, hclean⟩ := hclean
  have hboth : ¬ (scope = .any ∧
      parseReproducibility raw.reproducibility = .nonReproducible) := by
    rintro ⟨hall, hclass⟩
    exact hlate (.inr (.inr (.inl ⟨hany.mp hall, parseReproducibility_eq_nonReproducible hclass⟩)))
  refine ⟨⟨raw.executor, parseExpandMode raw.expand, strategy, raw.retries, timeout.join, guard,
    scope, parseReproducibility raw.reproducibility, clean, body⟩, ?_⟩
  unfold parseRule
  rw [hexecutor, hbody, hstrategy, htimeout, hguard, hscope, hclean]
  exact if_neg hboth

theorem parseRule_of_overflows (hearly : ¬ RejectedEarly d name raw) (hover : Overflows d raw) :
    parseRule d name raw = .error .panicked := by
  obtain ⟨hexecutor, ⟨_, hbody⟩, _, hstrategy⟩ := early_of_not_rejected hearly
  obtain ⟨hchecks, t, ht, p, hspells, hnumber, hseconds⟩ := hover
  have hmul : mulU64 (E := E) d.checks p.number p.unitSeconds = .error .panicked := by
    have hfits : ¬ p.number * p.unitSeconds < 2 ^ 64 := Nat.not_lt.mpr hseconds
    rw [mulU64, if_neg hfits, if_pos hchecks]
  have htimeout : mapTranspose (E := E) (fun s => parseDuration d.checks s.toList) raw.timeout =
      .error .panicked := by
    rw [ht, mapTranspose, parseDuration_of_spells d.checks hspells, if_pos hnumber, hmul]
    rfl
  unfold parseRule
  rw [hexecutor, hbody, hstrategy, htimeout]
  rfl

theorem orderly_of_early (h : RejectedEarly d name raw) : Orderly (parseRule d name raw) := by
  refine orderly_bind (orderly_checkExecutor _ _ _) fun _ hexecutor => ?_
  refine orderly_bind (orderly_mapError _) fun body hbody => ?_
  rcases chooseStrategy_cases (E := E) raw.retries raw.errorStrategy with
    ⟨tbl, -, -, field, reason, herror⟩ | ⟨hnone, -⟩
  · rw [herror]
    exact orderly_invalidField field reason
  · rcases h with ⟨v, hv, hlocal⟩ | ⟨e, he⟩ | ⟨tbl, htbl, hjitter⟩
    · exact absurd (checkExecutor_eq_ok.mp hexecutor v hv) hlocal
    · rw [he] at hbody
      cases hbody
    · exact absurd hjitter (hnone tbl htbl)

theorem orderly_chooseStrategy (retries : Option (BitVec 32)) (errorStrategy : Option Value) :
    Orderly (chooseStrategy (E := E) retries errorStrategy) := by
  rcases chooseStrategy_cases (E := E) retries errorStrategy with
    ⟨_, -, -, field, reason, herror⟩ | ⟨-, s, hs⟩
  · rw [herror]
    exact orderly_invalidField field reason
  · rw [hs]
    exact orderly_ok s

theorem orderly_of_not_overflows (h : ¬ Overflows d raw) : Orderly (parseRule d name raw) := by
  refine orderly_bind (orderly_checkExecutor _ _ _) fun _ _ => ?_
  refine orderly_bind (orderly_mapError _) fun _ _ => ?_
  refine orderly_bind (orderly_chooseStrategy _ _) fun _ _ => ?_
  obtain ⟨t, ht⟩ := exists_timeout h
  rw [ht]
  refine orderly_bind (orderly_ok t) fun _ _ => ?_
  have hguard : Orderly (mapTranspose (E := E) (parseGuardExpr d.debug) raw.when) := by
    rcases mapTranspose_cases (parseGuardExpr (E := E) d.debug) raw.when with
      ⟨r, hr⟩ | ⟨v, e, -, he, herror⟩
    · rw [hr]
      exact orderly_ok r
    · have hvalue := orderly_parseGuardExpr (E := E) d.debug v
      rw [he] at hvalue
      rw [herror]
      intro hpanic
      exact hvalue (congrArg _ (Except.error.inj hpanic))
  refine orderly_bind hguard fun _ _ => ?_
  rcases parsePlatformScope_cases (E := E) d.debug raw.cachePlatform with
    ⟨s, field, reason, -, -, herror⟩ | ⟨-, scope, hscope, -⟩
  · rw [herror]
    exact orderly_invalidField field reason
  · rw [hscope]
    refine orderly_bind (orderly_ok scope) fun p _ => ?_
    dsimp only
    by_cases hboth : p = .any ∧ parseReproducibility raw.reproducibility = .nonReproducible
    · rw [if_pos hboth]
      exact orderly_invalidField _ _
    · rw [if_neg hboth]
      rcases parseCleanOutputs_cases (E := E) d.debug raw.cleanOutputs with
        ⟨s, field, reason, -, -, herror⟩ | ⟨-, _, hclean⟩
      · rw [herror]
        exact orderly_invalidField field reason
      · rw [hclean]
        exact orderly_ok _

theorem timeout_iff {rule : Rule R} (h : Stages d name raw rule) :
    (∀ t, raw.timeout = some t → ∃ p, Spells t p ∧ rule.timeout = some p.seconds) ↔
      ∀ t, raw.timeout = some t → ∃ p, Spells t p ∧ p.seconds < 2 ^ 64 := by
  obtain ⟨_, hdecoded, hjoin⟩ := h.timeout
  constructor
  · intro hdeclared t ht
    obtain ⟨p, hspells, hseconds⟩ := hdeclared t ht
    obtain ⟨secs, hparse, rfl⟩ := (mapTranspose_eq_ok hdecoded).1 t ht
    rw [hjoin, Option.join_some] at hseconds
    subst hseconds
    exact ⟨p, hspells, lt_of_parseDuration hparse⟩
  · intro hdocumented t ht
    obtain ⟨p, hspells, hlt⟩ := hdocumented t ht
    obtain ⟨secs, hparse, rfl⟩ := (mapTranspose_eq_ok hdecoded).1 t ht
    rw [parseDuration_of_lt d.checks hspells hlt] at hparse
    cases hparse
    exact ⟨p, hspells, hjoin⟩

theorem honoured_iff {rule : Rule R} (h : Stages d name raw rule) :
    Honoured raw rule ↔ Documented raw := by
  have hstrategy : ∀ v, raw.errorStrategy = some v →
      (DeclaresStrategy v rule.errorStrategy ↔ strategyDocumented v = true) := by
    intro v hv
    have hchosen := h.errorStrategy
    rw [hv, chooseStrategy_some] at hchosen
    exact declaresStrategy_iff hchosen
  have hexpand : ∀ s, raw.expand = some s →
      (s = modeName rule.expandMode ↔ ["product", "zip"].contains s = true) := by
    intro s hs
    rw [h.expandMode, hs]
    exact name_parseExpandMode_iff s
  have hclass : ∀ s, raw.reproducibility = some s →
      (s = rule.reproducibility.name ↔ classNames.contains s = true) := by
    intro s hs
    rw [h.reproducibility, hs]
    exact name_parseReproducibility_iff s
  have hguard : ∀ v, raw.when = some v →
      ((∃ g, rule.when = some g ∧ DeclaresGuard v g) ↔ ∃ g, DeclaresGuard v g) := by
    intro v hv
    obtain ⟨g, hparse, hg⟩ := (mapTranspose_eq_ok h.when).1 v hv
    rw [← declaresGuard_iff hparse, hg]
    constructor
    · rintro ⟨_, heq, hdeclares⟩
      cases heq
      exact hdeclares
    · intro hdeclares
      exact ⟨g, rfl, hdeclares⟩
  have hretries : ∀ n, raw.retries = some n → raw.errorStrategy = none →
      rule.errorStrategy = .retry n .exponential := by
    intro n hn hnone
    have hchosen := h.errorStrategy
    rw [hn, hnone] at hchosen
    exact (Except.ok.inj hchosen).symm
  have htimeout := timeout_iff h
  constructor
  · intro hh
    exact ⟨htimeout.mp hh.timeout, fun v hv => (hstrategy v hv).mp (hh.errorStrategy v hv),
      fun s hs => (hexpand s hs).mp (hh.expand s hs),
      fun s hs => (hclass s hs).mp (hh.reproducibility s hs),
      fun v hv => (hguard v hv).mp (hh.when v hv)⟩
  · intro hd
    exact ⟨htimeout.mpr hd.timeout, fun v hv => (hstrategy v hv).mpr (hd.errorStrategy v hv),
      hretries, fun s hs => (hexpand s hs).mpr (hd.expand s hs),
      fun s hs => (hclass s hs).mpr (hd.reproducibility s hs),
      fun v hv => (hguard v hv).mpr (hd.when v hv)⟩

theorem not_overflows_of_documented (h : Documented raw) : ¬ Overflows d raw := by
  rintro ⟨-, t, ht, p, hspells, -, _⟩
  obtain ⟨q, hspells', _⟩ := h.timeout t ht
  have hsame : p.seconds = q.seconds := Duration.seconds_unique (hspells.symm.trans hspells')
  omega

/-- A table is honoured or rejected exactly when it is documented or has an error, which must
lie ahead of a timeout that overflows. -/
theorem lawful_iff (d : Decoders B R E) (name : String) (raw : RawRule B) :
    Lawful raw (parseRule d name raw) ↔
      RejectedEarly d name raw ∨ (¬ Overflows d raw ∧ RejectedLate raw) ∨ Documented raw := by
  by_cases hearly : RejectedEarly d name raw
  · refine iff_of_true ⟨orderly_of_early hearly, ?_⟩ (.inl hearly)
    intro rule hrule
    exact absurd hearly (not_rejected_of_stages (stages_of_parseRule hrule)).1
  · by_cases hover : Overflows d raw
    · apply iff_of_false
      · intro hlawful
        exact hlawful.1 (parseRule_of_overflows hearly hover)
      · rintro (h | ⟨h, -⟩ | h)
        · exact hearly h
        · exact h hover
        · exact not_overflows_of_documented h hover
    · by_cases hlate : RejectedLate raw
      · refine iff_of_true ⟨orderly_of_not_overflows hover, ?_⟩ (.inr (.inl ⟨hover, hlate⟩))
        intro rule hrule
        exact absurd hlate (not_rejected_of_stages (stages_of_parseRule hrule)).2
      · obtain ⟨rule, hrule⟩ := exists_parseRule hearly hover hlate
        have hiff := honoured_iff (stages_of_parseRule hrule)
        constructor
        · intro hlawful
          exact .inr (.inr (hiff.mp (hlawful.2 rule hrule)))
        · rintro (h | ⟨-, h⟩ | h)
          · exact absurd h hearly
          · exact absurd h hlate
          · refine ⟨orderly_of_not_overflows hover, ?_⟩
            intro rule' hrule'
            rw [hrule] at hrule'
            cases hrule'
            exact hiff.mpr h

/-- Decoders of a build that checks the arithmetic. Nothing is decoded elsewhere. -/
def plainDecoders : Decoders Unit Unit Unit where
  checks := true
  debug text := "\"" ++ text ++ "\""
  body _ _ := .ok ()

/-- A rule with a timeout, a strategy and a guard. -/
def rawRule (timeout : Option String) (errorStrategy when : Option Value) : RawRule Unit where
  executor := none
  expand := none
  retries := none
  errorStrategy := errorStrategy
  timeout := timeout
  when := when
  cachePlatform := none
  reproducibility := none
  cleanOutputs := none
  body := ()

/-- A guard that lists a string and a number. -/
def mixedGuard : Value := .table [("op", .string "in"), ("field", .string "sample"),
  ("values", .array [.string "A", .integer 3])]

/-- A timeout that is no duration is dropped, a negative number of attempts is read as a large
one, a listed number is dropped, and the seconds of a long timeout overflow. -/
theorem not_lawful_rules :
    ¬ Lawful (rawRule (some "soon") none none)
      (parseRule plainDecoders "train" (rawRule (some "soon") none none)) ∧
    ¬ Lawful (rawRule none (some (.table [("retry", .integer (-1))])) none)
      (parseRule plainDecoders "train"
        (rawRule none (some (.table [("retry", .integer (-1))])) none)) ∧
    ¬ Lawful (rawRule none none (some mixedGuard))
      (parseRule plainDecoders "train" (rawRule none none (some mixedGuard))) ∧
    ¬ Lawful (rawRule (some "999999999999999d") none none)
      (parseRule plainDecoders "train" (rawRule (some "999999999999999d") none none)) := by
  refine ⟨?_, ?_, ?_, ?_⟩
  · intro h
    obtain ⟨d, -, hseconds⟩ := (h.2 _ rfl).timeout "soon" rfl
    cases hseconds
  · intro h
    have hdeclares := (h.2 _ rfl).errorStrategy _ rfl
    cases hdeclares with
    | retry hcount =>
      rcases hcount with ⟨hnone, -⟩ | ⟨n, hn, hcount⟩
      · cases hnone
      · cases hn
        exact absurd hcount (by decide)
  · intro h
    obtain ⟨g, -, hdeclares⟩ := (h.2 _ rfl).when _ rfl
    cases hdeclares with
    | isIn hop hfield hvalues hstrings =>
      cases hvalues
      obtain ⟨s, hs⟩ := hstrings (.integer 3) (by simp only [List.mem_cons, true_or, or_true])
      cases hs
    | eq hop | notEq hop | notIn hop | regex hop | configEq hop | envSet hop | envEq hop
      | fileExists hop | and hop | or hop | not hop =>
      exact absurd (says_op.mpr hop) (by decide)
  · intro h
    exact h.1 rfl

end OxyMake.HonouredRules
