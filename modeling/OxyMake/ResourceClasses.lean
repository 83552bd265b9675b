import OxyMake.ExactResources

/-!
# Resource classes

A rule may name a class of resources, whose table is inherited and overridden by
the rule's own. A resource is recognised under any of its spellings and keeps the
spelling of the class, so that interpolated names remain valid. The value is
taken over as it is written, although some spellings name a unit of memory.
-/

namespace OxyMake.ResourceClasses

open List
open Admission ResourceNormalization DecimalParsing ExactResources

/-! ### Tables and workflows -/

/-- Declared resources under their keys. -/
structure ResourceTable where
  entries : List (String × ResourceValue)
  sorted : SortedMap.Sorted entries

def ResourceTable.insert (t : ResourceTable) (key : String) (value : ResourceValue) :
    ResourceTable :=
  ⟨SortedMap.insert key value t.entries, t.sorted.insert key value⟩

/-- What a rule declares of its resources. -/
structure Rule where
  name : String
  resources : ResourceTable

/-- What a parsed workflow says of resources. -/
structure Workflow where
  rules : List Rule
  ruleResourceClasses : List (String × String)
  resourceClasses : List (String × ResourceTable)
  warnings : List String

/-- Failures of the resource tables, with the field or the context they name. -/
inductive ParseError
  | invalidField (field reason : String)
  | invalidResource (field : String) (error : ResourceError)
  deriving DecidableEq, Repr

def isSpelling (canonical : CanonicalResource) (key : String) : Bool :=
  match canonicalizeResourceKey key with
  | .ok c => c = canonical
  | .error _ => false

/-- The first key of a table that stands for a resource. -/
def inheritedKey (canonical : CanonicalResource) (t : ResourceTable) : Option String :=
  (t.entries.map Prod.fst).find? (isSpelling canonical)

/-- Override the declarations of a class one after another, in the spelling of the class. -/
def override (rule : String) : List (String × ResourceValue) → ResourceTable →
    Except ParseError ResourceTable
  | [], effective => .ok effective
  | (key, value) :: rest, effective =>
    match canonicalizeResourceKey key with
    | .error error => .error (.invalidResource ("rule." ++ rule ++ ".resources") error)
    | .ok canonical =>
      override rule rest (effective.insert ((inheritedKey canonical effective).getD key) value)

def resolveRule (w : Workflow) (rule : Rule) : Except ParseError Rule :=
  match w.ruleResourceClasses.lookup rule.name with
  | none => .ok rule
  | some className =>
    match w.resourceClasses.lookup className with
    | none =>
      .error (.invalidField ("rule." ++ rule.name ++ ".resource_class")
        (w.warnings.foldl (fun reason warning => reason ++ "\n" ++ warning)
          ("rule `" ++ rule.name ++ "` references unknown resource class `" ++ className ++ "`")))
    | some table =>
      match override rule.name rule.resources.entries table with
      | .error e => .error e
      | .ok effective => .ok { rule with resources := effective }

def resolveRules (w : Workflow) : List Rule → Except ParseError (List Rule)
  | [] => .ok []
  | rule :: rules =>
    match resolveRule w rule with
    | .error e => .error e
    | .ok rule =>
      match resolveRules w rules with
      | .error e => .error e
      | .ok rules => .ok (rule :: rules)

/-- Give every rule with a class its effective resources. -/
def resolveResourceClasses (w : Workflow) : Except ParseError Workflow :=
  match resolveRules w w.rules with
  | .error e => .error e
  | .ok rules => .ok { w with rules := rules }

/-! ### What overriding keeps -/

/-- Every key of a table stands for a resource, and none for the one of another. -/
structure Distinct (entries : List (String × ResourceValue)) : Prop where
  /-- Every key stands for a resource. -/
  known : ∀ e ∈ entries, ∃ canonical, canonicalizeResourceKey e.1 = .ok canonical
  nodup : (entries.map fun e => canonicalizeResourceKey e.1).Nodup

theorem isSpelling_iff {canonical : CanonicalResource} {key : String} :
    isSpelling canonical key = true ↔ canonicalizeResourceKey key = .ok canonical := by
  unfold isSpelling
  cases canonicalizeResourceKey key with
  | error => exact iff_of_false Bool.false_ne_true nofun
  | ok =>
    dsimp only
    rw [decide_eq_true_iff]
    exact ⟨fun h => h ▸ rfl, fun h => Except.ok.inj h⟩

theorem Distinct.unique {entries : List (String × ResourceValue)} (h : Distinct entries)
    {e e' : String × ResourceValue} (he : e ∈ entries) (he' : e' ∈ entries)
    (heq : canonicalizeResourceKey e.1 = canonicalizeResourceKey e'.1) : e = e' :=
  inj_on_of_nodup_map h.nodup he he' heq

theorem distinct_of_unique {t : ResourceTable}
    (hknown : ∀ e ∈ t.entries, ∃ canonical, canonicalizeResourceKey e.1 = .ok canonical)
    (hunique : ∀ e ∈ t.entries, ∀ e' ∈ t.entries,
      canonicalizeResourceKey e.1 = canonicalizeResourceKey e'.1 → e = e') :
    Distinct t.entries :=
  ⟨hknown, List.Nodup.map_on (fun e he e' he' => hunique e he e' he')
    (List.Nodup.of_map _ t.sorted.nodup)⟩

theorem mem_insert_iff {t : ResourceTable} {key : String} {value : ResourceValue}
    {e : String × ResourceValue} :
    e ∈ (t.insert key value).entries ↔ e = (key, value) ∨ (e ∈ t.entries ∧ e.1 ≠ key) := by
  rw [(t.insert key value).sorted.mem_iff_lookup, ResourceTable.insert]
  dsimp only
  rw [SortedMap.lookup_insert, t.sorted.mem_iff_lookup]
  by_cases hkey : e.1 = key
  · rw [if_pos hkey]
    constructor
    · intro h
      exact .inl (Prod.ext hkey (Option.some.inj h).symm)
    · rintro (rfl | ⟨-, hne⟩)
      · rfl
      · exact absurd hkey hne
  · rw [if_neg hkey]
    constructor
    · exact fun h => .inr ⟨h, hkey⟩
    · rintro (rfl | ⟨h, -⟩)
      · exact absurd rfl hkey
      · exact h

theorem inheritedKey_eq_some {canonical : CanonicalResource} {t : ResourceTable} {key : String}
    (h : inheritedKey canonical t = some key) :
    canonicalizeResourceKey key = .ok canonical ∧ ∃ value, (key, value) ∈ t.entries := by
  refine ⟨isSpelling_iff.mp (find?_some h), ?_⟩
  obtain ⟨e, he, rfl⟩ := mem_map.mp (mem_of_find?_eq_some h)
  exact ⟨e.2, he⟩

theorem inheritedKey_eq_none {canonical : CanonicalResource} {t : ResourceTable}
    (h : inheritedKey canonical t = none) :
    ∀ e ∈ t.entries, canonicalizeResourceKey e.1 ≠ .ok canonical := by
  intro e he hkey
  have hnone := find?_eq_none.mp h e.1 (mem_map_of_mem he)
  exact hnone (isSpelling_iff.mpr hkey)

theorem canonicalize_getD {canonical : CanonicalResource} {t : ResourceTable} {key : String}
    (h : canonicalizeResourceKey key = .ok canonical) :
    canonicalizeResourceKey ((inheritedKey canonical t).getD key) = .ok canonical := by
  cases hkey : inheritedKey canonical t with
  | none => exact h
  | some => exact (inheritedKey_eq_some hkey).1

theorem mem_insert_inherited {canonical : CanonicalResource} {t : ResourceTable}
    (ht : Distinct t.entries) {key : String} (hkey : canonicalizeResourceKey key = .ok canonical)
    {value : ResourceValue} {e : String × ResourceValue} :
    e ∈ (t.insert ((inheritedKey canonical t).getD key) value).entries ↔
      e = ((inheritedKey canonical t).getD key, value) ∨
        (e ∈ t.entries ∧ canonicalizeResourceKey e.1 ≠ .ok canonical) := by
  rw [mem_insert_iff]
  refine or_congr_right (and_congr_right fun he => ?_)
  cases hinherited : inheritedKey canonical t with
  | none =>
    have hother := inheritedKey_eq_none hinherited e he
    refine iff_of_true (fun heq => hother ?_) hother
    rw [heq]
    exact hkey
  | some =>
    obtain ⟨hspelling, _, hold⟩ := inheritedKey_eq_some hinherited
    refine not_congr ⟨fun heq => ?_, fun heq => ?_⟩
    · rw [heq]
      exact hspelling
    · exact congrArg Prod.fst (ht.unique he hold (heq.trans hspelling.symm))

theorem Distinct.insert {canonical : CanonicalResource} {t : ResourceTable}
    (ht : Distinct t.entries) {key : String} (hkey : canonicalizeResourceKey key = .ok canonical)
    (value : ResourceValue) :
    Distinct (t.insert ((inheritedKey canonical t).getD key) value).entries := by
  have hspelling := canonicalize_getD (t := t) hkey
  refine distinct_of_unique ?_ ?_
  · intro e he
    rcases (mem_insert_inherited ht hkey).mp he with rfl | ⟨he, -⟩
    · exact ⟨canonical, hspelling⟩
    · exact ht.known e he
  · intro e he e' he' heq
    rcases (mem_insert_inherited ht hkey).mp he with rfl | ⟨he, hne⟩
    · rcases (mem_insert_inherited ht hkey).mp he' with rfl | ⟨-, hne'⟩
      · rfl
      · exact absurd (heq.symm.trans hspelling) hne'
    · rcases (mem_insert_inherited ht hkey).mp he' with rfl | ⟨he', -⟩
      · exact absurd (heq.trans hspelling) hne
      · exact ht.unique he he' heq

theorem inheritedKey_iff {canonical : CanonicalResource} {t : ResourceTable}
    (ht : Distinct t.entries) {key : String} : inheritedKey canonical t = some key ↔
      canonicalizeResourceKey key = .ok canonical ∧ ∃ value, (key, value) ∈ t.entries := by
  refine ⟨inheritedKey_eq_some, ?_⟩
  rintro ⟨hkey, value, hmem⟩
  cases hinherited : inheritedKey canonical t with
  | none =>
    have hnone := inheritedKey_eq_none hinherited (key, value) hmem
    exact absurd hkey hnone
  | some inherited =>
    obtain ⟨hspelling, old, hold⟩ := inheritedKey_eq_some hinherited
    have heq : canonicalizeResourceKey inherited = canonicalizeResourceKey key :=
      hspelling.trans hkey.symm
    have hsame : (inherited, old) = (key, value) := ht.unique hold hmem heq
    exact congrArg some (congrArg Prod.fst hsame)

/-- The key under which a table takes a declaration over. -/
def spelling (t : ResourceTable) (key : String) : String :=
  match canonicalizeResourceKey key with
  | .ok canonical => (inheritedKey canonical t).getD key
  | .error _ => key

theorem canonicalize_spelling (t : ResourceTable) {canonical : CanonicalResource} {key : String}
    (h : canonicalizeResourceKey key = .ok canonical) :
    canonicalizeResourceKey (spelling t key) = .ok canonical := by
  unfold spelling
  rw [h]
  exact canonicalize_getD h

theorem spelling_insert {canonical : CanonicalResource} {t : ResourceTable}
    (ht : Distinct t.entries) {key : String} (hkey : canonicalizeResourceKey key = .ok canonical)
    (value : ResourceValue) {other : String}
    (hother : canonicalizeResourceKey other ≠ .ok canonical) :
    spelling (t.insert ((inheritedKey canonical t).getD key) value) other = spelling t other := by
  unfold spelling
  cases hc : canonicalizeResourceKey other with
  | error => rfl
  | ok c =>
    rw [hc] at hother
    have hsame : inheritedKey c (t.insert ((inheritedKey canonical t).getD key) value) =
        inheritedKey c t := by
      refine Option.ext fun k => ?_
      rw [inheritedKey_iff (ht.insert hkey value), inheritedKey_iff ht]
      refine and_congr_right fun hk => exists_congr fun v => ?_
      rw [mem_insert_inherited ht hkey, hk]
      constructor
      · rintro (heq | ⟨hmem, -⟩)
        · have hcanonical := canonicalize_getD (t := t) hkey
          have hname : k = (inheritedKey canonical t).getD key := congrArg Prod.fst heq
          rw [← hname, hk] at hcanonical
          exact absurd hcanonical hother
        · exact hmem
      · exact fun hmem => .inr ⟨hmem, hother⟩
    dsimp only
    rw [hsame]

theorem override_spec {rule : String} {own : List (String × ResourceValue)}
    {base effective : ResourceTable} (hbase : Distinct base.entries) (hown : Distinct own)
    (h : override rule own base = .ok effective) :
    Distinct effective.entries ∧ ∀ e, e ∈ effective.entries ↔
      (∃ r ∈ own, e = (spelling base r.1, r.2)) ∨
        (e ∈ base.entries ∧
          ∀ r ∈ own, canonicalizeResourceKey r.1 ≠ canonicalizeResourceKey e.1) := by
  induction own generalizing base with
  | nil =>
    cases h
    refine ⟨hbase, fun e => ⟨fun he => .inr ⟨he, nofun⟩, ?_⟩⟩
    rintro (⟨r, hr, -⟩ | ⟨he, -⟩)
    · cases hr
    · exact he
  | cons r own ih =>
    obtain ⟨key, value⟩ := r
    obtain ⟨canonical, hkey⟩ := hown.known _ mem_cons_self
    obtain ⟨hfresh, hnodup⟩ := nodup_cons.mp hown.nodup
    have hrest : Distinct own := ⟨fun e he => hown.known e (.tail _ he), hnodup⟩
    have hother : ∀ r ∈ own, canonicalizeResourceKey r.1 ≠ .ok canonical := by
      intro r hr heq
      refine hfresh (mem_map.mpr ⟨r, hr, ?_⟩)
      exact heq.trans hkey.symm
    dsimp only at hkey
    rw [override, hkey] at h
    obtain ⟨hdistinct, hmem⟩ := ih (hbase.insert hkey value) hrest h
    refine ⟨hdistinct, fun e => ?_⟩
    have hspelling : spelling base key = (inheritedKey canonical base).getD key := by
      rw [spelling, hkey]
    rw [hmem, mem_insert_inherited hbase hkey, exists_mem_cons_iff, forall_mem_cons,
      hspelling]
    dsimp only
    rw [hkey]
    constructor
    · rintro (⟨r, hr, rfl⟩ | ⟨rfl | ⟨he, hne⟩, hall⟩)
      · refine .inl (.inr ⟨r, hr, ?_⟩)
        rw [spelling_insert hbase hkey value (hother r hr)]
      · exact .inl (.inl rfl)
      · exact .inr ⟨he, fun heq => hne heq.symm, hall⟩
    · rintro ((rfl | ⟨r, hr, rfl⟩) | ⟨he, hne, hall⟩)
      · refine .inr ⟨.inl rfl, fun r hr heq => hother r hr ?_⟩
        exact heq.trans (canonicalize_getD hkey)
      · refine .inl ⟨r, hr, ?_⟩
        rw [spelling_insert hbase hkey value (hother r hr)]
      · exact .inr ⟨.inr ⟨he, fun heq => hne heq.symm⟩, hall⟩

/-! ### A value under another spelling -/

/-- The size of the unit that a key of memory names. -/
def namedUnit (key : String) : Option ℕ :=
  if key = "mem_mb" then some (2 ^ 20) else if key = "mem_gb" then some (2 ^ 30) else none

/-- Two keys name the same unit, or the value is a bare zero. -/
def ReadsAlike (key other : String) (value : ResourceValue) : Prop :=
  namedUnit key = namedUnit other ∨ ∃ d, decimalFromValue key value = .ok d ∧ d.coefficient = 0

theorem getD_namedUnit_ne {key other : String} (h : namedUnit key ≠ namedUnit other) :
    (namedUnit key).getD 1 ≠ (namedUnit other).getD 1 := by
  unfold namedUnit at h ⊢
  split_ifs at h ⊢ <;> first | exact absurd rfl h | decide

theorem decimalFromValue_congr {key : String} {value : ResourceValue} {d : Decimal}
    (h : decimalFromValue key value = .ok d) (other : String) :
    decimalFromValue other value = .ok d :=
  invalidValue_iff.mpr (invalidValue_iff.mp h)

theorem memoryDecimal_of_decimal {key : String} {value : ResourceValue} {d : Decimal}
    (h : decimalFromValue key value = .ok d) (other : String) :
    memoryDecimal other value = .ok (d, (namedUnit other).getD 1) := by
  have hother := decimalFromValue_congr h other
  unfold memoryDecimal namedUnit
  by_cases hmb : other = "mem_mb"
  · rw [if_pos hmb, if_pos hmb, hother]
    rfl
  · rw [if_neg hmb, if_neg hmb]
    by_cases hgb : other = "mem_gb"
    · rw [if_pos hgb, if_pos hgb, hother]
      rfl
    · rw [if_neg hgb, if_neg hgb]
      cases value with
      | int | float =>
        dsimp only
        rw [hother]
        rfl
      | str v =>
        have hparse : parseDecimal v.toList = .ok d := invalidValue_iff.mp h
        obtain ⟨s, hs⟩ := exists_spelling hparse
        have htext : v.toList =
            (⟨s, [], 1, [], blank_nil, .inl ⟨rfl, rfl⟩⟩ : MemorySpelling).text := by
          rw [MemorySpelling.text, append_nil, append_nil, hs]
        refine invalidValue_iff.mpr ?_
        rw [parseMemoryString_text _ htext, hs, hparse]
        rfl

theorem decimal_of_memoryDecimal {key : String} {value : ResourceValue} {p : Decimal × ℕ}
    (hunit : namedUnit key ≠ none) (h : memoryDecimal key value = .ok p) :
    decimalFromValue key value = .ok p.1 := by
  unfold memoryDecimal at h
  unfold namedUnit at hunit
  by_cases hmb : key = "mem_mb"
  · rw [if_pos hmb] at h
    cases hd : decimalFromValue key value with
    | error =>
      rw [hd] at h
      cases h
    | ok =>
      rw [hd] at h
      cases h
      rfl
  · rw [if_neg hmb] at h hunit
    by_cases hgb : key = "mem_gb"
    · rw [if_pos hgb] at h
      cases hd : decimalFromValue key value with
      | error =>
        rw [hd] at h
        cases h
      | ok =>
        rw [hd] at h
        cases h
        rfl
    · rw [if_neg hgb] at hunit
      exact absurd rfl hunit

theorem memoryDecimal_congr {key other : String} (hunit : namedUnit key = namedUnit other)
    {value : ResourceValue} {p : Decimal × ℕ} (h : memoryDecimal key value = .ok p) :
    memoryDecimal other value = .ok p := by
  by_cases hnamed : namedUnit key = none
  · have hplain : ∀ k, namedUnit k = none → k ≠ "mem_mb" ∧ k ≠ "mem_gb" := by
      rintro k hk
      constructor
      · rintro rfl
        cases hk
      · rintro rfl
        cases hk
    obtain ⟨hmb, hgb⟩ := hplain key hnamed
    obtain ⟨hmb', hgb'⟩ := hplain other (hunit ▸ hnamed)
    unfold memoryDecimal at h ⊢
    rw [if_neg hmb, if_neg hgb] at h
    rw [if_neg hmb', if_neg hgb']
    cases value with
    | str => exact invalidValue_iff.mpr (invalidValue_iff.mp h)
    | int | float =>
      dsimp only at h ⊢
      rw [decimalFromValue, map_invalidValue, invalidValue_iff] at h ⊢
      exact h
  · have hd := decimal_of_memoryDecimal hnamed h
    have hp := memoryDecimal_of_decimal hd key
    rw [h] at hp
    have hother := memoryDecimal_of_decimal hd other
    rw [← hunit] at hother
    rw [hother, ← hp]

theorem parseMemory_eq_ok_iff {key : String} {value : ResourceValue} {a : ℕ} :
    parseMemory key value = .ok a ↔ ∃ p, memoryDecimal key value = .ok p ∧
      scaleDecimal p.1 p.2 .fractionalByte = .ok a ∧ a < 2 ^ 64 := by
  constructor
  · intro h
    obtain ⟨p, hp, h⟩ := bind_eq_ok h
    obtain ⟨v, hv, ha⟩ := bind_eq_ok (invalidValue_iff.mp h)
    have heq := toU64_eq_ok ha
    rw [← heq] at hv
    exact ⟨p, hp, hv, lt_of_toU64_eq_ok ha⟩
  · rintro ⟨p, hp, hv, ha⟩
    unfold parseMemory
    rw [hp]
    change invalidValue key value ((scaleDecimal p.1 p.2 .fractionalByte).bind toU64) = .ok a
    rw [hv, invalidValue_iff]
    change toU64 a = .ok a
    rw [toU64, if_pos ha]

theorem parseMemory_iff_readsAlike {key other : String} {value : ResourceValue} {a : ℕ}
    (h : parseMemory key value = .ok a) :
    parseMemory other value = .ok a ↔ ReadsAlike key other value := by
  obtain ⟨p, hp, hscale, ha⟩ := parseMemory_eq_ok_iff.mp h
  constructor
  · intro h'
    obtain ⟨p', hp', hscale', -⟩ := parseMemory_eq_ok_iff.mp h'
    by_cases hunit : namedUnit key = namedUnit other
    · exact .inl hunit
    · obtain ⟨d, hd⟩ : ∃ d, decimalFromValue key value = .ok d := by
        by_cases hnamed : namedUnit key = none
        · have hnamed' : namedUnit other ≠ none := fun hnone => hunit (hnamed.trans hnone.symm)
          exact ⟨p'.1, decimalFromValue_congr (decimal_of_memoryDecimal hnamed' hp') key⟩
        · exact ⟨p.1, decimal_of_memoryDecimal hnamed hp⟩
      rw [memoryDecimal_of_decimal hd] at hp hp'
      cases hp
      cases hp'
      have hexact := scaleDecimal_exact hscale
      rw [scaleDecimal_exact hscale'] at hexact
      have hne : ((namedUnit other).getD 1 : ℚ) ≠ ((namedUnit key).getD 1 : ℚ) := by
        intro heq
        exact getD_namedUnit_ne hunit (by exact_mod_cast heq.symm)
      have hzero : Decimal.value d = 0 := by
        by_contra hvalue
        exact hne (mul_left_cancel₀ hvalue hexact)
      rw [Decimal.value] at hzero
      have hpower : (10 : ℚ) ^ (-d.scale) ≠ 0 := zpow_ne_zero _ (by norm_num)
      have hcoefficient := (mul_eq_zero.mp hzero).resolve_right hpower
      exact .inr ⟨d, hd, by exact_mod_cast hcoefficient⟩
  · rintro (hunit | ⟨d, hd, hcoefficient⟩)
    · exact parseMemory_eq_ok_iff.mpr ⟨p, memoryDecimal_congr hunit hp, hscale, ha⟩
    · rw [memoryDecimal_of_decimal hd] at hp
      cases hp
      rw [scaleDecimal, if_pos hcoefficient] at hscale
      refine parseMemory_eq_ok_iff.mpr ⟨_, memoryDecimal_of_decimal hd other, ?_, ha⟩
      rw [scaleDecimal, if_pos hcoefficient]
      exact hscale

/-! ### The law of resource classes -/

def Declared (t : ResourceTable) (canonical : CanonicalResource) : Prop :=
  ∃ e ∈ t.entries, canonicalizeResourceKey e.1 = .ok canonical

/-- The effective table has one entry for each declared resource and the amounts of the rule,
or else of the class. -/
structure Overrides (own base : ResourceTable) (nown nbase : NormalizedResources)
    (effective : ResourceTable) : Prop where
  /-- It normalizes to the amounts of the rule, or else of the class. -/
  normalizes : ∃ n, normalizeResources effective.entries = .ok n ∧
    ∀ canonical, n.amount canonical = (nown.amount canonical).or (nbase.amount canonical)
  once : (effective.entries.map fun e => canonicalizeResourceKey e.1).Nodup
  /-- The declared resources are those of the rule and of the class. -/
  declared : ∀ canonical,
    Declared effective canonical ↔ Declared own canonical ∨ Declared base canonical

/-- Memory that the rule and the class both declare reads alike under both keys. -/
def UnitsAgree (own base : ResourceTable) : Prop :=
  ∀ r ∈ own.entries, ∀ e ∈ base.entries, canonicalizeResourceKey r.1 = .ok .memory →
    canonicalizeResourceKey e.1 = .ok .memory → ReadsAlike r.1 e.1 r.2

theorem distinct_of_normalizeResources {entries : List (String × ResourceValue)}
    {n : NormalizedResources} (h : normalizeResources entries = .ok n) : Distinct entries := by
  have hnormalizes := normalizes_of_normalizeResources h
  refine ⟨fun e he => ?_, hnormalizes.nodup⟩
  obtain ⟨canonical, -, hkey, -⟩ := hnormalizes.amount e he
  exact ⟨canonical, hkey⟩

theorem amount_eq_none {t : ResourceTable} {n : NormalizedResources}
    (h : normalizeResources t.entries = .ok n) {canonical : CanonicalResource}
    (hnone : ¬ Declared t canonical) : n.amount canonical = none := by
  cases ha : n.amount canonical with
  | none => rfl
  | some => exact absurd (of_amount (declared_of_normalizeResources h) ha) hnone

theorem parseAmount_congr {canonical : CanonicalResource} (hcanonical : canonical ≠ .memory)
    {key : String} {value : ResourceValue} {a : ℕ}
    (h : parseAmount canonical key value = .ok a) (other : String) :
    parseAmount canonical other value = .ok a := by
  have hcount : ∀ k, parseAmount canonical k value = parseCount k value := by
    intro k
    cases canonical with
    | memory => exact absurd rfl hcanonical
    | cpu | gpu | custom => rfl
  rw [hcount] at h ⊢
  obtain ⟨d, hd, h⟩ := bind_eq_ok h
  unfold parseCount
  rw [decimalFromValue_congr hd other]
  exact invalidValue_iff.mpr (invalidValue_iff.mp h)

section Override

variable {rule : String} {own base effective : ResourceTable} {nown nbase : NormalizedResources}
  (hown : normalizeResources own.entries = .ok nown)
  (hbase : normalizeResources base.entries = .ok nbase)
  (h : override rule own.entries base = .ok effective)

include hown hbase h

theorem declared_override (canonical : CanonicalResource) :
    Declared effective canonical ↔ Declared own canonical ∨ Declared base canonical := by
  have hdown := distinct_of_normalizeResources hown
  obtain ⟨-, hmem⟩ := override_spec (distinct_of_normalizeResources hbase) hdown h
  constructor
  · rintro ⟨e, he, hkey⟩
    rcases (hmem e).mp he with ⟨r, hr, rfl⟩ | ⟨he, -⟩
    · obtain ⟨c, hc⟩ := hdown.known r hr
      have hspelling := canonicalize_spelling base hc
      rw [hspelling] at hkey
      exact .inl ⟨r, hr, hc.trans hkey⟩
    · exact .inr ⟨e, he, hkey⟩
  · intro hdeclared
    by_cases hrule : Declared own canonical
    · obtain ⟨r, hr, hkey⟩ := hrule
      exact ⟨_, (hmem _).mpr (.inl ⟨r, hr, rfl⟩), canonicalize_spelling base hkey⟩
    · obtain ⟨e, he, hkey⟩ := hdeclared.resolve_left hrule
      refine ⟨e, (hmem e).mpr (.inr ⟨he, fun r hr heq => hrule ⟨r, hr, ?_⟩⟩), hkey⟩
      exact heq.trans hkey

omit hbase h in
theorem parse_spelling (hagree : UnitsAgree own base) {r : String × ResourceValue}
    (hr : r ∈ own.entries) {canonical : CanonicalResource}
    (hkey : canonicalizeResourceKey r.1 = .ok canonical) :
    ∃ a, parseAmount canonical (spelling base r.1) r.2 = .ok a ∧
      nown.amount canonical = some a := by
  obtain ⟨a, hparse, hamount⟩ := (normalizes_of_normalizeResources hown).parsed hr hkey
  refine ⟨a, ?_, hamount⟩
  by_cases hmemory : canonical = .memory
  · subst hmemory
    unfold spelling
    rw [hkey]
    dsimp only
    cases hinherited : inheritedKey .memory base with
    | none => exact hparse
    | some inherited =>
      obtain ⟨hspelling, value, he⟩ := inheritedKey_eq_some hinherited
      have halike := hagree r hr (inherited, value) he hkey hspelling
      exact (parseMemory_iff_readsAlike hparse).mpr halike
  · exact parseAmount_congr hmemory hparse _

theorem normalizes_override (hagree : UnitsAgree own base) :
    ∃ n, normalizeResources effective.entries = .ok n ∧
      ∀ canonical, n.amount canonical = (nown.amount canonical).or (nbase.amount canonical) := by
  have hdown := distinct_of_normalizeResources hown
  obtain ⟨hdistinct, hmem⟩ := override_spec (distinct_of_normalizeResources hbase) hdown h
  have hparsed : ∀ e ∈ effective.entries, ∃ canonical a,
      canonicalizeResourceKey e.1 = .ok canonical ∧ parseAmount canonical e.1 e.2 = .ok a ∧
        (nown.amount canonical).or (nbase.amount canonical) = some a := by
    intro e he
    rcases (hmem e).mp he with ⟨r, hr, rfl⟩ | ⟨he, hother⟩
    · obtain ⟨canonical, hkey⟩ := hdown.known r hr
      obtain ⟨a, hparse, hamount⟩ := parse_spelling hown hagree hr hkey
      exact ⟨canonical, a, canonicalize_spelling base hkey, hparse, by rw [hamount]; rfl⟩
    · obtain ⟨canonical, a, hkey, hparse, hamount⟩ :=
        (normalizes_of_normalizeResources hbase).amount e he
      have hnone : nown.amount canonical = none := by
        refine amount_eq_none hown ?_
        rintro ⟨r, hr, hrkey⟩
        exact hother r hr (hrkey.trans hkey.symm)
      exact ⟨canonical, a, hkey, hparse, by rw [hnone, hamount]; rfl⟩
  obtain ⟨n, hn⟩ := exists_normalizeLoop hdistinct.nodup
    (fun e he => by
      obtain ⟨canonical, a, hkey, hparse, -⟩ := hparsed e he
      exact ⟨canonical, a, hkey, hparse⟩)
    ⟨none, none, none, []⟩ [] (fun _ _ _ _ => rfl)
  have hnormal : normalizeResources effective.entries = .ok n := hn
  refine ⟨n, hnormal, fun canonical => ?_⟩
  by_cases hdeclared : Declared effective canonical
  · obtain ⟨e, he, hkey⟩ := hdeclared
    obtain ⟨c, a, hc, hparse, hamount⟩ := hparsed e he
    have hsame : c = canonical := Except.ok.inj (hc.symm.trans hkey)
    subst hsame
    obtain ⟨_, hparse', hamount'⟩ := (normalizes_of_normalizeResources hnormal).parsed he hkey
    rw [hparse] at hparse'
    cases hparse'
    rw [hamount, hamount']
  · have hneither := (declared_override hown hbase h canonical).not.mp hdeclared
    rw [amount_eq_none hnormal hdeclared, amount_eq_none hown (not_or.mp hneither).1,
      amount_eq_none hbase (not_or.mp hneither).2]
    rfl

theorem unitsAgree_of_amounts {n : NormalizedResources}
    (hn : normalizeResources effective.entries = .ok n)
    (hamounts : ∀ canonical, n.amount canonical =
      (nown.amount canonical).or (nbase.amount canonical)) : UnitsAgree own base := by
  intro r hr e he hkey hbasekey
  have hdbase := distinct_of_normalizeResources hbase
  obtain ⟨-, hmem⟩ := override_spec hdbase (distinct_of_normalizeResources hown) h
  have hinherited : inheritedKey .memory base = some e.1 :=
    (inheritedKey_iff hdbase).mpr ⟨hbasekey, e.2, he⟩
  have hspelling : spelling base r.1 = e.1 := by
    unfold spelling
    rw [hkey]
    dsimp only
    rw [hinherited]
    rfl
  have hentry : (e.1, r.2) ∈ effective.entries := by
    refine (hmem _).mpr (.inl ⟨r, hr, ?_⟩)
    rw [hspelling]
  obtain ⟨a, hparse, hamount⟩ := (normalizes_of_normalizeResources hown).parsed hr hkey
  obtain ⟨_, hparse', hamount'⟩ :=
    (normalizes_of_normalizeResources hn).parsed hentry hbasekey
  rw [hamounts, hamount] at hamount'
  cases hamount'
  exact (parseMemory_iff_readsAlike hparse).mp hparse'

end Override

theorem getElem?_resolveRules {w : Workflow} {rules rules' : List Rule}
    (h : resolveRules w rules = .ok rules') {i : ℕ} {rule rule' : Rule}
    (hrule : rules[i]? = some rule) (hrule' : rules'[i]? = some rule') :
    resolveRule w rule = .ok rule' := by
  induction rules generalizing rules' i with
  | nil => cases hrule
  | cons first rules ih =>
    rw [resolveRules] at h
    cases hfirst : resolveRule w first with
    | error =>
      rw [hfirst] at h
      cases h
    | ok =>
      rw [hfirst] at h
      dsimp only at h
      cases hrest : resolveRules w rules with
      | error =>
        rw [hrest] at h
        cases h
      | ok =>
        rw [hrest] at h
        cases h
        cases i with
        | zero =>
          cases hrule
          cases hrule'
          exact hfirst
        | succ => exact ih hrest hrule hrule'

/-- The effective resources of a rule are those of its class overridden by its own exactly
when memory they both declare reads alike under both keys. -/
theorem overrides_iff_unitsAgree {w w' : Workflow} (h : resolveResourceClasses w = .ok w')
    {i : ℕ} {rule rule' : Rule} (hrule : w.rules[i]? = some rule)
    (hrule' : w'.rules[i]? = some rule') {className : String} {base : ResourceTable}
    (hname : w.ruleResourceClasses.lookup rule.name = some className)
    (hclass : w.resourceClasses.lookup className = some base) {nown nbase : NormalizedResources}
    (hown : normalizeResources rule.resources.entries = .ok nown)
    (hbase : normalizeResources base.entries = .ok nbase) :
    Overrides rule.resources base nown nbase rule'.resources ↔ UnitsAgree rule.resources base := by
  have hoverride : override rule.name rule.resources.entries base = .ok rule'.resources := by
    unfold resolveResourceClasses at h
    cases hrules : resolveRules w w.rules with
    | error =>
      rw [hrules] at h
      cases h
    | ok =>
      rw [hrules] at h
      cases h
      have hresolve := getElem?_resolveRules hrules hrule hrule'
      unfold resolveRule at hresolve
      rw [hname] at hresolve
      dsimp only at hresolve
      rw [hclass] at hresolve
      dsimp only at hresolve
      cases heffective : override rule.name rule.resources.entries base with
      | error =>
        rw [heffective] at hresolve
        cases hresolve
      | ok =>
        rw [heffective] at hresolve
        cases hresolve
        rfl
  constructor
  · intro hoverrides
    obtain ⟨n, hn, hamounts⟩ := hoverrides.normalizes
    exact unitsAgree_of_amounts hown hbase hoverride hn hamounts
  · intro hagree
    obtain ⟨hdistinct, -⟩ := override_spec (distinct_of_normalizeResources hbase)
      (distinct_of_normalizeResources hown) hoverride
    exact ⟨normalizes_override hown hbase hoverride hagree, hdistinct.nodup,
      declared_override hown hbase hoverride⟩

def standard : ResourceTable :=
  ⟨[("cpu", .int 2), ("mem_gb", .int 4)], by unfold SortedMap.Sorted; decide⟩

/-- A rule of the class that declares memory under another key. -/
def train (key : String) : Rule := ⟨"train", ⟨[(key, .int 4096)], by simp [SortedMap.Sorted]⟩⟩

def classified (key : String) : Workflow :=
  ⟨[train key], [("train", "standard")], [("standard", standard)], []⟩

/-- A number of mebibytes is read as one of gibibytes. -/
theorem not_overrides : ∃ w' rule' nown nbase,
    resolveResourceClasses (classified "mem_mb") = .ok w' ∧ w'.rules[0]? = some rule' ∧
    normalizeResources (train "mem_mb").resources.entries = .ok nown ∧
    normalizeResources standard.entries = .ok nbase ∧
    ¬ Overrides (train "mem_mb").resources standard nown nbase rule'.resources := by
  refine ⟨_, _, _, _, rfl, rfl, rfl, rfl, fun h => ?_⟩
  obtain ⟨n, hn, hamounts⟩ := h.normalizes
  have hmemory := hamounts .memory
  cases hn
  cases hmemory

/-- Four thousand gibibytes override four. -/
theorem overrides_iff_unitsAgree_gibibytes :
    Overrides (train "mem_gb").resources standard ⟨none, none, some (4096 * 2 ^ 30), []⟩
      ⟨some 20000, none, some (4 * 2 ^ 30), []⟩
      (standard.insert "mem_gb" (.int 4096)) := by
  have hrule : (classified "mem_gb").rules[0]? = some (train "mem_gb") := rfl
  have hname : (classified "mem_gb").ruleResourceClasses.lookup (train "mem_gb").name =
      some "standard" := rfl
  have hresolve : resolveResourceClasses (classified "mem_gb") = .ok { classified "mem_gb" with
      rules := [⟨"train", standard.insert "mem_gb" (.int 4096)⟩] } := rfl
  refine (overrides_iff_unitsAgree hresolve hrule rfl hname rfl rfl rfl).mpr ?_
  intro r hr e he hrkey hekey
  left
  rw [mem_singleton.mp hr]
  rcases mem_cons.mp he with rfl | he
  · cases hekey
  · rw [mem_singleton.mp he]

end OxyMake.ResourceClasses
