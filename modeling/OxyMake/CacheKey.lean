import Mathlib.Algebra.Order.Ring.Nat
import Mathlib.Data.Fin.Basic
import Mathlib.Data.List.Lex
import Mathlib.Order.Fin.Basic
import Mathlib.Tactic.NormNum
import Mathlib.Tactic.Ring

/-!
# The byte stream of a cache key

A cache key is the hash of a stream of framed fields: the format version, the
rule source, the inputs as pairs of path and content hash sorted by path, and
the remaining ingredients, each with a tag, a presence byte and a length. The
stream determines every ingredient, the inputs up to their order.
-/

namespace OxyMake.CacheKey

open List

/-! ### Length-prefixed byte strings -/

abbrev Byte := Fin 256

instance neZero_bytes : NeZero 256 := ⟨by decide⟩

/-- The last `k` bytes of a number, the least significant one first. -/
def leBytes : ℕ → ℕ → List Byte
  | 0, _ => []
  | k + 1, n => Fin.ofNat 256 n :: leBytes k (n / 256)

@[simp]
theorem length_leBytes (k n : ℕ) : (leBytes k n).length = k := by
  induction k generalizing n with
  | zero => rfl
  | succ k ih => rw [leBytes, length_cons, ih]

theorem leBytes_inj {k n m : ℕ} (hn : n < 256 ^ k) (hm : m < 256 ^ k)
    (h : leBytes k n = leBytes k m) : n = m := by
  induction k generalizing n m with
  | zero =>
    rw [pow_zero] at hn hm
    omega
  | succ k ih =>
    rw [leBytes, leBytes] at h
    obtain ⟨hlow, hhigh⟩ := cons_eq_cons.mp h
    have hpow : 256 ^ (k + 1) = 256 * 256 ^ k := by ring
    have hdiv : n / 256 = m / 256 := by
      refine ih ?_ ?_ hhigh
      · rw [hpow] at hn
        exact Nat.div_lt_of_lt_mul hn
      · rw [hpow] at hm
        exact Nat.div_lt_of_lt_mul hm
    have hmod : n % 256 = m % 256 := congrArg Fin.val hlow
    omega

/-- A byte string after its length in eight bytes. -/
def block (value : List Byte) : List Byte := leBytes 8 value.length ++ value

theorem block_append_inj {v v' r r' : List Byte} (hv : v.length < 2 ^ 64)
    (hv' : v'.length < 2 ^ 64) (h : block v ++ r = block v' ++ r') : v = v' ∧ r = r' := by
  unfold block at h
  rw [append_assoc, append_assoc] at h
  have hstart := List.append_inj h (by rw [length_leBytes, length_leBytes])
  have hbound : (256 : ℕ) ^ 8 = 2 ^ 64 := by norm_num
  have hlen : v.length = v'.length :=
    leBytes_inj (by rw [hbound]; exact hv) (by rw [hbound]; exact hv') hstart.1
  exact List.append_inj hstart.2 hlen

/-! ### Fields -/

/-- A string of the source: its bytes, of which there are at most `isize::MAX`. -/
structure Str where
  bytes : List Byte
  bounded : bytes.length < 2 ^ 63
  deriving DecidableEq

theorem nil_bounded : ([] : List Byte).length < 2 ^ 63 := by decide

theorem Str.ext {a b : Str} (h : a.bytes = b.bytes) : a = b := by
  cases a
  cases b
  cases h
  rfl

theorem Str.length_lt (s : Str) : s.bytes.length < 2 ^ 64 :=
  s.bounded.trans (by norm_num)

def ascii (s : String) : List Byte := s.toList.map fun c => Fin.ofNat 256 c.toNat

/-! ### Framed fields -/

def updateField (tag : String) (value : List Byte) : List Byte :=
  block (ascii tag) ++ [1] ++ block value

def updateAbsentField (tag : String) : List Byte := block (ascii tag) ++ [0]

def updateOptField (tag : String) : Option (List Byte) → List Byte
  | some value => updateField tag value
  | none => updateAbsentField tag

theorem updateField_append_inj {tag : String} {v v' r r' : List Byte} (hv : v.length < 2 ^ 64)
    (hv' : v'.length < 2 ^ 64) (h : updateField tag v ++ r = updateField tag v' ++ r') :
    v = v' ∧ r = r' := by
  unfold updateField at h
  rw [append_assoc _ (block v), append_assoc _ (block v')] at h
  exact block_append_inj hv hv' (append_cancel_left h)

theorem updateField_append_ne_absent {tag : String} {v r r' : List Byte} :
    updateField tag v ++ r ≠ updateAbsentField tag ++ r' := by
  intro h
  unfold updateField updateAbsentField at h
  simp only [append_assoc, singleton_append] at h
  have hcons := append_cancel_left h
  exact absurd (cons_eq_cons.mp hcons).1 (by decide)

theorem updateOptField_append_inj {tag : String} {v v' : Option Str} {r r' : List Byte}
    (h : updateOptField tag (v.map Str.bytes) ++ r = updateOptField tag (v'.map Str.bytes) ++ r') :
    v = v' ∧ r = r' := by
  cases v with
  | none =>
    cases v' with
    | none => exact ⟨rfl, append_cancel_left h⟩
    | some => exact absurd h.symm updateField_append_ne_absent
  | some a =>
    cases v' with
    | none => exact absurd h updateField_append_ne_absent
    | some b =>
      obtain ⟨heq, hrest⟩ := updateField_append_inj a.length_lt b.length_lt h
      rw [Str.ext heq]
      exact ⟨rfl, hrest⟩

/-! ### The key -/

/-- Automatic cleanup policy for declared file outputs. -/
inductive CleanOutputs
  | always
  | onFailure
  | never
  deriving DecidableEq, Repr

def CleanOutputs.toText : CleanOutputs → String
  | .always => "always"
  | .onFailure => "on-failure"
  | .never => "never"

/-- Whether a cache key is scoped to the current platform. -/
inductive PlatformScope
  | exact
  | any
  deriving DecidableEq, Repr

/-- All ingredients of a cache key. -/
structure CacheKeySpec where
  ruleSource : Str
  inputs : List (Str × Str)
  /-- The list of inputs fits into memory. -/
  inputs_bounded : inputs.length < 2 ^ 63
  paramsHash : Option Str
  envHash : Option Str
  shellExecutable : Option Str
  cleanOutputs : CleanOutputs
  platformScope : PlatformScope
  platform : Str

def CacheKeySpec.effectivePlatform (spec : CacheKeySpec) : Option Str :=
  match spec.platformScope with
  | .any => none
  | .exact => some spec.platform

/-- Input pairs in the order of their paths, then of their hashes. -/
def inputLe (a b : Str × Str) : Bool :=
  a.1.bytes < b.1.bytes || (a.1.bytes = b.1.bytes && a.2.bytes ≤ b.2.bytes)

def inputStream (input : Str × Str) : List Byte :=
  updateField "input.path" input.1.bytes ++ updateField "input.hash" input.2.bytes

def keyStream (spec : CacheKeySpec) : List Byte :=
  let sorted := spec.inputs.mergeSort inputLe
  updateField "format" (ascii "oxymake-cache-key-v7") ++
    (updateField "rule" spec.ruleSource.bytes ++
    (updateField "inputs.count" (leBytes 8 sorted.length) ++
    (sorted.flatMap inputStream ++
    (updateOptField "params" (spec.paramsHash.map Str.bytes) ++
    (updateOptField "env" (spec.envHash.map Str.bytes) ++
    (updateOptField "shell" (spec.shellExecutable.map Str.bytes) ++
    (updateField "clean_outputs" (ascii spec.cleanOutputs.toText) ++
    updateOptField "platform" (spec.effectivePlatform.map Str.bytes))))))))

/-- Compute the cache key for a job, for a given hash function of the stream. -/
def computeCacheKey {Hash : Type} (blake3 : List Byte → Hash) (spec : CacheKeySpec) : Hash :=
  blake3 (keyStream spec)

theorem inputLe_trans (a b c : Str × Str) (h₁ : inputLe a b = true) (h₂ : inputLe b c = true) :
    inputLe a c = true := by
  simp only [inputLe, Bool.or_eq_true, Bool.and_eq_true, decide_eq_true_eq] at h₁ h₂ ⊢
  rcases h₁ with h₁ | ⟨h₁, h₁'⟩
  · rcases h₂ with h₂ | ⟨h₂, -⟩
    · exact Or.inl (lt_trans h₁ h₂)
    · exact Or.inl (h₂ ▸ h₁)
  · rcases h₂ with h₂ | ⟨h₂, h₂'⟩
    · exact Or.inl (h₁ ▸ h₂)
    · exact Or.inr ⟨h₁.trans h₂, le_trans h₁' h₂'⟩

theorem inputLe_total (a b : Str × Str) : (inputLe a b || inputLe b a) = true := by
  simp only [inputLe, Bool.or_eq_true, Bool.and_eq_true, decide_eq_true_eq]
  rcases lt_trichotomy a.1.bytes b.1.bytes with h | h | h
  · exact Or.inl (Or.inl h)
  · rcases le_total a.2.bytes b.2.bytes with h' | h'
    · exact Or.inl (Or.inr ⟨h, h'⟩)
    · exact Or.inr (Or.inr ⟨h.symm, h'⟩)
  · exact Or.inr (Or.inl h)

theorem inputLe_antisymm (a b : Str × Str) (h₁ : inputLe a b = true) (h₂ : inputLe b a = true) :
    a = b := by
  simp only [inputLe, Bool.or_eq_true, Bool.and_eq_true, decide_eq_true_eq] at h₁ h₂
  rcases h₁ with h₁ | ⟨hpath, hhash⟩
  · rcases h₂ with h₂ | ⟨h₂, -⟩
    · exact absurd h₂ (lt_asymm h₁)
    · exact absurd h₁ (h₂ ▸ lt_irrefl _)
  · rcases h₂ with h₂ | ⟨-, hhash'⟩
    · exact absurd h₂ (hpath ▸ lt_irrefl _)
    · exact Prod.ext (Str.ext hpath) (Str.ext (le_antisymm hhash hhash'))

theorem mergeSort_inputLe_eq_iff (l l' : List (Str × Str)) :
    l.mergeSort inputLe = l'.mergeSort inputLe ↔ l.Perm l' := by
  constructor
  · intro h
    exact (mergeSort_perm l inputLe).symm.trans (h ▸ mergeSort_perm l' inputLe)
  · intro h
    have hperm := (mergeSort_perm l inputLe).trans
      (h.trans (mergeSort_perm l' inputLe).symm)
    refine List.Perm.eq_of_pairwise (fun a b _ _ => inputLe_antisymm a b) ?_ ?_ hperm
    · exact pairwise_mergeSort inputLe_trans inputLe_total l
    · exact pairwise_mergeSort inputLe_trans inputLe_total l'

theorem inputs_append_inj {l l' : List (Str × Str)} {r r' : List Byte}
    (hlen : l.length = l'.length)
    (h : l.flatMap inputStream ++ r = l'.flatMap inputStream ++ r') : l = l' ∧ r = r' := by
  induction l generalizing l' with
  | nil =>
    cases l' with
    | nil => exact ⟨rfl, h⟩
    | cons => cases hlen
  | cons a l ih =>
    cases l' with
    | nil => cases hlen
    | cons b =>
      simp only [flatMap_cons, inputStream, append_assoc] at h
      obtain ⟨hpath, h⟩ := updateField_append_inj a.1.length_lt b.1.length_lt h
      obtain ⟨hhash, h⟩ := updateField_append_inj a.2.length_lt b.2.length_lt h
      obtain ⟨rfl, hrest⟩ := ih (Nat.succ.inj hlen) h
      rw [Prod.ext (Str.ext hpath) (Str.ext hhash)]
      exact ⟨rfl, hrest⟩

theorem toText_inj {a b : CleanOutputs} (h : ascii a.toText = ascii b.toText) : a = b := by
  revert h
  cases a <;> cases b <;> decide

theorem length_toText_lt (a : CleanOutputs) : (ascii a.toText).length < 2 ^ 64 := by
  cases a <;> decide

/-- Two specifications have the same ingredients, the inputs up to their order. -/
def SameIngredients (a b : CacheKeySpec) : Prop :=
  a.ruleSource = b.ruleSource ∧ a.inputs.Perm b.inputs ∧ a.paramsHash = b.paramsHash ∧
    a.envHash = b.envHash ∧ a.shellExecutable = b.shellExecutable ∧
    a.cleanOutputs = b.cleanOutputs ∧ a.effectivePlatform = b.effectivePlatform

theorem sameIngredients_of_keyStream_eq {a b : CacheKeySpec} (h : keyStream a = keyStream b) :
    SameIngredients a b := by
  have hcount : ∀ spec : CacheKeySpec,
      (leBytes 8 (spec.inputs.mergeSort inputLe).length).length < 2 ^ 64 := by
    intro spec
    rw [length_leBytes]
    norm_num
  have hfits : ∀ spec : CacheKeySpec, (spec.inputs.mergeSort inputLe).length < 256 ^ 8 := by
    intro spec
    rw [length_mergeSort]
    exact spec.inputs_bounded.trans (by norm_num)
  have h := (append_cancel_left h : _)
  obtain ⟨hrule, h⟩ := updateField_append_inj a.ruleSource.length_lt b.ruleSource.length_lt h
  obtain ⟨hn, h⟩ := updateField_append_inj (hcount a) (hcount b) h
  obtain ⟨hinputs, h⟩ := inputs_append_inj (leBytes_inj (hfits a) (hfits b) hn) h
  obtain ⟨hparams, h⟩ := updateOptField_append_inj h
  obtain ⟨henv, h⟩ := updateOptField_append_inj h
  obtain ⟨hshell, h⟩ := updateOptField_append_inj h
  obtain ⟨hclean, h⟩ := updateField_append_inj (length_toText_lt _) (length_toText_lt _) h
  have hplatform := updateOptField_append_inj (congrArg (· ++ []) h)
  exact ⟨Str.ext hrule, (mergeSort_inputLe_eq_iff _ _).mp hinputs, hparams, henv, hshell,
    toText_inj hclean, hplatform.1⟩

theorem keyStream_eq_of_sameIngredients {a b : CacheKeySpec} (h : SameIngredients a b) :
    keyStream a = keyStream b := by
  obtain ⟨hrule, hinputs, hparams, henv, hshell, hclean, hplatform⟩ := h
  unfold keyStream
  dsimp only
  rw [hrule, (mergeSort_inputLe_eq_iff _ _).mpr hinputs, hparams, henv, hshell, hclean, hplatform]

/-- The byte stream of a cache key determines its ingredients, the inputs up to their order,
and is determined by them. -/
theorem keyStream_eq_iff (a b : CacheKeySpec) :
    keyStream a = keyStream b ↔
      a.ruleSource = b.ruleSource ∧ a.inputs.Perm b.inputs ∧ a.paramsHash = b.paramsHash ∧
      a.envHash = b.envHash ∧ a.shellExecutable = b.shellExecutable ∧
      a.cleanOutputs = b.cleanOutputs ∧ a.effectivePlatform = b.effectivePlatform := by
  constructor
  · intro h
    exact sameIngredients_of_keyStream_eq h
  · intro h
    exact keyStream_eq_of_sameIngredients h

end OxyMake.CacheKey
