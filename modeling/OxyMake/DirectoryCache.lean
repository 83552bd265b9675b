import OxyMake.FileTree
import OxyMake.Wildcard

/-!
# The remote cache in a directory

Artifacts are files named by their content hash, in a directory that others
write to as well. A fetch copies the artifact to its destination, hashes what
arrived and removes it again when it does not match. A store replaces an entry
that does not match its key, through a staging file beside it. Each operation of
the file system may be refused, and a copy may break off.
-/

namespace OxyMake.DirectoryCache

open Function
open Wildcard (Text)
open FileTree

/-! ### The cache -/

def isHexDigit (c : Char) : Bool := c.isDigit || ('a' ≤ c && c ≤ 'f')

structure ContentHash where
  hex : Text
  length_eq : hex.length = 64
  digits : hex.all isHexDigit = true

inductive RemoteCacheError
  | io
  deriving DecidableEq

def artifactPath (root : Path) (key : ContentHash) : Path := root ++ [key.hex.take 2, key.hex]

/-- What fails during a fetch. -/
structure FetchFaults where
  directories : Path → Bool
  copy : Option CopyFault
  read : Bool
  remove : Bool

def FetchFaults.none : FetchFaults := ⟨fun _ => false, .none, false, false⟩

/-- What fails during a store. -/
structure StoreFaults where
  check : Bool
  directories : Path → Bool
  copy : Option CopyFault
  rename : Bool
  cleanup : Bool

/-- Process and time that name the staging file of a store. -/
structure Staging where
  process : ℕ
  nanos : ℕ

def stagingPath (root : Path) (key : ContentHash) (unique : Staging) : Path :=
  root ++ [key.hex.take 2, key.hex ++ (".tmp.".toList ++
    (Nat.toDigits 10 unique.process ++ '.' :: Nat.toDigits 10 unique.nanos))]

variable (blake3 : Bytes → Text) (root : Path)

/-- Copy the artifact to the destination and verify what arrived. -/
def fetch (key : ContentHash) (dest : Path) (faults : FetchFaults) (tree : Tree) :
    Except RemoteCacheError Bool × Tree :=
  let src := artifactPath root key
  if (tree src).isNone then (.ok false, tree)
  else
    match createDirs faults.directories (parents dest) tree with
    | (false, tree) => (.error .io, tree)
    | (true, tree) =>
      match copyFile faults.copy src dest tree with
      | (false, tree) => (.error .io, tree)
      | (true, tree) =>
        match readFile faults.read dest tree with
        | none => (.error .io, tree)
        | some actual =>
          if blake3 actual ≠ key.hex then
            if faults.remove then (.error .io, tree)
            else (.ok false, Function.update tree dest none)
          else (.ok true, tree)

/-- Put an artifact in place: stage it beside the entry, then rename. -/
def replaceEntry (key : ContentHash) (source : Path) (unique : Staging) (faults : StoreFaults)
    (tree : Tree) : Except RemoteCacheError Unit × Tree :=
  let dest := artifactPath root key
  let staging := stagingPath root key unique
  match createDirs faults.directories (parents dest) tree with
  | (false, tree) => (.error .io, tree)
  | (true, tree) =>
    match copyFile faults.copy source staging tree with
    | (false, tree) => (.error .io, tree)
    | (true, tree) =>
      match renameFile faults.rename staging dest tree with
      | (false, tree) =>
        (.error .io, if faults.cleanup then tree else Function.update tree staging none)
      | (true, tree) => (.ok (), tree)

/-- Store an artifact, unless the entry is there and matches its key. -/
def store (key : ContentHash) (source : Path) (unique : Staging) (faults : StoreFaults)
    (tree : Tree) : Except RemoteCacheError Unit × Tree :=
  let dest := artifactPath root key
  if (tree dest).isSome then
    match readFile faults.check dest tree with
    | none => (.error .io, tree)
    | some bytes =>
      if blake3 bytes = key.hex then (.ok (), tree)
      else replaceEntry root key source unique faults tree
  else replaceEntry root key source unique faults tree

/-! ### Fetching -/

variable {blake3 root} {key : ContentHash} {dest : Path} {tree : Tree}

/-- The fetch gets as far as opening its destination. -/
def opensDest (root : Path) (key : ContentHash) (dest : Path) (faults : FetchFaults)
    (tree : Tree) : Prop :=
  (createDirs faults.directories (parents dest) tree).1 = true ∧
    opensTarget faults.copy (artifactPath root key) dest
      (createDirs faults.directories (parents dest) tree).2

/-- What the outcome of a fetch says about the destination. -/
structure FetchLaw (blake3 : Bytes → Text) (root : Path) (key : ContentHash) (dest : Path)
    (faults : FetchFaults) (tree : Tree) (outcome : Except RemoteCacheError Bool × Tree) :
    Prop where
  /-- What was fetched matches its key. -/
  verified : outcome.1 = .ok true →
    ∃ bytes, outcome.2 dest = some (.file bytes) ∧ blake3 bytes = key.hex
  absent : outcome.1 = .ok false → tree (artifactPath root key) = none → outcome.2 = tree
  /-- An entry that does not match leaves no destination. -/
  mismatched : outcome.1 = .ok false → tree (artifactPath root key) ≠ none →
    outcome.2 dest = none
  /-- A fetch that fails before it opens the destination leaves it. -/
  unopened : outcome.1 = .error .io → ¬ opensDest root key dest faults tree →
    outcome.2 dest = tree dest

theorem fetch_law (faults : FetchFaults) :
    FetchLaw blake3 root key dest faults tree (fetch blake3 root key dest faults tree) := by
  rw [fetch]
  by_cases habsent : (tree (artifactPath root key)).isNone = true
  · rw [if_pos habsent]
    exact ⟨nofun, fun _ _ => rfl, fun _ h => absurd (Option.isNone_iff_eq_none.mp habsent) h, nofun⟩
  · rw [if_neg habsent]
    have hpresent : tree (artifactPath root key) ≠ none := fun h =>
      habsent (Option.isNone_iff_eq_none.mpr h)
    have hdest : (createDirs faults.directories (parents dest) tree).2 dest = tree dest :=
      createDirs_other _ tree (notMem_parents dest)
    cases hdirs : createDirs faults.directories (parents dest) tree with
    | mk created tree₁ =>
    rw [hdirs] at hdest
    cases created with
    | false => exact ⟨nofun, nofun, nofun, fun _ _ => hdest⟩
    | true =>
      have hopened : ¬ opensDest root key dest faults tree →
          copyFile faults.copy (artifactPath root key) dest tree₁ = (false, tree₁) := by
        intro hnot
        refine copyFile_of_not_opens fun hopens => hnot ⟨?_, ?_⟩
        · rw [hdirs]
        · rw [hdirs]
          exact hopens
      dsimp only
      cases hcopy : copyFile faults.copy (artifactPath root key) dest tree₁ with
      | mk copied tree₂ =>
      rw [hcopy] at hopened
      cases copied with
      | false =>
        refine ⟨nofun, nofun, nofun, fun _ hnot => ?_⟩
        have hsame : tree₂ = tree₁ := congrArg Prod.snd (hopened hnot)
        rw [hsame]
        exact hdest
      | true =>
        have hnever : ¬ opensDest root key dest faults tree → False := fun hnot =>
          nomatch congrArg Prod.fst (hopened hnot)
        dsimp only
        cases hread : readFile faults.read dest tree₂ with
        | none => exact ⟨nofun, nofun, nofun, fun _ hnot => (hnever hnot).elim⟩
        | some actual =>
          dsimp only
          by_cases hmatch : blake3 actual ≠ key.hex
          · rw [if_pos hmatch]
            by_cases hremove : faults.remove = true
            · rw [if_pos hremove]
              exact ⟨nofun, nofun, nofun, fun _ hnot => (hnever hnot).elim⟩
            · rw [if_neg hremove]
              exact ⟨nofun, fun _ h => absurd h hpresent,
                fun _ _ => update_self dest none tree₂, nofun⟩
          · rw [if_neg hmatch]
            exact ⟨fun _ => ⟨actual, readFile_eq_some hread, not_not.mp hmatch⟩, nofun, nofun,
              nofun⟩

theorem fetch_of_some (faults : FetchFaults) {q : Path} {node : Node} (h : tree q = some node)
    (hdest : q ≠ dest) : (fetch blake3 root key dest faults tree).2 q = some node := by
  rw [fetch]
  by_cases habsent : (tree (artifactPath root key)).isNone = true
  · rw [if_pos habsent]
    exact h
  · rw [if_neg habsent]
    have hdirs := createDirs_of_some faults.directories (parents dest) h
    cases hcreated : createDirs faults.directories (parents dest) tree with
    | mk created tree₁ =>
    rw [hcreated] at hdirs
    cases created with
    | false => exact hdirs
    | true =>
      have hcopied := copyFile_other faults.copy (artifactPath root key) tree₁ hdest
      dsimp only
      cases hcopy : copyFile faults.copy (artifactPath root key) dest tree₁ with
      | mk copied tree₂ =>
      rw [hcopy] at hcopied
      have hkept : tree₂ q = some node := hcopied.trans hdirs
      cases copied with
      | false => exact hkept
      | true =>
        dsimp only
        cases readFile faults.read dest tree₂ with
        | none => exact hkept
        | some =>
          dsimp only
          split_ifs
          · exact hkept
          · exact (update_of_ne hdest _ _).trans hkept
          · exact hkept

/-! ### Storing -/

/-- The entry of a key holds bytes that match it. -/
def Holds (blake3 : Bytes → Text) (root : Path) (key : ContentHash) (tree : Tree) : Prop :=
  ∃ bytes, tree (artifactPath root key) = some (.file bytes) ∧ blake3 bytes = key.hex

theorem artifactPath_ne {key' : ContentHash} (h : key ≠ key') :
    artifactPath root key ≠ artifactPath root key' := by
  intro heq
  have hlast := (List.cons.inj (List.append_cancel_left heq)).2
  have hhex : key.hex = key'.hex := (List.cons.inj hlast).1
  cases key
  cases key'
  cases hhex
  exact h rfl

theorem stagingPath_ne (key' : ContentHash) (unique : Staging) :
    artifactPath root key ≠ stagingPath root key' unique := by
  intro heq
  have hlast := (List.cons.inj (List.append_cancel_left heq)).2
  have hhex := (List.cons.inj hlast).1
  have hdot : '.' ∈ key.hex := by
    rw [hhex]
    exact List.mem_append_right key'.hex (List.mem_append_left _ (by decide))
  have hdigit := List.all_eq_true.mp key.digits '.' hdot
  revert hdigit
  decide

theorem replaceEntry_of_some {key' : ContentHash} (source : Path) (unique : Staging)
    (faults : StoreFaults) {node : Node} (h : tree (artifactPath root key) = some node)
    (hne : key ≠ key') :
    (replaceEntry root key' source unique faults tree).2 (artifactPath root key) = some node := by
  rw [replaceEntry]
  have hdirs := createDirs_of_some faults.directories (parents (artifactPath root key')) h
  have hstaging : artifactPath root key ≠ stagingPath root key' unique :=
    stagingPath_ne key' unique
  cases hcreated : createDirs faults.directories (parents (artifactPath root key')) tree with
  | mk created tree₁ =>
  rw [hcreated] at hdirs
  cases created with
  | false => exact hdirs
  | true =>
    have hcopied := copyFile_other faults.copy source tree₁ hstaging
    dsimp only
    cases hcopy : copyFile faults.copy source (stagingPath root key' unique) tree₁ with
    | mk copied tree₂ =>
    rw [hcopy] at hcopied
    have hkept : tree₂ (artifactPath root key) = some node := hcopied.trans hdirs
    cases copied with
    | false => exact hkept
    | true =>
      have hmoved := renameFile_other faults.rename tree₂ hstaging (artifactPath_ne hne)
      dsimp only
      cases hrename : renameFile faults.rename (stagingPath root key' unique)
          (artifactPath root key') tree₂ with
      | mk moved tree₃ =>
      rw [hrename] at hmoved
      have hlast : tree₃ (artifactPath root key) = some node := hmoved.trans hkept
      cases moved with
      | false =>
        dsimp only
        by_cases hcleanup : faults.cleanup = true
        · rw [if_pos hcleanup]
          exact hlast
        · rw [if_neg hcleanup]
          exact (update_of_ne hstaging _ _).trans hlast
      | true => exact hlast

theorem replaceEntry_ok {source : Path} {unique : Staging} {faults : StoreFaults} {tree' : Tree}
    {bytes : Bytes} (h : replaceEntry root key source unique faults tree = (.ok (), tree'))
    (hsource : tree source = some (.file bytes)) (hne : source ≠ stagingPath root key unique) :
    tree' (artifactPath root key) = some (.file bytes) := by
  rw [replaceEntry] at h
  have hdirs := createDirs_of_some faults.directories (parents (artifactPath root key)) hsource
  cases hcreated : createDirs faults.directories (parents (artifactPath root key)) tree with
  | mk created tree₁ =>
  rw [hcreated] at h hdirs
  cases created with
  | false => cases h
  | true =>
    dsimp only at h
    cases hcopy : copyFile faults.copy source (stagingPath root key unique) tree₁ with
    | mk copied tree₂ =>
    rw [hcopy] at h
    cases copied with
    | false => cases h
    | true =>
      obtain ⟨found, hfound, rfl⟩ := copyFile_eq_true hcopy
      have hsame : found = bytes := by
        have hnode := hfound.symm.trans hdirs
        cases hnode
        rfl
      rw [if_neg hne, hsame] at h
      dsimp only at h
      cases hrename : renameFile faults.rename (stagingPath root key unique)
          (artifactPath root key) (Function.update tree₁ (stagingPath root key unique)
            (some (.file bytes))) with
      | mk moved tree₃ =>
      rw [hrename] at h
      cases moved with
      | false => cases h
      | true =>
        obtain ⟨_, hstaged, rfl⟩ := renameFile_eq_true hrename
        rw [update_self] at hstaged
        cases hstaged
        cases h
        exact update_self (artifactPath root key) _ _

theorem holds_of_store {source : Path} {unique : Staging} {faults : StoreFaults} {tree' : Tree}
    {bytes : Bytes} (h : store blake3 root key source unique faults tree = (.ok (), tree'))
    (hsource : tree source = some (.file bytes)) (hmatch : blake3 bytes = key.hex)
    (hne : source ≠ stagingPath root key unique) : Holds blake3 root key tree' := by
  rw [store] at h
  by_cases hpresent : (tree (artifactPath root key)).isSome = true
  · rw [if_pos hpresent] at h
    cases hread : readFile faults.check (artifactPath root key) tree with
    | none =>
      rw [hread] at h
      cases h
    | some found =>
      rw [hread] at h
      dsimp only at h
      by_cases hsame : blake3 found = key.hex
      · rw [if_pos hsame] at h
        cases h
        exact ⟨found, readFile_eq_some hread, hsame⟩
      · rw [if_neg hsame] at h
        exact ⟨bytes, replaceEntry_ok h hsource hne, hmatch⟩
  · rw [if_neg hpresent] at h
    exact ⟨bytes, replaceEntry_ok h hsource hne, hmatch⟩

theorem Holds.store {key' : ContentHash} (h : Holds blake3 root key tree) (source : Path)
    (unique : Staging) (faults : StoreFaults) :
    Holds blake3 root key (store blake3 root key' source unique faults tree).2 := by
  obtain ⟨bytes, hentry, hmatch⟩ := h
  refine ⟨bytes, ?_, hmatch⟩
  rw [DirectoryCache.store]
  by_cases hpresent : (tree (artifactPath root key')).isSome = true
  · rw [if_pos hpresent]
    cases hread : readFile faults.check (artifactPath root key') tree with
    | none => exact hentry
    | some found =>
      dsimp only
      by_cases hsame : blake3 found = key'.hex
      · rw [if_pos hsame]
        exact hentry
      · rw [if_neg hsame]
        have hne : key ≠ key' := by
          rintro rfl
          have hfile := hentry.symm.trans (readFile_eq_some hread)
          cases hfile
          exact hsame hmatch
        exact replaceEntry_of_some source unique faults hentry hne
  · rw [if_neg hpresent]
    have hne : key ≠ key' := by
      rintro rfl
      rw [hentry] at hpresent
      exact hpresent rfl
    exact replaceEntry_of_some source unique faults hentry hne

/-! ### Sequences of calls -/

/-- A call of the cache. -/
inductive Call
  | store (key : ContentHash) (source : Path) (unique : Staging) (faults : StoreFaults)
  | fetch (key : ContentHash) (dest : Path) (faults : FetchFaults)

def Call.exec (blake3 : Bytes → Text) (root : Path) (tree : Tree) : Call → Tree
  | .store key source unique faults =>
    (DirectoryCache.store blake3 root key source unique faults tree).2
  | .fetch key dest faults => (DirectoryCache.fetch blake3 root key dest faults tree).2

def Call.Spares (p : Path) : Call → Prop
  | .store _ _ _ _ => True
  | .fetch _ dest _ => p ≠ dest

def runCalls (blake3 : Bytes → Text) (root : Path) (calls : List Call) (tree : Tree) : Tree :=
  calls.foldl (Call.exec blake3 root) tree

theorem Holds.runCalls {calls : List Call} (h : Holds blake3 root key tree)
    (hspared : ∀ call ∈ calls, call.Spares (artifactPath root key)) :
    Holds blake3 root key (runCalls blake3 root calls tree) := by
  induction calls generalizing tree with
  | nil => exact h
  | cons call calls ih =>
    obtain ⟨hfirst, hrest⟩ := List.forall_mem_cons.mp hspared
    refine ih ?_ hrest
    cases call with
    | store key' source unique faults => exact h.store source unique faults
    | fetch key' dest faults =>
      obtain ⟨bytes, hentry, hmatch⟩ := h
      exact ⟨bytes, fetch_of_some faults hentry hfirst, hmatch⟩

theorem fetch_of_holds (h : Holds blake3 root key tree) (hdest : artifactPath root key ≠ dest)
    (hparents : ∀ p ∈ parents dest, ∀ bytes, tree p ≠ some (.file bytes))
    (hfile : tree dest ≠ some .directory) :
    (fetch blake3 root key dest .none tree).1 = .ok true := by
  obtain ⟨bytes, hentry, hmatch⟩ := h
  have hpresent : ¬ (tree (artifactPath root key)).isNone = true := by
    rw [hentry]
    exact nofun
  have hcreated : (createDirs FetchFaults.none.directories (parents dest) tree).1 = true :=
    createDirs_eq_true hparents
  have hkept := createDirs_of_some FetchFaults.none.directories (parents dest) hentry
  have hsame := createDirs_other FetchFaults.none.directories tree (notMem_parents dest)
  rw [fetch, if_neg hpresent]
  cases hdirs : createDirs FetchFaults.none.directories (parents dest) tree with
  | mk created tree₁ =>
  rw [hdirs] at hcreated hkept hsame
  cases hcreated
  have htarget : ¬ tree₁ dest = some .directory := fun heq => hfile (hsame.symm.trans heq)
  have hsource : tree₁ (artifactPath root key) = some (.file bytes) := hkept
  have hcopy : copyFile FetchFaults.none.copy (artifactPath root key) dest tree₁ =
      (true, Function.update tree₁ dest (some (.file bytes))) := by
    rw [copyFile, hsource]
    dsimp only
    rw [if_neg htarget, if_neg hdest]
    rfl
  have hread : readFile FetchFaults.none.read dest
      (Function.update tree₁ dest (some (.file bytes))) = some bytes := by
    rw [readFile, update_self]
    rfl
  dsimp only
  rw [hcopy]
  dsimp only
  rw [hread]
  dsimp only
  rw [if_neg (not_not.mpr hmatch)]

def digestA : Text :=
  "17762fddd969a453925d65717ac3eea21320b66b54342fde15128d6caf21215f".toList

def digestB : Text :=
  "10e5cf3d3c8a4f9f3468c8cc58eea84892a22fdadbc1acb22410190044c1d553".toList

def digestEmpty : Text :=
  "af1349b9f5f9a1a6a0404dea36dcc9499bcb25c9adc112b7cc9a93cae41f3262".toList

def sampleDigest (bytes : Bytes) : Text :=
  if bytes = [97] then digestA else if bytes = [98] then digestB else digestEmpty

def keyA : ContentHash := ⟨digestA, by decide, by decide⟩

/-- The entry of `a` holds `b`; the output and a source hold `a`. -/
def tampered : Tree := fun p =>
  if p = artifactPath [] keyA then some (.file [98])
  else if p = [['o']] ∨ p = [['s']] then some (.file [97])
  else if p = [] ∨ p = [digestA.take 2] then some .directory
  else none

/-- The file system after `a` was stored over the tampered entry. -/
def repaired : Tree :=
  (store sampleDigest [] keyA [['s']] ⟨1, 1⟩ ⟨false, fun _ => false, none, false, false⟩
    tampered).2

end OxyMake.DirectoryCache
