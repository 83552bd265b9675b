import OxyMake.IncludeTrees

/-!
# The collected texts

The first traversal has the outcome of unfolding the tree, and where the tree is
unfolded it has kept the text of every file in it. The texts it keeps are those
of the file system, so reading a file again or taking what was kept makes no
difference.
-/

namespace OxyMake.CollectedSources

open Wildcard LinkedTree
open RuleFields (Value)
open IncludeGraph IncludeGraph.World IncludeTrees

variable {T E : Type} {K : Kinds} (w : World T E K)

mutual

def filesOf : IncludeTree T → List (Path Text × T)
  | .node path text children => (path, text) :: filesOfAll children

def filesOfAll : List (IncludeTree T) → List (Path Text × T)
  | [] => []
  | tree :: rest => filesOf tree ++ filesOfAll rest

end

theorem mem_filesOfAll {f : Path Text × T} {trees : List (IncludeTree T)} :
    f ∈ filesOfAll trees ↔ ∃ tree ∈ trees, f ∈ filesOf tree := by
  induction trees with
  | nil => exact ⟨nofun, fun ⟨_, h, _⟩ => nomatch h⟩
  | cons tree rest ih =>
    rw [filesOfAll, List.mem_append, ih, List.exists_mem_cons_iff]

/-- The kept texts are those of the file system. -/
def Consistent (sources : Sources T) : Prop :=
  ∀ id t, sources.get id = some t → ∀ p t', w.canonId p = id → w.read p = some t' → t' = t

/-- The texts of files are kept along with the earlier ones. -/
structure Kept (sources : Sources T) (files : List (Path Text × T)) (s : Sources T) : Prop where
  consistent : Consistent w s
  mono : ∀ id, (sources.get id).isSome → (s.get id).isSome
  files : ∀ f ∈ files, (s.get (w.canonId f.1)).isSome

/-- Two traversals have the same outcome up to what they give. -/
inductive Agrees {α β : Type} (P : α → β → Prop) :
    Option (Except (ParseError E) α) → Option (Except (ParseError E) β) → Prop
  | starved : Agrees P none none
  | error (e : ParseError E) : Agrees P (some (.error e)) (some (.error e))
  | ok {a b} : P a b → Agrees P (some (.ok a)) (some (.ok b))

theorem consistent_empty : Consistent w (.empty : Sources T) := nofun

theorem consistent_put {s : Sources T} (h : Consistent w s) {path : Path Text} {text : T}
    (hread : w.read path = some text) : Consistent w (s.put (w.canonId path) text) := by
  intro id t hget p t' hid hp
  rw [KeyedTable.Table.get_put] at hget
  by_cases hsame : id = w.canonId path
  · rw [if_pos hsame] at hget
    cases hget
    exact read_unique w hp hread (hid.trans hsame)
  · rw [if_neg hsame] at hget
    exact h id t hget p t' hid hp

theorem isSome_put {s : Sources T} {id key : Path Text} {text : T} (h : (s.get id).isSome) :
    ((s.put key text).get id).isSome := by
  rw [KeyedTable.Table.get_put]
  by_cases hsame : id = key
  · rw [if_pos hsame]
    rfl
  · rw [if_neg hsame]
    exact h

theorem visitIncludes_agrees
    {visitChild : Path Text → T → Sources T → Option (Except (ParseError E) (Sources T))}
    {child : Path Text → T → Option (Except (ParseError E) (IncludeTree T))}
    (hchild : ∀ p t sources, w.read p = some t → Consistent w sources →
      Agrees (fun s tree => Kept w sources (filesOf tree) s) (visitChild p t sources) (child p t))
    (path : Path Text) (items : List Value) : ∀ sources, Consistent w sources →
      Agrees (fun s trees => Kept w sources (filesOfAll trees) s)
        (w.visitIncludes visitChild path items sources) (unfoldIncludes w child path items) := by
  induction items with
  | nil =>
    intro sources hsources
    exact .ok ⟨hsources, fun _ h => h, nofun⟩
  | cons item rest ih =>
    intro sources hsources
    rw [visitIncludes, unfoldIncludes]
    cases item.asStr with
    | none => exact .error _
    | some inc =>
      dsimp only
      cases hread : w.read (join (collectBase path) (w.includePath inc)) with
      | none => exact .error _
      | some text =>
        have hfirst := hchild _ text sources hread hsources
        dsimp only
        generalize visitChild (join (collectBase path) (w.includePath inc)) text sources = v
          at hfirst ⊢
        generalize child (join (collectBase path) (w.includePath inc)) text = u at hfirst ⊢
        cases hfirst with
        | starved => exact .starved
        | error e => exact .error e
        | @ok s tree hkept =>
          have hrest := ih s hkept.consistent
          dsimp only
          generalize w.visitIncludes visitChild path rest s = v at hrest ⊢
          generalize unfoldIncludes w child path rest = u at hrest ⊢
          cases hrest with
          | starved => exact .starved
          | error e => exact .error e
          | @ok s' trees hall =>
            refine .ok ⟨hall.consistent, fun id h => hall.mono id (hkept.mono id h), ?_⟩
            intro f hf
            rcases List.mem_append.mp hf with hf | hf
            · exact hall.mono _ (hkept.files f hf)
            · exact hall.files f hf

/-- What visiting a file keeps: the texts of the files it includes, and then its own. -/
def Visited (sources : Sources T) (path : Path Text) (text : T) (s : Sources T)
    (tree : IncludeTree T) : Prop :=
  ∃ s₀ trees, tree = .node path text trees ∧ s = s₀.put (w.canonId path) text ∧
    Kept w sources (filesOfAll trees) s₀

theorem kept_of_visited {sources s : Sources T} {path : Path Text} {text : T}
    {tree : IncludeTree T} (h : Visited w sources path text s tree)
    (hread : w.read path = some text) : Kept w sources (filesOf tree) s := by
  obtain ⟨_, _, rfl, rfl, hkept⟩ := h
  refine ⟨consistent_put w hkept.consistent hread, fun id h => isSome_put (hkept.mono id h), ?_⟩
  intro f hf
  rcases List.mem_cons.mp hf with rfl | hf
  · rw [KeyedTable.Table.get_put, if_pos rfl]
    rfl
  · exact isSome_put (hkept.files f hf)

theorem visit_agrees (n : ℕ) : ∀ (active : List (Path Text)) (path : Path Text) (text : T)
    (sources : Sources T), Consistent w sources →
      (w.read path = some text ∨ sources.get (w.canonId path) = none) →
      Agrees (Visited w sources path text) (w.visit n active path text sources)
        (unfold w n active path text) := by
  induction n with
  | zero =>
    intro active path text sources _ _
    exact .starved
  | succ n ih =>
    intro active path text sources hsources htext
    have hcontent : (sources.get (w.canonId path)).getD text = text := by
      cases hget : sources.get (w.canonId path) with
      | none => rfl
      | some t =>
        rcases htext with hread | hnone
        · exact (hsources _ t hget path text rfl hread).symm
        · rw [hget] at hnone
          cases hnone
    rw [visit, unfold, hcontent]
    dsimp only
    by_cases hid : w.canonId path ∈ active
    · rw [if_pos hid, if_pos hid]
      exact .error _
    · rw [if_neg hid, if_neg hid]
      cases w.toml text with
      | error => exact .error _
      | ok table =>
        dsimp only
        cases w.check table path with
        | error => exact .error _
        | ok u =>
          dsimp only
          cases includeItems (E := E) path table with
          | error => exact .error _
          | ok items =>
            have hchildren : ∀ p t sources', w.read p = some t → Consistent w sources' →
                Agrees (fun s tree => Kept w sources' (filesOf tree) s)
                  (w.visit n (active ++ [w.canonId path]) p t sources')
                  (unfold w n (active ++ [w.canonId path]) p t) := by
              intro p t sources' hread hsources'
              have hchild := ih (active ++ [w.canonId path]) p t sources' hsources' (.inl hread)
              generalize w.visit n (active ++ [w.canonId path]) p t sources' = v at hchild ⊢
              generalize unfold w n (active ++ [w.canonId path]) p t = u at hchild ⊢
              cases hchild with
              | starved => exact .starved
              | error e => exact .error e
              | ok hvisited => exact .ok (kept_of_visited w hvisited hread)
            have hall := visitIncludes_agrees w hchildren path items sources hsources
            dsimp only
            generalize w.visitIncludes (w.visit n (active ++ [w.canonId path])) path items
              sources = v at hall ⊢
            generalize unfoldIncludes w (unfold w n (active ++ [w.canonId path])) path items = u
              at hall ⊢
            cases hall with
            | starved => exact .starved
            | error e => exact .error e
            | @ok s₀ trees hkept => exact .ok ⟨s₀, trees, rfl, rfl, hkept⟩

theorem collectSources_agrees (fuel : ℕ) (text : T) (path : Path Text) :
    Agrees (Visited w .empty path text) (w.collectSources fuel text path)
      (unfold w fuel [] path text) :=
  visit_agrees w fuel [] path text .empty (consistent_empty w) (.inr rfl)

theorem files_of_unfold (n : ℕ) : ∀ {active : List (Path Text)} {path : Path Text} {text : T}
    {trees : List (IncludeTree T)},
    unfold w n active path text = some (.ok (.node path text trees)) →
      ∀ f ∈ filesOfAll trees, w.read f.1 = some f.2 ∧
        w.canonId f.1 ∉ active ++ [w.canonId path] := by
  induction n with
  | zero =>
    intro active path text trees h
    cases h
  | succ n ih =>
    intro active path text trees h f hf
    obtain ⟨_, _, incs, heq, hopened⟩ := openedAt_of_unfold w h
    cases heq
    obtain ⟨tree, htree, hf⟩ := mem_filesOfAll.mp hf
    have hflip : List.Forall₂ (fun tree inc => ∃ text,
        w.read (join (collectBase path) (w.includePath inc)) = some text ∧
        unfold w n (active ++ [w.canonId path]) (join (collectBase path) (w.includePath inc)) text =
          some (.ok tree)) trees incs := hopened.children.flip
    obtain ⟨inc, -, t, hread, hunfold⟩ := exists_of_forall₂ hflip htree
    cases n with
    | zero => cases hunfold
    | succ =>
      obtain ⟨_, _, _, heq, hchild⟩ := openedAt_of_unfold w hunfold
      subst heq
      rcases List.mem_cons.mp hf with rfl | hf
      · exact ⟨hread, hchild.notMem⟩
      · obtain ⟨hread', hnot⟩ := ih hunfold f hf
        exact ⟨hread', fun h => hnot (List.mem_append_left _ h)⟩

theorem stored_of_collectSources {fuel : ℕ} {text : T} {path : Path Text} {s : Sources T}
    (h : w.collectSources fuel text path = some (.ok s)) :
    ∃ trees, unfold w fuel [] path text = some (.ok (.node path text trees)) ∧
      ∀ f ∈ filesOfAll trees, s.get (w.canonId f.1) = some f.2 := by
  have hagrees := collectSources_agrees w fuel text path
  generalize hu : unfold w fuel [] path text = u at hagrees
  rw [h] at hagrees
  cases hagrees with
  | @ok _ tree hvisited =>
    obtain ⟨_, trees, rfl, rfl, hkept⟩ := hvisited
    refine ⟨trees, rfl, ?_⟩
    intro f hf
    obtain ⟨hread, hnot⟩ := files_of_unfold w fuel hu f hf
    have hne : w.canonId f.1 ≠ w.canonId path := by
      intro heq
      exact hnot (List.mem_append_right _ (List.mem_singleton.mpr heq))
    rw [KeyedTable.Table.get_put, if_neg hne]
    obtain ⟨t, ht⟩ := Option.isSome_iff_exists.mp (hkept.files f hf)
    rw [ht, hkept.consistent _ t ht f.1 f.2 rfl hread]

/-! ### Fuel -/

theorem visitIncludes_mono
    {child child' : Path Text → T → Sources T → Option (Except (ParseError E) (Sources T))}
    (h : ∀ p t s r, child p t s = some r → child' p t s = some r) (path : Path Text)
    (items : List Value) : ∀ {sources r}, w.visitIncludes child path items sources = some r →
      w.visitIncludes child' path items sources = some r := by
  induction items with
  | nil =>
    intro sources r hr
    exact hr
  | cons item rest ih =>
    intro sources r hr
    rw [visitIncludes] at hr ⊢
    cases hitem : item.asStr with
    | none =>
      rw [hitem] at hr
      exact hr
    | some inc =>
      rw [hitem] at hr
      dsimp only at hr ⊢
      cases hread : w.read (join (collectBase path) (w.includePath inc)) with
      | none =>
        rw [hread] at hr
        exact hr
      | some text =>
        rw [hread] at hr
        dsimp only at hr ⊢
        cases hchild : child (join (collectBase path) (w.includePath inc)) text sources with
        | none =>
          rw [hchild] at hr
          cases hr
        | some v =>
          rw [hchild] at hr
          rw [h _ _ _ v hchild]
          cases v with
          | error => exact hr
          | ok => exact ih hr

theorem visit_mono (n : ℕ) : ∀ {active : List (Path Text)} {path : Path Text} {text : T}
    {sources : Sources T} {r}, w.visit n active path text sources = some r →
      w.visit (n + 1) active path text sources = some r := by
  induction n with
  | zero =>
    intro active path text sources r h
    cases h
  | succ n ih =>
    intro active path text sources r h
    rw [visit] at h ⊢
    dsimp only at h ⊢
    by_cases hid : w.canonId path ∈ active
    · rw [if_pos hid] at h ⊢
      exact h
    · rw [if_neg hid] at h ⊢
      cases htoml : w.toml ((sources.get (w.canonId path)).getD text) with
      | error =>
        rw [htoml] at h
        exact h
      | ok table =>
        rw [htoml] at h
        dsimp only at h ⊢
        cases hcheck : w.check table path with
        | error =>
          rw [hcheck] at h
          exact h
        | ok =>
          rw [hcheck] at h
          dsimp only at h ⊢
          cases hitems : includeItems (E := E) path table with
          | error =>
            rw [hitems] at h
            exact h
          | ok items =>
            rw [hitems] at h
            dsimp only at h ⊢
            cases hvisit : w.visitIncludes (w.visit n (active ++ [w.canonId path])) path items
                sources with
            | none =>
              rw [hvisit] at h
              cases h
            | some v =>
              rw [hvisit] at h
              rw [visitIncludes_mono w (fun p t s r hr => ih hr) path items hvisit]
              exact h

theorem collectSources_ends (text : T) (path : Path Text) :
    ∃ r n, ∀ m, n ≤ m → w.collectSources m text path = some r := by
  have hne : w.collectSources (w.files.length + 2) text path ≠ none := by
    have hagrees := collectSources_agrees w (w.files.length + 2) text path
    have hunfold := unfold_ne_none w [] path text (Nat.le_refl (w.files.length + 2))
    intro hnone
    rw [hnone] at hagrees
    generalize unfold w (w.files.length + 2) [] path text = u at hagrees hunfold
    cases hagrees
    exact hunfold rfl
  obtain ⟨r, hr⟩ := Option.ne_none_iff_exists'.mp hne
  refine ⟨r, w.files.length + 2, ?_⟩
  intro m hm
  induction m, hm using Nat.le_induction with
  | base => exact hr
  | succ m _ ih => exact visit_mono w m ih

end OxyMake.CollectedSources
