import OxyMake.ConfigStages

/-!
# Templates in pieces

A template is kept text with placeholders in between. Replacing a placeholder in
the whole text is the same as filling it in piece by piece, as long as it occurs
in the text only where the template has it. A table of placeholders can then be
applied entry by entry, and the result is the one of filling all of them at once.
-/

namespace OxyMake.TemplatePieces

open List
open Wildcard (Text)
open ConfigStages (replaceAll)

/-- A piece of a template. -/
inductive Piece
  | kept (text : Text)
  | hole (placeholder : Text)
  deriving DecidableEq, Repr

def braced (name : Text) : Text := '\x7b' :: name ++ ['\x7d']

/-- A text that begins with a name in braces. -/
theorem braced_append (name rest : Text) :
    braced name ++ rest = '\x7b' :: (name ++ '\x7d' :: rest) :=
  congrArg (List.cons '\x7b') (append_assoc name ['\x7d'] rest)

def Piece.text : Piece → Text
  | .kept text => text
  | .hole placeholder => placeholder

def render (pieces : List Piece) : Text := pieces.flatMap Piece.text

/-- Write a value for a placeholder in a piece. -/
def Piece.fill (placeholder value : Text) : Piece → Piece
  | .kept text => .kept text
  | .hole p => if p = placeholder then .kept value else .hole p

/-- Write a value for a placeholder in a template. -/
def fill (placeholder value : Text) (pieces : List Piece) : List Piece :=
  pieces.map (Piece.fill placeholder value)

/-- Write the values of a table, one placeholder after another. -/
def fillAll (table : List (Text × Text)) (pieces : List Piece) : List Piece :=
  table.foldl (fun pieces e => fill e.1 e.2 pieces) pieces

/-- Replace the placeholders of a table in a text, one after another. -/
def replaceEach (table : List (Text × Text)) (text : Text) : Text :=
  table.foldl (fun text e => replaceAll e.1 e.2 text) text

/-- A placeholder does not begin inside a text that is followed by another. -/
def NotWithin (placeholder text rest : Text) : Prop :=
  ∀ s ∈ text.tails, s ≠ [] → ¬ placeholder <+: s ++ rest

instance (placeholder text rest : Text) : Decidable (NotWithin placeholder text rest) :=
  inferInstanceAs (Decidable (∀ s ∈ text.tails, s ≠ [] → ¬ placeholder <+: s ++ rest))

/-- A placeholder occurs in the text of a template only where the template has it. -/
def Clean (placeholder : Text) : List Piece → Prop
  | [] => True
  | piece :: back =>
    (piece = .hole placeholder ∨ NotWithin placeholder piece.text (render back)) ∧
      Clean placeholder back

instance decidableClean (placeholder : Text) :
    (pieces : List Piece) → Decidable (Clean placeholder pieces)
  | [] => inferInstanceAs (Decidable True)
  | piece :: back =>
    have : Decidable (Clean placeholder back) := decidableClean placeholder back
    inferInstanceAs (Decidable ((piece = .hole placeholder ∨
      NotWithin placeholder piece.text (render back)) ∧ Clean placeholder back))

/-- Each placeholder of a table occurs only where the template has it, with the values of the
earlier ones written in. -/
def Undisturbed : List (Text × Text) → List Piece → Prop
  | [], _ => True
  | (placeholder, value) :: table, pieces =>
    Clean placeholder pieces ∧ Undisturbed table (fill placeholder value pieces)

instance decidableUndisturbed :
    (table : List (Text × Text)) → (pieces : List Piece) → Decidable (Undisturbed table pieces)
  | [], _ => inferInstanceAs (Decidable True)
  | (placeholder, value) :: table, pieces =>
    have : Decidable (Undisturbed table (fill placeholder value pieces)) :=
      decidableUndisturbed table (fill placeholder value pieces)
    inferInstanceAs (Decidable (Clean placeholder pieces ∧
      Undisturbed table (fill placeholder value pieces)))

def Piece.settle (table : List (Text × Text)) : Piece → Piece
  | .kept text => .kept text
  | .hole placeholder =>
    match table.lookup placeholder with
    | some value => .kept value
    | none => .hole placeholder

/-! ### Replacing in a text -/

/-- A text in which a placeholder does not begin stays as it is. -/
theorem replaceAll_append {placeholder value text rest : Text}
    (h : NotWithin placeholder text rest) :
    replaceAll placeholder value (text ++ rest) = text ++ replaceAll placeholder value rest := by
  induction text with
  | nil => rfl
  | cons c text ih =>
    have hhead : ¬ placeholder <+: c :: (text ++ rest) :=
      h (c :: text) ((mem_tails _ _).mpr suffix_rfl) (cons_ne_nil _ _)
    have htail : NotWithin placeholder text rest := by
      intro s hs
      have hsuffix : s <:+ c :: text := ((mem_tails _ _).mp hs).trans (suffix_cons c text)
      exact h s ((mem_tails _ _).mpr hsuffix)
    rw [cons_append, replaceAll, if_neg hhead, ih htail]
    rfl

/-- A placeholder does not begin in a text without its first character. -/
theorem notWithin_of_notMem {c : Char} {placeholder text : Text} (h : c ∉ text) (rest : Text) :
    NotWithin (c :: placeholder) text rest := by
  intro s hs hne hstart
  obtain ⟨_, hafter⟩ := hstart
  cases s with
  | nil => exact hne rfl
  | cons c' =>
    have hc : c = c' := (List.cons.inj hafter).1
    exact h (hc ▸ ((mem_tails _ _).mp hs).subset mem_cons_self)

/-- A placeholder is replaced by its value. -/
theorem replaceAll_placeholder {placeholder : Text} (hne : placeholder ≠ []) (value rest : Text) :
    replaceAll placeholder value (placeholder ++ rest) =
      value ++ replaceAll placeholder value rest := by
  cases placeholder with
  | nil => exact absurd rfl hne
  | cons c placeholder =>
    have hdrop : (placeholder ++ rest).drop ((c :: placeholder).length - 1) = rest := by
      rw [length_cons, Nat.add_sub_cancel]
      exact drop_left
    have hstart : c :: placeholder <+: c :: (placeholder ++ rest) := ⟨rest, rfl⟩
    rw [cons_append, replaceAll, if_pos hstart, hdrop]

theorem replaceAll_render {placeholder : Text} (hne : placeholder ≠ []) (value : Text)
    {pieces : List Piece} (hclean : Clean placeholder pieces) :
    replaceAll placeholder value (render pieces) = render (fill placeholder value pieces) := by
  induction pieces with
  | nil =>
    have hempty : render [] = [] := flatMap_nil
    have hfilled : fill placeholder value [] = [] := map_nil
    rw [hfilled, hempty, replaceAll]
  | cons piece back ih =>
    obtain ⟨hpiece, hback⟩ := hclean
    have htext : render (piece :: back) = piece.text ++ render back := flatMap_cons
    have hfilled : render (fill placeholder value (piece :: back)) =
        (piece.fill placeholder value).text ++ render (fill placeholder value back) :=
      flatMap_cons
    rw [htext, hfilled, ← ih hback]
    by_cases hhole : piece = .hole placeholder
    · subst hhole
      dsimp only [Piece.text, Piece.fill]
      rw [if_pos rfl, replaceAll_placeholder hne]
    · rw [replaceAll_append (hpiece.resolve_left hhole)]
      cases piece with
      | kept => rfl
      | hole p =>
        have hp : p ≠ placeholder := fun heq => hhole (heq ▸ rfl)
        dsimp only [Piece.fill]
        rw [if_neg hp]

/-- Replacing the placeholders of a table one after another fills them in. -/
theorem replaceEach_render {table : List (Text × Text)} (hne : ∀ e ∈ table, e.1 ≠ [])
    {pieces : List Piece} (h : Undisturbed table pieces) :
    replaceEach table (render pieces) = render (fillAll table pieces) := by
  induction table generalizing pieces with
  | nil => rfl
  | cons e table ih =>
    obtain ⟨hclean, hrest⟩ := h
    have hfirst := replaceAll_render (hne e mem_cons_self) e.2 hclean
    have htable := ih (fun e' he' => hne e' (.tail e he')) hrest
    dsimp only [replaceEach, fillAll, foldl_cons] at htable ⊢
    rw [hfirst, htable]

/-! ### Filling at once -/

theorem Piece.settle_fill (e : Text × Text) (table : List (Text × Text)) (piece : Piece) :
    (piece.fill e.1 e.2).settle table = piece.settle (e :: table) := by
  cases piece with
  | kept => rfl
  | hole placeholder =>
    dsimp only [Piece.fill, Piece.settle]
    rw [lookup_cons]
    by_cases heq : placeholder = e.1
    · rw [if_pos heq, heq, beq_self_eq_true]
    · rw [if_neg heq, beq_eq_false_iff_ne.mpr heq]

/-- Filling in one placeholder after another fills in all of them; where a placeholder is given
twice, the first value counts. -/
theorem fillAll_eq (table : List (Text × Text)) (pieces : List Piece) :
    fillAll table pieces = pieces.map (Piece.settle table) := by
  induction table generalizing pieces with
  | nil =>
    have hnone : ∀ piece : Piece, piece.settle [] = piece := by
      intro piece
      cases piece with
      | kept | hole => rfl
    rw [funext hnone]
    exact map_id'' (fun _ => rfl) pieces |>.symm
  | cons e table ih =>
    have hstep : fillAll (e :: table) pieces = fillAll table (fill e.1 e.2 pieces) := rfl
    rw [hstep, ih, fill, map_map]
    exact map_congr_left fun piece _ => piece.settle_fill e table

/-- Filling in a table and then another fills in both; where a placeholder is given twice, the
first value counts. -/
theorem Piece.settle_settle (table more : List (Text × Text)) (piece : Piece) :
    (piece.settle table).settle more = piece.settle (table ++ more) := by
  cases piece with
  | kept => rfl
  | hole placeholder =>
    dsimp only [Piece.settle]
    rw [lookup_append]
    cases table.lookup placeholder with
    | none | some => rfl

end OxyMake.TemplatePieces
