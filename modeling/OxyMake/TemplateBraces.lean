import Mathlib.Algebra.GroupWithZero.Nat
import OxyMake.ConfigSubstitution
import OxyMake.TemplatePieces

/-!
# Literal braces of a template

A template may have braces in its kept text. When its placeholders are replaced one
after another by values without braces, each occurrence of a placeholder that the
template does not have costs a literal brace, and no later step brings it back. The
number of literal braces thus tells whether anything was replaced by accident.
-/

namespace OxyMake.TemplateBraces

open List
open Wildcard (Text)
open ConfigStages (replaceAll)
open ConfigSubstitution (Plain)
open TemplatePieces

instance (text : Text) : Decidable (Plain text) :=
  inferInstanceAs (Decidable ('\x7b' ∉ text ∧ '\x7d' ∉ text))

def Proper : Piece → Prop
  | .kept _ => True
  | .hole placeholder => ∃ name, placeholder = braced name ∧ Plain name

/-- The opening braces of a piece that are kept. -/
def keptBraces : Piece → Nat
  | .kept text => text.count '\x7b'
  | .hole _ => 0

def literalBraces (pieces : List Piece) : Nat := (pieces.map keptBraces).sum

def holeOf : Piece → Option Text
  | .kept _ => none
  | .hole placeholder => some placeholder

def holes (pieces : List Piece) : List Text := pieces.filterMap holeOf

/-- A template with the same placeholders and the same literal braces that is no longer. -/
structure SameLeft (pieces back : List Piece) : Prop where
  proper : ∀ piece ∈ back, Proper piece
  holes_eq : holes back = holes pieces
  /-- The literal braces are the same. -/
  braces_eq : literalBraces back = literalBraces pieces
  length_le : back.length ≤ pieces.length

/-- Fewer or as many literal braces, with given placeholders. -/
structure Reduced (pieces out : List Piece) (left : List Text) : Prop where
  proper : ∀ piece ∈ out, Proper piece
  holes_eq : holes out = left
  braces_le : literalBraces out ≤ literalBraces pieces

section Pieces

theorem literalBraces_cons (piece : Piece) (back : List Piece) :
    literalBraces (piece :: back) = keptBraces piece + literalBraces back := by
  rw [literalBraces, map_cons, sum_cons]
  rfl

theorem render_cons (piece : Piece) (back : List Piece) :
    render (piece :: back) = piece.text ++ render back := flatMap_cons

theorem keptBraces_plain {text : Text} (h : '\x7b' ∉ text) : keptBraces (.kept text) = 0 :=
  count_eq_zero.mpr h

theorem exists_back {c : Char} {s : Text} {pieces : List Piece}
    (hproper : ∀ piece ∈ pieces, Proper piece) (hc : c ≠ '\x7b') (h : render pieces = c :: s) :
    ∃ back, render back = s ∧ SameLeft pieces back := by
  induction pieces with
  | nil => cases h
  | cons piece back ih =>
    have hback := fun other hother => hproper other (.tail piece hother)
    rw [render_cons] at h
    cases piece with
    | hole =>
      obtain ⟨_, rfl, -⟩ := hproper _ mem_cons_self
      exact absurd (List.cons.inj h).1.symm hc
    | kept text =>
      cases text with
      | nil =>
        obtain ⟨out, hout, hsame⟩ := ih hback h
        refine ⟨out, hout, hsame.proper, hsame.holes_eq, ?_, ?_⟩
        · rw [hsame.braces_eq, literalBraces_cons]
          exact (Nat.zero_add _).symm
        · exact hsame.length_le.trans (Nat.le_succ _)
      | cons c' text =>
        obtain ⟨rfl, hs⟩ := List.cons.inj h
        refine ⟨.kept text :: back, ?_, ?_, rfl, ?_, le_refl _⟩
        · rw [render_cons]
          exact hs
        · intro other hother
          rcases mem_cons.mp hother with rfl | hother
          · trivial
          · exact hback other hother
        · rw [literalBraces_cons, literalBraces_cons, keptBraces, keptBraces,
            count_cons_of_ne hc]

theorem exists_back_of_append {front s : Text} {pieces : List Piece}
    (hproper : ∀ piece ∈ pieces, Proper piece) (hfront : '\x7b' ∉ front)
    (h : render pieces = front ++ s) : ∃ back, render back = s ∧ SameLeft pieces back := by
  induction front generalizing pieces with
  | nil => exact ⟨pieces, h, hproper, rfl, rfl, le_refl _⟩
  | cons c front ih =>
    have hc : c ≠ '\x7b' := fun heq => hfront (heq ▸ mem_cons_self)
    obtain ⟨_, hbetween, hsame⟩ := exists_back hproper hc h
    obtain ⟨back, hback, hleft⟩ :=
      ih hsame.proper (fun hmem => hfront (.tail c hmem)) hbetween
    exact ⟨back, hback, hleft.proper, hleft.holes_eq.trans hsame.holes_eq,
      hleft.braces_eq.trans hsame.braces_eq, hleft.length_le.trans hsame.length_le⟩

theorem braced_eq_of_append {name name' rest rest' : Text} (hname : Plain name)
    (hname' : Plain name') (h : braced name ++ rest = braced name' ++ rest') : name = name' := by
  rw [braced_append, braced_append] at h
  have hbody := (List.cons.inj h).2
  rcases append_eq_append_iff.mp hbody with ⟨more, hmore, hrest⟩ | ⟨more, hmore, hrest⟩
  · cases more with
    | nil => rw [hmore, append_nil]
    | cons =>
      obtain ⟨rfl, -⟩ := List.cons.inj hrest
      exact absurd (hmore ▸ mem_append_right name mem_cons_self) hname'.2
  · cases more with
    | nil => rw [hmore, append_nil]
    | cons =>
      obtain ⟨rfl, -⟩ := List.cons.inj hrest
      exact absurd (hmore ▸ mem_append_right name' mem_cons_self) hname.2

theorem notWithin_braced {name name' : Text} (hname : Plain name) (hname' : Plain name')
    (hne : braced name' ≠ braced name) (rest : Text) :
    NotWithin (braced name) (braced name') rest := by
  intro s hs hempty hstart
  have hsuffix := (mem_tails _ _).mp hs
  obtain ⟨_, hafter⟩ := hstart
  rcases suffix_cons_iff.mp hsuffix with heq | hin
  · have hs' : s = braced name' := heq
    subst hs'
    exact hne (congrArg braced (braced_eq_of_append hname hname' hafter).symm)
  · cases s with
    | nil => exact hempty rfl
    | cons =>
      obtain ⟨rfl, -⟩ := List.cons.inj hafter
      have hmem : '\x7b' ∈ name' ++ ['\x7d'] := hin.subset mem_cons_self
      rcases mem_append.mp hmem with hin | hin
      · exact hname'.1 hin
      · exact absurd (mem_singleton.mp hin) (by decide)

end Pieces

/-! ### One placeholder -/

theorem proper_fill {pieces : List Piece} (hproper : ∀ piece ∈ pieces, Proper piece)
    (placeholder value : Text) : ∀ piece ∈ fill placeholder value pieces, Proper piece := by
  intro piece hmem
  obtain ⟨before, hbefore, rfl⟩ := mem_map.mp hmem
  cases before with
  | kept => trivial
  | hole p =>
    dsimp only [Piece.fill]
    by_cases hp : p = placeholder
    · rw [if_pos hp]
      trivial
    · rw [if_neg hp]
      exact hproper _ hbefore

theorem literalBraces_fill {value : Text} (hvalue : Plain value) (placeholder : Text)
    (pieces : List Piece) :
    literalBraces (fill placeholder value pieces) = literalBraces pieces := by
  induction pieces with
  | nil => rfl
  | cons piece back ih =>
    have hfilled : fill placeholder value (piece :: back) =
        piece.fill placeholder value :: fill placeholder value back := rfl
    rw [hfilled, literalBraces_cons, literalBraces_cons, ih]
    cases piece with
    | kept => rfl
    | hole p =>
      dsimp only [Piece.fill]
      by_cases hp : p = placeholder
      · rw [if_pos hp, keptBraces_plain hvalue.1]
        rfl
      · rw [if_neg hp]

theorem holes_fill (placeholder value : Text) (pieces : List Piece) :
    holes (fill placeholder value pieces) = (holes pieces).filter (· ≠ placeholder) := by
  induction pieces with
  | nil => rfl
  | cons piece back ih =>
    cases piece with
    | kept => exact ih
    | hole p =>
      have hfilled : fill placeholder value (.hole p :: back) =
          Piece.fill placeholder value (.hole p) :: fill placeholder value back := rfl
      have hcons : holes (.hole p :: back) = p :: holes back := rfl
      rw [hfilled, hcons, filter_cons]
      dsimp only [Piece.fill]
      by_cases hp : p = placeholder
      · rw [if_pos hp, if_neg (by rw [decide_eq_true_eq]; exact not_not_intro hp)]
        exact ih
      · rw [if_neg hp, if_pos (by rw [decide_eq_true_eq]; exact hp)]
        exact congrArg (List.cons p) ih

/-- A placeholder is replaced in the text of a template: every occurrence that the template does not
have takes a literal brace with it, and the placeholders are filled in all the same. -/
def Accounted (placeholder value : Text) (pieces : List Piece) : Prop :=
  ∃ out, replaceAll placeholder value (render pieces) = render out ∧
    Reduced pieces out ((holes pieces).filter (· ≠ placeholder)) ∧
    (¬ Clean placeholder pieces → literalBraces out < literalBraces pieces)

section Accounts

variable {name value : Text} {back : List Piece}

theorem Accounted.hole (hvalue : Plain value) (h : Accounted (braced name) value back) :
    Accounted (braced name) value (.hole (braced name) :: back) := by
  obtain ⟨out, hout, hreduced, hless⟩ := h
  have hnonempty : braced name ≠ [] := cons_ne_nil _ _
  have hcons : holes (.hole (braced name) :: back) = braced name :: holes back := rfl
  have hbraces : literalBraces (.hole (braced name) :: back) = literalBraces back := by
    rw [literalBraces_cons]
    exact Nat.zero_add _
  have hsum : literalBraces (.kept value :: out) = literalBraces out := by
    rw [literalBraces_cons, keptBraces_plain hvalue.1, Nat.zero_add]
  refine ⟨.kept value :: out, ?_, ⟨?_, ?_, ?_⟩, fun hnot => ?_⟩
  · rw [render_cons, render_cons]
    dsimp only [Piece.text]
    rw [replaceAll_placeholder hnonempty, hout]
  · exact forall_mem_cons.mpr ⟨trivial, hreduced.proper⟩
  · rw [hcons, filter_cons_of_neg (by rw [decide_eq_true_eq]; exact not_not_intro rfl)]
    exact hreduced.holes_eq
  · rw [hsum, hbraces]
    exact hreduced.braces_le
  · rw [hsum, hbraces]
    exact hless fun hclean => hnot ⟨Or.inl rfl, hclean⟩

theorem Accounted.other {name' : Text} (hname : Plain name) (hname' : Plain name')
    (hne : braced name' ≠ braced name) (h : Accounted (braced name) value back) :
    Accounted (braced name) value (.hole (braced name') :: back) := by
  obtain ⟨out, hout, hreduced, hless⟩ := h
  have hwithin := notWithin_braced hname hname' hne (render back)
  have hcons : holes (.hole (braced name') :: back) = braced name' :: holes back := rfl
  have hbraces : ∀ pieces,
      literalBraces (.hole (braced name') :: pieces) = literalBraces pieces := by
    intro pieces
    rw [literalBraces_cons]
    exact Nat.zero_add _
  refine ⟨.hole (braced name') :: out, ?_, ⟨?_, ?_, ?_⟩, fun hnot => ?_⟩
  · rw [render_cons, render_cons]
    dsimp only [Piece.text]
    rw [replaceAll_append hwithin, hout]
  · exact forall_mem_cons.mpr ⟨⟨name', rfl, hname'⟩, hreduced.proper⟩
  · rw [hcons, filter_cons_of_pos (by rw [decide_eq_true_eq]; exact hne)]
    exact congrArg (List.cons (braced name')) hreduced.holes_eq
  · rw [hbraces, hbraces]
    exact hreduced.braces_le
  · rw [hbraces, hbraces]
    exact hless fun hclean => hnot ⟨Or.inr hwithin, hclean⟩

theorem Accounted.empty {placeholder : Text} (h : Accounted placeholder value back) :
    Accounted placeholder value (.kept [] :: back) := by
  obtain ⟨out, hout, hreduced, hless⟩ := h
  have hbraces : literalBraces (.kept [] :: back) = literalBraces back := by
    rw [literalBraces_cons]
    exact Nat.zero_add _
  refine ⟨out, hout, ⟨hreduced.proper, hreduced.holes_eq, ?_⟩, fun hnot => ?_⟩
  · rw [hbraces]
    exact hreduced.braces_le
  · rw [hbraces]
    refine hless fun hclean => hnot ⟨Or.inr ?_, hclean⟩
    intro s hs hne
    exact absurd (suffix_nil.mp ((mem_tails _ _).mp hs)) hne

theorem literalBraces_char (c : Char) (text : Text) (back : List Piece) :
    literalBraces (.kept (c :: text) :: back) =
      keptBraces (.kept [c]) + literalBraces (.kept text :: back) := by
  have hcount : List.count '\x7b' (c :: text) = List.count '\x7b' [c] + List.count '\x7b' text := by
    rw [← count_append]
    rfl
  rw [literalBraces_cons, literalBraces_cons, ← Nat.add_assoc, keptBraces, hcount]
  rfl

theorem render_char (c : Char) (text : Text) (back : List Piece) :
    render (.kept (c :: text) :: back) = c :: render (.kept text :: back) := by
  rw [render_cons, render_cons]
  rfl

theorem Accounted.char {placeholder text : Text} {c : Char}
    (hstart : ¬ placeholder <+: c :: render (.kept text :: back))
    (h : Accounted placeholder value (.kept text :: back)) :
    Accounted placeholder value (.kept (c :: text) :: back) := by
  obtain ⟨out, hout, hreduced, hless⟩ := h
  have hsum := literalBraces_cons (.kept [c]) out
  refine ⟨.kept [c] :: out, ?_, ⟨?_, hreduced.holes_eq, ?_⟩, fun hnot => ?_⟩
  · rw [render_char, replaceAll, if_neg hstart, hout, render_cons]
    rfl
  · exact forall_mem_cons.mpr ⟨trivial, hreduced.proper⟩
  · rw [hsum, literalBraces_char]
    exact Nat.add_le_add_left hreduced.braces_le _
  · rw [hsum, literalBraces_char]
    refine Nat.add_lt_add_left (hless fun hclean => hnot ?_) _
    refine ⟨Or.inr ?_, hclean.2⟩
    intro s hs hne
    rcases suffix_cons_iff.mp ((mem_tails _ _).mp hs) with rfl | hin
    · rw [render_cons] at hstart
      exact hstart
    · exact hclean.1.resolve_left (fun h => by cases h) s ((mem_tails _ _).mpr hin) hne

theorem Accounted.accident {name value text rest : Text} {c : Char} {back later : List Piece}
    (hvalue : Plain value) (hstart : c :: render (.kept text :: back) = braced name ++ rest)
    (hlater : render later = rest) (hsame : SameLeft (.kept text :: back) later)
    (h : Accounted (braced name) value later) :
    Accounted (braced name) value (.kept (c :: text) :: back) := by
  obtain ⟨out, hout, hreduced, -⟩ := h
  have hnonempty : braced name ≠ [] := cons_ne_nil _ _
  have hc : c = '\x7b' := by
    rw [braced_append] at hstart
    exact (List.cons.inj hstart).1
  have hsum : literalBraces (.kept value :: out) = literalBraces out := by
    rw [literalBraces_cons, keptBraces_plain hvalue.1, Nat.zero_add]
  have hless : literalBraces (.kept value :: out) < literalBraces (.kept (c :: text) :: back) := by
    have hle := hreduced.braces_le
    have hone : keptBraces (.kept [c]) = 1 := by
      rw [hc]
      rfl
    rw [hsum, literalBraces_char, hone, ← hsame.braces_eq]
    omega
  refine ⟨.kept value :: out, ?_, ⟨?_, ?_, hless.le⟩, fun _ => hless⟩
  · rw [render_char, hstart, replaceAll_placeholder hnonempty, ← hlater, hout, render_cons]
    rfl
  · exact forall_mem_cons.mpr ⟨trivial, hreduced.proper⟩
  · have hholes := hreduced.holes_eq
    rw [hsame.holes_eq] at hholes
    exact hholes

end Accounts

theorem accounted {name value : Text} (hname : Plain name) (hvalue : Plain value)
    (pieces : List Piece) (hproper : ∀ piece ∈ pieces, Proper piece) :
    Accounted (braced name) value pieces := by
  induction hsize : (render pieces).length + pieces.length using Nat.strong_induction_on
    generalizing pieces with
  | _ size ih =>
  cases pieces with
  | nil =>
    refine ⟨[], ?_, ⟨hproper, rfl, le_refl _⟩, fun h => absurd trivial h⟩
    have hempty : render [] = [] := flatMap_nil
    rw [hempty, replaceAll]
  | cons piece back =>
    have hback := fun other hother => hproper other (.tail piece hother)
    have hlength : (render (piece :: back)).length = piece.text.length + (render back).length := by
      rw [render_cons, length_append]
    rw [length_cons] at hsize
    cases piece with
    | hole =>
      obtain ⟨name', rfl, hname'⟩ := hproper _ mem_cons_self
      have hrest := ih _ (by omega) back hback rfl
      by_cases heq : braced name' = braced name
      · rw [heq]
        exact hrest.hole hvalue
      · exact hrest.other hname hname' heq
    | kept text =>
      cases text with
      | nil => exact (ih _ (by omega) back hback rfl).empty
      | cons c text =>
        have hshort := congrArg List.length (render_char c text back)
        rw [length_cons] at hshort
        have hlater : ∀ other ∈ Piece.kept text :: back, Proper other :=
          forall_mem_cons.mpr ⟨trivial, hback⟩
        by_cases hstart : braced name <+: c :: render (.kept text :: back)
        · obtain ⟨rest, hrest⟩ := hstart
          have hbody := hrest
          rw [braced_append] at hbody
          obtain ⟨-, htail⟩ := List.cons.inj hbody
          have hfront : '\x7b' ∉ name ++ ['\x7d'] := by
            rw [mem_append, not_or]
            exact ⟨hname.1, by decide⟩
          have hsplit : render (.kept text :: back) = name ++ ['\x7d'] ++ rest := by
            rw [← htail, append_assoc]
            rfl
          obtain ⟨later, hlater', hsame⟩ := exists_back_of_append hlater hfront hsplit
          have hdrop := congrArg List.length hsplit
          rw [length_append] at hdrop
          have hlen := hsame.length_le
          rw [length_cons] at hlen
          refine Accounted.accident hvalue hrest.symm hlater' hsame (ih _ ?_ later hsame.proper rfl)
          rw [hlater']
          omega
        · refine Accounted.char hstart (ih _ ?_ _ hlater rfl)
          rw [length_cons]
          omega

/-! ### A table of placeholders -/

/-- A table gives plain names in braces plain values. -/
def PlainTable (table : List (Text × Text)) : Prop :=
  ∀ e ∈ table, (∃ name, e.1 = braced name ∧ Plain name) ∧ Plain e.2

theorem holes_fillAll (table : List (Text × Text)) (pieces : List Piece) :
    holes (fillAll table pieces) = (holes pieces).filter fun p => (table.lookup p).isNone := by
  induction table generalizing pieces with
  | nil =>
    have hall : ∀ p ∈ holes pieces, (List.lookup p ([] : List (Text × Text))).isNone = true :=
      fun p _ => rfl
    rw [filter_eq_self.mpr hall]
    rfl
  | cons e table ih =>
    have hstep : fillAll (e :: table) pieces = fillAll table (fill e.1 e.2 pieces) := rfl
    rw [hstep, ih, holes_fill, filter_filter]
    refine filter_congr fun p _ => ?_
    rw [lookup_cons]
    by_cases hp : p = e.1
    · rw [hp, beq_self_eq_true, decide_eq_false (not_not_intro rfl), Bool.and_false]
      rfl
    · rw [beq_eq_false_iff_ne.mpr hp, decide_eq_true hp, Bool.and_true]

theorem literalBraces_fillAll {table : List (Text × Text)} (htable : PlainTable table)
    (pieces : List Piece) : literalBraces (fillAll table pieces) = literalBraces pieces := by
  induction table generalizing pieces with
  | nil => rfl
  | cons e table ih =>
    have hstep : fillAll (e :: table) pieces = fillAll table (fill e.1 e.2 pieces) := rfl
    rw [hstep, ih (fun other hother => htable other (.tail e hother)),
      literalBraces_fill (htable e mem_cons_self).2]

theorem proper_fillAll (table : List (Text × Text)) {pieces : List Piece}
    (hproper : ∀ piece ∈ pieces, Proper piece) : ∀ piece ∈ fillAll table pieces, Proper piece := by
  induction table generalizing pieces with
  | nil => exact hproper
  | cons e table ih => exact ih (proper_fill hproper e.1 e.2)

theorem replaceEach_reduced {table : List (Text × Text)} (htable : PlainTable table)
    {pieces : List Piece} (hproper : ∀ piece ∈ pieces, Proper piece) :
    ∃ out, replaceEach table (render pieces) = render out ∧
      Reduced pieces out (holes (fillAll table pieces)) ∧
      (¬ Undisturbed table pieces → literalBraces out < literalBraces pieces) := by
  induction table generalizing pieces with
  | nil => exact ⟨pieces, rfl, ⟨hproper, rfl, le_refl _⟩, fun h => absurd trivial h⟩
  | cons e table ih =>
    obtain ⟨⟨_, hname, hplain⟩, hvalue⟩ := htable e mem_cons_self
    have hrest : PlainTable table :=
      fun other hother => htable other (.tail e hother)
    have hstep : replaceEach (e :: table) (render pieces) =
        replaceEach table (replaceAll e.1 e.2 (render pieces)) := rfl
    have hfilled : fillAll (e :: table) pieces = fillAll table (fill e.1 e.2 pieces) := rfl
    by_cases hclean : Clean e.1 pieces
    · have hnonempty : e.1 ≠ [] := by
        rw [hname]
        exact cons_ne_nil _ _
      obtain ⟨out, hout, hreduced, hless⟩ := ih hrest (proper_fill hproper e.1 e.2)
      have hbraces := literalBraces_fill hvalue e.1 pieces
      refine ⟨out, ?_, ⟨hreduced.proper, ?_, ?_⟩, fun hnot => ?_⟩
      · rw [hstep, replaceAll_render hnonempty e.2 hclean, hout]
      · rw [hfilled]
        exact hreduced.holes_eq
      · rw [← hbraces]
        exact hreduced.braces_le
      · rw [← hbraces]
        exact hless fun hundisturbed => hnot ⟨hclean, hundisturbed⟩
    · obtain ⟨_, hfirst, hreduced, hless⟩ := accounted hplain hvalue pieces hproper
      rw [← hname] at hfirst hreduced hless
      obtain ⟨out, hout, hreduced', -⟩ := ih hrest hreduced.proper
      have hlt := Nat.lt_of_le_of_lt hreduced'.braces_le (hless hclean)
      refine ⟨out, ?_, ⟨hreduced'.proper, ?_, hlt.le⟩, fun _ => hlt⟩
      · rw [hstep, hfirst, hout]
      · rw [hreduced'.holes_eq, hfilled, holes_fillAll, holes_fillAll, hreduced.holes_eq,
          holes_fill]

theorem count_render {pieces : List Piece} (h : holes pieces = []) :
    (render pieces).count '\x7b' = literalBraces pieces := by
  induction pieces with
  | nil => rfl
  | cons piece back ih =>
    rw [render_cons, count_append, literalBraces_cons]
    cases piece with
    | kept => rw [ih h]; rfl
    | hole => exact absurd h (cons_ne_nil _ _)

end OxyMake.TemplateBraces
