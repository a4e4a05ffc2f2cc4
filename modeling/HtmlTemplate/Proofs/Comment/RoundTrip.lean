import HtmlTemplate.Proofs.Comment.Final
import HtmlTemplate.Proofs.Comment.Restore

/-!
# Guarding and restoring

Restoring a guarded text gives the text back, whatever has been guarded before and after it
(`Comment.Table.restore_guard`). Guarded texts may also be put together in any order, some of them again and
some not at all: what is restored are the texts in that order (`Comment.Table.restore_guardAll`), as long as
no comment opening is left open in a text or broken off at its end.
-/

namespace HtmlTemplate

open Text (fill)

namespace Comment

/-! ## Comments by their index -/

/-- The comment that the marker with an index is. -/
def ofIndex (index : Nat) : Comment := ⟨label ++ Text.numeral index⟩

@[simp] theorem print_ofIndex (index : Nat) : (ofIndex index).print = marker index := print_label _

theorem readsBack_ofIndex (index : Nat) : (ofIndex index).ReadsBack := (isMarker_marker index).readsBack

theorem map_fst_numbered {α : Type} (n : Nat) (ps : List (Piece α)) :
    (numbered n ps).map (Piece.map Prod.fst) = ps := by
  induction ps generalizing n with
  | nil => rfl
  | cons piece ps ih => cases piece <;> simp [numbered, Piece.map, ih]

theorem finds_numbered (n : Nat) (t : Text) : Finds Prod.fst (numbered n (pattern.pieces t)) := by
  rw [Finds, fill_numbered print, map_fst_numbered]
  exact congrArg pattern.pieces (pattern.print_pieces t)

theorem lexemes_numbered {α : Type} (n : Nat) (ps : List (Piece α)) :
    (numbered n ps).filterMap Piece.lexeme? = (ps.filterMap Piece.lexeme?).zipIdx n := by
  induction ps generalizing n with
  | nil => rfl
  | cons piece ps ih => cases piece <;> simp [numbered, List.filterMap_cons, Piece.lexeme?, ih]

theorem getElem?_of_mem_numbered {table : Table} {ps : List (Piece Comment)} {a : Comment × Nat}
    (h : .lexeme a ∈ numbered table.length ps) : (table ++ ps.filterMap Piece.lexeme?)[a.2]? = some a.1 := by
  have hmem : a ∈ (ps.filterMap Piece.lexeme?).zipIdx table.length := by
    rw [← lexemes_numbered]
    exact List.mem_filterMap.2 ⟨_, h, rfl⟩
  obtain ⟨hle, hget⟩ := List.mk_mem_zipIdx_iff_le_and_getElem?_sub.1 hmem
  rw [List.getElem?_append_right hle, hget]

theorem ofNumeral?_numeral (n : Nat) : Text.ofNumeral? (Text.numeral n) = some n := by
  have hdigits : (Text.numeral n).all Char.isDigit = true := List.all_eq_true.2 fun c hc =>
    Nat.isDigit_of_mem_toDigits (by decide) (by decide) hc
  have hne : (Text.numeral n).isEmpty = false := by simp [Text.numeral]
  rw [Text.ofNumeral?, hdigits, hne]
  exact congrArg some Nat.ofDigitChars_ten_toDigits

namespace Table

theorem restore_marker {table : Table} {index : Nat} {c : Comment} (h : table[index]? = some c) :
    table.restore (marker index) = c.print := by
  have hread : markerPattern.read (marker index) = some (Text.numeral index, []) := by
    have := (isMarker_marker index).readMarker []
    rwa [List.append_nil, print_label, digits_of_body rfl] at this
  simp [restore, Pattern.replace, markerPattern.pieces_of_read hread, Piece.print, restoreMarker,
    ofNumeral?_numeral, h]

theorem guard_fst (table : Table) (t : Text) :
    (table.guard t).1 = fill (fun a => (ofIndex a.2).print) (numbered table.length (pattern.pieces t)) := by
  simp only [print_ofIndex]
  exact guardPieces_fst table _

theorem fill_restore_numbered {table later : Table} {t : Text} (h : (table.guard t).2 <+: later) :
    fill (fun a => later.restore (ofIndex a.2).print) (numbered table.length (pattern.pieces t)) = t := by
  obtain ⟨rest, rfl⟩ := h
  have hcongr : ∀ a, .lexeme a ∈ numbered table.length (pattern.pieces t) →
      ((table.guard t).2 ++ rest).restore (ofIndex a.2).print = a.1.print := by
    intro a ha
    have hget : (table.guard t).2[a.2]? = some a.1 := by
      rw [guard, guardPieces_snd]
      exact getElem?_of_mem_numbered ha
    rw [print_ofIndex]
    exact restore_marker ((List.getElem?_append_left (List.getElem?_eq_some_iff.1 hget).1).trans hget)
  rw [Text.fill_congr hcongr, fill_numbered print]
  exact pattern.print_pieces t

/-- Restoring undoes guarding, with the table of that time or any later one. -/
theorem restore_guard {table later : Table} {t : Text} (h : (table.guard t).2 <+: later) :
    later.restore (table.guard t).1 = t := by
  have hfinds := (finds_numbered table.length t).exchange fun a _ => readsBack_ofIndex a.2
  rw [restore_eq_fill, guard_fst, hfinds, Text.fill_map]
  exact fill_restore_numbered h

end Table

/-! ## Texts put together -/

/-- Whether a text ends in the middle of a comment opening. -/
def BreaksOff (t : Text) : Prop := ∃ front ∈ [['<'], ['<', '!'], ['<', '!', '-']], front <:+ t

instance (t : Text) : Decidable (BreaksOff t) := inferInstanceAs (Decidable (∃ front ∈ _, front <:+ t))

theorem BreaksOff.append_left {t : Text} (h : BreaksOff t) (s : Text) : BreaksOff (s ++ t) := by
  obtain ⟨front, hfront, hsuffix⟩ := h
  exact ⟨front, hfront, hsuffix.trans (List.suffix_append s t)⟩

theorem breaksOff_of_isPrefix {t : Text} (h : t <+: openingTail) (hne : t ≠ openingTail) : BreaksOff ('<' :: t) := by
  refine ⟨'<' :: t, ?_, List.suffix_rfl⟩
  rcases t with _ | ⟨c, _ | ⟨d, _ | ⟨e, t⟩⟩⟩
  · simp
  · simp [openingTail] at h ⊢
    exact h
  · simp [openingTail] at h ⊢
    exact h
  · simp [openingTail] at h hne
    exact absurd h.2.2.2 (hne h.1 h.2.1 h.2.2.1)

/-- Comments that are read as they are printed are found in the place of those of a text, whatever follows
the text, if it opens no comment that it does not close. -/
theorem pieces_fill_append {α : Type} {f g : α → Comment} {ps : List (Piece α)}
    (hclosed : closedPieces (ps.map (Piece.map f)) = true)
    (hend : ¬ BreaksOff (fill (fun a => (f a).print) ps))
    (hg : ∀ a, .lexeme a ∈ ps → (g a).ReadsBack) (rest : Text) :
    pattern.pieces (fill (fun a => (g a).print) ps ++ rest) =
      ps.map (Piece.map g) ++ pattern.pieces rest := by
  induction ps with
  | nil => rfl
  | cons piece ps ih =>
    have hg' : ∀ a, .lexeme a ∈ ps → (g a).ReadsBack := fun a ha => hg a (List.mem_cons_of_mem _ ha)
    cases piece with
    | char c =>
      rw [List.map_cons, Piece.map, closedPieces, Text.fill_map, Bool.and_eq_true] at hclosed
      rw [Text.fill_char] at hend
      have hnone : read (c :: (fill (fun a => (g a).print) ps ++ rest)) = none := by
        by_contra hsome
        obtain ⟨⟨a, u⟩, hsome⟩ := Option.ne_none_iff_exists'.1 hsome
        have he := eq_append_of_read hsome
        rw [print, opening, List.cons_append, List.cons_append, List.cons_append, List.cons.injEq] at he
        obtain ⟨rfl, he⟩ := he
        have hopen : openingTail <+: fill (fun a => (g a).print) ps ++ rest := by
          rw [he, List.append_assoc, List.append_assoc]
          exact List.prefix_append _ _
        rcases List.prefix_or_prefix_of_prefix hopen (List.prefix_append _ _) with hin | hin
        · have hin' : openingTail <+: fill (fun a => (f a).print) ps :=
            Text.prefix_fill (fun a _ => ⟨'<', rfl, by decide⟩) hin
          simp [List.isPrefixOf_iff_prefix.2 hin'] at hclosed
        · -- The text ends inside the opening, so that no comment follows the `<`.
          have hchars : ∀ a, .lexeme a ∉ ps := by
            intro a ha
            have hmem : '<' ∈ openingTail := hin.subset (List.mem_flatMap.2 ⟨_, ha, List.mem_cons_self⟩)
            simp [openingTail] at hmem
          rw [Text.fill_congr (g := fun a => (f a).print) fun a ha => absurd ha (hchars a)] at hin
          refine hend (breaksOff_of_isPrefix hin fun he => ?_)
          rw [he] at hclosed
          exact absurd hclosed.1 (by decide)
      rw [Text.fill_char, List.cons_append, pattern.pieces_cons_of_read_none hnone,
        ih hclosed.2 (fun hbreak => hend (hbreak.append_left [c])) hg']
      rfl
    | lexeme a =>
      rw [Text.fill_hole] at hend
      rw [Text.fill_hole, List.append_assoc, pattern.pieces_of_read (hg a (by simp) _),
        ih hclosed (fun hbreak => hend (hbreak.append_left _)) hg']
      rfl

namespace Table

theorem restore_guard_append {table later : Table} {t : Text} (hclosed : Closed t) (hend : ¬ BreaksOff t)
    (h : (table.guard t).2 <+: later) (rest : Text) :
    later.restore ((table.guard t).1 ++ rest) = t ++ later.restore rest := by
  have hprint : fill (fun a : Comment × Nat => a.1.print) (numbered table.length (pattern.pieces t)) = t :=
    (fill_numbered print _ _).trans (pattern.print_pieces t)
  have hclosed' : closedPieces ((numbered table.length (pattern.pieces t)).map (Piece.map Prod.fst)) = true := by
    rwa [map_fst_numbered]
  have hpieces := pieces_fill_append hclosed' (by rwa [hprint]) (fun a _ => readsBack_ofIndex a.2) rest
  rw [restore_eq_fill, guard_fst, hpieces, Text.fill_append, ← restore_eq_fill, Text.fill_map,
    fill_restore_numbered h]

theorem prefix_guard (table : Table) (t : Text) : table <+: (table.guard t).2 := by
  rw [guard, guardPieces_snd]
  exact List.prefix_append _ _

theorem prefix_guardAll (table : Table) (texts : List Text) : table <+: (table.guardAll texts).2 := by
  induction texts generalizing table with
  | nil => exact List.prefix_rfl
  | cons t texts ih => exact (prefix_guard table t).trans (ih _)

theorem forall₂_guardAll (table : Table) (texts : List Text) :
    List.Forall₂ (fun t guarded => ∃ before : Table, guarded = (before.guard t).1 ∧
      (before.guard t).2 <+: (table.guardAll texts).2) texts (table.guardAll texts).1 := by
  induction texts generalizing table with
  | nil => exact .nil
  | cons t texts ih => exact .cons ⟨table, rfl, prefix_guardAll _ texts⟩ (ih _)

/-- Texts that close what comments they open are guarded one after another and put together in any order. With
the final table, this is restored to the texts in that order; an index without a text adds nothing. -/
theorem restore_flatMap_guardAll {texts : List Text} (h : ∀ t ∈ texts, Closed t ∧ ¬ BreaksOff t) (table : Table)
    (indices : List Nat) :
    (table.guardAll texts).2.restore (indices.flatMap fun i => (table.guardAll texts).1.getD i []) =
      indices.flatMap fun i => texts.getD i [] := by
  have hall := forall₂_guardAll table texts
  induction indices with
  | nil => simp [restore, Pattern.replace]
  | cons i indices ih =>
    rw [List.flatMap_cons, List.flatMap_cons, ← ih]
    by_cases hi : i < texts.length
    · have hi' : i < (table.guardAll texts).1.length := hall.length_eq ▸ hi
      obtain ⟨before, hguarded, hprefix⟩ := List.forall₂_iff_get.1 hall |>.2 i hi hi'
      have ht := h _ (List.get_mem texts ⟨i, hi⟩)
      rw [List.getD_eq_getElem _ _ hi, List.getD_eq_getElem _ _ hi']
      rw [List.get_eq_getElem, List.get_eq_getElem] at hguarded
      rw [hguarded]
      exact restore_guard_append ht.1 ht.2 hprefix _
    · have hi' : ¬ i < (table.guardAll texts).1.length := hall.length_eq ▸ hi
      rw [List.getD_eq_default _ _ (not_lt.1 hi), List.getD_eq_default _ _ (not_lt.1 hi')]
      rfl

/-- Guarded texts in any order are restored to the texts in that order, if each closes what comments it opens,
and a text guarded alone is restored whatever it is. -/
theorem restore_guardAll (table : Table) (texts : List Text) :
    ((∀ t ∈ texts, Closed t ∧ ¬ BreaksOff t) → ∀ indices : List Nat,
      (table.guardAll texts).2.restore (indices.flatMap fun i => (table.guardAll texts).1.getD i []) =
        indices.flatMap fun i => texts.getD i []) ∧
      ∀ t, (extract t).2.restore (extract t).1 = t :=
  ⟨fun h => restore_flatMap_guardAll h table, fun _ => restore_guard List.prefix_rfl⟩

/-- The first text has a comment that looks like the marker of the second, which ends in a dash. -/
theorem restore_guardAll_lookalike :
    (Table.guardAll [] ["<p><!--templ-comment:1--></p>".toList, "<!-- a -->-".toList]).2.restore
        ([1, 0, 1].flatMap fun i => (Table.guardAll [] ["<p><!--templ-comment:1--></p>".toList,
          "<!-- a -->-".toList]).1.getD i []) =
      "<!-- a -->-<p><!--templ-comment:1--></p><!-- a -->-".toList :=
  ((restore_guardAll [] _).1 (by decide +kernel) [1, 0, 1]).trans (by decide)

end Table
end Comment
end HtmlTemplate
