import HtmlTemplate.Proofs.Template.Directive
import HtmlTemplate.Proofs.Template.Environment

/-!
# Selection prunes the tree

Selection drops the elements of a template whose guard fails, with all that is in them, and leaves out the
guards of all others (`Template.select_text`). Loops do not matter to it.
-/

namespace HtmlTemplate

theorem Text.trim_eq_self {t : Text} (h : ∀ c ∈ t, isBlank c = false) : t.trim = t := by
  have hdrop : ∀ u : Text, (∀ c ∈ u, isBlank c = false) → u.dropWhile isBlank = u := by
    intro u hu
    cases u with
    | nil => rfl
    | cons c u => rw [List.dropWhile_cons_of_neg (by simp [hu c])]
  rw [trim, trimLeft, hdrop t h, trimRight, hdrop _ (fun c hc => h c (List.mem_reverse.1 hc)), List.reverse_reverse]

/-! ## Guards -/

theorem Guard.parse_text (negated : Bool) {p : Path} (h : p.isValid = true) :
    Guard.parse (Clause.guard negated p).text = ⟨p.text, negated⟩ := by
  have hpath := Path.isPath_text h
  have hsolid : ∀ c ∈ p.text, Text.isBlank c = false := fun c hc => not_isBlank_of_isPathChar (hpath.all c hc)
  cases negated with
  | true =>
    have hall : ∀ c ∈ '!' :: p.text, Text.isBlank c = false :=
      List.forall_mem_cons.2 ⟨by decide, hsolid⟩
    have htext : (Clause.guard true p).text.trim = '!' :: p.text := Text.trim_eq_self hall
    rw [Guard.parse, htext]
    simp only [Text.trim_eq_self hsolid]
  | false =>
    have htext : (Clause.guard false p).text.trim = p.text := Text.trim_eq_self hsolid
    rw [Guard.parse, htext]
    split
    · next u hu => exact absurd (hpath.all '!' (by simp [hu])) (by decide)
    · rfl

variable {s : Scope}

theorem Chunk.all_lexemes {ks : List Chunk} (h : ∀ k ∈ ks, k.isValid = true) (s : Scope) :
    ((ks.flatMap (Chunk.pieces .guard)).filterMap Piece.lexeme?).all
      (fun a => (Guard.parse a.quoted.value).holds s) = ks.all (Chunk.holds s.env) := by
  induction ks with
  | nil => rfl
  | cons k ks ih =>
    rw [List.forall_mem_cons] at h
    rw [List.flatMap_cons, List.filterMap_append, List.all_append, ih h.2, List.all_cons]
    congr 1
    rcases k with _ | _ | ⟨blank, quote, _ | ⟨negated, p⟩⟩
    · simp [pieces, Piece.lexeme?, holds]
    · simp [pieces, Piece.lexeme?, holds]
    · simp [pieces, Piece.lexeme?, holds, Clause.kind, Clause.holds]
    · have hp : p.isValid = true := (valid_directive h.1).2.2
      show ((Guard.parse (Clause.guard negated p).text).holds s && true) = _
      rw [Guard.parse_text negated hp, Bool.and_true]
      rfl

namespace Opening

variable {o : Opening}

theorem selected_tag (h : o.isValid = true) (s : Scope) :
    o.tag.selected s = if o.holds s.env then some (o.without .guard).tag.print else none := by
  have hpieces : Tag.guardPattern.pieces o.tag.print = _ := pieces_tag h .guard
  have hguards : o.tag.guardsHold s = o.holds s.env := by
    rw [Tag.guardsHold, Pattern.lexemes, hpieces, List.filterMap_append, List.filterMap_append,
      Piece.filterMap_lexeme?_map_char, Piece.filterMap_lexeme?_map_char, List.append_nil, List.nil_append,
      Chunk.all_lexemes (isValid_iff.1 h).2.1]
    rfl
  have hreplace : Tag.guardPattern.replace (fun _ => []) o.tag.print = (o.without .guard).tag.print := by
    rw [Pattern.replace, hpieces, List.flatMap_append, List.flatMap_append, Piece.flatMap_print_map_char,
      Piece.flatMap_print_map_char, Chunk.flatMap_pieces_nil, print_tag]
    rfl
  rw [Tag.selected, if_neg (by simp [tag]), hguards, hreplace]

theorem selected_closingTag (o : Opening) (s : Scope) : o.closingTag.selected s = some o.closingTag.print := rfl

end Opening

/-! ## Templates -/

namespace Template

open Directive (survivors survivors_append survivors_kept survivors_dropped)

/-- A template without the elements whose guard fails, and without guards. -/
def select (e : Env) : Template → Template
  | nil => nil
  | bit b rest => bit b (rest.select e)
  | leaf o rest => if o.holds e then leaf (o.without .guard) (rest.select e) else rest.select e
  | element o inside rest =>
    if o.holds e then element (o.without .guard) (inside.select e) (rest.select e) else rest.select e

variable {T : Template}

theorem survivors_markup (h : T.isValid = true) (s : Scope) (m : Markup) :
    survivors (Tag.selected s) (T.markup ++ m) = (T.select s.env).text ++ survivors (Tag.selected s) m := by
  induction T generalizing m with
  | nil => rfl
  | bit b rest ih =>
    rw [markup, select, text, List.append_assoc, List.append_assoc, survivors_append (by simp),
      ih (valid_bit h).2]
    simp
  | leaf o rest ih =>
    obtain ⟨ho, hopens, hrest⟩ := valid_leaf h
    have hselected := Opening.selected_tag ho s
    rw [markup, select, List.cons_append]
    split
    · next hholds =>
      rw [if_pos hholds] at hselected
      rw [survivors_kept hselected, ih hrest, text, List.append_assoc]
    · next hholds =>
      rw [if_neg hholds] at hselected
      rw [survivors_dropped hselected (cutSpan_leaf hopens _), ih hrest]
  | element o inside rest ihInside ih =>
    obtain ⟨ho, hopens, hinside, hrest⟩ := valid_element h
    have hselected := Opening.selected_tag ho s
    rw [markup, select, List.cons_append, List.append_assoc]
    split
    · next hholds =>
      rw [if_pos hholds] at hselected
      rw [survivors_kept hselected, ihInside hinside, List.cons_append,
        survivors_kept (o.selected_closingTag s), ih hrest, text]
      simp [Opening.closingTag, Opening.without]
    · next hholds =>
      rw [if_neg hholds] at hselected
      rw [List.cons_append, survivors_dropped hselected (cutSpan_element hinside hopens _), ih hrest]

/-- Selection of the text of a template prunes its tree. -/
theorem select_text (h : T.isValid = true) (s : Scope) :
    Directive.select s T.text = .ok (T.select s.env).text := by
  obtain ⟨x, tail, F, hnested, ht⟩ := Nested.exists_of_wellFormed (balanced_text h) (wellFormed_text h)
  obtain ⟨x', F', hselect, -, hsurvivors⟩ := hnested.exists_select s
  have hleft := hsurvivors _ (Directive.keeps_selected s)
  rw [← hnested.ofText_text, ← ht, ofText_text h] at hleft
  rw [← ht, hleft] at hselect
  have hmarkup := survivors_markup h s []
  rw [List.append_nil, Directive.survivors_nil, List.append_nil] at hmarkup
  rw [hselect, hmarkup]

end Template
end HtmlTemplate
