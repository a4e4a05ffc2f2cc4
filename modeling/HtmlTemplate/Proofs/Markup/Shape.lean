import HtmlTemplate.Markup.Balance
import HtmlTemplate.Proofs.Markup.Holes
import HtmlTemplate.Proofs.Text.Basic

/-!
# Shapes of tags

How tags balance depends on their shapes only, and a text is delimited by the outermost characters
that are no blanks.
-/

namespace HtmlTemplate.Markup

theorem opensScope_eq_of_shape_eq {s t : Tag} (h : s.shape = t.shape) :
    s.opensScope = t.opensScope := by
  simp only [Tag.shape, Prod.mk.injEq] at h
  simp [Tag.opensScope, h]

theorem checkTags_eq_of_shapes_eq {s t : List Tag} (h : s.map Tag.shape = t.map Tag.shape)
    (stack : List Text) : checkTags stack s = checkTags stack t := by
  induction s generalizing t stack with
  | nil =>
    rw [List.map_nil] at h
    rw [List.map_eq_nil_iff.1 h.symm]
  | cons a s ih =>
    cases t with
    | nil => simp at h
    | cons b t =>
      obtain ⟨hab, hst⟩ := List.cons.inj h
      have hopen := opensScope_eq_of_shape_eq hab
      simp only [Tag.shape, Prod.mk.injEq] at hab
      obtain ⟨hname, hclosing, -⟩ := hab
      cases stack <;> simp only [checkTags, hname, hclosing, hopen, ih hst]

theorem delimited_eq (t : Text) :
    delimited t = (t.find? Text.isSolid == some '<' && t.reverse.find? Text.isSolid == some '>') := by
  rw [delimited, Text.head?_trim, Text.getLast?_trim]

theorem check_eq_of_shapes_eq {s t : Text}
    (hshapes : (ofText s).tags.map Tag.shape = (ofText t).tags.map Tag.shape)
    (hdelimited : delimited s = delimited t) : check s = check t := by
  simp only [check, checkTags_eq_of_shapes_eq hshapes, hdelimited]

end HtmlTemplate.Markup
