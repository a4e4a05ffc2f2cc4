import HtmlTemplate.Directive.Expansion
import HtmlTemplate.Directive.Selection
import HtmlTemplate.Proofs.Markup.Attribute

/-!
# Directives where they are found

The first directive of a text cuts the text at its tag, and the tag at its attribute. What a round of expansion
and a step of selection make of the text is put together from these parts.
-/

namespace HtmlTemplate.Directive

theorem read_of_ofTag? {kind : DirectiveKind} {tag : Tag} {d : Directive} (h : ofTag? kind tag = some d) :
    Attribute.read kind.attributeName (d.attr.print kind.attributeName ++ d.back) = some (d.attr, d.back) := by
  unfold ofTag? at h
  split at h
  · simp at h
  · simp only [Option.map_eq_some_iff, Prod.exists] at h
    obtain ⟨front, a, back, hfind, rfl⟩ := h
    exact (Attribute.pattern kind.attributeName).exists_read_of_find? hfind

theorem valid_of_ofTag? {kind : DirectiveKind} {tag : Tag} {d : Directive} (h : ofTag? kind tag = some d) :
    d.attr.Valid := Attribute.valid_of_read (read_of_ofTag? h)

theorem text_of_find? {kind : DirectiveKind} {t : Text} {front rest : Markup} {d : Directive}
    (h : find? kind (Markup.ofText t) = some (front, d, rest)) :
    t = front.text ++ (d.tag.print ++ rest.text) := by
  rw [← Markup.text_ofText t, eq_append_of_find? h, Markup.text_append, Markup.text_tag]

/-- What a round does: the array at the source of the loop is bound item by item, and its copies take the place of
the element. -/
theorem exists_of_expandAt {front rest : Markup} {d : Directive} {s s' : Scope} {t : Text}
    (h : expandAt front d rest s = (.ok t, s')) :
    ∃ expr inside after items expanded, LoopExpr.parse? d.value = some expr ∧
      Markup.cutSpan d.tag rest = some (inside, after) ∧ s.lookup? expr.source = some (.array items) ∧
      copies expr.item (d.stripped ++ inside.text) items s = (.ok expanded, s') ∧
      t = front.text ++ (expanded ++ after.text) := by
  unfold expandAt at h
  split at h
  · simp at h
  · next expr hexpr =>
    split at h
    · simp at h
    · next inside after hspan =>
      split at h
      · next items hitems =>
        split at h
        · simp at h
        · next expanded _ hcopies =>
          obtain ⟨ht, rfl⟩ := Prod.mk.inj h
          refine ⟨expr, inside, after, items, expanded, hexpr, hspan, hitems, hcopies, ?_⟩
          rw [← Except.ok.inj ht, List.append_assoc]
      · simp at h

theorem select_of_find? {t : Text} {front rest : Markup} {d : Directive} (s : Scope)
    (hfind : find? .guard (Markup.ofText t) = some (front, d, rest)) :
    select s t =
      match Markup.cutSpan d.tag rest with
      | none => .error (.unterminated .guard d.value.trim d.tag.name)
      | some (_, after) =>
        if (Guard.parse d.value).holds s then select s (front.text ++ d.stripped ++ rest.text)
        else select s (front.text ++ after.text) := by
  rw [select]
  split
  · next hnone => simp [hfind] at hnone
  · next hsome =>
    rw [hfind] at hsome
    cases hsome
    split <;> simp_all

end HtmlTemplate.Directive
