import HtmlTemplate.Proofs.Directive.LoopValue

/-!
# Loops that a tag carries

A tag may carry more than one loop; expansion strips the first and comes back to the others. Of a tag with well-formed
directives, what is left when a directive is stripped carries no other loops (`Tag.WellFormed.carries_of_stripped`), and
what a pass makes of it carries the loops of the tag with their values passed over (`Tag.Carries.of_mapBody`).
-/

namespace HtmlTemplate

/-- Whether an opening tag carries a loop with this value. -/
def Tag.Carries (tag : Tag) (v : Text) : Prop :=
  tag.closing = false ∧ ∃ (before behind : Text) (a : Attribute) (rest : Text), tag.print = before ++ behind ∧
    Attribute.read DirectiveKind.loop.attributeName behind = some (a, rest) ∧ a.quoted.value = v

/-- Whether a tag of a text carries a loop with this value. -/
def Directive.Writes (t v : Text) : Prop := ∃ tag ∈ (Markup.ofText t).tags, tag.Carries v

/-- Whether a loop of a text declares an item. -/
def Directive.Declares (t item : Text) : Prop := ∃ v e, Writes t v ∧ LoopExpr.parse? v = some e ∧ e.item = item

namespace Directive

theorem carries_of_ofTag? {tag : Tag} {d : Directive} (hd : ofTag? .loop tag = some d) : tag.Carries d.value := by
  obtain ⟨-, hclosing, hprint⟩ := print_tag_of_ofTag? hd
  exact ⟨hclosing, d.front, _, d.attr, d.back, by rw [hprint, List.append_assoc], read_of_ofTag? hd, rfl⟩

theorem Writes.infix {t v : Text} (h : Writes t v) : v <:+: t := by
  obtain ⟨tag, htag, -, before, behind, a, rest, hprint, hread, rfl⟩ := h
  obtain ⟨piece, hpiece, hlexeme⟩ := List.mem_filterMap.1 htag
  obtain ⟨u, m, hm⟩ := List.append_of_mem hpiece
  have htext := Markup.text_ofText t
  rw [hm, Markup.text_append] at htext
  cases piece with
  | char c => simp [Piece.lexeme?] at hlexeme
  | lexeme tag' =>
    obtain rfl := Option.some.inj hlexeme
    rw [Markup.text_tag, hprint, Attribute.eq_append_of_read hread, Attribute.print_eq_core, Attribute.core] at htext
    refine ⟨Markup.text u ++ (before ++ a.blank :: (DirectiveKind.loop.attributeName ++ (a.equals ++ [a.quoted.quote]))),
      a.quoted.quote :: (rest ++ Markup.text m), ?_⟩
    rw [← htext]
    simp

end Directive

namespace Tag

open Directive (ofTag?)
open Reference (Pass Recast)

variable {tag tag' : Tag} {v w : Text}

theorem Carries.exists_star (h : tag.Carries v) :
    ∃ (before : Text) (a : Attribute) (behind rest : Text), tag.print = before ++ [a.blank] ++ '*' :: behind ∧
      Attribute.read DirectiveKind.loop.attributeName (a.blank :: '*' :: behind) = some (a, rest) ∧
        a.quoted.value = v := by
  obtain ⟨-, before, behind, a, rest, hprint, hread, hv⟩ := h
  obtain ⟨name, hkind, -⟩ := Directive.attributeName_eq .loop
  have hbehind := Attribute.eq_append_of_read hread
  rw [Attribute.print_eq, hkind, List.cons_append, List.cons_append, List.cons_append] at hbehind
  exact ⟨before, a, _, rest, by rw [hprint, hbehind]; simp, hbehind ▸ hread, hv⟩

namespace WellFormed

/-- A tag without one of its directives carries no loop that the tag does not carry. -/
theorem carries_of_stripped {kind : DirectiveKind} {d : Directive} (h : tag.WellFormed) (hd : ofTag? kind tag = some d)
    (hstripped : d.stripped = tag'.print) (hv : tag'.Carries v) : tag.Carries v := by
  obtain ⟨-, hclosing, hprint⟩ := Directive.print_tag_of_ofTag? hd
  obtain ⟨-, -, -, hback⟩ := h.of_ofTag? hd
  obtain ⟨before, a, behind, rest, hprint', hread, rfl⟩ := hv.exists_star
  rw [← hstripped, Directive.stripped] at hprint'
  refine ⟨hclosing, ?_⟩
  rcases Text.exists_of_append_eq_cons_append hprint' with ⟨u, hu, hbehind⟩ | ⟨u, hfront, rfl⟩
  · -- the loop stands behind the directive
    rcases List.eq_nil_or_concat u with rfl | ⟨u, blank, rfl⟩
    · rw [hbehind, List.nil_append, Text.not_partsAttribute_star] at hback
      simp at hback
    · rw [List.concat_eq_append, ← List.append_assoc] at hu
      obtain ⟨-, hblank⟩ := List.append_inj' hu rfl
      refine ⟨d.front ++ d.attr.print kind.attributeName ++ u, a.blank :: '*' :: behind, a, rest, ?_, hread, rfl⟩
      rw [hprint, hbehind, List.concat_eq_append, ← hblank]
      simp
  · -- the loop stands before the directive and ends before it
    obtain ⟨kind', front, a', y, hbefore, hread', -⟩ := h.exists_of_front hd hfront
    obtain ⟨rfl, hblank⟩ := List.append_inj' hbefore rfl
    rw [(List.cons.inj hblank).1] at hread
    obtain rfl := kind_eq hread (hread' d.back)
    obtain rfl := (Prod.mk.inj (Option.some.inj (hread.symm.trans (hread' d.back)))).1
    refine ⟨before, _, a, _, ?_, hread' (d.attr.print kind.attributeName ++ d.back), rfl⟩
    rw [hprint, hfront]
    simp

end WellFormed

/-- The loops that a tag carries after a pass are those it carried before, with their values passed over. -/
theorem Carries.of_mapBody {g h : Text → Text} (hpass : Pass g h) (hproper : tag.Proper) (hwell : tag.WellFormed)
    (hw : (tag.mapBody g).Carries w) : ∃ v, tag.Carries v ∧ w = h v := by
  have hclosing : tag.closing = false := hw.1
  obtain ⟨before, a', behind, rest, hprint', hread', rfl⟩ := hw.exists_star
  have hvalid' := Attribute.valid_of_read hread'
  have halike : tag.Alike (tag.mapBody g) := ⟨rfl, rfl, hpass.alike tag.body⟩
  -- the star of the loop stands for one of the tag, which begins a directive
  have hcut := halike.symm.print
  rw [hprint'] at hcut
  obtain ⟨u, y, hprint, hbefore, hbehind⟩ := hcut.exists_of_append_cons (by decide)
  obtain ⟨kind, front, a, back, rfl, hread, hstar, -⟩ := hwell u y hprint
  have hvalid := Attribute.valid_of_read hread
  obtain ⟨front', hfront, -⟩ := hbefore.exists_of_append_blank hvalid'.blank
  have hblank : a.blank = a'.blank := (List.cons.inj (List.append_inj' hfront rfl).2).1
  obtain ⟨name, hkind, hname⟩ := Directive.attributeName_eq .loop
  have hread'' := hread'
  rw [hkind] at hread''
  obtain ⟨_, _, hloop, -⟩ := (Text.Alike.cons a'.blank hbehind).read hname hread''
  rw [← hkind, ← hblank] at hloop
  obtain rfl := WellFormed.kind_eq hloop hread
  refine ⟨a.quoted.value, ⟨hclosing, front, _, a, back, by rw [hprint]; simp, hread, rfl⟩, ?_⟩
  have hquote : a.quoted.quote ∉ h a.quoted.value := by
    have hmark : Text.isMark a.quoted.quote = true := by
      rcases Text.isQuote_iff.1 hvalid.quote with hq | hq <;> rw [hq] <;> decide
    rw [← (hpass.alike_value _).mem_iff hmark]
    exact hvalid.value
  have hy := Attribute.eq_append_of_read hread
  rw [Attribute.print_eq_core, List.cons_append] at hy
  rw [(List.cons.inj hy).2] at hprint
  refine Directive.value_eq_of_exchanges hpass.isLocal hproper hvalid hquote (hpass.exchanges hvalid hstar) hprint
    hprint' hread' ?_
  rw [hbefore.count_eq (by decide), (hpass.alike _).count_eq (by decide)]

end Tag
end HtmlTemplate
