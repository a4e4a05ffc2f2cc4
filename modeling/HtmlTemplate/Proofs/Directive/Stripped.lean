import HtmlTemplate.Proofs.Directive.Basic
import HtmlTemplate.Proofs.Directive.Steady
import HtmlTemplate.Proofs.Markup.Partner
import HtmlTemplate.Proofs.Markup.Span

/-!
# What is left of a tag

When a directive is stripped, what stood before its attribute meets what stood behind. The two parts make the tag
that was there, but for the attribute, unless they are glued: a word character behind the attribute goes on the name
of the tag where the attribute stood right behind the name, and a slash before the attribute makes the tag close
itself where the tag ended right behind the attribute (`Directive.tokensFrom_stripped_iff`).
-/

namespace HtmlTemplate

namespace Markup

theorem text_eq_nil_iff {m : Markup} : m.text = [] ↔ m = [] := by
  cases m with
  | nil => simp
  | cons piece m => cases piece <;> simp [Tag.print]

theorem tokensFrom_zero_eq_singleton_iff {t : Text} {tag : Tag} :
    tokensFrom t 0 = [⟨tag, 0, Text.byteLength t⟩] ↔ ofText t = [.lexeme tag] := by
  constructor
  · intro h
    have hmem : (⟨tag, 0, Text.byteLength t⟩ : Token) ∈ locate 0 (ofText t) := by
      rw [← tokensFrom_zero, h]
      simp
    obtain ⟨f, r, hm, hstart, hstop⟩ := exists_of_mem_locate hmem
    have hlength := congrArg Text.byteLength (text_ofText t)
    rw [hm, text_append, text_tag, Text.byteLength_append, Text.byteLength_append] at hlength
    simp only [Nat.zero_add] at hstart hstop hlength
    obtain rfl := text_eq_nil_iff.1 (Text.byteLength_eq_zero_iff.1 hstart.symm)
    have hrest : Text.byteLength r.text = 0 := by
      rw [text_nil, Text.byteLength_nil] at hlength
      omega
    obtain rfl := text_eq_nil_iff.1 (Text.byteLength_eq_zero_iff.1 hrest)
    exact hm
  · intro h
    have ht : t = tag.print := by rw [← text_ofText t, h, text_tag, text_nil, List.append_nil]
    rw [tokensFrom_zero, h, locate, locate, ht, Nat.zero_add]

end Markup

namespace Directive

variable {kind : DirectiveKind} {tag : Tag} {d : Directive}

theorem exists_body (htag : tag.Proper) (hd : ofTag? kind tag = some d) :
    ∃ f b : Text, d.front = tag.lead ++ f ∧ d.back = b ++ ['>'] ∧
      tag.body = f ++ (d.attr.print kind.attributeName ++ b) := by
  have hvalid := valid_of_ofTag? hd
  have hprint := (print_tag_of_ofTag? hd).2.2
  have hlead : ∃ f, d.front = tag.lead ++ f := by
    have hsplit := hprint
    rw [Tag.print_eq, Attribute.print_eq, List.append_assoc, List.append_assoc, List.cons_append] at hsplit
    rcases Text.exists_of_append_eq_cons_append hsplit with ⟨f, hf, -⟩ | ⟨w, hw, -⟩
    · exact ⟨f, hf⟩
    · have hmargin := Tag.not_isMargin_of_mem_lead htag (c := d.attr.blank) (by rw [hw]; simp)
      simp [Text.isMargin, hvalid.blank] at hmargin
  obtain ⟨f, hf⟩ := hlead
  have hne : d.back ≠ [] := by
    intro he
    have hlast := congrArg List.getLast? hprint
    rw [he, List.append_nil, Tag.getLast?_print, List.getLast?_append, Attribute.getLast?_print, Option.some_or,
      Option.some.injEq] at hlast
    have hquote := hvalid.quote
    rw [← hlast] at hquote
    exact absurd hquote (by decide)
  obtain ⟨b, c, hb⟩ := (List.eq_nil_or_concat d.back).resolve_left hne
  rw [List.concat_eq_append] at hb
  rw [hf, hb, Tag.print_eq, List.append_assoc, List.append_assoc, List.append_assoc] at hprint
  have hbody := List.append_cancel_left hprint
  rw [← List.append_assoc, ← List.append_assoc] at hbody
  obtain ⟨hbody, hc⟩ := List.append_inj' hbody rfl
  exact ⟨f, b, hf, by rw [hb, ← hc], by rw [hbody, List.append_assoc]⟩

theorem exists_stripped (htag : tag.Proper) (hd : ofTag? kind tag = some d) :
    ∃ f b : Text, d.front = tag.lead ++ f ∧ d.back = b ++ ['>'] ∧
      d.stripped = ({ tag with body := f ++ b } : Tag).print ∧
      (({ tag with body := f ++ b } : Tag).Proper ↔ ¬ (f = [] ∧ b.head?.any Text.isWord = true)) ∧
      (({ tag with body := f ++ b } : Tag).selfClosing = tag.selfClosing ↔ ¬ (f.getLast? = some '/' ∧ b = [])) := by
  have hvalid := valid_of_ofTag? hd
  obtain ⟨f, b, hf, hb, hbody⟩ := exists_body htag hd
  refine ⟨f, b, hf, hb, ?_, ?_, ?_⟩
  · rw [stripped, hf, hb, Tag.print_eq]
    simp [Tag.lead]
  · have hbracket : '>' ∉ f ++ b := fun hmem => htag.bracket (by
      rw [hbody]
      simp only [List.mem_append] at hmem ⊢
      tauto)
    have hboundary : (f ++ b).head?.any Text.isWord = true ↔ f = [] ∧ b.head?.any Text.isWord = true := by
      cases f with
      | nil => simp
      | cons c f =>
        have := htag.boundary
        rw [hbody] at this
        simpa using this
    rw [← hboundary, Bool.not_eq_true]
    exact ⟨fun h => h.boundary, fun h => ⟨htag.name, h, hbracket⟩⟩
  · have hquote : d.attr.quoted.quote ≠ '/' := fun he => absurd (he ▸ hvalid.quote) (by decide)
    simp only [Tag.selfClosing, hbody, List.getLast?_append, Attribute.getLast?_print]
    cases hlast : b.getLast? with
    | some c =>
      have hne : b ≠ [] := by
        rintro rfl
        simp at hlast
      simp [hne]
    | none =>
      rw [List.getLast?_eq_none_iff.1 hlast]
      simp [hquote]

/-- A word character behind the attribute goes on the name before it. -/
def GluesName (d : Directive) : Prop := d.front = d.tag.lead ∧ d.back.head?.any Text.isWord = true

/-- A slash before the attribute comes to stand at the end of the tag. -/
def GluesSlash (d : Directive) : Prop := d.front.getLast? = some '/' ∧ d.back = ['>']

theorem getLast?_lead_ne (htag : tag.Proper) : tag.lead.getLast? ≠ some '/' := by
  intro h
  have hname : tag.name ≠ [] := fun he => by simpa [he, Tag.isName] using htag.name
  rw [Tag.lead, ← List.cons_append, List.getLast?_append_of_ne_nil _ hname] at h
  exact absurd (Tag.isAlphanum_of_isName htag.name _ (List.mem_of_getLast? h)) (by decide)

/-- The scan finds the tag that was there in what is left of it, unless its parts are glued. -/
theorem ofText_stripped_iff (htag : tag.Proper) (hd : ofTag? kind tag = some d) :
    (∃ tag' : Tag, Markup.ofText d.stripped = [.lexeme tag'] ∧ tag'.name = tag.name ∧ tag'.closing = false ∧
        tag'.selfClosing = tag.selfClosing) ↔ ¬ d.GluesName ∧ ¬ d.GluesSlash := by
  obtain ⟨hdtag, hclosing, -⟩ := print_tag_of_ofTag? hd
  obtain ⟨f, b, hf, hb, hstripped, hproper, hself⟩ := exists_stripped htag hd
  have hname : d.GluesName ↔ f = [] ∧ b.head?.any Text.isWord = true := by
    have hend : (b ++ ['>']).head?.any Text.isWord = b.head?.any Text.isWord := by
      cases b with
      | nil => show (some '>').any Text.isWord = false; decide
      | cons c b => rfl
    rw [GluesName, hdtag, hf, hb, hend, List.append_right_eq_self]
  have hslash : d.GluesSlash ↔ f.getLast? = some '/' ∧ b = [] := by
    have hlast : (tag.lead ++ f).getLast? = some '/' ↔ f.getLast? = some '/' := by
      rw [List.getLast?_append]
      cases f.getLast? with
      | none => simpa using getLast?_lead_ne htag
      | some c => simp
    rw [GluesSlash, hf, hb, hlast]
    simp
  rw [hname, hslash, ← hproper, ← hself]
  constructor
  · rintro ⟨tag', hscan, htagname, htagclosing, htagself⟩
    have hprint : tag'.print = ({ tag with body := f ++ b } : Tag).print := by
      rw [← hstripped, ← Markup.text_ofText d.stripped, hscan, Markup.text_tag, Markup.text_nil, List.append_nil]
    have hproper' : tag'.Proper := Markup.proper_of_mem_tags (t := d.stripped) (by simp [hscan])
    obtain rfl : tag' = { tag with body := f ++ b } := by
      obtain ⟨closing, name, body⟩ := tag'
      subst htagname htagclosing
      have hbody : body ++ ['>'] = f ++ b ++ ['>'] := by simpa [Tag.print, hclosing] using hprint
      rw [List.append_cancel_right hbody, hclosing]
    exact ⟨hproper', htagself⟩
  · rintro ⟨hproper', hself'⟩
    refine ⟨{ tag with body := f ++ b }, ?_, rfl, hclosing, hself'⟩
    have hread := hproper'.read_print []
    rw [List.append_nil, ← hstripped] at hread
    rw [Markup.ofText_of_read hread, Markup.ofText_nil]

theorem of_locate {t : Text} {start : Nat} {l : Located} (h : locate kind t start = some l) :
    l.token.tag.Proper ∧ ofTag? kind l.token.tag = some l.directive := by
  obtain ⟨⟨front, d, rest⟩, hfind, rfl⟩ := Option.map_eq_some_iff.1 h
  have hmem : d.tag ∈ (Markup.ofText (t.drop (t.charsInBytes start))).tags := by
    rw [eq_append_of_find? hfind]
    simp
  exact ⟨Markup.proper_of_mem_tags hmem, ofTag?_of_find? hfind⟩

/-- If a directive is found in a text, then what is left of its tag without it is, scanned on its own, one tag of the
same name that opens an element if the tag did, unless the parts around the attribute are glued. -/
theorem tokensFrom_stripped_iff {t : Text} {start : Nat} {l : Located} (h : locate kind t start = some l) :
    (∃ tag : Tag,
        Markup.tokensFrom l.directive.stripped 0 = [⟨tag, 0, Text.byteLength l.directive.stripped⟩] ∧
          tag.name = l.token.tag.name ∧ tag.closing = false ∧ tag.selfClosing = l.token.tag.selfClosing) ↔
      ¬ l.directive.GluesName ∧ ¬ l.directive.GluesSlash := by
  obtain ⟨hproper, hd⟩ := of_locate h
  simp only [Markup.tokensFrom_zero_eq_singleton_iff]
  exact ofText_stripped_iff hproper hd

/-- The guard stands right behind a slash and right before a letter, but the slash does not come to stand at the end of
the tag, nor the letter behind its name. -/
theorem tokensFrom_stripped_iff_apart :
    let t := "é<A / *if = \"x\"b>".toList
    ∃ l, locate .guard t 2 = some l ∧
      ((∃ tag : Tag,
          Markup.tokensFrom l.directive.stripped 0 = [⟨tag, 0, Text.byteLength l.directive.stripped⟩] ∧
            tag.name = l.token.tag.name ∧ tag.closing = false ∧ tag.selfClosing = l.token.tag.selfClosing) ↔
        ¬ l.directive.GluesName ∧ ¬ l.directive.GluesSlash) := by
  intro t
  obtain ⟨l, hl⟩ : ∃ l, locate .guard t 2 = some l := Option.isSome_iff_exists.1 (by decide +kernel)
  exact ⟨l, hl, tokensFrom_stripped_iff hl⟩

/-- What is left of a tag may be one of another name, or one that closes itself although the tag did not. -/
theorem stripped_glued :
    (∃ l, locate .guard "<p *if='x'q>".toList 0 = some l ∧ l.token.tag.name = "p".toList ∧
      Markup.tokensFrom l.directive.stripped 0 = [⟨⟨false, "pq".toList, []⟩, 0, 4⟩]) ∧
    ∃ l, locate .guard "<a href=/ *if='x'>".toList 0 = some l ∧ l.token.tag.selfClosing = false ∧
      (Markup.tokensFrom l.directive.stripped 0).map (fun token => token.tag.selfClosing) = [true] := by
  constructor
  · obtain ⟨l, hl, he⟩ := Option.map_eq_some_iff.1
      (show (locate .guard "<p *if='x'q>".toList 0).map
          (fun l => (l.token.tag.name, Markup.tokensFrom l.directive.stripped 0)) =
        some ("p".toList, [⟨⟨false, "pq".toList, []⟩, 0, 4⟩]) by decide +kernel)
    exact ⟨l, hl, Prod.mk.inj he⟩
  · obtain ⟨l, hl, he⟩ := Option.map_eq_some_iff.1
      (show (locate .guard "<a href=/ *if='x'>".toList 0).map
          (fun l => (l.token.tag.selfClosing,
            (Markup.tokensFrom l.directive.stripped 0).map fun token => token.tag.selfClosing)) =
        some (false, [true]) by decide +kernel)
    exact ⟨l, hl, Prod.mk.inj he⟩

end Directive
end HtmlTemplate
