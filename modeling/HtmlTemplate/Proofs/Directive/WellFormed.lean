import HtmlTemplate.Proofs.Directive.Rounds
import HtmlTemplate.Proofs.Directive.Stripped

/-!
# Well-formed directives

A tag has well-formed directives if every star in it begins one, with room before and behind it
(`Tag.WellFormed`). Such a tag stays one when a directive is stripped (`Tag.WellFormed.strip`) and when the
paths in it change (`Tag.WellFormed.alike`), so well-formed tags are under a discipline.
-/

namespace HtmlTemplate

/-- Whether a text begins with a blank, `>` or `/>`: what an attribute of a tag may end before. -/
def Text.partsAttribute : Text → Bool
  | '>' :: _ => true
  | '/' :: '>' :: _ => true
  | c :: _ => isBlank c
  | [] => false

/-- Tags in which every star begins a directive whose value has no star, with a blank before it that does
not follow a slash, and a blank or the end of the tag behind it. -/
def Tag.WellFormed (tag : Tag) : Prop :=
  ∀ before behind, tag.print = before ++ '*' :: behind →
    ∃ (kind : DirectiveKind) (front : Text) (a : Attribute) (back : Text), before = front ++ [a.blank] ∧
      Attribute.read kind.attributeName (a.blank :: '*' :: behind) = some (a, back) ∧
        '*' ∉ a.quoted.value ∧ front.getLast? ≠ some '/' ∧ back.partsAttribute = true

namespace Text

theorem partsAttribute_cases {t : Text} (h : t.partsAttribute = true) :
    (∃ r, t = '>' :: r) ∨ (∃ r, t = '/' :: '>' :: r) ∨ ∃ c r, t = c :: r ∧ isBlank c = true := by
  unfold partsAttribute at h
  split at h
  · next r => exact .inl ⟨r, rfl⟩
  · next r => exact .inr (.inl ⟨r, rfl⟩)
  · next c r _ _ => exact .inr (.inr ⟨c, r, rfl, h⟩)
  · simp at h

theorem partsAttribute_of_isBlank {c : Char} (h : isBlank c = true) (t : Text) :
    partsAttribute (c :: t) = true := by
  unfold partsAttribute
  split <;> simp_all

theorem not_partsAttribute_star (t : Text) : partsAttribute ('*' :: t) = false := by
  show isBlank '*' = false
  decide

theorem not_isPathChar_of_partsAttribute {t : Text} (h : t.partsAttribute = true) :
    t.head?.any isPathChar = false := by
  rcases partsAttribute_cases h with ⟨r, rfl⟩ | ⟨r, rfl⟩ | ⟨c, r, rfl, hc⟩
  · show isPathChar '>' = false
    decide
  · show isPathChar '/' = false
    decide
  · simpa using not_isPathChar_of_isBlank hc

theorem partsAttribute_append {y s t : Text} {c : Char} (h : partsAttribute (y ++ c :: s) = true)
    (hc : isBlank c = true) (ht : t.partsAttribute = true) : partsAttribute (y ++ t) = true := by
  cases y with
  | nil => exact ht
  | cons d y =>
    rcases partsAttribute_cases h with ⟨r, he⟩ | ⟨r, he⟩ | ⟨d', r, he, hd⟩
    · rw [(List.cons.inj he).1]
      rfl
    · obtain ⟨rfl, hrest⟩ := List.cons.inj he
      cases y with
      | nil =>
        rw [(List.cons.inj hrest).1] at hc
        exact absurd hc (by decide)
      | cons e y =>
        rw [(List.cons.inj hrest).1]
        rfl
    · rw [(List.cons.inj he).1]
      exact partsAttribute_of_isBlank hd _

theorem Alike.partsAttribute {s t : Text} (h : Alike s t) (hs : s.partsAttribute = true) :
    t.partsAttribute = true := by
  have hhead := h.head?_eq
  rcases partsAttribute_cases hs with ⟨r, rfl⟩ | ⟨r, rfl⟩ | ⟨c, r, rfl, hc⟩
  · obtain ⟨t', rfl⟩ := List.head?_eq_some_iff.1 hhead.symm
    rfl
  · have hmargin : ∀ c ∈ ['/', '>'], isMargin c = false :=
      List.forall_mem_cons.2 ⟨by decide, List.forall_mem_cons.2 ⟨by decide, by simp⟩⟩
    obtain ⟨t', rfl, -⟩ := exists_of_append hmargin h
    rfl
  · obtain ⟨t', rfl⟩ := List.head?_eq_some_iff.1 hhead.symm
    exact partsAttribute_of_isBlank hc t'

theorem Alike.exists_of_append_blank {s t : Text} {c : Char} (hc : isBlank c = true)
    (h : Alike (s ++ [c]) t) : ∃ t', t = t' ++ [c] ∧ Alike s t' := by
  generalize hx : s ++ [c] = x at h
  induction h generalizing s with
  | nil => simp at hx
  | @cons d x t h ih =>
    cases s with
    | nil =>
      obtain ⟨rfl, rfl⟩ := List.cons.inj hx
      rw [h.eq_nil_iff.1 rfl]
      exact ⟨[], rfl, .nil⟩
    | cons e s =>
      obtain ⟨rfl, hx'⟩ := List.cons.inj hx
      obtain ⟨t', rfl, h'⟩ := ih hx'
      exact ⟨e :: t', rfl, h'.cons e⟩
  | @path d f g x t hd hf hg hlast h ih =>
    cases s with
    | nil =>
      have := hf.ne_nil
      simp_all
    | cons e s =>
      obtain ⟨rfl, hx'⟩ := List.cons.inj hx
      rcases List.eq_nil_or_concat x with rfl | ⟨x', c', rfl⟩
      · obtain ⟨c', hc', hblank⟩ := hf.last
        have hf' : s ++ [c] = f := by rwa [List.append_nil] at hx'
        have hlast : f.getLast? = some c := by rw [← hf', List.getLast?_concat]
        rw [Option.some.inj (hc'.symm.trans hlast), hc] at hblank
        simp at hblank
      · rw [List.concat_eq_append, ← List.append_assoc] at hx'
        obtain ⟨rfl, hcc⟩ := List.append_inj' hx' rfl
        obtain ⟨rfl⟩ := List.cons.inj hcc
        rw [List.concat_eq_append] at ih
        obtain ⟨t', rfl, h'⟩ := ih rfl
        exact ⟨e :: (g ++ t'), by simp, .path hd hf hg hlast h'⟩

end Text

namespace Attribute

variable {a : Attribute}

theorem Valid.ne_star (h : a.Valid) : a.blank ≠ '*' ∧ a.quoted.quote ≠ '*' ∧ '*' ∉ a.equals := by
  obtain ⟨b, b', hb, hb', hequals⟩ := h.equals
  have hblank : ∀ {c : Char}, Text.isBlank c = true → '*' ≠ c := by
    rintro c hc rfl
    exact absurd hc (by decide)
  refine ⟨(hblank h.blank).symm, ?_, ?_⟩
  · intro he
    have := h.quote
    rw [he] at this
    exact absurd this (by decide)
  · rw [hequals]
    simp only [List.mem_append, List.mem_cons, not_or]
    exact ⟨fun hmem => hblank (hb _ hmem) rfl, by decide, fun hmem => hblank (hb' _ hmem) rfl⟩

theorem Valid.count_print (h : a.Valid) (name : Text) :
    (a.print name).count '*' = name.count '*' + a.quoted.value.count '*' := by
  obtain ⟨hblank, hquote, hequals⟩ := h.ne_star
  simp [print_eq, hblank, hquote, List.count_eq_zero_of_not_mem hequals]

theorem Valid.not_mem_behind (h : a.Valid) (kind : DirectiveKind) (hvalue : '*' ∉ a.quoted.value) :
    ∃ x : Text, a.print kind.attributeName = a.blank :: '*' :: x ∧ '*' ∉ x ∧
      x.getLast? = some a.quoted.quote := by
  obtain ⟨-, hquote, hequals⟩ := h.ne_star
  obtain ⟨name, hkind, -⟩ := Directive.attributeName_eq kind
  have hstar : '*' ∉ name := by
    cases kind with
    | loop => rw [← (List.cons.inj hkind).2]; decide
    | guard => rw [← (List.cons.inj hkind).2]; decide
  refine ⟨name ++ (a.equals ++ (a.quoted.quote :: (a.quoted.value ++ [a.quoted.quote]))), ?_, ?_, ?_⟩
  · rw [print_eq, hkind]
    rfl
  · simp [hstar, hequals, hvalue, hquote.symm]
  · simp [List.getLast?_append, List.getLast?_cons]

end Attribute

namespace Tag.WellFormed

open Directive (ofTag?)

variable {tag : Tag} {kind : DirectiveKind} {d : Directive}

theorem kind_eq {k k' : DirectiveKind} {a a' : Attribute} {t r r' : Text}
    (h : Attribute.read k.attributeName t = some (a, r))
    (h' : Attribute.read k'.attributeName t = some (a', r')) : k = k' := by
  have he := (Attribute.eq_append_of_read h).symm.trans (Attribute.eq_append_of_read h')
  rw [Attribute.print_eq, Attribute.print_eq] at he
  cases k <;> cases k' <;> simp_all [DirectiveKind.attributeName]

theorem of_ofTag? (h : tag.WellFormed) (hd : ofTag? kind tag = some d) :
    d.attr.Valid ∧ '*' ∉ d.value ∧ d.front.getLast? ≠ some '/' ∧ d.back.partsAttribute = true := by
  have hread := Directive.read_of_ofTag? hd
  have hvalid := Attribute.valid_of_read hread
  obtain ⟨name, hkind, -⟩ := Directive.attributeName_eq kind
  obtain ⟨x, hx⟩ : ∃ x : Text, d.attr.print kind.attributeName = d.attr.blank :: '*' :: x :=
    ⟨_, by rw [Attribute.print_eq, hkind]; rfl⟩
  have hprint : tag.print = (d.front ++ [d.attr.blank]) ++ '*' :: (x ++ d.back) := by
    rw [(Directive.print_tag_of_ofTag? hd).2.2, hx]
    simp
  obtain ⟨kind', front, a, back, hbefore, hread', hvalue, hslash, hback⟩ := h _ _ hprint
  obtain ⟨rfl, hblank⟩ := List.append_inj' hbefore rfl
  rw [hx, List.cons_append, List.cons_append, (List.cons.inj hblank).1] at hread
  obtain rfl := kind_eq hread hread'
  obtain ⟨rfl, rfl⟩ := Prod.mk.inj (Option.some.inj (hread.symm.trans hread'))
  exact ⟨hvalid, hvalue, hslash, hback⟩

theorem proper_stripped (h : tag.WellFormed) (hproper : tag.Proper) (hd : ofTag? kind tag = some d) :
    ∃ tag' : Tag, d.stripped = tag'.print ∧ tag'.Proper ∧ tag'.closing = tag.closing ∧
      tag'.name = tag.name ∧ tag'.opensScope = tag.opensScope := by
  obtain ⟨-, -, hslash, hback⟩ := h.of_ofTag? hd
  obtain ⟨f, b, hf, hb, hstripped, hproper', hself⟩ := Directive.exists_stripped hproper hd
  have hword : ¬ (f = [] ∧ b.head?.any Text.isWord = true) := by
    rintro ⟨-, hword⟩
    have hpath := Text.not_isPathChar_of_partsAttribute hback
    cases b with
    | nil => simp at hword
    | cons c b =>
      rw [hb] at hpath
      have hc : isPathChar c = false := by simpa using hpath
      simp only [isPathChar, Bool.or_eq_false_iff] at hc
      simp [hc.1] at hword
  have hopens := hself.2 fun hglued => hslash (by rw [hf, List.getLast?_append, hglued.1]; rfl)
  exact ⟨_, hstripped, hproper'.2 hword, rfl, rfl, by simp [opensScope, hopens]⟩

/-- A star before a directive of the tag begins one that ends before it, whatever may follow. -/
theorem exists_of_front (h : tag.WellFormed) (hd : ofTag? kind tag = some d) {before y : Text}
    (hfront : d.front = before ++ '*' :: y) :
    ∃ (kind' : DirectiveKind) (front : Text) (a : Attribute) (y' : Text), before = front ++ [a.blank] ∧
      (∀ r, Attribute.read kind'.attributeName (a.blank :: '*' :: (y ++ r)) = some (a, y' ++ r)) ∧
        '*' ∉ a.quoted.value ∧ front.getLast? ≠ some '/' ∧
          ∀ r, Text.partsAttribute r = true → Text.partsAttribute (y' ++ r) = true := by
  obtain ⟨hvalid, -⟩ := h.of_ofTag? hd
  have hprint := (Directive.print_tag_of_ofTag? hd).2.2
  obtain ⟨kind', front, a, back, rfl, hread, hvalue, hslash, hback⟩ :=
    h before (y ++ (d.attr.print kind.attributeName ++ d.back)) (by rw [hprint, hfront]; simp)
  have hvalid' := Attribute.valid_of_read hread
  obtain ⟨x, hx, hstar, hlast⟩ := hvalid'.not_mem_behind kind' hvalue
  have happ := Attribute.eq_append_of_read hread
  rw [hx, List.cons_append, List.cons_append] at happ
  have happ := (List.cons.inj (List.cons.inj happ).2).2
  obtain ⟨name, hkind, -⟩ := Directive.attributeName_eq kind
  rw [Attribute.print_eq, hkind] at happ
  -- the attribute has no further star, so it ends before the blank of the directive
  have hin : ∃ y', y = x ++ y' := by
    rcases List.append_eq_append_iff.1 happ with ⟨v, rfl, hv⟩ | ⟨y', rfl, -⟩
    · cases v with
      | nil => exact ⟨[], by simp⟩
      | cons c v =>
        obtain ⟨rfl, hrest⟩ := List.cons.inj hv
        cases v with
        | nil =>
          rw [List.getLast?_concat] at hlast
          have := Text.not_isBlank_of_isQuote hvalid'.quote
          rw [← Option.some.inj hlast, hvalid.blank] at this
          simp at this
        | cons c v =>
          obtain ⟨rfl, -⟩ := List.cons.inj hrest
          simp at hstar
    · exact ⟨y', rfl⟩
  obtain ⟨y', rfl⟩ := hin
  rw [List.append_assoc, List.append_cancel_left_eq] at happ
  rw [← happ] at hback
  refine ⟨kind', front, a, y', rfl, fun r => ?_, hvalue, hslash, fun r hr =>
    Text.partsAttribute_append hback hvalid.blank hr⟩
  have := hvalid'.read_print kind'.attributeName (y' ++ r)
  rw [hx] at this
  simpa using this

theorem stripped (h : tag.WellFormed) (hd : ofTag? kind tag = some d) {tag' : Tag}
    (hstripped : d.stripped = tag'.print) : tag'.WellFormed := by
  obtain ⟨-, -, hslash, hback⟩ := h.of_ofTag? hd
  have hprint := (Directive.print_tag_of_ofTag? hd).2.2
  intro before behind hsplit
  rw [← hstripped, Directive.stripped] at hsplit
  rcases Text.exists_of_append_eq_cons_append hsplit with ⟨w, rfl, hw⟩ | ⟨y, hfront, rfl⟩
  · -- the star stands behind the directive
    obtain ⟨kind', front, a, back, hbefore, hread, hvalue, hslash', hback'⟩ :=
      h (d.front ++ d.attr.print kind.attributeName ++ w) behind (by rw [hprint, hw]; simp)
    rcases List.eq_nil_or_concat w with rfl | ⟨w, c, rfl⟩
    · rw [hw, List.nil_append, Text.not_partsAttribute_star] at hback
      simp at hback
    · rw [List.concat_eq_append] at hbefore ⊢
      rw [← List.append_assoc] at hbefore ⊢
      obtain ⟨rfl, hc⟩ := List.append_inj' hbefore rfl
      refine ⟨kind', d.front ++ w, a, back, by rw [hc], hread, hvalue, ?_, hback'⟩
      rw [List.getLast?_append] at hslash' ⊢
      cases hwl : w.getLast? with
      | none => simpa using hslash
      | some c => simpa [hwl] using hslash'
  · -- the star stands before the directive
    obtain ⟨kind', front, a, y', hbefore, hread, hvalue, hslash', hparts⟩ := h.exists_of_front hd hfront
    exact ⟨kind', front, a, y' ++ d.back, hbefore, hread d.back, hvalue, hslash', hparts d.back hback⟩

/-- Well-formed directives stay so when the paths in a tag change. -/
theorem alike {s t : Tag} (hs : s.WellFormed) (h : s.Alike t) : t.WellFormed := by
  intro before behind hsplit
  have halike := h.symm.print
  rw [hsplit] at halike
  obtain ⟨u, v, hprint, hbefore, hbehind⟩ := halike.exists_of_append_cons (by decide)
  obtain ⟨kind, front, a, back, rfl, hread, hvalue, hslash, hback⟩ := hs u v hprint
  have hvalid := Attribute.valid_of_read hread
  obtain ⟨name, hkind, hname⟩ := Directive.attributeName_eq kind
  obtain ⟨front', rfl, hfront⟩ := hbefore.symm.exists_of_append_blank hvalid.blank
  have hattr : Text.Alike (a.blank :: '*' :: v) (a.blank :: '*' :: behind) := .cons _ hbehind.symm
  have hread' := hread
  rw [hkind] at hread
  obtain ⟨a', back', hread'', hquote, hends⟩ := hattr.read hname hread
  rw [← hkind] at hread''
  have hvalid' := Attribute.valid_of_read hread''
  have hback' := Directive.Apart.alike (Text.not_isPathChar_of_partsAttribute hback) hquote hends
  have hblank : a'.blank = a.blank := by
    have := Attribute.eq_append_of_read hread''
    rw [Attribute.print_eq] at this
    exact (List.cons.inj this).1.symm
  have hvalue' : '*' ∉ a'.quoted.value := by
    have hcount := hattr.count_eq (c := '*') (by decide)
    rw [Attribute.eq_append_of_read hread', Attribute.eq_append_of_read hread'', List.count_append,
      List.count_append, hvalid.count_print, hvalid'.count_print, hback'.count_eq (by decide),
      List.count_eq_zero_of_not_mem hvalue] at hcount
    exact List.count_eq_zero.1 (by omega)
  refine ⟨kind, front', a', back', by rw [hblank], by rw [hblank]; exact hread'', hvalue', ?_,
    hback'.partsAttribute hback⟩
  exact fun hlast => hslash ((hfront.getLast?_eq_iff (.inl (by decide))).2 hlast)

end Tag.WellFormed

/-- Whether a star between two texts begins a directive as `Tag.WellFormed` asks. -/
def Tag.beginsDirective (before behind : Text) : Bool :=
  match before.reverse with
  | [] => false
  | blank :: front =>
    [DirectiveKind.loop, .guard].any fun kind =>
      (Attribute.read kind.attributeName (blank :: '*' :: behind)).any fun (a, back) =>
        !a.quoted.value.contains '*' && front.head? != some '/' && back.partsAttribute

theorem Tag.beginsDirective_iff {before behind : Text} : beginsDirective before behind = true ↔
    ∃ (kind : DirectiveKind) (front : Text) (a : Attribute) (back : Text), before = front ++ [a.blank] ∧
      Attribute.read kind.attributeName (a.blank :: '*' :: behind) = some (a, back) ∧
        '*' ∉ a.quoted.value ∧ front.getLast? ≠ some '/' ∧ back.partsAttribute = true := by
  rcases List.eq_nil_or_concat before with rfl | ⟨front, blank, rfl⟩
  · simp [beginsDirective]
  · have hblank : ∀ {kind : DirectiveKind} {a : Attribute} {back : Text},
        Attribute.read kind.attributeName (blank :: '*' :: behind) = some (a, back) → blank = a.blank := by
      intro kind a back h
      have := Attribute.eq_append_of_read h
      rw [Attribute.print_eq] at this
      exact (List.cons.inj this).1
    have hkinds : ∀ P : DirectiveKind → Prop, (∃ kind ∈ [DirectiveKind.loop, .guard], P kind) ↔ ∃ kind, P kind :=
      fun P => ⟨fun ⟨kind, _, h⟩ => ⟨kind, h⟩, fun ⟨kind, h⟩ => ⟨kind, by cases kind <;> simp, h⟩⟩
    simp only [beginsDirective, List.concat_eq_append, List.reverse_append, List.reverse_cons,
      List.reverse_nil, List.nil_append, List.singleton_append, List.any_eq_true, hkinds, Option.any_eq_true,
      Bool.and_eq_true, Bool.not_eq_true', List.contains_eq_mem, decide_eq_false_iff_not, bne_iff_ne,
      List.head?_reverse, Prod.exists]
    constructor
    · rintro ⟨kind, a, back, hread, ⟨hvalue, hslash⟩, hback⟩
      obtain rfl := hblank hread
      exact ⟨kind, front, a, back, rfl, hread, hvalue, hslash, hback⟩
    · rintro ⟨kind, front', a, back, hbefore, hread, hvalue, hslash, hback⟩
      obtain ⟨rfl, hb⟩ := List.append_inj' hbefore rfl
      obtain rfl : blank = a.blank := (List.cons.inj hb).1
      exact ⟨kind, a, back, hread, ⟨hvalue, hslash⟩, hback⟩

theorem Tag.wellFormed_iff {tag : Tag} : tag.WellFormed ↔ ∀ i < tag.print.length,
    tag.print[i]? = some '*' → beginsDirective (tag.print.take i) (tag.print.drop (i + 1)) = true := by
  constructor
  · intro h i hi hstar
    rw [beginsDirective_iff]
    refine h _ _ ?_
    rw [← (List.getElem?_eq_some_iff.1 hstar).2, List.getElem_cons_drop, List.take_append_drop]
  · intro h before behind hsplit
    rw [← beginsDirective_iff]
    simpa [hsplit] using h before.length (by simp [hsplit]) (by simp [hsplit])

instance (tag : Tag) : Decidable tag.WellFormed := decidable_of_iff _ Tag.wellFormed_iff.symm

/-- The discipline of tags with well-formed directives. -/
def Discipline.wellFormed : Discipline where
  tag tag := tag.Proper ∧ tag.WellFormed
  stable _ _ h halike := ⟨halike.proper h.1, h.2.alike halike⟩
  strip tag h kind d hd := by
    obtain ⟨tag', hstripped, hproper, hclosing, hname, hopens⟩ := h.2.proper_stripped h.1 hd
    have hread := hproper.read_print []
    rw [List.append_nil, ← hstripped] at hread
    exact ⟨tag', hread, hclosing, hname, hopens, hproper, h.2.stripped hd hstripped⟩
  firm _ := True

/-! ## Texts -/

/-- A text whose tags have well-formed directives, none of them right behind `<` or `</`. -/
structure Directive.WellFormed (t : Text) : Prop where
  tags : ∀ tag ∈ (Markup.ofText t).tags, tag.WellFormed
  apart : ∀ u w tag v, Markup.ofText t = u ++ .char '<' :: (w.map .char ++ .lexeme tag :: v) →
    w = [] ∨ w = ['/'] → tag.Bare

theorem Directive.WellFormed.of_not_mem {t : Text} (htags : ∀ tag ∈ (Markup.ofText t).tags, tag.WellFormed)
    (hopen : .char '<' ∉ Markup.ofText t) : WellFormed t :=
  ⟨htags, fun u w tag v huv => absurd (by rw [huv]; simp) hopen⟩

theorem Text.exists_tail (t : Text) :
    ∃ main tail : Text, t = main ++ tail ∧ '>' ∉ tail ∧ (main = [] ∨ main.getLast? = some '>') := by
  induction t with
  | nil => exact ⟨[], [], rfl, by simp, .inl rfl⟩
  | cons c t ih =>
    obtain ⟨main, tail, rfl, htail, hmain | hlast⟩ := ih
    · by_cases hc : c = '>'
      · exact ⟨[c], tail, by simp [hmain], htail, .inr (by simp [hc])⟩
      · exact ⟨[], c :: tail, by simp [hmain], by simp [htail, Ne.symm hc], .inl rfl⟩
    · refine ⟨c :: main, tail, rfl, htail, .inr ?_⟩
      rw [List.getLast?_cons, hlast]
      rfl

theorem Text.end_mem_of_ended {t u v : Text} (h : t = [] ∨ t.getLast? = some '>') (ht : t = u ++ '<' :: v) : '>' ∈ v := by
  subst ht
  rcases h with hnil | hlast
  · simp at hnil
  · rw [List.getLast?_append_of_ne_nil _ (by simp)] at hlast
    have hmem := List.mem_of_getLast? hlast
    simpa using hmem

/-- The markup up to the last `>` of such a text is what a scan finds again. -/
theorem Directive.WellFormed.sealed_main {main tail : Text} (h : WellFormed (main ++ tail)) (htail : '>' ∉ tail)
    (hmain : main = [] ∨ main.getLast? = some '>') :
    Markup.Sealed Discipline.wellFormed.firm Tag.Bare (Markup.ofText main) := by
  have hscan := Markup.ofText_append_of_not_mem_end htail main
  refine Markup.sealed_ofText (fun u v => Text.end_mem_of_ended hmain) (fun _ _ => trivial) fun u w v huv hw => ?_
  refine ⟨fun _ _ => trivial, fun tag htag => ?_⟩
  obtain ⟨v', rfl⟩ := List.head?_eq_some_iff.1 htag
  exact h.apart u w tag (v' ++ tail.map .char) (by rw [hscan, huv]; simp) hw

namespace Nested

open Markup (Sealed)

variable {x : Markup} {tail : Text} {F : Forest}

theorem exists_of_wellFormed {t : Text} (hbalanced : Markup.Balanced t) (h : Directive.WellFormed t) :
    ∃ x tail F, Nested .wellFormed [] x [] tail F ∧ t = (document [] x [] tail).text := by
  obtain ⟨main, tail, rfl, htail, hmain⟩ := Text.exists_tail t
  have hscan := Markup.ofText_append_of_not_mem_end htail main
  have htags : (Markup.ofText (main ++ tail)).tags = (Markup.ofText main).tags := by
    rw [hscan]
    simp
  have hsealed := h.sealed_main htail hmain
  obtain ⟨F, hF, hFtags⟩ := Forest.checkTags_eq_ok_iff.1 (Markup.balanced_iff.1 hbalanced)
  refine ⟨Markup.ofText main, tail, F, ⟨by simpa using hsealed, by simp, by simp, htail, fun tag htag => ?_, hF,
    hFtags.trans htags⟩, by simp [document]⟩
  rw [← htags] at htag
  exact ⟨Markup.proper_of_mem_tags htag, h.tags tag htag⟩

theorem balanced {R : Discipline} (h : Nested R [] x [] tail F) :
    Markup.Balanced (document [] x [] tail).text := by
  rw [Markup.balanced_iff, h.ofText_text]
  exact Forest.checkTags_eq_ok_iff.2 ⟨F, h.matched, by simp [document, h.tags]⟩

theorem wellFormed (h : Nested .wellFormed [] x [] tail F) :
    Directive.WellFormed (document [] x [] tail).text where
  tags tag htag := by
    rw [h.ofText_text] at htag
    exact (h.kept tag (by simpa [document] using htag)).2
  apart u w tag v huv hw := by
    rw [h.ofText_text] at huv
    have hsplit : x ++ tail.map Piece.char = (u ++ .char '<' :: w.map .char) ++ .lexeme tag :: v := by
      simpa [document] using huv
    have hsealed : Sealed Discipline.wellFormed.firm Tag.Bare x := by simpa using h.isSealed
    rcases Text.exists_of_append_eq_cons_append hsplit with ⟨y, -, hy⟩ | ⟨v', rfl, -⟩
    · have hmem : .lexeme tag ∈ tail.map Piece.char := by simp [hy]
      simp at hmem
    · rw [List.append_assoc, List.cons_append] at hsealed
      exact hsealed.of_behind hw

end Nested
end HtmlTemplate
