import HtmlTemplate.Proofs.Directive.Alike
import HtmlTemplate.Proofs.Markup.Scan

/-!
# Tags that stripping does not change

A directive is stripped by cutting its attribute out of the characters of its tag. What is left need
not be a tag of the same name, nor one that opens an element if the tag did. It is for the tags that
are `Tag.Steady`, and a tag stays steady when the paths in it change.
-/

namespace HtmlTemplate

namespace Tag

/-- Tags that are the same but for the paths in them. -/
structure Alike (s t : Tag) : Prop where
  closing : s.closing = t.closing
  name : s.name = t.name
  body : Text.Alike s.body t.body

namespace Alike

variable {s t : Tag}

theorem symm (h : s.Alike t) : t.Alike s := ⟨h.closing.symm, h.name.symm, h.body.symm⟩

theorem opensScope_eq (h : s.Alike t) : s.opensScope = t.opensScope := by
  have hself : s.selfClosing = t.selfClosing := by
    rw [Bool.eq_iff_iff]
    simpa [selfClosing] using h.body.getLast?_eq_iff (.inl (by decide))
  rw [opensScope, opensScope, h.closing, h.name, hself]

theorem print (h : s.Alike t) : Text.Alike s.print t.print := by
  rw [print_eq, print_eq, lead, lead, h.closing, h.name]
  exact ((Text.Alike.refl _).append h.body).append (.refl _)

theorem proper (h : s.Alike t) (hs : s.Proper) : t.Proper :=
  ⟨h.name ▸ hs.name, by rw [← h.body.head?_eq]; exact hs.boundary,
    fun hmem => hs.bracket ((h.body.mem_iff (by decide)).2 hmem)⟩

end Alike

theorem not_isMargin_of_mem_lead {tag : Tag} (h : tag.Proper) {c : Char} (hc : c ∈ tag.lead) :
    Text.isMargin c = false := by
  simp only [lead, List.mem_cons, List.mem_append] at hc
  rcases hc with rfl | hc | hc
  · decide
  · split at hc
    · rw [List.mem_singleton.1 hc]
      decide
    · simp at hc
  · have halnum := isAlphanum_of_isName h.name c hc
    by_contra hmargin
    rw [Bool.not_eq_false] at hmargin
    simp only [Text.isMargin, Text.isQuote, Bool.or_eq_true, beq_iff_eq] at hmargin
    rcases hmargin with ((hblank | (rfl | rfl)) | rfl) | rfl
    · have := Text.not_isWord_of_isBlank hblank
      simp [isWord_of_isAlphanum halnum] at this
    all_goals exact absurd halnum (by decide)

theorem Alike.read {x y : Text} {tag : Tag} (h : Text.Alike x y) (hx : Tag.read x = some (tag, [])) :
    ∃ tag', Tag.read y = some (tag', []) ∧ tag.Alike tag' := by
  have hproper := proper_of_read hx
  have heq := eq_append_of_read hx
  rw [List.append_nil, print_eq, List.append_assoc] at heq
  rw [heq] at h
  obtain ⟨y', rfl, hy'⟩ := h.exists_of_append fun c => not_isMargin_of_mem_lead hproper
  obtain ⟨body, v, rfl, hbody, hv⟩ := hy'.exists_of_append_cons (by decide)
  obtain rfl := (hv.of_cons (by decide)).eq_nil_iff.1 rfl
  have halike : tag.Alike ⟨tag.closing, tag.name, body⟩ := ⟨rfl, rfl, hbody⟩
  refine ⟨⟨tag.closing, tag.name, body⟩, ?_, halike⟩
  have hread := (halike.proper hproper).read_print []
  simpa [print_eq, lead] using hread

def load (tag : Tag) : Nat := tag.print.count '*'

theorem Alike.load_eq {s t : Tag} (h : s.Alike t) : s.load = t.load := h.print.count_eq (by decide)

/-- A property of tags that the paths in them do not matter for. -/
def Stable (P : Tag → Prop) : Prop := ∀ ⦃s t : Tag⦄, P s → s.Alike t → P t

/-- A tag without directives. -/
def Bare (tag : Tag) : Prop := ∀ kind, Directive.ofTag? kind tag = none

end Tag

namespace Directive

/-- A directive attribute that no path character follows. -/
def Apart (d : Directive) : Prop := d.back.head?.any isPathChar = false

theorem attributeName_eq (kind : DirectiveKind) :
    ∃ name : Text, kind.attributeName = '*' :: name ∧ ∀ c ∈ name, Text.isMargin c = false := by
  cases kind with
  | loop =>
    refine ⟨['f', 'o', 'r'], rfl, fun c hc => ?_⟩
    simp only [List.mem_cons, List.not_mem_nil, or_false] at hc
    rcases hc with rfl | rfl | rfl <;> decide
  | guard =>
    refine ⟨['i', 'f'], rfl, fun c hc => ?_⟩
    simp only [List.mem_cons, List.not_mem_nil, or_false] at hc
    rcases hc with rfl | rfl <;> decide

theorem exists_of_alike {kind : DirectiveKind} {s t : Tag} {d : Directive} (h : s.Alike t)
    (hs : ofTag? kind s = some d) :
    ∃ d', ofTag? kind t = some d' ∧ Text.Alike d.front d'.front ∧
      ∃ q, Text.isQuote q = true ∧ Text.Alike (q :: d.back) (q :: d'.back) := by
  obtain ⟨name, hkind, hname⟩ := attributeName_eq kind
  have hclosing := (print_tag_of_ofTag? hs).2.1
  rw [ofTag?, if_neg (by simp [hclosing]), hkind] at hs
  simp only [Option.map_eq_some_iff, Prod.exists] at hs
  obtain ⟨front, a, back, hfind, rfl⟩ := hs
  obtain ⟨front', a', back', hfind', hfront, hback⟩ := h.print.find? hname hfind
  refine ⟨⟨t, front', a', back'⟩, ?_, hfront, hback⟩
  rw [ofTag?, if_neg (by simp [← h.closing, hclosing]), hkind, hfind']
  rfl

theorem Apart.alike {q : Char} {s t : Text} (hs : s.head?.any isPathChar = false)
    (hq : Text.isQuote q = true) (h : Text.Alike (q :: s) (q :: t)) : Text.Alike s t := by
  generalize hx : q :: s = x at h
  generalize hy : q :: t = y at h
  cases h with
  | nil => simp at hx
  | cons c h =>
    obtain ⟨-, rfl⟩ := List.cons.inj hx
    obtain ⟨-, rfl⟩ := List.cons.inj hy
    exact h
  | path _ hu =>
    obtain ⟨rfl, rfl⟩ := List.cons.inj hx
    exfalso
    rcases hu.head with rfl | hhead
    · exact absurd hq (by decide)
    · rw [List.head?_append_of_ne_nil _ hu.ne_nil] at hs
      simp [hs] at hhead

theorem Bare.alike {s t : Tag} (h : s.Alike t) (hs : s.Bare) : t.Bare := by
  intro kind
  by_contra hne
  obtain ⟨d, hd⟩ := Option.ne_none_iff_exists'.1 hne
  obtain ⟨d', hd', -⟩ := exists_of_alike h.symm hd
  rw [hs kind] at hd'
  simp at hd'

theorem load_lt_of_ofTag? {kind : DirectiveKind} {tag tag' : Tag} {d : Directive}
    (h : ofTag? kind tag = some d) (hd : d.stripped = tag'.print) : tag'.load < tag.load := by
  obtain ⟨name, hkind, -⟩ := attributeName_eq kind
  have hprint := (print_tag_of_ofTag? h).2.2
  have hattr : 0 < (d.attr.print kind.attributeName).count '*' := by
    rw [List.count_pos_iff, hkind]
    simp [Attribute.print]
  rw [Tag.load, Tag.load, ← hd, hprint, stripped, List.count_append, List.count_append,
    List.count_append]
  omega

end Directive

/-- A tag of which stripping directives, in any order, leaves a tag of its name that opens an element
if it did. What is left has no brace directly after its name, nor before its end if it opens an
element, where a value could change the one or the other. -/
inductive Tag.Steady : Tag → Prop where
  | intro {tag : Tag} (head : tag.body.head? ≠ some '\x7b')
      (last : tag.opensScope = true → tag.body.getLast? ≠ some '\x7d')
      (apart : ∀ kind d, Directive.ofTag? kind tag = some d → d.Apart)
      (reads : ∀ kind d, Directive.ofTag? kind tag = some d → ∃ tag' : Tag,
        Tag.read d.stripped = some (tag', []) ∧ tag'.closing = tag.closing ∧
          tag'.name = tag.name ∧ tag'.opensScope = tag.opensScope)
      (next : ∀ kind d (tag' : Tag), Directive.ofTag? kind tag = some d →
        Tag.read d.stripped = some (tag', []) → tag'.Steady) : tag.Steady

namespace Tag.Steady

theorem of_bare {tag : Tag} (hbare : tag.Bare) (head : tag.body.head? ≠ some '\x7b')
    (last : tag.opensScope = true → tag.body.getLast? ≠ some '\x7d') : tag.Steady :=
  .intro head last (fun kind d h => by simp [hbare kind] at h) (fun kind d h => by simp [hbare kind] at h)
    fun kind d tag' h => by simp [hbare kind] at h

theorem alike {s t : Tag} (hs : s.Steady) (h : s.Alike t) : t.Steady := by
  induction hs generalizing t with
  | @intro s head last apart reads next ih =>
    -- a directive of `t` is one of `s`, and what it leaves is like what that one leaves
    have key : ∀ kind d', Directive.ofTag? kind t = some d' → ∃ d, Directive.ofTag? kind s = some d ∧
        d'.Apart ∧ Text.Alike d.stripped d'.stripped := by
      intro kind d' hd'
      obtain ⟨d, hd, -⟩ := Directive.exists_of_alike h.symm hd'
      obtain ⟨d'', hd'', hfront, q, hq, hback⟩ := Directive.exists_of_alike h hd
      obtain rfl : d' = d'' := Option.some.inj (hd'.symm.trans hd'')
      have hback' := Directive.Apart.alike (apart kind d hd) hq hback
      refine ⟨d, hd, ?_, hfront.append hback'⟩
      rw [Directive.Apart, ← hback'.head?_eq]
      exact apart kind d hd
    refine .intro ?_ ?_ ?_ ?_ ?_
    · rwa [← h.body.head?_eq]
    · rw [← h.opensScope_eq]
      exact fun hopens hlast => last hopens ((h.body.getLast?_eq_iff (.inr rfl)).2 hlast)
    · intro kind d' hd'
      obtain ⟨-, -, hapart, -⟩ := key kind d' hd'
      exact hapart
    · intro kind d' hd'
      obtain ⟨d, hd, -, hstripped⟩ := key kind d' hd'
      obtain ⟨tag, hread, hclosing, hname, hopens⟩ := reads kind d hd
      obtain ⟨tag', hread', halike⟩ := Alike.read hstripped hread
      exact ⟨tag', hread', by rw [← halike.closing, hclosing, h.closing],
        by rw [← halike.name, hname, h.name], by rw [← halike.opensScope_eq, hopens, h.opensScope_eq]⟩
    · intro kind d' tag' hd' hread'
      obtain ⟨d, hd, -, hstripped⟩ := key kind d' hd'
      obtain ⟨tag, hread, halike⟩ := Alike.read hstripped.symm hread'
      exact ih kind d tag hd hread halike.symm

end Tag.Steady
end HtmlTemplate
