import HtmlTemplate.Engine
import HtmlTemplate.Library
import HtmlTemplate.Proofs.Comment.Digits
import HtmlTemplate.Proofs.Directive.Survivors
import HtmlTemplate.Proofs.Markup.Shape
import HtmlTemplate.Proofs.Markup.Span

/-!
# Which templates render

The check after rendering is there for defects of the rewriting. A template of one element passes it
with all data if no value can touch a tag and no directive is needed to keep one in shape
(`Engine.renderSource_of_robust`): what is left to go wrong is the source or the expression of a loop.
Without that the data decide whether a document passes (`Engine.renderSource_slash_value`).
-/

namespace HtmlTemplate

/-! ## Interpolation -/

namespace Placeholder

theorem not_mem_interpolate {c : Char} (hc : isDelimiter c = true) (s : Scope) {t : Text} (ht : c ∉ t) :
    c ∉ interpolate s t := by
  intro hmem
  obtain ⟨piece, hpiece, hmem'⟩ := List.mem_flatMap.1 hmem
  cases piece with
  | char d =>
    obtain rfl : c = d := by simpa [Piece.print] using hmem'
    apply ht
    rw [← pattern.print_pieces t]
    exact List.mem_flatMap.2 ⟨.char c, hpiece, by simp [Piece.print]⟩
  | lexeme p => simp [not_isDelimiter_of_mem_value hmem'] at hc

theorem local_interpolate (s : Scope) : Text.Local (· ≠ '\x7b') (interpolate s) := by
  refine pattern.local_replace ?_ ?_ ?_ ?_ ?_
  · exact read_stopsAt (by decide) (by decide) (by decide) (by decide)
  · exact read_stopsAt (by decide) (by decide) (by decide) (by decide)
  · intro t p rest h
    rw [eq_append_of_read h]
    rfl
  · intro t p rest _ hmem
    exact absurd (not_isDelimiter_of_mem_value hmem) (by decide)
  · intro t p rest x h hx hne
    exact absurd (Option.some.inj hx).symm hne

theorem getLast?_interpolate (s : Scope) {t : Text} (ht : t.getLast? ≠ some '\x7d') :
    (interpolate s t).getLast? = t.getLast? := by
  have hprint := pattern.print_pieces t
  rcases List.eq_nil_or_concat (pattern.pieces t) with hnil | ⟨ps, piece, hps⟩
  · rw [hnil] at hprint
    rw [interpolate, Pattern.replace, hnil, ← hprint]
    rfl
  · rw [List.concat_eq_append] at hps
    rw [hps, List.flatMap_append] at hprint
    rw [interpolate, Pattern.replace, hps, List.flatMap_append]
    cases piece with
    | char c => simp [← hprint, Piece.print]
    | lexeme p =>
      exfalso
      apply ht
      rw [← hprint]
      simp [Piece.print, pattern, print, closeBraces]

end Placeholder

open Markup (Sealed)

theorem Tag.Steady.interpolate {tag : Tag} (h : tag.Steady) (hproper : tag.Proper) (s : Scope) :
    (tag.mapBody (Placeholder.interpolate s)).Proper ∧
      Forest.Same (fun _ => 0) tag (tag.mapBody (Placeholder.interpolate s)) := by
  have hlocal := Placeholder.local_interpolate s
  cases h with
  | intro head last _ _ _ =>
    refine ⟨⟨hproper.name, ?_, Placeholder.not_mem_interpolate (by decide) s hproper.bracket⟩,
      ⟨rfl, rfl, ?_, le_rfl⟩⟩
    · show (Placeholder.interpolate s tag.body).head?.any Text.isWord = false
      cases hbody : tag.body with
      | nil => simp [hlocal.nil]
      | cons c t =>
        rw [hbody] at head
        rw [hlocal.head c t (by simpa using head)]
        have := hproper.boundary
        rwa [hbody] at this
    · by_cases hlast : tag.body.getLast? = some '\x7d'
      · have hnot : tag.opensScope = false := by
          by_contra hopens
          exact last (by simpa using hopens) hlast
        have hself : tag.selfClosing = false := by simp [Tag.selfClosing, hlast]
        simp only [Tag.opensScope, hself, Bool.not_false, Bool.and_true] at hnot ⊢
        rw [Tag.closing_mapBody, Tag.name_mapBody]
        revert hnot
        cases tag.closing <;> cases Tag.isVoidName tag.name <;> simp
      · rw [Tag.opensScope, Tag.opensScope, Tag.selfClosing, Tag.selfClosing, Tag.closing_mapBody,
          Tag.name_mapBody, Tag.body_mapBody, Placeholder.getLast?_interpolate s hlast]

/-- Tags that values cannot change, and no brace behind a `<` that begins no tag. -/
def Discipline.steady : Discipline where
  tag := Tag.Steady
  stable _ _ hs h := hs.alike h
  strip t ht kind d hd := by
    cases ht with
    | intro _ _ _ reads next =>
      obtain ⟨t', hread, hclosing, hname, hopens⟩ := reads kind d hd
      exact ⟨t', hread, hclosing, hname, hopens, next kind d t' hd hread⟩
  firm := (· ≠ '\x7b')

/-- A text that begins with `<` and ends with `>`, apart from blanks. -/
def Text.Delimited (t : Text) : Prop :=
  ∃ b mid b' : Text, (∀ c ∈ b, isBlank c = true) ∧ (∀ c ∈ b', isBlank c = true) ∧
    t = b ++ '<' :: (mid ++ '>' :: b')

theorem Text.Delimited.delimited {t : Text} (h : t.Delimited) : Markup.delimited t = true := by
  obtain ⟨b, mid, b', hb, hb', rfl⟩ := h
  have hfind : ∀ {b r : Text} {c : Char}, (∀ d ∈ b, isBlank d = true) → isBlank c = false →
      (b ++ c :: r).find? isSolid = some c := by
    intro b r c hb hc
    have hnone : b.find? isSolid = none :=
      List.find?_eq_none.2 fun d hd => by simp [isSolid, hb d hd]
    rw [List.find?_append, hnone, Option.none_or, List.find?_cons_of_pos (by simp [isSolid, hc])]
  have hreverse : (b ++ '<' :: (mid ++ '>' :: b')).reverse =
      b'.reverse ++ '>' :: (mid.reverse ++ '<' :: b.reverse) := by simp
  rw [Markup.delimited_eq, hreverse, hfind hb (by decide),
    hfind (fun d hd => hb' d (List.mem_reverse.1 hd)) (by decide)]
  rfl

theorem Text.Delimited.interpolate {t : Text} (h : t.Delimited) (s : Scope) :
    (Placeholder.interpolate s t).Delimited := by
  obtain ⟨b, mid, b', hb, hb', rfl⟩ := h
  have hlocal := Placeholder.local_interpolate s
  have hblank : ∀ {b : Text}, (∀ c ∈ b, isBlank c = true) → Placeholder.interpolate s b = b := by
    intro b hb
    have hfirst : Placeholder.pattern.OpensWith (· == '\x7b') := fun t p rest hread => by
      rw [Placeholder.eq_append_of_read hread]
      rfl
    refine hfirst.replace_eq _ fun c hc => ?_
    by_contra hne
    rw [Bool.not_eq_false, beq_iff_eq] at hne
    rw [hne] at hc
    exact absurd (hb _ hc) (by decide)
  exact ⟨b, Placeholder.interpolate s mid, b', hb, hb', by
    rw [hlocal.opening, hlocal.closing, hblank hb, hblank hb']⟩

/-- A document of sound markup passes the check when its values are filled in. -/
theorem Sound.check_interpolate {m : Markup} {F : Forest} (h : Sound .steady m F) (hdelimited : m.text.Delimited)
    (s : Scope) : Markup.check (Placeholder.interpolate s m.text) = .ok () := by
  have hlocal := Placeholder.local_interpolate s
  have hproper : ∀ tag ∈ m.tags, tag.Proper := fun tag => h.isSealed.proper
  have hpass : Sealed (· ≠ '\x7b') (fun _ => True) (Markup.pass (Placeholder.interpolate s) [] m) :=
    Markup.sealed_pass hlocal h.isSealed (fun tag htag =>
      ⟨(Tag.Steady.interpolate (h.kept tag htag) (hproper tag htag) s).1, fun _ => trivial⟩) (by simp)
  have htext := Markup.text_pass hlocal hproper []
  rw [List.nil_append] at htext
  have hsame : List.Forall₂ (Forest.Same fun _ => 0) F.tags
      (m.tags.map (Tag.mapBody (Placeholder.interpolate s))) := by
    rw [h.tags, List.forall₂_map_right_iff, List.forall₂_same]
    exact fun tag htag => (Tag.Steady.interpolate (h.kept tag htag) (hproper tag htag) s).2
  obtain ⟨F', hF', htags, -⟩ := Forest.exists_same h.matched hsame
  have hcheck := Forest.checkTags_eq_ok_iff.2 ⟨F', hF', htags⟩
  rw [Markup.check, ← htext, hpass.ofText_text, Markup.tags_pass, hcheck, htext]
  simp [(hdelimited.interpolate s).delimited]

/-! ## Includes -/

theorem Text.infix_fill {α : Type} {f g : α → Text} {mark : Text} {x y : Char} (hxy : x ≠ y)
    (hf : ∀ a, ∃ r, f a = '<' :: y :: r ∧ '<' ∉ y :: r) (hmark : '<' ∉ x :: mark)
    {ps : List (Piece α)} (h : '<' :: x :: mark <:+: fill f ps) : '<' :: x :: mark <:+: fill g ps := by
  induction ps with
  | nil => simp at h
  | cons piece ps ih =>
    cases piece with
    | char c =>
      rw [fill_char, List.infix_cons_iff] at h ⊢
      refine h.imp (fun hprefix => ?_) ih
      obtain ⟨rfl, hrest⟩ := List.cons_prefix_cons.1 hprefix
      refine List.cons_prefix_cons.2 ⟨rfl, prefix_fill (fun a _ => ⟨'<', ?_, hmark⟩) hrest⟩
      obtain ⟨r, hr, -⟩ := hf a
      rw [hr]
      rfl
    | lexeme a =>
      obtain ⟨r, hr, hopen⟩ := hf a
      obtain ⟨u, v, huv⟩ := h
      rw [fill_hole, hr, List.append_assoc, List.cons_append, List.cons_append] at huv
      rw [fill_hole]
      cases u with
      | nil =>
        obtain ⟨-, hrest⟩ := List.cons.inj huv
        exact absurd (List.cons.inj hrest).1 hxy
      | cons c u =>
        obtain ⟨-, hrest⟩ := List.cons.inj huv
        obtain ⟨w, -, hw⟩ := exists_of_append_eq_append_cons hrest.symm hopen
        exact (ih ⟨w, v, by rw [hw]; simp⟩).trans (List.suffix_append _ _).isInfix

namespace IncludeMarker

theorem infix_of_extract {markup : Text} (h : opening <:+: (Comment.extract markup).1) :
    opening <:+: markup := by
  have hmarker : ∀ a : Comment × Nat, ∃ r, Comment.marker a.2 = '<' :: '!' :: r ∧ '<' ∉ '!' :: r := by
    intro a
    have hnumeral : '<' ∉ Text.numeral a.2 := fun hmem =>
      absurd (Comment.isDigit_of_mem_numeral hmem) (by decide)
    exact ⟨Comment.markerStem.drop 2 ++ Text.numeral a.2 ++ Comment.ending, rfl, by
      simp [Comment.markerStem, Comment.opening, Comment.ending, hnumeral]⟩
  rw [Comment.extract_fst] at h
  have hfill := Text.infix_fill (g := fun a => Comment.print a.1) (by decide) hmarker (by simp) h
  rwa [Comment.fill_numbered, show Text.fill Comment.print (Comment.pattern.pieces markup) = markup from
    Comment.pattern.print_pieces markup] at hfill

theorem resolve_of_not_infix {t : Text} (h : ¬ opening <:+: t)
    (load : Text → Except LoadFailure Text) (table : Comment.Table) :
    resolve load t table = .ok (t, table) := by
  induction t with
  | nil => simp [resolve, resolvePieces]
  | cons c t ih =>
    rw [List.infix_cons_iff, not_or] at h
    have hread : pattern.read (c :: t) = none := by
      cases hr : pattern.read (c :: t) with
      | none => rfl
      | some found =>
        exfalso
        apply h.1
        rw [pattern.eq_append hr]
        exact ⟨_, by simp [pattern, print, List.append_assoc]; rfl⟩
    have ih' := ih h.2
    rw [resolve] at ih' ⊢
    rw [pattern.pieces_cons_of_read_none hread, resolvePieces, ih']

end IncludeMarker
/-! ## Texts without directives -/

theorem Markup.bare_of_closing {tag : Tag} (h : tag.closing = true) : tag.Bare := by
  intro kind
  rw [Directive.ofTag?, if_pos h]

theorem Markup.find?_eq_none {m : Markup} (h : ∀ tag ∈ m.tags, tag.Bare) (kind : DirectiveKind) :
    Directive.find? kind m = none := by
  by_contra hne
  obtain ⟨⟨front, d, rest⟩, hfind⟩ := Option.ne_none_iff_exists'.1 hne
  have hd := Directive.ofTag?_of_find? hfind
  rw [Directive.eq_append_of_find? hfind] at h
  simp [h d.tag (by simp) kind] at hd

namespace Directive

variable {t : Text}

theorem expand_of_bare (h : ∀ tag ∈ (Markup.ofText t).tags, tag.Bare) (data : Value) :
    expand t data = (.ok t, (Scope.ofData data).reserve t) := by
  have hpos : 0 < roundBound t ((Scope.ofData data).reserve t) := Nat.pow_pos (Nat.succ_pos _)
  obtain ⟨rounds, hrounds⟩ := Nat.exists_eq_succ_of_ne_zero hpos.ne'
  rw [expand, expandIn, hrounds, expandRounds, Markup.find?_eq_none h]

theorem select_of_bare (h : ∀ tag ∈ (Markup.ofText t).tags, tag.Bare) (s : Scope) : select s t = .ok t := by
  rw [select]
  split
  · rfl
  · next hfind =>
    rw [Markup.find?_eq_none h] at hfind
    simp at hfind

end Directive

namespace Nested

variable {R : Discipline} {pre x post : Markup} {tail : Text} {F : Forest}

theorem exists_expand (h : Nested R pre x post tail F) (data : Value) :
    (∃ e s, Directive.expand (document pre x post tail).text data = (.error e, s) ∧ e.IsLoopFault) ∨
      ∃ u s x' F', Directive.expand (document pre x post tail).text data = (.ok u, s) ∧
        Directive.select s u = .ok (document pre x' post tail).text ∧ Nested R pre x' post tail F' := by
  rcases h.exists_expandIn ((Scope.ofData data).reserve (document pre x post tail).text) with
    ⟨e, s, he, hfault⟩ | ⟨x', F', s, he, h', -⟩
  · exact .inl ⟨e, s, he, hfault⟩
  · obtain ⟨x'', F'', hselect, h'', -⟩ := h'.exists_select s
    exact .inr ⟨_, s, x'', F'', he, hselect, h''⟩

end Nested

/-! ## Markup between blanks -/

/-- Markup with characters before and behind it. -/
def Markup.padded (b b' : Text) (m : Markup) : Markup := b.map .char ++ (m ++ b'.map .char)

theorem document_eq_padded (b b' : Text) (o c : Tag) (x : Markup) :
    document (b.map .char ++ [.lexeme o]) x (.lexeme c :: b'.map .char) [] =
      Markup.padded b b' (.lexeme o :: (x ++ [.lexeme c])) := by
  simp [document, Markup.padded]

section Padded

open Markup (padded)

variable {R : Discipline} {b b' : Text} {o c : Tag} {x m : Markup} {F : Forest}

theorem Sound.nested (h : Sound R (padded b b' (.lexeme o :: (x ++ [.lexeme c]))) (.element o F c .nil))
    (ho : o.Bare) (hx : F.tags = x.tags) :
    Nested R (b.map .char ++ [.lexeme o]) x (.lexeme c :: b'.map .char) [] F := by
  obtain ⟨hopens, hclose, hname, hF, -⟩ := h.matched
  have hsealed := h.isSealed
  rw [← document_eq_padded, document, List.map_nil, List.append_nil] at hsealed
  refine ⟨hsealed, by simpa using ho, ?_, by simp, fun tag htag => h.kept tag ?_, hF, hx⟩
  · simpa using Markup.bare_of_closing hclose
  · simp [padded, htag]

theorem Nested.sound (h : Nested R (b.map .char ++ [.lexeme o]) x (.lexeme c :: b'.map .char) [] F)
    (ho : R.tag o) (hc : R.tag c) (hopens : o.opensScope = true) (hclose : c.closing = true)
    (hname : c.name.lower = o.name.lower) :
    Sound R (padded b b' (.lexeme o :: (x ++ [.lexeme c]))) (.element o F c .nil) := by
  have hsealed := h.isSealed
  refine ⟨?_, fun tag htag => ?_, ⟨hopens, hclose, hname, h.matched, trivial⟩, ?_⟩
  · rwa [← document_eq_padded, document, List.map_nil, List.append_nil]
  · simp only [padded, Markup.tags_append, Markup.tags_map_char, Markup.tags_tag, Markup.tags_nil, List.cons_append,
      List.nil_append, List.append_nil, List.mem_cons, List.mem_append, List.not_mem_nil, or_false] at htag
    rcases htag with rfl | htag | rfl
    · exact ho
    · exact h.kept tag htag
    · exact hc
  · simp [Forest.tags, h.tags, padded]

theorem Tag.exists_print (tag : Tag) : ∃ mid, tag.print = '<' :: (mid ++ ['>']) :=
  ⟨(if tag.closing then ['/'] else []) ++ tag.name ++ tag.body, rfl⟩

theorem delimited_padded (hb : ∀ c ∈ b, Text.isBlank c = true) (hb' : ∀ c ∈ b', Text.isBlank c = true) (mid : Text)
    (hm : m.text = '<' :: (mid ++ ['>'])) : (padded b b' m).text.Delimited :=
  ⟨b, mid, b', hb, hb', by simp [padded, hm]⟩

end Padded

/-! ## Templates of one element -/

namespace Markup

/-- A text that is one element whose opening tag carries no directive. -/
def IsElement (t : Text) : Prop :=
  ∃ (o : Tag) (inside : Markup), ofText t = .lexeme o :: inside ∧ o.closing = false ∧ o.Bare ∧
    cutSpan o inside = some (inside, [])

/-- A text whose tags no value and no missing element can change: stripping directives keeps them in
shape, and no `<` outside of tags stands before a brace or a tag that may disappear. -/
structure Robust (t : Text) : Prop where
  strays : Careful Tag.Bare (ofText t)
  tags : ∀ tag ∈ (ofText t).tags, tag.Steady

theorem IsElement.getLast? {t : Text} (h : IsElement t) : t.getLast? = some '>' := by
  obtain ⟨o, inside, hmarkup, -, -, hcut⟩ := h
  rw [← text_ofText t, hmarkup, text_tag]
  exact getLast?_text_of_cutSpan hcut

/-- No value gets into the tags of a robust element, or makes a new one. -/
theorem Robust.isSealed {t : Text} (h : Robust t) (helement : IsElement t) :
    Sealed (· ≠ '\x7b') Tag.Bare (ofText t) := by
  refine sealed_ofText (fun u v huv => ?_) (fun c hc he => absurd (he ▸ hc) (by decide)) h.strays.spaced
  have hlast := helement.getLast?
  rcases List.eq_nil_or_concat v with rfl | ⟨v, c, rfl⟩
  · simp [huv] at hlast
  · rw [huv, List.concat_eq_append, ← List.cons_append, ← List.append_assoc, List.getLast?_concat] at hlast
    obtain rfl := Option.some.inj hlast
    simp

/-- Where tags close in order, an opening tag whose span is all that follows begins an element that is the whole. -/
theorem exists_element_of_cutSpan {o : Tag} {inside : Markup} (h : checkTags [] (o :: inside.tags) = .ok ())
    (hclosing : o.closing = false) (hcut : cutSpan o inside = some (inside, [])) :
    ∃ E : Forest, Forest.Element o inside E := by
  obtain ⟨F, hF, htags⟩ := Forest.checkTags_eq_ok_iff.1 h
  obtain ⟨E, inside', after, rfl, hE, -⟩ := Forest.exists_element hF
    (show F.tags = Markup.tags [] ++ o :: inside.tags from htags) hclosing
  have hspan := hE.cutSpan after
  rw [hcut] at hspan
  obtain rfl : after = [] := (Prod.mk.inj (Option.some.inj hspan)).2.symm
  exact ⟨E, by rwa [List.append_nil]⟩

theorem Robust.exists_markup {g : Text} (helement : IsElement g.trim) (hrobust : Robust g.trim)
    (hcheck : check g = .ok ()) :
    ∃ (b b' : Text) (o : Tag) (inside : Markup) (E : Forest), (∀ c ∈ b, Text.isBlank c = true) ∧
      (∀ c ∈ b', Text.isBlank c = true) ∧ o.Bare ∧ Forest.Element o inside E ∧
      Sound .steady (padded b b' (.lexeme o :: inside)) E ∧ g = text (padded b b' (.lexeme o :: inside)) := by
  have hsealed := hrobust.isSealed helement
  obtain ⟨b, b', hb, hb', hg⟩ := g.exists_trim
  obtain ⟨o, inside, hmarkup, hclosing, hbare, hcut⟩ := helement
  have hopen : ∀ {b : Text}, (∀ c ∈ b, Text.isBlank c = true) → '<' ∉ b := fun hb hmem =>
    absurd (hb _ hmem) (by decide)
  have hall : Sealed (· ≠ '\x7b') Tag.Bare (padded b b' (ofText g.trim)) :=
    (Sealed.map_char (hopen hb)).append (hsealed.append (.map_char (hopen hb')))
  have htext : g = text (padded b b' (ofText g.trim)) := by simpa [padded] using hg
  have htags : (padded b b' (ofText g.trim)).tags = o :: inside.tags := by simp [padded, hmarkup]
  obtain ⟨E, hE⟩ : ∃ E : Forest, Forest.Element o inside E := by
    refine exists_element_of_cutSpan ?_ hclosing hcut
    unfold check at hcheck
    split at hcheck
    · simp at hcheck
    · next hok => rwa [htext, hall.ofText_text, htags] at hok
  refine ⟨b, b', o, inside, E, hb, hb', hbare, hE, ?_, hmarkup ▸ htext⟩
  rw [← hmarkup]
  refine ⟨hall, fun tag htag => hrobust.tags tag ?_, hE.matched, hE.tags.trans htags.symm⟩
  simpa [padded] using htag

theorem Robust.exists_expand {g : Text} (helement : IsElement g.trim) (hrobust : Robust g.trim)
    (hcheck : check g = .ok ()) (data : Value) :
    (∃ e s, Directive.expand g data = (.error e, s) ∧ e.IsLoopFault) ∨
      ∃ u s m F, Directive.expand g data = (.ok u, s) ∧ Directive.select s u = .ok (text m) ∧ Sound .steady m F ∧
        m.text.Delimited := by
  obtain ⟨b, b', o, inside, E, hb, hb', hbare, hE, hsound, hg⟩ := hrobust.exists_markup helement hcheck
  obtain ⟨mid, hmid⟩ := o.exists_print
  rcases hE.alone_or_closed with ⟨rfl, rfl⟩ | ⟨I, i, c, rfl, rfl, hi⟩
  · -- the tag has no directive, and nothing stands inside
    have hbares : ∀ tag ∈ (ofText g).tags, tag.Bare := by
      rw [hg, hsound.isSealed.ofText_text]
      simpa [padded] using hbare
    refine .inr ⟨g, _, _, _, Directive.expand_of_bare hbares data, ?_, hsound, delimited_padded hb hb' mid ?_⟩
    · rw [← hg]
      exact Directive.select_of_bare hbares _
    · simpa using hmid
  · have hnested := hsound.nested hbare hi
    rw [← document_eq_padded] at hg
    rcases hnested.exists_expand data with ⟨e, s, he, hfault⟩ | ⟨u, s, x, F, hu, hselect, h⟩
    · exact .inl ⟨e, s, by rw [hg, he], hfault⟩
    · obtain ⟨mid', hmid'⟩ := c.exists_print
      obtain ⟨hopens, hclose, hname, -, -⟩ := hE.matched
      have ho : o.Steady := hsound.kept o (by simp [padded])
      have hc : c.Steady := hsound.kept c (by simp [padded])
      rw [document_eq_padded] at hselect
      refine .inr ⟨u, s, _, _, by rw [hg, hu], hselect, h.sound ho hc hopens hclose hname,
        delimited_padded hb hb' (mid ++ '>' :: (x.text ++ '<' :: mid')) ?_⟩
      simp [hmid, hmid']

end Markup
namespace Engine

open Markup (IsElement Robust)

/-- Without includes, a robust template of one element is filled in to a valid document or a loop is at
fault. -/
theorem exists_fill (engine : Engine) {g : Text} (hinclude : ¬ IncludeMarker.opening <:+: g)
    (helement : IsElement g.trim) (hrobust : Robust g.trim) (hcheck : Markup.check g = .ok ())
    (data : Value) (table : Comment.Table) :
    (∃ e, engine.fill data g table = .error e ∧ e.IsLoopFault) ∨
      ∃ html, engine.fill data g table = .ok (html, table) ∧ Markup.check html = .ok () := by
  unfold fill
  rw [IncludeMarker.resolve_of_not_infix hinclude]
  dsimp only
  rcases hrobust.exists_expand helement hcheck data with ⟨e, s, he, hfault⟩ | ⟨u, s, m, F, hu, hm, h, hd⟩
  · rw [he]
    exact .inl ⟨e, rfl, hfault⟩
  · rw [hu]
    dsimp only
    rw [hm]
    exact .inr ⟨_, rfl, h.check_interpolate hd s⟩

/-- A template of one element without includes and stylesheets never fails the check after rendering if
it is robust: with any data it renders, or a loop is at fault. -/
theorem renderSource_of_robust {engine : Engine} {source : Source} {markup : Text}
    (hmarkup : engine.markup source = .ok markup) (hstyles : engine.stylesheets = [])
    (hinclude : ¬ IncludeMarker.opening <:+: markup)
    (hcheck : Markup.check (Comment.extract markup).1 = .ok ())
    (helement : IsElement (Comment.extract markup).1.trim)
    (hrobust : Robust (Comment.extract markup).1.trim) (data : Value) :
    (∃ out, engine.renderSource source data [] = .ok out) ∨
      ∃ e, engine.renderSource source data [] = .error e ∧ e.IsLoopFault := by
  have hinclude' : ¬ IncludeMarker.opening <:+: (Comment.extract markup).1 := fun h =>
    hinclude (IncludeMarker.infix_of_extract h)
  have hfill := exists_fill engine hinclude' helement hrobust hcheck data
    (Comment.extract markup).2
  rw [renderSource, hmarkup]
  dsimp only
  unfold renderMarkup
  dsimp only
  rw [hcheck]
  dsimp only
  rcases hfill with ⟨e, he, hfault⟩ | ⟨html, hhtml, hvalid⟩
  · rw [he]
    exact .inr ⟨e, rfl, hfault⟩
  · rw [hhtml]
    dsimp only
    have hstyle : engine.style [] html (Comment.extract markup).2 = .ok (html, (Comment.extract markup).2) := by
      rw [style, hstyles]
      rfl
    rw [hstyle]
    dsimp only
    rw [hvalid]
    exact .inl ⟨_, rfl⟩

/-- Values in an attribute and in the text of a repeated element, one of them a slash. -/
theorem renderSource_of_robust_list :
    let engine : Engine := ⟨(Library.memory []).load, Source.defaultSuffix, []⟩
    let markup := "<ul><li *for='x of xs' class='{{x}}'>{{x}}</li></ul>".toList
    let data := Value.object [("xs".toList, .array [.string ['/'], .string ['<']])]
    Robust (Comment.extract markup).1.trim ∧
      ((∃ out, engine.renderSource (.inline markup) data [] = .ok out) ∨
        ∃ e, engine.renderSource (.inline markup) data [] = .error e ∧ e.IsLoopFault) := by
  intro engine markup data
  let list : Tag := ⟨false, "ul".toList, []⟩
  let item : Tag := ⟨false, "li".toList, " *for='x of xs' class='{{x}}'".toList⟩
  let stripped : Tag := ⟨false, "li".toList, " class='{{x}}'".toList⟩
  have hbare : ∀ tag : Tag, (∀ kind ∈ [DirectiveKind.loop, .guard], Directive.ofTag? kind tag = none) →
      tag.Bare := fun tag h kind => h kind (by cases kind <;> simp)
  have hlist : list.Bare := hbare _ (by decide +kernel)
  have hloop : Directive.ofTag? .loop item = some ⟨item, "<li".toList,
      ⟨' ', ['='], ⟨'\'', "x of xs".toList⟩⟩, " class='{{x}}'>".toList⟩ := by decide +kernel
  have hguard : Directive.ofTag? .guard item = none := by decide +kernel
  have hitem : item.Steady := by
    refine .intro (by decide +kernel) (by decide +kernel) ?_ ?_ ?_
    · rintro (_ | _) d hd
      · obtain rfl := Option.some.inj (hloop.symm.trans hd)
        show (" class='{{x}}'>".toList).head?.any isPathChar = false
        decide +kernel
      · simp [hguard] at hd
    · rintro (_ | _) d hd
      · obtain rfl := Option.some.inj (hloop.symm.trans hd)
        exact ⟨stripped, by decide +kernel⟩
      · simp [hguard] at hd
    · rintro (_ | _) d tag' hd hread
      · obtain rfl := Option.some.inj (hloop.symm.trans hd)
        have hread' : Tag.read "<li class='{{x}}'>".toList = some (stripped, []) := by decide +kernel
        obtain rfl := (Prod.mk.inj (Option.some.inj (hread'.symm.trans hread))).1
        exact .of_bare (hbare _ (by decide +kernel)) (by decide +kernel) (by decide +kernel)
      · simp [hguard] at hd
  have hclosing : ∀ name : Text, (⟨true, name, []⟩ : Tag).Steady := fun name =>
    .of_bare (Markup.bare_of_closing rfl) (by simp) (by simp)
  have hrobust : Robust (Comment.extract markup).1.trim := by
    constructor
    · intro u w v huv
      have hnone : Piece.char '<' ∉ Markup.ofText (Comment.extract markup).1.trim := by decide +kernel
      exact absurd (by rw [huv]; simp) hnone
    · have htags : (Markup.ofText (Comment.extract markup).1.trim).tags =
          [list, item, ⟨true, "li".toList, []⟩, ⟨true, "ul".toList, []⟩] := by decide +kernel
      rw [htags]
      simp only [List.forall_mem_cons]
      exact ⟨.of_bare hlist (by decide) (by decide), hitem, hclosing _, hclosing _, by simp⟩
  have helement : IsElement (Comment.extract markup).1.trim :=
    ⟨list, (Markup.ofText (Comment.extract markup).1.trim).tail, by decide +kernel, rfl, hlist,
      by decide +kernel⟩
  exact ⟨hrobust, renderSource_of_robust rfl rfl (by decide +kernel) (by decide +kernel) helement hrobust
    data⟩

/-- A value that ends in a slash makes the tag it ends close itself, which leaves the closing tag over. -/
theorem renderSource_slash_value :
    let engine : Engine := ⟨(Library.memory []).load, Source.defaultSuffix, []⟩
    let markup := "<div><a href={{u}}>x</a></div>".toList
    Markup.check (Comment.extract markup).1 = .ok () ∧ IsElement (Comment.extract markup).1.trim ∧
      ¬ IncludeMarker.opening <:+: markup ∧
      engine.renderSource (.inline markup) (.object [(['u'], .string ['/'])]) [] =
        .error (.invalidAfter (.mismatchedClose "div".toList "a".toList)) := by
  intro engine markup
  have hbare : (⟨false, "div".toList, []⟩ : Tag).Bare := by
    rintro (_ | _) <;> decide +kernel
  refine ⟨by decide +kernel, ?_, by decide +kernel, by decide +kernel⟩
  exact ⟨⟨false, "div".toList, []⟩, (Markup.ofText (Comment.extract markup).1.trim).tail,
    by decide +kernel, rfl, hbare, by decide +kernel⟩

end Engine
end HtmlTemplate
