import HtmlTemplate.Proofs.Directive.Rounds

/-!
# Shadowing loops are copied

Retargeting goes from one shadowing loop to the next: what stands before it is rewritten, its span is copied but for
the source in its tag, and what stands behind it is retargeted alone (`Reference.retargetMarkup_loop`). In nested
markup a loop that shadows the item either is one of these or lies in the span of one, and then its span does too.
Either way the characters of its span stand in the outcome as they are (`Reference.retarget_shadowed`).
-/

namespace HtmlTemplate

theorem Forest.Element.exists_inner {o tag : Tag} {inside before behind : Markup} {E : Forest}
    (hE : Element o inside E) (h : inside = before ++ .lexeme tag :: behind) (htag : tag.closing = false) :
    ∃ inner after, behind = inner ++ after ∧ ∀ post, Markup.cutSpan tag (inner ++ post) = some (inner, post) := by
  have hopens : o.opensScope = true := by
    rcases hE.shape with rfl | ⟨I, closing, rfl⟩
    · have htags := hE.tags
      simp [h, Forest.tags] at htags
    · exact hE.matched.1
  obtain ⟨i, closing, rfl, hclosing, -, hbalanced⟩ := hE.exists_closing hopens
  obtain ⟨F, hF, htags⟩ := Forest.checkTags_eq_ok_iff.1 hbalanced
  rcases List.eq_nil_or_concat behind with rfl | ⟨v, piece, rfl⟩
  · obtain ⟨-, hlast⟩ := List.append_inj' h rfl
    obtain rfl := Piece.lexeme.inj (List.cons.inj hlast).1
    simp [hclosing] at htag
  · rw [List.concat_eq_append, ← List.cons_append, ← List.append_assoc] at h
    obtain ⟨rfl, hlast⟩ := List.append_inj' h rfl
    obtain ⟨E', inner, after, rfl, hE'⟩ := Forest.closes hF htags.symm before tag v rfl htag
    exact ⟨inner, after ++ [piece], by simp, hE'.cutSpan⟩

namespace Reference

open Markup (cutSpan cutAtTag)

variable {item binding : Text} {m front rest inside after : Markup} {loop : Tag}

theorem exists_first_shadowing (item : Text) (hcloses : m.Closes) :
    (∀ tag ∈ m.tags, shadowing? item tag = none) ∨
      ∃ (front inside after : Markup) (loop : Tag) (E : Forest), m = front ++ .lexeme loop :: (inside ++ after) ∧
        (∀ tag ∈ front.tags, shadowing? item tag = none) ∧ (shadowing? item loop).isSome = true ∧
        Forest.Element loop inside E := by
  cases hcut : cutAtTag (shadowing? item) m with
  | none => exact .inl (Markup.eq_none_of_cutAtTag_eq_none hcut)
  | some found =>
    obtain ⟨front, d, rest⟩ := found
    obtain ⟨rfl, hd⟩ := eq_append_of_cutAtTag hcut
    have hclosing := (Directive.print_tag_of_ofTag? (ofTag?_of_shadowing? hd)).2.1
    obtain ⟨E, inside, after, rfl, hE⟩ := hcloses front d.tag rest rfl hclosing
    exact .inr ⟨front, inside, after, d.tag, E, rfl, Markup.eq_none_of_cutAtTag hcut, by rw [hd]; rfl, hE⟩

theorem exists_retargetMarkup_of_closes (item binding : Text) (hcloses : m.Closes) :
    ∃ t, retargetMarkup item binding m = .ok t := by
  induction hn : m.length using Nat.strong_induction_on generalizing m with
  | _ n ih =>
    rcases exists_first_shadowing item hcloses with hplain | ⟨front, inside, after, loop, E, rfl, hfront, hloop, hE⟩
    · exact ⟨_, retargetMarkup_plain hplain⟩
    · have hlt : after.length < n := by
        rw [← hn]
        simp only [List.length_append, List.length_cons]
        omega
      obtain ⟨t, ht⟩ := ih _ hlt hcloses.behind_span rfl
      exact ⟨_, by rw [retargetMarkup_loop hfront hloop (hE.cutSpan after), ht]; rfl⟩

/-- What is written for the markup before a loop, for its tag, and for the markup behind its span, where the span is
copied: the loop shadows the item outside of other such loops, or it lies in the span of one. -/
inductive Copied (item binding : Text) : Markup → Tag → Markup → Markup → Text → Text → Text → Prop
  | outermost {front inside after : Markup} {loop : Tag} {t u : Text} :
    retargetMarkup item binding front = .ok t → retargetMarkup item binding after = .ok u →
      Copied item binding front loop inside after t (retargetSources item binding loop.print) u
  | within {front between inside behind after : Markup} {outer loop : Tag} {t u : Text} :
    (shadowing? item outer).isSome = true →
      cutSpan outer (between ++ .lexeme loop :: (inside ++ behind) ++ after) =
        some (between ++ .lexeme loop :: (inside ++ behind), after) →
      retargetMarkup item binding front = .ok t → retargetMarkup item binding after = .ok u →
      Copied item binding (front ++ .lexeme outer :: between) loop inside (behind ++ after)
        (t ++ retargetSources item binding outer.print ++ between.text) loop.print (behind.text ++ u)

theorem Copied.prepend {front span before inside after : Markup} {first loop : Tag} {t u tag' : Text}
    (hfront : ∀ tag ∈ front.tags, shadowing? item tag = none) (hfirst : (shadowing? item first).isSome = true)
    (hspan : ∀ post, cutSpan first (span ++ post) = some (span, post))
    (h : Copied item binding before loop inside after t tag' u) :
    Copied item binding (front ++ .lexeme first :: (span ++ before)) loop inside after
      (retargetAll item binding front.text ++ retargetSources item binding first.print ++ span.text ++ t) tag' u := by
  have hwritten : ∀ {m : Markup} {s : Text}, retargetMarkup item binding m = .ok s →
      retargetMarkup item binding (front ++ .lexeme first :: (span ++ m)) =
        .ok (retargetAll item binding front.text ++ retargetSources item binding first.print ++ span.text ++ s) := by
    intro m s hs
    rw [retargetMarkup_loop hfront hfirst (hspan m), hs]
    rfl
  cases h with
  | outermost hbefore hafter => exact .outermost (hwritten hbefore) hafter
  | @within before between _ behind after outer _ s v houter hcut hbefore hafter =>
    have := Copied.within houter hcut (hwritten hbefore) hafter
    simpa using this

theorem exists_copied (hcloses : m.Closes) (hsplit : m = front ++ .lexeme loop :: rest)
    (hloop : (shadowing? item loop).isSome = true) :
    ∃ (inside after : Markup) (before' loop' after' : Text), cutSpan loop rest = some (inside, after) ∧
      Copied item binding front loop inside after before' loop' after' ∧
      retargetMarkup item binding m = .ok (before' ++ loop' ++ inside.text ++ after') := by
  induction hn : m.length using Nat.strong_induction_on generalizing m front with
  | _ n ih =>
    obtain ⟨d, hd⟩ := Option.isSome_iff_exists.1 hloop
    have hclosing := (Directive.print_tag_of_ofTag? (ofTag?_of_shadowing? hd)).2.1
    have hnot : ∀ {n : Markup}, (∀ tag ∈ n.tags, shadowing? item tag = none) → .lexeme loop ∉ n := by
      intro n hplain hmem
      simp [hplain loop (List.mem_filterMap.2 ⟨_, hmem, rfl⟩)] at hloop
    rcases exists_first_shadowing item hcloses with hplain | ⟨first, span, behind, outer, E, hm, hfirst, houter, hE⟩
    · exact absurd (by simp [hsplit]) (hnot hplain)
    · rw [hm] at hcloses
      obtain ⟨u, hu⟩ := exists_retargetMarkup_of_closes item binding hcloses.behind_span
      have hout : retargetMarkup item binding m = .ok (retargetAll item binding first.text ++
          retargetSources item binding outer.print ++ span.text ++ u) := by
        rw [hm, retargetMarkup_loop hfirst houter (hE.cutSpan behind), hu]
        rfl
      obtain ⟨w, rfl, hw⟩ := Text.exists_of_append_eq_append_cons (hm.symm.trans hsplit) (hnot hfirst)
      cases w with
      | nil =>
        -- the loop is the first one
        obtain ⟨hsame, rfl⟩ := List.cons.inj hw
        obtain rfl := Piece.lexeme.inj hsame
        rw [List.append_nil]
        exact ⟨span, behind, _, _, u, hE.cutSpan behind, .outermost (retargetMarkup_plain hfirst) hu, hout⟩
      | cons piece w =>
        obtain ⟨rfl, hw'⟩ := List.cons.inj hw
        rcases Text.exists_of_append_eq_cons_append hw' with ⟨v, rfl, hv⟩ | ⟨v, hspan, rfl⟩
        · -- the loop stands behind the span of the first one
          have hlt : behind.length < n := by
            rw [← hn, hm]
            simp only [List.length_append, List.length_cons]
            omega
          obtain ⟨inside, after, before', loop', after', hcut, hcopied, hbehind⟩ :=
            ih _ hlt hcloses.behind_span hv rfl
          rw [hu] at hbehind
          refine ⟨inside, after, _, loop', after', hcut, hcopied.prepend hfirst houter hE.cutSpan, ?_⟩
          rw [hout, Except.ok.inj hbehind]
          simp
        · -- the loop stands in the span of the first one
          obtain ⟨inside, after, rfl, hinner⟩ := hE.exists_inner hspan hclosing
          have hcut := hE.cutSpan behind
          rw [hspan] at hcut
          refine ⟨inside, after ++ behind, _, _, _, ?_,
            .within houter hcut (retargetMarkup_plain hfirst) hu, ?_⟩
          · rw [List.append_assoc, hinner]
          · rw [hout, hspan]
            simp

/-- Every loop that shadows the item, wherever it stands in a balanced fragment, has a span, and the characters of
the span behind its tag are copied as they are. -/
theorem retarget_shadowed (binding : Text) {item fragment : Text} {front rest : Markup} {loop : Tag}
    (hbalanced : Markup.Balanced fragment) (hsplit : Markup.ofText fragment = front ++ .lexeme loop :: rest)
    (hloop : (shadowing? item loop).isSome = true) :
    ∃ (inside after : Markup) (before' loop' after' : Text), cutSpan loop rest = some (inside, after) ∧
      Copied item binding front loop inside after before' loop' after' ∧
      retarget item binding fragment = .ok (before' ++ loop' ++ inside.text ++ after') := by
  obtain ⟨F, hF, htags⟩ := Forest.checkTags_eq_ok_iff.1 (Markup.balanced_iff.1 hbalanced)
  exact exists_copied (Forest.closes hF htags.symm) hsplit hloop

/-- A loop in the span of another one that shadows the item. -/
theorem retarget_shadowed_nested :
    let fragment := "<p *for='item of item.kids'><b *for='item of xs'>".toList ++
      "\x7b\x7bitem\x7d\x7d</b></p>\x7b\x7bitem\x7d\x7d".toList
    let outer : Tag := ⟨false, ['p'], " *for='item of item.kids'".toList⟩
    let loop : Tag := ⟨false, ['b'], " *for='item of xs'".toList⟩
    let inside := Markup.ofText "\x7b\x7bitem\x7d\x7d</b>".toList
    let after := Markup.ofText "</p>\x7b\x7bitem\x7d\x7d".toList
    Markup.Balanced fragment ∧ Markup.ofText fragment = [.lexeme outer] ++ .lexeme loop :: (inside ++ after) ∧
      (shadowing? "item".toList loop).isSome = true ∧
      ∃ before' loop' after' : Text,
        Copied "item".toList "__templ_iter_0".toList [.lexeme outer] loop inside after before' loop' after' ∧
        retarget "item".toList "__templ_iter_0".toList fragment =
          .ok (before' ++ loop' ++ "\x7b\x7bitem\x7d\x7d</b>".toList ++ after') := by
  intro fragment outer loop inside after
  have hbalanced : Markup.Balanced fragment := .inr (by decide +kernel)
  have hsplit : Markup.ofText fragment = [.lexeme outer] ++ .lexeme loop :: (inside ++ after) := by decide +kernel
  have hloop : (shadowing? "item".toList loop).isSome = true := by decide +kernel
  have hspan : cutSpan loop (inside ++ after) = some (inside, after) := by decide +kernel
  obtain ⟨inside', after', before', loop', rest', hcut, hcopied, hretarget⟩ :=
    retarget_shadowed "__templ_iter_0".toList hbalanced hsplit hloop
  obtain ⟨rfl, rfl⟩ := Prod.mk.inj (Option.some.inj (hspan.symm.trans hcut))
  refine ⟨hbalanced, hsplit, hloop, before', loop', rest', hcopied, ?_⟩
  rw [hretarget, Markup.text_ofText]

/-- A tag with two loops is known by the first one: where the second one declares the item, its body is rewritten. -/
theorem retarget_second_loop :
    let fragment := "<p *for='x of xs' *for='item of ys'>\x7b\x7bitem\x7d\x7d</p>".toList
    let loop : Tag := ⟨false, ['p'], " *for='x of xs' *for='item of ys'".toList⟩
    let body := "\x7b\x7bitem\x7d\x7d</p>".toList
    Markup.Balanced fragment ∧ Markup.ofText fragment = .lexeme loop :: Markup.ofText body ∧
      cutSpan loop (Markup.ofText body) = some (Markup.ofText body, []) ∧
      (∃ a ∈ (Attribute.pattern DirectiveKind.loop.attributeName).lexemes loop.print,
        (LoopExpr.parse? a.quoted.value).map LoopExpr.item = some "item".toList) ∧
      ∃ out, retarget "item".toList "__templ_iter_0".toList fragment = .ok out ∧ ¬ body <:+: out := by
  intro fragment loop body
  refine ⟨.inl (by decide +kernel), by decide +kernel, by decide +kernel, by decide +kernel, ?_⟩
  refine ⟨"<p *for='x of xs' *for='item of ys'>\x7b\x7b__templ_iter_0\x7d\x7d</p>".toList, by decide +kernel, ?_⟩
  decide +kernel

end Reference
end HtmlTemplate
