import HtmlTemplate.Proofs.Directive.Agreement
import HtmlTemplate.Proofs.Directive.Lookalike

/-!
# Values of loops under retargeting

What the passes of retargeting make of the value of a loop depends on the value alone, wherever the loop stands and
whatever the value says (`Reference.exchanges_placeholders_value`, `Reference.exchanges_sources_value`). A value is
either left as it is or has a synthetic name written into it (`Reference.Recast.eq_or_infix`), and what reads as an
expression afterwards is read from one that declares the same item (`Reference.Recast.exists_of_parse?`).
-/

namespace HtmlTemplate

/-! ## Words -/

namespace Text

theorem infix_of_infix_append_cons {u s t : Text} {c : Char} (hc : c ∉ u) (h : u <:+: s ++ c :: t) :
    u <:+: s ∨ u <:+: t := by
  obtain ⟨x, y, hxy⟩ := h
  rcases exists_of_append_eq_cons_append hxy with ⟨w, hw, -⟩ | ⟨w, hw, rfl⟩
  · exact .inl ⟨x, w, hw.symm⟩
  · obtain ⟨w', rfl, hu⟩ | ⟨w', rfl, rfl⟩ := exists_of_append_eq_cons_append hw
    · simp [hu] at hc
    · exact .inr ⟨w', y, rfl⟩

theorem infix_iff_exists_mem_words {u : Text} (hne : u ≠ []) (hu : ∀ c ∈ u, isBlank c = false) (t : Text) :
    u <:+: t ↔ ∃ w ∈ t.words, u <:+: w := by
  induction hn : t.length using Nat.strong_induction_on generalizing t with
  | _ n ih =>
    by_cases hblank : ∃ c ∈ t, isBlank c = true
    · obtain ⟨c, hmem, hc⟩ := hblank
      obtain ⟨s, r, rfl⟩ := List.append_of_mem hmem
      have hcut : u <:+: s ++ c :: r ↔ u <:+: s ∨ u <:+: r := by
        refine ⟨infix_of_infix_append_cons fun hcu => ?_, ?_⟩
        · simp [hu c hcu] at hc
        · rintro (h | h)
          · exact h.trans (List.prefix_append _ _).isInfix
          · exact h.trans ((List.suffix_cons c r).trans (List.suffix_append _ _)).isInfix
      rw [List.length_append, List.length_cons] at hn
      rw [hcut, ih s.length (by omega) s rfl, ih r.length (by omega) r rfl, words_append_cons hc]
      simp only [List.mem_append, or_and_right, exists_or]
    · have hsolid : ∀ c ∈ t, isBlank c = false := fun c hc => by
        by_contra h
        exact hblank ⟨c, hc, by simpa using h⟩
      by_cases ht : t = []
      · subst ht
        simpa [words] using hne
      · simp [words_of_solid ht hsolid]

theorem words_append_of_solid {u : Text} (hne : u ≠ []) (hu : ∀ c ∈ u, isBlank c = false) (t : Text) :
    words (u ++ t) = (u ++ t.takeWhile isSolid) :: words (t.dropWhile isSolid) := by
  have hsplit := List.takeWhile_append_dropWhile (p := isSolid) (l := t)
  have hsolid : ∀ c ∈ u ++ t.takeWhile isSolid, isBlank c = false := fun c hc => by
    rcases List.mem_append.1 hc with hc | hc
    · exact hu c hc
    · simpa [isSolid] using List.mem_takeWhile_imp hc
  have hword : u ++ t.takeWhile isSolid ≠ [] := by simp [hne]
  conv_lhs => rw [← hsplit, ← List.append_assoc]
  cases hrest : t.dropWhile isSolid with
  | nil =>
    rw [List.append_nil, words_of_solid hword hsolid]
    simp [words]
  | cons c r =>
    have hc : isBlank c = true := by
      have := eq_false_of_head?_dropWhile (p := isSolid) (t := t) (c := c) (by rw [hrest]; rfl)
      simpa [isSolid] using this
    have hr : words (c :: r) = words r := words_append_cons hc [] r
    rw [words_append_cons hc, words_of_solid hword hsolid, hr]
    rfl

end Text

namespace LoopExpr

theorem words_text {t : Text} {e : LoopExpr} (h : parse? t = some e) : e.text.words = t.words := by
  obtain ⟨hwords, hitem, hsource⟩ := parse?_eq_some_iff.1 h
  have hblank : ∀ c ∈ [' '], Text.isBlank c = true := by simp [show Text.isBlank ' ' = true by decide]
  obtain ⟨l, hl⟩ : ∃ l : Layout, e.text = l.text e :=
    ⟨⟨[], [' '], [' '], [], by simp, hblank, hblank, by simp, by simp, by simp⟩, by simp [text, Layout.text]⟩
  rw [hwords, hl, (parse?_eq_some_iff.1 (parse?_layout l hitem hsource)).1]

end LoopExpr

/-! ## Patterns -/

namespace Pattern

variable {α : Type} {p : Pattern α} {f : α → Text} {t : Text}

theorem exists_of_replace_ne (h : p.replace f t ≠ t) : ∃ a, .lexeme a ∈ p.pieces t ∧ f a ≠ p.print a := by
  by_contra hnone
  push Not at hnone
  refine h ?_
  conv_rhs => rw [← p.print_pieces t]
  refine List.flatMap_congr fun piece hpiece => ?_
  cases piece with
  | char c => rfl
  | lexeme a => exact hnone a hpiece

theorem infix_replace {a : α} (h : .lexeme a ∈ p.pieces t) : f a <:+: p.replace f t := by
  obtain ⟨u, v, huv⟩ := List.append_of_mem h
  exact ⟨u.flatMap (Piece.print f), v.flatMap (Piece.print f), by simp [replace, huv, Piece.print]⟩

end Pattern

namespace Reference

open Attribute (core withValue)
open Text (Alike Exchanges IsPath Writes)

variable {a : Attribute} {item binding v w : Text} {r : Reference}

/-! ## Sources -/

/-- The words of a value are the name of the item, the keyword, and what follows them. -/
theorem LeadsToSource.words_append {lead name : Text} (h : LeadsToSource lead name) (t : Text) :
    Text.words (lead ++ t) = name :: LoopExpr.keyword :: Text.words t := by
  obtain ⟨b, gap, space, rfl, hb, hgap, hspace⟩ := h.split
  have hsolid : ∀ c ∈ name, Text.isBlank c = false := fun c hc => by
    by_contra hblank
    have := Text.not_isWord_of_isBlank (by simpa using hblank)
    simp [h.isWord c hc] at this
  simp only [List.append_assoc]
  rw [Text.words_blanks_append hb, Text.words_append_blanks h.name_ne_nil hsolid hgap.2 hgap.1,
    Text.words_append_blanks (by simp [LoopExpr.keyword]) LoopExpr.not_isBlank_of_mem_keyword hspace.2 hspace.1]

theorem LeadsToSource.margin {lead name : Text} (h : LeadsToSource lead name) :
    ∃ c, lead.getLast? = some c ∧ Text.isMargin c = true := by
  obtain ⟨b, gap, space, rfl, -, -, hspace⟩ := h.split
  have := exists_getLast?_of_margins (w := b ++ (name ++ (gap ++ LoopExpr.keyword))) hspace.1 fun c hc =>
    isMargin_of_isBlank (hspace.2 c hc)
  simpa only [List.append_assoc] using this

theorem alike_writtenSource (hbinding : IsPath binding) (item v : Text) : Alike v (writtenSource item binding v) := by
  unfold writtenSource
  split
  · next r w hread =>
    obtain ⟨⟨name, hlead⟩, hpath, hv⟩ := of_readValue hread
    conv_lhs => rw [hv]
    exact (Alike.exchange hlead.margin hpath (isPath_rebase_getD hbinding hpath)).append (.refl w)
  · exact .refl v

/-- Whatever a loop says, its source is retargeted wherever it stands. -/
theorem exchanges_sources_value (ha : a.Valid) (hstar : '*' ∉ a.quoted.value) (item binding : Text) :
    Exchanges (retargetSources item binding) (a.core DirectiveKind.loop.attributeName)
      ((a.withValue (writtenSource item binding a.quoted.value)).core DirectiveKind.loop.attributeName) :=
  exchanges_references readSource_stopsBefore ha .loop hstar (writes_source_value ha hstar)

/-! ## Passes -/

/-- A pass over texts that changes paths only, and of a loop only the value, by `h`. -/
structure Pass (g h : Text → Text) : Prop where
  alike : ∀ t, Alike t (g t)
  isLocal : Text.Local (fun _ => True) g
  alike_value : ∀ v, Alike v (h v)
  exchanges : ∀ {a : Attribute}, a.Valid → '*' ∉ a.quoted.value →
    Exchanges g (a.core DirectiveKind.loop.attributeName)
      ((a.withValue (h a.quoted.value)).core DirectiveKind.loop.attributeName)

theorem pass_placeholders (hbinding : IsPath binding) (item : Text) :
    Pass (Placeholder.pattern.replace (rebasedPlaceholder item binding))
      (Placeholder.pattern.replace (rebasedPlaceholder item binding)) where
  alike := Text.alike_replace (alike_rebasedPlaceholder hbinding)
  isLocal := local_retargetPlaceholders hbinding
  alike_value := Text.alike_replace (alike_rebasedPlaceholder hbinding)
  exchanges ha hstar := exchanges_of_writes_placeholders ha .loop hstar (writes_placeholders_value ha .loop _)

theorem pass_guards (hbinding : IsPath binding) (item : Text) :
    Pass (guardPattern.replace (rebased item binding)) id where
  alike := Text.alike_replace fun h => (read_of_readGuard h).alike hbinding
  isLocal := local_retargetGuards hbinding
  alike_value := .refl
  exchanges ha hstar := exchanges_references readGuard_stopsBefore ha .loop hstar
    (writes_core guardPattern_opensWith _ ha (fun _ => rfl) hstar)

theorem pass_sources (hbinding : IsPath binding) (item : Text) :
    Pass (retargetSources item binding) (writtenSource item binding) where
  alike := Text.alike_replace fun h => (read_of_readSource h).alike hbinding
  isLocal := local_retargetSources hbinding
  alike_value := alike_writtenSource hbinding item
  exchanges ha hstar := exchanges_sources_value ha hstar item binding

/-! ## What may become of a value -/

/-- Whether a value refers to an item, in the path of its source or in a placeholder. -/
def ValueRefers (item v : Text) : Prop :=
  (∃ r w, readValue v = some (r, w) ∧ Refers item r.path) ∨
    ∃ p, .lexeme p ∈ Placeholder.pattern.pieces v ∧ Refers item p.path

/-- A pass over a value in which the references to some item become references to a synthetic name. -/
inductive Recast (items : Text → Prop) : Text → Text → Prop where
  | placeholders {item : Text} (n : Nat) (v : Text) : items item →
    Recast items v (Placeholder.pattern.replace (rebasedPlaceholder item (Scope.nameOf n)) v)
  | source {item : Text} (n : Nat) (v : Text) : items item → Recast items v (writtenSource item (Scope.nameOf n) v)

theorem stem_infix_of_rebase? {n : Nat} {path path' : Text} (h : rebase? item (Scope.nameOf n) path = some path') :
    Scope.stem <:+: path' := by
  by_cases hrefers : Refers item path
  · obtain ⟨rest, -, hrebase⟩ := rebase?_of_refers (Scope.nameOf n) hrefers
    obtain rfl := Option.some.inj (h.symm.trans hrebase)
    exact ⟨[], Text.numeral n ++ rest, by simp [Scope.nameOf]⟩
  · rw [rebase?_of_not_refers hrefers] at h
    simp at h

theorem refers_of_rebase? {path path' : Text} (h : rebase? item binding path = some path') : Refers item path := by
  by_contra hrefers
  rw [rebase?_of_not_refers hrefers] at h
  simp at h

/-- A value that a pass changes refers to the item, and the synthetic name is written into it. -/
theorem Recast.eq_or_infix {items : Text → Prop} (h : Recast items v w) :
    w = v ∨ Scope.stem <:+: w ∧ ∃ item, items item ∧ ValueRefers item v := by
  by_cases hne : w = v
  · exact .inl hne
  · refine .inr ?_
    cases h with
    | @placeholders item n _ hitem =>
      obtain ⟨p, hp, hwritten⟩ := Pattern.exists_of_replace_ne hne
      have hinfix := Pattern.infix_replace (f := rebasedPlaceholder item (Scope.nameOf n)) hp
      cases hrebase : rebase? item (Scope.nameOf n) p.path with
      | none => exact absurd (by rw [rebasedPlaceholder, hrebase]; rfl) hwritten
      | some path =>
        refine ⟨((stem_infix_of_rebase? hrebase).trans ?_).trans hinfix, item, hitem,
          .inr ⟨p, hp, refers_of_rebase? hrebase⟩⟩
        exact ⟨Placeholder.openBraces, Placeholder.closeBraces, by rw [rebasedPlaceholder, hrebase]⟩
    | @source item n _ hitem =>
      unfold writtenSource at hne ⊢
      cases hread : readValue v with
      | none => simp [hread] at hne
      | some found =>
        obtain ⟨r, w⟩ := found
        rw [hread] at hne
        cases hrebase : rebase? item (Scope.nameOf n) r.path with
        | none =>
          refine absurd ?_ hne
          show rebased item (Scope.nameOf n) r ++ w = v
          rw [rebased, hrebase, (of_readValue hread).2.2]
          rfl
        | some path =>
          refine ⟨(stem_infix_of_rebase? hrebase).trans ⟨r.lead, w, ?_⟩, item, hitem,
            .inl ⟨r, w, hread, refers_of_rebase? hrebase⟩⟩
          show _ = rebased item (Scope.nameOf n) r ++ w
          rw [rebased, hrebase, Option.getD_some]

/-- What reads as an expression after a pass was one that declares the same item. -/
theorem Recast.exists_of_parse? {items : Text → Prop} (hitems : ∀ item, items item → LoopExpr.isIdentifier item = true)
    (h : Recast items v w) {e : LoopExpr} (he : LoopExpr.parse? w = some e) :
    ∃ e', LoopExpr.parse? v = some e' ∧ e'.item = e.item := by
  cases h with
  | @placeholders item n _ hitem =>
    -- placeholders have braces, which no expression has
    suffices hsame : Placeholder.pattern.replace (rebasedPlaceholder item (Scope.nameOf n)) v = v by
      exact ⟨e, by rwa [hsame] at he, rfl⟩
    by_contra hne
    obtain ⟨p, hp, -⟩ := Pattern.exists_of_replace_ne hne
    have hbrace : '\x7b' ∈ rebasedPlaceholder item (Scope.nameOf n) p := by
      unfold rebasedPlaceholder
      split <;> simp [Placeholder.print, Placeholder.openBraces]
    have hmem := (Pattern.infix_replace (f := rebasedPlaceholder item (Scope.nameOf n)) hp).subset hbrace
    obtain ⟨hname, hsource, l, hl⟩ := LoopExpr.exists_of_parse? he
    rw [hl] at hmem
    exact not_mem_layout hname hsource (by decide) (by decide) (by decide) hmem
  | @source item n _ hitem =>
    unfold writtenSource at he
    split at he
    · next r w hread =>
      obtain ⟨⟨name, hlead⟩, -, hv⟩ := of_readValue hread
      by_cases hrefers : Refers item r.path
      · obtain ⟨rest, hpath, hrebased⟩ := rebased_of_refers (Scope.nameOf n) hrefers
        have hsolid : ∀ {u : Text}, LoopExpr.isIdentifier u = true → u ≠ [] ∧ ∀ c ∈ u, Text.isBlank c = false :=
          fun hu => ⟨(LoopExpr.isIdentifier_iff.1 hu).1,
            fun c hc => LoopExpr.not_isBlank_of_isNameChar ((LoopExpr.isIdentifier_iff.1 hu).2 c hc)⟩
        have hname := LoopExpr.isIdentifier_nameOf n
        obtain ⟨hwords, hitem', hsource⟩ := LoopExpr.parse?_eq_some_iff.1 he
        rw [hrebased, List.append_assoc, List.append_assoc, hlead.words_append,
          Text.words_append_of_solid (hsolid hname).1 (hsolid hname).2] at hwords
        simp only [List.cons.injEq, true_and] at hwords
        obtain ⟨rfl, hword, hrest⟩ := hwords
        rw [← hword] at hsource
        refine ⟨⟨e.item, item ++ (rest ++ w).takeWhile Text.isSolid⟩, LoopExpr.parse?_eq_some_iff.2 ⟨?_, hitem',
          LoopExpr.isPath_append hname (hitems item hitem) hsource⟩, rfl⟩
        rw [hv, print, hpath, List.append_assoc, List.append_assoc, hlead.words_append,
          Text.words_append_of_solid (hsolid (hitems item hitem)).1 (hsolid (hitems item hitem)).2, hrest]
      · rw [rebased_of_not_refers hrefers, ← hv] at he
        exact ⟨e, he, rfl⟩
    · exact ⟨e, he, rfl⟩

theorem eq_or_infix_of_recasts {items : Text → Prop} (h : Relation.ReflTransGen (Recast items) v w) :
    w = v ∨ Scope.stem <:+: w ∧ ∃ item, items item ∧ ValueRefers item v := by
  induction h with
  | refl => exact .inl rfl
  | tail _ hstep ih =>
    rcases ih with rfl | ⟨hstem, hrefers⟩
    · exact hstep.eq_or_infix
    · rcases hstep.eq_or_infix with rfl | ⟨hstem', -⟩
      · exact .inr ⟨hstem, hrefers⟩
      · exact .inr ⟨hstem', hrefers⟩

theorem exists_of_parse?_of_recasts {items : Text → Prop} (hitems : ∀ item, items item → LoopExpr.isIdentifier item = true)
    (h : Relation.ReflTransGen (Recast items) v w) {e : LoopExpr} (he : LoopExpr.parse? w = some e) :
    ∃ e', LoopExpr.parse? v = some e' ∧ e'.item = e.item := by
  induction h generalizing e with
  | refl => exact ⟨e, he, rfl⟩
  | tail _ hstep ih =>
    obtain ⟨e₁, he₁, hitem₁⟩ := hstep.exists_of_parse? hitems he
    obtain ⟨e₂, he₂, hitem₂⟩ := ih he₁
    exact ⟨e₂, he₂, hitem₂.trans hitem₁⟩

end Reference
end HtmlTemplate
