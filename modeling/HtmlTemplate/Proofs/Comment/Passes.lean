import HtmlTemplate.Include
import HtmlTemplate.Proofs.Comment.Clear
import HtmlTemplate.Proofs.Directive.Basic
import HtmlTemplate.Proofs.Directive.Reference
import HtmlTemplate.Proofs.Directive.Walk
import HtmlTemplate.Proofs.Markup.Span

/-!
# Clear texts through the passes

Resolving includes, expanding loops and selecting guarded elements keep a text clear: each cuts it only
at seams, puts clear parts together, and exchanges references for references.
-/

namespace HtmlTemplate

open Comment (Clear Keeps Seam Settled)
open Text (fill)

/-! ## Includes -/

namespace IncludeMarker

/-- The outcome of resolving, piece by piece: what stands for a marker is the guarded content of its
source. -/
theorem exists_fill_of_resolvePieces {load : Text → Except LoadFailure Text}
    {ps : List (Piece IncludeMarker)} {table table' : Comment.Table} {t : Text}
    (h : resolvePieces load ps table = .ok (t, table')) :
    ∃ qs : List (Piece (IncludeMarker × Text)), fill (fun a => a.1.print) qs = fill print ps ∧
      t = fill Prod.snd qs ∧
      ∀ a, .lexeme a ∈ qs → .lexeme a.1 ∈ ps ∧
        ∃ content table, load a.1.source = .ok content ∧ a.2 = (Comment.Table.guard table content).1 := by
  induction ps generalizing table t with
  | nil =>
    obtain ⟨rfl, -⟩ := Prod.mk.inj (Except.ok.inj h)
    exact ⟨[], rfl, rfl, by simp⟩
  | cons piece ps ih =>
    cases piece with
    | char c =>
      simp only [resolvePieces] at h
      split at h
      · simp at h
      · next u _ hrest =>
        obtain ⟨rfl, rfl⟩ := Prod.mk.inj (Except.ok.inj h)
        obtain ⟨qs, hprint, rfl, hqs⟩ := ih hrest
        refine ⟨.char c :: qs, by simp [hprint], rfl, fun a ha => ?_⟩
        obtain ⟨hmem, hcontent⟩ := hqs a (by simpa using ha)
        exact ⟨List.mem_cons_of_mem _ hmem, hcontent⟩
    | lexeme m =>
      simp only [resolvePieces] at h
      split at h
      · simp at h
      · next content hload =>
        split at h
        · simp at h
        · next u _ hrest =>
          obtain ⟨rfl, rfl⟩ := Prod.mk.inj (Except.ok.inj h)
          obtain ⟨qs, hprint, rfl, hqs⟩ := ih hrest
          refine ⟨.lexeme (m, (table.guard content).1) :: qs, by simp [hprint], rfl, fun a ha => ?_⟩
          rcases List.mem_cons.1 ha with he | ha
          · obtain rfl := Piece.lexeme.inj he
            exact ⟨by simp, content, table, hload, rfl⟩
          · obtain ⟨hmem, hcontent⟩ := hqs a ha
            exact ⟨List.mem_cons_of_mem _ hmem, hcontent⟩

theorem clear_resolve {load : Text → Except LoadFailure Text} {t u : Text}
    {table table' : Comment.Table} (ht : Clear t)
    (hcontent : ∀ m ∈ pattern.lexemes t, ∀ content, load m.source = .ok content → Settled content)
    (h : resolve load t table = .ok (u, table')) : Clear u := by
  obtain ⟨qs, hprint, rfl, hqs⟩ := exists_fill_of_resolvePieces h
  rw [show fill print (pattern.pieces t) = t from pattern.print_pieces t] at hprint
  rw [← hprint] at ht
  refine ht.fill (fun a _ => ⟨'<', rfl, .inl rfl⟩) fun a ha => ?_
  obtain ⟨hmem, content, table, hload, he⟩ := hqs a ha
  rw [he]
  refine Settled.clear_guard (hcontent a.1 ?_ content hload) table
  exact List.mem_filterMap.2 ⟨_, hmem, rfl⟩

end IncludeMarker

/-! ## References -/

theorem Pattern.clear_replace {α : Type} {p : Pattern α} {f : α → Text} {t : Text}
    (hf : ∀ a, .lexeme a ∈ p.pieces t → Keeps (p.print a) (f a) ∧ '<' ∉ f a) (ht : Clear t) :
    Clear (p.replace f t) := by
  rw [← p.print_pieces t] at ht
  exact Clear.fill (fun a ha => (hf a ha).1) (fun a ha => Comment.clear_of_not_mem (hf a ha).2) ht

namespace Reference

theorem eq_append_of_rebase? {item binding path rebased : Text}
    (h : rebase? item binding path = some rebased) : ∃ rest, rest <:+ path ∧ rebased = binding ++ rest := by
  unfold rebase? at h
  split at h
  · next rest hrest =>
    split at h
    · exact ⟨rest, ⟨item, (Text.eq_append_of_after? hrest).symm⟩, (Option.some.inj h).symm⟩
    · simp at h
  · simp at h

theorem not_mem_rebase? {item binding path : Text} {c : Char} (hbinding : c ∉ binding)
    (hpath : c ∉ path) : c ∉ (rebase? item binding path).getD path := by
  cases h : rebase? item binding path with
  | none => exact hpath
  | some rebased =>
    obtain ⟨rest, hrest, rfl⟩ := eq_append_of_rebase? h
    simpa [hbinding] using fun hc => hpath (hrest.subset hc)

theorem clear_rebased {p : Pattern Reference} (hprint : p.print = print)
    (hstop : Text.StopsAt '<' p.read)
    (hhead : ∀ {t rest r}, p.read t = some (r, rest) → r.lead.head? = some '*')
    {item binding t : Text} (hbinding : '<' ∉ binding) (ht : Clear t) :
    Clear (p.replace (rebased item binding) t) := by
  refine p.clear_replace (fun r hr => ?_) ht
  obtain ⟨u, rest, hread⟩ := p.exists_read_of_mem_pieces hr
  have hlead := hhead hread
  have hnot := Pattern.not_mem_print_of_stopsAt hstop hread
  rw [hprint] at hnot ⊢
  simp only [print, List.mem_append, not_or] at hnot
  refine ⟨⟨'*', ?_, .inr ⟨.inr rfl, ?_⟩⟩, ?_⟩
  · rw [print, List.head?_append, hlead, Option.some_or]
  · rw [rebased, List.head?_append, hlead, Option.some_or]
  · simpa [rebased, hnot.1] using not_mem_rebase? hbinding hnot.2

theorem head?_lead_of_readGuard {t rest : Text} {r : Reference} (h : readGuard t = some (r, rest)) :
    r.lead.head? = some '*' := by
  simp only [readGuard, Option.bind_eq_bind, Option.bind_eq_some_iff] at h
  obtain ⟨t₁, h₁, ⟨equals, t₂⟩, h₂, ⟨quote, t₃⟩, h₃, ⟨path, t₄⟩, h₄, he⟩ := h
  obtain ⟨rfl, rfl⟩ := Prod.mk.inj (Option.some.inj he)
  rfl

theorem head?_lead_of_readSource {t rest : Text} {r : Reference}
    (h : readSource t = some (r, rest)) : r.lead.head? = some '*' := by
  simp only [readSource, Option.bind_eq_bind, Option.bind_eq_some_iff] at h
  obtain ⟨t₁, h₁, ⟨equals, t₂⟩, h₂, ⟨quote, t₃⟩, h₃, ⟨item, t₄⟩, h₄, ⟨gap, t₅⟩, h₅, t₆, h₆,
    ⟨space, t₇⟩, h₇, ⟨path, t₈⟩, h₈, he⟩ := h
  obtain ⟨rfl, rfl⟩ := Prod.mk.inj (Option.some.inj he)
  rfl

theorem clear_retargetSources {item binding t : Text} (hbinding : '<' ∉ binding) (ht : Clear t) :
    Clear (retargetSources item binding t) :=
  clear_rebased (p := sourcePattern) rfl (readSource_stopsAt (.inl rfl))
    head?_lead_of_readSource hbinding ht

theorem clear_retargetAll {item binding t : Text} (hbinding : '<' ∉ binding) (ht : Clear t) :
    Clear (retargetAll item binding t) := by
  refine clear_retargetSources hbinding (clear_rebased (p := guardPattern) rfl
    (readGuard_stopsAt (.inl rfl)) head?_lead_of_readGuard hbinding
    (Pattern.clear_replace (fun p hp => ?_) ht))
  obtain ⟨u, rest, hread⟩ := Placeholder.pattern.exists_read_of_mem_pieces hp
  have hstop : Text.StopsAt '<' Placeholder.pattern.read :=
    Placeholder.read_stopsAt (by decide) (by decide) (by decide) (by decide)
  have hnot : '<' ∉ p.print := Pattern.not_mem_print_of_stopsAt hstop hread
  refine ⟨⟨'\x7b', rfl, .inr ⟨.inl rfl, ?_⟩⟩, ?_⟩
  · unfold rebasedPlaceholder
    split <;> rfl
  · unfold rebasedPlaceholder
    split
    · next path hpath =>
      have hbefore : '<' ∉ p.path := fun hc => hnot (by simp [Placeholder.print, hc])
      have hrebased : '<' ∉ (rebase? item binding p.path).getD p.path :=
        not_mem_rebase? hbinding hbefore
      rw [hpath] at hrebased
      simpa [Placeholder.openBraces, Placeholder.closeBraces] using hrebased
    · exact hnot

theorem clear_of_span {front inside after : Text} {tag : Tag}
    (hend : (tag.print ++ inside).getLast? = some '>')
    (h : Clear (front ++ (tag.print ++ (inside ++ after)))) :
    Clear front ∧ Clear tag.print ∧ Clear inside ∧ Clear after := by
  have hspan : Clear ((tag.print ++ inside) ++ after) := by
    rw [List.append_assoc]
    exact h.of_append_right
  have helement : Clear (tag.print ++ inside) := hspan.of_append_left (.inl hend)
  have htag : Clear tag.print := h.of_append_right.of_append_left (.inl tag.getLast?_print)
  exact ⟨h.of_append_left (.inr (.inl rfl)), htag, helement.of_append_right, hspan.of_append_right⟩

theorem clear_retargetMarkup {item binding t : Text} {m : Markup} (hbinding : '<' ∉ binding)
    (hm : Clear m.text) (h : retargetMarkup item binding m = .ok t) : Clear t := by
  fun_induction retargetMarkup item binding m generalizing t with
  | case1 m hcut =>
    obtain rfl := Except.ok.inj h
    exact clear_retargetAll hbinding hm
  | case2 m front d rest hcut hspan => simp at h
  | case3 m front d rest hcut inside after hspan e hrest ih => simp at h
  | case4 m front d rest hcut inside after hspan u hrest ih =>
    obtain rfl := Except.ok.inj h
    obtain ⟨rfl, -⟩ := eq_append_of_cutAtTag hcut
    rw [Markup.eq_append_of_cutSpan hspan, Markup.text_append, Markup.text_tag,
      Markup.text_append] at hm
    obtain ⟨hfront, htag, hinside, hafter⟩ :=
      clear_of_span (Markup.getLast?_text_of_cutSpan hspan) hm
    exact (((clear_retargetAll hbinding hfront).append (clear_retargetSources hbinding htag)).append
      hinside).append (ih hafter hrest)

theorem clear_retarget {item binding t u : Text} (hbinding : '<' ∉ binding) (ht : Clear t)
    (h : retarget item binding t = .ok u) : Clear u :=
  clear_retargetMarkup hbinding (by rwa [Markup.text_ofText]) h

end Reference

/-! ## Directives -/

namespace Directive

theorem clear_stripped {kind : DirectiveKind} {d : Directive} (hd : ofTag? kind d.tag = some d)
    {rest : Text} (h : Clear (d.tag.print ++ rest)) : Clear (d.stripped ++ rest) := by
  obtain ⟨-, -, hprint⟩ := print_tag_of_ofTag? hd
  rw [hprint, List.append_assoc, List.append_assoc] at h
  have hseam : Seam d.front (d.attr.print kind.attributeName ++ (d.back ++ rest)) := by
    refine .inr (.inr ⟨d.attr.blank, ?_, (valid_of_ofTag? hd).blank, ?_⟩)
    · exact kind.attributeName.tail ++ d.attr.equals ++ d.attr.quoted.print ++ (d.back ++ rest)
    · cases kind <;> simp [Attribute.print, DirectiveKind.attributeName]
  rw [stripped, List.append_assoc]
  exact (h.of_append_left hseam).append h.of_append_right.of_append_right

theorem not_mem_nameOf (n : Nat) : '<' ∉ Scope.nameOf n := by
  intro h
  rcases List.mem_append.1 h with hstem | hnumeral
  · simp [Scope.stem] at hstem
  · exact absurd (Comment.isDigit_of_mem_numeral hnumeral) (by decide)

theorem clear_copies {item fragment t : Text} {values : List Value} {s s' : Scope}
    (hfragment : Clear fragment) (h : copies item fragment values s = (.ok t, s')) : Clear t := by
  induction values generalizing s s' t with
  | nil =>
    obtain ⟨he, -⟩ := Prod.mk.inj h
    obtain rfl := Except.ok.inj he
    trivial
  | cons value values ih =>
    simp only [copies] at h
    split at h
    · simp at h
    · next copy hcopy =>
      split at h
      · simp at h
      · next rest _ hrest =>
        obtain ⟨he, -⟩ := Prod.mk.inj h
        obtain rfl := Except.ok.inj he
        exact (Reference.clear_retarget (not_mem_nameOf _) hfragment hcopy).append (ih hrest)

theorem clear_expandAt {front rest : Markup} {d : Directive} {s s' : Scope} {t : Text}
    (hd : ofTag? .loop d.tag = some d) (hm : Clear (front.text ++ (d.tag.print ++ rest.text)))
    (h : expandAt front d rest s = (.ok t, s')) : Clear t := by
  obtain ⟨expr, inside, after, items, expanded, -, hspan, -, hcopies, rfl⟩ := exists_of_expandAt h
  have hend := Markup.getLast?_text_of_cutSpan hspan
  rw [Markup.eq_append_of_cutSpan hspan, Markup.text_append] at hm
  obtain ⟨hfront, -, -, hafter⟩ := Reference.clear_of_span hend hm
  have hfragment : Clear (d.stripped ++ inside.text) := by
    refine clear_stripped hd (Clear.of_append_left (.inl hend) (t := after.text) ?_)
    rw [List.append_assoc]
    exact hm.of_append_right
  exact hfront.append ((clear_copies hfragment hcopies).append hafter)

theorem clear_expandRounds {rounds : Nat} {t u : Text} {s s' : Scope} (ht : Clear t)
    (h : expandRounds rounds t s = (.ok u, s')) : Clear u := by
  induction rounds generalizing t s with
  | zero => simp [expandRounds] at h
  | succ rounds ih =>
    simp only [expandRounds] at h
    split at h
    · obtain ⟨he, -⟩ := Prod.mk.inj h
      obtain rfl := Except.ok.inj he
      exact ht
    · next front d rest hfind =>
      split at h
      · simp at h
      · next v _ hround => exact ih (clear_expandAt (ofTag?_of_find? hfind) (text_of_find? hfind ▸ ht) hround) h

theorem clear_select {s : Scope} {t u : Text} (ht : Clear t) (h : select s t = .ok u) :
    Clear u := by
  fun_induction select s t with
  | case1 t hfind =>
    obtain rfl := Except.ok.inj h
    exact ht
  | case2 t front d rest hfind hspan => simp at h
  | case3 t front d rest hfind inside after hspan hholds ih =>
    refine ih ?_ h
    rw [text_of_find? hfind] at ht
    rw [List.append_assoc]
    exact (ht.of_append_left (.inr (.inl rfl))).append
      (clear_stripped (ofTag?_of_find? hfind) ht.of_append_right)
  | case4 t front d rest hfind inside after hspan hholds ih =>
    refine ih ?_ h
    rw [text_of_find? hfind, Markup.eq_append_of_cutSpan hspan, Markup.text_append] at ht
    obtain ⟨hfront, -, -, hafter⟩ :=
      Reference.clear_of_span (Markup.getLast?_text_of_cutSpan hspan) ht
    exact hfront.append hafter

end Directive
end HtmlTemplate
