import HtmlTemplate.Proofs.Directive.Reference
import HtmlTemplate.Proofs.Directive.Steady
import HtmlTemplate.Proofs.Directive.Walk
import HtmlTemplate.Proofs.Interpolation
import HtmlTemplate.Proofs.Markup.Rewrite
import HtmlTemplate.Proofs.Markup.Span

/-!
# Retargeted markup

Retargeting the references of a fragment to a path rewrites it between angle brackets, and changes
nothing there but paths. So it succeeds on markup whose elements are closed, and finds the tags of the
outcome where those of the fragment were (`Reference.exists_retargetMarkup`).
-/

namespace HtmlTemplate

/-- A text that reads as one path. -/
structure Text.IsPath (u : Text) : Prop where
  ne_nil : u ≠ []
  all : ∀ c ∈ u, isPathChar c = true

namespace Text

theorem isPath_of_readRun {t path rest : Text} (h : readRun isPathChar t = some (path, rest)) :
    IsPath path := ⟨(eq_append_of_readRun h).2, forall_mem_of_readRun h⟩

theorem IsPath.filling {u : Text} (h : IsPath u) (c : Char) : Filling c u := by
  refine ⟨fun d hd => not_isMark_of_isPathChar (h.all d hd), .inr ?_, ?_⟩
  · obtain ⟨d, r, rfl⟩ := List.exists_cons_of_ne_nil h.ne_nil
    simpa using h.all d (by simp)
  · exact ⟨u.getLast h.ne_nil, List.getLast?_eq_some_getLast h.ne_nil,
      not_isBlank_of_isPathChar (h.all _ (List.getLast_mem h.ne_nil))⟩

theorem IsPath.getLast?_ne {u : Text} (h : IsPath u) : u.getLast? ≠ some '\x7d' := by
  intro hlast
  exact absurd (h.all _ (List.mem_of_getLast? hlast)) (by decide)

theorem Alike.exchange {lead u v : Text} (hlead : ∃ c, lead.getLast? = some c ∧ isMargin c = true)
    (hu : IsPath u) (hv : IsPath v) : Alike (lead ++ u) (lead ++ v) := by
  obtain ⟨c, hlast, hc⟩ := hlead
  obtain ⟨w, rfl⟩ := List.getLast?_eq_some_iff.1 hlast
  have hpath : Alike (c :: (u ++ [])) (c :: (v ++ [])) :=
    .path hc (hu.filling c) (hv.filling c) (by simp [hu.getLast?_ne, hv.getLast?_ne]) .nil
  simpa using (Alike.refl w).append hpath

theorem alike_replace {α : Type} {p : Pattern α} {f : α → Text}
    (h : ∀ {t a rest}, p.read t = some (a, rest) → Alike (p.print a) (f a)) (t : Text) :
    Alike t (p.replace f t) := by
  have key : ∀ ps : List (Piece α), (∀ a, .lexeme a ∈ ps → Alike (p.print a) (f a)) →
      Alike (ps.flatMap (Piece.print p.print)) (ps.flatMap (Piece.print f)) := by
    intro ps hps
    induction ps with
    | nil => exact .nil
    | cons piece ps ih =>
      have ih' := ih fun a ha => hps a (List.mem_cons_of_mem _ ha)
      rw [List.flatMap_cons, List.flatMap_cons]
      cases piece with
      | char c => exact .cons c ih'
      | lexeme a => exact (hps a (by simp)).append ih'
  have hpieces := key (p.pieces t) fun a ha => by
    obtain ⟨u, rest, hread⟩ := p.exists_read_of_mem_pieces ha
    exact h hread
  rwa [p.print_pieces] at hpieces

end Text

theorem Placeholder.isPath_of_read {t rest : Text} {p : Placeholder} (h : read t = some (p, rest)) :
    Text.IsPath p.path := by
  simp only [read, Option.bind_eq_bind, Option.bind_eq_some_iff] at h
  obtain ⟨t₁, -, ⟨path, t₂⟩, h₂, t₃, -, he⟩ := h
  obtain ⟨rfl, -⟩ := Prod.mk.inj (Option.some.inj he)
  exact Text.isPath_of_readRun h₂

namespace Reference

open Text (IsPath Alike)

variable {C : Char → Prop} {item binding : Text}

theorem isPath_rebase {path path' : Text} (hbinding : IsPath binding) (hpath : IsPath path)
    (h : rebase? item binding path = some path') : IsPath path' := by
  unfold rebase? at h
  split at h
  · next rest hrest =>
    split at h
    · obtain rfl := Option.some.inj h
      have hmem : ∀ c ∈ rest, c ∈ path := fun c hc => by
        rw [Text.eq_append_of_after? hrest]
        exact List.mem_append_right _ hc
      refine ⟨by simp [hbinding.ne_nil], fun c hc => ?_⟩
      rcases List.mem_append.1 hc with hc | hc
      · exact hbinding.all c hc
      · exact hpath.all c (hmem c hc)
    · simp at h
  · simp at h

theorem isPath_rebase_getD {path : Text} (hbinding : IsPath binding) (hpath : IsPath path) :
    IsPath ((rebase? item binding path).getD path) := by
  cases h : rebase? item binding path with
  | none => exact hpath
  | some path' => exact isPath_rebase hbinding hpath h

/-! ## References as they are read -/

/-- What leads up to a path begins with the star of a directive and ends in a margin. -/
structure Read (r : Reference) : Prop where
  star : r.lead.head? = some '*'
  margin : ∃ c, r.lead.getLast? = some c ∧ Text.isMargin c = true
  path : IsPath r.path

theorem Read.alike {r : Reference} (h : r.Read) (hbinding : IsPath binding) :
    Alike r.print (rebased item binding r) :=
  .exchange h.margin h.path (isPath_rebase_getD hbinding h.path)

theorem exists_getLast?_of_margins {w u : Text} (hu : u ≠ []) (h : ∀ c ∈ u, Text.isMargin c = true) :
    ∃ c, (w ++ u).getLast? = some c ∧ Text.isMargin c = true := by
  refine ⟨u.getLast hu, ?_, h _ (List.getLast_mem hu)⟩
  rw [List.getLast?_append, List.getLast?_eq_some_getLast hu]
  rfl

theorem isMargin_of_isBlank {c : Char} (h : Text.isBlank c = true) : Text.isMargin c = true := by
  simp [Text.isMargin, h]

theorem isMargin_of_readQuote {t quote rest : Text} (h : readQuote t = some (quote, rest)) :
    quote ≠ [] ∧ ∀ c ∈ quote, Text.isMargin c = true := by
  cases t with
  | nil => simp [readQuote] at h
  | cons c t =>
    simp only [readQuote] at h
    split at h
    · next hc =>
      obtain ⟨rfl, -⟩ := Prod.mk.inj (Option.some.inj h)
      simp [Text.isMargin, hc]
    · simp at h

theorem isMargin_of_readNegation {t : Text} {c : Char} (h : c ∈ (readNegation t).1) :
    Text.isMargin c = true := by
  unfold readNegation at h
  split at h
  · rcases List.mem_cons.1 h with rfl | h
    · decide
    · exact isMargin_of_isBlank (List.mem_takeWhile_imp h)
  · simp at h

theorem read_of_readGuard {t rest : Text} {r : Reference} (h : readGuard t = some (r, rest)) : r.Read := by
  simp only [readGuard, Option.bind_eq_bind, Option.bind_eq_some_iff] at h
  obtain ⟨t₁, -, ⟨equals, t₂⟩, -, ⟨quote, t₃⟩, h₃, ⟨path, t₄⟩, h₄, he⟩ := h
  obtain ⟨rfl, -⟩ := Prod.mk.inj (Option.some.inj he)
  have hquote := isMargin_of_readQuote h₃
  refine ⟨?_, ?_, Text.isPath_of_readRun h₄⟩
  · simp [DirectiveKind.attributeName]
  · have hmargins : ∀ c ∈ quote ++ (t₃.takeWhile Text.isBlank ++
        (readNegation (t₃.dropWhile Text.isBlank)).1), Text.isMargin c = true := by
      intro c hc
      rcases List.mem_append.1 hc with hc | hc
      · exact hquote.2 c hc
      · rcases List.mem_append.1 hc with hc | hc
        · exact isMargin_of_isBlank (List.mem_takeWhile_imp hc)
        · exact isMargin_of_readNegation hc
    have := exists_getLast?_of_margins (w := DirectiveKind.guard.attributeName ++ equals)
      (by simp [hquote.1]) hmargins
    simpa only [List.append_assoc] using this

theorem read_of_readSource {t rest : Text} {r : Reference} (h : readSource t = some (r, rest)) :
    r.Read := by
  simp only [readSource, Option.bind_eq_bind, Option.bind_eq_some_iff] at h
  obtain ⟨t₁, -, ⟨equals, t₂⟩, -, ⟨quote, t₃⟩, -, ⟨item, t₄⟩, -, ⟨gap, t₅⟩, -, t₆, -, ⟨space, t₇⟩, h₇,
    ⟨path, t₈⟩, h₈, he⟩ := h
  obtain ⟨rfl, -⟩ := Prod.mk.inj (Option.some.inj he)
  refine ⟨?_, ?_, Text.isPath_of_readRun h₈⟩
  · simp [DirectiveKind.attributeName]
  · exact exists_getLast?_of_margins (Text.eq_append_of_readRun h₇).2 fun c hc =>
      isMargin_of_isBlank (Text.forall_mem_of_readRun h₇ c hc)

theorem alike_rebasedPlaceholder (hbinding : IsPath binding) {t rest : Text} {p : Placeholder}
    (h : Placeholder.read t = some (p, rest)) : Alike p.print (rebasedPlaceholder item binding p) := by
  obtain ⟨hbefore, -, hafter⟩ := Placeholder.of_read h
  have hpath := Placeholder.isPath_of_read h
  unfold rebasedPlaceholder
  split
  · next path' hpath' =>
    have hpath'' := isPath_rebase hbinding hpath hpath'
    have hblank : ∀ {c : Char}, Text.isBlank c = true → Text.isMark c = false := fun hc => by
      by_contra hmark
      simp only [Text.isMark, Bool.not_eq_false, Bool.or_eq_true, beq_iff_eq] at hmark
      rcases hmark with ((((((rfl | rfl) | rfl) | rfl) | rfl) | rfl) | rfl) <;>
        exact absurd hc (by decide)
    have hold : Text.Filling '\x7b' (p.before ++ p.path ++ p.after ++ ['\x7d']) := by
      refine ⟨fun c hc => ?_, .inl rfl, '\x7d', by simp, by decide⟩
      simp only [List.mem_append, List.mem_singleton] at hc
      rcases hc with ((hc | hc) | hc) | rfl
      · exact hblank (hbefore c hc)
      · exact not_isMark_of_isPathChar (hpath.all c hc)
      · exact hblank (hafter c hc)
      · decide
    have hnew : Text.Filling '\x7b' (path' ++ ['\x7d']) := by
      refine ⟨fun c hc => ?_, .inl rfl, '\x7d', by simp, by decide⟩
      rcases List.mem_append.1 hc with hc | hc
      · exact not_isMark_of_isPathChar (hpath''.all c hc)
      · rw [List.mem_singleton.1 hc]
        decide
    have halike := Alike.cons '\x7b' (.path (by decide) hold hnew (by simp) (Alike.refl ['\x7d']))
    simpa [Placeholder.print, Placeholder.openBraces, Placeholder.closeBraces] using halike
  · exact .refl _

/-! ## Passes -/

/-- Writing lexemes as texts like them works between angle brackets. -/
theorem local_replace_of_alike {α : Type} {p : Pattern α} {f : α → Text}
    (hopening : Text.StopsAt '<' p.read) (hclosing : Text.StopsAt '>' p.read)
    (hfirst : p.OpensWith fun c => c == '\x7b' || c == '*')
    (hf : ∀ {t a rest}, p.read t = some (a, rest) → Alike (p.print a) (f a)) :
    Text.Local C (p.replace f) := by
  refine p.local_replace hopening hclosing hfirst (fun h hmem => ?_) fun h hx _ =>
    (hf h).head?_eq.symm.trans hx
  exact Pattern.not_mem_print_of_stopsAt hopening h (((hf h).mem_iff (by decide)).2 hmem)

theorem Read.opensWith_star {p : Pattern Reference} (hprint : p.print = print)
    (hread : ∀ {t r rest}, p.read t = some (r, rest) → r.Read) : p.OpensWith (· == '*') := by
  intro t r rest h
  rw [p.eq_append h, hprint, print, List.append_assoc, List.head?_append, (hread h).star]
  rfl

theorem Read.opensWith {p : Pattern Reference} (hprint : p.print = print)
    (hread : ∀ {t r rest}, p.read t = some (r, rest) → r.Read) :
    p.OpensWith fun c => c == '\x7b' || c == '*' := fun _ _ _ h => by
  have hstar := opensWith_star hprint hread h
  rw [Option.any_eq_true] at hstar ⊢
  obtain ⟨c, hc, he⟩ := hstar
  exact ⟨c, hc, by rw [he, Bool.or_true]⟩

theorem writes_plain {p : Pattern Reference} (hp : p.OpensWith (· == '*')) (f : Reference → Text) {s : Text}
    (hs : '*' ∉ s) : Text.Writes (p.replace f) s s :=
  hp.writes f fun c hc => by simpa using fun he : c = '*' => hs (he ▸ hc)

theorem guardPattern_opensWith : guardPattern.OpensWith (· == '*') :=
  Read.opensWith_star rfl read_of_readGuard

theorem sourcePattern_opensWith : sourcePattern.OpensWith (· == '*') :=
  Read.opensWith_star rfl read_of_readSource

theorem local_retargetSources (hbinding : IsPath binding) : Text.Local C (retargetSources item binding) :=
  local_replace_of_alike (readSource_stopsAt (.inl rfl)) (readSource_stopsAt (.inr rfl))
    (Read.opensWith rfl read_of_readSource) fun h => (read_of_readSource h).alike hbinding

theorem local_retargetGuards (hbinding : IsPath binding) :
    Text.Local C (guardPattern.replace (rebased item binding)) :=
  local_replace_of_alike (readGuard_stopsAt (.inl rfl)) (readGuard_stopsAt (.inr rfl))
    (Read.opensWith rfl read_of_readGuard) fun h => (read_of_readGuard h).alike hbinding

theorem local_retargetPlaceholders (hbinding : IsPath binding) :
    Text.Local C (Placeholder.pattern.replace (rebasedPlaceholder item binding)) := by
  refine local_replace_of_alike ?_ ?_ ?_ (alike_rebasedPlaceholder hbinding)
  · exact Placeholder.read_stopsAt (by decide) (by decide) (by decide) (by decide)
  · exact Placeholder.read_stopsAt (by decide) (by decide) (by decide) (by decide)
  · intro t p rest h
    rw [Placeholder.eq_append_of_read h]
    rfl

theorem local_retargetAll (hbinding : IsPath binding) : Text.Local C (retargetAll item binding) :=
  ((local_retargetPlaceholders hbinding).comp (local_retargetGuards hbinding)).comp
    (local_retargetSources hbinding)

end Reference

/-! ## Markup -/

/-- A tag that is to another one what a tag with paths retargeted is to the tag before. -/
structure Tag.Copy (s t : Tag) : Prop where
  closing : t.closing = s.closing
  name : t.name = s.name
  opensScope : t.opensScope = s.opensScope
  load : t.load = s.load
  proper : s.Proper → t.Proper
  bare : s.Bare → t.Bare
  kept : ∀ {P : Tag → Prop}, Stable P → P s → P t

namespace Tag

@[refl] theorem Copy.refl (tag : Tag) : tag.Copy tag := ⟨rfl, rfl, rfl, rfl, id, id, fun _ h => h⟩

theorem Copy.trans {s t u : Tag} (h : s.Copy t) (h' : t.Copy u) : s.Copy u where
  closing := h'.closing.trans h.closing
  name := h'.name.trans h.name
  opensScope := h'.opensScope.trans h.opensScope
  load := h'.load.trans h.load
  proper := h'.proper ∘ h.proper
  bare := h'.bare ∘ h.bare
  kept hP hs := h'.kept hP (h.kept hP hs)

theorem Alike.copy {s t : Tag} (h : s.Alike t) : s.Copy t where
  closing := h.closing.symm
  name := h.name.symm
  opensScope := h.opensScope_eq.symm
  load := h.load_eq.symm
  proper := h.proper
  bare := Directive.Bare.alike h
  kept hP hs := hP hs h

theorem Copy.same {s t : Tag} (h : s.Copy t) : Forest.Same Tag.load s t where
  closing := h.closing
  name := by rw [h.name]
  opensScope := h.opensScope
  load := h.load.le

theorem copy_mapBody {α : Type} {p : Pattern α} {f : α → Text}
    (hf : ∀ {t a rest}, p.read t = some (a, rest) → Text.Alike (p.print a) (f a)) (tag : Tag) :
    tag.Copy (tag.mapBody (p.replace f)) :=
  Alike.copy ⟨rfl, rfl, Text.alike_replace hf tag.body⟩

end Tag

namespace Markup

variable {C : Char → Prop} {D : Tag → Prop} {front inside behind rest after : Markup}

theorem Sealed.inside_span {tag : Tag} (h : Sealed C D (inside ++ behind)) (hspan : cutSpan tag rest = some (inside, after)) :
    Sealed C D inside := by
  rcases exists_closing_of_cutSpan hspan with rfl | ⟨i, closing, rfl⟩
  · trivial
  · rw [List.append_assoc, List.singleton_append] at h
    exact h.left

theorem Sealed.of_span {kind : DirectiveKind} {d : Directive}
    (h : Sealed C Tag.Bare (front ++ .lexeme d.tag :: (inside ++ behind))) (hd : Directive.ofTag? kind d.tag = some d)
    (hspan : cutSpan d.tag rest = some (inside, after)) :
    Sealed C Tag.Bare front ∧ d.tag.Proper ∧ Sealed C Tag.Bare inside ∧ Sealed C Tag.Bare behind := by
  have hbare : ¬ d.tag.Bare := fun hbare => by simp [hbare kind] at hd
  have hrest : Sealed C Tag.Bare (.lexeme d.tag :: (inside ++ behind)) := h.right
  exact ⟨h.left_of_not hbare, hrest.1, hrest.2.inside_span hspan, hrest.2.right⟩

theorem Closes.behind_span {tag : Tag} (h : Closes (front ++ .lexeme tag :: (inside ++ behind))) : behind.Closes := by
  rw [← List.cons_append, ← List.append_assoc] at h
  exact h.right

end Markup

namespace Reference

open Text (IsPath)
open Markup (Sealed Closes pass)

variable {C : Char → Prop} {item binding : Text}

theorem copy_retargetSources (hbinding : IsPath binding) (tag : Tag) :
    tag.Copy (tag.mapBody (retargetSources item binding)) :=
  Tag.copy_mapBody (p := sourcePattern) (fun h => (read_of_readSource h).alike hbinding) tag

theorem copy_retargetAll (hbinding : IsPath binding) (tag : Tag) :
    tag.Copy (tag.mapBody (retargetAll item binding)) := by
  have hplaceholders := Tag.copy_mapBody (p := Placeholder.pattern)
    (f := rebasedPlaceholder item binding) (alike_rebasedPlaceholder hbinding) tag
  have hguards := Tag.copy_mapBody (p := guardPattern) (f := rebased item binding)
    (fun h => (read_of_readGuard h).alike hbinding) (tag.mapBody (Placeholder.pattern.replace
      (rebasedPlaceholder item binding)))
  exact (hplaceholders.trans hguards).trans (copy_retargetSources hbinding _)

theorem forall₂_copy_map {g : Text → Text} (hg : ∀ tag : Tag, tag.Copy (tag.mapBody g)) (ts : List Tag) :
    List.Forall₂ Tag.Copy ts (ts.map (Tag.mapBody g)) := by
  rw [List.forall₂_map_right_iff, List.forall₂_same]
  exact fun tag _ => hg tag

/-- Retargeting markup whose elements are closed succeeds, and finds in the outcome a copy of each tag. -/
theorem exists_retargetMarkup (item : Text) (hbinding : IsPath binding) {m : Markup} (h : Sealed C Tag.Bare m)
    (hcloses : m.Closes) :
    ∃ m' : Markup, retargetMarkup item binding m = .ok m'.text ∧ Sealed C Tag.Bare m' ∧
      List.Forall₂ Tag.Copy m.tags m'.tags := by
  have hpass : ∀ {n : Markup}, Sealed C Tag.Bare n →
      (pass (retargetAll item binding) [] n).text = retargetAll item binding n.text ∧
        Sealed C Tag.Bare (pass (retargetAll item binding) [] n) := fun hn =>
    ⟨Markup.text_pass (local_retargetAll (C := C) hbinding) (fun _ => hn.proper) [],
      Markup.sealed_pass (local_retargetAll hbinding) hn (fun tag htag =>
        ⟨(copy_retargetAll hbinding tag).proper (hn.proper htag), (copy_retargetAll hbinding tag).bare⟩)
        (by simp)⟩
  fun_induction retargetMarkup item binding m with
  | case1 m hcut =>
    obtain ⟨htext, hsealed⟩ := hpass h
    refine ⟨pass (retargetAll item binding) [] m, by rw [htext], hsealed, ?_⟩
    rw [Markup.tags_pass]
    exact forall₂_copy_map (copy_retargetAll hbinding) m.tags
  | case2 m front d rest hcut hspan =>
    obtain ⟨rfl, hshadow⟩ := eq_append_of_cutAtTag hcut
    have hclosing := (Directive.print_tag_of_ofTag? (ofTag?_of_shadowing? hshadow)).2.1
    obtain ⟨E, inside, after, rfl, hE⟩ := hcloses front d.tag rest rfl hclosing
    simp [hE.cutSpan after] at hspan
  | case3 m front d rest hcut inside after hspan e hrest ih =>
    obtain ⟨rfl, hshadow⟩ := eq_append_of_cutAtTag hcut
    obtain rfl := Markup.eq_append_of_cutSpan hspan
    obtain ⟨m', hm', -⟩ := ih (h.of_span (ofTag?_of_shadowing? hshadow) hspan).2.2.2 (Markup.Closes.behind_span hcloses)
    simp [hrest] at hm'
  | case4 m front d rest hcut inside after hspan t hrest ih =>
    obtain ⟨rfl, hshadow⟩ := eq_append_of_cutAtTag hcut
    obtain rfl := Markup.eq_append_of_cutSpan hspan
    obtain ⟨hfront, hproper, hinside, hafter⟩ := h.of_span (ofTag?_of_shadowing? hshadow) hspan
    obtain ⟨m', hm', hsealed, htags⟩ := ih hafter (Markup.Closes.behind_span hcloses)
    obtain rfl := Except.ok.inj (hrest.symm.trans hm')
    obtain ⟨htext, hsealed'⟩ := hpass hfront
    have hlocal : Text.Local C (retargetSources item binding) := local_retargetSources hbinding
    have hsources := Markup.rewrite_print hlocal hproper [] []
    simp only [hlocal.nil, List.nil_append, List.append_nil] at hsources
    refine ⟨pass (retargetAll item binding) [] front ++
      .lexeme (d.tag.mapBody (retargetSources item binding)) :: (inside ++ m'), ?_, ?_, ?_⟩
    · simp [htext, hsources]
    · exact hsealed'.append ⟨(copy_retargetSources hbinding d.tag).proper hproper, hinside.append hsealed⟩
    · have hsame : List.Forall₂ Tag.Copy inside.tags inside.tags :=
        List.forall₂_same.2 fun tag _ => .refl tag
      simp only [Markup.tags_append, Markup.tags_tag, Markup.tags_pass]
      exact List.rel_append (forall₂_copy_map (copy_retargetAll hbinding) _)
        (.cons (copy_retargetSources hbinding d.tag) (List.rel_append hsame htags))

end Reference
end HtmlTemplate
