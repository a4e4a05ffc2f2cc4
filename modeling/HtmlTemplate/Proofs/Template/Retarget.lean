import HtmlTemplate.Proofs.Directive.Agreement
import HtmlTemplate.Proofs.Template.Directive
import HtmlTemplate.Proofs.Template.Rename

/-!
# Retargeting is renaming

Retargeting edits the text of a fragment with three patterns and cuts around the loops that hide the item.
On the text of a template it renames the item in the tree (`Template.retarget_text`).
-/

namespace HtmlTemplate

open Text (IsPath Writes)

/-! ## Reading paths -/

theorem Text.IsPath.takeWhile_isBlank {u : Text} (hu : IsPath u) (t : Text) :
    (u ++ t).takeWhile isBlank = [] ∧ (u ++ t).dropWhile isBlank = u ++ t := by
  obtain ⟨c, r, rfl⟩ := List.exists_cons_of_ne_nil hu.ne_nil
  have hc := not_isBlank_of_isPathChar (hu.all c (by simp))
  simp [hc]

namespace Path

variable {p : Path}

theorem rebase?_text (h : p.isValid = true) {item : Text} (hitem : isIdent item = true) (new : Text) :
    Reference.rebase? item new p.text = if p.head = item then some (p.rename item new).text else none := by
  unfold Reference.rebase? rename
  by_cases hp : p.head = item
  · rw [if_pos hp, if_pos hp, text, ← hp, Text.after?_append]
    cases p.tail with
    | nil => simp [text]
    | cons s tail => simp [text]
  · rw [if_neg hp]
    split
    · next rest hrest =>
      -- the item is all of the path up to a point, so it is the head
      have happ := Text.eq_append_of_after? hrest
      rw [if_neg]
      intro hpoint
      apply hp
      have hall : ∀ c ∈ item, (c != '.') = true := fun c hc => by
        simpa using fun he : c = '.' => not_mem_ident hitem (he ▸ hc)
      have htake := (takeWhile_text h).1
      rw [happ, List.takeWhile_append_of_pos hall] at htake
      rw [← htake]
      cases rest with
      | nil => simp
      | cons c rest =>
        obtain rfl : c = '.' := by simpa using hpoint
        simp
    · rfl

theorem getD_rebase?_text (h : p.isValid = true) {item : Text} (hitem : isIdent item = true) (new : Text) :
    (Reference.rebase? item new p.text).getD p.text = (p.rename item new).text := by
  rw [rebase?_text h hitem, rename]
  split
  · rfl
  · rfl

end Path

/-! ## Placeholders -/

namespace Placeholder

theorem read_text {p : Path} (h : p.isValid = true) (t : Text) :
    read (openBraces ++ (p.text ++ (closeBraces ++ t))) = some (⟨[], p.text, []⟩, t) := by
  have hpath := Path.isPath_text h
  obtain ⟨htake, hdrop⟩ := hpath.takeWhile_isBlank (closeBraces ++ t)
  have hrun : Text.readRun isPathChar (p.text ++ (closeBraces ++ t)) = some (p.text, closeBraces ++ t) :=
    Text.readRun_append hpath.ne_nil hpath.all (by decide) _
  have hclose : (closeBraces ++ t).takeWhile Text.isBlank = [] ∧
      (closeBraces ++ t).dropWhile Text.isBlank = closeBraces ++ t := by
    have hbrace : Text.isBlank '\x7d' = false := by decide
    simp [closeBraces, hbrace]
  simp only [read, Text.after?_append, Option.bind_eq_bind, Option.bind_some, htake, hdrop, hrun, hclose.1,
    hclose.2]
  rfl

end Placeholder

def Bit.fill (f : Placeholder → Text) : Bit → Text
  | char c => [c]
  | hole p => f ⟨[], p.text, []⟩

/-- A chunk with its placeholders written by `f`. -/
def Chunk.fill (f : Placeholder → Text) : Chunk → Text
  | plain blank name quote value => blank :: (name ++ '=' :: quote :: (value.flatMap (Bit.fill f) ++ [quote]))
  | k => k.text

theorem Bit.writes_fill {b : Bit} (h : b.isValid = true) (f : Placeholder → Text) :
    Writes (Placeholder.pattern.replace f) b.text (b.fill f) := by
  cases b with
  | char c => exact Placeholder.writes_plain f (by simpa [text] using (isPlainChar_iff.1 h).2.1.symm)
  | hole p =>
    intro rest
    have hread : Placeholder.pattern.read ((hole p).text ++ rest) = some (⟨[], p.text, []⟩, rest) := by
      rw [text, List.append_assoc, List.append_assoc]
      exact Placeholder.read_text h rest
    rw [Pattern.replace, Pattern.pieces_of_read _ hread]
    rfl

theorem Chunk.writes_fill {k : Chunk} (h : k.isValid = true) (f : Placeholder → Text) :
    Writes (Placeholder.pattern.replace f) k.text (k.fill f) := by
  have hblank : ∀ {c : Char}, Text.isBlank c = true → '\x7b' ≠ c := by
    rintro c hc rfl
    exact absurd hc (by decide)
  have hquote : ∀ {c : Char}, Text.isQuote c = true → '\x7b' ≠ c := by
    rintro c hc rfl
    exact absurd hc (by decide)
  cases k with
  | space c => exact Placeholder.writes_plain f (by simpa [text] using hblank h)
  | plain blank name quote value =>
    obtain ⟨hb, -, hname, hq, hvalue⟩ := valid_plain h
    have hname' : '\x7b' ∉ name := fun hmem => absurd (hname _ hmem) (by decide)
    have hlead : Writes (Placeholder.pattern.replace f) (blank :: (name ++ ['=', quote])) _ :=
      Placeholder.writes_plain f (by simp [hblank hb, hname', hquote hq])
    have hend : Writes (Placeholder.pattern.replace f) [quote] _ :=
      Placeholder.writes_plain f (by simpa using hquote hq)
    have hall := hlead.append ((Writes.flatMap fun b hb => Bit.writes_fill (hvalue b hb) f).append hend)
    simpa [text, fill] using hall
  | directive blank quote clause =>
    obtain ⟨hb, hq, hclause⟩ := valid_directive h
    have hname : ∀ kind : DirectiveKind, '\x7b' ∉ kind.attributeName := by
      rintro (_ | _) <;> decide
    have hvalue : '\x7b' ∉ clause.text := Clause.not_mem_text hclause (by decide) (by decide) (by decide)
    refine Placeholder.writes_plain f ?_
    simp [text, Attribute.print_eq, Clause.attr, hblank hb, hname, hquote hq, hvalue]

/-! ## Values of directives -/

namespace Reference

variable {item new : Text}

theorem writes_passes {s t u v : Text} (h₁ : Writes (Placeholder.pattern.replace (rebasedPlaceholder item new)) s t)
    (h₂ : Writes (guardPattern.replace (rebased item new)) t u) (h₃ : Writes (retargetSources item new) u v) :
    Writes (retargetAll item new) s v := fun rest => by
  rw [retargetAll, h₁, h₂, h₃]
  rfl

theorem written_text (hitem : isIdent item = true) (new : Text) {p : Path} (h : p.isValid = true) :
    written item new p.text = (p.rename item new).text := by
  have hall := (Path.isPath_text h).all
  rw [written, List.takeWhile_eq_self_iff.2 hall, List.dropWhile_eq_nil_iff.2 hall, List.append_nil,
    Path.getD_rebase?_text h hitem]

theorem writtenGuard_text (hitem : isIdent item = true) (new : Text) (negated : Bool) {p : Path} (h : p.isValid = true) :
    writtenGuard item new (Clause.guard negated p).text = (Clause.guard negated (p.rename item new)).text := by
  have hpath := Path.isPath_text h
  obtain ⟨htake, hdrop⟩ := hpath.takeWhile_isBlank []
  rw [List.append_nil] at htake hdrop
  cases negated with
  | true =>
    have hmark : Text.isBlank '!' = false := by decide
    simp [writtenGuard, Clause.text, readNegation, hmark, htake, hdrop, written_text hitem new h]
  | false =>
    have hplain : readNegation p.text = ([], p.text) := readNegation_eq_self fun hmark =>
      absurd (hpath.all '!' (List.mem_of_head? hmark)) (by decide)
    simp [writtenGuard, Clause.text, hplain, htake, hdrop, written_text hitem new h]

end Reference

theorem Bit.fill_rebasedPlaceholder {item new : Text} (hitem : isIdent item = true) {b : Bit} (h : b.isValid = true) :
    b.fill (Reference.rebasedPlaceholder item new) = (b.map (Path.rename item new)).text := by
  cases b with
  | char c => rfl
  | hole p =>
    rw [fill, Reference.rebasedPlaceholder, Path.rebase?_text h hitem]
    by_cases hp : p.head = item
    · rw [if_pos hp]
      rfl
    · rw [if_neg hp, map, Path.rename, if_neg hp]
      simp [Placeholder.print, text]

/-! ## Chunks -/

namespace Chunk

open Reference

variable {item new : Text}

theorem writes_directive {g : Text → Text} {blank quote : Char} {clause clause' : Clause}
    (hblank : Writes g [blank] [blank])
    (h : Writes g ((clause.attr blank quote).core clause.kind.attributeName)
      ((clause'.attr blank quote).core clause'.kind.attributeName)) :
    Writes g (directive blank quote clause).text (directive blank quote clause').text := by
  rw [text, text, Attribute.print_eq_core, Attribute.print_eq_core]
  exact hblank.append h

theorem writes_retargetSources (hitem : isIdent item = true) (new : Text) {k : Chunk} (h : k.isValid = true) :
    Writes (retargetSources item new) k.text (k.mapSource (Path.rename item new)).text := by
  rcases k with c | ⟨blank, name, quote, value⟩ | ⟨blank, quote, _ | _⟩
  · have hstar : '*' ∉ [c] := by
      rw [List.mem_singleton]
      rintro rfl
      exact absurd h (by decide)
    exact writes_plain sourcePattern_opensWith _ hstar
  · exact writes_plain sourcePattern_opensWith _ (not_mem_text_plain h)
  · next i source =>
    obtain ⟨hblank, hquote, hclause⟩ := valid_directive h
    obtain ⟨hi, hsource⟩ := Clause.valid_loop hclause
    have hword : i.all Text.isWord = true :=
      List.all_eq_true.2 fun c hc => isWord_of_ident ((isIdent_iff.1 hi).2 c hc)
    refine writes_directive (writes_plain sourcePattern_opensWith _ (blank_ne_star h)) ?_
    have hwrites := writes_source new (Clause.valid_attr hclause hblank hquote) (isIdent_iff.1 hitem).1
      (Clause.text_loop i source) (isIdentifier_of_isIdent hi) (Path.isPath_source hsource)
    rw [LoopExpr.retargeted, if_pos hword, written_text hitem new hsource, ← Clause.text_loop] at hwrites
    exact hwrites
  · obtain ⟨hblank, hquote, hclause⟩ := valid_directive h
    exact writes_directive (writes_plain sourcePattern_opensWith _ (blank_ne_star h))
      (writes_core sourcePattern_opensWith _ (Clause.valid_attr hclause hblank hquote) (fun rest => rfl)
        (Clause.not_star hclause))

theorem writes_retargetAll (hitem : isIdent item = true) (hnew : isIdent new = true) {k : Chunk}
    (h : k.isValid = true) : Writes (retargetAll item new) k.text (k.map (Path.rename item new)).text := by
  have hfill := writes_fill h (rebasedPlaceholder item new)
  rcases k with c | ⟨blank, name, quote, value⟩ | ⟨blank, quote, _ | _⟩
  · have hstar : '*' ∉ [c] := by
      rw [List.mem_singleton]
      rintro rfl
      exact absurd h (by decide)
    exact writes_passes hfill (writes_plain guardPattern_opensWith _ hstar)
      (writes_plain sourcePattern_opensWith _ hstar)
  · have hvalue := (valid_plain h).2.2.2.2
    have hmap := isValid_map (fun p => Path.isValid_rename item hnew) h
    have htext : (plain blank name quote value).fill (rebasedPlaceholder item new) =
        ((plain blank name quote value).map (Path.rename item new)).text := by
      rw [fill, map, text, List.flatMap_map,
        List.flatMap_congr fun b hb => Bit.fill_rebasedPlaceholder hitem (hvalue b hb)]
    rw [htext] at hfill
    exact writes_passes hfill (writes_plain guardPattern_opensWith _ (not_mem_text_plain hmap))
      (writes_plain sourcePattern_opensWith _ (not_mem_text_plain hmap))
  · obtain ⟨hblank, hquote, hclause⟩ := valid_directive h
    refine writes_passes hfill (writes_directive (writes_plain guardPattern_opensWith _ (blank_ne_star h)) ?_)
      (writes_retargetSources hitem new h)
    exact writes_core guardPattern_opensWith _ (Clause.valid_attr hclause hblank hquote) (fun rest => rfl)
      (Clause.not_star hclause)
  · next negated p =>
    obtain ⟨hblank, hquote, hclause⟩ := valid_directive h
    have hmap := isValid_map (fun p => Path.isValid_rename item hnew) h
    have hguard := writes_guard new (Clause.valid_attr hclause hblank hquote) (isIdent_iff.1 hitem).1
      (Clause.not_star hclause)
    rw [show (Clause.attr blank quote (.guard negated p)).quoted.value = (Clause.guard negated p).text from rfl,
      writtenGuard_text hitem new negated hclause] at hguard
    have hblank' := writes_plain guardPattern_opensWith (rebased item new) (blank_ne_star h)
    have hpath : Writes (guardPattern.replace (rebased item new)) (directive blank quote (.guard negated p)).text
        (directive blank quote (.guard negated (p.rename item new))).text := writes_directive hblank' hguard
    exact writes_passes hfill hpath (writes_retargetSources hitem new hmap)

end Chunk

theorem Bit.writes_retargetAll {item new : Text} (hitem : isIdent item = true) (hnew : isIdent new = true)
    {b : Bit} (h : b.isValid = true) :
    Writes (Reference.retargetAll item new) b.text (b.map (Path.rename item new)).text := by
  have hfill := writes_fill h (Reference.rebasedPlaceholder item new)
  rw [fill_rebasedPlaceholder hitem h] at hfill
  have hstar : '*' ∉ (b.map (Path.rename item new)).text :=
    not_mem_text (isValid_map (fun p => Path.isValid_rename item hnew) h) (.inr rfl)
  exact Reference.writes_passes hfill (Reference.writes_plain Reference.guardPattern_opensWith _ hstar)
    (Reference.writes_plain Reference.sourcePattern_opensWith _ hstar)

/-! ## Tags -/

namespace Opening

open Reference

variable {o : Opening} {item new : Text} {C : Char → Prop} {g : Text → Text}

theorem writes_tag (hg : Text.Local C g) (h : o.isValid = true) {out : Chunk → Text}
    (hout : ∀ k ∈ o.chunks, Writes g k.text (out k)) :
    Writes g o.tag.print (Tag.print ⟨false, o.name, o.chunks.flatMap out ++ o.trail⟩) := by
  have htrail : g o.trail = o.trail := by
    have := hg.plain o.trail [] fun c hc => .inl (by
      by_contra hne
      exact not_mem_trail hne hc)
    rwa [List.append_nil, hg.nil, List.append_nil] at this
  have hbody : g o.tag.body = o.chunks.flatMap out ++ o.trail := by
    show g (o.chunks.flatMap Chunk.text ++ o.trail) = _
    rw [Writes.flatMap hout, htrail]
  intro rest
  have := Markup.rewrite_print hg (proper_tag h) [] rest
  rw [hg.nil, List.nil_append, List.nil_append, Tag.mapBody, hbody] at this
  exact this

theorem writes_closingTag (hg : Text.Local C g) (h : o.isValid = true) :
    Writes g o.closingTag.print o.closingTag.print := by
  intro rest
  have := Markup.rewrite_print hg (proper_closingTag h) [] rest
  rwa [hg.nil, List.nil_append, List.nil_append, Tag.mapBody, show o.closingTag.body = [] from rfl, hg.nil] at this

theorem shadowing?_tag (h : o.isValid = true) (item : Text) :
    (o.declares item = false ∧ shadowing? item o.tag = none) ∨
      (o.declares item = true ∧ (shadowing? item o.tag).isSome = true) := by
  unfold declares shadowing?
  cases hloop : o.loop? with
  | none => exact .inl ⟨rfl, by rw [ofTag?_loop_eq_none h hloop]; rfl⟩
  | some loop =>
    obtain ⟨i, source⟩ := loop
    obtain ⟨d, hd, -, hvalue, -⟩ := exists_ofTag?_loop h hloop
    obtain ⟨hi, hsource⟩ := valid_of_loop? h hloop
    rw [hd, Option.filter_some, hvalue, Clause.parse?_text hi hsource, Option.any_some, Option.any_some]
    by_cases hitem : i = item
    · exact .inr ⟨by simp [hitem], by simp [hitem]⟩
    · exact .inl ⟨by simp [hitem], by simp [hitem]⟩

theorem writes_rename_open (hitem : isIdent item = true) (hnew : isIdent new = true) (h : o.isValid = true)
    (hdeclares : o.declares item = false) :
    Writes (retargetAll item new) o.tag.print (o.rename item new).tag.print := by
  have hlocal : Text.Local (fun _ => True) (retargetAll item new) :=
    local_retargetAll (isPath_of_isIdent hnew)
  have hwrites := writes_tag hlocal h fun k hk =>
    Chunk.writes_retargetAll hitem hnew ((isValid_iff.1 h).2.1 k hk)
  rw [rename, if_neg (by simp [hdeclares])]
  simpa [tag, trail, List.flatMap_map] using hwrites

theorem writes_rename_hidden (hitem : isIdent item = true) (hnew : isIdent new = true) (h : o.isValid = true)
    (hdeclares : o.declares item = true) :
    retargetSources item new o.tag.print = (o.rename item new).tag.print := by
  have hlocal : Text.Local (fun _ => True) (retargetSources item new) :=
    local_retargetSources (isPath_of_isIdent hnew)
  have hwrites := writes_tag hlocal h fun k hk =>
    Chunk.writes_retargetSources hitem new ((isValid_iff.1 h).2.1 k hk)
  have hall := hwrites []
  rw [List.append_nil, hlocal.nil, List.append_nil] at hall
  rw [hall, rename, if_pos hdeclares]
  simp [tag, trail, List.flatMap_map]

end Opening

/-! ## Markup -/

namespace Reference

variable {item new : Text} {m n : Markup} {t u : Text}

theorem retargetMarkup_append (hn : ∀ tag ∈ n.tags, shadowing? item tag = none)
    (hw : Writes (retargetAll item new) n.text t) (hm : retargetMarkup item new m = .ok u) :
    retargetMarkup item new (n ++ m) = .ok (t ++ u) := by
  rw [retargetMarkup] at hm ⊢
  have hcut := Markup.cutAtTag_append hn m
  split at hm
  · next hnone =>
    rw [hnone] at hcut
    split
    · rw [Markup.text_append, hw, Except.ok.inj hm]
    · next hsome => simp [hcut] at hsome
  · next front d rest hsome =>
    rw [hsome] at hcut
    split
    · next hnone => simp [hcut] at hnone
    · next front' d' rest' hsome' =>
      rw [hcut] at hsome'
      simp only [Option.map_some, Option.some.injEq, Prod.mk.injEq] at hsome'
      obtain ⟨rfl, rfl, rfl⟩ := hsome'
      split at hm
      · simp at hm
      · next inside after hspan =>
        split at hm
        · simp at hm
        · rw [← Except.ok.inj hm, Markup.text_append, hw]
          simp

/-- At a tag that hides the item, only the source of its loop is retargeted. -/
theorem retargetMarkup_hidden {tag : Tag} {inside after : Markup}
    (hhides : (shadowing? item tag).isSome = true) (hspan : Markup.cutSpan tag m = some (inside, after))
    (hafter : retargetMarkup item new after = .ok u) :
    retargetMarkup item new (.lexeme tag :: m) =
      .ok (retargetSources item new tag.print ++ (inside.text ++ u)) := by
  have hnil : retargetAll item new [] = [] := by
    simp [retargetAll, retargetSources, Pattern.replace]
  have hloop : retargetMarkup item new ([] ++ .lexeme tag :: m) = _ :=
    retargetMarkup_loop (by simp) hhides hspan
  rw [List.nil_append, hafter, Markup.text_nil, hnil] at hloop
  rw [hloop]
  simp [Except.map]

end Reference

namespace Template

open Reference

variable {item new : Text} {T : Template}

theorem retargetMarkup_append (hitem : isIdent item = true) (hnew : isIdent new = true) (h : T.isValid = true)
    {m : Markup} {u : Text} (hm : retargetMarkup item new m = .ok u) :
    retargetMarkup item new (T.markup ++ m) = .ok ((T.rename item new).text ++ u) := by
  have hlocal : Text.Local (fun _ => True) (retargetAll item new) :=
    local_retargetAll (isPath_of_isIdent hnew)
  induction T generalizing m u with
  | nil => exact hm
  | bit b rest ih =>
    obtain ⟨hb, hrest⟩ := valid_bit h
    have hafter := ih hrest hm
    rw [markup, rename, text, List.append_assoc, List.append_assoc]
    exact Reference.retargetMarkup_append (by simp) (by simpa using Bit.writes_retargetAll hitem hnew hb) hafter
  | leaf o rest ih =>
    obtain ⟨ho, hopens, hrest⟩ := valid_leaf h
    have hafter := ih hrest hm
    rw [markup, rename, text, List.append_assoc]
    rcases Opening.shadowing?_tag ho item with ⟨hdeclares, hnone⟩ | ⟨hdeclares, hhides⟩
    · have hw := Opening.writes_rename_open hitem hnew ho hdeclares
      exact Reference.retargetMarkup_append (n := [.lexeme o.tag]) (by simpa using hnone) (by simpa using hw) hafter
    · have := retargetMarkup_hidden hhides (cutSpan_leaf hopens _) hafter
      rw [Opening.writes_rename_hidden hitem hnew ho hdeclares] at this
      simpa using this
  | element o inside rest ihInside ih =>
    obtain ⟨ho, hopens, hinside, hrest⟩ := valid_element h
    have hafter := ih hrest hm
    rw [markup, rename, text, List.append_assoc]
    rcases Opening.shadowing?_tag ho item with ⟨hdeclares, hnone⟩ | ⟨hdeclares, hhides⟩
    · have hw := Opening.writes_rename_open hitem hnew ho hdeclares
      have hclosing : retargetMarkup item new (.lexeme o.closingTag :: (rest.markup ++ m)) =
          .ok (o.closingTag.print ++ ((rest.rename item new).text ++ u)) :=
        Reference.retargetMarkup_append (n := [.lexeme o.closingTag])
          (by simp [shadowing?, Opening.ofTag?_closingTag])
          (by simpa using Opening.writes_closingTag hlocal ho) hafter
      have hcontent := ihInside hinside hclosing
      have := Reference.retargetMarkup_append (n := [.lexeme o.tag]) (by simpa using hnone) (by simpa using hw) hcontent
      simpa [hdeclares] using this
    · have := retargetMarkup_hidden hhides (cutSpan_element hinside hopens (rest.markup ++ m)) hafter
      rw [Opening.writes_rename_hidden hitem hnew ho hdeclares] at this
      simpa [hdeclares] using this

/-- Retargeting the text of a template renames the item in its tree. -/
theorem retarget_text (hitem : isIdent item = true) (hnew : isIdent new = true) (h : T.isValid = true) :
    retarget item new T.text = .ok (T.rename item new).text := by
  have hnil : retargetMarkup item new [] = .ok [] := by
    simp [retargetMarkup, retargetAll, retargetSources, Pattern.replace, Markup.cutAtTag]
  have := retargetMarkup_append hitem hnew h hnil
  rwa [List.append_nil, List.append_nil, ← ofText_text h] at this

end Template
end HtmlTemplate
