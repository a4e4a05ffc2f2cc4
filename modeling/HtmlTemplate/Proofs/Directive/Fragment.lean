import HtmlTemplate.Proofs.Directive.Agreement
import HtmlTemplate.Proofs.Markup.Span

/-!
# Retargeted fragments

Retargeting copies the bodies of the loops that shadow the item and rewrites all between them as plain text. A scan of
the outcome finds as many tags as the fragment has, and those that no such loop holds are found rewritten
(`Reference.exists_tags_retargetMarkup`). With what becomes of the directives of a rewritten tag, this says which path
evaluation reads there (`Reference.retarget_paths`).
-/

namespace HtmlTemplate

namespace Markup

variable {C : Char → Prop}

theorem Holds.exchange {m : Markup} {s : Tag} (h : Holds C (fun _ => True) (m ++ [.lexeme s])) (t : Tag) :
    Holds C (fun _ => True) (m ++ [.lexeme t]) := by
  obtain ⟨w, x, hblocked, hw, ⟨hx, n, he⟩ | ⟨hx, tag, n, he, -⟩⟩ := h
  · rcases List.eq_nil_or_concat n with rfl | ⟨n, piece, rfl⟩
    · obtain ⟨-, hpiece⟩ := List.append_inj' he rfl
      simp at hpiece
    · rw [List.concat_eq_append, ← List.cons_append, ← List.append_assoc] at he
      obtain ⟨rfl, -⟩ := List.append_inj' he rfl
      exact ⟨w, x, hblocked, hw, .inl ⟨hx, n ++ [.lexeme t], by simp⟩⟩
  · rcases List.eq_nil_or_concat n with rfl | ⟨n, piece, rfl⟩
    · obtain ⟨rfl, -⟩ := List.append_inj' he rfl
      exact ⟨w, x, hblocked, hw, .inr ⟨hx, t, [], rfl, trivial⟩⟩
    · rw [List.concat_eq_append, ← List.cons_append, ← List.append_assoc] at he
      obtain ⟨rfl, -⟩ := List.append_inj' he rfl
      exact ⟨w, x, hblocked, hw, .inr ⟨hx, tag, n ++ [.lexeme t], by simp, trivial⟩⟩

theorem Sealed.exchange {m : Markup} {s t : Tag} (h : Sealed C (fun _ => True) (m ++ [.lexeme s])) (ht : t.Proper) :
    Sealed C (fun _ => True) (m ++ [.lexeme t]) := by
  induction m with
  | nil => exact ⟨ht, trivial⟩
  | cons piece m ih =>
    cases piece with
    | char c => exact ⟨fun hc => (h.1 hc).exchange t, ih h.2⟩
    | lexeme tag => exact ⟨h.1, ih h.2⟩

theorem pass_append_lexeme (g : Text → Text) (acc : Text) (m : Markup) (tag : Tag) (n : Markup) :
    pass g acc (m ++ .lexeme tag :: n) = pass g acc m ++ .lexeme (tag.mapBody g) :: pass g [] n := by
  induction m generalizing acc with
  | nil => rfl
  | cons piece m ih =>
    cases piece with
    | char c =>
      rw [List.cons_append, pass, pass]
      split
      · rw [ih, List.append_assoc, List.cons_append]
      · exact ih _
    | lexeme tag' => rw [List.cons_append, pass, pass, ih, List.append_assoc, List.cons_append]

theorem exists_of_append_map_char {x u v : Markup} {tail : Text} {tag : Tag}
    (h : x ++ tail.map .char = u ++ .lexeme tag :: v) : ∃ y, x = u ++ .lexeme tag :: y ∧ v = y ++ tail.map .char := by
  rcases Text.exists_of_append_eq_cons_append h with ⟨w, -, hw⟩ | hinside
  · have hmem : .lexeme tag ∈ tail.map (Piece.char (α := Tag)) := by simp [hw]
    simp at hmem
  · exact hinside

theorem text_ne_nil {m : Markup} (h : m ≠ []) : m.text ≠ [] := by
  cases m with
  | nil => exact absurd rfl h
  | cons piece m => cases piece <;> simp [Tag.print]

/-- Markup that is empty or ends in a closing bracket. -/
def Ended (m : Markup) : Prop := m = [] ∨ m.text.getLast? = some '>'

theorem Ended.right {m n : Markup} (h : Ended (m ++ n)) : Ended n := by
  rcases h with hnil | hlast
  · exact .inl (List.append_eq_nil_iff.1 hnil).2
  · by_cases hn : n = []
    · exact .inl hn
    · rw [text_append, List.getLast?_append_of_ne_nil _ (text_ne_nil hn)] at hlast
      exact .inr hlast

theorem Ended.rewrite_append {g : Text → Text} (hg : Text.Local C g) {m : Markup} (h : Ended m) (t : Text) :
    g (m.text ++ t) = g m.text ++ g t := by
  rcases h with rfl | hlast
  · simp [hg.nil]
  · obtain ⟨u, hu⟩ := List.getLast?_eq_some_iff.1 hlast
    have hend := hg.closing u []
    rw [hg.nil] at hend
    rw [hu, List.append_assoc, List.singleton_append, hg.closing, hend, List.append_assoc, List.singleton_append]

end Markup

namespace Reference

open Markup (Sealed Ended pass cutSpan)
open Text (IsPath)

variable {item binding : Text}

/-- A tag between `front` and `rest` that declares the item anew, or lies in a loop that does. -/
def Shadowed (item : Text) (front : Markup) (tag : Tag) (rest : Markup) : Prop :=
  (shadowing? item tag).isSome = true ∨
    ∃ before loop between inside after, front = before ++ .lexeme loop :: between ∧
      (shadowing? item loop).isSome = true ∧
      cutSpan loop (between ++ .lexeme tag :: rest) = some (between ++ .lexeme tag :: inside, after)

theorem Shadowed.append_left {front : Markup} {tag : Tag} {rest : Markup} (h : Shadowed item front tag rest)
    (m : Markup) : Shadowed item (m ++ front) tag rest := by
  rcases h with h | ⟨before, loop, between, inside, after, rfl, h⟩
  · exact .inl h
  · exact .inr ⟨m ++ before, loop, between, inside, after, by simp, h⟩

/-- A tag that is not shadowed stands before the first shadowing loop or behind it. -/
theorem not_inside_of_not_shadowed {before inside behind front rest : Markup} {loop tag : Tag} {tail : Text}
    (hloop : (shadowing? item loop).isSome = true)
    (hspan : cutSpan loop (inside ++ behind ++ tail.map .char) = some (inside, behind ++ tail.map .char))
    (h : before ++ .lexeme loop :: (inside ++ behind) = front ++ .lexeme tag :: rest)
    (hopen : ¬ Shadowed item front tag (rest ++ tail.map .char)) :
    (∃ between, before = front ++ .lexeme tag :: between) ∨
      ∃ between, front = before ++ .lexeme loop :: (inside ++ between) ∧ behind = between ++ .lexeme tag :: rest := by
  rcases Text.exists_of_append_eq_cons_append h with ⟨w, rfl, hw⟩ | ⟨between, hbefore, -⟩
  · cases w with
    | nil =>
      obtain ⟨hsame, -⟩ := List.cons.inj hw
      obtain rfl := Piece.lexeme.inj hsame
      exact absurd (.inl hloop) hopen
    | cons piece w =>
      obtain ⟨rfl, hw'⟩ := List.cons.inj hw
      rcases Text.exists_of_append_eq_cons_append hw' with ⟨v, rfl, hv⟩ | ⟨v, rfl, rfl⟩
      · exact .inr ⟨v, rfl, hv⟩
      · refine absurd (.inr ⟨before, loop, w, v, behind ++ tail.map .char, rfl, hloop, ?_⟩) hopen
        simpa using hspan
  · exact .inl ⟨between, hbefore⟩

theorem exists_of_cutSpan_append {loop : Tag} {m inside after : Markup} {tail : Text}
    (h : cutSpan loop (m ++ tail.map .char) = some (inside, after)) :
    ∃ behind, m = inside ++ behind ∧ after = behind ++ tail.map .char := by
  have happ := Markup.eq_append_of_cutSpan h
  rcases Markup.exists_closing_of_cutSpan h with rfl | ⟨i, closing, rfl⟩
  · exact ⟨m, rfl, happ.symm⟩
  · rw [List.append_assoc, List.singleton_append] at happ
    obtain ⟨behind, rfl, rfl⟩ := Markup.exists_of_append_map_char happ
    exact ⟨behind, by simp, rfl⟩

/-- What a scan finds in the outcome of retargeting markup `x` with the characters `tail` behind it: markup `x'` with
as many tags, in which the tags that were not shadowed are rewritten, and characters `tail'`. -/
structure Rewritten (item binding : Text) (x : Markup) (tail out : Text) (x' : Markup) (tail' : Text) : Prop where
  text : out = x'.text ++ tail'
  not_end : '>' ∉ tail'
  isSealed : Sealed (fun _ => True) (fun _ => True) x'
  length : x'.tags.length = x.tags.length
  exposed : ∀ front tag rest, x = front ++ .lexeme tag :: rest → ¬ Shadowed item front tag (rest ++ tail.map .char) →
    x'.tags[front.tags.length]? = some (tag.mapBody (retargetAll item binding))

theorem sealed_retargetAll (item : Text) (hbinding : IsPath binding) {m : Markup} (h : Sealed (fun _ => True) (fun _ => True) m) :
    Sealed (fun _ => True) (fun _ => True) (pass (retargetAll item binding) [] m) :=
  Markup.sealed_pass (local_retargetAll hbinding) h
    (fun tag htag => ⟨(copy_retargetAll hbinding tag).proper (h.proper htag), id⟩) (by simp)

theorem rewritten_all (hbinding : IsPath binding) {x : Markup} {tail : Text}
    (hx : Sealed (fun _ => True) (fun _ => True) x) (hended : Ended x) (htail : '>' ∉ tail) :
    Rewritten item binding x tail (retargetAll item binding (x.text ++ tail))
      (pass (retargetAll item binding) [] x) (retargetAll item binding tail) := by
  have hlocal : Text.Local (fun _ => True) (retargetAll item binding) := local_retargetAll hbinding
  refine ⟨?_, ?_, sealed_retargetAll item hbinding hx, by simp, ?_⟩
  · rw [Markup.text_pass hlocal (fun _ => hx.proper), List.nil_append, hended.rewrite_append hlocal]
  · have hcount := Directive.count_retargetAll item hbinding (show Text.isMark '>' = true by decide) tail
    rw [List.count_eq_zero_of_not_mem htail] at hcount
    exact List.count_eq_zero.1 hcount
  · rintro front tag rest rfl -
    simp

/-- Markup with a shadowing loop, of which the source is rewritten and the body is copied. -/
theorem Rewritten.shadowing (hbinding : IsPath binding) {before inside behind : Markup} {loop : Tag} {tail t : Text}
    {x' : Markup} {tail' : Text} (hx : Sealed (fun _ => True) (fun _ => True) (before ++ .lexeme loop :: (inside ++ behind)))
    (hloop : (shadowing? item loop).isSome = true)
    (hspan : cutSpan loop (inside ++ behind ++ tail.map .char) = some (inside, behind ++ tail.map .char))
    (h : Rewritten item binding behind tail t x' tail') :
    Rewritten item binding (before ++ .lexeme loop :: (inside ++ behind)) tail
      (retargetAll item binding before.text ++ retargetSources item binding loop.print ++ inside.text ++ t)
      (pass (retargetAll item binding) [] before ++
        .lexeme (loop.mapBody (retargetSources item binding)) :: (inside ++ x')) tail' where
  text := by
    have hlocal : Text.Local (fun _ => True) (retargetAll item binding) := local_retargetAll hbinding
    have hsources : Text.Local (fun _ => True) (retargetSources item binding) := local_retargetSources hbinding
    have hprint := Markup.rewrite_print hsources hx.right.1 [] []
    simp only [hsources.nil, List.nil_append, List.append_nil] at hprint
    have hproper : ∀ tag ∈ before.tags, tag.Proper := fun tag htag => hx.left.proper (by simp [htag])
    rw [h.text, Markup.text_append, Markup.text_pass hlocal hproper, hprint]
    simp
  not_end := h.not_end
  isSealed := by
    have hlocal : Text.Local (fun _ => True) (retargetAll item binding) := local_retargetAll hbinding
    have hbefore := sealed_retargetAll item hbinding hx.left
    rw [Markup.pass_append_lexeme, Markup.pass, hlocal.nil, List.map_nil] at hbefore
    have hcopy : loop.Copy (loop.mapBody (retargetSources item binding)) := copy_retargetSources hbinding loop
    have hheader := hbefore.exchange (hcopy.proper hx.right.1)
    have hall := hheader.append ((hx.right.2.inside_span hspan).append h.isSealed)
    simpa using hall
  length := by simp [h.length]
  exposed front tag rest hsplit hopen := by
    rcases not_inside_of_not_shadowed hloop hspan hsplit hopen with ⟨between, rfl⟩ | ⟨between, rfl, rfl⟩
    · simp
    · have hopen' : ¬ Shadowed item between tag (rest ++ tail.map .char) := fun hshadowed => by
        have := hshadowed.append_left (before ++ .lexeme loop :: inside)
        exact hopen (by simpa using this)
      have htags : (pass (retargetAll item binding) [] before ++
          .lexeme (loop.mapBody (retargetSources item binding)) :: (inside ++ x')).tags =
            (before.tags.map (Tag.mapBody (retargetAll item binding)) ++
              loop.mapBody (retargetSources item binding) :: inside.tags) ++ x'.tags := by simp
      have hlength : (before ++ Piece.lexeme loop :: (inside ++ between)).tags.length =
          (before.tags.map (Tag.mapBody (retargetAll item binding)) ++
            loop.mapBody (retargetSources item binding) :: inside.tags).length + between.tags.length := by
        simp
        omega
      rw [htags, hlength, List.getElem?_append_right (Nat.le_add_right _ _), Nat.add_sub_cancel_left]
      exact h.exposed between tag rest rfl hopen'

theorem exists_rewritten (hbinding : IsPath binding) {x : Markup} {tail out : Text}
    (hx : Sealed (fun _ => True) (fun _ => True) x) (hended : Ended x) (htail : '>' ∉ tail)
    (h : retargetMarkup item binding (x ++ tail.map .char) = .ok out) :
    ∃ x' tail', Rewritten item binding x tail out x' tail' := by
  generalize hm : x ++ tail.map .char = m at h
  fun_induction retargetMarkup item binding m generalizing x out with
  | case1 m hcut =>
    obtain rfl := Except.ok.inj h
    rw [← hm, Markup.text_append, Markup.text_map_char]
    exact ⟨_, _, rewritten_all hbinding hx hended htail⟩
  | case2 => simp at h
  | case3 => simp at h
  | case4 m before d rest hcut inside after hspan t ht ih =>
    obtain rfl := Except.ok.inj h
    obtain ⟨hsplit, hloop⟩ := eq_append_of_cutAtTag hcut
    obtain ⟨x₀, rfl, rfl⟩ := Markup.exists_of_append_map_char (hm.trans hsplit)
    obtain ⟨behind, rfl, rfl⟩ := exists_of_cutSpan_append hspan
    have hended' : Ended behind := by
      rw [← List.cons_append, ← List.append_assoc] at hended
      exact hended.right
    obtain ⟨x', tail', hbehind⟩ := ih hx.right.2.right hended' rfl ht
    exact ⟨_, tail', hbehind.shadowing hbinding hx (by rw [hloop]; rfl) hspan⟩

/-! ## Paths in retargeted fragments -/

/-- A path and its leading run of path characters both begin with the item, or neither does. -/
def HeadsAgree (item path : Text) : Prop :=
  (DataPath.splitHead path).1 = item ↔ (DataPath.splitHead (path.takeWhile isPathChar)).1 = item

instance (item path : Text) : Decidable (HeadsAgree item path) := inferInstanceAs (Decidable (_ ↔ _))

theorem retargeted_source_eq_moved_iff (hitem : '.' ∉ item) (hfresh : binding ≠ item) (e : LoopExpr) :
    (e.retargeted item binding).source = DataPath.moved item binding e.source ↔
      ((DataPath.splitHead e.source).1 = item ↔
        e.item.all Text.isWord = true ∧ (DataPath.splitHead (e.source.takeWhile isPathChar)).1 = item) := by
  unfold LoopExpr.retargeted
  by_cases hword : e.item.all Text.isWord = true
  · rw [if_pos hword, written_eq_moved_iff hitem hfresh]
    simp [hword]
  · rw [if_neg hword, DataPath.moved]
    by_cases hhead : (DataPath.splitHead e.source).1 = item
    · have hne : e.source ≠ binding ++ e.source.dropWhile (· != '.') := by
        intro hsame
        have hsplit := DataPath.head_append e.source
        rw [hhead] at hsplit
        exact hfresh (List.append_cancel_right (hsame.symm.trans hsplit.symm))
      rw [if_pos hhead]
      simp [hword, hhead, hne]
    · rw [if_neg hhead]
      simp [hword, hhead]

/-- Which path evaluation reads where retargeting has been. A tag of the fragment that neither shadows the item nor lies
in a loop that does is found again in the outcome, by its number among the tags. Of its guard, if nothing else is read
inside the value, and of its loop, if the expression is one, the leading run of the path is rebased. This gives the path
with its first segment replaced if that is the item, just where the path and its leading run agree on that. -/
theorem retarget_paths {fragment out : Text} {n : Nat} (hitem : LoopExpr.isIdentifier item = true)
    (hfresh : Scope.nameOf n ≠ item) (h : retarget item (Scope.nameOf n) fragment = .ok out) {front rest : Markup}
    {tag : Tag} (hfragment : Markup.ofText fragment = front ++ .lexeme tag :: rest)
    (hopen : ¬ Shadowed item front tag rest) :
    (Markup.ofText out).tags.length = (Markup.ofText fragment).tags.length ∧
    ∃ tag', (Markup.ofText out).tags[front.tags.length]? = some tag' ∧
      (∀ d, Directive.ofTag? .guard tag = some d → Placeholder.pattern.find? d.value = none → '*' ∉ d.value →
        ∃ d', Directive.ofTag? .guard tag' = some d' ∧
          Guard.parse d'.value = (Guard.parse d.value).retargeted item (Scope.nameOf n) ∧
          ((Guard.parse d'.value).path = DataPath.moved item (Scope.nameOf n) (Guard.parse d.value).path ↔
            HeadsAgree item (Guard.parse d.value).path)) ∧
      ∀ d e, Directive.ofTag? .loop tag = some d → LoopExpr.parse? d.value = some e →
        ∃ d' e', Directive.ofTag? .loop tag' = some d' ∧ LoopExpr.parse? d'.value = some e' ∧
          e' = e.retargeted item (Scope.nameOf n) ∧
          (e'.source = DataPath.moved item (Scope.nameOf n) e.source ↔
            ((DataPath.splitHead e.source).1 = item ↔
              e.item.all Text.isWord = true ∧ (DataPath.splitHead (e.source.takeWhile isPathChar)).1 = item)) := by
  have hpoint : '.' ∉ item := LoopExpr.not_mem_of_isIdentifier hitem (by decide)
  have hbinding := Scope.isPath_nameOf n
  obtain ⟨main, tail, rfl, htail, hmain⟩ := Text.exists_tail fragment
  have hscan := Markup.ofText_append_of_not_mem_end htail main
  have hsealed : Sealed (fun _ => True) (fun _ => True) (Markup.ofText main) :=
    Markup.sealed_ofText (fun u v huv => Text.end_mem_of_ended hmain huv) (fun _ _ => trivial)
      fun u w v _ _ => ⟨fun _ _ => trivial, fun _ _ => trivial⟩
  have hended : Ended (Markup.ofText main) := by
    rcases hmain with rfl | hlast
    · exact .inl Markup.ofText_nil
    · exact .inr (by rwa [Markup.text_ofText])
  rw [retarget, hscan] at h
  obtain ⟨x', tail', hx'⟩ := exists_rewritten hbinding hsealed hended htail h
  have hout : Markup.ofText out = x' ++ tail'.map .char := by
    rw [hx'.text, Markup.ofText_append_of_not_mem_end hx'.not_end, hx'.isSealed.ofText_text]
  rw [hscan] at hfragment
  obtain ⟨rest, hmarkup, rfl⟩ := Markup.exists_of_append_map_char hfragment
  have htag : tag.Proper := hsealed.proper (by rw [hmarkup]; simp)
  have hindex := hx'.exposed front tag rest hmarkup hopen
  refine ⟨by simp [hout, hscan, hx'.length], tag.mapBody (retargetAll item (Scope.nameOf n)), ?_, ?_, ?_⟩
  · rw [hout]
    simpa using hindex
  · intro d hd hplain hstar
    obtain ⟨d', hd', hguard⟩ := Directive.exists_guard_retargetAll hitem hbinding htag hd hplain hstar
    refine ⟨d', hd', hguard, ?_⟩
    rw [hguard]
    exact written_eq_moved_iff hpoint hfresh _
  · intro d e hd he
    obtain ⟨d', hd', hloop⟩ := Directive.exists_loop_retargetAll hitem hbinding (LoopExpr.isIdentifier_nameOf n) htag hd he
    exact ⟨d', _, hd', hloop, rfl, retargeted_source_eq_moved_iff hpoint hfresh e⟩

/-- A tag with a loop and a guard, behind another element. -/
theorem retarget_paths_row :
    let item := "item".toList
    let fragment := "<i>a</i><b *for='x of item.xs' *if='! item.ok'>c</b>".toList
    ∃ out tag', retarget item (Scope.nameOf 0) fragment = .ok out ∧ (Markup.ofText out).tags[2]? = some tag' ∧
      (∃ d', Directive.ofTag? .guard tag' = some d' ∧ (Guard.parse d'.value).path = "__templ_iter_0.ok".toList) ∧
      ∃ d' e', Directive.ofTag? .loop tag' = some d' ∧ LoopExpr.parse? d'.value = some e' ∧
        e'.source = "__templ_iter_0.xs".toList := by
  intro item fragment
  let tag : Tag := ⟨false, ['b'], " *for='x of item.xs' *if='! item.ok'".toList⟩
  let front : Markup := [.lexeme ⟨false, ['i'], []⟩, .char 'a', .lexeme ⟨true, ['i'], []⟩]
  let rest : Markup := [.char 'c', .lexeme ⟨true, ['b'], []⟩]
  have hret : retarget item (Scope.nameOf 0) fragment =
      .ok "<i>a</i><b *for='x of __templ_iter_0.xs' *if='! __templ_iter_0.ok'>c</b>".toList := by decide +kernel
  have hopen : ¬ Shadowed item front tag rest := by
    rintro (h | ⟨before, loop, between, -, -, hfront, h, -⟩)
    · exact absurd h (by decide +kernel)
    · have hmem : loop ∈ front.tags := by rw [hfront]; simp
      have hall : front.tags.all (fun loop => !(shadowing? item loop).isSome) = true := by decide +kernel
      simpa [h] using List.all_eq_true.1 hall loop hmem
  have hfragment : Markup.ofText fragment = front ++ .lexeme tag :: rest := by decide +kernel
  obtain ⟨-, tag', htag', hguard, hloop⟩ :=
    retarget_paths (by decide +kernel) (by decide +kernel) hret hfragment hopen
  obtain ⟨d', hd', -, hpath⟩ := hguard ⟨tag, "<b *for='x of item.xs'".toList, ⟨' ', ['='], ⟨'\'', "! item.ok".toList⟩⟩, ['>']⟩
    (by decide +kernel) (by decide +kernel) (by decide +kernel)
  obtain ⟨d'', e', hd'', he', -, hsource⟩ :=
    hloop ⟨tag, "<b".toList, ⟨' ', ['='], ⟨'\'', "x of item.xs".toList⟩⟩, " *if='! item.ok'>".toList⟩
      ⟨['x'], "item.xs".toList⟩ (by decide +kernel) (by decide +kernel)
  exact ⟨_, tag', hret, htag', ⟨d', hd', (hpath.2 (by decide +kernel)).trans (by decide +kernel)⟩,
    d'', e', hd'', he', (hsource.2 (by decide +kernel)).trans (by decide +kernel)⟩

/-- A path that only begins with the name of the item is taken for one that begins with the item. -/
theorem retarget_paths_hyphen :
    let item := "item".toList
    let fragment := "<b *if='item-x'>y</b>".toList
    ∃ out tag rest tag' d d', retarget item (Scope.nameOf 0) fragment = .ok out ∧
      Markup.ofText fragment = .lexeme tag :: rest ∧ ¬ Shadowed item [] tag rest ∧
      (Markup.ofText out).tags[0]? = some tag' ∧ Directive.ofTag? .guard tag = some d ∧
      Directive.ofTag? .guard tag' = some d' ∧ (DataPath.splitHead (Guard.parse d.value).path).1 ≠ item ∧
      (Guard.parse d.value).path = "item-x".toList ∧ (Guard.parse d'.value).path = "__templ_iter_0-x".toList := by
  intro item fragment
  let tag : Tag := ⟨false, ['b'], " *if='item-x'".toList⟩
  let tag' : Tag := ⟨false, ['b'], " *if='__templ_iter_0-x'".toList⟩
  have hopen : ¬ Shadowed item [] tag [.char 'y', .lexeme ⟨true, ['b'], []⟩] := by
    rintro (h | ⟨before, loop, between, -, -, hfront, -⟩)
    · exact absurd h (by decide +kernel)
    · simp at hfront
  exact ⟨"<b *if='__templ_iter_0-x'>y</b>".toList, tag, _, tag',
    ⟨tag, "<b".toList, ⟨' ', ['='], ⟨'\'', "item-x".toList⟩⟩, ['>']⟩,
    ⟨tag', "<b".toList, ⟨' ', ['='], ⟨'\'', "__templ_iter_0-x".toList⟩⟩, ['>']⟩,
    by decide +kernel, by decide +kernel, hopen, by decide +kernel, by decide +kernel, by decide +kernel,
    by decide +kernel, by decide +kernel, by decide +kernel⟩

end Reference
end HtmlTemplate
