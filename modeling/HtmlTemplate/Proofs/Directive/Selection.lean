import HtmlTemplate.Proofs.Directive.Survivors
import HtmlTemplate.Proofs.Directive.WellFormed
import HtmlTemplate.Proofs.Markup.Partner
import HtmlTemplate.Proofs.Text.Erase

/-!
# What selection removes

Selection edits a text again and again, but what it removes can be told from the text before: the spans of
the opening tags with a guard that fails, and the guards of all other opening tags
(`Directive.select_eq_erase`).
-/

namespace HtmlTemplate

open Text (byteLength erase Within)

/-! ## Guards of a tag -/

namespace Tag

def guardPattern : Pattern Attribute := Attribute.pattern DirectiveKind.guard.attributeName

def guardsHold (s : Scope) (tag : Tag) : Bool :=
  (guardPattern.lexemes tag.print).all fun a => (Guard.parse a.quoted.value).holds s

/-- What selection leaves of a tag; nothing if its element goes. -/
def selected (s : Scope) (tag : Tag) : Option Text :=
  if tag.closing then some tag.print
  else if tag.guardsHold s then some (guardPattern.replace (fun _ => []) tag.print)
  else none

/-- The byte ranges that selection removes for a tag at byte `start` whose span ends at `spanEnd`. -/
def removed (s : Scope) (tag : Tag) (start : Nat) (spanEnd : Option Nat) : List (Nat × Nat) :=
  if tag.closing then []
  else if tag.guardsHold s then
    (guardPattern.occurrences start (guardPattern.pieces tag.print)).map Prod.snd
  else spanEnd.toList.map fun stop => (start, stop)

theorem removed_of_selected_none {s : Scope} {tag : Tag} (h : tag.selected s = none) (start stop : Nat) :
    tag.removed s start (some stop) = [(start, stop)] := by
  unfold selected at h
  unfold removed
  split at h
  · simp at h
  · next hclosing =>
    rw [if_neg hclosing]
    split at h
    · simp at h
    · next hhold =>
      rw [if_neg hhold]
      rfl

/-- Of a tag that stays, the ranges of its guards are removed, whatever its span. -/
theorem exists_removed {s : Scope} {tag : Tag} {u : Text} (h : tag.selected s = some u) (start : Nat) :
    ∃ ranges, (∀ spanEnd, tag.removed s start spanEnd = ranges) ∧
      Within ranges start (start + byteLength tag.print) ∧ erase ranges start tag.print = u := by
  unfold selected at h
  unfold removed
  split at h
  · next hclosing =>
    refine ⟨[], fun _ => by rw [if_pos hclosing], by simp [Within], ?_⟩
    rw [Text.erase_nil, Option.some.inj h]
  · next hclosing =>
    split at h
    · next hhold =>
      have hwithin := guardPattern.within_occurrences start (guardPattern.pieces tag.print)
      have herase := guardPattern.erase_occurrences start (guardPattern.pieces tag.print)
      rw [Pattern.print_pieces] at hwithin herase
      exact ⟨_, fun _ => by rw [if_neg hclosing, if_pos hhold], hwithin, herase.trans (Option.some.inj h)⟩
    · simp at h

end Tag

/-- The byte ranges that selection removes from a text for one of its tokens. -/
def Markup.Token.removed (s : Scope) (t : Text) (token : Markup.Token) : List (Nat × Nat) :=
  token.tag.removed s token.start (token.spanEnd t)

namespace Tag.WellFormed

open Directive (ofTag?)

variable {tag : Tag} {d : Directive}

theorem pieces_stripped (h : tag.WellFormed) (hd : ofTag? .guard tag = some d) :
    guardPattern.pieces tag.print = d.front.map .char ++ .lexeme d.attr :: guardPattern.pieces d.back ∧
      guardPattern.pieces d.stripped = d.front.map .char ++ guardPattern.pieces d.back := by
  obtain ⟨-, -, -, hback⟩ := h.of_ofTag? hd
  have hfind : guardPattern.find? tag.print = some (d.front, d.attr, d.back) := by
    unfold ofTag? at hd
    split at hd
    · simp at hd
    · simp only [Option.map_eq_some_iff, Prod.exists] at hd
      obtain ⟨front, a, back, hfind, rfl⟩ := hd
      exact hfind
  refine ⟨Pattern.pieces_of_find? hfind, ?_⟩
  refine Pattern.Silent.pieces_append fun u v huv hv => ?_
  by_contra hne
  obtain ⟨⟨a, r⟩, hread⟩ := Option.ne_none_iff_exists'.1 hne
  have happ := guardPattern.eq_append hread
  have hprint : guardPattern.print a = a.blank :: '*' :: ('i' :: 'f' :: (a.equals ++ a.quoted.print)) := rfl
  rw [hprint] at happ
  -- the guard begins before the one that was stripped, so it was there before
  cases v with
  | nil => exact hv rfl
  | cons c v =>
    cases v with
    | nil =>
      rw [show d.back = _ from (List.cons.inj happ).2] at hback
      simp [Text.not_partsAttribute_star] at hback
    | cons c' y =>
      obtain ⟨rfl, hrest⟩ := List.cons.inj happ
      obtain ⟨rfl, -⟩ := List.cons.inj hrest
      obtain ⟨kind, front, a', y', hbefore, hread', -⟩ :=
        h.exists_of_front hd (show d.front = (u ++ [a.blank]) ++ '*' :: y by rw [huv]; simp)
      obtain ⟨-, hblank⟩ := List.append_inj' hbefore rfl
      have hblank : a.blank = a'.blank := (List.cons.inj hblank).1
      have hguard : Attribute.read DirectiveKind.guard.attributeName (a'.blank :: '*' :: (y ++ d.back)) =
          some (a, r) := by
        rw [← hblank]
        exact hread
      obtain rfl := kind_eq hguard (hread' d.back)
      have hnone : guardPattern.read (a.blank :: '*' :: y ++ (guardPattern.print d.attr ++ d.back)) = none :=
        Pattern.silent_of_find? hfind u _ huv hv
      rw [hblank] at hnone
      exact absurd ((hread' _).symm.trans hnone) (by simp)

end Tag.WellFormed

namespace Directive

theorem keeps_selected (s : Scope) : Keeps .wellFormed s (Tag.selected s) where
  plain {tag} h := by
    unfold ofTag? at h
    unfold Tag.selected
    split
    · rfl
    · next hclosing =>
      rw [if_neg hclosing, Option.map_eq_none_iff] at h
      have hpieces := Pattern.pieces_of_find?_eq_none h
      have hhold : tag.guardsHold s = true := by
        rw [Tag.guardsHold, Pattern.lexemes, show Tag.guardPattern.pieces tag.print = _ from hpieces]
        rw [Piece.filterMap_lexeme?_map_char]
        rfl
      rw [if_pos hhold, Pattern.replace, show Tag.guardPattern.pieces tag.print = _ from hpieces,
        Piece.flatMap_print_map_char]
  held {tag tag' d} htag hd hholds hread := by
    have hclosing := (print_tag_of_ofTag? hd).2.1
    obtain ⟨t', hread', hclosing', -⟩ := Discipline.wellFormed.strip htag hd
    obtain rfl := (Prod.mk.inj (Option.some.inj (hread'.symm.trans hread))).1
    have hstripped : d.stripped = t'.print := by simpa using Tag.eq_append_of_read hread
    obtain ⟨hpieces, hpieces'⟩ := htag.2.pieces_stripped hd
    rw [hstripped] at hpieces'
    have hguards : tag.guardsHold s = t'.guardsHold s := by
      rw [Tag.guardsHold, Tag.guardsHold, Pattern.lexemes, Pattern.lexemes, hpieces, hpieces']
      simp only [List.filterMap_append, List.filterMap_cons, Piece.lexeme?, List.all_append, List.all_cons]
      rw [show (Guard.parse d.attr.quoted.value).holds s = true from hholds, Bool.true_and]
    rw [Tag.selected, Tag.selected, hclosing', hclosing, hguards, Pattern.replace, Pattern.replace, hpieces,
      hpieces']
    simp [Piece.print]
  failed {tag d} htag hd hholds := by
    have hclosing := (print_tag_of_ofTag? hd).2.1
    have hguards : tag.guardsHold s = false := by
      rw [Tag.guardsHold, Pattern.lexemes, (htag.2.pieces_stripped hd).1]
      simp only [List.filterMap_append, List.filterMap_cons, Piece.lexeme?, List.all_append, List.all_cons]
      rw [show (Guard.parse d.attr.quoted.value).holds s = false from hholds, Bool.false_and, Bool.and_false]
    rw [Tag.selected, hclosing, hguards]
    simp

/-! ## Ranges -/

/-- The ranges that selection removes from markup that begins at byte `start`. -/
def removedFrom (s : Scope) (start : Nat) : Markup → List (Nat × Nat)
  | [] => []
  | .char c :: m => removedFrom s (start + c.utf8Size) m
  | .lexeme tag :: m =>
    let stop := start + byteLength tag.print
    tag.removed s start ((Markup.cutSpan tag m).map fun (inside, _) => stop + byteLength inside.text) ++
      removedFrom s stop m

theorem flatMap_removed {s : Scope} {t : Text} :
    (Markup.tokensFrom t 0).flatMap (Markup.Token.removed s t) = removedFrom s 0 (Markup.ofText t) := by
  have key : ∀ (g f : Markup), Markup.ofText t = f ++ g →
      (Markup.locate (byteLength f.text) g).flatMap (Markup.Token.removed s t) =
        removedFrom s (byteLength f.text) g := by
    intro g
    induction g with
    | nil => intros; rfl
    | cons piece g ih =>
      intro f hm
      have ih' := ih (f ++ [piece]) (by rw [hm]; simp)
      rw [Markup.text_append, Text.byteLength_append] at ih'
      cases piece with
      | char c => exact ih'
      | lexeme tag =>
        have hlength : byteLength (Markup.text [.lexeme tag]) = byteLength tag.print := by simp
        rw [hlength] at ih'
        rw [Markup.locate, removedFrom, List.flatMap_cons, ih', Markup.Token.removed,
          Markup.spanEnd_eq hm rfl rfl]
  rw [Markup.tokensFrom_zero]
  exact key _ [] rfl

/-- Markup of which selection removes the same ranges whatever follows it. -/
def Detached (s : Scope) (m : Markup) : Prop :=
  ∀ start, ∃ ranges, Within ranges start (start + byteLength m.text) ∧
    ∀ rest, removedFrom s start (m ++ rest) = ranges ++ removedFrom s (start + byteLength m.text) rest ∧
      survivors (Tag.selected s) (m ++ rest) = erase ranges start m.text ++ survivors (Tag.selected s) rest

namespace Detached

variable {s : Scope} {m n : Markup}

theorem nil : Detached s [] := fun start =>
  ⟨[], by simp [Within], fun rest => ⟨by simp, by simp [erase]⟩⟩

theorem append (hm : Detached s m) (hn : Detached s n) : Detached s (m ++ n) := by
  intro start
  obtain ⟨ranges, hwithin, hrest⟩ := hm start
  obtain ⟨ranges', hwithin', hrest'⟩ := hn (start + byteLength m.text)
  have hlength : byteLength (m ++ n).text = byteLength m.text + byteLength n.text := by
    rw [Markup.text_append, Text.byteLength_append]
  refine ⟨ranges ++ ranges', ?_, fun rest => ?_⟩
  · intro range hrange
    rw [hlength]
    rcases List.mem_append.1 hrange with hmem | hmem
    · have := hwithin range hmem
      omega
    · have := hwithin' range hmem
      omega
  · obtain ⟨hremoved, hsurvivors⟩ := hrest (n ++ rest)
    obtain ⟨hremoved', hsurvivors'⟩ := hrest' rest
    rw [List.append_assoc, hremoved, hremoved', hsurvivors, hsurvivors', hlength, Markup.text_append,
      Text.erase_append_of_within hwithin hwithin']
    simp [Nat.add_assoc]

theorem char (c : Char) : Detached s [.char c] := by
  refine fun start => ⟨[], by simp [Within], fun rest => ⟨?_, ?_⟩⟩
  · rfl
  · rw [Text.erase_nil, List.singleton_append, survivors_char]
    rfl

theorem map_char (t : Text) : Detached s (t.map .char) := by
  induction t with
  | nil => exact nil
  | cons c t ih => exact (char c).append ih

theorem of_selected {tag : Tag} {u : Text} (h : tag.selected s = some u) : Detached s [.lexeme tag] := by
  intro start
  have htext : Markup.text [.lexeme tag] = tag.print := by simp
  obtain ⟨ranges, hranges, hwithin, herase⟩ := Tag.exists_removed h start
  rw [htext]
  refine ⟨ranges, hwithin, fun rest => ⟨?_, ?_⟩⟩
  · rw [List.singleton_append, removedFrom, hranges]
  · rw [List.singleton_append, survivors_kept h, herase]

theorem of_selected_none {tag : Tag} (h : tag.selected s = none) {inside : Markup}
    (hcut : ∀ rest, Markup.cutSpan tag (inside ++ rest) = some (inside, rest)) (hinside : Detached s inside) :
    Detached s (.lexeme tag :: inside) := by
  intro start
  obtain ⟨ranges, hwithin, hrest⟩ := hinside (start + byteLength tag.print)
  have hlength : byteLength (Markup.text (.lexeme tag :: inside)) =
      byteLength tag.print + byteLength inside.text := by
    rw [Markup.text_tag, Text.byteLength_append]
  rw [hlength]
  have hmem : (start, start + byteLength tag.print + byteLength inside.text) ∈
      (start, start + byteLength tag.print + byteLength inside.text) :: ranges := List.mem_cons_self
  refine ⟨(start, start + byteLength tag.print + byteLength inside.text) :: ranges, ?_, fun rest => ⟨?_, ?_⟩⟩
  · intro range hrange
    rcases List.mem_cons.1 hrange with rfl | hin
    · exact ⟨le_rfl, (Nat.add_assoc _ _ _).le⟩
    · have := hwithin range hin
      omega
  · rw [List.cons_append, removedFrom, hcut rest, Option.map_some, Tag.removed_of_selected_none h, (hrest rest).1,
      ← Nat.add_assoc]
    rfl
  · rw [List.cons_append, survivors_dropped h (hcut rest), Text.erase_of_mem hmem (by rw [hlength]; omega),
      List.nil_append]

theorem of_matched {F : Forest} (hF : F.Matched) {m : Markup} (h : m.tags = F.tags) : Detached s m := by
  induction F generalizing m with
  | nil =>
    obtain ⟨r, rfl⟩ := Markup.eq_map_char_of_tags_eq_nil h
    exact map_char r
  | single tag rest ih =>
    obtain ⟨-, hopens, hrest⟩ := hF
    obtain ⟨r, m', rfl, hm'⟩ := Markup.exists_of_tags_eq_cons h
    have htag : Detached s [.lexeme tag] := by
      cases hselected : tag.selected s with
      | some u => exact of_selected hselected
      | none =>
        refine of_selected_none hselected (fun rest => ?_) nil
        rw [Markup.cutSpan, if_neg (by simp [hopens])]
        rfl
    exact (map_char r).append (htag.append (ih hrest hm'))
  | element opening inside closing rest ihInside ihRest =>
    obtain ⟨hopens, hclose, hname, hinside, hrest⟩ := hF
    obtain ⟨r, m', rfl, hm'⟩ := Markup.exists_of_tags_eq_cons h
    obtain ⟨i, after, rfl, hi, hafter⟩ := Markup.exists_of_tags_eq_append hm'
    have hclosing : Detached s [.lexeme closing] :=
      of_selected (u := closing.print) (by rw [Tag.selected, if_pos hclose])
    have hcontent : Detached s (i ++ [.lexeme closing]) := (ihInside hinside hi).append hclosing
    have helement : Detached s (.lexeme opening :: (i ++ [.lexeme closing])) := by
      cases hselected : opening.selected s with
      | some u => exact (of_selected hselected).append hcontent
      | none =>
        refine of_selected_none hselected (fun rest => ?_) hcontent
        rw [List.append_assoc]
        exact Forest.cutSpan_element hinside hopens hclose hname hi rest
    have hall := (map_char r).append (helement.append (ihRest hrest hafter))
    simpa using hall

end Detached

/-! ## Selection -/

/-- Selection of a balanced text with well-formed directives succeeds and leaves a balanced text. Erased
are, for each opening tag of the text with a guard that fails, its span, and for every other opening tag
its guards. -/
theorem select_eq_erase {t : Text} (hbalanced : Markup.Balanced t) (h : WellFormed t) (s : Scope) :
    select s t = .ok (erase ((Markup.tokensFrom t 0).flatMap (Markup.Token.removed s t)) 0 t) ∧
      Markup.Balanced (erase ((Markup.tokensFrom t 0).flatMap (Markup.Token.removed s t)) 0 t) := by
  obtain ⟨F, hF, hFtags⟩ := Forest.checkTags_eq_ok_iff.1 (Markup.balanced_iff.1 hbalanced)
  obtain ⟨x, tail, F', hnested, ht⟩ := Nested.exists_of_wellFormed hbalanced h
  obtain ⟨x', F'', hselect, hnested', hsurvivors⟩ := hnested.exists_select s
  obtain ⟨ranges, -, hranges⟩ := Detached.of_matched (s := s) hF hFtags.symm 0
  obtain ⟨hremoved, herase⟩ := hranges []
  rw [List.append_nil, removedFrom, List.append_nil] at hremoved
  rw [List.append_nil, survivors_nil, List.append_nil, Markup.text_ofText] at herase
  have hleft : (document [] x' [] tail).text =
      erase ((Markup.tokensFrom t 0).flatMap (Markup.Token.removed s t)) 0 t := by
    rw [hsurvivors _ (keeps_selected s), ← hnested.ofText_text, ← ht, herase, flatMap_removed, hremoved]
  rw [← ht] at hselect
  rw [← hleft]
  exact ⟨hselect, hnested'.balanced⟩

/-- Guards of which some hold and some fail, two on one tag and one on an element inside one of its name. -/
theorem select_eq_erase_nested :
    let t := "é<p *if='a'>1<p *if=\"!a\" class='c'>2</p>3<br *if='a' *if='b' /></p>".toList
    let s := Scope.ofData (.object [(['a'], .bool true)])
    Markup.Balanced t ∧ WellFormed t ∧
      select s t = .ok (erase ((Markup.tokensFrom t 0).flatMap (Markup.Token.removed s t)) 0 t) ∧
        Markup.Balanced (erase ((Markup.tokensFrom t 0).flatMap (Markup.Token.removed s t)) 0 t) := by
  intro t s
  have hbalanced : Markup.Balanced t := .inr (by decide +kernel)
  have h : WellFormed t := .of_not_mem (by decide +kernel) (by decide +kernel)
  exact ⟨hbalanced, h, select_eq_erase hbalanced h s⟩

/-- A closing tag carries no directive, so a guard written there stays where it is although it holds. -/
theorem select_closing_guard :
    let t := "<p></p *if='x'>".toList
    let s := Scope.ofData (.object [(['x'], .bool true)])
    Markup.Balanced t ∧ WellFormed t ∧ (∀ token ∈ Markup.tokensFrom t 0, token.tag.guardsHold s = true) ∧
      select s t ≠ .ok (erase ((Markup.tokensFrom t 0).flatMap fun token =>
        (Tag.guardPattern.occurrences token.start (Tag.guardPattern.pieces token.tag.print)).map Prod.snd) 0 t) := by
  intro t s
  exact ⟨.inl (by decide +kernel), .of_not_mem (by decide +kernel) (by decide +kernel), by decide +kernel,
    by decide +kernel⟩

end Directive
end HtmlTemplate
