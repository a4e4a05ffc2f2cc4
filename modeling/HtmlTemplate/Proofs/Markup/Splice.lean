import HtmlTemplate.Proofs.Markup.Sealed
import HtmlTemplate.Proofs.Markup.Shape
import HtmlTemplate.Proofs.Markup.Span

/-!
# Splicing markup

Balanced markup between two tags may take the place of other such markup in a document
(`Markup.Spliced.check_text`). No tag is made or lost at the seams: what is put in begins with a blank
or with `<`, neither of which lets a `<` before it begin a tag, and each of its own `<` is followed by
a `>` of its own.
-/

namespace HtmlTemplate

namespace Tag

/-- Whether a name is followed by a boundary is told from any character that is no word character. -/
theorem readFromName_exchange {closing : Bool} {w : Text} {x y : Char} (hw : '>' ∉ w)
    (hx : Text.isWord x = false) (hx' : x ≠ '>') (hy : Text.isWord y = false) (hy' : y ≠ '>')
    (h : readFromName closing (w ++ x :: ['>']) = none) (t : Text) :
    readFromName closing (w ++ y :: t) = none := by
  have hsplit : ∀ {z : Char} {u : Text}, Text.isWord z = false → z ≠ '>' → '>' ∉ u → ∀ v : Text,
      readFromName closing (w ++ z :: (u ++ '>' :: v)) = none ↔
        ((w.takeWhile Char.isAlphanum).head?.any Char.isAlpha &&
          !(w.dropWhile Char.isAlphanum).head?.any Text.isWord) = false := by
    intro z u hz hz' hu v
    have halnum : z.isAlphanum = false := by
      by_contra hne
      rw [isWord_of_isAlphanum (by simpa using hne)] at hz
      simp at hz
    have hmem : '>' ∉ w ++ z :: u := by
      simp [hw, hu, Ne.symm hz']
    have hboundary : (w.dropWhile Char.isAlphanum ++ z :: u).head?.any Text.isWord =
        (w.dropWhile Char.isAlphanum).head?.any Text.isWord := by
      cases w.dropWhile Char.isAlphanum with
      | nil => simp [hz]
      | cons c r => rfl
    have happ := readFromName_append_cons closing hmem v
    rw [List.append_assoc, List.cons_append, Text.takeWhile_append_cons halnum,
      Text.dropWhile_append_cons halnum, hboundary] at happ
    rw [happ]
    split
    · next hif => simp [hif]
    · next hif => simp only [Bool.not_eq_true] at hif; simp [hif]
  by_cases hend : '>' ∈ t
  · obtain ⟨u, v, rfl, hu⟩ := List.eq_append_cons_of_mem hend
    exact (hsplit hy hy' hu v).2 ((hsplit (u := []) hx hx' (by simp) []).1 h)
  · by_contra hne
    obtain ⟨⟨tag, rest⟩, hread⟩ := Option.ne_none_iff_exists'.1 hne
    have hmem : '>' ∈ w ++ y :: t := by
      rw [(eq_append_of_readFromName hread).2]
      simp
    simp [hw, hend, Ne.symm hy'] at hmem

theorem Blocked.exchange {w : Text} {y : Char} (hw : '>' ∉ w) (hy : Text.isBlank y = true)
    (h : Blocked (w ++ ['<'])) : Blocked (w ++ [y]) := by
  intro t
  have hread := h ['>']
  have hword : Text.isWord y = false := Text.not_isWord_of_isBlank hy
  have hend : y ≠ '>' := by
    rintro rfl
    exact absurd hy (by decide)
  have hname : ∀ {closing : Bool} {v : Text}, '>' ∉ v → readFromName closing (v ++ ['<'] ++ ['>']) = none →
      readFromName closing (v ++ [y] ++ t) = none := by
    intro closing v hv hnone
    rw [List.append_assoc] at hnone ⊢
    exact readFromName_exchange hv (by decide) (by decide) hword hend hnone t
  by_cases hslash : ∃ v, w = '/' :: v
  · obtain ⟨v, rfl⟩ := hslash
    exact hname (fun hmem => hw (List.mem_cons_of_mem _ hmem)) hread
  · have hskip : ∀ {c : Char} (r : Text), c ≠ '/' →
        read ('<' :: (w ++ [c] ++ r)) = readFromName false (w ++ [c] ++ r) := by
      intro c r hc
      apply read_of_head_ne
      intro hhead
      cases w with
      | nil => exact hc (by simpa using hhead)
      | cons d v => exact hslash ⟨v, by rw [show d = '/' by simpa using hhead]⟩
    have hy' : y ≠ '/' := by
      rintro rfl
      exact absurd hy (by decide)
    rw [hskip _ (by decide)] at hread
    rw [hskip _ hy']
    exact hname hw hread

end Tag

namespace Markup

/-! ## Fragments -/

/-- Balanced markup that begins and ends with a tag, apart from blanks, and is scanned alike wherever it
stands. -/
structure Fragment (m : Markup) : Prop where
  isSealed : Sealed (fun _ => True) (fun _ => True) m
  balanced : checkTags [] m.tags = .ok ()
  first : m.text.find? Text.isSolid = some '<'
  last : m.text.reverse.find? Text.isSolid = some '>'

theorem Fragment.checkTags_append {m : Markup} (h : Fragment m) (stack : List Text) (ts : List Tag) :
    checkTags stack (m.tags ++ ts) = checkTags stack ts := by
  obtain ⟨F, hF, htags⟩ := Forest.checkTags_eq_ok_iff.1 h.balanced
  rw [← htags]
  exact Forest.checkTags_tags hF stack ts

theorem delimited_iff {t : Text} :
    delimited t = true ↔ t.find? Text.isSolid = some '<' ∧ t.reverse.find? Text.isSolid = some '>' := by
  rw [delimited_eq, Bool.and_eq_true, beq_iff_eq, beq_iff_eq]

theorem check_eq_ok_iff {t : Text} :
    check t = .ok () ↔ checkTags [] (ofText t).tags = .ok () ∧ delimited t = true := by
  unfold check
  cases checkTags [] (ofText t).tags with
  | error fault => simp
  | ok u => cases delimited t <;> simp

theorem mem_of_find?_reverse {t u v : Text} (h : t.reverse.find? Text.isSolid = some '>')
    (ht : t = u ++ '<' :: v) : '>' ∈ v := by
  rw [ht, List.reverse_append, List.reverse_cons, List.append_assoc, List.find?_append,
    Option.or_eq_some_iff] at h
  rcases h with h | ⟨-, h⟩
  · exact List.mem_reverse.1 (List.mem_of_find?_eq_some h)
  · rw [List.singleton_append, List.find?_cons_of_pos (by decide)] at h
    simp at h

theorem find?_reverse_of_getLast? {t : Text} (h : t.getLast? = some '>') :
    t.reverse.find? Text.isSolid = some '>' := by
  obtain ⟨s, rfl⟩ := List.getLast?_eq_some_iff.1 h
  rw [List.reverse_append, List.reverse_singleton, List.singleton_append, List.find?_cons_of_pos (by decide)]

theorem sealed_of_find?_reverse {t : Text} (h : t.reverse.find? Text.isSolid = some '>') :
    Sealed (fun _ => True) (fun _ => True) (ofText t) := by
  refine sealed_ofText (fun u v => mem_of_find?_reverse h) (fun _ _ => trivial) ?_
  exact fun _ _ _ _ _ => ⟨fun _ _ => trivial, fun _ _ => trivial⟩

theorem ofText_append_of_getLast? {t : Text} (h : t.getLast? = some '>') (rest : Text) :
    ofText (t ++ rest) = ofText t ++ ofText rest := by
  have := ofText_append (sealed_of_find?_reverse (find?_reverse_of_getLast? h)) rest
  rwa [text_ofText] at this

theorem fragment_ofText {t : Text} (h : check t = .ok ()) : Fragment (ofText t) := by
  obtain ⟨hbalanced, hdelimited⟩ := check_eq_ok_iff.1 h
  obtain ⟨hfirst, hlast⟩ := delimited_iff.1 hdelimited
  refine ⟨sealed_of_find?_reverse hlast, hbalanced, ?_, ?_⟩
  · rwa [text_ofText]
  · rwa [text_ofText]

theorem fragment_of_getLast? {tag : Tag} {e : Markup}
    (hsealed : Sealed (fun _ => True) (fun _ => True) (.lexeme tag :: e))
    (hbalanced : checkTags [] (tags (.lexeme tag :: e)) = .ok ())
    (hlast : (text (.lexeme tag :: e)).getLast? = some '>') : Fragment (.lexeme tag :: e) := by
  refine ⟨hsealed, hbalanced, ?_, ?_⟩
  · rw [text_tag, Tag.print, List.cons_append, List.find?_cons_of_pos (by decide)]
  · exact find?_reverse_of_getLast? hlast

theorem fragment_tag {tag : Tag} (h : tag.Proper) (hclosing : tag.closing = false) (hopens : tag.opensScope = false) :
    Fragment [.lexeme tag] := by
  refine fragment_of_getLast? ⟨h, trivial⟩ ?_ ?_
  · rw [tags_tag, tags_nil, checkTags_of_not_closing hclosing, hopens]
    rfl
  · rw [text_tag, text_nil, List.append_nil, Tag.getLast?_print]

theorem fragment_pair {o c : Tag} {inside : Markup} (ho : o.Proper) (hopens : o.opensScope = true) (hc : c.Proper)
    (hclosing : c.closing = true) (hname : c.name.lower = o.name.lower)
    (hsealed : Sealed (fun _ => True) (fun _ => True) inside) (hbalanced : checkTags [] inside.tags = .ok ()) :
    Fragment (.lexeme o :: (inside ++ [.lexeme c])) := by
  obtain ⟨F, hF, htags⟩ := Forest.checkTags_eq_ok_iff.1 hbalanced
  refine fragment_of_getLast? ⟨ho, hsealed.append ⟨hc, trivial⟩⟩ ?_ ?_
  · refine Forest.checkTags_eq_ok_iff.2 ⟨.element o F c .nil, ⟨hopens, hclosing, hname, hF, trivial⟩, ?_⟩
    simp [Forest.tags, htags]
  · rw [text_tag, text_append, List.getLast?_append, List.getLast?_append, text_tag, text_nil, List.append_nil,
      Tag.getLast?_print]
    rfl

/-! ## Splicing -/

/-- Markup with some of its fragments, which begin with a tag, exchanged for other ones. -/
inductive Spliced : Markup → Markup → Prop
  | nil : Spliced [] []
  | char {m n : Markup} (c : Char) : Spliced m n → Spliced (.char c :: m) (.char c :: n)
  | tag {m n : Markup} (tag : Tag) : Spliced m n → Spliced (.lexeme tag :: m) (.lexeme tag :: n)
  | fragment {m n e f : Markup} {tag : Tag} : Fragment (.lexeme tag :: e) → Fragment f → Spliced m n →
      Spliced (.lexeme tag :: (e ++ m)) (f ++ n)

namespace Spliced

variable {m n : Markup}

theorem checkTags_eq (h : Spliced m n) (stack : List Text) :
    checkTags stack n.tags = checkTags stack m.tags := by
  induction h generalizing stack with
  | nil => rfl
  | char c _ ih => exact ih stack
  | tag tag _ ih =>
    rw [tags_tag, tags_tag]
    cases stack <;> simp only [checkTags, ih]
  | @fragment m n e f tag he hf _ ih =>
    have hsplit : tags (.lexeme tag :: (e ++ m)) = tags (.lexeme tag :: e) ++ m.tags := by simp
    rw [hsplit, he.checkTags_append, tags_append, hf.checkTags_append, ih]

theorem find?_text (h : Spliced m n) : n.text.find? Text.isSolid = m.text.find? Text.isSolid := by
  induction h with
  | nil => rfl
  | char c _ ih => rw [text_char, text_char, List.find?_cons, List.find?_cons, ih]
  | tag tag _ ih => rw [text_tag, text_tag, List.find?_append, List.find?_append, ih]
  | @fragment m n e f tag he hf _ ih =>
    have hsplit : text (.lexeme tag :: (e ++ m)) = text (.lexeme tag :: e) ++ m.text := by simp
    rw [hsplit, text_append, List.find?_append, List.find?_append, he.first, hf.first]
    rfl

theorem find?_reverse_text (h : Spliced m n) :
    n.text.reverse.find? Text.isSolid = m.text.reverse.find? Text.isSolid := by
  induction h with
  | nil => rfl
  | char c _ ih =>
    rw [text_char, text_char, List.reverse_cons, List.reverse_cons, List.find?_append, List.find?_append, ih]
  | tag tag _ ih =>
    rw [text_tag, text_tag, List.reverse_append, List.reverse_append, List.find?_append, List.find?_append, ih]
  | @fragment m n e f tag he hf _ ih =>
    have hsplit : text (.lexeme tag :: (e ++ m)) = text (.lexeme tag :: e) ++ m.text := by simp
    rw [hsplit, text_append, List.reverse_append, List.reverse_append, List.find?_append, List.find?_append,
      he.last, hf.last, ih]

theorem exists_of_map_char {w : Text} (h : Spliced (w.map .char ++ m) n) :
    ∃ n', n = w.map .char ++ n' ∧ Spliced m n' := by
  induction w generalizing n with
  | nil => exact ⟨n, rfl, h⟩
  | cons c w ih =>
    cases h with
    | char _ h =>
      obtain ⟨n', rfl, hn'⟩ := ih h
      exact ⟨n', rfl, hn'⟩

theorem holds (h : Spliced m n) (hm : Holds (fun _ => True) (fun _ => True) m) :
    Holds (fun _ => True) (fun _ => True) n := by
  obtain ⟨w, x, hblocked, hw, ⟨-, m', rfl⟩ | ⟨rfl, tag, m', rfl, -⟩⟩ := hm
  · obtain ⟨n', rfl, hn'⟩ := exists_of_map_char h
    cases hn' with
    | char _ _ => exact ⟨w, x, hblocked, hw, .inl ⟨trivial, _, rfl⟩⟩
  · obtain ⟨n', rfl, hn'⟩ := exists_of_map_char h
    cases hn' with
    | tag _ _ => exact ⟨w, '<', hblocked, hw, .inr ⟨rfl, tag, _, rfl, trivial⟩⟩
    | @fragment _ n e f _ _ hf _ =>
      cases f with
      | nil => exact absurd hf.first (by simp)
      | cons piece f =>
        cases piece with
        | lexeme tag' => exact ⟨w, '<', hblocked, hw, .inr ⟨rfl, tag', _, rfl, trivial⟩⟩
        | char c =>
          by_cases hblank : Text.isBlank c = true
          · have hend : '>' ∉ w := by
              intro hmem
              rcases hw _ hmem with hc | hc
              · exact absurd hc (by decide)
              · exact absurd hc (by decide)
            exact ⟨w, c, hblocked.exchange hend hblank, hw, .inl ⟨trivial, _, rfl⟩⟩
          · have hfirst := hf.first
            rw [text_char, List.find?_cons_of_pos (by simp [Text.isSolid, hblank])] at hfirst
            obtain rfl := Option.some.inj hfirst
            exact ⟨w, '<', hblocked, hw, .inl ⟨trivial, _, rfl⟩⟩

theorem isSealed (h : Spliced m n) (hm : Sealed (fun _ => True) (fun _ => True) m) :
    Sealed (fun _ => True) (fun _ => True) n := by
  induction h with
  | nil => trivial
  | char c h ih => exact ⟨fun hc => h.holds (hm.1 hc), ih hm.2⟩
  | tag tag _ ih => exact ⟨hm.1, ih hm.2⟩
  | fragment _ hf _ ih => exact hf.isSealed.append (ih (Sealed.right hm.2))

/-- A text with fragments exchanged passes the check as before. -/
theorem check_text (h : Spliced m n) (hm : Sealed (fun _ => True) (fun _ => True) m) :
    check n.text = check m.text := by
  have hdelimited : delimited n.text = delimited m.text := by
    rw [delimited_eq, delimited_eq, h.find?_text, h.find?_reverse_text]
  rw [check, check, (h.isSealed hm).ofText_text, hm.ofText_text, h.checkTags_eq, hdelimited]

end Spliced
end Markup
end HtmlTemplate
