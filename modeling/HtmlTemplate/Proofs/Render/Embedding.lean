import HtmlTemplate.Proofs.Directive.Fragment
import HtmlTemplate.Proofs.Markup.Splice
import HtmlTemplate.Proofs.Render.Styles
import HtmlTemplate.Proofs.Text.Erase

/-!
# Stylesheets in valid documents

Anchors are looked for without regard to the scan of the document, so the text of one may lie inside another
tag. It then ends where that tag ends: every anchor is a seam, a place right behind a tag that the scan finds
(`Style.seam_of_anchorEnd?`). A fragment put in at a seam leaves a fragment, in which the seams before it are
seams still. So a valid document is valid with its stylesheets, and without the bytes put in it is what it
was (`Style.check_embed`).
-/

namespace HtmlTemplate

namespace Markup

/-! ## Fragments put together -/

namespace Fragment

variable {m n s : Markup}

theorem check_text (h : Fragment m) : check m.text = .ok () := by
  rw [check_eq_ok_iff, h.isSealed.ofText_text]
  exact ⟨h.balanced, delimited_iff.2 ⟨h.first, h.last⟩⟩

theorem checkTags_insert (hs : Fragment s) (stack : List Text) (before after : List Tag) :
    checkTags stack (before ++ (s.tags ++ after)) = checkTags stack (before ++ after) := by
  induction before generalizing stack with
  | nil => exact hs.checkTags_append stack after
  | cons tag before ih => cases stack <;> simp only [List.cons_append, checkTags, ih]

theorem insert (hm : Sealed (fun _ => True) (fun _ => True) m) (h : Fragment (m ++ n)) (hs : Fragment s) :
    Fragment (m ++ (s ++ n)) where
  isSealed := hm.append (hs.isSealed.append h.isSealed.right)
  balanced := by
    have hbalanced := h.balanced
    rw [tags_append] at hbalanced
    rw [tags_append, tags_append, hs.checkTags_insert, hbalanced]
  first := by
    have hfirst := h.first
    rw [text_append, List.find?_append] at hfirst
    rw [text_append, text_append, List.find?_append, List.find?_append, hs.first]
    cases hfind : m.text.find? Text.isSolid with
    | none => rfl
    | some c =>
      rw [hfind] at hfirst
      exact hfirst
  last := by
    have hlast := h.last
    rw [text_append, List.reverse_append, List.find?_append] at hlast
    rw [text_append, text_append, List.reverse_append, List.reverse_append, List.append_assoc, List.find?_append,
      List.find?_append, hs.last]
    cases hfind : n.text.reverse.find? Text.isSolid with
    | none => rfl
    | some c =>
      rw [hfind] at hlast
      exact hlast

theorem char_cons_iff {c : Char} (hc : Text.isBlank c = true) : Fragment (.char c :: m) ↔ Fragment m := by
  have hopen : c ≠ '<' := by
    rintro rfl
    exact absurd hc (by decide)
  have hsolid : ¬ Text.isSolid c = true := by simp [Text.isSolid, hc]
  have hfirst : text (.char c :: m) = c :: m.text := text_char c m
  have hlast : (c :: m.text).reverse.find? Text.isSolid = m.text.reverse.find? Text.isSolid := by
    rw [List.reverse_cons, List.find?_append, List.find?_cons_of_neg hsolid, List.find?_nil, Option.or_none]
  constructor
  · intro h
    refine ⟨h.isSealed.2, h.balanced, ?_, ?_⟩
    · have := h.first
      rwa [hfirst, List.find?_cons_of_neg hsolid] at this
    · have := h.last
      rwa [hfirst, hlast] at this
  · intro h
    refine ⟨⟨fun he => absurd he hopen, h.isSealed⟩, h.balanced, ?_, ?_⟩
    · rw [hfirst, List.find?_cons_of_neg hsolid, h.first]
    · rw [hfirst, hlast, h.last]

theorem append_char {c : Char} (hc : Text.isBlank c = true) (h : Fragment m) : Fragment (m ++ [.char c]) := by
  have hopen : c ≠ '<' := by
    rintro rfl
    exact absurd hc (by decide)
  have hsolid : ¬ Text.isSolid c = true := by simp [Text.isSolid, hc]
  refine ⟨h.isSealed.append ⟨fun he => absurd he hopen, trivial⟩, ?_, ?_, ?_⟩
  · rw [tags_append, tags_char, tags_nil, List.append_nil, h.balanced]
  · rw [text_append, List.find?_append, h.first]
    rfl
  · rw [text_append, text_char, text_nil, List.reverse_append, List.reverse_singleton, List.singleton_append,
      List.find?_cons_of_neg hsolid, h.last]

end Fragment

theorem check_append {s t : Text} (hs : check s = .ok ()) (ht : check t = .ok ()) : check (s ++ t) = .ok () := by
  have hfragment : Fragment (ofText s ++ ofText t) :=
    Fragment.insert (m := []) trivial (fragment_ofText ht) (fragment_ofText hs)
  have := hfragment.check_text
  rwa [text_append, text_ofText, text_ofText] at this

def element (name : Text) (inside : Markup) : Markup :=
  .lexeme ⟨false, name, []⟩ :: (inside ++ [.lexeme ⟨true, name, []⟩])

theorem text_element (name : Text) (inside : Markup) :
    (element name inside).text = Tag.print ⟨false, name, []⟩ ++ inside.text ++ Tag.print ⟨true, name, []⟩ := by
  rw [element, text_tag, text_append, text_tag, text_nil, List.append_nil, List.append_assoc]

theorem fragment_element (name : Text) (hname : Tag.isName name = true) (hvoid : Tag.isVoidName name = false)
    {inside : Markup} (hsealed : Sealed (fun _ => True) (fun _ => True) inside)
    (hbalanced : checkTags [] inside.tags = .ok ()) : Fragment (element name inside) := by
  have hproper : ∀ closing, Tag.Proper ⟨closing, name, []⟩ := fun closing => ⟨hname, rfl, List.not_mem_nil⟩
  have hopens : Tag.opensScope ⟨false, name, []⟩ = true := by simp [Tag.opensScope, Tag.selfClosing, hvoid]
  exact fragment_pair (hproper false) hopens (hproper true) rfl rfl hsealed hbalanced

/-! ## Seams -/

/-- A number of characters after which markup goes on behind a tag. -/
def Seam (m : Markup) (n : Nat) : Prop :=
  ∃ before tag after, m = before ++ .lexeme tag :: after ∧ (text (before ++ [.lexeme tag])).length = n

namespace Seam

variable {m : Markup} {n : Nat}

theorem append_left (h : Seam m n) (m' : Markup) : Seam (m' ++ m) (m'.text.length + n) := by
  obtain ⟨before, tag, after, rfl, rfl⟩ := h
  exact ⟨m' ++ before, tag, after, by rw [List.append_assoc], by simp⟩

/-- A valid text put in at a seam of a valid text makes a valid text, in which the seams up to there are seams. -/
theorem check_insertAt {s t : Text} (h : Seam (ofText t) n) (ht : check t = .ok ()) (hs : check s = .ok ()) :
    check (Style.insertAt n s t) = .ok () ∧
      ∀ k, Seam (ofText t) k → k ≤ n → Seam (ofText (Style.insertAt n s t)) k := by
  have hfragment := fragment_ofText ht
  obtain ⟨before, tag, after, hsplit, rfl⟩ := h
  rw [List.append_cons] at hsplit
  have hfront : Sealed (fun _ => True) (fun _ => True) (before ++ [.lexeme tag]) := by
    have := hfragment.isSealed
    rw [hsplit, List.append_assoc, List.singleton_append] at this
    exact this.left
  rw [hsplit] at hfragment
  have hinserted := Fragment.insert hfront hfragment (fragment_ofText hs)
  generalize before ++ [.lexeme tag] = front at hsplit hinserted ⊢
  have htext : text (front ++ (ofText s ++ after)) = Style.insertAt (text front).length s t := by
    have hcut : t = text front ++ text after := by
      rw [← text_append, ← hsplit, text_ofText]
    rw [hcut, Style.insertAt, List.take_left, List.drop_left, text_append, text_append, text_ofText, List.append_assoc]
  refine ⟨htext ▸ hinserted.check_text, ?_⟩
  rintro k ⟨before', tag', after', he, rfl⟩ hk
  rw [hsplit, List.append_cons] at he
  have key : ∃ between, front = (before' ++ [.lexeme tag']) ++ between := by
    rcases List.append_eq_append_iff.1 he with ⟨between, hbetween, -⟩ | ⟨between, hbetween, -⟩
    · -- the seam does not lie behind the place of insertion, so it is this place
      rw [hbetween, text_append, List.length_append] at hk
      have hnil : between = [] := by
        by_contra hne
        have := List.length_pos_iff.2 (text_ne_nil hne)
        omega
      exact ⟨[], by rw [hbetween, hnil, List.append_nil, List.append_nil]⟩
    · exact ⟨between, hbetween⟩
  obtain ⟨between, rfl⟩ := key
  rw [← htext, hinserted.isSealed.ofText_text]
  exact ⟨before', tag', between ++ (ofText s ++ after), by simp, rfl⟩

end Seam
end Markup

namespace Style

open Markup (Fragment Seam ofText element fragment_element)

/-! ## Anchors are seams -/

theorem anchorEnd?_append (name : Text) {s : Text} (hs : '>' ∉ s) (rest : Text) :
    anchorEnd? name (s ++ '>' :: rest) = some (s.length + 1) ∨
      anchorEnd? name (s ++ '>' :: rest) = (anchorEnd? name rest).map (· + (s.length + 1)) := by
  induction s with
  | nil => exact .inr rfl
  | cons c s ih =>
    rw [List.mem_cons, not_or] at hs
    have later : ∀ o, (o = some (s.length + 1) ∨ o = (anchorEnd? name rest).map (· + (s.length + 1))) →
        o.map (· + 1) = some ((c :: s).length + 1) ∨
          o.map (· + 1) = (anchorEnd? name rest).map (· + ((c :: s).length + 1)) := by
      rintro o (rfl | rfl)
      · exact .inl rfl
      · right
        rw [Option.map_map]
        rfl
    rw [List.cons_append, anchorEnd?]
    split
    · next tag rest' hread =>
      split
      · left
        have hcut : (c :: s) ++ '>' :: rest = (tag.lead ++ tag.body) ++ '>' :: rest' := by
          rw [List.cons_append, Tag.eq_append_of_read hread, Tag.print_eq, List.append_assoc,
            List.singleton_append]
        have hfirst : '>' ∉ c :: s := by simp [hs.1, hs.2]
        obtain ⟨w, hw, hrest⟩ := Text.exists_of_append_eq_append_cons hcut hfirst
        have hnil : w = [] := by
          cases w with
          | nil => rfl
          | cons d w =>
            have hmem : '>' ∈ tag.lead ++ tag.body := by
              rw [hw, ← (List.cons.inj hrest).1]
              simp
            exact absurd hmem (Tag.proper_of_read hread).not_mem_front
        rw [Tag.print_eq, hw, hnil, List.append_nil, List.length_append, List.length_singleton]
      · exact later _ (ih hs.2)
    · exact later _ (ih hs.2)

/-- Behind an anchor a tag of the scan ends, whatever tag the anchor stands in. -/
theorem seam_of_anchorEnd? {name t : Text} {n : Nat} (h : anchorEnd? name t = some n) : Seam (ofText t) n := by
  induction hn : t.length using Nat.strong_induction_on generalizing t n with
  | _ length ih =>
    cases hread : Tag.read t with
    | some found =>
      obtain ⟨tag, rest⟩ := found
      have hlt := Tag.pattern.length_lt hread
      have ht : t = (tag.lead ++ tag.body) ++ '>' :: rest := by
        rw [Tag.eq_append_of_read hread, Tag.print_eq, List.append_assoc, List.singleton_append]
      have hlength : (tag.lead ++ tag.body).length + 1 = tag.print.length := by
        simp [Tag.print_eq, Nat.add_assoc]
      rw [Markup.ofText_of_read hread]
      rw [ht] at h
      rcases anchorEnd?_append name (Tag.proper_of_read hread).not_mem_front rest with he | he
      · rw [he] at h
        obtain rfl := Option.some.inj h
        exact ⟨[], tag, _, rfl, by simp [← hlength]⟩
      · rw [he] at h
        obtain ⟨k, hk, rfl⟩ := Option.map_eq_some_iff.1 h
        have := (ih _ (hn ▸ hlt) hk rfl).append_left [.lexeme tag]
        rw [Markup.text_tag, Markup.text_nil, List.append_nil] at this
        rwa [hlength, Nat.add_comm]
    | none =>
      cases t with
      | nil => simp [anchorEnd?] at h
      | cons c t =>
        rw [anchorEnd?, hread] at h
        obtain ⟨k, hk, rfl⟩ := Option.map_eq_some_iff.1 h
        rw [Markup.ofText_cons_of_read_none hread, Nat.add_comm]
        exact (ih _ (hn ▸ Nat.lt_succ_self _) hk rfl).append_left [.char c]

theorem seam_of_headAnchor? {html : Text} {n : Nat} {anchor : Anchor} (h : headAnchor? html = some (n, anchor)) :
    Seam (ofText html) n := by
  unfold headAnchor? at h
  split at h
  · next k hk =>
    obtain ⟨rfl, -⟩ := Prod.mk.inj (Option.some.inj h)
    exact seam_of_anchorEnd? hk
  · obtain ⟨k, hk, he⟩ := Option.map_eq_some_iff.1 h
    obtain ⟨rfl, -⟩ := Prod.mk.inj he
    exact seam_of_anchorEnd? hk

theorem seam_of_bodyAnchor? {html : Text} {n : Nat} {anchor : Anchor} (h : bodyAnchor? html = some (n, anchor)) :
    Seam (ofText html) n := by
  obtain ⟨k, hk, he⟩ := Option.map_eq_some_iff.1 h
  obtain ⟨rfl, -⟩ := Prod.mk.inj he
  exact seam_of_anchorEnd? hk

/-! ## What is put in -/

def blockMarkup (css : Text) : Markup :=
  .char '\n' :: (element "style".toList (css.map .char) ++ [.char '\n'])

theorem text_blockMarkup (css : Text) : (blockMarkup css).text = block css := by
  have hopening : "\n<style>".toList = '\n' :: Tag.print ⟨false, "style".toList, []⟩ := by decide
  have hclosing : "</style>\n".toList = Tag.print ⟨true, "style".toList, []⟩ ++ ['\n'] := by decide
  unfold blockMarkup block
  rw [hopening, hclosing]
  generalize "style".toList = name
  simp only [Markup.text_char, Markup.text_append, Markup.text_element, Markup.text_map_char, Markup.text_nil,
    List.append_assoc, List.cons_append]

theorem fragment_blockMarkup {css : Text} (h : '<' ∉ css) : Fragment (blockMarkup css) := by
  have helement : Fragment (element "style".toList (css.map .char)) :=
    fragment_element _ (by decide) (by decide) (Markup.Sealed.map_char h) (by simp [Markup.checkTags])
  exact (Fragment.char_cons_iff (by decide)).2 (helement.append_char (by decide))

theorem check_block {css : Text} (h : '<' ∉ css) : Markup.check (block css) = .ok () :=
  text_blockMarkup css ▸ (fragment_blockMarkup h).check_text

theorem check_blocks {sheets : List Text} (hne : sheets ≠ []) (hcss : ∀ css ∈ sheets, '<' ∉ css) :
    Markup.check (blocks sheets) = .ok () := by
  induction sheets with
  | nil => exact absurd rfl hne
  | cons css sheets ih =>
    have hblock := check_block (hcss css List.mem_cons_self)
    rw [blocks, List.flatMap_cons]
    by_cases hnil : sheets = []
    · rw [hnil, List.flatMap_nil, List.append_nil]
      exact hblock
    · exact Markup.check_append hblock (ih hnil fun css' h => hcss css' (List.mem_cons_of_mem _ h))

theorem check_filling {sheets : List Text} (hne : sheets ≠ []) (hcss : ∀ css ∈ sheets, '<' ∉ css)
    (anchor : Anchor) : Markup.check (anchor.filling (blocks sheets)) = .ok () := by
  have hblocks := check_blocks hne hcss
  cases anchor with
  | head => exact hblocks
  | body => exact hblocks
  | root =>
    have hinside := Markup.fragment_ofText hblocks
    have helement := fragment_element "head".toList (by decide) (by decide) hinside.isSealed hinside.balanced
    have hline : Fragment (.char '\n' :: element "head".toList (ofText (blocks sheets))) :=
      (Fragment.char_cons_iff (by decide)).2 helement
    have htext : Markup.text (.char '\n' :: element "head".toList (ofText (blocks sheets))) =
        Anchor.root.filling (blocks sheets) := by
      rw [Markup.text_char, Markup.text_element, Markup.text_ofText]
      rfl
    exact htext ▸ hline.check_text
  | front =>
    have hline := Markup.fragment_ofText hblocks
    rw [blocks_eq_cons hne, Markup.ofText_cons_of_read_none (Tag.read_cons_of_ne _ (by decide)),
      Fragment.char_cons_iff (by decide)] at hline
    have := hline.check_text
    rwa [Markup.text_ofText] at this

theorem check_embed_eq_ok {html : Text} {sheets : List Text} (h : Markup.check html = .ok ()) (hne : sheets ≠ [])
    (hcss : ∀ css ∈ sheets, '<' ∉ css) : Markup.check (embed html sheets) = .ok () := by
  have hfilling := check_filling hne hcss
  have hempty : ¬ sheets.isEmpty = true := by simpa using hne
  unfold embed
  dsimp only
  rw [if_neg hempty, headInsertion?_eq, bodyInsertion?_eq]
  cases hhead : headAnchor? html with
  | none =>
    cases hbody : bodyAnchor? html with
    | none =>
      dsimp only [Option.map_none]
      rw [dropWhile_blocks hne]
      exact Markup.check_append (hfilling .front) h
    | some atBody => exact ((seam_of_bodyAnchor? hbody).check_insertAt h (hfilling _)).1
  | some atHead =>
    have hheadSeam := seam_of_headAnchor? hhead
    cases hbody : bodyAnchor? html with
    | none => exact (hheadSeam.check_insertAt h (hfilling _)).1
    | some atBody =>
      have hbodySeam := seam_of_bodyAnchor? hbody
      dsimp only [Option.map_some]
      split
      · next hlt =>
        obtain ⟨hlater, hseams⟩ := hbodySeam.check_insertAt h (hfilling atBody.2)
        exact ((hseams _ hheadSeam (Nat.le_of_lt hlt)).check_insertAt hlater (hfilling _)).1
      · next hge =>
        obtain ⟨hlater, hseams⟩ := hheadSeam.check_insertAt h (hfilling atHead.2)
        exact ((hseams _ hbodySeam (Nat.le_of_not_lt hge)).check_insertAt hlater (hfilling _)).1

/-! ## What is left without it -/

/-- The byte ranges of what is put in behind sections that begin at byte `start`. -/
def insertions (blocks : Text) : (start : Nat) → List (Text × Anchor) → List (Nat × Nat)
  | _, [] => []
  | start, (t, anchor) :: sections =>
    let stop := start + Text.byteLength t + Text.byteLength (anchor.filling blocks)
    (start + Text.byteLength t, stop) :: insertions blocks stop sections

theorem within_insertions (blocks : Text) (start : Nat) (sections : List (Text × Anchor)) :
    ∃ stop, Text.Within (insertions blocks start sections) start stop := by
  induction sections generalizing start with
  | nil => exact ⟨0, by simp [insertions, Text.Within]⟩
  | cons first sections ih =>
    obtain ⟨t, anchor⟩ := first
    obtain ⟨stop, hstop⟩ := ih (start + Text.byteLength t + Text.byteLength (anchor.filling blocks))
    refine ⟨max (start + Text.byteLength t + Text.byteLength (anchor.filling blocks)) stop, ?_⟩
    intro range hrange
    rcases List.mem_cons.1 hrange with rfl | hmem
    · exact ⟨Nat.le_add_right _ _, le_max_left _ _⟩
    · exact hstop.mono (by omega) (le_max_right _ _) range hmem

theorem erase_interleave (blocks : Text) (start : Nat) (sections : List (Text × Anchor)) (rest : Text) :
    Text.erase (insertions blocks start sections) start (interleave id blocks (sections, rest)) =
      sections.flatMap Prod.fst ++ rest := by
  induction sections generalizing start with
  | nil => exact Text.erase_nil start rest
  | cons first sections ih =>
    obtain ⟨t, anchor⟩ := first
    have hsplit : interleave id blocks ((t, anchor) :: sections, rest) =
        t ++ (anchor.filling blocks ++ interleave id blocks (sections, rest)) := by
      simp [interleave]
    obtain ⟨stop, hstop⟩ :=
      within_insertions blocks (start + Text.byteLength t + Text.byteLength (anchor.filling blocks)) sections
    generalize hbegins : start + Text.byteLength t = begins at hstop
    generalize hends : begins + Text.byteLength (anchor.filling blocks) = ends at hstop
    have hone : Text.Within [(begins, ends)] begins (begins + Text.byteLength (anchor.filling blocks)) := by
      simp [Text.Within, hends]
    have hlater : Text.Within ((begins, ends) :: insertions blocks ends sections) begins (max ends stop) := by
      intro range hrange
      rcases List.mem_cons.1 hrange with rfl | hmem
      · exact ⟨le_rfl, le_max_left _ _⟩
      · exact hstop.mono (by omega) (le_max_right _ _) range hmem
    have hnone : Text.Within [] start (start + Text.byteLength t) := by simp [Text.Within]
    have hsection := Text.erase_append_of_within (t := anchor.filling blocks ++ interleave id blocks (sections, rest))
      hnone (hbegins ▸ hlater)
    have hfilling := Text.erase_append_of_within (t := interleave id blocks (sections, rest)) hone (hends ▸ hstop)
    rw [List.nil_append, Text.erase_nil, hbegins] at hsection
    rw [Text.erase_of_mem (List.mem_singleton_self _) (hends ▸ le_rfl), List.nil_append, hends, ih,
      List.singleton_append] at hfilling
    rw [hsplit, insertions, hbegins, hends, hsection, hfilling, List.flatMap_cons, List.append_assoc]

/-- A valid document stays valid when stylesheets without tags are put in. These go in at its anchors, in a head
made for them where there is none, and without the bytes put in the document is as before. -/
theorem check_embed {html : Text} {sheets : List Text} (h : Markup.check html = .ok ()) (hne : sheets ≠ [])
    (hcss : ∀ css ∈ sheets, '<' ∉ css) :
    Markup.check (embed html sheets) = .ok () ∧
      embed html sheets = interleave id (blocks sheets) (sections html) ∧
      Text.erase (insertions (blocks sheets) 0 (sections html).1) 0 (embed html sheets) = html := by
  refine ⟨check_embed_eq_ok h hne hcss, embed_eq_interleave html hne, ?_⟩
  rw [embed_eq_interleave html hne]
  exact (erase_interleave (blocks sheets) 0 (sections html).1 (sections html).2).trans (sections_text html)

/-- The text of an anchor for the head lies inside the tag that is the anchor for the body. -/
theorem check_embed_inside_tag :
    let html := "<HTML lang='en'><BODY title='<head '>x</BODY></HTML>".toList
    let css := ["a{}".toList, "b>c{}".toList]
    let blocks := "\n<style>a{}</style>\n\n<style>b>c{}</style>\n".toList
    let styled := "<HTML lang='en'><BODY title='<head '>".toList ++ blocks ++ blocks ++ "x</BODY></HTML>".toList
    Markup.check html = .ok () ∧ embed html css = styled ∧ Markup.check styled = .ok () ∧
      Text.erase [(37, 79), (79, 121)] 0 styled = html := by
  intro html css blocks styled
  have hvalid : Markup.check html = .ok () := by decide +kernel
  have hembed : embed html css = styled := by decide +kernel
  have hranges : insertions (Style.blocks css) 0 (sections html).1 = [(37, 79), (79, 121)] := by decide +kernel
  obtain ⟨hcheck, -, herase⟩ := check_embed hvalid (by decide) (show ∀ s ∈ css, '<' ∉ s by decide)
  rw [hembed] at hcheck herase
  rw [hranges] at herase
  exact ⟨hvalid, hembed, hcheck, herase⟩

end Style
end HtmlTemplate
