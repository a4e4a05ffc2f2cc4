import HtmlTemplate.Proofs.Comment.RoundTrip
import HtmlTemplate.Proofs.Render.Validity

/-!
# Stylesheets in rendered documents

Stylesheets are guarded with the table of the document, put in at the anchors of the guarded document,
and restored together with it. No marker reaches across a seam: what stands before an anchor ends with
a tag, and what stands around a stylesheet begins with `<` or ends with `>`. So a rendered document is
the sections between its anchors, each restored alone, with the stylesheets between them as they are
(`Engine.renderSource_styled`), whatever the stylesheets look like.
-/

namespace HtmlTemplate

open Text (Writes)

namespace Stylesheet

theorem loadAll_ne_nil {load : Text → Except LoadFailure Text} {sheets : List Stylesheet} {css : List Text}
    (hne : sheets ≠ []) (h : loadAll load sheets = .ok css) : css ≠ [] := by
  obtain ⟨sheet, sheets, rfl⟩ := List.exists_cons_of_ne_nil hne
  unfold loadAll at h
  split at h
  · simp at h
  · split at h
    · simp at h
    · rw [← Except.ok.inj h]
      exact List.cons_ne_nil _ _

end Stylesheet

/-! ## Restoring around stylesheets -/

namespace Comment

theorem readMarker_stopsBefore : Text.StopsBefore '<' readMarker := by
  intro d s t
  have htail : '<' ∉ markerStem.tail := by decide
  unfold readMarker
  rw [show markerStem = '<' :: markerStem.tail from rfl, List.cons_append, Text.after?, Text.after?]
  by_cases hd : '<' = d
  · rw [if_pos hd, if_pos hd, Text.after?_append_cons htail]
    cases Text.after? markerStem.tail s with
    | none => rfl
    | some u =>
      simp only [Option.map_some, Option.bind_eq_bind, Option.bind_some,
        Text.readRun_stopsAt (show Text.isDigit '<' = false by decide) _ _]
      cases Text.readRun Text.isDigit u with
      | none => rfl
      | some found =>
        simp only [Option.map_some, Option.bind_some,
          Text.after?_append_cons (show '<' ∉ ending by decide)]
        cases Text.after? ending found.2 <;> rfl
  · rw [if_neg hd, if_neg hd]
    rfl

theorem markerPattern_opensWith : markerPattern.OpensWith (· == '<') := by
  intro t a rest h
  have ht : t = printMarker a ++ rest := eq_append_of_readMarker h
  rw [ht]
  rfl

namespace Table

theorem writes_restore_of_getLast? (table : Table) {s : Text} (h : s.getLast? = some '>') :
    Writes table.restore s (table.restore s) := restore_append table h

theorem writes_restore_tag (table : Table) {c : Char} {s : Text} (hc : c ≠ '!') (hs : '<' ∉ c :: s) :
    Writes table.restore ('<' :: c :: s) ('<' :: c :: s) := by
  refine Pattern.writes_cons _ (fun rest => ?_) (markerPattern_opensWith.writes _ fun d hd => ?_)
  · simp [markerPattern, readMarker, markerStem, opening, Text.after?, hc.symm]
  · simp only [beq_eq_false_iff_ne]
    rintro rfl
    exact hs hd

theorem restore_nil (table : Table) : table.restore [] = [] :=
  markerPattern_opensWith.replace_eq table.restoreMarker (by simp)

theorem restore_newline (table : Table) (t : Text) : table.restore ('\n' :: t) = '\n' :: table.restore t :=
  markerPattern_opensWith.replace_append table.restoreMarker (s := ['\n']) (by simp) t

theorem writes_restore_tagLine (table : Table) {c : Char} {s : Text} (hc : c ≠ '!') (hs : '<' ∉ c :: s) :
    Writes table.restore ('\n' :: '<' :: c :: s) ('\n' :: '<' :: c :: s) := fun rest => by
  rw [List.cons_append, restore_newline, table.writes_restore_tag hc hs rest]
  rfl

theorem guardAll_ne_nil (table : Table) {texts : List Text} (h : texts ≠ []) : (table.guardAll texts).1 ≠ [] := by
  obtain ⟨t, texts, rfl⟩ := List.exists_cons_of_ne_nil h
  exact List.cons_ne_nil _ _

theorem writes_restore_element {table later : Table} {t : Text} (h : (table.guard t).2 <+: later)
    {front behind : Text} (hfront : Writes later.restore front front)
    (hbehind : Writes later.restore ('<' :: behind) ('<' :: behind)) :
    Writes later.restore (front ++ (table.guard t).1 ++ '<' :: behind) (front ++ t ++ '<' :: behind) := by
  intro rest
  have hseam : later.restore ((table.guard t).1 ++ '<' :: (behind ++ rest)) =
      later.restore (table.guard t).1 ++ later.restore ('<' :: (behind ++ rest)) :=
    Pattern.replace_append_of_stopsBefore readMarker_stopsBefore _ _ _
  have hrest : later.restore ('<' :: (behind ++ rest)) = '<' :: behind ++ later.restore rest := hbehind rest
  rw [List.append_assoc, List.append_assoc, hfront, List.cons_append, hseam, hrest, restore_guard h]
  simp only [List.append_assoc]

end Table
end Comment

namespace Style

open Comment (Table)

variable {table later : Table}

theorem writes_block {css : Text} (h : (table.guard css).2 <+: later) :
    Writes later.restore (block (table.guard css).1) (block css) := by
  have hopening := later.writes_restore_tagLine (c := 's') (s := "tyle>".toList) (by decide) (by decide)
  exact Table.writes_restore_element h hopening
    (later.writes_restore_tag (c := '/') (s := "style>\n".toList) (by decide) (by decide))

theorem writes_blocks (table : Table) (sheets : List Text) :
    Writes (table.guardAll sheets).2.restore (blocks (table.guardAll sheets).1) (blocks sheets) := by
  have hall := Table.forall₂_guardAll table sheets
  generalize (table.guardAll sheets).1 = guarded at hall ⊢
  generalize (table.guardAll sheets).2 = later at hall ⊢
  induction hall with
  | nil => exact Writes.nil
  | cons hcss _ ih =>
    obtain ⟨before, rfl, hprefix⟩ := hcss
    exact (writes_block hprefix).append ih

/-! ## Anchors -/

/-- A place of a document where the blocks of stylesheets go. -/
inductive Anchor where
  /-- In front, of a document that has none of the tags below. -/
  | front
  /-- Behind `<head>`. -/
  | head
  /-- Behind `<html>`, of a document without `<head>`. -/
  | root
  /-- Behind `<body>`. -/
  | body
  deriving Repr, DecidableEq

/-- What blocks are filled in as: a head is made where there is none, and nothing precedes the first block
in front of a document. -/
def Anchor.filling (blocks : Text) : Anchor → Text
  | front => blocks.tail
  | head => blocks
  | root => "\n<head>".toList ++ blocks ++ "</head>".toList
  | body => blocks

/-- The anchor for the head, with the number of characters before it. -/
def headAnchor? (html : Text) : Option (Nat × Anchor) :=
  match anchorEnd? "head".toList html with
  | some n => some (n, .head)
  | none => (anchorEnd? "html".toList html).map fun n => (n, .root)

/-- The anchor for the body, with the number of characters before it. -/
def bodyAnchor? (html : Text) : Option (Nat × Anchor) :=
  (anchorEnd? "body".toList html).map fun n => (n, .body)

def anchors (html : Text) : List (Nat × Anchor) :=
  match headAnchor? html, bodyAnchor? html with
  | none, none => [(0, .front)]
  | some atHead, none => [atHead]
  | none, some atBody => [atBody]
  | some atHead, some atBody => if atHead.1 < atBody.1 then [atHead, atBody] else [atBody, atHead]

/-- Cuts a text that begins at `start` at anchors: the sections before them, and what is left. -/
def cutAt (start : Nat) : List (Nat × Anchor) → Text → List (Text × Anchor) × Text
  | [], t => ([], t)
  | (n, anchor) :: anchors, t =>
    let (sections, rest) := cutAt n anchors (t.drop (n - start))
    ((t.take (n - start), anchor) :: sections, rest)

/-- The sections of a document before its anchors, and what is left. -/
def sections (html : Text) : List (Text × Anchor) × Text := cutAt 0 (anchors html) html

/-- Sections are put together with blocks at their anchors, each section and the rest written by `f`. -/
def interleave (f : Text → Text) (blocks : Text) (sections : List (Text × Anchor) × Text) : Text :=
  (sections.1.flatMap fun (t, anchor) => f t ++ anchor.filling blocks) ++ f sections.2

theorem cutAt_text (start : Nat) (anchors : List (Nat × Anchor)) (t : Text) :
    (cutAt start anchors t).1.flatMap Prod.fst ++ (cutAt start anchors t).2 = t := by
  induction anchors generalizing start t with
  | nil => rfl
  | cons anchor anchors ih =>
    rw [cutAt, List.flatMap_cons, List.append_assoc, ih, List.take_append_drop]

theorem sections_text (html : Text) : (sections html).1.flatMap Prod.fst ++ (sections html).2 = html :=
  cutAt_text 0 _ html

theorem headInsertion?_eq (html blocks : Text) :
    headInsertion? html blocks = (headAnchor? html).map fun (n, anchor) => (n, anchor.filling blocks) := by
  unfold headInsertion? headAnchor?
  cases anchorEnd? "head".toList html with
  | some n => rfl
  | none => cases anchorEnd? "html".toList html <;> rfl

theorem bodyInsertion?_eq (html blocks : Text) :
    bodyInsertion? html blocks = (bodyAnchor? html).map fun (n, anchor) => (n, anchor.filling blocks) := by
  unfold bodyInsertion? bodyAnchor?
  cases anchorEnd? "body".toList html <;> rfl

theorem append_eq_interleave (blocks t : Text) :
    blocks.tail ++ t = interleave id blocks (cutAt 0 [(0, .front)] t) := by
  rw [interleave, cutAt, cutAt, Nat.sub_zero, List.take_zero, List.drop_zero, List.flatMap_cons, List.flatMap_nil]
  dsimp only
  rw [List.append_nil]
  rfl

theorem insertAt_eq_interleave (n : Nat) (anchor : Anchor) (blocks t : Text) :
    insertAt n (anchor.filling blocks) t = interleave id blocks (cutAt 0 [(n, anchor)] t) := by
  simp [insertAt, interleave, cutAt]

/-- Of two insertions the later one may be made first. -/
theorem insertAt_insertAt_eq_interleave {m n : Nat} {t : Text} (hmn : m ≤ n) (hn : n ≤ t.length)
    (anchor anchor' : Anchor) (blocks : Text) :
    insertAt m (anchor.filling blocks) (insertAt n (anchor'.filling blocks) t) =
      interleave id blocks (cutAt 0 [(m, anchor), (n, anchor')] t) := by
  have hlength : (t.take n).length = n := by simp; omega
  have hdrop : (insertAt n (anchor'.filling blocks) t).drop m =
      (t.take n).drop m ++ (anchor'.filling blocks ++ t.drop n) := by
    rw [insertAt, List.append_assoc, List.drop_append_of_le_length (by omega)]
  have hsplit : (t.take n).drop m = (t.drop m).take (n - m) := List.drop_take
  have hrest : (t.drop m).drop (n - m) = t.drop n := by
    rw [List.drop_drop]
    congr 1
    omega
  rw [insertAt, take_insertAt _ _ hmn hn, hdrop, hsplit]
  simp [interleave, cutAt, hrest]

theorem length_of_headAnchor? {html : Text} {n : Nat} {anchor : Anchor}
    (h : headAnchor? html = some (n, anchor)) : n ≤ html.length ∧ (html.take n).getLast? = some '>' := by
  unfold headAnchor? at h
  split at h
  · next k hk =>
    obtain ⟨rfl, -⟩ := Prod.mk.inj (Option.some.inj h)
    exact getLast?_take_anchorEnd hk
  · obtain ⟨k, hk, he⟩ := Option.map_eq_some_iff.1 h
    obtain ⟨rfl, -⟩ := Prod.mk.inj he
    exact getLast?_take_anchorEnd hk

theorem length_of_bodyAnchor? {html : Text} {n : Nat} {anchor : Anchor}
    (h : bodyAnchor? html = some (n, anchor)) : n ≤ html.length ∧ (html.take n).getLast? = some '>' := by
  obtain ⟨k, hk, he⟩ := Option.map_eq_some_iff.1 h
  obtain ⟨rfl, -⟩ := Prod.mk.inj he
  exact getLast?_take_anchorEnd hk

theorem block_eq (css : Text) :
    block css = '\n' :: '<' :: ("style>".toList ++ css ++ "</style>\n".toList) := rfl

theorem blocks_eq_cons {sheets : List Text} (h : sheets ≠ []) :
    blocks sheets = '\n' :: (blocks sheets).tail := by
  obtain ⟨css, sheets, rfl⟩ := List.exists_cons_of_ne_nil h
  rw [blocks, List.flatMap_cons, block_eq]
  rfl

theorem dropWhile_blocks {sheets : List Text} (h : sheets ≠ []) :
    (blocks sheets).dropWhile (· == '\n') = (blocks sheets).tail := by
  obtain ⟨css, sheets, rfl⟩ := List.exists_cons_of_ne_nil h
  rw [blocks, List.flatMap_cons, block_eq, List.cons_append, List.dropWhile_cons_of_pos (by decide),
    List.cons_append, List.dropWhile_cons_of_neg (by decide), List.tail_cons]

/-- Stylesheets are put in at the anchors of a document. -/
theorem embed_eq_interleave (html : Text) {sheets : List Text} (h : sheets ≠ []) :
    embed html sheets = interleave id (blocks sheets) (sections html) := by
  have hempty : ¬ sheets.isEmpty = true := by simpa using h
  unfold embed sections anchors
  dsimp only
  rw [if_neg hempty, headInsertion?_eq, bodyInsertion?_eq]
  cases hhead : headAnchor? html with
  | none =>
    cases hbody : bodyAnchor? html with
    | none =>
      exact (congrArg (· ++ html) (dropWhile_blocks h)).trans (append_eq_interleave _ _)
    | some atBody => exact insertAt_eq_interleave _ _ _ _
  | some atHead =>
    cases hbody : bodyAnchor? html with
    | none => exact insertAt_eq_interleave _ _ _ _
    | some atBody =>
      dsimp only [Option.map_some]
      split
      · next hlt => exact insertAt_insertAt_eq_interleave (Nat.le_of_lt hlt) (length_of_bodyAnchor? hbody).1 _ _ _
      · next hge => exact insertAt_insertAt_eq_interleave (Nat.le_of_not_lt hge) (length_of_headAnchor? hhead).1 _ _ _

theorem anchors_ordered (html : Text) :
    (0 :: (anchors html).map Prod.fst).Pairwise (· ≤ ·) ∧
      ∀ a ∈ anchors html, a.1 = 0 ∨ (html.take a.1).getLast? = some '>' := by
  unfold anchors
  cases hhead : headAnchor? html with
  | none =>
    cases hbody : bodyAnchor? html with
    | none => simp
    | some atBody => simp [(length_of_bodyAnchor? hbody).2]
  | some atHead =>
    cases hbody : bodyAnchor? html with
    | none => simp [(length_of_headAnchor? hhead).2]
    | some atBody =>
      have hlast := (length_of_headAnchor? hhead).2
      have hlast' := (length_of_bodyAnchor? hbody).2
      dsimp only
      split
      · next hlt => simp [hlast, hlast', Nat.le_of_lt hlt]
      · next hge => simp [hlast, hlast', Nat.le_of_not_lt hge]

/-! ## Restoring section by section -/

theorem seamed_cutAt {anchors : List (Nat × Anchor)} {html : Text} {start : Nat}
    (hordered : (start :: anchors.map Prod.fst).Pairwise (· ≤ ·))
    (hend : ∀ a ∈ anchors, a.1 = 0 ∨ (html.take a.1).getLast? = some '>') :
    ∀ s ∈ (cutAt start anchors (html.drop start)).1, s.1 = [] ∨ s.1.getLast? = some '>' := by
  induction anchors generalizing start with
  | nil => simp [cutAt]
  | cons a anchors ih =>
    obtain ⟨n, anchor⟩ := a
    rw [List.map_cons, List.pairwise_cons] at hordered
    have hle : start ≤ n := hordered.1 n (by simp)
    have hrest : (html.drop start).drop (n - start) = html.drop n := by
      rw [List.drop_drop]
      congr 1
      omega
    rw [cutAt, hrest]
    intro s hs
    rcases List.mem_cons.1 hs with rfl | hs
    · rw [← List.drop_take, List.getLast?_drop]
      by_cases hshort : (html.take n).length ≤ start
      · exact .inl (List.drop_eq_nil_of_le hshort)
      · rw [if_neg hshort]
        refine .inr ((hend (n, anchor) (by simp)).resolve_left fun hn => hshort ?_)
        simp [show n = 0 from hn]
    · exact ih hordered.2 (fun a ha => hend a (List.mem_cons_of_mem _ ha)) s hs

theorem writes_filling (table : Table) {sheets : List Text} (hne : sheets ≠ []) (anchor : Anchor) :
    Writes (table.guardAll sheets).2.restore (anchor.filling (blocks (table.guardAll sheets).1))
      (anchor.filling (blocks sheets)) := by
  have hblocks := writes_blocks table sheets
  cases anchor with
  | front =>
    have ht := blocks_eq_cons hne
    have hu := blocks_eq_cons (table.guardAll_ne_nil hne)
    intro rest
    have hrest := hblocks rest
    rw [ht, hu, List.cons_append, Table.restore_newline] at hrest
    exact (List.cons.inj hrest).2
  | head => exact hblocks
  | body => exact hblocks
  | root =>
    have hopening := Table.writes_restore_tagLine (table.guardAll sheets).2 (c := 'h') (s := "ead>".toList)
      (by decide) (by decide)
    have hclosing := Table.writes_restore_tag (table.guardAll sheets).2 (c := '/') (s := "head>".toList)
      (by decide) (by decide)
    exact (hopening.append hblocks).append hclosing

/-- A document with guarded stylesheets is restored section by section, and the stylesheets as they are. -/
theorem restore_embed (table : Table) (html : Text) {sheets : List Text} (hne : sheets ≠ []) :
    (table.guardAll sheets).2.restore (embed html (table.guardAll sheets).1) =
      interleave (table.guardAll sheets).2.restore (blocks sheets) (sections html) := by
  have hne' : (table.guardAll sheets).1 ≠ [] := table.guardAll_ne_nil hne
  obtain ⟨hordered, hend⟩ := anchors_ordered html
  have hseamed := seamed_cutAt hordered hend
  rw [embed_eq_interleave html hne', interleave, interleave]
  refine Writes.flatMap (fun s hs => Writes.append ?_ (writes_filling table hne s.2)) _
  rcases hseamed s hs with hnil | hlast
  · rw [hnil, Table.restore_nil]
    exact Writes.nil
  · exact Table.writes_restore_of_getLast? _ hlast

end Style

/-! ## Rendered documents -/

namespace Engine

/-- What is rendered with stylesheets is the filled document with its sections restored and the blocks of
the stylesheets at its anchors, those of the engine first. The rules of each are as they are. -/
theorem renderSource_styled {engine : Engine} {source : Source} {data : Value} {sheets : List Stylesheet}
    {out : Text} (hne : engine.stylesheets ++ sheets ≠ [])
    (h : engine.renderSource source data sheets = .ok out) :
    ∃ markup html table css, engine.markup source = .ok markup ∧
      engine.fill data (Comment.extract markup).1 (Comment.extract markup).2 = .ok (html, table) ∧
      Stylesheet.loadAll engine.load (engine.stylesheets ++ sheets) = .ok css ∧
      (Style.sections html).1.flatMap Prod.fst ++ (Style.sections html).2 = html ∧
      out = Style.interleave (table.guardAll css).2.restore (Style.blocks css) (Style.sections html) := by
  rw [renderSource_eq] at h
  split at h
  · simp at h
  · next styled final hassemble =>
    split at h
    · simp at h
    · obtain rfl := Except.ok.inj h
      unfold assemble at hassemble
      split at hassemble
      · simp at hassemble
      · next markup hmarkup =>
        split at hassemble
        · simp at hassemble
        · split at hassemble
          · simp at hassemble
          · next html table hfill =>
            unfold style at hassemble
            split at hassemble
            · simp at hassemble
            · next css hload =>
              obtain ⟨rfl, rfl⟩ := Prod.mk.inj (Except.ok.inj hassemble)
              have hcss : css ≠ [] := Stylesheet.loadAll_ne_nil hne hload
              exact ⟨markup, html, table, css, hmarkup, hfill, hload, Style.sections_text html,
                Style.restore_embed table html hcss⟩

/-- A comment in the rules of the engine is like the marker of the comment in the document, and the rules
of the call open a comment that they do not close. -/
theorem renderSource_styled_lookalike :
    let library := Library.memory [("a.css".toList, "a{}<!--templ-comment:0-->".toList)]
    let engine : Engine := ⟨library.load, Source.defaultSuffix, [.file "a.css".toList]⟩
    let source := Source.inline "<html><!-- c --><body>{{x}}</body></html>".toList
    let data := Value.object [(['x'], .string ['1'])]
    let css := ["a{}<!--templ-comment:0-->".toList, "b{}<!--".toList]
    let blocks := "\n<style>a{}<!--templ-comment:0--></style>\n\n<style>b{}<!--</style>\n".toList
    let out := "<html>\n<head>".toList ++ blocks ++ "</head><!-- c --><body>".toList ++ blocks ++
      "1</body></html>".toList
    engine.renderSource source data [.inline "b{}<!--".toList] = .ok out ∧ Style.blocks css = blocks ∧
      ∃ (html : Text) (table : Comment.Table),
        out = Style.interleave (table.guardAll css).2.restore blocks (Style.sections html) := by
  intro library engine source data css blocks out
  have hrender : engine.renderSource source data [.inline "b{}<!--".toList] = .ok out := by decide +kernel
  have hblocks : Style.blocks css = blocks := by decide +kernel
  have hne : engine.stylesheets ++ [.inline "b{}<!--".toList] ≠ [] := by decide
  obtain ⟨markup, html, table, css', -, -, hload, -, hout⟩ := renderSource_styled hne hrender
  have hcss : Stylesheet.loadAll library.load (engine.stylesheets ++ [.inline "b{}<!--".toList]) = .ok css := by
    decide +kernel
  obtain rfl : css = css' := Except.ok.inj (hcss.symm.trans hload)
  exact ⟨hrender, hblocks, html, table, hblocks ▸ hout⟩

end Engine
end HtmlTemplate
