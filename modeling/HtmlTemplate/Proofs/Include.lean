import HtmlTemplate.Include
import HtmlTemplate.Library
import HtmlTemplate.Proofs.Comment.Digits
import HtmlTemplate.Proofs.Markup.Attribute
import HtmlTemplate.Proofs.Markup.Resume
import HtmlTemplate.Proofs.Markup.Span
import HtmlTemplate.Proofs.Markup.Splice
import HtmlTemplate.Proofs.Text.Erase

/-!
# Includes and markup

Include markers are found by a scan of their own, which knows nothing of tags. Where the name of its
source has no `>`, a marker is one self-closing tag or an empty element
(`IncludeMarker.exists_element`), and where no marker begins inside a tag, the two scans agree on the
whole text. Resolving then puts fragments in the place of fragments, the guarded contents of the
sources in order, so that a valid text stays valid (`IncludeMarker.check_resolve`).
-/

namespace HtmlTemplate

open Markup (Fragment Spliced fragment_tag fragment_pair)
open Text (fill)

namespace Comment

theorem numbered_add {α : Type} (k n : Nat) (ps : List (Piece α)) :
    fill (fun a => marker a.2) (numbered (k + n) ps) = fill (fun a => marker (a.2 + n)) (numbered k ps) := by
  induction ps generalizing k with
  | nil => rfl
  | cons piece ps ih =>
    cases piece with
    | char c => simp [numbered, ih]
    | lexeme a =>
      have := ih (k + 1)
      rw [Nat.add_right_comm] at this
      simp [numbered, this]

theorem check_guard (table : Table) (t : Text) :
    Markup.check (table.guard t).1 = Markup.check (extract t).1 := by
  have hguard := numbered_add 0 table.length (pattern.pieces t)
  rw [Nat.zero_add] at hguard
  rw [extract, Table.guard, Table.guard, guardPieces_fst, guardPieces_fst, hguard]
  apply check_fill_printMarker
  · exact fun a _ c hc => isDigit_of_mem_numeral hc
  · exact fun a _ c hc => isDigit_of_mem_numeral hc

end Comment

namespace IncludeMarker

/-! ## Markers as elements -/

def elementName : Text := ['i', 'n', 'c', 'l', 'u', 'd', 'e']

/-- The characters of a marker between the element name and what ends it. -/
def front (k : IncludeMarker) : Text := k.gap ++ attributeName ++ k.equals ++ k.quoted.print

theorem exists_of_readClosingTag {t closing rest : Text} (h : readClosingTag t = some (closing, rest)) :
    ∃ before after : Text, (∀ c ∈ before, Text.isBlank c = true) ∧ (∀ c ∈ after, Text.isBlank c = true) ∧
      closing = before ++ (⟨true, elementName, after⟩ : Tag).print := by
  simp only [readClosingTag, Option.bind_eq_bind, Option.bind_eq_some_iff] at h
  obtain ⟨t₁, -, t₂, -, he⟩ := h
  obtain ⟨rfl, -⟩ := Prod.mk.inj (Option.some.inj he)
  refine ⟨t.takeWhile Text.isBlank, t₁.takeWhile Text.isBlank, fun c => List.mem_takeWhile_imp,
    fun c => List.mem_takeWhile_imp, ?_⟩
  simp [Tag.print, closingTag, elementName]

theorem exists_of_readClosing {t closing rest : Text} (h : readClosing t = some (closing, rest)) :
    ∃ s : Text, '>' ∉ s ∧ ((s.getLast? = some '/' ∧ closing = s ++ ['>']) ∨
      (s.getLast? ≠ some '/' ∧ ∃ before after : Text, (∀ c ∈ before, Text.isBlank c = true) ∧
        (∀ c ∈ after, Text.isBlank c = true) ∧
        closing = s ++ '>' :: (before ++ (⟨true, elementName, after⟩ : Tag).print))) := by
  have hend : '>' ∉ t.takeWhile (· != '>') := by
    intro hmem
    simpa using List.mem_takeWhile_imp hmem
  unfold readClosing at h
  dsimp only at h
  split at h
  · split at h
    · next hslash =>
      obtain ⟨rfl, -⟩ := Prod.mk.inj (Option.some.inj h)
      exact ⟨_, hend, .inl ⟨hslash, rfl⟩⟩
    · next hslash =>
      obtain ⟨⟨c, r⟩, hclosing, he⟩ := Option.map_eq_some_iff.1 h
      obtain ⟨rfl, -⟩ := Prod.mk.inj he
      obtain ⟨before, after, hbefore, hafter, rfl⟩ := exists_of_readClosingTag hclosing
      exact ⟨_, hend, .inr ⟨hslash, before, after, hbefore, hafter, rfl⟩⟩
  · simp at h

theorem of_readFrom {last : Char} {t rest : Text} {k : IncludeMarker} (h : readFrom last t = some (k, rest)) :
    '>' ∉ k.gap ∧ ∃ u, readSource u = some ((k.equals, k.quoted, k.closing), rest) := by
  induction t generalizing last k with
  | nil => simp [readFrom] at h
  | cons c t ih =>
    unfold readFrom at h
    split at h
    · next hs =>
      obtain ⟨rfl, rfl⟩ := Prod.mk.inj (Option.some.inj h)
      split at hs
      · simp at hs
      · exact ⟨by simp, _, hs⟩
    · split at h
      · simp at h
      · next hc =>
        obtain ⟨⟨k', r⟩, hread, he⟩ := Option.map_eq_some_iff.1 h
        obtain ⟨rfl, rfl⟩ := Prod.mk.inj he
        obtain ⟨hgap, hsource⟩ := ih hread
        exact ⟨by simp [hgap, Ne.symm hc], hsource⟩

theorem of_readSource {t rest equals closing : Text} {quoted : Quoted}
    (h : readSource t = some ((equals, quoted, closing), rest)) :
    '>' ∉ equals ∧ Text.isQuote quoted.quote = true ∧ ∃ u, readClosing u = some (closing, rest) := by
  simp only [readSource, Option.bind_eq_bind, Option.bind_eq_some_iff] at h
  obtain ⟨t₁, -, ⟨equals', t₂⟩, hequals, ⟨quoted', t₃⟩, hquoted, ⟨closing', t₄⟩, hclosing, he⟩ := h
  simp only [Option.pure_def, Option.some.injEq, Prod.mk.injEq] at he
  obtain ⟨⟨rfl, rfl, rfl⟩, rfl⟩ := he
  refine ⟨?_, (Quoted.of_read hquoted).1, _, hclosing⟩
  obtain ⟨b, b', hb, hb', rfl⟩ := Text.exists_of_readEquals hequals
  have hblank : Text.isBlank '>' = false := by decide
  intro hmem
  simp only [List.mem_append, List.mem_cons] at hmem
  rcases hmem with hmem | hmem | hmem
  · simp [hb _ hmem] at hblank
  · simp at hmem
  · simp [hb' _ hmem] at hblank

/-- A marker before its end is what a tag has behind the element name: only the name of the source can have a
`>`, and the quotes around it stand last. -/
theorem of_read {t rest : Text} {k : IncludeMarker} (h : read t = some (k, rest)) :
    k.front.head?.any Text.isWord = false ∧ ('>' ∉ k.quoted.value → '>' ∉ k.front) ∧
      k.front.getLast? ≠ some '/' ∧ ∃ u, readClosing u = some (k.closing, rest) := by
  simp only [read, Option.bind_eq_bind, Option.bind_eq_some_iff] at h
  obtain ⟨t₁, -, hread⟩ := h
  split at hread
  · simp at hread
  · next hboundary =>
    have happ := eq_append_of_readFrom hread
    obtain ⟨hgap, u, hsource⟩ := of_readFrom hread
    obtain ⟨hequals, hquote, hclosing⟩ := of_readSource hsource
    have hfront : t₁ = k.front ++ (k.closing ++ rest) := by
      rw [happ, front, List.append_assoc _ k.closing rest]
    have hne : k.front ≠ [] := by simp [front, attributeName]
    refine ⟨?_, fun hvalue => ?_, ?_, hclosing⟩
    · rw [hfront, List.head?_append_of_ne_nil _ hne] at hboundary
      simpa using hboundary
    · have hmark : '>' ≠ k.quoted.quote := by
        intro he
        rw [← he] at hquote
        exact absurd hquote (by decide)
      simp [front, attributeName, Quoted.print, hgap, hequals, hvalue, hmark]
    · have hlast : k.front.getLast? = some k.quoted.quote := by
        rw [front, Quoted.print, ← List.cons_append, ← List.append_assoc, List.getLast?_concat]
      rw [hlast]
      intro he
      rw [Option.some.inj he] at hquote
      exact absurd hquote (by decide)

/-- The opening tag of a marker: it goes on behind the marker's front to the first `>`. -/
def openingTag (k : IncludeMarker) (s : Text) : Tag := ⟨false, elementName, k.front ++ s⟩

theorem print_eq_openingTag {k : IncludeMarker} {s r : Text} (h : k.closing = s ++ '>' :: r) :
    k.print = (k.openingTag s).print ++ r := by
  simp [Tag.print, print, openingTag, front, opening, elementName, h]

theorem proper_openingTag {t rest s : Text} {k : IncludeMarker} (h : read t = some (k, rest))
    (hvalue : '>' ∉ k.quoted.value) (hs : '>' ∉ s) : (k.openingTag s).Proper := by
  obtain ⟨hboundary, hfront, -, -⟩ := of_read h
  refine ⟨show Tag.isName elementName = true by decide, ?_, ?_⟩
  · have hne : k.front ≠ [] := by simp [front, attributeName]
    rwa [openingTag, List.head?_append_of_ne_nil _ hne]
  · simp [openingTag, hfront hvalue, hs]

/-- The opening tag closes itself if a slash stands before its `>`: the quotes before that are no slash. -/
theorem opensScope_openingTag {t rest : Text} {k : IncludeMarker} (h : read t = some (k, rest)) (s : Text) :
    (k.openingTag s).opensScope = true ↔ s.getLast? ≠ some '/' := by
  obtain ⟨-, -, hquote, -⟩ := of_read h
  have hlast : (k.front ++ s).getLast? = some '/' ↔ s.getLast? = some '/' := by
    rw [List.getLast?_append, Option.or_eq_some_iff]
    exact or_iff_left fun h => hquote h.2
  have hvoid : Tag.isVoidName elementName = false := by decide
  rw [Tag.opensScope, Tag.selfClosing, openingTag, hvoid, Bool.not_false, Bool.and_true, Bool.true_and,
    Bool.not_eq_true', beq_eq_false_iff_ne]
  exact not_congr hlast

theorem proper_closingTag {after : Text} (h : ∀ c ∈ after, Text.isBlank c = true) :
    (⟨true, elementName, after⟩ : Tag).Proper := by
  refine ⟨show Tag.isName elementName = true by decide, ?_, fun hmem => absurd (h _ hmem) (by decide)⟩
  cases after with
  | nil => rfl
  | cons c after => simpa using Text.not_isWord_of_isBlank (h c (by simp))

/-- A marker is one self-closing tag, or an empty element. -/
theorem exists_element {t rest : Text} {k : IncludeMarker} (h : read t = some (k, rest))
    (hvalue : '>' ∉ k.quoted.value) :
    ∃ (tag : Tag) (e : Markup), Markup.ofText t = .lexeme tag :: (e ++ Markup.ofText rest) ∧
      Fragment (.lexeme tag :: e) ∧ Markup.text (.lexeme tag :: e) = k.print := by
  obtain ⟨-, -, -, u, hclosing⟩ := of_read h
  have ht : t = k.print ++ rest := eq_append_of_read h
  obtain ⟨s, hs, hend⟩ := exists_of_readClosing hclosing
  have hproper := proper_openingTag h hvalue hs
  have hopens := opensScope_openingTag h s
  rcases hend with ⟨hslash, hclose⟩ | ⟨hslash, before, after, hbefore, hafter, hclose⟩
  · have hprint := print_eq_openingTag hclose
    rw [List.append_nil] at hprint
    refine ⟨k.openingTag s, [], ?_, fragment_tag hproper rfl (Bool.eq_false_iff.2 fun h => hopens.1 h hslash), ?_⟩
    · rw [ht, hprint, Markup.ofText_of_read (hproper.read_print rest), List.nil_append]
    · rw [Markup.text_tag, Markup.text_nil, List.append_nil, hprint]
  · have hprint := print_eq_openingTag hclose
    have hproper' := proper_closingTag hafter
    have hopen : '<' ∉ before := fun hmem => absurd (hbefore _ hmem) (by decide)
    refine ⟨k.openingTag s, before.map .char ++ [.lexeme ⟨true, elementName, after⟩], ?_,
      fragment_pair hproper (hopens.2 hslash) hproper' rfl rfl (.map_char hopen) (by simp [Markup.checkTags]), ?_⟩
    · rw [ht, hprint, List.append_assoc, Markup.ofText_of_read (hproper.read_print _), List.append_assoc,
        Markup.ofText_append_of_not_mem _ hopen, Markup.ofText_of_read (hproper'.read_print rest)]
      simp
    · rw [Markup.text_tag, Markup.text_append, Markup.text_map_char, Markup.text_tag, Markup.text_nil,
        List.append_nil, hprint]

/-! ## Markers and tags -/

/-- Every marker of a text begins where a tag of the text does. -/
def BeginTags (t : Text) : Prop :=
  ∀ o ∈ pattern.occurrences 0 (pattern.pieces t), ∃ token ∈ Markup.tokensFrom t 0, token.start = o.2.1

instance (t : Text) : Decidable (BeginTags t) := inferInstanceAs (Decidable (∀ o ∈ _, _))

/-- The same of a text that begins at an offset. -/
def BeginTagsFrom (start : Nat) (t : Text) : Prop :=
  ∀ o ∈ pattern.occurrences start (pattern.pieces t),
    ∃ token ∈ Markup.locate start (Markup.ofText t), token.start = o.2.1

theorem BeginTagsFrom.right {start : Nat} {t rest : Text} {m : Markup} (h : BeginTagsFrom start t)
    (hmarkup : Markup.ofText t = m ++ Markup.ofText rest)
    (hrest : ∀ o ∈ pattern.occurrences (start + Text.byteLength m.text) (pattern.pieces rest),
      o ∈ pattern.occurrences start (pattern.pieces t)) :
    BeginTagsFrom (start + Text.byteLength m.text) rest := by
  intro o ho
  obtain ⟨token, htoken, hstart⟩ := h o (hrest o ho)
  have hle := pattern.le_of_mem_occurrences ho
  rw [hmarkup, Markup.locate_append, List.mem_append] at htoken
  rcases htoken with htoken | htoken
  · have hlt := Markup.start_lt_of_mem_locate htoken
    omega
  · exact ⟨token, htoken, hstart⟩

theorem BeginTagsFrom.pieces_tag {start : Nat} {t rest : Text} {tag : Tag} (h : BeginTagsFrom start t)
    (hread : Tag.read t = some (tag, rest)) (hnone : pattern.read t = none) :
    pattern.pieces t = tag.print.map .char ++ pattern.pieces rest := by
  have ht := Tag.eq_append_of_read hread
  have hbehind : ∀ o ∈ pattern.occurrences start (pattern.pieces t),
      start + Text.byteLength tag.print ≤ o.2.1 := by
    intro o ho
    obtain ⟨token, htoken, hstart⟩ := h o ho
    rw [Markup.ofText_of_read hread, Markup.locate, List.mem_cons] at htoken
    rcases htoken with rfl | htoken
    · exfalso
      cases t with
      | nil => simp [Tag.read] at hread
      | cons c t =>
        rw [pattern.pieces_cons_of_read_none hnone, Pattern.occurrences] at ho
        have hle := pattern.le_of_mem_occurrences ho
        have hpos := c.utf8Size_pos
        dsimp only at hstart
        omega
    · rw [← hstart]
      exact Markup.le_of_mem_locate htoken
  rw [ht] at hbehind ⊢
  exact pattern.pieces_append_of_occurrences hbehind

theorem BeginTagsFrom.of_marker {start : Nat} {t rest : Text} {k : IncludeMarker} (h : BeginTagsFrom start t)
    (hread : pattern.read t = some (k, rest)) (hvalue : '>' ∉ k.quoted.value) :
    BeginTagsFrom (start + Text.byteLength k.print) rest := by
  obtain ⟨tag, e, hmarkup, -, htext⟩ := exists_element hread hvalue
  rw [← htext]
  refine h.right (by rw [hmarkup, List.cons_append]) fun o ho => ?_
  rw [pattern.pieces_of_read hread, Pattern.occurrences]
  rw [htext] at ho
  exact List.mem_cons_of_mem _ ho

theorem BeginTagsFrom.of_tag {start : Nat} {t rest : Text} {tag : Tag} (h : BeginTagsFrom start t)
    (hread : Tag.read t = some (tag, rest)) (hnone : pattern.read t = none) :
    BeginTagsFrom (start + Text.byteLength (Markup.text [.lexeme tag])) rest := by
  refine h.right (by rw [Markup.ofText_of_read hread, List.singleton_append]) fun o ho => ?_
  rw [h.pieces_tag hread hnone, pattern.occurrences_map_char]
  simpa using ho

theorem BeginTagsFrom.of_char {start : Nat} {c : Char} {t : Text} (h : BeginTagsFrom start (c :: t))
    (hnone : pattern.read (c :: t) = none) (htag : Tag.read (c :: t) = none) :
    BeginTagsFrom (start + c.utf8Size) t := by
  intro o ho
  have := h o (by rwa [pattern.pieces_cons_of_read_none hnone])
  rwa [Markup.ofText_cons_of_read_none htag] at this

/-! ## Resolving -/

theorem resolvePieces_map_char (load : Text → Except LoadFailure Text) (t : Text) (ps : List (Piece IncludeMarker))
    (table : Comment.Table) :
    resolvePieces load (t.map .char ++ ps) table =
      (resolvePieces load ps table).map fun (resolved, table) => (t ++ resolved, table) := by
  induction t with
  | nil =>
    rw [List.map_nil, List.nil_append]
    cases resolvePieces load ps table <;> rfl
  | cons c t ih =>
    rw [List.map_cons, List.cons_append, resolvePieces, ih]
    cases resolvePieces load ps table <;> rfl

/-- Pieces with texts in the place of the markers, in order. -/
def put : List (Piece IncludeMarker) → List Text → Text
  | .char c :: ps, contents => c :: put ps contents
  | .lexeme _ :: ps, content :: contents => content ++ put ps contents
  | _, _ => []

theorem exists_of_mapM_cons {α β ε : Type} {f : α → Except ε β} {a : α} {l : List α} {bs : List β}
    (h : (a :: l).mapM f = .ok bs) : ∃ b cs, f a = .ok b ∧ l.mapM f = .ok cs ∧ bs = b :: cs := by
  rw [List.mapM_cons] at h
  cases hf : f a with
  | error e => simp [hf, bind, Except.bind] at h
  | ok b =>
    cases hl : l.mapM f with
    | error e => simp [hf, hl, bind, Except.bind] at h
    | ok cs =>
      rw [hf, hl] at h
      exact ⟨b, cs, rfl, rfl, (Except.ok.inj h).symm⟩

theorem exists_mapM {α β ε : Type} {f : α → Except ε β} {l : List α} (h : ∀ a ∈ l, ∃ b, f a = .ok b) :
    ∃ bs, l.mapM f = .ok bs := by
  induction l with
  | nil => exact ⟨[], rfl⟩
  | cons a l ih =>
    rw [List.forall_mem_cons] at h
    obtain ⟨⟨b, hb⟩, hl⟩ := h
    obtain ⟨bs, hbs⟩ := ih hl
    exact ⟨b :: bs, by rw [List.mapM_cons, hb, hbs]; rfl⟩

theorem resolvePieces_of_mapM {load : Text → Except LoadFailure Text} {ps : List (Piece IncludeMarker)}
    {contents : List Text} (h : (ps.filterMap Piece.lexeme?).mapM (fun k => load k.source) = .ok contents)
    (table : Comment.Table) :
    resolvePieces load ps table = .ok (put ps (table.guardAll contents).1, (table.guardAll contents).2) := by
  induction ps generalizing contents table with
  | nil =>
    obtain rfl : [] = contents := Except.ok.inj h
    rfl
  | cons piece ps ih =>
    cases piece with
    | char c =>
      rw [resolvePieces, ih h]
      rfl
    | lexeme k =>
      obtain ⟨content, rest, hload, hrest, rfl⟩ := exists_of_mapM_cons h
      rw [resolvePieces, hload]
      dsimp only
      rw [ih hrest]
      rfl

/-- Resolving a text exchanges fragments of its markup, whatever comments were met before. -/
def Splices (load : Text → Except LoadFailure Text) (t : Text) : Prop :=
  ∀ table, ∃ (m : Markup) (table' : Comment.Table),
    resolvePieces load (pattern.pieces t) table = .ok (m.text, table') ∧ Spliced (Markup.ofText t) m

theorem splices_nil (load : Text → Except LoadFailure Text) : Splices load [] := by
  intro table
  refine ⟨[], table, ?_, ?_⟩
  · rw [pattern.pieces_nil]
    rfl
  · rw [Markup.ofText_nil]
    exact .nil

theorem Splices.of_marker {load : Text → Except LoadFailure Text} {t rest content : Text} {k : IncludeMarker}
    (hrest : Splices load rest) (hread : pattern.read t = some (k, rest)) (hvalue : '>' ∉ k.quoted.value)
    (hload : load k.source = .ok content) (hcheck : Markup.check (Comment.extract content).1 = .ok ()) :
    Splices load t := by
  intro table
  obtain ⟨tag, e, hmarkup, hfragment, -⟩ := exists_element hread hvalue
  obtain ⟨m, table', hresolve, hspliced⟩ := hrest (table.guard content).2
  have hguarded : Markup.check (table.guard content).1 = .ok () := by
    rwa [Comment.check_guard]
  refine ⟨Markup.ofText (table.guard content).1 ++ m, table', ?_, ?_⟩
  · rw [pattern.pieces_of_read hread, resolvePieces, hload]
    dsimp only
    rw [hresolve, Markup.text_append, Markup.text_ofText]
  · rw [hmarkup]
    exact .fragment hfragment (Markup.fragment_ofText hguarded) hspliced

theorem Splices.of_tag {load : Text → Except LoadFailure Text} {t rest : Text} {tag : Tag} (hrest : Splices load rest)
    (htag : Tag.read t = some (tag, rest)) (hpieces : pattern.pieces t = tag.print.map .char ++ pattern.pieces rest) :
    Splices load t := by
  intro table
  obtain ⟨m, table', hresolve, hspliced⟩ := hrest table
  refine ⟨.lexeme tag :: m, table', ?_, ?_⟩
  · rw [hpieces, resolvePieces_map_char, hresolve, Markup.text_tag]
    rfl
  · rw [Markup.ofText_of_read htag]
    exact .tag tag hspliced

theorem Splices.of_char {load : Text → Except LoadFailure Text} {c : Char} {t : Text} (ht : Splices load t)
    (hread : pattern.read (c :: t) = none) (htag : Tag.read (c :: t) = none) : Splices load (c :: t) := by
  intro table
  obtain ⟨m, table', hresolve, hspliced⟩ := ht table
  refine ⟨.char c :: m, table', ?_, ?_⟩
  · rw [pattern.pieces_cons_of_read_none hread, resolvePieces, hresolve]
    rfl
  · rw [Markup.ofText_cons_of_read_none htag]
    exact .char c hspliced

/-- Resolving exchanges the elements that the markers are for the contents of the sources. -/
theorem splices {load : Text → Except LoadFailure Text} {t : Text} {start : Nat} (hbegin : BeginTagsFrom start t)
    (hmarkers : ∀ k ∈ pattern.lexemes t, '>' ∉ k.quoted.value ∧
      ∃ content, load k.source = .ok content ∧ Markup.check (Comment.extract content).1 = .ok ()) :
    Splices load t := by
  induction hn : t.length using Nat.strong_induction_on generalizing t start with
  | _ n ih =>
    cases hread : pattern.read t with
    | some found =>
      obtain ⟨k, rest⟩ := found
      rw [pattern.lexemes_of_read hread, List.forall_mem_cons] at hmarkers
      obtain ⟨⟨hvalue, content, hload, hcheck⟩, hrest⟩ := hmarkers
      have hsplices := ih _ (hn ▸ pattern.length_lt hread) (hbegin.of_marker hread hvalue) hrest rfl
      exact hsplices.of_marker hread hvalue hload hcheck
    | none =>
      cases htag : Tag.read t with
      | some found =>
        obtain ⟨tag, rest⟩ := found
        have hpieces := hbegin.pieces_tag htag hread
        rw [Pattern.lexemes, hpieces, List.filterMap_append, Piece.filterMap_lexeme?_map_char,
          List.nil_append] at hmarkers
        have hsplices := ih _ (hn ▸ Tag.pattern.length_lt htag) (hbegin.of_tag htag hread) hmarkers rfl
        exact hsplices.of_tag htag hpieces
      | none =>
        cases t with
        | nil => exact splices_nil load
        | cons c rest =>
          rw [pattern.lexemes_cons_of_read_none hread] at hmarkers
          have hsplices := ih _ (by simp [← hn]) (hbegin.of_char hread htag) hmarkers rfl
          exact hsplices.of_char hread htag

/-- Including valid contents in a valid text leaves it valid, if no marker begins inside a tag or names its
source with a `>`: all sources are loaded, their guarded contents stand in the place of the markers, and the
result passes the check. -/
theorem check_resolve {load : Text → Except LoadFailure Text} {t : Text} {table : Comment.Table}
    (hcheck : Markup.check t = .ok ()) (hbegin : BeginTags t)
    (hvalues : ∀ k ∈ pattern.lexemes t, '>' ∉ k.quoted.value)
    (hload : ∀ k ∈ pattern.lexemes t,
      ∃ content, load k.source = .ok content ∧ Markup.check (Comment.extract content).1 = .ok ()) :
    ∃ contents, (pattern.lexemes t).mapM (fun k => load k.source) = .ok contents ∧
      resolve load t table =
        .ok (put (pattern.pieces t) (table.guardAll contents).1, (table.guardAll contents).2) ∧
      Markup.check (put (pattern.pieces t) (table.guardAll contents).1) = .ok () := by
  have hbegin' : BeginTagsFrom 0 t := by
    intro o ho
    have := hbegin o ho
    rwa [Markup.tokensFrom_zero] at this
  obtain ⟨m, table', hresolve, hspliced⟩ := splices hbegin' (fun k hk => ⟨hvalues k hk, hload k hk⟩) table
  obtain ⟨contents, hcontents⟩ := exists_mapM fun k hk => (hload k hk).imp fun content h => h.1
  have hput := resolvePieces_of_mapM hcontents table
  refine ⟨contents, hcontents, hput, ?_⟩
  rw [hput] at hresolve
  rw [(Prod.mk.inj (Except.ok.inj hresolve)).1, hspliced.check_text (Markup.fragment_ofText hcheck).isSealed,
    Markup.text_ofText]
  exact hcheck

/-- One source is included by a self-closing marker and by one with a closing tag, and both the template and
the source have comments. -/
theorem check_resolve_twice :
    let library := Library.memory [("a.html".toList, " <b><!-- y -->1</b>".toList)]
    let markup := "<div><!-- x --><include src='a.html'/><p><include id=\"2\" src=\"a.html\"> </include ></p></div>"
    let t := (Comment.extract markup.toList).1
    let out := ("<div><!--templ-comment:0--> <b><!--templ-comment:1-->1</b><p> <b><!--templ-comment:2-->1</b></p>" ++
      "</div>").toList
    Markup.check t = .ok () ∧ BeginTags t ∧ (pattern.lexemes t).length = 2 ∧
      resolve library.load t (Comment.extract markup.toList).2 =
        .ok (out, [⟨" x ".toList⟩, ⟨" y ".toList⟩, ⟨" y ".toList⟩]) ∧ Markup.check out = .ok () := by
  intro library markup t out
  have hcheck : Markup.check t = .ok () := by decide +kernel
  have hbegin : BeginTags t := by decide +kernel
  have hvalues : ∀ k ∈ pattern.lexemes t, '>' ∉ k.quoted.value := by decide +kernel
  have hsource : ∀ k ∈ pattern.lexemes t, k.source = "a.html".toList := by decide +kernel
  have hload : library.load "a.html".toList = .ok " <b><!-- y -->1</b>".toList := by decide +kernel
  have hout : resolve library.load t (Comment.extract markup.toList).2 =
      .ok (out, [⟨" x ".toList⟩, ⟨" y ".toList⟩, ⟨" y ".toList⟩]) := by decide +kernel
  obtain ⟨contents, -, hresolve, hvalid⟩ :=
    @check_resolve library.load t (Comment.extract markup.toList).2 hcheck hbegin hvalues fun k hk => by
      rw [hsource k hk]
      exact ⟨_, hload, by decide +kernel⟩
  rw [hout] at hresolve
  rw [← (Prod.mk.inj (Except.ok.inj hresolve)).1] at hvalid
  exact ⟨hcheck, hbegin, by decide +kernel, hout, hvalid⟩

end IncludeMarker
end HtmlTemplate
