import HtmlTemplate.Proofs.Directive.Retarget
import HtmlTemplate.Proofs.Template.Grammar

/-!
# The markup of a template

A scan of the text of a valid template finds its tags (`Template.ofText_text`), and its elements are those
of a forest. The rest of the theory works with this markup.
-/

namespace HtmlTemplate

open Text (IsPath)

/-! ## Names and paths -/

theorem isWord_of_ident {c : Char} (h : (c.isAlphanum || c == '_') = true) : Text.isWord c = true := by
  rw [Bool.or_eq_true, beq_iff_eq] at h
  rcases h with h | rfl
  · exact Tag.isWord_of_isAlphanum h
  · decide

theorem isPathChar_of_ident {c : Char} (h : (c.isAlphanum || c == '_') = true) : isPathChar c = true := by
  rw [isPathChar, isWord_of_ident h, Bool.true_or]

theorem isIdent_iff {t : Text} :
    isIdent t = true ↔ t ≠ [] ∧ ∀ c ∈ t, (c.isAlphanum || c == '_') = true := by
  simp only [isIdent, Bool.and_eq_true, List.all_eq_true, Bool.not_eq_true', List.isEmpty_eq_false_iff, ne_eq]

theorem isPath_of_isIdent {t : Text} (h : isIdent t = true) : IsPath t :=
  ⟨(isIdent_iff.1 h).1, fun c hc => isPathChar_of_ident ((isIdent_iff.1 h).2 c hc)⟩

theorem Text.IsPath.not_mem {u : Text} (h : IsPath u) {c : Char} (hc : isPathChar c = false) : c ∉ u :=
  fun hmem => by simp [h.all c hmem] at hc

namespace Path

variable {p : Path}

theorem isValid_iff : p.isValid = true ↔ isIdent p.head = true ∧ ∀ s ∈ p.tail, isIdent s = true := by
  simp [isValid]

theorem isPath_text (h : p.isValid = true) : IsPath p.text := by
  obtain ⟨hhead, htail⟩ := isValid_iff.1 h
  have hpath := isPath_of_isIdent hhead
  refine ⟨by simp [text, hpath.ne_nil], fun c hc => ?_⟩
  rcases List.mem_append.1 hc with hc | hc
  · exact hpath.all c hc
  · obtain ⟨s, hs, hc⟩ := List.mem_flatMap.1 hc
    rcases List.mem_cons.1 hc with rfl | hc
    · decide
    · exact (isPath_of_isIdent (htail s hs)).all c hc

theorem not_mem_ident {t : Text} (h : isIdent t = true) : '.' ∉ t := fun hmem =>
  absurd ((isIdent_iff.1 h).2 _ hmem) (by decide)

theorem takeWhile_text (h : p.isValid = true) :
    p.text.takeWhile (· != '.') = p.head ∧ p.text.dropWhile (· != '.') = p.tail.flatMap ('.' :: ·) := by
  have hhead : ∀ c ∈ p.head, (c != '.') = true := fun c hc => by
    simpa using fun he : c = '.' => not_mem_ident (isValid_iff.1 h).1 (he ▸ hc)
  rw [text, List.takeWhile_append_of_pos hhead, List.dropWhile_append_of_pos hhead]
  cases p.tail with
  | nil => simp
  | cons s tail => simp

theorem splitOn_text (h : p.isValid = true) : p.text.splitOn '.' = p.head :: p.tail := by
  obtain ⟨hhead, htail⟩ := isValid_iff.1 h
  have hpoint : ∀ {t : Text}, isIdent t = true → ∀ c ∈ t, (c == '.') = false := fun ht c hc => by
    simpa using fun he : c = '.' => not_mem_ident ht (he ▸ hc)
  have key : ∀ (tail : List Text) (s : Text), (∀ t ∈ s :: tail, isIdent t = true) →
      (s ++ tail.flatMap ('.' :: ·)).splitOn '.' = s :: tail := by
    intro tail
    induction tail with
    | nil =>
      intro s hs
      rw [List.flatMap_nil, List.append_nil]
      exact List.splitOnP_eq_singleton (hpoint (hs s (by simp)))
    | cons u tail ih =>
      intro s hs
      rw [List.forall_mem_cons] at hs
      have hfirst := List.splitOnP_append_cons_of_forall_mem (hpoint hs.1) '.' (by simp)
        (u ++ tail.flatMap ('.' :: ·))
      rw [List.flatMap_cons, List.cons_append]
      exact hfirst.trans (congrArg _ (ih u hs.2))
  exact key p.tail p.head (List.forall_mem_cons.2 ⟨hhead, htail⟩)

end Path

/-! ## Bits and chunks -/

def isBracket (c : Char) : Bool := c == '<' || c == '>'

theorem isBracket_iff {c : Char} : isBracket c = true ↔ c = '<' ∨ c = '>' := by simp [isBracket]

theorem isPlainChar_iff {c : Char} :
    isPlainChar c = true ↔ isBracket c = false ∧ c ≠ '\x7b' ∧ c ≠ '\x7d' ∧ c ≠ '*' := by
  simp [isPlainChar, isBracket, and_assoc]

theorem Bit.not_mem_text {b : Bit} (hb : b.isValid = true) {c : Char}
    (hc : isBracket c = true ∨ c = '*') : c ∉ b.text := by
  have hpath : isPathChar c = false ∧ c ≠ '\x7b' ∧ c ≠ '\x7d' := by
    rw [isBracket_iff] at hc
    rcases hc with (rfl | rfl) | rfl <;> decide
  cases b with
  | char d =>
    obtain ⟨hd, -, -, hstar⟩ := isPlainChar_iff.1 hb
    rw [text, List.mem_singleton]
    rintro rfl
    rcases hc with hc | rfl
    · simp [hd] at hc
    · exact hstar rfl
  | hole p =>
    have hp := (Path.isPath_text hb).not_mem hpath.1
    simp [text, Placeholder.openBraces, Placeholder.closeBraces, hp, hpath.2]

theorem Bit.not_mem_flatMap_text {bits : List Bit} (h : ∀ b ∈ bits, b.isValid = true) {c : Char}
    (hc : isBracket c = true ∨ c = '*') : c ∉ bits.flatMap Bit.text := by
  intro hmem
  obtain ⟨b, hb, hcb⟩ := List.mem_flatMap.1 hmem
  exact b.not_mem_text (h b hb) hc hcb

namespace Clause

theorem valid_loop {item : Text} {source : Path} (h : (loop item source).isValid = true) :
    isIdent item = true ∧ source.isValid = true := by
  simpa [isValid] using h

theorem not_mem_text {clause : Clause} (h : clause.isValid = true) {c : Char} (hpath : isPathChar c = false)
    (hspace : c ≠ ' ') (hnot : c ≠ '!') : c ∉ clause.text := by
  cases clause with
  | loop item source =>
    obtain ⟨hitem, hsource⟩ := valid_loop h
    have hkeyword : c ≠ 'o' ∧ c ≠ 'f' := by
      constructor <;> rintro rfl <;> exact absurd hpath (by decide)
    simp [text, (isPath_of_isIdent hitem).not_mem hpath, (Path.isPath_text hsource).not_mem hpath, hspace,
      hkeyword]
  | guard negated p =>
    have hp := (Path.isPath_text (p := p) h).not_mem hpath
    cases negated <;> simp [text, hp, hnot]

theorem valid_attr {clause : Clause} (h : clause.isValid = true) {blank quote : Char}
    (hblank : Text.isBlank blank = true) (hquote : Text.isQuote quote = true) :
    (clause.attr blank quote).Valid where
  blank := hblank
  equals := ⟨[], [], by simp, by simp, rfl⟩
  quote := hquote
  value := by
    have hmark : quote ≠ ' ' ∧ quote ≠ '!' := by
      rcases Text.isQuote_iff.1 hquote with rfl | rfl <;> decide
    exact not_mem_text h (not_isPathChar_of_isQuote hquote) hmark.1 hmark.2

end Clause

namespace Chunk

theorem valid_plain {blank quote : Char} {name : Text} {value : List Bit}
    (h : (plain blank name quote value).isValid = true) :
    Text.isBlank blank = true ∧ name ≠ [] ∧ (∀ c ∈ name, Text.isAlphanumeric c = true) ∧
      Text.isQuote quote = true ∧ ∀ b ∈ value, b.isValid = true := by
  simp only [isValid, Bool.and_eq_true, Bool.not_eq_true', List.isEmpty_eq_false_iff, List.all_eq_true] at h
  exact ⟨h.1.1.1.1, h.1.1.1.2, h.1.1.2, h.1.2, fun b hb => (h.2 b hb).1⟩

theorem valid_directive {blank quote : Char} {clause : Clause}
    (h : (directive blank quote clause).isValid = true) :
    Text.isBlank blank = true ∧ Text.isQuote quote = true ∧ clause.isValid = true := by
  simpa [isValid, and_assoc] using h

theorem exists_text {k : Chunk} (h : k.isValid = true) : ∃ c t, k.text = c :: t ∧ Text.isBlank c = true := by
  cases k with
  | space c => exact ⟨c, [], rfl, h⟩
  | plain blank name quote value => exact ⟨blank, _, rfl, (valid_plain h).1⟩
  | directive blank quote clause => exact ⟨blank, _, rfl, (valid_directive h).1⟩

theorem exists_getLast? {k : Chunk} (h : k.isValid = true) :
    ∃ c, k.text.getLast? = some c ∧ (Text.isBlank c = true ∨ Text.isQuote c = true) := by
  cases k with
  | space c => exact ⟨c, rfl, .inl h⟩
  | plain blank name quote value =>
    refine ⟨quote, ?_, .inr (valid_plain h).2.2.2.1⟩
    simp [text, List.getLast?_cons, List.getLast?_append]
  | directive blank quote clause =>
    refine ⟨quote, ?_, .inr (valid_directive h).2.1⟩
    simp [text, Attribute.print_eq, Clause.attr, List.getLast?_cons, List.getLast?_append]

theorem not_mem_text {k : Chunk} (h : k.isValid = true) {c : Char} (hc : isBracket c = true) :
    c ∉ k.text := by
  have hblank : ∀ {d : Char}, Text.isBlank d = true → c ≠ d := by
    rintro d hd rfl
    rcases isBracket_iff.1 hc with rfl | rfl <;> exact absurd hd (by decide)
  have hquote : ∀ {d : Char}, Text.isQuote d = true → c ≠ d := by
    rintro d hd rfl
    rcases isBracket_iff.1 hc with rfl | rfl <;> exact absurd hd (by decide)
  have hsign : c ≠ '=' := by rcases isBracket_iff.1 hc with rfl | rfl <;> decide
  cases k with
  | space d => simpa [text] using hblank h
  | plain blank name quote value =>
    obtain ⟨hb, -, hname, hq, hvalue⟩ := valid_plain h
    have hname' : c ∉ name := fun hmem => by
      have := hname c hmem
      rcases isBracket_iff.1 hc with rfl | rfl <;> exact absurd this (by decide)
    simp [text, hblank hb, hname', hsign, hquote hq, Bit.not_mem_flatMap_text hvalue (.inl hc)]
  | directive blank quote clause =>
    obtain ⟨hb, hq, hclause⟩ := valid_directive h
    have hvalue : c ∉ clause.text := by
      apply Clause.not_mem_text hclause <;> rcases isBracket_iff.1 hc with rfl | rfl <;> decide
    have hname : ∀ kind : DirectiveKind, c ∉ kind.attributeName := by
      rintro (_ | _) <;> rcases isBracket_iff.1 hc with rfl | rfl <;> decide
    simp [text, Attribute.print_eq, Clause.attr, hblank hb, hname, hsign, hquote hq, hvalue]

end Chunk

/-! ## Tags -/

namespace Opening

variable {o : Opening}

theorem isValid_iff : o.isValid = true ↔ Tag.isName o.name = true ∧ (∀ k ∈ o.chunks, k.isValid = true) ∧
    ∀ kind, o.chunks.countP (·.kind? == some kind) ≤ 1 := by
  have hkinds : (∀ kind, o.chunks.countP (·.kind? == some kind) ≤ 1) ↔
      ∀ kind ∈ [DirectiveKind.loop, .guard], o.chunks.countP (·.kind? == some kind) ≤ 1 :=
    ⟨fun h kind _ => h kind, fun h kind => h kind (by cases kind <;> simp)⟩
  rw [hkinds]
  simp only [isValid, Bool.and_eq_true, List.all_eq_true, decide_eq_true_eq, and_assoc]

theorem not_mem_name (h : o.isValid = true) {c : Char} (hc : c.isAlphanum = false) : c ∉ o.name := fun hmem => by
  rw [Tag.isAlphanum_of_isName (isValid_iff.1 h).1 c hmem] at hc
  simp at hc

theorem print_tag (o : Opening) :
    o.tag.print = o.tag.lead ++ (o.chunks.flatMap Chunk.text ++ (o.trail ++ ['>'])) := by
  rw [Tag.print_eq]
  simp [tag]

theorem not_mem_trail {c : Char} (hc : c ≠ '/') : c ∉ o.trail := by
  unfold trail
  split <;> simp [hc]

theorem proper_tag (h : o.isValid = true) : o.tag.Proper := by
  obtain ⟨hname, hchunks, -⟩ := isValid_iff.1 h
  refine ⟨hname, ?_, fun hmem => ?_⟩
  · show (o.chunks.flatMap Chunk.text ++ o.trail).head?.any Text.isWord = false
    cases hc : o.chunks with
    | nil => cases hs : o.slash <;> simp [trail, hs, show Text.isWord '/' = false by decide]
    | cons k ks =>
      obtain ⟨c, t, hk, hblank⟩ := Chunk.exists_text (hchunks k (by simp [hc]))
      simp [hk, Text.not_isWord_of_isBlank hblank]
  · rcases List.mem_append.1 (show '>' ∈ o.chunks.flatMap Chunk.text ++ o.trail from hmem) with hmem | hmem
    · obtain ⟨k, hk, hmem⟩ := List.mem_flatMap.1 hmem
      exact Chunk.not_mem_text (hchunks k hk) (by decide) hmem
    · exact not_mem_trail (by decide) hmem

theorem mem_chunks_of_loop? {item : Text} {source : Path} (h : o.loop? = some (item, source)) :
    ∃ blank quote, .directive blank quote (.loop item source) ∈ o.chunks := by
  obtain ⟨k, hk, hloop⟩ := List.exists_of_findSome?_eq_some h
  rcases k with _ | _ | ⟨blank, quote, _ | _⟩ <;> simp [Chunk.loop?] at hloop
  obtain ⟨rfl, rfl⟩ := hloop
  exact ⟨blank, quote, hk⟩

theorem valid_of_loop? (h : o.isValid = true) {item : Text} {source : Path}
    (hloop : o.loop? = some (item, source)) : isIdent item = true ∧ source.isValid = true := by
  obtain ⟨blank, quote, hk⟩ := mem_chunks_of_loop? hloop
  exact Clause.valid_loop (Chunk.valid_directive ((isValid_iff.1 h).2.1 _ hk)).2.2

theorem proper_closingTag (h : o.isValid = true) : o.closingTag.Proper :=
  ⟨(isValid_iff.1 h).1, rfl, by simp [closingTag]⟩

theorem getLast?_chunks (h : o.isValid = true) {c : Char} (hc : (o.chunks.flatMap Chunk.text).getLast? = some c) :
    Text.isBlank c = true ∨ Text.isQuote c = true := by
  rcases List.eq_nil_or_concat o.chunks with hnil | ⟨ks, k, hk⟩
  · simp [hnil] at hc
  · rw [List.concat_eq_append] at hk
    obtain ⟨d, hd, hblank⟩ := Chunk.exists_getLast? ((isValid_iff.1 h).2.1 k (by simp [hk]))
    have hcd : d = c := by simpa [hk, List.flatMap_append, List.getLast?_append, hd] using hc
    exact hcd ▸ hblank

theorem opensScope_tag (h : o.isValid = true) : o.tag.opensScope = !(o.slash || Tag.isVoidName o.name) := by
  have hslash : o.tag.selfClosing = o.slash := by
    show ((o.chunks.flatMap Chunk.text ++ o.trail).getLast? == some '/') = o.slash
    cases hs : o.slash with
    | true => simp [trail, hs]
    | false =>
      rw [trail, hs, if_neg (by simp), List.append_nil, beq_eq_false_iff_ne]
      intro hlast
      rcases getLast?_chunks h hlast with hb | hq
      · exact absurd hb (by decide)
      · exact absurd hq (by decide)
  rw [Tag.opensScope, hslash, Bool.not_or]
  rfl

end Opening

/-! ## Markup -/

namespace Template

/-- The tags of a template and the characters between them. -/
def markup : Template → Markup
  | nil => []
  | bit b rest => b.text.map .char ++ rest.markup
  | leaf o rest => .lexeme o.tag :: rest.markup
  | element o inside rest => .lexeme o.tag :: (inside.markup ++ .lexeme o.closingTag :: rest.markup)

def forest : Template → Forest
  | nil => .nil
  | bit _ rest => rest.forest
  | leaf o rest => .single o.tag rest.forest
  | element o inside rest => .element o.tag inside.forest o.closingTag rest.forest

@[simp] theorem text_markup (T : Template) : T.markup.text = T.text := by
  induction T with
  | nil => rfl
  | bit b rest ih => simp [markup, text, ih]
  | leaf o rest ih => simp [markup, text, ih]
  | element o inside rest ihInside ih => simp [markup, text, ihInside, ih]

@[simp] theorem tags_forest (T : Template) : T.forest.tags = T.markup.tags := by
  induction T with
  | nil => rfl
  | bit b rest ih => simp [markup, forest, ih]
  | leaf o rest ih => simp [markup, forest, Forest.tags, ih]
  | element o inside rest ihInside ih => simp [markup, forest, Forest.tags, ihInside, ih]

theorem valid_bit {b : Bit} {rest : Template} (h : (bit b rest).isValid = true) :
    b.isValid = true ∧ rest.isValid = true := by
  simpa [isValid] using h

theorem valid_leaf {o : Opening} {rest : Template} (h : (leaf o rest).isValid = true) :
    o.isValid = true ∧ o.tag.opensScope = false ∧ rest.isValid = true := by
  simp only [isValid, Bool.and_eq_true] at h
  exact ⟨h.1.1, by rw [Opening.opensScope_tag h.1.1, h.1.2]; rfl, h.2⟩

theorem valid_element {o : Opening} {inside rest : Template} (h : (element o inside rest).isValid = true) :
    o.isValid = true ∧ o.tag.opensScope = true ∧ inside.isValid = true ∧ rest.isValid = true := by
  simp only [isValid, Bool.and_eq_true] at h
  exact ⟨h.1.1.1, by rw [Opening.opensScope_tag h.1.1.1, h.1.1.2], h.1.2, h.2⟩

variable {T : Template}

theorem matched_forest (h : T.isValid = true) : T.forest.Matched := by
  induction T with
  | nil => trivial
  | bit b rest ih => exact ih (valid_bit h).2
  | leaf o rest ih =>
    obtain ⟨-, hopens, hrest⟩ := valid_leaf h
    exact ⟨rfl, hopens, ih hrest⟩
  | element o inside rest ihInside ih =>
    obtain ⟨-, hopens, hinside, hrest⟩ := valid_element h
    exact ⟨hopens, rfl, rfl, ihInside hinside, ih hrest⟩

theorem not_mem_markup (h : T.isValid = true) : .char '<' ∉ T.markup := by
  induction T with
  | nil => simp [markup]
  | bit b rest ih =>
    obtain ⟨hb, hrest⟩ := valid_bit h
    simp [markup, b.not_mem_text hb (.inl (show isBracket '<' = true by decide)), ih hrest]
  | leaf o rest ih => simp [markup, ih (valid_leaf h).2.2]
  | element o inside rest ihInside ih =>
    obtain ⟨-, -, hinside, hrest⟩ := valid_element h
    simp [markup, ihInside hinside, ih hrest]

theorem sealed_markup (h : T.isValid = true) {C : Char → Prop} {D : Tag → Prop} : Markup.Sealed C D T.markup := by
  induction T with
  | nil => trivial
  | bit b rest ih =>
    obtain ⟨hb, hrest⟩ := valid_bit h
    exact (Markup.Sealed.map_char (b.not_mem_text hb (.inl (by decide)))).append (ih hrest)
  | leaf o rest ih =>
    obtain ⟨ho, -, hrest⟩ := valid_leaf h
    exact ⟨Opening.proper_tag ho, ih hrest⟩
  | element o inside rest ihInside ih =>
    obtain ⟨ho, -, hinside, hrest⟩ := valid_element h
    exact ⟨Opening.proper_tag ho, (ihInside hinside).append ⟨Opening.proper_closingTag ho, ih hrest⟩⟩

theorem ofText_text (h : T.isValid = true) : Markup.ofText T.text = T.markup := by
  rw [← text_markup]
  exact (sealed_markup (C := fun _ => True) (D := fun _ => True) h).ofText_text

theorem balanced_text (h : T.isValid = true) : Markup.Balanced T.text := by
  rw [Markup.balanced_iff, ofText_text h]
  exact Forest.checkTags_eq_ok_iff.2 ⟨T.forest, matched_forest h, T.tags_forest⟩

theorem cutSpan_element {o : Opening} {inside : Template} (hinside : inside.isValid = true)
    (hopens : o.tag.opensScope = true) (m : Markup) :
    Markup.cutSpan o.tag (inside.markup ++ .lexeme o.closingTag :: m) =
      some (inside.markup ++ [.lexeme o.closingTag], m) :=
  Forest.cutSpan_element (matched_forest hinside) hopens (show o.closingTag.closing = true from rfl) rfl
    inside.tags_forest.symm m

theorem cutSpan_leaf {o : Opening} (hopens : o.tag.opensScope = false) (m : Markup) :
    Markup.cutSpan o.tag m = some ([], m) := by
  rw [Markup.cutSpan, if_neg (by simp [hopens])]

def append : Template → Template → Template
  | nil, T => T
  | bit b rest, T => bit b (rest.append T)
  | leaf o rest, T => leaf o (rest.append T)
  | element o inside rest, T => element o inside (rest.append T)

@[simp] theorem markup_append (S T : Template) : (S.append T).markup = S.markup ++ T.markup := by
  induction S with
  | nil => rfl
  | bit b rest ih => simp [append, markup, ih]
  | leaf o rest ih => simp [append, markup, ih]
  | element o inside rest _ ih => simp [append, markup, ih]

@[simp] theorem text_append (S T : Template) : (S.append T).text = S.text ++ T.text := by
  rw [← text_markup, markup_append, Markup.text_append, text_markup, text_markup]

@[simp] theorem isValid_append (S T : Template) : (S.append T).isValid = (S.isValid && T.isValid) := by
  induction S with
  | nil => simp [append, isValid]
  | bit b rest ih => simp [append, isValid, ih, Bool.and_assoc]
  | leaf o rest ih => simp [append, isValid, ih, Bool.and_assoc]
  | element o inside rest _ ih => simp [append, isValid, ih, Bool.and_assoc]

end Template
end HtmlTemplate
