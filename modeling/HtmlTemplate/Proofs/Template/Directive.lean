import HtmlTemplate.Proofs.Directive.Paths
import HtmlTemplate.Proofs.Directive.Selection
import HtmlTemplate.Proofs.Template.Scan

/-!
# The directives of a template

A scan of an opening tag for the directives of a kind finds its chunks of that kind (`Opening.pieces_tag`).
So the directives of a template are well formed, the loop that expansion finds in a tag is the loop of the
tree (`Opening.exists_ofTag?_loop`), and what it strips is that chunk.
-/

namespace HtmlTemplate

open Directive (ofTag?)

/-! ## Clauses -/

theorem isIdentifier_of_isIdent {t : Text} (h : isIdent t = true) : LoopExpr.isIdentifier t = true := by
  obtain ⟨hne, hall⟩ := isIdent_iff.1 h
  simp only [LoopExpr.isIdentifier, Bool.and_eq_true, Bool.not_eq_true', List.isEmpty_eq_false_iff,
    List.all_eq_true]
  refine ⟨hne, fun c hc => ?_⟩
  have := hall c hc
  simp only [Bool.or_eq_true] at this ⊢
  refine this.imp_left fun halnum => ?_
  rw [Text.isAlphanumeric_of_ascii (Tag.ascii_of_isAlphanum halnum), halnum]

theorem Path.isPath_source {p : Path} (h : p.isValid = true) : LoopExpr.isPath p.text = true := by
  rw [LoopExpr.isPath, Path.splitOn_text h, List.all_eq_true]
  obtain ⟨hhead, htail⟩ := Path.isValid_iff.1 h
  exact List.forall_mem_cons.2 ⟨isIdentifier_of_isIdent hhead, fun s hs => isIdentifier_of_isIdent (htail s hs)⟩

namespace Clause

theorem not_star {clause : Clause} (h : clause.isValid = true) : '*' ∉ clause.text :=
  not_mem_text h (by decide) (by decide) (by decide)

def layout : LoopExpr.Layout where
  before := []
  gap := [' ']
  space := [' ']
  after := []
  before_blank := by simp
  gap_blank := by simp [show Text.isBlank ' ' = true by decide]
  space_blank := by simp [show Text.isBlank ' ' = true by decide]
  after_blank := by simp
  gap_ne_nil := by simp
  space_ne_nil := by simp

theorem text_loop (item : Text) (source : Path) :
    (loop item source).text = layout.text ⟨item, source.text⟩ := by
  simp [text, layout, LoopExpr.Layout.text, LoopExpr.keyword]

theorem parse?_text {item : Text} {source : Path} (hitem : isIdent item = true) (hsource : source.isValid = true) :
    LoopExpr.parse? (loop item source).text = some ⟨item, source.text⟩ := by
  rw [text_loop]
  exact LoopExpr.parse?_layout _ (isIdentifier_of_isIdent hitem) (Path.isPath_source hsource)

end Clause

/-! ## Chunks -/

namespace Chunk

/-- A chunk as a scan for the directives of a kind finds it. -/
def pieces (kind : DirectiveKind) (k : Chunk) : List (Piece Attribute) :=
  match k with
  | directive blank quote clause =>
    if clause.kind = kind then [.lexeme (clause.attr blank quote)] else k.text.map .char
  | _ => k.text.map .char

variable {k : Chunk}

theorem not_mem_text_plain {blank quote : Char} {name : Text} {value : List Bit}
    (h : (plain blank name quote value).isValid = true) : '*' ∉ (plain blank name quote value).text := by
  obtain ⟨hblank, -, hname, hquote, hvalue⟩ := valid_plain h
  have hb : '*' ≠ blank := by
    rintro rfl
    exact absurd hblank (by decide)
  have hn : '*' ∉ name := fun hmem => absurd (hname '*' hmem) (by decide)
  have hq : '*' ≠ quote := by
    rintro rfl
    exact absurd hquote (by decide)
  simp [text, hb, hn, hq, Bit.not_mem_flatMap_text hvalue (.inr rfl)]

theorem exists_behind {blank quote : Char} {clause : Clause} (h : (directive blank quote clause).isValid = true) :
    ∃ x : Text, (directive blank quote clause).text = blank :: '*' :: x ∧ '*' ∉ x := by
  obtain ⟨hblank, hquote, hclause⟩ := valid_directive h
  obtain ⟨x, hx, hstar, -⟩ :=
    (Clause.valid_attr hclause hblank hquote).not_mem_behind clause.kind (Clause.not_star hclause)
  exact ⟨x, hx, hstar⟩

theorem blank_ne_star {blank quote : Char} {clause : Clause} (h : (directive blank quote clause).isValid = true) :
    '*' ∉ [blank] := by
  obtain ⟨hblank, hquote, hclause⟩ := valid_directive h
  simpa [Clause.attr] using (Clause.valid_attr hclause hblank hquote).ne_star.1.symm

theorem head?_text_ne (h : k.isValid = true) (t : Text) : (k.text ++ t).head? ≠ some '*' := by
  obtain ⟨c, u, hk, hblank⟩ := exists_text h
  rw [hk, List.cons_append, List.head?_cons, ne_eq, Option.some.injEq]
  rintro rfl
  exact absurd hblank (by decide)

theorem pieces_text_append (h : k.isValid = true) (kind : DirectiveKind) {t : Text} (ht : t.head? ≠ some '*') :
    (Attribute.pattern kind.attributeName).pieces (k.text ++ t) =
      k.pieces kind ++ (Attribute.pattern kind.attributeName).pieces t := by
  obtain ⟨name, hname, -⟩ := Directive.attributeName_eq kind
  cases k with
  | space c =>
    have hstar : '*' ∉ (space c).text := by
      rw [text, List.mem_singleton]
      rintro rfl
      exact absurd h (by decide)
    rw [hname]
    exact Attribute.pieces_append hstar ht
  | plain blank word quote value =>
    rw [hname]
    exact Attribute.pieces_append (not_mem_text_plain h) ht
  | directive blank quote clause =>
    obtain ⟨hblank, hquote, hclause⟩ := valid_directive h
    have hread : Attribute.read clause.kind.attributeName ((directive blank quote clause).text ++ t) =
        some (clause.attr blank quote, t) :=
      (Clause.valid_attr hclause hblank hquote).read_print clause.kind.attributeName t
    rw [pieces]
    split
    · next hkind =>
      subst hkind
      have hpattern : (Attribute.pattern clause.kind.attributeName).read
          ((directive blank quote clause).text ++ t) = some (clause.attr blank quote, t) := hread
      rw [Pattern.pieces_of_read _ hpattern]
      rfl
    · next hkind =>
      -- no directive begins at the blank, since one of another kind does, nor at the star
      obtain ⟨x, hx, hstar⟩ := exists_behind h
      rw [hx, List.cons_append, List.cons_append]
      have hfirst : (Attribute.pattern kind.attributeName).read (blank :: '*' :: (x ++ t)) = none := by
        by_contra hne
        obtain ⟨⟨a, r⟩, hsome⟩ := Option.ne_none_iff_exists'.1 hne
        rw [hx] at hread
        exact hkind (Tag.WellFormed.kind_eq hread hsome)
      have hsecond : (Attribute.pattern kind.attributeName).read ('*' :: (x ++ t)) = none := by
        show Attribute.read kind.attributeName ('*' :: (x ++ t)) = none
        exact Attribute.read_cons_of_not_isBlank (by decide)
      rw [Pattern.pieces_cons_of_read_none _ hfirst, Pattern.pieces_cons_of_read_none _ hsecond, hname,
        Attribute.pieces_append hstar ht]
      simp

theorem pieces_flatMap_append {ks : List Chunk} (h : ∀ k ∈ ks, k.isValid = true) (kind : DirectiveKind)
    {t : Text} (ht : t.head? ≠ some '*') :
    (ks.flatMap text ++ t).head? ≠ some '*' ∧
      (Attribute.pattern kind.attributeName).pieces (ks.flatMap text ++ t) =
        ks.flatMap (pieces kind) ++ (Attribute.pattern kind.attributeName).pieces t := by
  induction ks with
  | nil => exact ⟨ht, rfl⟩
  | cons k ks ih =>
    rw [List.forall_mem_cons] at h
    obtain ⟨hhead, hpieces⟩ := ih h.2
    rw [List.flatMap_cons, List.flatMap_cons, List.append_assoc, List.append_assoc,
      pieces_text_append h.1 kind hhead, hpieces]
    exact ⟨head?_text_ne h.1 _, rfl⟩

theorem pieces_of_kind?_ne {kind : DirectiveKind} {ks : List Chunk} (h : ∀ k ∈ ks, k.kind? ≠ some kind) :
    ks.flatMap (pieces kind) = (ks.flatMap text).map .char := by
  induction ks with
  | nil => rfl
  | cons k ks ih =>
    rw [List.forall_mem_cons] at h
    rw [List.flatMap_cons, List.flatMap_cons, List.map_append, ih h.2]
    congr 1
    cases k with
    | space | plain => rfl
    | directive blank quote clause =>
      rw [pieces, if_neg]
      simpa [kind?] using h.1

theorem flatMap_pieces_nil (kind : DirectiveKind) (ks : List Chunk) :
    (ks.flatMap (pieces kind)).flatMap (Piece.print fun _ => []) =
      (ks.filter fun k => k.kind? != some kind).flatMap text := by
  induction ks with
  | nil => rfl
  | cons k ks ih =>
    rw [List.flatMap_cons, List.flatMap_append, ih]
    by_cases hk : k.kind? = some kind
    · rw [List.filter_cons_of_neg (by simp [hk])]
      cases k with
      | space | plain => simp [kind?] at hk
      | directive blank quote clause =>
        rw [pieces, if_pos (by simpa [kind?] using hk)]
        rfl
    · rw [List.filter_cons_of_pos (by simp [hk]), List.flatMap_cons]
      have hpieces : [k].flatMap (pieces kind) = ([k].flatMap text).map .char :=
        pieces_of_kind?_ne (by simpa using hk)
      rw [List.flatMap_singleton, List.flatMap_singleton] at hpieces
      rw [hpieces]
      congr 1
      exact Piece.flatMap_print_map_char _ _

end Chunk

/-! ## Tags -/

namespace Opening

variable {o : Opening} {kind : DirectiveKind}

theorem lead_tag (o : Opening) : o.tag.lead = '<' :: o.name := rfl

theorem not_mem_lead (h : o.isValid = true) {c : Char} (hc : c.isAlphanum = false) (hne : c ≠ '<') :
    c ∉ o.tag.lead := by
  rw [lead_tag, List.mem_cons, not_or]
  exact ⟨hne, not_mem_name h hc⟩

theorem star_not_mem_lead (h : o.isValid = true) : '*' ∉ o.tag.lead := not_mem_lead h (by decide) (by decide)

theorem not_mem_closingTag (h : o.isValid = true) {c : Char} (hc : c.isAlphanum = false)
    (hne : c ∉ ['<', '/', '>']) : c ∉ o.closingTag.print := by
  simp only [List.mem_cons, List.not_mem_nil, or_false, not_or] at hne
  simp [Tag.print, closingTag, hne, not_mem_name h hc]

theorem not_mem_trail_end (o : Opening) : '*' ∉ o.trail ++ ['>'] := by
  rw [List.mem_append, not_or]
  exact ⟨not_mem_trail (by decide), by decide⟩

theorem head?_trail_end (o : Opening) : (o.trail ++ ['>']).head? ≠ some '*' := fun h =>
  o.not_mem_trail_end (List.mem_of_head? h)

/-- What a scan of a tag for the directives of a kind finds. -/
theorem pieces_tag (h : o.isValid = true) (kind : DirectiveKind) :
    (Attribute.pattern kind.attributeName).pieces o.tag.print =
      o.tag.lead.map .char ++ (o.chunks.flatMap (Chunk.pieces kind) ++ (o.trail ++ ['>']).map .char) := by
  obtain ⟨name, hname, -⟩ := Directive.attributeName_eq kind
  obtain ⟨hhead, hpieces⟩ := Chunk.pieces_flatMap_append (isValid_iff.1 h).2.1 kind o.head?_trail_end
  rw [print_tag, hname, Attribute.pieces_append (star_not_mem_lead h) hhead, ← hname, hpieces]
  have htrail : (Attribute.pattern ('*' :: name)).pieces (o.trail ++ ['>'] ++ []) = _ :=
    Attribute.pieces_append o.not_mem_trail_end (by simp)
  rw [List.append_nil, Pattern.pieces_nil, List.append_nil] at htrail
  rw [hname, htrail]

theorem ofTag?_eq_none (h : o.isValid = true) (hk : ∀ k ∈ o.chunks, k.kind? ≠ some kind) :
    ofTag? kind o.tag = none := by
  have hfind : (Attribute.pattern kind.attributeName).find? o.tag.print = none := by
    apply Pattern.find?_eq_none_of_pieces
    intro a
    rw [pieces_tag h, Chunk.pieces_of_kind?_ne hk]
    simp
  rw [ofTag?, hfind]
  split <;> rfl

theorem exists_chunks (h : o.isValid = true) {k : Chunk} (hk : k ∈ o.chunks) (hkind : k.kind? = some kind) :
    ∃ ks ks', o.chunks = ks ++ k :: ks' ∧ ∀ k' ∈ ks ++ ks', k'.kind? ≠ some kind := by
  obtain ⟨ks, ks', hchunks⟩ := List.append_of_mem hk
  refine ⟨ks, ks', hchunks, fun k' hk' he => ?_⟩
  have hcount := (isValid_iff.1 h).2.2 kind
  rw [hchunks, List.countP_append, List.countP_cons, if_pos (by simp [hkind])] at hcount
  have hpos : 0 < (ks ++ ks').countP (·.kind? == some kind) :=
    List.countP_pos_iff.2 ⟨k', hk', by simp [he]⟩
  rw [List.countP_append] at hpos
  omega

/-- The directive that a scan finds in a tag, and what is left of the tag without it. -/
theorem exists_ofTag? (h : o.isValid = true) {blank quote : Char} {clause : Clause}
    (hk : .directive blank quote clause ∈ o.chunks) (hkind : clause.kind = kind) :
    ∃ d, ofTag? kind o.tag = some d ∧ d.tag = o.tag ∧ d.value = clause.text ∧
      d.stripped = (o.without kind).tag.print := by
  obtain ⟨ks, ks', hchunks, hother⟩ := exists_chunks h hk (congrArg some hkind)
  simp only [List.forall_mem_append] at hother
  have hpieces := pieces_tag h kind
  rw [hchunks, List.flatMap_append, List.flatMap_cons, Chunk.pieces_of_kind?_ne hother.1, Chunk.pieces,
    if_pos hkind, Chunk.pieces_of_kind?_ne hother.2] at hpieces
  have hfirst : (Attribute.pattern kind.attributeName).pieces o.tag.print =
      (o.tag.lead ++ ks.flatMap Chunk.text).map .char ++ .lexeme (clause.attr blank quote) ::
        (ks'.flatMap Chunk.text ++ (o.trail ++ ['>'])).map .char := by
    rw [hpieces]
    simp
  have hfind := Pattern.find?_of_pieces hfirst
  refine ⟨⟨o.tag, _, _, _⟩, by rw [ofTag?, hfind]; rfl, rfl, rfl, ?_⟩
  have hfilter : o.chunks.filter (fun k => k.kind? != some kind) = ks ++ ks' := by
    rw [hchunks, List.filter_append, List.filter_cons_of_neg (by simp [Chunk.kind?, hkind]),
      List.filter_eq_self.2 (by simpa using hother.1), List.filter_eq_self.2 (by simpa using hother.2)]
  rw [Directive.stripped, Piece.flatMap_print_map_char, print_tag]
  show _ = o.tag.lead ++ ((o.chunks.filter _).flatMap Chunk.text ++ (o.trail ++ ['>']))
  rw [hfilter]
  simp

/-! ## Loops -/

theorem loop?_eq_none_iff : o.loop? = none ↔ ∀ k ∈ o.chunks, k.kind? ≠ some .loop := by
  rw [loop?, List.findSome?_eq_none_iff]
  refine forall_congr' fun k => imp_congr_right fun _ => ?_
  rcases k with _ | _ | ⟨_, _, _ | _⟩ <;> simp [Chunk.loop?, Chunk.kind?, Clause.kind]

theorem ofTag?_loop_eq_none (h : o.isValid = true) (hloop : o.loop? = none) : ofTag? .loop o.tag = none :=
  ofTag?_eq_none h (loop?_eq_none_iff.1 hloop)

/-- The loop that expansion finds in a tag. -/
theorem exists_ofTag?_loop (h : o.isValid = true) {item : Text} {source : Path}
    (hloop : o.loop? = some (item, source)) :
    ∃ d, ofTag? .loop o.tag = some d ∧ d.tag = o.tag ∧ d.value = (Clause.loop item source).text ∧
      d.stripped = (o.without .loop).tag.print := by
  obtain ⟨blank, quote, hk⟩ := mem_chunks_of_loop? hloop
  exact exists_ofTag? h hk rfl

theorem ofTag?_closingTag (o : Opening) (kind : DirectiveKind) : ofTag? kind o.closingTag = none := rfl

/-! ## Tags without a directive -/

theorem isValid_without (h : o.isValid = true) (kind : DirectiveKind) : (o.without kind).isValid = true := by
  obtain ⟨hname, hchunks, hcount⟩ := isValid_iff.1 h
  refine isValid_iff.2 ⟨hname, fun k hk => hchunks k (List.mem_of_mem_filter hk), fun kind' => ?_⟩
  exact (List.filter_sublist.countP_le).trans (hcount kind')

theorem opensScope_without (h : o.isValid = true) (kind : DirectiveKind) :
    (o.without kind).tag.opensScope = o.tag.opensScope := by
  rw [opensScope_tag h, opensScope_tag (isValid_without h kind)]
  rfl

theorem loop?_without (o : Opening) : (o.without .loop).loop? = none :=
  loop?_eq_none_iff.2 fun k hk => by simpa using (List.mem_filter.1 hk).2

theorem loop?_without_guard (o : Opening) : (o.without .guard).loop? = o.loop? := by
  have hchunks : ∀ ks : List Chunk,
      (ks.filter fun k => k.kind? != some .guard).findSome? Chunk.loop? = ks.findSome? Chunk.loop? := by
    intro ks
    induction ks with
    | nil => rfl
    | cons k ks ih =>
      by_cases hk : k.kind? = some .guard
      · rw [List.filter_cons_of_neg (by simp [hk]), ih]
        rcases k with _ | _ | ⟨_, _, _ | _⟩
        · simp [Chunk.kind?] at hk
        · simp [Chunk.kind?] at hk
        · simp [Chunk.kind?, Clause.kind] at hk
        · rfl
      · rw [List.filter_cons_of_pos (by simpa using hk), List.findSome?_cons, List.findSome?_cons, ih]
  exact hchunks o.chunks

/-! ## Well-formed directives -/

theorem beginsDirective_append {s before behind : Text} (hs : s.getLast? ≠ some '/')
    (h : Tag.beginsDirective before behind = true) : Tag.beginsDirective (s ++ before) behind = true := by
  obtain ⟨kind, front, a, back, rfl, hread, hvalue, hslash, hback⟩ := Tag.beginsDirective_iff.1 h
  refine Tag.beginsDirective_iff.2 ⟨kind, s ++ front, a, back, by simp, hread, hvalue, fun hlast => ?_, hback⟩
  rw [List.getLast?_append] at hlast
  cases hf : front.getLast? with
  | some d => exact hslash (by simpa [hf] using hlast)
  | none => exact hs (by simpa [hf] using hlast)

theorem beginsDirective_chunk {k : Chunk} (h : k.isValid = true) {rest : Text} (hrest : rest.partsAttribute = true)
    {before behind : Text} (hsplit : k.text ++ rest = before ++ '*' :: behind) :
    Tag.beginsDirective before behind = true ∨ ∃ w, before = k.text ++ w ∧ rest = w ++ '*' :: behind := by
  by_cases hstar : '*' ∈ k.text
  · cases k with
    | space d =>
      rw [Chunk.text, List.mem_singleton] at hstar
      exact absurd (hstar ▸ h : Text.isBlank '*' = true) (by decide)
    | plain => exact absurd hstar (Chunk.not_mem_text_plain h)
    | directive blank quote clause =>
      obtain ⟨x, hx, hxstar⟩ := Chunk.exists_behind h
      obtain ⟨hblank, hquote, hclause⟩ := Chunk.valid_directive h
      rw [hx] at hsplit
      cases before with
      | nil =>
        rw [(List.cons.inj hsplit).1] at hblank
        exact absurd hblank (by decide)
      | cons b before =>
        obtain ⟨rfl, htail⟩ := List.cons.inj hsplit
        cases before with
        | nil =>
          have hbehind : x ++ rest = behind := (List.cons.inj htail).2
          have hread := (Clause.valid_attr hclause hblank hquote).read_print clause.kind.attributeName rest
          rw [show (clause.attr blank quote).print clause.kind.attributeName = _ from hx, List.cons_append,
            List.cons_append, hbehind] at hread
          exact .inl (Tag.beginsDirective_iff.2 ⟨clause.kind, [], clause.attr blank quote, rest, rfl, hread,
            Clause.not_star hclause, by simp, hrest⟩)
        | cons d before =>
          obtain ⟨rfl, hinside⟩ := List.cons.inj htail
          obtain ⟨w, rfl, hw⟩ := Text.exists_of_append_eq_append_cons hinside hxstar
          exact .inr ⟨w, by rw [hx]; simp, hw⟩
  · exact .inr (Text.exists_of_append_eq_append_cons hsplit hstar)

theorem beginsDirective_chunks {ks : List Chunk} (h : ∀ k ∈ ks, k.isValid = true) {e : Text} (he : '*' ∉ e)
    (hparts : e.partsAttribute = true) :
    Text.partsAttribute (ks.flatMap Chunk.text ++ e) = true ∧
      ∀ before behind, ks.flatMap Chunk.text ++ e = before ++ '*' :: behind →
        Tag.beginsDirective before behind = true := by
  induction ks with
  | nil =>
    refine ⟨hparts, fun before behind hsplit => absurd ?_ he⟩
    rw [show e = before ++ '*' :: behind from hsplit]
    simp
  | cons k ks ih =>
    rw [List.forall_mem_cons] at h
    obtain ⟨hrest, hstars⟩ := ih h.2
    obtain ⟨c, u, hk, hblank⟩ := Chunk.exists_text h.1
    obtain ⟨d, hlast, hend⟩ := Chunk.exists_getLast? h.1
    rw [List.flatMap_cons, List.append_assoc]
    refine ⟨by rw [hk]; exact Text.partsAttribute_of_isBlank hblank _, fun before behind hsplit => ?_⟩
    rcases beginsDirective_chunk h.1 hrest hsplit with hbegins | ⟨w, rfl, hw⟩
    · exact hbegins
    · refine beginsDirective_append (fun hslash => ?_) (hstars w behind hw)
      rw [Option.some.inj (hlast.symm.trans hslash)] at hend
      exact absurd hend (by decide)

theorem wellFormed_tag (h : o.isValid = true) : o.tag.WellFormed := by
  intro before behind hsplit
  rw [← Tag.beginsDirective_iff]
  have hparts : Text.partsAttribute (o.trail ++ ['>']) = true := by
    unfold trail
    split <;> rfl
  obtain ⟨-, hstars⟩ := beginsDirective_chunks (isValid_iff.1 h).2.1 o.not_mem_trail_end hparts
  rw [print_tag] at hsplit
  obtain ⟨w, rfl, hw⟩ := Text.exists_of_append_eq_append_cons hsplit (star_not_mem_lead h)
  refine beginsDirective_append (fun hslash => ?_) (hstars w behind hw)
  exact not_mem_lead h (by decide) (by decide) (List.mem_of_getLast? hslash)

theorem wellFormed_closingTag (h : o.isValid = true) : o.closingTag.WellFormed := by
  intro before behind hsplit
  have hmem : '*' ∈ o.closingTag.print := by simp [hsplit]
  exact absurd hmem (not_mem_closingTag h (by decide) (by simp))

end Opening

/-! ## Templates -/

namespace Template

variable {T : Template}

theorem wellFormed_of_mem_tags (h : T.isValid = true) {tag : Tag} (htag : tag ∈ T.markup.tags) :
    tag.WellFormed := by
  induction T with
  | nil => simp [markup] at htag
  | bit b rest ih => exact ih (valid_bit h).2 (by simpa [markup] using htag)
  | leaf o rest ih =>
    obtain ⟨ho, -, hrest⟩ := valid_leaf h
    rw [markup, Markup.tags_tag, List.mem_cons] at htag
    rcases htag with rfl | htag
    · exact Opening.wellFormed_tag ho
    · exact ih hrest htag
  | element o inside rest ihInside ih =>
    obtain ⟨ho, -, hinside, hrest⟩ := valid_element h
    simp only [markup, Markup.tags_tag, Markup.tags_append, List.mem_cons, List.mem_append] at htag
    rcases htag with rfl | htag | rfl | htag
    · exact Opening.wellFormed_tag ho
    · exact ihInside hinside htag
    · exact Opening.wellFormed_closingTag ho
    · exact ih hrest htag

theorem wellFormed_text (h : T.isValid = true) : Directive.WellFormed T.text := by
  have hmarkup := ofText_text h
  refine .of_not_mem (fun tag htag => ?_) (by rw [hmarkup]; exact not_mem_markup h)
  rw [hmarkup] at htag
  exact wellFormed_of_mem_tags h htag

end Template
end HtmlTemplate
