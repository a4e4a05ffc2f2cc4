import HtmlTemplate.Proofs.Markup.Shape
import HtmlTemplate.Proofs.Markup.Splice
import Mathlib

/-!
# Elements with whole names

The name of an element may hold hyphens, but a scan takes the part before the first hyphen for the name of a tag.
Printed elements are therefore balanced as if they went by these parts, the stems of their names: they pass the
check exactly if no element with content has the stem of a void element, and a closing tag may be exchanged for one
of another name as long as the stems agree (`Elements.check_text_iff`).
-/

namespace HtmlTemplate

/-! ## Names -/

/-- Whether a text is the name of an element: an ASCII letter, then ASCII letters, digits and hyphens. -/
def isElementName (t : Text) : Bool := t.head?.any Char.isAlpha && t.all fun c => c.isAlphanum || c == '-'

/-- The name of an element as it is written. -/
structure ElementName where
  text : Text
  valid : isElementName text = true

namespace ElementName

def stem (n : ElementName) : Text := n.text.takeWhile Char.isAlphanum

def suffix (n : ElementName) : Text := n.text.dropWhile Char.isAlphanum

/-- The opening tag of an element without attributes. -/
def opening (n : ElementName) : Text := '<' :: (n.text ++ ['>'])

def closing (n : ElementName) : Text := '<' :: '/' :: (n.text ++ ['>'])

/-- What a scan finds in the place of one of these tags. -/
def tag (closes : Bool) (n : ElementName) : Tag := ⟨closes, n.stem, n.suffix⟩

theorem stem_append_suffix (n : ElementName) : n.stem ++ n.suffix = n.text := List.takeWhile_append_dropWhile

theorem of_mem_text (n : ElementName) {c : Char} (h : c ∈ n.text) : (c.isAlphanum || c == '-') = true :=
  List.all_eq_true.1 (Bool.and_eq_true_iff.1 n.valid).2 c h

theorem not_mem_text (n : ElementName) {c : Char} (hc : (c.isAlphanum || c == '-') = false) : c ∉ n.text :=
  fun h => by simp [n.of_mem_text h] at hc

theorem exists_text (n : ElementName) : ∃ c t, n.text = c :: t ∧ c.isAlpha = true := by
  have hhead := (Bool.and_eq_true_iff.1 n.valid).1
  cases h : n.text with
  | nil => simp [h] at hhead
  | cons c t => exact ⟨c, t, rfl, by simpa [h] using hhead⟩

theorem isName_stem (n : ElementName) : Tag.isName n.stem = true := by
  obtain ⟨c, t, ht, hc⟩ := n.exists_text
  simp [Tag.isName, stem, ht, hc, Tag.isAlphanum_of_isAlpha hc]

theorem head?_suffix (n : ElementName) : n.suffix = [] ∨ n.suffix.head? = some '-' := by
  cases h : n.suffix with
  | nil => exact .inl rfl
  | cons c t =>
    have hfirst : c.isAlphanum = false := Text.eq_false_of_head?_dropWhile (t := n.text) (by
      rw [show n.text.dropWhile Char.isAlphanum = c :: t from h]; rfl)
    have hmem : c ∈ n.text := by
      rw [← n.stem_append_suffix, h]
      simp
    have := n.of_mem_text hmem
    rw [hfirst, Bool.false_or, beq_iff_eq] at this
    exact .inr (by rw [this]; rfl)

theorem not_isWord_head?_suffix (n : ElementName) : n.suffix.head?.any Text.isWord = false := by
  rcases n.head?_suffix with h | h
  · rw [h]; rfl
  · rw [h]; decide

theorem proper_tag (n : ElementName) (closes : Bool) : (n.tag closes).Proper where
  name := n.isName_stem
  boundary := n.not_isWord_head?_suffix
  bracket := fun h => n.not_mem_text (by decide) (n.stem_append_suffix ▸ List.mem_append_right _ h)

theorem print_tag (n : ElementName) (closes : Bool) :
    (n.tag closes).print = if closes then n.closing else n.opening := by
  cases closes <;> simp [tag, Tag.print, opening, closing, ← n.stem_append_suffix]

theorem exists_print_tag (n : ElementName) (closes : Bool) :
    ∃ tail, (n.tag closes).print = '<' :: tail ∧ '<' ∉ tail := by
  have hopen : '<' ∉ n.text := n.not_mem_text (by decide)
  cases closes with
  | false => exact ⟨n.text ++ ['>'], n.print_tag false, by simp [hopen]⟩
  | true => exact ⟨'/' :: (n.text ++ ['>']), n.print_tag true, by simp [hopen]⟩

theorem stem_of_isVoidName {n : ElementName} (h : Tag.isVoidName n.text = true) : n.stem = n.text := by
  have hvoid : ∀ name ∈ Tag.voidNames, '-' ∉ name := by decide
  have hhyphen : '-' ∉ n.text := by
    intro hmem
    have hlower : '-' ∈ n.text.lower := List.mem_map.2 ⟨'-', hmem, by decide⟩
    exact hvoid _ (List.contains_iff_mem.1 h) hlower
  refine List.takeWhile_eq_self_iff.2 fun c hc => ?_
  have := n.of_mem_text hc
  rcases Bool.or_eq_true_iff.1 this with h | h
  · exact h
  · exact absurd (beq_iff_eq.1 h ▸ hc) hhyphen

end ElementName

/-! ## Elements -/

/-- Elements next to each other: those that are void have no content and no closing tag, all others have both. -/
inductive Elements where
  | nil
  | void (name : ElementName) (h : Tag.isVoidName name.text = true) (rest : Elements)
  | element (name : ElementName) (h : Tag.isVoidName name.text = false) (inside rest : Elements)

namespace Elements

/-- The printed form. -/
def text : Elements → Text
  | nil => []
  | void name _ rest => name.opening ++ rest.text
  | element name _ inside rest => name.opening ++ (inside.text ++ (name.closing ++ rest.text))

/-- The names of the elements that are not void. -/
def names : Elements → List ElementName
  | nil => []
  | void _ _ rest => rest.names
  | element name _ inside rest => name :: (inside.names ++ rest.names)

def forest : Elements → Forest
  | nil => .nil
  | void name _ rest => .single (name.tag false) rest.forest
  | element name _ inside rest => .element (name.tag false) inside.forest (name.tag true) rest.forest

/-- No element with content has the stem of a void element. -/
def NoVoidStem (F : Elements) : Prop := ∀ n ∈ F.names, Tag.isVoidName n.stem = false

theorem exists_name {F : Elements} {tag : Tag} (h : tag ∈ F.forest.tags) :
    ∃ closes n, tag = ElementName.tag closes n := by
  induction F with
  | nil => simp [forest, Forest.tags] at h
  | void name _ rest ih =>
    rcases List.mem_cons.1 h with rfl | h
    · exact ⟨_, _, rfl⟩
    · exact ih h
  | element name _ inside rest ihInside ihRest =>
    simp only [forest, Forest.tags, List.mem_cons, List.mem_append] at h
    rcases h with rfl | h | rfl | h
    · exact ⟨_, _, rfl⟩
    · exact ihInside h
    · exact ⟨_, _, rfl⟩
    · exact ihRest h

theorem text_eq (F : Elements) : F.text = F.forest.tags.flatMap Tag.print := by
  induction F with
  | nil => rfl
  | void name _ rest ih => simp [text, forest, Forest.tags, ih, ElementName.print_tag]
  | element name _ inside rest ihInside ihRest =>
    simp [text, forest, Forest.tags, ihInside, ihRest, ElementName.print_tag]

/-! ## Stems of void elements -/

theorem opensScope_tag (n : ElementName) : (n.tag false).opensScope = !Tag.isVoidName n.stem := by
  have hslash : n.suffix.getLast? ≠ some '/' := fun h =>
    n.not_mem_text (by decide) (n.stem_append_suffix ▸ List.mem_append_right _ (List.mem_of_getLast? h))
  simp [Tag.opensScope, Tag.selfClosing, ElementName.tag, hslash]

theorem matched_of_noVoidStem {F : Elements} (h : F.NoVoidStem) : F.forest.Matched := by
  induction F with
  | nil => trivial
  | void name hvoid rest ih =>
    refine ⟨rfl, ?_, ih h⟩
    rw [opensScope_tag, ElementName.stem_of_isVoidName hvoid, hvoid]
    rfl
  | element name _ inside rest ihInside ihRest =>
    simp only [NoVoidStem, names, List.mem_cons, List.mem_append, forall_eq_or_imp] at h
    refine ⟨?_, rfl, rfl, ihInside fun n hn => h.2 n (.inl hn), ihRest fun n hn => h.2 n (.inr hn)⟩
    rw [opensScope_tag, h.1]
    rfl

open Markup (checkTags check)

theorem countP_closing_of_checkTags {stack : List Text} {ts : List Tag} (h : checkTags stack ts = .ok ()) :
    ts.countP Tag.closing = stack.length + ts.countP Tag.opensScope := by
  induction ts generalizing stack with
  | nil =>
    cases stack with
    | nil => rfl
    | cons n stack => simp [checkTags] at h
  | cons tag ts ih =>
    rcases Markup.checkTags_cons_iff.1 h with ⟨hclosing, below, rfl, hbelow⟩ | ⟨hclosing, hrest⟩
    · have hopens : ¬ tag.opensScope = true := by simp [Tag.opensScope, hclosing]
      rw [List.countP_cons_of_pos hclosing, List.countP_cons_of_neg hopens, ih hbelow, List.length_cons]
      omega
    · rw [List.countP_cons_of_neg (by simp [hclosing]), ih hrest, List.countP_cons]
      split
      · simp only [List.length_cons]
        omega
      · rfl

/-- Every element with content has a closing tag, and those with the stem of a void element open nothing. -/
theorem countP_opensScope_add (F : Elements) :
    F.forest.tags.countP Tag.opensScope + F.names.countP (fun n => Tag.isVoidName n.stem) =
      F.forest.tags.countP Tag.closing := by
  induction F with
  | nil => rfl
  | void name hvoid rest ih =>
    have hopens : (name.tag false).opensScope = false := by
      rw [opensScope_tag, ElementName.stem_of_isVoidName hvoid, hvoid]
      rfl
    have hclosing : (name.tag false).closing = false := rfl
    simpa [forest, Forest.tags, names, List.countP_cons, hopens, hclosing] using ih
  | element name _ inside rest ihInside ihRest =>
    have hopens := opensScope_tag name
    have hclosing : (name.tag false).closing = false ∧ (name.tag true).closing = true ∧
        (name.tag true).opensScope = false := ⟨rfl, rfl, rfl⟩
    simp only [forest, Forest.tags, names, List.countP_cons, List.countP_append, hopens, hclosing, if_true,
      Bool.false_eq_true, if_false]
    cases Tag.isVoidName name.stem <;> simp <;> omega

theorem noVoidStem_of_countP {F : Elements}
    (h : F.forest.tags.countP Tag.closing = F.forest.tags.countP Tag.opensScope) : F.NoVoidStem := by
  have hzero : F.names.countP (fun n => Tag.isVoidName n.stem) = 0 := by
    have := F.countP_opensScope_add
    omega
  intro n hn
  simpa using List.countP_eq_zero.1 hzero n hn

theorem checkTags_iff (F : Elements) : checkTags [] F.forest.tags = .ok () ↔ F.NoVoidStem := by
  constructor
  · intro h
    exact noVoidStem_of_countP (by simpa using countP_closing_of_checkTags h)
  · intro h
    exact Forest.checkTags_eq_ok_iff.2 ⟨F.forest, matched_of_noVoidStem h, rfl⟩

/-! ## Closing tags of other names -/

theorem checkTags_exchange {stack : List Text} {ts us : List Tag} {c c' : Tag} (hc : c.closing = true)
    (hc' : c'.closing = true) (h : checkTags stack (ts ++ c :: us) = .ok ()) :
    checkTags stack (ts ++ c' :: us) = .ok () ↔ c'.name.lower = c.name.lower := by
  induction ts generalizing stack with
  | nil =>
    rw [List.nil_append] at h ⊢
    rw [Markup.checkTags_cons_iff]
    rcases Markup.checkTags_cons_iff.1 h with ⟨-, below, rfl, hbelow⟩ | ⟨hnot, -⟩
    · simp only [hc', List.cons.injEq, true_and, reduceCtorEq, false_and, or_false]
      constructor
      · rintro ⟨_, ⟨hname, -⟩, -⟩
        exact hname.symm
      · intro hname
        exact ⟨below, ⟨hname.symm, rfl⟩, hbelow⟩
    · simp [hc] at hnot
  | cons tag ts ih =>
    rw [List.cons_append] at h ⊢
    rw [Markup.checkTags_cons_iff]
    rcases Markup.checkTags_cons_iff.1 h with ⟨hclosing, below, rfl, hbelow⟩ | ⟨hclosing, hrest⟩
    · simpa [hclosing] using ih hbelow
    · simpa [hclosing] using ih hrest

/-- With the closing tag of an element exchanged, the tags are balanced exactly if they were and the stems agree. -/
theorem checkTags_exchange_iff {F : Elements} {before after : List Tag} {n m : ElementName}
    (htags : F.forest.tags = before ++ n.tag true :: after) :
    checkTags [] (before ++ m.tag true :: after) = .ok () ↔ F.NoVoidStem ∧ m.stem.sameUpToCase n.stem = true := by
  have hname : (m.tag true).name.lower = (n.tag true).name.lower ↔ m.stem.sameUpToCase n.stem = true := by
    simp [ElementName.tag, Text.sameUpToCase]
  have hok : F.NoVoidStem → checkTags [] (before ++ n.tag true :: after) = .ok () := fun hstems => by
    rw [← htags]
    exact F.checkTags_iff.2 hstems
  rw [← hname]
  constructor
  · intro h
    have hstems : F.NoVoidStem := by
      refine noVoidStem_of_countP ?_
      have hcount := countP_closing_of_checkTags h
      rw [htags]
      simpa [List.countP_append, List.countP_cons, ElementName.tag, Tag.opensScope] using hcount
    exact ⟨hstems, (checkTags_exchange rfl rfl (hok hstems)).1 h⟩
  · rintro ⟨hstems, he⟩
    exact (checkTags_exchange rfl rfl (hok hstems)).2 he

theorem exists_tags_of_print {ts : List Tag} (hts : ∀ tag ∈ ts, ∃ closes n, tag = ElementName.tag closes n)
    {u v : Text} {n : ElementName} (h : ts.flatMap Tag.print = u ++ (n.closing ++ v)) :
    ∃ before after, ts = before ++ n.tag true :: after ∧ u = before.flatMap Tag.print ∧
      v = after.flatMap Tag.print := by
  induction ts generalizing u with
  | nil => simp [ElementName.closing] at h
  | cons tag ts ih =>
    rw [List.forall_mem_cons] at hts
    obtain ⟨⟨closes, k, rfl⟩, hts⟩ := hts
    have hclosing : n.closing = (n.tag true).print := by rw [ElementName.print_tag]; rfl
    rw [List.flatMap_cons] at h
    cases u with
    | nil =>
      rw [List.nil_append, hclosing] at h
      have hread := (k.proper_tag closes).read_print (ts.flatMap Tag.print)
      rw [h, (n.proper_tag true).read_print] at hread
      obtain ⟨htag, hrest⟩ := Prod.mk.inj (Option.some.inj hread)
      exact ⟨[], ts, by rw [htag]; rfl, rfl, hrest⟩
    | cons c u =>
      -- the tag has no bracket but its first character, so the closing tag stands behind it
      obtain ⟨tail, hprint, hopen⟩ := k.exists_print_tag closes
      rw [hprint, List.cons_append, List.cons_append] at h
      obtain ⟨rfl, hbehind⟩ := List.cons.inj h
      rw [ElementName.closing, List.cons_append] at hbehind
      obtain ⟨w, rfl, hw⟩ := Text.exists_of_append_eq_append_cons hbehind hopen
      obtain ⟨before, after, rfl, rfl, rfl⟩ := ih hts hw
      exact ⟨k.tag closes :: before, after, rfl, by rw [List.flatMap_cons, hprint]; rfl, rfl⟩

/-! ## The check -/

theorem ofText_flatMap_print {ts : List Tag} (h : ∀ tag ∈ ts, tag.Proper) :
    Markup.ofText (ts.flatMap Tag.print) = ts.map .lexeme := by
  induction ts with
  | nil => exact Markup.ofText_nil
  | cons tag ts ih =>
    rw [List.forall_mem_cons] at h
    rw [List.flatMap_cons, Markup.ofText_of_read (h.1.read_print _), ih h.2, List.map_cons]

theorem delimited_flatMap_print {ts : List Tag} (hne : ts ≠ []) : Markup.delimited (ts.flatMap Tag.print) = true := by
  rw [Markup.delimited_iff]
  constructor
  · obtain ⟨tag, ts, rfl⟩ := List.exists_cons_of_ne_nil hne
    rw [List.flatMap_cons, Tag.print, List.cons_append]
    exact List.find?_cons_of_pos (by decide)
  · obtain ⟨ts, tag, rfl⟩ := (List.eq_nil_or_concat ts).resolve_left hne
    rw [List.concat_eq_append, List.flatMap_append, List.flatMap_singleton, Tag.print_eq, ← List.append_assoc,
      List.reverse_append, List.reverse_singleton, List.singleton_append]
    exact List.find?_cons_of_pos (by decide)

theorem check_flatMap_print {ts : List Tag} (hne : ts ≠ []) (h : ∀ tag ∈ ts, tag.Proper) :
    check (ts.flatMap Tag.print) = .ok () ↔ checkTags [] ts = .ok () := by
  have htags : Markup.tags (ts.map .lexeme) = ts := by
    simp [Markup.tags, List.filterMap_map, Function.comp_def, Piece.lexeme?]
  rw [Markup.check_eq_ok_iff, ofText_flatMap_print h, htags, delimited_flatMap_print hne]
  simp

/-- Printed elements pass the check exactly if none with content has the stem of a void element. If then a closing tag
is exchanged for one of another name, they pass exactly if the stems of the two names are the same up to ASCII case. -/
theorem check_text_iff {F : Elements} (hF : F ≠ nil) :
    (check F.text = .ok () ↔ ∀ n ∈ F.names, Tag.isVoidName n.stem = false) ∧
    ∀ (u v : Text) (n m : ElementName), F.text = u ++ (n.closing ++ v) →
      (check (u ++ (m.closing ++ v)) = .ok () ↔
        (∀ k ∈ F.names, Tag.isVoidName k.stem = false) ∧ m.stem.sameUpToCase n.stem = true) := by
  have hne : F.forest.tags ≠ [] := by
    cases F with
    | nil => exact absurd rfl hF
    | void => simp [forest, Forest.tags]
    | element => simp [forest, Forest.tags]
  have hproper : ∀ tag ∈ F.forest.tags, tag.Proper := fun tag htag => by
    obtain ⟨closes, n, rfl⟩ := exists_name htag
    exact n.proper_tag closes
  refine ⟨?_, fun u v n m htext => ?_⟩
  · rw [text_eq, check_flatMap_print hne hproper]
    exact F.checkTags_iff
  · rw [text_eq] at htext
    obtain ⟨before, after, hsplit, rfl, rfl⟩ := exists_tags_of_print (fun tag htag => exists_name htag) htext
    have hnew : before.flatMap Tag.print ++ (m.closing ++ after.flatMap Tag.print) =
        (before ++ m.tag true :: after).flatMap Tag.print := by
      simp [ElementName.print_tag]
    have hproper' : ∀ tag ∈ before ++ m.tag true :: after, tag.Proper := fun tag htag => by
      rcases List.mem_append.1 htag with hmem | hmem
      · exact hproper tag (by simp [hsplit, hmem])
      · rcases List.mem_cons.1 hmem with rfl | hmem
        · exact m.proper_tag true
        · exact hproper tag (by simp [hsplit, hmem])
    rw [hnew, check_flatMap_print (by simp) hproper']
    exact checkTags_exchange_iff hsplit

/-- Two custom elements, one inside the other, with a void element in the inner one. -/
theorem check_text_iff_custom :
    let outer : ElementName := ⟨"my-list".toList, by decide⟩
    let inner : ElementName := ⟨"My-item".toList, by decide⟩
    let F := element outer (by decide) (element inner (by decide) (void ⟨"Br".toList, by decide⟩ (by decide) nil) nil)
      nil
    F ≠ nil ∧
      (check F.text = .ok () ↔ ∀ n ∈ F.names, Tag.isVoidName n.stem = false) ∧
      ∀ (u v : Text) (n m : ElementName), F.text = u ++ (n.closing ++ v) →
        (check (u ++ (m.closing ++ v)) = .ok () ↔
          (∀ k ∈ F.names, Tag.isVoidName k.stem = false) ∧ m.stem.sameUpToCase n.stem = true) := by
  intro outer inner F
  have hne : F ≠ nil := by simp [F]
  exact ⟨hne, check_text_iff hne⟩

/-- An element with the stem of a void element is refused, and the closing tag of another element with the same stem
is taken for that of an element. -/
theorem check_text_stem :
    let far : ElementName := ⟨"br-x".toList, by decide⟩
    let near : ElementName := ⟨"my-a".toList, by decide⟩
    let other : ElementName := ⟨"my-b".toList, by decide⟩
    let F := element far (by decide) nil nil
    let G := element near (by decide) nil nil
    (F ≠ nil ∧ check F.text = .error (.unexpectedClose "br".toList)) ∧
      (G ≠ nil ∧ G.text = near.opening ++ (near.closing ++ []) ∧ other.text.sameUpToCase near.text = false ∧
        check (near.opening ++ (other.closing ++ [])) = .ok ()) := by
  intro far near other F G
  exact ⟨⟨by simp [F], by decide +kernel⟩, by simp [G], by decide +kernel, by decide +kernel, by decide +kernel⟩

end Elements
end HtmlTemplate
