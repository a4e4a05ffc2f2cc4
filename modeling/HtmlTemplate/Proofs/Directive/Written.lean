import HtmlTemplate.Proofs.Directive.Stripped
import HtmlTemplate.Proofs.Directive.Walk
import HtmlTemplate.Proofs.Markup.Elements
import HtmlTemplate.Proofs.Text.Erase

/-!
# Directives among the attributes of a tag

An author writes a tag as a name and attributes with keys and quoted values. The scan knows neither: a tag ends at
the first `>`, and a directive is looked for in its characters from the left. It finds the first attribute that has
the key of the directive, exactly if no value holds a `>` and no value before that attribute reads, from some place
on, as such a directive (`Directive.locate_written_iff`). Behind a `>` in a value the rest of the tag is text, in
which other tags may be found; what follows the tag does not matter for that (`Directive.le_start_iff`).
-/

namespace HtmlTemplate

/-! ## Attributes as they are written -/

/-- Whether a character may stand in the key of an attribute. -/
def isKeyChar (c : Char) : Bool := !Text.isBlank c && !Text.isQuote c && c != '=' && c != '<' && c != '>'

theorem isKeyChar_iff {c : Char} :
    isKeyChar c = true ↔ Text.isBlank c = false ∧ Text.isQuote c = false ∧ c ≠ '=' ∧ c ≠ '<' ∧ c ≠ '>' := by
  simp [isKeyChar, and_assoc]

/-- An attribute as an author writes it: blanks, a key, and a value in quotes. -/
structure Setting where
  blanks : Text
  key : Text
  quoted : Quoted
  blanks_ne_nil : blanks ≠ []
  isBlank_of_mem : ∀ c ∈ blanks, Text.isBlank c = true
  isKeyChar_of_mem : ∀ c ∈ key, isKeyChar c = true
  isQuote : Text.isQuote quoted.quote = true
  quote_not_mem : quoted.quote ∉ quoted.value

namespace Setting

def text (s : Setting) : Text := s.blanks ++ (s.key ++ '=' :: s.quoted.print)

/-- The attribute that is looked for begins with the last of the blanks. -/
def attr (s : Setting) : Attribute := ⟨s.blanks.getLast s.blanks_ne_nil, ['='], s.quoted⟩

theorem text_eq (s : Setting) : s.text = s.blanks.dropLast ++ s.attr.print s.key := by
  have h := List.dropLast_append_getLast s.blanks_ne_nil
  rw [text]
  nth_rewrite 1 [← h]
  simp [attr, Attribute.print]

theorem valid_attr (s : Setting) : s.attr.Valid where
  blank := s.isBlank_of_mem _ (List.getLast_mem s.blanks_ne_nil)
  equals := ⟨[], [], by simp, by simp, rfl⟩
  quote := s.isQuote
  value := s.quote_not_mem

theorem isBlank_of_mem_space : ∀ c ∈ [' '], Text.isBlank c = true := fun c hc => by
  rw [List.mem_singleton.1 hc]
  decide

theorem singleton_space_ne_nil : [' '] ≠ [] := List.cons_ne_nil _ _

/-- An attribute behind one space, with its value in double quotes. -/
def plain (key value : Text) (hkey : key.all isKeyChar = true) (hvalue : '"' ∉ value) : Setting where
  blanks := [' ']
  key := key
  quoted := ⟨'"', value⟩
  blanks_ne_nil := singleton_space_ne_nil
  isBlank_of_mem := isBlank_of_mem_space
  isKeyChar_of_mem := List.all_eq_true.1 hkey
  isQuote := show Text.isQuote '"' = true by decide
  quote_not_mem := hvalue

/-- The texts of attributes one behind the other. -/
def texts (settings : List Setting) : Text := settings.flatMap text

theorem texts_cons (s : Setting) (settings : List Setting) : texts (s :: settings) = s.text ++ texts settings := rfl

theorem not_mem_blanks (s : Setting) {c : Char} (hc : Text.isBlank c = false) : c ∉ s.blanks := fun hmem => by
  simp [s.isBlank_of_mem c hmem] at hc

theorem not_mem_key (s : Setting) {c : Char} (hc : isKeyChar c = false) : c ∉ s.key := fun hmem => by
  simp [s.isKeyChar_of_mem c hmem] at hc

theorem end_not_mem_text {s : Setting} (h : '>' ∉ s.quoted.value) : '>' ∉ s.text := by
  have hblanks : '>' ∉ s.blanks := s.not_mem_blanks (by decide)
  have hkey : '>' ∉ s.key := s.not_mem_key (by decide)
  have hquote : '>' ≠ s.quoted.quote := fun he => absurd (he ▸ s.isQuote) (by decide)
  simp [text, Quoted.print, hblanks, hkey, hquote, h]

end Setting

/-! ## Where directives are read -/

theorem Attribute.read_eq_none_iff {name t : Text} :
    read name t = none ↔ ∀ a : Attribute, a.Valid → ¬ a.print name <+: t := by
  constructor
  · rintro h a ha ⟨rest, rfl⟩
    simp [ha.read_print] at h
  · intro h
    by_contra hne
    obtain ⟨⟨a, rest⟩, hread⟩ := Option.ne_none_iff_exists'.1 hne
    exact h a (valid_of_read hread) ⟨rest, (eq_append_of_read hread).symm⟩

/-- The attributes that carry a kind of directive. -/
abbrev DirectiveKind.pattern (kind : DirectiveKind) : Pattern Attribute := Attribute.pattern kind.attributeName

namespace Setting

variable {kind : DirectiveKind} {s : Setting} {t : Text}

theorem silent_of_not_isBlank {u : Text} (h : ∀ c ∈ u, Text.isBlank c = false) (t : Text) :
    kind.pattern.Silent u t := (Attribute.pattern_opensWith _).silent h t

theorem silent_of_head?_ne {u : Text} (hstar : '*' ∉ u) (ht : t.head? ≠ some '*') : kind.pattern.Silent u t := by
  obtain ⟨name, hname, -⟩ := Directive.attributeName_eq kind
  rw [DirectiveKind.pattern, hname]
  exact Attribute.silent_of_head?_ne hstar ht

theorem silent_dropLast_blanks (s : Setting) (t : Text) : kind.pattern.Silent s.blanks.dropLast (s.attr.blank :: t) := by
  refine silent_of_head?_ne (fun hmem => s.not_mem_blanks (by decide) (List.mem_of_mem_dropLast hmem)) ?_
  rw [List.head?_cons, ne_eq, Option.some.injEq]
  intro he
  exact absurd (he ▸ s.valid_attr.blank) (by decide)

theorem read_key (h : s.key ≠ kind.attributeName) (c : Char) (t : Text) :
    Attribute.read kind.attributeName (c :: (s.key ++ '=' :: t)) = none := by
  have hsign : '=' ∉ kind.attributeName := by cases kind <;> decide
  rw [Attribute.read]
  split
  · cases hafter : Text.after? kind.attributeName (s.key ++ '=' :: t) with
    | none => rfl
    | some rest =>
      obtain ⟨w, hkey, hrest⟩ := Text.exists_of_append_eq_append_cons (Text.eq_append_of_after? hafter).symm hsign
      cases w with
      | nil => exact absurd (by simpa using hkey) h
      | cons d w =>
        obtain ⟨hblank, -, hne, -⟩ := isKeyChar_iff.1 (s.isKeyChar_of_mem d (by rw [hkey]; simp))
        have hequals : Text.readEquals (d :: (w ++ '=' :: t)) = none := by
          simp only [Text.readEquals, List.dropWhile_cons, hblank, Bool.false_eq_true, if_false]
          split
          · next he => exact absurd (List.cons.inj he).1 hne
          · rfl
        simp [hrest, hequals]
  · rfl

theorem silent_text_iff (h : s.key ≠ kind.attributeName) :
    kind.pattern.Silent s.text t ↔ kind.pattern.Silent s.quoted.value (s.quoted.quote :: t) := by
  have hblank : Text.isBlank s.quoted.quote = false := Text.not_isBlank_of_isQuote s.isQuote
  have hkey : ∀ c ∈ s.key ++ ['=', s.quoted.quote], Text.isBlank c = false := by
    intro c hc
    simp only [List.mem_append, List.mem_cons, List.not_mem_nil, or_false] at hc
    rcases hc with hc | rfl | rfl
    · exact (isKeyChar_iff.1 (s.isKeyChar_of_mem c hc)).1
    · decide
    · exact hblank
  have hblanks : ∀ r, kind.pattern.Silent s.blanks (s.key ++ '=' :: r) := by
    intro r
    rw [← List.dropLast_append_getLast s.blanks_ne_nil, Pattern.silent_append]
    exact ⟨s.silent_dropLast_blanks _, Pattern.silent_cons.2 ⟨read_key h _ r, Pattern.silent_nil _⟩⟩
  have htext : s.text = s.blanks ++ ((s.key ++ ['=', s.quoted.quote]) ++ (s.quoted.value ++ [s.quoted.quote])) := by
    simp [text, Quoted.print]
  rw [htext, Pattern.silent_append (s := s.blanks), Pattern.silent_append (s := s.key ++ _),
    Pattern.silent_append (s := s.quoted.value)]
  have hclose : kind.pattern.Silent [s.quoted.quote] t := silent_of_not_isBlank (by simpa using hblank) t
  constructor
  · exact fun hall => hall.2.2.1
  · intro hvalue
    refine ⟨?_, silent_of_not_isBlank hkey _, hvalue, hclose⟩
    have := hblanks (s.quoted.quote :: (s.quoted.value ++ s.quoted.quote :: t))
    simpa using this

theorem silent_texts_iff {before : List Setting} (h : ∀ s ∈ before, s.key ≠ kind.attributeName) :
    kind.pattern.Silent (texts before) t ↔
      ∀ b s a, before = b ++ s :: a →
        kind.pattern.Silent s.quoted.value (s.quoted.quote :: (texts a ++ t)) := by
  rw [texts, Pattern.silent_flatMap]
  refine forall₃_congr fun b s a => forall_congr' fun hsplit => ?_
  exact silent_text_iff (h s (by simp [hsplit]))

end Setting

/-! ## Tags as they are written -/

/-- An opening tag as an author writes it: a name, attributes, and ` />` or `>`. -/
structure WrittenTag where
  name : ElementName
  settings : List Setting
  slash : Bool

namespace WrittenTag

variable {kind : DirectiveKind} {T : WrittenTag}

/-- What stands between the attributes and the `>`. -/
def trail (T : WrittenTag) : Text := if T.slash then [' ', '/'] else []

def text (T : WrittenTag) : Text :=
  '<' :: (T.name.text ++ (Setting.texts T.settings ++ (T.trail ++ ['>'])))

def tag (T : WrittenTag) : Tag := ⟨false, T.name.stem, T.name.suffix ++ (Setting.texts T.settings ++ T.trail)⟩

/-- What stands before the attribute `s`, which follows the attributes `before`. -/
def front (T : WrittenTag) (before : List Setting) (s : Setting) : Text :=
  '<' :: (T.name.text ++ (Setting.texts before ++ s.blanks.dropLast))

/-- No value ends the tag. -/
def Plain (T : WrittenTag) : Prop := ∀ s ∈ T.settings, '>' ∉ s.quoted.value

/-- A value before the first directive of a kind reads, from some place on, as a directive of this kind. -/
def Feigns (kind : DirectiveKind) (T : WrittenTag) : Prop :=
  ∃ before s after u v, T.settings = before ++ s :: after ∧
    (∀ a ∈ before ++ [s], a.key ≠ kind.attributeName) ∧ s.quoted.value = u ++ v ∧
      ∃ a : Attribute, a.Valid ∧
        a.print kind.attributeName <+: v ++ s.quoted.quote :: (Setting.texts after ++ (T.trail ++ ['>']))

theorem print_tag (T : WrittenTag) : T.tag.print = T.text := by
  rw [tag, text, ← T.name.stem_append_suffix, Tag.print]
  simp

theorem not_isWord_head?_body (T : WrittenTag) : T.tag.body.head?.any Text.isWord = false := by
  have hblank : ∀ {c : Char} {t : Text}, Text.isBlank c = true → (c :: t).head?.any Text.isWord = false := by
    intro c t hc
    simpa using Text.not_isWord_of_isBlank hc
  rw [tag]
  rcases T.name.head?_suffix with h | h
  · rw [h, List.nil_append]
    cases hsettings : T.settings with
    | nil =>
      cases hslash : T.slash with
      | true => simpa [Setting.texts, trail, hslash] using Text.not_isWord_of_isBlank (c := ' ') (by decide)
      | false => simp [Setting.texts, trail, hslash]
    | cons s settings =>
      obtain ⟨c, b, hb⟩ := List.exists_cons_of_ne_nil s.blanks_ne_nil
      have hc := s.isBlank_of_mem c (by rw [hb]; simp)
      simpa [Setting.texts, Setting.text, hb] using Text.not_isWord_of_isBlank hc
  · obtain ⟨t, ht⟩ := List.head?_eq_some_iff.1 h
    rw [ht]
    show (some '-').any Text.isWord = false
    decide

/-- The scan finds the tag if no value ends it before. -/
theorem proper_tag_iff : T.tag.Proper ↔ T.Plain := by
  constructor
  · intro h s hs hmem
    refine h.bracket (List.mem_append_right _ (List.mem_append_left _ (List.mem_flatMap.2 ⟨s, hs, ?_⟩)))
    simp [Setting.text, Quoted.print, hmem]
  · intro h
    refine ⟨T.name.isName_stem, T.not_isWord_head?_body, ?_⟩
    simp only [tag, List.mem_append, not_or]
    refine ⟨fun hmem => T.name.not_mem_text (c := '>') (by decide) ?_, fun hmem => ?_, ?_⟩
    · rw [← T.name.stem_append_suffix]
      exact List.mem_append_right _ hmem
    · obtain ⟨s, hs, hmem⟩ := List.mem_flatMap.1 hmem
      exact Setting.end_not_mem_text (h s hs) hmem
    · unfold trail
      split <;> decide

theorem not_feigns_iff {pre suf : List Setting} (hsettings : T.settings = pre ++ suf)
    (hpre : ∀ s ∈ pre, s.key ≠ kind.attributeName) (hsuf : ∀ s ∈ suf.head?, s.key = kind.attributeName) :
    ¬ T.Feigns kind ↔
      kind.pattern.Silent (Setting.texts pre) (Setting.texts suf ++ (T.trail ++ ['>'])) := by
  rw [Setting.silent_texts_iff hpre]
  constructor
  · intro h b s a hb u v hv _
    refine Attribute.read_eq_none_iff.2 fun x hx hbegins => h ?_
    refine ⟨b, s, a ++ suf, u, v, by rw [hsettings, hb]; simp, fun s' hs' => hpre s' ?_, hv, x, hx, ?_⟩
    · rw [hb]
      simp only [List.mem_append, List.mem_singleton] at hs'
      simp only [List.mem_append, List.mem_cons]
      tauto
    · simpa [Setting.texts] using hbegins
  · rintro h ⟨b, s, a, u, v, hb, hkeys, hv, x, hx, hbegins⟩
    rw [hsettings] at hb
    rcases Text.exists_of_append_eq_cons_append hb with ⟨w, rfl, hw⟩ | ⟨w, rfl, rfl⟩
    · -- the first attribute behind `pre` has the key
      cases w with
      | nil => exact hkeys s (by simp) (hsuf s (by rw [hw]; rfl))
      | cons s' w => exact hkeys s' (by simp) (hsuf s' (by rw [hw]; rfl))
    · have hne : v ≠ [] := by
        rintro rfl
        obtain ⟨rest, hrest⟩ := hbegins
        have hblank : x.blank = s.quoted.quote := by
          rw [Attribute.print, List.cons_append] at hrest
          exact (List.cons.inj hrest).1
        have hquote := Text.not_isBlank_of_isQuote s.isQuote
        simp [← hblank, hx.blank] at hquote
      exact Attribute.read_eq_none_iff.1 (h b s w rfl u v hv hne) x hx (by simpa [Setting.texts] using hbegins)

theorem silent_name (T : WrittenTag) (t : Text) : kind.pattern.Silent ('<' :: T.name.text) t := by
  refine Setting.silent_of_not_isBlank (fun c hc => ?_) t
  rcases List.mem_cons.1 hc with rfl | hc
  · decide
  · rcases Bool.or_eq_true_iff.1 (T.name.of_mem_text hc) with h | h
    · by_contra hblank
      rw [Bool.not_eq_false] at hblank
      have := Text.not_isWord_of_isBlank hblank
      simp [Tag.isWord_of_isAlphanum h] at this
    · rw [beq_iff_eq.1 h]
      decide

theorem silent_trail (T : WrittenTag) : kind.pattern.Silent (T.trail ++ ['>']) [] := by
  have hend : kind.pattern.Silent ['>'] [] :=
    Setting.silent_of_not_isBlank (fun c hc => by rw [List.mem_singleton.1 hc]; decide) []
  have hslash : kind.pattern.Silent ['/'] ['>'] :=
    Setting.silent_of_not_isBlank (fun c hc => by rw [List.mem_singleton.1 hc]; decide) _
  have hspace : kind.pattern.Silent [' '] ['/', '>'] := Setting.silent_of_head?_ne (by decide) (by decide)
  unfold trail
  split
  · exact Pattern.silent_append.2 ⟨Pattern.silent_append (s := [' ']).2 ⟨hspace, hslash⟩, hend⟩
  · exact hend

/-- The directive of a tag is read at the first attribute with its key, unless a value before feigns one. -/
theorem ofTag?_tag_iff {before after : List Setting} {s : Setting} (hsettings : T.settings = before ++ s :: after)
    (hbefore : ∀ a ∈ before, a.key ≠ kind.attributeName) (hs : s.key = kind.attributeName) :
    (∃ d, Directive.ofTag? kind T.tag = some d ∧ d.front = T.front before s ∧ d.value = s.quoted.value) ↔
      ¬ T.Feigns kind := by
  -- what the directive begins, on either side
  have htext : T.tag.print = T.front before s ++
      (s.attr.print kind.attributeName ++ (Setting.texts after ++ (T.trail ++ ['>']))) := by
    rw [print_tag, text, front, hsettings, ← hs]
    simp [Setting.texts, Setting.text_eq]
  have hbehind : Setting.texts (s :: after) ++ (T.trail ++ ['>']) = s.blanks.dropLast ++
      (s.attr.print kind.attributeName ++ (Setting.texts after ++ (T.trail ++ ['>']))) := by
    rw [← hs]
    simp [Setting.texts, Setting.text_eq]
  have hblanks : kind.pattern.Silent s.blanks.dropLast
      (s.attr.print kind.attributeName ++ (Setting.texts after ++ (T.trail ++ ['>']))) :=
    s.silent_dropLast_blanks _
  have hfront : kind.pattern.Silent (T.front before s)
      (s.attr.print kind.attributeName ++ (Setting.texts after ++ (T.trail ++ ['>']))) ↔ ¬ T.Feigns kind := by
    rw [not_feigns_iff hsettings hbefore (by simpa using hs), hbehind,
      show T.front before s = ('<' :: T.name.text) ++ (Setting.texts before ++ s.blanks.dropLast) from rfl,
      Pattern.silent_append (s := '<' :: _), Pattern.silent_append (s := Setting.texts _)]
    exact ⟨fun hall => hall.2.1, fun hvalues => ⟨T.silent_name _, hvalues, hblanks⟩⟩
  rw [← hfront]
  constructor
  · rintro ⟨d, hd, hdfront, -⟩
    rw [Directive.ofTag?, if_neg (by simp [tag]), Option.map_eq_some_iff] at hd
    obtain ⟨⟨front, a, back⟩, hfind, rfl⟩ := hd
    obtain ⟨hprint, -, hsilent⟩ := Pattern.find?_eq_some_iff.1 hfind
    rw [show front = T.front before s from hdfront] at hprint hsilent
    rwa [← List.append_cancel_left (htext.symm.trans hprint)] at hsilent
  · intro hsilent
    have hfind := Pattern.find?_eq_some_iff.2 ⟨htext, s.valid_attr.read_print kind.attributeName _, hsilent⟩
    refine ⟨⟨T.tag, T.front before s, s.attr, Setting.texts after ++ (T.trail ++ ['>'])⟩, ?_, rfl, rfl⟩
    rw [Directive.ofTag?, if_neg (by simp [tag]), hfind]
    rfl

theorem ofTag?_tag_eq_none_iff (h : ∀ s ∈ T.settings, s.key ≠ kind.attributeName) :
    Directive.ofTag? kind T.tag = none ↔ ¬ T.Feigns kind := by
  have hsilent : kind.pattern.Silent T.text [] ↔
      kind.pattern.Silent (Setting.texts T.settings) (T.trail ++ ['>']) := by
    have htext : T.text = ('<' :: T.name.text) ++ (Setting.texts T.settings ++ (T.trail ++ ['>'])) := rfl
    rw [htext, Pattern.silent_append (s := '<' :: _), Pattern.silent_append (s := Setting.texts _)]
    simp only [List.append_nil]
    exact ⟨fun hall => hall.2.1, fun hvalues => ⟨T.silent_name _, hvalues, T.silent_trail⟩⟩
  rw [not_feigns_iff (List.append_nil _).symm h (by simp), Directive.ofTag?, if_neg (by simp [tag]),
    Option.map_eq_none_iff, Pattern.find?_eq_none_iff, print_tag]
  exact hsilent

end WrittenTag

namespace Directive

open WrittenTag

variable {kind : DirectiveKind} {T : WrittenTag}

theorem ofText_text (h : T.Plain) (rest : Text) :
    Markup.ofText (T.text ++ rest) = .lexeme T.tag :: Markup.ofText rest := by
  rw [← T.print_tag]
  exact Markup.ofText_of_read ((proper_tag_iff.2 h).read_print rest)

theorem locate_zero_eq (kind : DirectiveKind) (t : Text) :
    (locate kind t 0).map (fun l => (l.directive, l.token)) =
      (find? kind (Markup.ofText t)).map fun (front, d, _) =>
        (d, ⟨d.tag, Text.byteLength front.text, Text.byteLength front.text + Text.byteLength d.tag.print⟩) := by
  have hzero : t.charsInBytes 0 = 0 := by cases t <;> rfl
  rw [locate, hzero, List.drop_zero, Option.map_map]
  congr 1
  funext found
  simp

theorem exists_of_locate_zero {t : Text} {l : Located} (h : locate kind t 0 = some l) :
    ∃ front rest, find? kind (Markup.ofText t) = some (front, l.directive, rest) ∧
      l.token.start = Text.byteLength front.text := by
  have heq := locate_zero_eq kind t
  rw [h, Option.map_some, eq_comm, Option.map_eq_some_iff] at heq
  obtain ⟨⟨front, d, rest⟩, hfind, he⟩ := heq
  obtain ⟨rfl, htoken⟩ := Prod.mk.inj he
  exact ⟨front, rest, hfind, by rw [← htoken]⟩

theorem exists_locate_zero {t : Text} {front rest : Markup} {d : Directive}
    (h : find? kind (Markup.ofText t) = some (front, d, rest)) :
    ∃ l, locate kind t 0 = some l ∧ l.directive = d ∧
      l.token = ⟨d.tag, Text.byteLength front.text, Text.byteLength front.text + Text.byteLength d.tag.print⟩ := by
  have heq := locate_zero_eq kind t
  rw [h, Option.map_some, Option.map_eq_some_iff] at heq
  obtain ⟨l, hl, he⟩ := heq
  exact ⟨l, hl, Prod.mk.inj he⟩

theorem exists_start_lt {t : Text} {front behind : Markup} {d : Directive} (ht : t.getLast? = some '>')
    (h : find? kind (Markup.ofText t) = some (front, d, behind)) (rest : Text) :
    ∃ l, locate kind (t ++ rest) 0 = some l ∧ l.token.start < Text.byteLength t := by
  have hfind : find? kind (Markup.ofText (t ++ rest)) = some (front, d, behind ++ Markup.ofText rest) := by
    rw [Markup.ofText_append_of_getLast? ht]
    exact Markup.cutAtTag_append_right h _
  obtain ⟨l, hl, -, htoken⟩ := exists_locate_zero hfind
  obtain ⟨tag, -, hmarkup⟩ := Markup.eq_append_of_cutAtTag h
  have hlength : Text.byteLength t =
      Text.byteLength front.text + (Text.byteLength tag.print + Text.byteLength behind.text) := by
    conv => lhs; rw [← Markup.text_ofText t, hmarkup]
    rw [Markup.text_append, Markup.text_tag, Text.byteLength_append, Text.byteLength_append]
  have hpos : Text.byteLength tag.print ≠ 0 := fun h0 => by simp [Text.byteLength_eq_zero_iff, Tag.print] at h0
  refine ⟨l, hl, ?_⟩
  rw [htoken, hlength]
  dsimp only
  omega

/-- Nothing is found within a text that ends in `>` exactly if none of its tags carries a directive. -/
theorem le_start_iff {t : Text} (ht : t.getLast? = some '>') (rest : Text) :
    (∀ l, locate kind (t ++ rest) 0 = some l → Text.byteLength t ≤ l.token.start) ↔
      ∀ tag ∈ (Markup.ofText t).tags, ofTag? kind tag = none := by
  cases hcut : Markup.cutAtTag (ofTag? kind) (Markup.ofText t) with
  | none =>
    have hnone := Markup.eq_none_of_cutAtTag_eq_none hcut
    refine iff_of_true (fun l hl => ?_) hnone
    obtain ⟨front, behind, hfind, hstart⟩ := exists_of_locate_zero hl
    rw [find?, Markup.ofText_append_of_getLast? ht, Markup.cutAtTag_append hnone, Option.map_eq_some_iff] at hfind
    obtain ⟨⟨front', d, behind'⟩, -, he⟩ := hfind
    rw [hstart, ← (Prod.mk.inj he).1, Markup.text_append, Markup.text_ofText, Text.byteLength_append]
    omega
  | some found =>
    obtain ⟨front, d, behind⟩ := found
    obtain ⟨l, hl, hlt⟩ := exists_start_lt ht hcut rest
    obtain ⟨tag, htag, hmarkup⟩ := Markup.eq_append_of_cutAtTag hcut
    refine iff_of_false (fun hall => absurd (hall l hl) (by omega)) fun hnone => ?_
    have := hnone tag (by rw [hmarkup]; simp)
    simp [htag] at this

/-- An opening tag is found to carry the first directive of a kind that an author wrote in it, with its value, exactly
if no value in the tag holds a `>` and no value before the directive feigns another. If the author wrote none, and no
value holds a `>`, then none is found in the tag exactly if no value feigns one. In any tag, none is found exactly if
none of the tags that a scan makes of it carries one. -/
theorem locate_written_iff (T : WrittenTag) (kind : DirectiveKind) (rest : Text) :
    (∀ before s after, T.settings = before ++ s :: after → (∀ a ∈ before, a.key ≠ kind.attributeName) →
      s.key = kind.attributeName →
        ((∃ l, locate kind (T.text ++ rest) 0 = some l ∧ l.token = ⟨T.tag, 0, Text.byteLength T.text⟩ ∧
            l.directive.front = T.front before s ∧ l.directive.value = s.quoted.value) ↔
          T.Plain ∧ ¬ T.Feigns kind)) ∧
    ((∀ s ∈ T.settings, s.key ≠ kind.attributeName) → T.Plain →
      ((∀ l, locate kind (T.text ++ rest) 0 = some l → Text.byteLength T.text ≤ l.token.start) ↔
        ¬ T.Feigns kind)) ∧
    ((∀ l, locate kind (T.text ++ rest) 0 = some l → Text.byteLength T.text ≤ l.token.start) ↔
      ∀ tag ∈ (Markup.ofText T.text).tags, ofTag? kind tag = none) := by
  have hlast : T.text.getLast? = some '>' := by
    rw [← T.print_tag, Tag.getLast?_print]
  refine ⟨fun before s after hsettings hbefore hs => ?_, fun hkeys hplain => ?_, le_start_iff hlast rest⟩
  · rw [← ofTag?_tag_iff hsettings hbefore hs]
    constructor
    · rintro ⟨l, hl, htoken, hfront, hvalue⟩
      obtain ⟨hproper, hd⟩ := of_locate hl
      rw [htoken] at hproper hd
      exact ⟨proper_tag_iff.1 hproper, l.directive, hd, hfront, hvalue⟩
    · rintro ⟨hplain, d, hd, hfront, hvalue⟩
      have hfind : find? kind (Markup.ofText (T.text ++ rest)) = some ([], d, Markup.ofText rest) := by
        rw [ofText_text hplain, find?, Markup.cutAtTag, hd]
      obtain ⟨l, hl, rfl, htoken⟩ := exists_locate_zero hfind
      refine ⟨l, hl, ?_, hfront, hvalue⟩
      rw [htoken, (print_tag_of_ofTag? hd).1, T.print_tag, Markup.text_nil, Text.byteLength_nil, Nat.zero_add]
  · have hscan := ofText_text hplain []
    rw [List.append_nil, Markup.ofText_nil] at hscan
    rw [le_start_iff hlast, ← ofTag?_tag_eq_none_iff hkeys, hscan]
    simp

/-- The value of a title is taken for a loop, and the guard behind it is found for what it is. -/
theorem locate_written_guard :
    let title := Setting.plain "title".toList " *for='x of xs'".toList (by decide) (by decide)
    let guard := Setting.plain "*if".toList "no".toList (by decide) (by decide)
    let T : WrittenTag := ⟨⟨['p'], by decide⟩, [title, guard], true⟩
    let t := T.text ++ "<b *for=\"y of ys\"></b>".toList
    T.text = "<p title=\" *for='x of xs'\" *if=\"no\" />".toList ∧
      (T.Plain ∧ ¬ T.Feigns .guard ∧ ∃ l, locate .guard t 0 = some l ∧ l.directive.value = "no".toList) ∧
        T.Feigns .loop ∧ ∃ l, locate .loop t 0 = some l ∧ l.directive.value = "x of xs".toList := by
  intro title guard T t
  obtain ⟨l, hl, hfound⟩ := Option.map_eq_some_iff.1
    (show (locate .guard t 0).map (fun l => (l.token, l.directive.front, l.directive.value)) =
      some (⟨T.tag, 0, Text.byteLength T.text⟩, T.front [title] guard, "no".toList) by decide +kernel)
  obtain ⟨l', hl', hfound'⟩ := Option.map_eq_some_iff.1
    (show (locate .loop t 0).map (fun l => (l.token.start, l.directive.value)) = some (0, "x of xs".toList)
      by decide +kernel)
  simp only [Prod.mk.injEq] at hfound hfound'
  obtain ⟨hguard, -, -⟩ := locate_written_iff T .guard "<b *for=\"y of ys\"></b>".toList
  obtain ⟨hplain, hnot⟩ := (hguard [title] guard [] rfl (by decide) rfl).1 ⟨l, hl, hfound⟩
  obtain ⟨-, hloop, -⟩ := locate_written_iff T .loop "<b *for=\"y of ys\"></b>".toList
  have hfeigns : T.Feigns .loop := by
    by_contra h
    have hle := (hloop (by decide) hplain).2 h l' hl'
    rw [hfound'.1] at hle
    exact absurd hle (by decide)
  exact ⟨by decide +kernel, ⟨hplain, hnot, l, hl, hfound.2.2⟩, hfeigns, l', hl', hfound'.2⟩

/-- A value with a `>` hides the guard behind it, and a value that reads as a guard is taken for one. -/
theorem locate_misread :
    let guard := Setting.plain "*if".toList "no".toList (by decide) (by decide)
    let sign := Setting.plain "title".toList "a > b".toList (by decide) (by decide)
    let guess := Setting.plain "title".toList " *if='no'".toList (by decide) (by decide)
    let T : WrittenTag := ⟨⟨['p'], by decide⟩, [sign, guard], false⟩
    let U : WrittenTag := ⟨⟨['p'], by decide⟩, [guess], false⟩
    (T.text = "<p title=\"a > b\" *if=\"no\">".toList ∧ locate .guard (T.text ++ "secret</p>".toList) 0 = none) ∧
      U.text = "<p title=\" *if='no'\">".toList ∧
        (∀ s ∈ U.settings, s.key ≠ DirectiveKind.guard.attributeName) ∧
        ∃ l, locate .guard (U.text ++ "shown</p>".toList) 0 = some l ∧ l.token.start = 0 ∧
          l.directive.value = "no".toList := by
  intro guard sign guess T U
  refine ⟨⟨by decide +kernel, Option.isNone_iff_eq_none.1 (by decide +kernel)⟩, by decide +kernel,
    List.forall_mem_singleton.2 (by decide +kernel), ?_⟩
  obtain ⟨l, hl, he⟩ := Option.map_eq_some_iff.1
    (show (locate .guard (U.text ++ "shown</p>".toList) 0).map (fun l => (l.token.start, l.directive.value)) =
      some (0, "no".toList) by decide +kernel)
  exact ⟨l, hl, Prod.mk.inj he⟩

end Directive
end HtmlTemplate
