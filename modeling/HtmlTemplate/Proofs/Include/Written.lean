import HtmlTemplate.Proofs.Directive.Written
import HtmlTemplate.Proofs.Include.Naming

/-!
# Include markers as they are written

An author writes a marker as attributes with keys and quoted values, one of which has the key `src`. The scan looks for
`src` without regard to keys and quotes, so it finds that attribute, exactly if no attribute before it feigns one: by a
key that ends in `src` behind a hyphen, or by a value that reads, from some place on, as the naming of a source
(`WrittenInclude.read_text_iff`). Where none does, resolving loads the sources in order and exchanges each marker for
what it names (`IncludeMarker.resolve_written`).
-/

namespace HtmlTemplate

open IncludeMarker (Naming Ends attributeName)

/-! ## Attributes before the source -/

namespace Setting

variable {s : Setting} {t : Text}

/-- The key of an attribute ends in `src` behind a character that is no word character. -/
def HidesSource (s : Setting) : Prop := ∃ u c, s.key = u ++ c :: attributeName ∧ Text.isWord c = false

/-- An attribute that `t` follows reads, from some place on, as the naming of a source, although it names none: in its
key, or from its first quote on. -/
def FeignsSource (s : Setting) (t : Text) : Prop :=
  s.HidesSource ∨ ∃ u v, s.quoted.quote :: s.quoted.value = u ++ v ∧ v ≠ [] ∧
    ∃ n : Naming, n.Valid ∧ n.print <+: v ++ s.quoted.quote :: t

/-- What may follow an attribute in a marker: it comes to an end of the marker and does not begin like `src`. -/
structure Concludes (t : Text) : Prop where
  head : t.head? ≠ some 's'
  ends : ∃ closing rest, Ends closing ∧ t = closing ++ rest

theorem head?_text_append (s : Setting) (t : Text) : ∃ c, (s.text ++ t).head? = some c ∧ Text.isBlank c = true := by
  obtain ⟨c, b, hb⟩ := List.exists_cons_of_ne_nil s.blanks_ne_nil
  exact ⟨c, by simp [text, hb], s.isBlank_of_mem c (by simp [hb])⟩

theorem getLast?_text (s : Setting) : s.text.getLast? = some s.quoted.quote := by
  have h : s.text = (s.blanks ++ (s.key ++ '=' :: s.quoted.quote :: s.quoted.value)) ++ [s.quoted.quote] := by
    simp [text, Quoted.print]
  rw [h, List.getLast?_concat]

theorem Concludes.append (h : Concludes t) (hs : '>' ∉ s.quoted.value) : Concludes (s.text ++ t) := by
  obtain ⟨closing, rest, hends, rfl⟩ := h.ends
  refine ⟨?_, s.text ++ closing, rest, hends.append (end_not_mem_text hs) ?_, (List.append_assoc ..).symm⟩
  · obtain ⟨c, hc, hblank⟩ := s.head?_text_append (closing ++ rest)
    rw [hc, ne_eq, Option.some.injEq]
    rintro rfl
    exact absurd hblank (by decide)
  · rw [getLast?_text, ne_eq, Option.some.injEq]
    intro hslash
    exact absurd (hslash ▸ s.isQuote) (by decide)

theorem Concludes.texts_append {settings : List Setting} (h : Concludes t)
    (hs : ∀ s ∈ settings, '>' ∉ s.quoted.value) : Concludes (texts settings ++ t) := by
  induction settings with
  | nil => exact h
  | cons s settings ih =>
    rw [List.forall_mem_cons] at hs
    rw [texts_cons, List.append_assoc]
    exact (ih hs.2).append hs.1

theorem readSource_key {k : Text} (hk : ∀ c ∈ k, isKeyChar c = true) (hne : k ≠ attributeName) (t : Text) :
    IncludeMarker.readSource (k ++ '=' :: t) = none := by
  cases hafter : Text.after? attributeName (k ++ '=' :: t) with
  | none => simp [IncludeMarker.readSource, hafter]
  | some rest =>
    obtain ⟨w, hkey, hrest⟩ :=
      Text.exists_of_append_eq_append_cons (Text.eq_append_of_after? hafter).symm (c := '=') (by decide)
    cases w with
    | nil => exact absurd (by simpa using hkey) hne
    | cons c w =>
      obtain ⟨hblank, -, hsign, -⟩ := isKeyChar_iff.1 (hk c (by simp [hkey]))
      have hequals : Text.readEquals (c :: (w ++ '=' :: t)) = none := by
        simp only [Text.readEquals, List.dropWhile_cons, hblank, Bool.false_eq_true, if_false]
        split
        · next he => exact absurd (List.cons.inj he).1 hsign
        · rfl
      simp [IncludeMarker.readSource, hafter, hrest, hequals]

theorem read_naming_key {k : Text} (hk : ∀ c ∈ k, isKeyChar c = true) (hne : k ≠ attributeName) (c : Char) (t : Text) :
    Naming.pattern.read (c :: (k ++ '=' :: t)) = none := by
  rw [Naming.pattern_read, Naming.read, readSource_key hk hne, ite_self, Option.map_none]

theorem silent_key_iff (ht : Concludes t) :
    Naming.pattern.Silent s.key ('=' :: (s.quoted.print ++ t)) ↔ ¬ s.HidesSource := by
  constructor
  · rintro h ⟨u, c, hkey, hc⟩
    obtain ⟨closing, rest, hends, rfl⟩ := ht.ends
    have hvalid : Naming.Valid ⟨c, ['='], s.quoted, closing⟩ :=
      ⟨hc, ⟨[], [], by simp, by simp, rfl⟩, s.isQuote, s.quote_not_mem, hends⟩
    have hread := hvalid.read_print rest
    have hnone := h u (c :: attributeName) hkey (List.cons_ne_nil _ _)
    rw [Naming.pattern_read] at hnone
    simp only [Naming.print, List.cons_append, List.append_assoc, List.nil_append] at hread hnone
    rw [hread] at hnone
    exact Option.some_ne_none _ hnone
  · intro h u v hkey hv
    obtain ⟨c, v, rfl⟩ := List.exists_cons_of_ne_nil hv
    by_cases hc : Text.isWord c = true
    · exact Naming.read_cons_of_isWord hc _
    · have hrest : v ≠ attributeName := fun he => h ⟨u, c, by rw [hkey, he], by simpa using hc⟩
      exact read_naming_key (fun d hd => s.isKeyChar_of_mem d (by simp [hkey, hd])) hrest c _

theorem not_feignsSource_iff :
    ¬ s.FeignsSource t ↔ ¬ s.HidesSource ∧
      Naming.pattern.Silent (s.quoted.quote :: s.quoted.value) (s.quoted.quote :: t) := by
  rw [FeignsSource, not_or]
  refine and_congr_right fun _ => ⟨fun h u v hv hne => ?_, ?_⟩
  · exact Naming.read_eq_none_iff.2 fun n hn hbegins => h ⟨u, v, hv, hne, n, hn, hbegins⟩
  · rintro h ⟨u, v, hv, hne, n, hn, hbegins⟩
    exact Naming.read_eq_none_iff.1 (h u v hv hne) n hn hbegins

theorem silent_naming_text_iff (hne : s.key ≠ attributeName) (ht : Concludes t) :
    Naming.pattern.Silent s.text t ↔ ¬ s.FeignsSource t := by
  have hquote : s.quoted.quote ≠ 's' := fun he => absurd (he ▸ s.isQuote) (by decide)
  have hletter : ∀ c ∈ s.blanks, c ≠ 's' := fun c hc he => absurd (he ▸ s.isBlank_of_mem c hc) (by decide)
  have hblanks : ∀ r, Naming.pattern.Silent s.blanks (s.key ++ '=' :: r) := by
    intro r
    rw [← List.dropLast_append_getLast s.blanks_ne_nil, Pattern.silent_append]
    refine ⟨Naming.silent_of_head?_ne (fun hmem => hletter _ (List.mem_of_mem_dropLast hmem) rfl) ?_,
      Pattern.silent_cons.2 ⟨read_naming_key s.isKeyChar_of_mem hne _ r, Pattern.silent_nil _⟩⟩
    simpa using hletter _ (List.getLast_mem s.blanks_ne_nil)
  have htext : s.text = s.blanks ++ (s.key ++ (['='] ++ ((s.quoted.quote :: s.quoted.value) ++ [s.quoted.quote]))) := by
    simp [text, Quoted.print]
  have hsign : ∀ r, Naming.pattern.Silent ['='] (s.quoted.quote :: r) := fun r =>
    Naming.silent_of_head?_ne (by decide) (by simpa using hquote)
  have hclose : Naming.pattern.Silent [s.quoted.quote] t :=
    Naming.silent_of_head?_ne (by simpa using hquote.symm) ht.head
  rw [not_feignsSource_iff, htext, Pattern.silent_append, Pattern.silent_append (s := s.key),
    Pattern.silent_append (s := ['=']), Pattern.silent_append (s := s.quoted.quote :: _), ← silent_key_iff ht]
  constructor
  · rintro ⟨-, hkey, -, hvalue, -⟩
    exact ⟨by simpa [Quoted.print] using hkey, by simpa using hvalue⟩
  · rintro ⟨hkey, hvalue⟩
    refine ⟨by simpa using hblanks _, by simpa [Quoted.print] using hkey, ?_, by simpa using hvalue, hclose⟩
    simpa using hsign _

theorem silent_naming_texts_iff {before : List Setting} (hkeys : ∀ s ∈ before, s.key ≠ attributeName)
    (hvalues : ∀ s ∈ before, '>' ∉ s.quoted.value) (ht : Concludes t) :
    Naming.pattern.Silent (texts before) t ↔
      ∀ b s a, before = b ++ s :: a → ¬ s.FeignsSource (texts a ++ t) := by
  rw [texts, Pattern.silent_flatMap]
  refine forall₃_congr fun b s a => forall_congr' fun hsplit => ?_
  refine silent_naming_text_iff (hkeys s (by simp [hsplit])) (ht.texts_append fun s' hs' => ?_)
  exact hvalues s' (by simp [hsplit, hs'])

theorem not_feignsSource (hkey : ¬ s.HidesSource) (hsign : '=' ∉ s.quoted.value) (t : Text) : ¬ s.FeignsSource t := by
  rintro (h | ⟨u, v, hv, hne, n, hn, rest, hrest⟩)
  · exact hkey h
  obtain ⟨c, v, rfl⟩ := List.exists_cons_of_ne_nil hne
  obtain ⟨b, b', hb, -, hequals⟩ := hn.equals
  have hsign' : '=' ∉ v := by
    intro hmem
    cases u with
    | nil => exact hsign (by rw [(List.cons.inj hv).2]; exact hmem)
    | cons d u => exact hsign (by rw [(List.cons.inj hv).2]; simp [hmem])
  -- the sign of the naming stands behind the quote that ends the value, so that the quote stands before it
  have hrest' : v ++ s.quoted.quote :: t =
      (attributeName ++ b) ++ '=' :: (b' ++ (n.quoted.print ++ (n.closing ++ rest))) := by
    rw [Naming.print, hequals] at hrest
    simpa using (List.cons.inj hrest).2.symm
  obtain ⟨w, hw, hquote⟩ := Text.exists_of_append_eq_append_cons hrest' hsign'
  cases w with
  | nil => exact absurd ((List.cons.inj hquote).1 ▸ s.isQuote) (by decide)
  | cons d w =>
    obtain ⟨rfl, -⟩ := List.cons.inj hquote
    have hmem : s.quoted.quote ∈ attributeName ++ b := by rw [hw]; simp
    rcases List.mem_append.1 hmem with hletter | hblank
    · have hall : attributeName.all (fun d => !Text.isQuote d) = true := by decide
      exact absurd s.isQuote (by simpa using List.all_eq_true.1 hall _ hletter)
    · exact absurd (hb _ hblank) (by simp [Text.not_isBlank_of_isQuote s.isQuote])

theorem end_not_mem_texts {settings : List Setting} (h : ∀ s ∈ settings, '>' ∉ s.quoted.value) :
    '>' ∉ texts settings := by
  intro hmem
  obtain ⟨s, hs, hmem⟩ := List.mem_flatMap.1 hmem
  exact end_not_mem_text (h s hs) hmem

theorem getLast?_texts_ne (settings : List Setting) : (texts settings).getLast? ≠ some '/' := by
  induction settings using List.reverseRecOn with
  | nil => simp [texts]
  | append_singleton settings s _ =>
    have h : texts (settings ++ [s]) = texts settings ++ s.text := by simp [texts]
    rw [h, List.getLast?_append, getLast?_text, Option.some_or, ne_eq, Option.some.injEq]
    intro hslash
    exact absurd (hslash ▸ s.isQuote) (by decide)

end Setting

/-! ## Markers as they are written -/

/-- An include marker as an author writes it: attributes, the first of which with the key `src` is `source`, and `/>`
or `></include>`. -/
structure WrittenInclude where
  before : List Setting
  source : Setting
  after : List Setting
  blanks : Text
  selfClosing : Bool
  key_eq : source.key = attributeName
  key_ne : ∀ s ∈ before, s.key ≠ attributeName
  end_not_mem : ∀ s ∈ before ++ source :: after, '>' ∉ s.quoted.value
  isBlank_of_mem : ∀ c ∈ blanks, Text.isBlank c = true

namespace WrittenInclude

variable {w : WrittenInclude} {rest : Text}

def trail (w : WrittenInclude) : Text :=
  w.blanks ++ if w.selfClosing then ['/', '>'] else '>' :: (IncludeMarker.closingTag ++ ['>'])

def closing (w : WrittenInclude) : Text := Setting.texts w.after ++ w.trail

def text (w : WrittenInclude) : Text :=
  IncludeMarker.opening ++ (Setting.texts w.before ++ (w.source.text ++ w.closing))

def name (w : WrittenInclude) : Text := w.source.quoted.value.trim

def marker (w : WrittenInclude) : IncludeMarker :=
  ⟨Setting.texts w.before ++ w.source.blanks, ['='], w.source.quoted, w.closing⟩

/-- What stands before the naming of the source, with the last letter of the element name. -/
def front (w : WrittenInclude) : Text := 'e' :: (Setting.texts w.before ++ w.source.blanks.dropLast)

def naming (w : WrittenInclude) : Naming :=
  ⟨w.source.blanks.getLast w.source.blanks_ne_nil, ['='], w.source.quoted, w.closing⟩

/-- An attribute before the source feigns one, where `rest` follows the marker. -/
def Feigns (w : WrittenInclude) (rest : Text) : Prop :=
  ∃ before s after, w.before = before ++ s :: after ∧
    s.FeignsSource (Setting.texts after ++ (w.source.text ++ (w.closing ++ rest)))

theorem print_marker (w : WrittenInclude) : w.marker.print = w.text := by
  simp [marker, IncludeMarker.print, text, Setting.text, w.key_eq]

theorem ends_trail (w : WrittenInclude) : Ends w.trail := by
  have hend : '>' ∉ w.blanks := fun hmem => absurd (w.isBlank_of_mem _ hmem) (by decide)
  unfold trail
  cases w.selfClosing with
  | true => exact ⟨w.blanks ++ ['/'], by simp [hend], .inl ⟨by simp, by simp⟩⟩
  | false =>
    refine ⟨w.blanks, hend, .inr ⟨fun hlast => ?_, [], [], by simp, by simp, by simp⟩⟩
    exact absurd (w.isBlank_of_mem _ (List.mem_of_getLast? hlast)) (by decide)

theorem concludes_trail (w : WrittenInclude) (rest : Text) : Setting.Concludes (w.trail ++ rest) := by
  refine ⟨?_, w.trail, rest, w.ends_trail, rfl⟩
  unfold trail
  cases hblanks : w.blanks with
  | nil => cases w.selfClosing <;> simp
  | cons c blanks =>
    rw [List.cons_append, List.cons_append, List.head?_cons, ne_eq, Option.some.injEq]
    rintro rfl
    exact absurd (w.isBlank_of_mem 's' (by simp [hblanks])) (by decide)

theorem head?_settings (w : WrittenInclude) (rest : Text) :
    (Setting.texts w.before ++ (w.source.text ++ (w.closing ++ rest))).head?.any Text.isWord = false := by
  obtain ⟨c, hc, hblank⟩ : ∃ c, (Setting.texts w.before ++ (w.source.text ++ (w.closing ++ rest))).head? = some c ∧
      Text.isBlank c = true := by
    cases w.before with
    | nil => exact Setting.head?_text_append _ _
    | cons s before =>
      rw [Setting.texts_cons, List.append_assoc]
      exact Setting.head?_text_append _ _
  simpa [hc] using Text.not_isWord_of_isBlank hblank

theorem end_not_mem_gap (w : WrittenInclude) : '>' ∉ w.marker.gap := by
  intro hmem
  rcases List.mem_append.1 hmem with hmem | hmem
  · exact Setting.end_not_mem_texts (fun s hs => w.end_not_mem s (by simp [hs])) hmem
  · exact w.source.not_mem_blanks (by decide) hmem

theorem end_not_mem_after (w : WrittenInclude) : ∀ s ∈ w.after, '>' ∉ s.quoted.value :=
  fun s hs => w.end_not_mem s (by simp [hs])

theorem ends_closing (w : WrittenInclude) : Ends w.closing :=
  w.ends_trail.append (Setting.end_not_mem_texts w.end_not_mem_after) (Setting.getLast?_texts_ne _)

theorem concludes (w : WrittenInclude) (rest : Text) : Setting.Concludes (w.source.text ++ (w.closing ++ rest)) := by
  rw [closing, List.append_assoc]
  exact ((w.concludes_trail rest).texts_append w.end_not_mem_after).append (w.end_not_mem _ (by simp))

theorem valid_naming (w : WrittenInclude) : w.naming.Valid where
  boundary := Text.not_isWord_of_isBlank (w.source.isBlank_of_mem _ (List.getLast_mem _))
  equals := ⟨[], [], by simp, by simp, rfl⟩
  quote := w.source.isQuote
  value := w.source.quote_not_mem
  closing := w.ends_closing

theorem text_source (w : WrittenInclude) (t : Text) :
    w.source.text ++ (w.closing ++ t) = w.source.blanks.dropLast ++ (w.naming.print ++ t) := by
  have h := List.dropLast_append_getLast w.source.blanks_ne_nil
  rw [Setting.text]
  nth_rewrite 1 [← h]
  simp [naming, Naming.print, w.key_eq]

/-- No source is named before the naming exactly if no attribute feigns one. -/
theorem silent_front_iff : Naming.pattern.Silent w.front (w.naming.print ++ rest) ↔ ¬ w.Feigns rest := by
  have hletter : 's' ∉ w.source.blanks := w.source.not_mem_blanks (by decide)
  have hblanks : Naming.pattern.Silent w.source.blanks.dropLast (w.naming.print ++ rest) := by
    refine Naming.silent_of_head?_ne (fun hmem => hletter (List.mem_of_mem_dropLast hmem)) ?_
    rw [Naming.print, List.cons_append, List.head?_cons, ne_eq, Option.some.injEq]
    exact fun he => hletter (he ▸ List.getLast_mem _)
  have hopening : ∀ t, Naming.pattern.read ('e' :: t) = none := fun t => Naming.read_cons_of_isWord (by decide) t
  have htexts := Setting.silent_naming_texts_iff w.key_ne (fun s hs => w.end_not_mem s (by simp [hs]))
    (w.concludes rest)
  rw [front, Pattern.silent_cons, Pattern.silent_append, ← w.text_source, htexts, Feigns]
  push Not
  exact ⟨fun h => h.2.1, fun h => ⟨hopening _, h, hblanks⟩⟩

/-- A scan finds a marker, with the source that its author wrote, exactly if no attribute before it feigns one. -/
theorem read_text_iff : IncludeMarker.read (w.text ++ rest) = some (w.marker, rest) ↔ ¬ w.Feigns rest := by
  have htext : w.text ++ rest = IncludeMarker.opening ++
      (Setting.texts w.before ++ (w.source.text ++ (w.closing ++ rest))) := by simp [text]
  have hfront : 'e' :: (Setting.texts w.before ++ (w.source.text ++ (w.closing ++ rest))) =
      w.front ++ (w.naming.print ++ rest) := by simp [front, text_source]
  have hgap : 'e' :: w.marker.gap = w.front ++ [w.naming.boundary] := by
    simp [marker, naming, front, List.dropLast_append_getLast w.source.blanks_ne_nil]
  rw [htext, IncludeMarker.read_append_eq_some_iff, IncludeMarker.readFrom_eq_some_iff, hfront, ← silent_front_iff]
  constructor
  · rintro ⟨-, front, boundary, hgap', -, hfind⟩
    obtain ⟨rfl, -⟩ := List.append_inj' (hgap.symm.trans hgap') rfl
    obtain ⟨hprint, -, hsilent⟩ := Pattern.find?_eq_some_iff.1 hfind
    rwa [← List.append_cancel_left hprint] at hsilent
  · intro hsilent
    exact ⟨w.head?_settings rest, _, _, hgap, w.end_not_mem_gap,
      Pattern.find?_eq_some_iff.2 ⟨rfl, w.valid_naming.read_print rest, hsilent⟩⟩

end WrittenInclude

namespace IncludeMarker

theorem pattern_opensWith : pattern.OpensWith (· == '<') := by
  intro t k rest h
  rw [pattern.eq_append h]
  rfl

/-! ## Texts with markers -/

/-- A passage of a text with include markers: one without a `<`, or a marker. -/
inductive Passage where
  | plain (t : Text) (open_not_mem : '<' ∉ t)
  | marker (w : WrittenInclude)

namespace Passage

def text : Passage → Text
  | plain t _ => t
  | marker w => w.text

/-- What a scan is to find in a passage. -/
def pieces : Passage → List (Piece IncludeMarker)
  | plain t _ => t.map .char
  | marker w => [.lexeme w.marker]

def name? : Passage → Option Text
  | plain _ _ => none
  | marker w => some w.name

theorem pieces_plain (t : Text) (hopen : '<' ∉ t) : pieces (plain t hopen) = t.map .char := rfl

theorem pieces_marker (w : WrittenInclude) : pieces (marker w) = [.lexeme w.marker] := rfl

def texts (passages : List Passage) : Text := passages.flatMap text

/-- The sources that the markers name, in order. -/
def names (passages : List Passage) : List Text := passages.filterMap name?

/-- No attribute before the source of a marker feigns one. -/
def Genuine : List Passage → Prop
  | [] => True
  | plain _ _ :: passages => Genuine passages
  | marker w :: passages => ¬ w.Feigns (texts passages) ∧ Genuine passages

/-- Contents in the place of the markers, one after another. -/
def fill : List Passage → List Text → Text
  | plain t _ :: passages, contents => t ++ fill passages contents
  | marker _ :: passages, content :: contents => content ++ fill passages contents
  | marker _ :: _, [] => []
  | [], _ => []

/-- Loads the sources in order, up to the first that fails, and puts their guarded contents in the place of the
markers. -/
def assemble (load : Text → Except LoadFailure Text) (passages : List Passage) (table : Comment.Table) :
    Except Error (Text × Comment.Table) := do
  let contents ← (names passages).mapM fun name => (load name).mapError (Error.ofInclude name)
  return (fill passages (table.guardAll contents).1, (table.guardAll contents).2)

theorem pieces_texts_iff (passages : List Passage) :
    pattern.pieces (texts passages) = passages.flatMap pieces ↔ Genuine passages := by
  induction passages with
  | nil => simp [texts, Genuine]
  | cons passage passages ih =>
    cases passage with
    | plain t hopen =>
      have hchar : ∀ c ∈ t, (c == '<') = false := fun c hc => beq_eq_false_iff_ne.2 fun he => hopen (he ▸ hc)
      have htexts : pattern.pieces (texts (plain t hopen :: passages)) =
          t.map .char ++ pattern.pieces (texts passages) := pattern_opensWith.pieces_append hchar _
      rw [htexts, List.flatMap_cons, pieces_plain, List.append_cancel_left_eq, ih, Genuine]
    | marker w =>
      have htexts : texts (marker w :: passages) = w.text ++ texts passages := rfl
      rw [Genuine, ← WrittenInclude.read_text_iff, ← ih, htexts, List.flatMap_cons, pieces_marker,
        List.singleton_append]
      constructor
      · intro h
        have hfind := @Pattern.find?_of_pieces _ _ _ [] _ _ h
        obtain ⟨hprint, hread, -⟩ := Pattern.find?_eq_some_iff.1 hfind
        rw [List.nil_append, ← w.print_marker] at hprint
        rw [← List.append_cancel_left hprint, show pattern.print w.marker = w.text from w.print_marker] at hread
        rw [pattern.pieces_of_read hread] at h
        exact ⟨hread, (List.cons.inj h).2⟩
      · rintro ⟨hread, hpieces⟩
        rw [pattern.pieces_of_read hread, hpieces]

section

variable (load : Text → Except LoadFailure Text) (passages : List Passage) (table : Comment.Table)

theorem assemble_plain (t : Text) (hopen : '<' ∉ t) :
    assemble load (plain t hopen :: passages) table =
      (assemble load passages table).map fun (resolved, table) => (t ++ resolved, table) := by
  rw [assemble, assemble, show names (plain t hopen :: passages) = names passages from rfl]
  cases (names passages).mapM fun name => (load name).mapError (Error.ofInclude name) <;> rfl

theorem assemble_marker (w : WrittenInclude) :
    assemble load (marker w :: passages) table =
      ((load w.name).mapError (Error.ofInclude w.name)).bind fun content =>
        (assemble load passages (table.guard content).2).map fun (resolved, later) =>
          ((table.guard content).1 ++ resolved, later) := by
  rw [assemble, show names (marker w :: passages) = w.name :: names passages from rfl, List.mapM_cons]
  cases (load w.name).mapError (Error.ofInclude w.name) with
  | error e => rfl
  | ok content =>
    show _ = (assemble load passages (table.guard content).2).map _
    rw [assemble]
    cases (names passages).mapM fun name => (load name).mapError (Error.ofInclude name) <;> rfl

theorem resolvePieces_pieces : resolvePieces load (passages.flatMap pieces) table = assemble load passages table := by
  induction passages generalizing table with
  | nil => rfl
  | cons passage passages ih =>
    cases passage with
    | plain t hopen =>
      rw [List.flatMap_cons, pieces_plain, resolvePieces_map_char, ih, assemble_plain]
    | marker w =>
      rw [List.flatMap_cons, pieces_marker, List.singleton_append, resolvePieces, assemble_marker,
        show w.marker.source = w.name from rfl]
      cases load w.name with
      | error failure => rfl
      | ok content =>
        show _ = (assemble load passages (table.guard content).2).map _
        dsimp only
        rw [ih]
        cases assemble load passages (table.guard content).2 <;> rfl

end

/-- No marker is misread whose attributes before the source have no equals sign in a value, and keys that do not end in
`src` behind a hyphen or the like. -/
theorem genuine_of_forall {passages : List Passage} (h : ∀ w, marker w ∈ passages → ∀ s ∈ w.before,
    ¬ s.HidesSource ∧ '=' ∉ s.quoted.value) : Genuine passages := by
  induction passages with
  | nil => trivial
  | cons passage passages ih =>
    have hpassages := ih fun w hw => h w (List.mem_cons_of_mem _ hw)
    cases passage with
    | plain t hopen => exact hpassages
    | marker w =>
      refine ⟨?_, hpassages⟩
      rintro ⟨before, s, after, hbefore, hfeigns⟩
      obtain ⟨hkey, hsign⟩ := h w List.mem_cons_self s (by simp [hbefore])
      exact Setting.not_feignsSource hkey hsign _ hfeigns

end Passage

/-- The scan of a text with include markers finds what its author wrote exactly if no attribute before a source feigns
one. Resolving then loads the sources that the attributes with the key `src` name, one for each marker and in their
order, fails with the first failure among them, and otherwise exchanges the markers for the guarded contents and nothing
else. No marker is misread whose attributes before the source have values without an equals sign and keys that do not
end in `src` behind a hyphen or the like. -/
theorem resolve_written (passages : List Passage) :
    (pattern.pieces (Passage.texts passages) = passages.flatMap Passage.pieces ↔ Passage.Genuine passages) ∧
    (Passage.Genuine passages → ∀ load table,
      resolve load (Passage.texts passages) table = Passage.assemble load passages table) ∧
    ((∀ w, .marker w ∈ passages → ∀ s ∈ w.before, ¬ s.HidesSource ∧ '=' ∉ s.quoted.value) →
      Passage.Genuine passages) := by
  refine ⟨Passage.pieces_texts_iff passages, fun hgenuine load table => ?_, Passage.genuine_of_forall⟩
  rw [resolve, (Passage.pieces_texts_iff passages).2 hgenuine, Passage.resolvePieces_pieces]

/-- Other attributes stand around the source of a marker, and another marker has a closing tag. -/
theorem resolve_written_twice :
    let load := (Library.memory [("a.html".toList, "<b>1</b>".toList)]).load
    let first : WrittenInclude :=
      { before := [Setting.plain "id".toList "1".toList (by decide) (by decide)]
        source := Setting.plain "src".toList " a.html ".toList (by decide) (by decide)
        after := [Setting.plain "data-src".toList "b.html".toList (by decide) (by decide)]
        blanks := [' ']
        selfClosing := true
        key_eq := by decide
        key_ne := by decide
        end_not_mem := by decide +kernel
        isBlank_of_mem := Setting.isBlank_of_mem_space }
    let second : WrittenInclude :=
      { before := []
        source := Setting.plain "src".toList "a.html".toList (by decide) (by decide)
        after := []
        blanks := []
        selfClosing := false
        key_eq := by decide
        key_ne := by decide
        end_not_mem := by decide +kernel
        isBlank_of_mem := List.forall_mem_nil _ }
    let passages : List Passage :=
      [.plain "x ".toList (by decide), .marker first, .plain " y ".toList (by decide), .marker second]
    Passage.texts passages =
        "x <include id=\"1\" src=\" a.html \" data-src=\"b.html\" /> y <include src=\"a.html\"></include>".toList ∧
      Passage.Genuine passages ∧
      resolve load (Passage.texts passages) [] = .ok ("x <b>1</b> y <b>1</b>".toList, []) := by
  intro load first second passages
  have hbefore : ∀ w, .marker w ∈ passages → ∀ s ∈ w.before, ¬ s.HidesSource ∧ '=' ∉ s.quoted.value := by
    intro w hw s hs
    obtain rfl | rfl : w = first ∨ w = second := by simpa [passages] using hw
    · obtain rfl := List.mem_singleton.1 hs
      refine ⟨?_, by decide +kernel⟩
      rintro ⟨u, c, hkey, -⟩
      have hlength := congrArg List.length hkey
      have hshort : (Setting.plain "id".toList "1".toList (by decide) (by decide)).key.length = 2 := by decide
      rw [hshort, List.length_append] at hlength
      simp [attributeName] at hlength
    · exact absurd hs List.not_mem_nil
  have hgenuine := (resolve_written passages).2.2 hbefore
  refine ⟨by decide +kernel, hgenuine, ?_⟩
  rw [(resolve_written passages).2.1 hgenuine load []]
  decide +kernel

/-- The key `data-src` is taken for `src`: the marker is exchanged for another source than the one it names. -/
theorem resolve_written_misled :
    let load := (Library.memory [("a.html".toList, "<i>a</i>".toList), ("b.html".toList, "<b>b</b>".toList)]).load
    let w : WrittenInclude :=
      { before := [Setting.plain "data-src".toList "a.html".toList (by decide) (by decide)]
        source := Setting.plain "src".toList "b.html".toList (by decide) (by decide)
        after := []
        blanks := []
        selfClosing := true
        key_eq := by decide
        key_ne := by decide
        end_not_mem := by decide +kernel
        isBlank_of_mem := List.forall_mem_nil _ }
    Passage.texts [.marker w] = "<include data-src=\"a.html\" src=\"b.html\"/>".toList ∧
      resolve load (Passage.texts [.marker w]) [] = .ok ("<i>a</i>".toList, []) ∧
      Passage.assemble load [.marker w] [] = .ok ("<b>b</b>".toList, []) :=
  ⟨by decide +kernel, by decide +kernel, by decide +kernel⟩

end IncludeMarker

end HtmlTemplate
