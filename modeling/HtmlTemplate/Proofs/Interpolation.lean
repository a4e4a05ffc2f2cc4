import HtmlTemplate.Placeholder
import HtmlTemplate.Proofs.Markup.Shape

/-!
# Interpolated values and markup

Values are escaped, so interpolation adds no character that delimits markup. Where no placeholder
touches the beginning of a tag or a `>`, it keeps the tags as well: their names, whether they close,
and whether they close themselves (`Placeholder.shapes_interpolate`). What is wrong with the balance
of the tags is then the same in every scope.
-/

namespace HtmlTemplate

/-- Whether a character delimits markup: an angle bracket or a quote. -/
def isDelimiter (c : Char) : Bool := c == '<' || c == '>' || Text.isQuote c

/-! ## Escaped text -/

namespace Escape

theorem not_isDelimiter_of_mem_char {c d : Char} (h : d ∈ char c) : isDelimiter d = false := by
  have hall : ∀ d ∈ char c, isDelimiter d = false := by
    unfold char
    split_ifs <;> simp_all [isDelimiter, Text.isQuote]
  exact hall d h

theorem not_isDelimiter_of_mem_text {t : Text} {d : Char} (h : d ∈ text t) :
    isDelimiter d = false := by
  rw [text_eq_flatMap] at h
  obtain ⟨c, -, hd⟩ := List.mem_flatMap.1 h
  exact not_isDelimiter_of_mem_char hd

end Escape

/-! ## Placeholders -/

namespace Placeholder

theorem not_isDelimiter_of_isPathChar {c : Char} (h : isPathChar c = true) :
    isDelimiter c = false := by
  by_contra hc
  simp only [isDelimiter, Text.isQuote, Bool.not_eq_false, Bool.or_eq_true, beq_iff_eq] at hc
  obtain (rfl | rfl) | rfl | rfl := hc <;> revert h <;> decide

theorem not_isDelimiter_of_isBlank {c : Char} (h : Text.isBlank c = true) :
    isDelimiter c = false := by
  by_contra hc
  simp only [isDelimiter, Text.isQuote, Bool.not_eq_false, Bool.or_eq_true, beq_iff_eq] at hc
  obtain (rfl | rfl) | rfl | rfl := hc <;> revert h <;> decide

theorem not_isDelimiter_of_mem_value {s : Scope} {p : Placeholder} {c : Char}
    (h : c ∈ value s p) : isDelimiter c = false := by
  unfold value at h
  split at h
  · exact Escape.not_isDelimiter_of_mem_text h
  · simp at h

/-- What is known of a placeholder that was read: blanks around a path. -/
theorem of_read {t rest : Text} {p : Placeholder} (h : read t = some (p, rest)) :
    (∀ c ∈ p.before, Text.isBlank c = true) ∧ (∀ c ∈ p.path, isPathChar c = true) ∧
      (∀ c ∈ p.after, Text.isBlank c = true) := by
  simp only [read, Option.bind_eq_bind, Option.bind_eq_some_iff] at h
  obtain ⟨t₁, h₁, ⟨path, t₂⟩, h₂, t₃, h₃, he⟩ := h
  obtain ⟨rfl, rfl⟩ := Prod.mk.inj (Option.some.inj he)
  exact ⟨fun c => List.mem_takeWhile_imp, Text.forall_mem_of_readRun h₂, fun c => List.mem_takeWhile_imp⟩

theorem not_isDelimiter_of_mem_print {t : Text} {p : Placeholder} {c : Char}
    (hp : .lexeme p ∈ pattern.pieces t) (h : c ∈ print p) : isDelimiter c = false := by
  obtain ⟨u, rest, hread⟩ := pattern.exists_read_of_mem_pieces hp
  obtain ⟨hbefore, hpath, hafter⟩ := of_read hread
  simp only [print, openBraces, closeBraces, List.mem_append, List.mem_cons, List.not_mem_nil,
    or_false] at h
  obtain ((((rfl | rfl) | h) | h) | h) | rfl | rfl := h
  · rfl
  · rfl
  · exact not_isDelimiter_of_isBlank (hbefore c h)
  · exact not_isDelimiter_of_isPathChar (hpath c h)
  · exact not_isDelimiter_of_isBlank (hafter c h)
  · rfl
  · rfl

/-! ## Interpolation -/

/-- No placeholder of a text stands right behind what a tag begins with, or right before a `>`. -/
def Detached (t : Text) : Prop :=
  ∀ (front : List (Piece Placeholder)) (p : Placeholder) (back : List (Piece Placeholder)),
    pattern.pieces t = front ++ .lexeme p :: back →
      (∀ lead, lead <:+ Text.fill print front → Tag.isLead lead = false) ∧
        back.head? ≠ some (.char '>')

/-- The condition of `Detached` for pieces behind `front`, checked from the left. -/
def detachedBehind (front : Text) : List (Piece Placeholder) → Bool
  | [] => true
  | .char c :: ps => detachedBehind (front ++ [c]) ps
  | .lexeme p :: ps =>
    front.tails.all (!Tag.isLead ·) && ps.head? != some (.char '>') &&
      detachedBehind (front ++ p.print) ps

theorem detachedBehind_iff {front : Text} {ps : List (Piece Placeholder)} :
    detachedBehind front ps = true ↔
      ∀ (front' : List (Piece Placeholder)) (p : Placeholder) (back : List (Piece Placeholder)),
        ps = front' ++ .lexeme p :: back →
          (∀ lead, lead <:+ front ++ Text.fill print front' → Tag.isLead lead = false) ∧
            back.head? ≠ some (.char '>') := by
  induction ps generalizing front with
  | nil => simp [detachedBehind]
  | cons piece ps ih =>
    cases piece with
    | char c =>
      rw [detachedBehind, ih]
      constructor
      · rintro h (_ | ⟨piece, front'⟩) p back he
        · simp at he
        · obtain ⟨rfl, rfl⟩ := List.cons.inj he
          simpa using h front' p back rfl
      · rintro h front' p back rfl
        simpa using h (.char c :: front') p back rfl
    | lexeme q =>
      simp only [detachedBehind, Bool.and_eq_true, List.all_eq_true, List.mem_tails, ih]
      constructor
      · rintro ⟨⟨hlead, hnext⟩, h⟩ (_ | ⟨piece, front'⟩) p back he
        · obtain ⟨-, rfl⟩ := List.cons.inj he
          exact ⟨by simpa using hlead, by simpa using hnext⟩
        · obtain ⟨rfl, rfl⟩ := List.cons.inj he
          simpa using h front' p back rfl
      · intro h
        obtain ⟨hlead, hnext⟩ := h [] q ps rfl
        refine ⟨⟨by simpa using hlead, by simpa using hnext⟩, ?_⟩
        rintro front' p back rfl
        simpa using h (.lexeme q :: front') p back rfl

instance (t : Text) : Decidable (Detached t) :=
  decidable_of_iff (detachedBehind [] (pattern.pieces t) = true) detachedBehind_iff

theorem Detached.holesApart {t : Text} (h : Detached t) :
    HoledTag.HolesApart (pattern.pieces t) := by
  intro front lead p back he
  refine (h (front ++ lead.map .char) p back he).1 lead ?_
  exact ⟨Text.fill print front, by simp⟩

theorem Detached.not_before_end {t : Text} (h : Detached t) (p : Placeholder) :
    ¬ [.lexeme p, .char '>'] <:+: pattern.pieces t := by
  rintro ⟨front, back, he⟩
  exact (h front p (.char '>' :: back) (by simp [← he])).2 rfl

theorem plain_print (t : Text) : Text.Plain print (pattern.pieces t) := fun p hp =>
  ⟨fun h => absurd (not_isDelimiter_of_mem_print hp h) (by decide),
    fun h => absurd (not_isDelimiter_of_mem_print hp h) (by decide)⟩

theorem plain_value (s : Scope) (ps : List (Piece Placeholder)) : Text.Plain (value s) ps :=
  fun _ _ => ⟨fun h => absurd (not_isDelimiter_of_mem_value h) (by decide),
    fun h => absurd (not_isDelimiter_of_mem_value h) (by decide)⟩

theorem shapes_interpolate {t : Text} (h : Detached t) (s : Scope) :
    (Markup.ofText (interpolate s t)).tags.map Tag.shape =
      (Markup.ofText t).tags.map Tag.shape := by
  have key := Markup.shapes_fill (plain_value s (pattern.pieces t)) (plain_print t) h.holesApart
    h.not_before_end
  rwa [show Text.fill print (pattern.pieces t) = t from pattern.print_pieces t] at key

theorem filter_isDelimiter_interpolate (s : Scope) (t : Text) :
    (interpolate s t).filter isDelimiter = t.filter isDelimiter := by
  have key : ∀ ps : List (Piece Placeholder),
      (∀ p, .lexeme p ∈ ps → ∀ c ∈ print p, isDelimiter c = false) →
      (Text.fill (value s) ps).filter isDelimiter = (Text.fill print ps).filter isDelimiter := by
    intro ps hps
    induction ps with
    | nil => rfl
    | cons piece ps ih =>
      have hrest := ih fun p hp => hps p (List.mem_cons_of_mem _ hp)
      cases piece with
      | char c => simp [List.filter_cons, hrest]
      | lexeme p =>
        have hvalue : (value s p).filter isDelimiter = [] := by
          simpa [List.filter_eq_nil_iff] using fun c (hc : c ∈ value s p) =>
            not_isDelimiter_of_mem_value hc
        have hprint : (print p).filter isDelimiter = [] := by
          simpa [List.filter_eq_nil_iff] using hps p (by simp)
        simp [hvalue, hprint, hrest]
  have h := key (pattern.pieces t) fun p hp c => not_isDelimiter_of_mem_print hp
  rwa [show Text.fill print (pattern.pieces t) = t from pattern.print_pieces t] at h

/-- Values in the place of detached placeholders cannot change the markup: the tags keep their names
and whether they close or close themselves, no angle bracket or quote comes or goes, and so what is
wrong with the balance of the tags is the same in any two scopes. -/
theorem markup_interpolate {t : Text} (h : Detached t) (s : Scope) :
    (Markup.ofText (interpolate s t)).tags.map Tag.shape =
        (Markup.ofText t).tags.map Tag.shape ∧
      (interpolate s t).filter isDelimiter = t.filter isDelimiter ∧
      ∀ s', Markup.checkTags [] (Markup.ofText (interpolate s t)).tags =
        Markup.checkTags [] (Markup.ofText (interpolate s' t)).tags := by
  refine ⟨shapes_interpolate h s, filter_isDelimiter_interpolate s t, fun s' => ?_⟩
  apply Markup.checkTags_eq_of_shapes_eq
  rw [shapes_interpolate h s, shapes_interpolate h s']

/-- A value full of markup, in an unquoted attribute and in text. -/
theorem markup_interpolate_quotes :
    let t := "<a b={{x}} c>{{x}}{{x}}</a>".toList
    let s := Scope.ofData (.object [(['x'], .string "\"/><b>".toList)])
    Detached t ∧
      (Markup.ofText (interpolate s t)).tags.map Tag.shape =
        (Markup.ofText t).tags.map Tag.shape ∧
      (interpolate s t).filter isDelimiter = t.filter isDelimiter ∧
      ∀ s', Markup.checkTags [] (Markup.ofText (interpolate s t)).tags =
        Markup.checkTags [] (Markup.ofText (interpolate s' t)).tags := by
  have h : Detached "<a b={{x}} c>{{x}}{{x}}</a>".toList := by decide +kernel
  exact ⟨h, markup_interpolate h _⟩

end Placeholder
end HtmlTemplate
