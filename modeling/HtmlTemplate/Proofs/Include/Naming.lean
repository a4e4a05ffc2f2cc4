import HtmlTemplate.Proofs.Include

/-!
# Where an include marker names its source

A marker names its source at the first place before any `>` where no word character stands before `src`, and an equals
sign, a quoted value and an end of the marker follow. Together with the character before it that is a lexeme
(`IncludeMarker.Naming`), which is read as it is printed (`Naming.Valid.read_print`), and a marker is read by a search
for it (`IncludeMarker.readFrom_eq_some_iff`).
-/

namespace HtmlTemplate.IncludeMarker

/-! ## Ends of markers -/

/-- What ends a marker: all up to the first `>`, with a slash before it or a closing tag behind it. -/
def Ends (closing : Text) : Prop :=
  ∃ s : Text, '>' ∉ s ∧ ((s.getLast? = some '/' ∧ closing = s ++ ['>']) ∨
    (s.getLast? ≠ some '/' ∧ ∃ before after : Text, (∀ c ∈ before, Text.isBlank c = true) ∧
      (∀ c ∈ after, Text.isBlank c = true) ∧ closing = s ++ '>' :: (before ++ (closingTag ++ (after ++ ['>'])))))

theorem ends_of_readClosing {t closing rest : Text} (h : readClosing t = some (closing, rest)) : Ends closing := by
  obtain ⟨s, hs, ⟨hslash, rfl⟩ | ⟨hslash, before, after, hbefore, hafter, rfl⟩⟩ := exists_of_readClosing h
  · exact ⟨s, hs, .inl ⟨hslash, rfl⟩⟩
  · refine ⟨s, hs, .inr ⟨hslash, before, after, hbefore, hafter, ?_⟩⟩
    simp [Tag.print, closingTag, elementName]

theorem readClosingTag_append {before after : Text} (hbefore : ∀ c ∈ before, Text.isBlank c = true)
    (hafter : ∀ c ∈ after, Text.isBlank c = true) (rest : Text) :
    readClosingTag (before ++ (closingTag ++ (after ++ '>' :: rest))) =
      some (before ++ (closingTag ++ (after ++ ['>'])), rest) := by
  have hopen : Text.isBlank '<' = false := by decide
  have hend : Text.isBlank '>' = false := by decide
  have htag : ∀ t, (closingTag ++ t).takeWhile Text.isBlank = [] ∧
      (closingTag ++ t).dropWhile Text.isBlank = closingTag ++ t := fun t => by simp [closingTag, hopen]
  simp only [readClosingTag, List.takeWhile_append_of_pos hbefore, List.dropWhile_append_of_pos hbefore, htag,
    Text.after?_append, Option.bind_eq_bind, Option.bind_some, List.takeWhile_append_of_pos hafter,
    List.dropWhile_append_of_pos hafter]
  simp [hend, Text.after?]

theorem Ends.readClosing_append {closing : Text} (h : Ends closing) (rest : Text) :
    readClosing (closing ++ rest) = some (closing, rest) := by
  obtain ⟨s, hs, hend⟩ := h
  have hcut : ∀ t, (s ++ '>' :: t).takeWhile (· != '>') = s ∧ (s ++ '>' :: t).dropWhile (· != '>') = '>' :: t := by
    intro t
    have hall : ∀ c ∈ s, (c != '>') = true := fun c hc => bne_iff_ne.2 fun he => hs (he ▸ hc)
    rw [List.takeWhile_append_of_pos hall, List.dropWhile_append_of_pos hall]
    simp
  rcases hend with ⟨hslash, rfl⟩ | ⟨hslash, before, after, hbefore, hafter, rfl⟩
  · rw [List.append_assoc, List.singleton_append]
    simp only [readClosing, hcut, if_pos hslash]
  · have htag := readClosingTag_append hbefore hafter rest
    simp only [List.append_assoc, List.cons_append, List.nil_append, readClosing, hcut, if_neg hslash, htag,
      Option.map_some]

theorem Ends.append {closing : Text} (h : Ends closing) {t : Text} (ht : '>' ∉ t) (hlast : t.getLast? ≠ some '/') :
    Ends (t ++ closing) := by
  obtain ⟨s, hs, hend⟩ := h
  refine ⟨t ++ s, by simp [ht, hs], ?_⟩
  rcases hend with ⟨hslash, rfl⟩ | ⟨hslash, before, after, hbefore, hafter, rfl⟩
  · exact .inl ⟨by simp [List.getLast?_append, hslash], by simp⟩
  · refine .inr ⟨?_, before, after, hbefore, hafter, by simp⟩
    rw [List.getLast?_append]
    cases hc : s.getLast? with
    | none => simpa using hlast
    | some c => simpa [hc] using hslash

/-! ## Namings -/

/-- The place where a marker names its source, up to the end of the marker: the character before it, the equals sign,
the name in quotes, and what ends the marker. -/
structure Naming where
  boundary : Char
  equals : Text
  quoted : Quoted
  closing : Text

namespace Naming

def print (n : Naming) : Text :=
  n.boundary :: (attributeName ++ (n.equals ++ (n.quoted.print ++ n.closing)))

def read : Text → Option (Naming × Text)
  | [] => none
  | boundary :: t =>
    (if Text.isWord boundary then none else readSource t).map fun ((equals, quoted, closing), rest) =>
      (⟨boundary, equals, quoted, closing⟩, rest)

structure Valid (n : Naming) : Prop where
  boundary : Text.isWord n.boundary = false
  equals : ∃ b b' : Text, (∀ c ∈ b, Text.isBlank c = true) ∧ (∀ c ∈ b', Text.isBlank c = true) ∧
    n.equals = b ++ '=' :: b'
  quote : Text.isQuote n.quoted.quote = true
  value : n.quoted.quote ∉ n.quoted.value
  closing : Ends n.closing

theorem Valid.read_print {n : Naming} (h : n.Valid) (rest : Text) : read (n.print ++ rest) = some (n, rest) := by
  obtain ⟨b, b', hb, hb', hequals⟩ := h.equals
  have hreadEquals : Text.readEquals (n.equals ++ (n.quoted.print ++ (n.closing ++ rest))) =
      some (n.equals, n.quoted.print ++ (n.closing ++ rest)) := by
    rw [hequals, Quoted.print, List.cons_append, List.append_assoc, List.cons_append]
    exact Text.readEquals_append hb hb' (Text.not_isBlank_of_isQuote h.quote)
  have hsource : readSource (attributeName ++ (n.equals ++ (n.quoted.print ++ (n.closing ++ rest)))) =
      some ((n.equals, n.quoted, n.closing), rest) := by
    simp [readSource, Text.after?_append, hreadEquals, Quoted.read_print h.quote h.value, h.closing.readClosing_append]
  simp only [print, List.cons_append, List.append_assoc, read, h.boundary, Bool.false_eq_true, if_false, hsource,
    Option.map_some]

theorem of_read {t rest : Text} {n : Naming} (h : read t = some (n, rest)) :
    n.Valid ∧ t = n.print ++ rest := by
  cases t with
  | nil => simp [read] at h
  | cons boundary t =>
    rw [read, Option.map_eq_some_iff] at h
    obtain ⟨⟨⟨equals, quoted, closing⟩, r⟩, hsource, he⟩ := h
    obtain ⟨rfl, rfl⟩ := Prod.mk.inj he
    split at hsource
    · simp at hsource
    · next hword =>
      refine ⟨?_, by simp [print, eq_append_of_readSource hsource]⟩
      simp only [readSource, Option.bind_eq_bind, Option.bind_eq_some_iff] at hsource
      obtain ⟨t₁, -, ⟨equals', t₂⟩, hequals, ⟨quoted', t₃⟩, hquoted, ⟨closing', t₄⟩, hclosing, he⟩ := hsource
      simp only [Option.pure_def, Option.some.injEq, Prod.mk.injEq] at he
      obtain ⟨⟨rfl, rfl, rfl⟩, rfl⟩ := he
      obtain ⟨hquote, hvalue⟩ := Quoted.of_read hquoted
      exact ⟨by simpa using hword, Text.exists_of_readEquals hequals, hquote, hvalue, ends_of_readClosing hclosing⟩

def pattern : Pattern Naming where
  read := read
  print := print
  eq_append := fun h => (of_read h).2
  print_ne_nil := fun _ => List.cons_ne_nil _ _

theorem pattern_read (t : Text) : pattern.read t = read t := rfl

theorem read_eq_none_iff {t : Text} : pattern.read t = none ↔ ∀ n : Naming, n.Valid → ¬ n.print <+: t := by
  constructor
  · rintro h n hn ⟨rest, rfl⟩
    simp [pattern_read, hn.read_print] at h
  · intro h
    by_contra hne
    obtain ⟨⟨n, rest⟩, hread⟩ := Option.ne_none_iff_exists'.1 hne
    obtain ⟨hn, ht⟩ := of_read hread
    exact h n hn ⟨rest, ht.symm⟩

/-! ## Where none begins -/

theorem read_cons_of_isWord {c : Char} (h : Text.isWord c = true) (t : Text) : pattern.read (c :: t) = none := by
  simp [pattern_read, read, h]

theorem read_cons_of_head?_ne {t : Text} (h : t.head? ≠ some 's') (c : Char) : pattern.read (c :: t) = none := by
  refine read_eq_none_iff.2 fun n _ hbegins => h ?_
  obtain ⟨rest, hrest⟩ := hbegins
  rw [← (List.cons.inj hrest).2]
  rfl

theorem silent_of_head?_ne {s t : Text} (hs : 's' ∉ s) (ht : t.head? ≠ some 's') : pattern.Silent s t := by
  rintro u v rfl hv
  obtain ⟨c, v, rfl⟩ := List.exists_cons_of_ne_nil hv
  refine read_cons_of_head?_ne ?_ c
  cases v with
  | nil => exact ht
  | cons d v => simpa using fun he : d = 's' => hs (by simp [he])

theorem exists_of_find?_cons {c : Char} {t front back : Text} {n : Naming}
    (h : pattern.find? (c :: t) = some (front, n, back)) : ∃ gap, front ++ [n.boundary] = c :: gap := by
  obtain ⟨behind, ht⟩ : ∃ behind, c :: t = front ++ n.boundary :: behind :=
    ⟨_, by rw [pattern.eq_append_of_find? h, List.append_assoc]; rfl⟩
  cases front with
  | nil => exact ⟨[], by rw [(List.cons.inj ht).1]; rfl⟩
  | cons d front => exact ⟨front ++ [n.boundary], by rw [(List.cons.inj ht).1]; rfl⟩

end Naming

/-! ## Reading a marker -/

/-- The rest of a marker is read by a search for its naming, which may begin at the last character read. -/
theorem readFrom_eq_some_iff {last : Char} {t rest : Text} {k : IncludeMarker} :
    readFrom last t = some (k, rest) ↔ ∃ front boundary, last :: k.gap = front ++ [boundary] ∧ '>' ∉ k.gap ∧
      Naming.pattern.find? (last :: t) = some (front, ⟨boundary, k.equals, k.quoted, k.closing⟩, rest) := by
  induction t generalizing last k rest with
  | nil =>
    have hread : Naming.pattern.read [last] = none := Naming.read_cons_of_head?_ne (by simp) last
    simp [readFrom, Pattern.find?, hread]
  | cons c t ih =>
    obtain ⟨gap, equals, quoted, closing⟩ := k
    rw [readFrom, Pattern.find?, Naming.pattern_read, Naming.read]
    cases if Text.isWord last = true then none else readSource (c :: t) with
    | some found =>
      -- the naming begins at the last character read
      simp only [Option.map_some, Option.some.injEq, Prod.mk.injEq, Naming.mk.injEq, mk.injEq]
      constructor
      · rintro ⟨⟨rfl, rfl, rfl, rfl⟩, rfl⟩
        exact ⟨[], last, by simp⟩
      · rintro ⟨front, boundary, hgap, -, rfl, ⟨rfl, rfl, rfl, rfl⟩, rfl⟩
        simpa using hgap
    | none =>
      dsimp only [Option.map_none]
      constructor
      · intro h
        split at h
        · simp at h
        · next hc =>
          obtain ⟨⟨k, r⟩, hread, he⟩ := Option.map_eq_some_iff.1 h
          obtain ⟨front, boundary, hgap, hend, hfind⟩ := ih.1 hread
          simp only [Prod.mk.injEq, mk.injEq] at he
          obtain ⟨⟨rfl, rfl, rfl, rfl⟩, rfl⟩ := he
          exact ⟨last :: front, boundary, by rw [hgap]; rfl, by simp [hend, Ne.symm hc], by rw [hfind]; rfl⟩
      · rintro ⟨front, boundary, hgap, hend, hfind⟩
        obtain ⟨⟨front', n, r⟩, hfind', he⟩ := Option.map_eq_some_iff.1 hfind
        obtain ⟨rfl, rfl, rfl⟩ : last :: front' = front ∧ n = ⟨boundary, equals, quoted, closing⟩ ∧ r = rest := by
          simpa using he
        obtain ⟨behind, hbehind⟩ := Naming.exists_of_find?_cons hfind'
        obtain rfl : gap = c :: behind := by rw [← hbehind]; exact (List.cons.inj hgap).2
        have hread : readFrom c t = some (⟨behind, equals, quoted, closing⟩, r) :=
          ih.2 ⟨front', boundary, hbehind.symm, fun hmem => hend (List.mem_cons_of_mem c hmem), hfind'⟩
        rw [if_neg (fun hc => hend (by simp [hc])), hread]
        rfl

theorem read_append_eq_some_iff {t rest : Text} {k : IncludeMarker} :
    read (opening ++ t) = some (k, rest) ↔ t.head?.any Text.isWord = false ∧ readFrom 'e' t = some (k, rest) := by
  simp only [read, Text.after?_append, Option.bind_eq_bind, Option.bind_some]
  split <;> simp_all

end HtmlTemplate.IncludeMarker
