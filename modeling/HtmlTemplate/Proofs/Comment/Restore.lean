import HtmlTemplate.Proofs.Comment.Digits

/-!
# Restored comments, guarded again

Restoring works comment by comment, so that guarding the restored text afresh takes out what took the
places of the comments of the guarded text (`Comment.extract_restore`). There is one exception: where
a comment that is no marker ends in a marker, and the comment put there begins with the end of a
comment.
-/

namespace HtmlTemplate.Comment

open Text (fill)

/-! ## Restoring comment by comment -/

theorem prefix_of_printMarker_prefix {digits s t : Text} (hmarker : IsMarker ⟨label ++ digits⟩)
    (hs : s.getLast? = some '>') (h : printMarker digits <+: s ++ t) : printMarker digits <+: s := by
  rcases List.prefix_or_prefix_of_prefix h (List.prefix_append s t) with hin | ⟨x, hx⟩
  · exact hin
  · cases x using List.reverseRecOn with
    | nil => rw [← hx, List.append_nil]
    | append_singleton x e =>
      exfalso
      have hprint : printMarker digits = (opening ++ (label ++ digits) ++ ['-', '-']) ++ ['>'] := by
        simp [← print_label, print, ending]
      rw [← List.append_assoc, hprint] at hx
      have hmem : '>' ∈ opening ++ (label ++ digits) ++ ['-', '-'] := by
        rw [← (List.append_inj' hx rfl).1]
        exact List.mem_append_left x (List.mem_of_getLast? hs)
      have hbody := fun hc => (hmarker.not_mem_body '>' hc).2.1 rfl
      simp only [List.mem_append] at hbody hmem
      rcases hmem with (hmem | hmem) | hmem
      · simp [opening] at hmem
      · exact hbody hmem
      · simp at hmem

theorem marker_pieces_append {s : Text} (hs : s.getLast? = some '>') (t : Text) :
    markerPattern.pieces (s ++ t) = markerPattern.pieces s ++ markerPattern.pieces t := by
  fun_induction Pattern.pieces markerPattern s with
  | case1 s digits rest hread ih =>
    have hmarker := isMarker_of_readMarker hread
    have he : s = printMarker digits ++ rest := eq_append_of_readMarker hread
    have hread' : markerPattern.read (s ++ t) = some (digits, rest ++ t) := by
      rw [he, List.append_assoc, ← print_label]
      have := hmarker.readMarker (rest ++ t)
      rwa [digits_of_body rfl] at this
    rw [markerPattern.pieces_of_read hread', List.cons_append]
    congr 1
    cases rest with
    | nil => simp
    | cons c rest =>
      refine ih ?_
      rwa [he, List.getLast?_append, List.getLast?_cons, Option.some_or, ← List.getLast?_cons] at hs
  | case2 => simp at hs
  | case3 c s hread ih =>
    simp only [wfParam] at ih
    have hread' : markerPattern.read (c :: (s ++ t)) = none := by
      by_contra hsome
      obtain ⟨⟨digits, rest⟩, hsome⟩ := Option.ne_none_iff_exists'.1 hsome
      have hmarker := isMarker_of_readMarker hsome
      have he : (c :: s) ++ t = printMarker digits ++ rest := eq_append_of_readMarker hsome
      obtain ⟨u, hu⟩ := prefix_of_printMarker_prefix hmarker hs ⟨rest, he.symm⟩
      have hread'' := hmarker.readMarker u
      rw [print_label, hu, digits_of_body rfl] at hread''
      rw [show readMarker (c :: s) = none from hread] at hread''
      simp at hread''
    rw [List.cons_append, markerPattern.pieces_cons_of_read_none hread', List.cons_append]
    congr 1
    cases s with
    | nil => simp
    | cons d s => exact ih (by simpa [List.getLast?_cons] using hs)

theorem restore_append (table : Table) {s : Text} (hs : s.getLast? = some '>') (t : Text) :
    table.restore (s ++ t) = table.restore s ++ table.restore t := by
  simp [Table.restore, Pattern.replace, marker_pieces_append hs]

@[simp] theorem getLast?_print (c : Comment) : c.print.getLast? = some '>' := by
  simp [print, ending]

theorem restore_eq_fill (table : Table) (t : Text) :
    table.restore t = fill (fun c => table.restore c.print) (pattern.pieces t) := by
  fun_induction Pattern.pieces pattern t with
  | case1 t c rest hread ih =>
    rw [show t = c.print ++ rest from eq_append_of_read hread, restore_append table (getLast?_print c),
      ih, Text.fill_hole]
  | case2 => simp [Table.restore, Pattern.replace]
  | case3 c t hread ih =>
    simp only [wfParam] at ih
    have hmarker : markerPattern.read (c :: t) = none := by
      by_contra hn
      obtain ⟨⟨digits, rest⟩, hsome⟩ := Option.ne_none_iff_exists'.1 hn
      have := read_isSome_of_readMarker hsome
      rw [show read (c :: t) = none from hread] at this
      simp at this
    rw [Text.fill_char, ← ih, Table.restore, Pattern.replace,
      markerPattern.pieces_cons_of_read_none hmarker]
    rfl

/-- What restoring makes of a comment is a comment again, and read as it is printed. -/
def Kept (table : Table) (c : Comment) : Prop :=
  ∃ c' : Comment, c'.ReadsBack ∧ table.restore c.print = c'.print

/-- Guarding a restored text afresh takes out what took the places of its comments. -/
theorem extract_restore {html : Text} {table : Table}
    (h : ∀ c, .lexeme c ∈ pattern.pieces html → Kept table c) :
    (extract (table.restore html)).1 = (extract html).1 := by
  choose! restored hback hprint using h
  have hfill : table.restore html = fill (fun c => (restored c).print) (pattern.pieces html) := by
    rw [restore_eq_fill]
    exact Text.fill_congr hprint
  rw [extract_fst, extract_fst, hfill, (finds_pieces html).exchange hback, numbered_map]

/-! ## Comments that are kept -/

theorem exists_restoreMarker {table : Table} (htable : ∀ c ∈ table, c.ReadsBack) {digits : Text}
    (hmarker : IsMarker ⟨label ++ digits⟩) :
    ∃ c : Comment, c.ReadsBack ∧ (c ∈ table ∨ c = ⟨label ++ digits⟩) ∧
      table.restoreMarker digits = c.print := by
  unfold Table.restoreMarker
  cases hcomment : (Text.ofNumeral? digits).bind fun index => table[index]? with
  | none => exact ⟨_, hmarker.readsBack, .inr rfl, (print_label digits).symm⟩
  | some comment =>
    obtain ⟨index, -, hindex⟩ := Option.bind_eq_some_iff.1 hcomment
    have hmem := List.mem_of_getElem? hindex
    exact ⟨comment, htable comment hmem, .inl hmem, rfl⟩

theorem IsMarker.kept {table : Table} (htable : ∀ c ∈ table, c.ReadsBack) {c : Comment}
    (h : c.IsMarker) : Kept table c := by
  have hread : markerPattern.read c.print = some (c.digits, []) := by
    have := h.readMarker []
    rwa [List.append_nil] at this
  obtain ⟨c', hback, -, hc'⟩ := exists_restoreMarker htable (isMarker_of_readMarker hread)
  refine ⟨c', hback, ?_⟩
  simp [Table.restore, Pattern.replace, markerPattern.pieces_of_read hread, Piece.print, hc']

/-- Whether a comment begins with what can end a comment opened in front of it. -/
def IsAbrupt (c : Comment) : Prop := ['>'] <+: c.body ∨ ['-', '>'] <+: c.body

instance (c : Comment) : Decidable c.IsAbrupt := inferInstanceAs (Decidable (_ ∨ _))

theorem not_isAbrupt_label (digits : Text) : ¬ IsAbrupt ⟨label ++ digits⟩ := by
  rintro (h | h) <;> simp [label, markerStem, opening] at h

theorem infix_of_infix_append {mark s t : Text} {c : Char} (hs : s.getLast? = some c) (hc : c ∉ mark)
    (h : mark <:+: s ++ t) : mark <:+: s ∨ mark <:+: t := by
  obtain ⟨u, v, huv⟩ := h
  rw [List.append_assoc] at huv
  rcases List.append_eq_append_iff.1 huv with ⟨x, hx, hmark⟩ | ⟨x, -, ht⟩
  · rcases List.append_eq_append_iff.1 hmark with ⟨y, hy, -⟩ | ⟨y, hy, -⟩
    · exact .inl ⟨u, y, by rw [hx, hy, List.append_assoc]⟩
    · cases x using List.reverseRecOn with
      | nil => exact .inr ⟨[], v, by simpa using hmark⟩
      | append_singleton x d =>
        rw [hx, ← List.append_assoc, List.getLast?_append] at hs
        obtain rfl : d = c := by simpa using hs
        exact absurd (by simp [hy]) hc
  · exact .inr ⟨x, v, by rw [ht, List.append_assoc]⟩

/-- A comment opened before another one ends with it, unless that one is abrupt. -/
theorem readsBack_opening {front : Text} {c b : Comment} (hc : c.ReadsBack) (hb : b.ReadsBack)
    (habrupt : ¬ b.IsAbrupt) (hfront : front ++ opening <+: c.body) :
    ReadsBack ⟨front ++ opening ++ b.body⟩ := by
  refine readsBack_iff.2 fun hin => ?_
  have hsplit : (front ++ opening ++ b.body) ++ ['-', '-'] =
      (front ++ ['<', '!']) ++ ('-' :: '-' :: (b.body ++ ['-', '-'])) := by
    simp [opening]
  rw [hsplit] at hin
  rcases infix_of_infix_append (c := '!') (by simp) (by simp [ending]) hin with hin | hin
  · refine readsBack_iff.1 hc (hin.trans ?_)
    obtain ⟨rest, hrest⟩ := hfront
    exact ⟨[], ['-', '-'] ++ rest ++ ['-', '-'], by simp [← hrest, opening]⟩
  · rw [List.infix_cons_iff, List.infix_cons_iff] at hin
    rcases hin with hpre | hpre | hin
    · rw [ending, List.cons_prefix_cons, List.cons_prefix_cons] at hpre
      refine habrupt (.inl ?_)
      cases hbody : b.body with
      | nil => simp [hbody] at hpre
      | cons d body => simpa [hbody] using hpre
    · rw [ending, List.cons_prefix_cons] at hpre
      refine habrupt (.inr ?_)
      rcases hbody : b.body with _ | ⟨d, _ | ⟨e, body⟩⟩
      · simp [hbody] at hpre
      · simp [hbody] at hpre
      · simpa [hbody] using hpre
    · exact readsBack_iff.1 hb hin

theorem eq_nil_of_marker_pieces {c : Comment} (hc : c.ReadsBack) {xs ys : List (Piece Text)}
    {digits : Text} (h : markerPattern.pieces c.print = xs ++ .lexeme digits :: ys) : ys = [] := by
  have hfill : fill printMarker ys = [] := by
    cases hys : fill printMarker ys using List.reverseRecOn with
    | nil => rfl
    | append_singleton rest e =>
      have hprint : fill printMarker (markerPattern.pieces c.print) = c.print :=
        markerPattern.print_pieces c.print
      have hsplit : (fill printMarker xs ++ opening ++ label ++ digits) ++ (ending ++ rest) =
          opening ++ (c.body ++ ['-', '-']) := by
        rw [h, Text.fill_append, Text.fill_hole, hys] at hprint
        have hlast : ((fill printMarker xs ++ opening ++ label ++ digits) ++ (ending ++ rest)) ++ [e] =
            (opening ++ (c.body ++ ['-', '-'])) ++ ['>'] := by
          simpa [print, printMarker, markerStem, label, ending] using hprint
        exact (List.append_inj' hlast rfl).1
      obtain ⟨front, hfront⟩ : opening <+: fill printMarker xs ++ opening ++ label ++ digits := by
        refine List.prefix_of_prefix_length_le ⟨_, hsplit.symm⟩ (List.prefix_append _ _) ?_
        simp
        omega
      rw [← hfront, List.append_assoc, List.append_cancel_left_eq] at hsplit
      exact absurd ⟨front, rest, by rw [List.append_assoc, hsplit]⟩ (readsBack_iff.1 hc)
  cases ys with
  | nil => rfl
  | cons piece ys => cases piece <;> simp [printMarker, markerStem, opening] at hfill

theorem opening_prefix_of_append {c : Comment} {s digits : Text}
    (h : s ++ printMarker digits = c.print) : s = [] ∨ opening <+: s := by
  have hs : s <+: c.print := ⟨_, h⟩
  have hopen : opening <+: c.print := ⟨c.body ++ ending, by simp [print]⟩
  rcases List.prefix_or_prefix_of_prefix hs hopen with ⟨x, hx⟩ | hin
  · cases s with
    | nil => exact .inl rfl
    | cons d s =>
      cases x with
      | nil => exact .inr ⟨[], by simpa using hx.symm⟩
      | cons e x =>
        obtain ⟨rest, hrest⟩ := hopen
        rw [← hrest, ← hx, List.append_assoc, List.append_cancel_left_eq] at h
        obtain ⟨rfl, -⟩ := List.cons.inj h
        obtain ⟨-, htail⟩ := List.cons.inj hx
        have hmem : '<' ∈ ['!', '-', '-'] := htail ▸ by simp
        simp at hmem
  · exact .inr hin

/-- A comment that reads back has one marker at most, at its end, and only that is restored. -/
theorem exists_front_of_marker {c : Comment} (hc : c.ReadsBack) {digits : Text}
    (h : .lexeme digits ∈ markerPattern.pieces c.print) :
    ∃ front : Text, front ++ printMarker digits = c.print ∧
      ∀ table : Table, table.restore c.print = front ++ table.restoreMarker digits := by
  obtain ⟨xs, ys, hps⟩ := List.append_of_mem h
  obtain rfl := eq_nil_of_marker_pieces hc hps
  have hxs : ∀ d, .lexeme d ∉ xs := by
    intro d hd
    obtain ⟨us, vs, rfl⟩ := List.append_of_mem hd
    rw [List.append_assoc, List.cons_append] at hps
    simpa using eq_nil_of_marker_pieces hc hps
  have hfill : ∀ f : Text → Text, fill f (markerPattern.pieces c.print) = fill printMarker xs ++ f digits := by
    intro f
    rw [hps, Text.fill_append, Text.fill_hole, Text.fill_nil, List.append_nil,
      Text.fill_congr (g := printMarker) fun d hd => absurd hd (hxs d)]
  exact ⟨fill printMarker xs, (hfill printMarker).symm.trans (markerPattern.print_pieces c.print),
    fun table => hfill table.restoreMarker⟩

theorem ReadsBack.kept {table : Table} (htable : ∀ c ∈ table, c.ReadsBack)
    (habrupt : ∀ c ∈ table, ¬ c.IsAbrupt) {c : Comment} (hc : c.ReadsBack) : Kept table c := by
  by_cases hmark : ∃ digits, .lexeme digits ∈ markerPattern.pieces c.print
  · obtain ⟨digits, hdigits⟩ := hmark
    obtain ⟨front, hprint, hfront⟩ := exists_front_of_marker hc hdigits
    have hmarker : IsMarker ⟨label ++ digits⟩ := by
      obtain ⟨u, rest, hread⟩ := markerPattern.exists_read_of_mem_pieces hdigits
      exact isMarker_of_readMarker hread
    obtain ⟨b, hb, hkind, hrestore⟩ := exists_restoreMarker htable hmarker
    have hb' : ¬ b.IsAbrupt := by
      rcases hkind with hmem | rfl
      · exact habrupt b hmem
      · exact not_isAbrupt_label digits
    have hrestored : table.restore c.print = front ++ b.print := by
      rw [hfront, hrestore]
    rcases opening_prefix_of_append hprint with rfl | ⟨body, rfl⟩
    · exact ⟨b, hb, by rw [hrestored, List.nil_append]⟩
    · have hbody : body ++ opening <+: c.body := by
        refine ⟨label ++ digits, ?_⟩
        have hc : opening ++ (body ++ opening ++ (label ++ digits) ++ ending) = opening ++ (c.body ++ ending) := by
          simpa [print, printMarker, markerStem, label] using hprint
        rw [List.append_cancel_left_eq] at hc
        exact List.append_cancel_right hc
      refine ⟨⟨body ++ opening ++ b.body⟩, readsBack_opening hc hb hb' hbody, ?_⟩
      rw [hrestored]
      simp [print]
  · refine ⟨c, hc, ?_⟩
    have hrestore : table.restore c.print = fill table.restoreMarker (markerPattern.pieces c.print) :=
      rfl
    rw [hrestore, Text.fill_congr (g := printMarker) fun d hd => absurd ⟨d, hd⟩ hmark]
    exact markerPattern.print_pieces c.print

end HtmlTemplate.Comment
