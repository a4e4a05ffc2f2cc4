import HtmlTemplate.Comment
import HtmlTemplate.Proofs.Markup.Holes
import HtmlTemplate.Proofs.Text.Basic

/-!
# Comments and markers

A comment is read as it is printed, whatever follows it (`Comment.ReadsBack`). Such comments can stand
in the place of each other: guarding finds them where they were put (`Comment.Finds.exchange`). Markers
are comments of this kind, and each is read as a marker as well.
-/

namespace HtmlTemplate.Comment

open Text (fill)

/-! ## Comments that are read as they are printed -/

/-- A comment that is read as it is printed, whatever follows it. -/
def ReadsBack (c : Comment) : Prop := ∀ rest, read (c.print ++ rest) = some (c, rest)

theorem readsBack_of_read {t rest : Text} {c : Comment} (h : read t = some (c, rest)) :
    c.ReadsBack := by
  intro rest'
  simp only [read, Option.bind_eq_bind, Option.bind_eq_some_iff] at h
  obtain ⟨t₁, h₁, ⟨body, t₂⟩, h₂, he⟩ := h
  obtain ⟨rfl, rfl⟩ := Prod.mk.inj (Option.some.inj he)
  have hcut : Text.cut? ending (body ++ (ending ++ rest')) = some (body, rest') := by
    rw [← List.append_assoc]
    exact Text.cut?_append h₂ rest'
  simp [read, print, hcut]

theorem readsBack_of_mem_pieces {t : Text} {c : Comment} (h : .lexeme c ∈ pattern.pieces t) :
    c.ReadsBack := by
  obtain ⟨u, rest, hread⟩ := pattern.exists_read_of_mem_pieces h
  exact readsBack_of_read hread

theorem pattern_opensWith : pattern.OpensWith (· == '<') := by
  intro t c rest h
  rw [eq_append_of_read h]
  rfl

/-- A comment is read as it is printed if no ending stands in it before its own. -/
theorem readsBack_iff {c : Comment} : c.ReadsBack ↔ ¬ ending <:+: c.body ++ ['-', '-'] := by
  constructor
  · rintro h ⟨u, v, huv⟩
    have hread := h []
    have hprint : c.print ++ [] = opening ++ (u ++ ending ++ (v ++ ['>'])) := by
      rw [← List.append_assoc (u ++ ending), huv]
      simp [print, ending]
    obtain ⟨⟨front, rest⟩, hcut⟩ :=
      Option.isSome_iff_exists.1 (Text.cut?_isSome_append ending u (v ++ ['>']))
    have hle := Text.length_le_of_cut? hcut
    rw [hprint] at hread
    simp only [read, Text.after?_append, Option.bind_eq_bind, Option.bind_some, hcut] at hread
    obtain ⟨hc, -⟩ := Prod.mk.inj (Option.some.inj hread)
    have hlength := congrArg List.length huv
    simp only [List.length_append, ending, List.length_cons, List.length_nil, ← hc] at hlength
    omega
  · intro h rest
    have hcut : Text.cut? ending (c.body ++ (ending ++ rest)) = some (c.body, rest) := by
      generalize c.body = body at h
      induction body with
      | nil => rfl
      | cons d body ih =>
        have hnone : Text.after? ending (d :: (body ++ (ending ++ rest))) = none := by
          by_contra hsome
          obtain ⟨r, hr⟩ := Option.ne_none_iff_exists'.1 hsome
          have he := Text.eq_append_of_after? hr
          have hpre : ending <+: (d :: (body ++ ['-', '-'])) ++ '>' :: rest := by
            refine ⟨r, he.symm.trans ?_⟩
            simp [ending]
          have hshort : ending <+: d :: (body ++ ['-', '-']) :=
            List.prefix_of_prefix_length_le hpre (List.prefix_append _ _) (by simp [ending])
          exact h hshort.isInfix
        rw [List.cons_append, Text.cut?, hnone, ih fun hin => h (hin.trans (List.infix_cons_iff.2
          (.inr (List.infix_rfl))))]
        rfl
    simp [read, print, hcut]

theorem readsBack_of_not_mem {body : Text} (h : '>' ∉ body) : ReadsBack ⟨body⟩ := by
  refine readsBack_iff.2 fun hin => ?_
  have hmem : '>' ∈ body ++ ['-', '-'] := hin.subset (by simp [ending])
  simp [h] at hmem

theorem read_isSome (body rest : Text) : (read (opening ++ (body ++ ending ++ rest))).isSome := by
  obtain ⟨⟨b, r⟩, hcut⟩ := Option.isSome_iff_exists.1 (Text.cut?_isSome_append ending body rest)
  simp [read, hcut, -List.append_assoc]

/-! ## Markers -/

/-- What stands between the opening and the digits of a marker. -/
def label : Text := markerStem.drop opening.length

def IsMarker (c : Comment) : Prop :=
  ∃ digits : Text, digits ≠ [] ∧ (∀ d ∈ digits, Text.isDigit d = true) ∧ c.body = label ++ digits

def digits (c : Comment) : Text := c.body.drop label.length

theorem digits_of_body {c : Comment} {digits : Text} (h : c.body = label ++ digits) :
    c.digits = digits := by
  rw [Comment.digits, h, List.drop_left]

theorem IsMarker.print_eq {c : Comment} (h : c.IsMarker) : c.print = printMarker c.digits := by
  obtain ⟨digits, -, -, hbody⟩ := h
  rw [digits_of_body hbody, print, hbody]
  rfl

theorem IsMarker.isDigit {c : Comment} (h : c.IsMarker) :
    ∀ d ∈ c.digits, Text.isDigit d = true := by
  obtain ⟨digits, -, hdigits, hbody⟩ := h
  rwa [digits_of_body hbody]

theorem IsMarker.readMarker {c : Comment} (h : c.IsMarker) (rest : Text) :
    readMarker (c.print ++ rest) = some (c.digits, rest) := by
  obtain ⟨digits, hne, hdigits, hbody⟩ := h
  rw [IsMarker.print_eq ⟨digits, hne, hdigits, hbody⟩, digits_of_body hbody]
  have htake : (digits ++ (ending ++ rest)).takeWhile Text.isDigit = digits := by
    rw [List.takeWhile_append_of_pos hdigits]
    simp [ending, show Text.isDigit '-' = false by decide]
  have hdrop : (digits ++ (ending ++ rest)).dropWhile Text.isDigit = ending ++ rest := by
    rw [List.dropWhile_append_of_pos hdigits]
    simp [ending, show Text.isDigit '-' = false by decide]
  have hrun : Text.readRun Text.isDigit (digits ++ (ending ++ rest)) =
      some (digits, ending ++ rest) := by
    rw [Text.readRun, htake, hdrop]
    split
    · exact absurd rfl hne
    · rfl
  simp [Comment.readMarker, printMarker, hrun]

theorem IsMarker.not_mem_body {c : Comment} (h : c.IsMarker) :
    ∀ e ∈ c.body, e ≠ '<' ∧ e ≠ '>' ∧ e ≠ '\x7b' ∧ e ≠ '*' := by
  obtain ⟨digits, -, hdigits, hbody⟩ := h
  rw [hbody]
  intro e he
  rcases List.mem_append.1 he with hlabel | hdigit
  · have hall : ∀ e ∈ label, e ≠ '<' ∧ e ≠ '>' ∧ e ≠ '\x7b' ∧ e ≠ '*' := by
      simp [label, markerStem, opening]
    exact hall e hlabel
  · have := hdigits e hdigit
    refine ⟨?_, ?_, ?_, ?_⟩ <;> rintro rfl <;> revert this <;> decide

theorem IsMarker.readsBack {c : Comment} (h : c.IsMarker) : c.ReadsBack :=
  readsBack_of_not_mem fun hc => (h.not_mem_body '>' hc).2.1 rfl

theorem isMarker_of_readMarker {t digits rest : Text} (h : readMarker t = some (digits, rest)) :
    IsMarker ⟨label ++ digits⟩ := by
  simp only [Comment.readMarker, Option.bind_eq_bind, Option.bind_eq_some_iff] at h
  obtain ⟨t₁, h₁, ⟨digits', t₂⟩, h₂, t₃, h₃, he⟩ := h
  obtain ⟨rfl, rfl⟩ := Prod.mk.inj (Option.some.inj he)
  exact ⟨digits', (Text.eq_append_of_readRun h₂).2, Text.forall_mem_of_readRun h₂, rfl⟩

theorem print_label (digits : Text) : print ⟨label ++ digits⟩ = printMarker digits := by
  simp [print, printMarker, markerStem, label]

theorem read_isSome_of_readMarker {t digits rest : Text} (h : readMarker t = some (digits, rest)) :
    (read t).isSome := by
  rw [eq_append_of_readMarker h, printMarker]
  have := read_isSome (label ++ digits) rest
  simpa [markerStem, label] using this

/-! ## Other comments in the place of comments -/

theorem eq_char_cons_of_fill {α : Type} {f : α → Text} (hf : ∀ a, (f a).head? = some '<')
    {ps : List (Piece α)} {c : Char} {t : Text} (hc : c ≠ '<') (h : fill f ps = c :: t) :
    ∃ qs, ps = .char c :: qs ∧ fill f qs = t := by
  cases ps with
  | nil => simp at h
  | cons piece ps =>
    cases piece with
    | char d =>
      obtain ⟨rfl, rfl⟩ := List.cons.inj h
      exact ⟨ps, rfl, rfl⟩
    | lexeme a =>
      have hhead := congrArg List.head? h
      rw [Text.fill_hole, List.head?_append, hf a] at hhead
      simp at hhead
      exact absurd hhead.symm hc

theorem eq_of_after?_opening {α : Type} {f : α → Text} (hf : ∀ a, (f a).head? = some '<')
    {ps : List (Piece α)} (h : (Text.after? opening ('<' :: fill f ps)).isSome) :
    ∃ qs, ps = .char '!' :: .char '-' :: .char '-' :: qs := by
  obtain ⟨t, ht⟩ := Option.isSome_iff_exists.1 h
  have he := Text.eq_append_of_after? ht
  simp only [opening, List.cons_append, List.nil_append, List.cons.injEq, true_and] at he
  obtain ⟨ps₁, h₁, he⟩ := eq_char_cons_of_fill hf (by decide) he
  obtain ⟨ps₂, h₂, he⟩ := eq_char_cons_of_fill hf (by decide) he
  obtain ⟨ps₃, h₃, -⟩ := eq_char_cons_of_fill hf (by decide) he
  exact ⟨ps₃, by rw [h₁, h₂, h₃]⟩

/-- Where no comment begins, none begins after the later comments have been exchanged: either there
are no later comments, or one of them ends, so that an opening was missing. -/
theorem read_cons_fill {α : Type} {f g : α → Comment} {ps : List (Piece α)} {c : Char}
    (hread : read (c :: fill (fun a => (f a).print) ps) = none) :
    read (c :: fill (fun a => (g a).print) ps) = none := by
  by_cases hc : c = '<'
  · subst hc
    by_cases hps : ∃ a, .lexeme a ∈ ps
    · by_contra hsome
      have hopen : (Text.after? opening ('<' :: fill (fun a => (g a).print) ps)).isSome := by
        by_contra hn
        rw [Option.not_isSome_iff_eq_none] at hn
        exact hsome (by rw [read, hn]; rfl)
      obtain ⟨qs, rfl⟩ := eq_of_after?_opening (fun a => rfl) hopen
      obtain ⟨a, ha⟩ := hps
      simp only [List.mem_cons, reduceCtorEq, false_or] at ha
      obtain ⟨xs, rs, rfl⟩ := List.append_of_mem ha
      have hend := read_isSome (fill (fun a => (f a).print) xs ++ opening ++ (f a).body)
        (fill (fun a => (f a).print) rs)
      simp [opening, print] at hend hread
      simp [hread] at hend
    · have hchars : ∀ a, .lexeme a ∉ ps := fun a ha => hps ⟨a, ha⟩
      rwa [Text.fill_congr (g := fun a => (f a).print) fun a ha => absurd ha (hchars a)]
  · exact pattern_opensWith.read_cons (by simpa using hc) _

/-- A text with comments in its holes, where a scan finds just these comments. -/
def Finds {α : Type} (f : α → Comment) (ps : List (Piece α)) : Prop :=
  pattern.pieces (fill (fun a => (f a).print) ps) = ps.map (Piece.map f)

theorem finds_pieces (t : Text) : Finds id (pattern.pieces t) := by
  have hprint : fill (fun c : Comment => (id c).print) (pattern.pieces t) = t := pattern.print_pieces t
  rw [Finds, hprint]
  refine (List.map_id'' (fun piece => ?_) _).symm
  cases piece <;> rfl

namespace Finds

variable {α : Type} {f : α → Comment} {ps : List (Piece α)}

theorem of_char {c : Char} (h : Finds f (.char c :: ps)) :
    read (c :: fill (fun a => (f a).print) ps) = none ∧ Finds f ps := by
  have hread : read (c :: fill (fun a => (f a).print) ps) = none := by
    by_contra hsome
    obtain ⟨⟨a, rest⟩, hsome⟩ := Option.ne_none_iff_exists'.1 hsome
    rw [Finds, Text.fill_char, pattern.pieces_of_read hsome] at h
    simp [Piece.map] at h
  rw [Finds, Text.fill_char, pattern.pieces_cons_of_read_none hread] at h
  exact ⟨hread, (List.cons.inj h).2⟩

theorem of_lexeme {a : α} (h : Finds f (.lexeme a :: ps)) : Finds f ps := by
  rw [Finds, Text.fill_hole] at h
  cases hread : read ((f a).print ++ fill (fun a => (f a).print) ps) with
  | none =>
    have hcons : (f a).print ++ fill (fun a => (f a).print) ps =
        '<' :: (['!', '-', '-'] ++ (f a).body ++ ending ++ fill (fun a => (f a).print) ps) := by
      simp [print, opening]
    rw [hcons] at h hread
    rw [pattern.pieces_cons_of_read_none hread] at h
    simp [Piece.map] at h
  | some found =>
    have happend := eq_append_of_read hread
    rw [pattern.pieces_of_read hread] at h
    obtain ⟨hcomment, hrest⟩ := List.cons.inj h
    rw [Piece.lexeme.inj hcomment, List.append_cancel_left_eq] at happend
    rw [Finds, happend]
    exact hrest

/-- Comments that are read as they are printed may stand in the place of the comments that are found. -/
theorem exchange (h : Finds f ps) {g : α → Comment} (hg : ∀ a, .lexeme a ∈ ps → (g a).ReadsBack) :
    Finds g ps := by
  induction ps with
  | nil => exact pattern.pieces_nil
  | cons piece ps ih =>
    have hrest : Finds f ps → Finds g ps := fun h => ih h fun a ha => hg a (List.mem_cons_of_mem _ ha)
    cases piece with
    | char c =>
      obtain ⟨hread, hps⟩ := h.of_char
      rw [Finds, Text.fill_char, pattern.pieces_cons_of_read_none (read_cons_fill hread), hrest hps]
      rfl
    | lexeme a =>
      rw [Finds, Text.fill_hole, pattern.pieces_of_read (hg a (by simp) _), hrest h.of_lexeme]
      rfl

end Finds

end HtmlTemplate.Comment
