import HtmlTemplate.Markup.Balance
import HtmlTemplate.Proofs.Comment.Basic
import HtmlTemplate.Proofs.Markup.Shape

/-!
# Markers that differ in their digits

Markers are no tags, and their digits are far from all that begins or ends a tag. So guarding a text
whose comments are markers leaves its markup as `Markup.check` sees it (`Comment.check_extract`).
-/

namespace HtmlTemplate.Comment

open Text (fill)

/-- Pieces whose lexemes have numbers, counted from `n` on. -/
def numbered {α : Type} (n : Nat) : List (Piece α) → List (Piece (α × Nat))
  | [] => []
  | .char c :: ps => .char c :: numbered n ps
  | .lexeme a :: ps => .lexeme (a, n) :: numbered (n + 1) ps

theorem fill_numbered {α : Type} (f : α → Text) (n : Nat) (ps : List (Piece α)) :
    fill (fun a => f a.1) (numbered n ps) = fill f ps := by
  induction ps generalizing n with
  | nil => rfl
  | cons piece ps ih => cases piece <;> simp [numbered, ih]

theorem mem_of_mem_numbered {α : Type} {a : α × Nat} {n : Nat} {ps : List (Piece α)}
    (h : .lexeme a ∈ numbered n ps) : .lexeme a.1 ∈ ps := by
  induction ps generalizing n with
  | nil => simp [numbered] at h
  | cons piece ps ih =>
    cases piece with
    | char c => simpa using ih (by simpa [numbered] using h)
    | lexeme b =>
      rcases List.mem_cons.1 h with he | hmem
      · simp [Piece.lexeme.inj he]
      · exact List.mem_cons_of_mem _ (ih hmem)

theorem numbered_map {α β : Type} (f : α → β) (n : Nat) (ps : List (Piece α)) :
    fill (fun a => marker a.2) (numbered n (ps.map (Piece.map f))) =
      fill (fun a => marker a.2) (numbered n ps) := by
  induction ps generalizing n with
  | nil => rfl
  | cons piece ps ih => cases piece <;> simp [numbered, Piece.map, ih]

theorem isDigit_of_mem_numeral {n : Nat} {c : Char} (h : c ∈ Text.numeral n) :
    Text.isDigit c = true := by
  have hdigit : c.isDigit = true := Nat.isDigit_of_mem_toDigits (by decide) (by decide) h
  have hascii : c.toNat < 0x80 := by
    have hnine : c.toNat ≤ 57 := (Char.isDigit_iff_toNat.1 hdigit).2
    omega
  rw [Text.isDigit, if_pos hascii, hdigit]

theorem guardPieces_fst (table : Table) (ps : List (Piece Comment)) :
    (Table.guardPieces ps table).1 = fill (fun a => marker a.2) (numbered table.length ps) := by
  induction ps generalizing table with
  | nil => rfl
  | cons piece ps ih => cases piece <;> simp [Table.guardPieces, numbered, ih]

theorem Table.guardPieces_snd (ps : List (Piece Comment)) (table : Table) :
    (Table.guardPieces ps table).2 = table ++ ps.filterMap Piece.lexeme? := by
  induction ps generalizing table with
  | nil => simp [Table.guardPieces]
  | cons piece ps ih => cases piece <;> simp [Table.guardPieces, ih, List.filterMap_cons, Piece.lexeme?]

/-- Markers opened up, so that only their digits are holes. -/
def digitHoles {α : Type} : List (Piece α) → List (Piece α)
  | [] => []
  | .char c :: ps => .char c :: digitHoles ps
  | .lexeme a :: ps => markerStem.map .char ++ .lexeme a :: (ending.map .char ++ digitHoles ps)

theorem fill_digitHoles {α : Type} (f : α → Text) (ps : List (Piece α)) :
    fill f (digitHoles ps) = fill (fun a => printMarker (f a)) ps := by
  induction ps with
  | nil => rfl
  | cons piece ps ih =>
    cases piece with
    | char c => simp [digitHoles, ih]
    | lexeme a => simp [digitHoles, printMarker, ih]

theorem mem_digitHoles {α : Type} {a : α} {ps : List (Piece α)} :
    .lexeme a ∈ digitHoles ps ↔ .lexeme a ∈ ps := by
  induction ps with
  | nil => rfl
  | cons piece ps ih => cases piece <;> simp [digitHoles, ih]

theorem eq_append_of_map_char_append {α : Type} {s : Text} {ps front back : List (Piece α)} {a : α}
    (h : s.map .char ++ ps = front ++ .lexeme a :: back) :
    ∃ front', front = s.map .char ++ front' ∧ ps = front' ++ .lexeme a :: back := by
  induction s generalizing front with
  | nil => exact ⟨front, rfl, h⟩
  | cons c s ih =>
    cases front with
    | nil => simp at h
    | cons piece front =>
      obtain ⟨rfl, hrest⟩ := List.cons.inj h
      obtain ⟨front', rfl, rfl⟩ := ih hrest
      exact ⟨front', rfl, rfl⟩

theorem digitHoles_between {α : Type} {ps front back : List (Piece α)} {a : α}
    (h : digitHoles ps = front ++ .lexeme a :: back) :
    front.getLast? = some (.char ':') ∧ back.head? = some (.char '-') := by
  induction ps generalizing front with
  | nil => simp [digitHoles] at h
  | cons piece ps ih =>
    cases piece with
    | char c =>
      obtain ⟨front, rfl, h₁⟩ := eq_append_of_map_char_append (s := [c]) h
      obtain ⟨hlast, hhead⟩ := ih h₁
      exact ⟨by rw [List.getLast?_append, hlast, Option.some_or], hhead⟩
    | lexeme b =>
      obtain ⟨front, rfl, h₁⟩ := eq_append_of_map_char_append h
      cases front with
      | nil =>
        obtain ⟨-, rfl⟩ := List.cons.inj h₁
        exact ⟨rfl, rfl⟩
      | cons piece front =>
        obtain ⟨-, h₂⟩ := List.cons.inj h₁
        obtain ⟨front, rfl, h₃⟩ := eq_append_of_map_char_append h₂
        obtain ⟨hlast, hhead⟩ := ih h₃
        refine ⟨?_, hhead⟩
        rw [List.getLast?_append, List.getLast?_cons, List.getLast?_append, hlast]
        rfl

theorem isLead_eq_false_of_getLast? {lead : Text} (h : lead.getLast? = some ':') :
    Tag.isLead lead = false := by
  have hname : ∀ name : Text, name.getLast? = some ':' → Tag.isName name = false := by
    intro name hlast
    have hcolon := List.mem_of_getLast? hlast
    by_contra hn
    simp only [Tag.isName, Bool.not_eq_false, Bool.and_eq_true, List.all_eq_true] at hn
    exact absurd (hn.2 ':' hcolon) (by decide)
  unfold Tag.isLead
  split
  · next name =>
    cases name with
    | nil => simp at h
    | cons c name => simpa using hname (c :: name) (by simpa [List.getLast?_cons] using h)
  · next name _ =>
    cases name with
    | nil => simp at h
    | cons c name => simpa using hname (c :: name) (by simpa [List.getLast?_cons] using h)
  · rfl

theorem find?_isSolid_printMarker {α : Type} (f g : α → Text) (ps : List (Piece α)) :
    (fill (fun a => printMarker (f a)) ps).find? Text.isSolid =
        (fill (fun a => printMarker (g a)) ps).find? Text.isSolid ∧
      (fill (fun a => printMarker (f a)) ps).reverse.find? Text.isSolid =
        (fill (fun a => printMarker (g a)) ps).reverse.find? Text.isSolid := by
  constructor
  · induction ps with
    | nil => rfl
    | cons piece ps ih =>
      cases piece with
      | char c => simp [List.find?_cons, ih]
      | lexeme a => rfl
  · induction ps using List.reverseRecOn with
    | nil => rfl
    | append_singleton ps piece ih =>
      cases piece with
      | char c => simp [List.find?_cons, ih]
      | lexeme a =>
        simp [printMarker, ending, Text.isSolid,
          show Text.isBlank '>' = false by decide]

/-- Markers with other digits neither come from tags nor belong to the shape of one. -/
theorem check_fill_printMarker {α : Type} {f g : α → Text} {ps : List (Piece α)}
    (hf : ∀ a, .lexeme a ∈ ps → ∀ c ∈ f a, Text.isDigit c = true)
    (hg : ∀ a, .lexeme a ∈ ps → ∀ c ∈ g a, Text.isDigit c = true) :
    Markup.check (fill (fun a => printMarker (f a)) ps) =
      Markup.check (fill (fun a => printMarker (g a)) ps) := by
  have hmem : ∀ a, .lexeme a ∈ digitHoles ps → .lexeme a ∈ ps := by
    intro a ha
    rwa [mem_digitHoles] at ha
  have hplain : ∀ t : Text, (∀ c ∈ t, Text.isDigit c = true) → '<' ∉ t ∧ '>' ∉ t := fun t ht =>
    ⟨fun h => absurd (ht _ h) (by decide), fun h => absurd (ht _ h) (by decide)⟩
  apply Markup.check_eq_of_shapes_eq
  · rw [← fill_digitHoles f, ← fill_digitHoles g]
    apply Markup.shapes_fill
    · exact fun a ha => hplain _ (hf a (hmem a ha))
    · exact fun a ha => hplain _ (hg a (hmem a ha))
    · intro front lead a back he
      obtain ⟨hlast, -⟩ := digitHoles_between he
      cases lead using List.reverseRecOn with
      | nil => rfl
      | append_singleton lead c =>
        apply isLead_eq_false_of_getLast?
        simpa using hlast
    · rintro a ⟨front, back, he⟩
      have hsplit : digitHoles ps = front ++ .lexeme a :: (.char '>' :: back) := by simp [← he]
      obtain ⟨-, hhead⟩ := digitHoles_between hsplit
      simp at hhead
  · obtain ⟨hfirst, hlast⟩ := find?_isSolid_printMarker f g ps
    rw [Markup.delimited_eq, Markup.delimited_eq, hfirst, hlast]

/-! ## Guarding a text whose comments are markers -/

theorem extract_fst (t : Text) :
    (extract t).1 = fill (fun a => marker a.2) (numbered 0 (pattern.pieces t)) :=
  guardPieces_fst [] _

/-- Guarding a text whose comments are markers leaves its markup as it was. -/
theorem check_extract {html : Text} (hmarkers : ∀ c, .lexeme c ∈ pattern.pieces html → c.IsMarker) :
    Markup.check (extract html).1 = Markup.check html := by
  have hhtml : fill (fun a => printMarker a.1.digits) (numbered 0 (pattern.pieces html)) = html := by
    rw [fill_numbered fun c : Comment => printMarker c.digits]
    conv => rhs; rw [← pattern.print_pieces html]
    exact Text.fill_congr fun c hc => (hmarkers c hc).print_eq.symm
  rw [extract_fst]
  conv => rhs; rw [← hhtml]
  apply check_fill_printMarker
  · intro a _ c hc
    exact isDigit_of_mem_numeral hc
  · intro a ha c hc
    exact (hmarkers a.1 (mem_of_mem_numbered ha)).isDigit c hc

end HtmlTemplate.Comment
