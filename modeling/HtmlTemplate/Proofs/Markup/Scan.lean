import HtmlTemplate.Proofs.Markup.Holes
import HtmlTemplate.Proofs.Text.Basic
import Mathlib

/-!
# Tags that are read as they are printed

A tag that was read is read again wherever it is printed (`Tag.Proper`), and a `<` that some characters
keep from beginning a tag (`Markup.Stops`) begins none whatever follows them.
-/

namespace HtmlTemplate

namespace Tag

/-- The name of a tag ends where its body begins, and its body ends at the first `>`. -/
structure Proper (tag : Tag) : Prop where
  name : isName tag.name = true
  boundary : tag.body.head?.any Text.isWord = false
  bracket : '>' ∉ tag.body

def lead (tag : Tag) : Text := '<' :: ((if tag.closing then ['/'] else []) ++ tag.name)

theorem print_eq (tag : Tag) : tag.print = tag.lead ++ tag.body ++ ['>'] := by
  simp [print, lead]

theorem Proper.not_mem_front {tag : Tag} (h : tag.Proper) : '>' ∉ tag.lead ++ tag.body := by
  have hname : '>' ∉ tag.name := fun hmem => absurd (isAlphanum_of_isName h.name _ hmem) (by decide)
  cases hclosing : tag.closing <;> simp [lead, hclosing, hname, h.bracket]

theorem ascii_of_isAlphanum {c : Char} (h : c.isAlphanum = true) : c.toNat < 0x80 := by
  simp only [Char.isAlphanum, Char.isAlpha, Char.isUpper, Char.isLower, Char.isDigit,
    Bool.or_eq_true, Bool.and_eq_true, decide_eq_true_eq, UInt32.le_iff_toNat_le,
    ge_iff_le] at h
  change c.val.toNat < 128
  rcases h with (⟨-, h⟩ | ⟨-, h⟩) | ⟨-, h⟩
  · exact lt_of_le_of_lt h (by decide)
  · exact lt_of_le_of_lt h (by decide)
  · exact lt_of_le_of_lt h (by decide)

theorem isWord_of_isAlphanum {c : Char} (h : c.isAlphanum = true) : Text.isWord c = true := by
  rw [Text.isWord_of_ascii (ascii_of_isAlphanum h), h, Bool.true_or]

theorem isAlphanum_of_isAlpha {c : Char} (h : c.isAlpha = true) : c.isAlphanum = true := by
  rw [Char.isAlphanum, h, Bool.true_or]

theorem readFromName_append (closing : Bool) {name body : Text} (hname : isName name = true)
    (hboundary : body.head?.any Text.isWord = false) (hbracket : '>' ∉ body) (t : Text) :
    readFromName closing (name ++ (body ++ '>' :: t)) = some (⟨closing, name, body⟩, t) := by
  simp only [isName, Bool.and_eq_true, List.all_eq_true] at hname
  have hbody : ∀ c ∈ body, (c != '>') = true := fun c hc => by
    simpa using fun he : c = '>' => hbracket (he ▸ hc)
  have hword : (body ++ '>' :: t).head?.any Text.isWord = false := by
    cases body with
    | nil => show (some (Char.ofNat 62)).any Text.isWord = false; decide
    | cons c body => simpa using hboundary
  have hrun : (body ++ '>' :: t).takeWhile Char.isAlphanum = [] ∧
      (body ++ '>' :: t).dropWhile Char.isAlphanum = body ++ '>' :: t := by
    cases hb : body ++ '>' :: t with
    | nil => simp at hb
    | cons c rest =>
      rw [hb] at hword
      have hc : c.isAlphanum = false := by
        by_contra hne
        rw [Bool.not_eq_false] at hne
        simp [isWord_of_isAlphanum hne] at hword
      simp [hc]
  unfold readFromName
  rw [List.takeWhile_append_of_pos hname.2, List.dropWhile_append_of_pos hname.2, hrun.1, hrun.2,
    List.append_nil]
  simp only [hname.1, hword, Bool.not_false, Bool.and_self, if_true]
  rw [List.dropWhile_append_of_pos hbody, List.takeWhile_append_of_pos hbody]
  simp

theorem read_of_head_ne {t : Text} (h : t.head? ≠ some '/') : read ('<' :: t) = readFromName false t := by
  unfold read
  split
  · next he => simp [(List.cons.inj he).2] at h
  · next he => rw [(List.cons.inj he).2]
  · next hne => exact absurd rfl (hne t)

theorem Proper.read_print {tag : Tag} (h : tag.Proper) (t : Text) :
    read (tag.print ++ t) = some (tag, t) := by
  obtain ⟨closing, name, body⟩ := tag
  have hread := readFromName_append closing h.name h.boundary h.bracket t
  cases closing with
  | true => simpa [print, read] using hread
  | false =>
    obtain ⟨c, rest, rfl⟩ : ∃ c rest, name = c :: rest := by
      cases name with
      | nil => simpa [isName] using h.name
      | cons c rest => exact ⟨c, rest, rfl⟩
    have hc : c ≠ '/' := by
      rintro rfl
      have := h.name
      simp [isName] at this
    have hskip : read ('<' :: c :: (rest ++ (body ++ '>' :: t))) =
        readFromName false (c :: (rest ++ (body ++ '>' :: t))) := read_of_head_ne (by simpa using hc)
    simpa [print, hskip] using hread

theorem proper_of_readFromName {closing : Bool} {t rest : Text} {tag : Tag}
    (h : readFromName closing t = some (tag, rest)) : tag.Proper := by
  unfold readFromName at h
  dsimp only at h
  split at h
  · next hif =>
    simp only [Bool.and_eq_true, Bool.not_eq_true'] at hif
    split at h
    · obtain ⟨rfl, -⟩ := Prod.mk.inj (Option.some.inj h)
      refine ⟨?_, ?_, fun hmem => ?_⟩
      · simp only [isName, hif.1, Bool.true_and, List.all_eq_true]
        exact fun c => List.mem_takeWhile_imp
      · cases hd : t.dropWhile Char.isAlphanum with
        | nil => rfl
        | cons c rest =>
          have hword := hif.2
          rw [hd] at hword
          by_cases hc : c = '>'
          · simp [hc]
          · simpa [List.takeWhile_cons, hc] using hword
      · simpa using List.mem_takeWhile_imp hmem
    · simp at h
  · simp at h

theorem proper_of_read {t rest : Text} {tag : Tag} (h : read t = some (tag, rest)) : tag.Proper := by
  unfold read at h
  split at h
  · exact proper_of_readFromName h
  · exact proper_of_readFromName h
  · simp at h

/-! ## Tails without tags -/

theorem readFromName_append_cons (closing : Bool) {s : Text} (hs : '>' ∉ s) (t : Text) :
    readFromName closing (s ++ '>' :: t) =
      if (s.takeWhile Char.isAlphanum).head?.any Char.isAlpha &&
          !(s.dropWhile Char.isAlphanum).head?.any Text.isWord then
        some (⟨closing, s.takeWhile Char.isAlphanum, s.dropWhile Char.isAlphanum⟩, t)
      else none := by
  have hbody : ∀ c ∈ s.dropWhile Char.isAlphanum, (c != '>') = true := fun c hc => by
    simpa using fun he : c = '>' => hs (he ▸ (List.dropWhile_sublist _).subset hc)
  have hword : ((s.dropWhile Char.isAlphanum ++ '>' :: t).head?.any Text.isWord) =
      (s.dropWhile Char.isAlphanum).head?.any Text.isWord := by
    cases s.dropWhile Char.isAlphanum with
    | nil => show (some (Char.ofNat 62)).any Text.isWord = false; decide
    | cons c r => rfl
  unfold readFromName
  rw [Text.takeWhile_append_cons (by decide), Text.dropWhile_append_cons (by decide)]
  dsimp only
  rw [hword, List.dropWhile_append_of_pos hbody, List.takeWhile_append_of_pos hbody]
  simp

theorem read_eq_none_of_not_mem {t : Text} (h : '>' ∉ t) : read t = none := by
  by_contra hne
  obtain ⟨⟨tag, rest⟩, hread⟩ := Option.ne_none_iff_exists'.1 hne
  rw [eq_append_of_read hread] at h
  simp [print] at h

/-- What follows the last `>` of a text does not matter for the tags in it. -/
theorem read_append_of_not_mem {tail : Text} (htail : '>' ∉ tail) (s : Text) :
    read (s ++ tail) = (read s).map fun (tag, rest) => (tag, rest ++ tail) := by
  by_cases hmem : '>' ∈ s
  · obtain ⟨u, v, rfl, hu⟩ := List.eq_append_cons_of_mem hmem
    have hname : ∀ (closing : Bool) {w : Text}, '>' ∉ w →
        readFromName closing (w ++ '>' :: (v ++ tail)) =
          (readFromName closing (w ++ '>' :: v)).map fun (tag, rest) => (tag, rest ++ tail) := by
      intro closing w hw
      rw [readFromName_append_cons closing hw, readFromName_append_cons closing hw]
      split <;> rfl
    rw [List.append_assoc, List.cons_append]
    cases u with
    | nil => rfl
    | cons c u =>
      rw [List.mem_cons, not_or] at hu
      by_cases hc : c = '<'
      · subst hc
        by_cases hslash : ∃ r, u = '/' :: r
        · obtain ⟨r, rfl⟩ := hslash
          exact hname true (by simpa using hu.2)
        · have hskip : ∀ r : Text, read ('<' :: (u ++ '>' :: r)) = readFromName false (u ++ '>' :: r) := by
            refine fun r => read_of_head_ne fun hhead => hslash ?_
            cases u with
            | nil => simp at hhead
            | cons c r => exact ⟨r, by simpa using hhead⟩
          rw [List.cons_append, List.cons_append, hskip, hskip]
          exact hname false hu.2
      · rw [List.cons_append, List.cons_append, read_cons_of_ne _ hc, read_cons_of_ne _ hc]
        rfl
  · have hmem' : '>' ∉ s ++ tail := by simp [hmem, htail]
    rw [read_eq_none_of_not_mem hmem, read_eq_none_of_not_mem hmem']
    rfl

end Tag

theorem Markup.proper_of_mem_tags {t : Text} {tag : Tag} (h : tag ∈ (ofText t).tags) : tag.Proper := by
  obtain ⟨piece, hpiece, hlexeme⟩ := List.mem_filterMap.1 h
  cases piece with
  | char c => simp [Piece.lexeme?] at hlexeme
  | lexeme tag' =>
    obtain rfl := Option.some.inj hlexeme
    obtain ⟨u, rest, hread⟩ := Tag.pattern.exists_read_of_mem_pieces hpiece
    exact Tag.proper_of_read hread

theorem Markup.ofText_append_of_not_mem_end {tail : Text} (htail : '>' ∉ tail) (s : Text) :
    ofText (s ++ tail) = ofText s ++ tail.map .char := by
  have hnone : ∀ t : Text, '>' ∉ t → ofText t = t.map .char := by
    intro t ht
    induction t with
    | nil => exact ofText_nil
    | cons c t ih =>
      rw [ofText_cons_of_read_none (Tag.read_eq_none_of_not_mem ht),
        ih fun hmem => ht (List.mem_cons_of_mem _ hmem)]
      rfl
  induction hn : s.length using Nat.strong_induction_on generalizing s with
  | _ n ih =>
    cases hread : Tag.read s with
    | some found =>
      obtain ⟨tag, rest⟩ := found
      have hread' : Tag.read (s ++ tail) = some (tag, rest ++ tail) := by
        rw [Tag.read_append_of_not_mem htail, hread]
        rfl
      rw [ofText_of_read hread, ofText_of_read hread', ih _ (hn ▸ Tag.pattern.length_lt hread) rest rfl]
      rfl
    | none =>
      cases s with
      | nil => rw [List.nil_append, ofText_nil, hnone tail htail, List.nil_append]
      | cons c s =>
        have hread' : Tag.read (c :: (s ++ tail)) = none := by
          have := Tag.read_append_of_not_mem htail (c :: s)
          rwa [hread] at this
        rw [List.cons_append, ofText_cons_of_read_none hread, ofText_cons_of_read_none hread',
          ih s.length (by simp [← hn]) s rfl]
        rfl

end HtmlTemplate
