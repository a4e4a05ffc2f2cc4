import HtmlTemplate.Proofs.Markup.Sealed
import Mathlib

/-!
# Rewriting markup

Retargeting and interpolation rewrite a whole text without regard to its tags. Where they work between
angle brackets only (`Text.Local`), they rewrite the characters between the tags and the bodies of the
tags (`Markup.pass`), and markup stays sealed (`Markup.sealed_pass`).
-/

namespace HtmlTemplate

/-- A rewriting of texts that takes the parts between angle brackets one by one, leaves the names of
tags alone, and leaves the first character of a part alone if it is one of `C`. -/
structure Text.Local (C : Char → Prop) (g : Text → Text) : Prop where
  nil : g [] = []
  opening : ∀ s t, g (s ++ '<' :: t) = g s ++ '<' :: g t
  closing : ∀ s t, g (s ++ '>' :: t) = g s ++ '>' :: g t
  not_mem : ∀ t, '<' ∉ t → '<' ∉ g t
  plain : ∀ w t, (∀ c ∈ w, c = '/' ∨ c.isAlphanum = true) → g (w ++ t) = w ++ g t
  head : ∀ x t, C x → (g (x :: t)).head? = some x

variable {C : Char → Prop}

theorem Text.Local.exists_cons {g : Text → Text} (hg : Local C g) {x : Char} (hx : C x) (t : Text) :
    ∃ r, g (x :: t) = x :: r := by
  have hhead := hg.head x t hx
  cases hgx : g (x :: t) with
  | nil => simp [hgx] at hhead
  | cons y r =>
    rw [hgx] at hhead
    exact ⟨r, by rw [Option.some.inj hhead]⟩

theorem Text.Local.comp {g h : Text → Text} (hg : Local C g) (hh : Local C h) :
    Local C fun t => h (g t) where
  nil := by rw [hg.nil, hh.nil]
  opening s t := by rw [hg.opening, hh.opening]
  closing s t := by rw [hg.closing, hh.closing]
  not_mem t ht := hh.not_mem _ (hg.not_mem t ht)
  plain w t hw := by rw [hg.plain w t hw, hh.plain w _ hw]
  head x t hx := by
    obtain ⟨r, hr⟩ := hg.exists_cons hx t
    rw [hr, hh.head x r hx]

theorem Pattern.local_replace {α : Type} {p : Pattern α} {f : α → Text}
    (hopening : Text.StopsAt '<' p.read) (hclosing : Text.StopsAt '>' p.read)
    (hfirst : p.OpensWith fun c => c == '\x7b' || c == '*')
    (hfresh : ∀ {t a rest}, p.read t = some (a, rest) → '<' ∉ f a)
    (hhead : ∀ {t a rest x}, p.read t = some (a, rest) → (p.print a).head? = some x → C x →
      (f a).head? = some x) :
    Text.Local C (p.replace f) where
  nil := by simp [replace]
  opening := p.replace_append_of_stopsAt hopening f
  closing := p.replace_append_of_stopsAt hclosing f
  not_mem t ht hmem := by
    obtain ⟨piece, hpiece, hmem'⟩ := List.mem_flatMap.1 hmem
    cases piece with
    | char c =>
      obtain rfl : '<' = c := by simpa [Piece.print] using hmem'
      have := p.print_pieces t
      apply ht
      rw [← this]
      exact List.mem_flatMap.2 ⟨.char '<', hpiece, by simp [Piece.print]⟩
    | lexeme a =>
      obtain ⟨u, rest, hread⟩ := p.exists_read_of_mem_pieces hpiece
      exact hfresh hread hmem'
  plain w t hw := by
    refine hfirst.replace_append f (fun c hc => ?_) t
    rcases hw c hc with rfl | halnum
    · decide
    · by_contra hne
      simp only [Bool.not_eq_false, Bool.or_eq_true, beq_iff_eq] at hne
      rcases hne with rfl | rfl <;> exact absurd halnum (by decide)
  head x t hx := by
    cases hread : p.read (x :: t) with
    | none => simp [replace, p.pieces_cons_of_read_none hread, Piece.print]
    | some found =>
      obtain ⟨a, rest⟩ := found
      have hprint : (p.print a).head? = some x := by
        have happ := p.eq_append hread
        have hne := p.print_ne_nil hread
        cases hp : p.print a with
        | nil => exact absurd hp hne
        | cons y r =>
          rw [hp] at happ
          rw [(List.cons.inj happ).1]
          rfl
      have hf := hhead hread hprint hx
      rw [replace, p.pieces_of_read hread, List.flatMap_cons, Piece.print, List.head?_append, hf]
      rfl

def Tag.mapBody (g : Text → Text) (tag : Tag) : Tag := { tag with body := g tag.body }

@[simp] theorem Tag.closing_mapBody (g : Text → Text) (tag : Tag) :
    (tag.mapBody g).closing = tag.closing := rfl

@[simp] theorem Tag.name_mapBody (g : Text → Text) (tag : Tag) : (tag.mapBody g).name = tag.name := rfl

@[simp] theorem Tag.body_mapBody (g : Text → Text) (tag : Tag) : (tag.mapBody g).body = g tag.body := rfl

namespace Markup

/-- Rewrites the characters between tags and the bodies of tags, after the characters `acc`. -/
def pass (g : Text → Text) (acc : Text) : Markup → Markup
  | [] => (g acc).map .char
  | .char c :: m =>
    if c = '<' then (g acc).map .char ++ .char '<' :: pass g [] m else pass g (acc ++ [c]) m
  | .lexeme tag :: m => (g acc).map .char ++ .lexeme (tag.mapBody g) :: pass g [] m

variable {g : Text → Text} {D D' : Tag → Prop}

@[simp] theorem tags_pass (acc : Text) (m : Markup) :
    (pass g acc m).tags = m.tags.map (Tag.mapBody g) := by
  induction m generalizing acc with
  | nil => simp [pass]
  | cons piece m ih =>
    cases piece with
    | char c =>
      rw [pass, tags_char]
      split
      · simp [ih]
      · exact ih _
    | lexeme tag => simp [pass, ih]

theorem rewrite_print (hg : Text.Local C g) {tag : Tag} (htag : tag.Proper) (s t : Text) :
    g (s ++ (tag.print ++ t)) = g s ++ ((tag.mapBody g).print ++ g t) := by
  have hname : ∀ c ∈ (if tag.closing then ['/'] else []) ++ tag.name, c = '/' ∨ c.isAlphanum = true := by
    intro c hc
    rcases List.mem_append.1 hc with hc | hc
    · split at hc
      · exact .inl (List.mem_singleton.1 hc)
      · simp at hc
    · exact .inr (Tag.isAlphanum_of_isName htag.name c hc)
  have hlead : ∀ r : Text,
      tag.lead ++ r = '<' :: (((if tag.closing then ['/'] else []) ++ tag.name) ++ r) := fun r => by
    rw [Tag.lead, List.cons_append]
  rw [Tag.print_eq, Tag.print_eq (tag.mapBody g), List.append_assoc, List.append_assoc,
    List.singleton_append, hlead, hg.opening, hg.plain _ _ hname, hg.closing]
  show _ = g s ++ (tag.lead ++ g tag.body ++ ['>'] ++ g t)
  simp [hlead]

theorem text_pass (hg : Text.Local C g) {m : Markup} (hm : ∀ tag ∈ m.tags, tag.Proper) (acc : Text) :
    (pass g acc m).text = g (acc ++ m.text) := by
  induction m generalizing acc with
  | nil => simp [pass]
  | cons piece m ih =>
    cases piece with
    | char c =>
      rw [pass]
      split
      · next hc => simp [hc, hg.opening, ih (by simpa using hm)]
      · rw [ih (by simpa using hm), text_char, List.append_assoc, List.singleton_append]
    | lexeme tag =>
      rw [tags_tag, List.forall_mem_cons] at hm
      rw [pass, text_append, text_map_char, text_tag, text_tag, rewrite_print hg hm.1, ih hm.2,
        List.nil_append]

theorem pass_append_of_plain (hg : Text.Local C g) {w : Text}
    (hw : ∀ c ∈ w, c = '/' ∨ c.isAlphanum = true) (acc : Text) (m : Markup) :
    pass g (w ++ acc) m = w.map .char ++ pass g acc m := by
  induction m generalizing acc with
  | nil => simp [pass, hg.plain w acc hw]
  | cons piece m ih =>
    cases piece with
    | char c =>
      rw [pass, pass]
      split
      · simp [hg.plain w acc hw]
      · rw [List.append_assoc]
        exact ih _
    | lexeme tag => simp [pass, hg.plain w acc hw]

theorem pass_map_char {t : Text} (ht : '<' ∉ t) (acc : Text) (m : Markup) :
    pass g acc (t.map .char ++ m) = pass g (acc ++ t) m := by
  induction t generalizing acc with
  | nil => simp
  | cons c t ih =>
    rw [List.mem_cons, not_or] at ht
    rw [List.map_cons, List.cons_append, pass, if_neg fun hc => ht.1 hc.symm, ih ht.2,
      List.append_assoc, List.singleton_append]

theorem exists_pass_cons (hg : Text.Local C g) {x : Char} (hx : C x) (acc : Text) (m : Markup) :
    ∃ n, pass g (x :: acc) m = .char x :: n := by
  induction m generalizing acc with
  | nil =>
    obtain ⟨r, hr⟩ := hg.exists_cons hx acc
    exact ⟨r.map .char, by rw [pass, hr]; rfl⟩
  | cons piece m ih =>
    obtain ⟨r, hr⟩ := hg.exists_cons hx acc
    cases piece with
    | char c =>
      rw [pass]
      split
      · exact ⟨r.map .char ++ .char '<' :: pass g [] m, by rw [hr]; rfl⟩
      · exact ih (acc ++ [c])
    | lexeme tag => exact ⟨r.map .char ++ .lexeme (tag.mapBody g) :: pass g [] m, by rw [pass, hr]; rfl⟩

theorem holds_pass (hg : Text.Local C g) {m : Markup} (h : Holds C D m)
    (hD : ∀ tag ∈ m.tags, D tag → D' (tag.mapBody g)) : Holds C D' (pass g [] m) := by
  obtain ⟨w, x, hblocked, hw, ⟨hx, n, rfl⟩ | ⟨hx, tag, n, rfl, htag⟩⟩ := h
  · have hopen : '<' ∉ w := fun hmem => by
      rcases hw _ hmem with hc | hc <;> exact absurd hc (by decide)
    rw [pass_map_char hopen, List.nil_append, ← List.append_nil w, pass_append_of_plain hg hw]
    by_cases hxopen : x = '<'
    · rw [hxopen, pass, if_pos rfl, hg.nil]
      exact ⟨w, '<', hxopen ▸ hblocked, hw, .inl ⟨hxopen ▸ hx, pass g [] n, rfl⟩⟩
    · obtain ⟨n', hn'⟩ := exists_pass_cons hg hx [] n
      rw [pass, if_neg hxopen, List.nil_append, hn']
      exact ⟨w, x, hblocked, hw, .inl ⟨hx, n', rfl⟩⟩
  · have hopen : '<' ∉ w := fun hmem => by
      rcases hw _ hmem with hc | hc <;> exact absurd hc (by decide)
    rw [pass_map_char hopen, List.nil_append, ← List.append_nil w, pass_append_of_plain hg hw, pass,
      hg.nil]
    exact ⟨w, x, hblocked, hw, .inr ⟨hx, tag.mapBody g, _, rfl, hD tag (by simp) htag⟩⟩

/-- Rewritten markup is sealed if its tags still are tags. -/
theorem sealed_pass (hg : Text.Local C g) {m : Markup} (h : Sealed C D m)
    (htags : ∀ tag ∈ m.tags, (tag.mapBody g).Proper ∧ (D tag → D' (tag.mapBody g))) {acc : Text}
    (hacc : '<' ∉ acc) : Sealed C D' (pass g acc m) := by
  induction m generalizing acc with
  | nil => exact .map_char (hg.not_mem acc hacc)
  | cons piece m ih =>
    cases piece with
    | char c =>
      rw [tags_char] at htags
      rw [pass]
      split
      · next hc =>
        exact (Sealed.map_char (hg.not_mem acc hacc)).append
          ⟨fun _ => holds_pass hg (h.1 hc) fun tag htag => (htags tag htag).2, ih h.2 htags (by simp)⟩
      · next hc => exact ih h.2 htags (by simp [hacc, Ne.symm hc])
    | lexeme tag =>
      rw [tags_tag, List.forall_mem_cons] at htags
      exact (Sealed.map_char (hg.not_mem acc hacc)).append ⟨htags.1.1, ih h.2 htags.2 (by simp)⟩

end Markup
end HtmlTemplate
