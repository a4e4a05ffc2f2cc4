import HtmlTemplate.Proofs.Markup.Nesting
import HtmlTemplate.Proofs.Markup.Scan

/-!
# Markup that does not depend on what follows it

Elements are repeated and dropped in a text, and the text is then scanned again. The scan finds what is
left of the markup if no `<` outside its tags can become the beginning of a tag (`Markup.Sealed`). Of a
template this can be told from what stands behind these characters (`Markup.sealed_ofText`).
-/

namespace HtmlTemplate

/-- Characters that keep the `<` before them from beginning a tag. -/
def Tag.Blocked (w : Text) : Prop := ∀ t, Tag.read ('<' :: (w ++ t)) = none

namespace Markup

variable {C : Char → Prop} {D D' : Tag → Prop}

/-- Markup that keeps the `<` before it from beginning a tag, also when the characters that are not `C`
become others and the tags that are not `D` disappear. -/
def Holds (C : Char → Prop) (D : Tag → Prop) (m : Markup) : Prop :=
  ∃ (w : Text) (x : Char), Tag.Blocked (w ++ [x]) ∧ (∀ c ∈ w, c = '/' ∨ c.isAlphanum = true) ∧
    ((C x ∧ ∃ n, m = w.map .char ++ .char x :: n) ∨
      (x = '<' ∧ ∃ tag n, m = w.map .char ++ .lexeme tag :: n ∧ D tag))

/-- Markup whose tags are read as they are printed and whose other `<` begin no tag. -/
def Sealed (C : Char → Prop) (D : Tag → Prop) : Markup → Prop
  | [] => True
  | .char c :: m => (c = '<' → Holds C D m) ∧ Sealed C D m
  | .lexeme tag :: m => tag.Proper ∧ Sealed C D m

@[simp] theorem text_map_char (t : Text) : text (t.map .char) = t := by
  induction t with
  | nil => rfl
  | cons c t ih => rw [List.map_cons, text_char, ih]

theorem Holds.append {m : Markup} (h : Holds C D m) (n : Markup) : Holds C D (m ++ n) := by
  obtain ⟨w, x, hblocked, hw, ⟨hx, n', rfl⟩ | ⟨hx, tag, n', rfl, htag⟩⟩ := h
  · exact ⟨w, x, hblocked, hw, .inl ⟨hx, n' ++ n, by simp⟩⟩
  · exact ⟨w, x, hblocked, hw, .inr ⟨hx, tag, n' ++ n, by simp, htag⟩⟩

theorem Holds.left {m n : Markup} {tag : Tag} (h : Holds C D (m ++ .lexeme tag :: n)) :
    Holds C D m ∨ D tag ∧ Holds C D (m ++ [.lexeme tag]) := by
  have key : ∀ {w : Text} {piece : Piece Tag} {m n' : Markup},
      w.map .char ++ piece :: n' = m ++ .lexeme tag :: n →
        (∃ m', m = w.map .char ++ piece :: m') ∨ (m = w.map .char ∧ piece = .lexeme tag) := by
    intro w piece m n' he
    induction w generalizing m with
    | nil =>
      cases m with
      | nil => exact .inr ⟨rfl, (List.cons.inj he).1⟩
      | cons piece' m => exact .inl ⟨m, by rw [(List.cons.inj he).1]; rfl⟩
    | cons c w ih =>
      cases m with
      | nil => simp at he
      | cons piece' m =>
        obtain ⟨rfl, he'⟩ := List.cons.inj he
        rcases ih he' with ⟨m', rfl⟩ | ⟨rfl, hp⟩
        · exact .inl ⟨m', rfl⟩
        · exact .inr ⟨rfl, hp⟩
  obtain ⟨w, x, hblocked, hw, ⟨hx, n', he⟩ | ⟨hx, tag', n', he, htag⟩⟩ := h
  · rcases key he.symm with ⟨m', rfl⟩ | ⟨rfl, hp⟩
    · exact .inl ⟨w, x, hblocked, hw, .inl ⟨hx, m', rfl⟩⟩
    · simp at hp
  · rcases key he.symm with ⟨m', rfl⟩ | ⟨rfl, hp⟩
    · exact .inl ⟨w, x, hblocked, hw, .inr ⟨hx, tag', m', rfl, htag⟩⟩
    · obtain rfl := Piece.lexeme.inj hp
      exact .inr ⟨htag, w, x, hblocked, hw, .inr ⟨hx, tag', [], rfl, htag⟩⟩

theorem Holds.read_text {m : Markup} (h : Holds C D m) (t : Text) : Tag.read ('<' :: (m.text ++ t)) = none := by
  obtain ⟨w, x, hblocked, -, ⟨-, n, rfl⟩ | ⟨rfl, tag, n, rfl, -⟩⟩ := h
  · have := hblocked (text n ++ t)
    simpa [text_map_char] using this
  · have := hblocked (tag.print.tail ++ (text n ++ t))
    simpa [text_map_char, Tag.print] using this

/-! ## Parts of sealed markup -/

namespace Sealed

variable {m n : Markup}

theorem append (hm : Sealed C D m) (hn : Sealed C D n) : Sealed C D (m ++ n) := by
  induction m with
  | nil => exact hn
  | cons piece m ih =>
    cases piece with
    | char c => exact ⟨fun hc => (hm.1 hc).append n, ih hm.2⟩
    | lexeme tag => exact ⟨hm.1, ih hm.2⟩

theorem right (h : Sealed C D (m ++ n)) : Sealed C D n := by
  induction m with
  | nil => exact h
  | cons piece m ih => cases piece <;> exact ih h.2

theorem proper (h : Sealed C D m) {tag : Tag} (htag : tag ∈ m.tags) : tag.Proper := by
  induction m with
  | nil => simp at htag
  | cons piece m ih =>
    cases piece with
    | char c => exact ih h.2 (by simpa using htag)
    | lexeme tag' =>
      rcases List.mem_cons.1 htag with rfl | hmem
      · exact h.1
      · exact ih h.2 hmem

theorem left_of_not {tag : Tag} (h : Sealed C D (m ++ .lexeme tag :: n)) (htag : ¬ D tag) : Sealed C D m := by
  induction m with
  | nil => trivial
  | cons piece m ih =>
    cases piece with
    | char c =>
      refine ⟨fun hc => ?_, ih h.2⟩
      rcases (h.1 hc).left with hm | ⟨hD, -⟩
      · exact hm
      · exact absurd hD htag
    | lexeme tag' => exact ⟨h.1, ih h.2⟩

theorem left {tag : Tag} (h : Sealed C D (m ++ .lexeme tag :: n)) : Sealed C D (m ++ [.lexeme tag]) := by
  induction m with
  | nil => exact ⟨h.1, trivial⟩
  | cons piece m ih =>
    cases piece with
    | char c =>
      refine ⟨fun hc => ?_, ih h.2⟩
      rcases (h.1 hc).left with hm | ⟨-, hm⟩
      · exact hm.append _
      · exact hm
    | lexeme tag' => exact ⟨h.1, ih h.2⟩

theorem map_char {t : Text} (ht : '<' ∉ t) : Sealed C D (t.map .char) := by
  induction t with
  | nil => trivial
  | cons c t ih =>
    rw [List.mem_cons, not_or] at ht
    exact ⟨fun hc => absurd hc.symm ht.1, ih ht.2⟩

end Sealed

theorem ofText_append {m : Markup} (h : Sealed C D m) (t : Text) : ofText (m.text ++ t) = m ++ ofText t := by
  induction m with
  | nil => rfl
  | cons piece m ih =>
    cases piece with
    | char c =>
      have hread : Tag.read (c :: (text m ++ t)) = none := by
        by_cases hc : c = '<'
        · rw [hc]
          exact (h.1 hc).read_text t
        · exact Tag.read_cons_of_ne _ hc
      rw [text_char, List.cons_append, ofText_cons_of_read_none hread, ih h.2]
      rfl
    | lexeme tag =>
      rw [text_tag, List.append_assoc, ofText_of_read (h.1.read_print _), ih h.2]
      rfl

theorem Sealed.of_behind {u v : Markup} {w : Text} {tag : Tag}
    (h : Sealed C D (u ++ .char '<' :: (w.map .char ++ .lexeme tag :: v))) (hw : w = [] ∨ w = ['/']) :
    D tag := by
  obtain ⟨w', x, hblocked, -, ⟨-, n, he⟩ | ⟨-, tag', n, he, htag⟩⟩ := h.right.1 rfl
  · rcases hw with rfl | rfl
    · cases w' <;> simp at he
    · match w' with
      | [] =>
        obtain rfl : '/' = x := Piece.char.inj (List.cons.inj he).1
        have hread : Tag.read ('<' :: (([] ++ ['/']) ++ ['p', '>'])) = some (⟨true, ['p'], []⟩, []) := by decide
        exact absurd ((hblocked ['p', '>']).symm.trans hread) (by simp)
      | [_] => simp at he
      | _ :: _ :: _ => simp at he
  · have key : ∀ {w w' : Text} {m n : Markup}, w.map .char ++ .lexeme tag :: m = w'.map .char ++ .lexeme tag' :: n →
        tag = tag' := by
      intro w
      induction w with
      | nil =>
        intro w' m n he
        cases w' with
        | nil => exact Piece.lexeme.inj (List.cons.inj he).1
        | cons c w' => simp at he
      | cons c w ih =>
        intro w' m n he
        cases w' with
        | nil => simp at he
        | cons c' w' => exact ih (List.cons.inj he).2
    exact key he ▸ htag

/-- Sealed markup is what a scan of its text finds. -/
theorem Sealed.ofText_text {m : Markup} (h : Sealed C D m) : ofText m.text = m := by
  have := ofText_append h []
  rwa [List.append_nil, ofText_nil, List.append_nil] at this

end Markup

/-! ## Scanned texts -/

namespace Tag

theorem exists_of_readFromName_none {closing : Bool} {r : Text} (h : readFromName closing r = none)
    (hend : '>' ∈ r) :
    ∃ (w : Text) (x : Char) (rest : Text), r = w ++ x :: rest ∧
      (∀ t, readFromName closing (w ++ x :: t) = none) ∧ (∀ c ∈ w, c.isAlphanum = true) ∧
        (w = [] ∨ Text.isWord x = true) := by
  have hsplit := List.takeWhile_append_dropWhile (p := Char.isAlphanum) (l := r)
  have hall : ∀ c ∈ r.takeWhile Char.isAlphanum, c.isAlphanum = true := fun c => List.mem_takeWhile_imp
  unfold readFromName at h
  dsimp only at h
  by_cases hname : (r.takeWhile Char.isAlphanum).head?.any Char.isAlpha = true
  · cases hafter : r.dropWhile Char.isAlphanum with
    | nil =>
      rw [hafter, List.append_nil] at hsplit
      exact absurd (hall _ (hsplit ▸ hend)) (by decide)
    | cons x rest =>
      have hx : x.isAlphanum = false := Text.eq_false_of_head?_dropWhile (by rw [hafter]; rfl)
      by_cases hword : Text.isWord x = true
      · refine ⟨r.takeWhile Char.isAlphanum, x, rest, by rw [← hafter, hsplit], fun t => ?_, hall, .inr hword⟩
        unfold readFromName
        rw [List.takeWhile_append_of_pos hall, List.dropWhile_append_of_pos hall]
        simp [hx, hword]
      · exfalso
        have hmem : '>' ∈ x :: rest := by
          rw [← hsplit, hafter, List.mem_append] at hend
          exact hend.resolve_left fun hc => absurd (hall _ hc) (by decide)
        rw [hafter] at h
        cases hdrop : (x :: rest).dropWhile (· != '>') with
        | nil => simpa using List.dropWhile_eq_nil_iff.1 hdrop '>' hmem
        | cons c rest' =>
          have hc : c = '>' := by
            have hc' := Text.eq_false_of_head?_dropWhile (p := (· != '>')) (by rw [hdrop]; rfl)
            simpa using hc'
          rw [hdrop, hc] at h
          simp [hname, hword] at h
  · cases r with
    | nil => simp at hend
    | cons x rest =>
      refine ⟨[], x, rest, rfl, fun t => ?_, by simp, .inl rfl⟩
      have hx : x.isAlpha = false := by
        by_contra hne
        rw [Bool.not_eq_false] at hne
        simp [isAlphanum_of_isAlpha hne, hne] at hname
      unfold readFromName
      by_cases halnum : x.isAlphanum = true
      · simp [halnum, hx]
      · simp [halnum]

theorem exists_blocked {s : Text} (h : read ('<' :: s) = none) (hend : '>' ∈ s) :
    ∃ (w : Text) (x : Char) (rest : Text), s = w ++ x :: rest ∧ Blocked (w ++ [x]) ∧
      (∀ c ∈ w, c = '/' ∨ c.isAlphanum = true) ∧ (w = [] ∨ w = ['/'] ∨ Text.isWord x = true) := by
  by_cases hslash : ∃ r, s = '/' :: r
  · obtain ⟨r, rfl⟩ := hslash
    have hr : readFromName true r = none := h
    obtain ⟨w, x, rest, rfl, hnone, hw, hx⟩ := exists_of_readFromName_none hr (by simpa using hend)
    refine ⟨'/' :: w, x, rest, rfl, fun t => ?_, ?_, ?_⟩
    · show readFromName true ((w ++ [x]) ++ t) = none
      simpa using hnone t
    · intro c hc
      rcases List.mem_cons.1 hc with rfl | hc
      · exact .inl rfl
      · exact .inr (hw c hc)
    · rcases hx with rfl | hx
      · exact .inr (.inl rfl)
      · exact .inr (.inr hx)
  · have hskip : ∀ {t : Text}, (¬ ∃ r, t = '/' :: r) → read ('<' :: t) = readFromName false t := by
      intro t ht
      unfold read
      split
      · next he => exact absurd ⟨_, (List.cons.inj he).2⟩ ht
      · next he => rw [(List.cons.inj he).2]
      · next hne => exact absurd rfl (hne t)
    rw [hskip hslash] at h
    obtain ⟨w, x, rest, rfl, hnone, hw, hx⟩ := exists_of_readFromName_none h hend
    refine ⟨w, x, rest, rfl, fun t => ?_, fun c hc => .inr (hw c hc), ?_⟩
    · have hslash' : ¬ ∃ r, w ++ x :: t = '/' :: r := by
        rintro ⟨r, hr⟩
        cases w with
        | nil => exact hslash ⟨rest, by rw [List.nil_append, (List.cons.inj hr).1]⟩
        | cons c w => exact hslash ⟨w ++ x :: rest, by rw [List.cons_append, (List.cons.inj hr).1]⟩
      have := hskip hslash'
      rw [hnone t] at this
      simpa using this
    · rcases hx with rfl | hx
      · exact .inl rfl
      · exact .inr (.inr hx)

end Tag

namespace Markup

variable {C : Char → Prop} {D : Tag → Prop}

/-- Markup that begins neither with an opening brace nor with a tag that is not `D`. -/
def Behind (D : Tag → Prop) (m : Markup) : Prop :=
  m.head? ≠ some (.char '\x7b') ∧ ∀ tag, m.head? = some (.lexeme tag) → D tag

/-- Markup in which no `<` or `</` outside the tags stands before a brace or a tag that is not `D`. -/
def Careful (D : Tag → Prop) (m : Markup) : Prop :=
  ∀ u w v, m = u ++ .char '<' :: (w.map .char ++ v) → w = [] ∨ w = ['/'] → Behind D v

/-- Markup in which no `<` or `</` outside the tags stands before a character that is not `C` or a tag
that is not `D`. -/
def Spaced (C : Char → Prop) (D : Tag → Prop) (m : Markup) : Prop :=
  ∀ u w v, m = u ++ .char '<' :: (w.map .char ++ v) → w = [] ∨ w = ['/'] →
    (∀ c, v.head? = some (.char c) → C c) ∧ ∀ tag, v.head? = some (.lexeme tag) → D tag

theorem Careful.spaced {m : Markup} (h : Careful D m) : Spaced (· ≠ '\x7b') D m := by
  intro u w v hm hw
  obtain ⟨hbrace, htag⟩ := h u w v hm hw
  exact ⟨fun c hc he => hbrace (he ▸ hc), htag⟩

/-- A `<` that begins no tag is kept from it by what a scan finds behind it. -/
theorem holds_ofText {s : Text} (hread : Tag.read ('<' :: s) = none) (hend : '>' ∈ s)
    (hC : ∀ c, Text.isWord c = true → C c) (h : Spaced C D (.char '<' :: ofText s)) : Holds C D (ofText s) := by
  obtain ⟨w, x, rest, rfl, hblocked, hw, hx⟩ := Tag.exists_blocked hread hend
  have hopen : '<' ∉ w := fun hmem => by
    rcases hw _ hmem with hc | hc
    · exact absurd hc (by decide)
    · exact absurd hc (by decide)
  rw [ofText_append_of_not_mem _ hopen] at h ⊢
  have hbehind := h [] w (ofText (x :: rest)) rfl
  refine ⟨w, x, hblocked, hw, ?_⟩
  cases hread' : Tag.read (x :: rest) with
  | none =>
    rw [ofText_cons_of_read_none hread'] at hbehind ⊢
    refine .inl ⟨?_, _, rfl⟩
    rcases hx with hx | hx | hx
    · exact (hbehind (.inl hx)).1 x rfl
    · exact (hbehind (.inr hx)).1 x rfl
    · exact hC x hx
  | some found =>
    obtain ⟨tag, rest'⟩ := found
    have hxopen : x = '<' := by
      by_contra hne
      rw [Tag.read_cons_of_ne rest hne] at hread'
      simp at hread'
    rw [ofText_of_read hread'] at hbehind ⊢
    refine .inr ⟨hxopen, tag, _, rfl, ?_⟩
    rcases hx with hx | hx | hx
    · exact (hbehind (.inl hx)).2 tag rfl
    · exact (hbehind (.inr hx)).2 tag rfl
    · -- behind a name stands a word character, which is not the `<` of a tag
      rw [hxopen] at hx
      exact absurd hx (by decide)

theorem Spaced.right {m n : Markup} (h : Spaced C D (m ++ n)) : Spaced C D n := fun u w v huv =>
  h (m ++ u) w v (by rw [huv, List.append_assoc])

/-- What a scan finds is sealed if what stands behind its `<` stays and a `>` follows every `<`. -/
theorem sealed_ofText {t : Text} (hend : ∀ u v, t = u ++ '<' :: v → '>' ∈ v)
    (hC : ∀ c, Text.isWord c = true → C c) (h : Spaced C D (ofText t)) : Sealed C D (ofText t) := by
  induction hn : t.length using Nat.strong_induction_on generalizing t with
  | _ n ih =>
    have hright : ∀ {s t' : Text}, t = s ++ t' → ∀ u v, t' = u ++ '<' :: v → '>' ∈ v := by
      intro s t' ht u v huv
      exact hend (s ++ u) v (by rw [ht, huv, List.append_assoc])
    cases hread : Tag.read t with
    | some found =>
      obtain ⟨tag, rest⟩ := found
      have hlt := Tag.pattern.length_lt hread
      rw [ofText_of_read hread] at h ⊢
      exact ⟨Tag.proper_of_read hread,
        ih _ (hn ▸ hlt) (hright (Tag.eq_append_of_read hread)) (h.right (m := [.lexeme tag])) rfl⟩
    | none =>
      cases t with
      | nil =>
        rw [ofText_nil]
        trivial
      | cons c t =>
        rw [ofText_cons_of_read_none hread] at h ⊢
        refine ⟨?_, ih t.length (by simp [← hn]) (hright (s := [c]) rfl) (h.right (m := [.char c])) rfl⟩
        rintro rfl
        exact holds_ofText hread (hend [] t rfl) hC h

end Markup
end HtmlTemplate
