import HtmlTemplate.Text.Pattern
import Mathlib

/-!
# Laws of scanning

A text may be scanned part by part where no lexeme reaches across the seam. There are two reasons why
none does: no lexeme begins in the first part (`Pattern.Silent`, `Pattern.OpensWith`), or the second part
begins with a character at which reading stops (`Text.StopsAt`, `Text.StopsBefore`).
-/

namespace HtmlTemplate

def Piece.map {α β : Type} (f : α → β) : Piece α → Piece β
  | char c => char c
  | lexeme a => lexeme (f a)

namespace Piece

variable {α : Type}

theorem flatMap_print_map_char (f : α → Text) (t : Text) : (t.map char).flatMap (print f) = t := by
  induction t with
  | nil => rfl
  | cons c t ih => exact congrArg (c :: ·) ih

theorem filterMap_lexeme?_map_char (t : Text) : (t.map (char (α := α))).filterMap lexeme? = [] := by
  simp [List.filterMap_map, Function.comp_def, lexeme?]

end Piece

namespace Pattern

variable {α : Type} (p : Pattern α)

theorem exists_read_of_mem_pieces {t : Text} {a : α} (h : .lexeme a ∈ p.pieces t) :
    ∃ u rest, p.read u = some (a, rest) := by
  fun_induction pieces p t with
  | case1 t b rest hread ih =>
    rcases List.mem_cons.1 h with he | hmem
    · exact ⟨t, rest, Piece.lexeme.inj he ▸ hread⟩
    · exact ih hmem
  | case2 => simp at h
  | case3 c t _ ih =>
    rcases List.mem_cons.1 h with he | hmem
    · simp at he
    · exact ih hmem

theorem exists_read_of_find? {t front back : Text} {a : α} (h : p.find? t = some (front, a, back)) :
    p.read (p.print a ++ back) = some (a, back) := by
  induction t generalizing front with
  | nil => simp [find?] at h
  | cons c t ih =>
    unfold find? at h
    split at h
    · next hr =>
      simp only [Option.some.injEq, Prod.mk.injEq] at h
      obtain ⟨rfl, rfl, rfl⟩ := h
      rw [← p.eq_append hr]
      exact hr
    · simp only [Option.map_eq_some_iff, Prod.exists, Prod.mk.injEq] at h
      obtain ⟨f, b, r, hr, rfl, rfl, rfl⟩ := h
      exact ih hr

theorem lexemes_of_read {t rest : Text} {a : α} (h : p.read t = some (a, rest)) :
    p.lexemes t = a :: p.lexemes rest := by
  rw [lexemes, p.pieces_of_read h]
  rfl

theorem lexemes_cons_of_read_none {c : Char} {t : Text} (h : p.read (c :: t) = none) :
    p.lexemes (c :: t) = p.lexemes t := by
  rw [lexemes, p.pieces_cons_of_read_none h]
  rfl

/-! ## Where nothing is read -/

/-- No lexeme begins in `s` where `t` follows it. -/
def Silent (s t : Text) : Prop := ∀ u v, s = u ++ v → v ≠ [] → p.read (v ++ t) = none

variable {p}

theorem silent_nil (t : Text) : p.Silent [] t := by
  intro u v h hv
  exact absurd (List.append_eq_nil_iff.1 h.symm).2 hv

theorem silent_append {s s' t : Text} : p.Silent (s ++ s') t ↔ p.Silent s (s' ++ t) ∧ p.Silent s' t := by
  constructor
  · intro h
    refine ⟨fun u v hs hv => ?_, fun u v hs hv => ?_⟩
    · have := h u (v ++ s') (by rw [hs, List.append_assoc]) (by simp [hv])
      rwa [List.append_assoc] at this
    · exact h (s ++ u) v (by rw [hs, List.append_assoc]) hv
  · rintro ⟨hs, hs'⟩ u v h hv
    rcases List.append_eq_append_iff.1 h with ⟨w, rfl, hw⟩ | ⟨w, rfl, rfl⟩
    · exact hs' w v hw hv
    · cases w with
      | nil => exact hs' [] s' rfl (by simpa using hv)
      | cons c w =>
        rw [List.append_assoc]
        exact hs u (c :: w) rfl (by simp)

theorem silent_cons {c : Char} {s t : Text} :
    p.Silent (c :: s) t ↔ p.read (c :: (s ++ t)) = none ∧ p.Silent s t := by
  rw [← List.singleton_append, silent_append]
  refine and_congr_left fun _ => ⟨fun h => h [] [c] rfl (by simp), fun h u v hs hv => ?_⟩
  rcases List.append_eq_singleton_iff.1 hs.symm with ⟨-, rfl⟩ | ⟨-, rfl⟩
  · exact h
  · exact absurd rfl hv

/-- No lexeme begins in texts one behind the other exactly if none begins in any of them. -/
theorem silent_flatMap {β : Type} {l : List β} {f : β → Text} {t : Text} :
    p.Silent (l.flatMap f) t ↔ ∀ b x a, l = b ++ x :: a → p.Silent (f x) (a.flatMap f ++ t) := by
  induction l with
  | nil => simpa using silent_nil t
  | cons x l ih =>
    rw [List.flatMap_cons, silent_append, ih]
    constructor
    · rintro ⟨hx, hl⟩ b y a he
      cases b with
      | nil =>
        obtain ⟨rfl, rfl⟩ := List.cons.inj he
        exact hx
      | cons z b => exact hl b y a (List.cons.inj he).2
    · intro hall
      exact ⟨hall [] x l rfl, fun b y a he => hall (x :: b) y a (by rw [he]; rfl)⟩

theorem Silent.pieces_append {s t : Text} (h : p.Silent s t) : p.pieces (s ++ t) = s.map .char ++ p.pieces t := by
  induction s with
  | nil => rfl
  | cons c s ih =>
    obtain ⟨hread, hs⟩ := silent_cons.1 h
    rw [List.cons_append, p.pieces_cons_of_read_none hread, ih hs]
    rfl

theorem Silent.find?_append {s t : Text} (h : p.Silent s t) :
    p.find? (s ++ t) = (p.find? t).map fun (front, a, back) => (s ++ front, a, back) := by
  induction s with
  | nil => simp
  | cons c s ih =>
    obtain ⟨hread, hs⟩ := silent_cons.1 h
    rw [List.cons_append, find?, hread, ih hs]
    simp only [Option.map_map]
    congr 1

theorem find?_eq_none_iff {t : Text} : p.find? t = none ↔ p.Silent t [] := by
  induction t with
  | nil => exact iff_of_true rfl (silent_nil [])
  | cons c t ih =>
    rw [silent_cons, find?, List.append_nil, ← ih]
    cases p.read (c :: t) with
    | none => simp
    | some found => simp

/-! ## What lexemes begin with -/

variable (p) in
/-- Every lexeme begins with a character of a class. -/
def OpensWith (first : Char → Bool) : Prop :=
  ∀ ⦃t : Text⦄ ⦃a : α⦄ ⦃rest : Text⦄, p.read t = some (a, rest) → t.head?.any first = true

variable {first : Char → Bool}

theorem OpensWith.read_cons (h : p.OpensWith first) {c : Char} (hc : first c = false) (t : Text) :
    p.read (c :: t) = none := by
  cases hr : p.read (c :: t) with
  | none => rfl
  | some found =>
    have := h hr
    simp [hc] at this

theorem OpensWith.silent (h : p.OpensWith first) {s : Text} (hs : ∀ c ∈ s, first c = false) (t : Text) :
    p.Silent s t := by
  rintro u v rfl hv
  obtain ⟨c, v, rfl⟩ := List.exists_cons_of_ne_nil hv
  exact h.read_cons (hs c (by simp)) _

theorem OpensWith.pieces_append (h : p.OpensWith first) {s : Text}
    (hs : ∀ c ∈ s, first c = false) (t : Text) :
    p.pieces (s ++ t) = s.map .char ++ p.pieces t := (h.silent hs t).pieces_append

theorem OpensWith.replace_append (h : p.OpensWith first) (f : α → Text) {s : Text}
    (hs : ∀ c ∈ s, first c = false) (t : Text) :
    p.replace f (s ++ t) = s ++ p.replace f t := by
  rw [replace, h.pieces_append hs, List.flatMap_append, Piece.flatMap_print_map_char]
  rfl

theorem OpensWith.replace_eq (h : p.OpensWith first) (f : α → Text) {s : Text}
    (hs : ∀ c ∈ s, first c = false) : p.replace f s = s := by
  simpa [replace] using h.replace_append f hs []

/-! ## Parts that are written one way wherever they stand -/

end Pattern

/-- Wherever `s` stands, `g` writes `t` in its place. -/
def Text.Writes (g : Text → Text) (s t : Text) : Prop := ∀ rest, g (s ++ rest) = t ++ g rest

namespace Text.Writes

variable {g : Text → Text} {s s' t t' : Text}

theorem nil : Writes g [] [] := fun _ => rfl

theorem append (h : Writes g s t) (h' : Writes g s' t') : Writes g (s ++ s') (t ++ t') := fun rest => by
  rw [List.append_assoc, h, h', List.append_assoc]

theorem flatMap {α : Type} {l : List α} {u v : α → Text} (h : ∀ a ∈ l, Writes g (u a) (v a)) :
    Writes g (l.flatMap u) (l.flatMap v) := by
  induction l with
  | nil => exact nil
  | cons a l ih =>
    rw [List.forall_mem_cons] at h
    rw [List.flatMap_cons, List.flatMap_cons]
    exact h.1.append (ih h.2)

end Text.Writes

namespace Pattern

variable {α : Type} {p : Pattern α} {first : Char → Bool}

theorem OpensWith.writes (h : p.OpensWith first) (f : α → Text) {s : Text} (hs : ∀ c ∈ s, first c = false) :
    Text.Writes (p.replace f) s s := h.replace_append f hs

theorem writes_of_read (f : α → Text) {s t t' : Text} {a : α}
    (h : ∀ rest, p.read (s ++ (t ++ rest)) = some (a, t ++ rest)) (ht : Text.Writes (p.replace f) t t') :
    Text.Writes (p.replace f) (s ++ t) (f a ++ t') := fun rest => by
  rw [List.append_assoc, replace, p.pieces_of_read (h rest), List.flatMap_cons, List.append_assoc]
  exact congrArg (f a ++ ·) (ht rest)

theorem writes_cons (f : α → Text) {s t : Text} {c : Char} (h : ∀ rest, p.read (c :: (s ++ rest)) = none)
    (hs : Text.Writes (p.replace f) s t) : Text.Writes (p.replace f) (c :: s) (c :: t) := fun rest => by
  rw [List.cons_append, replace, p.pieces_cons_of_read_none (h rest), List.flatMap_cons]
  exact congrArg (c :: ·) (hs rest)

/-! ## Where reading stops -/

end Pattern

/-- Reading stops at a character: it reads the same whatever follows the character. -/
def Text.StopsAt {β : Type} (c : Char) (read : Text → Option (β × Text)) : Prop :=
  ∀ s t : Text, read (s ++ c :: t) = (read s).map fun (b, rest) => (b, rest ++ c :: t)

/-- Reading that has begun stops before a character: it reads the same whatever the character begins. -/
def Text.StopsBefore {β : Type} (c : Char) (read : Text → Option (β × Text)) : Prop :=
  ∀ (d : Char) (s t : Text),
    read (d :: s ++ c :: t) = (read (d :: s)).map fun (b, rest) => (b, rest ++ c :: t)

theorem Text.StopsAt.stopsBefore {β : Type} {c : Char} {read : Text → Option (β × Text)}
    (h : StopsAt c read) : StopsBefore c read := fun d s => h (d :: s)

namespace Pattern

variable {α : Type} {p : Pattern α} {c : Char}

theorem not_mem_print_of_stopsAt (h : Text.StopsAt c p.read) {t rest : Text} {a : α}
    (hread : p.read t = some (a, rest)) : c ∉ p.print a := by
  intro hc
  obtain ⟨u, v, huv⟩ := List.append_of_mem hc
  have ht := p.eq_append hread
  rw [huv, List.append_assoc, List.cons_append] at ht
  rw [ht, h, Option.map_eq_some_iff] at hread
  obtain ⟨⟨b, rest'⟩, -, he⟩ := hread
  have hlength := congrArg List.length (Prod.mk.inj he).2
  simp only [List.length_append, List.length_cons] at hlength
  omega

theorem pieces_append_of_stopsBefore (h : Text.StopsBefore c p.read) (s t : Text) :
    p.pieces (s ++ c :: t) = p.pieces s ++ p.pieces (c :: t) := by
  fun_induction pieces p s with
  | case1 s a rest hread ih =>
    cases s with
    | nil => simp [p.read_nil] at hread
    | cons d s =>
      have hread' : p.read (d :: s ++ c :: t) = some (a, rest ++ c :: t) := by rw [h, hread]; rfl
      rw [p.pieces_of_read hread', ih]
      rfl
  | case2 => rfl
  | case3 d s hread ih =>
    have hread' : p.read (d :: (s ++ c :: t)) = none := by
      have := h d s t
      rwa [hread] at this
    rw [List.cons_append, p.pieces_cons_of_read_none hread', List.cons_append]
    exact congrArg _ ih

theorem replace_append_of_stopsBefore (h : Text.StopsBefore c p.read) (f : α → Text) (s t : Text) :
    p.replace f (s ++ c :: t) = p.replace f s ++ p.replace f (c :: t) := by
  simp [replace, pieces_append_of_stopsBefore h]

theorem pieces_append_of_stopsAt (h : Text.StopsAt c p.read) (s t : Text) :
    p.pieces (s ++ c :: t) = p.pieces s ++ .char c :: p.pieces t := by
  have hread : p.read (c :: t) = none := by
    have := h [] t
    rwa [List.nil_append, p.read_nil] at this
  rw [pieces_append_of_stopsBefore h.stopsBefore, p.pieces_cons_of_read_none hread]

theorem replace_append_of_stopsAt (h : Text.StopsAt c p.read) (f : α → Text) (s t : Text) :
    p.replace f (s ++ c :: t) = p.replace f s ++ c :: p.replace f t := by
  simp [replace, pieces_append_of_stopsAt h, Piece.print]

end Pattern
end HtmlTemplate
