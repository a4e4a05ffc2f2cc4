import HtmlTemplate.Markup.Attribute
import HtmlTemplate.Proofs.Text.Basic
import HtmlTemplate.Proofs.Text.Pattern
import Mathlib

/-!
# Attributes that are read as they are printed

An attribute that was read is read again wherever it is printed (`Attribute.Valid.read_print`), and none
begins in a text without stars.
-/

namespace HtmlTemplate

structure Attribute.Valid (a : Attribute) : Prop where
  blank : Text.isBlank a.blank = true
  equals : ∃ b b' : Text, (∀ c ∈ b, Text.isBlank c = true) ∧ (∀ c ∈ b', Text.isBlank c = true) ∧
    a.equals = b ++ '=' :: b'
  quote : Text.isQuote a.quoted.quote = true
  value : a.quoted.quote ∉ a.quoted.value

theorem Text.isQuote_iff {c : Char} : Text.isQuote c = true ↔ c = '"' ∨ c = '\'' := by
  simp [Text.isQuote]

theorem Text.not_isBlank_of_isQuote {c : Char} (h : Text.isQuote c = true) : Text.isBlank c = false := by
  rcases isQuote_iff.1 h with rfl | rfl <;> decide

theorem Text.readEquals_append {b b' t : Text} {c : Char} (hb : ∀ d ∈ b, Text.isBlank d = true)
    (hb' : ∀ d ∈ b', Text.isBlank d = true) (hc : Text.isBlank c = false) :
    Text.readEquals (b ++ '=' :: (b' ++ c :: t)) = some (b ++ '=' :: b', c :: t) := by
  have heq : Text.isBlank '=' = false := by decide
  unfold Text.readEquals
  rw [List.dropWhile_append_of_pos hb, List.takeWhile_append_of_pos hb]
  simp only [List.dropWhile_cons, List.takeWhile_cons, heq, Bool.false_eq_true, if_false]
  rw [List.dropWhile_append_of_pos hb', List.takeWhile_append_of_pos hb']
  simp [hc]

theorem Text.exists_of_readEquals {t equals rest : Text} (h : readEquals t = some (equals, rest)) :
    ∃ b b' : Text, (∀ c ∈ b, isBlank c = true) ∧ (∀ c ∈ b', isBlank c = true) ∧ equals = b ++ '=' :: b' := by
  unfold readEquals at h
  split at h
  · obtain ⟨rfl, -⟩ := Prod.mk.inj (Option.some.inj h)
    exact ⟨_, _, fun c => List.mem_takeWhile_imp, fun c => List.mem_takeWhile_imp, rfl⟩
  · simp at h

theorem Quoted.of_read {t rest : Text} {q : Quoted} (h : read t = some (q, rest)) :
    Text.isQuote q.quote = true ∧ q.quote ∉ q.value := by
  cases t with
  | nil => simp [read] at h
  | cons quote t =>
    simp only [read] at h
    split at h
    · next hquote =>
      split at h
      · simp at h
      · obtain ⟨rfl, -⟩ := Prod.mk.inj (Option.some.inj h)
        refine ⟨hquote, fun hmem => ?_⟩
        simpa using List.mem_takeWhile_imp hmem
    · simp at h

theorem Quoted.read_print {q : Quoted} (hq : Text.isQuote q.quote = true) (hv : q.quote ∉ q.value)
    (t : Text) : Quoted.read (q.print ++ t) = some (q, t) := by
  have hall : ∀ c ∈ q.value, (c != q.quote) = true := fun c hc => by
    simpa using fun he : c = q.quote => hv (he ▸ hc)
  simp only [Quoted.print, List.cons_append, List.append_assoc, List.nil_append, Quoted.read, hq,
    if_true]
  rw [List.dropWhile_append_of_pos hall, List.takeWhile_append_of_pos hall]
  simp

namespace Attribute

theorem Valid.read_print {a : Attribute} (h : a.Valid) (name t : Text) :
    read name (a.print name ++ t) = some (a, t) := by
  obtain ⟨b, b', hb, hb', hequals⟩ := h.equals
  have hquote : Text.isBlank a.quoted.quote = false := Text.not_isBlank_of_isQuote h.quote
  have hread := Text.readEquals_append (t := a.quoted.value ++ a.quoted.quote :: t) hb hb' hquote
  have hquoted : Quoted.read (a.quoted.quote :: (a.quoted.value ++ a.quoted.quote :: t)) =
      some (a.quoted, t) := by
    have := Quoted.read_print h.quote h.value t
    simpa [Quoted.print] using this
  simp only [print, List.cons_append, read, h.blank, if_true, List.append_assoc, Text.after?_append,
    Option.bind_eq_bind, Option.bind_some]
  rw [hequals, List.append_assoc, List.cons_append, Quoted.print, List.cons_append, List.append_assoc,
    List.singleton_append, hread]
  simp only [Option.bind_some, hquoted, ← hequals]
  rfl

theorem valid_of_read {name t rest : Text} {a : Attribute} (h : read name t = some (a, rest)) :
    a.Valid := by
  cases t with
  | nil => simp [read] at h
  | cons blank t =>
    simp only [read] at h
    split at h
    · next hblank =>
      simp only [Option.bind_eq_bind, Option.bind_eq_some_iff] at h
      obtain ⟨t₁, h₁, ⟨equals, t₂⟩, h₂, ⟨quoted, t₃⟩, h₃, he⟩ := h
      obtain ⟨rfl, rfl⟩ := Prod.mk.inj (Option.some.inj he)
      have hquoted := Quoted.of_read h₃
      exact ⟨hblank, Text.exists_of_readEquals h₂, hquoted.1, hquoted.2⟩
    · simp at h

theorem print_eq (name : Text) (a : Attribute) :
    a.print name = a.blank :: (name ++ (a.equals ++ (a.quoted.quote :: (a.quoted.value ++ [a.quoted.quote])))) := by
  simp [print, Quoted.print]

@[simp] theorem getLast?_print (name : Text) (a : Attribute) :
    (a.print name).getLast? = some a.quoted.quote := by
  simp [print_eq, List.getLast?_append, List.getLast?_cons]

theorem read_cons_cons_of_ne {name t : Text} {c d n : Char} (h : d ≠ n) :
    read (n :: name) (c :: d :: t) = none := by
  simp [read, Text.after?, Ne.symm h]

theorem read_cons_of_not_isBlank {name t : Text} {c : Char} (h : Text.isBlank c = false) :
    read name (c :: t) = none := by
  simp [read, h]

theorem pattern_opensWith (name : Text) : (pattern name).OpensWith Text.isBlank := by
  intro t a rest h
  cases t with
  | nil => simp [(pattern name).read_nil] at h
  | cons c t =>
    by_contra hblank
    have hread : (pattern name).read (c :: t) = none := read_cons_of_not_isBlank (by simpa using hblank)
    simp [hread] at h

theorem read_cons_of_head?_ne {name t : Text} (h : t.head? ≠ some '*') (c : Char) :
    read ('*' :: name) (c :: t) = none := by
  cases t with
  | nil => simp [read, Text.after?]
  | cons d t => exact read_cons_cons_of_ne (by simpa using h)

theorem silent_of_head?_ne {name s t : Text} (hstar : '*' ∉ s) (ht : t.head? ≠ some '*') :
    (pattern ('*' :: name)).Silent s t := by
  rintro u v rfl hv
  obtain ⟨c, v, rfl⟩ := List.exists_cons_of_ne_nil hv
  refine read_cons_of_head?_ne ?_ c
  cases v with
  | nil => exact ht
  | cons d v => simpa using fun he : d = '*' => hstar (by simp [he])

theorem pieces_append {name s t : Text} (hstar : '*' ∉ s) (ht : t.head? ≠ some '*') :
    (pattern ('*' :: name)).pieces (s ++ t) = s.map .char ++ (pattern ('*' :: name)).pieces t :=
  (silent_of_head?_ne hstar ht).pieces_append

theorem find?_append {name u s : Text} (hstar : '*' ∉ u)
    (hlast : ∃ c, u.getLast? = some c ∧ Text.isBlank c = false) :
    (pattern ('*' :: name)).find? (u ++ s) =
      ((pattern ('*' :: name)).find? s).map fun (front, a, back) => (u ++ front, a, back) := by
  obtain ⟨c, hc, hblank⟩ := hlast
  obtain ⟨w, rfl⟩ := List.getLast?_eq_some_iff.1 hc
  refine Pattern.Silent.find?_append (Pattern.silent_append.2 ⟨silent_of_head?_ne ?_ ?_, ?_⟩)
  · exact fun hmem => hstar (List.mem_append_left _ hmem)
  · simpa using fun he : c = '*' => hstar (by simp [he])
  · exact Pattern.silent_cons.2 ⟨read_cons_of_not_isBlank hblank, Pattern.silent_nil s⟩

end Attribute
end HtmlTemplate
