import HtmlTemplate.Proofs.Interpolation

/-!
# Escaped text is read back

Five characters are written as entities. An entity has its `&` in front only, and a character that is written as it
is is no `&`, so the entities of an escaped text are exactly those that were written for its special characters, also
where the text had entities of its own. Replacing them from the left gives the text back (`Escape.unescape_text`).
-/

namespace HtmlTemplate

theorem Text.exists_of_flatMap_eq_append_cons {α : Type} {l : List α} {f : α → Text} {u v : Text} {c : Char}
    (h : l.flatMap f = u ++ c :: v) : ∃ a ∈ l, ∃ u' v', f a = u' ++ c :: v' ∧ v' <+: v := by
  induction l generalizing u with
  | nil => simp at h
  | cons a l ih =>
    rw [List.flatMap_cons] at h
    rcases exists_of_append_eq_cons_append h with ⟨w, -, hl⟩ | ⟨w, ha, hv⟩
    · obtain ⟨b, hb, hcut⟩ := ih hl
      exact ⟨b, List.mem_cons_of_mem a hb, hcut⟩
    · exact ⟨a, List.mem_cons_self, u, w, ha, l.flatMap f, hv.symm⟩

namespace Escape

/-! ## Entities -/

/-- What is written for characters that are not written as they are. -/
def entities : List (Char × Text) :=
  [('&', "&amp;".toList), ('<', "&lt;".toList), ('>', "&gt;".toList), ('"', "&quot;".toList),
    ('\'', "&#39;".toList)]

theorem mem_entities_of_mem_special : ∀ c ∈ special, (c, char c) ∈ entities := by
  intro c hc
  simp only [special, List.mem_cons, List.not_mem_nil, or_false] at hc
  rcases hc with rfl | rfl | rfl | rfl | rfl <;> decide

theorem ampersand_of_mem_entities : ∀ e ∈ entities, e.2.head? = some '&' ∧ '&' ∉ e.2.tail := by decide

/-- Reads an entity. -/
def readEntity (t : Text) : Option ((Char × Text) × Text) :=
  entities.findSome? fun entity => (Text.after? entity.2 t).map (entity, ·)

theorem of_readEntity {t rest : Text} {entity : Char × Text} (h : readEntity t = some (entity, rest)) :
    entity ∈ entities ∧ t = entity.2 ++ rest := by
  obtain ⟨e, he, hread⟩ := List.exists_of_findSome?_eq_some h
  obtain ⟨r, hr, heq⟩ := Option.map_eq_some_iff.1 hread
  obtain ⟨rfl, rfl⟩ := Prod.mk.inj heq
  exact ⟨he, Text.eq_append_of_after? hr⟩

def entityPattern : Pattern (Char × Text) where
  read := readEntity
  print := Prod.snd
  eq_append := fun h => (of_readEntity h).2
  print_ne_nil := fun h => (show ∀ e ∈ entities, e.2 ≠ [] by decide) _ (of_readEntity h).1

theorem entityPattern_opensWith : entityPattern.OpensWith (· == '&') := by
  intro t entity rest h
  obtain ⟨hentity, ht⟩ := of_readEntity h
  obtain ⟨v, hv⟩ := List.head?_eq_some_iff.1 (ampersand_of_mem_entities entity hentity).1
  simp [ht, hv]

theorem readEntity_append {entity : Char × Text} (h : entity ∈ entities) (rest : Text) :
    readEntity (entity.2 ++ rest) = some (entity, rest) := by
  simp only [entities, List.mem_cons, List.not_mem_nil, or_false] at h
  rcases h with rfl | rfl | rfl | rfl | rfl <;> rfl

/-- Puts characters in the place of entities, from the left and once. -/
def unescape (t : Text) : Text := entityPattern.replace (fun entity => [entity.1]) t

/-! ## Reading escaped text -/

theorem writes_char (c : Char) : Text.Writes unescape (char c) [c] := by
  by_cases h : c ∈ special
  · have hread : ∀ rest, entityPattern.read (char c ++ ([] ++ rest)) = some ((c, char c), [] ++ rest) :=
      fun rest => readEntity_append (mem_entities_of_mem_special c h) rest
    have h := Pattern.writes_of_read (fun entity => [entity.1]) hread .nil
    rw [List.append_nil, List.append_nil] at h
    exact h
  · rw [char_of_not_mem h]
    have hc : (c == '&') = false := beq_false_of_ne fun he => h (by rw [he]; decide)
    exact entityPattern_opensWith.writes _ (by simpa using hc)

theorem unescape_text (t : Text) : unescape (text t) = t := by
  have h := Text.Writes.flatMap (l := t) (fun c _ => writes_char c) []
  rw [List.append_nil, ← text_eq_flatMap] at h
  simpa [unescape, Pattern.replace] using h

theorem exists_entity_of_text_eq {t u v : Text} (h : text t = u ++ '&' :: v) : ∃ e ∈ entities, e.2 <+: '&' :: v := by
  rw [text_eq_flatMap] at h
  obtain ⟨c, -, u', v', hc, hv⟩ := Text.exists_of_flatMap_eq_append_cons h
  have hspecial : c ∈ special := by
    by_contra hplain
    rw [char_of_not_mem hplain] at hc
    have hmem : '&' ∈ [c] := by simp [hc]
    exact hplain (by rw [← List.mem_singleton.1 hmem]; decide)
  have hentity := mem_entities_of_mem_special c hspecial
  refine ⟨_, hentity, ?_⟩
  -- the `&` of the entity is its first character
  cases u' with
  | nil =>
    rw [hc, List.nil_append]
    exact List.cons_prefix_cons.2 ⟨rfl, hv⟩
  | cons d u' =>
    have htail := (ampersand_of_mem_entities _ hentity).2
    simp [hc] at htail

/-- Escaped text has no character that delimits markup, and every `&` in it begins one of the five entities.
Replacing these gives back the text. Texts are escaped part by part and character by character: not going through a
text without special characters makes no difference. -/
theorem text_faithful (s t : Text) :
    ('<' ∉ text s ∧ '>' ∉ text s ∧ '"' ∉ text s ∧ '\'' ∉ text s) ∧
      (∀ u v, text s = u ++ '&' :: v → ∃ e ∈ entities, e.2 <+: '&' :: v) ∧
      unescape (text s) = s ∧
      text (s ++ t) = text s ++ text t ∧
      text s = s.flatMap char := by
  have hdelimiter : ∀ c, isDelimiter c = true → c ∉ text s := fun c hc hmem => by
    simp [not_isDelimiter_of_mem_text hmem] at hc
  refine ⟨⟨?_, ?_, ?_, ?_⟩, fun u v => exists_entity_of_text_eq, unescape_text s, text_append s t, text_eq_flatMap s⟩
  all_goals exact hdelimiter _ (by decide)

/-- A text that looks escaped already. -/
example : text "&lt;&".toList = "&amp;lt;&amp;".toList ∧ unescape "&amp;lt;&amp;".toList = "&lt;&".toList := by
  decide +kernel

end Escape
end HtmlTemplate
